import Cawala.Model.Auth
import Cawala.Model.Commit

/-! # Canonical encodings

Fixed-width fields are read off by their width, length-prefixed ones by their prefix: what is
encoded is determined by its bytes. -/

namespace Cawala

variable [Crypto]

@[simp] theorem encodeU64_length (n : UInt64) : (encodeU64 n).length = 8 := leBytes_length 8 _

theorem encodeU64_injective {m n : UInt64} (h : encodeU64 m = encodeU64 n) : m = n := by
  apply UInt64.toNat_inj.mp
  exact leBytes_injective (m.toNat_lt.trans_eq (by norm_num)) (n.toNat_lt.trans_eq (by norm_num)) h

/-- A fixed-width number is read off the front. -/
theorem encodeU64_append_inj {m n : UInt64} {xs ys : Bytes}
    (h : encodeU64 m ++ xs = encodeU64 n ++ ys) : m = n ∧ xs = ys := by
  obtain ⟨hmn, hrest⟩ := List.append_inj h (by simp)
  exact ⟨encodeU64_injective hmn, hrest⟩

/-! ## Node ids -/

/-- A node id whose length fits its prefix, as every string in memory does. -/
def Addressable (id : NodeId) : Prop := (utf8 id).length < 2 ^ 64

/-- A length-prefixed id is read off the front. -/
theorem encodeNodeId_append_inj {id id' : NodeId} {xs ys : Bytes} (hid : Addressable id)
    (hid' : Addressable id') (h : encodeNodeId id ++ xs = encodeNodeId id' ++ ys) :
    id = id' ∧ xs = ys := by
  simp only [encodeNodeId, List.append_assoc] at h
  obtain ⟨hwidth, hrest⟩ := List.append_inj h (by simp)
  have hlen : (utf8 id).length = (utf8 id').length :=
    leBytes_injective (hid.trans_eq (by norm_num)) (hid'.trans_eq (by norm_num)) hwidth
  obtain ⟨hutf8, hrest⟩ := List.append_inj hrest hlen
  exact ⟨utf8_injective hutf8, hrest⟩

/-! ## Orders and requests -/

/-- A request that names two nodes is determined by its bytes, whatever the ids contain. -/
theorem encodeRequest_inj {first second first' second' : NodeId} {amount amount' : Amount}
    {nonce expiry nonce' expiry' : UInt64} (hfirst : Addressable first)
    (hsecond : Addressable second) (hfirst' : Addressable first') (hsecond' : Addressable second')
    (h : encodeRequest first second amount nonce expiry
      = encodeRequest first' second' amount' nonce' expiry') :
    first = first' ∧ second = second' ∧ amount = amount' ∧ nonce = nonce' ∧ expiry = expiry' := by
  simp only [encodeRequest, List.append_assoc] at h
  obtain ⟨hid, h⟩ := encodeNodeId_append_inj hfirst hfirst' h
  obtain ⟨hid', h⟩ := encodeNodeId_append_inj hsecond hsecond' h
  obtain ⟨hamount, h⟩ := encodeU64_append_inj h
  obtain ⟨hnonce, h⟩ := encodeU64_append_inj h
  exact ⟨hid, hid', hamount, hnonce, encodeU64_injective h⟩

theorem PaymentOrder.encode_inj {o o' : PaymentOrder} (hfirst : Addressable o.from_)
    (hsecond : Addressable o.to_) (hfirst' : Addressable o'.from_)
    (hsecond' : Addressable o'.to_) (h : o.encode = o'.encode) : o = o' := by
  obtain ⟨h₁, h₂, hamount, hnonce, hexpiry⟩ :=
    encodeRequest_inj hfirst hsecond hfirst' hsecond' h
  cases o
  cases o'
  simp_all

theorem IssueRequest.encode_inj {r r' : IssueRequest} (hfirst : Addressable r.node)
    (hsecond : Addressable r.account) (hfirst' : Addressable r'.node)
    (hsecond' : Addressable r'.account) (h : r.encode = r'.encode) : r = r' := by
  obtain ⟨h₁, h₂, hamount, hnonce, hexpiry⟩ :=
    encodeRequest_inj hfirst hsecond hfirst' hsecond' h
  cases r
  cases r'
  simp_all

theorem BurnRequest.encode_inj {r r' : BurnRequest} (hfirst : Addressable r.node)
    (hsecond : Addressable r.account) (hfirst' : Addressable r'.node)
    (hsecond' : Addressable r'.account) (h : r.encode = r'.encode) : r = r' := by
  obtain ⟨h₁, h₂, hamount, hnonce, hexpiry⟩ :=
    encodeRequest_inj hfirst hsecond hfirst' hsecond' h
  cases r
  cases r'
  simp_all

theorem PrefundRequest.encode_inj {r r' : PrefundRequest} (hfirst : Addressable r.node)
    (hsecond : Addressable r.child) (hfirst' : Addressable r'.node)
    (hsecond' : Addressable r'.child) (h : r.encode = r'.encode) : r = r' := by
  obtain ⟨h₁, h₂, hamount, hnonce, hexpiry⟩ :=
    encodeRequest_inj hfirst hsecond hfirst' hsecond' h
  cases r
  cases r'
  simp_all

theorem EdgeCloseRequest.encode_inj {r r' : EdgeCloseRequest} (hr : Addressable r.node)
    (hr' : Addressable r'.node) (h : r.encode = r'.encode) : r = r' := by
  simp only [encode, List.append_assoc] at h
  obtain ⟨hnode, h⟩ := encodeNodeId_append_inj hr hr' h
  obtain ⟨hamount, h⟩ := encodeU64_append_inj h
  obtain ⟨hnonce, h⟩ := encodeU64_append_inj h
  have hexpiry := encodeU64_injective h
  cases r
  cases r'
  simp_all

/-! ## Commitments -/

end Cawala
