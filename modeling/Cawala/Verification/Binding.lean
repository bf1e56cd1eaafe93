import Cawala.Verification.Inclusion

/-! # What the roots commit to

A root does not include the number of its leaves. It commits to them all the same: leaves,
nodes and the empty tree are hashed apart, so two trees of one root have one shape. -/

namespace Cawala

open Std (ExtTreeMap)
open Library Library.Merkle

section

variable [Crypto]

/-! ## State leaves -/

omit [Crypto] in
/-- The accounts of a node list its children and all its balances. -/
theorem accounts_injective {a b : Balances} (h : a.accounts = b.accounts) : a = b := by
  have hchild : ∀ (id : NodeId) (v : Amount),
      a.children[id]? = some v ↔ b.children[id]? = some v := by
    intro id v
    have hmem : ∀ c : Balances,
        (AccountRef.child id, (v.toNat : ℤ)) ∈ c.accounts ↔ c.children[id]? = some v := by
      intro c
      simp only [mem_accounts_child, Int.ofNat_inj, UInt64.toNat_inj, exists_eq_right]
    rw [← hmem, h, hmem]
  have hparent : a.parent = b.parent := by
    simp only [Balances.accounts, List.cons.injEq, Prod.mk.injEq, true_and] at h
    exact UInt64.toNat_inj.mp (by exact_mod_cast h.1)
  have hchildren : a.children = b.children :=
    ExtTreeMap.ext_getElem? fun id => Option.ext (hchild id)
  cases a
  cases b
  simp only at hparent hchildren
  rw [hparent, hchildren]

omit [Crypto] in
/-- States are equal when they open the same accounts and hold the same balances. -/
theorem balances_ext {a b : Balances} (hopen : ∀ id, id ∈ a.children ↔ id ∈ b.children)
    (hbalance : ∀ account, a.balance account = b.balance account) : a = b := by
  have hparent : a.parent = b.parent := by
    have hvalue := hbalance .parent
    simp only [Balances.balance] at hvalue
    exact UInt64.toNat_inj.mp (by exact_mod_cast hvalue)
  have hchildren : a.children = b.children := by
    refine ExtTreeMap.ext_getElem? fun id => ?_
    have hvalue := hbalance (.child id)
    have hboth := hopen id
    simp only [Balances.balance, Balances.childBalance,
      ExtTreeMap.getD_eq_getD_getElem?] at hvalue
    rw [ExtTreeMap.mem_iff_isSome_getElem?, ExtTreeMap.mem_iff_isSome_getElem?] at hboth
    cases ha : a.children[id]? with
    | none =>
        cases hb : b.children[id]? with
        | none => rfl
        | some w => simp [ha, hb] at hboth
    | some v =>
        cases hb : b.children[id]? with
        | none => simp [ha, hb] at hboth
        | some w =>
            simp only [ha, hb, Option.getD_some, Nat.cast_inj, UInt64.toNat_inj] at hvalue
            rw [hvalue]
  cases a
  cases b
  simp only at hparent hchildren
  rw [hparent, hchildren]

theorem stateLeaves_injective (hstate : StateHashInjective) {a b : Balances}
    (h : stateLeaves a = stateLeaves b) : a.accounts = b.accounts := by
  have hleaves : ∀ balances : Balances, List.Forall₂ (fun (entry : AccountRef × ℤ) leaf =>
      (0 ≤ entry.2 ∧ entry.2 < 2 ^ 64) ∧ stateLeafHash entry.1 entry.2 = leaf)
      balances.accounts (stateLeaves balances) := by
    intro balances
    rw [stateLeaves, List.forall₂_map_right_iff, List.forall₂_same]
    exact fun entry hentry => ⟨accounts_balance_range hentry, rfl⟩
  refine List.left_unique_forall₂' ?_ (hleaves a) (h ▸ hleaves b)
  intro entry entry' leaf hentry hentry'
  obtain ⟨haccount, hbalance⟩ :=
    stateLeafHash_injective hstate hentry.1 hentry'.1 (hentry.2.trans hentry'.2.symm)
  exact Prod.ext haccount hbalance

end

/-! ## Hashes that are kept apart -/

section

variable [Crypto] [Postcard]

def LeafHashInjective : Prop := ∀ h h' : Hash, leafHash h = leafHash h' → h = h'

def EntryHashInjective : Prop :=
  ∀ (e e' : Entry) (h : Hash), entryHash e = .ok h → entryHash e' = .ok h → e = e'

/-- Leaf and node hashes are injective, their ranges are disjoint, and neither range holds
the root of the empty tree. -/
structure HashesApart : Prop where
  nodes : NodeHashInjective
  states : StateHashInjective
  leaves : LeafHashInjective
  entries : EntryHashInjective
  stateNotNode : StateLeavesApart
  stateNotEmpty : ∀ (account : AccountRef) (x : ℤ), stateLeafHash account x ≠ emptyTreeRoot
  leafNotNode : ∀ h a b : Hash, leafHash h ≠ nodeHash a b
  leafNotEmpty : ∀ h : Hash, leafHash h ≠ emptyTreeRoot
  emptyNotNode : ∀ a b : Hash, emptyTreeRoot ≠ nodeHash a b

/-- The contexts keep the hashes apart, so it is enough that BLAKE3 has no collisions and
that the codec is injective. -/
theorem hashesApart_of_collisionFree (hfree : Crypto.CollisionFree)
    (hcodec : ∀ (e e' : Entry) (bytes : Bytes), Postcard.toAllocvec e = .ok bytes →
      Postcard.toAllocvec e' = .ok bytes → e = e') : HashesApart where
  nodes := nodeHashInjective_of_collisionFree hfree
  states := stateHashInjective_of_collisionFree hfree
  leaves := by
    intro h h' heq
    simpa using (hfree _ _ _ _ heq).2
  entries := by
    intro e e' h he he'
    simp only [entryHash, Entry.canonicalBytes, bind_eq_ok, pure_eq_ok] at he he'
    obtain ⟨bytes, hbytes, rfl⟩ := he
    obtain ⟨bytes', hbytes', heq⟩ := he'
    obtain rfl : bytes' = bytes := by simpa using (hfree _ _ _ _ heq).2
    cases henc : Postcard.toAllocvec e with
    | error detail => simp [henc] at hbytes
    | ok body =>
        cases henc' : Postcard.toAllocvec e' with
        | error detail => simp [henc'] at hbytes'
        | ok body' =>
            simp only [henc, henc', Except.ok.injEq] at hbytes hbytes'
            obtain rfl : body' = body := by simpa using hbytes'.trans hbytes.symm
            exact hcodec e e' body' henc henc'
  stateNotNode := stateLeavesApart_of_collisionFree hfree
  stateNotEmpty := by
    intro account x heq
    simpa using (hfree _ _ _ _ heq).1
  leafNotNode := by
    intro h a b heq
    simpa using (hfree _ _ _ _ heq).1
  leafNotEmpty := by
    intro h heq
    simpa using (hfree _ _ _ _ heq).1
  emptyNotNode := by
    intro a b heq
    simpa using (hfree _ _ _ _ heq).1

/-! ## Binding -/

theorem stateRoot_injective (hashes : HashesApart) {a b : Balances}
    (h : stateRoot a = stateRoot b) : a = b := by
  have hleaf : ∀ balances : Balances, ∀ y ∈ stateLeaves balances,
      y ≠ root [] ∧ ∀ l r, y ≠ nodeHash l r := by
    intro balances y hy
    obtain ⟨account, x, -, rfl⟩ := mem_stateLeaves.mp hy
    exact ⟨hashes.stateNotEmpty account x, hashes.stateNotNode account x⟩
  have hleaves : stateLeaves a = stateLeaves b :=
    root_isBranching.injective hashes.nodes hashes.emptyNotNode (hleaf a) (hleaf b) h
  exact accounts_injective (stateLeaves_injective hashes.states hleaves)

theorem entryLeaves_forall₂ {entries : List SignedEntry} {leaves : List Hash}
    (h : entryLeaves entries = .ok leaves) :
    List.Forall₂ (fun e leaf => ∃ hash, entryHash e = .ok hash ∧ leafHash hash = leaf)
      (entries.map SignedEntry.entry) leaves := by
  rw [List.forall₂_map_left_iff]
  refine (mapM_eq_ok_iff_forall₂.mp h).imp ?_
  intro signed leaf hleaf
  simpa only [bind_eq_ok, pure_eq_ok] using hleaf

theorem entryRoot_injective (hashes : HashesApart) {entries entries' : List SignedEntry}
    {r : Hash} (h : entryRoot entries = .ok r) (h' : entryRoot entries' = .ok r) :
    entries.map SignedEntry.entry = entries'.map SignedEntry.entry := by
  simp only [entryRoot, bind_eq_ok, pure_eq_ok] at h h'
  obtain ⟨leaves, hleaves, rfl⟩ := h
  obtain ⟨leaves', hleaves', hroot⟩ := h'
  have hleaf : ∀ (es : List SignedEntry) (ls : List Hash), entryLeaves es = .ok ls →
      ∀ y ∈ ls, y ≠ root [] ∧ ∀ a b, y ≠ nodeHash a b := by
    intro es ls hls y hy
    obtain ⟨e, -, hash, -, rfl⟩ := exists_of_forall₂_right (entryLeaves_forall₂ hls) hy
    exact ⟨hashes.leafNotEmpty hash, hashes.leafNotNode hash⟩
  have hsame : leaves' = leaves :=
    root_isBranching.injective hashes.nodes hashes.emptyNotNode (hleaf _ _ hleaves')
      (hleaf _ _ hleaves) hroot
  refine List.left_unique_forall₂' ?_ (entryLeaves_forall₂ hleaves)
    (hsame ▸ entryLeaves_forall₂ hleaves')
  intro e e' leaf he he'
  obtain ⟨hash, hhash, rfl⟩ := he
  obtain ⟨hash', hhash', heq⟩ := he'
  rw [hashes.leaves _ _ heq] at hhash'
  exact hashes.entries e e' hash hhash hhash'

/-- The roots are binding: states with one root open the same accounts with the same
balances, and logs with one root have the same entries at the same positions. -/
theorem roots_binding (hashes : HashesApart) :
    (∀ a b : Balances, stateRoot a = stateRoot b
      ↔ (∀ id, id ∈ a.children ↔ id ∈ b.children)
        ∧ ∀ account, a.balance account = b.balance account)
    ∧ ∀ (entries entries' : List SignedEntry) (r : Hash),
        entryRoot entries = .ok r → entryRoot entries' = .ok r →
          entries.length = entries'.length
          ∧ ∀ i : ℕ, entries[i]?.map SignedEntry.entry = entries'[i]?.map SignedEntry.entry := by
  constructor
  · intro a b
    constructor
    · intro h
      rw [stateRoot_injective hashes h]
      exact ⟨fun _ => Iff.rfl, fun _ => rfl⟩
    · intro h
      rw [balances_ext h.1 h.2]
  · intro entries entries' r h h'
    have hsame := entryRoot_injective hashes h h'
    refine ⟨by simpa using congrArg List.length hsame, ?_⟩
    intro i
    rw [← List.getElem?_map, ← List.getElem?_map, hsame]

end

section Concrete

open Concrete

def secondOpenEntry : Entry :=
  { openEntry.entry with seq := 1, height := 1, body := .openAccount "b" .node }

/-- The postcard layout of two entries; any other entry is refused. -/
local instance twoEntryCodec : Postcard where
  toAllocvec e :=
    if e = openEntry.entry ∨ e = secondOpenEntry then .ok (Concrete.entry e) else .error "refused"

theorem twoEntryCodec_injective (e e' : Entry) (bytes : Bytes)
    (h : Postcard.toAllocvec e = .ok bytes) (h' : Postcard.toAllocvec e' = .ok bytes) :
    e = e' := by
  have hdiff : Concrete.entry openEntry.entry ≠ Concrete.entry secondOpenEntry := by decide +kernel
  simp only [Postcard.toAllocvec, ite_ok_eq_ok, Except.ok.injEq] at h h'
  have hsame : Concrete.entry e = Concrete.entry e' := h.2.trans h'.2.symm
  rcases h.1 with rfl | rfl
  · rcases h'.1 with rfl | rfl
    · rfl
    · exact absurd hsame hdiff
  · rcases h'.1 with rfl | rfl
    · exact absurd hsame.symm hdiff
    · rfl

/-- An account without a balance is committed all the same, and so is a log's length. -/
theorem roots_binding_two :
    stateRoot { parent := 5, children := (∅ : ExtTreeMap NodeId Amount).insert "a" 0 }
        ≠ stateRoot { parent := 5, children := ∅ }
      ∧ ∃ r r', entryRoot [openEntry] = .ok r
        ∧ entryRoot [openEntry, { openEntry with entry := secondOpenEntry }] = .ok r' ∧ r ≠ r' := by
  have hbinding := roots_binding
    (hashesApart_of_collisionFree collisionFree twoEntryCodec_injective)
  constructor
  · intro h
    have hopen := ((hbinding.1 _ _).mp h).1 "a"
    simp at hopen
  · have hfirst : (entryRoot [openEntry]).toBool = true := by decide +kernel
    have hboth :
        (entryRoot [openEntry, { openEntry with entry := secondOpenEntry }]).toBool = true := by
      decide +kernel
    obtain ⟨r, hr⟩ := exists_ok_of_toBool hfirst
    obtain ⟨r', hr'⟩ := exists_ok_of_toBool hboth
    refine ⟨r, r', hr, hr', ?_⟩
    intro heq
    have hlen := (hbinding.2 _ _ r hr (heq ▸ hr')).1
    simp at hlen

end Concrete

end Cawala
