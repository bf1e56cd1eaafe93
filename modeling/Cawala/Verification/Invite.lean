import Cawala.Library.Except
import Cawala.Model.Invite

/-! # Invites read back

An invite is spelled in its URI, so it is read back from it; and what is read depends on the
pairs of the query alone, not on their order or on pairs of other names. -/

namespace Cawala

open Library Urlencoded

/-! ## Encoded text -/

theorem forall_byte {p : UInt8 → Prop} (h : ∀ n : Fin 256, p (UInt8.ofNat n)) (b : UInt8) :
    p b := by
  have := h ⟨b.toNat, b.toNat_lt⟩
  simpa using this

instance : DecidablePred IsDelimiter := fun byte =>
  inferInstanceAs (Decidable (byte = 37 ∨ byte = 43 ∨ byte = 38 ∨ byte = 61))

theorem unreserved_literal (b : UInt8) : isUnreserved b = true →
    TextFile.utf8 [Char.ofNat b.toNat] = [b] ∧ ¬ IsDelimiter b := by
  revert b
  exact forall_byte (by decide +kernel)

theorem hexUpper_values (b : UInt8) :
    (TextFile.utf8 (hexPair hexUpper b)).map hexValue = [some (b >>> 4), some (b &&& 0x0f)]
      ∧ (16 : UInt8) * (b >>> 4) + (b &&& 0x0f) = b := by
  revert b
  exact forall_byte (by decide +kernel)

theorem hexLower_values (b : UInt8) :
    (TextFile.utf8 (hexPair hexLower b)).map hexNibble = [some (b >>> 4), some (b &&& 0x0f)]
      ∧ (b >>> 4) <<< 4 ||| (b &&& 0x0f) = b := by
  revert b
  exact forall_byte (by decide +kernel)

theorem hexLower_plain (b : UInt8) :
    ∀ byte ∈ TextFile.utf8 (hexPair hexLower b), ¬ IsDelimiter byte := by
  intro byte hbyte
  have hvalue : hexNibble byte ∈ [some (b >>> 4), some (b &&& 0x0f)] := by
    rw [← (hexLower_values b).1]
    exact List.mem_map_of_mem hbyte
  rintro (rfl | rfl | rfl | rfl) <;> simp [hexNibble] at hvalue

theorem digit_plain {c : Char} (h : c.isDigit = true) :
    ∀ byte ∈ TextFile.utf8 [c], ¬ IsDelimiter byte := by
  have hvalue : ∀ n : Fin 10, ∀ byte ∈ TextFile.utf8 [Char.ofNat (48 + n)], ¬ IsDelimiter byte := by
    decide +kernel
  have hzero : '0'.toNat = 48 := rfl
  have hnine : '9'.toNat = 57 := rfl
  rw [Char.isDigit_iff_toNat, hzero, hnine] at h
  have hc := hvalue ⟨c.toNat - 48, by omega⟩
  have hnat : 48 + (c.toNat - 48) = c.toNat := by omega
  simpa only [hnat, Char.ofNat_toNat] using hc

/-- Text without delimiters spells itself. -/
theorem spells_plain {bytes : List UInt8} (h : ∀ byte ∈ bytes, ¬ IsDelimiter byte) :
    Spells bytes bytes := by
  induction bytes with
  | nil => exact .nil
  | cons byte bytes ih =>
      obtain ⟨hbyte, hbytes⟩ := List.forall_mem_cons.mp h
      exact .literal byte hbyte (ih hbytes)

theorem spells_percentEncodeByte (b : UInt8) :
    Spells (TextFile.utf8 (percentEncodeByte b)) [b] := by
  by_cases h : isUnreserved b = true
  · obtain ⟨hutf8, hplain⟩ := unreserved_literal b h
    rw [percentEncodeByte, if_pos h, hutf8]
    exact .literal b hplain .nil
  · obtain ⟨hvalues, hsum⟩ := hexUpper_values b
    have hcode : TextFile.utf8 (percentEncodeByte b)
        = 37 :: TextFile.utf8 (hexPair hexUpper b) := by
      rw [percentEncodeByte, if_neg h, TextFile.utf8_cons]
      rfl
    rw [hcode]
    match hdigits : TextFile.utf8 (hexPair hexUpper b) with
    | [hi, lo] =>
        rw [hdigits] at hvalues
        simp only [List.map_cons, List.map_nil, List.cons.injEq, and_true] at hvalues
        have hspells := Spells.escaped hi lo _ _ hvalues.1 hvalues.2 .nil
        rwa [hsum] at hspells
    | [] | [_] | _ :: _ :: _ :: _ => simp [hdigits] at hvalues

theorem spells_percentEncode (value : String) :
    Spells (TextFile.utf8 (percentEncode value).toList) (TextFile.utf8 value.toList) := by
  rw [percentEncode, String.toList_ofList]
  induction TextFile.utf8 value.toList with
  | nil => exact .nil
  | cons b bytes ih =>
      rw [List.flatMap_cons, TextFile.utf8_append]
      exact (spells_percentEncodeByte b).append ih

theorem spells_toHex (bytes : List UInt8) :
    Spells (TextFile.utf8 (toHex bytes).toList) (TextFile.utf8 (toHex bytes).toList) := by
  rw [toHex, String.toList_ofList]
  induction bytes with
  | nil => exact .nil
  | cons b bytes ih =>
      rw [List.flatMap_cons, TextFile.utf8_append]
      exact (spells_plain (hexLower_plain b)).append ih

theorem spells_repr (n : ℕ) :
    Spells (TextFile.utf8 n.repr.toList) (TextFile.utf8 n.repr.toList) := by
  refine spells_plain ?_
  intro byte hbyte
  rw [Nat.toList_repr] at hbyte
  obtain ⟨c, hc, hbyte⟩ := List.mem_flatMap.mp hbyte
  have hdigit : c.isDigit = true := Nat.isDigit_of_mem_toDigits (by decide) (by decide) hc
  refine digit_plain hdigit byte ?_
  simpa [TextFile.utf8] using hbyte

/-! ## Numbers and keys -/

theorem stripPlus_of_notMem {digits : List Char} (h : '+' ∉ digits) :
    stripPlus digits = digits := by
  unfold stripPlus
  split
  · exact absurd List.mem_cons_self h
  · rfl

theorem parseUnsigned_repr {limit n : ℕ} (h : n < limit) :
    parseUnsigned limit n.repr = some n := by
  have hplus : '+' ∉ Nat.toDigits 10 n := by
    intro hmem
    have : '+'.isDigit = true := Nat.isDigit_of_mem_toDigits (by decide) (by decide) hmem
    cases this
  have hall : (Nat.toDigits 10 n).all Char.isDigit = true := by
    rw [List.all_eq_true]
    intro c hc
    exact Nat.isDigit_of_mem_toDigits (by decide) (by decide) hc
  rw [parseUnsigned, Nat.toList_repr]
  simp only [stripPlus_of_notMem hplus, Nat.ofDigitChars_ten_toDigits, hall, h,
    Nat.toDigits_ne_nil, ne_eq,
    not_false_eq_true, and_self, if_true]

theorem decodeHexPairs_toHex (bytes : List UInt8) :
    decodeHexPairs (TextFile.utf8 (bytes.flatMap (hexPair hexLower))) = some bytes := by
  induction bytes with
  | nil => rfl
  | cons b bytes ih =>
      obtain ⟨hvalues, hbyte⟩ := hexLower_values b
      rw [List.flatMap_cons, TextFile.utf8_append]
      match hdigits : TextFile.utf8 (hexPair hexLower b) with
      | [hi, lo] =>
          rw [hdigits] at hvalues
          simp only [List.map_cons, List.map_nil, List.cons.injEq, and_true] at hvalues
          simp only [List.cons_append, List.nil_append, decodeHexPairs, hvalues.1, hvalues.2, ih,
            Option.bind_eq_bind, Option.bind_some, hbyte]
      | [] | [_] | _ :: _ :: _ :: _ => simp [hdigits] at hvalues

theorem length_toHex (bytes : List UInt8) :
    (TextFile.utf8 (bytes.flatMap (hexPair hexLower))).length = 2 * bytes.length := by
  induction bytes with
  | nil => rfl
  | cons b bytes ih =>
      have hpair : (TextFile.utf8 (hexPair hexLower b)).length = 2 := by
        simpa using congrArg List.length (hexLower_values b).1
      rw [List.flatMap_cons, TextFile.utf8_append, List.length_append, hpair, ih, List.length_cons]
      omega

/-- 32 bytes are read back from their hex digits. -/
theorem decodeHex32_toHex {bytes : List UInt8} (h : bytes.length = 32) :
    decodeHex32 (toHex bytes) = some bytes := by
  have hraw : (toHex bytes).toByteArray.data.toList
      = TextFile.utf8 (bytes.flatMap (hexPair hexLower)) := by
    rw [toHex, String.toByteArray_ofList]
    exact List.toList_data_toByteArray
  rw [decodeHex32, hraw, if_neg, decodeHexPairs_toHex]
  rw [length_toHex, h]
  decide

namespace Invite

/-! ## Reading the pairs -/

def Param.name : Param → String
  | .parent => "parent"
  | .op => "op"
  | .slot => "slot"
  | .exp => "exp"
  | .label => "label"
  | .relay => "relay"
  | .ip => "ip"

theorem Param.eq_name {name : String} {param : Param} (h : Param.ofName name = some param) :
    name = param.name := by
  unfold Param.ofName at h
  split at h <;> cases h <;> rfl

@[simp] theorem Param.ofName_name (param : Param) : Param.ofName param.name = some param := by
  cases param <;> rfl

/-- Values of different names are kept in any order. -/
theorem Params.set_comm (params : Params) {name name' : String} (hne : name ≠ name')
    (value value' : String) :
    (params.set name value).set name' value' = (params.set name' value').set name value := by
  unfold Params.set
  cases h : Param.ofName name with
  | none => rfl
  | some param =>
      cases h' : Param.ofName name' with
      | none => rfl
      | some param' =>
          have hparam : param ≠ param' := by
            rintro rfl
            exact hne ((Param.eq_name h).trans (Param.eq_name h').symm)
          exact Function.update_comm hparam _ _ _

/-- The values of the pairs, kept in turn. -/
def Params.setAll (params : Params) (pairs : List (String × String)) : Params :=
  pairs.foldl (fun params pair => params.set pair.1 pair.2) params

theorem readParams_of_nodup {seen : List String} {params : Params}
    {pairs : List (String × String)} (h : (pairs.map Prod.fst).Nodup)
    (hseen : ∀ name ∈ pairs.map Prod.fst, name ∉ seen) :
    readParams seen params pairs = .ok (params.setAll pairs) := by
  induction pairs generalizing seen params with
  | nil => rfl
  | cons pair pairs ih =>
      obtain ⟨name, value⟩ := pair
      rw [List.map_cons, List.nodup_cons] at h
      rw [List.map_cons, List.forall_mem_cons] at hseen
      rw [readParams, if_neg hseen.1]
      refine ih h.2 ?_
      intro other hother hmem
      rcases List.mem_append.mp hmem with hmem | hmem
      · exact hseen.2 other hother hmem
      · rw [List.mem_singleton.mp hmem] at hother
        exact h.1 hother

theorem readParams_duplicate {seen : List String} {params : Params}
    {pairs : List (String × String)}
    (h : ¬ ((pairs.map Prod.fst).Nodup ∧ ∀ name ∈ pairs.map Prod.fst, name ∉ seen)) :
    ∃ name, readParams seen params pairs = .error (.duplicate name) := by
  induction pairs generalizing seen params with
  | nil => simp at h
  | cons pair pairs ih =>
      obtain ⟨name, value⟩ := pair
      by_cases hname : name ∈ seen
      · refine ⟨name, ?_⟩
        rw [readParams, if_pos hname]
      · rw [readParams, if_neg hname]
        refine ih ?_
        rintro ⟨hnodup, hfresh⟩
        refine h ⟨?_, ?_⟩
        · rw [List.map_cons, List.nodup_cons]
          refine ⟨?_, hnodup⟩
          intro hmem
          exact hfresh name hmem (List.mem_append_right _ (List.mem_singleton.mpr rfl))
        · rw [List.map_cons, List.forall_mem_cons]
          refine ⟨hname, ?_⟩
          intro other hother hmem
          exact hfresh other hother (List.mem_append_left _ hmem)

/-- The order of pairs of distinct names does not matter. -/
theorem Params.setAll_perm (params : Params) {pairs pairs' : List (String × String)}
    (h : pairs.Perm pairs') (hnodup : (pairs.map Prod.fst).Nodup) :
    params.setAll pairs = params.setAll pairs' := by
  refine h.foldl_eq' ?_ params
  intro pair hpair pair' hpair' params
  by_cases hname : pair.1 = pair'.1
  · rw [List.inj_on_of_nodup_map hnodup hpair hpair' hname]
  · exact params.set_comm hname _ _

theorem Params.setAll_unknown (params : Params) {pairs : List (String × String)}
    (h : ∀ name ∈ pairs.map Prod.fst, Param.ofName name = none) :
    params.setAll pairs = params := by
  induction pairs with
  | nil => rfl
  | cons pair pairs ih =>
      rw [List.map_cons, List.forall_mem_cons] at h
      have hset : params.set pair.1 pair.2 = params := by rw [Params.set, h.1]
      rw [Params.setAll, List.foldl_cons, hset]
      exact ih h.2

/-- A parameter that was not read yet takes an optional value. -/
theorem Params.setAll_optional {params : Params} {param : Param} (hparam : params param = none)
    (value : Option String) :
    params.setAll (value.toList.map fun value => (param.name, value))
      = Function.update params param value := by
  cases value with
  | none =>
      conv_rhs => rw [← hparam, Function.update_eq_self]
      rfl
  | some value =>
      change params.set param.name value = _
      rw [Params.set, Param.ofName_name]

/-- All parameters, in the order in which they are written. -/
def Param.all : List Param := [.parent, .op, .slot, .exp, .label, .relay, .ip]

/-- The pairs that write optional values for some parameters. -/
def Params.pairs (params : Params) (ps : List Param) : List (String × String) :=
  ps.flatMap fun param => (params param).toList.map fun value => (param.name, value)

theorem Params.names_pairs (params : Params) (ps : List Param) :
    ((params.pairs ps).map Prod.fst).Sublist (ps.map Param.name) := by
  induction ps with
  | nil => exact .slnil
  | cons param ps ih =>
      rw [pairs, List.flatMap_cons, List.map_append]
      cases params param with
      | none => exact ih.cons _
      | some value => exact ih.cons_cons _

theorem Params.setAll_pairs (params values : Params) {ps : List Param} (hnodup : ps.Nodup)
    (hps : ∀ param ∈ ps, params param = none) :
    params.setAll (values.pairs ps)
      = fun param => if param ∈ ps then values param else params param := by
  induction ps generalizing params with
  | nil => rfl
  | cons first ps ih =>
      rw [List.nodup_cons] at hnodup
      rw [List.forall_mem_cons] at hps
      have hhead : params.setAll (values.pairs (first :: ps))
          = Params.setAll (Function.update params first (values first)) (values.pairs ps) := by
        rw [← Params.setAll_optional hps.1 (values first), pairs, List.flatMap_cons, setAll,
          List.foldl_append]
        rfl
      have hrest : ∀ param ∈ ps, Function.update params first (values first) param = none := by
        intro param hparam
        rw [Function.update_of_ne]
        · exact hps.2 param hparam
        · rintro rfl
          exact hnodup.1 hparam
      rw [hhead, ih _ hnodup.2 hrest]
      funext param
      by_cases hparam : param = first
      · subst hparam
        simp [hnodup.1]
      · simp [hparam]

section

variable [Crypto] [InvitePrimitives]

open InvitePrimitives

/-! ## Writing -/

def params (i : Invite) : Params
  | .parent => some i.parent
  | .op => some (toHex (operatorBytes i.operator))
  | .slot => i.slot.map fun slot => slot.toNat.repr
  | .exp => i.expiry.map fun expiry => expiry.toNat.repr
  | .label => i.label
  | .relay => i.relay.map asStr
  | .ip => i.ip.map addrText

/-- How a value is written: free text is percent-encoded. -/
def Param.code : Param → String → String
  | .op | .slot | .exp => fun value => value
  | .parent | .label | .relay | .ip => percentEncode

def Param.piece (param : Param) (value : String) : List UInt8 :=
  TextFile.utf8 param.name.toList ++ 61 :: TextFile.utf8 (param.code value).toList

def queryText (i : Invite) : String :=
  "parent=" ++ percentEncode i.parent ++ "&op=" ++ toHex (operatorBytes i.operator)
    ++ optionalParam "slot" (i.slot.map fun slot => slot.toNat.repr)
    ++ optionalParam "exp" (i.expiry.map fun expiry => expiry.toNat.repr)
    ++ optionalParam "label" (i.label.map percentEncode)
    ++ optionalParam "relay" (i.relay.map fun relay => percentEncode (asStr relay))
    ++ optionalParam "ip" (i.ip.map fun ip => percentEncode (addrText ip))

theorem encode_eq (i : Invite) : i.encode = "cawala://join?" ++ i.queryText := by
  have hprefix : inviteScheme ++ "://" ++ inviteHost ++ "?parent="
      = "cawala://join?" ++ "parent=" := by decide
  rw [encode, hprefix, queryText]
  simp only [String.append_assoc]

omit [Crypto] [InvitePrimitives] in
theorem utf8_optionalParam (name : String) (value : Option String) :
    TextFile.utf8 (optionalParam name value).toList
      = value.toList.flatMap fun value =>
          38 :: (TextFile.utf8 name.toList ++ 61 :: TextFile.utf8 value.toList) := by
  cases value with
  | none => rfl
  | some value =>
      have hamp : TextFile.utf8 "&".toList = [38] := by decide
      have heq : TextFile.utf8 "=".toList = [61] := by decide
      simp only [optionalParam, String.toList_append, TextFile.utf8_append, hamp, heq,
        List.append_assoc, List.singleton_append, Option.toList_some, List.flatMap_cons,
        List.flatMap_nil, List.append_nil]

omit [Crypto] [InvitePrimitives] in
theorem cons_intercalate {sep : UInt8} {pieces : List (List UInt8)} (h : pieces ≠ []) :
    sep :: List.intercalate [sep] pieces = pieces.flatMap (sep :: ·) := by
  induction pieces with
  | nil => exact absurd rfl h
  | cons piece pieces ih =>
      cases pieces with
      | nil => simp
      | cons next pieces =>
          rw [List.intercalate_cons_cons, List.flatMap_cons, ← ih (List.cons_ne_nil _ _)]
          simp

def pieces (i : Invite) : List (List UInt8) :=
  Param.all.flatMap fun param => (i.params param).toList.map param.piece

theorem utf8_queryText (i : Invite) :
    TextFile.utf8 i.queryText.toList = List.intercalate [38] i.pieces := by
  have hne : i.pieces ≠ [] := by simp [pieces, Param.all, params]
  have hoptional : ∀ {α : Type} (name : String) (value : Option α) (text : α → String)
      (code : String → String),
      TextFile.utf8 (optionalParam name (value.map fun a => code (text a))).toList
        = ((value.map text).toList.map fun v =>
            TextFile.utf8 name.toList ++ 61 :: TextFile.utf8 (code v).toList).flatMap
              (38 :: ·) := by
    intro α name value text code
    rw [utf8_optionalParam]
    cases value <;> simp
  have hparent : TextFile.utf8 "parent=".toList = TextFile.utf8 "parent".toList ++ [61] := by
    decide
  have hop : TextFile.utf8 "&op=".toList = 38 :: TextFile.utf8 "op".toList ++ [61] := by decide
  refine List.cons_injective (a := 38) ?_
  rw [cons_intercalate hne]
  have hslot := hoptional "slot" i.slot (fun slot => slot.toNat.repr) id
  have hexp := hoptional "exp" i.expiry (fun expiry => expiry.toNat.repr) id
  have hlabel := hoptional "label" i.label id percentEncode
  have hrelay := hoptional "relay" i.relay asStr percentEncode
  have hip := hoptional "ip" i.ip addrText percentEncode
  simp only [id_eq] at hslot hexp
  simp only [id_eq, Option.map_id] at hlabel
  simp only [queryText, String.toList_append, TextFile.utf8_append, hslot, hexp, hlabel, hrelay,
    hip, hparent, hop]
  simp only [pieces, Param.all, params, List.flatMap_cons, List.flatMap_nil, List.flatMap_append,
    Option.toList_some, List.map_cons, List.map_nil, List.append_assoc, List.append_nil,
    List.cons_append, List.nil_append]
  rfl

/-- The characters that a URL's query keeps as they are. -/
def isQueryChar (c : Char) : Bool :=
  33 ≤ c.toNat && c.toNat ≤ 126 && c != '"' && c != '#' && c != '<' && c != '>'

omit [Crypto] [InvitePrimitives] in
theorem isQueryChar_percentEncode (value : String) :
    (percentEncode value).toList.all isQueryChar = true := by
  have hbyte : ∀ b, (percentEncodeByte b).all isQueryChar = true :=
    forall_byte (by decide +kernel)
  rw [percentEncode, String.toList_ofList, List.all_flatMap]
  exact List.all_eq_true.mpr fun b _ => hbyte b

omit [Crypto] [InvitePrimitives] in
theorem isQueryChar_toHex (bytes : List UInt8) :
    (toHex bytes).toList.all isQueryChar = true := by
  have hbyte : ∀ b, (hexPair hexLower b).all isQueryChar = true :=
    forall_byte (by decide +kernel)
  rw [toHex, String.toList_ofList, List.all_flatMap]
  exact List.all_eq_true.mpr fun b _ => hbyte b

omit [Crypto] [InvitePrimitives] in
theorem isQueryChar_repr (n : ℕ) : n.repr.toList.all isQueryChar = true := by
  have hdigit : ∀ n : Fin 10, isQueryChar (Char.ofNat (48 + n)) = true := by decide
  have hzero : '0'.toNat = 48 := rfl
  have hnine : '9'.toNat = 57 := rfl
  rw [Nat.toList_repr, List.all_eq_true]
  intro c hc
  have h : c.isDigit = true := Nat.isDigit_of_mem_toDigits (by decide) (by decide) hc
  rw [Char.isDigit_iff_toNat, hzero, hnine] at h
  have hchar := hdigit ⟨c.toNat - 48, by omega⟩
  have hnat : 48 + (c.toNat - 48) = c.toNat := by omega
  simpa only [hnat, Char.ofNat_toNat] using hchar

omit [Crypto] [InvitePrimitives] in
theorem isQueryChar_optionalParam {α : Type} (name : String) {text : α → String}
    (hname : name.toList.all isQueryChar = true)
    (htext : ∀ a, (text a).toList.all isQueryChar = true) (value : Option α) :
    (optionalParam name (value.map text)).toList.all isQueryChar = true := by
  have hamp : "&".toList.all isQueryChar = true := by decide
  have heq : "=".toList.all isQueryChar = true := by decide
  cases value with
  | none => rfl
  | some a =>
      simp only [Option.map_some, optionalParam, String.toList_append, List.all_append, hamp,
        hname, heq, htext, Bool.and_self]

theorem isQueryChar_queryText (i : Invite) : i.queryText.toList.all isQueryChar = true := by
  have hparent : "parent=".toList.all isQueryChar = true := by decide
  have hop : "&op=".toList.all isQueryChar = true := by decide
  have hslot := isQueryChar_optionalParam "slot" (by decide)
    (fun slot : UInt8 => isQueryChar_repr slot.toNat) i.slot
  have hexp := isQueryChar_optionalParam "exp" (by decide)
    (fun expiry : UInt64 => isQueryChar_repr expiry.toNat) i.expiry
  have hlabel := isQueryChar_optionalParam "label" (by decide)
    isQueryChar_percentEncode i.label
  have hrelay := isQueryChar_optionalParam "relay" (by decide)
    (fun relay : Url => isQueryChar_percentEncode (asStr relay)) i.relay
  have hip := isQueryChar_optionalParam "ip" (by decide)
    (fun ip : SocketAddr => isQueryChar_percentEncode (addrText ip)) i.ip
  simp only [queryText, String.toList_append, List.all_append, hparent, hop,
    isQueryChar_percentEncode, isQueryChar_toHex, hslot, hexp, hlabel, hrelay, hip, Bool.and_self]

/-! ## Round trips -/

theorem spells_code {i : Invite} {param : Param} {value : String}
    (h : i.params param = some value) :
    Spells (TextFile.utf8 (param.code value).toList) (TextFile.utf8 value.toList) := by
  cases param with
  | parent | label | relay | ip => exact spells_percentEncode value
  | op =>
      simp only [params, Option.some.injEq] at h
      subst h
      exact spells_toHex _
  | slot | exp =>
      obtain ⟨n, -, rfl⟩ := Option.map_eq_some_iff.mp h
      exact spells_repr _

omit [Crypto] [InvitePrimitives] in
theorem spells_name (param : Param) :
    Spells (TextFile.utf8 param.name.toList) (TextFile.utf8 param.name.toList) := by
  refine spells_plain ?_
  cases param <;> decide +kernel

/-- The query of an invite's URI holds its pairs. -/
theorem pairs_queryText (i : Invite) :
    (Urlencoded.pairs (TextFile.utf8 i.queryText.toList)).map (Prod.map String.ofList String.ofList)
      = i.params.pairs Param.all := by
  have hforall : ∀ ps : List Param, List.Forall₂ SpellsPair
      (ps.flatMap fun param => (i.params param).toList.map param.piece)
      ((i.params.pairs ps).map (Prod.map String.toList String.toList)) := by
    intro ps
    induction ps with
    | nil => exact .nil
    | cons param ps ih =>
        rw [Params.pairs, List.flatMap_cons, List.flatMap_cons, List.map_append]
        cases hvalue : i.params param with
        | none => exact ih
        | some value =>
            exact .cons ⟨_, _, rfl, spells_name param, spells_code hvalue⟩ ih
  have hne : i.pieces ≠ [] := by simp [pieces, Param.all, params]
  rw [utf8_queryText, pairs_intercalate hne (hforall Param.all), List.map_map]
  have hid : Prod.map String.ofList String.ofList ∘ Prod.map String.toList String.toList
      = (id : String × String → String × String) := by
    funext ⟨name, value⟩
    simp [Prod.map]
  rw [hid, List.map_id]

/-- What a URI's query is read as, from its pairs. -/
theorem readParams_params (i : Invite) :
    readParams [] (fun _ => none) (i.params.pairs Param.all) = .ok i.params := by
  have hnames : (Param.all.map Param.name).Nodup := by decide
  have hall : ∀ param, param ∈ Param.all := by
    intro param
    cases param <;> decide
  rw [readParams_of_nodup ((i.params.names_pairs Param.all).nodup hnames) (by simp),
    Params.setAll_pairs _ _ (by decide) (fun _ _ => rfl)]
  simp only [hall, if_true]

variable [ClaimPrimitives]

/-- What the url crate and the types of other crates are relied on for. -/
structure Laws : Prop where
  /-- A query of characters that need no escape is handed over as it stands. -/
  query_kept : ∀ text : String, text.toList.all isQueryChar = true →
    ∃ url, parseUrl ("cawala://join?" ++ text) = .ok url ∧ scheme url = inviteScheme
      ∧ hostStr url = some inviteHost ∧ query url = some text
  /-- A URL parses back from its own text. -/
  url_parses : ∀ url, parseUrl (asStr url) = .ok url
  /-- A socket address parses back from its own text. -/
  addr_parses : ∀ addr, parseAddr (addrText addr) = some addr
  /-- A key has 32 bytes. -/
  operator_length : ∀ key, (operatorBytes key).length = 32
  /-- A key is read back from its bytes. -/
  operator_parses : ∀ key, ClaimPrimitives.operatorFromBytes (operatorBytes key) = some key

omit [ClaimPrimitives] in
theorem validate_ok {i : Invite} (h : i.validate = .ok ()) :
    (∀ slot, i.slot = some slot → slot ≤ maxSlot) ∧ i.parent ≠ ""
      ∧ ∀ relay, i.relay = some relay → validateRelayUrl relay = .ok () := by
  rw [validate] at h
  obtain ⟨_, hslot, h⟩ := bind_eq_ok.mp h
  obtain ⟨_, -, h⟩ := bind_eq_ok.mp h
  obtain ⟨hparent, hrelay⟩ := ite_error_eq_ok.mp h
  refine ⟨?_, hparent, ?_⟩
  · intro slot hsome
    rw [hsome] at hslot
    exact UInt8.not_lt.mp (ite_error_eq_ok.mp hslot).1
  · intro relay hsome
    rw [hsome] at hrelay
    exact hrelay

/-- An invite is read back from its own values. -/
theorem fromParams_params (laws : Laws) {i : Invite} (h : i.validate = .ok ()) :
    fromParams i.params = .ok i := by
  obtain ⟨hslot, hparent, hrelay⟩ := validate_ok h
  have hoperator : parseOperatorHex (toHex (operatorBytes i.operator)) = some i.operator := by
    rw [parseOperatorHex, decodeHex32_toHex (laws.operator_length _)]
    exact laws.operator_parses _
  have hslots : readOptional readSlot (i.params .slot) = .ok i.slot := by
    cases hcase : i.slot with
    | none => simp [params, hcase, readOptional]
    | some slot =>
        have hle := hslot slot hcase
        simp [params, hcase, readOptional, readSlot, parseUnsigned_repr slot.toNat_lt_size,
          UInt8.not_lt.mpr hle]
  have hexp : readOptional readExpiry (i.params .exp) = .ok i.expiry := by
    cases hcase : i.expiry with
    | none => simp [params, hcase, readOptional]
    | some expiry =>
        simp [params, hcase, readOptional, readExpiry, parseUnsigned_repr expiry.toNat_lt_size]
  have hrelays : readOptional parseRelay (i.params .relay) = .ok i.relay := by
    cases hcase : i.relay with
    | none => simp [params, hcase, readOptional]
    | some relay =>
        simp [params, hcase, readOptional, parseRelay, laws.url_parses, hrelay relay hcase]
  have hips : readOptional parseIp (i.params .ip) = .ok i.ip := by
    cases hcase : i.ip with
    | none => simp [params, hcase, readOptional]
    | some ip => simp [params, hcase, readOptional, parseIp, laws.addr_parses]
  have hparents : readParent (i.params .parent) = .ok i.parent := if_neg hparent
  have hoperators : readOperator (toHex (operatorBytes i.operator)) = .ok i.operator := by
    rw [readOperator, hoperator]
  have hop : readOp (i.params .op) = .ok (toHex (operatorBytes i.operator)) := rfl
  rw [fromParams, hparents, hop, hslots, hexp, hrelays, hips]
  change (readOperator _ >>= _) = _
  rw [hoperators]
  rfl

/-- Reading back what was written. -/
theorem parse_encode (laws : Laws) {i : Invite} (h : i.validate = .ok ()) :
    parse i.encode = .ok i := by
  obtain ⟨url, hparse, hscheme, hhost, hquery⟩ :=
    laws.query_kept i.queryText i.isQueryChar_queryText
  have hpairs : queryPairs url = i.params.pairs Param.all := by
    rw [queryPairs, hquery]
    exact i.pairs_queryText
  simp only [parse, encode_eq, hparse, hscheme, hhost, ne_eq, not_true_eq_false, or_self, if_false,
    hpairs, readParams_params]
  exact fromParams_params laws h

/-! ## Queries -/

/-- The pairs of the second query are those of the first in any order, with pairs of unknown
names among them, and no name occurs twice. -/
def SameQuery (url url' : Url) : Prop :=
  ∃ unknown, (queryPairs url').Perm (queryPairs url ++ unknown)
    ∧ (∀ name ∈ unknown.map Prod.fst, Param.ofName name = none)
    ∧ ((queryPairs url').map Prod.fst).Nodup

omit [ClaimPrimitives] in
theorem readParams_sameQuery {url url' : Url} (h : SameQuery url url') :
    readParams [] (fun _ => none) (queryPairs url')
      = readParams [] (fun _ => none) (queryPairs url) := by
  obtain ⟨unknown, hperm, hunknown, hnodup⟩ := h
  have hboth : ((queryPairs url ++ unknown).map Prod.fst).Nodup :=
    (hperm.map Prod.fst).nodup_iff.mp hnodup
  have hleft : ((queryPairs url).map Prod.fst).Nodup := by
    rw [List.map_append] at hboth
    exact hboth.of_append_left
  rw [readParams_of_nodup hnodup (by simp), readParams_of_nodup hleft (by simp),
    Params.setAll_perm _ hperm hnodup]
  congr 1
  rw [Params.setAll, List.foldl_append]
  exact Params.setAll_unknown _ hunknown

/-- A query means the same in any order of its parameters and with unknown ones among them. -/
theorem parse_sameQuery {input input' : String} {url url' : Url}
    (hinput : parseUrl input = .ok url) (hinput' : parseUrl input' = .ok url')
    (hscheme : scheme url' = scheme url) (hhost : hostStr url' = hostStr url)
    (h : SameQuery url url') : parse input' = parse input := by
  simp only [parse, hinput, hinput', hscheme, hhost, readParams_sameQuery h]

theorem parse_repeated {input : String} {url : Url} (hinput : parseUrl input = .ok url)
    (h : ¬ ((queryPairs url).map Prod.fst).Nodup) : ∃ e, parse input = .error e := by
  simp only [parse, hinput]
  by_cases hinvite : scheme url ≠ inviteScheme ∨ hostStr url ≠ some inviteHost
  · exact ⟨_, if_pos hinvite⟩
  · rw [if_neg hinvite]
    have hrepeated : ¬ (((queryPairs url).map Prod.fst).Nodup
        ∧ ∀ name ∈ (queryPairs url).map Prod.fst, name ∉ ([] : List String)) :=
      fun hfresh => h hfresh.1
    obtain ⟨name, hread⟩ := readParams_duplicate hrepeated
    rw [hread]
    exact ⟨_, rfl⟩

/-- Valid invites are read back from what they are written as, so no two are written alike;
the order of the parameters and unknown ones do not matter, and no name may be repeated. -/
theorem invites_round_trip (laws : Laws) :
    (∀ i : Invite, i.validate = .ok () → parse i.encode = .ok i)
      ∧ (∀ i j : Invite, i.validate = .ok () → j.validate = .ok () → i.encode = j.encode → i = j)
      ∧ (∀ input input' url url', parseUrl input = .ok url → parseUrl input' = .ok url' →
          scheme url' = scheme url → hostStr url' = hostStr url → SameQuery url url' →
          parse input' = parse input)
      ∧ ∀ input url, parseUrl input = .ok url → ¬ ((queryPairs url).map Prod.fst).Nodup →
          ∃ e, parse input = .error e := by
  refine ⟨fun i => parse_encode laws, ?_, ?_, ?_⟩
  · intro i j hi hj heq
    have hparse := parse_encode laws hi
    rw [heq, parse_encode laws hj] at hparse
    exact (Except.ok.inj hparse).symm
  · exact fun _ _ _ _ => parse_sameQuery
  · exact fun _ _ => parse_repeated

end

end Invite

/-! ## A concrete choice of the types of other crates -/

namespace Sample

abbrev Key : Type := { bytes : List UInt8 // bytes.length = 32 }

theorem keyNumbers_injective :
    Function.Injective fun key : Key => key.val.map UInt8.toNat := by
  intro key key' h
  exact Subtype.ext (List.map_injective_iff.mpr (fun _ _ => UInt8.toNat_inj.mp) h)

/-- Keys are ordered by their bytes. -/
scoped instance keyOrder : LinearOrder Key := LinearOrder.lift' _ keyNumbers_injective

scoped instance crypto : Crypto where
  Hash := List ℕ
  PubKey := Key
  SecretKey := Key
  Signature := Key × List (Token (List ℕ) Key)
  zero := []
  toHex h := String.intercalate "." (h.map toString)
  digestWord h := UInt64.ofNat h.length
  blake3 context message := [context.length, message.length]
  pubKey key := key
  sign key message := (key, message)
  verify key message signature := signature == (key, message)

scoped instance claimPrimitives : ClaimPrimitives where
  toAllocvec claim := .byte claim.version :: utf8 claim.node
  operatorFromBytes bytes := if h : bytes.length = 32 then some ⟨bytes, h⟩ else none

def schemeOf (text : List Char) : List Char := text.takeWhile (· != ':')

def hostOf (text : List Char) : List Char :=
  ((text.dropWhile (· != ':')).drop 3).takeWhile fun c => c != '/' && c != '?' && c != '#'

/-- The query of a URL's text, up to its fragment. -/
def queryOf (text : List Char) : Option (List Char) :=
  match text.dropWhile (· != '?') with
  | [] => none
  | _ :: rest => some (rest.takeWhile (· != '#'))

def isUrl (text : String) : Bool :=
  !(schemeOf text.toList).isEmpty && ((text.toList.dropWhile (· != ':')).take 3 == "://".toList)
    && !(hostOf text.toList).isEmpty

/-- A number in its shortest decimal form. -/
def isNumber (limit : ℕ) (digits : List Char) : Bool :=
  match parseUnsigned limit (String.ofList digits) with
  | none => false
  | some n => Nat.toDigits 10 n == digits

def isAddr (text : String) : Bool :=
  match text.toList.splitOn ':' with
  | [host, port] =>
      (host.splitOn '.').length == 4 && (host.splitOn '.').all (isNumber 256)
        && isNumber 65536 port
  | _ => false

scoped instance invitePrimitives : InvitePrimitives where
  Url := { text : String // isUrl text = true }
  SocketAddr := { text : String // isAddr text = true }
  parseUrl text :=
    if h : isUrl text = true then .ok ⟨text, h⟩ else .error "relative URL without a base"
  asStr url := url.val
  scheme url := String.ofList (schemeOf url.val.toList)
  hostStr url := some (String.ofList (hostOf url.val.toList))
  query url := (queryOf url.val.toList).map String.ofList
  parseAddr text := if h : isAddr text = true then some ⟨text, h⟩ else none
  addrText addr := addr.val
  operatorBytes := Subtype.val

theorem laws : Invite.Laws where
  query_kept text htext := by
    have hlist : ("cawala://join?" ++ text).toList = "cawala://join?".toList ++ text.toList :=
      String.toList_append
    have hurl : isUrl ("cawala://join?" ++ text) = true := by
      rw [isUrl, hlist]
      rfl
    have hhash : ∀ c ∈ text.toList, (c != '#') = true := by
      intro c hc
      have hchar := List.all_eq_true.mp htext c hc
      simp only [Invite.isQueryChar, Bool.and_eq_true] at hchar
      exact hchar.1.1.2
    refine ⟨⟨"cawala://join?" ++ text, hurl⟩, dif_pos hurl, ?_, ?_, ?_⟩
    · change String.ofList (schemeOf ("cawala://join?" ++ text).toList) = _
      rw [hlist]
      rfl
    · change some (String.ofList (hostOf ("cawala://join?" ++ text).toList)) = _
      rw [hlist]
      rfl
    · change (queryOf ("cawala://join?" ++ text).toList).map String.ofList = _
      have hquery : queryOf ("cawala://join?".toList ++ text.toList)
          = some (text.toList.takeWhile (· != '#')) := rfl
      rw [hlist, hquery, List.takeWhile_eq_self_iff.mpr hhash, Option.map_some,
        String.ofList_toList]
  url_parses url := dif_pos url.property
  addr_parses addr := dif_pos addr.property
  operator_length key := key.property
  operator_parses key := dif_pos key.property

def full : Invite where
  parent := "parent & node=1"
  operator := ⟨List.replicate 32 7, by decide⟩
  slot := some 3
  expiry := some 1700000000
  label := some "Größe 50% + #1"
  relay := some ⟨"https://relay.example.com/", by decide⟩
  ip := some ⟨"127.0.0.1:9000", by decide +kernel⟩

end Sample

section

open Sample

theorem invites_round_trip_full :
    full.validate = .ok () ∧ Invite.parse full.encode = .ok full := by
  have hvalid : full.validate = .ok () := by decide +kernel
  exact ⟨hvalid, (Invite.invites_round_trip laws).1 full hvalid⟩

end

end Cawala
