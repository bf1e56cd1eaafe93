import Cawala.Model.Concrete
import Cawala.Model.OrderJournal
import Cawala.Verification.Encoding

/-! # The order journal

An append adds its order as a new line, if the file is a text that ends with a whole line. After
a crash it may not be: then the line is written behind the rest of the torn one, where no order is
read, or the file is no text any more. -/

namespace Cawala

open Library

section

variable [Crypto] [OrderJson]

/-- What the JSON of an order is: one line that is read back, of which no nonempty part is read as
an order, alone or behind anything but white space. What is read is an order in memory. -/
structure OrderJson.Lawful : Prop where
  roundTrip : ∀ o line, OrderJson.toString o = .ok line → OrderJson.fromStr line = some o
  oneLine : ∀ o line, OrderJson.toString o = .ok line → '\n' ∉ line ∧ '\r' ∉ line
  starts : ∀ o line, OrderJson.toString o = .ok line →
    ∃ c rest, line = c :: rest ∧ TextFile.isWhiteSpace c = false
  blank : ∀ line, TextFile.isBlank line = true → OrderJson.fromStr line = none
  part : ∀ o line, OrderJson.toString o = .ok line → ∀ front k, line.take k ≠ [] →
    (OrderJson.fromStr (front ++ line.take k)).isSome →
    TextFile.isBlank front = true ∧ line.take k = line
  inMemory : ∀ line o, OrderJson.fromStr line = some o → Addressable o.from_ ∧ Addressable o.to_

namespace OrderJournal

/-! ## The orders of a text -/

def ordersIn (text : List Char) : List PaymentOrder :=
  (TextFile.lines text).filterMap OrderJson.fromStr

variable {text whole last line : List Char} {file : List UInt8} {order : PaymentOrder}

/-- Blank lines hold no order. -/
theorem loadAll_eq (hlaw : OrderJson.Lawful) (hread : TextFile.readUtf8 file = some text) :
    loadAll file = ordersIn text := by
  rw [loadAll, hread]
  apply List.filterMap_congr
  intro line _
  by_cases hblank : TextFile.isBlank line = true
  · rw [if_pos hblank, hlaw.blank line hblank]
  · rw [if_neg hblank]

theorem readHashes_eq (hread : TextFile.readUtf8 file = some text) :
    readHashes file = (ordersIn text).map PaymentOrder.hash := by
  rw [readHashes, hread]
  rfl

/-- The last line holds at most one order, the lines before it the others. -/
theorem ordersIn_last (hlaw : OrderJson.Lawful) (hwhole : TextFile.WholeLines whole)
    (hlast : '\n' ∉ last) :
    ordersIn (whole ++ last) = ordersIn whole ++ (OrderJson.fromStr last).toList := by
  rw [ordersIn, TextFile.lines_append hwhole, List.filterMap_append, TextFile.lines_of_notMem hlast,
    ordersIn]
  congr 1
  by_cases hempty : last = []
  · rw [if_pos hempty, hempty, hlaw.blank [] rfl]
    rfl
  · rw [if_neg hempty, List.filterMap_cons]
    cases OrderJson.fromStr last <;> rfl

omit [Crypto] in
theorem ordersIn_line (hwhole : TextFile.WholeLines whole) (hlast : '\n' ∉ last)
    (hcr : last.getLast? ≠ some '\r') :
    ordersIn (whole ++ (last ++ ['\n'])) = ordersIn whole ++ (OrderJson.fromStr last).toList := by
  rw [ordersIn, TextFile.lines_append hwhole, List.filterMap_append, TextFile.lines_snoc hlast,
    TextFile.stripCr, if_neg hcr, ordersIn, List.filterMap_cons]
  cases OrderJson.fromStr last <;> rfl

theorem ordersIn_append_line (hlaw : OrderJson.Lawful)
    (hline : OrderJson.toString order = .ok line) (hwhole : TextFile.WholeLines whole)
    (hlast : '\n' ∉ last) :
    ordersIn (whole ++ last ++ (line ++ ['\n']))
      = ordersIn whole ++ (OrderJson.fromStr (last ++ line)).toList := by
  obtain ⟨hnl, hcr⟩ := hlaw.oneLine order line hline
  obtain ⟨c, rest, hstart, -⟩ := hlaw.starts order line hline
  have hne : line ≠ [] := by rw [hstart]; exact List.cons_ne_nil c rest
  have hmem : '\n' ∉ last ++ line := by
    rw [List.mem_append, not_or]
    exact ⟨hlast, hnl⟩
  have hend : (last ++ line).getLast? ≠ some '\r' := by
    rw [List.getLast?_append_of_ne_nil _ hne]
    exact fun h => hcr (List.mem_of_getLast? h)
  rw [← ordersIn_line hwhole hmem hend, List.append_assoc, List.append_assoc]

omit [OrderJson] in
theorem hash_injective (hfree : Crypto.CollisionFree) {o o' : PaymentOrder}
    (ho : Addressable o.from_ ∧ Addressable o.to_) (ho' : Addressable o'.from_ ∧ Addressable o'.to_)
    (h : o.hash = o'.hash) : o = o' := by
  obtain ⟨-, hbytes⟩ := hfree _ _ _ _ h
  exact PaymentOrder.encode_inj ho.1 ho.2 ho'.1 ho'.2 (by simpa using hbytes)

theorem mem_hashes (hlaw : OrderJson.Lawful) (hfree : Crypto.CollisionFree)
    (hline : OrderJson.toString order = .ok line) :
    order.hash ∈ (ordersIn text).map PaymentOrder.hash ↔ order ∈ ordersIn text := by
  constructor
  · intro h
    obtain ⟨o, ho, hhash⟩ := List.mem_map.mp h
    obtain ⟨from_, -, hparse⟩ := List.mem_filterMap.mp ho
    have hsame := hash_injective hfree (hlaw.inMemory _ o hparse)
      (hlaw.inMemory _ order (hlaw.roundTrip order line hline)) hhash
    rwa [← hsame]
  · exact fun h => List.mem_map_of_mem h

/-! ## What appends leave behind -/

/-- A text whose last line, where it has no end, is not blank, and that holds no order twice. -/
structure Tidy (text : List Char) : Prop where
  nodup : (ordersIn text).Nodup
  split : ∃ whole last, text = whole ++ last ∧ TextFile.WholeLines whole ∧ '\n' ∉ last
    ∧ (TextFile.isBlank last = true → last = [])

/-- What the last line holds when part of an order is written behind it: nothing, or the order. -/
theorem fromStr_behind (hlaw : OrderJson.Lawful) (hline : OrderJson.toString order = .ok line)
    (hblank : TextFile.isBlank last = true → last = []) {k : ℕ} (hpart : line.take k ≠ []) :
    OrderJson.fromStr (last ++ line.take k) = none
      ∨ last = [] ∧ line.take k = line ∧ OrderJson.fromStr (last ++ line.take k) = some order := by
  cases hparse : OrderJson.fromStr (last ++ line.take k) with
  | none => exact Or.inl rfl
  | some o =>
      have hsome : (OrderJson.fromStr (last ++ line.take k)).isSome := by rw [hparse]; rfl
      obtain ⟨hfront, hall⟩ := hlaw.part order line hline last k hpart hsome
      have hempty := hblank hfront
      rw [hempty, hall, List.nil_append, hlaw.roundTrip order line hline] at hparse
      exact Or.inr ⟨hempty, hall, by rw [← Option.some.inj hparse]⟩

/-- Writing the line of a new order, cut anywhere, leaves a tidy text tidy. -/
theorem Tidy.write (hlaw : OrderJson.Lawful) (ht : Tidy text)
    (hline : OrderJson.toString order = .ok line) (hnew : order ∉ ordersIn text) (k : ℕ) :
    Tidy (text ++ (line ++ ['\n']).take k) := by
  obtain ⟨whole, last, rfl, hwhole, hlast, hblank⟩ := ht.split
  obtain ⟨hnl, -⟩ := hlaw.oneLine order line hline
  obtain ⟨c, rest, hstart, hc⟩ := hlaw.starts order line hline
  have hold := ordersIn_last hlaw hwhole hlast
  have hnodup := ht.nodup
  rw [hold, List.nodup_append] at hnodup
  rw [hold, List.mem_append, not_or] at hnew
  have hadded : ∀ part, OrderJson.fromStr part = none ∨ OrderJson.fromStr part = some order →
      (ordersIn whole ++ (OrderJson.fromStr part).toList).Nodup := by
    intro part hpart
    cases hpart with
    | inl hnone => rw [hnone, Option.toList_none, List.append_nil]; exact hnodup.1
    | inr hsome =>
        rw [hsome, Option.toList_some, List.nodup_append]
        refine ⟨hnodup.1, List.nodup_singleton order, ?_⟩
        intro o ho o' ho' heq
        rw [List.mem_singleton.mp ho'] at heq
        exact hnew.1 (heq ▸ ho)
  by_cases hk : k ≤ line.length
  · -- The line is cut before its end.
    rw [List.take_append_of_le_length hk]
    by_cases hpart : line.take k = []
    · rw [hpart, List.append_nil]
      exact ht
    · have hmem : '\n' ∉ last ++ line.take k := by
        rw [List.mem_append, not_or]
        exact ⟨hlast, fun h => hnl (List.mem_of_mem_take h)⟩
      constructor
      · rw [List.append_assoc, ordersIn_last hlaw hwhole hmem]
        apply hadded
        exact (fromStr_behind hlaw hline hblank hpart).imp id fun h => h.2.2
      · refine ⟨whole, last ++ line.take k, List.append_assoc _ _ _, hwhole, hmem, ?_⟩
        intro hall
        rw [TextFile.isBlank, List.all_append, Bool.and_eq_true] at hall
        obtain ⟨j, rfl⟩ := Nat.exists_eq_succ_of_ne_zero
          (show k ≠ 0 by intro h; rw [h, List.take_zero] at hpart; exact hpart rfl)
        rw [hstart, List.take_succ_cons, List.all_cons, hc] at hall
        exact absurd hall.2 (by simp)
  · -- The whole line is written.
    have hfull : (line ++ ['\n']).take k = line ++ ['\n'] := by
      apply List.take_of_length_le
      rw [List.length_append, List.length_singleton]
      omega
    have hne : line.take line.length ≠ [] := by
      rw [List.take_length, hstart]
      exact List.cons_ne_nil c rest
    have hbehind := fromStr_behind hlaw hline hblank hne
    rw [List.take_length] at hbehind
    rw [hfull]
    constructor
    · rw [ordersIn_append_line hlaw hline hwhole hlast]
      apply hadded
      exact hbehind.imp id fun h => h.2.2
    · refine ⟨whole ++ last ++ (line ++ ['\n']), [], (List.append_nil _).symm, Or.inr ?_, by simp,
        fun _ => rfl⟩
      rw [← List.append_assoc, List.getLast?_concat]

/-- The contents that a run of appends can leave: each completed, or interrupted by a crash after
any number of bytes. -/
inductive Journaled : List UInt8 → Prop where
  | new : Journaled []
  | append {file file' : List UInt8} (order : PaymentOrder) (h : Journaled file)
      (happend : append file order = .ok file') : Journaled file'
  | crash {file bytes : List UInt8} (order : PaymentOrder) (n : ℕ) (h : Journaled file)
      (hwritten : written file order = .ok bytes) : Journaled (file ++ bytes.take n)

theorem tidy_crash (hlaw : OrderJson.Lawful) (hfree : Crypto.CollisionFree)
    (ht : ∀ text, TextFile.readUtf8 file = some text → Tidy text) {bytes : List UInt8}
    (hwritten : written file order = .ok bytes) (n : ℕ) :
    ∀ text, TextFile.readUtf8 (file ++ bytes.take n) = some text → Tidy text := by
  intro text hread
  unfold written at hwritten
  split at hwritten
  · obtain rfl := Except.ok.inj hwritten
    rw [List.take_nil, List.append_nil] at hread
    exact ht text hread
  · rename_i hnew
    cases hline : OrderJson.toString order with
    | error e => simp [hline] at hwritten
    | ok line =>
        rw [hline] at hwritten
        obtain rfl := Except.ok.inj hwritten
        obtain ⟨before, k, hbefore, rfl, -⟩ := TextFile.readUtf8_append_take hread
        rw [readHashes_eq hbefore, mem_hashes hlaw hfree hline] at hnew
        exact (ht before hbefore).write hlaw hline hnew k

/-- What a run of appends leaves is tidy, if it is a text. -/
theorem Journaled.tidy (hlaw : OrderJson.Lawful) (hfree : Crypto.CollisionFree)
    (h : Journaled file) : ∀ text, TextFile.readUtf8 file = some text → Tidy text := by
  induction h with
  | new =>
      intro text hread
      have hempty : text = [] := TextFile.utf8_eq_nil.mp (TextFile.readUtf8_eq_some.mp hread).symm
      subst hempty
      exact ⟨List.nodup_nil, [], [], rfl, Or.inl rfl, by simp, fun _ => rfl⟩
  | @append file file' order h happend ih =>
      unfold OrderJournal.append at happend
      cases hwritten : written file order with
      | error e => rw [hwritten] at happend; cases happend
      | ok bytes =>
          rw [hwritten] at happend
          obtain rfl := Except.ok.inj happend
          have hall := tidy_crash hlaw hfree ih hwritten bytes.length
          rwa [List.take_length] at hall
  | crash order n h hwritten ih => exact tidy_crash hlaw hfree ih hwritten n

/-! ## One append -/

/-- The order is there exactly once, and so is every order that was there before, in the same
relative order. -/
structure Preserved (before after : List PaymentOrder) (order : PaymentOrder) : Prop where
  appended : after.count order = 1
  once : ∀ o ∈ before, after.count o = 1
  inOrder : before.Sublist after

/-- An append that returns leaves the order and all earlier ones. -/
def Keeps (file : List UInt8) (order : PaymentOrder) : Prop :=
  ∀ file', append file order = .ok file' → Preserved (loadAll file) (loadAll file') order

/-- The journal is a text that ends with a whole line, or that holds the order already. -/
def Appendable (file : List UInt8) (order : PaymentOrder) : Prop :=
  ∃ text, TextFile.readUtf8 file = some text
    ∧ (TextFile.WholeLines text ∨ order ∈ loadAll file)

omit [Crypto] [OrderJson] in
theorem preserved_of_nodup {before after : List PaymentOrder} (hnodup : after.Nodup)
    (hsub : before.Sublist after) (hmem : order ∈ after) : Preserved before after order :=
  ⟨List.count_eq_one_of_mem hnodup hmem,
    fun _ ho => List.count_eq_one_of_mem hnodup (hsub.subset ho), hsub⟩

theorem append_new (hlaw : OrderJson.Lawful) (hfree : Crypto.CollisionFree)
    (hline : OrderJson.toString order = .ok line) (hnew : order ∉ loadAll file) :
    append file order = .ok (file ++ TextFile.utf8 (line ++ ['\n'])) := by
  have hhash : order.hash ∉ readHashes file := by
    cases hread : TextFile.readUtf8 file with
    | none => simp [readHashes, hread]
    | some text =>
        rw [loadAll_eq hlaw hread] at hnew
        rwa [readHashes_eq hread, mem_hashes hlaw hfree hline]
  rw [append, written, if_neg hhash, hline]
  rfl

/-- An append of an order that the journal holds writes nothing. -/
theorem append_present (hlaw : OrderJson.Lawful) (hmem : order ∈ loadAll file) :
    append file order = .ok file := by
  have hhash : order.hash ∈ readHashes file := by
    cases hread : TextFile.readUtf8 file with
    | none => simp [loadAll, hread] at hmem
    | some text =>
        rw [loadAll_eq hlaw hread] at hmem
        rw [readHashes_eq hread]
        exact List.mem_map_of_mem hmem
  rw [append, written, if_pos hhash]
  exact congrArg Except.ok (List.append_nil file)

theorem keeps_of_appendable (hlaw : OrderJson.Lawful) (hfree : Crypto.CollisionFree)
    (ht : ∀ text, TextFile.readUtf8 file = some text → Tidy text)
    (hline : OrderJson.toString order = .ok line) (happendable : Appendable file order) :
    Keeps file order := by
  intro file' happend
  obtain ⟨text, hread, hend⟩ := happendable
  have htidy := ht text hread
  by_cases hmem : order ∈ loadAll file
  · rw [append_present hlaw hmem] at happend
    obtain rfl := Except.ok.inj happend
    refine preserved_of_nodup ?_ (List.Sublist.refl _) hmem
    rw [loadAll_eq hlaw hread]
    exact htidy.nodup
  · have hwhole := hend.resolve_right hmem
    rw [append_new hlaw hfree hline hmem] at happend
    obtain rfl := Except.ok.inj happend
    have hread' : TextFile.readUtf8 (file ++ TextFile.utf8 (line ++ ['\n']))
        = some (text ++ (line ++ ['\n'])) := by
      rw [TextFile.readUtf8_eq_some.mp hread, ← TextFile.utf8_append, TextFile.readUtf8_utf8]
    have hadded : ordersIn (text ++ (line ++ ['\n'])) = ordersIn text ++ [order] := by
      have hsplit := ordersIn_append_line hlaw hline hwhole List.not_mem_nil
      rwa [List.append_nil, List.nil_append, hlaw.roundTrip order line hline] at hsplit
    rw [loadAll_eq hlaw hread] at hmem ⊢
    have hnodup := (htidy.write hlaw hline hmem (line ++ ['\n']).length).nodup
    rw [List.take_length, hadded] at hnodup
    rw [loadAll_eq hlaw hread', hadded]
    exact preserved_of_nodup hnodup (List.sublist_append_left _ _) (by simp)

theorem appendable_of_keeps (hlaw : OrderJson.Lawful) (hfree : Crypto.CollisionFree)
    (ht : ∀ text, TextFile.readUtf8 file = some text → Tidy text)
    (hline : OrderJson.toString order = .ok line) (hkeeps : Keeps file order) :
    Appendable file order := by
  by_contra hbad
  have hmem : order ∉ loadAll file := by
    intro hmem
    cases hread : TextFile.readUtf8 file with
    | none => simp [loadAll, hread] at hmem
    | some text => exact hbad ⟨text, hread, Or.inr hmem⟩
  have hcount := (hkeeps _ (append_new hlaw hfree hline hmem)).appended
  have hlost : order ∉ loadAll (file ++ TextFile.utf8 (line ++ ['\n'])) := by
    cases hread' : TextFile.readUtf8 (file ++ TextFile.utf8 (line ++ ['\n'])) with
    | none => rw [loadAll, hread']; exact List.not_mem_nil
    | some text' =>
        -- The file is a text, so its last line has no end and is not blank.
        obtain ⟨text, hread, rfl⟩ := TextFile.readUtf8_append hread'
        obtain ⟨whole, last, rfl, hwhole, hlast, hblank⟩ := (ht text hread).split
        obtain ⟨c, rest, hstart, -⟩ := hlaw.starts order line hline
        have hne : line.take line.length ≠ [] := by
          rw [List.take_length, hstart]
          exact List.cons_ne_nil c rest
        have hlong : last ≠ [] := by
          intro hempty
          refine hbad ⟨_, hread, Or.inl ?_⟩
          rwa [hempty, List.append_nil]
        have hnone := (fromStr_behind hlaw hline hblank hne).resolve_right fun h => hlong h.1
        rw [List.take_length] at hnone
        rw [loadAll_eq hlaw hread', ordersIn_append_line hlaw hline hwhole hlast, hnone,
          Option.toList_none, List.append_nil]
        rw [loadAll_eq hlaw hread, ordersIn_last hlaw hwhole hlast, List.mem_append, not_or] at hmem
        exact hmem.1
  rw [List.count_eq_zero.mpr hlost] at hcount
  cases hcount

/-- Whatever a run of appends and crashes left, an append that returns keeps its order and all
earlier ones exactly if the journal is a text that ends with a whole line or holds the order. -/
theorem keeps_iff (hlaw : OrderJson.Lawful) (hfree : Crypto.CollisionFree) (h : Journaled file)
    (hline : OrderJson.toString order = .ok line) :
    Keeps file order ↔ Appendable file order := by
  have ht := h.tidy hlaw hfree
  constructor
  · exact appendable_of_keeps hlaw hfree ht hline
  · exact keeps_of_appendable hlaw hfree ht hline

end OrderJournal

end

section Concrete

open Concrete

def sampleOrder (to_ : NodeId) (nonce : UInt64) : PaymentOrder :=
  { from_ := "alice", to_, amount := 10, nonce, expiry := 1000 }

/-- Two orders, one of them to a name with a character of two bytes. -/
def sampleOrders : List PaymentOrder := [sampleOrder "bob" 1, sampleOrder "zoé" 2]

/-- The JSON object of an order whose ids need no escape. -/
def orderLine (o : PaymentOrder) : List Char :=
  "\x7b\"from\":\"".toList ++ o.from_.toList ++ "\",\"to\":\"".toList ++ o.to_.toList
    ++ "\",\"amount\":".toList ++ Nat.toDigits 10 o.amount.toNat
    ++ ",\"nonce\":".toList ++ Nat.toDigits 10 o.nonce.toNat
    ++ ",\"expiry\":".toList ++ Nat.toDigits 10 o.expiry.toNat ++ "\x7d".toList

@[reducible] def sampleJson : OrderJson where
  toString o := if o ∈ sampleOrders then .ok (orderLine o) else .error "unknown order"
  fromStr line := sampleOrders.find? fun o => orderLine o == line

theorem sampleJson_toString {o : PaymentOrder} {line : List Char}
    (h : @OrderJson.toString sampleJson o = .ok line) :
    o ∈ sampleOrders ∧ line = orderLine o := by
  change (if o ∈ sampleOrders then Except.ok (orderLine o) else .error "unknown order")
    = .ok line at h
  split_ifs at h with hmem
  exact ⟨hmem, (Except.ok.inj h).symm⟩

theorem sampleJson_fromStr {line : List Char} {o : PaymentOrder}
    (h : @OrderJson.fromStr sampleJson line = some o) : o ∈ sampleOrders ∧ line = orderLine o := by
  change (sampleOrders.find? fun o => orderLine o == line) = some o at h
  have hline := List.find?_some h
  exact ⟨List.mem_of_find?_eq_some h, (beq_iff_eq.mp hline).symm⟩

theorem orderLine_part {o o' : PaymentOrder} (ho : o ∈ sampleOrders) (ho' : o' ∈ sampleOrders)
    {front : List Char} {k : ℕ} (hpart : (orderLine o).take k ≠ [])
    (h : front ++ (orderLine o).take k = orderLine o') :
    front = [] ∧ (orderLine o).take k = orderLine o := by
  have hlen : ∀ o ∈ sampleOrders, (orderLine o).length = 63 := by decide +kernel
  have hcut : ∀ o ∈ sampleOrders, ∀ o' ∈ sampleOrders, ∀ k < 63, 0 < k →
      ¬ (orderLine o).take k <:+ orderLine o' := by
    decide +kernel
  have hpos : 0 < k := Nat.pos_of_ne_zero fun hzero => hpart (by rw [hzero, List.take_zero])
  have hwhole : 63 ≤ k := by
    by_contra hlt
    exact hcut o ho o' ho' k (by omega) hpos ⟨front, h⟩
  have hall : (orderLine o).take k = orderLine o :=
    List.take_of_length_le (by rw [hlen o ho]; exact hwhole)
  have hlength := congrArg List.length h
  rw [hall, List.length_append, hlen o ho, hlen o' ho'] at hlength
  exact ⟨List.length_eq_zero_iff.mp (by omega), hall⟩

theorem sampleJson_lawful : @OrderJson.Lawful _ sampleJson := by
  have hparsed : ∀ o ∈ sampleOrders, @OrderJson.fromStr sampleJson (orderLine o) = some o := by
    decide +kernel
  have hshape : ∀ o ∈ sampleOrders, '\n' ∉ orderLine o ∧ '\r' ∉ orderLine o
      ∧ (orderLine o).head? = some '\x7b' ∧ TextFile.isBlank (orderLine o) = false := by
    decide +kernel
  refine @OrderJson.Lawful.mk _ sampleJson ?_ ?_ ?_ ?_ ?_ ?_
  · intro o line h
    obtain ⟨ho, rfl⟩ := sampleJson_toString h
    exact hparsed o ho
  · intro o line h
    obtain ⟨ho, rfl⟩ := sampleJson_toString h
    exact ⟨(hshape o ho).1, (hshape o ho).2.1⟩
  · intro o line h
    obtain ⟨ho, rfl⟩ := sampleJson_toString h
    obtain ⟨rest, hrest⟩ := List.head?_eq_some_iff.mp (hshape o ho).2.2.1
    exact ⟨_, rest, hrest, by decide +kernel⟩
  · intro line hblank
    cases hparse : @OrderJson.fromStr sampleJson line with
    | none => rfl
    | some o =>
        obtain ⟨ho, rfl⟩ := sampleJson_fromStr hparse
        rw [(hshape o ho).2.2.2] at hblank
        cases hblank
  · intro o line h front k hpart hsome
    obtain ⟨ho, rfl⟩ := sampleJson_toString h
    obtain ⟨o', hparse⟩ := Option.isSome_iff_exists.mp hsome
    obtain ⟨ho', hline⟩ := sampleJson_fromStr hparse
    obtain ⟨rfl, hwhole⟩ := orderLine_part ho ho' hpart hline
    exact ⟨rfl, hwhole⟩
  · intro line o h
    have hids : ∀ o ∈ sampleOrders,
        (utf8 o.from_).length < 2 ^ 64 ∧ (utf8 o.to_).length < 2 ^ 64 := by
      decide +kernel
    exact hids o (sampleJson_fromStr h).1

def sampleJournal : List UInt8 := TextFile.utf8 (orderLine (sampleOrder "bob" 1) ++ ['\n'])

theorem append_sample :
    @OrderJournal.append _ sampleJson [] (sampleOrder "bob" 1) = .ok sampleJournal := by
  decide +kernel

/-- A second order is appended to a whole journal. -/
theorem keeps_iff_sample :
    @OrderJournal.Keeps _ sampleJson sampleJournal (sampleOrder "zoé" 2) := by
  have hline : @OrderJson.toString sampleJson (sampleOrder "zoé" 2)
      = .ok (orderLine (sampleOrder "zoé" 2)) := by
    decide +kernel
  have hjournaled : @OrderJournal.Journaled _ sampleJson sampleJournal :=
    @OrderJournal.Journaled.append _ sampleJson _ _ (sampleOrder "bob" 1)
      (@OrderJournal.Journaled.new _ sampleJson) append_sample
  have hiff := @OrderJournal.keeps_iff _ sampleJson _ _ _ sampleJson_lawful collisionFree hjournaled
    hline
  exact hiff.mpr ⟨_, TextFile.readUtf8_utf8 _, Or.inl (Or.inr rfl)⟩

/-- A crash after one byte, and the next append is lost. -/
theorem append_lost :
    ¬∀ (file : List UInt8) (order : PaymentOrder), @OrderJournal.Journaled _ sampleJson file →
      @OrderJournal.Keeps _ sampleJson file order := by
  intro h
  have hwritten : @OrderJournal.written _ sampleJson [] (sampleOrder "bob" 1)
      = .ok sampleJournal := by
    decide +kernel
  have hkeeps := h _ (sampleOrder "bob" 1)
    (@OrderJournal.Journaled.crash _ sampleJson _ _ (sampleOrder "bob" 1) 1
    (@OrderJournal.Journaled.new _ sampleJson) hwritten)
  have happend : @OrderJournal.append _ sampleJson ([] ++ sampleJournal.take 1)
      (sampleOrder "bob" 1)
      = .ok (sampleJournal.take 1 ++ sampleJournal) := by decide +kernel
  have hnone : (@OrderJournal.loadAll sampleJson (sampleJournal.take 1 ++ sampleJournal)).count
      (sampleOrder "bob" 1) = 0 := by decide +kernel
  have hcount := (hkeeps _ happend).appended
  rw [hnone] at hcount
  cases hcount

end Concrete

end Cawala
