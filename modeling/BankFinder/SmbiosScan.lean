import BankFinder.SmbiosStrings

/-!
# The end of an SMBIOS table

The anchor of version 3 gives the room of the table, not its length. `smbios_init` therefore looks
for the structure of type 127 first: it jumps over the formatted area of each structure, and then
goes on to the first two zeros side by side.
-/

namespace BankFinder.SmbiosScan
open BoundedCursor HaltingLoop StringSets SmbiosStrings

/-- The `tlen` bytes which are mapped. -/
structure SmbiosTable where
  bytes : List UInt8
  size : bytes.length < 2 ^ 32

def SmbiosTable.tlen (t : SmbiosTable) : UInt32 := UInt32.ofNat t.bytes.length

/-- Where the scan stands: in front of a structure, or in the strings of one. -/
inductive Place
  | header (p : ℕ)
  | strings (type : UInt8) (p : ℕ)
  deriving DecidableEq

def Place.position : Place → ℕ
  | .header p => p
  | .strings _ p => p

/-- `p += 2` has been done. -/
def behindStrings (mem : List UInt8) (type : UInt8) (p : ℕ) : Place ⊕ UInt32 :=
  if p > mem.length then .inr 0
  else if type = 127 then .inr (UInt32.ofNat p)
  else .inl (.header p)

/-- In front of a structure: `p += len`. -/
def headerTurn (mem : List UInt8) (p : ℕ) : Except OutOfBounds (Place ⊕ UInt32) :=
  if p + 4 ≤ mem.length then do
    let type ← deref mem p
    let len ← deref mem (p + 1)
    if len < 4 then return .inr 0
    else return .inl (.strings type (p + len.toNat))
  else return .inr 0

/-- In the strings: `p++`, unless two zeros or the end stand there. -/
def stringsTurn (mem : List UInt8) (type : UInt8) (p : ℕ) :
    Except OutOfBounds (Place ⊕ UInt32) :=
  if p + 1 < mem.length then do
    let a ← deref mem p
    if a = 0 then
      let b ← deref mem (p + 1)
      if b = 0 then return behindStrings mem type (p + 2)
      else return .inl (.strings type (p + 1))
    else return .inl (.strings type (p + 1))
  else return behindStrings mem type (p + 2)

/-- A move of the scan; it ends with `actual`. -/
def scanTurn (mem : List UInt8) : Place → Except OutOfBounds (Place ⊕ UInt32)
  | .header p => headerTurn mem p
  | .strings type p => stringsTurn mem type p

def preScan (t : SmbiosTable) : Option (Except OutOfBounds UInt32) :=
  loop (fun s => failing (scanTurn t.bytes s)) (t.bytes.length + 1) (.header 0)

/-- `table_length = actual ? actual : tlen;` -/
def tableLength (t : SmbiosTable) : Option (Except OutOfBounds UInt32) :=
  (preScan t).map fun r => r.map fun actual => if actual = 0 then t.tlen else actual

/-- What a turn does: it goes on from a place inside the table to a later one, or ends. -/
inductive Moves (mem : List UInt8) (s : Place) : Place ⊕ UInt32 → Prop
  | go (s' : Place) : s.position < mem.length → s.position < s'.position → Moves mem s (.inl s')
  | stop (actual : UInt32) : Moves mem s (.inr actual)

section
variable (mem : List UInt8)

theorem behindStrings_moves (type : UInt8) (p : ℕ) :
    Moves mem (.strings type p) (behindStrings mem type (p + 2)) := by
  unfold behindStrings
  split_ifs with hover
  · exact .stop _
  · exact .stop _
  · exact .go _ (show p < mem.length by omega) (show p < p + 2 by omega)

theorem headerTurn_moves (p : ℕ) : ∃ x, headerTurn mem p = .ok x ∧ Moves mem (.header p) x := by
  unfold headerTurn
  by_cases hroom : p + 4 ≤ mem.length
  · rw [if_pos hroom, deref_getD (by omega) 0, deref_getD (by omega) 0, ok_bind, ok_bind]
    by_cases hlen : mem.getD (p + 1) 0 < 4
    · rw [if_pos hlen]
      exact ⟨_, rfl, .stop 0⟩
    · have hmin : 4 ≤ (mem.getD (p + 1) 0).toNat := by
        rw [UInt8.lt_iff_toNat_lt] at hlen
        exact Nat.le_of_not_lt hlen
      rw [if_neg hlen]
      exact ⟨_, rfl, .go _ (show p < mem.length by omega)
        (show p < p + (mem.getD (p + 1) 0).toNat by omega)⟩
  · rw [if_neg hroom]
    exact ⟨_, rfl, .stop 0⟩

theorem stringsTurn_moves (type : UInt8) (p : ℕ) :
    ∃ x, stringsTurn mem type p = .ok x ∧ Moves mem (.strings type p) x := by
  unfold stringsTurn
  by_cases hroom : p + 1 < mem.length
  · have hgo : Moves mem (.strings type p) (.inl (.strings type (p + 1))) :=
      .go _ (show p < mem.length by omega) (show p < p + 1 by omega)
    rw [if_pos hroom, deref_getD (by omega) 0, deref_getD (by omega) 0, ok_bind]
    by_cases ha : mem.getD p 0 = 0
    · rw [if_pos ha, ok_bind]
      by_cases hb : mem.getD (p + 1) 0 = 0
      · rw [if_pos hb]
        exact ⟨_, rfl, behindStrings_moves mem type p⟩
      · rw [if_neg hb]
        exact ⟨_, rfl, hgo⟩
    · rw [if_neg ha]
      exact ⟨_, rfl, hgo⟩
  · rw [if_neg hroom]
    exact ⟨_, rfl, behindStrings_moves mem type p⟩

/-- No turn reads outside of the table. -/
theorem scanTurn_moves (s : Place) : ∃ x, scanTurn mem s = .ok x ∧ Moves mem s x := by
  cases s with
  | header p => exact headerTurn_moves mem p
  | strings type p => exact stringsTurn_moves mem type p

/-- From every place the scan ends, after no more turns than bytes. -/
theorem loop_scanTurn (s : Place) : ∃ actual,
    loop (fun s => failing (scanTurn mem s)) (mem.length + 1) s = some (.ok actual) := by
  have hgo (s s' : Place) (_ : True) (hturn : failing (scanTurn mem s) = .inl s') :
      True ∧ mem.length - s'.position < mem.length - s.position := by
    obtain ⟨x, hx, hmoves⟩ := scanTurn_moves mem s
    rw [failing_eq_inl_iff, hx] at hturn
    obtain rfl := Except.ok.inj hturn
    cases hmoves with
    | go _ hinside hlater => exact ⟨trivial, by omega⟩
  have hstop (s : Place) (r : Except OutOfBounds UInt32) (_ : True)
      (hturn : failing (scanTurn mem s) = .inr r) : ∃ actual, r = .ok actual := by
    obtain ⟨x, hx, hmoves⟩ := scanTurn_moves mem s
    rw [hx] at hturn
    cases hmoves with
    | go _ _ _ => exact absurd hturn Sum.inl_ne_inr
    | stop actual => exact ⟨actual, (Sum.inr.inj hturn).symm⟩
  obtain ⟨r, hr, actual, rfl⟩ := loop_of_measure (fun s : Place => mem.length - s.position) hgo
    hstop trivial (Nat.lt_succ_of_le (Nat.sub_le mem.length s.position))
  exact ⟨actual, hr⟩

end

/-- Structures of other types, and the one of type 127 which ends the table. -/
structure SmbiosSequence where
  structures : List SmbiosStructure
  last : SmbiosStructure
  others : ∀ s ∈ structures, s.type ≠ 127
  ends : last.type = 127

def SmbiosSequence.bytes (q : SmbiosSequence) : List UInt8 :=
  q.structures.flatMap SmbiosStructure.bytes ++ q.last.bytes

/-- A table with anything behind its last structure. -/
structure PaddedTable extends SmbiosTable where
  sequence : SmbiosSequence
  padding : List UInt8
  layout : bytes = sequence.bytes ++ padding

section
variable {mem : List UInt8}

/-- In the strings of a structure the scan goes on to the end of the set. -/
theorem goes_end (type : UInt8) {inner rest : List UInt8} {p : ℕ}
    (hinner : (inner ++ [0]).IsChain fun a b => ¬Ends a b)
    (h : At mem p (inner ++ 0 :: 0 :: rest)) :
    Goes (fun s => failing (scanTurn mem s)) (.strings type p)
      (.strings type (p + inner.length)) := by
  induction inner generalizing p with
  | nil => exact goes_refl _ _
  | cons c inner ih =>
      obtain ⟨next, more, hmore⟩ := List.exists_cons_of_ne_nil
        (l := inner ++ [0]) (by simp)
      have hnext : At mem (p + 1) (next :: (more ++ 0 :: rest)) := by
        have hsame : inner ++ 0 :: 0 :: rest = next :: (more ++ 0 :: rest) := by
          rw [List.append_cons, hmore, List.cons_append]
        exact hsame ▸ h.next
      rw [List.cons_append, hmore, List.isChain_cons_cons] at hinner
      obtain ⟨hpair, hchain⟩ := hinner
      have hturn : scanTurn mem (.strings type p) = .ok (.inl (.strings type (p + 1))) := by
        change stringsTurn mem type p = _
        unfold stringsTurn
        rw [if_pos hnext.lt_of_cons, h.deref, ok_bind, hnext.deref]
        by_cases hc : c = 0
        · have hn : next ≠ 0 := fun hn => hpair ⟨hc, hn⟩
          rw [if_pos hc, ok_bind, if_neg hn]
          rfl
        · rw [if_neg hc]
          rfl
      refine goes_step (by rw [hturn, failing_go]) ?_
      rw [List.length_cons, Nat.add_comm inner.length, ← Nat.add_assoc]
      exact ih (hmore ▸ hchain) h.next

/-- The two zeros lead behind the structure. -/
theorem scanTurn_end (type : UInt8) {rest : List UInt8} {p : ℕ} (h : At mem p (0 :: 0 :: rest)) :
    scanTurn mem (.strings type p) = .ok (behindStrings mem type (p + 2)) := by
  change stringsTurn mem type p = _
  unfold stringsTurn
  rw [if_pos h.next.lt_of_cons, h.deref, ok_bind, if_pos rfl, h.next.deref, ok_bind, if_pos rfl]
  rfl

/-- The length byte leads to the strings. -/
theorem scanTurn_header (s : SmbiosStructure) {rest : List UInt8} {p : ℕ}
    (h : At mem p (s.formatted ++ rest)) :
    scanTurn mem (.header p) = .ok (.inl (.strings s.type (p + s.formatted.length))) := by
  have hheader := s.header
  have hinside : p + s.formatted.length ≤ mem.length := by
    have hlen := h.length_eq
    have hbound := h.bound
    rw [List.length_append] at hlen
    omega
  have hbyte {i : ℕ} (hi : i < s.formatted.length) :
      deref mem (p + i) = .ok (s.formatted.getD i 0) := by
    have hget : mem.getD (p + i) 0 = s.formatted.getD i 0 := by
      rw [← List.getD_append s.formatted rest 0 i hi, ← h.left, List.getD_eq_getElem?_getD,
        List.getD_eq_getElem?_getD, List.getElem?_drop]
    rw [deref_getD (by omega) 0, hget]
  have hlen : ¬s.formatted.getD 1 0 < 4 := by
    rw [UInt8.lt_iff_toNat_lt, s.length_byte]
    exact Nat.not_lt.mpr hheader
  change headerTurn mem p = _
  unfold headerTurn
  have htype := hbyte (i := 0) (by omega)
  rw [Nat.add_zero] at htype
  rw [if_pos (by omega), htype, ok_bind, hbyte (by omega), ok_bind, if_neg hlen, s.length_byte]
  rfl

/-- A structure is passed over as a whole. -/
theorem goes_behind (s : SmbiosStructure) {rest : List UInt8} {p : ℕ}
    (h : At mem p (s.bytes ++ rest)) :
    ∃ s', Goes (fun s => failing (scanTurn mem s)) (.header p) s' ∧
      scanTurn mem s' = .ok (behindStrings mem s.type (p + s.bytes.length)) := by
  obtain ⟨inner, hset, hchain⟩ := stringSet_split s.strings
  have hlength : p + s.bytes.length = p + s.formatted.length + inner.length + 2 := by
    unfold SmbiosStructure.bytes
    rw [hset, List.length_append, List.length_append]
    simp only [List.length_cons, List.length_nil]
    omega
  unfold SmbiosStructure.bytes at h
  rw [hset, List.append_assoc, List.append_assoc] at h
  have hstrings := h.skip
  refine ⟨.strings s.type (p + s.formatted.length + inner.length), ?_, ?_⟩
  · refine goes_step ?_ (goes_end s.type hchain hstrings)
    rw [scanTurn_header s h, failing_go]
  · rw [hlength]
    exact scanTurn_end s.type hstrings.skip

/-- Structures of other types are passed over one by one. -/
theorem goes_structures {structures : List SmbiosStructure}
    (hothers : ∀ s ∈ structures, s.type ≠ 127) {rest : List UInt8} {p : ℕ}
    (h : At mem p (structures.flatMap SmbiosStructure.bytes ++ rest)) :
    Goes (fun s => failing (scanTurn mem s)) (.header p)
      (.header (p + (structures.flatMap SmbiosStructure.bytes).length)) := by
  induction structures generalizing p with
  | nil => exact goes_refl _ _
  | cons s structures ih =>
      rw [List.forall_mem_cons] at hothers
      rw [List.flatMap_cons, List.append_assoc] at h
      obtain ⟨s', hgoes, hturn⟩ := goes_behind s h
      have hinside : ¬p + s.bytes.length > mem.length := by
        have hbound := h.skip.bound
        omega
      have hnext : behindStrings mem s.type (p + s.bytes.length) =
          .inl (.header (p + s.bytes.length)) := by
        unfold behindStrings
        rw [if_neg hinside, if_neg hothers.1]
      rw [List.flatMap_cons, List.length_append, ← Nat.add_assoc]
      refine hgoes.trans (goes_step ?_ (ih hothers.2 h.skip))
      rw [hturn, hnext, failing_go]

/-- The scan ends behind the structure of type 127. -/
theorem returns_sequence (q : SmbiosSequence) {padding : List UInt8} {p : ℕ}
    (h : At mem p (q.bytes ++ padding)) :
    Returns (fun s => failing (scanTurn mem s)) (.header p)
      (.ok (UInt32.ofNat (p + q.bytes.length))) := by
  unfold SmbiosSequence.bytes at h ⊢
  rw [List.append_assoc] at h
  obtain ⟨s', hgoes, hturn⟩ := goes_behind q.last h.skip
  have hinside : ¬p + (q.structures.flatMap SmbiosStructure.bytes).length + q.last.bytes.length >
      mem.length := by
    have hbound := h.skip.skip.bound
    omega
  refine ((goes_structures q.others h).trans hgoes).returns_iff.mpr (returns_of_stop ?_)
  rw [hturn, behindStrings, if_neg hinside, if_pos q.ends, failing_stop, List.length_append,
    Nat.add_assoc]

end

/-- The scan ends without a read outside of the table. The length of a well-formed table is found,
whatever stands behind it. -/
theorem tableLength_exact :
    (∀ t : SmbiosTable, ∃ n, tableLength t = some (.ok n)) ∧
      ∀ t : PaddedTable, ∃ n, tableLength t.toSmbiosTable = some (.ok n) ∧
        n.toNat = t.sequence.bytes.length := by
  constructor
  · intro t
    obtain ⟨actual, hscan⟩ := loop_scanTurn t.bytes (.header 0)
    unfold tableLength preScan
    rw [hscan]
    exact ⟨_, rfl⟩
  · intro t
    obtain ⟨actual, hscan⟩ := loop_scanTurn t.bytes (.header 0)
    have hstart := At.start t.bytes
    nth_rewrite 2 [t.layout] at hstart
    have hreturns := returns_sequence t.sequence hstart
    have hactual := Except.ok.inj (hreturns.unique ⟨_, hscan⟩)
    rw [Nat.zero_add] at hactual
    have hsize := t.size
    have hbytes : t.bytes.length = t.sequence.bytes.length + t.padding.length := by
      rw [t.layout, List.length_append]
    have hvalue : (UInt32.ofNat t.sequence.bytes.length).toNat = t.sequence.bytes.length := by
      rw [UInt32.toNat_ofNat']
      exact Nat.mod_eq_of_lt (by omega)
    have hpos : UInt32.ofNat t.sequence.bytes.length ≠ 0 := by
      intro hzero
      rw [hzero] at hvalue
      have hheader := t.sequence.last.header
      unfold SmbiosSequence.bytes SmbiosStructure.bytes at hvalue
      simp only [List.length_append, UInt32.toNat_zero] at hvalue
      omega
    refine ⟨UInt32.ofNat t.sequence.bytes.length, ?_, hvalue⟩
    unfold tableLength preScan
    rw [hscan, ← hactual]
    exact congrArg (fun n => some (Except.ok n)) (if_neg hpos)

def endStructure : SmbiosStructure where
  formatted := [127, 4, 1, 0]
  strings := []
  header := by decide
  length_byte := rfl

def oneSystem : SmbiosSequence where
  structures := [systemStructure]
  last := endStructure
  others := by decide
  ends := rfl

/-- The table has room behind the structure which ends it. -/
def paddedSystem : PaddedTable where
  bytes := oneSystem.bytes ++ [0xff, 0xff, 0, 0, 7]
  size := by decide
  sequence := oneSystem
  padding := [0xff, 0xff, 0, 0, 7]
  layout := rfl

theorem tableLength_paddedSystem :
    ∃ n, tableLength paddedSystem.toSmbiosTable = some (.ok n) ∧ n.toNat = 23 :=
  tableLength_exact.2 paddedSystem

end BankFinder.SmbiosScan
