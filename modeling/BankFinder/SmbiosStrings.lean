import BankFinder.BoundedCursor
import BankFinder.HaltingLoop
import BankFinder.StringSets

/-!
# Strings of an SMBIOS structure

A structure is a formatted area, whose second byte is its length, and a set of strings behind it.
The formatted area refers to a string by its number. `tstruct_string` counts zeros until it reaches
the string with that number, or the end of the set.
-/

namespace BankFinder.SmbiosStrings
open BoundedCursor HaltingLoop StringSets

structure SmbiosStructure where
  formatted : List UInt8
  strings : List (Text UInt8)
  header : 4 ≤ formatted.length
  length_byte : (formatted.getD 1 0).toNat = formatted.length

namespace SmbiosStructure

def type (s : SmbiosStructure) : UInt8 := s.formatted.getD 0 0

def bytes (s : SmbiosStructure) : List UInt8 := s.formatted ++ stringSet s.strings

/-- Where string `i` starts, counted from 0. -/
def startOf (s : SmbiosStructure) (i : ℕ) : ℕ :=
  s.formatted.length + (terminated (s.strings.take i)).length

/-- The start of string `n`, counted from 1. -/
def find (s : SmbiosStructure) (n : ℤ) : Option ℕ :=
  if 1 ≤ n ∧ n ≤ s.strings.length then some (s.startOf (n.toNat - 1)) else none

end SmbiosStructure

/-- `a` and `n` in the loop of `tstruct_string` -/
structure Walk where
  a : ℕ
  n : ℤ
  deriving DecidableEq

/-- One turn of the loop; `mem` are the `maxlen` bytes from the header on. -/
def stringTurn (mem : List UInt8) (w : Walk) : Except OutOfBounds (Walk ⊕ Option ℕ) := do
  let c ← deref mem w.a
  let n := if c = 0 then w.n - 1 else w.n
  if n = 0 ∧ c ≠ 0 then return .inr (some w.a)
  else if w.a + 1 < mem.length then
    let next ← deref mem (w.a + 1)
    if next = 0 then
      let last ← deref mem w.a
      return if last = 0 then .inr none else .inl ⟨w.a + 1, n⟩
    else return .inl ⟨w.a + 1, n⟩
  else return .inr none

/-- `tstruct_string`: the position of the string, if there is one. -/
def tstructString (mem : List UInt8) (n : ℤ) : Option (Except OutOfBounds (Option ℕ)) :=
  if n < 1 then some (.ok none)
  else
    match deref mem 1 with
    | .error e => some (.error e)
    | .ok length =>
        loop (fun w => failing (stringTurn mem w)) (mem.length + 1) ⟨length.toNat, n - 1⟩

section
variable {mem more : List UInt8} {a : ℕ} {c : UInt8}

/-- The string is found. -/
theorem stringTurn_found (h : At mem a (c :: more)) (hc : c ≠ 0) :
    stringTurn mem ⟨a, 0⟩ = .ok (.inr (some a)) := by
  unfold stringTurn
  rw [h.deref, ok_bind]
  simp [hc]

/-- A character is passed over, whatever follows it. -/
theorem stringTurn_char {next : UInt8} (h : At mem a (c :: next :: more)) (hc : c ≠ 0) {n : ℤ}
    (hn : n ≠ 0) : stringTurn mem ⟨a, n⟩ = .ok (.inl ⟨a + 1, n⟩) := by
  unfold stringTurn
  rw [h.deref, ok_bind, h.next.deref]
  simp only [if_neg hc, hn, false_and, if_false, if_pos h.next.lt_of_cons]
  rw [ok_bind]
  by_cases hnext : next = 0
  · rw [if_pos hnext, ok_bind, if_neg hc]
    rfl
  · rw [if_neg hnext]
    rfl

/-- A zero, with another string behind it. -/
theorem stringTurn_zero (h : At mem a (0 :: c :: more)) (hc : c ≠ 0) (n : ℤ) :
    stringTurn mem ⟨a, n⟩ = .ok (.inl ⟨a + 1, n - 1⟩) := by
  unfold stringTurn
  rw [h.deref, ok_bind, h.next.deref]
  simp only [if_true, ne_eq, not_true_eq_false, and_false, if_false, if_pos h.next.lt_of_cons]
  rw [ok_bind, if_neg hc]
  rfl

/-- A zero, with the end of the set behind it. -/
theorem stringTurn_end (h : At mem a (0 :: 0 :: more)) (n : ℤ) :
    stringTurn mem ⟨a, n⟩ = .ok (.inr none) := by
  unfold stringTurn
  rw [h.deref, ok_bind, h.next.deref]
  simp only [if_true, ne_eq, not_true_eq_false, and_false, if_false, if_pos h.next.lt_of_cons]
  rw [ok_bind, if_pos rfl, ok_bind]
  rfl

end

section
variable {mem : List UInt8}

/-- The loop goes to the zero of a string which is not the one looked for. -/
theorem goes_zero {chars more : List UInt8} (hchars : ∀ c ∈ chars, c ≠ 0) {a : ℕ}
    (h : At mem a (chars ++ 0 :: more)) {n : ℤ} (hn : n ≠ 0) :
    Goes (fun w => failing (stringTurn mem w)) ⟨a, n⟩ ⟨a + chars.length, n⟩ := by
  induction chars generalizing a with
  | nil => exact goes_refl _ _
  | cons c chars ih =>
      rw [List.forall_mem_cons] at hchars
      have hturn : stringTurn mem ⟨a, n⟩ = .ok (.inl ⟨a + 1, n⟩) := by
        obtain ⟨next, rest, hrest⟩ := List.exists_cons_of_ne_nil (l := chars ++ 0 :: more) (by simp)
        rw [List.cons_append, hrest] at h
        exact stringTurn_char h hchars.1 hn
      refine goes_step (by rw [hturn, failing_go]) ?_
      rw [List.length_cons, Nat.add_comm chars.length, ← Nat.add_assoc]
      exact ih hchars.2 h.next

theorem terminated_head (t : Text UInt8) (texts : List (Text UInt8)) (rest : List UInt8) :
    ∃ c more, terminated (t :: texts) ++ rest = c :: more ∧ c ≠ 0 := by
  obtain ⟨c, chars, hc⟩ := List.exists_cons_of_ne_nil t.nonempty
  refine ⟨c, chars ++ (0 :: terminated texts ++ rest), ?_, t.plain c (hc ▸ List.mem_cons_self)⟩
  rw [terminated_cons, hc, List.append_assoc, List.cons_append]

theorem returns_first (t : Text UInt8) (texts : List (Text UInt8)) {rest : List UInt8} {a : ℕ}
    (h : At mem a (terminated (t :: texts) ++ rest)) :
    Returns (fun w => failing (stringTurn mem w)) ⟨a, 0⟩ (.ok (some a)) := by
  obtain ⟨c, more, hhead, hc⟩ := terminated_head t texts rest
  rw [hhead] at h
  refine returns_of_stop ?_
  rw [stringTurn_found h hc, failing_stop]

/-- The loop takes one string after the other, until it is at the one with the number or at the
end of the set. -/
theorem returns_string (t : Text UInt8) (texts : List (Text UInt8)) {rest : List UInt8} {a : ℕ}
    (h : At mem a (terminated (t :: texts) ++ 0 :: rest)) (n : ℕ) :
    Returns (fun w => failing (stringTurn mem w)) ⟨a, n⟩
      (.ok (if n ≤ texts.length then some (a + (terminated ((t :: texts).take n)).length)
        else none)) := by
  induction texts generalizing t a n with
  | nil =>
      cases n with
      | zero => exact returns_first t [] h
      | succ n =>
          rw [terminated_cons, terminated_nil, List.append_assoc, List.singleton_append] at h
          have hgoes := goes_zero t.plain h (n := n + 1) (by omega)
          have hend := stringTurn_end h.skip (n + 1)
          have hnone : ¬n + 1 ≤ ([] : List (Text UInt8)).length := Nat.not_succ_le_zero n
          rw [if_neg hnone]
          refine hgoes.returns_iff.mpr (returns_of_stop ?_)
          rw [hend, failing_stop]
  | cons t' texts ih =>
      cases n with
      | zero => exact returns_first t (t' :: texts) h
      | succ n =>
          rw [terminated_cons, List.append_assoc, List.cons_append] at h
          have hgoes := goes_zero t.plain h (n := n + 1) (by omega)
          have hzero := h.skip
          have hrest := ih t' hzero.next n
          obtain ⟨c, more, hhead, hc⟩ := terminated_head t' texts (0 :: rest)
          rw [hhead] at hzero
          have hturn := stringTurn_zero hzero hc (n + 1)
          rw [Int.add_sub_cancel] at hturn
          have hstart : a + (terminated ((t :: t' :: texts).take (n + 1))).length =
              a + t.chars.length + 1 + (terminated ((t' :: texts).take n)).length := by
            rw [List.take_succ_cons, terminated_cons, List.length_append, List.length_cons]
            omega
          rw [hstart, List.length_cons]
          simp only [Nat.add_le_add_iff_right]
          refine hgoes.returns_iff.mpr ((returns_go_iff ?_).mpr hrest)
          rw [hturn, failing_go]

theorem returns_find (s : SmbiosStructure) {rest : List UInt8}
    (h : At mem s.formatted.length (stringSet s.strings ++ rest)) (n : ℕ) :
    Returns (fun w => failing (stringTurn mem w)) ⟨s.formatted.length, n⟩
      (.ok (s.find (n + 1))) := by
  have hlower : (1 : ℤ) ≤ n + 1 := by omega
  have hindex : ((n : ℤ) + 1).toNat - 1 = n := by omega
  unfold SmbiosStructure.find SmbiosStructure.startOf
  rw [hindex]
  cases hstrings : s.strings with
  | nil =>
      rw [hstrings] at h
      have hnone : ¬((1 : ℤ) ≤ n + 1 ∧ (n : ℤ) + 1 ≤ ([] : List (Text UInt8)).length) := by
        rw [List.length_nil]
        omega
      rw [if_neg hnone]
      refine returns_of_stop ?_
      rw [stringTurn_end h, failing_stop]
  | cons t texts =>
      rw [hstrings, stringSet, List.append_assoc, List.singleton_append] at h
      have hcount : ((1 : ℤ) ≤ n + 1 ∧ (n : ℤ) + 1 ≤ (t :: texts).length) ↔
          n ≤ texts.length := by
        rw [List.length_cons]
        omega
      simp only [hcount]
      exact returns_string t texts h n

end

/-- A turn which goes on moves the cursor on, and not to the end. -/
theorem stringTurn_go {mem : List UInt8} {w w' : Walk} (h : stringTurn mem w = .ok (.inl w')) :
    w'.a = w.a + 1 ∧ w.a + 1 < mem.length := by
  obtain ⟨c, -, h⟩ := exists_of_bind_ok h
  simp only at h
  generalize (if c = 0 then w.n - 1 else w.n) = n at h
  by_cases hfound : n = 0 ∧ c ≠ 0
  · rw [if_pos hfound] at h
    exact absurd h (by simp)
  rw [if_neg hfound] at h
  by_cases hbound : w.a + 1 < mem.length
  · rw [if_pos hbound] at h
    obtain ⟨next, -, h⟩ := exists_of_bind_ok h
    by_cases hnext : next = 0
    · rw [if_pos hnext] at h
      obtain ⟨last, -, h⟩ := exists_of_bind_ok h
      by_cases hlast : last = 0
      · rw [if_pos hlast] at h
        exact absurd h (by simp)
      · rw [if_neg hlast] at h
        obtain rfl := Sum.inl.inj (Except.ok.inj h)
        exact ⟨rfl, hbound⟩
    · rw [if_neg hnext] at h
      obtain rfl := Sum.inl.inj (Except.ok.inj h)
      exact ⟨rfl, hbound⟩
  · rw [if_neg hbound] at h
    exact absurd h (by simp)

/-- There are no more turns than bytes. -/
theorem loop_of_returns {mem : List UInt8} {w : Walk} {r : Except OutOfBounds (Option ℕ)}
    (h : Returns (fun w => failing (stringTurn mem w)) w r) :
    loop (fun w => failing (stringTurn mem w)) (mem.length + 1) w = some r := by
  have hgo (w w' : Walk) (_ : True) (hturn : failing (stringTurn mem w) = .inl w') :
      True ∧ mem.length - w'.a < mem.length - w.a := by
    obtain ⟨hnext, hbound⟩ := stringTurn_go (failing_eq_inl_iff.mp hturn)
    exact ⟨trivial, by omega⟩
  have hstop (w : Walk) (r : Except OutOfBounds (Option ℕ)) (_ : True)
      (_ : failing (stringTurn mem w) = .inr r) : True := trivial
  obtain ⟨r', hr', -⟩ := loop_of_measure (fun w : Walk => mem.length - w.a) hgo hstop trivial
    (Nat.lt_succ_of_le (Nat.sub_le mem.length w.a))
  rw [hr', h.unique ⟨_, hr'⟩]

section
variable (s : SmbiosStructure) (rest : List UInt8)

theorem strings_at : At (s.bytes ++ rest) s.formatted.length (stringSet s.strings ++ rest) := by
  have hstart := At.start (s.bytes ++ rest)
  unfold SmbiosStructure.bytes at hstart ⊢
  rw [List.append_assoc] at hstart ⊢
  have hskip := hstart.skip
  rwa [Nat.zero_add] at hskip

/-- `hdr->length` -/
theorem deref_length : deref (s.bytes ++ rest) 1 = .ok (s.formatted.getD 1 0) := by
  have hheader := s.header
  have hbytes : (s.bytes ++ rest).getD 1 0 = s.formatted.getD 1 0 := by
    unfold SmbiosStructure.bytes
    rw [List.append_assoc, List.getD_append _ _ _ _ (by omega)]
  rw [← hbytes]
  refine deref_getD ?_ 0
  unfold SmbiosStructure.bytes
  rw [List.length_append, List.length_append]
  omega

theorem tstructString_find (n : ℤ) :
    tstructString (s.bytes ++ rest) n = some (.ok (s.find n)) := by
  unfold tstructString
  by_cases hn : n < 1
  · have hnone : ¬(1 ≤ n ∧ n ≤ s.strings.length) := by omega
    rw [if_pos hn, SmbiosStructure.find, if_neg hnone]
  · obtain ⟨k, rfl⟩ : ∃ k : ℕ, n = k + 1 := ⟨n.toNat - 1, by omega⟩
    rw [if_neg hn, deref_length s rest]
    simp only [s.length_byte, Int.add_sub_cancel]
    exact loop_of_returns (returns_find s (strings_at s rest) k)

theorem string_stands (i : Fin s.strings.length) :
    s.strings[i].chars ++ [0] <+: (s.bytes ++ rest).drop (s.startOf i) := by
  have hset := strings_at s rest
  have hsplit : s.strings = s.strings.take i ++ s.strings[i] :: s.strings.drop (i + 1) := by
    rw [Fin.getElem_fin, List.cons_getElem_drop_succ, List.take_append_drop]
  obtain ⟨more, hmore⟩ := stringSet_of_append (s.strings.take i) s.strings[i]
    (s.strings.drop (i + 1))
  rw [← hsplit] at hmore
  rw [hmore, List.append_assoc] at hset
  have hstart := hset.skip.left
  unfold SmbiosStructure.startOf
  rw [hstart]
  exact ⟨more ++ rest, by rw [List.append_assoc, List.append_assoc, List.append_assoc]⟩

end

/-- The search stays below `maxlen`. It finds the start of string `n`, and nothing for a number
which no string has, whatever follows the set. -/
theorem tstructString_exact (s : SmbiosStructure) (rest : List UInt8) :
    (∀ n : ℤ, tstructString (s.bytes ++ rest) n = some (.ok (s.find n))) ∧
      ∀ i : Fin s.strings.length,
        s.strings[i].chars ++ [0] <+: (s.bytes ++ rest).drop (s.startOf i) := by
  constructor
  · intro n
    exact tstructString_find s rest n
  · intro i
    exact string_stands s rest i

def vendorText : Text UInt8 := ⟨[0x41, 0x43, 0x4d, 0x45], by simp, by simp⟩
def productText : Text UInt8 := ⟨[0x58, 0x31], by simp, by simp⟩

/-- A system structure with its two strings. -/
def systemStructure : SmbiosStructure where
  formatted := [1, 8, 0, 0, 1, 2, 0, 0]
  strings := [vendorText, productText]
  header := by decide
  length_byte := rfl

/-- The product is found behind the vendor, and the strings are not run over into what follows. -/
theorem tstructString_systemStructure :
    tstructString (systemStructure.bytes ++ [127, 4, 1, 0, 0, 0]) 2 = some (.ok (some 13)) ∧
      tstructString (systemStructure.bytes ++ [127, 4, 1, 0, 0, 0]) 3 = some (.ok none) ∧
      [0x58, 0x31, 0] <+: (systemStructure.bytes ++ [127, 4, 1, 0, 0, 0]).drop 13 := by
  obtain ⟨hfound, hstands⟩ := tstructString_exact systemStructure [127, 4, 1, 0, 0, 0]
  exact ⟨hfound 2, hfound 3, hstands ⟨1, by decide⟩⟩

end BankFinder.SmbiosStrings
