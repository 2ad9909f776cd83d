import BankFinder.AddressEntry
import BankFinder.SeparatedWords

/-!
# Which lines are read to their end

The address parser reads a line word by word. A word which is a hexadecimal number is
consumed as a whole, and of any other word at most a number in front of it: the loop
then stands before a character which nothing consumes, and stays there unless the
capacity is reached.
-/

namespace BankFinder.AddressWords
open BootSession AddressEntry SeparatedWords

/-- The characters behind an optional `0x` which are read as digits. -/
def digitRun (word : List UInt16) : List UInt16 := (skipHexPrefix word).takeWhile isHexDigit

def digitsValue (v : ℕ) (ds : List UInt16) : ℕ :=
  ds.foldl (fun v c => v * 16 + (hexValue c).toNat) v

/-- The number a word begins with. -/
def wordValue (word : List UInt16) : ℕ := digitsValue 0 (digitRun word)

/-- Nothing but digits stands behind the optional `0x`. -/
def isNumeral (word : List UInt16) : Bool := (skipHexPrefix word).all isHexDigit

/-- The page which is stored for a word, unless it is zero. -/
def entry (word : List UInt16) : UInt64 := pageAlign (UInt64.ofNat (wordValue word))

def store (out : List UInt64) (word : List UInt16) : List UInt64 :=
  if entry word ≠ 0 then out ++ [entry word] else out

/-- The loop of the parser, word by word. -/
def readWords (cap : ℕ) : List UInt64 → List (List UInt16) → Option (List UInt64)
  | out, [] => some out
  | out, w :: ws =>
      if cap ≤ out.length then some out
      else if isNumeral w then readWords cap (store out w) ws
      else if cap ≤ (store out w).length then some (store out w)
      else none

theorem hexValue_lt (c : UInt16) : (hexValue c).toNat < 16 := by
  unfold hexValue
  simp only [UInt16.le_iff_toNat_le]
  split_ifs with hdec hlower hupper
  · rw [UInt16.toNat_toUInt64, UInt16.toNat_sub]
    simp at hdec ⊢
    omega
  · rw [UInt64.toNat_add, UInt16.toNat_toUInt64, UInt16.toNat_sub]
    simp at hlower ⊢
    omega
  · rw [UInt64.toNat_add, UInt16.toNat_toUInt64, UInt16.toNat_sub]
    simp at hupper ⊢
    omega
  · decide

/-- No digit follows. -/
def Stops (rest : List UInt16) : Prop := ∀ c ∈ rest.head?, isSeparator c = true

theorem isHexDigit_of_separator {c : UInt16} (h : isSeparator c = true) :
    isHexDigit c = false := by
  unfold isSeparator at h
  rcases (by simpa using h : (c = 0x20 ∨ c = 0x09) ∨ c = 0x2C) with (rfl | rfl) | rfl
  · rfl
  · rfl
  · rfl

theorem hexDigits_append (v : ℕ) (w : List UInt16) {rest : List UInt16} (hrest : Stops rest) :
    hexDigits (UInt64.ofNat v) (w ++ rest) =
      (UInt64.ofNat (digitsValue v (w.takeWhile isHexDigit)), w.dropWhile isHexDigit ++ rest) := by
  induction w generalizing v with
  | nil =>
      cases rest with
      | nil => rfl
      | cons c rest =>
          have hc := isHexDigit_of_separator (hrest c rfl)
          simp [hexDigits, hc, digitsValue]
  | cons c w ih =>
      rw [List.cons_append]
      unfold hexDigits
      by_cases hc : isHexDigit c = true
      · rw [if_pos hc, AlignedWords.push_nibble v (hexValue_lt c), ih,
          List.takeWhile_cons_of_pos hc, List.dropWhile_cons_of_pos hc]
        rfl
      · rw [if_neg hc, List.takeWhile_cons_of_neg hc, List.dropWhile_cons_of_neg hc]
        rfl

theorem skipHexPrefix_cons_cons (c d : UInt16) (p : List UInt16) :
    skipHexPrefix (c :: d :: p) = if c = 0x30 ∧ (d = 0x78 ∨ d = 0x58) then p else c :: d :: p := by
  simp [skipHexPrefix]

theorem skipHexPrefix_append {w rest : List UInt16} (hne : w ≠ []) (hrest : Stops rest) :
    skipHexPrefix (w ++ rest) = skipHexPrefix w ++ rest := by
  match w, hne with
  | [c], _ =>
      have hx : rest.head? ≠ some 0x78 := fun h => absurd (hrest _ h) (by decide)
      have hX : rest.head? ≠ some 0x58 := fun h => absurd (hrest _ h) (by decide)
      simp [skipHexPrefix, hx, hX]
  | c :: d :: w, _ =>
      rw [List.cons_append, List.cons_append, skipHexPrefix_cons_cons, skipHexPrefix_cons_cons]
      split_ifs
      · rfl
      · rfl

/-- The number at the beginning of a word is read, and the rest of the word is left. -/
theorem parseHex_word {w rest : List UInt16} (hne : w ≠ []) (hw : ∀ c ∈ w, isSeparator c = false)
    (hrest : Stops rest) : parseHex (w ++ rest) =
      (UInt64.ofNat (wordValue w), (skipHexPrefix w).dropWhile isHexDigit ++ rest) := by
  have hblank : (w ++ rest).dropWhile isBlank = w ++ rest := by
    cases w with
    | nil => exact absurd rfl hne
    | cons c w =>
        have hc := hw c List.mem_cons_self
        have hnot : ¬isBlank c = true := by
          simp only [isSeparator, Bool.or_eq_false_iff] at hc
          simp [isBlank, hc.1.1, hc.1.2]
        rw [List.cons_append, List.dropWhile_cons_of_neg hnot]
  have hdigits := hexDigits_append 0 (skipHexPrefix w) hrest
  unfold parseHex
  rw [hblank, skipHexPrefix_append hne hrest]
  exact hdigits

theorem skipHexPrefix_suffix (w : List UInt16) : skipHexPrefix w <:+ w := by
  unfold skipHexPrefix
  split_ifs
  · exact List.drop_suffix 2 w
  · exact List.suffix_rfl

/-- Of a word which is no number something is left, and it does not begin with a digit. -/
theorem exists_remainder {w : List UInt16} (hnot : isNumeral w = false) :
    ∃ c v, (skipHexPrefix w).dropWhile isHexDigit = c :: v ∧ isHexDigit c = false := by
  have hne : (skipHexPrefix w).dropWhile isHexDigit ≠ [] := by
    intro hnil
    have hall := List.dropWhile_eq_nil_iff.mp hnil
    rw [isNumeral, List.all_eq_false] at hnot
    obtain ⟨c, hc, hdigit⟩ := hnot
    exact hdigit (hall c hc)
  obtain ⟨c, v, hcons⟩ := List.exists_cons_of_ne_nil hne
  have hhead := List.head?_dropWhile_not isHexDigit (skipHexPrefix w)
  rw [hcons] at hhead
  exact ⟨c, v, hcons, hhead⟩

/-- Nothing of it is consumed. -/
theorem parseHex_remainder {c : UInt16} {v rest : List UInt16} (hc : isHexDigit c = false)
    (hsep : ∀ x ∈ c :: v, isSeparator x = false) (hrest : Stops rest) :
    parseHex (c :: v ++ rest) = (0, c :: v ++ rest) := by
  have hzero : c ≠ 0x30 := by
    intro hzero
    rw [hzero] at hc
    exact absurd hc (by decide)
  have hskip : skipHexPrefix (c :: v) = c :: v := by
    simp [skipHexPrefix, hzero]
  have hvalue : wordValue (c :: v) = 0 := by
    unfold wordValue digitRun
    rw [hskip, List.takeWhile_cons_of_neg (by simp [hc])]
    rfl
  rw [parseHex_word (List.cons_ne_nil c v) hsep hrest, hskip,
    List.dropWhile_cons_of_neg (by simp [hc]), hvalue]
  rfl

theorem readWords_full {cap : ℕ} {out : List UInt64} (h : cap ≤ out.length)
    (ws : List (List UInt16)) : readWords cap out ws = some out := by
  cases ws with
  | nil => rfl
  | cons w ws => exact if_pos h

/-- Behind a word which is no number the loop ends only if the table is full. -/
theorem parseLoop_remainder (cap : ℕ) {fuel : ℕ} (out : List UInt64) {w rest : List UInt16}
    (hfuel : 0 < fuel) (hw : ∀ c ∈ w, isSeparator c = false) (hrest : Stops rest)
    (hnot : isNumeral w = false) :
    parseLoop cap fuel out ((skipHexPrefix w).dropWhile isHexDigit ++ rest) =
      if cap ≤ out.length then some out else none := by
  obtain ⟨c, v, hcons, hc⟩ := exists_remainder hnot
  have hsep : ∀ x ∈ c :: v, isSeparator x = false := by
    intro x hx
    rw [← hcons] at hx
    exact hw x (((List.dropWhile_suffix _).trans (skipHexPrefix_suffix w)).subset hx)
  rw [hcons]
  split_ifs with hfull
  · obtain ⟨n, rfl⟩ := Nat.exists_eq_add_of_lt hfuel
    unfold parseLoop
    rw [if_pos (Or.inr hfull)]
  · refine parseLoop_stuck ?_ ?_ (parseHex_remainder hc hsep hrest) fuel
    · rw [not_or]
      exact ⟨List.cons_ne_nil c _, hfull⟩
    · rw [List.cons_append, List.dropWhile_cons_of_neg (by simp [hsep c List.mem_cons_self])]

theorem parseLoop_words (cap : ℕ) {fuel : ℕ} (out : List UInt64) {p : List UInt16}
    (h : p.length < fuel) : parseLoop cap fuel out p = readWords cap out (words isSeparator p) := by
  induction fuel generalizing out p with
  | zero => exact absurd h (Nat.not_lt_zero _)
  | succ fuel ih =>
      have hlength : (p.dropWhile isSeparator).length ≤ p.length :=
        (List.dropWhile_suffix isSeparator).length_le
      have hwords : words isSeparator (p.dropWhile isSeparator) = words isSeparator p :=
        words_dropWhile p
      have hhead := List.head?_dropWhile_not isSeparator p
      unfold parseLoop
      simp only
      by_cases hcap : p = [] ∨ cap ≤ out.length
      · rw [if_pos hcap]
        rcases hcap with rfl | hcap
        · rw [words_nil]
          rfl
        · exact (readWords_full hcap _).symm
      · rw [if_neg hcap, ← hwords]
        generalize p.dropWhile isSeparator = q at hlength hhead ⊢
        by_cases hnil : q = []
        · rw [if_pos hnil, hnil, words_nil]
          rfl
        · have hstart : ∀ c ∈ q.head?, isSeparator c = false := by
            intro c hc
            rw [hc] at hhead
            exact hhead
          obtain ⟨w, rest, rfl, hne, hw, hrest, hfirst⟩ := exists_word hnil hstart
          rw [List.length_append] at hlength
          have hpos := List.length_pos_of_ne_nil hne
          have hroom := (not_or.mp hcap).2
          rw [if_neg hnil, hfirst]
          simp only [parseHex_word hne hw hrest]
          change parseLoop cap fuel (store out w) _ = _
          unfold readWords
          rw [if_neg hroom]
          by_cases hnum : isNumeral w = true
          · have hconsumed : (skipHexPrefix w).dropWhile isHexDigit = [] := by
              rw [List.dropWhile_eq_nil_iff]
              exact List.all_eq_true.mp hnum
            rw [if_pos hnum, hconsumed, List.nil_append]
            exact ih (store out w) (by omega)
          · rw [if_neg hnum]
            exact parseLoop_remainder cap _ (by omega) hw hrest (Bool.not_eq_true _ ▸ hnum)

theorem parseAddresses_words (line : List UInt16) (cap : ℕ) :
    parseAddresses line cap = readWords cap [] (words isSeparator line) :=
  parseLoop_words cap [] (Nat.lt_succ_self _)

/-- The words which are looked at: up to the first one which is no number. -/
def scanned (ws : List (List UInt16)) : List (List UInt16) :=
  ws.takeWhile isNumeral ++ (ws.dropWhile isNumeral).take 1

/-- The scanned words for which there is an entry. -/
def stored (ws : List (List UInt16)) : List (List UInt16) :=
  (scanned ws).filter fun w => entry w ≠ 0

theorem scanned_numeral {w : List UInt16} (h : isNumeral w = true) (ws : List (List UInt16)) :
    scanned (w :: ws) = w :: scanned ws := by
  unfold scanned
  rw [List.takeWhile_cons_of_pos h, List.dropWhile_cons_of_pos h, List.cons_append]

theorem scanned_other {w : List UInt16} (h : ¬isNumeral w = true) (ws : List (List UInt16)) :
    scanned (w :: ws) = [w] := by
  unfold scanned
  rw [List.takeWhile_cons_of_neg h, List.dropWhile_cons_of_neg h]
  rfl

theorem stored_numeral {w : List UInt16} (h : isNumeral w = true) (ws : List (List UInt16)) :
    stored (w :: ws) = if entry w = 0 then stored ws else w :: stored ws := by
  unfold stored
  rw [scanned_numeral h]
  split_ifs with hzero
  · simp [hzero]
  · simp [hzero]

theorem stored_other {w : List UInt16} (h : ¬isNumeral w = true) (ws : List (List UInt16)) :
    stored (w :: ws) = if entry w = 0 then [] else [w] := by
  unfold stored
  rw [scanned_other h]
  split_ifs with hzero
  · simp [hzero]
  · simp [hzero]

/-- The loop ends exactly on numbers, or when the capacity is reached, and then it has written
the entries of the scanned words as far as they fit. -/
theorem readWords_eq {cap : ℕ} {out : List UInt64} (h : out.length ≤ cap)
    (ws : List (List UInt16)) : readWords cap out ws =
      if (∀ w ∈ ws, isNumeral w = true) ∨ cap ≤ out.length + (stored ws).length then
        some (out ++ ((stored ws).map entry).take (cap - out.length))
      else none := by
  induction ws generalizing out with
  | nil => simp [readWords, stored, scanned]
  | cons w ws ih =>
      by_cases hfull : cap ≤ out.length
      · rw [readWords_full hfull, if_pos (Or.inr (hfull.trans (Nat.le_add_right _ _)))]
        rw [Nat.sub_eq_zero_of_le hfull, List.take_zero, List.append_nil]
      · unfold readWords
        rw [if_neg hfull]
        rw [not_le] at hfull
        by_cases hnum : isNumeral w = true
        · rw [if_pos hnum, stored_numeral hnum]
          simp only [List.forall_mem_cons, hnum, true_and]
          by_cases hzero : entry w = 0
          · rw [if_pos hzero, store, if_neg (not_not.mpr hzero), ih h]
          · have hlength : (out ++ [entry w]).length = out.length + 1 := by simp
            have htake : cap - out.length = cap - (out.length + 1) + 1 := by omega
            rw [if_neg hzero, store, if_pos hzero, ih (by omega), hlength, List.length_cons,
              List.map_cons, htake, List.take_succ_cons, List.append_assoc, Nat.add_assoc,
              Nat.add_comm 1]
            rfl
        · have hall : ¬∀ x ∈ w :: ws, isNumeral x = true := fun h => hnum (h w List.mem_cons_self)
          rw [if_neg hnum, stored_other hnum]
          simp only [hall, false_or]
          by_cases hzero : entry w = 0
          · rw [if_pos hzero, store, if_neg (not_not.mpr hzero)]
            simp
          · have htake : 1 ≤ cap - out.length := by omega
            rw [if_neg hzero, store, if_pos hzero, List.map_singleton,
              List.take_of_length_le htake]
            simp

/-- Every word of the line is a number, or there are as many entries as fit before the first
word which is none has been passed. -/
def Finishes (line : List UInt16) (cap : ℕ) : Prop :=
  (∀ w ∈ words isSeparator line, isNumeral w = true) ∨
    cap ≤ (stored (words isSeparator line)).length

instance (line : List UInt16) (cap : ℕ) : Decidable (Finishes line cap) :=
  inferInstanceAs (Decidable (_ ∨ _))

/-- The words whose entries are written. -/
def written (line : List UInt16) (cap : ℕ) : List (List UInt16) :=
  (stored (words isSeparator line)).take cap

theorem parseAddresses_eq (line : List UInt16) (cap : ℕ) : parseAddresses line cap =
    if Finishes line cap then some ((written line cap).map entry) else none := by
  have hread : readWords cap [] (words isSeparator line) = _ := readWords_eq (Nat.zero_le cap) _
  rw [List.length_nil, Nat.zero_add, List.nil_append, Nat.sub_zero] at hread
  rw [parseAddresses_words, hread, written, List.map_take]
  rfl

/-- The parser returns with at most `cap` entries, and each is the page of the number at the
beginning of its own word, the words in the order of the line. -/
def ReadsPages (line : List UInt16) (cap : ℕ) : Prop :=
  ∃ out, parseAddresses line cap = some out ∧ out.length ≤ cap ∧
    (written line cap).Sublist (words isSeparator line) ∧
    List.Forall₂ (fun w v => v ≠ 0 ∧ v.toNat = wordValue w / 4096 * 4096) (written line cap) out

theorem written_sublist (line : List UInt16) (cap : ℕ) :
    (written line cap).Sublist (words isSeparator line) := by
  have hscanned : (scanned (words isSeparator line)).Sublist (words isSeparator line) := by
    have hsplit := List.takeWhile_append_dropWhile (p := isNumeral) (l := words isSeparator line)
    nth_rewrite 2 [← hsplit]
    exact (List.Sublist.refl _).append (List.take_sublist 1 _)
  exact (List.take_sublist _ _).trans ((List.filter_sublist).trans hscanned)

theorem entry_ne_zero {line w : List UInt16} {cap : ℕ} (h : w ∈ written line cap) :
    entry w ≠ 0 := by
  simpa using (List.mem_filter.mp (List.mem_of_mem_take h)).2

/-- A page is that of the number exactly when the number fits into 64 bits. -/
theorem toNat_entry_iff {w : List UInt16} :
    (entry w).toNat = wordValue w / 4096 * 4096 ↔ wordValue w < 2 ^ 64 := by
  unfold entry
  rw [pageAlign_toNat, UInt64.toNat_ofNat']
  omega

/-- Lines are read to their end, and as they are written, exactly when their words are numbers
of 64 bits as far as they are read. -/
theorem readsPages_iff (line : List UInt16) (cap : ℕ) :
    ReadsPages line cap ↔ Finishes line cap ∧ ∀ w ∈ written line cap, wordValue w < 2 ^ 64 := by
  unfold ReadsPages
  rw [parseAddresses_eq]
  constructor
  · intro h
    obtain ⟨out, hout, -, -, hpages⟩ := h
    split_ifs at hout with hfinishes
    · refine ⟨hfinishes, ?_⟩
      rw [← Option.some.inj hout, List.forall₂_map_right_iff, List.forall₂_same] at hpages
      intro w hw
      exact toNat_entry_iff.mp (hpages w hw).2
  · intro h
    obtain ⟨hfinishes, hsmall⟩ := h
    refine ⟨(written line cap).map entry, if_pos hfinishes, ?_, written_sublist line cap, ?_⟩
    · rw [List.length_map]
      exact List.length_take_le _ _
    · rw [List.forall₂_map_right_iff, List.forall₂_same]
      intro w hw
      exact ⟨entry_ne_zero hw, toNat_entry_iff.mpr (hsmall w hw)⟩

/-- The keys `z` and Enter: a line of one letter. -/
theorem letter_line_hangs : readLine 512 [] [some ⟨0, 0x7A⟩, some ⟨0, 0x0D⟩] = some ([0x7A], []) ∧
    ¬ReadsPages [0x7A] 256 := by
  refine ⟨by decide, ?_⟩
  intro h
  obtain ⟨out, hout, -⟩ := h
  have hnone : parseAddresses [0x7A] 256 = none := by decide
  rw [hnone] at hout
  cases hout

end BankFinder.AddressWords
