import BankFinder.BadmemParse

/-!
# The text file line by line

No part of the parser looks past the end of its line: what follows a line feed changes
neither what the line gives nor where the next one starts. The result is therefore what
the lines give one by one, cut to the capacity of the two arrays.
-/

namespace BankFinder.BadmemLines
open Nvram BootSession BadmemParse

/-- What may follow a line in the buffer. -/
def Tail (tail : List UInt8) : Prop := tail = [] ∨ ∃ rest, tail = lineFeed :: rest

theorem dropWhile_append_tail {f : UInt8 → Bool} (hf : f lineFeed = false) (l : List UInt8)
    {tail : List UInt8} (h : Tail tail) : (l ++ tail).dropWhile f = l.dropWhile f ++ tail := by
  induction l with
  | nil =>
      rcases h with rfl | ⟨rest, rfl⟩
      · rfl
      · exact List.dropWhile_cons_of_neg (by simp [hf])
  | cons c l ih =>
      rw [List.cons_append, List.dropWhile_cons, List.dropWhile_cons]
      split_ifs
      · exact ih
      · rfl

theorem takeWhile_append_tail {f : UInt8 → Bool} (hf : f lineFeed = false) (l : List UInt8)
    {tail : List UInt8} (h : Tail tail) : (l ++ tail).takeWhile f = l.takeWhile f := by
  induction l with
  | nil =>
      rcases h with rfl | ⟨rest, rfl⟩
      · rfl
      · exact List.takeWhile_cons_of_neg (by simp [hf])
  | cons c l ih =>
      rw [List.cons_append, List.takeWhile_cons, List.takeWhile_cons]
      split_ifs
      · rw [ih]
      · rfl

theorem skipSp_append (l : List UInt8) {tail : List UInt8} (h : Tail tail) :
    skipSp (l ++ tail) = skipSp l ++ tail := dropWhile_append_tail (by decide) l h

theorem skipLine_append {l tail : List UInt8} (hl : lineFeed ∉ l) (h : Tail tail) :
    skipLine (l ++ tail) = tail.drop 1 := by
  have hall : l.dropWhile (· ≠ lineFeed) = [] := by
    rw [List.dropWhile_eq_nil_iff]
    intro c hc
    exact decide_eq_true fun heq => hl (heq ▸ hc)
  rw [skipLine, dropWhile_append_tail (by decide) l h, hall, List.nil_append]

theorem scanDigits_append {digit : UInt8 → Option UInt8} (hdigit : digit lineFeed = none)
    (push : UInt64 → UInt64 → UInt64) (val : UInt64) (ok : Bool) (l : List UInt8)
    {tail : List UInt8} (h : Tail tail) : scanDigits digit push val ok (l ++ tail) =
      { scanDigits digit push val ok l with
        rest := (scanDigits digit push val ok l).rest ++ tail } := by
  induction l generalizing val ok with
  | nil =>
      rcases h with rfl | ⟨rest, rfl⟩
      · rfl
      · simp only [List.nil_append, scanDigits, hdigit]
  | cons c l ih =>
      simp only [List.cons_append, scanDigits]
      cases digit c with
      | none => rfl
      | some d => exact ih _ _

theorem hexPrefixed_append (l : List UInt8) {tail : List UInt8} (h : Tail tail) :
    hexPrefixed (l ++ tail) = (hexPrefixed l).map (· ++ tail) := by
  cases l with
  | nil =>
      rcases h with rfl | ⟨rest, rfl⟩
      · rfl
      · cases rest with
        | nil => rfl
        | cons x rest => rfl
  | cons c l =>
      cases l with
      | nil =>
          rcases h with rfl | ⟨rest, rfl⟩
          · rfl
          · exact if_neg (by simp [lineFeed])
      | cons x l =>
          simp only [List.cons_append, hexPrefixed]
          split_ifs
          · rfl
          · rfl

theorem number_append (r : Scan) (tail : List UInt8) :
    (if r.ok then some (r.val, r.rest ++ tail) else none) =
      (if r.ok then some (r.val, r.rest) else none).map fun r => (r.1, r.2 ++ tail) := by
  obtain ⟨val, ok, rest⟩ := r
  cases ok with
  | false => rfl
  | true => rfl

theorem parseU64_append (l : List UInt8) {tail : List UInt8} (h : Tail tail) :
    parseU64 (l ++ tail) = (parseU64 l).map fun r => (r.1, r.2 ++ tail) := by
  unfold parseU64
  rw [hexPrefixed_append l h]
  cases hexPrefixed l with
  | none =>
      simp only [Option.map_none, scanDec, scanDigits_append (show decDigit lineFeed = none from rfl)
        _ _ _ _ h]
      exact number_append _ tail
  | some digits =>
      simp only [Option.map_some, scanHex, scanDigits_append (show hexDigit lineFeed = none from rfl)
        _ _ _ _ h]
      exact number_append _ tail

theorem matchKeyword_append {kw : List UInt8} (hkw : lineFeed ∉ kw) (l : List UInt8)
    {tail : List UInt8} (h : Tail tail) :
    matchKeyword kw (l ++ tail) = (matchKeyword kw l).map (· ++ tail) := by
  induction kw generalizing l with
  | nil => rfl
  | cons k kw ih =>
      obtain ⟨hk, hkw⟩ := not_or.mp (mt List.mem_cons.mpr hkw)
      cases l with
      | nil =>
          rcases h with rfl | ⟨rest, rfl⟩
          · rfl
          · exact if_neg hk
      | cons c l =>
          simp only [List.cons_append, matchKeyword]
          split_ifs
          · exact ih hkw l
          · rfl

theorem parseDesignator_append (destMax : ℕ) (l : List UInt8) {tail : List UInt8} (h : Tail tail) :
    parseDesignator destMax (l ++ tail) =
      (parseDesignator destMax l).map fun r => (r.1, r.2 ++ tail) := by
  have hrun : (l.takeWhile isDesignatorChar).length ≤ l.length :=
    (List.takeWhile_prefix _).length_le
  simp only [parseDesignator, takeWhile_append_tail (show isDesignatorChar lineFeed = false from rfl)
    l h, List.drop_append_of_le_length hrun]
  split_ifs
  · rfl
  · rfl

theorem endsLine_append (l : List UInt8) {tail : List UInt8} (h : Tail tail) :
    endsLine (l ++ tail) = endsLine l := by
  cases l with
  | nil =>
      rcases h with rfl | ⟨rest, rfl⟩
      · rfl
      · rfl
  | cons c l => rfl

/-- The region and the chip of a line, as one turn of the loop finds them. -/
def turnRegion (line : List UInt8) : Option BadmemRange := (parseRegion (skipSp line)).1

/-- Of what follows the `#`. -/
def commentChip (p : List UInt8) : Option BadmemChip :=
  match matchChipKeyword (skipSp p) with
  | none => none
  | some afterKw => (parseDesignator badmemDesigMax (skipSp afterKw)).map fun r => unresolvedChip r.1

def turnChip (line : List UInt8) : Option BadmemChip :=
  match skipSp line with
  | [] => none
  | c :: p => if c = hash then commentChip p else none

theorem notMem_of_suffix {l rest : List UInt8} (hl : lineFeed ∉ l) (h : rest <:+ l) :
    lineFeed ∉ rest := fun hmem => hl (h.mem hmem)

theorem skipSp_suffix (p : List UInt8) : skipSp p <:+ p := List.dropWhile_suffix _

theorem parseRegion_append {l tail : List UInt8} (hl : lineFeed ∉ l) (h : Tail tail) :
    parseRegion (l ++ tail) = ((parseRegion l).1, tail.drop 1) := by
  have hskip {q : List UInt8} (hq : lineFeed ∉ q) : skipLine (q ++ tail) = tail.drop 1 :=
    skipLine_append hq h
  unfold parseRegion
  rw [parseU64_append l h]
  cases haddr : parseU64 l with
  | none => exact congrArg _ (hskip hl)
  | some found =>
      obtain ⟨addr, q⟩ := found
      have hq := notMem_of_suffix hl ((skipSp_suffix q).trans (parseU64_suffix haddr))
      simp only [Option.map_some, skipSp_append q h]
      cases hsep : skipSp q with
      | nil =>
          rcases h with rfl | ⟨rest, rfl⟩
          · rfl
          · rfl
      | cons c s =>
          rw [hsep] at hq
          have hs := notMem_of_suffix hq ((skipSp_suffix s).trans (List.suffix_cons c s))
          have hbehind : skipLine (c :: (s ++ tail)) = tail.drop 1 := hskip hq
          simp only [List.cons_append]
          split_ifs with hcomma
          · rw [hbehind]
          · rw [skipSp_append s h, parseU64_append _ h]
            cases hlen : parseU64 (skipSp s) with
            | none =>
                simp only [Option.map_none]
                rw [hskip hs]
            | some found =>
                obtain ⟨len, t⟩ := found
                have ht := notMem_of_suffix hs ((skipSp_suffix t).trans (parseU64_suffix hlen))
                simp only [Option.map_some, skipSp_append t h, endsLine_append _ h]
                split_ifs
                · rw [hskip ht]
                · rw [hskip ht]

/-- What a found entry adds to an array with room for it. -/
def added {A : Type} (found : Option A) (entries : List A) (cap : ℕ) : List A :=
  if entries.length < cap then found.toList else []

@[simp] theorem added_none {A : Type} (entries : List A) (cap : ℕ) : added none entries cap = [] :=
  ite_self _

theorem parseComment_append {l tail : List UInt8} (hl : lineFeed ∉ l) (h : Tail tail)
    (chipMax : ℕ) (r : BadmemResult) : parseComment chipMax (l ++ tail) r =
      (tail.drop 1, { r with chips := r.chips ++ added (commentChip l) r.chips chipMax }) := by
  have hskip {q : List UInt8} (hq : lineFeed ∉ q) : skipLine (q ++ tail) = tail.drop 1 :=
    skipLine_append hq h
  have hsp := notMem_of_suffix hl (skipSp_suffix l)
  have hkeyword : lineFeed ∉ ascii "chip:" := by decide
  unfold parseComment commentChip added matchChipKeyword
  simp only [skipSp_append l h, matchKeyword_append hkeyword _ h]
  cases hkw : matchKeyword (ascii "chip:") (skipSp l) with
  | none => simp [hskip hsp]
  | some afterKw =>
      have hafter := notMem_of_suffix hsp ((skipSp_suffix afterKw).trans (matchKeyword_suffix hkw))
      simp only [Option.map_some, skipSp_append afterKw h, parseDesignator_append _ _ h]
      split_ifs with hroom
      · cases hd : parseDesignator badmemDesigMax (skipSp afterKw) with
        | none => simp [hskip hafter]
        | some found =>
            have hrest := notMem_of_suffix hafter (parseDesignator_suffix (d := found.1) hd)
            simp [hskip hrest]
      · simp [hskip hsp]

/-- No number begins with this byte. -/
theorem parseRegion_none {c : UInt8} (h : decDigit c = none) (p : List UInt8) :
    (parseRegion (c :: p)).1 = none := by
  have hzero : c ≠ 0x30 := by
    rintro rfl
    cases h
  have hhex : hexPrefixed (c :: p) = none := by
    cases p with
    | nil => rfl
    | cons x p => exact if_neg fun hx => hzero hx.1
  have hscan : scanDec (c :: p) = ⟨0, false, c :: p⟩ := by
    unfold scanDec scanDigits
    rw [h]
  have hnumber : parseU64 (c :: p) = none := by
    unfold parseU64
    rw [hhex, hscan]
    rfl
  unfold parseRegion
  rw [hnumber]

theorem parseLine_blank {c : UInt8} (h : c = carriageReturn ∨ c = lineFeed) (s : List UInt8)
    (rangeMax chipMax : ℕ) (r : BadmemResult) :
    parseLine rangeMax chipMax (c :: s) r = (skipLine (c :: s), r) := by
  unfold parseLine
  exact if_pos h

/-- The line is blank up to its end. -/
theorem parseLine_empty {tail : List UInt8} (h : Tail tail) (rangeMax chipMax : ℕ)
    (r : BadmemResult) : parseLine rangeMax chipMax tail r = (tail.drop 1, r) := by
  rcases h with rfl | ⟨rest, rfl⟩
  · rfl
  · rw [parseLine_blank (Or.inr rfl)]
    rfl

/-- A turn adds what its line gives and goes on behind it. -/
theorem parseLine_append {line tail : List UInt8} (hline : lineFeed ∉ line) (h : Tail tail)
    (rangeMax chipMax : ℕ) (r : BadmemResult) :
    parseLine rangeMax chipMax (skipSp (line ++ tail)) r = (tail.drop 1,
      ⟨r.ranges ++ added (turnRegion line) r.ranges rangeMax,
        r.chips ++ added (turnChip line) r.chips chipMax⟩) := by
  have hsp := notMem_of_suffix hline (skipSp_suffix line)
  have hbehind := skipLine_append hsp h
  rw [skipSp_append line h]
  unfold turnRegion turnChip
  cases hl : skipSp line with
  | nil =>
      rw [List.nil_append, parseLine_empty h]
      simp [show (parseRegion []).1 = none from rfl]
  | cons c s =>
      rw [hl] at hsp hbehind
      have hs := notMem_of_suffix hsp (List.suffix_cons c s)
      rw [List.cons_append] at hbehind ⊢
      by_cases hblank : c = carriageReturn ∨ c = lineFeed
      · have hnone : decDigit c = none := by
          rcases hblank with rfl | rfl
          · rfl
          · rfl
        have hcomment : c ≠ BadmemParse.hash := by
          rintro rfl
          exact absurd hblank (by decide)
        rw [parseLine_blank hblank, hbehind, parseRegion_none hnone]
        simp [hcomment]
      · unfold parseLine
        simp only [if_neg hblank]
        split_ifs with hhash hfull
        · have hnone : decDigit c = none := by
            rw [hhash]
            rfl
          rw [parseComment_append hs h, parseRegion_none hnone]
          simp
        · rw [hbehind]
          simp [added, Nat.not_lt.mpr hfull]
        · have hregion := parseRegion_append hsp h
          rw [List.cons_append] at hregion
          rw [hregion]
          cases (parseRegion (c :: s)).1 with
          | none => simp
          | some range => simp [added, Nat.not_le.mp hfull]

/-- The lines of a buffer are a line and the lines of what follows it. -/
theorem filterMap_splitOn {line tail : List UInt8} (hline : lineFeed ∉ line) (h : Tail tail)
    {B : Type} {f : List UInt8 → Option B} (hf : f [] = none) :
    ((line ++ tail).splitOn lineFeed).filterMap f =
      (f line).toList ++ ((tail.drop 1).splitOn lineFeed).filterMap f := by
  rcases h with rfl | ⟨rest, rfl⟩
  · rw [List.append_nil, List.splitOn_eq_singleton hline, List.drop_nil, List.splitOn_nil]
    cases hfound : f line with
    | none => simp [hfound, hf]
    | some found => simp [hfound, hf]
  · rw [List.splitOn_append_cons_self_of_not_mem hline]
    cases hfound : f line with
    | none => simp [hfound]
    | some found => simp [hfound]

/-- Any buffer is a line and what follows it. -/
theorem exists_line (p : List UInt8) :
    ∃ line tail, p = line ++ tail ∧ lineFeed ∉ line ∧ Tail tail := by
  induction p with
  | nil => exact ⟨[], [], rfl, List.not_mem_nil, Or.inl rfl⟩
  | cons c p ih =>
      by_cases hc : c = lineFeed
      · exact ⟨[], c :: p, rfl, List.not_mem_nil, Or.inr ⟨p, by rw [hc]⟩⟩
      · obtain ⟨line, tail, rfl, hline, htail⟩ := ih
        exact ⟨c :: line, tail, rfl, List.not_mem_cons_of_ne_of_not_mem (Ne.symm hc) hline, htail⟩

theorem take_added {A : Type} (found : Option A) (more : List A) {entries : List A} {cap : ℕ}
    (h : entries.length ≤ cap) :
    ((entries ++ added found entries cap) ++ more).take cap =
      (entries ++ (found.toList ++ more)).take cap := by
  unfold added
  split_ifs with hroom
  · rw [List.append_assoc]
  · have hfull : cap = entries.length := by omega
    rw [hfull, List.append_nil, List.take_left, List.take_left]

theorem length_added_le {A : Type} (found : Option A) {entries : List A} {cap : ℕ}
    (h : entries.length ≤ cap) : (entries ++ added found entries cap).length ≤ cap := by
  unfold added
  rw [List.length_append]
  split_ifs with hroom
  · have hone := Option.length_toList_le (o := found)
    omega
  · exact h

/-- The loop adds what the lines give, as long as the arrays have room. -/
theorem parseLoop_lines (rangeMax chipMax : ℕ) {fuel : ℕ} {p : List UInt8} {r : BadmemResult}
    (hfuel : p.length < fuel) (hranges : r.ranges.length ≤ rangeMax)
    (hchips : r.chips.length ≤ chipMax) : parseLoop rangeMax chipMax fuel p r =
      ⟨(r.ranges ++ (p.splitOn lineFeed).filterMap turnRegion).take rangeMax,
        (r.chips ++ (p.splitOn lineFeed).filterMap turnChip).take chipMax⟩ := by
  induction fuel generalizing p r with
  | zero => exact absurd hfuel (Nat.not_lt_zero _)
  | succ fuel ih =>
      obtain ⟨line, tail, rfl, hline, htail⟩ := exists_line p
      have hregion : turnRegion [] = none := rfl
      have hchip : turnChip [] = none := rfl
      rw [filterMap_splitOn hline htail hregion, filterMap_splitOn hline htail hchip]
      unfold parseLoop
      simp only
      split_ifs with hempty
      · have hskipped : skipSp line ++ tail = [] := by
          rw [← skipSp_append line htail]
          exact List.isEmpty_iff.mp hempty
        obtain ⟨hblank, rfl⟩ := List.append_eq_nil_iff.mp hskipped
        have hline : turnRegion line = none ∧ turnChip line = none := by
          unfold turnRegion turnChip
          rw [hblank]
          exact ⟨rfl, rfl⟩
        rw [hline.1, hline.2]
        simp [hregion, hchip, List.take_of_length_le hranges, List.take_of_length_le hchips]
      · have hpos : 0 < (line ++ tail).length := by
          rw [List.length_pos_iff]
          intro hnil
          exact hempty (by rw [hnil]; rfl)
        have hbehind : (tail.drop 1).length < fuel := by
          rw [List.length_append] at hfuel hpos
          rw [List.length_drop]
          omega
        rw [parseLine_append hline htail, ih hbehind (length_added_le _ hranges)
          (length_added_le _ hchips), take_added _ _ hranges, take_added _ _ hchips]

theorem notMem_of_mem_splitOn {p line : List UInt8} (h : line ∈ p.splitOn lineFeed) :
    lineFeed ∉ line := by
  induction p generalizing line with
  | nil =>
      rw [List.splitOn_nil] at h
      rw [List.mem_singleton.mp h]
      exact List.not_mem_nil
  | cons c p ih =>
      rw [List.splitOn_cons_eq_if_modifyHead] at h
      split_ifs at h with hc
      · rcases List.mem_cons.mp h with rfl | h
        · exact List.not_mem_nil
        · exact ih h
      · cases hp : p.splitOn lineFeed with
        | nil => exact absurd hp (List.splitOn_ne_nil _ _)
        | cons first lines =>
            rw [hp] at h ih
            rw [List.modifyHead_cons] at h
            rcases List.mem_cons.mp h with rfl | h
            · have hne : lineFeed ≠ c := fun heq => hc (beq_iff_eq.mpr heq.symm)
              exact List.not_mem_cons_of_ne_of_not_mem hne (ih List.mem_cons_self)
            · exact ih (List.mem_cons_of_mem _ h)

/-- The region and the chip of a line parsed on its own. -/
def lineRegion (line : List UInt8) : Option BadmemRange :=
  (badmemParseFull line 1 1).ranges.head?

def lineChip (line : List UInt8) : Option BadmemChip :=
  (badmemParseFull line 1 1).chips.head?

theorem badmemParseFull_turns (buf : List UInt8) (rangeMax chipMax : ℕ) :
    badmemParseFull buf rangeMax chipMax =
      ⟨((buf.splitOn lineFeed).filterMap turnRegion).take rangeMax,
        ((buf.splitOn lineFeed).filterMap turnChip).take chipMax⟩ := by
  unfold badmemParseFull
  rw [parseLoop_lines rangeMax chipMax (Nat.lt_succ_self _) (Nat.zero_le _) (Nat.zero_le _)]
  rfl

theorem lineRegion_eq {line : List UInt8} (h : lineFeed ∉ line) :
    lineRegion line = turnRegion line := by
  unfold lineRegion
  rw [badmemParseFull_turns, List.splitOn_eq_singleton h]
  cases hfound : turnRegion line with
  | none => simp [hfound]
  | some range => simp [hfound]

theorem lineChip_eq {line : List UInt8} (h : lineFeed ∉ line) : lineChip line = turnChip line := by
  unfold lineChip
  rw [badmemParseFull_turns, List.splitOn_eq_singleton h]
  cases hfound : turnChip line with
  | none => simp [hfound]
  | some chip => simp [hfound]

/-- The file gives what its lines give on their own, cut to the capacities. -/
theorem badmemParseFull_lines (buf : List UInt8) (rangeMax chipMax : ℕ) :
    badmemParseFull buf rangeMax chipMax =
      ⟨((buf.splitOn lineFeed).filterMap lineRegion).take rangeMax,
        ((buf.splitOn lineFeed).filterMap lineChip).take chipMax⟩ := by
  have hregions : (buf.splitOn lineFeed).filterMap lineRegion =
      (buf.splitOn lineFeed).filterMap turnRegion :=
    List.filterMap_congr fun line h => lineRegion_eq (notMem_of_mem_splitOn h)
  have hchips : (buf.splitOn lineFeed).filterMap lineChip =
      (buf.splitOn lineFeed).filterMap turnChip :=
    List.filterMap_congr fun line h => lineChip_eq (notMem_of_mem_splitOn h)
  rw [badmemParseFull_turns, hregions, hchips]

end BankFinder.BadmemLines
