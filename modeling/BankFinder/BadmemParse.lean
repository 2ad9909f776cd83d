import BankFinder.PageMask

/-!
# Parsing badmem.txt

`badmem_parse_full` walks a byte buffer line by line. The pointer `p` is modelled
by the bytes from `p` to the end of the buffer, so a test `p < end` is a match on
a list. A region line is rounded to whole pages; a chip line is a comment which
begins with the word `chip:`. Every other line is skipped in silence.
-/

namespace BankFinder.BadmemParse
open Nvram BootSession PageMask

def pageSize : UInt64 := 4096

def isBlank (c : UInt8) : Bool := c == 0x20 || c == 0x09
def isDigit (c : UInt8) : Bool := 0x30 ≤ c && c ≤ 0x39
def lineFeed : UInt8 := 0x0A
def carriageReturn : UInt8 := 0x0D
def hash : UInt8 := 0x23
def comma : UInt8 := 0x2C

def asciiLower (c : UInt8) : UInt8 := if c ≥ 0x41 ∧ c ≤ 0x5A then c + 0x20 else c

def skipSp (p : List UInt8) : List UInt8 := p.dropWhile isBlank

/-- Behind the next line feed, or the end of the buffer. -/
def skipLine (p : List UInt8) : List UInt8 := (p.dropWhile (· ≠ lineFeed)).drop 1

def hexDigit (c : UInt8) : Option UInt8 :=
  if isDigit c then some (c - 0x30)
  else if c ≥ 0x61 ∧ c ≤ 0x66 then some (c - 0x61 + 10)
  else if c ≥ 0x41 ∧ c ≤ 0x46 then some (c - 0x41 + 10)
  else none

def decDigit (c : UInt8) : Option UInt8 := if isDigit c then some (c - 0x30) else none

structure Scan where
  val : UInt64
  ok : Bool
  rest : List UInt8
  deriving DecidableEq, Repr

/-- Digits as long as there are any; `push` is how a digit enters the value. -/
def scanDigits (digit : UInt8 → Option UInt8) (push : UInt64 → UInt64 → UInt64) :
    UInt64 → Bool → List UInt8 → Scan
  | val, ok, [] => ⟨val, ok, []⟩
  | val, ok, c :: p =>
      match digit c with
      | some d => scanDigits digit push (push val d.toUInt64) true p
      | none => ⟨val, ok, c :: p⟩

def scanHex (p : List UInt8) : Scan :=
  scanDigits hexDigit (fun val d => (val <<< 4) ||| d) 0 false p

/-- Nothing is read unless the first byte is a digit. -/
def scanDec (p : List UInt8) : Scan :=
  scanDigits decDigit (fun val d => val * 10 + d) 0 false p

def hexPrefixed : List UInt8 → Option (List UInt8)
  | c :: x :: p => if c = 0x30 ∧ (x = 0x78 ∨ x = 0x58) then some p else none
  | _ => none

/-- The number at `p` and what follows it; neither base checks for an overflow. -/
def parseU64 (p : List UInt8) : Option (UInt64 × List UInt8) :=
  let r := match hexPrefixed p with
    | some digits => scanHex digits
    | none => scanDec p
  if r.ok then some (r.val, r.rest) else none

def matchKeyword : List UInt8 → List UInt8 → Option (List UInt8)
  | [], p => some p
  | _ :: _, [] => none
  | k :: kw, c :: p => if asciiLower c = k then matchKeyword kw p else none

def matchChipKeyword (p : List UInt8) : Option (List UInt8) := matchKeyword (ascii "chip:") p

def isDesignatorChar (c : UInt8) : Bool :=
  (c ≥ 0x41 && c ≤ 0x5A) || (c ≥ 0x61 && c ≤ 0x7A) || isDigit c || c == 0x5F || c == 0x2D

/-- A designator which fits in `destMax` bytes with its NUL, and what follows it. -/
def parseDesignator (destMax : ℕ) (p : List UInt8) : Option (List UInt8 × List UInt8) :=
  let d := p.takeWhile isDesignatorChar
  if d.isEmpty ∨ d.length + 1 > destMax then none else some (d, p.drop d.length)

structure BadmemResult where
  ranges : List BadmemRange := []
  chips : List BadmemChip := []
  deriving DecidableEq, Repr

def unresolvedChip (designator : List UInt8) : BadmemChip := ⟨designator, 0, 0, 0, false⟩

/-- What follows the `#` of a comment, and the rest of the buffer. -/
def parseComment (chipMax : ℕ) (p : List UInt8) (r : BadmemResult) :
    List UInt8 × BadmemResult :=
  let p := skipSp p
  match matchChipKeyword p with
  | some afterKw =>
      if r.chips.length < chipMax then
        let p := skipSp afterKw
        match parseDesignator badmemDesigMax p with
        | some (d, p) => (skipLine p, { r with chips := r.chips ++ [unresolvedChip d] })
        | none => (skipLine p, r)
      else (skipLine p, r)
  | none => (skipLine p, r)

/-- Address down, length up to whole pages. -/
def alignRange (addr len : UInt64) : BadmemRange :=
  let alignedStart := pageAlign addr
  let offset := addr - alignedStart
  let alignedLen := pageAlign (len + offset + pageSize - 1)
  ⟨alignedStart, if alignedLen = 0 then pageSize else alignedLen⟩

/-- Only a line end or a comment may follow the length. -/
def endsLine : List UInt8 → Bool
  | [] => true
  | c :: _ => c == carriageReturn || c == lineFeed || c == hash

/-- A region line, and the rest of the buffer behind it. -/
def parseRegion (p : List UInt8) : Option BadmemRange × List UInt8 :=
  match parseU64 p with
  | none => (none, skipLine p)
  | some (addr, p) =>
      match skipSp p with
      | [] => (none, [])
      | c :: p =>
          if c ≠ comma then (none, skipLine (c :: p))
          else
            let p := skipSp p
            match parseU64 p with
            | none => (none, skipLine p)
            | some (len, p) =>
                let p := skipSp p
                if endsLine p then (some (alignRange addr len), skipLine p)
                else (none, skipLine p)

/-- One turn of the loop, on a line whose leading blanks are skipped. -/
def parseLine (rangeMax chipMax : ℕ) (p : List UInt8) (r : BadmemResult) :
    List UInt8 × BadmemResult :=
  match p with
  | [] => ([], r)
  | c :: rest =>
      if c = carriageReturn ∨ c = lineFeed then (skipLine p, r)
      else if c = hash then parseComment chipMax rest r
      else if r.ranges.length ≥ rangeMax then (skipLine p, r)
      else
        match parseRegion p with
        | (some range, p) => (p, { r with ranges := r.ranges ++ [range] })
        | (none, p) => (p, r)

def parseLoop (rangeMax chipMax : ℕ) : ℕ → List UInt8 → BadmemResult → BadmemResult
  | 0, _, r => r
  | fuel + 1, p, r =>
      let p := skipSp p
      if p.isEmpty then r
      else
        let next := parseLine rangeMax chipMax p r
        parseLoop rangeMax chipMax fuel next.1 next.2

def badmemParseFull (buf : List UInt8) (rangeMax chipMax : ℕ) : BadmemResult :=
  parseLoop rangeMax chipMax (buf.length + 1) buf {}

theorem length_skipSp_le (p : List UInt8) : (skipSp p).length ≤ p.length :=
  (List.dropWhile_suffix _).length_le

theorem length_skipLine_le (p : List UInt8) : (skipLine p).length ≤ p.length - 1 := by
  have hsuffix := (List.dropWhile_suffix (l := p) (· ≠ lineFeed)).length_le
  rw [skipLine, List.length_drop]
  omega

theorem length_skipLine_lt {p : List UInt8} (h : p ≠ []) : (skipLine p).length < p.length := by
  have hpos := List.length_pos_iff.mpr h
  have hle := length_skipLine_le p
  omega

theorem scanDigits_suffix (digit : UInt8 → Option UInt8) (push : UInt64 → UInt64 → UInt64)
    (val : UInt64) (ok : Bool) (p : List UInt8) : (scanDigits digit push val ok p).rest <:+ p := by
  induction p generalizing val ok with
  | nil => exact List.suffix_rfl
  | cons c p ih =>
      unfold scanDigits
      cases digit c with
      | none => exact List.suffix_rfl
      | some d => exact (ih _ _).trans (List.suffix_cons c p)

theorem hexPrefixed_some {p digits : List UInt8} (h : hexPrefixed p = some digits) :
    ∃ x : UInt8, (x = 0x78 ∨ x = 0x58) ∧ p = 0x30 :: x :: digits := by
  cases p with
  | nil => cases h
  | cons c p =>
      cases p with
      | nil => cases h
      | cons x p =>
          simp only [hexPrefixed] at h
          split_ifs at h with hhex
          obtain ⟨rfl, hx⟩ := hhex
          obtain rfl := Option.some.inj h
          exact ⟨x, hx, rfl⟩

theorem hexPrefixed_suffix {p digits : List UInt8} (h : hexPrefixed p = some digits) :
    digits <:+ p := by
  obtain ⟨x, -, rfl⟩ := hexPrefixed_some h
  exact (List.suffix_cons x digits).trans (List.suffix_cons 0x30 _)

theorem parseU64_suffix {p rest : List UInt8} {val : UInt64}
    (h : parseU64 p = some (val, rest)) : rest <:+ p := by
  unfold parseU64 at h
  cases hhex : hexPrefixed p with
  | none =>
      simp only [hhex] at h
      split_ifs at h
      obtain ⟨-, rfl⟩ := Prod.mk.inj (Option.some.inj h)
      exact scanDigits_suffix _ _ _ _ _
  | some digits =>
      simp only [hhex] at h
      split_ifs at h
      obtain ⟨-, rfl⟩ := Prod.mk.inj (Option.some.inj h)
      exact (scanDigits_suffix _ _ _ _ _).trans (hexPrefixed_suffix hhex)

theorem matchKeyword_sound {kw p rest : List UInt8} (h : matchKeyword kw p = some rest) :
    ∃ w, p = w ++ rest ∧ w.map asciiLower = kw := by
  induction kw generalizing p with
  | nil => exact ⟨[], Option.some.inj h, rfl⟩
  | cons k kw ih =>
      cases p with
      | nil => cases h
      | cons c p =>
          unfold matchKeyword at h
          split_ifs at h with hc
          obtain ⟨w, rfl, rfl⟩ := ih h
          exact ⟨c :: w, rfl, by rw [List.map_cons, hc]⟩

theorem matchKeyword_suffix {kw p rest : List UInt8} (h : matchKeyword kw p = some rest) :
    rest <:+ p := by
  obtain ⟨w, rfl, -⟩ := matchKeyword_sound h
  exact List.suffix_append w rest

theorem parseDesignator_suffix {destMax : ℕ} {p d rest : List UInt8}
    (h : parseDesignator destMax p = some (d, rest)) : rest <:+ p := by
  simp only [parseDesignator] at h
  split_ifs at h
  obtain ⟨-, rfl⟩ := Prod.mk.inj (Option.some.inj h)
  exact List.drop_suffix _ p

theorem length_parseComment_le (chipMax : ℕ) (p : List UInt8) (r : BadmemResult) :
    (parseComment chipMax p r).1.length ≤ p.length := by
  have hp := length_skipSp_le p
  have hline (q : List UInt8) (hq : q.length ≤ p.length) : (skipLine q).length ≤ p.length :=
    (length_skipLine_le q).trans ((Nat.sub_le _ _).trans hq)
  simp only [parseComment]
  cases hkw : matchChipKeyword (skipSp p) with
  | none => exact hline _ hp
  | some afterKw =>
      have hafter := (length_skipSp_le afterKw).trans ((matchKeyword_suffix hkw).length_le.trans hp)
      simp only
      by_cases hroom : r.chips.length < chipMax
      · rw [if_pos hroom]
        cases hd : parseDesignator badmemDesigMax (skipSp afterKw) with
        | none => exact hline _ hafter
        | some found =>
            obtain ⟨d, rest⟩ := found
            exact hline _ ((parseDesignator_suffix hd).length_le.trans hafter)
      · rw [if_neg hroom]
        exact hline _ hp

theorem length_parseRegion_lt {p : List UInt8} (h : p ≠ []) :
    (parseRegion p).2.length < p.length := by
  have hpos := List.length_pos_iff.mpr h
  have hline (q : List UInt8) (hq : q.length ≤ p.length) : (skipLine q).length < p.length := by
    have hle := length_skipLine_le q
    omega
  unfold parseRegion
  cases haddr : parseU64 p with
  | none => exact hline _ le_rfl
  | some found =>
      obtain ⟨addr, q⟩ := found
      have hq := (length_skipSp_le q).trans (parseU64_suffix haddr).length_le
      simp only
      cases hsep : skipSp q with
      | nil => exact hpos
      | cons c s =>
          rw [hsep, List.length_cons] at hq
          simp only
          by_cases hcomma : c ≠ comma
          · rw [if_pos hcomma]
            exact hline _ hq
          · rw [if_neg hcomma]
            have hs := length_skipSp_le s
            cases hlen : parseU64 (skipSp s) with
            | none => exact hline _ (by omega)
            | some found =>
                obtain ⟨len, t⟩ := found
                have ht := (length_skipSp_le t).trans (parseU64_suffix hlen).length_le
                simp only
                split_ifs <;> exact hline _ (by omega)

/-- A line is left behind whatever it holds. -/
theorem length_parseLine_lt (rangeMax chipMax : ℕ) {p : List UInt8} (h : p ≠ [])
    (r : BadmemResult) : (parseLine rangeMax chipMax p r).1.length < p.length := by
  cases p with
  | nil => exact absurd rfl h
  | cons c rest =>
      unfold parseLine
      simp only
      split_ifs
      · exact length_skipLine_lt h
      · exact Nat.lt_succ_of_le (length_parseComment_le chipMax rest r)
      · exact length_skipLine_lt h
      · have hregion := length_parseRegion_lt h
        cases hr : parseRegion (c :: rest) with
        | mk range q =>
            rw [hr] at hregion
            cases range <;> exact hregion

/-- The loop has ended by its own test: more turns change nothing. -/
theorem parseLoop_ended (rangeMax chipMax : ℕ) {fuel : ℕ} {p : List UInt8}
    (h : p.length < fuel) (more : ℕ) (r : BadmemResult) :
    parseLoop rangeMax chipMax (fuel + more) p r = parseLoop rangeMax chipMax fuel p r := by
  induction fuel generalizing p r with
  | zero => exact absurd h (Nat.not_lt_zero _)
  | succ fuel ih =>
      rw [Nat.succ_add]
      unfold parseLoop
      cases hempty : (skipSp p).isEmpty with
      | true => simp [hempty]
      | false =>
          have hne : skipSp p ≠ [] := by
            intro hnil
            rw [hnil] at hempty
            cases hempty
          have hlt := length_parseLine_lt rangeMax chipMax hne r
          have hp := length_skipSp_le p
          simp only [hempty, Bool.false_eq_true, if_false]
          exact ih (by omega) _

theorem alignRange_pageSpan (addr len : UInt64) : PageSpan (alignRange addr len) := by
  have hlen := pageAlign_aligned (len + (addr - pageAlign addr) + pageSize - 1)
  unfold alignRange
  simp only
  generalize pageAlign (len + (addr - pageAlign addr) + pageSize - 1) = alignedLen at hlen ⊢
  by_cases hzero : alignedLen = 0
  · rw [if_pos hzero]
    have hsize : pageSize.toNat = 4096 := rfl
    exact ⟨pageAlign_aligned addr, hsize.symm ▸ Nat.dvd_refl 4096, hsize.symm ▸ Nat.succ_pos 4095⟩
  · rw [if_neg hzero]
    have hpos : alignedLen.toNat ≠ 0 := fun h => hzero (UInt64.toNat_inj.mp h)
    exact ⟨pageAlign_aligned addr, hlen, Nat.pos_of_ne_zero hpos⟩

/-- All that has to be read before a region is taken. -/
theorem parseRegion_some {p : List UInt8} {range : BadmemRange}
    (h : (parseRegion p).1 = some range) : ∃ addr q s len t,
      parseU64 p = some (addr, q) ∧ skipSp q = comma :: s ∧ parseU64 (skipSp s) = some (len, t) ∧
      endsLine (skipSp t) = true ∧ range = alignRange addr len := by
  unfold parseRegion at h
  cases haddr : parseU64 p with
  | none =>
      rw [haddr] at h
      cases h
  | some found =>
      obtain ⟨addr, q⟩ := found
      rw [haddr] at h
      simp only at h
      cases hsep : skipSp q with
      | nil =>
          rw [hsep] at h
          cases h
      | cons c s =>
          rw [hsep] at h
          simp only at h
          split_ifs at h with hcomma
          cases hlen : parseU64 (skipSp s) with
          | none =>
              rw [hlen] at h
              cases h
          | some found =>
              obtain ⟨len, t⟩ := found
              rw [hlen] at h
              simp only at h
              split_ifs at h with hend
              exact ⟨addr, q, s, len, t, rfl, by rw [hsep, not_ne_iff.mp hcomma], hlen, hend,
                (Option.some.inj h).symm⟩

theorem parseRegion_pageSpan {p q : List UInt8} {range : BadmemRange}
    (h : parseRegion p = (some range, q)) : PageSpan range := by
  obtain ⟨addr, _, _, len, _, -, -, -, -, rfl⟩ := parseRegion_some (congrArg Prod.fst h)
  exact alignRange_pageSpan addr len

theorem parseComment_ranges (chipMax : ℕ) (p : List UInt8) (r : BadmemResult) :
    (parseComment chipMax p r).2.ranges = r.ranges := by
  simp only [parseComment]
  cases matchChipKeyword (skipSp p) with
  | none => rfl
  | some afterKw =>
      simp only
      split_ifs
      · cases parseDesignator badmemDesigMax (skipSp afterKw) <;> rfl
      · rfl

theorem parseLine_pageSpan (rangeMax chipMax : ℕ) (p : List UInt8) {r : BadmemResult}
    (h : ∀ range ∈ r.ranges, PageSpan range) :
    ∀ range ∈ (parseLine rangeMax chipMax p r).2.ranges, PageSpan range := by
  unfold parseLine
  cases p with
  | nil => exact h
  | cons c rest =>
      simp only
      split_ifs
      · exact h
      · rw [parseComment_ranges]
        exact h
      · exact h
      · cases hr : parseRegion (c :: rest) with
        | mk found q =>
            cases found with
            | none => exact h
            | some range =>
                intro range' hrange'
                rcases List.mem_append.mp hrange' with hmem | hmem
                · exact h range' hmem
                · rw [List.mem_singleton.mp hmem]
                  exact parseRegion_pageSpan hr

theorem parseLoop_pageSpan (rangeMax chipMax fuel : ℕ) (p : List UInt8) {r : BadmemResult}
    (h : ∀ range ∈ r.ranges, PageSpan range) :
    ∀ range ∈ (parseLoop rangeMax chipMax fuel p r).ranges, PageSpan range := by
  induction fuel generalizing p r with
  | zero => exact h
  | succ fuel ih =>
      unfold parseLoop
      simp only
      split_ifs
      · exact h
      · exact ih _ (parseLine_pageSpan rangeMax chipMax _ h)

/-- Whatever the buffer holds, every range consists of whole pages. -/
theorem badmemParseFull_pageSpan (buf : List UInt8) (rangeMax chipMax : ℕ) :
    ∀ range ∈ (badmemParseFull buf rangeMax chipMax).ranges, PageSpan range :=
  parseLoop_pageSpan rangeMax chipMax _ buf fun _ h => absurd h List.not_mem_nil

end BankFinder.BadmemParse
