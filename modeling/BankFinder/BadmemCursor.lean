import BankFinder.BoundedCursor
import BankFinder.BadmemGrammar

/-!
# The parser with its pointer

The same functions with `p` as a position in the buffer and every `*p` as a checked read.
None of the reads is refused, whatever the buffer holds, so the parser on lists says
everything about the parser with a pointer.
-/

namespace BankFinder.BadmemCursor
open Nvram BootSession BadmemParse BadmemLines BadmemGrammar BoundedCursor

abbrev Read (B : Type) := Except OutOfBounds B

def skipSpAt (buf : List UInt8) (p : ℕ) : Read ℕ := seek buf isBlank p

def skipLineAt (buf : List UInt8) (p : ℕ) : Read ℕ := do
  let p ← seek buf (· ≠ lineFeed) p
  return if p < buf.length then p + 1 else p

/-- `p + 1 < end && p[0] == '0' && (p[1] == 'x' || p[1] == 'X')` -/
def hexPrefixedAt (buf : List UInt8) (p : ℕ) : Read Bool :=
  if p + 1 < buf.length then do
    let c ← deref buf p
    if c = 0x30 then do
      let x ← deref buf (p + 1)
      return decide (x = 0x78 ∨ x = 0x58)
    else return false
  else return false

def digitTurn (digit : UInt8 → Option UInt8) (push : UInt64 → UInt64 → UInt64)
    (s : UInt64 × Bool) (c : UInt8) : Turn (UInt64 × Bool) :=
  match digit c with
  | some d => .next (push s.1 d.toUInt64, true)
  | none => .leave s

def parseU64At (buf : List UInt8) (p : ℕ) : Read (Option (UInt64 × ℕ)) :=
  if p < buf.length then do
    let hex ← hexPrefixedAt buf p
    let ((val, ok), p) ←
      if hex then
        scan buf (digitTurn hexDigit fun val d => (val <<< 4) ||| d) (p + 2) (0, false)
      else do
        let c ← deref buf p
        if isDigit c then scan buf (digitTurn decDigit fun val d => val * 10 + d) p (0, false)
        else pure ((0, false), p)
    return if ok then some (val, p) else none
  else return none

def matchKeywordAt (buf : List UInt8) : List UInt8 → ℕ → Read (Option ℕ)
  | [], p => return some p
  | k :: kw, p =>
      if p < buf.length then do
        let c ← deref buf p
        if asciiLower c = k then matchKeywordAt buf kw (p + 1) else return none
      else return none

/-- `none` is the return out of the loop when `dest` is full. -/
def designatorTurn (destMax : ℕ) (dest : Option (List UInt8)) (c : UInt8) :
    Turn (Option (List UInt8)) :=
  match dest with
  | none => .leave none
  | some d =>
      if isDesignatorChar c then
        if d.length + 1 ≥ destMax then .leave none else .next (some (d ++ [c]))
      else .leave (some d)

def parseDesignatorAt (buf : List UInt8) (destMax p : ℕ) : Read (Option (List UInt8 × ℕ)) := do
  let (dest, p) ← scan buf (designatorTurn destMax) p (some [])
  return match dest with
    | none => none
    | some d => if d.isEmpty then none else some (d, p)

/-- A chip directive at `p`; the cursor stays where it was unless one is taken. -/
def parseDirectiveAt (buf : List UInt8) (chipMax p : ℕ) (r : BadmemResult) :
    Read (BadmemResult × ℕ) := do
  let afterKw ← matchKeywordAt buf (ascii "chip:") p
  match afterKw with
  | some after =>
      if r.chips.length < chipMax then do
        let p ← skipSpAt buf after
        let found ← parseDesignatorAt buf badmemDesigMax p
        return match found with
          | some (d, p) => ({ r with chips := r.chips ++ [unresolvedChip d] }, p)
          | none => (r, p)
      else return (r, p)
  | none => return (r, p)

def parseCommentAt (buf : List UInt8) (chipMax p : ℕ) (r : BadmemResult) :
    Read (BadmemResult × ℕ) := do
  let p ← skipSpAt buf p
  let (r, p) ← parseDirectiveAt buf chipMax p r
  let p ← skipLineAt buf p
  return (r, p)

/-- `p < end && *p != '\r' && *p != '\n' && *p != '#'`, the other way round. -/
def endsLineAt (buf : List UInt8) (p : ℕ) : Read Bool :=
  if p < buf.length then do
    let c ← deref buf p
    return c == carriageReturn || c == lineFeed || c == BadmemParse.hash
  else return true

def giveUp (buf : List UInt8) (p : ℕ) : Read (Option BadmemRange × ℕ) := do
  let p ← skipLineAt buf p
  return (none, p)

def parseRegionAt (buf : List UInt8) (p : ℕ) : Read (Option BadmemRange × ℕ) := do
  let addr ← parseU64At buf p
  match addr with
  | none => giveUp buf p
  | some (addr, p) => do
      let p ← skipSpAt buf p
      if p < buf.length then do
        let c ← deref buf p
        if c ≠ comma then giveUp buf p
        else do
          let p ← skipSpAt buf (p + 1)
          let len ← parseU64At buf p
          match len with
          | none => giveUp buf p
          | some (len, p) => do
              let p ← skipSpAt buf p
              let ends ← endsLineAt buf p
              if ends then do
                let p ← skipLineAt buf p
                return (some (alignRange addr len), p)
              else giveUp buf p
      else giveUp buf p

def parseLineAt (buf : List UInt8) (rangeMax chipMax p : ℕ) (r : BadmemResult) :
    Read (BadmemResult × ℕ) := do
  let c ← deref buf p
  if c = carriageReturn ∨ c = lineFeed then do
    let p ← skipLineAt buf p
    return (r, p)
  else if c = BadmemParse.hash then parseCommentAt buf chipMax (p + 1) r
  else if r.ranges.length ≥ rangeMax then do
    let p ← skipLineAt buf p
    return (r, p)
  else do
    let (range, p) ← parseRegionAt buf p
    return match range with
      | some range => ({ r with ranges := r.ranges ++ [range] }, p)
      | none => (r, p)

def parseLoopAt (buf : List UInt8) (rangeMax chipMax : ℕ) :
    ℕ → ℕ → BadmemResult → Read BadmemResult
  | 0, _, r => .ok r
  | fuel + 1, p, r =>
      if p < buf.length then do
        let p ← skipSpAt buf p
        if p < buf.length then do
          let (r, p) ← parseLineAt buf rangeMax chipMax p r
          parseLoopAt buf rangeMax chipMax fuel p r
        else .ok r
      else .ok r

def badmemParseFullAt (buf : List UInt8) (rangeMax chipMax : ℕ) : Read BadmemResult :=
  parseLoopAt buf rangeMax chipMax (buf.length + 1) 0 {}

section
variable {buf l : List UInt8} {p : ℕ}

theorem skipSpAt_reaches (h : At buf p l) : ∃ q, At buf q (skipSp l) ∧ skipSpAt buf p = .ok q :=
  seek_reaches h isBlank

theorem skipLineAt_reaches (h : At buf p l) :
    ∃ q, At buf q (skipLine l) ∧ skipLineAt buf p = .ok q := by
  obtain ⟨q, hq, hseek⟩ := seek_reaches h (· ≠ lineFeed)
  unfold skipLineAt skipLine
  rw [hseek]
  simp only [ok_bind, pure_eq_ok]
  cases hl : l.dropWhile (· ≠ lineFeed) with
  | nil =>
      rw [hl] at hq
      rw [if_neg hq.end_of_nil]
      exact ⟨q, hq, rfl⟩
  | cons c rest =>
      rw [hl] at hq
      rw [if_pos hq.lt_of_cons]
      exact ⟨q + 1, hq.next, rfl⟩

theorem hexPrefixedAt_eq (h : At buf p l) :
    hexPrefixedAt buf p = .ok (hexPrefixed l).isSome := by
  unfold hexPrefixedAt
  cases l with
  | nil =>
      have hend := h.end_of_nil
      rw [if_neg (by omega)]
      rfl
  | cons c l =>
      cases l with
      | nil =>
          rw [if_neg h.next.end_of_nil]
          rfl
      | cons x l =>
          rw [if_pos h.next.lt_of_cons, h.deref, h.next.deref]
          simp only [ok_bind, pure_eq_ok, hexPrefixed]
          split_ifs with hc hx hx
          · rw [decide_eq_true hx.2]
            rfl
          · rw [decide_eq_false fun hx' => hx ⟨hc, hx'⟩]
            rfl
          · exact absurd hx.1 hc
          · rfl

theorem scanList_digits (digit : UInt8 → Option UInt8) (push : UInt64 → UInt64 → UInt64)
    (val : UInt64) (ok : Bool) (l : List UInt8) :
    scanList (digitTurn digit push) (val, ok) l =
      (((scanDigits digit push val ok l).val, (scanDigits digit push val ok l).ok),
        (scanDigits digit push val ok l).rest) := by
  induction l generalizing val ok with
  | nil => rfl
  | cons c l ih =>
      unfold scanList scanDigits digitTurn
      cases digit c with
      | none => rfl
      | some d => exact ih _ _

theorem scan_digits_reaches (h : At buf p l) (digit : UInt8 → Option UInt8)
    (push : UInt64 → UInt64 → UInt64) (r : Scan) (hr : scanDigits digit push 0 false l = r) :
    ∃ q, At buf q r.rest ∧
      scan buf (digitTurn digit push) p (0, false) = .ok ((r.val, r.ok), q) := by
  obtain ⟨q, hq, hscan⟩ := scan_reaches (digitTurn digit push) h (0, false)
  rw [scanList_digits, hr] at hq hscan
  exact ⟨q, hq, hscan⟩

theorem number_reaches {q : ℕ} (r : Scan) (hq : At buf q r.rest) :
    ReachesSome buf (.ok (if r.ok then some (r.val, q) else none))
      (if r.ok then some (r.val, r.rest) else none) := by
  obtain ⟨val, ok, rest⟩ := r
  cases ok with
  | false => rfl
  | true => exact ⟨q, hq, rfl⟩

theorem parseU64At_reaches (h : At buf p l) : ReachesSome buf (parseU64At buf p) (parseU64 l) := by
  unfold parseU64At
  cases l with
  | nil =>
      rw [if_neg h.end_of_nil]
      rfl
  | cons c l =>
      rw [if_pos h.lt_of_cons, hexPrefixedAt_eq h]
      unfold parseU64
      cases hhex : hexPrefixed (c :: l) with
      | some digits =>
          obtain ⟨x, -, hl⟩ := hexPrefixed_some hhex
          rw [hl] at h
          obtain ⟨q, hq, hscan⟩ := scan_digits_reaches h.next.next hexDigit
            (fun val d => (val <<< 4) ||| d) (scanHex digits) rfl
          simp only [Option.isSome_some, if_true, hscan, ok_bind, pure_eq_ok]
          exact number_reaches _ hq
      | none =>
          simp only [Option.isSome_none, Bool.false_eq_true, if_false, h.deref, ok_bind, pure_eq_ok]
          cases hdigit : isDigit c with
          | true =>
              obtain ⟨q, hq, hscan⟩ := scan_digits_reaches h decDigit (fun val d => val * 10 + d)
                (scanDec (c :: l)) rfl
              rw [if_pos rfl, hscan]
              exact number_reaches _ hq
          | false =>
              have hnone : scanDec (c :: l) = ⟨0, false, c :: l⟩ := by
                unfold scanDec scanDigits decDigit
                rw [hdigit]
                rfl
              rw [hnone]
              rfl

theorem matchKeywordAt_none {kw : List UInt8} (h : At buf p l) (hkw : matchKeyword kw l = none) :
    matchKeywordAt buf kw p = .ok none := by
  induction kw generalizing p l with
  | nil => cases hkw
  | cons k kw ih =>
      unfold matchKeywordAt
      cases l with
      | nil =>
          rw [if_neg h.end_of_nil]
          rfl
      | cons c l =>
          rw [if_pos h.lt_of_cons, h.deref, ok_bind]
          unfold matchKeyword at hkw
          split_ifs at hkw ⊢ with hc
          · exact ih h.next hkw
          · rfl

theorem matchKeywordAt_some {kw rest : List UInt8} (h : At buf p l)
    (hkw : matchKeyword kw l = some rest) :
    ∃ q, At buf q rest ∧ matchKeywordAt buf kw p = .ok (some q) := by
  induction kw generalizing p l with
  | nil =>
      obtain rfl := Option.some.inj hkw
      exact ⟨p, h, rfl⟩
  | cons k kw ih =>
      unfold matchKeywordAt
      cases l with
      | nil => cases hkw
      | cons c l =>
          rw [if_pos h.lt_of_cons, h.deref, ok_bind]
          unfold matchKeyword at hkw
          split_ifs at hkw ⊢ with hc
          exact ih h.next hkw

/-- The run fits in `dest`. -/
theorem scanList_designator_fits {destMax : ℕ} (d l : List UInt8)
    (h : d.length + (l.takeWhile isDesignatorChar).length < destMax) :
    scanList (designatorTurn destMax) (some d) l =
      (some (d ++ l.takeWhile isDesignatorChar), l.dropWhile isDesignatorChar) := by
  induction l generalizing d with
  | nil => rw [List.takeWhile_nil, List.append_nil]; rfl
  | cons c l ih =>
      unfold scanList designatorTurn
      rw [List.takeWhile_cons] at h ⊢
      rw [List.dropWhile_cons]
      simp only
      split_ifs at h ⊢ with hc hfull
      · rw [List.length_cons] at h
        omega
      · have hroom : (d ++ [c]).length + (l.takeWhile isDesignatorChar).length < destMax := by
          rw [List.length_append, List.length_singleton]
          rw [List.length_cons] at h
          omega
        refine (ih _ hroom).trans ?_
        rw [List.append_assoc, List.singleton_append]
      · rw [List.append_nil]

theorem scanList_designator_overflows {destMax : ℕ} (d l : List UInt8) (hd : d.length < destMax)
    (h : destMax ≤ d.length + (l.takeWhile isDesignatorChar).length) :
    (scanList (designatorTurn destMax) (some d) l).1 = none := by
  induction l generalizing d with
  | nil =>
      rw [List.takeWhile_nil, List.length_nil] at h
      omega
  | cons c l ih =>
      unfold scanList designatorTurn
      rw [List.takeWhile_cons] at h
      simp only
      split_ifs at h ⊢ with hc hfull
      · rfl
      · rw [List.length_cons] at h
        exact ih _ (by simp; omega) (by simp; omega)
      · rw [List.length_nil] at h
        omega

theorem parseDesignatorAt_reaches {destMax : ℕ} (hmax : 0 < destMax) (h : At buf p l) :
    ReachesSome buf (parseDesignatorAt buf destMax p) (parseDesignator destMax l) := by
  obtain ⟨q, hq, hscan⟩ := scan_reaches (designatorTurn destMax) h (some [])
  have hlen : ([] : List UInt8).length = 0 := rfl
  unfold parseDesignatorAt
  rw [hscan]
  simp only [parseDesignator, ok_bind, pure_eq_ok]
  rcases Nat.lt_or_ge (l.takeWhile isDesignatorChar).length destMax with hfits | hlong
  · rw [scanList_designator_fits [] l (by omega)] at hq ⊢
    rw [List.nil_append]
    cases hrun : (l.takeWhile isDesignatorChar).isEmpty with
    | true => simp [hrun, ReachesSome]
    | false =>
        have hrest : l.drop (l.takeWhile isDesignatorChar).length = l.dropWhile isDesignatorChar := by
          nth_rewrite 2 [← List.takeWhile_append_dropWhile (p := isDesignatorChar) (l := l)]
          rw [List.drop_left]
        rw [if_neg (by simp; omega)]
        refine ⟨q, ?_, by simp [hrun]⟩
        rw [hrest]
        exact hq
  · rw [scanList_designator_overflows [] l (by omega) (by omega), if_pos (Or.inr (by omega))]
    rfl

theorem parseDirectiveAt_reaches (h : At buf p (skipSp l)) (chipMax : ℕ) (r : BadmemResult) :
    ∃ rest q, At buf q rest ∧
      parseDirectiveAt buf chipMax p r = .ok ((parseComment chipMax l r).2, q) ∧
      (parseComment chipMax l r).1 = skipLine rest := by
  unfold parseDirectiveAt
  simp only [parseComment, matchChipKeyword]
  cases hkw : matchKeyword (ascii "chip:") (skipSp l) with
  | none =>
      rw [matchKeywordAt_none h hkw]
      exact ⟨skipSp l, p, h, rfl, rfl⟩
  | some afterKw =>
      obtain ⟨after, hafter, hmatch⟩ := matchKeywordAt_some h hkw
      rw [hmatch]
      simp only [ok_bind, pure_eq_ok]
      split_ifs with hroom
      · obtain ⟨q, hq, hskip⟩ := skipSpAt_reaches hafter
        have hfound := parseDesignatorAt_reaches (show 0 < badmemDesigMax from by decide) hq
        rw [hskip, ok_bind]
        cases hd : parseDesignator badmemDesigMax (skipSp afterKw) with
        | none =>
            rw [hd] at hfound
            rw [show parseDesignatorAt buf badmemDesigMax q = .ok none from hfound]
            exact ⟨skipSp afterKw, q, hq, rfl, rfl⟩
        | some found =>
            rw [hd] at hfound
            obtain ⟨q', hq', hread⟩ := hfound
            rw [hread]
            exact ⟨found.2, q', hq', rfl, rfl⟩
      · exact ⟨skipSp l, p, h, rfl, rfl⟩

theorem parseCommentAt_reaches (h : At buf p l) (chipMax : ℕ) (r : BadmemResult) :
    ∃ q, At buf q (parseComment chipMax l r).1 ∧
      parseCommentAt buf chipMax p r = .ok ((parseComment chipMax l r).2, q) := by
  obtain ⟨q, hq, hskip⟩ := skipSpAt_reaches h
  obtain ⟨rest, q', hq', hdirective, hbehind⟩ := parseDirectiveAt_reaches hq chipMax r
  obtain ⟨q'', hq'', hline⟩ := skipLineAt_reaches hq'
  refine ⟨q'', hbehind ▸ hq'', ?_⟩
  unfold parseCommentAt
  simp only [hskip, hdirective, hline, ok_bind, pure_eq_ok]

theorem endsLineAt_eq (h : At buf p l) : endsLineAt buf p = .ok (endsLine l) := by
  unfold endsLineAt
  cases l with
  | nil =>
      rw [if_neg h.end_of_nil]
      rfl
  | cons c l =>
      rw [if_pos h.lt_of_cons, h.deref]
      rfl

theorem giveUp_reaches (h : At buf p l) :
    ∃ q, At buf q (skipLine l) ∧ giveUp buf p = .ok (none, q) := by
  obtain ⟨q, hq, hline⟩ := skipLineAt_reaches h
  unfold giveUp
  exact ⟨q, hq, by rw [hline]; rfl⟩

theorem parseRegionAt_reaches (h : At buf p l) :
    Reaches buf (parseRegionAt buf p) (parseRegion l) := by
  have hnumber {p : ℕ} {l : List UInt8} (h : At buf p l) := parseU64At_reaches h
  unfold parseRegionAt parseRegion
  cases haddr : parseU64 l with
  | none =>
      have hread := hnumber h
      rw [haddr] at hread
      rw [show parseU64At buf p = .ok none from hread]
      exact giveUp_reaches h
  | some found =>
      obtain ⟨addr, s⟩ := found
      have hread := hnumber h
      rw [haddr] at hread
      obtain ⟨q, hq, hread⟩ := hread
      obtain ⟨q₁, hq₁, hskip⟩ := skipSpAt_reaches hq
      rw [hread]
      simp only [ok_bind, hskip]
      cases hsep : skipSp s with
      | nil =>
          rw [hsep] at hq₁
          rw [if_neg hq₁.end_of_nil]
          exact giveUp_reaches hq₁
      | cons c s =>
          rw [hsep] at hq₁
          rw [if_pos hq₁.lt_of_cons, hq₁.deref]
          simp only [ok_bind]
          split_ifs with hcomma
          · exact giveUp_reaches hq₁
          · obtain ⟨q₂, hq₂, hskip⟩ := skipSpAt_reaches hq₁.next
            have hread := hnumber hq₂
            rw [hskip]
            cases hlen : parseU64 (skipSp s) with
            | none =>
                rw [hlen] at hread
                rw [ok_bind, show parseU64At buf q₂ = .ok none from hread]
                exact giveUp_reaches hq₂
            | some found =>
                obtain ⟨len, t⟩ := found
                rw [hlen] at hread
                obtain ⟨q₃, hq₃, hread⟩ := hread
                obtain ⟨q₄, hq₄, hskip⟩ := skipSpAt_reaches hq₃
                rw [ok_bind, hread]
                simp only [ok_bind, hskip, endsLineAt_eq hq₄]
                split_ifs with hend
                · obtain ⟨q₅, hq₅, hline⟩ := skipLineAt_reaches hq₄
                  exact ⟨q₅, hq₅, by rw [hline]; rfl⟩
                · exact giveUp_reaches hq₄

theorem parseLineAt_reaches {c : UInt8} (h : At buf p (c :: l)) (rangeMax chipMax : ℕ)
    (r : BadmemResult) : ∃ q, At buf q (parseLine rangeMax chipMax (c :: l) r).1 ∧
      parseLineAt buf rangeMax chipMax p r =
        .ok ((parseLine rangeMax chipMax (c :: l) r).2, q) := by
  unfold parseLineAt parseLine
  rw [h.deref, ok_bind]
  simp only
  split_ifs with hblank hhash hfull
  · obtain ⟨q, hq, hline⟩ := skipLineAt_reaches h
    exact ⟨q, hq, by rw [hline]; rfl⟩
  · exact parseCommentAt_reaches h.next chipMax r
  · obtain ⟨q, hq, hline⟩ := skipLineAt_reaches h
    exact ⟨q, hq, by rw [hline]; rfl⟩
  · obtain ⟨q, hq, hregion⟩ := parseRegionAt_reaches h
    rw [hregion]
    cases hr : parseRegion (c :: l) with
    | mk range rest =>
        rw [hr] at hq
        cases range with
        | none => exact ⟨q, hq, rfl⟩
        | some range => exact ⟨q, hq, rfl⟩

theorem parseLoopAt_eq (rangeMax chipMax fuel : ℕ) (h : At buf p l) (r : BadmemResult) :
    parseLoopAt buf rangeMax chipMax fuel p r = .ok (parseLoop rangeMax chipMax fuel l r) := by
  induction fuel generalizing p l r with
  | zero => rfl
  | succ fuel ih =>
      unfold parseLoopAt parseLoop
      cases l with
      | nil =>
          rw [if_neg h.end_of_nil]
          rfl
      | cons c l =>
          obtain ⟨q, hq, hskip⟩ := skipSpAt_reaches h
          rw [if_pos h.lt_of_cons, hskip, ok_bind]
          cases hsp : skipSp (c :: l) with
          | nil =>
              rw [hsp] at hq
              rw [if_neg hq.end_of_nil]
              rfl
          | cons c s =>
              rw [hsp] at hq
              obtain ⟨q', hq', hline⟩ := parseLineAt_reaches hq rangeMax chipMax r
              rw [if_pos hq.lt_of_cons, hline]
              exact ih hq' _

end

/-- Whatever the buffer holds, only bytes of the buffer are read. -/
theorem badmemParseFullAt_eq (buf : List UInt8) (rangeMax chipMax : ℕ) :
    badmemParseFullAt buf rangeMax chipMax = .ok (badmemParseFull buf rangeMax chipMax) :=
  parseLoopAt_eq rangeMax chipMax _ (At.start buf) {}

/-- The result of a run which has ended by its own test, against the lines of the buffer. -/
structure ParsedByLines (buf : List UInt8) (rangeMax chipMax : ℕ) (r : BadmemResult) : Prop where
  ended : ∀ more, parseLoopAt buf rangeMax chipMax (buf.length + 1 + more) 0 {} = .ok r
  ranges : r.ranges = ((buf.splitOn lineFeed).filterMap lineRegion).take rangeMax
  chips : r.chips = ((buf.splitOn lineFeed).filterMap lineChip).take chipMax
  region : ∀ line ∈ buf.splitOn lineFeed, ∀ range, lineRegion line = some range ↔
    ∃ addr len, RegionLine line addr len ∧
      range = alignRange (UInt64.ofNat addr) (UInt64.ofNat len)
  chip : ∀ line ∈ buf.splitOn lineFeed, ∀ chip, lineChip line = some chip ↔
    ∃ d, ChipLine line d ∧ chip = unresolvedChip d

/-- Every buffer is read inside its bounds to its end, and gives what its lines give one by
one, which is exactly what the grammar says of each. -/
theorem parses_by_lines (buf : List UInt8) (rangeMax chipMax : ℕ) :
    ∃ r, badmemParseFullAt buf rangeMax chipMax = .ok r ∧
      ParsedByLines buf rangeMax chipMax r := by
  refine ⟨badmemParseFull buf rangeMax chipMax, badmemParseFullAt_eq buf rangeMax chipMax, ?_⟩
  have hlines := badmemParseFull_lines buf rangeMax chipMax
  constructor
  case ended =>
    intro more
    rw [parseLoopAt_eq rangeMax chipMax _ (At.start buf) {},
      parseLoop_ended rangeMax chipMax (Nat.lt_succ_self _)]
    rfl
  case ranges => rw [hlines]
  case chips => rw [hlines]
  case region => exact fun line hline range => lineRegion_iff (notMem_of_mem_splitOn hline) range
  case chip => exact fun line hline chip => lineChip_iff (notMem_of_mem_splitOn hline) chip

end BankFinder.BadmemCursor
