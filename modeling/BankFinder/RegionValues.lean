import BankFinder.AlignedHull
import BankFinder.BadmemGrammar
import BankFinder.CutRecords

/-!
# What a region line reserves

A region is the page hull of the bytes which its line names. The numbers of the line are
read and rounded in 64 bits, and nothing notices when they do not fit.
-/

namespace BankFinder.RegionValues
open Nvram BootSession BadmemParse BadmemLines BadmemGrammar AlignedHull CutRecords

/-- The pages around the bytes from `addr` to `addr + len`. -/
def RangeFor (addr len : ℕ) (range : BadmemRange) : Prop :=
  Hull 4096 addr len range.start.toNat range.len.toNat

/-- The address and the length rounded up fit into 64 bits. -/
def Representable (addr len : ℕ) : Prop := addr < 2 ^ 64 ∧ len + addr % 4096 + 4095 < 2 ^ 64

instance (addr len : ℕ) : Decidable (Representable addr len) := instDecidableAnd

theorem alignRange_start (addr len : ℕ) :
    (alignRange (UInt64.ofNat addr) (UInt64.ofNat len)).start.toNat =
      hullStart 4096 (addr % 2 ^ 64) := by
  rw [alignRange, pageAlign_toNat, UInt64.toNat_ofNat']
  rfl

theorem offset_toNat (addr : ℕ) :
    (UInt64.ofNat addr - pageAlign (UInt64.ofNat addr)).toNat = addr % 4096 := by
  have hle : pageAlign (UInt64.ofNat addr) ≤ UInt64.ofNat addr := by
    rw [UInt64.le_iff_toNat_le, pageAlign_toNat]
    exact Nat.div_mul_le_self ..
  rw [UInt64.toNat_sub_of_le _ _ hle, pageAlign_toNat, UInt64.toNat_ofNat']
  omega

/-- The sum wraps, and a sum which has wrapped to less than a page counts as one. -/
theorem alignRange_len (addr len : ℕ) :
    (alignRange (UInt64.ofNat addr) (UInt64.ofNat len)).len.toNat =
      max 4096 ((len + addr % 4096 + 4095) % 2 ^ 64 / 4096 * 4096) := by
  have hsum : (UInt64.ofNat len + (UInt64.ofNat addr - pageAlign (UInt64.ofNat addr)) +
      pageSize - 1).toNat = (len + addr % 4096 + 4095) % 2 ^ 64 := by
    have hsize : pageSize.toNat = 4096 := rfl
    rw [UInt64.toNat_sub, UInt64.toNat_add, UInt64.toNat_add, offset_toNat, hsize,
      UInt64.toNat_ofNat', UInt64.toNat_one]
    omega
  have halign := pageAlign_toNat (UInt64.ofNat len +
    (UInt64.ofNat addr - pageAlign (UInt64.ofNat addr)) + pageSize - 1)
  rw [hsum] at halign
  unfold alignRange
  simp only
  split_ifs with hzero
  · rw [hzero] at halign
    rw [← halign]
    rfl
  · have hpos : (len + addr % 4096 + 4095) % 2 ^ 64 / 4096 * 4096 ≠ 0 :=
      fun h => hzero (UInt64.toNat_inj.mp (halign.trans h))
    rw [halign]
    omega

theorem alignRange_eq_hull {addr len : ℕ} (h : Representable addr len) :
    RangeFor addr len (alignRange (UInt64.ofNat addr) (UInt64.ofNat len)) := by
  obtain ⟨haddr, hlen⟩ := h
  unfold RangeFor
  rw [hull_iff (by decide), alignRange_start, alignRange_len, Nat.mod_eq_of_lt haddr,
    Nat.mod_eq_of_lt hlen]
  exact ⟨rfl, rfl⟩

/-- A range of 64 bits around the bytes leaves no room for a wrap. -/
theorem RangeFor.representable {addr len : ℕ} {range : BadmemRange}
    (h : RangeFor addr len range) : Representable addr len := by
  have hstart := range.start.toNat_lt
  have hlen := range.len.toNat_lt
  obtain ⟨i, hi⟩ := h.start_dvd
  obtain ⟨j, hj⟩ := h.size_dvd
  have hle := h.start_le
  have hnear := h.near_start
  have hend := h.end_le
  unfold Representable
  omega

/-- Only the range which the parser computes can be right. -/
theorem rangeFor_iff {addr len : ℕ} {range : BadmemRange} : RangeFor addr len range ↔
    Representable addr len ∧ range = alignRange (UInt64.ofNat addr) (UInt64.ofNat len) := by
  constructor
  · intro h
    obtain ⟨hstart, hlen⟩ := h.unique (alignRange_eq_hull h.representable)
    refine ⟨h.representable, ?_⟩
    rw [BadmemRange.mk.injEq, ← UInt64.toNat_inj, ← UInt64.toNat_inj]
    exact ⟨hstart, hlen⟩
  · rintro ⟨h, rfl⟩
    exact alignRange_eq_hull h

/-- The region lines of a file, each of them as the parser finds it on its own. -/
def regionLines (buf : List UInt8) : List (List UInt8) :=
  (buf.splitOn lineFeed).filter fun line => (lineRegion line).isSome

theorem mem_regionLines {buf line : List UInt8} : line ∈ regionLines buf ↔
    line ∈ buf.splitOn lineFeed ∧ ∃ addr len, RegionLine line addr len := by
  unfold regionLines
  rw [List.mem_filter]
  refine and_congr_right fun hline => ?_
  have hregion := lineRegion_iff (notMem_of_mem_splitOn hline)
  rw [Option.isSome_iff_exists]
  constructor
  · rintro ⟨range, hrange⟩
    obtain ⟨addr, len, h, -⟩ := (hregion range).mp hrange
    exact ⟨addr, len, h⟩
  · rintro ⟨addr, len, h⟩
    exact ⟨_, (hregion _).mpr ⟨addr, len, h, rfl⟩⟩

/-- The parser takes of the entries of its buffer as many as fit. -/
theorem badmemParseFull_entries (buf : List UInt8) (rangeMax chipMax : ℕ) :
    badmemParseFull buf rangeMax chipMax = ⟨(entries lineFeed lineRegion buf).take rangeMax,
      (entries lineFeed lineChip buf).take chipMax⟩ :=
  badmemParseFull_lines buf rangeMax chipMax

/-- Each accepted line in front of the capacity has one range. -/
theorem ranges_by_line (buf : List UInt8) (rangeMax chipMax : ℕ) :
    List.Forall₂ (fun line range => lineRegion line = some range)
      ((regionLines buf).take rangeMax) (badmemParseFull buf rangeMax chipMax).ranges := by
  rw [badmemParseFull_entries]
  exact List.forall₂_take rangeMax (forall₂_entries lineFeed buf)

theorem lineRegion_of_regionLine {line : List UInt8} (hline : lineFeed ∉ line) {addr len : ℕ}
    (h : RegionLine line addr len) {range : BadmemRange} (hrange : lineRegion line = some range) :
    range = alignRange (UInt64.ofNat addr) (UInt64.ofNat len) :=
  Option.some.inj (hrange.symm.trans ((lineRegion_iff hline _).mpr ⟨addr, len, h, rfl⟩))

/-- An accepted line gives the pages around the bytes which it names exactly when its numbers
can be represented, and other pages otherwise. -/
theorem range_exact_iff (buf : List UInt8) (rangeMax chipMax : ℕ) :
    List.Forall₂ (fun line range => (∃ addr len, RegionLine line addr len) ∧
        ∀ addr len, RegionLine line addr len → (RangeFor addr len range ↔ Representable addr len))
      ((regionLines buf).take rangeMax) (badmemParseFull buf rangeMax chipMax).ranges := by
  refine forall₂_imp_mem ?_ (ranges_by_line buf rangeMax chipMax)
  intro line hmem range hrange
  obtain ⟨hline, hregion⟩ := mem_regionLines.mp (List.mem_of_mem_take hmem)
  refine ⟨hregion, ?_⟩
  intro addr len hwritten
  rw [rangeFor_iff, and_iff_left]
  exact lineRegion_of_regionLine (notMem_of_mem_splitOn hline) hwritten hrange

theorem digitsValue_lt {digit : UInt8 → Option UInt8} {base : ℕ}
    (hdigit : ∀ c, ((digit c).getD 0).toNat < base) (ds : List UInt8) :
    digitsValue digit base ds < base ^ ds.length := by
  unfold digitsValue
  induction ds using List.reverseRecOn with
  | nil => exact Nat.one_pos
  | append_singleton ds c ih =>
      rw [List.foldl_append, List.foldl_cons, List.foldl_nil, List.length_append,
        List.length_singleton, pow_succ]
      exact lt_of_lt_of_le (Nat.add_lt_add_left (hdigit c) _)
        (Nat.succ_mul .. ▸ Nat.mul_le_mul_right base ih)

theorem numeral_lt_pow {n : List UInt8} {k : ℕ} (h : Numeral n k) : k < 16 ^ n.length := by
  cases h with
  | hex hx hds =>
      refine (digitsValue_lt ?_ _).trans_le (Nat.pow_le_pow_right (by decide) ?_)
      · intro c
        cases hc : hexDigit c with
        | none => decide
        | some d => exact hexDigit_lt hc
      · rw [List.length_cons, List.length_cons]
        omega
  | dec hds =>
      refine (digitsValue_lt ?_ n).trans_le (Nat.pow_le_pow_left (by decide) _)
      intro c
      unfold decDigit isDigit
      split_ifs with hc
      · simp only [Bool.and_eq_true, decide_eq_true_eq, UInt8.le_iff_toNat_le] at hc
        rw [Option.getD_some, UInt8.toNat_sub]
        simp at hc ⊢
        omega
      · decide

/-- The numbers of a line have at most as many digits as the line has bytes. -/
theorem regionLine_lt_pow {line : List UInt8} {addr len : ℕ} (h : RegionLine line addr len) :
    addr < 16 ^ line.length ∧ len < 16 ^ line.length := by
  cases h with
  | intro hb₀ hn₀ hb₁ hb₂ hn₁ hb₃ hrest =>
      refine ⟨(numeral_lt_pow hn₀).trans_le (Nat.pow_le_pow_right (by decide) ?_),
        (numeral_lt_pow hn₁).trans_le (Nat.pow_le_pow_right (by decide) ?_)⟩
      · simp only [List.length_append, List.length_cons]
        omega
      · simp only [List.length_append, List.length_cons]
        omega

/-- Fifteen bytes have no room for a number which is too large. -/
theorem representable_of_short {line : List UInt8} (h : line.length ≤ 15) {addr len : ℕ}
    (hregion : RegionLine line addr len) : Representable addr len := by
  obtain ⟨haddr, hlen⟩ := regionLine_lt_pow hregion
  have hpow : 16 ^ line.length ≤ 16 ^ 15 := Nat.pow_le_pow_right (by decide) h
  unfold Representable
  omega

theorem regionLine_of_numerals {n₀ n₁ : List UInt8} {addr len : ℕ} (hn₀ : Numeral n₀ addr)
    (hn₁ : Numeral n₁ len) : RegionLine (n₀ ++ comma :: n₁) addr len := by
  have hnone : Blanks [] := fun _ h => absurd h List.not_mem_nil
  have h := RegionLine.intro hnone hn₀ hnone hnone hn₁ hnone (Or.inl rfl)
  simp only [List.nil_append, List.append_nil] at h
  exact h

/-- The page of 65 bits is taken for the second one. -/
theorem wide_address_wraps :
    (badmemParseFull (ascii "0x10000000000001000,4096") 4096 32).ranges = [⟨0x1000, 0x1000⟩] ∧
      RegionLine (ascii "0x10000000000001000,4096") 0x10000000000001000 4096 ∧
      ¬RangeFor 0x10000000000001000 4096 ⟨0x1000, 0x1000⟩ := by
  refine ⟨by decide +kernel, ?_, fun h => absurd h.representable (by decide)⟩
  have haddr : Numeral (ascii "0x10000000000001000") 0x10000000000001000 :=
    @Numeral.hex 0x78 (ascii "10000000000001000") (Or.inl rfl) ⟨by decide, by decide +kernel⟩
  have hlen : Numeral (ascii "4096") 4096 := Numeral.dec ⟨by decide, by decide +kernel⟩
  exact regionLine_of_numerals haddr hlen

end BankFinder.RegionValues
