import BankFinder.BootSession

/-!
# Page masking

`mask_pages` widens every bad range by 1 MiB on both sides and asks the firmware
for each 4 KiB page of the window. It counts a range as covered when no page of
its window was answered with an unexpected status. All sums are 64-bit and wrap.
-/

namespace BankFinder.PageMask
open AlignedWords Nvram BootSession

def maskExpandBytes : UInt64 := 0x100000
def maskPageSize : UInt64 := 4096

/-- `exp_start` -/
def expStart (r : BadmemRange) : UInt64 :=
  let start := if r.start > maskExpandBytes then r.start - maskExpandBytes else 0
  clear start (maskPageSize - 1)

/-- `exp_end`; neither the end of the range nor its margin is checked for a wrap. -/
def expEnd (r : BadmemRange) : UInt64 :=
  let origEnd := r.start + r.len
  clear (origEnd + maskExpandBytes + maskPageSize - 1) (maskPageSize - 1)

/-- The pages the inner loop visits. -/
def window (r : BadmemRange) : List UInt64 := pages (expStart r) (expEnd r)

/-- `this_new`, `this_pre` and `this_gap`. -/
structure Tally where
  new : UInt32 := 0
  pre : UInt32 := 0
  gap : UInt32 := 0
  deriving DecidableEq, Repr

structure Coverage where
  rangesCovered : UInt32 := 0
  rangesGaps : UInt32 := 0
  pagesNew : UInt64 := 0
  pagesPre : UInt64 := 0
  pagesGap : UInt64 := 0
  deriving DecidableEq, Repr

section
variable {σ : Type}

def maskPage (fw : Firmware σ) (acc : Tally × Session σ) (pa : UInt64) : Tally × Session σ :=
  let r := allocatePages fw pa acc.2
  if r.1 = efiSuccess then ({ acc.1 with new := acc.1.new + 1 }, r.2)
  else if r.1 = efiNotFound ∨ r.1 = efiAccessDenied then
    ({ acc.1 with pre := acc.1.pre + 1 }, r.2)
  else ({ acc.1 with gap := acc.1.gap + 1 }, r.2)

def maskWindow (fw : Firmware σ) (r : BadmemRange) (s : Session σ) : Tally × Session σ :=
  (window r).foldl (maskPage fw) ({}, s)

def Coverage.add (c : Coverage) (t : Tally) : Coverage where
  rangesCovered := if t.gap = 0 then c.rangesCovered + 1 else c.rangesCovered
  rangesGaps := if t.gap = 0 then c.rangesGaps else c.rangesGaps + 1
  pagesNew := c.pagesNew + t.new.toUInt64
  pagesPre := c.pagesPre + t.pre.toUInt64
  pagesGap := c.pagesGap + t.gap.toUInt64

def maskRange (fw : Firmware σ) (acc : Coverage × Session σ) (r : BadmemRange) :
    Coverage × Session σ :=
  let w := maskWindow fw r acc.2
  (acc.1.add w.1, w.2)

/-- The figures which `mask_pages` prints, and the session it leaves. -/
def maskPages (fw : Firmware σ) (ranges : List BadmemRange) (s : Session σ) :
    Coverage × Session σ :=
  ranges.foldl (maskRange fw) ({}, s.log (.maskPages ranges))

theorem maskPage_session (fw : Firmware σ) (acc : Tally × Session σ) (pa : UInt64) :
    (maskPage fw acc pa).2 = (allocatePages fw pa acc.2).2 := by
  simp only [maskPage]
  split_ifs <;> rfl

theorem foldl_maskPage_attempts (fw : Firmware σ) (pas : List UInt64) (acc : Tally × Session σ) :
    attempts (pas.foldl (maskPage fw) acc).2.trace = attempts acc.2.trace ++ pas := by
  induction pas generalizing acc with
  | nil => simp
  | cons pa pas ih =>
      rw [List.foldl_cons, ih, maskPage_session, allocatePages_trace]
      simp

/-- Whatever the firmware answers, a range costs exactly one call per window page. -/
theorem maskWindow_attempts (fw : Firmware σ) (r : BadmemRange) (s : Session σ) :
    attempts (maskWindow fw r s).2.trace = attempts s.trace ++ window r := by
  rw [maskWindow, foldl_maskPage_attempts]

theorem maskRange_session (fw : Firmware σ) (acc : Coverage × Session σ) (r : BadmemRange) :
    (maskRange fw acc r).2 = (maskWindow fw r acc.2).2 := by
  have h (w : Tally × Session σ) : ((acc.1.add w.1, w.2) : Coverage × Session σ).2 = w.2 := rfl
  exact h (maskWindow fw r acc.2)

theorem foldl_maskRange_attempts (fw : Firmware σ) (ranges : List BadmemRange)
    (acc : Coverage × Session σ) :
    attempts (ranges.foldl (maskRange fw) acc).2.trace =
      attempts acc.2.trace ++ ranges.flatMap window := by
  induction ranges generalizing acc with
  | nil => simp
  | cons r ranges ih =>
      rw [List.foldl_cons, ih, maskRange_session, maskWindow_attempts, List.flatMap_cons,
        List.append_assoc]

theorem maskPages_attempts (fw : Firmware σ) (ranges : List BadmemRange) (s : Session σ) :
    attempts (maskPages fw ranges s).2.trace = attempts s.trace ++ ranges.flatMap window := by
  rw [maskPages, foldl_maskRange_attempts, Session.log_trace, attempts_append,
    attempts_maskPages, List.append_nil]

theorem onlyAllocates_maskWindow (fw : Firmware σ) (r : BadmemRange) (s : Session σ) :
    OnlyAllocates s (maskWindow fw r s).2 := by
  have hpage (acc : Tally × Session σ) (pa : UInt64) :
      OnlyAllocates acc.2 (maskPage fw acc pa).2 := by
    rw [maskPage_session]
    exact onlyAllocates_allocatePages fw pa acc.2
  rw [maskWindow]
  exact OnlyAllocates.foldl Prod.snd hpage (window r) ({}, s)

theorem onlyAllocates_maskPages (fw : Firmware σ) (ranges : List BadmemRange) (s : Session σ) :
    OnlyAllocates (s.log (.maskPages ranges)) (maskPages fw ranges s).2 := by
  have hrange (acc : Coverage × Session σ) (r : BadmemRange) :
      OnlyAllocates acc.2 (maskRange fw acc r).2 := by
    rw [maskRange_session]
    exact onlyAllocates_maskWindow fw r acc.2
  rw [maskPages]
  exact OnlyAllocates.foldl Prod.snd hrange ranges ({}, s.log (.maskPages ranges))

end

/-- What the parsers and the variable reader put into `ranges[]`. -/
structure PageSpan (r : BadmemRange) : Prop where
  start_aligned : 4096 ∣ r.start.toNat
  len_aligned : 4096 ∣ r.len.toNat
  len_pos : 0 < r.len.toNat

theorem expStart_aligned (r : BadmemRange) : 4096 ∣ (expStart r).toNat :=
  clear_aligned (k := 12) (by decide) (by decide) _

theorem expEnd_aligned (r : BadmemRange) : 4096 ∣ (expEnd r).toNat :=
  clear_aligned (k := 12) (by decide) (by decide) _

theorem mem_window (r : BadmemRange) (pa : UInt64) :
    pa ∈ window r ↔ expStart r ≤ pa ∧ pa < expEnd r ∧ 4096 ∣ pa.toNat :=
  mem_pages (expStart_aligned r) (expEnd_aligned r) pa

theorem expStart_toNat {r : BadmemRange} (h : 4096 ∣ r.start.toNat) :
    (expStart r).toNat = r.start.toNat - 2 ^ 20 := by
  have hmargin : maskExpandBytes.toNat = 2 ^ 20 := rfl
  have hr := r.start.toNat_lt
  rw [expStart, clear_toNat (k := 12) (by decide) (by decide)]
  by_cases hgt : r.start > maskExpandBytes
  · rw [if_pos hgt]
    rw [gt_iff_lt, UInt64.lt_iff_toNat_lt, hmargin] at hgt
    rw [UInt64.toNat_sub_of_le _ _ (by rw [UInt64.le_iff_toNat_le, hmargin]; omega), hmargin]
    omega
  · rw [if_neg hgt]
    rw [gt_iff_lt, UInt64.lt_iff_toNat_lt, hmargin] at hgt
    change 0 / 2 ^ 12 * 2 ^ 12 = _
    omega

theorem expEnd_toNat {r : BadmemRange} (h : PageSpan r) :
    (expEnd r).toNat = (r.start.toNat + r.len.toNat + 2 ^ 20) % 2 ^ 64 := by
  have hmargin : maskExpandBytes.toNat = 2 ^ 20 := rfl
  have hpage : maskPageSize.toNat = 4096 := rfl
  have hone : (1 : UInt64).toNat = 1 := rfl
  have hsub : ∀ x : UInt64, (x + maskPageSize - 1).toNat = (x.toNat + 4095) % 2 ^ 64 := by
    intro x
    rw [UInt64.toNat_sub, UInt64.toNat_add, hpage, hone]
    have := x.toNat_lt
    omega
  rw [expEnd, clear_toNat (k := 12) (by decide) (by decide), hsub, UInt64.toNat_add,
    UInt64.toNat_add, hmargin]
  obtain ⟨hs, hl, -⟩ := h
  omega

/-- The page at `pa` meets the range widened by 1 MiB on both sides, over the integers. -/
def MeetsMargin (r : BadmemRange) (pa : UInt64) : Prop :=
  4096 ∣ pa.toNat ∧ ∃ x : ℕ, r.start.toNat - 2 ^ 20 ≤ x ∧
    x < r.start.toNat + r.len.toNat + 2 ^ 20 ∧ pa.toNat ≤ x ∧ x < pa.toNat + 4096

theorem meetsMargin_iff {r : BadmemRange} (h : PageSpan r) (pa : UInt64) :
    MeetsMargin r pa ↔ 4096 ∣ pa.toNat ∧ r.start.toNat - 2 ^ 20 ≤ pa.toNat ∧
      pa.toNat < r.start.toNat + r.len.toNat + 2 ^ 20 := by
  obtain ⟨hs, hl, hpos⟩ := h
  constructor
  · rintro ⟨hpa, x, h₁, h₂, h₃, h₄⟩
    exact ⟨hpa, by omega, by omega⟩
  · rintro ⟨hpa, h₁, h₂⟩
    exact ⟨hpa, pa.toNat, h₁, h₂, le_rfl, by omega⟩

theorem mem_window_of_fits {r : BadmemRange} (h : PageSpan r)
    (hfit : r.start.toNat + r.len.toNat + 2 ^ 20 < 2 ^ 64) (pa : UInt64) :
    pa ∈ window r ↔ MeetsMargin r pa := by
  rw [mem_window, meetsMargin_iff h, UInt64.le_iff_toNat_le, UInt64.lt_iff_toNat_lt,
    expStart_toNat h.start_aligned, expEnd_toNat h, Nat.mod_eq_of_lt hfit]
  constructor
  · rintro ⟨hlo, hhi, hpa⟩
    exact ⟨hpa, hlo, hhi⟩
  · rintro ⟨hpa, hlo, hhi⟩
    exact ⟨hlo, hhi, hpa⟩

/-- Once the widened end wraps, the last page of the address space is never visited. -/
theorem last_page_not_mem_window {r : BadmemRange} (pa : UInt64)
    (hpa : pa.toNat = 2 ^ 64 - 4096) : pa ∉ window r := by
  rw [mem_window, UInt64.lt_iff_toNat_lt]
  have hend := (expEnd r).toNat_lt
  have hal := expEnd_aligned r
  omega

section
variable {σ : Type}

/-- The addresses passed to `AllocatePages` while one range is processed. -/
def rangeAttempts (fw : Firmware σ) (acc : Coverage × Session σ) (r : BadmemRange) :
    List UInt64 :=
  (attempts (maskRange fw acc r).2.trace).drop (attempts acc.2.trace).length

theorem rangeAttempts_eq (fw : Firmware σ) (acc : Coverage × Session σ) (r : BadmemRange) :
    rangeAttempts fw acc r = window r := by
  rw [rangeAttempts, maskRange_session, maskWindow_attempts, List.drop_left]

/-- The attempts are exactly the pages of the widened range, and a range which
was counted as covered had each of its own pages attempted. -/
def AttemptsMargin (fw : Firmware σ) (acc : Coverage × Session σ) (r : BadmemRange) : Prop :=
  (∀ pa, pa ∈ rangeAttempts fw acc r ↔ MeetsMargin r pa) ∧
    ((maskRange fw acc r).1.rangesCovered = acc.1.rangesCovered + 1 →
      ∀ pa : UInt64, 4096 ∣ pa.toNat → r.start.toNat ≤ pa.toNat →
        pa.toNat < r.start.toNat + r.len.toNat → pa ∈ rangeAttempts fw acc r)

/-- The widened end must not wrap; once it does, the last page of the address
space meets the margin but lies outside the loop's bounds. -/
theorem attemptsMargin_iff (fw : Firmware σ) (acc : Coverage × Session σ) {r : BadmemRange}
    (hr : PageSpan r) :
    AttemptsMargin fw acc r ↔ r.start.toNat + r.len.toNat + 2 ^ 20 < 2 ^ 64 := by
  rw [AttemptsMargin, rangeAttempts_eq]
  constructor
  · rintro ⟨hexact, -⟩
    by_contra hwrap
    let last : UInt64 := 0xFFFFFFFFFFFFF000
    have hlast : last.toNat = 2 ^ 64 - 4096 := rfl
    have hstart := r.start.toNat_lt
    have haligned := hr.start_aligned
    refine last_page_not_mem_window last hlast ((hexact last).mpr ?_)
    rw [meetsMargin_iff hr, hlast]
    exact ⟨by omega, by omega, by omega⟩
  · intro hfit
    refine ⟨mem_window_of_fits hr hfit, ?_⟩
    intro _ pa hpa hlo hhi
    rw [mem_window_of_fits hr hfit, meetsMargin_iff hr]
    exact ⟨hpa, by omega, by omega⟩

theorem attemptsMargin_low_page :
    0x200000 ∈ rangeAttempts uefi ({}, .start (fun _ => none) [] []) ⟨0x200000, 0x1000⟩ :=
  (((attemptsMargin_iff uefi _ ⟨by decide, by decide, by decide⟩).mpr (by decide)).1 _).mpr
    ⟨by decide, 0x200000, by decide, by decide, by decide, by decide⟩

/-- The last page of the address space: nothing is attempted, yet the range counts as covered. -/
theorem last_page_unattempted :
    PageSpan ⟨0xFFFFFFFFFFFFF000, 0x1000⟩ ∧
      (maskRange uefi ({}, .start (fun _ => none) [] [])
        ⟨0xFFFFFFFFFFFFF000, 0x1000⟩).1.rangesCovered = 1 ∧
      ¬AttemptsMargin uefi ({}, .start (fun _ => none) [] []) ⟨0xFFFFFFFFFFFFF000, 0x1000⟩ := by
  have hempty : window ⟨0xFFFFFFFFFFFFF000, 0x1000⟩ = [] := by decide
  have hcounted : (maskRange uefi ({}, .start (fun _ => none) [] [])
      ⟨0xFFFFFFFFFFFFF000, 0x1000⟩).1.rangesCovered = 1 := by
    simp only [maskRange, maskWindow, hempty]
    rfl
  refine ⟨⟨by decide, by decide, by decide⟩, hcounted, ?_⟩
  rintro ⟨-, hown⟩
  have h := hown hcounted 0xFFFFFFFFFFFFF000 (by decide) (by decide) (by decide)
  rw [rangeAttempts_eq, hempty] at h
  simp at h

end

end BankFinder.PageMask
