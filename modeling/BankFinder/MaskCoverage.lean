import BankFinder.PageMask

/-!
# What full coverage says about the memory map

Under the documented allocator a page is reserved exactly when it was
conventional memory; every other page is answered with "not found" and counted
as reserved by the firmware beforehand. Loader and boot-services pages get the
same answer although the operating system takes them over later.
-/

namespace BankFinder.MaskCoverage
open AlignedWords Nvram BootSession PageMask

theorem maskPage_uefi_gap (acc : Tally × Session MemoryMap) (pa : UInt64) :
    (maskPage uefi acc pa).1.gap = acc.1.gap := by
  have hstatus : (allocatePages uefi pa acc.2).1 = efiSuccess ∨
      (allocatePages uefi pa acc.2).1 = efiNotFound := by
    rw [allocatePages_status]
    simp only [uefi]
    split_ifs
    · exact Or.inl rfl
    · exact Or.inr rfl
  simp only [maskPage]
  rcases hstatus with h | h <;> rw [h]
  · rw [if_pos rfl]
  · rw [if_neg (by decide), if_pos (Or.inl rfl)]

theorem foldl_maskPage_uefi_gap (pas : List UInt64) (acc : Tally × Session MemoryMap) :
    (pas.foldl (maskPage uefi) acc).1.gap = acc.1.gap := by
  induction pas generalizing acc with
  | nil => rfl
  | cons pa pas ih => rw [List.foldl_cons, ih, maskPage_uefi_gap]

theorem maskWindow_uefi_gap (r : BadmemRange) (s : Session MemoryMap) :
    (maskWindow uefi r s).1.gap = 0 := by
  rw [maskWindow, foldl_maskPage_uefi_gap]

/-- Reserving a list of pages: conventional ones change, nothing else does. -/
def reserveAll (m : MemoryMap) (pas : List UInt64) : MemoryMap := fun pa =>
  if pa ∈ pas ∧ m pa = some .conventionalMemory then some .reservedMemoryType else m pa

/-- Claiming by address succeeds exactly on conventional memory, which becomes
reserved; a refusal leaves the map alone. -/
structure ClaimsConventional (fw : Firmware MemoryMap) : Prop where
  claimed : ∀ pa m, m pa = some .conventionalMemory →
    fw.allocatePages pa m = (efiSuccess, Function.update m pa (some .reservedMemoryType))
  refused : ∀ pa m, m pa ≠ some .conventionalMemory →
    (fw.allocatePages pa m).1 ≠ efiSuccess ∧ (fw.allocatePages pa m).2 = m

theorem claimsConventional_uefi : ClaimsConventional uefi where
  claimed pa m h := if_pos h
  refused pa m h := by
    have hrefused : uefi.allocatePages pa m = (efiNotFound, m) := if_neg h
    rw [hrefused]
    exact ⟨show efiNotFound ≠ efiSuccess by decide, rfl⟩

theorem reserveAll_nil (m : MemoryMap) : reserveAll m [] = m := by
  funext pa
  simp [reserveAll]

theorem reserveAll_append (m : MemoryMap) (pas qs : List UInt64) :
    reserveAll m (pas ++ qs) = reserveAll (reserveAll m pas) qs := by
  funext pa
  simp only [reserveAll, List.mem_append]
  by_cases h : m pa = some .conventionalMemory <;>
    by_cases hp : pa ∈ pas <;> simp [h, hp]

section
variable {fw : Firmware MemoryMap} (hfw : ClaimsConventional fw)
include hfw

theorem allocatePages_reserves (pa : UInt64) (s : Session MemoryMap) :
    (allocatePages fw pa s).2.mem = reserveAll s.mem [pa] := by
  rw [allocatePages_mem]
  funext x
  by_cases hpa : s.mem pa = some .conventionalMemory
  · rw [hfw.claimed pa s.mem hpa]
    by_cases hx : x = pa
    · subst hx
      simp [reserveAll, hpa]
    · simp [reserveAll, hx]
  · rw [(hfw.refused pa s.mem hpa).2]
    by_cases hx : x = pa
    · subst hx
      simp [reserveAll, hpa]
    · simp [reserveAll, hx]

theorem foldl_maskPage_mem (pas : List UInt64) (acc : Tally × Session MemoryMap) :
    (pas.foldl (maskPage fw) acc).2.mem = reserveAll acc.2.mem pas := by
  induction pas generalizing acc with
  | nil => exact (reserveAll_nil acc.2.mem).symm
  | cons pa pas ih =>
      rw [List.foldl_cons, ih, maskPage_session, allocatePages_reserves hfw, ← reserveAll_append,
        List.singleton_append]

theorem maskRange_mem (acc : Coverage × Session MemoryMap) (r : BadmemRange) :
    (maskRange fw acc r).2.mem = reserveAll acc.2.mem (window r) := by
  rw [maskRange_session, maskWindow, foldl_maskPage_mem hfw]

theorem foldl_maskRange_mem (ranges : List BadmemRange) (acc : Coverage × Session MemoryMap) :
    (ranges.foldl (maskRange fw) acc).2.mem =
      reserveAll acc.2.mem (ranges.flatMap window) := by
  induction ranges generalizing acc with
  | nil => exact (reserveAll_nil acc.2.mem).symm
  | cons r ranges ih =>
      rw [List.foldl_cons, ih, maskRange_mem hfw, List.flatMap_cons, reserveAll_append]

theorem maskPages_mem (ranges : List BadmemRange) (s : Session MemoryMap) :
    (maskPages fw ranges s).2.mem = reserveAll s.mem (ranges.flatMap window) := by
  rw [maskPages, foldl_maskRange_mem hfw, Session.log_mem]

end

theorem maskPages_uefi_mem (ranges : List BadmemRange) (s : Session MemoryMap) :
    (maskPages uefi ranges s).2.mem = reserveAll s.mem (ranges.flatMap window) :=
  maskPages_mem claimsConventional_uefi ranges s

theorem maskRange_uefi_coverage (acc : Coverage × Session MemoryMap) (r : BadmemRange) :
    (maskRange uefi acc r).1.rangesCovered = acc.1.rangesCovered + 1 ∧
      (maskRange uefi acc r).1.pagesGap = acc.1.pagesGap := by
  have h (w : Tally × Session MemoryMap) (hw : w.1.gap = 0) :
      (acc.1.add w.1).rangesCovered = acc.1.rangesCovered + 1 ∧
        (acc.1.add w.1).pagesGap = acc.1.pagesGap := by
    simp [Coverage.add, hw]
  exact h (maskWindow uefi r acc.2) (maskWindow_uefi_gap r acc.2)

theorem foldl_maskRange_uefi_coverage (ranges : List BadmemRange)
    (acc : Coverage × Session MemoryMap) :
    (ranges.foldl (maskRange uefi) acc).1.rangesCovered =
        acc.1.rangesCovered + UInt32.ofNat ranges.length ∧
      (ranges.foldl (maskRange uefi) acc).1.pagesGap = acc.1.pagesGap := by
  induction ranges generalizing acc with
  | nil => simp
  | cons r ranges ih =>
      obtain ⟨hcovered, hgap⟩ := maskRange_uefi_coverage acc r
      obtain ⟨ihc, ihg⟩ := ih (maskRange uefi acc r)
      rw [List.foldl_cons]
      refine ⟨?_, ihg.trans hgap⟩
      rw [ihc, hcovered, List.length_cons, UInt32.ofNat_add, UInt32.add_assoc]
      congr 1
      exact UInt32.add_comm 1 _

/-- The documented allocator always lets `mask_pages` report full coverage. -/
theorem maskPages_uefi_full (ranges : List BadmemRange) (s : Session MemoryMap) :
    (maskPages uefi ranges s).1.rangesCovered = UInt32.ofNat ranges.length ∧
      (maskPages uefi ranges s).1.pagesGap = 0 := by
  have h := foldl_maskRange_uefi_coverage ranges ({}, s.log (.maskPages ranges))
  rw [maskPages]
  simpa using h

/-- Some window `[exp_start, exp_end)` has a page of type `t`. -/
def WindowHas (m : MemoryMap) (ranges : List BadmemRange) (t : EfiMemoryType) : Prop :=
  ∃ r ∈ ranges, ∃ pa : UInt64, 4096 ∣ pa.toNat ∧ expStart r ≤ pa ∧ pa < expEnd r ∧ m pa = some t

theorem windowHas_iff (m : MemoryMap) (ranges : List BadmemRange) (t : EfiMemoryType) :
    WindowHas m ranges t ↔ ∃ pa ∈ ranges.flatMap window, m pa = some t := by
  simp only [WindowHas, List.mem_flatMap, mem_window]
  constructor
  · rintro ⟨r, hr, pa, hpa, hlo, hhi, ht⟩
    exact ⟨pa, ⟨r, hr, hlo, hhi, hpa⟩, ht⟩
  · rintro ⟨pa, ⟨r, hr, hlo, hhi, hpa⟩, ht⟩
    exact ⟨r, hr, pa, hpa, hlo, hhi, ht⟩

/-- If every range is reported as covered without a gap, no visited page is left
to the operating system. -/
def CoverageSound (ranges : List BadmemRange) (s : Session MemoryMap) : Prop :=
  (maskPages uefi ranges s).1.rangesCovered = UInt32.ofNat ranges.length →
    (maskPages uefi ranges s).1.pagesGap = 0 →
      ∀ t, t.reusable = true → ¬WindowHas (maskPages uefi ranges s).2.mem ranges t

/-- The report is sound exactly when the only reusable type the windows held
before was conventional memory. -/
theorem coverageSound_iff (ranges : List BadmemRange) (s : Session MemoryMap) :
    CoverageSound ranges s ↔
      ∀ t, t.reusable = true → t ≠ .conventionalMemory → ¬WindowHas s.mem ranges t := by
  obtain ⟨hcovered, hgap⟩ := maskPages_uefi_full ranges s
  simp only [CoverageSound, hcovered, hgap, forall_const, windowHas_iff, maskPages_uefi_mem]
  constructor
  · rintro hsound t ht hne ⟨pa, hpa, hm⟩
    refine hsound t ht ⟨pa, hpa, ?_⟩
    have hother : s.mem pa ≠ some .conventionalMemory := by
      rw [hm]
      simpa using hne
    rw [reserveAll, if_neg (fun h => hother h.2), hm]
  · rintro hbefore t ht ⟨pa, hpa, hm⟩
    by_cases hconv : s.mem pa = some .conventionalMemory
    · rw [reserveAll, if_pos ⟨hpa, hconv⟩] at hm
      cases hm
      simp [EfiMemoryType.reusable] at ht
    · rw [reserveAll, if_neg (fun h => hconv h.2)] at hm
      refine hbefore t ht ?_ ⟨pa, hpa, hm⟩
      rintro rfl
      exact hconv hm

/-- A boot-services page is reported as covered and stays reusable. -/
theorem bootServices_page_unsound :
    ¬CoverageSound [⟨0x200000, 0x1000⟩]
      (.start (fun pa => if pa = 0x200000 then some .bootServicesData else none) [] []) := by
  intro hsound
  have hfull := maskPages_uefi_full [⟨0x200000, 0x1000⟩]
    (.start (fun pa => if pa = 0x200000 then some .bootServicesData else none) [] [])
  refine hsound hfull.1 hfull.2 .bootServicesData rfl ?_
  rw [maskPages_uefi_mem]
  refine ⟨_, List.mem_singleton_self _, 0x200000, by decide, by decide, by decide, ?_⟩
  rw [reserveAll, if_neg]
  · rfl
  · rintro ⟨-, h⟩
    simp [Session.start] at h

end BankFinder.MaskCoverage
