import BankFinder.MaskCoverage

/-!
# The effect of several masking calls

`mask_pages` over overlapping windows: the map afterwards depends only on the
union of the windows, and a page is claimed once, by the first window which
reaches it. The counter of one range has 32 bits while the sum over all ranges
has 64.
-/

namespace BankFinder.MaskAlgebra
open AlignedWords Nvram BootSession PageMask MaskCoverage

theorem expStart_toNat_le (r : BadmemRange) (n : ℕ) :
    (expStart r).toNat ≤ n ↔ (r.start.toNat - 2 ^ 20) / 4096 * 4096 ≤ n := by
  have hmargin : maskExpandBytes.toNat = 2 ^ 20 := rfl
  have hr := r.start.toNat_lt
  rw [expStart, clear_toNat (k := 12) (by decide) (by decide)]
  by_cases hgt : r.start > maskExpandBytes
  · rw [if_pos hgt]
    rw [gt_iff_lt, UInt64.lt_iff_toNat_lt, hmargin] at hgt
    rw [UInt64.toNat_sub_of_le _ _ (by rw [UInt64.le_iff_toNat_le, hmargin]; omega), hmargin]
    exact Iff.rfl
  · rw [if_neg hgt]
    rw [gt_iff_lt, UInt64.lt_iff_toNat_lt, hmargin] at hgt
    change 0 / 2 ^ 12 * 2 ^ 12 ≤ n ↔ _
    omega

theorem expEnd_wraps (r : BadmemRange) :
    (expEnd r).toNat =
      (r.start.toNat + r.len.toNat + 2 ^ 20 + 4095) % 2 ^ 64 / 4096 * 4096 := by
  have hmargin : maskExpandBytes.toNat = 2 ^ 20 := rfl
  have hpage : maskPageSize.toNat = 4096 := rfl
  have hone : (1 : UInt64).toNat = 1 := rfl
  rw [expEnd, clear_toNat (k := 12) (by decide) (by decide), UInt64.toNat_sub, UInt64.toNat_add,
    UInt64.toNat_add, UInt64.toNat_add, hmargin, hpage, hone]
  omega

/-- Whether or not the end wraps, the loop stays inside the margin. -/
theorem meetsMargin_of_mem_window {r : BadmemRange} {pa : UInt64} (h : pa ∈ window r) :
    MeetsMargin r pa := by
  obtain ⟨hlo, hhi, hpa⟩ := (mem_window r pa).mp h
  rw [UInt64.le_iff_toNat_le, expStart_toNat_le] at hlo
  rw [UInt64.lt_iff_toNat_lt, expEnd_wraps] at hhi
  have hlt := pa.toNat_lt
  refine ⟨hpa, max pa.toNat (r.start.toNat - 2 ^ 20), ?_, ?_, ?_, ?_⟩ <;> omega

theorem mem_window_of_meetsMargin {r : BadmemRange}
    (hfit : r.start.toNat + r.len.toNat + 2 ^ 20 + 4095 < 2 ^ 64) {pa : UInt64}
    (h : MeetsMargin r pa) : pa ∈ window r := by
  obtain ⟨hpa, x, hlo, hhi, hle, hlt⟩ := h
  rw [mem_window, UInt64.le_iff_toNat_le, expStart_toNat_le, UInt64.lt_iff_toNat_lt, expEnd_wraps,
    Nat.mod_eq_of_lt hfit]
  exact ⟨by omega, by omega, hpa⟩

/-- Conventional pages among those of a list, each one once. -/
def claimed (m : MemoryMap) (pas : List UInt64) : Finset UInt64 :=
  pas.toFinset.filter fun pa => m pa = some .conventionalMemory

theorem mem_claimed (m : MemoryMap) (pas : List UInt64) (pa : UInt64) :
    pa ∈ claimed m pas ↔ pa ∈ pas ∧ m pa = some .conventionalMemory := by
  rw [claimed, Finset.mem_filter, List.mem_toFinset]

/-- What a second list claims is new: the first one has left none of its pages conventional. -/
theorem card_claimed_append (m : MemoryMap) (pas qs : List UInt64) :
    (claimed m (pas ++ qs)).card = (claimed m pas).card + (claimed (reserveAll m pas) qs).card := by
  have hsplit : claimed m (pas ++ qs) = claimed m pas ∪ claimed (reserveAll m pas) qs := by
    ext pa
    simp only [Finset.mem_union, mem_claimed, List.mem_append, reserveAll]
    by_cases hm : m pa = some .conventionalMemory <;> by_cases hp : pa ∈ pas <;> simp [hm, hp]
  have hdisjoint : Disjoint (claimed m pas) (claimed (reserveAll m pas) qs) := by
    rw [Finset.disjoint_left]
    intro pa hfirst hsecond
    rw [mem_claimed] at hfirst hsecond
    rw [reserveAll, if_pos hfirst] at hsecond
    exact absurd hsecond.2 (by decide)
  rw [hsplit, Finset.card_union_of_disjoint hdisjoint]

theorem card_claimed_of_nodup (m : MemoryMap) {pas : List UInt64} (hnodup : pas.Nodup) :
    (claimed m pas).card = pas.countP fun pa => decide (m pa = some .conventionalMemory) := by
  have hlist : claimed m pas =
      (pas.filter fun pa => decide (m pa = some .conventionalMemory)).toFinset := by
    ext pa
    rw [mem_claimed, List.mem_toFinset, List.mem_filter, decide_eq_true_eq]
  rw [hlist, List.toFinset_card_of_nodup (hnodup.filter _), List.countP_eq_length_filter]

theorem window_nodup (r : BadmemRange) : (window r).Nodup :=
  (pages_sorted (expStart_aligned r) (expEnd_aligned r)).imp fun h heq =>
    UInt64.ne_of_lt h heq

/-- The pages of the map which are retyped are the ones claimed. -/
theorem retyped_eq_claimed (m : MemoryMap) (pas : List UInt64) :
    {pa | reserveAll m pas pa ≠ m pa} = (claimed m pas : Set UInt64) := by
  ext pa
  rw [Set.mem_ofPred_eq, Finset.mem_coe, mem_claimed, reserveAll]
  by_cases h : pa ∈ pas ∧ m pa = some .conventionalMemory
  · rw [if_pos h, h.2]
    exact iff_of_true (by decide) ⟨h.1, rfl⟩
  · rw [if_neg h]
    exact iff_of_false (not_not_intro rfl) h

/-- The address space has 2 ^ 52 pages, so their number fits the 64-bit sum. -/
theorem card_claimed_le (m : MemoryMap) {pas : List UInt64} (hpas : ∀ pa ∈ pas, 4096 ∣ pa.toNat) :
    (claimed m pas).card ≤ 2 ^ 52 := by
  have hpage : ∀ pa ∈ claimed m pas, 4096 ∣ pa.toNat := by
    intro pa hpa
    exact hpas pa ((mem_claimed m pas pa).mp hpa).1
  have hle := Finset.card_le_card_of_injOn (t := Finset.range (2 ^ 52)) (fun pa => pa.toNat / 4096)
    (s := claimed m pas) ?_ ?_
  · rwa [Finset.card_range] at hle
  · intro pa _
    have := pa.toNat_lt
    simp only [Finset.coe_range, Set.mem_Iio]
    omega
  · intro pa hpa qa hqa heq
    have hp := hpage pa hpa
    have hq := hpage qa hqa
    apply UInt64.toNat_inj.mp
    simp only at heq
    omega

/-- For each range in turn, the pages its window still finds conventional. -/
def freshCounts : MemoryMap → List BadmemRange → List ℕ
  | _, [] => []
  | m, r :: ranges =>
      (claimed m (window r)).card :: freshCounts (reserveAll m (window r)) ranges

theorem freshCounts_append (m : MemoryMap) (ranges more : List BadmemRange) :
    freshCounts m (ranges ++ more) =
      freshCounts m ranges ++ freshCounts (reserveAll m (ranges.flatMap window)) more := by
  induction ranges generalizing m with
  | nil => rw [List.flatMap_nil, reserveAll_nil, List.nil_append, freshCounts, List.nil_append]
  | cons r ranges ih =>
      rw [List.cons_append, freshCounts, ih, freshCounts, List.flatMap_cons, reserveAll_append,
        List.cons_append]

theorem sum_freshCounts (m : MemoryMap) (ranges : List BadmemRange) :
    (freshCounts m ranges).sum = (claimed m (ranges.flatMap window)).card := by
  induction ranges generalizing m with
  | nil => rfl
  | cons r ranges ih =>
      rw [freshCounts, List.sum_cons, ih, List.flatMap_cons, card_claimed_append]

theorem sum_freshCounts_le (m : MemoryMap) (ranges : List BadmemRange) :
    (freshCounts m ranges).sum ≤ 2 ^ 52 := by
  rw [sum_freshCounts]
  apply card_claimed_le
  intro pa hpa
  obtain ⟨r, -, hr⟩ := List.mem_flatMap.mp hpa
  exact ((mem_window r pa).mp hr).2.2

theorem sum_mod_le (ns : List ℕ) : (ns.map (· % 2 ^ 32)).sum ≤ ns.sum := by
  induction ns with
  | nil => exact Nat.le_refl _
  | cons n ns ih =>
      rw [List.map_cons, List.sum_cons, List.sum_cons]
      exact Nat.add_le_add (Nat.mod_le n _) ih

/-- A sum of truncated counts is the full sum only if nothing was truncated. -/
theorem sum_mod_eq_iff (ns : List ℕ) :
    (ns.map (· % 2 ^ 32)).sum = ns.sum ↔ ∀ n ∈ ns, n < 2 ^ 32 := by
  induction ns with
  | nil => simp
  | cons n ns ih =>
      rw [List.map_cons, List.sum_cons, List.sum_cons, List.forall_mem_cons, ← ih]
      have htail := sum_mod_le ns
      constructor
      · intro hsum
        exact ⟨by omega, by omega⟩
      · rintro ⟨hn, hns⟩
        rw [hns, Nat.mod_eq_of_lt hn]

section
variable {fw : Firmware MemoryMap} (hfw : ClaimsConventional fw)
include hfw

theorem maskPage_new (acc : Tally × Session MemoryMap) (pa : UInt64) :
    (maskPage fw acc pa).1.new =
      if acc.2.mem pa = some .conventionalMemory then acc.1.new + 1 else acc.1.new := by
  have hstatus : (allocatePages fw pa acc.2).1 = efiSuccess ↔
      acc.2.mem pa = some .conventionalMemory := by
    rw [allocatePages_status]
    constructor
    · intro hok
      by_contra hm
      exact (hfw.refused pa acc.2.mem hm).1 hok
    · intro hm
      rw [hfw.claimed pa acc.2.mem hm]
  simp only [maskPage, hstatus]
  by_cases hm : acc.2.mem pa = some .conventionalMemory
  · rw [if_pos hm, if_pos hm]
  · rw [if_neg hm, if_neg hm]
    split_ifs <;> rfl

theorem foldl_maskPage_new {pas : List UInt64} (hnodup : pas.Nodup)
    (acc : Tally × Session MemoryMap) :
    (pas.foldl (maskPage fw) acc).1.new =
      acc.1.new + UInt32.ofNat (claimed acc.2.mem pas).card := by
  induction pas generalizing acc with
  | nil => simp [claimed]
  | cons pa pas ih =>
      obtain ⟨-, htail⟩ := List.nodup_cons.mp hnodup
      have hone : (claimed acc.2.mem [pa]).card =
          if acc.2.mem pa = some .conventionalMemory then 1 else 0 := by
        rw [card_claimed_of_nodup _ (List.nodup_singleton pa), List.countP_singleton]
        simp
      have hcons := card_claimed_append acc.2.mem [pa] pas
      rw [List.singleton_append, hone] at hcons
      rw [List.foldl_cons, ih htail, maskPage_new hfw, maskPage_session, allocatePages_reserves hfw,
        hcons]
      by_cases hm : acc.2.mem pa = some .conventionalMemory
      · rw [if_pos hm, if_pos hm, UInt32.ofNat_add, UInt32.add_assoc]
        rfl
      · rw [if_neg hm, if_neg hm, Nat.zero_add]

theorem maskRange_pagesNew (acc : Coverage × Session MemoryMap) (r : BadmemRange) :
    (maskRange fw acc r).1.pagesNew = acc.1.pagesNew +
      UInt64.ofNat ((claimed acc.2.mem (window r)).card % 2 ^ 32) := by
  have hnew : (maskWindow fw r acc.2).1.new =
      UInt32.ofNat (claimed acc.2.mem (window r)).card := by
    rw [maskWindow, foldl_maskPage_new hfw (window_nodup r), UInt32.zero_add]
  have hadd (w : Tally × Session MemoryMap) :
      ((acc.1.add w.1, w.2) : Coverage × Session MemoryMap).1.pagesNew =
        acc.1.pagesNew + w.1.new.toUInt64 := rfl
  rw [maskRange, hadd, hnew]
  congr 1
  apply UInt64.toNat_inj.mp
  rw [UInt32.toNat_toUInt64, UInt32.toNat_ofNat', UInt64.toNat_ofNat']
  omega

theorem foldl_maskRange_pagesNew (ranges : List BadmemRange)
    (acc : Coverage × Session MemoryMap) :
    (ranges.foldl (maskRange fw) acc).1.pagesNew = acc.1.pagesNew +
      UInt64.ofNat ((freshCounts acc.2.mem ranges).map (· % 2 ^ 32)).sum := by
  induction ranges generalizing acc with
  | nil => simp [freshCounts]
  | cons r ranges ih =>
      rw [List.foldl_cons, ih, maskRange_pagesNew hfw, maskRange_mem hfw, freshCounts,
        List.map_cons, List.sum_cons, UInt64.ofNat_add, UInt64.add_assoc]

theorem maskPages_pagesNew (ranges : List BadmemRange) (s : Session MemoryMap) :
    (maskPages fw ranges s).1.pagesNew.toNat =
      ((freshCounts s.mem ranges).map (· % 2 ^ 32)).sum := by
  have hle := (sum_mod_le (freshCounts s.mem ranges)).trans (sum_freshCounts_le s.mem ranges)
  rw [maskPages, foldl_maskRange_pagesNew hfw, Session.log_mem, UInt64.zero_add,
    UInt64.toNat_ofNat', Nat.mod_eq_of_lt (by omega)]

end

/-- Several calls of `mask_pages`, with the figures each one prints. -/
def maskCalls {σ : Type} (fw : Firmware σ) :
    List (List BadmemRange) → Session σ → List Coverage × Session σ
  | [], s => ([], s)
  | ranges :: calls, s =>
      let r := maskPages fw ranges s
      let rest := maskCalls fw calls r.2
      (r.1 :: rest.1, rest.2)

/-- The newly reserved pages reported over all calls. -/
def reported (cs : List Coverage) : ℕ := (cs.map fun c => c.pagesNew.toNat).sum

theorem maskCalls_mem {fw : Firmware MemoryMap} (hfw : ClaimsConventional fw)
    (calls : List (List BadmemRange)) (s : Session MemoryMap) :
    (maskCalls fw calls s).2.mem = reserveAll s.mem (calls.flatten.flatMap window) := by
  induction calls generalizing s with
  | nil => exact (reserveAll_nil s.mem).symm
  | cons ranges calls ih =>
      rw [maskCalls, ih, maskPages_mem hfw, List.flatten_cons, List.flatMap_append,
        reserveAll_append]

theorem reported_maskCalls {fw : Firmware MemoryMap} (hfw : ClaimsConventional fw)
    (calls : List (List BadmemRange)) (s : Session MemoryMap) :
    reported (maskCalls fw calls s).1 =
      ((freshCounts s.mem calls.flatten).map (· % 2 ^ 32)).sum := by
  induction calls generalizing s with
  | nil => rfl
  | cons ranges calls ih =>
      rw [maskCalls, reported, List.map_cons, List.sum_cons, maskPages_pagesNew hfw, ← reported, ih,
        maskPages_mem hfw, List.flatten_cons, freshCounts_append, List.map_append, List.sum_append]

/-- Exactly the conventional pages which meet a widened range become reserved. -/
def ReservesMargins (m : MemoryMap) (ranges : List BadmemRange) (m' : MemoryMap) : Prop :=
  ∀ pa, ((m pa = some .conventionalMemory ∧ ∃ r ∈ ranges, MeetsMargin r pa) →
      m' pa = some .reservedMemoryType) ∧
    (¬(m pa = some .conventionalMemory ∧ ∃ r ∈ ranges, MeetsMargin r pa) → m' pa = m pa)

/-- What the calls promise together: the pages they reserve, that neither order
nor repetition of the ranges matters, and that each reserved page is counted once. -/
def UnionReserved (fw : Firmware MemoryMap) (calls : List (List BadmemRange))
    (s : Session MemoryMap) : Prop :=
  ReservesMargins s.mem calls.flatten (maskCalls fw calls s).2.mem ∧
    (∀ calls' : List (List BadmemRange), (∀ r, r ∈ calls'.flatten ↔ r ∈ calls.flatten) →
      (maskCalls fw calls' s).2.mem = (maskCalls fw calls s).2.mem) ∧
    reported (maskCalls fw calls s).1 = {pa | (maskCalls fw calls s).2.mem pa ≠ s.mem pa}.ncard

/-- Where the widened end of a range wraps, the conventional pages of its margin
lie in the window of some range nevertheless. -/
def WrappedMarginsReached (m : MemoryMap) (ranges : List BadmemRange) : Prop :=
  ∀ r ∈ ranges, 2 ^ 64 ≤ r.start.toNat + r.len.toNat + 2 ^ 20 + 4095 →
    ∀ pa, m pa = some .conventionalMemory → MeetsMargin r pa → ∃ r' ∈ ranges, pa ∈ window r'

theorem reservesMargins_iff (m : MemoryMap) (ranges : List BadmemRange) :
    ReservesMargins m ranges (reserveAll m (ranges.flatMap window)) ↔
      WrappedMarginsReached m ranges := by
  constructor
  · intro h r hr _ pa hm hmargin
    have hafter := (h pa).1 ⟨hm, r, hr, hmargin⟩
    by_contra hout
    rw [reserveAll, if_neg, hm] at hafter
    · exact absurd hafter (by decide)
    · rintro ⟨hmem, -⟩
      exact hout (List.mem_flatMap.mp hmem)
  · intro h pa
    have hwindow : m pa = some .conventionalMemory → ((∃ r ∈ ranges, MeetsMargin r pa) ↔
        pa ∈ ranges.flatMap window) := by
      intro hm
      rw [List.mem_flatMap]
      constructor
      · rintro ⟨r, hr, hmargin⟩
        by_cases hfit : r.start.toNat + r.len.toNat + 2 ^ 20 + 4095 < 2 ^ 64
        · exact ⟨r, hr, mem_window_of_meetsMargin hfit hmargin⟩
        · exact h r hr (not_lt.mp hfit) pa hm hmargin
      · rintro ⟨r, hr, hmem⟩
        exact ⟨r, hr, meetsMargin_of_mem_window hmem⟩
    rw [reserveAll]
    constructor
    · rintro ⟨hm, hmargin⟩
      rw [if_pos ⟨(hwindow hm).mp hmargin, hm⟩]
    · intro hnot
      rw [if_neg]
      rintro ⟨hmem, hm⟩
      exact hnot ⟨hm, (hwindow hm).mpr hmem⟩

theorem maskCalls_sameRanges {fw : Firmware MemoryMap} (hfw : ClaimsConventional fw)
    {calls calls' : List (List BadmemRange)} (s : Session MemoryMap)
    (h : ∀ r, r ∈ calls'.flatten ↔ r ∈ calls.flatten) :
    (maskCalls fw calls' s).2.mem = (maskCalls fw calls s).2.mem := by
  rw [maskCalls_mem hfw, maskCalls_mem hfw]
  funext pa
  simp only [reserveAll, List.mem_flatMap, h]

theorem reported_eq_retyped_iff {fw : Firmware MemoryMap} (hfw : ClaimsConventional fw)
    (calls : List (List BadmemRange)) (s : Session MemoryMap) :
    reported (maskCalls fw calls s).1 = {pa | (maskCalls fw calls s).2.mem pa ≠ s.mem pa}.ncard ↔
      ∀ n ∈ freshCounts s.mem calls.flatten, n < 2 ^ 32 := by
  rw [reported_maskCalls hfw, maskCalls_mem hfw, retyped_eq_claimed, Set.ncard_coe_finset,
    ← sum_freshCounts]
  exact sum_mod_eq_iff _

/-- The map and the count are right exactly when no margin is lost to a wrapped
end and no single range claims 2 ^ 32 pages. -/
theorem unionReserved_iff {fw : Firmware MemoryMap} (hfw : ClaimsConventional fw)
    (calls : List (List BadmemRange)) (s : Session MemoryMap) :
    UnionReserved fw calls s ↔ WrappedMarginsReached s.mem calls.flatten ∧
      ∀ n ∈ freshCounts s.mem calls.flatten, n < 2 ^ 32 := by
  rw [UnionReserved, reported_eq_retyped_iff hfw]
  constructor
  · rintro ⟨hmargins, -, hcount⟩
    rw [maskCalls_mem hfw, reservesMargins_iff] at hmargins
    exact ⟨hmargins, hcount⟩
  · rintro ⟨hmargins, hcount⟩
    refine ⟨?_, fun calls' h => maskCalls_sameRanges hfw s h, hcount⟩
    rw [maskCalls_mem hfw, reservesMargins_iff]
    exact hmargins

/-- A range given twice, in a call and in the next one, over one conventional page. -/
theorem unionReserved_one_page :
    UnionReserved uefi [[⟨0x200000, 0x1000⟩, ⟨0x200000, 0x1000⟩], [⟨0x200000, 0x1000⟩]]
      (.start (fun pa => if pa = 0x200000 then some .conventionalMemory else none) [] []) := by
  apply (unionReserved_iff claimsConventional_uefi _ _).mpr
  constructor
  · intro r hr hwrap
    have hsmall : r.start.toNat + r.len.toNat + 2 ^ 20 + 4095 < 2 ^ 64 := by
      revert r
      decide
    exact absurd hwrap (not_le.mpr hsmall)
  · intro n hn
    have hle := List.single_le_sum (fun _ _ => Nat.zero_le _) n hn
    rw [sum_freshCounts] at hle
    refine (hle.trans (Finset.card_le_card (t := {0x200000}) ?_)).trans_lt (by decide)
    intro pa hpa
    obtain ⟨-, hm⟩ := (mem_claimed _ _ pa).mp hpa
    by_contra hne
    rw [Finset.mem_singleton] at hne
    simp [Session.start, hne] at hm

/-- A range of almost 16 TiB in conventional memory claims 2 ^ 32 pages and reports none. -/
theorem full_counter_wraps :
    ¬UnionReserved uefi [[⟨0x100000, 0xFFFFFE00000⟩]]
      (.start (fun _ => some .conventionalMemory) [] []) := by
  rintro ⟨-, -, hcount⟩
  rw [reported_eq_retyped_iff claimsConventional_uefi] at hcount
  have hlength : (window ⟨0x100000, 0xFFFFFE00000⟩).length = 2 ^ 32 := by
    rw [window, pages_length (expStart_aligned _) (expEnd_aligned _)]
    rfl
  have hfresh : (claimed (fun _ => some .conventionalMemory)
      (window ⟨0x100000, 0xFFFFFE00000⟩)).card = 2 ^ 32 := by
    rw [card_claimed_of_nodup _ (window_nodup _), ← hlength, List.countP_eq_length]
    simp
  have hbound := hcount _ (List.mem_cons_self)
  rw [Session.start, hfresh] at hbound
  exact absurd hbound (by decide)

end BankFinder.MaskAlgebra
