import BankFinder.PageMask

/-!
# Verification against the memory map

After masking, `verify_mask_in_memmap` reads the memory map back and looks up the
page at the start of every range. A page in a descriptor of reserved type is
confirmed, a page in no descriptor is taken to be withheld by the firmware, any
other page is counted as unsafe. Descriptors are intervals over the integers
here; the code compares against an end which is computed in 64 bits and takes
the value 0xFFFFFFFF for the type of an absent page.
-/

namespace BankFinder.MemmapVerify
open Nvram BootSession

structure EfiMemoryDescriptor where
  type : UInt32
  physicalStart : UInt64
  numberOfPages : UInt64
  deriving DecidableEq, Repr

def efiReservedMemoryType : UInt32 := 0

/-- The sentinel of the lookup: not in any descriptor. -/
def noDescriptor : UInt32 := 0xFFFFFFFF

/-- `pa >= start && pa < end` -/
def EfiMemoryDescriptor.hit (d : EfiMemoryDescriptor) (pa : UInt64) : Bool :=
  decide (d.physicalStart ≤ pa ∧ pa < d.physicalStart + d.numberOfPages * 4096)

/-- The inner loop, which stops at the first hit. -/
def lookupType (map : List EfiMemoryDescriptor) (pa : UInt64) : UInt32 :=
  match map.find? (·.hit pa) with
  | some d => d.type
  | none => noDescriptor

structure VerifyCounts where
  confirmed : UInt32 := 0
  notInMap : UInt32 := 0
  unsafeType : UInt32 := 0
  warnings : List (UInt64 × UInt32) := []
  deriving DecidableEq, Repr

def verifyRange (map : List EfiMemoryDescriptor) (c : VerifyCounts) (r : BadmemRange) :
    VerifyCounts :=
  let pa := pageAlign r.start
  let type := lookupType map pa
  if type = efiReservedMemoryType then { c with confirmed := c.confirmed + 1 }
  else if type = noDescriptor then { c with notInMap := c.notInMap + 1 }
  else
    { c with
      unsafeType := c.unsafeType + 1
      warnings := if c.unsafeType + 1 ≤ 3 then c.warnings ++ [(pa, type)] else c.warnings }

/-- What the boot services answer: the size query, the pool request, and the map
itself with its `actual / desc_size` descriptors. -/
structure MemoryMapCalls where
  sizeStatus : EfiStatus
  mmSize : UInt64
  descSize : UInt64
  poolStatus : EfiStatus
  mapStatus : EfiStatus
  map : List EfiMemoryDescriptor

inductive VerifyOutcome where
  | noRanges
  | cannotQueryMemoryMap
  | allocatePoolFailed
  | getMemoryMapFailed (status : EfiStatus)
  | counted (counts : VerifyCounts)
  deriving DecidableEq, Repr

/-- `verify_mask_in_memmap`; it only reports and changes nothing. -/
def verifyMaskInMemmap (q : MemoryMapCalls) (ranges : List BadmemRange) : VerifyOutcome :=
  if ranges = [] then .noRanges
  else if q.sizeStatus ≠ efiBufferTooSmall ∨ q.mmSize = 0 ∨ q.descSize = 0 then
    .cannotQueryMemoryMap
  else if q.poolStatus ≠ efiSuccess then .allocatePoolFailed
  else if q.mapStatus ≠ efiSuccess then .getMemoryMapFailed q.mapStatus
  else .counted (ranges.foldl (verifyRange q.map) {})

/-- The first page of the range is reported as usable by the operating system. -/
def Flagged (map : List EfiMemoryDescriptor) (r : BadmemRange) : Prop :=
  lookupType map (pageAlign r.start) ≠ efiReservedMemoryType ∧
    lookupType map (pageAlign r.start) ≠ noDescriptor

instance (map : List EfiMemoryDescriptor) (r : BadmemRange) : Decidable (Flagged map r) :=
  inferInstanceAs (Decidable (_ ∧ _))

theorem verifyRange_unsafeType (map : List EfiMemoryDescriptor) (c : VerifyCounts)
    (r : BadmemRange) :
    (verifyRange map c r).unsafeType =
      if Flagged map r then c.unsafeType + 1 else c.unsafeType := by
  unfold verifyRange Flagged
  by_cases hreserved : lookupType map (pageAlign r.start) = efiReservedMemoryType
  · simp [hreserved]
  · by_cases habsent : lookupType map (pageAlign r.start) = noDescriptor
    · simp [habsent, show noDescriptor ≠ efiReservedMemoryType by decide]
    · simp [hreserved, habsent]

theorem foldl_verifyRange_unsafeType (map : List EfiMemoryDescriptor) (ranges : List BadmemRange)
    (c : VerifyCounts) :
    (ranges.foldl (verifyRange map) c).unsafeType =
      c.unsafeType + UInt32.ofNat (ranges.countP fun r => decide (Flagged map r)) := by
  induction ranges generalizing c with
  | nil => simp
  | cons r ranges ih =>
      rw [List.foldl_cons, ih, verifyRange_unsafeType, List.countP_cons]
      by_cases h : Flagged map r
      · rw [if_pos h, if_pos (decide_eq_true h), UInt32.ofNat_add, UInt32.add_assoc]
        congr 1
        exact UInt32.add_comm 1 _
      · rw [if_neg h, if_neg (by simpa using h), Nat.add_zero]

/-- The list index is an `unsigned`, so the counter does not come round to zero. -/
theorem unsafeType_eq_zero_iff (map : List EfiMemoryDescriptor) {ranges : List BadmemRange}
    (hcount : ranges.length < 2 ^ 32) :
    (ranges.foldl (verifyRange map) {}).unsafeType = 0 ↔ ∀ r ∈ ranges, ¬Flagged map r := by
  have hle : ranges.countP (fun r => decide (Flagged map r)) ≤ ranges.length :=
    List.countP_le_length
  have hzero : UInt32.ofNat (ranges.countP fun r => decide (Flagged map r)) = 0 ↔
      ranges.countP (fun r => decide (Flagged map r)) = 0 := by
    rw [← UInt32.toNat_inj, UInt32.toNat_ofNat', Nat.mod_eq_of_lt (by omega)]
    rfl
  rw [foldl_verifyRange_unsafeType, UInt32.zero_add, hzero, List.countP_eq_zero]
  simp

def EfiMemoryDescriptor.Contains (d : EfiMemoryDescriptor) (p : ℕ) : Prop :=
  d.physicalStart.toNat ≤ p ∧ p < d.physicalStart.toNat + d.numberOfPages.toNat * 4096

instance (d : EfiMemoryDescriptor) (p : ℕ) : Decidable (d.Contains p) :=
  inferInstanceAs (Decidable (_ ∧ _))

def Disjoint (map : List EfiMemoryDescriptor) : Prop :=
  map.Pairwise fun d e => ∀ p, ¬(d.Contains p ∧ e.Contains p)

theorem contains_page {d : EfiMemoryDescriptor} (hd : 4096 ∣ d.physicalStart.toNat) {p x : ℕ}
    (hp : 4096 ∣ p) (hlo : p ≤ x) (hhi : x < p + 4096) : d.Contains x ↔ d.Contains p := by
  simp only [EfiMemoryDescriptor.Contains]
  omega

/-- The machine comparison never claims a page which is not in the descriptor. -/
theorem contains_of_hit {d : EfiMemoryDescriptor} {pa : UInt64} (h : d.hit pa = true) :
    d.Contains pa.toNat := by
  simp only [EfiMemoryDescriptor.hit, decide_eq_true_eq, UInt64.le_iff_toNat_le,
    UInt64.lt_iff_toNat_lt, UInt64.toNat_add, UInt64.toNat_mul] at h
  obtain ⟨hlo, hhi⟩ := h
  refine ⟨hlo, hhi.trans_le ?_⟩
  have hpage : (4096 : UInt64).toNat = 4096 := rfl
  rw [hpage]
  calc (d.physicalStart.toNat + d.numberOfPages.toNat * 4096 % 2 ^ 64) % 2 ^ 64
      ≤ d.physicalStart.toNat + d.numberOfPages.toNat * 4096 % 2 ^ 64 := Nat.mod_le _ _
    _ ≤ d.physicalStart.toNat + d.numberOfPages.toNat * 4096 :=
        Nat.add_le_add_left (Nat.mod_le _ _) _

theorem hit_of_contains {d : EfiMemoryDescriptor} {pa : UInt64} (h : d.Contains pa.toNat)
    (hend : d.physicalStart.toNat + d.numberOfPages.toNat * 4096 < 2 ^ 64) :
    d.hit pa = true := by
  have hpage : (4096 : UInt64).toNat = 4096 := rfl
  simp only [EfiMemoryDescriptor.hit, decide_eq_true_eq, UInt64.le_iff_toNat_le,
    UInt64.lt_iff_toNat_lt, UInt64.toNat_add, UInt64.toNat_mul, hpage]
  rw [Nat.mod_eq_of_lt (show d.numberOfPages.toNat * 4096 < 2 ^ 64 by omega),
    Nat.mod_eq_of_lt hend]
  exact h

/-- In a disjoint map at most one descriptor contains an address. -/
theorem eq_of_contains {map : List EfiMemoryDescriptor} (hdis : Disjoint map)
    {d e : EfiMemoryDescriptor} (hd : d ∈ map) (he : e ∈ map) {p : ℕ} (hdp : d.Contains p)
    (hep : e.Contains p) : d = e := by
  by_contra hne
  have hsymm : Std.Symm fun a b : EfiMemoryDescriptor =>
      ∀ p, ¬(a.Contains p ∧ b.Contains p) :=
    ⟨fun a b hab p hba => hab p ⟨hba.2, hba.1⟩⟩
  exact hdis.forall hd he hne p ⟨hdp, hep⟩

theorem lookupType_of_hit {map : List EfiMemoryDescriptor} (hdis : Disjoint map)
    {d : EfiMemoryDescriptor} (hd : d ∈ map) {pa : UInt64} (hit : d.hit pa = true) :
    lookupType map pa = d.type := by
  unfold lookupType
  cases hfind : map.find? (·.hit pa) with
  | none => exact absurd hit (List.find?_eq_none.mp hfind d hd)
  | some e =>
      have hcontains : e.Contains pa.toNat := contains_of_hit (by simpa using List.find?_some hfind)
      rw [eq_of_contains hdis (List.mem_of_find?_eq_some hfind) hd hcontains
        (contains_of_hit hit)]

/-- The page at `p` has a byte of the range. -/
def RangePage (r : BadmemRange) (p : ℕ) : Prop :=
  4096 ∣ p ∧ ∃ x, r.start.toNat ≤ x ∧ x < r.start.toNat + r.len.toNat ∧ p ≤ x ∧ x < p + 4096

/-- The operating system is not handed the page: it lies in a reserved descriptor or in none. -/
def PageSafe (map : List EfiMemoryDescriptor) (p : ℕ) : Prop :=
  (∃ d ∈ map, d.Contains p ∧ d.type = efiReservedMemoryType) ∨ ∀ d ∈ map, ¬d.Contains p

theorem pageSafe_iff {map : List EfiMemoryDescriptor} (hdis : Disjoint map) (p : ℕ) :
    PageSafe map p ↔ ∀ d ∈ map, d.Contains p → d.type = efiReservedMemoryType := by
  constructor
  · rintro (⟨e, he, hep, htype⟩ | hnone) d hd hdp
    · rw [eq_of_contains hdis hd he hdp hep, htype]
    · exact absurd hdp (hnone d hd)
  · intro hall
    by_cases hsome : ∃ d ∈ map, d.Contains p
    · obtain ⟨d, hd, hdp⟩ := hsome
      exact Or.inl ⟨d, hd, hdp, hall d hd hdp⟩
    · exact Or.inr fun d hd hdp => hsome ⟨d, hd, hdp⟩

/-- Descriptors start on page boundaries, so all bytes of a page share its fate. -/
theorem pageSafe_byte {map : List EfiMemoryDescriptor}
    (haligned : ∀ d ∈ map, 4096 ∣ d.physicalStart.toNat) {p x : ℕ} (hp : 4096 ∣ p) (hlo : p ≤ x)
    (hhi : x < p + 4096) : PageSafe map x ↔ PageSafe map p := by
  have hsame : ∀ d ∈ map, (d.Contains x ↔ d.Contains p) := by
    intro d hd
    exact contains_page (haligned d hd) hp hlo hhi
  unfold PageSafe
  constructor
  · rintro (⟨d, hd, hdx, htype⟩ | hnone)
    · exact Or.inl ⟨d, hd, (hsame d hd).mp hdx, htype⟩
    · exact Or.inr fun d hd hdp => hnone d hd ((hsame d hd).mpr hdp)
  · rintro (⟨d, hd, hdp, htype⟩ | hnone)
    · exact Or.inl ⟨d, hd, (hsame d hd).mpr hdp, htype⟩
    · exact Or.inr fun d hd hdx => hnone d hd ((hsame d hd).mp hdx)

/-- Zero unsafe entries mean that every page of every range is safe. -/
def VerifySound (q : MemoryMapCalls) (ranges : List BadmemRange) : Prop :=
  ∀ c, verifyMaskInMemmap q ranges = .counted c → c.unsafeType = 0 →
    ∀ r ∈ ranges, ∀ p, RangePage r p → PageSafe q.map p

/-- The calls by which the map is read all succeed. -/
def MemoryMapCalls.Reads (q : MemoryMapCalls) : Prop :=
  q.sizeStatus = efiBufferTooSmall ∧ q.mmSize ≠ 0 ∧ q.descSize ≠ 0 ∧
    q.poolStatus = efiSuccess ∧ q.mapStatus = efiSuccess

/-- A usable descriptor meets a range on the page which is looked up, ends below
2 ^ 64 and does not bear the sentinel for a type. -/
def UsableOnFirstPages (map : List EfiMemoryDescriptor) (ranges : List BadmemRange) : Prop :=
  ∀ r ∈ ranges, ∀ d ∈ map, d.type ≠ efiReservedMemoryType →
    ∀ p, RangePage r p → d.Contains p → p = (pageAlign r.start).toNat ∧ d.type ≠ noDescriptor ∧
      d.physicalStart.toNat + d.numberOfPages.toNat * 4096 < 2 ^ 64

theorem verifyMaskInMemmap_counted {q : MemoryMapCalls} {ranges : List BadmemRange}
    {c : VerifyCounts} (h : verifyMaskInMemmap q ranges = .counted c) :
    q.Reads ∧ c = ranges.foldl (verifyRange q.map) {} := by
  unfold verifyMaskInMemmap at h
  split_ifs at h with hempty hquery hpool hmap
  rw [not_or, not_or, not_not] at hquery
  rw [not_not] at hpool hmap
  rw [VerifyOutcome.counted.injEq] at h
  exact ⟨⟨hquery.1, hquery.2.1, hquery.2.2, hpool, hmap⟩, h.symm⟩

theorem verifyMaskInMemmap_reads {q : MemoryMapCalls} (hq : q.Reads) {ranges : List BadmemRange}
    (hne : ranges ≠ []) :
    verifyMaskInMemmap q ranges = .counted (ranges.foldl (verifyRange q.map) {}) := by
  obtain ⟨hsize, hmm, hdesc, hpool, hmap⟩ := hq
  unfold verifyMaskInMemmap
  rw [if_neg hne, if_neg (by simp [hsize, hmm, hdesc]), if_neg (by simp [hpool]),
    if_neg (by simp [hmap])]

/-- A usable descriptor on the page which is looked up is reported. -/
theorem flagged_of_usable {map : List EfiMemoryDescriptor} (hdis : Disjoint map)
    {d : EfiMemoryDescriptor} (hd : d ∈ map) {r : BadmemRange}
    (htype : d.type ≠ efiReservedMemoryType) (habsent : d.type ≠ noDescriptor)
    (hcontains : d.Contains (pageAlign r.start).toNat)
    (hend : d.physicalStart.toNat + d.numberOfPages.toNat * 4096 < 2 ^ 64) : Flagged map r := by
  have hlookup := lookupType_of_hit hdis hd (hit_of_contains hcontains hend)
  rw [Flagged, hlookup]
  exact ⟨htype, habsent⟩

/-- The verify line can be trusted if the map was not read, if some range was
reported, or if usable memory meets the ranges only where it is looked up. -/
theorem verifySound_iff (q : MemoryMapCalls) {ranges : List BadmemRange} (hdis : Disjoint q.map)
    (hcount : ranges.length < 2 ^ 32) :
    VerifySound q ranges ↔
      ¬q.Reads ∨ (∃ r ∈ ranges, Flagged q.map r) ∨ UsableOnFirstPages q.map ranges := by
  constructor
  · intro hsound
    by_contra hcond
    rw [not_or, not_or, not_not] at hcond
    obtain ⟨hreads, hflagged, husable⟩ := hcond
    apply husable
    intro r hr d hd htype p hp hdp
    have hnone : ∀ r ∈ ranges, ¬Flagged q.map r := fun r hr h => hflagged ⟨r, hr, h⟩
    have hsafe := hsound _ (verifyMaskInMemmap_reads hreads (List.ne_nil_of_mem hr))
      ((unsafeType_eq_zero_iff q.map hcount).mpr hnone) r hr p hp
    exact absurd ((pageSafe_iff hdis p).mp hsafe d hd hdp) htype
  · intro hcond c hc hzero r hr p hp
    obtain ⟨hreads, rfl⟩ := verifyMaskInMemmap_counted hc
    have hnone := (unsafeType_eq_zero_iff q.map hcount).mp hzero
    rcases hcond with hfail | ⟨r', hr', hflagged⟩ | husable
    · exact absurd hreads hfail
    · exact absurd hflagged (hnone r' hr')
    · rw [pageSafe_iff hdis]
      intro d hd hdp
      by_contra htype
      obtain ⟨rfl, habsent, hend⟩ := husable r hr d hd htype p hp hdp
      exact hnone r hr (flagged_of_usable hdis hd htype habsent hdp hend)

theorem meets_of_rangePage {r : BadmemRange} {d : EfiMemoryDescriptor} {p : ℕ}
    (haligned : 4096 ∣ d.physicalStart.toNat) (hp : RangePage r p) (hdp : d.Contains p) :
    d.physicalStart.toNat < r.start.toNat + r.len.toNat ∧
      r.start.toNat < d.physicalStart.toNat + d.numberOfPages.toNat * 4096 := by
  obtain ⟨hpage, x, hlo, hhi, hpx, hxp⟩ := hp
  have hdx := (contains_page haligned hpage hpx hxp).mpr hdp
  exact ⟨lt_of_le_of_lt hdx.1 hhi, lt_of_le_of_lt hlo hdx.2⟩

/-- A reserved block of two pages between free ones, and a reserved page behind. -/
def maskedMap : List EfiMemoryDescriptor :=
  [⟨7, 0x100000, 0x100⟩, ⟨0, 0x200000, 2⟩, ⟨7, 0x202000, 0x3FE⟩, ⟨0, 0x600000, 1⟩]

def maskedRanges : List BadmemRange :=
  [⟨0x200000, 0x2000⟩, ⟨0x600000, 0x1000⟩, ⟨0x800000, 0x3000⟩]

theorem maskedMap_disjoint : Disjoint maskedMap := by
  unfold maskedMap Disjoint
  simp only [List.pairwise_cons, List.forall_mem_cons, List.not_mem_nil, false_imp_iff,
    implies_true, List.Pairwise.nil, and_true]
  unfold EfiMemoryDescriptor.Contains
  simp only [UInt64.toNat_ofNat]
  refine ⟨⟨?_, ?_, ?_⟩, ⟨?_, ?_⟩, ?_⟩
  all_goals
    intro p
    omega

theorem verifySound_maskedMap :
    VerifySound ⟨efiBufferTooSmall, 192, 48, efiSuccess, efiSuccess, maskedMap⟩ maskedRanges := by
  have haligned : ∀ d ∈ maskedMap, 4096 ∣ d.physicalStart.toNat := by decide
  have hapart : ∀ r ∈ maskedRanges, ∀ d ∈ maskedMap, d.type ≠ efiReservedMemoryType →
      ¬(d.physicalStart.toNat < r.start.toNat + r.len.toNat ∧
        r.start.toNat < d.physicalStart.toNat + d.numberOfPages.toNat * 4096) := by decide
  apply (verifySound_iff ⟨_, _, _, _, _, maskedMap⟩ maskedMap_disjoint (by decide)).mpr
  refine Or.inr (Or.inr ?_)
  intro r hr d hd htype p hp hdp
  exact absurd (meets_of_rangePage (haligned d hd) hp hdp) (hapart r hr d hd htype)

/-- Two bad pages, of which only the first is reserved: nothing is reported. -/
theorem second_page_unverified :
    Disjoint [⟨0, 0x200000, 1⟩, ⟨7, 0x201000, 1⟩] ∧
      ¬VerifySound ⟨efiBufferTooSmall, 48, 48, efiSuccess, efiSuccess,
        [⟨0, 0x200000, 1⟩, ⟨7, 0x201000, 1⟩]⟩ [⟨0x200000, 0x2000⟩] := by
  constructor
  · apply List.pairwise_pair.mpr
    rintro p ⟨⟨-, hhi⟩, ⟨hlo, -⟩⟩
    exact absurd (hlo.trans_lt hhi) (by decide)
  intro hsound
  have hpage : RangePage ⟨0x200000, 0x2000⟩ 0x201000 :=
    ⟨by decide, 0x201000, by decide, by decide, by decide, by decide⟩
  rcases hsound _ rfl (by decide) _ (List.mem_singleton_self _) _ hpage with
    ⟨d, hd, hcontains, htype⟩ | hnone
  · revert d
    decide
  · exact hnone ⟨7, 0x201000, 1⟩ (by decide) (by decide)

end BankFinder.MemmapVerify
