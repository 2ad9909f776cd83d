import BankFinder.LittleEndian
import BankFinder.MaskCoverage
import BankFinder.MemmapVerify

/-!
# Checking the mask in the memory map

What the figures of `verify_mask_in_memmap` say after `mask_pages`, from the bytes in which the
firmware gives its memory map. The records of the map are as long as the firmware says, not as
long as the structure the program knows. The buffer for them is taken from the free pages before
the map is read, so what is read is the map with the buffer in it.
-/

namespace BankFinder.VerifyMask
open AlignedWords LittleEndian Nvram BootSession PageMask MaskCoverage MemmapVerify

/-- The fields of `EFI_MEMORY_DESCRIPTOR` which are looked at. -/
def readDescriptor (record : List UInt8) : EfiMemoryDescriptor where
  type := UInt32.ofNat (decode (record.take 4))
  physicalStart := UInt64.ofNat (decode ((record.drop 8).take 8))
  numberOfPages := UInt64.ofNat (decode ((record.drop 24).take 8))

/-- The answers of `GetMemoryMap`, first without a buffer and then with one, and of
`AllocatePool`, which changes the memory map. The second answer has the bytes used, the size of a
record and the bytes. -/
structure MapServices where
  sizeQuery : MemoryMap → EfiStatus × UInt64 × UInt64
  allocatePool : UInt64 → MemoryMap → EfiStatus × MemoryMap
  getMemoryMap : UInt64 → MemoryMap → EfiStatus × UInt64 × UInt64 × List UInt8

/-- `mm_size + 8 * desc_size` -/
def MapServices.bufSize (bs : MapServices) (mem : MemoryMap) : UInt64 :=
  let (_, mmSize, descSize) := bs.sizeQuery mem
  mmSize + 8 * descSize

/-- The memory map after the buffer was allocated. -/
def MapServices.withBuffer (bs : MapServices) (mem : MemoryMap) : MemoryMap :=
  (bs.allocatePool (bs.bufSize mem) mem).2

/-- The calls of `verify_mask_in_memmap`, with the map as it reads it from the buffer. -/
def MapServices.calls (bs : MapServices) (mem : MemoryMap) : MemoryMapCalls :=
  let (sizeStatus, mmSize, descSize) := bs.sizeQuery mem
  let (mapStatus, actual, recordSize, buf) :=
    bs.getMemoryMap (bs.bufSize mem) (bs.withBuffer mem)
  let nDesc := (actual / recordSize).toNat
  { sizeStatus, mmSize, descSize
    poolStatus := (bs.allocatePool (bs.bufSize mem) mem).1
    mapStatus
    map := (chunks recordSize.toNat nDesc buf).map readDescriptor }

section
variable {map : List EfiMemoryDescriptor}

/-- The type which is found for the first page of a range. -/
def found (map : List EfiMemoryDescriptor) (r : BadmemRange) : UInt32 :=
  lookupType map (pageAlign r.start)

theorem flagged_eq (map : List EfiMemoryDescriptor) (r : BadmemRange) :
    decide (Flagged map r) =
      (found map r != efiReservedMemoryType && found map r != noDescriptor) := by
  rw [Bool.eq_iff_iff, decide_eq_true_iff, Bool.and_eq_true, bne_iff_ne, bne_iff_ne]
  exact Iff.rfl

/-- The figures after these ranges. -/
structure Counted (map : List EfiMemoryDescriptor) (ranges : List BadmemRange)
    (f : VerifyCounts) : Prop where
  confirmed : f.confirmed.toNat = ranges.countP fun r => found map r == efiReservedMemoryType
  notInMap : f.notInMap.toNat = ranges.countP fun r => found map r == noDescriptor
  unsafeType : f.unsafeType.toNat = ranges.countP (Flagged map ·)
  warnings : f.warnings = ((ranges.filter (Flagged map ·)).take 3).map fun r =>
    (pageAlign r.start, found map r)

theorem count_next {n : UInt32} {k : ℕ} (h : n.toNat = k) (hk : k + 1 < 2 ^ 32) :
    (n + 1).toNat = k + 1 := by
  have hone : (1 : UInt32).toNat = 1 := rfl
  rw [UInt32.toNat_add, h, hone]
  exact Nat.mod_eq_of_lt hk

theorem take_concat {α : Type} (n : ℕ) (xs : List α) (x : α) :
    (xs ++ [x]).take n = if xs.length + 1 ≤ n then xs.take n ++ [x] else xs.take n := by
  split_ifs with hroom
  · rw [List.take_of_length_le (by simpa using hroom), List.take_of_length_le (by omega)]
  · rw [List.take_append_of_le_length (by omega)]

/-- One more range is counted in one of the three figures. -/
theorem Counted.snoc {ranges : List BadmemRange} {f : VerifyCounts} {r : BadmemRange}
    (h : Counted map ranges f) (hlength : ranges.length + 1 < 2 ^ 32) :
    Counted map (ranges ++ [r]) (verifyRange map f r) := by
  have hle (p : BadmemRange → Bool) : ranges.countP p + 1 < 2 ^ 32 :=
    lt_of_le_of_lt (Nat.succ_le_succ List.countP_le_length) hlength
  have hzero : efiReservedMemoryType ≠ noDescriptor := by decide
  have hfound : lookupType map (pageAlign r.start) = found map r := rfl
  unfold verifyRange
  simp only [hfound]
  by_cases hconfirmed : found map r = efiReservedMemoryType
  · have hsafe : ¬Flagged map r := fun h => h.1 hconfirmed
    rw [if_pos hconfirmed]
    refine ⟨?_, ?_, ?_, ?_⟩
    · simpa [hconfirmed] using count_next h.confirmed (hle _)
    · simpa [hconfirmed, hzero] using h.notInMap
    · simpa [hsafe] using h.unsafeType
    · simpa [hsafe] using h.warnings
  rw [if_neg hconfirmed]
  by_cases habsent : found map r = noDescriptor
  · have hsafe : ¬Flagged map r := fun h => h.2 habsent
    rw [if_pos habsent]
    refine ⟨?_, ?_, ?_, ?_⟩
    · simpa [habsent, hzero.symm] using h.confirmed
    · simpa [habsent] using count_next h.notInMap (hle _)
    · simpa [hsafe] using h.unsafeType
    · simpa [hsafe] using h.warnings
  · have hflagged : Flagged map r := ⟨hconfirmed, habsent⟩
    have hcount := count_next h.unsafeType (hle _)
    rw [if_neg habsent]
    refine ⟨?_, ?_, ?_, ?_⟩
    · simpa [hconfirmed] using h.confirmed
    · simpa [habsent] using h.notInMap
    · simpa [hflagged] using hcount
    · rw [List.countP_eq_length_filter] at hcount
      have hthree : f.unsafeType + 1 ≤ 3 ↔
          (ranges.filter (Flagged map ·)).length + 1 ≤ 3 := by
        rw [UInt32.le_iff_toNat_le, hcount]
        rfl
      have hlast : (ranges ++ [r]).filter (Flagged map ·) =
          ranges.filter (Flagged map ·) ++ [r] := by simp [hflagged]
      simp only [hthree]
      rw [hlast, take_concat, h.warnings]
      split_ifs
      · rw [List.map_append]
        rfl
      · rfl

theorem counted_foldl (ranges : List BadmemRange) (hlength : ranges.length < 2 ^ 32) :
    Counted map ranges (ranges.foldl (verifyRange map) {}) := by
  induction ranges using List.reverseRecOn with
  | nil => exact ⟨rfl, rfl, rfl, rfl⟩
  | append_singleton ranges r ih =>
      rw [List.length_append, List.length_singleton] at hlength
      rw [List.foldl_append]
      exact (ih (by omega)).snoc hlength

end

/-- The number of a type in the records. -/
def typeCode : EfiMemoryType → UInt32
  | .reservedMemoryType => 0
  | .loaderCode => 1
  | .loaderData => 2
  | .bootServicesCode => 3
  | .bootServicesData => 4
  | .runtimeServicesCode => 5
  | .runtimeServicesData => 6
  | .conventionalMemory => 7
  | .unusableMemory => 8
  | .acpiReclaimMemory => 9
  | .acpiMemoryNvs => 10
  | .memoryMappedIo => 11
  | .memoryMappedIoPortSpace => 12
  | .palCode => 13
  | .persistentMemory => 14
  | .vendor code => code

def shownType (page : Option EfiMemoryType) : UInt32 := (page.map typeCode).getD noDescriptor

/-- The records say of every page what it is. -/
def Describes (map : List EfiMemoryDescriptor) (mem : MemoryMap) : Prop :=
  ∀ pa : UInt64, 4096 ∣ pa.toNat → lookupType map pa = shownType (mem pa)

/-- The buffer which `GetMemoryMap` fills: records of one length, and what was behind them. -/
structure Buffer where
  descSize : UInt64
  records : List {record : List UInt8 // record.length = descSize.toNat}
  rest : List UInt8
  descSize_pos : 0 < descSize.toNat
  fits : records.length * descSize.toNat < 2 ^ 64

def Buffer.bytes (b : Buffer) : List UInt8 := b.records.flatMap Subtype.val ++ b.rest

def Buffer.map (b : Buffer) : List EfiMemoryDescriptor :=
  b.records.map fun record => readDescriptor record.val

/-- Only free pages are given away. -/
def TakesFree (mem mem' : MemoryMap) : Prop :=
  ∀ pa, mem pa ≠ some .conventionalMemory → mem' pa = mem pa

/-- Both calls and the allocation succeed as documented: the buffer is taken from the free pages,
and the records are those of the map with the buffer in it. -/
structure Answers (bs : MapServices) (mem : MemoryMap) (b : Buffer) : Prop where
  sizeQuery : ∃ mmSize descSize, mmSize ≠ 0 ∧ descSize ≠ 0 ∧
    bs.sizeQuery mem = (efiBufferTooSmall, mmSize, descSize)
  allocatePool : (bs.allocatePool (bs.bufSize mem) mem).1 = efiSuccess
  takesFree : TakesFree mem (bs.withBuffer mem)
  getMemoryMap : bs.getMemoryMap (bs.bufSize mem) (bs.withBuffer mem) =
    (efiSuccess, UInt64.ofNat (b.records.length * b.descSize.toNat), b.descSize, b.bytes)
  describes : Describes b.map (bs.withBuffer mem)

/-- The records are told apart, however long they are. -/
theorem Buffer.read (b : Buffer) :
    (chunks b.descSize.toNat
      (UInt64.ofNat (b.records.length * b.descSize.toNat) / b.descSize).toNat b.bytes).map
        readDescriptor = b.map := by
  have hcount : (UInt64.ofNat (b.records.length * b.descSize.toNat) / b.descSize).toNat =
      b.records.length := by
    rw [UInt64.toNat_div, UInt64.toNat_ofNat', Nat.mod_eq_of_lt b.fits,
      Nat.mul_div_cancel _ b.descSize_pos]
  rw [hcount, Buffer.bytes, chunks_flatMap _ Subtype.val fun record => record.property,
    List.map_map]
  rfl

theorem Answers.calls_read {bs : MapServices} {mem : MemoryMap} {b : Buffer}
    (h : Answers bs mem b) : (bs.calls mem).Reads ∧ (bs.calls mem).map = b.map := by
  obtain ⟨mmSize, descSize, hsize, hdesc, hquery⟩ := h.sizeQuery
  unfold MapServices.calls MemoryMapCalls.Reads
  simp only [hquery, h.allocatePool, h.getMemoryMap]
  exact ⟨⟨trivial, hsize, hdesc, trivial, trivial⟩, b.read⟩

theorem verifyMaskInMemmap_buffer {bs : MapServices} {mem : MemoryMap} {b : Buffer}
    (h : Answers bs mem b) {ranges : List BadmemRange} (hne : ranges ≠ []) :
    verifyMaskInMemmap (bs.calls mem) ranges = .counted (ranges.foldl (verifyRange b.map) {}) := by
  obtain ⟨hreads, hmap⟩ := h.calls_read
  rw [verifyMaskInMemmap_reads hreads hne, hmap]

/-- The page was free, or reserved already. -/
def claimable (page : Option EfiMemoryType) : Bool :=
  page == some .conventionalMemory || page == some .reservedMemoryType

/-- The page is in the map and in use for something else. -/
def taken (page : Option EfiMemoryType) : Bool := page.isSome && !claimable page

/-- No vendor type has the number of the reserved one or of a page outside the map. -/
def PlainVendors (mem : MemoryMap) : Prop :=
  ∀ pa number, mem pa = some (.vendor number) → number ≠ 0 ∧ number ≠ noDescriptor

/-- The figures tell what the first pages of the ranges were before the masking. -/
structure TellsBefore (mem : MemoryMap) (ranges : List BadmemRange) (f : VerifyCounts) : Prop where
  confirmed : f.confirmed.toNat = ranges.countP fun r => claimable (mem r.start)
  notInMap : f.notInMap.toNat = ranges.countP fun r => (mem r.start).isNone
  unsafeType : f.unsafeType.toNat = ranges.countP fun r => taken (mem r.start)
  warnings : f.warnings = ((ranges.filter fun r => taken (mem r.start)).take 3).map fun r =>
    (r.start, shownType (mem r.start))

theorem typeCode_of_claimed {t : EfiMemoryType} (hzero : t ≠ .vendor 0) :
    typeCode t = efiReservedMemoryType ↔ t = .reservedMemoryType := by
  cases t with
  | vendor number =>
      have hnumber : number ≠ 0 := fun h => hzero (congrArg _ h)
      simp [typeCode, efiReservedMemoryType, hnumber]
  | _ => simp [typeCode, efiReservedMemoryType]

theorem typeCode_ne_noDescriptor {t : EfiMemoryType} (hvendor : t ≠ .vendor noDescriptor) :
    typeCode t ≠ noDescriptor := by
  cases t with
  | vendor number => exact fun h => hvendor (congrArg _ h)
  | _ => simp [typeCode, noDescriptor]

section
variable {mem mem' : MemoryMap} {ranges : List BadmemRange} {map : List EfiMemoryDescriptor}

/-- A page which is claimed is no longer free, so the buffer is never there. -/
theorem withBuffer_listed {pas : List UInt64} (hpool : TakesFree (reserveAll mem pas) mem')
    {pa : UInt64} (hpa : pa ∈ pas) :
    mem' pa = if mem pa = some .conventionalMemory then some .reservedMemoryType else mem pa := by
  have hclaimed : reserveAll mem pas pa =
      if mem pa = some .conventionalMemory then some .reservedMemoryType else mem pa := by
    rw [reserveAll]
    simp only [hpa, true_and]
  rw [← hclaimed]
  apply hpool
  rw [hclaimed]
  split_ifs with hfree
  · exact fun h => EfiMemoryType.noConfusion (Option.some.inj h)
  · exact hfree

/-- What is found for a first page: reserved when it could be claimed, otherwise as before. -/
theorem found_eq (hpool : TakesFree (reserveAll mem (ranges.flatMap window)) mem')
    (hmap : Describes map mem') {r : BadmemRange} (hr : r ∈ ranges) (hspan : PageSpan r)
    (hfit : r.start.toNat + r.len.toNat + 2 ^ 20 < 2 ^ 64) :
    pageAlign r.start = r.start ∧ found map r =
      if claimable (mem r.start) then efiReservedMemoryType else shownType (mem r.start) := by
  have hclear : pageAlign r.start = r.start := by
    rw [← UInt64.toNat_inj, pageAlign_toNat]
    exact Nat.div_mul_cancel hspan.start_aligned
  have hpos := hspan.len_pos
  have hwindow : r.start ∈ window r := by
    rw [mem_window_of_fits hspan hfit, meetsMargin_iff hspan]
    exact ⟨hspan.start_aligned, by omega, by omega⟩
  have hlisted : r.start ∈ ranges.flatMap window := List.mem_flatMap.mpr ⟨r, hr, hwindow⟩
  refine ⟨hclear, ?_⟩
  rw [found, hclear, hmap r.start hspan.start_aligned, withBuffer_listed hpool hlisted]
  by_cases hfree : mem r.start = some .conventionalMemory
  · rw [if_pos hfree, hfree]
    rfl
  · rw [if_neg hfree]
    by_cases hreserved : mem r.start = some .reservedMemoryType
    · rw [hreserved]
      rfl
    · rw [if_neg]
      simp [claimable, hfree, hreserved]

theorem kinds_eq (hplain : PlainVendors mem)
    (hpool : TakesFree (reserveAll mem (ranges.flatMap window)) mem')
    (hmap : Describes map mem') {r : BadmemRange} (hr : r ∈ ranges) (hspan : PageSpan r)
    (hfit : r.start.toNat + r.len.toNat + 2 ^ 20 < 2 ^ 64) :
    (found map r == efiReservedMemoryType) = claimable (mem r.start) ∧
      (found map r == noDescriptor) = (mem r.start).isNone ∧
      decide (Flagged map r) = taken (mem r.start) := by
  have hfound := (found_eq hpool hmap hr hspan hfit).2
  rw [flagged_eq]
  cases hpage : mem r.start with
  | none =>
      rw [hpage] at hfound
      rw [hfound]
      decide
  | some t =>
      have hvendor (number : UInt32) (ht : t = .vendor number) :
          number ≠ 0 ∧ number ≠ noDescriptor :=
        hplain r.start number (hpage.trans (congrArg some ht))
      have hzero : t ≠ .vendor 0 := fun ht => (hvendor 0 ht).1 rfl
      have hnone : t ≠ .vendor noDescriptor := fun ht => (hvendor noDescriptor ht).2 rfl
      rw [hpage] at hfound
      cases hclaim : claimable (some t) with
      | true =>
          rw [hclaim, if_pos rfl] at hfound
          rw [hfound]
          simp [taken, hclaim, noDescriptor, efiReservedMemoryType]
      | false =>
          rw [hclaim, if_neg Bool.false_ne_true] at hfound
          have hreserved : t ≠ .reservedMemoryType := by
            rintro rfl
            cases hclaim
          have hcode : typeCode t ≠ efiReservedMemoryType :=
            fun h => hreserved ((typeCode_of_claimed hzero).mp h)
          have hshown : shownType (some t) = typeCode t := rfl
          rw [hfound, hshown]
          simp [taken, hclaim, hcode, typeCode_ne_noDescriptor hnone]

end

/-- With a firmware which answers, the figures after the masking tell what the first page of
every range was before: free or reserved pages are confirmed, whatever else is in the map is
called unsafe, and the first three of these are shown with their types. -/
theorem verified_after_masking {fw : Firmware MemoryMap} (hfw : ClaimsConventional fw)
    {ranges : List BadmemRange} (hne : ranges ≠ []) (hlength : ranges.length < 2 ^ 32)
    (hspan : ∀ r ∈ ranges, PageSpan r ∧ r.start.toNat + r.len.toNat + 2 ^ 20 < 2 ^ 64)
    {s : Session MemoryMap} (hplain : PlainVendors s.mem) {bs : MapServices} {b : Buffer}
    (hbs : Answers bs (maskPages fw ranges s).2.mem b) :
    ∃ f, verifyMaskInMemmap (bs.calls (maskPages fw ranges s).2.mem) ranges = .counted f ∧
      TellsBefore s.mem ranges f := by
  refine ⟨_, verifyMaskInMemmap_buffer hbs hne, ?_⟩
  have hcounted : Counted b.map ranges _ := counted_foldl ranges hlength
  have hpool : TakesFree (reserveAll s.mem (ranges.flatMap window))
      (bs.withBuffer (maskPages fw ranges s).2.mem) := by
    rw [← maskPages_mem hfw]
    exact hbs.takesFree
  have hkinds (r : BadmemRange) (hr : r ∈ ranges) :=
    kinds_eq hplain hpool hbs.describes hr (hspan r hr).1 (hspan r hr).2
  refine ⟨?_, ?_, ?_, ?_⟩
  · rw [hcounted.confirmed]
    exact List.countP_congr fun r hr => by rw [(hkinds r hr).1]
  · rw [hcounted.notInMap]
    exact List.countP_congr fun r hr => by rw [(hkinds r hr).2.1]
  · rw [hcounted.unsafeType]
    exact List.countP_congr fun r hr => by rw [(hkinds r hr).2.2]
  · rw [hcounted.warnings, List.filter_congr fun r hr => (hkinds r hr).2.2]
    apply List.map_congr_left
    intro r hr
    obtain ⟨hmem, htaken⟩ := List.mem_filter.mp (List.mem_of_mem_take hr)
    obtain ⟨hclear, hfound⟩ :=
      found_eq hpool hbs.describes hmem (hspan r hmem).1 (hspan r hmem).2
    have hclaim : claimable (s.mem r.start) = false := by
      rw [taken, Bool.and_eq_true, Bool.not_eq_true'] at htaken
      exact htaken.2
    rw [hclear, hfound, hclaim, if_neg Bool.false_ne_true]

/-- A free block, and one in use by the boot services. -/
def smallMap : MemoryMap := fun pa =>
  if pa < 0x400000 then some .conventionalMemory
  else if 0x600000 ≤ pa ∧ pa < 0x700000 then some .bootServicesData
  else none

def oneOfEach : List BadmemRange := [⟨0x200000, 0x1000⟩, ⟨0x600000, 0x1000⟩, ⟨0x800000, 0x1000⟩]

/-- A record with eight bytes behind the structure. -/
def longRecord (type start pages : ℕ) : {record : List UInt8 // record.length = 48} :=
  ⟨encode 4 type ++ encode 4 0 ++ encode 8 start ++ encode 8 0 ++ encode 8 pages ++ encode 16 0,
    by simp⟩

theorem lookupType_cons (md : EfiMemoryDescriptor) (map : List EfiMemoryDescriptor) (pa : UInt64) :
    lookupType (md :: map) pa = if md.hit pa then md.type else lookupType map pa := by
  unfold lookupType
  rw [List.find?_cons]
  cases md.hit pa with
  | true => rfl
  | false => rfl

theorem hit_eq (md : EfiMemoryDescriptor) (lo hi : UInt64) (hlo : md.physicalStart = lo)
    (hhi : md.physicalStart + md.numberOfPages * 4096 = hi) (pa : UInt64) :
    md.hit pa = decide (lo ≤ pa ∧ pa < hi) := by
  rw [EfiMemoryDescriptor.hit, hhi, hlo]

/-- The windows of the three ranges. -/
theorem mem_windows_oneOfEach {pa : UInt64} (haligned : 4096 ∣ pa.toNat) :
    pa ∈ oneOfEach.flatMap window ↔
      0x100000 ≤ pa ∧ pa < 0x301000 ∨ 0x500000 ≤ pa ∧ pa < 0x701000 ∨
        0x700000 ≤ pa ∧ pa < 0x901000 := by
  have hbounds : oneOfEach.map (fun r => (expStart r, expEnd r)) =
      [(0x100000, 0x301000), (0x500000, 0x701000), (0x700000, 0x901000)] := by decide +kernel
  simp only [oneOfEach, List.map_cons, List.map_nil, List.cons.injEq, Prod.mk.injEq] at hbounds
  simp [oneOfEach, mem_window, hbounds, haligned]

/-- Of the free pages those in the first window are reserved. -/
theorem reserveAll_smallMap {pa : UInt64} (haligned : 4096 ∣ pa.toNat) :
    reserveAll smallMap (oneOfEach.flatMap window) pa =
      if 0x100000 ≤ pa ∧ pa < 0x301000 then some .reservedMemoryType else smallMap pa := by
  have hwindows := mem_windows_oneOfEach haligned
  grind [reserveAll, smallMap]

/-- The page which the buffer is in comes out of the first free block. -/
def smallBuffer : Buffer where
  descSize := 48
  records := [longRecord 0 0x100000 0x201, longRecord 7 0 0x80, longRecord 2 0x80000 1,
    longRecord 7 0x81000 0x7F, longRecord 7 0x301000 0xFF, longRecord 4 0x600000 0x100]
  rest := [0xFF]
  descSize_pos := by decide
  fits := by decide

def takePage (pa : UInt64) (mem : MemoryMap) : MemoryMap :=
  if mem pa = some .conventionalMemory then Function.update mem pa (some .loaderData) else mem

theorem takesFree_takePage (pa : UInt64) (mem : MemoryMap) : TakesFree mem (takePage pa mem) := by
  intro p hp
  unfold takePage
  split_ifs with hfree
  · apply Function.update_of_ne
    rintro rfl
    exact hp hfree
  · rfl

def smallServices : MapServices where
  sizeQuery _ := (efiBufferTooSmall, 240, 48)
  allocatePool _ mem := (efiSuccess, takePage 0x80000 mem)
  getMemoryMap _ _ := (efiSuccess, 288, 48, smallBuffer.bytes)

theorem smallBuffer_describes :
    Describes smallBuffer.map
      (takePage 0x80000 (maskPages uefi oneOfEach (.start smallMap [] [])).2.mem) := by
  intro pa haligned
  have hmap : smallBuffer.map = [⟨0, 0x100000, 0x201⟩, ⟨7, 0, 0x80⟩, ⟨2, 0x80000, 1⟩,
    ⟨7, 0x81000, 0x7F⟩, ⟨7, 0x301000, 0xFF⟩, ⟨4, 0x600000, 0x100⟩] := by decide +kernel
  have hfree : reserveAll smallMap (oneOfEach.flatMap window) 0x80000 =
      some .conventionalMemory := by
    rw [reserveAll_smallMap (by decide)]
    rfl
  rw [maskPages_mem claimsConventional_uefi, hmap, Session.start, takePage, if_pos hfree]
  by_cases hbuffer : pa = 0x80000
  · rw [hbuffer, Function.update_self]
    decide
  have houtside : ¬(0x80000 ≤ pa ∧ pa < 0x81000) := by
    rw [UInt64.le_iff_toNat_le, UInt64.lt_iff_toNat_lt]
    rw [← UInt64.toNat_inj] at hbuffer
    simp only [UInt64.toNat_ofNat] at hbuffer ⊢
    omega
  rw [Function.update_of_ne hbuffer, reserveAll_smallMap haligned]
  simp only [lookupType_cons, decide_eq_true_iff,
    hit_eq ⟨0, 0x100000, 0x201⟩ 0x100000 0x301000 rfl rfl, hit_eq ⟨7, 0, 0x80⟩ 0 0x80000 rfl rfl,
    hit_eq ⟨2, 0x80000, 1⟩ 0x80000 0x81000 rfl rfl, if_neg houtside,
    hit_eq ⟨7, 0x81000, 0x7F⟩ 0x81000 0x100000 rfl rfl,
    hit_eq ⟨7, 0x301000, 0xFF⟩ 0x301000 0x400000 rfl rfl,
    hit_eq ⟨4, 0x600000, 0x100⟩ 0x600000 0x700000 rfl rfl]
  by_cases hreserved : 0x100000 ≤ pa ∧ pa < 0x301000
  · rw [if_pos hreserved, if_pos hreserved]
    rfl
  · rw [if_neg hreserved, if_neg hreserved, smallMap]
    clear hmap hfree hbuffer haligned
    have hnone : lookupType [] pa = noDescriptor := rfl
    grind [shownType, typeCode]

theorem smallServices_answers {mem : MemoryMap}
    (h : Describes smallBuffer.map (takePage 0x80000 mem)) :
    Answers smallServices mem smallBuffer where
  sizeQuery := ⟨240, 48, by decide, by decide, rfl⟩
  allocatePool := rfl
  takesFree := takesFree_takePage _ _
  getMemoryMap := rfl
  describes := h

theorem verified_after_masking_smallMap :
    ∃ f, verifyMaskInMemmap
        (smallServices.calls (maskPages uefi oneOfEach (.start smallMap [] [])).2.mem) oneOfEach =
          .counted f ∧
      TellsBefore smallMap oneOfEach f := by
  have hplain : PlainVendors (Session.start smallMap [] []).mem := by
    intro pa number hvendor
    simp only [Session.start, smallMap] at hvendor
    split_ifs at hvendor
    · cases hvendor
    · cases hvendor
  have hspan : ∀ r ∈ oneOfEach, PageSpan r ∧ r.start.toNat + r.len.toNat + 2 ^ 20 < 2 ^ 64 := by
    simp only [oneOfEach, List.forall_mem_cons, List.not_mem_nil, false_imp_iff, implies_true,
      and_true]
    exact ⟨⟨⟨by decide, by decide, by decide⟩, by decide⟩,
      ⟨⟨by decide, by decide, by decide⟩, by decide⟩,
      ⟨⟨by decide, by decide, by decide⟩, by decide⟩⟩
  exact verified_after_masking claimsConventional_uefi (by decide) (by decide) hspan hplain
    (smallServices_answers smallBuffer_describes)

/-- One page is confirmed, one is shown as unsafe and one is not in the map. -/
example : verifyMaskInMemmap
    (smallServices.calls (maskPages uefi oneOfEach (.start smallMap [] [])).2.mem) oneOfEach =
      .counted ⟨1, 1, 1, [(0x600000, 4)]⟩ := by decide +kernel

end BankFinder.VerifyMask
