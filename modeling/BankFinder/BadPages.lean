import BankFinder.BootSession

/-!
# The saved list of bad pages

`brr-entry` stores the typed addresses in `BrrBadPages`; `mask-shim` reads them
back, rounds each one down to its page and appends the pages which no range of
the array covers yet. The coverage test adds start and length with 64-bit
wrapping, so a range which reaches the end of the address space covers nothing.
-/

namespace BankFinder.BadPages
open LittleEndian Nvram BootSession

def brrVarnameBadpages : String := "BrrBadPages"
def legacyVarnameBadpages : String := "A1990BadPages"

/-- The size of the static buffers of writer and reader. -/
def badpagesBlobMax : ℕ := 8 + 4096 * 8

def badpagesHeader (n : UInt32) : List UInt8 :=
  [1, 0, 0, 0, (n &&& 0xff).toUInt8, ((n >>> 8) &&& 0xff).toUInt8,
    ((n >>> 16) &&& 0xff).toUInt8, ((n >>> 24) &&& 0xff).toUInt8]

def badpagesBlob (pas : List UInt64) : List UInt8 :=
  let n := if pas.length > 4096 then 4096 else pas.length
  badpagesHeader (UInt32.ofNat n) ++ (pas.take n).flatMap fun pa => encode 8 pa.toNat

def writeBadPages {σ : Type} (fw : Firmware σ) (pas : List UInt64) (s : Session σ) :
    EfiStatus × Session σ :=
  setVariable fw .brr brrVarnameBadpages (badpagesBlob pas) s

def u32At (blob : List UInt8) (off : ℕ) : UInt32 :=
  UInt32.ofNat (decode ((blob.drop off).take 4))

/-- The `count` addresses behind the header. -/
def paArray (blob : List UInt8) (count : ℕ) : List UInt64 :=
  (chunks 8 count (blob.drop 8)).map fun bytes => UInt64.ofNat (decode bytes)

/-- The addresses of a blob, or the complaint with which it is ignored. -/
def parseBadpages (blob : List UInt8) : Except String (List UInt64) :=
  if blob.length < 8 then .error "[mask] BrrBadPages: blob too small, ignoring"
  else if u32At blob 0 ≠ 1 then .error "[mask] BrrBadPages: unknown version, ignoring"
  else
    let count := u32At blob 4
    let expected := 8 + count.toNat * 8
    if blob.length < expected ∨ count > 4096 then
      .error "[mask] BrrBadPages: inconsistent blob, ignoring"
    else .ok (paArray blob count.toNat)

/-- `page_pa >= start && page_pa < start + len` -/
def covers (page : UInt64) (r : BadmemRange) : Bool :=
  page ≥ r.start && page < r.start + r.len

/-- The array after merging; the loop breaks off when the array is full. -/
def mergeBadPages (cap : ℕ) : List UInt64 → List BadmemRange → List BadmemRange
  | [], ranges => ranges
  | pa :: pas, ranges =>
      let page := pageAlign pa
      if ranges.any (covers page) then mergeBadPages cap pas ranges
      else if ranges.length ≥ cap then ranges
      else mergeBadPages cap pas (ranges ++ [⟨page, 4096⟩])

/-- The blob under the current name, else under the legacy name. -/
def readBadpagesVariable (store : Store) : Option (List UInt8) :=
  let r := getVariable store .brr brrVarnameBadpages badpagesBlobMax
  if r.1 = efiSuccess then some r.2 else
    let l := getVariable store .brr legacyVarnameBadpages badpagesBlobMax
    if l.1 = efiSuccess then some l.2 else none

/-- `ranges[]` after `read_nvram_badpages`; the number it returns is what was appended. -/
def readNvramBadpages (store : Store) (ranges : List BadmemRange) (cap : ℕ) :
    List BadmemRange :=
  match readBadpagesVariable store with
  | none => ranges
  | some blob =>
      match parseBadpages blob with
      | .error _ => ranges
      | .ok pas => mergeBadPages cap pas ranges

theorem length_badpagesBlob {pas : List UInt64} (h : pas.length ≤ 4096) :
    (badpagesBlob pas).length = 8 + pas.length * 8 := by
  simp only [badpagesBlob, if_neg (Nat.not_lt.mpr h), List.take_length]
  rw [List.length_append, List.length_flatMap]
  simp [badpagesHeader]

private theorem low_byte (n : UInt32) : ((n &&& 0xff).toUInt8).toNat = n.toNat % 256 := by
  rw [UInt32.toNat_toUInt8, UInt32.toNat_and]
  change (n.toNat &&& (2 ^ 8 - 1)) % 2 ^ 8 = _
  rw [Nat.and_two_pow_sub_one_eq_mod]
  omega

private theorem shifted_byte (n k : UInt32) (hk : k.toNat < 32) :
    (((n >>> k) &&& 0xff).toUInt8).toNat = n.toNat / 2 ^ k.toNat % 256 := by
  rw [low_byte, UInt32.toNat_shiftRight, Nat.mod_eq_of_lt hk, Nat.shiftRight_eq_div_pow]

/-- The four count bytes written one by one are the little-endian count. -/
theorem decode_count (n : UInt32) : decode ((badpagesHeader n).drop 4) = n.toNat := by
  have h := n.toNat_lt
  have h₁ := shifted_byte n 8 (by decide)
  have h₂ := shifted_byte n 16 (by decide)
  have h₃ := shifted_byte n 24 (by decide)
  simp only [badpagesHeader, List.drop_succ_cons, List.drop_zero, decode, low_byte, h₁, h₂, h₃]
  change n.toNat % 256 + 256 * (n.toNat / 2 ^ 8 % 256 + 256 * (n.toNat / 2 ^ 16 % 256 +
    256 * (n.toNat / 2 ^ 24 % 256 + 256 * 0))) = n.toNat
  omega

theorem parseBadpages_blob {pas : List UInt64} (h : pas.length ≤ 4096) :
    parseBadpages (badpagesBlob pas) = .ok pas := by
  have hlen := length_badpagesBlob h
  have hblob : badpagesBlob pas = badpagesHeader (UInt32.ofNat pas.length) ++
      pas.flatMap fun pa => encode 8 pa.toNat := by
    simp only [badpagesBlob, if_neg (Nat.not_lt.mpr h), List.take_length]
  have hcountNat : (UInt32.ofNat pas.length).toNat = pas.length := by
    rw [UInt32.toNat_ofNat']
    exact Nat.mod_eq_of_lt (by omega)
  have hversion : u32At (badpagesBlob pas) 0 = 1 := by
    rw [hblob]
    rfl
  have hcount : u32At (badpagesBlob pas) 4 = UInt32.ofNat pas.length := by
    have hbytes : ((badpagesBlob pas).drop 4).take 4 =
        (badpagesHeader (UInt32.ofNat pas.length)).drop 4 := by
      rw [hblob]
      rfl
    rw [u32At, hbytes, decode_count, hcountNat]
  have harray : paArray (badpagesBlob pas) pas.length = pas := by
    have hdrop : (badpagesBlob pas).drop 8 = (pas.flatMap fun pa => encode 8 pa.toNat) ++ [] := by
      rw [hblob, List.append_nil]
      rfl
    rw [paArray, hdrop, chunks_flatMap 8 (fun pa : UInt64 => encode 8 pa.toNat)
      (fun pa => length_encode 8 pa.toNat), List.map_map]
    conv_rhs => rw [← List.map_id pas]
    apply List.map_congr_left
    intro pa _
    have hpa : pa.toNat < 256 ^ 8 := pa.toNat_lt
    simp [decode_encode_of_lt hpa]
  have hfull : ¬UInt32.ofNat pas.length > 4096 := by
    rw [gt_iff_lt, UInt32.lt_iff_toNat_lt, hcountNat]
    change ¬4096 < pas.length
    omega
  simp only [parseBadpages, hversion, hcount, hcountNat, hlen, harray]
  rw [if_neg (by omega), if_neg (by simp), if_neg]
  intro hbad
  rcases hbad with hshort | hlarge
  · exact absurd hshort (by omega)
  · exact hfull hlarge

/-- A blob of version 1 which holds all it announces and fits in the reader's buffer. -/
structure WellFormedBadpages (blob : List UInt8) : Prop where
  version : u32At blob 0 = 1
  count_le : (u32At blob 4).toNat ≤ 4096
  size : 8 + (u32At blob 4).toNat * 8 ≤ blob.length
  fits : blob.length ≤ badpagesBlobMax

/-- The addresses in a blob, as many as it announces. -/
def listedAddresses (blob : List UInt8) : List UInt64 := paArray blob (u32At blob 4).toNat

theorem parseBadpages_wellFormed {blob : List UInt8} (h : WellFormedBadpages blob) :
    parseBadpages blob = .ok (listedAddresses blob) := by
  obtain ⟨hversion, hcount, hsize, -⟩ := h
  have hfull : ¬u32At blob 4 > 4096 := by
    rw [gt_iff_lt, UInt32.lt_iff_toNat_lt]
    exact Nat.not_lt.mpr hcount
  have hok : ¬(blob.length < 8 + (u32At blob 4).toNat * 8 ∨ u32At blob 4 > 4096) := by
    rw [not_or]
    exact ⟨Nat.not_lt.mpr hsize, hfull⟩
  unfold parseBadpages
  rw [if_neg (by omega), if_neg (by simp [hversion]), if_neg hok]
  rfl

theorem readNvramBadpages_wellFormed {store : Store} {blob : List UInt8}
    (hget : store.get? .brr brrVarnameBadpages = some blob) (h : WellFormedBadpages blob)
    (ranges : List BadmemRange) (cap : ℕ) :
    readNvramBadpages store ranges cap = mergeBadPages cap (listedAddresses blob) ranges := by
  have hread := getVariable_fits hget h.fits
  unfold readNvramBadpages readBadpagesVariable
  simp only [hread, if_true, parseBadpages_wellFormed h]

/-- The page lies inside the range, over the integers. -/
def Inside (page : UInt64) (r : BadmemRange) : Prop :=
  r.start.toNat ≤ page.toNat ∧ page.toNat + 4096 ≤ r.start.toNat + r.len.toNat

/-- Start and length are multiples of the page size. -/
def PageSized (r : BadmemRange) : Prop := 4096 ∣ r.start.toNat ∧ 4096 ∣ r.len.toNat

def pageRange (page : UInt64) : BadmemRange := ⟨page, 4096⟩

theorem pageSized_pageRange (pa : UInt64) : PageSized (pageRange (pageAlign pa)) :=
  ⟨pageAlign_aligned pa, Nat.dvd_refl 4096⟩

theorem inside_pageRange (page : UInt64) : Inside page (pageRange page) :=
  ⟨le_rfl, le_rfl⟩

theorem covers_iff (page : UInt64) (r : BadmemRange) :
    covers page r = true ↔ r.start ≤ page ∧ page < r.start + r.len := by
  unfold covers
  rw [Bool.and_eq_true, decide_eq_true_eq, decide_eq_true_eq]

/-- A wrapped end lies below the start, so the wrapping test never claims too much. -/
theorem inside_of_covers {page : UInt64} {r : BadmemRange} (hpage : 4096 ∣ page.toNat)
    (hr : PageSized r) (h : covers page r = true) : Inside page r := by
  obtain ⟨hlo, hhi⟩ := (covers_iff page r).mp h
  rw [UInt64.le_iff_toNat_le] at hlo
  rw [UInt64.lt_iff_toNat_lt, UInt64.toNat_add] at hhi
  obtain ⟨hs, hl⟩ := hr
  have hstart := r.start.toNat_lt
  have hlen := r.len.toNat_lt
  exact ⟨hlo, by omega⟩

/-- Below the last page of the address space a one-page range covers its page alone. -/
theorem covers_pageRange {page page' : UInt64} (h : 4096 ∣ page.toNat) (h' : 4096 ∣ page'.toNat)
    (hlast : page'.toNat + 4096 < 2 ^ 64) :
    covers page (pageRange page') = true ↔ page = page' := by
  have hsize : (4096 : UInt64).toNat = 4096 := rfl
  rw [covers_iff, UInt64.le_iff_toNat_le, UInt64.lt_iff_toNat_lt, ← UInt64.toNat_inj]
  simp only [pageRange]
  rw [UInt64.toNat_add, hsize, Nat.mod_eq_of_lt hlast]
  omega

section
variable {cap : ℕ}

theorem mergeBadPages_cons (pa : UInt64) (pas : List UInt64) (ranges : List BadmemRange) :
    mergeBadPages cap (pa :: pas) ranges =
      if ranges.any (covers (pageAlign pa)) then mergeBadPages cap pas ranges
      else if ranges.length ≥ cap then ranges
      else mergeBadPages cap pas (ranges ++ [pageRange (pageAlign pa)]) := rfl

theorem mergeBadPages_append (cap : ℕ) (pas : List UInt64) (ranges : List BadmemRange) :
    ∃ added, mergeBadPages cap pas ranges = ranges ++ added ∧
      (added = [] ∨ (ranges ++ added).length ≤ cap) ∧
      ∀ r ∈ added, ∃ pa ∈ pas, r = pageRange (pageAlign pa) := by
  induction pas generalizing ranges with
  | nil => exact ⟨[], by simp [mergeBadPages]⟩
  | cons pa pas ih =>
      rw [mergeBadPages_cons]
      split_ifs with hdup hfull
      · obtain ⟨added, heq, hcap, hpages⟩ := ih ranges
        refine ⟨added, heq, hcap, ?_⟩
        intro r hr
        obtain ⟨pa', hpa', h⟩ := hpages r hr
        exact ⟨pa', List.mem_cons_of_mem _ hpa', h⟩
      · exact ⟨[], by simp⟩
      · obtain ⟨added, heq, hcap, hpages⟩ := ih (ranges ++ [pageRange (pageAlign pa)])
        refine ⟨pageRange (pageAlign pa) :: added, ?_, Or.inr ?_, ?_⟩
        · simpa using heq
        · rcases hcap with rfl | hcap
          · simp only [List.length_append, List.length_cons, List.length_nil]
            omega
          · simpa using hcap
        · intro r hr
          rcases List.mem_cons.mp hr with rfl | hr
          · exact ⟨pa, List.mem_cons_self, rfl⟩
          · obtain ⟨pa', hpa', h⟩ := hpages r hr
            exact ⟨pa', List.mem_cons_of_mem _ hpa', h⟩

theorem mem_mergeBadPages (pas : List UInt64) {ranges : List BadmemRange} {r : BadmemRange}
    (h : r ∈ ranges) : r ∈ mergeBadPages cap pas ranges := by
  obtain ⟨added, heq, -⟩ := mergeBadPages_append cap pas ranges
  rw [heq]
  exact List.mem_append_left _ h

/-- Unless the array is full in the end, every listed page is inside some range of it. -/
theorem mergeBadPages_inside (pas : List UInt64) (ranges : List BadmemRange)
    (hranges : ∀ r ∈ ranges, PageSized r) (hroom : (mergeBadPages cap pas ranges).length < cap) :
    ∀ pa ∈ pas, ∃ r ∈ mergeBadPages cap pas ranges, Inside (pageAlign pa) r := by
  induction pas generalizing ranges with
  | nil => simp
  | cons pa pas ih =>
      rw [mergeBadPages_cons] at hroom ⊢
      intro pa' hpa'
      split_ifs at hroom ⊢ with hdup hfull
      · rcases List.mem_cons.mp hpa' with rfl | hpa'
        · obtain ⟨r, hr, hcov⟩ := List.any_eq_true.mp hdup
          exact ⟨r, mem_mergeBadPages pas hr,
            inside_of_covers (pageAlign_aligned pa') (hranges r hr) hcov⟩
        · exact ih ranges hranges hroom pa' hpa'
      · exact absurd hfull (by omega)
      · rcases List.mem_cons.mp hpa' with rfl | hpa'
        · exact ⟨pageRange (pageAlign pa'), mem_mergeBadPages pas (by simp),
            inside_pageRange _⟩
        · apply ih _ _ hroom pa' hpa'
          intro r hr
          rcases List.mem_append.mp hr with hr | hr
          · exact hranges r hr
          · rw [List.mem_singleton.mp hr]
            exact pageSized_pageRange pa

theorem any_covers_pageRange {seen : List UInt64} {page : UInt64} (hpage : 4096 ∣ page.toNat)
    (hseen : ∀ p ∈ seen, 4096 ∣ p.toNat ∧ p.toNat + 4096 < 2 ^ 64) :
    (seen.map pageRange).any (covers page) = seen.contains page := by
  rw [Bool.eq_iff_iff, List.any_eq_true, List.contains_iff_mem]
  constructor
  · intro h
    obtain ⟨r, hr, hcov⟩ := h
    obtain ⟨p, hp, rfl⟩ := List.mem_map.mp hr
    obtain ⟨hal, hlast⟩ := hseen p hp
    rw [(covers_pageRange hpage hal hlast).mp hcov]
    exact hp
  · intro h
    obtain ⟨hal, hlast⟩ := hseen page h
    exact ⟨pageRange page, List.mem_map_of_mem h, (covers_pageRange hpage hal hlast).mpr rfl⟩

/-- On top of one-page ranges the merge appends the pages not seen before, each once. -/
theorem mergeBadPages_distinct (cap : ℕ) (pas seen : List UInt64)
    (hpas : ∀ pa ∈ pas, pa.toNat + 4096 < 2 ^ 64)
    (hseen : ∀ p ∈ seen, 4096 ∣ p.toNat ∧ p.toNat + 4096 < 2 ^ 64)
    (hroom : seen.length + pas.length ≤ cap) :
    mergeBadPages cap pas (seen.map pageRange) =
      (seen ++ ((pas.map pageAlign).filter fun p => !seen.contains p).eraseDups).map
        pageRange := by
  induction pas generalizing seen with
  | nil => simp [mergeBadPages]
  | cons pa pas ih =>
      have hpa : (pageAlign pa).toNat + 4096 < 2 ^ 64 := by
        rw [pageAlign_toNat]
        have := hpas pa List.mem_cons_self
        omega
      have hrest : ∀ pa' ∈ pas, pa'.toNat + 4096 < 2 ^ 64 :=
        fun pa' h => hpas pa' (List.mem_cons_of_mem _ h)
      rw [List.length_cons] at hroom
      rw [mergeBadPages_cons]
      simp only [any_covers_pageRange (pageAlign_aligned pa) hseen, List.length_map]
      by_cases hdup : seen.contains (pageAlign pa) = true
      · rw [if_pos hdup, ih seen hrest hseen (by omega), List.map_cons,
          List.filter_cons_of_neg (by rw [hdup]; decide)]
      · rw [if_neg hdup, if_neg (by omega)]
        have hstep : seen.map pageRange ++ [pageRange (pageAlign pa)] =
            (seen ++ [pageAlign pa]).map pageRange := by simp
        rw [hstep, ih _ hrest _ (by simp only [List.length_append, List.length_singleton]; omega)]
        · rw [List.map_cons, List.filter_cons_of_pos (by simpa using hdup), List.eraseDups_cons,
            List.filter_filter, List.append_assoc, List.singleton_append]
          congr 4
          apply List.filter_congr
          intro p _
          simp [Bool.and_comm, Bool.not_or, beq_eq_decide]
        · intro p hp
          rcases List.mem_append.mp hp with hp | hp
          · exact hseen p hp
          · rw [List.mem_singleton.mp hp]
            exact ⟨pageAlign_aligned pa, hpa⟩

end

section
variable {σ : Type}

/-- Reading back what was just written merges exactly the written list. -/
theorem readNvramBadpages_written (fw : Firmware σ) (s : Session σ) {pas : List UInt64}
    (hlen : pas.length ≤ 4096)
    (haccept : fw.refuseSet .brr brrVarnameBadpages (badpagesBlob pas) = none)
    (ranges : List BadmemRange) (cap : ℕ) :
    readNvramBadpages (writeBadPages fw pas s).2.nvram ranges cap =
      mergeBadPages cap pas ranges := by
  have hblob := length_badpagesBlob hlen
  have hne : badpagesBlob pas ≠ [] := by
    intro h
    rw [h, List.length_nil] at hblob
    omega
  have hfits : (badpagesBlob pas).length ≤ badpagesBlobMax := by
    rw [hblob, badpagesBlobMax]
    omega
  have hget := getVariable_fits (setVariable_accepted s hne haccept) hfits
  unfold readNvramBadpages readBadpagesVariable writeBadPages
  simp only [hget, if_true, parseBadpages_blob hlen]

/-- The addresses written by `brr-entry` come back as ranges of the array. -/
theorem badpages_roundtrip (fw : Firmware σ) (s : Session σ) (pas : List UInt64)
    (hlen : pas.length ≤ 4096)
    (haccept : fw.refuseSet .brr brrVarnameBadpages (badpagesBlob pas) = none)
    (existing : List BadmemRange) (hexisting : ∀ r ∈ existing, PageSized r) (cap : ℕ) :
    ∃ added, readNvramBadpages (writeBadPages fw pas s).2.nvram existing cap =
        existing ++ added ∧
      (added = [] ∨ (existing ++ added).length ≤ cap) ∧
      (∀ r ∈ added, r.len = 4096 ∧ ∃ pa ∈ pas, r.start = pageAlign pa) ∧
      ((existing ++ added).length < cap →
        ∀ pa ∈ pas, ∃ r ∈ existing ++ added, Inside (pageAlign pa) r) ∧
      (existing = [] → (∀ pa ∈ pas, pa.toNat < 2 ^ 64 - 4096) → pas.length ≤ cap →
        added = (pas.map pageAlign).eraseDups.map fun page => ⟨page, 4096⟩) := by
  have hread := readNvramBadpages_written fw s hlen haccept existing cap
  obtain ⟨added, heq, hcap, hpages⟩ := mergeBadPages_append cap pas existing
  refine ⟨added, hread.trans heq, hcap, ?_, ?_, ?_⟩
  · intro r hr
    obtain ⟨pa, hpa, rfl⟩ := hpages r hr
    exact ⟨rfl, pa, hpa, rfl⟩
  · intro hroom
    rw [← heq] at hroom ⊢
    exact mergeBadPages_inside pas existing hexisting hroom
  · intro hempty hlast hroom
    subst hempty
    have hdistinct := mergeBadPages_distinct cap pas []
      (fun pa hpa => by have := hlast pa hpa; omega) (by simp) (by simpa using hroom)
    rw [List.map_nil, heq, List.nil_append, List.nil_append] at hdistinct
    have hall : ((pas.map pageAlign).filter fun p => !([] : List UInt64).contains p) =
        pas.map pageAlign := by simp
    rw [hall] at hdistinct
    exact hdistinct

end

/-- A page typed twice, one which is in the range of the file, and one more. -/
def typedPages : List UInt64 := [0x12345678, 0x12345000, 0x2010, 0x4fff]

theorem badpages_roundtrip_typedPages :
    ∃ added, readNvramBadpages (writeBadPages uefi typedPages (.start (fun _ => none) [] [])).2.nvram
        [⟨0x1000, 0x2000⟩] 4096 = ⟨0x1000, 0x2000⟩ :: added ∧
      ∀ pa ∈ typedPages, ∃ r ∈ ⟨0x1000, 0x2000⟩ :: added, Inside (pageAlign pa) r := by
  have hrange : PageSized ⟨0x1000, 0x2000⟩ := by
    unfold PageSized
    decide
  have hranges : ∀ r ∈ [(⟨0x1000, 0x2000⟩ : BadmemRange)], PageSized r := by
    intro r hr
    rw [List.mem_singleton.mp hr]
    exact hrange
  obtain ⟨added, heq, -, -, hinside, -⟩ := badpages_roundtrip uefi
    (.start (fun _ => none) [] []) typedPages (by decide) rfl [⟨0x1000, 0x2000⟩] hranges 4096
  have hlen : typedPages.length ≤ 4096 := by decide
  have hread := readNvramBadpages_written uefi (.start (fun _ => none) [] []) hlen rfl
    [⟨0x1000, 0x2000⟩] 4096
  have hmerged : mergeBadPages 4096 typedPages [⟨0x1000, 0x2000⟩] =
      [⟨0x1000, 0x2000⟩, ⟨0x12345000, 4096⟩, ⟨0x4000, 4096⟩] := by decide +kernel
  refine ⟨added, heq, hinside ?_⟩
  rw [← heq, hread, hmerged]
  decide

end BankFinder.BadPages
