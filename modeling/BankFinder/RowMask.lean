import BankFinder.BadPages
import BankFinder.RowEnumeration

/-!
# Row masking

`BrrBadRows` holds the rows which memtest decoded. `mask_rows` enumerates the
pages of each row, at most 2048 of them, and asks the firmware for every one.
-/

namespace BankFinder.RowMask
open LittleEndian Nvram BootSession CflSkl ShimDecoder BadmemLog BadPages RowEnumeration

def varnameBadrows : String := "BrrBadRows"
def legacyVarnameBadrows : String := "A1990BadRows"

/-- The size of the static buffer of the reader. -/
def badrowsBlobMax : ℕ := 8 + badmemMaxRows * 8

/-- The fields of an eight-byte tuple. -/
def rowOfBytes (bytes : List UInt8) : BadmemRow where
  channel := bytes.getD 0 0
  rank := bytes.getD 1 0
  bankGroup := bytes.getD 2 0
  bank := bytes.getD 3 0
  row := u32At bytes 4

def badmemParseRowsBlob (blob : List UInt8) (outMax : ℕ) : List BadmemRow :=
  if blob.length < 8 ∨ outMax = 0 then []
  else if u32At blob 0 ≠ 1 then []
  else if u32At blob 4 = 0 then []
  else
    let count := min (u32At blob 4).toNat badmemMaxRows
    if blob.length < 8 + count * 8 then []
    else (chunks 8 (min count outMax) (blob.drop 8)).map rowOfBytes

/-- The blob under the first name which can be read. -/
def readBadrowsVariable (store : Store) : Option (List UInt8) :=
  let r := getVariable store .brr varnameBadrows badrowsBlobMax
  if r.1 = efiSuccess then some r.2 else
    let a := getVariable store .apple varnameBadrows badrowsBlobMax
    if a.1 = efiSuccess then some a.2 else
      let l := getVariable store .brr legacyVarnameBadrows badrowsBlobMax
      if l.1 = efiSuccess then some l.2 else none

def readNvramBadrows (store : Store) (cap : ℕ) : List BadmemRow :=
  match readBadrowsVariable store with
  | none => []
  | some blob => badmemParseRowsBlob blob cap

def rowEnumCap : ℕ := 2048

/-- The arguments with which a row is enumerated. -/
def rowTuple (r : BadmemRow) : BadRow := ⟨r.channel, r.rank, r.bankGroup, r.bank, r.row⟩

section
variable {σ : Type}

def maskRow (fw : Firmware σ) (mc : ShimMc) (s : Session σ) (r : BadmemRow) : Session σ :=
  (shimCflEnumerateRow mc (rowTuple r) rowEnumCap).foldl
    (fun s pa => (allocatePages fw pa s).2) s

def maskRows (fw : Firmware σ) (host : ShimHost) (rows : List BadmemRow) (s : Session σ) :
    EfiStatus × Session σ :=
  let s := s.log (.maskRows rows)
  if rows.isEmpty then (efiSuccess, s)
  else
    let mc := shimCflInit host
    if !mc.valid then (efiUnsupported, s)
    else if shimCflTotalMemory mc = 0 then (efiUnsupported, s)
    else (efiSuccess, rows.foldl (maskRow fw mc) s)

/-- The pages of all rows, in the order in which they are asked for. -/
def rowPages (mc : ShimMc) (rows : List BadmemRow) : List UInt64 :=
  rows.flatMap fun r => shimCflEnumerateRow mc (rowTuple r) rowEnumCap

theorem foldl_allocatePages_attempts (fw : Firmware σ) (pas : List UInt64) (s : Session σ) :
    attempts (pas.foldl (fun s pa => (allocatePages fw pa s).2) s).trace =
      attempts s.trace ++ pas := by
  induction pas generalizing s with
  | nil => simp
  | cons pa pas ih =>
      rw [List.foldl_cons, ih, allocatePages_trace]
      simp

theorem foldl_maskRow_attempts (fw : Firmware σ) (mc : ShimMc) (rows : List BadmemRow)
    (s : Session σ) : attempts (rows.foldl (maskRow fw mc) s).trace =
      attempts s.trace ++ rowPages mc rows := by
  induction rows generalizing s with
  | nil => simp [rowPages]
  | cons r rows ih =>
      rw [List.foldl_cons, ih, maskRow, foldl_allocatePages_attempts, List.append_assoc]
      rfl

theorem enumerateRow_of_no_memory {mc : ShimMc}
    (h : mc.valid = false ∨ shimCflTotalMemory mc = 0) (t : BadRow) (cap : ℕ) :
    shimCflEnumerateRow mc t cap = [] := by
  unfold shimCflEnumerateRow
  rcases h with h | h
  · simp [h]
  · simp [h]

theorem rowPages_of_no_memory {mc : ShimMc}
    (h : mc.valid = false ∨ shimCflTotalMemory mc = 0) (rows : List BadmemRow) :
    rowPages mc rows = [] := by
  unfold rowPages
  simp only [enumerateRow_of_no_memory h, List.flatMap_eq_nil_iff, implies_true]

/-- Row mode asks for exactly the enumerated pages, whatever the firmware answers. -/
theorem maskRows_attempts (fw : Firmware σ) (host : ShimHost) (rows : List BadmemRow)
    (s : Session σ) : attempts (maskRows fw host rows s).2.trace =
      attempts s.trace ++ rowPages (shimCflInit host) rows := by
  unfold maskRows
  simp only
  split_ifs with hempty hinvalid htotal
  · rw [List.isEmpty_iff.mp hempty]
    simp [rowPages]
  · rw [rowPages_of_no_memory (Or.inl (by simpa using hinvalid))]
    simp
  · rw [rowPages_of_no_memory (Or.inr htotal)]
    simp
  · rw [foldl_maskRow_attempts, Session.log_trace, attempts_append, attempts_maskRows,
      List.append_nil]

/-- A page is asked for only when its base decodes to one of the rows. -/
theorem rowMatches_of_mem_rowPages {mc : ShimMc} {rows : List BadmemRow} {pa : UInt64}
    (h : pa ∈ rowPages mc rows) : ∃ r ∈ rows, rowMatches mc (rowTuple r) pa = true := by
  obtain ⟨r, hr, hpa⟩ := List.mem_flatMap.mp h
  refine ⟨r, hr, ?_⟩
  unfold shimCflEnumerateRow at hpa
  simp only at hpa
  split_ifs at hpa
  · exact absurd hpa List.not_mem_nil
  · exact absurd hpa List.not_mem_nil
  · rw [enumerateFrom_eq, List.nil_append] at hpa
    exact (List.mem_filter.mp (List.mem_of_mem_take hpa)).2

theorem onlyAllocates_maskRow (fw : Firmware σ) (mc : ShimMc) (s : Session σ) (r : BadmemRow) :
    OnlyAllocates s (maskRow fw mc s r) :=
  OnlyAllocates.foldl id (fun s pa => onlyAllocates_allocatePages fw pa s) _ s

theorem onlyAllocates_maskRows (fw : Firmware σ) (host : ShimHost) (rows : List BadmemRow)
    (s : Session σ) : OnlyAllocates (s.log (.maskRows rows)) (maskRows fw host rows s).2 := by
  have hnone := OnlyAllocates.refl (s.log (.maskRows rows))
  unfold maskRows
  simp only
  split_ifs
  · exact hnone
  · exact hnone
  · exact hnone
  · exact OnlyAllocates.foldl id (onlyAllocates_maskRow fw (shimCflInit host)) rows _

end

end BankFinder.RowMask
