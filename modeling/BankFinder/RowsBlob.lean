import BankFinder.FixedBuffer
import BankFinder.RowMask

/-!
# The blob of bad rows

`badmem_parse_rows_blob` reads a version, a count and tuples of eight bytes from data which nobody
has checked. Three limits apply: the count of the header up to 256, the size of the blob, and the
room in the array of the caller.
-/

namespace BankFinder.RowsBlob
open BoundedCursor FixedBuffer LittleEndian BootSession BadPages
open RowMask (rowOfBytes)

/-- `*(const uint32_t *)(blob + p)` -/
def derefU32 (blob : List UInt8) (p : ℕ) : Except OutOfBounds UInt32 := do
  let b₀ ← deref blob p
  let b₁ ← deref blob (p + 1)
  let b₂ ← deref blob (p + 2)
  let b₃ ← deref blob (p + 3)
  return UInt32.ofNat (decode [b₀, b₁, b₂, b₃])

/-- The fields of `tuples[i]`, behind the header. -/
def readTuple (blob : List UInt8) (i : ℕ) : Except OutOfBounds BadmemRow := do
  let ch ← deref blob (8 + 8 * i)
  let rank ← deref blob (8 + 8 * i + 1)
  let bg ← deref blob (8 + 8 * i + 2)
  let bank ← deref blob (8 + 8 * i + 3)
  let row ← derefU32 blob (8 + 8 * i + 4)
  return ⟨ch, rank, bg, bank, row⟩

/-- `for (unsigned i = 0; i < n; i++) out[i] = tuples[i];` -/
def copyTuples (blob : List UInt8) : ℕ → ℕ → List BadmemRow → Except OutOfBounds (List BadmemRow)
  | 0, _, out => .ok out
  | left + 1, i, out => do
      let r ← readTuple blob i
      let out ← put out i r
      copyTuples blob left (i + 1) out

/-- `badmem_parse_rows_blob` on the bytes `0` to `blob_sz` and the array `out`: the count which it
returns, and the array it leaves. -/
def badmemParseRowsBlob (blob : List UInt8) (out : List BadmemRow) :
    Except OutOfBounds (ℕ × List BadmemRow) := do
  if blob.length < 8 ∨ out.length = 0 then return (0, out)
  let version ← derefU32 blob 0
  if version ≠ 1 then return (0, out)
  let count ← derefU32 blob 4
  if count = 0 then return (0, out)
  let count := min count.toNat badmemMaxRows
  if blob.length < 8 + count * 8 then return (0, out)
  let n := min count out.length
  let out ← copyTuples blob n 0 out
  return (n, out)

/-- The fields at the offsets of tuple `i`. -/
def tupleAt (blob : List UInt8) (i : ℕ) : BadmemRow where
  channel := blob.getD (8 + 8 * i) 0
  rank := blob.getD (8 + 8 * i + 1) 0
  bankGroup := blob.getD (8 + 8 * i + 2) 0
  bank := blob.getD (8 + 8 * i + 3) 0
  row := u32At blob (8 + 8 * i + 4)

theorem derefU32_ok {blob : List UInt8} {p : ℕ} (h : p + 4 ≤ blob.length) :
    derefU32 blob p = .ok (u32At blob p) := by
  unfold derefU32 u32At
  rw [deref_getD (by omega) 0, deref_getD (by omega) 0, deref_getD (by omega) 0,
    deref_getD (by omega) 0, decode_four h]
  rfl

theorem readTuple_ok {blob : List UInt8} {i : ℕ} (h : 8 + 8 * i + 8 ≤ blob.length) :
    readTuple blob i = .ok (tupleAt blob i) := by
  unfold readTuple
  rw [deref_getD (by omega) 0, deref_getD (by omega) 0, deref_getD (by omega) 0,
    deref_getD (by omega) 0, derefU32_ok (by omega)]
  rfl

/-- With the tuples in the blob and room in the array, the loop stays in both. -/
theorem copyTuples_ok {blob : List UInt8} (left : ℕ) {i size : ℕ} {rows out : List BadmemRow}
    (hout : Begins size rows out) (hi : rows.length = i) (hroom : i + left ≤ size)
    (hblob : 8 + 8 * (i + left) ≤ blob.length) :
    ∃ out', copyTuples blob left i out = .ok out' ∧
      Begins size (rows ++ (List.range left).map fun k => tupleAt blob (i + k)) out' := by
  induction left generalizing i rows out with
  | zero => exact ⟨out, rfl, by simpa using hout⟩
  | succ left ih =>
      subst hi
      obtain ⟨out₁, hput, hbegins⟩ := hout.put (by omega) (tupleAt blob rows.length)
      have hlen : (rows ++ [tupleAt blob rows.length]).length = rows.length + 1 :=
        List.length_append
      obtain ⟨out₂, hloop, hbegins'⟩ := ih hbegins hlen (by omega) (by omega)
      have hrows : rows ++ (List.range (left + 1)).map (fun k => tupleAt blob (rows.length + k)) =
          (rows ++ [tupleAt blob rows.length]) ++
            (List.range left).map fun k => tupleAt blob (rows.length + 1 + k) := by
        rw [List.range_succ_eq_map, List.map_cons, List.map_map, List.append_assoc]
        congr 2
        refine List.map_congr_left ?_
        intro k _
        rw [Function.comp_apply, Nat.succ_eq_add_one, Nat.add_right_comm, Nat.add_assoc]
      rw [hrows]
      refine ⟨out₂, ?_, hbegins'⟩
      rw [copyTuples, readTuple_ok (by omega), ok_bind, hput, ok_bind, hloop]

/-- The tuples which the header announces. -/
def announced (blob : List UInt8) : ℕ := min (u32At blob 4).toNat badmemMaxRows

def Accepted (blob : List UInt8) : Prop :=
  u32At blob 0 = 1 ∧ u32At blob 4 ≠ 0 ∧ 8 + 8 * announced blob ≤ blob.length

instance (blob : List UInt8) : Decidable (Accepted blob) :=
  inferInstanceAs (Decidable (_ ∧ _ ∧ _))

/-- What a blob holds for an array of `outMax` entries. -/
def tuples (blob : List UInt8) (outMax : ℕ) : List BadmemRow :=
  if Accepted blob then (List.range (min (announced blob) outMax)).map (tupleAt blob) else []

theorem Accepted.announced_pos {blob : List UInt8} (h : Accepted blob) : 0 < announced blob := by
  have hcount : 0 < (u32At blob 4).toNat := by
    rw [Nat.pos_iff_ne_zero]
    intro hzero
    exact h.2.1 (UInt32.toNat_inj.mp hzero)
  exact lt_min hcount (by decide)

theorem length_tuples (blob : List UInt8) (outMax : ℕ) : (tuples blob outMax).length =
    if Accepted blob then min (announced blob) outMax else 0 := by
  unfold tuples
  split_ifs
  · rw [List.length_map, List.length_range]
  · rfl

/-- The parser makes no access outside of blob and array, and stores the tuples. -/
theorem badmemParseRowsBlob_ok (blob : List UInt8) (out : List BadmemRow) :
    ∃ out', badmemParseRowsBlob blob out = .ok ((tuples blob out.length).length, out') ∧
      Begins out.length (tuples blob out.length) out' := by
  have hnothing : Begins out.length [] out := begins_nil rfl
  unfold badmemParseRowsBlob
  by_cases hargs : blob.length < 8 ∨ out.length = 0
  · have hnone : tuples blob out.length = [] := by
      rw [← List.length_eq_zero_iff, length_tuples]
      split_ifs with haccepted
      · have hpos := haccepted.announced_pos
        have hsize := haccepted.2.2
        omega
      · rfl
    rw [if_pos hargs, hnone]
    exact ⟨out, rfl, hnothing⟩
  have hheader : 8 ≤ blob.length := by omega
  rw [if_neg hargs, derefU32_ok (by omega), ok_bind]
  by_cases hversion : u32At blob 0 ≠ 1
  · rw [if_pos hversion, tuples, if_neg fun h => hversion h.1]
    exact ⟨out, rfl, hnothing⟩
  rw [if_neg hversion, derefU32_ok (by omega), ok_bind]
  by_cases hcount : u32At blob 4 = 0
  · rw [if_pos hcount, tuples, if_neg fun h => h.2.1 hcount]
    exact ⟨out, rfl, hnothing⟩
  rw [if_neg hcount]
  change ∃ out', (if blob.length < 8 + announced blob * 8 then pure (0, out)
    else do
      let out' ← copyTuples blob (min (announced blob) out.length) 0 out
      pure (min (announced blob) out.length, out')) = _ ∧ _
  by_cases hsize : blob.length < 8 + announced blob * 8
  · have hrefused : ¬Accepted blob := by
      intro h
      have hfits := h.2.2
      omega
    rw [if_pos hsize, tuples, if_neg hrefused]
    exact ⟨out, rfl, hnothing⟩
  have haccepted : Accepted blob := ⟨not_not.mp hversion, hcount, by omega⟩
  have hroom : 0 + min (announced blob) out.length ≤ out.length := by omega
  have hblob : 8 + 8 * (0 + min (announced blob) out.length) ≤ blob.length := by omega
  obtain ⟨out', hcopy, hbegins⟩ := copyTuples_ok _ hnothing List.length_nil hroom hblob
  have htuples : tuples blob out.length =
      [] ++ (List.range (min (announced blob) out.length)).map fun k => tupleAt blob (0 + k) := by
    rw [tuples, if_pos haccepted, List.nil_append]
    simp only [Nat.zero_add]
  rw [if_neg hsize, hcopy, ok_bind, length_tuples, if_pos haccepted, htuples]
  exact ⟨out', rfl, hbegins⟩

theorem getD_record {blob : List UInt8} {p n j : ℕ} (h : j < n) :
    ((blob.drop p).take n).getD j 0 = blob.getD (p + j) 0 := by
  rw [List.getD_eq_getElem?_getD, List.getD_eq_getElem?_getD, List.getElem?_take_of_lt h,
    List.getElem?_drop]

theorem rowOfBytes_record (blob : List UInt8) (i : ℕ) :
    rowOfBytes (((blob.drop 8).drop (8 * i)).take 8) = tupleAt blob i := by
  have hrow : u32At (((blob.drop (8 + 8 * i)).take 8)) 4 = u32At blob (8 + 8 * i + 4) := by
    unfold u32At
    rw [List.drop_take, List.take_take, List.drop_drop]
    rfl
  unfold rowOfBytes tupleAt
  rw [List.drop_drop, getD_record (by decide), getD_record (by decide), getD_record (by decide),
    getD_record (by decide), hrow]
  rfl

theorem tuples_eq_chunks {blob : List UInt8} (h : Accepted blob) (outMax : ℕ) :
    tuples blob outMax =
      (chunks 8 (min (announced blob) outMax) (blob.drop 8)).map rowOfBytes := by
  rw [tuples, if_pos h, chunks_eq_map, List.map_map]
  refine List.map_congr_left ?_
  intro i _
  exact (rowOfBytes_record blob i).symm

/-- The tuples are those which the parser of `mask_rows` finds. -/
theorem parse_eq_tuples (blob : List UInt8) (outMax : ℕ) :
    RowMask.badmemParseRowsBlob blob outMax = tuples blob outMax := by
  unfold RowMask.badmemParseRowsBlob
  by_cases haccepted : Accepted blob
  · have hpos := haccepted.announced_pos
    have hsize := haccepted.2.2
    by_cases hnone : outMax = 0
    · rw [if_pos (Or.inr hnone), tuples_eq_chunks haccepted, hnone, Nat.min_zero]
      rfl
    · rw [if_neg (by omega), if_neg (not_not.mpr haccepted.1), if_neg haccepted.2.1,
        tuples_eq_chunks haccepted]
      exact if_neg (by unfold announced at hsize; omega)
  · rw [tuples, if_neg haccepted]
    simp only
    split_ifs with hargs hversion hcount hsize
    · rfl
    · rfl
    · rfl
    · rfl
    · refine absurd ⟨not_not.mp hversion, hcount, ?_⟩ haccepted
      unfold announced
      omega

/-- The rows of a blob. -/
structure SavedRows where
  rows : List BadmemRow
  nonempty : rows ≠ []
  bounded : rows.length ≤ badmemMaxRows

def tupleBytes (r : BadmemRow) : List UInt8 :=
  [r.channel, r.rank, r.bankGroup, r.bank] ++ encode 4 r.row.toNat

/-- The encoding of version 1. -/
def rowsBlob (saved : SavedRows) : List UInt8 :=
  encode 4 1 ++ encode 4 saved.rows.length ++ saved.rows.flatMap tupleBytes

theorem length_tupleBytes (r : BadmemRow) : (tupleBytes r).length = 8 := rfl

theorem rowOfBytes_tupleBytes (r : BadmemRow) : rowOfBytes (tupleBytes r) = r := by
  have hrow : u32At (tupleBytes r) 4 = r.row := by
    have hbytes : ((tupleBytes r).drop 4).take 4 = encode 4 r.row.toNat := rfl
    rw [u32At, hbytes, decode_encode_of_lt r.row.toNat_lt, UInt32.ofNat_toNat]
  unfold rowOfBytes
  rw [hrow]
  rfl

section
variable (saved : SavedRows) (trailing : List UInt8)

theorem drop_header : (rowsBlob saved ++ trailing).drop 8 =
    saved.rows.flatMap tupleBytes ++ trailing := by
  unfold rowsBlob
  rw [List.append_assoc, List.append_assoc]
  rfl

theorem header_version : u32At (rowsBlob saved ++ trailing) 0 = 1 := rfl

theorem header_count :
    (u32At (rowsBlob saved ++ trailing) 4).toNat = saved.rows.length := by
  have hbound := saved.bounded
  have hlt : saved.rows.length < 256 ^ 4 := by
    unfold badmemMaxRows at hbound
    omega
  have hbytes : ((rowsBlob saved ++ trailing).drop 4).take 4 = encode 4 saved.rows.length := by
    unfold rowsBlob
    rw [List.append_assoc, List.append_assoc]
    rfl
  rw [u32At, hbytes, decode_encode_of_lt hlt, UInt32.toNat_ofNat']
  exact Nat.mod_eq_of_lt hlt

theorem announced_rowsBlob : announced (rowsBlob saved ++ trailing) = saved.rows.length := by
  unfold announced
  rw [header_count, Nat.min_eq_left saved.bounded]

theorem rowsBlob_accepted : Accepted (rowsBlob saved ++ trailing) := by
  have hpos : 0 < saved.rows.length := List.length_pos_iff.mpr saved.nonempty
  have hcount := header_count saved trailing
  refine ⟨header_version saved trailing, ?_, ?_⟩
  · intro hzero
    rw [hzero] at hcount
    exact absurd hcount (Nat.ne_of_lt hpos)
  · have htuples : (saved.rows.flatMap tupleBytes).length = 8 * saved.rows.length := by
      simp only [List.length_flatMap, length_tupleBytes, List.map_const', List.sum_replicate,
        smul_eq_mul, Nat.mul_comm]
    rw [announced_rowsBlob]
    unfold rowsBlob
    simp only [List.length_append, length_encode, htuples]
    omega

/-- The rows of a blob come back, as many as there is room for. -/
theorem tuples_rowsBlob (outMax : ℕ) :
    tuples (rowsBlob saved ++ trailing) outMax = saved.rows.take outMax := by
  have htake : (saved.rows.take outMax).length = min saved.rows.length outMax := by
    rw [List.length_take, Nat.min_comm]
  have hsplit : saved.rows.flatMap tupleBytes ++ trailing =
      (saved.rows.take outMax).flatMap tupleBytes ++
        ((saved.rows.drop outMax).flatMap tupleBytes ++ trailing) := by
    rw [← List.append_assoc, ← List.flatMap_append, List.take_append_drop]
  have hback : rowOfBytes ∘ tupleBytes = id := funext rowOfBytes_tupleBytes
  rw [tuples_eq_chunks (rowsBlob_accepted saved trailing), announced_rowsBlob, drop_header,
    hsplit, ← htake, chunks_flatMap 8 tupleBytes length_tupleBytes, List.map_map, hback, List.map_id]

end

/-- The parser stays inside, returns nothing or the tuples at their offsets, and reads back what was
encoded. -/
theorem badmemParseRowsBlob_exact :
    (∀ (blob : List UInt8) (out : List BadmemRow), ∃ out',
      badmemParseRowsBlob blob out = .ok ((tuples blob out.length).length, out') ∧
        Begins out.length (tuples blob out.length) out') ∧
    ∀ (saved : SavedRows) (trailing : List UInt8) (out : List BadmemRow), ∃ out',
      badmemParseRowsBlob (rowsBlob saved ++ trailing) out =
          .ok ((saved.rows.take out.length).length, out') ∧
        Begins out.length (saved.rows.take out.length) out' := by
  refine ⟨badmemParseRowsBlob_ok, ?_⟩
  intro saved trailing out
  have hparse := badmemParseRowsBlob_ok (rowsBlob saved ++ trailing) out
  rwa [tuples_rowsBlob] at hparse

def threeRows : SavedRows where
  rows := [⟨0, 1, 2, 3, 0x1234⟩, ⟨1, 0, 0, 3, 0xFFFFFFFF⟩, ⟨0, 1, 2, 3, 0x1234⟩]
  nonempty := by decide
  bounded := by decide

/-- An array of two entries takes the first two rows of a blob of three with a byte behind it. -/
theorem threeRows_cut :
    ∃ out, badmemParseRowsBlob (rowsBlob threeRows ++ [0xff]) [⟨0, 0, 0, 0, 0⟩, ⟨0, 0, 0, 0, 0⟩] =
        .ok (2, out) ∧
      Begins 2 [⟨0, 1, 2, 3, 0x1234⟩, ⟨1, 0, 0, 3, 0xFFFFFFFF⟩] out :=
  badmemParseRowsBlob_exact.2 threeRows [0xff] [⟨0, 0, 0, 0, 0⟩, ⟨0, 0, 0, 0, 0⟩]

end BankFinder.RowsBlob
