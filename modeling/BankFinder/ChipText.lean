import BankFinder.BadmemLog
import BankFinder.ChipEntries
import BankFinder.FixedBuffer

/-!
# The buffer of chip names

`badmem_log_record_chip` keeps the designators in one array of 256 bytes, with commas between them
and a NUL behind the last. It looks for a designator by scanning that text. What `mask-shim`
splits out of the text later are the designators which fitted.
-/

namespace BankFinder.ChipText
open BoundedCursor FixedBuffer CappedLog Nvram BadmemLog ChipList ChipEntries

/-- `chip_buf` and `chip_buf_used` -/
structure ChipBuf where
  bytes : List UInt8 := List.replicate chipsBufSize 0
  used : ℕ := 0

/-- `badmem_log_record_chip` with its stores into the array. The scan reads the used bytes. -/
def recordChip (b : ChipBuf) (designator : List UInt8) : Except OutOfBounds ChipBuf :=
  if designator.isEmpty then .ok b
  else
    let sep := if b.used > 0 then [comma] else []
    if b.used + sep.length + designator.length + 1 > chipsBufSize then .ok b
    else if hasEntry designator (b.used + 1) (b.bytes.take b.used) then .ok b
    else do
      let bytes ← putAll b.bytes b.used (sep ++ designator)
      let used := b.used + (sep ++ designator).length
      let bytes ← put bytes used 0
      return ⟨bytes, used⟩

def recordChips (calls : List Designator) : Except OutOfBounds ChipBuf :=
  calls.foldlM (fun b d => recordChip b d.chars) {}

/-- The array begins with the text and its NUL. -/
structure Carries (text : List UInt8) (b : ChipBuf) : Prop where
  begins : Begins chipsBufSize (text ++ [0]) b.bytes
  used : b.used = text.length

theorem carries_nil : Carries [] {} :=
  ⟨⟨List.length_replicate, ⟨List.replicate (chipsBufSize - 1) 0, rfl⟩⟩, rfl⟩

theorem Carries.take_used {text : List UInt8} {b : ChipBuf} (h : Carries text b) :
    b.bytes.take b.used = text := by
  obtain ⟨rest, hrest⟩ := h.begins.text
  rw [h.used, ← hrest, List.append_assoc, List.take_left]

theorem recordChip_carries {log : Log} {b : ChipBuf} (h : Carries log.chips b)
    (designator : List UInt8) : ∃ b', recordChip b designator = .ok b' ∧
      Carries (badmemLogRecordChip log designator).chips b' := by
  have hsep : (if b.used > 0 then [comma] else []) =
      if log.chips.isEmpty then [] else [comma] := by
    rw [h.used]
    cases log.chips <;> rfl
  unfold recordChip badmemLogRecordChip
  simp only
  rw [hsep, h.take_used, h.used]
  by_cases hempty : designator.isEmpty
  · rw [if_pos hempty, if_pos hempty]
    exact ⟨b, rfl, h⟩
  rw [if_neg hempty, if_neg hempty]
  generalize (if log.chips.isEmpty then [] else [comma]) = sep
  by_cases hfull : log.chips.length + sep.length + designator.length + 1 > chipsBufSize
  · rw [if_pos hfull, if_pos hfull]
    exact ⟨b, rfl, h⟩
  rw [if_neg hfull, if_neg hfull]
  by_cases hknown : hasEntry designator (log.chips.length + 1) log.chips = true
  · rw [if_pos hknown, if_pos hknown]
    exact ⟨b, rfl, h⟩
  rw [if_neg hknown, if_neg hknown]
  have htext : (log.chips ++ (sep ++ designator)).length =
      log.chips.length + (sep ++ designator).length := List.length_append
  have hparts : (sep ++ designator).length = sep.length + designator.length := List.length_append
  have hroom : log.chips.length + (sep ++ designator).length ≤ chipsBufSize := by omega
  obtain ⟨bytes, hputAll, hbegins⟩ := h.begins.shorten.putAll hroom
  obtain ⟨bytes', hput, hbegins'⟩ := hbegins.put (by omega) 0
  refine ⟨⟨bytes', log.chips.length + (sep ++ designator).length⟩, ?_, ?_⟩
  · rw [hputAll, ok_bind, ← htext, hput]
    rfl
  · rw [List.append_assoc]
    exact ⟨hbegins', htext.symm⟩

def chipText (ds : List Designator) : List UInt8 := commaJoin (ds.map Designator.chars)

def fits (ds : List Designator) (d : Designator) : Bool :=
  decide ((chipText (ds ++ [d])).length < chipsBufSize)

/-- The designators which fitted, in the order in which they came first. -/
def recorded (calls : List Designator) : List Designator :=
  calls.eraseDups.foldl (appendFitting fits) []

@[simp] theorem chipText_singleton (d : Designator) : chipText [d] = d.chars :=
  commaJoin_singleton d.chars

theorem chipText_cons_cons (d e : Designator) (ds : List Designator) :
    chipText (d :: e :: ds) = d.chars ++ comma :: chipText (e :: ds) := commaJoin_cons_cons ..

theorem chipText_eq_nil_iff (ds : List Designator) : chipText ds = [] ↔ ds = [] := by
  match ds with
  | [] => exact ⟨fun _ => rfl, fun _ => rfl⟩
  | [d] => simp [d.nonempty]
  | d :: e :: ds => simp [chipText_cons_cons]

theorem chipText_concat (ds : List Designator) (d : Designator) :
    chipText (ds ++ [d]) =
      chipText ds ++ (if (chipText ds).isEmpty then [] else [comma]) ++ d.chars := by
  induction ds with
  | nil => simp [chipText]
  | cons e ds ih =>
      have hsep : (chipText (e :: ds)).isEmpty = false := by simp [chipText_eq_nil_iff]
      rw [hsep]
      cases ds with
      | nil => simp [chipText_cons_cons]
      | cons e' ds =>
          have hsep' : (chipText (e' :: ds)).isEmpty = false := by simp [chipText_eq_nil_iff]
          rw [hsep'] at ih
          rw [List.cons_append, List.cons_append, chipText_cons_cons, ← List.cons_append, ih,
            chipText_cons_cons]
          simp

theorem length_le_chipText (ds : List Designator) : ds.length ≤ (chipText ds).length := by
  have htexts : ∀ t ∈ ds.map Designator.chars, t ≠ [] := by
    intro t ht
    obtain ⟨d, -, rfl⟩ := List.mem_map.mp ht
    exact d.nonempty
  rw [← List.length_map Designator.chars]
  exact length_le_commaJoin htexts

theorem chipText_length_mono {ds es : List Designator} (h : ds <+: es) :
    (chipText ds).length ≤ (chipText es).length := by
  obtain ⟨more, rfl⟩ := h
  induction more using List.reverseRecOn with
  | nil => rw [List.append_nil]
  | append_singleton more d ih =>
      rw [← List.append_assoc, chipText_concat, List.length_append, List.length_append]
      omega

theorem tightens_fits : Tightens fits := by
  intro ds es d hle hfits
  have hmono := chipText_length_mono hle
  unfold fits at hfits ⊢
  rw [decide_eq_true_iff, chipText_concat, List.length_append, List.length_append] at hfits ⊢
  cases hes : (chipText es).isEmpty with
  | false =>
      rw [hes, if_neg Bool.false_ne_true, List.length_singleton] at hfits
      have hsep : (if (chipText ds).isEmpty then [] else [comma]).length ≤ 1 := by
        split_ifs
        · exact Nat.zero_le _
        · exact le_rfl
      omega
  | true =>
      have hnone := List.isEmpty_iff.mp hes
      rw [hnone, List.length_nil, Nat.le_zero, List.length_eq_zero_iff] at hmono
      rw [hmono]
      rw [hnone] at hfits
      exact hfits

/-- The first entry of the text, and what the scan goes on with. -/
theorem chipText_entry (e : Designator) (ds : List Designator) :
    (chipText (e :: ds)).takeWhile (· ≠ comma) = e.chars ∧
      (chipText (e :: ds)).drop (e.chars.length + 1) = chipText ds := by
  have hname : ∀ c ∈ e.chars, decide (c ≠ comma) = true := by
    intro c hc
    rw [decide_eq_true_iff]
    exact e.ne_comma c hc
  cases ds with
  | nil =>
      rw [chipText_singleton]
      exact ⟨List.takeWhile_eq_self_iff.mpr hname, List.drop_of_length_le (Nat.le_succ _)⟩
  | cons e' ds =>
      rw [chipText_cons_cons]
      constructor
      · rw [List.takeWhile_append_of_pos hname, List.takeWhile_cons_of_neg (by simp),
          List.append_nil]
      · rw [List.drop_length_add_append]
        rfl

/-- The scan of the text finds what the list holds. -/
theorem hasEntry_chipText (d : Designator) (ds : List Designator) {fuel : ℕ}
    (hfuel : ds.length < fuel) : hasEntry d.chars fuel (chipText ds) = decide (d ∈ ds) := by
  induction ds generalizing fuel with
  | nil =>
      cases fuel with
      | zero => rfl
      | succ fuel => rfl
  | cons e ds ih =>
      cases fuel with
      | zero => exact absurd hfuel (Nat.not_lt_zero _)
      | succ fuel =>
          obtain ⟨hentry, hrest⟩ := chipText_entry e ds
          have hne : (chipText (e :: ds)).isEmpty = false := by simp [chipText_eq_nil_iff]
          have hsame : (e.chars == d.chars) = decide (d = e) := by
            rw [Bool.eq_iff_iff, beq_iff_eq, decide_eq_true_iff]
            constructor
            · intro h
              exact Designator.ext h.symm
            · intro h
              rw [h]
          unfold hasEntry
          simp only [hne, hentry, hrest]
          rw [if_neg Bool.false_ne_true, ih (Nat.lt_of_succ_lt_succ hfuel), hsame]
          simp [List.mem_cons]

/-- One call on the text is one call on the list. -/
theorem badmemLogRecordChip_chipText {log : Log} {ds : List Designator}
    (h : log.chips = chipText ds) (d : Designator) :
    (badmemLogRecordChip log d.chars).chips = chipText (recordFitting fits ds d) := by
  have hne : d.chars.isEmpty = false := List.isEmpty_eq_false_iff.mpr d.nonempty
  have hconcat := chipText_concat ds d
  have hcount : ds.length < (chipText ds).length + 1 :=
    Nat.lt_succ_of_le (length_le_chipText ds)
  have hfits : fits ds d = decide ((chipText ds).length +
      (if (chipText ds).isEmpty then [] else [comma]).length + d.chars.length <
        chipsBufSize) := by
    unfold fits
    rw [hconcat, List.length_append, List.length_append]
  unfold badmemLogRecordChip
  simp only
  rw [hne, if_neg Bool.false_ne_true, h, hasEntry_chipText d ds hcount]
  generalize (if (chipText ds).isEmpty then [] else [comma]) = sep at hconcat hfits
  by_cases hfull : (chipText ds).length + sep.length + d.chars.length + 1 > chipsBufSize
  · have hno : fits ds d = false := by
      rw [hfits, decide_eq_false_iff_not]
      omega
    rw [if_pos hfull, recordFitting_of_held (Or.inr hno), h]
  · have hyes : fits ds d = true := by
      rw [hfits, decide_eq_true_iff]
      omega
    rw [if_neg hfull]
    by_cases hmem : d ∈ ds
    · rw [decide_eq_true hmem, if_pos rfl, recordFitting_of_held (Or.inl hmem), h]
    · rw [decide_eq_false hmem, if_neg Bool.false_ne_true, recordFitting_of_new hmem]
      unfold appendFitting
      rw [if_pos hyes, hconcat]

theorem foldlM_recordChip {ds : List Designator} {b : ChipBuf} (h : Carries (chipText ds) b)
    (calls : List Designator) :
    ∃ b', calls.foldlM (fun b d => recordChip b d.chars) b = .ok b' ∧
      Carries (chipText (calls.foldl (recordFitting fits) ds)) b' := by
  induction calls generalizing ds b with
  | nil => exact ⟨b, rfl, h⟩
  | cons d calls ih =>
      let log : Log := { chips := chipText ds }
      obtain ⟨b₁, hstep, hcarries⟩ := @recordChip_carries log b h d.chars
      rw [badmemLogRecordChip_chipText rfl d] at hcarries
      obtain ⟨b₂, hrun, hcarries'⟩ := ih hcarries
      refine ⟨b₂, ?_, hcarries'⟩
      rw [List.foldlM_cons, hstep, ok_bind, hrun]

theorem Carries.cString {text : List UInt8} {b : ChipBuf} (h : Carries text b)
    (htext : 0 ∉ text) : cString b.bytes = text := by
  have hplain : ∀ c ∈ text, (c == 0) = false := by
    intro c hc
    rw [beq_eq_false_iff_ne]
    rintro rfl
    exact htext hc
  have hread := Begins.takeWhile h.begins hplain rfl
  unfold Nvram.cString
  rw [← hread]
  congr 1
  funext c
  by_cases hc : c = 0 <;> simp [hc]

/-- A list without blanks is split into its names. -/
theorem splitDesignators_chipText (ds : List Designator) (cap : ℕ) :
    splitDesignators ((chipText ds).length + 1) cap (chipText ds) =
      (ds.map Designator.chars).take cap := by
  have htext : chipText ds = [] ++ listText (ds.map fun d => ⟨0, d, 0⟩) := by
    unfold chipText listText
    rw [List.nil_append, List.map_map]
    congr 1
    refine List.map_congr_left ?_
    intro d _
    simp [Padded.text]
  have hcopied : (ds.map fun d => (⟨0, d, 0⟩ : Padded)).map Padded.copied =
      ds.map Designator.chars := by
    rw [List.map_map]
    refine List.map_congr_left ?_
    intro d _
    exact (Padded.copied_eq_iff ⟨0, d, 0⟩).mpr (Or.inl rfl)
  have hcount : (ds.map fun d => (⟨0, d, 0⟩ : Padded)).length ≤ (chipText ds).length + 1 := by
    rw [List.length_map]
    exact Nat.le_succ_of_le (length_le_chipText ds)
  have hseps : ∀ c ∈ ([] : List UInt8), isSeparator c = true := by
    intro c hc
    exact absurd hc List.not_mem_nil
  rw [← hcopied, ← splitDesignators_list _ hcount cap hseps, ← htext]

/-- The buffer holds the names which fitted, and the splitter finds them in it. -/
theorem recordChips_readBack (calls : List Designator) (cap : ℕ) :
    ∃ b, recordChips calls = .ok b ∧ Carries (chipText (recorded calls)) b ∧
      (recorded calls).Nodup ∧
      splitDesignators ((cString b.bytes).length + 1) cap (cString b.bytes) =
        ((recorded calls).map Designator.chars).take cap := by
  have hrecorded : calls.foldl (recordFitting fits) [] = recorded calls :=
    foldl_recordFitting_eq tightens_fits calls
  have hnodup : (recorded calls).Nodup := by
    rw [← hrecorded]
    exact foldl_recordFitting_nodup List.nodup_nil calls
  have hstart : Carries (chipText []) {} := carries_nil
  obtain ⟨b, hrun, hcarries⟩ := foldlM_recordChip hstart calls
  rw [hrecorded] at hcarries
  have hplain : 0 ∉ chipText (recorded calls) := by
    refine commaJoin_ne (by decide) ?_
    intro t ht hzero
    obtain ⟨d, -, rfl⟩ := List.mem_map.mp ht
    exact d.noNul 0 hzero rfl
  refine ⟨b, hrun, hcarries, hnodup, ?_⟩
  rw [hcarries.cString hplain]
  exact splitDesignators_chipText (recorded calls) cap

end BankFinder.ChipText
