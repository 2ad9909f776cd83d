import BankFinder.BootSession
import BankFinder.CappedLog

/-!
# The accumulators of a test run

`badmem_log.c` keeps the distinct bad pages, the distinct row tuples, the names of
suspect chips in one comma-separated text, and the regions which are excluded from
further testing. All of them are static arrays which silently stop growing.
-/

namespace BankFinder.BadmemLog
open BootSession CappedLog

/-- `bad_row_t` -/
structure BadRow where
  ch : UInt8
  rank : UInt8
  bg : UInt8
  bank : UInt8
  row : UInt32
  deriving DecidableEq, Repr

/-- `badmem_skip_range`; the half-open range is `start` to `endPa`. -/
structure SkipRange where
  start : UInt64
  endPa : UInt64
  hits : UInt32
  deriving DecidableEq, Repr

structure Log where
  pages : List UInt64 := []
  rows : List BadRow := []
  chips : List UInt8 := []
  skips : List SkipRange := []
  deriving DecidableEq, Repr

def maxEntries : ℕ := 4096
def maxBadRows : ℕ := 256
def chipsBufSize : ℕ := 256
def skipMax : ℕ := 64

def badmemLogRecord (log : Log) (physAddr : UInt64) : Log :=
  { log with pages := record maxEntries log.pages (pageAlign physAddr) }

def badmemLogRecordRow (log : Log) (t : BadRow) : Log :=
  { log with rows := record maxBadRows log.rows t }

def comma : UInt8 := 0x2C

/-- Scan the comma-separated entries of `buf` for `designator`. -/
def hasEntry (designator : List UInt8) : ℕ → List UInt8 → Bool
  | 0, _ => false
  | fuel + 1, buf =>
      if buf.isEmpty then false
      else
        let entry := buf.takeWhile (· ≠ comma)
        entry == designator || hasEntry designator fuel (buf.drop (entry.length + 1))

def badmemLogRecordChip (log : Log) (designator : List UInt8) : Log :=
  if designator.isEmpty then log
  else
    let sep := if log.chips.isEmpty then [] else [comma]
    if log.chips.length + sep.length + designator.length + 1 > chipsBufSize then log
    else if hasEntry designator (log.chips.length + 1) log.chips then log
    else { log with chips := log.chips ++ sep ++ designator }

/-- The first entry which the new range overlaps or abuts grows. -/
def mergeSkip (startPa endPa : UInt64) : List SkipRange → Option (List SkipRange)
  | [] => none
  | s :: skips =>
      if endPa < s.start ∨ startPa > s.endPa then (mergeSkip startPa endPa skips).map (s :: ·)
      else some ({
        start := if startPa < s.start then startPa else s.start
        endPa := if endPa > s.endPa then endPa else s.endPa
        hits := if s.hits < 0xFFFFFFFF then s.hits + 1 else s.hits } :: skips)

def badmemLogAddSkip (log : Log) (startPa endPa : UInt64) : Log :=
  if endPa ≤ startPa then log
  else
    match mergeSkip startPa endPa log.skips with
    | some skips => { log with skips := skips }
    | none =>
        if log.skips.length < skipMax then
          { log with skips := log.skips ++ [⟨startPa, endPa, 1⟩] }
        else log

/-- The calls of one run, in order. -/
def addSkips (log : Log) (ranges : List (UInt64 × UInt64)) : Log :=
  ranges.foldl (fun log r => badmemLogAddSkip log r.1 r.2) log

/-- No entry of the skip list is empty. -/
def ProperSkips (skips : List SkipRange) : Prop := ∀ s ∈ skips, s.start < s.endPa

theorem mergeSkip_proper {startPa endPa : UInt64} (h : startPa < endPa) {skips merged : List SkipRange}
    (hskips : ProperSkips skips) (hmerged : mergeSkip startPa endPa skips = some merged) :
    ProperSkips merged := by
  induction skips generalizing merged with
  | nil => exact absurd hmerged (by simp [mergeSkip])
  | cons s skips ih =>
      have hs : s.start < s.endPa := hskips s List.mem_cons_self
      have hrest : ProperSkips skips := fun t ht => hskips t (List.mem_cons_of_mem s ht)
      unfold mergeSkip at hmerged
      by_cases hmiss : endPa < s.start ∨ startPa > s.endPa
      · rw [if_pos hmiss] at hmerged
        obtain ⟨rest, hsome, rfl⟩ := Option.map_eq_some_iff.mp hmerged
        intro t ht
        rcases List.mem_cons.mp ht with rfl | ht
        · exact hs
        · exact ih hrest hsome t ht
      · rw [if_neg hmiss] at hmerged
        obtain rfl := Option.some.inj hmerged
        intro t ht
        rcases List.mem_cons.mp ht with rfl | ht
        · simp only [UInt64.lt_iff_toNat_lt, gt_iff_lt] at h hs ⊢
          split_ifs <;> omega
        · exact hrest t ht

theorem badmemLogAddSkip_proper {log : Log} (h : ProperSkips log.skips) (startPa endPa : UInt64) :
    ProperSkips (badmemLogAddSkip log startPa endPa).skips := by
  unfold badmemLogAddSkip
  by_cases hle : endPa ≤ startPa
  · rw [if_pos hle]
    exact h
  · have hlt : startPa < endPa := by
      simp only [UInt64.le_iff_toNat_le, UInt64.lt_iff_toNat_lt] at *
      omega
    rw [if_neg hle]
    cases hm : mergeSkip startPa endPa log.skips with
    | some merged => exact mergeSkip_proper hlt h hm
    | none =>
        simp only
        split_ifs
        · intro t ht
          rcases List.mem_append.mp ht with ht | ht
          · exact h t ht
          · rw [List.mem_singleton.mp ht]
            exact hlt
        · exact h

theorem addSkips_proper (ranges : List (UInt64 × UInt64)) {log : Log} (h : ProperSkips log.skips) :
    ProperSkips (addSkips log ranges).skips := by
  induction ranges generalizing log with
  | nil => exact h
  | cons r ranges ih => exact ih (badmemLogAddSkip_proper h r.1 r.2)

theorem foldl_badmemLogRecord_pages (log : Log) (reports : List UInt64) :
    (reports.foldl badmemLogRecord log).pages =
      recordAll maxEntries log.pages (reports.map pageAlign) := by
  induction reports generalizing log with
  | nil => rfl
  | cons a reports ih => exact ih (badmemLogRecord log a)

theorem foldl_badmemLogRecord_rows (log : Log) (reports : List UInt64) :
    (reports.foldl badmemLogRecord log).rows = log.rows := by
  induction reports generalizing log with
  | nil => rfl
  | cons a reports ih => exact ih (badmemLogRecord log a)

@[simp] theorem badmemLogRecordChip_rows (log : Log) (designator : List UInt8) :
    (badmemLogRecordChip log designator).rows = log.rows := by
  unfold badmemLogRecordChip
  simp only
  split_ifs <;> rfl

end BankFinder.BadmemLog
