import BankFinder.ErrorHook
import BankFinder.SkipList

/-!
# The detector of error bursts

`common_err` counts the errors of the last four 1 MiB pages, one slot for each, and
replaces the slots in turn. The eighth error of a page puts the page on the skip list
and sets `bail`, but only while `bail` is clear. Sixteen errors in total set `bail` as
well, and a page which reaches its eighth error then is not looked at again.
-/

namespace BankFinder.BurstDetector
open BadmemLog SkipPrune SkipList SegmentCut SegmentMerge ErrorHook

/-- The kinds of errors `common_err` tells apart. -/
inductive ErrorType where
  | dataError
  | addrError
  | other
  deriving DecidableEq, Repr

def ErrorType.counts (type : ErrorType) : Bool := type == .dataError || type == .addrError

abbrev mbLruSlots : ℕ := 4

structure LruSlot where
  base : UInt64 := 0
  run : ℕ := 0
  deriving DecidableEq, Repr

/-- `lru[]`, `lru_next` and what the detector writes to. -/
structure Detector where
  lru : Fin mbLruSlots → LruSlot := fun _ => {}
  lruNext : Fin mbLruSlots := 0
  bail : Bool := false
  log : Log := {}

def mbBase (addr : UInt64) : UInt64 := addr &&& ~~~0xFFFFF

def findSlot (d : Detector) (base : UInt64) : Option (Fin mbLruSlots) :=
  (List.finRange mbLruSlots).find? fun i => (d.lru i).base = base ∧ 0 < (d.lru i).run

/-- The slot of the page; without one the next slot is started for it. -/
def takeSlot (d : Detector) (base : UInt64) : Detector × Fin mbLruSlots :=
  match findSlot d base with
  | some slot => (d, slot)
  | none =>
      ({ d with lru := Function.update d.lru d.lruNext ⟨base, 0⟩, lruNext := d.lruNext + 1 },
        d.lruNext)

def countError (d : Detector) (slot : Fin mbLruSlots) : Detector :=
  let s := d.lru slot
  { d with lru := Function.update d.lru slot ⟨s.base, if s.run < 255 then s.run + 1 else s.run⟩ }

def actOnBurst (d : Detector) (base : UInt64) (slot : Fin mbLruSlots) : Detector :=
  if (d.lru slot).run = 8 ∧ d.bail = false then
    { d with
      log := badmemLogAddSkip d.log base (base + 0x100000)
      bail := true
      lru := Function.update d.lru slot ⟨0, 0⟩ }
  else d

def trackBurst (d : Detector) (addr : UInt64) : Detector :=
  let r := takeSlot d (mbBase addr)
  actOnBurst (countError r.1 r.2) (mbBase addr) r.2

def recordError (d : Detector) (addr : UInt64) : Detector :=
  { d with log := boardReportError d.log addr }

def bailOnTotal (d : Detector) (errorCount : ℕ) : Detector :=
  if errorCount ≥ 16 ∧ d.bail = false then { d with bail := true } else d

/-- The part of `common_err` which deals with bad memory. -/
def commonErr (d : Detector) (type : ErrorType) (addr : UInt64) (errorCount : ℕ) : Detector :=
  let d := if type.counts then recordError d addr else d
  let d := if type.counts then trackBurst d addr else d
  bailOnTotal d errorCount

/-- An error, or the start of the next test, which clears `bail`. -/
inductive Event where
  | error (type : ErrorType) (addr : UInt64) (errorCount : ℕ)
  | clearBail
  deriving DecidableEq, Repr

def step (d : Detector) : Event → Detector
  | .error type addr errorCount => commonErr d type addr errorCount
  | .clearBail => { d with bail := false }

/-- The detector, and for each 1 MiB page how many errors it has had since its slot was last
started. -/
structure Watched where
  detector : Detector := {}
  sinceStart : UInt64 → ℕ := fun _ => 0

/-- A page without a slot is counted from one again. -/
def countUp (d : Detector) (sinceStart : UInt64 → ℕ) (base : UInt64) : UInt64 → ℕ :=
  Function.update sinceStart base
    (if (findSlot d base).isSome then sinceStart base + 1 else 1)

def countSinceStart (w : Watched) : Event → UInt64 → ℕ
  | .error type addr _ =>
      if type.counts then countUp w.detector w.sinceStart (mbBase addr) else w.sinceStart
  | .clearBail => w.sinceStart

def Watched.next (w : Watched) (e : Event) : Watched := ⟨step w.detector e, countSinceStart w e⟩

def watch (events : List Event) : Watched := events.foldl Watched.next {}

/-- Every address of the 1 MiB page is in the skip list. -/
def MbListed (skips : List SkipRange) (base : UInt64) : Prop :=
  ∀ x, mbBase x = base → InSkips skips x

/-- An error which comes while `bail` is clear and is at least the eighth since the slot of its
page was started leaves the page on the skip list, unless that is full. -/
def Detects (w : Watched) : Event → Prop
  | .error type addr n => type.counts = true → w.detector.bail = false →
      w.detector.log.skips.length < skipMax →
      8 ≤ (w.next (.error type addr n)).sinceStart (mbBase addr) →
      MbListed (w.next (.error type addr n)).detector.log.skips (mbBase addr)
  | .clearBail => True

def MissesNoBurst (events : List Event) : Prop :=
  ∀ before e, before ++ [e] <+: events → Detects (watch before) e

/-- The counter of the page's slot; without a slot it is zero. -/
def slotRun (d : Detector) (base : UInt64) : ℕ :=
  match findSlot d base with
  | some slot => (d.lru slot).run
  | none => 0

/-- The last 1 MiB page, whose end is no 64-bit number. -/
def topMb : UInt64 := 0xFFFFFFFFFFF00000

/-- The error is not acted on although its page has had enough errors: the counter has passed
eight before, or the page is the last one. -/
def Overdue (d : Detector) (addr : UInt64) : Prop :=
  d.bail = false ∧ d.log.skips.length < skipMax ∧ ¬MbListed d.log.skips (mbBase addr) ∧
    (8 ≤ slotRun d (mbBase addr) ∨ slotRun d (mbBase addr) = 7 ∧ mbBase addr = topMb)

/-- The error does not come eighth while `bail` is set, unless its page is listed already. -/
def Guarded (d : Detector) (addr : UInt64) : Prop :=
  mbBase addr ≠ topMb ∧
    (d.bail = true → slotRun d (mbBase addr) = 7 → MbListed d.log.skips (mbBase addr))

/-- The counters agree with the numbers of errors, and no page has two slots. -/
structure Counted (lru : Fin mbLruSlots → LruSlot) (sinceStart : UInt64 → ℕ) : Prop where
  run : ∀ i, 0 < (lru i).run → (lru i).run = min 255 (sinceStart (lru i).base)
  distinct : ∀ i j, 0 < (lru i).run → 0 < (lru j).run → (lru i).base = (lru j).base → i = j

section
variable {d : Detector} {base : UInt64} {slot : Fin mbLruSlots} {sinceStart : UInt64 → ℕ}

theorem findSlot_some (h : findSlot d base = some slot) :
    (d.lru slot).base = base ∧ 0 < (d.lru slot).run := by
  have hfound := List.find?_some h
  simpa using hfound

theorem findSlot_none (h : findSlot d base = none) (i : Fin mbLruSlots)
    (hrun : 0 < (d.lru i).run) : (d.lru i).base ≠ base := by
  intro hbase
  have hall := List.find?_eq_none.mp h i (List.mem_finRange i)
  exact hall (by simp [hbase, hrun])

theorem countError_self (d : Detector) (slot : Fin mbLruSlots) : (countError d slot).lru slot =
    ⟨(d.lru slot).base,
      if (d.lru slot).run < 255 then (d.lru slot).run + 1 else (d.lru slot).run⟩ :=
  Function.update_self ..

theorem countError_of_ne (d : Detector) {j : Fin mbLruSlots} (h : j ≠ slot) :
    (countError d slot).lru j = d.lru j :=
  Function.update_of_ne h ..

/-- What counting an error does to the slots: that of the page goes up by one, or a slot is
started for the page, and the other pages keep theirs. -/
structure CountedOnce (d : Detector) (base : UInt64) (d' : Detector) (slot : Fin mbLruSlots) :
    Prop where
  counted : d'.lru slot = ⟨base, if slotRun d base < 255 then slotRun d base + 1 else slotRun d base⟩
  others : ∀ j, j ≠ slot → d'.lru j = d.lru j
  apart : ∀ j, j ≠ slot → 0 < (d.lru j).run → (d.lru j).base ≠ base
  bail : d'.bail = d.bail
  log : d'.log = d.log

theorem countError_takeSlot (h : Counted d.lru sinceStart) (base : UInt64) :
    CountedOnce d base (countError (takeSlot d base).1 (takeSlot d base).2)
      (takeSlot d base).2 := by
  cases hfind : findSlot d base with
  | some slot =>
      obtain ⟨hbase, hrun⟩ := findSlot_some hfind
      have htake : takeSlot d base = (d, slot) := by rw [takeSlot, hfind]
      have hslot : slotRun d base = (d.lru slot).run := by rw [slotRun, hfind]
      rw [htake]
      refine ⟨?_, fun j hj => countError_of_ne d hj, ?_, rfl, rfl⟩
      · rw [countError_self, hbase, hslot]
      · intro j hj hpos heq
        exact hj (h.distinct j slot hpos hrun (heq.trans hbase.symm))
  | none =>
      have htake : takeSlot d base = ({ d with
          lru := Function.update d.lru d.lruNext ⟨base, 0⟩, lruNext := d.lruNext + 1 },
        d.lruNext) := by rw [takeSlot, hfind]
      have hslot : slotRun d base = 0 := by rw [slotRun, hfind]
      rw [htake]
      refine ⟨?_, ?_, fun j _ hpos => findSlot_none hfind j hpos, rfl, rfl⟩
      · rw [countError_self, hslot]
        simp
      · intro j hj
        rw [countError_of_ne _ hj]
        exact Function.update_of_ne hj _ _

/-- What `track_burst` does: the eighth error lists the page and frees its slot, when `bail`
is clear, and any other error is just counted. -/
theorem trackBurst_cases (h : Counted d.lru sinceStart) (addr : UInt64) :
    ∃ d' slot, CountedOnce d (mbBase addr) d' slot ∧
      ((slotRun d (mbBase addr) = 7 ∧ d.bail = false) ∧ trackBurst d addr = { d' with
          log := addSkip d.log (mbBase addr, mbBase addr + 0x100000)
          bail := true
          lru := Function.update d'.lru slot ⟨0, 0⟩ } ∨
        ¬(slotRun d (mbBase addr) = 7 ∧ d.bail = false) ∧ trackBurst d addr = d') := by
  have hcounted := countError_takeSlot h (mbBase addr)
  refine ⟨_, _, hcounted, ?_⟩
  have height : ((countError (takeSlot d (mbBase addr)).1 (takeSlot d (mbBase addr)).2).lru
      (takeSlot d (mbBase addr)).2).run = 8 ↔ slotRun d (mbBase addr) = 7 := by
    rw [hcounted.counted]
    simp only
    split_ifs <;> omega
  unfold trackBurst actOnBurst
  simp only [height, hcounted.bail, hcounted.log]
  split_ifs with hburst
  · exact Or.inl ⟨hburst, rfl⟩
  · exact Or.inr ⟨hburst, rfl⟩

theorem slotRun_eq (h : Counted d.lru sinceStart) (base : UInt64) :
    slotRun d base = min 255 (countUp d sinceStart base base - 1) := by
  unfold slotRun countUp
  rw [Function.update_self]
  cases hfind : findSlot d base with
  | some slot =>
      obtain ⟨hbase, hrun⟩ := findSlot_some hfind
      have hcount := h.run slot hrun
      rw [hbase] at hcount
      simp [hcount]
  | none => simp

theorem countUp_pos (d : Detector) (sinceStart : UInt64 → ℕ) (base : UInt64) :
    0 < countUp d sinceStart base base := by
  unfold countUp
  rw [Function.update_self]
  split_ifs <;> omega

theorem Counted.countedOnce (h : Counted d.lru sinceStart) {d' : Detector}
    (hd' : CountedOnce d base d' slot) : Counted d'.lru (countUp d sinceStart base) := by
  have hrun := slotRun_eq h base
  have hpos := countUp_pos d sinceStart base
  constructor
  · intro i hi
    by_cases heq : i = slot
    · rw [heq, hd'.counted]
      simp only
      split_ifs <;> omega
    · rw [hd'.others i heq] at hi ⊢
      rw [countUp, Function.update_of_ne (hd'.apart i heq hi)]
      exact h.run i hi
  · intro i j hi hj hbase
    by_cases heqi : i = slot
    · by_cases heqj : j = slot
      · rw [heqi, heqj]
      · rw [heqi, hd'.counted, hd'.others j heqj] at hbase
        rw [hd'.others j heqj] at hj
        exact absurd hbase.symm (hd'.apart j heqj hj)
    · by_cases heqj : j = slot
      · rw [heqj, hd'.counted, hd'.others i heqi] at hbase
        rw [hd'.others i heqi] at hi
        exact absurd hbase (hd'.apart i heqi hi)
      · rw [hd'.others i heqi] at hi hbase
        rw [hd'.others j heqj] at hj hbase
        exact h.distinct i j hi hj hbase

theorem Counted.freed {lru : Fin mbLruSlots → LruSlot} (h : Counted lru sinceStart)
    (slot : Fin mbLruSlots) : Counted (Function.update lru slot ⟨0, 0⟩) sinceStart := by
  have hkept (i : Fin mbLruSlots) (hi : 0 < (Function.update lru slot ⟨0, 0⟩ i).run) :
      Function.update lru slot ⟨0, 0⟩ i = lru i := by
    by_cases heq : i = slot
    · rw [heq, Function.update_self] at hi
      exact absurd hi (lt_irrefl 0)
    · exact Function.update_of_ne heq _ _
  constructor
  · intro i hi
    have heq := hkept i hi
    rw [heq] at hi ⊢
    exact h.run i hi
  · intro i j hi hj hbase
    have heqi := hkept i hi
    have heqj := hkept j hj
    rw [heqi] at hi hbase
    rw [heqj] at hj hbase
    exact h.distinct i j hi hj hbase

end

section
variable {log : Log} {skips : List SkipRange} {addr base : UInt64}

theorem toNat_mbBase (addr : UInt64) : (mbBase addr).toNat = addr.toNat / 2 ^ 20 * 2 ^ 20 :=
  AlignedWords.clear_toNat (by decide) rfl addr

theorem mbBase_le (addr : UInt64) : (mbBase addr).toNat ≤ topMb.toNat := by
  have h := toNat_mbBase addr
  have hlt := addr.toNat_lt
  have htop : topMb.toNat = 2 ^ 64 - 2 ^ 20 := rfl
  omega

/-- The end of a page other than the last one. -/
theorem toNat_mbEnd (h : mbBase addr ≠ topMb) :
    (mbBase addr + 0x100000).toNat = (mbBase addr).toNat + 2 ^ 20 := by
  have hle := mbBase_le addr
  have hne : (mbBase addr).toNat ≠ topMb.toNat := fun heq => h (UInt64.toNat_inj.mp heq)
  have hmult := toNat_mbBase addr
  have htop : topMb.toNat = 2 ^ 64 - 2 ^ 20 := rfl
  have hmb : (0x100000 : UInt64).toNat = 2 ^ 20 := rfl
  rw [UInt64.toNat_add, hmb]
  omega

theorem not_mbListed_topMb (skips : List SkipRange) : ¬MbListed skips topMb := by
  intro h
  obtain ⟨s, -, -, hlt⟩ := h 0xFFFFFFFFFFFFFFFF (by decide)
  have hend := s.endPa.toNat_lt
  have hmax : (0xFFFFFFFFFFFFFFFF : UInt64).toNat = 2 ^ 64 - 1 := rfl
  rw [UInt64.lt_iff_toNat_lt, hmax] at hlt
  omega

theorem not_meetsFullTable_of_room (h : log.skips.length < skipMax) (r : UInt64 × UInt64) :
    ¬MeetsFullTable log r := fun hfull => absurd hfull.2.1 (not_le.mpr h)

theorem mbListed_add (h : log.skips.length < skipMax) (hbase : mbBase addr ≠ topMb) :
    MbListed (addSkip log (mbBase addr, mbBase addr + 0x100000)).skips (mbBase addr) := by
  intro x hx
  have hadd := inSkips_addSkip (not_meetsFullTable_of_room h (mbBase addr, mbBase addr + 0x100000)) x
  have hend := toNat_mbEnd hbase
  have hpage := toNat_mbBase x
  rw [hx] at hpage
  refine hadd.mpr (Or.inr ?_)
  rw [UInt64.le_iff_toNat_le, UInt64.lt_iff_toNat_lt]
  simp only [hend]
  omega

theorem mbListed_addSkip (r : UInt64 × UInt64) (h : MbListed log.skips base) :
    MbListed (addSkip log r).skips base := by
  by_cases hr : r.1 < r.2
  · intro x hx
    have hin := h x hx
    rw [inSkips_iff_covered] at hin ⊢
    have hcovered := covered_insertSeg_of_covered skipMax (rangeSeg r) hin
    have hsegs : segs (addSkip log r) = _ := segs_addSkip hr
    unfold segs at hsegs
    rw [hsegs]
    exact hcovered
  · rw [addSkip_of_empty hr]
    exact h

theorem length_le_addSkip (log : Log) (r : UInt64 × UInt64) :
    log.skips.length ≤ (addSkip log r).skips.length := by
  by_cases hr : r.1 < r.2
  · have hlength := length_le_insertSeg skipMax (segs log) (rangeSeg r)
    rw [← segs_addSkip hr, segs, segs, List.length_map, List.length_map] at hlength
    exact hlength
  · rw [addSkip_of_empty hr]

/-- Recording a page does not matter to the skip list. -/
theorem addSkip_boardReportError (log : Log) (addr : UInt64) (r : UInt64 × UInt64) :
    (addSkip (boardReportError log addr) r).skips = (addSkip log r).skips := by
  unfold addSkip badmemLogAddSkip boardReportError badmemLogRecord
  simp only
  cases mergeSkip r.1 r.2 log.skips with
  | some merged => split_ifs <;> rfl
  | none => split_ifs <;> rfl

end

theorem bailOnTotal_lru (d : Detector) (n : ℕ) : (bailOnTotal d n).lru = d.lru := by
  unfold bailOnTotal
  split_ifs <;> rfl

theorem bailOnTotal_log (d : Detector) (n : ℕ) : (bailOnTotal d n).log = d.log := by
  unfold bailOnTotal
  split_ifs <;> rfl

section
variable {w : Watched} {type : ErrorType} {addr : UInt64}

theorem commonErr_counted (d : Detector) (htype : type.counts = true) (n : ℕ) :
    commonErr d type addr n = bailOnTotal (trackBurst (recordError d addr) addr) n := by
  simp only [commonErr, htype, if_true]

theorem commonErr_other (d : Detector) (htype : ¬type.counts = true) (n : ℕ) :
    commonErr d type addr n = bailOnTotal d n := by
  simp only [commonErr, if_neg htype]

theorem slotRun_recordError (d : Detector) (addr base : UInt64) :
    slotRun (recordError d addr) base = slotRun d base := rfl

theorem countUp_recordError (d : Detector) (addr : UInt64) :
    countUp (recordError d addr) = countUp d := rfl

theorem log_recordError (d : Detector) (addr : UInt64) :
    (recordError d addr).log = boardReportError d.log addr := rfl

theorem bail_recordError (d : Detector) (addr : UInt64) : (recordError d addr).bail = d.bail := rfl

/-- After an error the slots are right again, and the skip list has grown by the page when the
error was the eighth and `bail` was clear. -/
theorem next_error (h : Counted w.detector.lru w.sinceStart) (htype : type.counts = true) (n : ℕ) :
    Counted (w.next (.error type addr n)).detector.lru
        (countUp w.detector w.sinceStart (mbBase addr)) ∧
      (w.next (.error type addr n)).detector.log.skips =
        if slotRun w.detector (mbBase addr) = 7 ∧ w.detector.bail = false then
          (addSkip w.detector.log (mbBase addr, mbBase addr + 0x100000)).skips
        else w.detector.log.skips := by
  obtain ⟨d', slot, hcounted, hcases⟩ := trackBurst_cases (d := recordError w.detector addr) h addr
  have hcount := Counted.countedOnce (d := recordError w.detector addr) h hcounted
  have hnext : (w.next (.error type addr n)).detector =
      bailOnTotal (trackBurst (recordError w.detector addr) addr) n :=
    commonErr_counted w.detector htype n
  rw [hnext, bailOnTotal_lru, bailOnTotal_log]
  rw [countUp_recordError] at hcount
  rw [slotRun_recordError, bail_recordError] at hcases
  rcases hcases with ⟨hburst, heq⟩ | ⟨hquiet, heq⟩
  · rw [heq, if_pos hburst]
    constructor
    · exact hcount.freed slot
    · simp only [log_recordError, addSkip_boardReportError]
  · rw [heq, if_neg hquiet, hcounted.log]
    exact ⟨hcount, rfl⟩

theorem counted_next (h : Counted w.detector.lru w.sinceStart) (e : Event) :
    Counted (w.next e).detector.lru (w.next e).sinceStart := by
  cases e with
  | clearBail => exact h
  | error type addr n =>
      by_cases htype : type.counts = true
      · have hsince : (w.next (.error type addr n)).sinceStart =
            countUp w.detector w.sinceStart (mbBase addr) := if_pos htype
        rw [hsince]
        exact (next_error h htype n).1
      · have hsince : (w.next (.error type addr n)).sinceStart = w.sinceStart := if_neg htype
        have hnext : (w.next (.error type addr n)).detector = bailOnTotal w.detector n :=
          commonErr_other w.detector htype n
        rw [hsince, hnext, bailOnTotal_lru]
        exact h

theorem counted_watch (events : List Event) :
    Counted (watch events).detector.lru (watch events).sinceStart := by
  refine LabelledRuns.foldl_invariant (I := fun w : Watched => Counted w.detector.lru w.sinceStart)
    (fun w e h => counted_next h e) events ?_
  constructor
  · exact fun i hi => absurd hi (lt_irrefl 0)
  · exact fun i j hi => absurd hi (lt_irrefl 0)

/-- Exactly the overdue errors go unnoticed. -/
theorem detects_iff (h : Counted w.detector.lru w.sinceStart) (htype : type.counts = true)
    (n : ℕ) : Detects w (.error type addr n) ↔ ¬Overdue w.detector addr := by
  have hskips : (w.next (.error type addr n)).detector.log.skips = _ :=
    (next_error h htype n).2
  have hsince : (w.next (.error type addr n)).sinceStart =
      countUp w.detector w.sinceStart (mbBase addr) := if_pos htype
  have hrun := slotRun_eq h (mbBase addr)
  rw [Detects, hsince, hskips, Overdue]
  constructor
  · intro hdetects hover
    obtain ⟨hbail, hroom, hnot, hlate⟩ := hover
    have hlisted := hdetects htype hbail hroom (by omega)
    rcases hlate with hlate | ⟨hseven, htop⟩
    · rw [if_neg (by omega)] at hlisted
      exact hnot hlisted
    · rw [htop] at hlisted
      exact not_mbListed_topMb _ hlisted
  · intro hnever _ hbail hroom hcount
    by_cases hlisted : MbListed w.detector.log.skips (mbBase addr)
    · split_ifs
      · exact mbListed_addSkip _ hlisted
      · exact hlisted
    · have hseven : slotRun w.detector (mbBase addr) = 7 := by
        by_contra hne
        exact hnever ⟨hbail, hroom, hlisted, Or.inl (by omega)⟩
      have htop : mbBase addr ≠ topMb := fun htop =>
        hnever ⟨hbail, hroom, hlisted, Or.inr ⟨hseven, htop⟩⟩
      rw [if_pos ⟨hseven, hbail⟩]
      exact mbListed_add hroom htop

end

/-- While the skip list has room, a page whose counter has reached eight is on it. -/
def BurstsListed (d : Detector) : Prop :=
  d.log.skips.length < skipMax → ∀ i, 8 ≤ (d.lru i).run → MbListed d.log.skips (d.lru i).base

section
variable {w : Watched} {type : ErrorType} {addr base : UInt64}

theorem BurstsListed.of_slotRun {d : Detector} (h : BurstsListed d)
    (hroom : d.log.skips.length < skipMax) (hrun : 8 ≤ slotRun d base) :
    MbListed d.log.skips base := by
  unfold slotRun at hrun
  cases hfind : findSlot d base with
  | none =>
      rw [hfind] at hrun
      exact absurd hrun (show ¬8 ≤ 0 by decide)
  | some slot =>
      rw [hfind] at hrun
      have hlisted := h hroom slot hrun
      rw [(findSlot_some hfind).1] at hlisted
      exact hlisted

theorem not_overdue {d : Detector} (h : BurstsListed d) (hguard : Guarded d addr) :
    ¬Overdue d addr := by
  intro hover
  obtain ⟨-, hroom, hnot, hlate⟩ := hover
  rcases hlate with hlate | ⟨-, htop⟩
  · exact hnot (h.of_slotRun hroom hlate)
  · exact hguard.1 htop

theorem burstsListed_error (hcounted : Counted w.detector.lru w.sinceStart)
    (h : BurstsListed w.detector) (hguard : Guarded w.detector addr) (htype : type.counts = true)
    (n : ℕ) : BurstsListed (w.next (.error type addr n)).detector := by
  obtain ⟨d', slot, honce, hcases⟩ :=
    trackBurst_cases (d := recordError w.detector addr) hcounted addr
  have hnext : (w.next (.error type addr n)).detector =
      bailOnTotal (trackBurst (recordError w.detector addr) addr) n :=
    commonErr_counted w.detector htype n
  have hslot := honce.counted
  rw [slotRun_recordError] at hslot
  rw [slotRun_recordError, bail_recordError] at hcases
  rw [hnext]
  unfold BurstsListed
  rw [bailOnTotal_lru, bailOnTotal_log]
  rcases hcases with ⟨hburst, heq⟩ | ⟨hquiet, heq⟩
  · rw [heq]
    intro hroom i hi
    have hother : i ≠ slot := by
      intro heq
      rw [heq] at hi
      simp only [Function.update_self] at hi
      omega
    simp only [Function.update_of_ne hother, honce.others i hother] at hi ⊢
    have hlength := length_le_addSkip (recordError w.detector addr).log
      (mbBase addr, mbBase addr + 0x100000)
    exact mbListed_addSkip _ (h (hlength.trans_lt hroom) i hi)
  · rw [heq, honce.log]
    intro hroom i hi
    by_cases hother : i = slot
    · rw [hother, hslot] at hi ⊢
      by_cases hlate : 8 ≤ slotRun w.detector (mbBase addr)
      · exact h.of_slotRun hroom hlate
      · have hseven : slotRun w.detector (mbBase addr) = 7 := by
          simp only at hi
          split_ifs at hi
          all_goals omega
        have hbail : w.detector.bail = true := by
          by_contra hclear
          exact hquiet ⟨hseven, by simpa using hclear⟩
        exact hguard.2 hbail hseven
    · rw [honce.others i hother] at hi ⊢
      exact h hroom i hi

/-- Every error of the run is guarded when it comes. -/
def AllGuarded (events : List Event) : Prop :=
  ∀ before type addr n, before ++ [.error type addr n] <+: events → type.counts = true →
    Guarded (watch before).detector addr

theorem watch_append_singleton (events : List Event) (e : Event) :
    watch (events ++ [e]) = (watch events).next e := by
  unfold watch
  rw [List.foldl_append]
  rfl

theorem burstsListed_watch (events : List Event) (h : AllGuarded events) :
    BurstsListed (watch events).detector := by
  induction events using List.reverseRecOn with
  | nil => exact fun _ i hi => absurd hi (show ¬8 ≤ 0 by decide)
  | append_singleton events e ih =>
      have hbefore := ih fun before type addr n hle =>
        h before type addr n (hle.trans (List.prefix_append _ _))
      rw [watch_append_singleton]
      cases e with
      | clearBail => exact hbefore
      | error type addr n =>
          by_cases htype : type.counts = true
          · exact burstsListed_error (counted_watch events) hbefore
              (h events type addr n List.prefix_rfl htype) htype n
          · have hnext : ((watch events).next (.error type addr n)).detector =
                bailOnTotal (watch events).detector n := commonErr_other _ htype n
            rw [hnext]
            unfold BurstsListed
            rw [bailOnTotal_lru, bailOnTotal_log]
            exact hbefore

/-- A run misses no burst exactly when none of its errors is overdue, and no error ever is when
no eighth one comes while `bail` is set. -/
theorem missesNoBurst_iff (events : List Event) :
    (MissesNoBurst events ↔ ∀ before type addr n, before ++ [.error type addr n] <+: events →
      type.counts = true → ¬Overdue (watch before).detector addr) ∧
      (AllGuarded events → MissesNoBurst events) := by
  have hiff : MissesNoBurst events ↔ ∀ before type addr n,
      before ++ [.error type addr n] <+: events → type.counts = true →
        ¬Overdue (watch before).detector addr := by
    constructor
    · intro h before type addr n hle htype
      exact (detects_iff (counted_watch before) htype n).mp (h before _ hle)
    · intro h before e hle
      cases e with
      | clearBail => trivial
      | error type addr n =>
          by_cases htype : type.counts = true
          · exact (detects_iff (counted_watch before) htype n).mpr (h before type addr n hle htype)
          · exact fun hcounts => absurd hcounts htype
  refine ⟨hiff, ?_⟩
  intro hguard
  rw [hiff]
  intro before type addr n hle htype
  have hbefore := burstsListed_watch before fun before' type' addr' n' hle' =>
    hguard before' type' addr' n' (hle'.trans ((List.prefix_append _ _).trans hle))
  exact not_overdue hbefore (hguard before type addr n hle htype)

end

/-- The event is no eighth error while `bail` is set. -/
def inTime (d : Detector) : Event → Bool
  | .error _ addr _ => mbBase addr != topMb && (!d.bail || slotRun d (mbBase addr) != 7)
  | _ => true

theorem guarded_of_inTime {d : Detector} {type : ErrorType} {addr : UInt64} {n : ℕ}
    (h : inTime d (.error type addr n) = true) : Guarded d addr := by
  rw [inTime, Bool.and_eq_true, bne_iff_ne, Bool.or_eq_true, bne_iff_ne] at h
  refine ⟨h.1, fun hbail hrun => ?_⟩
  rcases h.2 with hclear | hother
  · rw [hbail] at hclear
    cases hclear
  · exact absurd hrun hother

/-- Eight errors of one page, which set `bail`. Of another page three come before it is cleared
and five behind. -/
def twoBursts : List Event :=
  (List.range 8).map (fun i => .error .dataError 0x12345678 (i + 1)) ++
    (List.range 3).map (fun i => .error .addrError 0x22345678 (i + 9)) ++
    Event.clearBail :: (List.range 5).map fun i => .error .dataError 0x22345000 (i + 12)

theorem twoBursts_listed : MissesNoBurst twoBursts := by
  apply (missesNoBurst_iff twoBursts).2
  intro before type addr n hle _
  obtain ⟨rest, hrest⟩ := hle
  have htimes : ((List.range twoBursts.length).all fun i =>
      (twoBursts[i]?).all (inTime (watch (twoBursts.take i)).detector)) = true := by decide +kernel
  have hlength : before.length < twoBursts.length := by
    rw [← hrest, List.length_append, List.length_append, List.length_singleton]
    omega
  have htake : twoBursts.take before.length = before := by
    rw [← hrest, List.append_assoc, List.take_left]
  have hevent : twoBursts[before.length]? = some (.error type addr n) := by
    rw [← hrest, List.append_assoc, List.getElem?_append_right (le_refl _), Nat.sub_self]
    rfl
  have htime := List.all_eq_true.mp htimes before.length (List.mem_range.mpr hlength)
  rw [hevent, htake, Option.all_some] at htime
  exact guarded_of_inTime htime

/-- Eight errors of one page while `bail` is set by their total, and a ninth in the next test. -/
def lateBurst : List Event :=
  List.replicate 8 (.error .dataError 0x12345678 16) ++ [.clearBail, .error .dataError 0x12345678 24]

/-- The ninth error leaves the page off the skip list. -/
theorem late_burst_missed : ¬MissesNoBurst lateBurst := by
  intro h
  have hlast := h (lateBurst.take 9) (.error .dataError 0x12345678 24) (List.prefix_refl lateBurst)
  have hlisted := hlast rfl rfl (by decide +kernel) (by decide +kernel)
  obtain ⟨s, hs, -⟩ := hlisted 0x12345678 rfl
  have hnone : ((watch (lateBurst.take 9)).next
      (.error .dataError 0x12345678 24)).detector.log.skips = [] := by decide +kernel
  rw [hnone] at hs
  exact absurd hs List.not_mem_nil

end BankFinder.BurstDetector
