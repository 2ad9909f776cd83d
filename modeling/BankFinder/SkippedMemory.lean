import BankFinder.BurstDetector
import BankFinder.LabelledRuns
import BankFinder.PrunedMap

/-!
# Memory given up for errors

What the burst detector puts on the skip list is taken out of every later `vm_map`, so
it had better be bad. An address gets on the list only after eight errors in its own
1 MiB page, each range of the list stands for eight errors of its own, and nothing the
detector decides keeps an error out of the log.
-/

namespace BankFinder.SkippedMemory
open BootSession (pageAlign)
open BadmemLog CappedLog SkipPrune SkipList SegmentCut SegmentMerge ErrorHook BurstDetector

/-- The address of an error which the detector counts. -/
def counted : Event → Option UInt64
  | .error type addr _ => if type.counts then some addr else none
  | .clearBail => none

def reported (events : List Event) : List UInt64 := events.filterMap counted

/-- The errors of one 1 MiB page. -/
def errorsIn (events : List Event) (base : UInt64) : ℕ :=
  (reported events).countP fun a => mbBase a = base

section
variable {e : Event} {addr : UInt64}

theorem eq_error_of_counted (he : counted e = some addr) :
    ∃ type n, e = .error type addr n ∧ type.counts = true := by
  cases e with
  | clearBail => cases he
  | error type a n =>
      simp only [counted] at he
      split_ifs at he with htype
      obtain rfl := Option.some.inj he
      exact ⟨type, n, rfl, htype⟩

theorem reported_append (events : List Event) (e : Event) :
    reported (events ++ [e]) = reported events ++ (counted e).toList := by
  unfold reported
  rw [List.filterMap_append]
  cases he : counted e with
  | none => rw [List.filterMap_cons_none he, List.filterMap_nil, Option.toList_none]
  | some addr => rw [List.filterMap_cons_some he, List.filterMap_nil, Option.toList_some]

theorem errorsIn_uncounted (events : List Event) (he : counted e = none) (base : UInt64) :
    errorsIn (events ++ [e]) base = errorsIn events base := by
  rw [errorsIn, reported_append, he, Option.toList_none, List.append_nil, errorsIn]

theorem errorsIn_counted (events : List Event) (he : counted e = some addr) (base : UInt64) :
    errorsIn (events ++ [e]) base = errorsIn events base + if mbBase addr = base then 1 else 0 := by
  rw [errorsIn, reported_append, he, Option.toList_some, List.countP_append,
    List.countP_singleton, errorsIn]
  simp only [decide_eq_true_eq]

/-- The events which are no counted errors change at most `bail`. -/
theorem next_uncounted (w : Watched) (he : counted e = none) :
    (w.next e).sinceStart = w.sinceStart ∧ (w.next e).detector.lru = w.detector.lru ∧
      (w.next e).detector.log = w.detector.log := by
  cases e with
  | clearBail => exact ⟨rfl, rfl, rfl⟩
  | error type a n =>
      have htype : ¬type.counts = true := by
        intro htype
        rw [counted, if_pos htype] at he
        cases he
      have hnext : (w.next (.error type a n)).detector = bailOnTotal w.detector n :=
        commonErr_other w.detector htype n
      rw [hnext, bailOnTotal_lru, bailOnTotal_log]
      exact ⟨if_neg htype, rfl, rfl⟩

end

section
variable {log : Log} {r : UInt64 × UInt64}

theorem inSkips_of_addSkip {x : UInt64} (h : InSkips (addSkip log r).skips x) :
    InSkips log.skips x ∨ r.1 ≤ x ∧ x < r.2 := by
  by_cases hr : r.1 < r.2
  · rw [inSkips_iff_covered] at h ⊢
    have hsegs : segs (addSkip log r) = _ := segs_addSkip hr
    unfold segs at hsegs
    rw [hsegs] at h
    exact (covered_of_insertSeg h).imp_right (mem_rangeSeg r x).mp
  · rw [addSkip_of_empty hr] at h
    exact Or.inl h

theorem length_addSkip_le (log : Log) (r : UInt64 × UInt64) :
    (addSkip log r).skips.length ≤ log.skips.length + 1 := by
  by_cases hr : r.1 < r.2
  · have hlength := length_insertSeg_le skipMax (segs log) (rangeSeg r)
    rw [← segs_addSkip hr, segs, segs, List.length_map, List.length_map] at hlength
    exact hlength
  · rw [addSkip_of_empty hr]
    exact Nat.le_succ _

theorem pages_addSkip (log : Log) (r : UInt64 × UInt64) : (addSkip log r).pages = log.pages := by
  unfold addSkip badmemLogAddSkip
  cases mergeSkip r.1 r.2 log.skips with
  | some merged => split_ifs <;> rfl
  | none => split_ifs <;> rfl

end

/-- The addresses of the range which is listed for an error have its page. -/
theorem mbBase_of_mem {addr x : UInt64} (hlo : mbBase addr ≤ x)
    (hhi : x < mbBase addr + 0x100000) : mbBase x = mbBase addr := by
  rw [UInt64.le_iff_toNat_le] at hlo
  rw [UInt64.lt_iff_toNat_lt, UInt64.toNat_add] at hhi
  have hmb : (0x100000 : UInt64).toNat = 2 ^ 20 := rfl
  have hx := toNat_mbBase x
  have haddr := toNat_mbBase addr
  apply UInt64.toNat_inj.mp
  omega

theorem sinceStart_le (events : List Event) (base : UInt64) :
    (watch events).sinceStart base ≤ errorsIn events base := by
  induction events using List.reverseRecOn with
  | nil => exact Nat.zero_le _
  | append_singleton events e ih =>
      rw [watch_append_singleton]
      cases he : counted e with
      | none =>
          rw [errorsIn_uncounted events he, (next_uncounted (watch events) he).1]
          exact ih
      | some addr =>
          rw [errorsIn_counted events he]
          obtain ⟨type, n, rfl, htype⟩ := eq_error_of_counted he
          have hsince : ((watch events).next (.error type addr n)).sinceStart =
              countUp (watch events).detector (watch events).sinceStart (mbBase addr) :=
            if_pos htype
          rw [hsince]
          unfold countUp
          by_cases hbase : mbBase addr = base
          · rw [if_pos hbase, hbase, Function.update_self]
            split_ifs <;> omega
          · rw [if_neg hbase, Function.update_of_ne (Ne.symm hbase)]
            exact ih

/-- No address is skipped before its page has had eight errors. -/
theorem skipped_of_eight (events : List Event) {x : UInt64}
    (h : InSkips (watch events).detector.log.skips x) : 8 ≤ errorsIn events (mbBase x) := by
  induction events using List.reverseRecOn with
  | nil =>
      obtain ⟨s, hs, -⟩ := h
      exact absurd hs List.not_mem_nil
  | append_singleton events e ih =>
      rw [watch_append_singleton] at h
      cases he : counted e with
      | none =>
          rw [(next_uncounted (watch events) he).2.2] at h
          rw [errorsIn_uncounted events he]
          exact ih h
      | some addr =>
          have hsince := sinceStart_le (events ++ [e]) (mbBase addr)
          have hgrows := errorsIn_counted events he (mbBase x)
          obtain ⟨type, n, rfl, htype⟩ := eq_error_of_counted he
          have hskips : ((watch events).next (.error type addr n)).detector.log.skips = _ :=
            (next_error (counted_watch events) htype n).2
          rw [hskips] at h
          split_ifs at h with hburst
          · rcases inSkips_of_addSkip h with hbefore | ⟨hlo, hhi⟩
            · have hearned := ih hbefore
              omega
            · -- the eighth error of the page, counted since its slot was started
              have hcount : (watch (events ++ [.error type addr n])).sinceStart =
                  countUp (watch events).detector (watch events).sinceStart (mbBase addr) := by
                rw [watch_append_singleton]
                exact if_pos htype
              have hrun := slotRun_eq (counted_watch events) (mbBase addr)
              rw [mbBase_of_mem hlo hhi]
              rw [hcount] at hsince
              omega
          · have hearned := ih h
            omega

/-- The errors which the slots have counted and no skip range has used up. -/
def pending (d : Detector) : ℕ := ∑ i, (d.lru i).run

theorem sum_update_run (lru : Fin mbLruSlots → LruSlot) (slot : Fin mbLruSlots) (s : LruSlot) :
    (∑ i, (Function.update lru slot s i).run) + (lru slot).run = (∑ i, (lru i).run) + s.run := by
  have hpoint (i : Fin mbLruSlots) : (Function.update lru slot s i).run =
      Function.update (fun i => (lru i).run) slot s.run i := by
    by_cases heq : i = slot
    · rw [heq, Function.update_self, Function.update_self]
    · rw [Function.update_of_ne heq, Function.update_of_ne heq]
  simp only [hpoint]
  rw [Finset.sum_update_of_mem (Finset.mem_univ slot),
    ← Finset.add_sum_erase _ (fun i => (lru i).run) (Finset.mem_univ slot), Finset.erase_eq]
  omega

/-- What the errors so far have been used for: eight each for the skip ranges, the others
still in the slots. -/
def spent (d : Detector) : ℕ := 8 * d.log.skips.length + pending d

/-- A slot which is taken over drops what it has counted. -/
theorem spent_takeSlot (d : Detector) (base : UInt64) : spent (takeSlot d base).1 ≤ spent d := by
  unfold takeSlot spent pending
  cases findSlot d base with
  | some slot => exact le_rfl
  | none =>
      have hsum := sum_update_run d.lru d.lruNext ⟨base, 0⟩
      simp only at hsum ⊢
      omega

theorem spent_countError (d : Detector) (slot : Fin mbLruSlots) :
    spent (countError d slot) ≤ spent d + 1 := by
  have hsum := sum_update_run d.lru slot
    ⟨(d.lru slot).base, if (d.lru slot).run < 255 then (d.lru slot).run + 1 else (d.lru slot).run⟩
  unfold countError spent pending
  simp only at hsum ⊢
  split_ifs at hsum ⊢
  all_goals omega

/-- A new range uses the eight errors of its slot up. -/
theorem spent_actOnBurst (d : Detector) (base : UInt64) (slot : Fin mbLruSlots) :
    spent (actOnBurst d base slot) ≤ spent d := by
  unfold actOnBurst
  split_ifs with hburst
  · have hsum := sum_update_run d.lru slot ⟨0, 0⟩
    have hlength := length_addSkip_le d.log (base, base + 0x100000)
    unfold addSkip at hlength
    unfold spent pending
    simp only at hsum hlength ⊢
    omega
  · exact le_rfl

theorem spent_trackBurst (d : Detector) (addr : UInt64) :
    spent (trackBurst d addr) ≤ spent d + 1 := by
  unfold trackBurst
  calc
    _ ≤ spent (countError (takeSlot d (mbBase addr)).1 (takeSlot d (mbBase addr)).2) :=
      spent_actOnBurst _ _ _
    _ ≤ spent (takeSlot d (mbBase addr)).1 + 1 := spent_countError _ _
    _ ≤ spent d + 1 := Nat.add_le_add_right (spent_takeSlot d (mbBase addr)) 1

theorem spent_next (w : Watched) (e : Event) :
    spent (w.next e).detector ≤ spent w.detector + (counted e).toList.length := by
  cases he : counted e with
  | none =>
      obtain ⟨-, hlru, hlog⟩ := next_uncounted w he
      unfold spent pending
      rw [hlru, hlog]
      exact Nat.le_add_right _ _
  | some addr =>
      obtain ⟨type, n, rfl, htype⟩ := eq_error_of_counted he
      have hnext : (w.next (.error type addr n)).detector =
          bailOnTotal (trackBurst (recordError w.detector addr) addr) n :=
        commonErr_counted w.detector htype n
      have htrack := spent_trackBurst (recordError w.detector addr) addr
      unfold spent pending at htrack ⊢
      rw [hnext, bailOnTotal_lru, bailOnTotal_log]
      exact htrack

theorem length_reported (events : List Event) :
    (reported events).length = (events.map fun e => (counted e).toList.length).sum := by
  induction events with
  | nil => rfl
  | cons e events ih =>
      rw [List.map_cons, List.sum_cons, ← ih]
      unfold reported
      cases he : counted e with
      | none => rw [List.filterMap_cons_none he, Option.toList_none, List.length_nil, Nat.zero_add]
      | some addr =>
          rw [List.filterMap_cons_some he, List.length_cons, Option.toList_some,
            List.length_singleton, Nat.add_comm]

theorem spent_watch (events : List Event) :
    spent (watch events).detector ≤ (reported events).length := by
  have hrun := LabelledRuns.foldl_potential (fun w : Watched => spent w.detector)
    (fun e => (counted e).toList.length) spent_next events {}
  rw [← length_reported] at hrun
  have hstart : spent ({} : Watched).detector = 0 := rfl
  simp only [hstart, Nat.zero_add] at hrun
  exact hrun

theorem pages_trackBurst (d : Detector) (addr : UInt64) :
    (trackBurst d addr).log.pages = d.log.pages := by
  have hlog : (countError (takeSlot d (mbBase addr)).1 (takeSlot d (mbBase addr)).2).log =
      d.log := by
    unfold countError takeSlot
    cases findSlot d (mbBase addr) with
    | some slot => rfl
    | none => rfl
  unfold trackBurst actOnBurst
  simp only
  split_ifs
  · have hpages := pages_addSkip d.log (mbBase addr, mbBase addr + 0x100000)
    unfold addSkip at hpages
    rw [hlog]
    exact hpages
  · rw [hlog]

/-- Whatever the detector decides, the log keeps every page it has room for. -/
theorem pages_watch (events : List Event) : (watch events).detector.log.pages =
    recordAll maxEntries [] ((reported events).map pageAlign) := by
  induction events using List.reverseRecOn with
  | nil => rfl
  | append_singleton events e ih =>
      rw [watch_append_singleton, reported_append]
      cases he : counted e with
      | none =>
          rw [(next_uncounted (watch events) he).2.2, ih, Option.toList_none, List.append_nil]
      | some addr =>
          obtain ⟨type, n, rfl, htype⟩ := eq_error_of_counted he
          have hnext : ((watch events).next (.error type addr n)).detector =
              bailOnTotal (trackBurst (recordError (watch events).detector addr) addr) n :=
            commonErr_counted _ htype n
          rw [hnext, bailOnTotal_log, pages_trackBurst, Option.toList_some, List.map_append]
          unfold recordAll
          rw [List.foldl_append]
          unfold recordAll at ih
          rw [← ih]
          rfl

theorem mem_pages_watch (events : List Event) {a : UInt64} (ha : a ∈ reported events) :
    pageAlign a ∈ (watch events).detector.log.pages ∨
      maxEntries ≤ (watch events).detector.log.pages.length := by
  rw [pages_watch]
  exact mem_recordAll_or_full maxEntries [] (List.mem_map_of_mem ha)

/-- Over any stream of errors, and whatever tests they come in: a skipped address has had eight
errors in its 1 MiB page, each skip range stands for eight errors of its own, and every counted
error is in the log while that has room. -/
theorem skips_cost_eight_errors (events : List Event) :
    (∀ x, InSkips (watch events).detector.log.skips x → 8 ≤ errorsIn events (mbBase x)) ∧
      8 * (watch events).detector.log.skips.length ≤ (reported events).length ∧
      ∀ a ∈ reported events, pageAlign a ∈ (watch events).detector.log.pages ∨
        maxEntries ≤ (watch events).detector.log.pages.length := by
  have hspent := spent_watch events
  unfold spent at hspent
  refine ⟨fun x => skipped_of_eight events, ?_, fun a => mem_pages_watch events⟩
  omega

theorem properSkips_watch (events : List Event) :
    ProperSkips (watch events).detector.log.skips := by
  induction events using List.reverseRecOn with
  | nil => exact fun s hs => absurd hs List.not_mem_nil
  | append_singleton events e ih =>
      rw [watch_append_singleton]
      cases he : counted e with
      | none =>
          rw [(next_uncounted (watch events) he).2.2]
          exact ih
      | some addr =>
          obtain ⟨type, n, rfl, htype⟩ := eq_error_of_counted he
          have hskips : ((watch events).next (.error type addr n)).detector.log.skips = _ :=
            (next_error (counted_watch events) htype n).2
          rw [hskips]
          split_ifs
          · exact badmemLogAddSkip_proper ih _ _
          · exact ih

/-- What a later test leaves out, it leaves out for eight errors in the 1 MiB page: fewer than
64 errors never overrun the work pieces of `board_prune_vm_map`. -/
theorem untested_for_eight_errors {B : Type} (events : List Event) {m : ℕ}
    {vmMap : List (VmMapEntry B)} (hsize : vmMap.length ≤ m)
    (hfew : (reported events).length < 8 * workSize)
    (hroom : (vmMap.flatMap (entryPieces (watch events).detector.log.skips)).length ≤ m) :
    ∃ result, boardPruneVmMap m (watch events).detector.log.skips vmMap = .ok result ∧
      ∀ x, InMap vmMap x → ¬InMap result x → 8 ≤ errorsIn events (mbBase x) := by
  have hproper := properSkips_watch events
  have hspent := spent_watch events
  unfold spent at hspent
  have hentry := entry_fits_of_few_skips (B := B) hproper (by omega)
  refine ⟨_, boardPruneVmMap_eq hsize fun entry _ => (hentry entry).1, ?_⟩
  rw [List.take_of_length_le hroom]
  intro x hin hout
  have hunion := (union_iff hproper vmMap).mpr fun entry _ x hdrops =>
    absurd hdrops ((hentry entry).2 x)
  by_contra hfewer
  exact hout ((hunion x).mpr ⟨hin, fun hskips => hfewer (skipped_of_eight events hskips)⟩)

/-- Eight errors of one page, and a map of one segment around it. -/
def oneBurst : List Event := List.replicate 8 (.error .dataError 0x12345678 8)

def oneSegment : List (VmMapEntry Unit) := [⟨(), 0x10000000, 0x20000000⟩]

theorem untested_for_eight_errors_burst :
    ∃ result, boardPruneVmMap 4 (watch oneBurst).detector.log.skips oneSegment = .ok result ∧
      ∀ x, InMap oneSegment x → ¬InMap result x → 8 ≤ errorsIn oneBurst (mbBase x) :=
  untested_for_eight_errors oneBurst (by decide) (by decide) (by decide +kernel)

end BankFinder.SkippedMemory
