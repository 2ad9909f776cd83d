import BankFinder.InPlaceSorting
import BankFinder.MaskShim
import BankFinder.SelftestPairs

/-!
# The verdict of the decoder self-test

`decoder_selftest_run` times the three pairs of addresses, a hundred samples each, sorts
the samples and compares the medians: a bank conflict has to take more than half as long
again as a row hit and as an access to another bank. The verdict is stored as a text, and
`mask-shim` chooses its mask by that text.
-/

namespace BankFinder.DecoderSelftest
open InPlaceSorting Nvram CflSkl SelftestPairs MaskShim

/-- `brr_decoder_status_t` -/
inductive DecoderStatus where
  | unknown
  | validated
  | failed
  | notApplicable
  deriving DecidableEq, Repr

/-- The string which `decoder_selftest_run` writes. -/
def DecoderStatus.text : DecoderStatus → String
  | .validated => "VALIDATED"
  | .failed => "FAILED"
  | .notApplicable => "NOT_APPLICABLE"
  | .unknown => "UNKNOWN"

def samples : ℕ := 100
def stallPerSampleUs : UInt32 := 10

/-- `a[j - 1] > key` is the test of the inner loop. -/
def sortU64 (a : List UInt64) (n : ℕ) : List UInt64 := sortInPlace (· > ·) a n

/-- The loop of `median_latency`. It gives up when the budget is exactly 0. -/
def sampleLoop (measurePair : ℕ → UInt64) (doStall : Bool) :
    ℕ → UInt32 → List UInt64 → Option (List UInt64) × UInt32
  | 0, budget, taken => (some taken, budget)
  | left + 1, budget, taken =>
      let taken := taken ++ [measurePair taken.length]
      if doStall ∧ stallPerSampleUs ≤ budget then
        sampleLoop measurePair doStall left (budget - stallPerSampleUs) taken
      else if budget = 0 then (none, budget)
      else sampleLoop measurePair doStall left budget taken

/-- The median, with what is left of the budget. -/
def medianLatency (measurePair : ℕ → UInt64) (doStall : Bool) (budget : UInt32) :
    UInt64 × UInt32 :=
  match sampleLoop measurePair doStall samples budget [] with
  | (some taken, budget) => ((sortU64 taken samples).getD (samples / 2) 0, budget)
  | (none, budget) => (0, budget)

/-- What a run depends on. `latency` gives the samples of a pair, by the offsets of its
addresses; `setVariable` is missing, or carries the firmware's error when it refuses. -/
structure Selftest where
  bootServices : Bool
  stall : Bool
  host : McHost
  bufPa : Option UInt64
  latency : UInt64 × UInt64 → ℕ → UInt64
  setVariable : Option (Option EfiStatus)

def storeVerdict (t : Selftest) (store : Store) (result : DecoderStatus) : Store :=
  match t.setVariable with
  | none => store
  | some refused => (store.write refused .brr varnameDecoderStatus (ascii result.text)).2

/-- The evaluation of the three medians. -/
def evaluate (t : Selftest) (store : Store) (rMed cMed dMed : UInt64) : DecoderStatus × Store :=
  if rMed = 0 ∨ cMed = 0 ∨ dMed = 0 then (.unknown, store)
  else
    let passCr := 2 * cMed > 3 * rMed
    let passCd := 2 * cMed > 3 * dMed
    let result := if passCr ∧ passCd then .validated else .failed
    (result, storeVerdict t store result)

def measureAll (t : Selftest) (store : Store) (r c d : UInt64 × UInt64) : DecoderStatus × Store :=
  let rMed := medianLatency (t.latency r) t.stall 5000000
  let cMed := medianLatency (t.latency c) t.stall rMed.2
  let dMed := medianLatency (t.latency d) t.stall cMed.2
  evaluate t store rMed.1 cMed.1 dMed.1

def decoderSelftestRun (t : Selftest) (store : Store) : DecoderStatus × Store :=
  if !t.bootServices || !t.stall then (.unknown, store)
  else if !cflSklDetect t.host then (.notApplicable, store)
  else if !(imcDecodePa t.host 0).bankRowValid then (.notApplicable, store)
  else
    match t.bufPa with
    | none => (.unknown, store)
    | some bufPa =>
        if bufPa = 0 then (.unknown, store)
        else
          match findRowHit t.host bufPa, findBankConflict t.host bufPa,
            findDiffBank t.host bufPa with
          | some r, some c, some d => measureAll t store r c d
          | _, _, _ => (.unknown, store)

/-- Of the hundred samples 51 are not above `m` and 50 are not below it. -/
def IsMedian (measurePair : ℕ → UInt64) (m : UInt64) : Prop :=
  RankIs (· > ·) ((List.range samples).map measurePair) (samples / 2) m

instance : Std.Total (Before fun x y : UInt64 => x > y) where
  total x y := by
    unfold Before
    simp only [gt_iff_lt, UInt64.lt_iff_toNat_lt]
    omega

instance : IsTrans UInt64 (Before fun x y : UInt64 => x > y) where
  trans x y z := by
    unfold Before
    simp only [gt_iff_lt, UInt64.lt_iff_toNat_lt]
    omega

theorem IsMedian.unique {measurePair : ℕ → UInt64} {m m' : UInt64} (h : IsMedian measurePair m)
    (h' : IsMedian measurePair m') : m = m' := by
  have hlength : samples / 2 < ((List.range samples).map measurePair).length := by
    rw [List.length_map, List.length_range]
    decide
  have hle := RankIs.not_larger (· > ·) hlength h h'
  have hge := RankIs.not_larger (· > ·) hlength h' h
  simp only [gt_iff_lt, UInt64.lt_iff_toNat_lt] at hle hge
  exact UInt64.toNat_inj.mp (by omega)

/-- With time left for all samples the loop takes them all. -/
theorem sampleLoop_eq (measurePair : ℕ → UInt64) (left : ℕ) (budget : UInt32)
    (taken : List UInt64) (hbudget : 10 * left ≤ budget.toNat) :
    sampleLoop measurePair true left budget taken =
      (some (taken ++ (List.range' taken.length left).map measurePair),
        UInt32.ofNat (budget.toNat - 10 * left)) := by
  induction left generalizing budget taken with
  | zero =>
      rw [sampleLoop, List.range'_zero, List.map_nil, List.append_nil, Nat.mul_zero, Nat.sub_zero,
        UInt32.ofNat_toNat]
  | succ left ih =>
      have hstall : stallPerSampleUs.toNat = 10 := rfl
      have henough : stallPerSampleUs ≤ budget := by
        rw [UInt32.le_iff_toNat_le]
        omega
      have hleft : (budget - stallPerSampleUs).toNat = budget.toNat - 10 := by
        rw [UInt32.toNat_sub_of_le _ _ henough, hstall]
      have htime : budget.toNat - 10 - 10 * left = budget.toNat - 10 * (left + 1) := by omega
      rw [sampleLoop, if_pos ⟨rfl, henough⟩, ih _ _ (by omega), hleft, List.length_append,
        List.length_singleton, List.range'_succ, List.map_cons, List.append_assoc,
        List.singleton_append, htime]

/-- A measurement within the time budget gives the median and uses 1000 microseconds up. -/
theorem medianLatency_spec (measurePair : ℕ → UInt64) {budget : UInt32}
    (hbudget : 10 * samples ≤ budget.toNat) :
    IsMedian measurePair (medianLatency measurePair true budget).1 ∧
      (medianLatency measurePair true budget).2 =
        UInt32.ofNat (budget.toNat - 10 * samples) := by
  have htaken := sampleLoop_eq measurePair samples budget [] hbudget
  rw [List.nil_append, List.length_nil, ← List.range_eq_range'] at htaken
  rw [medianLatency, htaken]
  refine ⟨?_, rfl⟩
  have hlength : ((List.range samples).map measurePair).length = samples := by
    rw [List.length_map, List.length_range]
  unfold IsMedian sortU64
  generalize (List.range samples).map measurePair = taken at hlength ⊢
  have hperm := sortInPlace_perm (· > ·) taken
  have hsorted := sortInPlace_sorted (· > ·) taken
  rw [hlength] at hperm hsorted
  have hmiddle : samples / 2 < (sortInPlace (· > ·) taken samples).length := by
    rw [hperm.length_eq, hlength]
    decide
  have hrank := rankIs_sorted (· > ·) (fun x => UInt64.lt_irrefl x) hsorted hmiddle
  simp only [List.getD_eq_getElem _ _ hmiddle]
  exact hrank.perm (· > ·) hperm

/-- The run comes to the measurements, with these pairs of offsets. -/
structure Tested (t : Selftest) (r c d : UInt64 × UInt64) : Prop where
  services : t.bootServices = true ∧ t.stall = true
  decodes : cflSklDetect t.host = true ∧ (imcDecodePa t.host 0).bankRowValid = true
  pairs : ∃ bufPa, t.bufPa = some bufPa ∧ bufPa ≠ 0 ∧ findRowHit t.host bufPa = some r ∧
    findBankConflict t.host bufPa = some c ∧ findDiffBank t.host bufPa = some d

theorem decoderSelftestRun_tested {t : Selftest} {r c d : UInt64 × UInt64} (h : Tested t r c d)
    (store : Store) : decoderSelftestRun t store = measureAll t store r c d := by
  obtain ⟨⟨hboot, hstall⟩, ⟨hdetect, hrow⟩, bufPa, hbuf, hpa, hr, hc, hd⟩ := h
  unfold decoderSelftestRun
  simp only [hboot, hstall, hdetect, hrow, hbuf, hr, hc, hd, if_neg hpa, Bool.not_true,
    Bool.or_self, Bool.false_eq_true, if_false]

/-- Any other run leaves the variables alone and decides nothing. -/
theorem decoderSelftestRun_untested {t : Selftest} (h : ∀ r c d, ¬Tested t r c d)
    (store : Store) : ((decoderSelftestRun t store).1 = .unknown ∨
      (decoderSelftestRun t store).1 = .notApplicable) ∧
      (decoderSelftestRun t store).2 = store := by
  unfold decoderSelftestRun
  split_ifs with hservices hdetect hrow
  · exact ⟨Or.inl rfl, rfl⟩
  · exact ⟨Or.inr rfl, rfl⟩
  · exact ⟨Or.inr rfl, rfl⟩
  cases hbuf : t.bufPa with
  | none => exact ⟨Or.inl rfl, rfl⟩
  | some bufPa =>
      simp only
      split_ifs with hpa
      · exact ⟨Or.inl rfl, rfl⟩
      split
      · rename_i r c d hr hc hd
        refine absurd ?_ (h r c d)
        exact ⟨by simpa using hservices, ⟨by simpa using hdetect, by simpa using hrow⟩, bufPa,
          hbuf, hpa, hr, hc, hd⟩
      · exact ⟨Or.inl rfl, rfl⟩

/-- All measurements are made within the time budget. -/
theorem measureAll_medians {t : Selftest} (hstall : t.stall = true) (store : Store)
    (r c d : UInt64 × UInt64) : ∃ rMed cMed dMed, IsMedian (t.latency r) rMed ∧
      IsMedian (t.latency c) cMed ∧ IsMedian (t.latency d) dMed ∧
      measureAll t store r c d = evaluate t store rMed cMed dMed := by
  have hfirst : 10 * samples ≤ (5000000 : UInt32).toNat := by decide
  have hsecond : 10 * samples ≤ (4999000 : UInt32).toNat := by decide
  have hthird : 10 * samples ≤ (4998000 : UInt32).toNat := by decide
  have hrow := medianLatency_spec (t.latency r) hfirst
  have hconflict := medianLatency_spec (t.latency c) hsecond
  have hother := medianLatency_spec (t.latency d) hthird
  have hleft : UInt32.ofNat ((5000000 : UInt32).toNat - 10 * samples) = 4999000 := rfl
  have hleft' : UInt32.ofNat ((4999000 : UInt32).toNat - 10 * samples) = 4998000 := rfl
  rw [hleft] at hrow
  rw [hleft'] at hconflict
  refine ⟨_, _, _, hrow.1, hconflict.1, hother.1, ?_⟩
  unfold measureAll
  simp only [hstall, hrow.2, hconflict.2]

/-- A run which comes to the measurements, with the three medians. -/
def Measured (t : Selftest) (rMed cMed dMed : UInt64) : Prop :=
  ∃ r c d, Tested t r c d ∧ IsMedian (t.latency r) rMed ∧ IsMedian (t.latency c) cMed ∧
    IsMedian (t.latency d) dMed

theorem Tested.unique {t : Selftest} {r c d r' c' d' : UInt64 × UInt64} (h : Tested t r c d)
    (h' : Tested t r' c' d') : r = r' ∧ c = c' ∧ d = d' := by
  obtain ⟨bufPa, hbuf, -, hr, hc, hd⟩ := h.pairs
  obtain ⟨bufPa', hbuf', -, hr', hc', hd'⟩ := h'.pairs
  rw [hbuf] at hbuf'
  obtain rfl := Option.some.inj hbuf'
  rw [hr] at hr'
  rw [hc] at hc'
  rw [hd] at hd'
  exact ⟨Option.some.inj hr', Option.some.inj hc', Option.some.inj hd'⟩

theorem Measured.unique {t : Selftest} {r c d r' c' d' : UInt64} (h : Measured t r c d)
    (h' : Measured t r' c' d') : r = r' ∧ c = c' ∧ d = d' := by
  obtain ⟨_, _, _, htested, hr, hc, hd⟩ := h
  obtain ⟨_, _, _, htested', hr', hc', hd'⟩ := h'
  obtain ⟨rfl, rfl, rfl⟩ := htested.unique htested'
  exact ⟨hr.unique hr', hc.unique hc', hd.unique hd'⟩

/-- A run is evaluated by its medians, or decides nothing. -/
theorem decoderSelftestRun_cases (t : Selftest) (store : Store) :
    (∃ r c d, Measured t r c d ∧ decoderSelftestRun t store = evaluate t store r c d) ∨
      (∀ r c d, ¬Measured t r c d) ∧ (decoderSelftestRun t store).1 ≠ .validated ∧
        (decoderSelftestRun t store).1 ≠ .failed ∧ (decoderSelftestRun t store).2 = store := by
  by_cases htested : ∃ r c d, Tested t r c d
  · obtain ⟨r, c, d, htested⟩ := htested
    obtain ⟨rMed, cMed, dMed, hr, hc, hd, heq⟩ :=
      measureAll_medians htested.services.2 store r c d
    rw [decoderSelftestRun_tested htested, heq]
    exact Or.inl ⟨rMed, cMed, dMed, ⟨r, c, d, htested, hr, hc, hd⟩, rfl⟩
  · simp only [not_exists] at htested
    obtain ⟨hstatus, hstore⟩ := decoderSelftestRun_untested htested store
    refine Or.inr ⟨?_, ?_, ?_, hstore⟩
    · rintro _ _ _ ⟨r, c, d, h, -⟩
      exact htested r c d h
    · rcases hstatus with hstatus | hstatus <;> rw [hstatus] <;> decide
    · rcases hstatus with hstatus | hstatus <;> rw [hstatus] <;> decide

/-- The conflict takes more than 3/2 of the time of each of the others. -/
def Confirms (rMed cMed dMed : UInt64) : Prop :=
  3 * rMed.toNat < 2 * cMed.toNat ∧ 3 * dMed.toNat < 2 * cMed.toNat

instance (rMed cMed dMed : UInt64) : Decidable (Confirms rMed cMed dMed) :=
  inferInstanceAs (Decidable (_ ∧ _))

theorem ratio_iff {x y : UInt64} (hx : x.toNat < 2 ^ 62) (hy : y.toNat < 2 ^ 62) :
    2 * x > 3 * y ↔ 3 * y.toNat < 2 * x.toNat := by
  have htwo : (2 : UInt64).toNat = 2 := rfl
  have hthree : (3 : UInt64).toNat = 3 := rfl
  rw [gt_iff_lt, UInt64.lt_iff_toNat_lt, UInt64.toNat_mul, UInt64.toNat_mul, htwo, hthree,
    Nat.mod_eq_of_lt (by omega), Nat.mod_eq_of_lt (by omega)]

theorem evaluate_eq (t : Selftest) (store : Store) {r c d : UInt64} (hr : r.toNat < 2 ^ 62)
    (hc : c.toNat < 2 ^ 62) (hd : d.toNat < 2 ^ 62) (hzero : ¬(r = 0 ∨ c = 0 ∨ d = 0)) :
    evaluate t store r c d = (if Confirms r c d then .validated else .failed,
      storeVerdict t store (if Confirms r c d then .validated else .failed)) := by
  have hratios : 2 * c > 3 * r ∧ 2 * c > 3 * d ↔ Confirms r c d :=
    and_congr (ratio_iff hc hr) (ratio_iff hc hd)
  unfold evaluate
  simp only [if_neg hzero, hratios]

theorem IsMedian.lt {measurePair : ℕ → UInt64} {m : UInt64} (h : IsMedian measurePair m) {n : ℕ}
    (hshort : ∀ i, (measurePair i).toNat < n) : m.toNat < n := by
  obtain ⟨i, -, rfl⟩ := List.mem_map.mp h.mem
  exact hshort i

/-- The verdict is one of the two which the shim looks for, and the firmware takes it. -/
def Stored (t : Selftest) (result : DecoderStatus) : Prop :=
  (result = .validated ∨ result = .failed) ∧ t.setVariable = some none

theorem decoderStatusIs_set (store : Store) {text : String} (hne : ascii text ≠ [])
    (hshort : (ascii text).length ≤ 31) (hnul : cString (ascii text) = ascii text)
    (status : String) : decoderStatusIs (store.set .brr varnameDecoderStatus (ascii text)) status =
      asciiEq (ascii text) (ascii status) := by
  have hget : getVariable (store.set .brr varnameDecoderStatus (ascii text)) .brr
      varnameDecoderStatus (32 - 1) = (efiSuccess, ascii text) :=
    getVariable_fits (Store.get?_set store .brr varnameDecoderStatus hne) hshort
  unfold decoderStatusIs maskNvramGetAscii
  rw [hget]
  simp only [if_true, hnul, ne_eq, not_true_eq_false, if_false]

/-- Either verdict is told from the other. -/
theorem storeVerdict_reads {t : Selftest} (h : t.setVariable = some none) (store : Store)
    {result : DecoderStatus} (hresult : result = .validated ∨ result = .failed) :
    readNvramDecoderStatusValidated (storeVerdict t store result) = decide (result = .validated) ∧
      readNvramDecoderStatusFailed (storeVerdict t store result) = decide (result = .failed) := by
  have hwrite : storeVerdict t store result =
      store.set .brr varnameDecoderStatus (ascii result.text) := by
    rw [storeVerdict, h]
    rfl
  unfold readNvramDecoderStatusValidated readNvramDecoderStatusFailed
  rw [hwrite]
  rcases hresult with rfl | rfl
  · rw [decoderStatusIs_set store (by decide) (by decide) (by decide),
      decoderStatusIs_set store (by decide) (by decide) (by decide)]
    decide
  · rw [decoderStatusIs_set store (by decide) (by decide) (by decide),
      decoderStatusIs_set store (by decide) (by decide) (by decide)]
    decide

theorem storeVerdict_refused {t : Selftest} (h : t.setVariable ≠ some none) (store : Store)
    (result : DecoderStatus) : storeVerdict t store result = store := by
  unfold storeVerdict
  cases hset : t.setVariable with
  | none => rfl
  | some refused =>
      cases refused with
      | none => exact absurd hset h
      | some e => rfl

/-- The medians of a run, none of which is 0. -/
def Timed (t : Selftest) (r c d : UInt64) : Prop :=
  Measured t r c d ∧ ¬(r = 0 ∨ c = 0 ∨ d = 0)

theorem Timed.unique {t : Selftest} {r c d r' c' d' : UInt64} (h : Timed t r c d)
    (h' : Timed t r' c' d') : r = r' ∧ c = c' ∧ d = d' := h.1.unique h'.1

/-- A run either has its medians and is judged by them, or decides nothing and stores nothing. -/
theorem decoderSelftestRun_eq (t : Selftest) (store : Store)
    (hshort : ∀ p i, (t.latency p i).toNat < 2 ^ 62) :
    (∃ r c d, Timed t r c d ∧ decoderSelftestRun t store =
      (if Confirms r c d then .validated else .failed,
        storeVerdict t store (if Confirms r c d then .validated else .failed))) ∨
      (∀ r c d, ¬Timed t r c d) ∧ (decoderSelftestRun t store).1 ≠ .validated ∧
        (decoderSelftestRun t store).1 ≠ .failed ∧ (decoderSelftestRun t store).2 = store := by
  rcases decoderSelftestRun_cases t store with ⟨r, c, d, hmeasured, heq⟩ | ⟨hnone, hrest⟩
  · have hbounds : r.toNat < 2 ^ 62 ∧ c.toNat < 2 ^ 62 ∧ d.toNat < 2 ^ 62 := by
      obtain ⟨_, _, _, -, hr, hc, hd⟩ := hmeasured
      exact ⟨hr.lt (hshort _), hc.lt (hshort _), hd.lt (hshort _)⟩
    rw [heq]
    by_cases hzero : r = 0 ∨ c = 0 ∨ d = 0
    · have hunknown : evaluate t store r c d = (.unknown, store) := if_pos hzero
      rw [hunknown]
      refine Or.inr ⟨?_, by simp, by simp, rfl⟩
      intro r' c' d' htimed
      obtain ⟨rfl, rfl, rfl⟩ := hmeasured.unique htimed.1
      exact htimed.2 hzero
    · exact Or.inl ⟨r, c, d, ⟨hmeasured, hzero⟩,
        evaluate_eq t store hbounds.1 hbounds.2.1 hbounds.2.2 hzero⟩
  · exact Or.inr ⟨fun r c d htimed => hnone r c d htimed.1, hrest⟩

/-- What confirms the decoder is measured, not read from the variables. -/
theorem decoderSelftestRun_validated {t : Selftest} {s : Store}
    (hshort : ∀ p i, (t.latency p i).toNat < 2 ^ 62)
    (h : (decoderSelftestRun t s).1 = .validated) (store : Store) :
    decoderSelftestRun t store = (.validated, storeVerdict t store .validated) := by
  rcases decoderSelftestRun_eq t s hshort with ⟨r, c, d, htimed, heq⟩ | ⟨-, hnot, -, -⟩
  · have hconfirms : Confirms r c d := by
      by_contra hnot
      rw [heq, if_neg hnot] at h
      cases h
    rcases decoderSelftestRun_eq t store hshort with ⟨r', c', d', htimed', heq'⟩ | ⟨hnone, -⟩
    · obtain ⟨rfl, rfl, rfl⟩ := htimed.unique htimed'
      rw [heq', if_pos hconfirms]
    · exact absurd htimed (hnone r c d)
  · exact absurd h hnot

/-- The verdict is that of the medians, and it is what the shim reads afterwards: exactly when
one of the two verdicts was reached and stored, and otherwise the variables are as before. -/
theorem shim_reads_verdict (t : Selftest) (store : Store)
    (hshort : ∀ p i, (t.latency p i).toNat < 2 ^ 62) :
    let r := decoderSelftestRun t store
    (r.1 = .validated ↔ ∃ rMed cMed dMed, Timed t rMed cMed dMed ∧ Confirms rMed cMed dMed) ∧
      (r.1 = .failed ↔ ∃ rMed cMed dMed, Timed t rMed cMed dMed ∧ ¬Confirms rMed cMed dMed) ∧
      (Stored t r.1 → readNvramDecoderStatusValidated r.2 = decide (r.1 = .validated) ∧
        readNvramDecoderStatusFailed r.2 = decide (r.1 = .failed)) ∧
      (¬Stored t r.1 → r.2 = store) := by
  intro r
  rcases decoderSelftestRun_eq t store hshort with ⟨rMed, cMed, dMed, htimed, heq⟩ |
    ⟨hnone, hvalidated, hfailed, hstore⟩
  · have hr : r = _ := heq
    have hother (r' c' d' : UInt64) (h : Timed t r' c' d') :
        Confirms r' c' d' ↔ Confirms rMed cMed dMed := by
      obtain ⟨rfl, rfl, rfl⟩ := htimed.unique h
      rfl
    -- a verdict of these two is stored unless the firmware refuses it
    have hreads : Stored t r.1 → readNvramDecoderStatusValidated r.2 = decide (r.1 = .validated) ∧
        readNvramDecoderStatusFailed r.2 = decide (r.1 = .failed) := by
      rw [hr]
      exact fun hstored => storeVerdict_reads hstored.2 store hstored.1
    have hkept : ¬Stored t r.1 → r.2 = store := by
      rw [hr]
      intro hnot
      refine storeVerdict_refused (fun hset => hnot ⟨?_, hset⟩) store _
      by_cases hconfirms : Confirms rMed cMed dMed
      · exact Or.inl (if_pos hconfirms)
      · exact Or.inr (if_neg hconfirms)
    refine ⟨?_, ?_, hreads, hkept⟩
    · rw [hr]
      constructor
      · intro hvalidated
        by_cases hconfirms : Confirms rMed cMed dMed
        · exact ⟨rMed, cMed, dMed, htimed, hconfirms⟩
        · simp [if_neg hconfirms] at hvalidated
      · intro ⟨r', c', d', htimed', hconfirms⟩
        exact if_pos ((hother r' c' d' htimed').mp hconfirms)
    · rw [hr]
      constructor
      · intro hfailed
        by_cases hconfirms : Confirms rMed cMed dMed
        · simp [if_pos hconfirms] at hfailed
        · exact ⟨rMed, cMed, dMed, htimed, hconfirms⟩
      · intro ⟨r', c', d', htimed', hconfirms⟩
        exact if_neg fun h => hconfirms ((hother r' c' d' htimed').mpr h)
  · refine ⟨?_, ?_, ?_, fun _ => hstore⟩
    · refine ⟨fun h => absurd h hvalidated, ?_⟩
      intro ⟨_, _, _, htimed, _⟩
      exact absurd htimed (hnone _ _ _)
    · refine ⟨fun h => absurd h hfailed, ?_⟩
      intro ⟨_, _, _, htimed, _⟩
      exact absurd htimed (hnone _ _ _)
    · intro hstored
      rcases hstored.1 with h | h
      · exact absurd h hvalidated
      · exact absurd h hfailed

/-- A board on which the pair of the bank conflict takes 300 cycles and the others 180. -/
def timedSelftest : Selftest where
  bootServices := true
  stall := true
  host := CellBits.dualChannelHost 0
  bufPa := some 0x100000
  latency := fun p _ => if p.2 = 0x49000 then 300 else 180
  setVariable := some none

theorem timedSelftest_validated : (decoderSelftestRun timedSelftest []).1 = .validated := by
  decide +kernel

theorem timedSelftest_short (p : UInt64 × UInt64) (i : ℕ) :
    (timedSelftest.latency p i).toNat < 2 ^ 62 := by
  unfold timedSelftest
  simp only
  split_ifs <;> decide

theorem shim_reads_verdict_timed :
    readNvramDecoderStatusValidated (decoderSelftestRun timedSelftest []).2 = true := by
  have hreads := (shim_reads_verdict timedSelftest [] timedSelftest_short).2.2.1
    ⟨Or.inl timedSelftest_validated, rfl⟩
  rw [hreads.1, timedSelftest_validated]
  rfl

end BankFinder.DecoderSelftest
