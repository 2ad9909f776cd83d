import BankFinder.DecoderSelftest
import BankFinder.Handover

/-!
# Who decides on row mode

`mask-shim` masks single rows only when `BrrDecoderStatus` says that the decoder was
validated and a list of rows can be read. Over any sequence of runs, of the four programs
and of the self-test, in any order: the verdict is that of the last self-test which
reached one, and the rows are those which were there at the start, since the programs
delete these variables but never write them.
-/

namespace BankFinder.TrustedRows
open Nvram EfiMachine MachineFrame BootSession MaskOps MaskFrames BadPages Uninstall Install
open MaskInstall BrrEntry LabelledRuns SavedList InstallTriples StateHistory MaskShim RowMask
open MaskedForGood DecoderSelftest

def verdictVar : Guid × String := (.brr, varnameDecoderStatus)

/-- Where rows are read from. -/
def rowVars : Set (Guid × String) :=
  {(.brr, varnameBadrows), (.apple, varnameBadrows), (.brr, legacyVarnameBadrows)}

/-- What the programs read and delete. -/
def unwrittenVars : Set (Guid × String) := insert verdictVar rowVars

/-- Each of the variables is as it was, or gone. -/
def KeptOrGone (K : Set (Guid × String)) (first s : Store) : Prop :=
  ∀ k ∈ K, s.get? k.1 k.2 = first.get? k.1 k.2 ∨ s.get? k.1 k.2 = none

section
variable {K L : Set (Guid × String)} {first s s' : Store}

theorem KeptOrGone.refl (K : Set (Guid × String)) (s : Store) : KeptOrGone K s s :=
  fun _ _ => Or.inl rfl

theorem KeptOrGone.trans (h : KeptOrGone K first s) (h' : KeptOrGone K s s') :
    KeptOrGone K first s' := by
  intro k hk
  rcases h' k hk with hkept | hgone
  · rw [hkept]
    exact h k hk
  · exact Or.inr hgone

theorem KeptOrGone.agree (h : KeptOrGone K first s) (hL : ∀ k ∈ K, k ∉ L)
    (hagree : Agree L s s') : KeptOrGone K first s' := by
  intro k hk
  rw [hagree k (hL k hk)]
  exact h k hk

theorem ne_of_mem_unwritten {name : String}
    (h : name ∉ [varnameDecoderStatus, varnameBadrows, legacyVarnameBadrows]) :
    ∀ k ∈ unwrittenVars, k ∉ ({(.brr, name)} : Set (Guid × String)) := by
  intro k hk hname
  rw [Set.mem_singleton_iff.mp hname] at hk
  simp only [List.mem_cons, List.not_mem_nil, or_false, not_or] at h
  simp [unwrittenVars, verdictVar, rowVars, h] at hk

theorem not_global_of_unwritten {name : String} :
    ∀ k ∈ unwrittenVars, k ∉ ({(.global, name)} : Set (Guid × String)) := by
  intro k hk hname
  rw [Set.mem_singleton_iff.mp hname] at hk
  simp [unwrittenVars, verdictVar, rowVars] at hk

theorem KeptOrGone.set (h : KeptOrGone unwrittenVars first s) {name : String} (data : List UInt8)
    (hname : name ∉ [varnameDecoderStatus, varnameBadrows, legacyVarnameBadrows]) :
    KeptOrGone unwrittenVars first (s.set .brr name data) := by
  refine h.agree (ne_of_mem_unwritten hname) ?_
  exact fun k hk => Store.get?_set_other s data hk

end

/-- No write of the installer is to one of these variables. -/
theorem unwritten_withstands (first : Store) :
    WithstandsInstall (KeptOrGone unwrittenVars first) fun _ => True where
  backups hagree h := by
    refine h.agree ?_ hagree
    intro k hk hmem
    rcases hmem with hentries | horder
    · exact ne_of_mem_unwritten (by decide) k hk hentries
    · exact ne_of_mem_unwritten (by decide) k hk horder
  free _ _ _ := trivial
  entry _ _ hagree h := h.agree not_global_of_unwritten hagree
  record _ _ h := h.set _ (by decide)
  unrecord h := h.set _ (by decide)
  order hagree h := h.agree not_global_of_unwritten hagree
  state h := h.set _ (by decide)

theorem keptOrGone_afterUninstall (fw : Efi) (m : Machine) :
    KeptOrGone unwrittenVars m.store (afterUninstall fw m).store := by
  have hframe := frame_afterUninstall fw (R := ∅) (fun _ hk => absurd hk (Set.notMem_empty _)) m
  obtain ⟨_, -, hvars⟩ := recorded_afterUninstall fw m
  intro k hk
  by_cases hbrr : k.1 = .brr
  · rw [hbrr]
    rcases hvars k.2 with ⟨-, hkept⟩ | ⟨-, hgone⟩
    · exact Or.inl hkept
    · exact Or.inr hgone
  · refine Or.inl (hframe.vars k ?_)
    intro hmem
    rcases hmem with hglobal | ⟨slot, -, hglobal⟩ | ⟨hours, -⟩
    · exact not_global_of_unwritten k hk hglobal
    · exact not_global_of_unwritten k hk hglobal
    · exact hbrr hours

theorem unwritten_withstandsPrograms (first : Store) :
    WithstandsPrograms (KeptOrGone unwrittenVars first) fun _ => True where
  install := unwritten_withstands first
  trial _ h := h.set _ (by decide)
  list _ _ h := h.set _ (by decide)
  probe hagree h := h.agree (ne_of_mem_unwritten (by decide)) hagree
  confirmed _ h := h.set _ (by decide)
  uninstall fw m h := h.trans (keptOrGone_afterUninstall fw m)

/-- A run of one of the four programs, or of the self-test. -/
inductive HistoryRun : Type 1 where
  | program (r : ProgramRun)
  | selftest (t : Selftest)

def historyStep (store : Store) : HistoryRun → Store → Prop
  | .program r, store' => programStep store r store'
  | .selftest t, store' => store' = (decoderSelftestRun t store).2

/-- The self-test stores that the decoder is right. -/
def Passes (t : Selftest) : Prop :=
  t.setVariable = some none ∧ ∃ r c d, Timed t r c d ∧ Confirms r c d

/-- It stores that the decoder is wrong. -/
def Fails (t : Selftest) : Prop :=
  t.setVariable = some none ∧ ∃ r c d, Timed t r c d ∧ ¬Confirms r c d

/-- The last self-test which stored a verdict found the decoder right; or there was none, and
the verdict was there at the start. -/
def Trusted (first : Store) (runs : List HistoryRun) : Prop :=
  (∃ before t after, runs = before ++ .selftest t :: after ∧ Passes t ∧
      ∀ u, .selftest u ∈ after → ¬Fails u) ∨
    readNvramDecoderStatusValidated first = true ∧ ∀ u, .selftest u ∈ runs → ¬Fails u

theorem Trusted.snoc {first : Store} {runs : List HistoryRun} (h : Trusted first runs)
    {run : HistoryRun} (hrun : ∀ u, run = .selftest u → ¬Fails u) :
    Trusted first (runs ++ [run]) := by
  have hnone (after : List HistoryRun) (hafter : ∀ u, .selftest u ∈ after → ¬Fails u) (u : Selftest)
      (hu : .selftest u ∈ after ++ [run]) : ¬Fails u := by
    rcases List.mem_append.mp hu with hu | hu
    · exact hafter u hu
    · exact hrun u (List.mem_singleton.mp hu).symm
  rcases h with ⟨before, t, after, rfl, hpasses, hafter⟩ | ⟨hfirst, hruns⟩
  · refine Or.inl ⟨before, t, after ++ [run], ?_, hpasses, hnone after hafter⟩
    rw [List.append_assoc, List.cons_append]
  · exact Or.inr ⟨hfirst, hnone runs hruns⟩

theorem validated_congr {s s' : Store}
    (h : s'.get? .brr varnameDecoderStatus = s.get? .brr varnameDecoderStatus) :
    readNvramDecoderStatusValidated s' = readNvramDecoderStatusValidated s := by
  unfold readNvramDecoderStatusValidated decoderStatusIs maskNvramGetAscii
  rw [getVariable_congr h]

theorem not_validated_of_gone {s : Store} (h : s.get? .brr varnameDecoderStatus = none) :
    readNvramDecoderStatusValidated s = false := by
  have hread := (getVariable_notFound_iff s .brr varnameDecoderStatus (32 - 1)).mpr h
  unfold readNvramDecoderStatusValidated decoderStatusIs maskNvramGetAscii
  simp only [hread]
  rfl

/-- A program cannot make the decoder validated. -/
theorem validated_before_program {store store' : Store} {r : ProgramRun}
    (h : programStep store r store') (hvalidated : readNvramDecoderStatusValidated store' = true) :
    readNvramDecoderStatusValidated store = true := by
  have hkept := kept_by_programStep (unwritten_withstandsPrograms store) h (.refl _ _)
  rcases hkept verdictVar (Or.inl rfl) with hsame | hgone
  · rwa [validated_congr hsame] at hvalidated
  · rw [not_validated_of_gone hgone] at hvalidated
    cases hvalidated

/-- The latencies are far from the end of the counter. -/
def ShortLatencies (t : Selftest) : Prop := ∀ p i, (t.latency p i).toNat < 2 ^ 62

def ShortRun : HistoryRun → Prop
  | .program _ => True
  | .selftest t => ShortLatencies t

theorem trusted_of_selftest {first store : Store} {runs : List HistoryRun} {t : Selftest}
    (hshort : ShortLatencies t)
    (ih : readNvramDecoderStatusValidated store = true → Trusted first runs)
    (hvalidated : readNvramDecoderStatusValidated (decoderSelftestRun t store).2 = true) :
    Trusted first (runs ++ [.selftest t]) := by
  obtain ⟨hpass, hfail, hstored, hkept⟩ := shim_reads_verdict t store hshort
  by_cases hs : Stored t (decoderSelftestRun t store).1
  · have hverdict : (decoderSelftestRun t store).1 = .validated := by
      have hread := (hstored hs).1
      rw [hvalidated] at hread
      exact of_decide_eq_true hread.symm
    refine Or.inl ⟨runs, t, [], rfl, ⟨hs.2, hpass.mp hverdict⟩, ?_⟩
    exact fun u hu => absurd hu List.not_mem_nil
  · rw [hkept hs] at hvalidated
    refine (ih hvalidated).snoc ?_
    intro u hu hfails
    obtain rfl := HistoryRun.selftest.inj hu
    exact hs ⟨Or.inr (hfail.mpr hfails.2), hfails.1⟩

theorem trusted_of_validated {first last : Store} {runs : List HistoryRun}
    (h : Run historyStep first runs last) (hshort : ∀ r ∈ runs, ShortRun r) :
    readNvramDecoderStatusValidated last = true → Trusted first runs := by
  induction h with
  | nil => exact fun hfirst => Or.inr ⟨hfirst, fun u hu => absurd hu List.not_mem_nil⟩
  | @snoc runs run store store' _ hstep ih =>
      have hbefore := ih fun r hr => hshort r (List.mem_append_left _ hr)
      intro hvalidated
      cases run with
      | program r =>
          exact (hbefore (validated_before_program hstep hvalidated)).snoc fun u hu => by cases hu
      | selftest t =>
          obtain rfl : store' = (decoderSelftestRun t store).2 := hstep
          exact trusted_of_selftest (hshort (.selftest t) (by simp)) hbefore hvalidated

theorem storeVerdict_agree (t : Selftest) (store : Store) (result : DecoderStatus) :
    Agree {verdictVar} store (storeVerdict t store result) := by
  unfold storeVerdict
  cases t.setVariable with
  | none => exact Agree.refl _ _
  | some refused =>
      cases refused with
      | some e => exact Agree.refl _ _
      | none => exact fun k hk => Store.get?_set_other store _ hk

/-- The self-test writes its verdict and nothing else. -/
theorem selftest_agree (t : Selftest) (store : Store) :
    Agree {verdictVar} store (decoderSelftestRun t store).2 := by
  rcases decoderSelftestRun_cases t store with ⟨r, c, d, -, heq⟩ | ⟨-, -, -, hstore⟩
  · rw [heq]
    unfold evaluate
    split_ifs
    · exact Agree.refl _ _
    · exact storeVerdict_agree t store _
  · rw [hstore]
    exact Agree.refl _ _

/-- No run writes a list of rows. -/
theorem rows_kept {first last : Store} {runs : List HistoryRun}
    (h : Run historyStep first runs last) : KeptOrGone rowVars first last := by
  have hstep (s : Store) (run : HistoryRun) (s' : Store) (_ : True)
      (hs : KeptOrGone rowVars first s) (hrun : historyStep s run s') :
      KeptOrGone rowVars first s' := by
    cases run with
    | program r =>
        have hkept := kept_by_programStep (unwritten_withstandsPrograms s) hrun (.refl _ _)
        exact hs.trans fun k hk => hkept k (Or.inr hk)
    | selftest t =>
        obtain rfl : s' = (decoderSelftestRun t s).2 := hrun
        refine hs.agree ?_ (selftest_agree t s)
        intro k hk hverdict
        rw [Set.mem_singleton_iff.mp hverdict] at hk
        simp [rowVars, verdictVar, varnameDecoderStatus, varnameBadrows, legacyVarnameBadrows] at hk
  exact h.invariant hstep (fun _ _ => trivial) (.refl _ _)

theorem mem_rowVars_of_read {store : Store} {blob : List UInt8}
    (h : readBadrowsVariable store = some blob) :
    ∃ k ∈ rowVars, store.get? k.1 k.2 = some blob := by
  unfold readBadrowsVariable at h
  simp only at h
  split_ifs at h with hbrr happle hlegacy
  · rw [← h]
    exact ⟨(.brr, varnameBadrows), Or.inl rfl, get?_of_getVariable hbrr⟩
  · rw [← h]
    exact ⟨(.apple, varnameBadrows), Or.inr (Or.inl rfl), get?_of_getVariable happle⟩
  · rw [← h]
    exact ⟨(.brr, legacyVarnameBadrows), Or.inr (Or.inr rfl), get?_of_getVariable hlegacy⟩

theorem rows_from_start {first last : Store} {runs : List HistoryRun}
    (h : Run historyStep first runs last) {cap : ℕ} (hrows : readNvramBadrows last cap ≠ []) :
    ∃ k ∈ rowVars, ∃ blob, first.get? k.1 k.2 = some blob ∧
      readNvramBadrows last cap = badmemParseRowsBlob blob cap := by
  unfold readNvramBadrows at hrows ⊢
  cases hread : readBadrowsVariable last with
  | none =>
      rw [hread] at hrows
      exact absurd rfl hrows
  | some blob =>
      obtain ⟨k, hk, hget⟩ := mem_rowVars_of_read hread
      rcases rows_kept h k hk with hsame | hgone
      · exact ⟨k, hk, blob, hsame.symm.trans hget, rfl⟩
      · rw [hgone] at hget
        cases hget

section
variable {σ : Type} (env : ShimEnv σ)

theorem absent_of_log {s s' : Session σ} {e e' : Event} (h : OnlyAllocates (s.log e') s')
    (he : e.attempted = none) (hne : e' ≠ e) (hs : e ∉ s.trace) : e ∉ s'.trace := by
  rw [h.mem_trace he, Session.log_trace, List.mem_append, List.mem_singleton]
  intro hmem
  rcases hmem with hmem | hmem
  · exact hs hmem
  · exact hne hmem.symm

theorem pageMode_no_rows (forceChip : Bool) {s : Session σ} {rows : List BadmemRow}
    (h : .maskRows rows ∉ s.trace) : .maskRows rows ∉ (pageMode env forceChip s).trace := by
  have hranges : .maskRows rows ∉
      (reserveRanges env (pageModeData env forceChip s.nvram).ranges s).trace := by
    unfold reserveRanges
    split_ifs
    · exact h
    · have hmasked := absent_of_log (PageMask.onlyAllocates_maskPages env.fw
        (pageModeData env forceChip s.nvram).ranges s) rfl (by simp) h
      exact hmasked
  have hchips : .maskRows rows ∉ (reserveChips env (pageModeData env forceChip s.nvram).chips
      (reserveRanges env (pageModeData env forceChip s.nvram).ranges s)).trace := by
    unfold reserveChips
    split_ifs
    · exact hranges
    · exact absent_of_log (ChipMask.onlyAllocates_maskChips env.fw env.host _ _) rfl (by simp)
        hranges
  unfold pageMode
  simp only
  split_ifs
  · rw [Session.log_trace, List.mem_append, List.mem_singleton, not_or]
    exact ⟨hchips, by simp⟩
  · exact hchips

/-- Rows are masked only in row mode, and then all which were read. -/
theorem rows_of_applyMask (forceChip : Bool) {s : Session σ} {rows : List BadmemRow}
    (hs : .maskRows rows ∉ s.trace) (h : .maskRows rows ∈ (applyMask env forceChip s).trace) :
    RowMode s.nvram ∧ rows = readNvramBadrows s.nvram badmemMaxRows := by
  unfold applyMask at h
  simp only at h
  split_ifs at h with hrow
  · rw [(onlyAllocates_maskRows env.fw env.host _ s).mem_trace rfl, Session.log_trace,
      List.mem_append, List.mem_singleton] at h
    rcases h with h | h
    · exact absurd h hs
    · refine ⟨⟨hrow.1, ?_⟩, Event.maskRows.inj h⟩
      simpa using hrow.2
  · exact absurd h (pageMode_no_rows env forceChip hs)
  · exact absurd h (absent_of_log (ChipMask.onlyAllocates_maskChips env.fw env.host _ s) rfl
      (by simp) hs)
  · exact absurd h (pageMode_no_rows env forceChip hs)

theorem rows_of_efiMain (fw : Efi) (m : Machine) {s : Session σ} {rows : List BadmemRow}
    (hs : .maskRows rows ∉ s.trace) (h : .maskRows rows ∈
      (MaskShim.efiMain { env with uninstallMaskFull := uninstallFrom fw m } s).2.trace) :
    RowMode s.nvram ∧ rows = readNvramBadrows s.nvram badmemMaxRows := by
  have hstate : .maskRows rows ∉
      (handleNvramState { env with uninstallMaskFull := uninstallFrom fw m } s).2.trace := by
    rw [mem_handleNvramState_trace env fw m s (by simp) (by simp)]
    exact hs
  unfold MaskShim.efiMain at h
  split_ifs at h with hflag
  · simp only [if_true] at h
    rw [TrialBoot.mem_chainload_trace _ s (by simp)] at h
    exact absurd h hs
  simp only at h
  cases hskip : (handleNvramState { env with uninstallMaskFull := uninstallFrom fw m }
      s).1.skipMask with
  | true =>
      rw [hskip, if_pos rfl, TrialBoot.mem_chainload_trace _ _ (by simp)] at h
      exact absurd h hstate
  | false =>
      rw [hskip, if_neg Bool.false_ne_true, TrialBoot.mem_chainload_trace _ _ (by simp)] at h
      have hagree := Agree.unread (Handover.agree_of_masks hskip)
      obtain ⟨hrow, hrows⟩ := rows_of_applyMask _ _ hstate h
      rw [rowMode_congr hagree] at hrow
      rw [readNvramBadrows_agree hagree] at hrows
      exact ⟨hrow, hrows⟩

end

/-- Rows are masked at a boot only when the last self-test to reach a verdict found the decoder
right, or the verdict was there at the start and none reached another; and they are rows which
were listed at the start. -/
theorem row_mode_trusted {first last : Store} {runs : List HistoryRun}
    (h : Run historyStep first runs last) (hshort : ∀ r ∈ runs, ShortRun r) {σ : Type}
    (env : ShimEnv σ) (fw : Efi) (m : Machine) (mem : σ) (keys : List UInt16)
    {rows : List BadmemRow} (hmasked : .maskRows rows ∈
      (MaskShim.efiMain { env with uninstallMaskFull := uninstallFrom fw m }
        (.start mem last keys)).2.trace) :
    Trusted first runs ∧ ∃ k ∈ rowVars, ∃ blob, first.get? k.1 k.2 = some blob ∧
      rows = badmemParseRowsBlob blob badmemMaxRows := by
  have hnone : .maskRows rows ∉ (Session.start mem last keys).trace := List.not_mem_nil
  obtain ⟨hrow, hrows⟩ := rows_of_efiMain env fw m hnone hmasked
  obtain ⟨k, hk, blob, hfirst, hread⟩ := rows_from_start h hrow.2
  exact ⟨trusted_of_validated h hshort hrow.1, k, hk, blob, hfirst, hrows.trans hread⟩

/-- A row is listed, and a page is on trial. -/
def listedRow : Store := TrialBoot.pageTrialStore ++
  [⟨.brr, varnameBadrows, [1, 0, 0, 0, 1, 0, 0, 0, 0, 0, 0, 0, 0x39, 0x30, 0, 0]⟩]

def listedRowValidated : Store :=
  listedRow.set .brr varnameDecoderStatus (ascii DecoderStatus.validated.text)

theorem row_mode_trusted_timed : Trusted listedRow [.selftest timedSelftest] := by
  have hrun : Run historyStep listedRow [.selftest timedSelftest] listedRowValidated := by
    refine .snoc .nil ?_
    rw [historyStep, decoderSelftestRun_validated timedSelftest_short timedSelftest_validated]
    rfl
  have hmode : RowMode listedRowValidated := ⟨by decide, by decide⟩
  have hmasked : .maskRows (readNvramBadrows listedRowValidated badmemMaxRows) ∈
      (MaskShim.efiMain { TrialBoot.trialEnv with
        uninstallMaskFull := uninstallFrom InstallUndo.usbEfi InstallUndo.freshComputer }
        (.start TrialBoot.freeMemory listedRowValidated [])).2.trace := by
    rw [efiMain_page _ rfl (by unfold StateIs; decide),
      TrialBoot.mem_chainload_trace _ _ (by simp), applyMask_rows _ false hmode,
      (onlyAllocates_maskRows _ _ _ _).mem_trace rfl]
    exact List.mem_append_right _ (List.mem_singleton.mpr rfl)
  refine (row_mode_trusted hrun ?_ TrialBoot.trialEnv InstallUndo.usbEfi InstallUndo.freshComputer
    TrialBoot.freeMemory [] hmasked).1
  intro r hr
  rw [List.mem_singleton.mp hr]
  exact timedSelftest_short

end BankFinder.TrustedRows
