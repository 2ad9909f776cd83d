import BankFinder.InstallTriples
import BankFinder.SavedList
import BankFinder.TrialBoot

/-!
# The state variable over all runs

`BrrMaskState` is written by all four programs and drives only one of them. Over any
sequence of runs it moves along few edges: a list which is applied puts it on trial, an
installation makes it permanent but unconfirmed, an answered question confirms it, and an
uninstallation removes it. The states of a chip trial and of a booted trial are read by the
shim, but no program ever writes them.
-/

namespace BankFinder.StateHistory
open Nvram EfiMachine MachineFrame BootSession MaskOps MaskFrames BadPages AddressEntry Uninstall
open Install MaskInstall BrrEntry AutoInstall LabelledRuns SavedList InstallTriples MaskShim

section
variable {σ : Type}

/-- Asking only takes keys. -/
theorem promptConfirm_keys (ticks : ℕ) (s : Session σ) :
    ∃ keys, (promptConfirm ticks s).2 = { s with keys := keys } := by
  induction ticks generalizing s with
  | zero => exact ⟨s.keys, rfl⟩
  | succ ticks ih =>
      have hkey : ∃ keys, (MaskShim.efiReadkey s).2 = { s with keys := keys } := by
        unfold MaskShim.efiReadkey
        cases s.keys with
        | nil => exact ⟨s.keys, rfl⟩
        | cons k keys => exact ⟨keys, rfl⟩
      obtain ⟨keys, hkeys⟩ := hkey
      unfold promptConfirm
      simp only
      split_ifs
      · exact ⟨keys, hkeys⟩
      · exact ⟨keys, hkeys⟩
      · obtain ⟨keys', hkeys'⟩ := ih (MaskShim.efiReadkey s).2
        exact ⟨keys', by rw [hkeys', hkeys]⟩

/-- What `handle_nvram_state` comes to: only one state asks a question. -/
inductive Decides (env : ShimEnv σ) (s : Session σ) : MaskChoice × Session σ → Prop
  | silent : ¬StateIs s.nvram stateTrialPendingChip →
      ¬StateIs s.nvram statePermanentUnconfirmed → Decides env s (⟨false, false⟩, s)
  | chipTrial : StateIs s.nvram stateTrialPendingChip → Decides env s (⟨false, true⟩, s)
  | confirmed {keys : List UInt16} : StateIs s.nvram statePermanentUnconfirmed →
      (promptConfirm (30 * 10) s).1 = keyYes → Decides env s (⟨false, false⟩,
        (BootSession.maskNvramSetAscii env.fw brrVarnameState statePermanentConfirmed
          { s with keys := keys }).2)
  | declined {keys : List UInt16} : StateIs s.nvram statePermanentUnconfirmed →
      (promptConfirm (30 * 10) s).1 = keyNo → Decides env s (⟨true, false⟩,
        env.uninstallMaskFull (({ s with keys := keys } : Session σ).log .uninstallMask))
  | unanswered {keys : List UInt16} : StateIs s.nvram statePermanentUnconfirmed →
      (promptConfirm (30 * 10) s).1 ≠ keyNo → Decides env s (⟨false, false⟩,
        { s with keys := keys })

theorem stateIs_unique {store : Store} {state state' : String} (h : StateIs store state)
    (hne : ascii state ≠ ascii state') : ¬StateIs store state' := by
  intro h'
  rw [StateIs, h] at h'
  exact hne (congrArg Prod.snd h')

theorem decides_confirmInstallation (env : ShimEnv σ) {s : Session σ}
    (h : StateIs s.nvram statePermanentUnconfirmed) : Decides env s (confirmInstallation env s) := by
  obtain ⟨keys, hkeys⟩ := promptConfirm_keys (30 * 10) s
  unfold confirmInstallation
  simp only
  rw [hkeys]
  split_ifs with hyes hno
  · exact .confirmed h hyes
  · exact .declined h hno
  · exact .unanswered h hno

theorem decides_handleNvramState (env : ShimEnv σ) (s : Session σ) :
    Decides env s (handleNvramState env s) := by
  have hread (state : String) (hr : (Nvram.maskNvramGetAscii s.nvram brrVarnameState
      stateBufSize).1 = efiSuccess) : StateIs s.nvram state ↔ asciiEq (Nvram.maskNvramGetAscii
        s.nvram brrVarnameState stateBufSize).2 (ascii state) = true := by
    rw [asciiEq_iff, StateIs, Prod.ext_iff]
    exact ⟨fun h => h.2, fun h => ⟨hr, h⟩⟩
  unfold handleNvramState
  simp only
  split_ifs with hfail hpage hchip htrial hunconfirmed hconfirmed
  · have hnone (state : String) : ¬StateIs s.nvram state := fun h => hfail (congrArg Prod.fst h)
    exact .silent (hnone _) (hnone _)
  · have hstate := (hread _ (not_not.mp hfail)).mpr hpage
    exact .silent (stateIs_unique hstate (by decide)) (stateIs_unique hstate (by decide))
  · exact .chipTrial ((hread _ (not_not.mp hfail)).mpr hchip)
  · have hstate := (hread _ (not_not.mp hfail)).mpr htrial
    exact .silent (stateIs_unique hstate (by decide)) (stateIs_unique hstate (by decide))
  · exact decides_confirmInstallation env ((hread _ (not_not.mp hfail)).mpr hunconfirmed)
  · have hstate := (hread _ (not_not.mp hfail)).mpr hconfirmed
    exact .silent (stateIs_unique hstate (by decide)) (stateIs_unique hstate (by decide))
  · exact .silent (fun h => hchip ((hread _ (not_not.mp hfail)).mp h))
      fun h => hunconfirmed ((hread _ (not_not.mp hfail)).mp h)

/-- The state machine sets variables and calls the uninstaller, and that is all. -/
theorem mem_handleNvramState_trace (env : ShimEnv σ) (fw : Efi) (m : Machine) (s : Session σ)
    {e : Event} (hset : ∀ guid name data, e ≠ .setVariable guid name data)
    (huninstall : e ≠ .uninstallMask) :
    e ∈ (handleNvramState { env with uninstallMaskFull := uninstallFrom fw m } s).2.trace ↔
      e ∈ s.trace := by
  have hdecides := decides_handleNvramState { env with uninstallMaskFull := uninstallFrom fw m } s
  generalize handleNvramState { env with uninstallMaskFull := uninstallFrom fw m } s = choice
    at hdecides ⊢
  have hone {e' : Event} (hne : e ≠ e') : e ∈ s.trace ++ [e'] ↔ e ∈ s.trace := by
    rw [List.mem_append, List.mem_singleton]
    exact or_iff_left hne
  cases hdecides with
  | silent _ _ => exact Iff.rfl
  | chipTrial _ => exact Iff.rfl
  | confirmed _ _ => exact hone (hset _ _ _)
  | declined _ _ => exact hone huninstall
  | unanswered _ _ => exact Iff.rfl

end

def maskState (store : Store) : Option (List UInt8) := store.get? .brr brrVarnameState

/-- What `mask_nvram_get_ascii` makes of the content. -/
def ReadsAs (content : Option (List UInt8)) (state : String) : Prop :=
  ∃ data, content = some data ∧ data.length ≤ stateBufSize - 1 ∧ cString data = ascii state

/-- A list was accepted in `brr-entry`: the saved one, or one typed in. -/
def AcceptsList (r : ProgramRun) : Prop :=
  match r.program with
  | .brrEntry _ polls => ∀ o, prompts r.before.store polls ≠ .ends o
  | _ => False

/-- The installer may run: after a list was accepted, or with both questions answered. -/
def AsksInstall (r : ProgramRun) : Prop :=
  match r.program with
  | .brrEntry _ _ => AcceptsList r
  | .installEfi _ _ polls => installConfirmed polls = true
  | _ => False

/-- Y to "Did macOS boot correctly?" -/
def ConfirmsBoot (r : ProgramRun) : Prop :=
  match r.program with
  | .maskShim env _ mem keys => passthroughFlag env.loadOptions = false ∧
      (promptConfirm (30 * 10) (Session.start mem r.before.store keys)).1 = keyYes
  | _ => False

/-- The edges of the state machine, with what the user did to take them. -/
inductive StateStep (content : Option (List UInt8)) (r : ProgramRun) : Option (List UInt8) → Prop
  | kept : StateStep content r content
  | trial : AcceptsList r → StateStep content r (some (ascii stateTrialPendingPage))
  | permanent : AsksInstall r → StateStep content r (some (ascii statePermanentUnconfirmed))
  | confirmed : ReadsAs content statePermanentUnconfirmed → ConfirmsBoot r →
      StateStep content r (some (ascii statePermanentConfirmed))
  | removed : AsksUninstall r → StateStep content r none

theorem StateStep.of_kept {content content' : Option (List UInt8)} {r : ProgramRun}
    (h : content' = content) : StateStep content r content' := by
  rw [h]
  exact .kept

theorem readsAs_of_stateIs {store : Store} {state : String} (h : StateIs store state) :
    ReadsAs (maskState store) state := by
  have hbad : ∀ status, status ≠ efiSuccess → (status, ([] : List UInt8)) ≠
      (efiSuccess, ascii state) := fun status hstatus heq => hstatus (congrArg Prod.fst heq)
  unfold StateIs Nvram.maskNvramGetAscii getVariable at h
  unfold maskState ReadsAs
  cases hget : store.get? .brr brrVarnameState with
  | none =>
      simp only [hget] at h
      rw [if_neg (by decide)] at h
      exact absurd h (hbad _ (by decide))
  | some data =>
      simp only [hget] at h
      by_cases hlong : stateBufSize - 1 < data.length
      · rw [if_pos hlong, if_neg (by decide)] at h
        exact absurd h (hbad _ (by decide))
      · rw [if_neg hlong, if_pos rfl] at h
        exact ⟨data, rfl, Nat.not_lt.mp hlong, congrArg Prod.snd h⟩

/-- The content is one of these. -/
def StateAmong (contents : Set (Option (List UInt8))) (store : Store) : Prop :=
  maskState store ∈ contents

section
variable {contents : Set (Option (List UInt8))}

theorem StateAmong.of_agree {K : Set (Guid × String)} (hK : (.brr, brrVarnameState) ∉ K)
    {s s' : Store} (h : Agree K s s') (hs : StateAmong contents s) : StateAmong contents s' := by
  have hget : maskState s' = maskState s := h (.brr, brrVarnameState) hK
  rwa [StateAmong, hget]

theorem StateAmong.set_other {guid : Guid} {name : String} {data : List UInt8} {s : Store}
    (h : (Guid.brr, brrVarnameState) ≠ (guid, name)) (hs : StateAmong contents s) :
    StateAmong contents (s.set guid name data) := by
  have hget : maskState (s.set guid name data) = maskState s := Store.get?_set_other s data h
  rwa [StateAmong, hget]

theorem stateAmong_set {state : String} (hne : ascii state ≠ [])
    (h : some (ascii state) ∈ contents) (s : Store) :
    StateAmong contents (s.set .brr brrVarnameState (ascii state)) := by
  have hget : maskState (s.set .brr brrVarnameState (ascii state)) = some (ascii state) :=
    Store.get?_set s .brr brrVarnameState hne
  rwa [StateAmong, hget]

theorem stateAmong_withstands (h : some (ascii statePermanentUnconfirmed) ∈ contents) :
    WithstandsInstall (StateAmong contents) fun _ => True where
  backups := StateAmong.of_agree (by simp [backupVars]; decide)
  free _ _ _ := trivial
  entry _ _ := StateAmong.of_agree (by simp)
  record _ _ := StateAmong.set_other (by decide)
  unrecord := StateAmong.set_other (by decide)
  order := StateAmong.of_agree (by simp)
  state _ := stateAmong_set (by decide) h _

end

theorem stateStep_brrEntry (fw : Efi) (polls : List Poll) (m : Machine) :
    StateStep (maskState m.store) ⟨.brrEntry fw polls, m⟩
      (maskState (BrrEntry.efiMain fw polls m).2.store) := by
  by_cases hends : ∃ o, prompts m.store polls = .ends o
  · obtain ⟨o, ho⟩ := hends
    rw [efiMain_ends ho]
    exact .kept
  have haccepts : AcceptsList ⟨.brrEntry fw polls, m⟩ := fun o ho => hends ⟨o, ho⟩
  have hamong : StateAmong {maskState m.store, some (ascii stateTrialPendingPage),
      some (ascii statePermanentUnconfirmed)} (BrrEntry.efiMain fw polls m).2.store :=
    kept_by_brrEntry (stateAmong_withstands (by simp)) (fun s _ => stateAmong_set (by decide)
      (by simp) s) fw (fun _ _ => StateAmong.set_other (by decide)) (Or.inl rfl)
  rcases hamong with hkept | htrial | hpermanent
  · exact .of_kept hkept
  · rw [htrial]
    exact .trial haccepts
  · rw [hpermanent]
    exact .permanent haccepts

theorem stateStep_afterUninstall (fw : Efi) {m : Machine} {r : ProgramRun}
    (hasked : AsksUninstall r) :
    StateStep (maskState m.store) r (maskState (afterUninstall fw m).store) := by
  obtain ⟨_, -, hvars⟩ := recorded_afterUninstall fw m
  rcases hvars brrVarnameState with ⟨-, hkept⟩ | ⟨-, hgone⟩
  · exact .of_kept hkept
  · have hnone : maskState (afterUninstall fw m).store = none := hgone
    rw [hnone]
    exact .removed hasked

theorem stateStep_installEfi (fw : Efi) (loadOptions : Option (List UInt16)) (polls : List Poll)
    (m : Machine) : StateStep (maskState m.store) ⟨.installEfi fw loadOptions polls, m⟩
      (maskState (installMain fw loadOptions polls m).2.store) := by
  have hprobe {contents : Set (Option (List UInt8))} {s s' : Store}
      (h : Agree {(.brr, varnameProbe)} s s') (hs : StateAmong contents s) :
      StateAmong contents s' := hs.of_agree (by simp; decide) h
  by_cases hasked : uninstallFlag loadOptions = true ∧ (uninstallPromptYesno 30 polls).1 = true
  · rw [installMain, if_pos hasked.1, if_pos hasked.2]
    exact stateStep_afterUninstall fw hasked
  have hnot : uninstallFlag loadOptions = false ∨ (uninstallPromptYesno 30 polls).1 = false := by
    rw [← Bool.not_eq_true, ← Bool.not_eq_true]
    exact not_and_or.mp hasked
  by_cases hconfirmed : installConfirmed polls = true
  · have hamong : StateAmong {maskState m.store, some (ascii statePermanentUnconfirmed)}
        (installMain fw loadOptions polls m).2.store :=
      kept_by_installMain (fun _ => stateAmong_withstands (by simp)) hprobe fw hnot (Or.inl rfl)
    rcases hamong with hkept | hpermanent
    · exact .of_kept hkept
    · rw [hpermanent]
      exact .permanent hconfirmed
  · have hinstall (h : installConfirmed polls = true) :
        WithstandsInstall (StateAmong {maskState m.store}) fun _ => True := absurd h hconfirmed
    have hamong : StateAmong {maskState m.store} (installMain fw loadOptions polls m).2.store :=
      kept_by_installMain hinstall hprobe fw hnot rfl
    exact .of_kept hamong

theorem stateStep_revertEfi (fw : Efi) (polls : List Poll) (m : Machine) :
    StateStep (maskState m.store) ⟨.revertEfi fw polls, m⟩
      (maskState (revertMain fw polls m).2.store) := by
  rw [revertMain, ite_run]
  split_ifs with hyes
  · exact stateStep_afterUninstall fw hyes
  · exact .kept

section
variable {σ : Type}

theorem setAscii_nvram (fw : Firmware σ) (name val : String) (s : Session σ) :
    (BootSession.maskNvramSetAscii fw name val s).2.nvram = s.nvram ∨
      (BootSession.maskNvramSetAscii fw name val s).2.nvram = s.nvram.set .brr name (ascii val) := by
  unfold BootSession.maskNvramSetAscii BootSession.setVariable Store.write
  cases fw.refuseSet .brr name (ascii val) with
  | some status => exact Or.inl rfl
  | none => exact Or.inr rfl

theorem maskState_setAscii (fw : Firmware σ) {state : String} (hne : ascii state ≠ [])
    (s : Session σ) :
    maskState (BootSession.maskNvramSetAscii fw brrVarnameState state s).2.nvram =
        maskState s.nvram ∨
      maskState (BootSession.maskNvramSetAscii fw brrVarnameState state s).2.nvram =
        some (ascii state) := by
  rcases setAscii_nvram fw brrVarnameState state s with hkept | hset
  · exact Or.inl (congrArg maskState hkept)
  · rw [hset]
    exact Or.inr (Store.get?_set s.nvram .brr brrVarnameState hne)

theorem stateStep_maskShim (env : ShimEnv σ) (fw : Efi) (mem : σ) (keys : List UInt16)
    (m : Machine) : StateStep (maskState m.store) ⟨.maskShim env fw mem keys, m⟩
      (maskState (ProgramRun.after ⟨.maskShim env fw mem keys, m⟩)) := by
  unfold ProgramRun.after
  simp only
  rw [efiMain_nvram]
  split_ifs with hflag
  · exact .kept
  have hmasks : passthroughFlag env.loadOptions = false := Bool.eq_false_iff.mpr hflag
  have hdecides := decides_handleNvramState { env with uninstallMaskFull := uninstallFrom fw m }
    (Session.start mem m.store keys)
  generalize handleNvramState { env with uninstallMaskFull := uninstallFrom fw m }
    (Session.start mem m.store keys) = choice at hdecides ⊢
  cases hdecides with
  | silent _ _ => exact .kept
  | chipTrial _ => exact .kept
  | confirmed hstate hyes =>
      have hnonempty : ascii statePermanentConfirmed ≠ [] := by decide
      rcases maskState_setAscii env.fw hnonempty _ with hkept | hset
      · exact .of_kept hkept
      · exact hset.symm ▸ .confirmed (readsAs_of_stateIs hstate) ⟨hmasks, hyes⟩
  | declined hstate hno => exact stateStep_afterUninstall fw ⟨hmasks, hstate, hno⟩
  | unanswered _ _ => exact .kept

end

/-- Every run of every program takes an edge of the state machine, or stays. -/
theorem stateStep_programStep {store store' : Store} {r : ProgramRun}
    (h : programStep store r store') : StateStep (maskState store) r (maskState store') := by
  obtain ⟨rfl, rfl⟩ := h
  obtain ⟨program, m⟩ := r
  cases program with
  | brrEntry fw polls => exact stateStep_brrEntry fw polls m
  | maskShim env fw mem keys => exact stateStep_maskShim env fw mem keys m
  | installEfi fw loadOptions polls => exact stateStep_installEfi fw loadOptions polls m
  | revertEfi fw polls => exact stateStep_revertEfi fw polls m

theorem state_runs {first last : Store} {runs : List ProgramRun}
    (h : Run programStep first runs last) : Run StateStep (maskState first) runs (maskState last) :=
  h.simulates maskState fun _ _ _ => stateStep_programStep

/-- What a property of the variables has to withstand: the writes of all four programs. -/
structure WithstandsPrograms (I : Store → Prop) (Ours : UInt16 → Prop) : Prop where
  install : WithstandsInstall I Ours
  trial : WithstandsTrial I
  list : ∀ pas s, I s → I (s.set .brr brrVarnameBadpages (badpagesBlob pas))
  probe : ∀ {s s'}, Agree {(.brr, varnameProbe)} s s' → I s → I s'
  confirmed : ∀ s, I s → I (s.set .brr brrVarnameState (ascii statePermanentConfirmed))
  uninstall : ∀ fw m, I m.store → I (afterUninstall fw m).store

section
variable {I : Store → Prop} {Ours : UInt16 → Prop}

theorem WithstandsPrograms.installMain (h : WithstandsPrograms I Ours) (fw : Efi)
    (loadOptions : Option (List UInt16)) (polls : List Poll) {m : Machine} (hm : I m.store) :
    I (installMain fw loadOptions polls m).2.store := by
  by_cases hasked : uninstallFlag loadOptions = true ∧ (uninstallPromptYesno 30 polls).1 = true
  · rw [MaskInstall.installMain, if_pos hasked.1, if_pos hasked.2]
    exact h.uninstall fw m hm
  · have hnot : uninstallFlag loadOptions = false ∨ (uninstallPromptYesno 30 polls).1 = false := by
      rw [← Bool.not_eq_true, ← Bool.not_eq_true]
      exact not_and_or.mp hasked
    exact kept_by_installMain (fun _ => h.install) h.probe fw hnot hm

theorem WithstandsPrograms.maskShim (h : WithstandsPrograms I Ours) {σ : Type}
    (env : ShimEnv σ) (fw : Efi) (mem : σ) (keys : List UInt16) {m : Machine} (hm : I m.store) :
    I (ProgramRun.after ⟨.maskShim env fw mem keys, m⟩) := by
  unfold ProgramRun.after
  simp only
  rw [efiMain_nvram]
  split_ifs
  · exact hm
  have hdecides := decides_handleNvramState { env with uninstallMaskFull := uninstallFrom fw m }
    (Session.start mem m.store keys)
  generalize handleNvramState { env with uninstallMaskFull := uninstallFrom fw m }
    (Session.start mem m.store keys) = choice at hdecides ⊢
  cases hdecides with
  | silent _ _ => exact hm
  | chipTrial _ => exact hm
  | @confirmed keys' _ _ =>
      rcases setAscii_nvram env.fw brrVarnameState statePermanentConfirmed
        { Session.start mem m.store keys with keys := keys' } with hkept | hset
      · rw [hkept]
        exact hm
      · rw [hset]
        exact h.confirmed m.store hm
  | declined _ _ => exact h.uninstall fw m hm
  | unanswered _ _ => exact hm

/-- Such a property is kept by any run of any program. -/
theorem kept_by_programStep (h : WithstandsPrograms I Ours) {store store' : Store}
    {r : ProgramRun} (hstep : programStep store r store') (hstore : I store) : I store' := by
  obtain ⟨rfl, rfl⟩ := hstep
  obtain ⟨program, m⟩ := r
  cases program with
  | brrEntry fw polls => exact kept_by_brrEntry h.install h.trial fw h.list hstore
  | maskShim env fw mem keys => exact h.maskShim env fw mem keys hstore
  | installEfi fw loadOptions polls => exact h.installMain fw loadOptions polls hstore
  | revertEfi fw polls =>
      change I (revertMain fw polls m).2.store
      rw [revertMain, ite_run]
      split_ifs
      · exact h.uninstall fw m hstore
      · exact hstore

end

/-- An installation was asked for, and a later run had its question answered with Y. -/
def ConfirmedAfterInstall (runs : List ProgramRun) : Prop :=
  ∃ before r after, runs = before ++ r :: after ∧ ConfirmsBoot r ∧ ∃ i ∈ before, AsksInstall i

theorem readsAs_ascii {content state : String} (hfree : cString (ascii content) = ascii content)
    (h : ReadsAs (some (ascii content)) state) : ascii content = ascii state := by
  obtain ⟨data, hdata, -, htext⟩ := h
  rw [← Option.some.inj hdata, hfree] at htext
  exact htext

theorem not_readsAs_none (state : String) : ¬ReadsAs none state := by
  intro h
  obtain ⟨_, hdata, -⟩ := h
  cases hdata

/-- What the runs so far tell about the state. -/
structure History (runs : List ProgramRun) (content : Option (List UInt8)) : Prop where
  noChipTrial : ¬ReadsAs content stateTrialPendingChip
  noTrialBooted : ¬ReadsAs content stateTrialBooted
  permanent : ReadsAs content statePermanentUnconfirmed → ∃ i ∈ runs, AsksInstall i
  confirmed : ReadsAs content statePermanentConfirmed → ConfirmedAfterInstall runs

theorem History.none (runs : List ProgramRun) : History runs none :=
  ⟨not_readsAs_none _, not_readsAs_none _, fun h => absurd h (not_readsAs_none _),
    fun h => absurd h (not_readsAs_none _)⟩

theorem History.snoc_kept {runs : List ProgramRun} {content : Option (List UInt8)}
    (h : History runs content) (r : ProgramRun) : History (runs ++ [r]) content := by
  refine ⟨h.noChipTrial, h.noTrialBooted, ?_, ?_⟩
  · intro hreads
    obtain ⟨i, hi, hasks⟩ := h.permanent hreads
    exact ⟨i, List.mem_append_left _ hi, hasks⟩
  · intro hreads
    obtain ⟨before, r', after, rfl, hconfirms⟩ := h.confirmed hreads
    exact ⟨before, r', after ++ [r], by simp, hconfirms⟩

/-- One more run keeps the history: a state which was not there before has its cause. -/
theorem History.snoc {runs : List ProgramRun} {content content' : Option (List UInt8)}
    {r : ProgramRun} (h : History runs content) (hstep : StateStep content r content') :
    History (runs ++ [r]) content' := by
  cases hstep with
  | kept => exact h.snoc_kept r
  | trial _ =>
      have hreads {state : String} (hne : ascii stateTrialPendingPage ≠ ascii state) :
          ¬ReadsAs (some (ascii stateTrialPendingPage)) state :=
        fun hreads => hne (readsAs_ascii (by decide) hreads)
      exact ⟨hreads (by decide), hreads (by decide), fun hr => absurd hr (hreads (by decide)),
        fun hr => absurd hr (hreads (by decide))⟩
  | permanent hasks =>
      have hreads {state : String} (hne : ascii statePermanentUnconfirmed ≠ ascii state) :
          ¬ReadsAs (some (ascii statePermanentUnconfirmed)) state :=
        fun hreads => hne (readsAs_ascii (by decide) hreads)
      exact ⟨hreads (by decide), hreads (by decide), fun _ => ⟨r, by simp, hasks⟩,
        fun hr => absurd hr (hreads (by decide))⟩
  | confirmed hbefore hconfirms =>
      have hreads {state : String} (hne : ascii statePermanentConfirmed ≠ ascii state) :
          ¬ReadsAs (some (ascii statePermanentConfirmed)) state :=
        fun hreads => hne (readsAs_ascii (by decide) hreads)
      exact ⟨hreads (by decide), hreads (by decide), fun hr => absurd hr (hreads (by decide)),
        fun _ => ⟨runs, r, [], rfl, hconfirms, h.permanent hbefore⟩⟩
  | removed _ => exact .none _

theorem history_of_run {runs : List ProgramRun} {content : Option (List UInt8)}
    (h : Run StateStep none runs content) : History runs content := by
  induction h with
  | nil => exact .none []
  | snoc _ hlast ih => exact ih.snoc hlast

/-- From a store without the variable no sequence of runs leads into a chip trial or a booted
trial, an unconfirmed installation was asked for, and a confirmed one was asked for first and
confirmed by a key in a later run of the shim. -/
theorem confirmed_needs_installation {first last : Store} {runs : List ProgramRun}
    (h : Run programStep first runs last) (hfirst : maskState first = none) :
    ¬StateIs last stateTrialPendingChip ∧ ¬StateIs last stateTrialBooted ∧
      (StateIs last statePermanentUnconfirmed → ∃ i ∈ runs, AsksInstall i) ∧
      (StateIs last statePermanentConfirmed → ConfirmedAfterInstall runs) := by
  have hruns := state_runs h
  rw [hfirst] at hruns
  have hhistory := history_of_run hruns
  exact ⟨fun hs => hhistory.noChipTrial (readsAs_of_stateIs hs),
    fun hs => hhistory.noTrialBooted (readsAs_of_stateIs hs),
    fun hs => hhistory.permanent (readsAs_of_stateIs hs),
    fun hs => hhistory.confirmed (readsAs_of_stateIs hs)⟩

/-- Y and Y again to `install.efi`, and Y to the shim on the next boot. -/
def installRun (fw : Efi) (m : Machine) : ProgramRun :=
  ⟨.installEfi fw none [charKey 0x59, charKey 0x59], m⟩
def confirmRun (fw : Efi) (m : Machine) : ProgramRun :=
  ⟨.maskShim TrialBoot.trialEnv fw TrialBoot.freeMemory [0x59],
    (installMain fw none [charKey 0x59, charKey 0x59] m).2⟩

theorem installed_and_confirmed (fw : Efi) (m : Machine) :
    Run programStep m.store [installRun fw m, confirmRun fw m] (confirmRun fw m).after :=
  .snoc (.snoc (l := installRun fw m) .nil ⟨rfl, rfl⟩) ⟨rfl, rfl⟩

theorem confirmed_needs_installation_fresh :
    StateIs (confirmRun InstallUndo.usbEfi InstallUndo.freshComputer).after
        statePermanentConfirmed ∧
      ConfirmedAfterInstall [installRun InstallUndo.usbEfi InstallUndo.freshComputer,
        confirmRun InstallUndo.usbEfi InstallUndo.freshComputer] := by
  have hstate : StateIs (confirmRun InstallUndo.usbEfi InstallUndo.freshComputer).after
      statePermanentConfirmed := by
    unfold StateIs
    decide +kernel
  exact ⟨hstate, (confirmed_needs_installation (installed_and_confirmed _ _)
    (by decide +kernel)).2.2.2 hstate⟩

end BankFinder.StateHistory
