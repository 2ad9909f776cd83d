import BankFinder.StateHistory

/-!
# Every history can be undone

As far as the boot order and the boot entries go, a run of any of the programs does one of
three things: nothing, an installation, or an uninstallation. So a computer is in one of two
stages, untouched or installed once, as long as nobody installs over an installation; and
from both the uninstaller leads back to where it all began.
-/

namespace BankFinder.LifeCycle
open BootSession (Session)
open LittleEndian Nvram EfiMachine MachineFrame BootNames MaskOps MaskFrames BadPages Uninstall
open Install InstallUndo InstallRollback BrrEntry AutoInstall MaskInstall LabelledRuns SavedList
open InstallTriples StateHistory AddressEntry MaskShim

/-- The variables which an installation does not depend on. -/
def looseVars : Set (Guid × String) :=
  {(.brr, brrVarnameBadpages), (.brr, brrVarnameState), (.brr, varnameProbe)}

/-- The firmware of the run. -/
def runEfi (r : ProgramRun) : Efi :=
  match r.program with
  | .brrEntry fw _ => fw
  | .maskShim _ fw _ _ => fw
  | .installEfi fw _ _ => fw
  | .revertEfi fw _ => fw

/-- `brr-entry` looks for the backup first; `install.efi` asks twice, and does not look. -/
def Installing (r : ProgramRun) (store : Store) : Prop :=
  match r.program with
  | .brrEntry _ _ => alreadyInstalled store = false
  | .installEfi _ _ polls => installConfirmed polls = true
  | _ => False

inductive Effect (r : ProgramRun) (s : Store) : Store → Prop
  | nothing {s' : Store} : Agree looseVars s s' → Effect r s s'
  | installs {m : Machine} {s' : Store} : Installing r m.store → Agree looseVars s m.store →
      Agree looseVars (installMaskFull (runEfi r) m).2.store s' → Effect r s s'
  | uninstalls {m : Machine} : AsksUninstall r → m.store = s →
      Effect r s (afterUninstall (runEfi r) m).store

theorem agree_of_listVars {m m' : Machine} (h : Frame listVars Set.univ m m') :
    Agree looseVars m.store m'.store := by
  intro k hk
  refine h.vars k fun hmem => hk ?_
  rcases hmem with hlist | hstate
  · exact Or.inl hlist
  · exact Or.inr (Or.inl hstate)

theorem effect_brrEntry (fw : Efi) (polls : List Poll) (m : Machine) :
    Effect ⟨.brrEntry fw polls, m⟩ m.store (BrrEntry.efiMain fw polls m).2.store := by
  have hframe := frame_uptoInstall fw polls m
  rw [efiMain_store]
  rcases hrun : uptoInstall fw polls m with ⟨e | installs, m₁⟩
  · rw [hrun] at hframe
    exact .nothing (agree_of_listVars hframe)
  rw [hrun] at hframe
  have hbefore := agree_of_listVars hframe
  cases installs with
  | false => exact .nothing hbefore
  | true =>
      simp only
      rw [autoInstall, readStore_bind, ite_run]
      split_ifs with hinstalled
      · exact .nothing hbefore
      · have hstate (installed : Bool) : Keeps (Frame listVars Set.univ) (if installed then
            ignore (maskNvramSetAscii fw brrVarnameState stateTrialPendingPage)
          else pure () : EfiM Refusal Unit) := by
          split_ifs
          · exact (frame_setVariable fw _ (by simp [listVars])).ignore
          · exact Keeps.pure ()
        rw [bind_run]
        exact .installs (Bool.eq_false_iff.mpr hinstalled) hbefore
          (agree_of_listVars (hstate _ (installMaskFull fw m₁).2))

theorem agree_probeNvram (fw : Efi) (m : Machine) :
    Agree looseVars m.store (probeNvram fw m).2.store := by
  have hprobe : Keeps (Frame {(.brr, varnameProbe)} Set.univ) (probeNvram fw) :=
    (frame_setVariable fw _ (Set.mem_singleton _)).bind fun _ =>
      (frame_setVariable fw _ (Set.mem_singleton _)).ignore
  exact fun k hk => (hprobe m).vars k fun hmem => hk (Or.inr (Or.inr hmem))

theorem effect_installEfi (fw : Efi) (loadOptions : Option (List UInt16)) (polls : List Poll)
    (m : Machine) : Effect ⟨.installEfi fw loadOptions polls, m⟩ m.store
      (installMain fw loadOptions polls m).2.store := by
  have hprobed := agree_probeNvram fw m
  unfold installMain
  split_ifs with hflag hyes hconfirmed
  · exact .uninstalls (r := ⟨.installEfi fw loadOptions polls, m⟩) ⟨hflag, hyes⟩ rfl
  · exact .nothing (.refl _ _)
  · rw [bind_run]
    cases (probeNvram fw m).1 with
    | error e => exact .nothing hprobed
    | ok _ =>
        simp only
        rw [statusOf_state]
        exact .installs hconfirmed hprobed (.refl _ _)
  · rw [bind_run]
    cases (probeNvram fw m).1 with
    | error e => exact .nothing hprobed
    | ok _ => exact .nothing hprobed

theorem effect_revertEfi (fw : Efi) (polls : List Poll) (m : Machine) :
    Effect ⟨.revertEfi fw polls, m⟩ m.store (revertMain fw polls m).2.store := by
  rw [revertMain, ite_run]
  split_ifs with hyes
  · exact .uninstalls (r := ⟨.revertEfi fw polls, m⟩) hyes rfl
  · exact .nothing (.refl _ _)

theorem effect_maskShim {σ : Type} (env : ShimEnv σ) (fw : Efi) (mem : σ) (keys : List UInt16)
    (m : Machine) : Effect ⟨.maskShim env fw mem keys, m⟩ m.store
      (ProgramRun.after ⟨.maskShim env fw mem keys, m⟩) := by
  unfold ProgramRun.after
  simp only
  rw [efiMain_nvram]
  split_ifs with hflag
  · exact .nothing (.refl _ _)
  have hmasks : passthroughFlag env.loadOptions = false := Bool.eq_false_iff.mpr hflag
  have hdecides := decides_handleNvramState { env with uninstallMaskFull := uninstallFrom fw m }
    (Session.start mem m.store keys)
  generalize handleNvramState { env with uninstallMaskFull := uninstallFrom fw m }
    (Session.start mem m.store keys) = choice at hdecides ⊢
  cases hdecides with
  | silent _ _ => exact .nothing (.refl _ _)
  | chipTrial _ => exact .nothing (.refl _ _)
  | confirmed _ _ =>
      rcases setAscii_nvram env.fw brrVarnameState statePermanentConfirmed _ with hkept | hset
      · rw [hkept]
        exact .nothing (.refl _ _)
      · rw [hset]
        refine .nothing fun k hk => Store.get?_set_other _ _ fun hstate => hk ?_
        exact Or.inr (Or.inl hstate)
  | declined hstate hno =>
      exact .uninstalls (r := ⟨.maskShim env fw mem keys, m⟩) ⟨hmasks, hstate, hno⟩ rfl
  | unanswered _ _ => exact .nothing (.refl _ _)

theorem effect_of_programStep {s s' : Store} {r : ProgramRun} (h : programStep s r s') :
    Effect r s s' := by
  obtain ⟨rfl, rfl⟩ := h
  obtain ⟨program, m⟩ := r
  cases program with
  | brrEntry fw polls => exact effect_brrEntry fw polls m
  | maskShim env fw mem keys => exact effect_maskShim env fw mem keys m
  | installEfi fw loadOptions polls => exact effect_installEfi fw loadOptions polls m
  | revertEfi fw polls => exact effect_revertEfi fw polls m

/-- There is a boot order which can be saved. -/
def Savable (first : Store) : Prop :=
  ∃ order, first.get? .global bootOrderName = some order ∧ order ≠ [] ∧
    order.length ≤ orderBufSize

/-- What an installation records to be taken back. -/
def recordVars : List String := [brrVarnameOrigboot, brrVarnameOrigbootLegacy, brrVarnameBootslot]

def NothingRecorded (s : Store) : Prop := ∀ name ∈ recordVars, s.get? .brr name = none

/-- What an installation may change. -/
def changedVars (slot : UInt16) : Set (Guid × String) :=
  ownVars ∪ {(.global, bootOrderName), (.global, bootVarName slot)}

/-- All but our own variables are as at first; or there is one entry more, in a slot which was
free, it stands before the first boot order, and both are on record. -/
inductive Stage (first s : Store) : Prop
  | untouched : Agree ownVars first s → NothingRecorded s → Stage first s
  | installed {slot : UInt16} : first.get? .global (bootVarName slot) = none →
      s.get? .global bootOrderName = some (encode 2 slot.toNat ++ currentOrder first) →
      s.get? .brr brrVarnameOrigboot = first.get? .global bootOrderName →
      s.get? .brr brrVarnameBootslot = some (encode 2 slot.toNat) →
      Agree (changedVars slot) first s → Stage first s

/-- The firmware deletes what it is told to, and takes our own variables. It may run out of room
for a boot entry or a boot order, and files may not be found or not be copied. -/
structure Dependable (fw : Efi) : Prop where
  rollback : RollbackWorks fw
  own : ∀ i name data, fw.refuseSet i .brr name data = none

/-- A saved boot order can be written back. -/
def TakesOrder (fw : Efi) : Prop := ∀ i data, fw.refuseSet i .global bootOrderName data = none

section
variable {first s s' : Store}

theorem looseVars_subset_ownVars : looseVars ⊆ ownVars := by
  simp [looseVars, ownVars, Set.insert_subset_iff]

theorem record_notMem_looseVars {name : String} (h : name ∈ recordVars) :
    (.brr, name) ∉ looseVars := by
  have hdistinct : ∀ n ∈ recordVars, n ∉ [brrVarnameBadpages, brrVarnameState, varnameProbe] := by
    decide
  have hname := hdistinct name h
  simp only [List.mem_cons, List.not_mem_nil, or_false, not_or] at hname
  simp [looseVars, hname]

theorem agree_own {K : Set (Guid × String)} (hK : ownVars ⊆ K) (h : Agree K first s)
    (hloose : Agree looseVars s s') : Agree K first s' := by
  intro k hk
  rw [hloose k fun hmem => hk (hK (looseVars_subset_ownVars hmem))]
  exact h k hk

theorem Stage.loose (h : Stage first s) (hloose : Agree looseVars s s') : Stage first s' := by
  have hrecord (name : String) (hname : name ∈ recordVars) :
      s'.get? .brr name = s.get? .brr name := hloose (.brr, name) (record_notMem_looseVars hname)
  have horder : s'.get? .global bootOrderName = s.get? .global bootOrderName :=
    hloose (.global, bootOrderName) fun hmem =>
      global_notMem_ownVars _ (looseVars_subset_ownVars hmem)
  cases h with
  | untouched hagree hnone =>
      refine .untouched (agree_own subset_rfl hagree hloose) fun name hname => ?_
      rw [hrecord name hname]
      exact hnone name hname
  | installed hfree hheld hbackup hslot hagree =>
      apply Stage.installed hfree
      · rwa [horder]
      · rwa [hrecord _ (by simp [recordVars])]
      · rwa [hrecord _ (by simp [recordVars])]
      · exact agree_own Set.subset_union_left hagree hloose

theorem currentOrder_congr (h : s'.get? .global bootOrderName = s.get? .global bootOrderName) :
    currentOrder s' = currentOrder s := by
  unfold currentOrder
  rw [getVariable_congr h]

theorem installVars_subset (slot : UInt16) : installVars slot ⊆ changedVars slot := by
  intro k hk
  simp only [installVars, backupVars, entryVars, orderVars, Set.mem_union, Set.mem_insert_iff,
    Set.mem_singleton_iff] at hk
  rcases hk with ((rfl | rfl) | rfl | rfl) | rfl | rfl
  all_goals simp [changedVars, ownVars]

theorem stage_of_installed {fw : Efi} (hfw : Dependable fw) (hfirst : Savable first) {m m' : Machine}
    {slot : UInt16} (hagree : Agree ownVars first m.store) (h : Installed fw m m' slot) :
    Stage first m'.store := by
  have hglobal (name : String) : m.store.get? .global name = first.get? .global name :=
    hagree (.global, name) (global_notMem_ownVars name)
  obtain ⟨order, horder, hne, hlength⟩ := hfirst
  refine @Stage.installed first m'.store slot ?_ ?_ ?_ ?_ ?_
  · rw [← hglobal]
    exact h.free
  · rw [h.order, currentOrder_congr (hglobal _)]
  · rw [horder]
    exact h.backup order ((hglobal _).trans horder) hne hlength fun i => hfw.own i _ _
  · exact h.record fun i => hfw.own i _ _
  · intro k hk
    rw [h.vars k fun hmem => hk (installVars_subset slot hmem)]
    exact hagree k fun hmem => hk (Set.subset_union_left hmem)

theorem untouched_of_rolledBack {lost : List String} {m m' : Machine} {esp : Handle}
    (h : RolledBack lost m m' esp) (hlost : ∀ name ∈ lost, name ∈ recordVars)
    (hagree : Agree ownVars first m.store) (hnone : NothingRecorded m.store) :
    Stage first m'.store := by
  refine .untouched ?_ ?_
  · intro k hk
    rw [h.frame.vars k fun hmem => hk hmem.1]
    exact hagree k hk
  · intro name hname
    rw [h.kept (fun n hn => hnone n (hlost n hn)) (by rintro rfl; exact absurd hname (by decide))]
    exact hnone name hname

/-- From an untouched store, an installation is complete or leaves it untouched. -/
theorem stage_installMaskFull {fw : Efi} (hfw : Dependable fw) (hfirst : Savable first) {m : Machine}
    (hagree : Agree ownVars first m.store) (hnone : NothingRecorded m.store) :
    Stage first (installMaskFull fw m).2.store := by
  rcases hrun : installMaskFull fw m with ⟨e | ⟨⟩, m'⟩
  · have h := hrun
    rw [installMaskFull_eq] at h
    rcases error_of_bind h with hentry | ⟨⟨esp, slot⟩, m₁, hentry, horder⟩
    · rcases uptoEntry_error hfw.rollback hentry with ⟨e', hfind⟩ | ⟨usbRoot, esp, -, hback⟩
      · have hread := (reads_findVolumes fw).store m
        rw [hfind] at hread
        simp only at hread ⊢
        rw [hread]
        exact .untouched hagree hnone
      · exact untouched_of_rolledBack hback (by decide) hagree hnone
    · obtain ⟨-, hback⟩ := activation_rolledBack hfw.rollback hentry horder
      exact untouched_of_rolledBack hback (by decide) hagree hnone
  · obtain ⟨slot, hinstalled⟩ := installed_of_ok hrun
    exact stage_of_installed hfw hfirst hagree hinstalled

theorem savedOrder_of_nothing (h : NothingRecorded s) : (savedOrder s).1 ≠ efiSuccess := by
  have hread (name : String) (hname : name ∈ recordVars) :
      (getVariable s .brr name orderBufSize).1 = efiNotFound :=
    (getVariable_notFound_iff s .brr name orderBufSize).mpr (h name hname)
  unfold savedOrder
  simp only
  rw [if_pos (Or.inl (by rw [hread _ (by simp [recordVars])]; decide)),
    hread _ (by simp [recordVars])]
  decide

theorem savedSlot_of_nothing (h : NothingRecorded s) : savedSlot s = none := by
  have hread := (getVariable_notFound_iff s .brr brrVarnameBootslot 2).mpr
    (h _ (by simp [recordVars]))
  unfold savedSlot
  simp only
  rw [if_neg (by rw [hread]; decide)]

/-- The boot order after an uninstallation is the first one. -/
theorem order_afterUninstall {fw : Efi} (horder : TakesOrder fw) (hfirst : Savable first)
    {m : Machine} (h : Stage first m.store) : (afterUninstall fw m).store.get? .global
      bootOrderName = first.get? .global bootOrderName := by
  rw [bootOrder_afterUninstall, restoredOrder]
  cases h with
  | untouched hagree hnone =>
      rw [if_neg fun hrestore => savedOrder_of_nothing hnone hrestore.1.1]
      exact hagree (.global, bootOrderName) (global_notMem_ownVars _)
  | installed _ _ hbackup _ _ =>
      obtain ⟨order, hheld, hne, hlength⟩ := hfirst
      have hsaved := savedOrder_of_backup (hbackup.trans hheld) hne hlength
      have hrestorable : Restorable m.store := by
        unfold Restorable
        rw [hsaved]
        exact ⟨rfl, List.length_pos_of_ne_nil hne⟩
      rw [if_pos ⟨hrestorable, horder _ _⟩, hsaved, hheld]

/-- From either stage the uninstaller leads back to the first store, as far as the variables of
others go, and deletes every variable of ours that it knows. -/
theorem stage_afterUninstall {fw : Efi} (hfw : Dependable fw) (horder : TakesOrder fw)
    (hfirst : Savable first) {m : Machine} (h : Stage first m.store) :
    Agree ownVars first (afterUninstall fw m).store ∧
      ∀ name ∈ knownVars, (afterUninstall fw m).store.get? .brr name = none := by
  refine ⟨?_, fun name hname =>
    knownVar_afterUninstall hname (fun i => hfw.rollback.vars i _ _) m⟩
  intro k hk
  by_cases hboot : k = (.global, bootOrderName)
  · rw [hboot]
    exact order_afterUninstall horder hfirst h
  have hframe := frame_afterUninstall fw (R := ∅) (fun _ hmem => absurd hmem (Set.notMem_empty _)) m
  cases h with
  | untouched hagree hnone =>
      rw [hframe.vars k ?_]
      · exact hagree k hk
      · intro hmem
        rcases hmem with horder | ⟨slot, hslot, -⟩ | ⟨hbrr, -⟩
        · exact hboot horder
        · rw [savedSlot_of_nothing hnone] at hslot
          cases hslot
        · exact hk hbrr
  | @installed slot hfree _ _ hrecord hagree =>
      have hslot := savedSlot_of_record hrecord
      by_cases hentry : k = (.global, bootVarName slot)
      · rw [hentry, bootEntry_afterUninstall hslot fun i => hfw.rollback.vars i _ _]
        exact hfree.symm
      · rw [hframe.vars k ?_]
        · refine hagree k ?_
          simp only [changedVars, Set.mem_union, Set.mem_insert_iff, Set.mem_singleton_iff, not_or]
          exact ⟨hk, hboot, hentry⟩
        · intro hmem
          rcases hmem with horder | ⟨slot', hslot', heq⟩ | ⟨hbrr, -⟩
          · exact hboot horder
          · rw [hslot] at hslot'
            rw [← Option.some.inj hslot'] at heq
            exact hentry heq
          · exact hk hbrr

end

/-- `install.efi` is confirmed where the shim is installed already. -/
def InstallsOver (r : ProgramRun) : Prop :=
  match r.program with
  | .installEfi _ _ polls => installConfirmed polls = true ∧ alreadyInstalled r.before.store = true
  | _ => False

/-- A run with dependable firmware, and if it uninstalls, the boot order can be written. -/
structure DependableRun (r : ProgramRun) : Prop where
  fw : Dependable (runEfi r)
  order : AsksUninstall r → TakesOrder (runEfi r)

theorem stage_step {first s s' : Store} (hfirst : Savable first) {r : ProgramRun}
    (hr : DependableRun r) (hover : ¬InstallsOver r) (hs : Stage first s) (h : programStep s r s') :
    Stage first s' := by
  have hbefore := h.1
  cases effect_of_programStep h with
  | nothing hloose => exact hs.loose hloose
  | @installs m s' hinstalling hloose hafter =>
      have hbackup : m.store.get? .brr brrVarnameOrigboot = s.get? .brr brrVarnameOrigboot :=
        hloose (.brr, brrVarnameOrigboot) (record_notMem_looseVars (by simp [recordVars]))
      have hfresh : alreadyInstalled s = false := by
        rw [← Bool.not_eq_true, alreadyInstalled_iff, not_not]
        obtain ⟨program, before⟩ := r
        cases program with
        | brrEntry fw polls =>
            have hnot : alreadyInstalled m.store = false := hinstalling
            rw [← Bool.not_eq_true, alreadyInstalled_iff, not_not] at hnot
            rwa [← hbackup]
        | installEfi fw loadOptions polls =>
            have hnot : alreadyInstalled before.store ≠ true := fun hyes =>
              hover ⟨hinstalling, hyes⟩
            rw [Ne, alreadyInstalled_iff, not_not] at hnot
            rwa [← hbefore]
        | maskShim env fw mem keys => exact absurd hinstalling id
        | revertEfi fw polls => exact absurd hinstalling id
      rw [← Bool.not_eq_true, alreadyInstalled_iff, not_not] at hfresh
      refine Stage.loose ?_ hafter
      cases hs.loose hloose with
      | untouched hagree hnone => exact stage_installMaskFull hr.fw hfirst hagree hnone
      | installed _ _ hheld _ _ =>
          obtain ⟨order, horder, -, -⟩ := hfirst
          rw [hbackup, hfresh, horder] at hheld
          cases hheld
  | uninstalls hasked hstore =>
      obtain ⟨hagree, hgone⟩ := stage_afterUninstall hr.fw (hr.order hasked) hfirst
        (hstore ▸ hs)
      exact .untouched hagree fun name hname => hgone name (by revert name; decide)

/-- Over any sequence of runs, with failures of the volumes and the files and with refused boot
entries, in which nobody confirms `install.efi` over an installation, the computer is untouched or
installed once; and an uninstallation gives everything outside our own variables back as it was at
first, and leaves none of ours which it knows. -/
theorem history_undone {first last : Store} {runs : List ProgramRun}
    (h : Run programStep first runs last) (hfirst : Savable first) (hnone : NothingRecorded first)
    (hruns : ∀ r ∈ runs, DependableRun r ∧ ¬InstallsOver r) :
    Stage first last ∧ ∀ fw m, Dependable fw → TakesOrder fw → m.store = last →
      Agree ownVars first (afterUninstall fw m).store ∧
        ∀ name ∈ knownVars, (afterUninstall fw m).store.get? .brr name = none := by
  have hstep (s : Store) (r : ProgramRun) (t : Store) (hr : DependableRun r ∧ ¬InstallsOver r)
      (hs : Stage first s) (hrun : programStep s r t) : Stage first t :=
    stage_step hfirst hr.1 hr.2 hs hrun
  have hlast : Stage first last := h.invariant hstep hruns (.untouched (.refl _ _) hnone)
  refine ⟨hlast, fun fw m hfw horder hstore => ?_⟩
  rw [← hstore] at hlast
  exact stage_afterUninstall hfw horder hfirst hlast

theorem dependable_usbEfi : Dependable usbEfi :=
  ⟨⟨fun _ _ _ => rfl, fun _ => ⟨rfl, rfl⟩⟩, fun _ _ _ => rfl⟩

/-- An installation which was confirmed at the next boot. -/
def confirmedComputer : Machine :=
  { freshComputer with store := (confirmRun usbEfi freshComputer).after }

theorem history_undone_fresh :
    (afterUninstall usbEfi confirmedComputer).store.get? .global bootOrderName =
      some [0x80, 0x00] := by
  have hfirst : Savable freshComputer.store := ⟨[0x80, 0x00], by decide, by decide, by decide⟩
  have hruns : ∀ r ∈ [installRun usbEfi freshComputer, confirmRun usbEfi freshComputer],
      DependableRun r ∧ ¬InstallsOver r := by
    simp only [List.forall_mem_cons, List.not_mem_nil, false_implies, implies_true, and_true]
    refine ⟨⟨⟨dependable_usbEfi, fun _ _ _ => rfl⟩, ?_⟩, ⟨dependable_usbEfi, fun _ _ _ => rfl⟩, id⟩
    exact fun hover => absurd hover.2 (by decide)
  have hstore : confirmedComputer.store = (confirmRun usbEfi freshComputer).after := by
    simp only [confirmedComputer]
  have hundone := (history_undone (installed_and_confirmed usbEfi freshComputer) hfirst
    (by unfold NothingRecorded; decide) hruns).2 usbEfi confirmedComputer
      dependable_usbEfi (fun _ _ => rfl) hstore
  rw [hundone.1 (.global, bootOrderName) (global_notMem_ownVars _)]
  decide

end BankFinder.LifeCycle
