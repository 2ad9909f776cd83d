import BankFinder.BrrEntry
import BankFinder.InstallRollback
import BankFinder.LabelledRuns

/-!
# Installing at most once

`brr-entry` takes the backup of the boot order as the sign that the shim is installed. The
sign and the boot entry go together as long as the installer finds a boot order which it
can save; without one it succeeds all the same, and the next run installs again.
-/

namespace BankFinder.AutoInstall
open Nvram EfiMachine MachineFrame BootNames MaskOps MaskFrames Uninstall BadPages AddressEntry
open Install InstallUndo InstallRollback BrrEntry LabelledRuns

theorem alreadyInstalled_iff (store : Store) :
    alreadyInstalled store = true ↔ store.get? .brr brrVarnameOrigboot ≠ none := by
  unfold alreadyInstalled getVariable
  cases store.get? .brr brrVarnameOrigboot with
  | none => exact iff_of_false (by decide) (by simp)
  | some data =>
      simp only
      split_ifs
      · exact iff_of_true (by simp) (by simp)
      · exact iff_of_true (by simp) (by simp)

/-- There is at most one entry for the shim, and only together with the backup. -/
structure OneEntry (store : Store) : Prop where
  unique : ∀ a b, ShimEntry store a → ShimEntry store b → a = b
  backed : ∀ a, ShimEntry store a → alreadyInstalled store = true

theorem shimEntry_congr {store store' : Store} {name : String}
    (h : store'.get? .global name = store.get? .global name) :
    ShimEntry store' name ↔ ShimEntry store name := by
  unfold ShimEntry
  rw [h]

theorem OneEntry.of_none {store : Store} (h : ∀ name, ¬ShimEntry store name) : OneEntry store :=
  ⟨fun a _ ha => absurd ha (h a), fun a ha => absurd ha (h a)⟩

theorem OneEntry.congr {store store' : Store} (hone : OneEntry store)
    (hentries : ∀ name, isBootEntry name = true →
      store'.get? .global name = store.get? .global name)
    (hbackup : store'.get? .brr brrVarnameOrigboot = store.get? .brr brrVarnameOrigboot) :
    OneEntry store' := by
  have hbefore (a : String) (ha : ShimEntry store' a) : ShimEntry store a :=
    (shimEntry_congr (hentries a ha.1)).mp ha
  constructor
  · exact fun a b ha hb => hone.unique a b (hbefore a ha) (hbefore b hb)
  · intro a ha
    have hinstalled := hone.backed a (hbefore a ha)
    rw [alreadyInstalled_iff] at hinstalled ⊢
    rwa [hbackup]

/-- The backup of the boot order will be written. -/
def OrderSaved (fw : Efi) (store : Store) : Prop :=
  ∃ order, store.get? .global bootOrderName = some order ∧ order ≠ [] ∧
    order.length ≤ orderBufSize ∧ ∀ i, fw.refuseSet i .brr brrVarnameOrigboot order = none

/-- A run of the installer which creates an entry also leaves the backup, and a run which
cannot activate the entry deletes it. -/
def EntryBacked (fw : Efi) (m : Machine) : Prop :=
  ∀ esp slot m₁, uptoEntry fw m = (.ok (esp, slot), m₁) →
    if (prependBootOrderOps fw slot m₁).1.isOk then OrderSaved fw m.store
    else ∀ i, fw.refuseSet i .global (bootVarName slot) [] = none

/-- The variables of our own. -/
def ownVars : Set (Guid × String) := {k | k.1 = .brr}

theorem mem_ownVars (name : String) : (Guid.brr, name) ∈ ownVars := rfl

theorem global_notMem_ownVars (name : String) : (Guid.global, name) ∉ ownVars := by
  simp [ownVars]

theorem uptoEntry_error_frame {fw : Efi} {m m' : Machine} {e : InstallError}
    (h : uptoEntry fw m = (.error e, m')) : Frame ownVars Set.univ m m' := by
  have hbackup : backupVars ⊆ ownVars := by simp [backupVars, ownVars, Set.insert_subset_iff]
  rcases error_of_bind h with hfind | ⟨⟨usbRoot, esp⟩, m₁, hfind, hrest⟩
  · have hread := (reads_findVolumes fw).frame (K := ownVars) (F := Set.univ) m
    rwa [hfind] at hread
  have hread := (reads_findVolumes fw).frame (K := ownVars) (F := Set.univ) m
  rw [hfind] at hread
  simp only at hrest
  rw [(total_prepareEsp fw esp).bind_run] at hrest
  have hprepare := trans_of _ hread
    ((frame_prepareEsp fw esp m₁).mono hbackup (Set.subset_univ _))
  rcases error_of_bind hrest with hcopy | ⟨_, m₃, hcopy, hrest⟩
  · obtain ⟨m₂, hframe, rfl⟩ := copyShim_error hcopy
    exact trans_of _ (trans_of _ hprepare (hframe.mono (Set.empty_subset _) (Set.subset_univ _)))
      (frame_undoCopy fw esp (mem_ownVars _) (mem_ownVars _) m₂)
  have hcopied := trans_of _ hprepare
    ((copyShim_ok hcopy).frame.mono subset_rfl (Set.subset_univ _))
  rcases error_of_bind hrest with hentry | ⟨_, _, -, hpure⟩
  · obtain ⟨m₂, hframe, rfl⟩ := registerEntry_error hentry
    exact trans_of _ (trans_of _ hcopied (hframe.mono (Set.empty_subset _) (Set.subset_univ _)))
      (frame_undoEntry fw esp (mem_ownVars _) (mem_ownVars _) m₂)
  · cases hpure

/-- A new entry is the only change outside our own variables. -/
theorem uptoEntry_ok_frame {fw : Efi} {m m' : Machine} {esp : Handle} {slot : UInt16}
    (h : uptoEntry fw m = (.ok (esp, slot), m')) :
    m.store.get? .global (bootVarName slot) = none ∧
      ∀ name ≠ bootVarName slot, m'.store.get? .global name = m.store.get? .global name := by
  obtain ⟨m₁, m₂, m₃, hfind, hprepare, hcopy, hregister⟩ := uptoEntry_ok h
  obtain ⟨hfound, -, hframe, -⟩ := registerEntry_ok hregister
  have hfree := findFreeSlot_free hfound
  have hprepared := frame_prepareEsp fw esp m₁
  rw [hprepare] at hprepared
  have hbefore (name : String) :
      m₃.store.get? .global name = m.store.get? .global name := by
    rw [hcopy.1, hprepared.vars (.global, name) (by simp [backupVars]), hfind.1]
  constructor
  · rw [← hbefore]
    exact hfree
  · intro name hname
    rw [← hbefore]
    exact hframe.vars (.global, name) (by simp [entryVars, hname])

/-- An entry which cannot be activated is deleted, and no other is. -/
theorem activateEntry_error_entries {fw : Efi} {esp : Handle} {slot : UInt16} {m m' : Machine}
    {e : InstallError} (h : activateEntry fw esp slot m = (.error e, m'))
    (hdelete : ∀ i, fw.refuseSet i .global (bootVarName slot) [] = none) :
    m'.store.get? .global (bootVarName slot) = none ∧
      ∀ name ≠ bootVarName slot, m'.store.get? .global name = m.store.get? .global name := by
  obtain ⟨m₁, hframe, rfl⟩ := activateEntry_error h
  rw [undoOrder, (total_nvramDelGlobal fw _).bind_run]
  have hgone : ((nvramDelGlobal fw (bootVarName slot) : EfiM InstallError Unit) m₁).2.store.get?
      .global (bootVarName slot) = none := setVariable_stored (hdelete _)
  have hothers : Frame {(.global, bootVarName slot)} ∅ m₁
      ((nvramDelGlobal fw (bootVarName slot) : EfiM InstallError Unit) m₁).2 :=
    frame_nvramDelGlobal fw (Set.mem_singleton _) m₁
  have hrest := frame_undoOrder_rest (ε := InstallError) (K := ownVars) fw esp (mem_ownVars _)
    (mem_ownVars _) (mem_ownVars _)
    ((nvramDelGlobal fw (bootVarName slot) : EfiM InstallError Unit) m₁).2
  constructor
  · exact (hrest.vars (.global, bootVarName slot) (global_notMem_ownVars _)).trans hgone
  · intro name hname
    refine (hrest.vars (.global, name) (global_notMem_ownVars _)).trans ?_
    refine (hothers.vars (.global, name) (by simp [hname])).trans ?_
    exact hframe.vars (.global, name) (Set.notMem_empty _)

/-- The entry is activated when the boot order could be written. -/
theorem activateEntry_isOk (fw : Efi) (esp : Handle) (slot : UInt16) (m : Machine) :
    (activateEntry fw esp slot m).1.isOk = (prependBootOrderOps fw slot m).1.isOk := by
  rw [activateEntry, bind_run, orFail]
  cases (prependBootOrderOps fw slot m).1 with
  | ok _ => rfl
  | error _ => rfl

/-- Where there was no entry, the installer leaves at most one, and not without the backup. -/
theorem oneEntry_installMaskFull {fw : Efi} {m : Machine} (hnone : ∀ name, ¬ShimEntry m.store name)
    (hbacked : EntryBacked fw m) : OneEntry (installMaskFull fw m).2.store := by
  rcases hrun : installMaskFull fw m with ⟨e | _, m'⟩
  · apply OneEntry.of_none
    rw [installMaskFull_eq] at hrun
    rcases error_of_bind hrun with hentry | ⟨⟨esp, slot⟩, m₁, hentry, hactivate⟩
    · intro name hname
      refine hnone name ((shimEntry_congr ?_).mp hname)
      exact (uptoEntry_error_frame hentry).vars (.global, name) (global_notMem_ownVars name)
    · have hfailed : (prependBootOrderOps fw slot m₁).1.isOk = false := by
        rw [← activateEntry_isOk fw esp slot m₁, hactivate]
        rfl
      have hdelete := hbacked esp slot m₁ hentry
      rw [hfailed, if_neg Bool.false_ne_true] at hdelete
      obtain ⟨-, hkept⟩ := uptoEntry_ok_frame hentry
      obtain ⟨hgone, hkept'⟩ := activateEntry_error_entries hactivate hdelete
      intro name hname
      rcases eq_or_ne name (bootVarName slot) with rfl | hne
      · obtain ⟨-, data, hget, -⟩ := hname
        rw [hgone] at hget
        exact absurd hget (by simp)
      · refine hnone name ((shimEntry_congr ?_).mp hname)
        exact (hkept' name hne).trans (hkept name hne)
  · obtain ⟨slot, hinstalled⟩ := installed_of_ok hrun
    have hself (name : String) (hname : ShimEntry m'.store name) : name = bootVarName slot := by
      by_contra hne
      refine hnone name ((shimEntry_congr ?_).mp hname)
      exact hinstalled.vars (.global, name) (isBootEntry_iff_vars hname.1 hne)
    constructor
    · exact fun a b ha hb => (hself a ha).trans (hself b hb).symm
    · intro a _
      rw [installMaskFull_eq] at hrun
      obtain ⟨⟨esp, slot'⟩, m₁, hentry, hactivate⟩ := ok_of_bind hrun
      have hok : (prependBootOrderOps fw slot' m₁).1.isOk = true := by
        rw [← activateEntry_isOk fw esp slot' m₁, hactivate]
        rfl
      have hsaved := hbacked esp slot' m₁ hentry
      rw [if_pos hok] at hsaved
      obtain ⟨order, horder, hne, hlength, haccept⟩ := hsaved
      rw [alreadyInstalled_iff, hinstalled.backup order horder hne hlength haccept]
      simp

/-- The variables which a run writes before it installs. -/
def listVars : Set (Guid × String) :=
  {(.brr, brrVarnameBadpages), (.brr, MaskShim.brrVarnameState)}

/-- A run up to the installer; whether it gets there. -/
def uptoInstall (fw : Efi) (polls : List Poll) : EfiM Refusal Bool := do
  let store ← readStore
  match prompts store polls with
  | .ends _ => pure false
  | .saved => do
      ignore (maskNvramSetAscii fw MaskShim.brrVarnameState MaskShim.stateTrialPendingPage)
      pure true
  | .typed pas => do
      setVariable fw .brr brrVarnameBadpages (badpagesBlob pas)
      maskNvramSetAscii fw MaskShim.brrVarnameState MaskShim.stateTrialPendingPage
      pure true

theorem frame_uptoInstall (fw : Efi) (polls : List Poll) :
    Keeps (Frame listVars Set.univ) (uptoInstall fw polls) := by
  refine reads_readStore.frame.bind fun store => ?_
  have hstate : Keeps (Frame listVars Set.univ)
      (maskNvramSetAscii fw MaskShim.brrVarnameState MaskShim.stateTrialPendingPage) :=
    frame_setVariable fw _ (by simp [listVars])
  cases prompts store polls with
  | ends o => exact Keeps.pure false
  | saved => exact hstate.ignore.bind fun _ => Keeps.pure true
  | typed pas =>
      exact (frame_setVariable fw _ (by simp [listVars])).bind fun _ => hstate.bind fun _ =>
        Keeps.pure true

/-- A run is what comes before the installer, and the installer when the run gets there. -/
theorem efiMain_store (fw : Efi) (polls : List Poll) (m : Machine) :
    (efiMain fw polls m).2.store =
      match uptoInstall fw polls m with
      | (.ok true, m₁) => (autoInstall fw m₁).2.store
      | (_, m₁) => m₁.store := by
  have htail (m₁ : Machine) :
      ((autoInstall fw >>= fun _ => bootShim fw) m₁).2.store = (autoInstall fw m₁).2.store := by
    rw [bind_run]
    cases (autoInstall fw m₁).1 with
    | ok _ => exact (reads_bootShim fw).store _
    | error _ => rfl
  rw [uptoInstall, readStore_bind]
  cases hchoice : prompts m.store polls with
  | ends o =>
      rw [efiMain_ends hchoice]
      rfl
  | saved =>
      rw [efiMain_saved hchoice]
      exact htail _
  | typed pas =>
      rw [efiMain_typed hchoice, applyTyped]
      simp only
      rcases hlist : setVariable fw .brr brrVarnameBadpages (badpagesBlob pas) m with ⟨e | _, m₁⟩
      · rw [bind_of_error _ hlist, bind_of_error _ hlist]
      rw [bind_of_ok _ hlist, bind_of_ok _ hlist]
      rcases hstate : maskNvramSetAscii fw MaskShim.brrVarnameState
        MaskShim.stateTrialPendingPage m₁ with ⟨e | _, m₂⟩
      · rw [bind_of_error _ hstate, bind_of_error _ hstate]
      rw [bind_of_ok _ hstate, bind_of_ok _ hstate]
      exact htail m₂

theorem listVars_entries {m m' : Machine} (h : Frame listVars Set.univ m m') (hone : OneEntry m.store) :
    OneEntry m'.store :=
  hone.congr (fun name _ => h.vars (.global, name) (by simp [listVars]))
    (h.vars (.brr, brrVarnameOrigboot) (by simp [listVars]; decide))

theorem oneEntry_autoInstall {fw : Efi} {m : Machine} (hone : OneEntry m.store)
    (hbacked : alreadyInstalled m.store = false → EntryBacked fw m) :
    OneEntry (autoInstall fw m).2.store := by
  rw [autoInstall, readStore_bind, ite_run]
  split_ifs with hinstalled
  · exact hone
  · have hfalse : alreadyInstalled m.store = false := Bool.eq_false_iff.mpr hinstalled
    have hnone (name : String) : ¬ShimEntry m.store name := by
      intro hname
      exact hinstalled (hone.backed name hname)
    have hafter := oneEntry_installMaskFull hnone (hbacked hfalse)
    have hstate (installed : Bool) : Keeps (Frame listVars Set.univ) (if installed then
        ignore (maskNvramSetAscii fw MaskShim.brrVarnameState MaskShim.stateTrialPendingPage)
      else pure () : EfiM Refusal Unit) := by
      split_ifs
      · exact (frame_setVariable fw _ (by simp [listVars])).ignore
      · exact Keeps.pure ()
    rw [bind_run]
    exact listVars_entries (hstate _ (installMaskFull fw m).2) hafter

/-- One run of the program: its firmware, its keys and the machine it starts on. -/
structure BrrRun where
  fw : Efi
  polls : List Poll
  before : Machine

def BrrRun.after (r : BrrRun) : Store := (efiMain r.fw r.polls r.before).2.store

/-- Between two runs everything but the variables may change. -/
def brrStep (store : Store) (r : BrrRun) (store' : Store) : Prop :=
  r.before.store = store ∧ r.after = store'

/-- A run which gets to the installer and finds no backup will leave one with the entry. -/
def SafeRun (r : BrrRun) : Prop :=
  ∀ m, uptoInstall r.fw r.polls r.before = (.ok true, m) → alreadyInstalled m.store = false →
    EntryBacked r.fw m

theorem oneEntry_brrStep {store store' : Store} {r : BrrRun} (hsafe : SafeRun r)
    (hone : OneEntry store) (hstep : brrStep store r store') : OneEntry store' := by
  obtain ⟨rfl, rfl⟩ := hstep
  have hframe := frame_uptoInstall r.fw r.polls r.before
  rw [BrrRun.after, efiMain_store]
  rcases hrun : uptoInstall r.fw r.polls r.before with ⟨e | installs, m⟩
  · rw [hrun] at hframe
    exact listVars_entries hframe hone
  · rw [hrun] at hframe
    have hbefore := listVars_entries hframe hone
    cases installs with
    | false => exact hbefore
    | true => exact oneEntry_autoInstall hbefore (hsafe m hrun)

/-- As long as every run which creates the entry also leaves the backup, there is never a
second entry. -/
theorem safe_runs_install_once {first last : Store} {runs : List BrrRun}
    (hnone : ∀ name, ¬ShimEntry first name) (hsafe : ∀ r ∈ runs, SafeRun r)
    (hruns : Run brrStep first runs last) : OneEntry last :=
  hruns.invariant (P := OneEntry) (fun _ _ _ => oneEntry_brrStep) hsafe (.of_none hnone)

def charKey (c : UInt16) : Poll := some ⟨0, c⟩

/-- One address, Enter, and Y. -/
def typedKeys : List Poll := [0x31, 0x30, 0x30, 0x30, 0x0D, 0x59].map charKey
def retryKeys : List Poll := [charKey 0x59]

/-- A run with a typed list and one with the saved list. -/
def firstRun (m : Machine) : BrrRun := ⟨usbEfi, typedKeys, m⟩
def secondRun (m : Machine) : BrrRun := ⟨usbEfi, retryKeys, (efiMain usbEfi typedKeys m).2⟩

theorem two_runs (m : Machine) :
    Run brrStep m.store [firstRun m, secondRun m] (secondRun m).after :=
  .snoc (.snoc (l := firstRun m) .nil ⟨rfl, rfl⟩) ⟨rfl, rfl⟩

/-- Data too short for the file path of the shim does not name it. -/
theorem no_shimEntry {store : Store}
    (h : ∀ v ∈ store, v.data.length < (filePathNode shimEntryPath).length) (name : String) :
    ¬ShimEntry store name := by
  intro hname
  obtain ⟨-, data, hget, hpoints⟩ := hname
  obtain ⟨v, hfind, rfl⟩ := Option.map_eq_some_iff.mp hget
  exact absurd hpoints.length_le (Nat.not_le.mpr (h v (List.mem_of_find?_eq_some hfind)))

theorem safeRun_first_fresh : SafeRun (firstRun freshComputer) := by
  intro m hrun _ esp slot m₁ _
  have horder : (uptoInstall (firstRun freshComputer).fw (firstRun freshComputer).polls
      (firstRun freshComputer).before).2.store.get? .global bootOrderName = some [0x80, 0x00] := by
    decide +kernel
  rw [hrun] at horder
  split_ifs
  · exact ⟨_, horder, by decide, by decide, fun _ => rfl⟩
  · exact fun _ => rfl

theorem safeRun_second_fresh : SafeRun (secondRun freshComputer) := by
  intro m hrun habsent
  have hstore : alreadyInstalled (uptoInstall (secondRun freshComputer).fw
      (secondRun freshComputer).polls (secondRun freshComputer).before).2.store = true := by
    decide +kernel
  rw [hrun, habsent] at hstore
  exact absurd hstore Bool.false_ne_true

theorem safe_runs_install_once_fresh : OneEntry (secondRun freshComputer).after :=
  safe_runs_install_once (no_shimEntry (by decide +kernel))
    (List.forall_mem_cons.mpr ⟨safeRun_first_fresh,
      List.forall_mem_singleton.mpr safeRun_second_fresh⟩) (two_runs freshComputer)

/-- A Mac whose boot entries are in no order. -/
def orderlessComputer : Machine :=
  { freshComputer with store := [⟨.global, "Boot0080", [0x01]⟩] }

/-- The load options which two runs on it leave. -/
def orderlessEntry (slot : UInt16) : List UInt8 :=
  ((secondRun orderlessComputer).after.get? .global (bootVarName slot)).getD []

/-- Without a boot order nothing is saved, and the second run installs again. -/
theorem second_run_installs_again : ¬∀ (first last : Store) (runs : List BrrRun), Clean first →
    (∀ name, ¬ShimEntry first name) → Run brrStep first runs last →
      ∀ a b, ShimEntry last a → ShimEntry last b → a = b := by
  intro h
  have hclean : Clean orderlessComputer.store := by
    intro name
    simp [orderlessComputer, Store.get?, Variable.named]
  have hfirst : ShimEntry (secondRun orderlessComputer).after (bootVarName 0x0100) :=
    ⟨isBootEntry_bootVarName 0x0100, orderlessEntry 0x0100, by decide +kernel,
      by unfold PointsAtShim; decide +kernel⟩
  have hsecond : ShimEntry (secondRun orderlessComputer).after (bootVarName 0x0101) :=
    ⟨isBootEntry_bootVarName 0x0101, orderlessEntry 0x0101, by decide +kernel,
      by unfold PointsAtShim; decide +kernel⟩
  have hsame := h _ _ _ hclean (no_shimEntry (by decide +kernel)) (two_runs orderlessComputer)
    _ _ hfirst hsecond
  exact absurd hsame (by decide +kernel)

end BankFinder.AutoInstall
