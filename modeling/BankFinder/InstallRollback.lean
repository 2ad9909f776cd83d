import BankFinder.InstallUndo

/-!
# When a failed installation leaves no trace

A run which cannot find its volumes changes nothing. A later failure is answered by
deleting the shim, the saved boot order and, at the last step, the recorded slot. That
is the state before the run when none of them existed, and a loss when an earlier
installation had left them there.
-/

namespace BankFinder.InstallRollback
open LittleEndian Nvram EfiMachine MachineFrame BootNames MaskOps MaskFrames Uninstall
open UninstallFiles Install InstallUndo

/-- What a failed run is to leave as it was. -/
structure Atomic (m m' : Machine) : Prop where
  order : m'.store.get? .global bootOrderName = m.store.get? .global bootOrderName
  entries : ∀ name, isBootEntry name = true →
    m'.store.get? .global name = m.store.get? .global name
  backup : m'.store.get? .brr brrVarnameOrigboot = m.store.get? .brr brrVarnameOrigboot
  record : m'.store.get? .brr brrVarnameBootslot = m.store.get? .brr brrVarnameBootslot
  shim : ∀ root, (m'.files root).content? internalShimPath =
    (m.files root).content? internalShimPath

/-- The deletions of the rollback are carried out. -/
structure RollbackWorks (fw : Efi) : Prop where
  vars : ∀ i guid name, fw.refuseSet i guid name [] = none
  files : DeletesFiles fw

/-- No trace of an earlier installation which a rollback would delete: the last step also
deletes the recorded slot. -/
def NothingToLose (fw : Efi) (m : Machine) (esp : Handle) : Prop :=
  m.store.get? .brr brrVarnameOrigboot = none ∧
    (m.files esp).content? internalShimPath = none ∧
    ((uptoEntry fw m).1.isOk = true → m.store.get? .brr brrVarnameBootslot = none)

/-- The volumes are not found, or there is nothing to lose on them. -/
def SafeToFail (fw : Efi) (m : Machine) : Prop :=
  match (findVolumes fw m).1 with
  | .error _ => True
  | .ok (_, esp) => NothingToLose fw m esp

/-- The variables of our own which a rollback deletes. -/
def deletedVars (lost : List String) : Set (Guid × String) :=
  {k | k.1 = .brr ∧ k.2 ∈ brrVarnameBootentries :: lost}

/-- The machine is as before, except that the variables `lost` and the shim are gone. -/
structure RolledBack (lost : List String) (m m' : Machine) (esp : Handle) : Prop where
  frame : Frame (deletedVars lost) (onVolume esp) m m'
  gone : ∀ name ∈ lost, m'.store.get? .brr name = none
  shim : (m'.files esp).content? internalShimPath = none

theorem global_notMem_deletedVars (lost : List String) (name : String) :
    (Guid.global, name) ∉ deletedVars lost := by
  simp [deletedVars]

/-- A variable of our own is as before when it did not exist before it was deleted. -/
theorem RolledBack.kept {lost : List String} {m m' : Machine} {esp : Handle}
    (h : RolledBack lost m m' esp) (hnone : ∀ name ∈ lost, m.store.get? .brr name = none)
    {name : String} (hname : name ≠ brrVarnameBootentries) :
    m'.store.get? .brr name = m.store.get? .brr name := by
  rcases Classical.em (name ∈ lost) with hlost | hlost
  · rw [h.gone name hlost, hnone name hlost]
  · exact h.frame.vars (.brr, name) (by simp [deletedVars, hname, hlost])

theorem RolledBack.atomic_iff {lost : List String} {m m' : Machine} {esp : Handle}
    (h : RolledBack lost m m' esp)
    (hlost : ∀ name ∈ lost, name = brrVarnameOrigboot ∨ name = brrVarnameBootslot) :
    Atomic m m' ↔ (∀ name ∈ lost, m.store.get? .brr name = none) ∧
      (m.files esp).content? internalShimPath = none := by
  constructor
  · intro hatomic
    refine ⟨?_, (hatomic.shim esp).symm.trans h.shim⟩
    intro name hname
    rcases hlost name hname with rfl | rfl
    · exact hatomic.backup.symm.trans (h.gone _ hname)
    · exact hatomic.record.symm.trans (h.gone _ hname)
  · intro hbefore
    obtain ⟨hnone, hshim⟩ := hbefore
    constructor
    · exact h.frame.vars (.global, bootOrderName) (global_notMem_deletedVars lost _)
    · exact fun name _ => h.frame.vars (.global, name) (global_notMem_deletedVars lost name)
    · exact h.kept hnone (by decide)
    · exact h.kept hnone (by decide)
    · intro root
      rcases eq_or_ne root esp with rfl | hroot
      · exact h.shim.trans hshim.symm
      · exact h.frame.content? hroot

theorem RollbackWorks.maskNvramDelete_gone {fw : Efi} (h : RollbackWorks fw) (name : String)
    (m : Machine) :
    ((maskNvramDelete fw name : EfiM InstallError Unit) m).2.store.get? .brr name = none :=
  setVariable_stored (h.vars _ _ _)

/-- Deleting a variable leaves the other variables and the files alone. -/
theorem kept_maskNvramDelete (fw : Efi) (name : String) (m : Machine) :
    Frame {(.brr, name)} ∅ m ((maskNvramDelete fw name : EfiM InstallError Unit) m).2 :=
  frame_maskNvramDelete fw (Or.inl (Set.mem_singleton _)) m

/-- Deleting a file leaves the other files and the variables alone. -/
theorem kept_deleteFileOps (fw : Efi) (root : Handle) (path : EfiPath) (m : Machine) :
    Frame ∅ {(root, path)} m ((deleteFileOps fw root path : EfiM InstallError Unit) m).2 :=
  (writes_deleteFileOps fw (Set.mem_singleton _)).frame m

/-- The end of the rollback after a failed copy or entry. -/
theorem deleteBackups_rolledBack {fw : Efi} (hfw : RollbackWorks fw) {esp : Handle}
    {m m₁ : Machine} (h : Frame (deletedVars [brrVarnameOrigboot]) (onVolume esp) m m₁)
    (hshim : (m₁.files esp).content? internalShimPath = none) :
    RolledBack [brrVarnameOrigboot] m ((do
      maskNvramDelete fw brrVarnameOrigboot
      maskNvramDelete fw brrVarnameBootentries : EfiM InstallError Unit) m₁).2 esp := by
  rw [(total_maskNvramDelete fw _).bind_run]
  have horder := kept_maskNvramDelete fw brrVarnameOrigboot m₁
  have hentries := kept_maskNvramDelete fw brrVarnameBootentries
    ((maskNvramDelete fw brrVarnameOrigboot : EfiM InstallError Unit) m₁).2
  constructor
  · exact trans_of _ h (trans_of _ (horder.mono (by simp [deletedVars]) (Set.empty_subset _))
      (hentries.mono (by simp [deletedVars]) (Set.empty_subset _)))
  · intro name hname
    rw [List.mem_singleton.mp hname]
    exact (hentries.vars (.brr, brrVarnameOrigboot) (by decide)).trans
      (hfw.maskNvramDelete_gone brrVarnameOrigboot m₁)
  · rw [hentries.content? (Set.notMem_empty _), horder.content? (Set.notMem_empty _)]
    exact hshim

theorem undoCopy_rolledBack {fw : Efi} (hfw : RollbackWorks fw) {esp : Handle} {m m₁ : Machine}
    (h : Frame (deletedVars [brrVarnameOrigboot]) (onVolume esp) m m₁) :
    RolledBack [brrVarnameOrigboot] m ((undoCopy fw esp : EfiM InstallError Unit) m₁).2 esp := by
  have hshim := kept_deleteFileOps fw esp internalShimPath m₁
  rw [undoCopy, (total_deleteFileOps fw esp _).bind_run]
  apply deleteBackups_rolledBack hfw
  · exact trans_of _ h (hshim.mono (Set.empty_subset _) (by simp [onVolume]))
  · exact deleteFileOps_gone hfw.files esp internalShimPath m₁

/-- Both files are deleted. -/
theorem deleteFiles_shim {fw : Efi} (hfw : RollbackWorks fw) (esp : Handle) (m : Machine) :
    Frame ∅ (onVolume esp) m ((do
        deleteFileOps fw esp internalShimPath
        deleteFileOps fw esp internalBadmem : EfiM InstallError Unit) m).2 ∧
      (((do
        deleteFileOps fw esp internalShimPath
        deleteFileOps fw esp internalBadmem : EfiM InstallError Unit) m).2.files esp).content?
          internalShimPath = none := by
  rw [(total_deleteFileOps fw esp _).bind_run]
  have hshim := kept_deleteFileOps fw esp internalShimPath m
  have hbadmem := kept_deleteFileOps fw esp internalBadmem
    ((deleteFileOps fw esp internalShimPath : EfiM InstallError Unit) m).2
  constructor
  · exact trans_of _ (hshim.mono subset_rfl (by simp [onVolume]))
      (hbadmem.mono subset_rfl (by simp [onVolume]))
  · rw [hbadmem.content? (by simp; decide)]
    exact deleteFileOps_gone hfw.files esp internalShimPath m

theorem undoEntry_rolledBack {fw : Efi} (hfw : RollbackWorks fw) {esp : Handle} {m m₁ : Machine}
    (h : Frame (deletedVars [brrVarnameOrigboot]) (onVolume esp) m m₁) :
    RolledBack [brrVarnameOrigboot] m ((undoEntry fw esp : EfiM InstallError Unit) m₁).2 esp := by
  obtain ⟨hfiles, hshim⟩ := deleteFiles_shim hfw esp m₁
  rw [(total_deleteFileOps fw esp _).bind_run] at hfiles hshim
  rw [undoEntry, (total_deleteFileOps fw esp _).bind_run, (total_deleteFileOps fw esp _).bind_run]
  exact deleteBackups_rolledBack hfw
    (trans_of _ h (hfiles.mono (Set.empty_subset _) subset_rfl)) hshim

/-- The last rollback deletes the record of the slot as well. -/
theorem deleteRecords_kept {fw : Efi} (hfw : RollbackWorks fw) (m : Machine) :
    Frame (deletedVars [brrVarnameOrigboot, brrVarnameBootslot]) ∅ m ((do
        maskNvramDelete fw brrVarnameBootslot
        maskNvramDelete fw brrVarnameOrigboot
        maskNvramDelete fw brrVarnameBootentries : EfiM InstallError Unit) m).2 ∧
      ∀ name ∈ [brrVarnameOrigboot, brrVarnameBootslot], ((do
        maskNvramDelete fw brrVarnameBootslot
        maskNvramDelete fw brrVarnameOrigboot
        maskNvramDelete fw brrVarnameBootentries : EfiM InstallError Unit) m).2.store.get?
          .brr name = none := by
  rw [(total_maskNvramDelete fw _).bind_run, (total_maskNvramDelete fw _).bind_run]
  have hslot := kept_maskNvramDelete fw brrVarnameBootslot m
  have hslotGone := hfw.maskNvramDelete_gone brrVarnameBootslot m
  generalize ((maskNvramDelete fw brrVarnameBootslot : EfiM InstallError Unit) m).2 = m₁ at *
  have horder := kept_maskNvramDelete fw brrVarnameOrigboot m₁
  have horderGone := hfw.maskNvramDelete_gone brrVarnameOrigboot m₁
  generalize ((maskNvramDelete fw brrVarnameOrigboot : EfiM InstallError Unit) m₁).2 = m₂ at *
  have hentries := kept_maskNvramDelete fw brrVarnameBootentries m₂
  constructor
  · exact trans_of _ (hslot.mono (by simp [deletedVars]) subset_rfl)
      (trans_of _ (horder.mono (by simp [deletedVars]) subset_rfl)
        (hentries.mono (by simp [deletedVars]) subset_rfl))
  · intro name hname
    rw [List.mem_cons, List.mem_singleton] at hname
    rcases hname with rfl | rfl
    · exact (hentries.vars (.brr, brrVarnameOrigboot) (by decide)).trans horderGone
    · rw [hentries.vars (.brr, brrVarnameBootslot) (by decide),
        horder.vars (.brr, brrVarnameBootslot) (by decide)]
      exact hslotGone

/-- The last rollback also takes back the entry, which had a free slot, and its record. -/
theorem undoOrder_rolledBack {fw : Efi} (hfw : RollbackWorks fw) {esp : Handle} {slot : UInt16}
    {m m₁ : Machine} (hfree : m.store.get? .global (bootVarName slot) = none)
    (h : Frame (deletedVars [brrVarnameOrigboot] ∪ entryVars slot) (onVolume esp) m m₁) :
    RolledBack [brrVarnameOrigboot, brrVarnameBootslot] m
      ((undoOrder fw esp slot : EfiM InstallError Unit) m₁).2 esp := by
  have hentry : Frame {(.global, bootVarName slot)} ∅ m₁
      ((nvramDelGlobal fw (bootVarName slot) : EfiM InstallError Unit) m₁).2 :=
    frame_nvramDelGlobal fw (Set.mem_singleton _) m₁
  have hentryGone : ((nvramDelGlobal fw (bootVarName slot) : EfiM InstallError Unit)
      m₁).2.store.get? .global (bootVarName slot) = none := setVariable_stored (hfw.vars _ _ _)
  rw [undoOrder, (total_nvramDelGlobal fw _).bind_run]
  generalize ((nvramDelGlobal fw (bootVarName slot) : EfiM InstallError Unit) m₁).2 = m₂ at *
  obtain ⟨hrecords, hgone⟩ := deleteRecords_kept hfw m₂
  rw [(total_maskNvramDelete fw _).bind_run, (total_maskNvramDelete fw _).bind_run] at hrecords hgone
  rw [(total_maskNvramDelete fw _).bind_run, (total_maskNvramDelete fw _).bind_run,
    (total_maskNvramDelete fw _).bind_run]
  obtain ⟨hfiles, hshim⟩ := deleteFiles_shim hfw esp ((maskNvramDelete fw brrVarnameBootentries :
    EfiM InstallError Unit) ((maskNvramDelete fw brrVarnameOrigboot : EfiM InstallError Unit)
      ((maskNvramDelete fw brrVarnameBootslot : EfiM InstallError Unit) m₂).2).2).2
  refine ⟨⟨?_, ?_⟩, ?_, hshim⟩
  · intro k hk
    rw [hfiles.vars k (Set.notMem_empty _), hrecords.vars k hk]
    rcases eq_or_ne k (.global, bootVarName slot) with rfl | hne
    · exact hentryGone.trans hfree.symm
    · refine (hentry.vars k hne).trans (h.vars k ?_)
      simp only [deletedVars, List.mem_cons, List.not_mem_nil, or_false, Set.mem_ofPred_eq,
        not_and, not_or, Set.mem_union, entryVars, Set.mem_insert_iff, Set.mem_singleton_iff] at hk ⊢
      refine ⟨fun hbrr => ⟨(hk hbrr).1, (hk hbrr).2.1⟩, hne, ?_⟩
      rintro rfl
      exact (hk rfl).2.2 rfl
  · intro f hf
    rw [hfiles.files f hf, hrecords.files f (Set.notMem_empty _),
      hentry.files f (Set.notMem_empty _)]
    exact h.files f hf
  · intro name hname
    exact (hfiles.vars (.brr, name) (Set.notMem_empty _)).trans (hgone name hname)

theorem copyShim_error {fw : Efi} {usbRoot esp : Handle} {m m' : Machine} {e : InstallError}
    (h : copyShim fw usbRoot esp m = (.error e, m')) :
    ∃ m₁, Frame ∅ (onVolume esp) m m₁ ∧
      m' = ((undoCopy fw esp : EfiM InstallError Unit) m₁).2 := by
  rcases error_of_bind h with hcopy | ⟨_, _, -, hbadmem⟩
  · obtain ⟨_, -, hm'⟩ := error_of_orFail hcopy
    exact ⟨_, (writes_copyFileOps fw usbRoot usbShimPath (by simp [onVolume])).frame m, hm'⟩
  · cases hbadmem

theorem registerEntry_error {fw : Efi} {esp : Handle} {m m' : Machine} {e : InstallError}
    (h : registerEntry fw esp m = (.error e, m')) :
    ∃ m₁, Frame ∅ ∅ m m₁ ∧ m' = ((undoEntry fw esp : EfiM InstallError Unit) m₁).2 := by
  rcases error_of_bind h with hentry | ⟨_, _, -, hrest⟩
  · obtain ⟨status, hstatus, hm'⟩ := error_of_orFail hentry
    exact ⟨_, installBootEntryOps_error (Prod.ext hstatus rfl), hm'⟩
  · cases hrest

theorem activateEntry_error {fw : Efi} {esp : Handle} {slot : UInt16} {m m' : Machine}
    {e : InstallError} (h : activateEntry fw esp slot m = (.error e, m')) :
    ∃ m₁, Frame ∅ ∅ m m₁ ∧ m' = ((undoOrder fw esp slot : EfiM InstallError Unit) m₁).2 := by
  rcases error_of_bind h with horder | ⟨_, _, -, hstate⟩
  · obtain ⟨status, hstatus, hm'⟩ := error_of_orFail horder
    refine ⟨_, ?_, hm'⟩
    rw [prependBootOrderOps, readStore_bind] at hstatus ⊢
    exact frame_setVariable_error (Prod.ext hstatus rfl)
  · cases hstate

/-- What was written before the copy. -/
theorem prepared {fw : Efi} {m m₁ : Machine} {usbRoot esp : Handle}
    (hfind : findVolumes fw m = (.ok (usbRoot, esp), m₁)) :
    Frame (deletedVars [brrVarnameOrigboot]) (onVolume esp) m (prepareEsp fw esp m₁).2 := by
  have hread := (reads_findVolumes fw).frame (K := deletedVars [brrVarnameOrigboot])
    (F := onVolume esp) m
  rw [hfind] at hread
  have hdeleted : backupVars ⊆ deletedVars [brrVarnameOrigboot] := by
    simp [backupVars, deletedVars, Set.insert_subset_iff]
  exact trans_of _ hread ((frame_prepareEsp fw esp m₁).mono hdeleted subset_rfl)

/-- A run which fails before the boot order is written. -/
theorem uptoEntry_error {fw : Efi} (hfw : RollbackWorks fw) {m m' : Machine} {e : InstallError}
    (h : uptoEntry fw m = (.error e, m')) :
    (∃ e', findVolumes fw m = (.error e', m')) ∨
      ∃ usbRoot esp, (findVolumes fw m).1 = .ok (usbRoot, esp) ∧
        RolledBack [brrVarnameOrigboot] m m' esp := by
  rcases error_of_bind h with hfind | ⟨⟨usbRoot, esp⟩, m₁, hfind, hrest⟩
  · exact Or.inl ⟨e, hfind⟩
  refine Or.inr ⟨usbRoot, esp, congrArg Prod.fst hfind, ?_⟩
  simp only at hrest
  rw [(total_prepareEsp fw esp).bind_run] at hrest
  have hprepare := prepared hfind
  rcases error_of_bind hrest with hcopy | ⟨_, m₃, hcopy, hrest⟩
  · obtain ⟨m₂, hframe, rfl⟩ := copyShim_error hcopy
    exact undoCopy_rolledBack hfw
      (trans_of _ hprepare (hframe.mono (Set.empty_subset _) subset_rfl))
  have hbefore := trans_of _ hprepare (copyShim_ok hcopy).frame
  rcases error_of_bind hrest with hentry | ⟨_, _, -, hpure⟩
  · obtain ⟨m₄, hframe, rfl⟩ := registerEntry_error hentry
    exact undoEntry_rolledBack hfw
      (trans_of _ hbefore (hframe.mono (Set.empty_subset _) (Set.empty_subset _)))
  · cases hpure

/-- A run which fails when the boot order is written. -/
theorem activation_rolledBack {fw : Efi} (hfw : RollbackWorks fw) {m m₁ m' : Machine}
    {esp : Handle} {slot : UInt16} {e : InstallError}
    (hentry : uptoEntry fw m = (.ok (esp, slot), m₁))
    (h : activateEntry fw esp slot m₁ = (.error e, m')) :
    (∃ usbRoot, (findVolumes fw m).1 = .ok (usbRoot, esp)) ∧
      RolledBack [brrVarnameOrigboot, brrVarnameBootslot] m m' esp := by
  obtain ⟨⟨usbRoot, esp'⟩, m₂, hfind, hrest⟩ := ok_of_bind hentry
  simp only at hrest
  rw [(total_prepareEsp fw esp').bind_run] at hrest
  obtain ⟨_, m₃, hcopy, hrest⟩ := ok_of_bind hrest
  obtain ⟨slot', m₄, hregister, hrest⟩ := ok_of_bind hrest
  cases hrest
  have hbefore := trans_of _ (prepared hfind)
    (copyShim_ok hcopy).frame
  obtain ⟨hfound, -, hframe, -⟩ := registerEntry_ok hregister
  have hfree := findFreeSlot_free hfound
  have hnone : m.store.get? .global (bootVarName slot) = none :=
    (hbefore.vars (.global, bootVarName slot) (global_notMem_deletedVars _ _)).symm.trans hfree
  obtain ⟨m₅, hfailed, rfl⟩ := activateEntry_error h
  refine ⟨⟨usbRoot, congrArg Prod.fst hfind⟩, undoOrder_rolledBack hfw hnone ?_⟩
  refine trans_of _ (hbefore.mono Set.subset_union_left subset_rfl) ?_
  exact trans_of _ (hframe.mono Set.subset_union_right (Set.empty_subset _))
    (hfailed.mono (Set.empty_subset _) (Set.empty_subset _))

theorem nothingToLose_iff {fw : Efi} {m : Machine} {esp : Handle} (lost : List String)
    (hlost : lost = if (uptoEntry fw m).1.isOk then [brrVarnameOrigboot, brrVarnameBootslot]
      else [brrVarnameOrigboot]) :
    NothingToLose fw m esp ↔ (∀ name ∈ lost, m.store.get? .brr name = none) ∧
      (m.files esp).content? internalShimPath = none := by
  unfold NothingToLose
  split_ifs at hlost with hok
  · simp [hlost, hok]
    tauto
  · simp [hlost, hok]

/-- A failed run leaves everything as it was exactly when there was nothing for its rollback
to delete. -/
theorem failed_install_atomic_iff {fw : Efi} (hfw : RollbackWorks fw) {m m' : Machine}
    {e : InstallError} (h : installMaskFull fw m = (.error e, m')) :
    Atomic m m' ↔ SafeToFail fw m := by
  unfold SafeToFail
  rw [installMaskFull_eq] at h
  rcases error_of_bind h with hentry | ⟨⟨esp, slot⟩, m₁, hentry, horder⟩
  · rcases uptoEntry_error hfw hentry with ⟨e', hfind⟩ | ⟨usbRoot, esp, hfind, hback⟩
    · have hread := (reads_findVolumes fw).frame (K := ∅) (F := ∅) m
      rw [hfind] at hread
      simp only [hfind, iff_true]
      have hvar (guid : Guid) (name : String) : m'.store.get? guid name = m.store.get? guid name :=
        hread.vars (guid, name) (Set.notMem_empty _)
      exact ⟨hvar _ _, fun name _ => hvar .global name, hvar _ _, hvar _ _,
        fun root => hread.content? (Set.notMem_empty _)⟩
    · simp only [hfind]
      rw [hback.atomic_iff (by simp)]
      exact (nothingToLose_iff _ (by rw [hentry]; rfl)).symm
  · obtain ⟨⟨usbRoot, hfind⟩, hback⟩ := activation_rolledBack hfw hentry horder
    simp only [hfind]
    rw [hback.atomic_iff (by simp)]
    exact (nothingToLose_iff _ (by rw [hentry]; rfl)).symm

/-- Firmware which has no room for a boot order, whatever the entries in it. -/
def orderRefused : Efi where
  __ := usbEfi
  refuseSet _ guid name data :=
    if guid = .global ∧ name = bootOrderName ∧ data ≠ [] then some outOfResources else none

theorem rollbackWorks_orderRefused : RollbackWorks orderRefused :=
  ⟨fun _ _ _ => if_neg (by simp), fun _ => ⟨rfl, rfl⟩⟩

def orderError : InstallError := ⟨outOfResources, "BootOrder update failed"⟩

theorem error_run {m : Machine} {e : InstallError}
    (h : (installMaskFull orderRefused m).1 = .error e) :
    installMaskFull orderRefused m = (.error e, (installMaskFull orderRefused m).2) :=
  Prod.ext h rfl

theorem failed_install_atomic_fresh :
    Atomic freshComputer (installMaskFull orderRefused freshComputer).2 := by
  have hrun : installMaskFull orderRefused freshComputer = (.error orderError, _) :=
    error_run (by decide +kernel)
  refine (failed_install_atomic_iff rollbackWorks_orderRefused hrun).mpr ?_
  unfold SafeToFail
  have hfind : (findVolumes orderRefused freshComputer).1 = .ok (1, 2) := by decide +kernel
  simp only [hfind]
  exact ⟨by decide +kernel, by decide +kernel, fun _ => by decide +kernel⟩

/-- When an installation is repeated and fails, the backup of the first one is lost. -/
theorem failed_reinstall_loses_backup : ¬∀ (fw : Efi) (m m' : Machine) (e : InstallError),
    RollbackWorks fw → installMaskFull fw m = (.error e, m') → Atomic m m' := by
  intro h
  have hrun : installMaskFull orderRefused onceInstalled = (.error orderError, _) :=
    error_run (by decide +kernel)
  have hatomic := h _ _ _ _ rollbackWorks_orderRefused hrun
  exact absurd hatomic.backup (by decide +kernel)

end BankFinder.InstallRollback
