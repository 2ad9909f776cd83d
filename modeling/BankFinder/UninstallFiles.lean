import BankFinder.Uninstall

/-!
# Which caller finds the installed files

The uninstaller looks for the internal ESP among the volumes the caller was not loaded
from. A caller on a USB stick finds it and the files go; the installed shim itself was
loaded from there, so it passes over the one volume it looks for and the files stay.
-/

namespace BankFinder.UninstallFiles
open Nvram EfiMachine MachineFrame BootNames MaskOps MaskFrames Uninstall

section
variable {ε : Type}

/-- No call on volumes or files fails. -/
def NoFaults (fw : Efi) : Prop := ∀ i c, fw.fault i c = none

/-- Files can be opened for writing and deleted. -/
def DeletesFiles (fw : Efi) : Prop :=
  ∀ i, fw.fault i .openWrite = none ∧ fw.fault i .delete = none

/-- The volumes are listed, and what is on them can be opened for reading. -/
structure FindsVolumes (fw : Efi) : Prop where
  locateHandle : ∀ i, fw.fault i .locateHandle = none
  allocatePool : ∀ i, fw.fault i .allocatePool = none
  openRead : ∀ i, fw.fault i .openRead = none

def hasEfi (files : Handle → FileTree) (v : Volume) : Bool :=
  ((files v.handle).lookup ["EFI"]).isSome

/-- The one volume that is not removable and has an `EFI` directory. -/
def InternalEsp (fw : Efi) (m : Machine) (esp : Volume) : Prop :=
  (fw.volumes.filter fun v => v.removableMedia != some true && opens v && hasEfi m.files v) = [esp]

/-- Shim and text file are gone from the volume. -/
def FilesGone (m : Machine) (root : Handle) : Prop :=
  (m.files root).content? internalShimPath = none ∧ (m.files root).content? internalBadmem = none

theorem perform_ok {fw : Efi} {c : Call} {m : Machine} (h : fw.fault m.calls c = none) :
    perform fw c m = (.ok (), { m with calls := m.calls + 1 }) := by
  unfold perform
  simp only [h]

theorem FindsVolumes.succeeds_openRead {fw : Efi} (h : FindsVolumes fw) (root : Handle)
    (path : EfiPath) (m : Machine) : (MaskOps.succeeds (EfiMachine.openRead fw root path) : EfiM ε Bool) m =
      (.ok ((m.files root).lookup path).isSome, { m with calls := m.calls + 1 }) := by
  unfold MaskOps.succeeds EfiMachine.openRead
  rw [bind_of_ok _ (perform_ok (h.openRead _)), readTree_bind]
  cases (m.files root).lookup path with
  | none => rfl
  | some node => rfl

theorem FindsVolumes.locateHandles {fw : Efi} (h : FindsVolumes fw) (hvolumes : fw.volumes ≠ [])
    (m : Machine) :
    MaskOps.locateHandles fw m = (.ok fw.volumes, { m with calls := m.calls + 3 }) := by
  unfold MaskOps.locateHandles
  rw [bind_of_ok _ (perform_ok (h.locateHandle _)), if_neg (by simpa using hvolumes),
    bind_of_ok _ (perform_ok (h.allocatePool _)), bind_of_ok _ (perform_ok (h.locateHandle _))]
  rfl

/-- The volume is taken as a candidate. -/
def taken (fw : Efi) (files : Handle → FileTree) (v : Volume) : Bool :=
  !passedOver fw v && hasEfi files v

theorem candidates_passed {fw : Efi} {v : Volume} (hv : passedOver fw v = true)
    (vs : List Volume) (found : List Handle) (m : Machine) :
    candidates fw (v :: vs) found m = candidates fw vs found m := by
  rw [candidates, if_pos hv]

theorem FindsVolumes.candidates_opened {fw : Efi} (h : FindsVolumes fw) {v : Volume}
    (hv : passedOver fw v = false) (vs : List Volume) (found : List Handle) (m : Machine) :
    candidates fw (v :: vs) found m = candidates fw vs
      (if hasEfi m.files v ∧ found.length < 8 then found ++ [v.handle] else found)
      { m with calls := m.calls + 1 } := by
  rw [candidates, if_neg (by simp [hv]), bind_of_ok _ (h.succeeds_openRead _ _ _)]
  unfold hasEfi
  cases ((m.files v.handle).lookup ["EFI"]).isSome with
  | false => rfl
  | true => split_ifs <;> simp_all

/-- As long as there is room, the candidates are the volumes taken. -/
theorem FindsVolumes.candidates_eq {fw : Efi} (h : FindsVolumes fw) (files : Handle → FileTree)
    (vs : List Volume) (found : List Handle) {m : Machine} (hm : m.files = files)
    (hroom : found.length + (vs.filter (taken fw files)).length ≤ 8) :
    (candidates fw vs found m).1 =
      .ok (found ++ (vs.filter (taken fw files)).map Volume.handle) := by
  induction vs generalizing found m with
  | nil => exact congrArg Except.ok (List.append_nil found).symm
  | cons v vs ih =>
      cases hpassed : passedOver fw v with
      | true =>
          have hnot : taken fw files v = false := by simp [taken, hpassed]
          rw [List.filter_cons_of_neg (by simp [hnot])] at hroom ⊢
          rw [candidates_passed hpassed]
          exact ih found hm hroom
      | false =>
          rw [h.candidates_opened hpassed]
          cases hefi : hasEfi files v with
          | true =>
              have htaken : taken fw files v = true := by simp [taken, hpassed, hefi]
              rw [List.filter_cons_of_pos htaken, List.length_cons] at hroom
              have hlength :
                  (found ++ [v.handle]).length + (vs.filter (taken fw files)).length ≤ 8 := by
                rw [List.length_append, List.length_singleton]
                omega
              have htail := ih (m := { m with calls := m.calls + 1 }) _ hm hlength
              rw [List.append_assoc] at htail
              rw [if_pos ⟨by rw [hm, hefi], by omega⟩, List.filter_cons_of_pos htaken]
              exact htail
          | false =>
              have hnot : taken fw files v = false := by simp [taken, hefi]
              rw [List.filter_cons_of_neg (by simp [hnot])] at hroom ⊢
              rw [if_neg (by simp [hm, hefi])]
              exact ih found hm hroom

/-- The volumes taken are the internal ESP, unless the caller was loaded from it. -/
theorem InternalEsp.taken {fw : Efi} {m : Machine} {esp : Volume} (hesp : InternalEsp fw m esp) :
    fw.volumes.filter (taken fw m.files) =
      if usbDev fw = some esp.handle then [] else [esp] := by
  have hsplit : fw.volumes.filter (UninstallFiles.taken fw m.files) =
      (fw.volumes.filter fun v => v.removableMedia != some true && opens v &&
        hasEfi m.files v).filter fun v => usbDev fw != some v.handle := by
    rw [List.filter_filter]
    apply List.filter_congr
    intro v _
    simp only [UninstallFiles.taken, passedOver, Bool.not_or, bne, Bool.not_not, Bool.and_assoc]
  rw [hsplit, hesp]
  split_ifs with hdevice
  · simp [hdevice]
  · simp [hdevice]

theorem InternalEsp.volumes_ne_nil {fw : Efi} {m : Machine} {esp : Volume}
    (hesp : InternalEsp fw m esp) : fw.volumes ≠ [] := by
  intro hnil
  rw [InternalEsp, hnil] at hesp
  exact absurd hesp (by simp)

/-- What `open_internal_esp_ops` answers when there is one internal ESP. -/
theorem openInternalEspOps_result {fw : Efi} (h : FindsVolumes fw) {m : Machine} {esp : Volume}
    (hesp : InternalEsp fw m esp) : (openInternalEspOps fw m).1 =
      if usbDev fw = some esp.handle then .error notFound else .ok esp.handle := by
  have hcandidates := h.candidates_eq m.files fw.volumes [] (m := { m with calls := m.calls + 3 })
    rfl (by rw [hesp.taken]; split_ifs <;> simp)
  rw [hesp.taken] at hcandidates
  unfold openInternalEspOps
  rw [bind_of_ok _ (h.locateHandles hesp.volumes_ne_nil m), bind_run, hcandidates]
  split_ifs
  · rfl
  · rfl

theorem deleteNode_gone {fw : Efi} (h : DeletesFiles fw) (root : Handle) (path : EfiPath)
    (m : Machine) : ((deleteNode fw root path m).2.files root).content? path = none := by
  unfold deleteNode
  rw [bind_of_ok _ (perform_ok (h _).2), readTree_bind, ite_run]
  split_ifs with hkept
  · unfold FileTree.content?
    rw [fail_run, hkept.1]
  · unfold FileTree.content?
    rw [writeTree_files, AList.lookup_erase]

/-- When files can be deleted, a file is gone afterwards, whether it was there or not. -/
theorem deleteFileOps_gone {fw : Efi} (h : DeletesFiles fw) (root : Handle) (path : EfiPath)
    (m : Machine) :
    (((deleteFileOps fw root path : EfiM ε Unit) m).2.files root).content? path = none := by
  rw [deleteFileOps, ignore_run, bind_run]
  cases hopen : (openWrite fw root path m).1 with
  | ok node => exact deleteNode_gone h root path _
  | error e =>
      have hfiles := (reads_openWrite fw root path).files m
      unfold openWrite at hopen
      rw [bind_of_ok _ (perform_ok (h _).1), readTree_bind] at hopen
      simp only [hfiles]
      unfold FileTree.content?
      cases hnode : (m.files root).lookup path with
      | none => rfl
      | some node =>
          simp only [hnode] at hopen
          cases hopen

theorem cleanFiles_missing {fw : Efi} {m : Machine} {e : Refusal}
    (h : (openInternalEspOps fw m).1 = .error e) :
    (stage (cleanFiles fw) m).files = m.files := by
  rw [stage, cleanFiles, ignore_run, bind_run, h]
  exact (reads_openInternalEspOps fw).files m

theorem cleanFiles_found {fw : Efi} (hdelete : DeletesFiles fw) {m : Machine} {esp : Handle}
    (h : (openInternalEspOps fw m).1 = .ok esp) : FilesGone (stage (cleanFiles fw) m) esp := by
  have hother {path : EfiPath} (path' : EfiPath) (hne : path ≠ path') (m : Machine) :
      ((stage (deleteFileLog fw esp path') m).files esp).content? path =
        (m.files esp).content? path := by
    have hframe : Frame Set.univ {(esp, path')} m (stage (deleteFileLog fw esp path') m) :=
      (writes_deleteFileOps fw (Set.mem_singleton _)).frame m
    exact hframe.content? (by simp [hne])
  have hgone (path : EfiPath) (m : Machine) :
      ((stage (deleteFileLog fw esp path) m).files esp).content? path = none :=
    deleteFileOps_gone hdelete esp path m
  have hclean : stage (cleanFiles fw) m = stage (do
      deleteFileLog fw esp internalShimBackup
      deleteFileLog fw esp internalBadmemBkup
      deleteFileLog fw esp internalBackupDir
      deleteFileLog fw esp internalShimPath
      deleteFileLog fw esp internalBadmem
      deleteFileLog fw esp internalMaskDir) (openInternalEspOps fw m).2 := by
    rw [stage, cleanFiles, ignore_run, bind_run, h]
    rfl
  have htotal (path : EfiPath) : Total (deleteFileLog fw esp path : EfiM Refusal Unit) :=
    total_ignore _
  rw [hclean, stage_bind (htotal _), stage_bind (htotal _), stage_bind (htotal _),
    stage_bind (htotal _), stage_bind (htotal _)]
  constructor
  · rw [hother internalMaskDir (by decide), hother internalBadmem (by decide)]
    exact hgone internalShimPath _
  · rw [hother internalMaskDir (by decide)]
    exact hgone internalBadmem _

/-- Only the third phase touches files. -/
theorem afterUninstall_content (fw : Efi) (m : Machine) (root : Handle) (path : EfiPath) :
    ((afterUninstall fw m).files root).content? path =
      ((stage (cleanFiles fw) (stage (deleteBootEntry fw) (stage (restoreBootOrder fw) m))).files
        root).content? path := by
  have hlast (m : Machine) :
      Frame Set.univ ∅ m (stage (sweep fw) (stage (deleteVars fw knownVars) m)) :=
    trans_of _ (frame_deleteVars (ε := Refusal) fw _ (fun _ _ => Or.inl (Set.mem_univ _)) m)
      (frame_sweep (ε := Refusal) fw (fun _ => Or.inl (Set.mem_univ _)) _)
  rw [afterUninstall_eq, beforeSweep]
  exact (hlast _).content? (Set.notMem_empty _)

/-- The files of the internal ESP are removed exactly when the caller was not loaded from
it, or when there were none. -/
theorem uninstall_removes_files_iff {fw : Efi} (hfinds : FindsVolumes fw)
    (hdeletes : DeletesFiles fw) {m : Machine} {esp : Volume} (hesp : InternalEsp fw m esp) :
    FilesGone (afterUninstall fw m) esp.handle ↔
      usbDev fw ≠ some esp.handle ∨ FilesGone m esp.handle := by
  have hfirst : Frame Set.univ ∅ m (stage (deleteBootEntry fw) (stage (restoreBootOrder fw) m)) :=
    trans_of _ (frame_restoreBootOrder (ε := Refusal) fw (Set.mem_univ _) m)
      (frame_deleteBootEntry fw fun _ _ => Set.mem_univ _)
  have hesp' : InternalEsp fw (stage (deleteBootEntry fw) (stage (restoreBootOrder fw) m)) esp := by
    rw [InternalEsp, ← hesp]
    apply List.filter_congr
    intro v _
    rw [hasEfi, hasEfi, hfirst.files (v.handle, ["EFI"]) (Set.notMem_empty _)]
  have hresult := openInternalEspOps_result hfinds hesp'
  unfold FilesGone
  rw [afterUninstall_content, afterUninstall_content]
  rcases Classical.em (usbDev fw = some esp.handle) with hdevice | hdevice
  · rw [if_pos hdevice] at hresult
    rw [cleanFiles_missing hresult, hfirst.content? (Set.notMem_empty _),
      hfirst.content? (Set.notMem_empty _)]
    exact ⟨Or.inr, fun hgone => hgone.resolve_left (not_not.mpr hdevice)⟩
  · rw [if_neg hdevice] at hresult
    exact iff_of_true (cleanFiles_found hdeletes hresult) (Or.inl hdevice)

/-- One internal disk, with an installed shim. -/
def installedEsp : FileTree :=
  .ofList [(["EFI"], .directory), (internalMaskDir, .directory), (internalShimPath, .file [0x4d]),
    (internalBadmem, .file [0x23])]

def internalDisk : Volume := ⟨2, some false, efiSuccess, efiSuccess, none⟩
def usbStick : Volume := ⟨1, some true, efiSuccess, efiSuccess, none⟩

def installedComputer : Machine :=
  ⟨installedStore, fun h => if h = 2 then installedEsp else ∅, [], 0⟩

theorem uninstall_removes_files_from_usb :
    FilesGone (afterUninstall (plainEfi 1 [usbStick, internalDisk]) installedComputer) 2 :=
  (@uninstall_removes_files_iff (plainEfi 1 [usbStick, internalDisk])
    ⟨fun _ => rfl, fun _ => rfl, fun _ => rfl⟩ (fun _ => ⟨rfl, rfl⟩) installedComputer internalDisk
    (by unfold InternalEsp; decide +kernel)).mpr (Or.inl (by decide))

theorem shim_on_esp_keeps_files : ¬∀ (fw : Efi) (m : Machine) (esp : Volume), NoFaults fw →
    InternalEsp fw m esp → FilesGone (afterUninstall fw m) esp.handle := by
  intro h
  have hgone := h (plainEfi 2 [internalDisk]) installedComputer internalDisk (fun _ _ => rfl)
    (by unfold InternalEsp; decide +kernel)
  exact absurd hgone.1 (by decide +kernel)

end

end BankFinder.UninstallFiles
