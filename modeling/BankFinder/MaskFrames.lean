import BankFinder.MachineFrame
import BankFinder.MaskOps

/-!
# What installing and uninstalling may change

The frame of every step of the installer and the uninstaller: which variables it can
write and which files it can touch, whatever the firmware answers. Looking for volumes
changes nothing, copying and deleting files writes no variable, and the variables
written are the ones the installer names.
-/

namespace BankFinder.MaskFrames
open Nvram EfiMachine MachineFrame BootNames MaskOps RestartScan

section
variable {ε α : Type} {K : Set (Guid × String)} {F : Set (Handle × EfiPath)}

theorem getVariable_congr {store store' : Store} {guid : Guid} {name : String}
    (h : store'.get? guid name = store.get? guid name) (cap : ℕ) :
    getVariable store' guid name cap = getVariable store guid name cap := by
  unfold getVariable
  rw [h]

theorem readStore_bind {β : Type} (f : Store → EfiM ε β) (m : Machine) :
    (readStore >>= f) m = f m.store m := rfl

theorem reads_readStore : Reads (readStore : EfiM ε Store) := fun m => ⟨m.calls, rfl⟩

theorem reads_succeeds {δ : Type} {x : EfiM δ α} (h : Reads x) :
    Reads (succeeds x : EfiM ε Bool) := h

theorem reads_orElse {δ : Type} {x : EfiM δ α} {y : EfiM ε α} (hx : Reads x) (hy : Reads y) :
    Reads (MaskOps.orElse x y) := by
  intro m
  obtain ⟨n, hn⟩ := hx m
  unfold MaskOps.orElse
  cases (x m).1 with
  | ok a => exact ⟨n, hn⟩
  | error e =>
      obtain ⟨n', hn'⟩ := hy (x m).2
      exact ⟨n', by rw [hn', hn]⟩

theorem reads_locateHandles (fw : Efi) : Reads (locateHandles fw) := by
  refine (reads_perform fw .locateHandle).bind fun _ => ?_
  split_ifs
  · exact reads_fail notFound
  · exact (reads_perform fw .allocatePool).bind fun _ =>
      (reads_perform fw .locateHandle).bind fun _ => reads_pure fw.volumes

theorem reads_hasMarker (fw : Efi) (root : Handle) : Reads (hasMarker fw root) := by
  refine (reads_succeeds (reads_openRead fw root markerA)).bind fun found => ?_
  split_ifs
  · exact reads_pure true
  · exact reads_succeeds (reads_openRead fw root markerB)

theorem reads_scanMarkers (fw : Efi) (vs : List Volume) : Reads (scanMarkers fw vs) := by
  induction vs with
  | nil => exact reads_fail notFound
  | cons v vs ih =>
      unfold scanMarkers
      split_ifs
      · exact ih
      · refine (reads_hasMarker fw v.handle).bind fun found => ?_
        split_ifs
        · exact reads_pure v.handle
        · exact ih

theorem reads_openUsbRootOps (fw : Efi) : Reads (openUsbRootOps fw) := by
  unfold openUsbRootOps
  cases fw.loadedImage with
  | error e => exact reads_fail e
  | ok device =>
      simp only
      split_ifs
      · exact reads_pure device
      · exact (reads_locateHandles fw).bind fun handles => reads_scanMarkers fw handles

theorem reads_candidates (fw : Efi) (vs : List Volume) (found : List Handle) :
    Reads (candidates fw vs found) := by
  induction vs generalizing found with
  | nil => exact reads_pure found
  | cons v vs ih =>
      unfold candidates
      split
      · exact ih found
      · refine (reads_succeeds (reads_openRead fw v.handle ["EFI"])).bind fun opened => ?_
        split
        · exact ih _
        · exact ih found

theorem reads_openInternalEspOps (fw : Efi) : Reads (openInternalEspOps fw) := by
  refine (reads_locateHandles fw).bind fun handles =>
    (reads_candidates fw handles []).bind fun found => ?_
  split
  · exact reads_fail notFound
  · exact reads_pure _
  · exact reads_fail aborted

theorem writes_mkdirPOps (fw : Efi) {root : Handle} {path : EfiPath} (hF : (root, path) ∈ F) :
    Writes F (mkdirPOps fw root path : EfiM ε Unit) :=
  (writes_openCreate fw .directory hF).ignore

theorem writes_deleteFileOps (fw : Efi) {root : Handle} {path : EfiPath}
    (hF : (root, path) ∈ F) : Writes F (deleteFileOps fw root path : EfiM ε Unit) :=
  ((reads_openWrite fw root path).writes.bind fun _ => writes_deleteNode fw hF).ignore

theorem writes_copyFileOps (fw : Efi) (srcRoot : Handle) (srcName : EfiPath) {dstRoot : Handle}
    {dstName : EfiPath} (hF : (dstRoot, dstName) ∈ F) :
    Writes F (copyFileOps fw srcRoot srcName dstRoot dstName) := by
  refine (reads_openRead fw srcRoot srcName).writes.bind fun src =>
    (reads_perform fw .getInfo).writes.bind fun _ => ?_
  cases src with
  | directory => exact (reads_fail accessDenied).writes
  | file content =>
      simp only
      split_ifs
      · exact (reads_fail volumeFull).writes
      · exact (writes_openCreate fw _ hF).bind fun _ => Keeps.pure ()
      · exact (reads_perform fw .allocatePool).writes.bind fun _ =>
          (reads_readFile fw content).writes.bind fun data =>
            (writes_openCreate fw _ hF).bind fun _ => writes_writeFile fw data hF

/-- The files which the installer keeps on the internal ESP. -/
def backupFiles (esp : Handle) : Set (Handle × EfiPath) :=
  {(esp, internalMaskDir), (esp, internalBackupDir), (esp, internalShimBackup),
    (esp, internalBadmemBkup)}

theorem writes_backupBrrFiles (fw : Efi) (esp : Handle) :
    Writes (backupFiles esp) (backupBrrFiles fw esp : EfiM ε Unit) := by
  refine (reads_succeeds (reads_openRead fw esp internalShimPath)).writes.bind fun found => ?_
  split_ifs
  · exact (writes_mkdirPOps fw (by simp [backupFiles])).bind fun _ =>
      (writes_mkdirPOps fw (by simp [backupFiles])).bind fun _ =>
        (writes_copyFileOps fw _ _ (by simp [backupFiles])).ignore.bind fun _ =>
          (writes_copyFileOps fw _ _ (by simp [backupFiles])).ignore
  · exact Keeps.pure ()

theorem writes_cleanFiles (fw : Efi) : Writes Set.univ (cleanFiles fw : EfiM ε Unit) := by
  have hdelete (root : Handle) (path : EfiPath) :
      Writes Set.univ (deleteFileOps fw root path : EfiM Refusal Unit) :=
    writes_deleteFileOps fw (Set.mem_univ _)
  exact Keeps.ignore <| (reads_openInternalEspOps fw).writes.bind fun esp =>
    (hdelete esp _).bind fun _ => (hdelete esp _).bind fun _ => (hdelete esp _).bind fun _ =>
      (hdelete esp _).bind fun _ => (hdelete esp _).bind fun _ => hdelete esp _

theorem total_succeeds_bind {δ : Type} (x : EfiM δ α) {f : Bool → EfiM ε Unit}
    (hf : ∀ b, Total (f b)) : Total (MaskOps.succeeds x >>= f) :=
  Total.bind (fun _ => ⟨_, rfl⟩) hf

theorem total_readStore_bind {f : Store → EfiM ε Unit} (hf : ∀ store, Total (f store)) :
    Total (readStore >>= f) :=
  Total.bind (fun _ => ⟨_, rfl⟩) hf

theorem total_mkdirPOps (fw : Efi) (root : Handle) (path : EfiPath) :
    Total (mkdirPOps fw root path : EfiM ε Unit) := total_ignore _

theorem total_deleteFileOps (fw : Efi) (root : Handle) (path : EfiPath) :
    Total (deleteFileOps fw root path : EfiM ε Unit) := total_ignore _

theorem total_maskNvramDelete (fw : Efi) (name : String) :
    Total (maskNvramDelete fw name : EfiM ε Unit) := total_ignore _

theorem total_nvramDelGlobal (fw : Efi) (name : String) :
    Total (nvramDelGlobal fw name : EfiM ε Unit) := total_ignore _

theorem total_saveExistingBootEntries (fw : Efi) :
    Total (saveExistingBootEntries fw : EfiM ε Unit) := by
  refine total_readStore_bind fun store => ?_
  simp only
  split_ifs
  · exact total_pure
  · exact total_ignore _

theorem total_backupBrrFiles (fw : Efi) (esp : Handle) :
    Total (backupBrrFiles fw esp : EfiM ε Unit) := by
  refine total_succeeds_bind _ fun found => ?_
  split_ifs
  · intro m
    rw [(total_mkdirPOps fw esp _).bind_run, (total_mkdirPOps fw esp _).bind_run,
      (total_ignore _).bind_run]
    rfl
  · exact total_pure

theorem total_saveBootOrder (fw : Efi) : Total (saveBootOrder fw : EfiM ε Unit) := by
  refine total_readStore_bind fun store => ?_
  simp only
  split_ifs
  · exact total_ignore _
  · exact total_pure

theorem total_restoreBootOrder (fw : Efi) : Total (restoreBootOrder fw : EfiM ε Unit) := by
  refine total_readStore_bind fun store => ?_
  simp only
  split_ifs
  · exact total_ignore _
  · exact total_pure

theorem total_deleteBootEntry (fw : Efi) : Total (deleteBootEntry fw : EfiM ε Unit) := by
  refine total_readStore_bind fun store => ?_
  cases savedSlot store with
  | none => exact total_pure
  | some slot => exact total_nvramDelGlobal fw _

theorem total_deleteVars (fw : Efi) (names : List String) :
    Total (deleteVars fw names : EfiM ε Unit) := by
  induction names with
  | nil => exact total_pure
  | cons name names ih =>
      intro m
      rw [deleteVars, (total_maskNvramDelete fw name).bind_run]
      exact ih _

theorem frame_maskNvramDelete (fw : Efi) {name : String}
    (hK : (.brr, name) ∈ K ∨ DeleteRefused fw (.brr, name)) :
    Keeps (Frame K F) (maskNvramDelete fw name : EfiM ε Unit) :=
  (frame_delete fw hK).ignore

theorem frame_nvramDelGlobal (fw : Efi) {name : String} (hK : (.global, name) ∈ K) :
    Keeps (Frame K F) (nvramDelGlobal fw name : EfiM ε Unit) :=
  (frame_setVariable fw [] hK).ignore

theorem frame_saveExistingBootEntries (fw : Efi) (hK : (.brr, brrVarnameBootentries) ∈ K) :
    Keeps (Frame K F) (saveExistingBootEntries fw : EfiM ε Unit) := by
  refine reads_readStore.frame.bind fun store => ?_
  simp only
  split_ifs
  · exact Keeps.pure ()
  · exact (frame_setVariable fw _ hK).ignore

theorem frame_saveBootOrder (fw : Efi) (hK : (.brr, brrVarnameOrigboot) ∈ K) :
    Keeps (Frame K F) (saveBootOrder fw : EfiM ε Unit) := by
  refine reads_readStore.frame.bind fun store => ?_
  simp only
  split_ifs
  · exact (frame_setVariable fw _ hK).ignore
  · exact Keeps.pure ()

theorem frame_prependBootOrderOps (fw : Efi) (slot : UInt16)
    (hK : (.global, bootOrderName) ∈ K) : Keeps (Frame K F) (prependBootOrderOps fw slot) :=
  reads_readStore.frame.bind fun _ => frame_setVariable fw _ hK

theorem frame_restoreBootOrder (fw : Efi) (hK : (.global, bootOrderName) ∈ K) :
    Keeps (Frame K F) (restoreBootOrder fw : EfiM ε Unit) := by
  refine reads_readStore.frame.bind fun store => ?_
  simp only
  split_ifs
  · exact (frame_setVariable fw _ hK).ignore
  · exact Keeps.pure ()

theorem frame_deleteVars (fw : Efi) (names : List String)
    (hK : ∀ name ∈ names, (.brr, name) ∈ K ∨ DeleteRefused fw (.brr, name)) :
    Keeps (Frame K F) (deleteVars fw names : EfiM ε Unit) := by
  induction names with
  | nil => exact Keeps.pure ()
  | cons name names ih =>
      exact (frame_maskNvramDelete fw (hK name List.mem_cons_self)).bind fun _ =>
        ih fun n hn => hK n (List.mem_cons_of_mem _ hn)

theorem frame_sweepStep (fw : Efi)
    (hK : ∀ name, (.brr, name) ∈ K ∨ DeleteRefused fw (.brr, name)) (k : Guid × String)
    (m : Machine) : Frame K F m (sweepStep fw k m).2 := by
  unfold sweepStep
  split_ifs with hbrr
  · have hk : k = (.brr, k.2) := Prod.ext hbrr rfl
    have hstep := frame_delete (K := K) (F := F) fw (hK k.2) m
    rwa [← hbrr] at hstep
  · exact refl_of _ m

theorem frame_sweep (fw : Efi)
    (hK : ∀ name, (.brr, name) ∈ K ∨ DeleteRefused fw (.brr, name)) :
    Keeps (Frame K F) (sweep fw : EfiM ε Unit) := by
  intro m
  unfold sweep
  cases hpasses : sweepPasses fw (m.store.length + 1) m with
  | none => exact refl_of _ m
  | some m' => exact scan_induct (Frame K F) (frame_sweepStep fw hK) _ hpasses

end

end BankFinder.MaskFrames
