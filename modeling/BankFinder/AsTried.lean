import BankFinder.CopyFile
import BankFinder.Handover

/-!
# The disk masks what was tried from the stick

The installer copies the list of bad memory from `EFI\BOOT` of the stick to `EFI\BRR` of the
internal disk, and the shim looks there first. So when the copy is whole, a boot from the disk
plans the same pages as the trial from the stick did, and macOS is handed the same memory.
-/

namespace BankFinder.AsTried
open Nvram EfiMachine MachineFrame BootSession MaskOps MaskFrames Install CopyFile UninstallFiles
open MaskShim MaskInstall InstallTriples StateHistory Handover MaskCoverage BadmemParse BadPages
open PageMask TrialBoot ChipList RowMask SavedList MaskedForGood LabelledRuns

/-- No file has the name of the directory. -/
def NoFile (root : Handle) (path : EfiPath) (m : Machine) : Prop :=
  ∀ content, (m.files root).lookup path ≠ some (.file content)

theorem noFile_of_content? {root : Handle} {path : EfiPath} {m : Machine}
    (h : (m.files root).content? path = none) : NoFile root path m := by
  intro content hfile
  rw [FileTree.content?, hfile] at h
  cases h

def KeepsNoFile (root : Handle) (path : EfiPath) (m m' : Machine) : Prop :=
  NoFile root path m → NoFile root path m'

section
variable {root : Handle} {path : EfiPath} {ε α : Type}

instance : Std.Refl (KeepsNoFile root path) := ⟨fun _ h => h⟩

instance : IsTrans Machine (KeepsNoFile root path) := ⟨fun _ _ _ h h' hm => h' (h hm)⟩

theorem keepsNoFile_of_frame {K : Set (Guid × String)} {F : Set (Handle × EfiPath)}
    {x : EfiM ε α} (hx : Keeps (Frame K F) x) (hF : (root, path) ∉ F) :
    Keeps (KeepsNoFile root path) x := by
  intro m hm content
  rw [(hx m).files (root, path) hF]
  exact hm content

theorem lookup_written (kind : Node) (m : Machine) :
    ((Function.update m.files root ((m.files root).insert path kind)) root).lookup path =
      some kind := by
  rw [Function.update_self]
  exact AList.lookup_insert _

theorem openCreate_cases (fw : Efi) (kind : Node) (m : Machine) :
    ((openCreate fw root path kind m).2.files root).lookup path = (m.files root).lookup path ∨
      ((openCreate fw root path kind m).2.files root).lookup path = some kind := by
  unfold openCreate
  rw [bind_run]
  cases hcall : (perform fw .create m).1 with
  | error e =>
      refine Or.inl ?_
      have hreads := (reads_perform fw .create).sameVars m
      obtain ⟨n, hn⟩ := reads_perform fw .create m
      simp only [hn]
  | ok _ =>
      obtain ⟨n, hn⟩ := reads_perform fw .create m
      simp only [hn]
      rw [readTree_bind]
      cases hnode : (m.files root).lookup path with
      | some node => exact Or.inl hnode
      | none =>
          simp only
          split_ifs
          · right
            rw [bind_run]
            exact lookup_written ..
          · exact Or.inl hnode

theorem keepsNoFile_mkdir (fw : Efi) :
    Keeps (KeepsNoFile root path) (mkdirPOps fw root path : EfiM ε Unit) := by
  intro m hm content hfile
  have hcreated : ((mkdirPOps fw root path : EfiM ε Unit) m).2 =
      (openCreate fw root path .directory m).2 := rfl
  rw [hcreated] at hfile
  rcases openCreate_cases fw .directory m with hkept | hnew
  · exact hm content (hkept.symm.trans hfile)
  · rw [hnew] at hfile
    cases hfile

theorem holdsParent_of_directory {tree : FileTree} {dir : EfiPath} (hdir : path.dropLast = dir)
    (h : tree.lookup dir = some .directory) : tree.holdsParent path = true := by
  subst hdir
  simp [FileTree.holdsParent, h]

theorem perform_run {fw : Efi} (h : NoFaults fw) (c : Call) (m : Machine) :
    perform fw c m = (.ok (), { m with calls := m.calls + 1 }) := by
  unfold perform
  rw [h]

/-- What is opened is what was there, or the new node in an existing directory. -/
theorem openCreate_run {fw : Efi} (h : NoFaults fw) (kind : Node) {m : Machine}
    (hparent : (m.files root).holdsParent path = true) :
    openCreate fw root path kind m = (.ok (((m.files root).lookup path).getD kind),
      (openCreate fw root path kind m).2) ∧
    ((openCreate fw root path kind m).2.files root).lookup path =
      some (((m.files root).lookup path).getD kind) := by
  unfold openCreate
  rw [bind_of_ok _ (perform_run h .create m), readTree_bind]
  cases hnode : (m.files root).lookup path with
  | some node =>
      simp only
      exact ⟨rfl, hnode⟩
  | none =>
      simp only [hparent, if_true]
      refine ⟨rfl, ?_⟩
      rw [bind_run]
      exact lookup_written ..

theorem mkdir_directory {fw : Efi} (h : NoFaults fw) {m : Machine}
    (hparent : (m.files root).holdsParent path = true) (hfile : NoFile root path m) :
    (((mkdirPOps fw root path : EfiM ε Unit) m).2.files root).lookup path = some .directory := by
  have hopened := (openCreate_run h .directory hparent).2
  cases hnode : (m.files root).lookup path with
  | none =>
      rw [hnode] at hopened
      exact hopened
  | some node =>
      rw [hnode] at hopened
      cases node with
      | directory => exact hopened
      | file content => exact absurd hnode (hfile content)

/-- The destination's directory is there, and the destination is a file or nothing yet. -/
structure Receives (m : Machine) (root : Handle) (path : EfiPath) (old : List UInt8) : Prop where
  parent : (m.files root).holdsParent path = true
  opened : opened (m.files root) path = .file old

theorem readFile_run {fw : Efi} (h : NoFaults fw) (content : List UInt8) (m : Machine) :
    ∃ data, readFile fw content m = (.ok data, { m with calls := m.calls + 1 }) := by
  refine ⟨content.take (min content.length (fw.moved m.calls content.length)), ?_⟩
  change (perform fw .read >>= fun _ => pure _ : EfiM Refusal (List UInt8)) m = _
  rw [bind_of_ok _ (perform_run h .read m)]
  rfl

theorem writeFile_run {fw : Efi} (h : NoFaults fw) (data : List UInt8) {old : List UInt8}
    {m : Machine} (hfile : (m.files root).lookup path = some (.file old)) :
    ∃ m', writeFile fw root path data m = (.ok (), m') := by
  have hrun : ∃ count, writeFile fw root path data m =
      (writeTree root ((m.files root).insert path (.file (data.take count ++ old.drop count))) >>=
        fun _ => perform fw .write) m := by
    refine ⟨min data.length (fw.moved m.calls data.length), ?_⟩
    unfold writeFile
    rw [bind_run]
    simp only [transfer]
    rw [readTree_bind]
    simp only [hfile]
  obtain ⟨count, hcount⟩ := hrun
  rw [hcount, bind_run]
  exact ⟨_, perform_run h .write _⟩

/-- A firmware which fails no call copies every file that is not too long. -/
theorem copyFileOps_succeeds {fw : Efi} (h : NoFaults fw) {srcRoot dstRoot : Handle}
    {srcName dstName : EfiPath} {content old : List UInt8} {m : Machine}
    (hsrc : (m.files srcRoot).lookup srcName = some (.file content))
    (hlength : content.length ≤ copyMaxBytes) (hdst : Receives m dstRoot dstName old) :
    ∃ m', copyFileOps fw srcRoot srcName dstRoot dstName m = (.ok (), m') := by
  have hcreate (n : ℕ) := openCreate_run h (.file [])
    (m := { m with calls := n }) hdst.parent
  unfold copyFileOps openRead
  rw [bind_assoc, bind_of_ok _ (perform_run h _ m), bind_assoc, readTree_bind]
  simp only [hsrc, pure_bind]
  rw [bind_of_ok _ (perform_run h _ _), if_neg (Nat.not_lt.mpr hlength)]
  split_ifs with hempty
  · rw [bind_of_ok _ (hcreate _).1]
    exact ⟨_, rfl⟩
  · obtain ⟨data, hread⟩ := readFile_run h content { m with calls := m.calls + 3 }
    rw [bind_of_ok _ (perform_run h _ _), bind_of_ok _ hread, bind_of_ok _ (hcreate _).1]
    apply writeFile_run h data
    rw [(hcreate _).2]
    exact congrArg some hdst.opened

end

/-- The directories of the program are no files, and `old` is what the list on the disk has. -/
structure Ready (m : Machine) (esp : Handle) (old : List UInt8) : Prop where
  efi : NoFile esp ["EFI"] m
  maskDir : NoFile esp internalMaskDir m
  list : opened (m.files esp) internalBadmem = .file old

section
variable {fw : Efi} {esp : Handle}

/-- Up to the new directories: the backups and the saved boot order. -/
def backUp (fw : Efi) (esp : Handle) : EfiM InstallError Unit := do
  saveExistingBootEntries fw
  backupBrrFiles fw esp
  saveBootOrder fw

theorem frame_backUp (fw : Efi) (esp : Handle) :
    Keeps (Frame backupVars (backupFiles esp)) (backUp fw esp) :=
  (frame_saveExistingBootEntries fw (by simp [backupVars])).bind fun _ =>
    (writes_backupBrrFiles fw esp).frame.bind fun _ =>
      frame_saveBootOrder fw (by simp [backupVars])

theorem keepsNoFile_backUp (fw : Efi) (esp : Handle) :
    Keeps (KeepsNoFile esp internalMaskDir) (backUp fw esp) := by
  have hcopy (src dst : EfiPath) (hdst : dst ≠ internalMaskDir) :
      Keeps (KeepsNoFile esp internalMaskDir)
        (ignore (copyFileOps fw esp src esp dst) : EfiM InstallError Unit) := by
    have hwrites : Writes {(esp, dst)} (copyFileOps fw esp src esp dst) :=
      writes_copyFileOps fw esp src rfl
    refine (keepsNoFile_of_frame (K := ∅) hwrites.frame fun hmem => hdst ?_).ignore
    exact (Prod.ext_iff.mp hmem).2.symm
  have hdir : Keeps (KeepsNoFile esp internalMaskDir)
      (mkdirPOps fw esp internalBackupDir : EfiM InstallError Unit) := by
    have hwrites : Writes {(esp, internalBackupDir)}
        (mkdirPOps fw esp internalBackupDir : EfiM InstallError Unit) := writes_mkdirPOps fw rfl
    exact keepsNoFile_of_frame (K := ∅) hwrites.frame (by simp [internalMaskDir, internalBackupDir])
  refine (keepsNoFile_of_frame (K := backupVars) (F := ∅)
    (frame_saveExistingBootEntries fw (by simp [backupVars])) (Set.notMem_empty _)).bind
      fun _ => Keeps.bind ?_ fun _ => keepsNoFile_of_frame (K := backupVars) (F := ∅)
        (frame_saveBootOrder fw (by simp [backupVars])) (Set.notMem_empty _)
  refine (keepsNoFile_of_frame (K := ∅) (F := ∅) (reads_succeeds (reads_openRead fw esp
    internalShimPath)).frame (Set.notMem_empty _)).bind fun found => ?_
  split_ifs
  · exact (keepsNoFile_mkdir fw).bind fun _ => hdir.bind fun _ =>
      (hcopy _ _ (by decide)).bind fun _ => hcopy _ _ (by decide)
  · exact Keeps.pure ()

theorem backUp_total (fw : Efi) (esp : Handle) : Total (backUp fw esp) := by
  intro m
  rw [backUp, (total_saveExistingBootEntries fw).bind_run, (total_backupBrrFiles fw esp).bind_run]
  exact total_saveBootOrder fw _

theorem prepareEsp_eq (fw : Efi) (esp : Handle) :
    prepareEsp fw esp = backUp fw esp >>= fun _ =>
      mkdirPOps fw esp ["EFI"] >>= fun _ => mkdirPOps fw esp internalMaskDir := by
  simp only [prepareEsp, backUp, bind_assoc]

/-- What the preparation may write. -/
def preparedFiles (esp : Handle) : Set (Handle × EfiPath) := insert (esp, ["EFI"]) (backupFiles esp)

theorem frame_prepareEsp_files (fw : Efi) (esp : Handle) :
    Keeps (Frame backupVars (preparedFiles esp)) (prepareEsp fw esp) := by
  rw [prepareEsp_eq]
  exact Keeps.bind (fun m => (frame_backUp fw esp m).mono subset_rfl (Set.subset_insert _ _))
    fun _ => (writes_mkdirPOps fw (by simp [preparedFiles])).frame.bind fun _ =>
      (writes_mkdirPOps fw (by simp [preparedFiles, backupFiles])).frame

/-- The lists are none of these. -/
theorem notMem_preparedFiles {root : Handle} {path : EfiPath}
    (hpath : path = internalBadmem ∨ path = usbBadmem) : (root, path) ∉ preparedFiles esp := by
  rcases hpath with rfl | rfl
  all_goals
    simp [preparedFiles, backupFiles, internalBadmem, usbBadmem, internalMaskDir,
      internalBackupDir, internalShimBackup, internalBadmemBkup]

/-- The preparation makes the directory and leaves the list. -/
theorem prepareEsp_receives (h : NoFaults fw) {m : Machine} {old : List UInt8}
    (hready : Ready m esp old) :
    Receives (prepareEsp fw esp m).2 esp internalBadmem old := by
  refine ⟨?_, ?_⟩
  swap
  · rw [opened, (frame_prepareEsp_files fw esp m).files (esp, internalBadmem)
      (notMem_preparedFiles (.inl rfl))]
    exact hready.list
  rw [prepareEsp_eq, (backUp_total fw esp).bind_run, (total_mkdirPOps fw esp _).bind_run]
  have hframe := frame_backUp fw esp m
  have hdir := keepsNoFile_backUp fw esp m hready.maskDir
  generalize (backUp fw esp m).2 = m₁ at hframe hdir ⊢
  have hefi : NoFile esp ["EFI"] m₁ := by
    intro content hfile
    rw [hframe.files (esp, ["EFI"]) (by simp [backupFiles, internalMaskDir, internalBackupDir,
      internalShimBackup, internalBadmemBkup])] at hfile
    exact hready.efi content hfile
  have hroot : (m₁.files esp).holdsParent ["EFI"] = true := rfl
  have hmade := mkdir_directory (ε := InstallError) h hroot hefi
  have hwrites : Writes {(esp, ["EFI"])} (mkdirPOps fw esp ["EFI"] : EfiM InstallError Unit) :=
    writes_mkdirPOps fw rfl
  have hother := hwrites m₁
  generalize ((mkdirPOps fw esp ["EFI"] : EfiM InstallError Unit) m₁).2 = m₂ at hmade hother ⊢
  have hdir₂ : NoFile esp internalMaskDir m₂ := by
    intro content hfile
    rw [hother.files (esp, internalMaskDir) (by simp [internalMaskDir])] at hfile
    exact hdir content hfile
  have hparent : (m₂.files esp).holdsParent internalMaskDir = true :=
    holdsParent_of_directory rfl hmade
  exact holdsParent_of_directory rfl (mkdir_directory (ε := InstallError) h hparent hdir₂)

theorem copyShim_copies {usbRoot : Handle} {m m' : Machine}
    (h : copyShim fw usbRoot esp m = (.ok (), m')) :
    ∃ m₁, OnlyFiles {(esp, internalShimPath)} m m₁ ∧
      m' = (copyFileOps fw usbRoot usbBadmem esp internalBadmem m₁).2 := by
  obtain ⟨_, m₁, hcopy, hrest⟩ := ok_of_bind h
  have hshim : OnlyFiles {(esp, internalShimPath)} m
      (copyFileOps fw usbRoot usbShimPath esp internalShimPath m).2 :=
    writes_copyFileOps fw usbRoot usbShimPath (Set.mem_singleton _) m
  rw [ok_of_orFail hcopy] at hshim
  cases hrest
  exact ⟨m₁, hshim, rfl⟩

/-- The list on the disk is the one of the stick, with the end of a longer old one. -/
theorem installed_list (h : NoFaults fw) (hall : MovesAll fw) {usbRoot : Handle} {m m' : Machine}
    {content old : List UInt8} (hvolumes : (findVolumes fw m).1 = .ok (usbRoot, esp))
    (hstick : (m.files usbRoot).lookup usbBadmem = some (.file content))
    (hlength : content.length ≤ copyMaxBytes) (hready : Ready m esp old)
    (hinstall : installMaskFull fw m = (.ok (), m')) :
    (m'.files esp).lookup internalBadmem =
      some (.file (content ++ old.drop content.length)) := by
  obtain ⟨n, hn⟩ := reads_findVolumes fw m
  obtain ⟨⟨usbRoot', esp'⟩, m₁, hfind, hrest⟩ := ok_of_bind hinstall
  rw [hfind] at hvolumes hn
  cases hvolumes
  cases hn
  simp only at hrest
  rw [(total_prepareEsp fw esp).bind_run] at hrest
  have hreceives := prepareEsp_receives h (m := { m with calls := n }) ⟨hready.efi, hready.maskDir,
    hready.list⟩
  have hprepared := (frame_prepareEsp_files fw esp { m with calls := n }).files
    (usbRoot, usbBadmem) (notMem_preparedFiles (.inr rfl))
  generalize (prepareEsp fw esp { m with calls := n }).2 = m₂ at hreceives hprepared hrest
  obtain ⟨_, m₃, hcopy, hrest⟩ := ok_of_bind hrest
  obtain ⟨slot, m₄, hentry, hactivate⟩ := ok_of_bind hrest
  obtain ⟨m₂', hshim, rfl⟩ := copyShim_copies hcopy
  -- the source and the destination of the second copy are as the preparation left them
  have hsource : (m₂'.files usbRoot).lookup usbBadmem = some (.file content) :=
    (hshim.files (usbRoot, usbBadmem) (by simp [usbBadmem, internalShimPath])).trans
      (hprepared.trans hstick)
  have hreceives' : Receives m₂' esp internalBadmem old := by
    refine ⟨?_, ?_⟩
    · have hparent := hreceives.parent
      rw [FileTree.holdsParent] at hparent ⊢
      rwa [hshim.files (esp, internalBadmem.dropLast) (by
        simp [internalBadmem, internalShimPath])]
    · rw [opened, hshim.files (esp, internalBadmem) (by simp [internalBadmem, internalShimPath])]
      exact hreceives.opened
  obtain ⟨m₅, hcopied⟩ := copyFileOps_succeeds h hsource hlength hreceives'
  have hlist := copyFileOps_ok hsource hcopied
  rw [hreceives'.opened, bytesMoved_all hall, List.take_length] at hlist
  rw [hcopied] at hentry
  rw [(activateEntry_ok hactivate).2.files (esp, internalBadmem) (Set.notMem_empty _),
    (registerEntry_ok hentry).2.2.1.files (esp, internalBadmem) (Set.notMem_empty _)]
  exact hlist

end

/-- An installation, with the list of the stick and what the disk had in its place. -/
structure Installation (fw : Efi) (m m' : Machine) (usbRoot esp : Handle)
    (content old : List UInt8) : Prop where
  noFaults : NoFaults fw
  movesAll : MovesAll fw
  volumes : (findVolumes fw m).1 = .ok (usbRoot, esp)
  stick : (m.files usbRoot).lookup usbBadmem = some (.file content)
  length : content.length ≤ copyMaxBytes
  ready : Ready m esp old
  done : installMaskFull fw m = (.ok (), m')

/-- The shim was loaded from the volume with these files. -/
structure ReadsTree (v : ShimVolume) (tree : FileTree) : Prop where
  loadedImage : v.loadedImage = efiSuccess
  simpleFileSystem : v.simpleFileSystem = efiSuccess
  openVolume : v.openVolume = efiSuccess
  found : ∀ path ∈ [internalBadmem, usbBadmem], ∀ content,
    tree.lookup path = some (.file content) →
      v.openFile ("\\".intercalate path) = .ok ⟨content, efiSuccess⟩
  missing : ∀ path ∈ [internalBadmem, usbBadmem], tree.lookup path = none →
    ∃ e, v.openFile ("\\".intercalate path) = .error e

section
variable {v : ShimVolume} {tree : FileTree} {content : List UInt8}

/-- What the shim makes of the text. -/
def parsedList (content : List UInt8) : BadmemResult :=
  badmemParseFull (content.take (fileBufSize - 1)) badmemMaxRanges badmemMaxChips

theorem readBadmem_disk (h : ReadsTree v tree)
    (hlist : tree.lookup internalBadmem = some (.file content)) :
    (readBadmem v).2 = parsedList content := by
  have hfile : v.openFile "EFI\\BRR\\badmem.txt" = .ok ⟨content, efiSuccess⟩ :=
    h.found internalBadmem (by simp) content hlist
  simp only [readBadmem, h.loadedImage, h.simpleFileSystem, h.openVolume, hfile, ne_eq,
    not_true_eq_false, if_false]
  rfl

theorem readBadmem_stick (h : ReadsTree v tree) (hnone : tree.lookup internalBadmem = none)
    (hlist : tree.lookup usbBadmem = some (.file content)) :
    (readBadmem v).2 = parsedList content := by
  obtain ⟨e, hmissing⟩ := h.missing internalBadmem (by simp) hnone
  have hmissing : v.openFile "EFI\\BRR\\badmem.txt" = .error e := hmissing
  have hfile : v.openFile "EFI\\BOOT\\badmem.txt" = .ok ⟨content, efiSuccess⟩ :=
    h.found usbBadmem (by simp) content hlist
  simp only [readBadmem, h.loadedImage, h.simpleFileSystem, h.openVolume, hmissing, hfile, ne_eq,
    not_true_eq_false, if_false]
  rfl

end

/-- The variables under which a chip trial and the boots after it mask alike: rows, or chips
which the failed decoder made the list for. -/
def ChipsKept (store : Store) : Prop :=
  RowMode store ∨ readNvramDecoderStatusFailed store = true ∧
    readNvramBadchips store badmemMaxChips ≠ []

section
variable {σ : Type} {env env' : ShimEnv σ}

/-- The same computer, and a volume with the same list. -/
structure SameInput (env env' : ShimEnv σ) : Prop where
  host : env'.host = env.host
  profiles : env'.profiles = env.profiles
  list : (readBadmem env'.volume).2 = (readBadmem env.volume).2

theorem plannedPages_same (h : SameInput env env') (forceChip : Bool) (store : Store) :
    plannedPages env' forceChip store = plannedPages env forceChip store := by
  have hdata : pageModeData env' forceChip store = pageModeData env forceChip store := by
    unfold pageModeData
    rw [h.list]
  have hchips : chipPages env' = chipPages env := by
    funext chips
    unfold chipPages
    rw [h.host, h.profiles]
  unfold plannedPages pageModePages
  rw [hdata, hchips, h.host]

/-- Without the force of a chip trial the same chips are masked. -/
theorem plannedPages_chipsKept {store : Store} (h : ChipsKept store) (forceChip : Bool) :
    plannedPages env false store = plannedPages env forceChip store := by
  unfold plannedPages
  rcases h with hrows | ⟨hfailed, hchips⟩
  · rw [if_pos hrows, if_pos hrows]
  · simp [hfailed, hchips]

/-- Otherwise it is the list of pages which counts. -/
theorem plannedPages_chipsDropped {store : Store} (h : ¬ChipsKept store) :
    plannedPages env false store = pageModePages env false store := by
  unfold ChipsKept at h
  rw [not_or, not_and, not_not] at h
  unfold plannedPages
  rw [if_neg h.1]
  cases hfailed : readNvramDecoderStatusFailed store with
  | true => simp [h.2 hfailed]
  | false => simp

end

/-- A computer at a boot: the volume which the shim is on, and what the uninstaller would do. -/
def bootedFrom (env : ShimEnv MemoryMap) (v : ShimVolume) (fw : Efi) (m : Machine) :
    ShimEnv MemoryMap :=
  { env with volume := v, uninstallMaskFull := uninstallFrom fw m }

/-- The run masks, with the given force. -/
structure Masks (env : ShimEnv MemoryMap) (s : Session MemoryMap) (forceChip : Bool) : Prop where
  flags : passthroughFlag env.loadOptions = false
  choice : (handleNvramState env s).1 = ⟨false, forceChip⟩

theorem Masks.runPages {env : ShimEnv MemoryMap} {s : Session MemoryMap} {forceChip : Bool}
    (h : Masks env s forceChip) : Handover.runPages env s = plannedPages env forceChip s.nvram := by
  unfold Handover.runPages
  rw [h.flags, h.choice]
  rfl

section
variable {env : ShimEnv MemoryMap} {fw : Efi} {m m' : Machine} {usbRoot esp : Handle}
  {content old : List UInt8} {stick disk : ShimVolume}

/-- A list which was not shorter than the one it replaced is read the same on the disk. -/
theorem sameInput_installed (hi : Installation fw m m' usbRoot esp content old)
    (hwhole : old.length ≤ content.length) (hstick : ReadsTree stick (m.files usbRoot))
    (hnone : (m.files usbRoot).lookup internalBadmem = none)
    (hdisk : ReadsTree disk (m'.files esp)) :
    SameInput (bootedFrom env stick fw m) (bootedFrom env disk fw m') := by
  have hlist := installed_list hi.noFaults hi.movesAll hi.volumes hi.stick hi.length hi.ready
    hi.done
  rw [List.drop_eq_nil_of_le hwhole, List.append_nil] at hlist
  exact ⟨rfl, rfl, (readBadmem_disk hdisk hlist).trans
    (readBadmem_stick hstick hnone hi.stick).symm⟩

/-- The variables which tell what to mask are left by the installation and by quiet runs. -/
theorem agree_installed (hdone : installMaskFull fw m = (.ok (), m')) {runs : List ProgramRun}
    {last : Store} (hruns : Run programStep m'.store runs last) (hquiet : ∀ r ∈ runs, Quiet r) :
    Agree installerVars m.store last := by
  have hframe := frame_installMaskFull fw m
  rw [hdone] at hframe
  have hstart : Agree installerVars m.store m'.store :=
    agree_of_frame hframe Set.subset_union_left
  exact hruns.invariant (P := Agree installerVars m.store)
    (fun _ _ _ hgood hs h => hs.trans (agree_programStep hgood h)) hquiet hstart

theorem claims_bootedFrom (env : ShimEnv MemoryMap) (v : ShimVolume) (fw : Efi) (m : Machine)
    (s : Session MemoryMap) :
    Claims (bootedFrom env v fw m) (runPages (bootedFrom env v fw m) s) s
      (MaskShim.efiMain (bootedFrom env v fw m) s).2 :=
  claims_efiMain (claims_uninstallFrom _ fw m) s

theorem documented_bootedFrom (henv : Documented env) (v : ShimVolume) (fw : Efi) (m : Machine) :
    Documented (bootedFrom env v fw m) := ⟨henv.allocator, henv.verify⟩

/-- The page mode happens to select the pages of the chip trial. -/
def SamePages {σ : Type} (env : ShimEnv σ) (store : Store) : Prop :=
  pageModePages env false store = plannedPages env true store

theorem plan_kept_iff {σ : Type} (env : ShimEnv σ) (forceChip : Bool) (store : Store) :
    plannedPages env false store = plannedPages env forceChip store ↔
      (forceChip = true → ChipsKept store ∨ SamePages env store) := by
  cases hforce : forceChip with
  | false => simp
  | true =>
      by_cases hkept : ChipsKept store
      · simp [hkept, plannedPages_chipsKept hkept true]
      · simp [hkept, plannedPages_chipsDropped hkept, SamePages]

/-- What the shim finds on a volume. -/
def treeVolume (tree : FileTree) : ShimVolume where
  loadedImage := efiSuccess
  simpleFileSystem := efiSuccess
  openVolume := efiSuccess
  openFile name :=
    let path := if name = "\\".intercalate internalBadmem then internalBadmem else usbBadmem
    match tree.content? path with
    | some content => .ok ⟨content, efiSuccess⟩
    | none => .error efiNotFound

theorem readsTree_treeVolume (tree : FileTree) : ReadsTree (treeVolume tree) tree := by
  have hnames : "\\".intercalate usbBadmem ≠ "\\".intercalate internalBadmem := by decide
  refine ⟨rfl, rfl, rfl, ?_, ?_⟩
  · intro path hpath content hfile
    simp only [List.mem_cons, List.not_mem_nil, or_false] at hpath
    rcases hpath with rfl | rfl
    · simp [treeVolume, FileTree.content?, hfile]
    · simp [treeVolume, FileTree.content?, hfile, hnames]
  · intro path hpath hnode
    simp only [List.mem_cons, List.not_mem_nil, or_false] at hpath
    rcases hpath with rfl | rfl
    · exact ⟨efiNotFound, by simp [treeVolume, FileTree.content?, hnode]⟩
    · exact ⟨efiNotFound, by simp [treeVolume, FileTree.content?, hnode, hnames]⟩

end

def listText : List UInt8 := ascii "0x400000,4096"

/-- The typed page is on trial, and the stick has a list too. -/
def listComputer : Machine :=
  { trialComputer with
    files := fun h => if h = 1 then InstallUndo.usbTree.insert usbBadmem (.file listText)
      else .ofList [(["EFI"], .directory)] }

def listInstalled : Machine := (installMaskFull InstallUndo.usbEfi listComputer).2

theorem listComputer_installation :
    Installation InstallUndo.usbEfi listComputer listInstalled 1 2 listText [] where
  noFaults _ _ := rfl
  movesAll _ _ := le_rfl
  volumes := by decide +kernel
  stick := by decide +kernel
  length := by decide
  ready := ⟨noFile_of_content? (by decide +kernel), noFile_of_content? (by decide +kernel),
    by decide +kernel⟩
  done := InstallUndo.run_of_ok (by decide +kernel)

end BankFinder.AsTried
