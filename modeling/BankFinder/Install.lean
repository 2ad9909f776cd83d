import BankFinder.UninstallFiles

/-!
# The installer

A successful `install_mask_full` adds one boot entry in a slot which was free, saves the
boot order it found and prepends the slot to it. What the uninstaller needs to take this
back is all there after the first installation. A second one overwrites it, and a failed
one deletes it: the rollback removes what the run may have written, not what it wrote.
-/

namespace BankFinder.Install
open LittleEndian Nvram EfiMachine MachineFrame BootNames MaskOps MaskFrames Uninstall
open UninstallFiles

section
variable {ε α : Type}

theorem ok_of_orFail {x : EfiM Refusal α} {errMsg : String} {undo : EfiM InstallError Unit}
    {m m' : Machine} {a : α} (h : orFail x errMsg undo m = (.ok a, m')) : x m = (.ok a, m') := by
  unfold orFail at h
  cases hx : (x m).1 with
  | ok b =>
      simp only [hx] at h
      cases h
      exact Prod.ext hx rfl
  | error e =>
      simp only [hx] at h
      cases h

theorem error_of_orFail {x : EfiM Refusal α} {errMsg : String} {undo : EfiM InstallError Unit}
    {m m' : Machine} {e : InstallError} (h : orFail x errMsg undo m = (.error e, m')) :
    ∃ status, (x m).1 = .error status ∧ m' = (undo (x m).2).2 := by
  unfold orFail at h
  cases hx : (x m).1 with
  | ok b =>
      rw [hx] at h
      cases h
  | error status =>
      rw [hx] at h
      exact ⟨status, rfl, (congrArg Prod.snd h).symm⟩

theorem reads_orFail {x : EfiM Refusal α} (hx : Reads x) (errMsg : String) :
    Reads (orFail x errMsg (pure ())) := by
  intro m
  obtain ⟨n, hn⟩ := hx m
  unfold orFail
  cases (x m).1 with
  | ok a => exact ⟨n, hn⟩
  | error e => exact ⟨n, hn⟩

theorem reads_findVolumes (fw : Efi) : Reads (findVolumes fw) :=
  (reads_orFail (reads_openUsbRootOps fw) _).bind fun usbRoot =>
    (reads_orFail (reads_openInternalEspOps fw) _).bind fun esp => reads_pure (usbRoot, esp)

/-- Everything up to the new boot entry. -/
def uptoEntry (fw : Efi) : EfiM InstallError (Handle × UInt16) := do
  let (usbRoot, esp) ← findVolumes fw
  prepareEsp fw esp
  copyShim fw usbRoot esp
  let slot ← registerEntry fw esp
  pure (esp, slot)

theorem installMaskFull_eq (fw : Efi) :
    installMaskFull fw = uptoEntry fw >>= fun r => activateEntry fw r.1 r.2 := by
  simp only [installMaskFull, uptoEntry, bind_assoc, pure_bind]

theorem getVariable_notFound_iff (store : Store) (guid : Guid) (name : String) (cap : ℕ) :
    (getVariable store guid name cap).1 = efiNotFound ↔ store.get? guid name = none := by
  unfold getVariable
  cases store.get? guid name with
  | none => simp
  | some data =>
      simp only
      split_ifs
      · exact iff_of_false (show efiBufferTooSmall ≠ efiNotFound by decide) (by simp)
      · exact iff_of_false (show efiSuccess ≠ efiNotFound by decide) (by simp)

/-- What a read delivers is what the variable holds. -/
theorem get?_of_getVariable {store : Store} {guid : Guid} {name : String} {cap : ℕ}
    (h : (Nvram.getVariable store guid name cap).1 = efiSuccess) :
    store.get? guid name = some (Nvram.getVariable store guid name cap).2 := by
  unfold Nvram.getVariable at h ⊢
  cases hget : store.get? guid name with
  | none =>
      rw [hget] at h
      exact absurd h (show ¬efiNotFound = efiSuccess by decide)
  | some data =>
      rw [hget] at h
      simp only at h ⊢
      split_ifs at h ⊢
      · exact absurd h (show ¬efiBufferTooSmall = efiSuccess by decide)
      · rfl

/-- The slot found is free. -/
theorem findFreeSlot_free {store : Store} {fuel : ℕ} {slot free : UInt16}
    (h : findFreeSlot store fuel slot = some free) :
    store.get? .global (bootVarName free) = none := by
  induction fuel generalizing slot with
  | zero => exact absurd h (by simp [findFreeSlot])
  | succ fuel ih =>
      unfold findFreeSlot at h
      split_ifs at h with hlast hfree
      · rw [← Option.some.inj h]
        exact (getVariable_notFound_iff store .global _ 0).mp hfree
      · exact ih h

/-- The load option names `\\EFI\\BRR\\mask-shim.efi`. -/
def PointsAtShim (data : List UInt8) : Prop := filePathNode shimEntryPath <:+: data

theorem pointsAtShim_loadOption (prefixNodes : List UInt8) :
    PointsAtShim (loadOption (prefixNodes ++ filePathNode shimEntryPath ++ endNode)) :=
  ⟨encode 4 1 ++ encode 2 (prefixNodes ++ filePathNode shimEntryPath ++ endNode).length ++
      ucs2 entryDescription ++ prefixNodes, endNode, by simp [loadOption]⟩

theorem loadOption_ne_nil (fullDp : List UInt8) : loadOption fullDp ≠ [] := by
  simp [loadOption, encode]

/-- Both ways of building the device path end in the file path of the shim. -/
theorem devicePath_pointsAtShim {fw : Efi} {esp : Handle} {m m' : Machine} {fullDp : List UInt8}
    (h : MaskOps.orElse (buildFullDevicePathOps fw esp shimEntryPath)
      (filePathOnly fw shimEntryPath) m = (.ok fullDp, m')) : PointsAtShim (loadOption fullDp) := by
  unfold MaskOps.orElse at h
  cases hfull : (buildFullDevicePathOps fw esp shimEntryPath m).1 with
  | ok dp =>
      simp only [hfull] at h
      cases h
      obtain ⟨_, _, -, hdp⟩ := ok_of_bind (Prod.ext hfull rfl :
        buildFullDevicePathOps fw esp shimEntryPath m = (.ok fullDp, _))
      cases hdp
      exact pointsAtShim_loadOption (devicePrefix fw esp)
  | error e =>
      simp only [hfull] at h
      obtain ⟨_, _, -, hdp⟩ := ok_of_bind h
      cases hdp
      exact pointsAtShim_loadOption []

theorem reads_devicePath (fw : Efi) (esp : Handle) :
    Reads (MaskOps.orElse (buildFullDevicePathOps fw esp shimEntryPath)
      (filePathOnly fw shimEntryPath)) :=
  reads_orElse ((reads_perform fw .allocatePool).bind fun _ => reads_pure _)
    ((reads_perform fw .allocatePool).bind fun _ => reads_pure _)

/-- A new entry is written to the slot which was found free. -/
theorem installBootEntryOps_ok {fw : Efi} {esp : Handle} {m m' : Machine} {slot : UInt16}
    (h : installBootEntryOps fw esp m = (.ok slot, m')) :
    findFreeSlot m.store 255 0x0100 = some slot ∧
      (∃ data, m'.store.get? .global (bootVarName slot) = some data ∧ PointsAtShim data) ∧
      Frame {(.global, bootVarName slot)} ∅ m m' := by
  obtain ⟨fullDp, m₁, hdp, hrest⟩ := ok_of_bind h
  have hpoints := devicePath_pointsAtShim hdp
  have hread := reads_devicePath fw esp m
  rw [hdp] at hread
  obtain ⟨n, hn⟩ := hread
  split_ifs at hrest
  · cases hrest
  rw [readStore_bind] at hrest
  cases hfree : findFreeSlot m₁.store 255 0x0100 with
  | none =>
      simp only [hfree] at hrest
      cases hrest
  | some free =>
      simp only [hfree] at hrest
      obtain ⟨_, m₂, hset, hpure⟩ := ok_of_bind hrest
      cases hpure
      have hstored := setVariable_ok hset
      rw [stored, if_neg (loadOption_ne_nil fullDp)] at hstored
      have hframe := frame_setVariable (K := {(.global, bootVarName slot)}) (F := ∅) fw
        (loadOption fullDp) (Set.mem_singleton _) m₁
      rw [hset] at hframe
      subst hn
      exact ⟨hfree, ⟨_, hstored, hpoints⟩,
        trans_of _ ((reads_devicePath fw esp).frame m) (by rw [hdp]; exact hframe)⟩

/-- When there is no new entry the variables and files are as before. -/
theorem installBootEntryOps_error {fw : Efi} {esp : Handle} {m m' : Machine} {e : Refusal}
    (h : installBootEntryOps fw esp m = (.error e, m')) : Frame ∅ ∅ m m' := by
  have hread := (reads_devicePath fw esp).frame (K := ∅) (F := ∅) m
  rcases error_of_bind h with hdp | ⟨fullDp, m₁, hdp, hrest⟩
  · rwa [hdp] at hread
  rw [hdp] at hread
  split_ifs at hrest
  · cases hrest
    exact hread
  rw [readStore_bind] at hrest
  cases hfree : findFreeSlot m₁.store 255 0x0100 with
  | none =>
      simp only [hfree] at hrest
      cases hrest
      exact hread
  | some free =>
      simp only [hfree] at hrest
      rcases error_of_bind hrest with hset | ⟨_, m₂, -, hpure⟩
      · exact trans_of _ hread (frame_setVariable_error hset)
      · cases hpure

theorem total_prepareEsp (fw : Efi) (esp : Handle) : Total (prepareEsp fw esp) := by
  intro m
  rw [prepareEsp, (total_saveExistingBootEntries fw).bind_run, (total_backupBrrFiles fw esp).bind_run,
    (total_saveBootOrder fw).bind_run, (total_mkdirPOps fw esp _).bind_run]
  rfl

/-- The variables which the preparation may write. -/
def backupVars : Set (Guid × String) := {(.brr, brrVarnameBootentries), (.brr, brrVarnameOrigboot)}

/-- The files of one volume. -/
def onVolume (esp : Handle) : Set (Handle × EfiPath) := {f | f.1 = esp}

theorem backupFiles_onVolume (esp : Handle) : backupFiles esp ⊆ onVolume esp := by
  intro f hf
  simp only [backupFiles, Set.mem_insert_iff, Set.mem_singleton_iff] at hf
  rcases hf with rfl | rfl | rfl | rfl
  · rfl
  · rfl
  · rfl
  · rfl

theorem frame_prepareEsp (fw : Efi) (esp : Handle) :
    Keeps (Frame backupVars (onVolume esp)) (prepareEsp fw esp) := by
  refine (frame_saveExistingBootEntries fw (by simp [backupVars])).bind fun _ => ?_
  refine Keeps.bind (fun m => ((writes_backupBrrFiles fw esp).frame m).mono subset_rfl
    (backupFiles_onVolume esp)) fun _ => ?_
  exact (frame_saveBootOrder fw (by simp [backupVars])).bind fun _ =>
    (writes_mkdirPOps fw (by simp [onVolume])).frame.bind fun _ =>
      (writes_mkdirPOps fw (by simp [onVolume])).frame

/-- A boot order which can be read whole is saved, when the firmware accepts that. -/
theorem prepareEsp_backup {fw : Efi} {m : Machine} {order : List UInt8} (esp : Handle)
    (horder : m.store.get? .global bootOrderName = some order) (hne : order ≠ [])
    (hlength : order.length ≤ orderBufSize)
    (haccept : ∀ i, fw.refuseSet i .brr brrVarnameOrigboot order = none) :
    (prepareEsp fw esp m).2.store.get? .brr brrVarnameOrigboot = some order := by
  have hsaved (m : Machine) (h : m.store.get? .global bootOrderName = some order) :
      ((saveBootOrder fw : EfiM InstallError Unit) m).2.store.get? .brr brrVarnameOrigboot =
        some order := by
    have hread := getVariable_fits h hlength
    rw [saveBootOrder, readStore_bind, hread, if_pos ⟨rfl, List.length_pos_of_ne_nil hne⟩]
    have hstored := setVariable_stored (m := m) (haccept _)
    rwa [stored, if_neg hne] at hstored
  have hbefore := (frame_saveExistingBootEntries (ε := InstallError) (K := {(.brr, brrVarnameBootentries)})
    (F := ∅) fw (Set.mem_singleton _) m).vars (.global, bootOrderName) (by simp)
  have hfiles := ((writes_backupBrrFiles (ε := InstallError) fw esp).sameVars
    ((saveExistingBootEntries fw : EfiM InstallError Unit) m).2).1
  have hdirs (m : Machine) : ((mkdirPOps fw esp ["EFI"] >>= fun _ => mkdirPOps fw esp internalMaskDir :
      EfiM InstallError Unit) m).2.store = m.store :=
    ((writes_mkdirPOps (F := Set.univ) fw (Set.mem_univ _)).sameVars.bind
      (fun _ => (writes_mkdirPOps (F := Set.univ) fw (Set.mem_univ _)).sameVars) m).1
  rw [prepareEsp, (total_saveExistingBootEntries fw).bind_run, (total_backupBrrFiles fw esp).bind_run,
    (total_saveBootOrder fw).bind_run, hdirs]
  apply hsaved
  rw [hfiles]
  exact hbefore.trans horder

theorem copyShim_ok {fw : Efi} {usbRoot esp : Handle} {m m' : Machine}
    (h : copyShim fw usbRoot esp m = (.ok (), m')) : OnlyFiles (onVolume esp) m m' := by
  obtain ⟨_, m₁, hcopy, hrest⟩ := ok_of_bind h
  have hshim : OnlyFiles (onVolume esp) m
      (copyFileOps fw usbRoot usbShimPath esp internalShimPath m).2 :=
    writes_copyFileOps fw usbRoot usbShimPath (by simp [onVolume]) m
  rw [ok_of_orFail hcopy] at hshim
  have hbadmem : OnlyFiles (onVolume esp) m₁
      (copyFileOps fw usbRoot usbBadmem esp internalBadmem m₁).2 :=
    writes_copyFileOps fw usbRoot usbBadmem (by simp [onVolume]) m₁
  cases hrest
  exact trans_of _ hshim hbadmem

/-- The entry and the record of its slot. -/
def entryVars (slot : UInt16) : Set (Guid × String) :=
  {(.global, bootVarName slot), (.brr, brrVarnameBootslot)}

theorem slotBytes_ne_nil (slot : UInt16) : encode 2 slot.toNat ≠ [] := by simp [encode]

theorem registerEntry_ok {fw : Efi} {esp : Handle} {m m' : Machine} {slot : UInt16}
    (h : registerEntry fw esp m = (.ok slot, m')) :
    findFreeSlot m.store 255 0x0100 = some slot ∧
      (∃ data, m'.store.get? .global (bootVarName slot) = some data ∧ PointsAtShim data) ∧
      Frame (entryVars slot) ∅ m m' ∧
      ((∀ i, fw.refuseSet i .brr brrVarnameBootslot (encode 2 slot.toNat) = none) →
        m'.store.get? .brr brrVarnameBootslot = some (encode 2 slot.toNat)) := by
  obtain ⟨slot', m₁, hentry, hrest⟩ := ok_of_bind h
  obtain ⟨hfound, ⟨data, hdata, hpoints⟩, hframe⟩ := installBootEntryOps_ok (ok_of_orFail hentry)
  cases hrest
  have hslot := frame_setVariable (K := {(.brr, brrVarnameBootslot)}) (F := ∅) fw
    (encode 2 slot.toNat) (Set.mem_singleton _) m₁
  refine ⟨hfound, ⟨data, ?_, hpoints⟩, ?_, ?_⟩
  · exact (hslot.vars (.global, bootVarName slot) (by simp)).trans hdata
  · exact trans_of _ (hframe.mono (by simp [entryVars]) subset_rfl)
      (hslot.mono (by simp [entryVars]) subset_rfl)
  · intro haccept
    have hstored := setVariable_stored (m := m₁) (haccept _)
    rwa [stored, if_neg (slotBytes_ne_nil slot)] at hstored

/-- The boot order and the state. -/
def orderVars : Set (Guid × String) := {(.global, bootOrderName), (.brr, MaskShim.brrVarnameState)}

theorem activateEntry_ok {fw : Efi} {esp : Handle} {m m' : Machine} {slot : UInt16}
    (h : activateEntry fw esp slot m = (.ok (), m')) :
    m'.store.get? .global bootOrderName = some (encode 2 slot.toNat ++ currentOrder m.store) ∧
      Frame orderVars ∅ m m' := by
  obtain ⟨_, m₁, horder, hrest⟩ := ok_of_bind h
  cases hrest
  have hrun := ok_of_orFail horder
  have hframe := frame_prependBootOrderOps (K := orderVars) (F := ∅) fw slot (by simp [orderVars]) m
  rw [hrun] at hframe
  rw [prependBootOrderOps, readStore_bind] at hrun
  have hstored := setVariable_ok hrun
  rw [stored, if_neg (List.append_ne_nil_of_left_ne_nil (slotBytes_ne_nil slot) _)] at hstored
  have hstate := frame_setVariable (K := {(.brr, MaskShim.brrVarnameState)}) (F := ∅) fw
    (ascii MaskShim.statePermanentUnconfirmed) (Set.mem_singleton _) m₁
  constructor
  · exact (hstate.vars (.global, bootOrderName) (by simp)).trans hstored
  · exact trans_of _ hframe (hstate.mono (by simp [orderVars]) subset_rfl)

/-- The variables which a run that used `slot` may change. -/
def installVars (slot : UInt16) : Set (Guid × String) := backupVars ∪ entryVars slot ∪ orderVars

/-- What a successful run from `m` to `m'` did. -/
structure Installed (fw : Efi) (m m' : Machine) (slot : UInt16) : Prop where
  free : m.store.get? .global (bootVarName slot) = none
  entry : ∃ data, m'.store.get? .global (bootVarName slot) = some data ∧ PointsAtShim data
  order : m'.store.get? .global bootOrderName =
    some (encode 2 slot.toNat ++ currentOrder m.store)
  backup : ∀ order, m.store.get? .global bootOrderName = some order → order ≠ [] →
    order.length ≤ orderBufSize →
    (∀ i, fw.refuseSet i .brr brrVarnameOrigboot order = none) →
    m'.store.get? .brr brrVarnameOrigboot = some order
  record : (∀ i, fw.refuseSet i .brr brrVarnameBootslot (encode 2 slot.toNat) = none) →
    m'.store.get? .brr brrVarnameBootslot = some (encode 2 slot.toNat)
  vars : ∀ k ∉ installVars slot, m'.store.get? k.1 k.2 = m.store.get? k.1 k.2

theorem uptoEntry_ok {fw : Efi} {m m' : Machine} {r : Handle × UInt16}
    (h : uptoEntry fw m = (.ok r, m')) : ∃ m₁ m₂ m₃,
      SameVars m m₁ ∧ (prepareEsp fw r.1 m₁).2 = m₂ ∧ SameVars m₂ m₃ ∧
        registerEntry fw r.1 m₃ = (.ok r.2, m') := by
  obtain ⟨⟨usbRoot, esp⟩, m₁, hfind, hrest⟩ := ok_of_bind h
  have hread := (reads_findVolumes fw).sameVars m
  rw [hfind] at hread
  simp only at hrest
  rw [(total_prepareEsp fw esp).bind_run] at hrest
  obtain ⟨_, m₃, hcopy, hrest⟩ := ok_of_bind hrest
  obtain ⟨slot, m₄, hentry, hrest⟩ := ok_of_bind hrest
  cases hrest
  exact ⟨m₁, _, m₃, hread, rfl, (copyShim_ok hcopy).sameVars, hentry⟩

theorem installed_of_ok {fw : Efi} {m m' : Machine} (h : installMaskFull fw m = (.ok (), m')) :
    ∃ slot, Installed fw m m' slot := by
  rw [installMaskFull_eq] at h
  obtain ⟨⟨esp, slot⟩, m₄, hentry, horder⟩ := ok_of_bind h
  obtain ⟨m₁, m₂, m₃, hfind, hprepare, hcopy, hregister⟩ := uptoEntry_ok hentry
  obtain ⟨hfound, ⟨data, hdata, hpoints⟩, hregisterFrame, hrecord⟩ := registerEntry_ok hregister
  have hfree := findFreeSlot_free hfound
  obtain ⟨hneworder, horderFrame⟩ := activateEntry_ok horder
  have hprepareFrame := frame_prepareEsp fw esp m₁
  rw [hprepare] at hprepareFrame
  -- what the store held before the entry was written
  have hbefore : ∀ k ∉ backupVars, m₃.store.get? k.1 k.2 = m.store.get? k.1 k.2 := by
    intro k hk
    rw [hcopy.1, hprepareFrame.vars k hk, hfind.1]
  have hlast : ∀ k ∉ orderVars, m'.store.get? k.1 k.2 = m₄.store.get? k.1 k.2 :=
    horderFrame.vars
  refine ⟨slot, ?_, ?_, ?_, ?_, ?_, ?_⟩
  · exact (hbefore (.global, bootVarName slot) (by simp [backupVars])).symm.trans hfree
  · refine ⟨data, (hlast (.global, bootVarName slot) ?_).trans hdata, hpoints⟩
    simp [orderVars, bootVarName_ne_bootOrder]
  · have hcurrent : currentOrder m₄.store = currentOrder m.store := by
      have hget : m₄.store.get? .global bootOrderName = m.store.get? .global bootOrderName := by
        refine (hregisterFrame.vars (.global, bootOrderName) ?_).trans
          (hbefore (.global, bootOrderName) (by simp [backupVars]))
        simp [entryVars, (bootVarName_ne_bootOrder slot).symm]
      unfold currentOrder
      rw [getVariable_congr hget]
    rw [hneworder, hcurrent]
  · intro order hget hne hlength haccept
    have hsaved := prepareEsp_backup (m := m₁) esp (by rw [hfind.1]; exact hget) hne
      hlength haccept
    rw [hprepare, ← hcopy.1] at hsaved
    have hkept := hregisterFrame.vars (.brr, brrVarnameOrigboot) (by simp [entryVars]; decide)
    exact (hlast (.brr, brrVarnameOrigboot) (by simp [orderVars]; decide)).trans (hkept.trans hsaved)
  · intro haccept
    exact (hlast (.brr, brrVarnameBootslot) (by simp [orderVars]; decide)).trans (hrecord haccept)
  · intro k hk
    simp only [installVars, Set.mem_union, not_or] at hk
    rw [hlast k hk.2, hregisterFrame.vars k hk.1.2, hbefore k hk.1.1]

/-- The variables which the installer writes or deletes, whatever comes of it. -/
def touchedVars : Set (Guid × String) :=
  {k | k.1 = .global ∧ (k.2 = bootOrderName ∨ isBootEntry k.2 = true) ∨
    k.1 = .brr ∧ k.2 ∈ [MaskShim.brrVarnameState, brrVarnameOrigboot, brrVarnameBootentries,
      brrVarnameBootslot]}

theorem bootOrder_touched : (Guid.global, bootOrderName) ∈ touchedVars := by simp [touchedVars]

theorem bootEntry_touched (slot : UInt16) : (Guid.global, bootVarName slot) ∈ touchedVars := by
  simp [touchedVars, isBootEntry_bootVarName]

theorem brr_touched {name : String} (h : name ∈ [MaskShim.brrVarnameState, brrVarnameOrigboot,
    brrVarnameBootentries, brrVarnameBootslot]) : (Guid.brr, name) ∈ touchedVars :=
  Or.inr ⟨rfl, h⟩

theorem backupVars_touched : backupVars ⊆ touchedVars := by
  simp [backupVars, touchedVars, Set.insert_subset_iff]

theorem keeps_orFail {R : Machine → Machine → Prop} [IsTrans Machine R] {x : EfiM Refusal α}
    {undo : EfiM InstallError Unit} (hx : Keeps R x) (errMsg : String) (hundo : Keeps R undo) :
    Keeps R (orFail x errMsg undo) := by
  intro m
  have hm := hx m
  unfold orFail
  cases (x m).1 with
  | ok a => exact hm
  | error e => exact trans_of R hm (hundo _)

section
variable {K : Set (Guid × String)}

theorem frame_undoCopy (fw : Efi) (esp : Handle) (horder : (.brr, brrVarnameOrigboot) ∈ K)
    (hentries : (.brr, brrVarnameBootentries) ∈ K) :
    Keeps (Frame K Set.univ) (undoCopy fw esp : EfiM ε Unit) :=
  (writes_deleteFileOps fw (Set.mem_univ _)).frame.bind fun _ =>
    (frame_maskNvramDelete fw (Or.inl horder)).bind fun _ =>
      frame_maskNvramDelete fw (Or.inl hentries)

theorem frame_undoEntry (fw : Efi) (esp : Handle) (horder : (.brr, brrVarnameOrigboot) ∈ K)
    (hentries : (.brr, brrVarnameBootentries) ∈ K) :
    Keeps (Frame K Set.univ) (undoEntry fw esp : EfiM ε Unit) :=
  (writes_deleteFileOps fw (Set.mem_univ _)).frame.bind fun _ =>
    (writes_deleteFileOps fw (Set.mem_univ _)).frame.bind fun _ =>
      (frame_maskNvramDelete fw (Or.inl horder)).bind fun _ =>
        frame_maskNvramDelete fw (Or.inl hentries)

/-- The rollback of the last step after the deletion of the entry. -/
theorem frame_undoOrder_rest (fw : Efi) (esp : Handle) (hslot : (.brr, brrVarnameBootslot) ∈ K)
    (horder : (.brr, brrVarnameOrigboot) ∈ K) (hentries : (.brr, brrVarnameBootentries) ∈ K) :
    Keeps (Frame K Set.univ) (do
      maskNvramDelete fw brrVarnameBootslot
      maskNvramDelete fw brrVarnameOrigboot
      maskNvramDelete fw brrVarnameBootentries
      deleteFileOps fw esp internalShimPath
      deleteFileOps fw esp internalBadmem : EfiM ε Unit) :=
  (frame_maskNvramDelete fw (Or.inl hslot)).bind fun _ =>
    (frame_maskNvramDelete fw (Or.inl horder)).bind fun _ =>
      (frame_maskNvramDelete fw (Or.inl hentries)).bind fun _ =>
        (writes_deleteFileOps fw (Set.mem_univ _)).frame.bind fun _ =>
          (writes_deleteFileOps fw (Set.mem_univ _)).frame

theorem frame_undoOrder (fw : Efi) (esp : Handle) {slot : UInt16}
    (hentry : (.global, bootVarName slot) ∈ K) (hslot : (.brr, brrVarnameBootslot) ∈ K)
    (horder : (.brr, brrVarnameOrigboot) ∈ K) (hentries : (.brr, brrVarnameBootentries) ∈ K) :
    Keeps (Frame K Set.univ) (undoOrder fw esp slot : EfiM ε Unit) :=
  (frame_nvramDelGlobal fw hentry).bind fun _ =>
    frame_undoOrder_rest fw esp hslot horder hentries

end

theorem frame_installBootEntryOps (fw : Efi) (esp : Handle) :
    Keeps (Frame touchedVars Set.univ) (installBootEntryOps fw esp) := by
  refine (reads_devicePath fw esp).frame.bind fun fullDp => ?_
  split_ifs
  · exact Keeps.fail bufferTooSmall
  · refine reads_readStore.frame.bind fun store => ?_
    cases findFreeSlot store 255 0x0100 with
    | none => exact Keeps.fail outOfResources
    | some slot =>
        exact (frame_setVariable fw _ (bootEntry_touched slot)).bind fun _ => Keeps.pure slot

theorem frame_copyShim (fw : Efi) (usbRoot esp : Handle) :
    Keeps (Frame touchedVars Set.univ) (copyShim fw usbRoot esp) := by
  refine Keeps.bind (keeps_orFail ?_ _ (frame_undoCopy fw esp (brr_touched (by simp))
    (brr_touched (by simp)))) fun _ => ?_
  · exact (writes_copyFileOps fw usbRoot usbShimPath (Set.mem_univ _)).frame
  · exact (writes_copyFileOps fw usbRoot usbBadmem (Set.mem_univ _)).frame.ignore

theorem frame_registerEntry (fw : Efi) (esp : Handle) :
    Keeps (Frame touchedVars Set.univ) (registerEntry fw esp) := by
  refine Keeps.bind (keeps_orFail (frame_installBootEntryOps fw esp) _ (frame_undoEntry fw esp
    (brr_touched (by simp)) (brr_touched (by simp)))) fun slot => ?_
  exact ((frame_setVariable fw _ (brr_touched (by simp))).ignore).bind fun _ => Keeps.pure slot

theorem frame_activateEntry (fw : Efi) (esp : Handle) (slot : UInt16) :
    Keeps (Frame touchedVars Set.univ) (activateEntry fw esp slot) := by
  refine Keeps.bind (keeps_orFail (frame_prependBootOrderOps fw slot bootOrder_touched) _
    (frame_undoOrder fw esp (bootEntry_touched slot) (brr_touched (by simp))
      (brr_touched (by simp)) (brr_touched (by simp)))) fun _ => ?_
  exact (frame_setVariable fw _ (brr_touched (by simp))).ignore

/-- Also a run which fails and is rolled back touches no other variable. -/
theorem frame_installMaskFull (fw : Efi) :
    Keeps (Frame touchedVars Set.univ) (installMaskFull fw) := by
  refine (reads_findVolumes fw).frame.bind fun volumes => ?_
  refine Keeps.bind (fun m => (frame_prepareEsp fw volumes.2 m).mono backupVars_touched
    (Set.subset_univ _)) fun _ => ?_
  refine (frame_copyShim fw volumes.1 volumes.2).bind fun _ => ?_
  exact (frame_registerEntry fw volumes.2).bind fun slot => frame_activateEntry fw volumes.2 slot

end

end BankFinder.Install
