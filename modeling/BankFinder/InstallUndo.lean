import BankFinder.Install

/-!
# Undoing an installation

After one installation the uninstaller restores the boot order and removes the entry.
The installer does not ask whether it has run before: every further run finds another
free slot and adds an entry, and saves a boot order which contains the earlier one.
-/

namespace BankFinder.InstallUndo
open LittleEndian Nvram EfiMachine MachineFrame BootNames MaskOps Uninstall UninstallFiles Install

/-- No variable write or deletion is refused. -/
def AcceptsAll (fw : Efi) : Prop := ∀ i guid name data, fw.refuseSet i guid name data = none

theorem savedOrder_of_backup {store : Store} {order : List UInt8}
    (h : store.get? .brr brrVarnameOrigboot = some order) (hne : order ≠ [])
    (hlength : order.length ≤ orderBufSize) : savedOrder store = (efiSuccess, order) := by
  have hread := getVariable_fits h hlength
  have hpos := List.length_pos_of_ne_nil hne
  unfold savedOrder
  simp only [hread]
  rw [if_neg]
  rw [not_or]
  exact ⟨not_not.mpr rfl, Nat.pos_iff_ne_zero.mp hpos⟩

theorem savedSlot_of_record {store : Store} {slot : UInt16}
    (h : store.get? .brr brrVarnameBootslot = some (encode 2 slot.toNat)) :
    savedSlot store = some slot := by
  have hread := getVariable_fits h (length_encode 2 slot.toNat).le
  have hlt : slot.toNat < 256 ^ 2 := slot.toNat_lt
  unfold savedSlot
  simp only [hread, if_true, decode_encode_of_lt hlt]
  rw [UInt16.ofNat_toNat]

/-- The variables which an installation writes for its own purposes. -/
def auxiliaryVars : List String :=
  [MaskShim.brrVarnameState, brrVarnameOrigboot, brrVarnameBootentries, brrVarnameBootslot]

theorem auxiliaryVars_known : ∀ name ∈ auxiliaryVars, name ∈ knownVars := by decide

/-- A boot order which could be saved comes back, and with it every variable of another
vendor, all boot entries among them; what the installation kept for itself is gone. -/
theorem uninstall_undoes_install {fw fw' : Efi} (hfw : AcceptsAll fw) (hfw' : AcceptsAll fw')
    {m m₁ m₂ : Machine} {order : List UInt8}
    (horder : m.store.get? .global bootOrderName = some order) (hne : order ≠ [])
    (hlength : order.length ≤ orderBufSize) (hinstall : installMaskFull fw m = (.ok (), m₁))
    (hstore : m₂.store = m₁.store) :
    (afterUninstall fw' m₂).store.get? .global bootOrderName = some order ∧
      (∀ guid name, guid ≠ .brr →
        (afterUninstall fw' m₂).store.get? guid name = m.store.get? guid name) ∧
      ∀ name ∈ auxiliaryVars, (afterUninstall fw' m₂).store.get? .brr name = none := by
  obtain ⟨slot, hinstalled⟩ := installed_of_ok hinstall
  have hbackup := hinstalled.backup order horder hne hlength fun i => hfw i _ _ _
  have hslot := savedSlot_of_record (hinstalled.record fun i => hfw i _ _ _)
  rw [← hstore] at hbackup hslot
  have hrestored : (afterUninstall fw' m₂).store.get? .global bootOrderName = some order := by
    have hsaved := savedOrder_of_backup hbackup hne hlength
    have hrestorable : Restorable m₂.store := by
      unfold Restorable
      rw [hsaved]
      exact ⟨rfl, List.length_pos_of_ne_nil hne⟩
    rw [bootOrder_afterUninstall, restoredOrder, if_pos ⟨hrestorable, hfw' _ _ _ _⟩, hsaved]
  refine ⟨hrestored, ?_, ?_⟩
  · intro guid name hguid
    rcases Classical.em ((guid, name) = (.global, bootOrderName)) with hkey | hkey
    · cases hkey
      rw [hrestored, horder]
    rcases Classical.em ((guid, name) = (.global, bootVarName slot)) with hkey' | hkey'
    · cases hkey'
      rw [bootEntry_afterUninstall hslot fun i => hfw' i _ _ _]
      exact hinstalled.free.symm
    · have huninstall : (guid, name) ∉ uninstallVars ∅ m₂.store := by
        simp only [uninstallVars, Set.mem_ofPred_eq, not_or, not_exists, not_and]
        refine ⟨hkey, ?_, fun hbrr => absurd hbrr hguid⟩
        intro slot' hslot'
        rw [hslot] at hslot'
        rw [← Option.some.inj hslot']
        exact hkey'
      have hinstallVars : (guid, name) ∉ installVars slot := by
        simp [installVars, backupVars, entryVars, orderVars, hguid, hkey, hkey']
      have hframe := frame_afterUninstall fw' (R := ∅)
        (fun _ hk => absurd hk (Set.notMem_empty _)) m₂
      rw [hframe.vars (guid, name) huninstall, hstore]
      exact hinstalled.vars (guid, name) hinstallVars
  · intro name hmem
    exact knownVar_afterUninstall (auxiliaryVars_known name hmem) (fun i => hfw' i _ _ _) m₂

/-- A USB stick with the shim on it. -/
def usbTree : FileTree :=
  .ofList [(["EFI"], .directory), (["EFI", "BOOT"], .directory), (usbShimPath, .file [0x4d])]

/-- A Mac which has booted from one entry so far. -/
def freshStore : Store := [⟨.global, bootOrderName, [0x80, 0x00]⟩, ⟨.global, "Boot0080", [0x01]⟩]

def freshComputer : Machine :=
  ⟨freshStore, fun h => if h = 1 then usbTree else .ofList [(["EFI"], .directory)], [], 0⟩

def usbEfi : Efi := plainEfi 1 [usbStick, internalDisk]

theorem run_of_ok {ε α : Type} {x : EfiM ε α} {m : Machine} {a : α} (h : (x m).1 = .ok a) :
    x m = (.ok a, (x m).2) := Prod.ext h rfl

def onceInstalled : Machine := (installMaskFull usbEfi freshComputer).2
def twiceInstalled : Machine := (installMaskFull usbEfi onceInstalled).2

theorem install_once : installMaskFull usbEfi freshComputer = (.ok (), onceInstalled) :=
  run_of_ok (by decide +kernel)

theorem install_twice : installMaskFull usbEfi onceInstalled = (.ok (), twiceInstalled) :=
  run_of_ok (by decide +kernel)

theorem uninstall_undoes_install_fresh :
    (afterUninstall usbEfi onceInstalled).store.get? .global
      bootOrderName = some [0x80, 0x00] :=
  (@uninstall_undoes_install usbEfi usbEfi (fun _ _ _ _ => rfl) (fun _ _ _ _ => rfl)
    freshComputer _ onceInstalled [0x80, 0x00] (by decide +kernel) (by decide) (by decide)
    install_once rfl).1

/-- A boot entry which starts the installed shim. -/
def ShimEntry (store : Store) (name : String) : Prop :=
  isBootEntry name = true ∧ ∃ data, store.get? .global name = some data ∧ PointsAtShim data

/-- From one store to another by one or more successful installations; between them
everything but the variables may change. -/
inductive Installs : Store → Store → Prop
  | once {fw : Efi} {m m' : Machine} : installMaskFull fw m = (.ok (), m') →
      Installs m.store m'.store
  | again {store : Store} {fw : Efi} {m m' : Machine} : Installs store m.store →
      installMaskFull fw m = (.ok (), m') → Installs store m'.store

/-- What a safe further installation would leave: the backup of the first boot order, at
most one entry, and a store which the uninstaller brings back. -/
structure ReinstallSafe (first last : Store) : Prop where
  backup : last.get? .brr brrVarnameOrigboot = first.get? .global bootOrderName
  entries : ∀ a b, ShimEntry last a → ShimEntry last b → a = b
  uninstalls : ∀ fw m, AcceptsAll fw → m.store = last →
    (afterUninstall fw m).store.get? .global bootOrderName = first.get? .global bootOrderName ∧
      ∀ name, ¬ShimEntry (afterUninstall fw m).store name

theorem isBootEntry_iff_vars {slot : UInt16} {name : String} (hname : isBootEntry name = true)
    (hne : name ≠ bootVarName slot) : (Guid.global, name) ∉ installVars slot := by
  have horder : name ≠ bootOrderName := by
    rintro rfl
    rw [isBootEntry_bootOrder] at hname
    exact Bool.false_ne_true hname
  simp [installVars, backupVars, entryVars, orderVars, hne, horder]

/-- A run adds an entry and keeps the entries there were. -/
theorem shimEntry_of_installed {fw : Efi} {m m' : Machine} {slot : UInt16}
    (h : Installed fw m m' slot) : ShimEntry m'.store (bootVarName slot) :=
  ⟨isBootEntry_bootVarName slot, h.entry⟩

theorem shimEntry_kept {fw : Efi} {m m' : Machine} {slot : UInt16} (h : Installed fw m m' slot)
    {name : String} (hentry : ShimEntry m.store name) :
    name ≠ bootVarName slot ∧ ShimEntry m'.store name := by
  obtain ⟨hname, data, hget, hpoints⟩ := hentry
  have hne : name ≠ bootVarName slot := by
    rintro rfl
    rw [h.free] at hget
    exact absurd hget (by simp)
  exact ⟨hne, hname, data, (h.vars (.global, name) (isBootEntry_iff_vars hname hne)).trans hget,
    hpoints⟩

theorem Installs.shimEntry {first last : Store} (h : Installs first last) :
    ∃ name, ShimEntry last name := by
  cases h with
  | once hrun =>
      obtain ⟨slot, hinstalled⟩ := installed_of_ok hrun
      exact ⟨_, shimEntry_of_installed hinstalled⟩
  | again _ hrun =>
      obtain ⟨slot, hinstalled⟩ := installed_of_ok hrun
      exact ⟨_, shimEntry_of_installed hinstalled⟩

/-- No further installation is safe: it always leaves two entries for the shim. -/
theorem reinstall_never_safe {first : Store} {fw : Efi} {m m' : Machine}
    (hfirst : Installs first m.store) (hrun : installMaskFull fw m = (.ok (), m')) :
    ¬ReinstallSafe first m'.store := by
  intro hsafe
  obtain ⟨name, hentry⟩ := hfirst.shimEntry
  obtain ⟨slot, hinstalled⟩ := installed_of_ok hrun
  obtain ⟨hne, hkept⟩ := shimEntry_kept hinstalled hentry
  exact hne (hsafe.entries _ _ hkept (shimEntry_of_installed hinstalled))

theorem reinstall_never_safe_fresh : ¬ReinstallSafe freshStore twiceInstalled.store :=
  reinstall_never_safe (.once install_once) install_twice

/-- The second run saves the boot order of the first, which starts with the slot of the
first entry. -/
theorem second_install_saves_own_slot : ¬∀ (first : Store) (fw : Efi) (m m' : Machine),
    Installs first m.store → installMaskFull fw m = (.ok (), m') →
      ReinstallSafe first m'.store := by
  intro h
  have hsafe := h freshStore usbEfi onceInstalled twiceInstalled
    (.once install_once) install_twice
  exact absurd hsafe.backup (by decide +kernel)

end BankFinder.InstallUndo
