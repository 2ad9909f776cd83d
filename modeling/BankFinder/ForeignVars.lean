import BankFinder.StateHistory

/-!
# What belongs to others

The programs write the boot order and their own variables, and they create and delete boot
entries. A boot entry which was there before, and every variable which is neither ours nor
the boot order, is the same after any sequence of runs: new entries only take free slots,
and the slot which the uninstaller deletes is one that the installer took or found recorded.
-/

namespace BankFinder.ForeignVars
open LittleEndian Nvram EfiMachine MachineFrame BootNames BootSession MaskOps MaskFrames BadPages
open Uninstall Install MaskInstall BrrEntry LabelledRuns SavedList InstallTriples StateHistory

/-- The variable belongs to somebody else: it is neither ours nor the boot order, and a boot
entry was there at first and is not the one recorded as the shim's. -/
def Foreign (first : Store) (k : Guid × String) : Prop :=
  k.1 ≠ .brr ∧ k ≠ (.global, bootOrderName) ∧
    (k.1 = .global → isBootEntry k.2 = true → first.get? k.1 k.2 ≠ none ∧
      ∀ slot, savedSlot first = some slot → k.2 ≠ bootVarName slot)

/-- What belongs to others is as it was, and the recorded slot is not theirs. -/
structure Spared (first store : Store) : Prop where
  vars : ∀ k, Foreign first k → store.get? k.1 k.2 = first.get? k.1 k.2
  slot : ∀ slot, savedSlot store = some slot → ¬Foreign first (.global, bootVarName slot)

section
variable {first s s' : Store}

theorem Spared.refl (first : Store) : Spared first first := by
  refine ⟨fun _ _ => rfl, ?_⟩
  intro slot hslot hforeign
  obtain ⟨-, hother⟩ := hforeign.2.2 rfl (isBootEntry_bootVarName slot)
  exact hother slot hslot rfl

theorem not_foreign_brr (name : String) : ¬Foreign first (.brr, name) := fun h => h.1 rfl

theorem not_foreign_bootOrder : ¬Foreign first (.global, bootOrderName) := fun h => h.2.1 rfl

/-- Changes to what is not foreign, with the recorded slot left alone. -/
theorem Spared.agree (h : Spared first s) {K : Set (Guid × String)}
    (hK : ∀ k ∈ K, ¬Foreign first k) (hslot : (.brr, brrVarnameBootslot) ∉ K)
    (hagree : Agree K s s') : Spared first s' := by
  constructor
  · intro k hk
    rw [hagree k fun hmem => hK k hmem hk]
    exact h.vars k hk
  · have hget : s'.get? .brr brrVarnameBootslot = s.get? .brr brrVarnameBootslot :=
      hagree (.brr, brrVarnameBootslot) hslot
    intro slot hsaved
    rw [savedSlot, getVariable_congr hget] at hsaved
    exact h.slot slot hsaved

/-- Writing one of our variables, but not the record of the slot. -/
theorem Spared.set_brr (h : Spared first s) {name : String} (data : List UInt8)
    (hname : name ≠ brrVarnameBootslot) : Spared first (s.set .brr name data) := by
  refine h.agree (K := {(.brr, name)}) ?_ (by simp [hname.symm]) ?_
  · intro k hk
    rw [Set.mem_singleton_iff.mp hk]
    exact not_foreign_brr name
  · exact fun k hk => Store.get?_set_other s data hk

/-- A slot which is free now was free at first, or its entry has been ours. -/
theorem Spared.free (h : Spared first s) {slot : UInt16}
    (hfree : s.get? .global (bootVarName slot) = none) :
    ¬Foreign first (.global, bootVarName slot) := by
  intro hforeign
  obtain ⟨hthere, -⟩ := hforeign.2.2 rfl (isBootEntry_bootVarName slot)
  have hsame : s.get? .global (bootVarName slot) = first.get? .global (bootVarName slot) :=
    h.vars _ hforeign
  rw [hfree] at hsame
  exact hthere hsame.symm

theorem savedSlot_set (s : Store) (slot : UInt16) :
    savedSlot (s.set .brr brrVarnameBootslot (encode 2 slot.toNat)) = some slot := by
  have hlength : (encode 2 slot.toNat).length ≤ 2 := (length_encode 2 slot.toNat).le
  have hget := getVariable_fits (Store.get?_set s .brr brrVarnameBootslot
    (slotBytes_ne_nil slot)) hlength
  have hlt := slot.toNat_lt
  rw [savedSlot, hget, if_pos rfl]
  simp only
  rw [decode_encode_of_lt (by simpa using hlt), UInt16.ofNat_toNat]

theorem Spared.vars_set_brr (h : Spared first s) (name : String) (data : List UInt8)
    {k : Guid × String} (hk : Foreign first k) :
    (s.set .brr name data).get? k.1 k.2 = first.get? k.1 k.2 := by
  rw [Store.get?_set_other s data fun heq => hk.1 (congrArg Prod.fst heq)]
  exact h.vars k hk

theorem Spared.record (h : Spared first s) {slot : UInt16}
    (hours : ¬Foreign first (.global, bootVarName slot)) :
    Spared first (s.set .brr brrVarnameBootslot (encode 2 slot.toNat)) := by
  constructor
  · exact fun k hk => h.vars_set_brr _ _ hk
  · intro slot' hsaved
    rw [savedSlot_set] at hsaved
    rwa [← Option.some.inj hsaved]

theorem Spared.unrecord (h : Spared first s) : Spared first (s.set .brr brrVarnameBootslot []) := by
  constructor
  · exact fun k hk => h.vars_set_brr _ _ hk
  · intro slot hsaved
    have hgone := (getVariable_notFound_iff (s.set .brr brrVarnameBootslot []) .brr
      brrVarnameBootslot 2).mpr (Store.get?_set_empty s .brr brrVarnameBootslot)
    rw [savedSlot, hgone, if_neg (by decide)] at hsaved
    cases hsaved

end

/-- Every write of the installer spares what belongs to others. -/
theorem spared_withstands (first : Store) : WithstandsInstall (Spared first)
    fun slot => ¬Foreign first (.global, bootVarName slot) where
  backups hagree h := by
    refine h.agree (K := backupVars) ?_ (by simp [backupVars]; decide) hagree
    intro k hk hforeign
    have hbrr : k.1 = .brr := by
      rcases hk with rfl | hk
      · rfl
      · rw [Set.mem_singleton_iff.mp hk]
    exact hforeign.1 hbrr
  free _ hfree h := h.free hfree
  entry slot hours hagree h := by
    refine h.agree ?_ (by simp) hagree
    intro k hk
    rw [Set.mem_singleton_iff.mp hk]
    exact hours
  record _ hours h := h.record hours
  unrecord h := h.unrecord
  order hagree h := by
    refine h.agree ?_ (by simp) hagree
    intro k hk
    rw [Set.mem_singleton_iff.mp hk]
    exact not_foreign_bootOrder
  state h := h.set_brr _ (by decide)

theorem spared_afterUninstall (fw : Efi) {first : Store} {m : Machine} (h : Spared first m.store) :
    Spared first (afterUninstall fw m).store := by
  have hframe := frame_afterUninstall fw (R := ∅) (fun _ hk => absurd hk (Set.notMem_empty _)) m
  obtain ⟨_, -, hvars⟩ := recorded_afterUninstall fw m
  constructor
  · intro k hk
    have houtside : k ∉ uninstallVars ∅ m.store := by
      intro hmem
      rcases hmem with rfl | ⟨slot, hslot, rfl⟩ | ⟨hbrr, -⟩
      · exact not_foreign_bootOrder hk
      · exact h.slot slot hslot hk
      · exact hk.1 hbrr
    rw [hframe.vars k houtside]
    exact h.vars k hk
  · intro slot hsaved
    rcases hvars brrVarnameBootslot with ⟨-, hkept⟩ | ⟨-, hgone⟩
    · rw [savedSlot, getVariable_congr hkept] at hsaved
      exact h.slot slot hsaved
    · have hread := (getVariable_notFound_iff (afterUninstall fw m).store .brr
        brrVarnameBootslot 2).mpr hgone
      rw [savedSlot, hread, if_neg (by decide)] at hsaved
      cases hsaved

/-- So does every other write of the four programs, and an uninstallation. -/
theorem spared_withstandsPrograms (first : Store) : WithstandsPrograms (Spared first)
    fun slot => ¬Foreign first (.global, bootVarName slot) where
  install := spared_withstands first
  trial _ h := h.set_brr _ (by decide)
  list _ _ h := h.set_brr _ (by decide)
  probe hagree h := by
    refine h.agree ?_ (by simp; decide) hagree
    intro k hk
    rw [Set.mem_singleton_iff.mp hk]
    exact not_foreign_brr _
  confirmed _ h := h.set_brr _ (by decide)
  uninstall fw _ h := spared_afterUninstall fw h

/-- Over any sequence of runs, with any input and any firmware failures, what belongs to
others stays as it was. -/
theorem foreign_vars_survive {first last : Store} {runs : List ProgramRun}
    (h : Run programStep first runs last) :
    ∀ k, Foreign first k → last.get? k.1 k.2 = first.get? k.1 k.2 := by
  have hstep (s : Store) (r : ProgramRun) (t : Store) (_ : True) (hs : Spared first s)
      (h : programStep s r t) : Spared first t :=
    kept_by_programStep (spared_withstandsPrograms first) h hs
  have hlast : Spared first last := h.invariant hstep (fun _ _ => trivial) (.refl first)
  exact hlast.vars

/-- The entry which macOS boots from, over an installation and its confirmation. -/
theorem foreign_vars_survive_fresh :
    (confirmRun InstallUndo.usbEfi InstallUndo.freshComputer).after.get? .global "Boot0080" =
      some [0x01] := by
  have hforeign : Foreign InstallUndo.freshComputer.store (.global, "Boot0080") := by
    refine ⟨by decide, by decide, fun _ _ => ⟨by decide, ?_⟩⟩
    intro slot hslot
    have hnone : savedSlot InstallUndo.freshComputer.store = none := by decide
    rw [hnone] at hslot
    cases hslot
  exact (foreign_vars_survive (installed_and_confirmed _ _) _ hforeign).trans (by decide)

end BankFinder.ForeignVars
