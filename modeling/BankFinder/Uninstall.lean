import BankFinder.MaskFrames

/-!
# The uninstaller

`uninstall_mask_full` runs its five phases whatever happens in them. The last one, the
sweep over all variable names, starts over after each deletion; it ends, and it leaves
no variable of ours behind but those whose deletion the firmware refuses. The saved
boot order goes with the rest, also when it could not be written back. Files are only
removed when the volume search finds the internal ESP, which it does not when the
caller was loaded from there.
-/

namespace BankFinder.Uninstall
open Nvram EfiMachine MachineFrame BootNames MaskOps MaskFrames RestartScan

section
variable {ε : Type}

/-- The machine after a step of a program. -/
def stage (x : EfiM Refusal Unit) (m : Machine) : Machine := (x m).2

/-- The machine after `uninstall_mask_full`. -/
def afterUninstall (fw : Efi) (m : Machine) : Machine := stage (uninstallMaskFull fw) m

theorem stage_bind {x : EfiM Refusal Unit} (hx : Total x) (y : EfiM Refusal Unit)
    (m : Machine) : stage (x >>= fun _ => y) m = stage y (stage x m) :=
  congrArg Prod.snd (hx.bind_run y m)

/-- There is a saved order to write back. -/
def Restorable (store : Store) : Prop :=
  (savedOrder store).1 = efiSuccess ∧ 0 < (savedOrder store).2.length

instance (store : Store) : Decidable (Restorable store) :=
  inferInstanceAs (Decidable (_ ∧ _))

theorem restoreBootOrder_run (fw : Efi) (m : Machine) :
    (restoreBootOrder fw : EfiM ε Unit) m = if Restorable m.store then
      (.ok (), (setVariable fw .global bootOrderName (savedOrder m.store).2 m).2)
      else (.ok (), m) := by
  unfold restoreBootOrder
  rw [readStore_bind]
  exact ite_apply ..

theorem deleteVars_cons (fw : Efi) (name : String) (names : List String) (m : Machine) :
    stage (deleteVars fw (name :: names)) m =
      stage (deleteVars fw names) (stage (maskNvramDelete fw name) m) :=
  stage_bind (total_maskNvramDelete fw name) (deleteVars fw names) m

/-- The machine when the sweep starts. -/
def beforeSweep (fw : Efi) (m : Machine) : Machine :=
  stage (deleteVars fw knownVars) (stage (cleanFiles fw)
    (stage (deleteBootEntry fw) (stage (restoreBootOrder fw) m)))

theorem afterUninstall_eq (fw : Efi) (m : Machine) :
    afterUninstall fw m = stage (sweep fw) (beforeSweep fw m) := by
  unfold afterUninstall uninstallMaskFull
  rw [stage_bind (total_restoreBootOrder fw), stage_bind (total_deleteBootEntry fw), cleanFiles,
    stage_bind (total_ignore _), stage_bind (total_deleteVars fw knownVars)]
  rfl

/-- A deletion that succeeds removes a variable, and nothing else changes the store. -/
theorem sweepStep_descends (fw : Efi) :
    Descends (sweepStep fw) fun m : Machine => m.store.length := by
  constructor
  · intro k m hrestart
    unfold sweepStep at hrestart ⊢
    split_ifs at hrestart ⊢
    rcases setVariable_cases fw k.1 k.2 [] m with ⟨h, -, hpresent⟩ | ⟨e, h, -⟩
    · rw [h]
      exact Store.length_set_empty (hpresent rfl)
    · rw [h] at hrestart
      exact absurd hrestart Bool.false_ne_true
  · intro k m
    unfold sweepStep
    split_ifs
    · rcases setVariable_cases fw k.1 k.2 [] m with ⟨h, -, hpresent⟩ | ⟨e, h, -⟩
      · rw [h]
        exact (Store.length_set_empty (hpresent rfl)).le
      · rw [h]
    · exact le_rfl

/-- The number of variables bounds the number of restarts. -/
theorem sweepPasses_ends (fw : Efi) (fuel : ℕ) (m : Machine) (h : m.store.length < fuel) :
    ∃ m', sweepPasses fw fuel m = some m' :=
  (sweepStep_descends fw).scan_ends fuel m h

/-- The loop of the sweep ends by its own tests: more passes change nothing. -/
theorem sweep_ended (fw : Efi) (m : Machine) (more : ℕ) :
    sweepPasses fw (m.store.length + 1 + more) m = some (stage (sweep fw) m) := by
  obtain ⟨m', h⟩ := sweepPasses_ends fw (m.store.length + 1) m (Nat.lt_succ_self _)
  rw [stage, sweep, h]
  exact scan_fuel _ more h

theorem sweepStep_store {fw : Efi} {k : Guid × String} {m : Machine}
    (h : (sweepStep fw k m).1 = false) : (sweepStep fw k m).2.store = m.store := by
  unfold sweepStep at h ⊢
  split_ifs at h ⊢
  · rcases setVariable_cases fw k.1 k.2 [] m with ⟨hrun, -⟩ | ⟨e, hrun, -⟩
    · rw [hrun] at h
      exact absurd h (by simp [Except.isOk, Except.toBool])
    · rw [hrun]
  · rfl

/-- A name of ours which the last pass delivered could not be deleted. -/
theorem sweep_left {fw : Efi} {m : Machine} {name : String}
    (h : (.brr, name) ∈ visibleNames fw (stage (sweep fw) m).store) :
    ∃ i, fw.refuseSet i .brr name [] ≠ none := by
  have hended := sweep_ended fw m 0
  obtain ⟨t, hstore, hstep⟩ := scan_last_pass Machine.store
    (fun _ _ hquiet => sweepStep_store hquiet) (fun s t hst => by rw [hst]) _ hended _ h
  have hpresent : t.store.get? .brr name ≠ none := by
    rw [hstore]
    have hlisted := (List.takeWhile_prefix _).mem h
    exact (fw.mem_enumerate _ _).mp hlisted
  unfold sweepStep at hstep
  rw [if_pos rfl] at hstep
  rcases setVariable_cases fw .brr name [] t with ⟨hrun, -⟩ | ⟨e, hrun, hwhy⟩
  · rw [hrun] at hstep
    exact absurd hstep (by simp [Except.isOk, Except.toBool])
  · rcases hwhy with hwhy | ⟨-, -, habsent, -⟩
    · exact ⟨_, by rw [hwhy]; simp⟩
    · exact absurd habsent hpresent

/-- Exactly the deletions of the variables in `R` are refused, at every attempt. -/
structure Refuses (fw : Efi) (R : Set (Guid × String)) : Prop where
  refused : ∀ k ∈ R, DeleteRefused fw k
  accepted : ∀ k ∉ R, ∀ i, fw.refuseSet i k.1 k.2 [] = none

/-- `BootOrder`, the entry which `BrrBootSlot` names, and what is ours and can be deleted. -/
def uninstallVars (R : Set (Guid × String)) (store : Store) : Set (Guid × String) :=
  {k | k = (.global, bootOrderName) ∨
    (∃ slot, savedSlot store = some slot ∧ k = (.global, bootVarName slot)) ∨
    k.1 = .brr ∧ k ∉ R}

theorem savedSlot_restore (fw : Efi) (m : Machine) :
    savedSlot (stage (restoreBootOrder fw) m).store = savedSlot m.store := by
  have hframe : Frame {(.global, bootOrderName)} Set.univ m (stage (restoreBootOrder fw) m) :=
    frame_restoreBootOrder fw (Set.mem_singleton _) m
  have hget : (stage (restoreBootOrder fw) m).store.get? .brr brrVarnameBootslot =
      m.store.get? .brr brrVarnameBootslot :=
    hframe.vars (.brr, brrVarnameBootslot) (by simp)
  unfold savedSlot
  rw [getVariable_congr hget]

theorem frame_deleteBootEntry {K : Set (Guid × String)} {F : Set (Handle × EfiPath)} (fw : Efi)
    {m : Machine} (hK : ∀ slot, savedSlot m.store = some slot → (.global, bootVarName slot) ∈ K) :
    Frame K F m (stage (deleteBootEntry fw) m) := by
  unfold stage deleteBootEntry
  rw [readStore_bind]
  cases hslot : savedSlot m.store with
  | none => exact refl_of _ m
  | some slot => exact frame_nvramDelGlobal (ε := Refusal) fw (hK slot hslot) m

/-- What the uninstaller changes, when `R` cannot be deleted. -/
theorem frame_afterUninstall (fw : Efi) {R : Set (Guid × String)}
    (hR : ∀ k ∈ R, DeleteRefused fw k) (m : Machine) :
    Frame (uninstallVars R m.store) Set.univ m (afterUninstall fw m) := by
  have hours : ∀ name, (.brr, name) ∈ uninstallVars R m.store ∨ DeleteRefused fw (.brr, name) := by
    intro name
    rcases Classical.em ((.brr, name) ∈ R) with hmem | hmem
    · exact Or.inr (hR _ hmem)
    · exact Or.inl (Or.inr (Or.inr ⟨rfl, hmem⟩))
  rw [afterUninstall_eq, beforeSweep]
  have hrestore := frame_restoreBootOrder (ε := Refusal) (K := uninstallVars R m.store)
    (F := Set.univ) fw (Or.inl rfl) m
  have hentry := frame_deleteBootEntry (K := uninstallVars R m.store) (F := Set.univ) fw
    (m := stage (restoreBootOrder fw) m)
    (fun slot hslot => Or.inr (Or.inl ⟨slot, (savedSlot_restore fw m).symm.trans hslot, rfl⟩))
  have hfiles := ((writes_cleanFiles (ε := Refusal) fw).sameVars
    (stage (deleteBootEntry fw) (stage (restoreBootOrder fw) m))).frame
      (K := uninstallVars R m.store)
  have hknown := frame_deleteVars (ε := Refusal) (K := uninstallVars R m.store) (F := Set.univ) fw
    knownVars fun name _ => hours name
  have hsweep := frame_sweep (ε := Refusal) (K := uninstallVars R m.store) (F := Set.univ) fw hours
  exact trans_of _ hrestore (trans_of _ hentry (trans_of _ hfiles
    (trans_of _ (hknown _) (hsweep _))))

/-- No variable of ours is in the store. -/
def Clean (store : Store) : Prop := ∀ name, store.get? .brr name = none

theorem Clean.getVariable {store : Store} (h : Clean store) (name : String) (cap : ℕ) :
    getVariable store .brr name cap = (efiNotFound, []) := by
  unfold Nvram.getVariable
  rw [h name]

theorem Clean.delete {fw : Efi} {m : Machine} (h : Clean m.store) (name : String) :
    (setVariable fw .brr name [] m).2.store = m.store := by
  rcases setVariable_cases fw .brr name [] m with ⟨-, -, hpresent⟩ | ⟨e, hrun, -⟩
  · exact absurd (h name) (hpresent rfl)
  · rw [hrun]

theorem Clean.deleteVars (fw : Efi) {m : Machine} (h : Clean m.store) (names : List String) :
    (stage (deleteVars fw names) m).store = m.store := by
  induction names generalizing m with
  | nil => rfl
  | cons name names ih =>
      have hstep : (stage (maskNvramDelete fw name) m).store = m.store := h.delete name
      rw [deleteVars_cons, ih (by rw [hstep]; exact h), hstep]

/-- A clean store is left as it is. -/
def CleanStays (m m' : Machine) : Prop := Clean m.store → m'.store = m.store

instance : Std.Refl CleanStays := ⟨fun _ _ => rfl⟩

instance : IsTrans Machine CleanStays :=
  ⟨fun _ _ _ h h' hclean => (h' (by rw [h hclean]; exact hclean)).trans (h hclean)⟩

theorem cleanStays_sweepStep (fw : Efi) (k : Guid × String) (m : Machine) :
    CleanStays m (sweepStep fw k m).2 := by
  intro hclean
  unfold sweepStep
  split_ifs with hbrr
  · simp only [hbrr]
    exact hclean.delete k.2
  · rfl

theorem Clean.sweep {fw : Efi} {m : Machine} (h : Clean m.store) :
    (stage (sweep fw) m).store = m.store := by
  have hended := sweep_ended fw m 0
  exact scan_induct CleanStays (cleanStays_sweepStep fw) _ hended h

/-- On a clean store the uninstaller changes nothing, whatever the firmware answers. -/
theorem Clean.afterUninstall {fw : Efi} {m : Machine} (h : Clean m.store) :
    (afterUninstall fw m).store = m.store := by
  have hread : savedOrder m.store = (efiNotFound, []) := by
    unfold savedOrder
    simp only [h.getVariable, List.length_nil, or_true, if_true]
  have hrestore : stage (restoreBootOrder fw) m = m := by
    rw [stage, restoreBootOrder_run, if_neg]
    rw [Restorable, hread]
    exact fun hlt => absurd hlt.2 (Nat.lt_irrefl 0)
  have hentry : stage (deleteBootEntry fw) m = m := by
    have hslot : savedSlot m.store = none := by
      unfold savedSlot
      rw [h.getVariable]
      rfl
    rw [stage, deleteBootEntry, readStore_bind, hslot]
    rfl
  have hfiles : (stage (cleanFiles fw) m).store = m.store :=
    ((writes_cleanFiles (ε := Refusal) fw).sameVars m).1
  have hclean : Clean (stage (cleanFiles fw) m).store := by
    rw [hfiles]
    exact h
  have hknown := hclean.deleteVars fw knownVars
  rw [afterUninstall_eq, beforeSweep, hrestore, hentry, Clean.sweep (by rw [hknown]; exact hclean), hknown,
    hfiles]

/-- None of the calls deleted our variable of this name. -/
def Spares (name : String) (calls : List SetCall) : Prop :=
  ∀ c ∈ calls, c.guid = .brr → c.name = name → c.status ≠ efiSuccess

theorem spares_append {name : String} {calls calls' : List SetCall} :
    Spares name (calls ++ calls') ↔ Spares name calls ∧ Spares name calls' :=
  List.forall_mem_append

/-- Our variables are as before, except those which the new calls on record deleted. -/
def Recorded (m m' : Machine) : Prop :=
  ∃ new, m'.sets = m.sets ++ new ∧ ∀ name,
    Spares name new ∧ m'.store.get? .brr name = m.store.get? .brr name ∨
      ¬Spares name new ∧ m'.store.get? .brr name = none

theorem SameVars.recorded {m m' : Machine} (h : SameVars m m') : Recorded m m' :=
  ⟨[], by rw [h.2, List.append_nil],
    fun name => Or.inl ⟨fun _ hc => absurd hc List.not_mem_nil, by rw [h.1]⟩⟩

instance : Std.Refl Recorded := ⟨fun m => SameVars.recorded (refl_of SameVars m)⟩

instance : IsTrans Machine Recorded := by
  constructor
  rintro m m' m'' ⟨new, hsets, hvars⟩ ⟨new', hsets', hvars'⟩
  refine ⟨new ++ new', by rw [hsets', hsets, List.append_assoc], ?_⟩
  intro name
  rw [spares_append]
  rcases hvars' name with ⟨hspares', hget'⟩ | ⟨hdeleted', hget'⟩
  · rcases hvars name with ⟨hspares, hget⟩ | ⟨hdeleted, hget⟩
    · exact Or.inl ⟨⟨hspares, hspares'⟩, hget'.trans hget⟩
    · exact Or.inr ⟨fun h => hdeleted h.1, hget'.trans hget⟩
  · exact Or.inr ⟨fun h => hdeleted' h.2, hget'⟩

theorem recorded_setGlobal (fw : Efi) (name : String) (data : List UInt8) :
    Keeps Recorded (setVariable fw .global name data) := by
  intro m
  obtain ⟨status, hsets⟩ := setVariable_sets fw .global name data m
  have hframe := frame_setVariable (K := {(.global, name)}) (F := Set.univ) fw data
    (Set.mem_singleton _) m
  refine ⟨_, hsets, fun ours => Or.inl ⟨?_, hframe.vars (.brr, ours) (by simp)⟩⟩
  intro c hc hguid
  rw [List.mem_singleton.mp hc] at hguid
  exact absurd hguid (by simp)

theorem recorded_delete (fw : Efi) (name : String) :
    Keeps Recorded (setVariable fw .brr name []) := by
  intro m
  rcases setVariable_cases fw .brr name [] m with ⟨hrun, -⟩ | ⟨e, hrun, -⟩
  · rw [hrun]
    refine ⟨_, rfl, fun ours => ?_⟩
    rcases eq_or_ne ours name with rfl | hne
    · exact Or.inr ⟨fun h => h _ (List.mem_singleton_self _) rfl rfl rfl,
        Store.get?_set_empty m.store .brr ours⟩
    · refine Or.inl ⟨?_, Store.get?_set_other m.store [] (by simpa using hne)⟩
      intro c hc _ hname
      rw [List.mem_singleton.mp hc] at hname
      exact absurd hname.symm hne
  · rw [hrun]
    refine ⟨_, rfl, fun ours => Or.inl ⟨?_, rfl⟩⟩
    intro c hc _ _
    rw [List.mem_singleton.mp hc]
    exact e.2

theorem recorded_sweepStep (fw : Efi) (k : Guid × String) (m : Machine) :
    Recorded m (sweepStep fw k m).2 := by
  unfold sweepStep
  split_ifs with hbrr
  · simp only [hbrr]
    exact recorded_delete fw k.2 m
  · exact refl_of _ m

theorem recorded_deleteVars (fw : Efi) (names : List String) (m : Machine) :
    Recorded m (stage (deleteVars fw names) m) := by
  induction names generalizing m with
  | nil => exact refl_of _ m
  | cons name names ih =>
      rw [deleteVars_cons]
      exact trans_of _ (recorded_delete fw name m) (ih _)

theorem recorded_restoreBootOrder (fw : Efi) (m : Machine) :
    Recorded m (stage (restoreBootOrder fw) m) := by
  rw [stage, restoreBootOrder_run]
  split_ifs
  · exact recorded_setGlobal fw bootOrderName _ m
  · exact refl_of _ m

theorem recorded_deleteBootEntry (fw : Efi) (m : Machine) :
    Recorded m (stage (deleteBootEntry fw) m) := by
  rw [stage, deleteBootEntry, readStore_bind]
  cases savedSlot m.store with
  | none => exact refl_of _ m
  | some slot => exact recorded_setGlobal fw (bootVarName slot) [] m

/-- The uninstaller creates no variable of ours, and its calls tell which it deleted. -/
theorem recorded_afterUninstall (fw : Efi) (m : Machine) : Recorded m (afterUninstall fw m) := by
  rw [afterUninstall_eq, beforeSweep]
  have hfiles (m : Machine) : Recorded m (stage (cleanFiles fw) m) :=
    SameVars.recorded ((writes_cleanFiles (ε := Refusal) fw).sameVars m)
  have hsweep (m : Machine) : Recorded m (stage (sweep fw) m) :=
    scan_induct Recorded (recorded_sweepStep fw) _ (sweep_ended fw m 0)
  exact trans_of _ (recorded_restoreBootOrder fw m) (trans_of _ (recorded_deleteBootEntry fw _)
    (trans_of _ (hfiles _) (trans_of _ (recorded_deleteVars fw knownVars _) (hsweep _))))

/-- Every variable name fits in the buffer of the enumeration. -/
def NamesFit (store : Store) : Prop :=
  ∀ k : Guid × String, store.get? k.1 k.2 ≠ none → k.2.length < 256

theorem NamesFit.visibleNames {store : Store} (h : NamesFit store) (fw : Efi) :
    visibleNames fw store = fw.enumerate store := by
  unfold MaskOps.visibleNames
  rw [List.takeWhile_eq_self_iff]
  intro k hk
  exact decide_eq_true (h k ((fw.mem_enumerate store k).mp hk))

theorem length_bootVarName (slot : UInt16) : (bootVarName slot).length = 8 := by
  have h := isBootEntry_bootVarName slot
  unfold isBootEntry at h
  rw [Bool.and_eq_true, Bool.and_eq_true, beq_iff_eq, beq_iff_eq] at h
  rw [← String.length_toList]
  exact h.1.2

theorem namesFit_afterUninstall (fw : Efi) {m : Machine} (h : NamesFit m.store) :
    NamesFit (afterUninstall fw m).store := by
  have hframe := frame_afterUninstall fw (R := ∅) (fun _ hk => absurd hk (Set.notMem_empty _)) m
  obtain ⟨new, -, hvars⟩ := recorded_afterUninstall fw m
  intro k hk
  rcases Classical.em (k ∈ uninstallVars ∅ m.store) with hmem | hmem
  · rcases hmem with rfl | ⟨slot, -, rfl⟩ | ⟨hbrr, -⟩
    · decide
    · rw [length_bootVarName]
      decide
    · rcases hvars k.2 with ⟨-, hget⟩ | ⟨-, hget⟩
      · rw [hbrr, hget, ← hbrr] at hk
        exact h k hk
      · rw [hbrr] at hk
        exact absurd hget hk
  · rw [hframe.vars k hmem] at hk
    exact h k hk

/-- From any store, and whatever set of variables the firmware will not delete, the sweep
ends, only refused variables of ours remain, nothing else changes but the boot order and
the recorded entry, and after a full clean-up a second run changes nothing. -/
theorem uninstall_cleans {fw : Efi} {R : Set (Guid × String)} (hR : Refuses fw R) (m : Machine)
    (hnames : NamesFit m.store) :
    (∀ more, sweepPasses fw ((beforeSweep fw m).store.length + 1 + more) (beforeSweep fw m) =
      some (afterUninstall fw m)) ∧
    (∀ name, (afterUninstall fw m).store.get? .brr name ≠ none → (.brr, name) ∈ R) ∧
    (∀ k ∉ uninstallVars R m.store,
      (afterUninstall fw m).store.get? k.1 k.2 = m.store.get? k.1 k.2) ∧
    (R = ∅ → ∀ fw' : Efi,
      (afterUninstall fw' (afterUninstall fw m)).store = (afterUninstall fw m).store) := by
  have hleft : ∀ name, (afterUninstall fw m).store.get? .brr name ≠ none → (.brr, name) ∈ R := by
    intro name hpresent
    have hlisted : (.brr, name) ∈ visibleNames fw (afterUninstall fw m).store := by
      rw [(namesFit_afterUninstall fw hnames).visibleNames, fw.mem_enumerate]
      exact hpresent
    rw [afterUninstall_eq] at hlisted
    obtain ⟨i, hrefused⟩ := sweep_left hlisted
    by_contra hnot
    exact hrefused (hR.accepted _ hnot i)
  refine ⟨?_, hleft, (frame_afterUninstall fw hR.refused m).vars, ?_⟩
  · intro more
    rw [afterUninstall_eq]
    exact sweep_ended fw (beforeSweep fw m) more
  · intro hempty fw'
    have hclean : Clean (afterUninstall fw m).store := by
      intro name
      by_contra hpresent
      have hmem := hleft name hpresent
      rw [hempty] at hmem
      exact hmem
    exact hclean.afterUninstall

/-- An installation whose own entry, slot `0x0100`, heads the boot order. -/
def installedStore : Store :=
  [⟨.global, bootOrderName, [0x00, 0x01, 0x80, 0x00]⟩, ⟨.brr, brrVarnameOrigboot, [0x80, 0x00]⟩,
    ⟨.brr, brrVarnameBootslot, [0x00, 0x01]⟩]

def installedMachine : Machine := ⟨installedStore, fun _ => ∅, [], 0⟩

/-- Firmware which will not delete the saved boot order. -/
def backupLocked : Efi where
  __ := plainEfi 1 []
  refuseSet _ guid name data :=
    if (guid, name) = (.brr, brrVarnameOrigboot) ∧ data = [] then some accessDenied else none

theorem refuses_backupLocked : Refuses backupLocked {(.brr, brrVarnameOrigboot)} := by
  constructor
  · intro k hk i
    simp [backupLocked, Set.mem_singleton_iff.mp hk]
  · intro k hk i
    simp only [backupLocked, and_true]
    exact if_neg hk

/-- The locked variable is the only one of ours which can remain. -/
theorem uninstall_cleans_installed :
    (afterUninstall backupLocked installedMachine).store.get? .brr brrVarnameBootslot = none := by
  have hnames : NamesFit installedStore := by
    intro k hk
    rw [← mem_storeNames] at hk
    revert k
    decide +kernel
  by_contra hpresent
  have hlocked := (uninstall_cleans refuses_backupLocked installedMachine hnames).2.1 _ hpresent
  exact absurd (Set.mem_singleton_iff.mp hlocked) (by decide)

/-- The variable which holds the boot order from before the installation. -/
def savedVariable (store : Store) : String :=
  match store.get? .brr brrVarnameOrigboot with
  | some (_ :: _) => brrVarnameOrigboot
  | _ => brrVarnameOrigbootLegacy

/-- What the restore leaves in `BootOrder`, by what was saved and by the answer to the one
write. -/
def restoredOrder (fw : Efi) (m : Machine) : Option (List UInt8) :=
  if Restorable m.store ∧
      fw.refuseSet m.sets.length .global bootOrderName (savedOrder m.store).2 = none then
    some (savedOrder m.store).2
  else m.store.get? .global bootOrderName

/-- A saved order is in `BootOrder` afterwards, or it is still saved. -/
def KeepsBackup (fw : Efi) (m : Machine) : Prop :=
  ∀ order, m.store.get? .brr (savedVariable m.store) = some order →
    (afterUninstall fw m).store.get? .global bootOrderName ≠ some order →
    (afterUninstall fw m).store.get? .brr (savedVariable m.store) = some order

theorem stage_restoreBootOrder_order (fw : Efi) (m : Machine) :
    (stage (restoreBootOrder fw) m).store.get? .global bootOrderName = restoredOrder fw m := by
  rw [stage, restoreBootOrder_run]
  unfold restoredOrder
  split_ifs with hrestorable hboth hboth
  · have hne : (savedOrder m.store).2 ≠ [] := List.ne_nil_of_length_pos hrestorable.2
    have hstored := setVariable_stored (m := m) hboth.2
    rwa [stored, if_neg hne] at hstored
  · rcases setVariable_cases fw .global bootOrderName (savedOrder m.store).2 m with
      ⟨-, haccept, -⟩ | ⟨e, hrun, -⟩
    · exact absurd ⟨hrestorable, haccept⟩ hboth
    · rw [hrun]
  · exact absurd hboth.1 hrestorable
  · rfl

/-- Only our own variables are touched after the second phase. -/
theorem vars_afterUninstall (fw : Efi) (m : Machine) {k : Guid × String} (hk : k.1 ≠ .brr) :
    (afterUninstall fw m).store.get? k.1 k.2 =
      (stage (deleteBootEntry fw) (stage (restoreBootOrder fw) m)).store.get? k.1 k.2 := by
  have hlast (m : Machine) : Frame {k | k.1 = .brr} Set.univ m (stage (sweep fw)
      (stage (deleteVars fw knownVars) (stage (cleanFiles fw) m))) := by
    have hfiles := ((writes_cleanFiles (ε := Refusal) fw).sameVars m).frame (K := {k | k.1 = .brr})
    have hknown := frame_deleteVars (ε := Refusal) (K := {k | k.1 = .brr}) (F := Set.univ) fw
      knownVars fun _ _ => Or.inl rfl
    have hsweep := frame_sweep (ε := Refusal) (K := {k | k.1 = .brr}) (F := Set.univ) fw
      fun _ => Or.inl rfl
    exact trans_of _ hfiles (trans_of _ (hknown _) (hsweep _))
  rw [afterUninstall_eq, beforeSweep]
  exact (hlast _).vars k hk

theorem bootOrder_afterUninstall (fw : Efi) (m : Machine) :
    (afterUninstall fw m).store.get? .global bootOrderName = restoredOrder fw m := by
  have hentry := frame_deleteBootEntry (K := {(.global, bootOrderName)}ᶜ) (F := Set.univ) fw
    (m := stage (restoreBootOrder fw) m) fun slot _ => by simp [bootVarName_ne_bootOrder]
  rw [vars_afterUninstall fw m (k := (.global, bootOrderName)) (by simp),
    hentry.vars (.global, bootOrderName) (by simp), stage_restoreBootOrder_order]

/-- The recorded entry is deleted. -/
theorem bootEntry_afterUninstall {fw : Efi} {m : Machine} {slot : UInt16}
    (hslot : savedSlot m.store = some slot)
    (haccept : ∀ i, fw.refuseSet i .global (bootVarName slot) [] = none) :
    (afterUninstall fw m).store.get? .global (bootVarName slot) = none := by
  rw [vars_afterUninstall fw m (k := (.global, bootVarName slot)) (by simp), stage,
    deleteBootEntry, readStore_bind, savedSlot_restore, hslot]
  exact setVariable_stored (haccept _)

theorem Recorded.none {m m' : Machine} (h : Recorded m m') {name : String}
    (hnone : m.store.get? .brr name = none) : m'.store.get? .brr name = none := by
  obtain ⟨new, -, hvars⟩ := h
  rcases hvars name with ⟨-, hget⟩ | ⟨-, hget⟩
  · exact hget.trans hnone
  · exact hget

theorem deleteVars_gone {fw : Efi} {name : String}
    (haccept : ∀ i, fw.refuseSet i .brr name [] = none) {names : List String}
    (hmem : name ∈ names) (m : Machine) :
    (stage (deleteVars fw names) m).store.get? .brr name = none := by
  induction names generalizing m with
  | nil => exact absurd hmem List.not_mem_nil
  | cons n names ih =>
      rw [deleteVars_cons]
      rcases List.mem_cons.mp hmem with rfl | hmem
      · exact (recorded_deleteVars fw names _).none (setVariable_stored (haccept _))
      · exact ih hmem _

/-- The variables which are deleted by name are gone even if the sweep misses them. -/
theorem knownVar_afterUninstall {fw : Efi} {name : String} (hmem : name ∈ knownVars)
    (haccept : ∀ i, fw.refuseSet i .brr name [] = none) (m : Machine) :
    (afterUninstall fw m).store.get? .brr name = none := by
  rw [afterUninstall_eq]
  exact (scan_induct Recorded (recorded_sweepStep fw) _ (sweep_ended fw _ 0)).none
    (deleteVars_gone haccept hmem _)

/-- The saved order is in `BootOrder` once the restore is done. -/
def Restored (fw : Efi) (m : Machine) : Prop :=
  ∀ order, m.store.get? .brr (savedVariable m.store) = some order →
    restoredOrder fw m = some order

theorem keepsBackup_iff_spares (fw : Efi) (m : Machine) :
    KeepsBackup fw m ↔ Restored fw m ∨
      Spares (savedVariable m.store) ((afterUninstall fw m).sets.drop m.sets.length) := by
  obtain ⟨new, hsets, hvars⟩ := recorded_afterUninstall fw m
  have hnew : (afterUninstall fw m).sets.drop m.sets.length = new := by
    rw [hsets, List.drop_left]
  unfold KeepsBackup Restored
  rw [hnew, bootOrder_afterUninstall, ← forall_or_right]
  apply forall_congr'
  intro order
  rcases hvars (savedVariable m.store) with ⟨hspares, hget⟩ | ⟨hdeleted, hget⟩
  · rw [hget]
    exact iff_of_true (fun hsaved _ => hsaved) (Or.inr hspares)
  · rw [hget, or_iff_left hdeleted]
    apply imp_congr_right
    intro _
    simp

theorem savedVariable_known (store : Store) : savedVariable store ∈ knownVars := by
  unfold savedVariable
  split
  · decide
  · decide

theorem savedVariable_notMem (store : Store) :
    (Guid.brr, savedVariable store) ∉ uninstallVars {(.brr, savedVariable store)} store := by
  rintro (h | ⟨slot, -, h⟩ | ⟨-, h⟩)
  · cases h
  · cases h
  · exact h rfl

/-- A saved order which the restore did not bring back is lost exactly when the firmware then
accepts a deletion of the variable which holds it: never where it refuses each of them, and
always where it refuses none. -/
theorem backup_kept_iff (fw : Efi) (m : Machine) :
    (KeepsBackup fw m ↔ Restored fw m ∨
      Spares (savedVariable m.store) ((afterUninstall fw m).sets.drop m.sets.length)) ∧
    (DeleteRefused fw (.brr, savedVariable m.store) → KeepsBackup fw m) ∧
    ((∀ i, fw.refuseSet i .brr (savedVariable m.store) [] = none) →
      (KeepsBackup fw m ↔ Restored fw m)) := by
  refine ⟨keepsBackup_iff_spares fw m, ?_, ?_⟩
  · intro hrefused order hsaved _
    have hframe := frame_afterUninstall fw (R := {(.brr, savedVariable m.store)})
      (fun k hk => Set.mem_singleton_iff.mp hk ▸ hrefused) m
    exact (hframe.vars _ (savedVariable_notMem m.store)).trans hsaved
  · intro haccept
    have hgone := knownVar_afterUninstall (savedVariable_known m.store) haccept m
    unfold KeepsBackup Restored
    rw [hgone, bootOrder_afterUninstall]
    apply forall_congr'
    intro order
    apply imp_congr_right
    intro _
    simp

/-- Firmware which lets everything be deleted but does not accept a new `BootOrder`. -/
def orderLocked : Efi where
  __ := plainEfi 1 []
  refuseSet _ guid name _ :=
    if guid = .global ∧ name = bootOrderName then some accessDenied else none

theorem backup_lost_when_order_locked : ¬∀ fw m, KeepsBackup fw m := by
  intro h
  have hkept := h orderLocked installedMachine [0x80, 0x00] (by decide +kernel)
    (by decide +kernel)
  exact absurd hkept (by decide +kernel)

end

end BankFinder.Uninstall
