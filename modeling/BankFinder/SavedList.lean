import BankFinder.AutoInstall
import BankFinder.MaskInstall

/-!
# The saved list over all runs

Four programs share the variables. Whatever they are asked, whatever the firmware answers
and wherever it fails, the list in `BrrBadPages` changes in two ways only: a newly typed
list which was confirmed replaces it, and an uninstallation which was asked for deletes it.
The list alone is the state of the abstract system, and every run of a program is one of
its steps.
-/

namespace BankFinder.SavedList
open Nvram EfiMachine MachineFrame BootSession MaskOps BadPages AddressEntry Uninstall Install
open MaskInstall BrrEntry InstallUndo AutoInstall LabelledRuns

/-- A program with what it meets: its firmware, its keys, and what else it looks at. -/
inductive Program : Type 1 where
  | brrEntry (fw : Efi) (polls : List Poll)
  | maskShim {σ : Type} (env : MaskShim.ShimEnv σ) (fw : Efi) (mem : σ) (keys : List UInt16)
  | installEfi (fw : Efi) (loadOptions : Option (List UInt16)) (polls : List Poll)
  | revertEfi (fw : Efi) (polls : List Poll)

/-- The uninstaller on the variables of a session of the shim. -/
def uninstallFrom {σ : Type} (fw : Efi) (m : Machine) (s : Session σ) : Session σ :=
  { s with nvram := (afterUninstall fw { m with store := s.nvram }).store }

structure ProgramRun : Type 1 where
  program : Program
  before : Machine

/-- The variables after the run, however it ends. -/
def ProgramRun.after (r : ProgramRun) : Store :=
  match r.program with
  | .brrEntry fw polls => (efiMain fw polls r.before).2.store
  | .maskShim env fw mem keys =>
      (MaskShim.efiMain { env with uninstallMaskFull := uninstallFrom fw r.before }
        (Session.start mem r.before.store keys)).2.nvram
  | .installEfi fw loadOptions polls => (installMain fw loadOptions polls r.before).2.store
  | .revertEfi fw polls => (revertMain fw polls r.before).2.store

def programStep (store : Store) (r : ProgramRun) (store' : Store) : Prop :=
  r.before.store = store ∧ r.after = store'

/-- A line was typed, it gives the list, and Y was the answer to it. -/
def ConfirmedList (polls : List Poll) (pas : List UInt64) : Prop :=
  ∃ line rest, readLine lineCap [] polls = some (line, rest) ∧
    parseAddresses line pasCap = some pas ∧ confirmPrompt rest = some true

/-- The address prompt may come after the offer of the saved list. -/
def SavesList (r : ProgramRun) (pas : List UInt64) : Prop :=
  match r.program with
  | .brrEntry _ polls => ∃ typed, typed <:+ polls ∧ ConfirmedList typed pas
  | _ => False

/-- N to "Did macOS boot correctly?", or Y to the question before an uninstallation. -/
def AsksUninstall (r : ProgramRun) : Prop :=
  match r.program with
  | .brrEntry _ _ => False
  | .maskShim env _ mem keys =>
      MaskShim.passthroughFlag env.loadOptions = false ∧
        MaskShim.StateIs r.before.store MaskShim.statePermanentUnconfirmed ∧
        (MaskShim.promptConfirm (30 * 10) (Session.start mem r.before.store keys)).1 =
          MaskShim.keyNo
  | .installEfi _ loadOptions polls =>
      uninstallFlag loadOptions = true ∧ (uninstallPromptYesno 30 polls).1 = true
  | .revertEfi _ polls => (revertPrompt 30 polls).1 = true

def savedList (store : Store) : Option (List UInt8) := store.get? .brr brrVarnameBadpages

inductive ListStep (content : Option (List UInt8)) (r : ProgramRun) : Option (List UInt8) → Prop
  | kept : ListStep content r content
  | saved {pas : List UInt64} : SavesList r pas → ListStep content r (some (badpagesBlob pas))
  | removed : AsksUninstall r → ListStep content r none

section
variable {content content' : Option (List UInt8)} {r : ProgramRun}

theorem ListStep.of_kept (h : content' = content) : ListStep content r content' := by
  rw [h]
  exact .kept

theorem ListStep.of_saved {pas : List UInt64} (hsaves : SavesList r pas)
    (h : content' = some (badpagesBlob pas)) : ListStep content r content' := by
  rw [h]
  exact .saved hsaves

theorem ListStep.of_removed (hasked : AsksUninstall r) (h : content' = none) :
    ListStep content r content' := by
  rw [h]
  exact .removed hasked

end

theorem retryPrompt_suffix {polls rest : List Poll} {answer : RetryAnswer}
    (h : retryPrompt polls = some (answer, rest)) : rest <:+ polls := by
  induction polls with
  | nil => exact absurd h (by simp [retryPrompt])
  | cons poll polls ih =>
      unfold retryPrompt at h
      simp only at h
      split_ifs at h
      · cases h
        exact List.suffix_cons _ _
      · cases h
        exact List.suffix_cons _ _
      · cases h
        exact List.suffix_cons _ _
      · exact (ih h).trans (List.suffix_cons poll polls)

theorem addressPrompt_typed {polls : List Poll} {pas : List UInt64}
    (h : addressPrompt polls = .typed pas) : ConfirmedList polls pas := by
  unfold addressPrompt at h
  cases hline : readLine lineCap [] polls with
  | none =>
      rw [hline] at h
      cases h
  | some r =>
      obtain ⟨line, rest⟩ := r
      simp only [hline] at h
      split_ifs at h
      cases hpas : parseAddresses line pasCap with
      | none =>
          simp only [hpas] at h
          cases h
      | some found =>
          simp only [hpas] at h
          split_ifs at h
          cases hconfirm : confirmPrompt rest with
          | none =>
              simp only [hconfirm] at h
              cases h
          | some answer =>
              cases answer with
              | false =>
                  simp only [hconfirm] at h
                  cases h
              | true =>
                  simp only [hconfirm] at h
                  cases h
                  exact ⟨line, rest, hline, hpas, hconfirm⟩

theorem prompts_typed {store : Store} {polls : List Poll} {pas : List UInt64}
    (h : prompts store polls = .typed pas) : ∃ typed, typed <:+ polls ∧ ConfirmedList typed pas := by
  unfold prompts at h
  cases hoffer : quickRetryOffer store with
  | none =>
      rw [hoffer] at h
      exact ⟨polls, List.suffix_rfl, addressPrompt_typed h⟩
  | some saved =>
      simp only [hoffer] at h
      cases hanswer : retryPrompt polls with
      | none =>
          rw [hanswer] at h
          cases h
      | some r =>
          obtain ⟨answer, rest⟩ := r
          cases answer with
          | apply =>
              rw [hanswer] at h
              cases h
          | cancel =>
              rw [hanswer] at h
              cases h
          | enterNew =>
              rw [hanswer] at h
              exact ⟨rest, retryPrompt_suffix hanswer, addressPrompt_typed h⟩

theorem listStep_brrEntry (fw : Efi) (polls : List Poll) (m : Machine) :
    ListStep (savedList m.store) ⟨.brrEntry fw polls, m⟩
      (savedList (efiMain fw polls m).2.store) := by
  cases hchoice : prompts m.store polls with
  | ends o => exact .of_kept (efiMain_keeps_list (by simp [hchoice]))
  | saved => exact .of_kept (efiMain_keeps_list (by simp [hchoice]))
  | typed pas =>
      rcases efiMain_stores_list fw hchoice with hkept | hstored
      · exact .of_kept hkept
      · exact .of_saved (prompts_typed hchoice) hstored

/-- The uninstaller deletes the list, or it leaves it alone. -/
theorem savedList_afterUninstall (fw : Efi) (m : Machine) :
    savedList (afterUninstall fw m).store = savedList m.store ∨
      savedList (afterUninstall fw m).store = none := by
  obtain ⟨_, -, hvars⟩ := recorded_afterUninstall fw m
  rcases hvars brrVarnameBadpages with ⟨-, hkept⟩ | ⟨-, hgone⟩
  · exact Or.inl hkept
  · exact Or.inr hgone

theorem listStep_afterUninstall (fw : Efi) {m : Machine} {r : ProgramRun} (hasked : AsksUninstall r) :
    ListStep (savedList m.store) r (savedList (afterUninstall fw m).store) := by
  rcases savedList_afterUninstall fw m with hkept | hgone
  · exact .of_kept hkept
  · exact .of_removed hasked hgone

theorem listStep_revertEfi (fw : Efi) (polls : List Poll) (m : Machine) :
    ListStep (savedList m.store) ⟨.revertEfi fw polls, m⟩
      (savedList (revertMain fw polls m).2.store) := by
  rw [revertMain, ite_run]
  split_ifs with hyes
  · exact listStep_afterUninstall fw hyes
  · exact .kept

theorem badpages_kept_by_installer : (Guid.brr, brrVarnameBadpages) ∉ installerVars := by
  rw [installerVars, Set.mem_union, not_or]
  exact ⟨badpages_untouched, by simp; decide⟩

theorem listStep_installEfi (fw : Efi) (loadOptions : Option (List UInt16)) (polls : List Poll)
    (m : Machine) : ListStep (savedList m.store) ⟨.installEfi fw loadOptions polls, m⟩
      (savedList (installMain fw loadOptions polls m).2.store) := by
  cases hflag : uninstallFlag loadOptions with
  | false =>
      exact .of_kept ((frame_installMain fw (Or.inl hflag) m).vars _
        badpages_kept_by_installer)
  | true =>
      cases hyes : (uninstallPromptYesno 30 polls).1 with
      | false =>
          exact .of_kept ((frame_installMain fw (Or.inr hyes) m).vars _
            badpages_kept_by_installer)
      | true =>
          rw [installMain, if_pos hflag, if_pos hyes]
          exact listStep_afterUninstall fw ⟨hflag, hyes⟩

section
variable {σ : Type}

theorem promptConfirm_nvram (ticks : ℕ) (s : Session σ) :
    (MaskShim.promptConfirm ticks s).2.nvram = s.nvram := by
  induction ticks generalizing s with
  | zero => rfl
  | succ ticks ih =>
      have hkey : (MaskShim.efiReadkey s).2.nvram = s.nvram := by
        unfold MaskShim.efiReadkey
        cases s.keys with
        | nil => rfl
        | cons k keys => rfl
      unfold MaskShim.promptConfirm
      simp only
      split_ifs
      · exact hkey
      · exact hkey
      · exact (ih _).trans hkey

theorem reserveRanges_nvram (env : MaskShim.ShimEnv σ) (ranges : List BadmemRange)
    (s : Session σ) : (MaskShim.reserveRanges env ranges s).nvram = s.nvram := by
  unfold MaskShim.reserveRanges
  split_ifs
  · rfl
  · exact (PageMask.onlyAllocates_maskPages env.fw ranges s).nvram

theorem reserveChips_nvram (env : MaskShim.ShimEnv σ) (chips : List BadmemChip) (s : Session σ) :
    (MaskShim.reserveChips env chips s).nvram = s.nvram := by
  unfold MaskShim.reserveChips
  split_ifs
  · rfl
  · exact (ChipMask.onlyAllocates_maskChips env.fw env.host _ s).nvram

theorem pageMode_nvram (env : MaskShim.ShimEnv σ) (forceChip : Bool) (s : Session σ) :
    (MaskShim.pageMode env forceChip s).nvram = s.nvram := by
  have hmasked : (MaskShim.reserveChips env (MaskShim.pageModeData env forceChip s.nvram).chips
      (MaskShim.reserveRanges env (MaskShim.pageModeData env forceChip s.nvram).ranges
        s)).nvram = s.nvram := by
    rw [reserveChips_nvram, reserveRanges_nvram]
  unfold MaskShim.pageMode
  simp only
  split_ifs
  · exact hmasked
  · exact hmasked

/-- Masking writes no variable. -/
theorem applyMask_nvram (env : MaskShim.ShimEnv σ) (forceChip : Bool) (s : Session σ) :
    (MaskShim.applyMask env forceChip s).nvram = s.nvram := by
  unfold MaskShim.applyMask
  simp only
  split_ifs
  · exact (RowMask.onlyAllocates_maskRows env.fw env.host _ s).nvram
  · exact pageMode_nvram env forceChip s
  · exact (ChipMask.onlyAllocates_maskChips env.fw env.host _ s).nvram
  · exact pageMode_nvram env forceChip s

theorem chainload_nvram (env : MaskShim.ShimEnv σ) (s : Session σ) :
    (MaskShim.chainload env s).2.nvram = s.nvram := by
  unfold MaskShim.chainload
  split_ifs
  · rfl
  · cases env.boot.bootOrderImage with
    | none => rfl
    | some status =>
        simp only
        split_ifs
        · rfl
        · rfl

/-- Only the state machine of the shim writes variables. -/
theorem efiMain_nvram (env : MaskShim.ShimEnv σ) (s : Session σ) :
    (MaskShim.efiMain env s).2.nvram =
      if MaskShim.passthroughFlag env.loadOptions then s.nvram
      else (MaskShim.handleNvramState env s).2.nvram := by
  unfold MaskShim.efiMain
  simp only
  split_ifs
  · rw [chainload_nvram]
  · rw [chainload_nvram, applyMask_nvram]
  · rw [chainload_nvram]
  · rw [chainload_nvram, applyMask_nvram]

theorem maskNvramSetAscii_list (fw : Firmware σ) (val : String) (s : Session σ) :
    savedList (BootSession.maskNvramSetAscii fw MaskShim.brrVarnameState val s).2.nvram =
      savedList s.nvram := by
  have hother : (Guid.brr, brrVarnameBadpages) ≠ (.brr, MaskShim.brrVarnameState) := by decide
  unfold BootSession.maskNvramSetAscii BootSession.setVariable Store.write
  cases fw.refuseSet .brr MaskShim.brrVarnameState (ascii val) with
  | some status => rfl
  | none => exact Store.get?_set_other s.nvram _ hother

/-- The question is only asked in one state, and only N leads to the uninstaller. -/
theorem handleNvramState_list (env : MaskShim.ShimEnv σ) (s : Session σ) :
    savedList (MaskShim.handleNvramState env s).2.nvram = savedList s.nvram ∨
      MaskShim.StateIs s.nvram MaskShim.statePermanentUnconfirmed ∧
        (MaskShim.promptConfirm (30 * 10) s).1 = MaskShim.keyNo ∧
        (MaskShim.handleNvramState env s).2 =
          env.uninstallMaskFull ((MaskShim.promptConfirm (30 * 10) s).2.log .uninstallMask) := by
  have hprompt := promptConfirm_nvram (30 * 10) s
  unfold MaskShim.handleNvramState
  simp only
  split_ifs with hread hpage hchip htrial hunconfirmed hconfirmed
  · exact Or.inl rfl
  · exact Or.inl rfl
  · exact Or.inl rfl
  · exact Or.inl rfl
  · have hstate : MaskShim.StateIs s.nvram MaskShim.statePermanentUnconfirmed :=
      Prod.ext (not_not.mp hread) ((asciiEq_iff _ _).mp hunconfirmed)
    unfold MaskShim.confirmInstallation
    simp only
    split_ifs with hyes hno
    · left
      rw [maskNvramSetAscii_list, hprompt]
    · exact Or.inr ⟨hstate, hno, rfl⟩
    · exact Or.inl (congrArg savedList hprompt)
  · exact Or.inl rfl
  · exact Or.inl rfl

theorem listStep_maskShim (env : MaskShim.ShimEnv σ) (fw : Efi) (mem : σ) (keys : List UInt16)
    (m : Machine) : ListStep (savedList m.store) ⟨.maskShim env fw mem keys, m⟩
      (savedList (ProgramRun.after ⟨.maskShim env fw mem keys, m⟩)) := by
  unfold ProgramRun.after
  simp only
  rw [efiMain_nvram]
  split_ifs with hflag
  · exact .kept
  · rcases handleNvramState_list { env with uninstallMaskFull := uninstallFrom fw m }
      (Session.start mem m.store keys) with hkept | ⟨hstate, hno, hrun⟩
    · exact .of_kept hkept
    · have hstore : { m with store := (MaskShim.promptConfirm (30 * 10)
          (Session.start mem m.store keys)).2.nvram } = m := by
        rw [promptConfirm_nvram]
        rfl
      rw [hrun]
      simp only [uninstallFrom, Session.log_nvram, hstore]
      exact listStep_afterUninstall fw ⟨Bool.eq_false_iff.mpr hflag, hstate, hno⟩

end

/-- Every run of every program is a step of the list. -/
theorem listStep_programStep {store store' : Store} {r : ProgramRun}
    (h : programStep store r store') : ListStep (savedList store) r (savedList store') := by
  obtain ⟨rfl, rfl⟩ := h
  obtain ⟨program, m⟩ := r
  cases program with
  | brrEntry fw polls => exact listStep_brrEntry fw polls m
  | maskShim env fw mem keys => exact listStep_maskShim env fw mem keys m
  | installEfi fw loadOptions polls => exact listStep_installEfi fw loadOptions polls m
  | revertEfi fw polls => exact listStep_revertEfi fw polls m

/-- Over any sequence of runs the list is only replaced by a confirmed one and only deleted
on request. -/
theorem saved_list_survives {first last : Store} {runs : List ProgramRun}
    (h : Run programStep first runs last) : Run ListStep (savedList first) runs (savedList last) :=
  h.simulates savedList fun _ _ _ => listStep_programStep

/-- Firmware which finds the shim but does not load it. -/
def loadRefused : Efi where
  __ := usbEfi
  fault _ c := if c = .loadImage then some notFound else none

/-- A list is typed, and then taken as it was saved. -/
def typedRun (fw : Efi) (m : Machine) : ProgramRun := ⟨.brrEntry fw typedKeys, m⟩
def retryRun (fw : Efi) (m : Machine) : ProgramRun :=
  ⟨.brrEntry fw retryKeys, (efiMain fw typedKeys m).2⟩

theorem typed_and_retried (fw : Efi) (m : Machine) :
    Run programStep m.store [typedRun fw m, retryRun fw m] (retryRun fw m).after :=
  .snoc (.snoc (l := typedRun fw m) .nil ⟨rfl, rfl⟩) ⟨rfl, rfl⟩

theorem saved_list_survives_refused_loads :
    Run ListStep none [typedRun loadRefused freshComputer, retryRun loadRefused freshComputer]
      (some (badpagesBlob [0x1000])) := by
  have hlist := saved_list_survives (typed_and_retried loadRefused freshComputer)
  have hfirst : savedList freshComputer.store = none := by decide +kernel
  have hlast : savedList (retryRun loadRefused freshComputer).after =
      some (badpagesBlob [0x1000]) := by decide +kernel
  rwa [hfirst, hlast] at hlist

end BankFinder.SavedList
