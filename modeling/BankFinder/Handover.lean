import BankFinder.MaskCoverage
import BankFinder.MaskedForGood

/-!
# The memory map which macOS is started with

The variables and the text file determine a list of pages: the listed rows, the listed chips
or the listed ranges with what the file adds. A run of the shim asks the firmware for exactly
these pages, and with the documented allocator the memory map it leaves is the one it found
with the conventional pages among them reserved, whatever the user answers.
-/

namespace BankFinder.Handover
open Nvram EfiMachine BootSession MaskCoverage PageMask BadPages BadmemParse BoardTopology
open ShimDecoder RowEnumeration ChipMask RowMask ChipList MaskShim TrialBoot MaskInstall SavedList
open InstallTriples StateHistory MaskedForGood

instance (store : Store) : Decidable (RowMode store) := inferInstanceAs (Decidable (_ ∧ _))

section
variable {σ : Type} (env : ShimEnv σ)

def chipPages (chips : List BadmemChip) : List UInt64 :=
  scannedPages (shimCflInit env.host) (resolveChipEntries env.profiles chips)

/-- The pages of the ranges and of the chips in the file. -/
def pageModePages (forceChip : Bool) (store : Store) : List UInt64 :=
  let data := pageModeData env forceChip store
  data.ranges.flatMap window ++ chipPages env data.chips

/-- The pages which the decision tree selects. -/
def plannedPages (forceChip : Bool) (store : Store) : List UInt64 :=
  if RowMode store then
    rowPages (shimCflInit env.host) (readNvramBadrows store badmemMaxRows)
  else if readNvramDecoderStatusFailed store = true ∨
      forceChip = true ∧ readNvramDecoderStatusValidated store = false then
    if forceChip = false ∧ readNvramBadchips store badmemMaxChips = [] then
      pageModePages env forceChip store
    else chipPages env (readNvramBadchips store badmemMaxChips)
  else pageModePages env forceChip store

end

/-- The allocator is the documented one, and the verification leaves the map alone. -/
structure Documented (env : ShimEnv MemoryMap) : Prop where
  allocator : ClaimsConventional env.fw
  verify : ∀ ranges m, env.verifyMaskInMemmap ranges m = m

/-- From `s` to `s'` these pages were asked for, and with the documented allocator those of them
which were conventional are reserved. -/
structure Claims (env : ShimEnv MemoryMap) (pas : List UInt64) (s s' : Session MemoryMap) :
    Prop where
  mem : Documented env → s'.mem = reserveAll s.mem pas
  attempts : attempts s'.trace = attempts s.trace ++ pas

section
variable {env : ShimEnv MemoryMap} {s s' s'' : Session MemoryMap} {pas qas : List UInt64}

theorem Claims.nothing (hmem : s'.mem = s.mem)
    (htrace : BootSession.attempts s'.trace = BootSession.attempts s.trace) :
    Claims env [] s s' :=
  ⟨fun _ => by rw [reserveAll_nil, hmem], by rw [List.append_nil, htrace]⟩

/-- One event which is no call of the allocator. -/
theorem Claims.event {e : Event} (he : e.attempted = none) (hmem : s'.mem = s.mem)
    (htrace : s'.trace = s.trace ++ [e]) : Claims env [] s s' := by
  refine .nothing hmem ?_
  rw [htrace, attempts_append]
  simp [BootSession.attempts, he]

theorem Claims.append (h : Claims env pas s s') (h' : Claims env qas s' s'') :
    Claims env (pas ++ qas) s s'' :=
  ⟨fun henv => by rw [h'.mem henv, h.mem henv, reserveAll_append],
    by rw [h'.attempts, h.attempts, List.append_assoc]⟩

theorem Claims.foldl {A : Type} {f : Session MemoryMap → A → Session MemoryMap}
    {asked : A → List UInt64} (h : ∀ s a, Claims env (asked a) s (f s a)) (xs : List A)
    (s : Session MemoryMap) : Claims env (xs.flatMap asked) s (xs.foldl f s) := by
  induction xs generalizing s with
  | nil => exact .nothing rfl rfl
  | cons x xs ih =>
      rw [List.foldl_cons, List.flatMap_cons]
      exact (h s x).append (ih (f s x))

end

section
variable (env : ShimEnv MemoryMap)

theorem claims_allocatePages (s : Session MemoryMap) (pa : UInt64) :
    Claims env [pa] s (allocatePages env.fw pa s).2 := by
  refine ⟨fun henv => allocatePages_reserves henv.allocator pa s, ?_⟩
  rw [allocatePages_trace, attempts_append, attempts_allocatePages]

theorem claims_maskRows (rows : List BadmemRow) (s : Session MemoryMap) :
    Claims env (rowPages (shimCflInit env.host) rows) s (maskRows env.fw env.host rows s).2 := by
  refine ⟨fun henv => ?_, maskRows_attempts env.fw env.host rows s⟩
  have hrow (s : Session MemoryMap) (r : BadmemRow) :
      Claims env (shimCflEnumerateRow (shimCflInit env.host) (rowTuple r) rowEnumCap) s
        (maskRow env.fw (shimCflInit env.host) s r) := by
    have hpage (s : Session MemoryMap) (pa : UInt64) :
        Claims env [pa] s (allocatePages env.fw pa s).2 := claims_allocatePages env s pa
    have hpages := Claims.foldl hpage
      (shimCflEnumerateRow (shimCflInit env.host) (rowTuple r) rowEnumCap) s
    rwa [List.flatMap_singleton'] at hpages
  have hmem := (Claims.foldl hrow rows (s.log (.maskRows rows))).mem henv
  have hnone (h : rowPages (shimCflInit env.host) rows = []) :
      (s.log (.maskRows rows)).mem = reserveAll s.mem (rowPages (shimCflInit env.host) rows) := by
    rw [h, reserveAll_nil, Session.log_mem]
  unfold maskRows
  simp only
  split_ifs with hempty hinvalid htotal
  · exact hnone (by rw [List.isEmpty_iff.mp hempty]; rfl)
  · exact hnone (rowPages_of_no_memory (Or.inl (by simpa using hinvalid)) rows)
  · exact hnone (rowPages_of_no_memory (Or.inr htotal) rows)
  · exact hmem

theorem claims_maskChipPages (mc : ShimMc) (chips : List BadmemChip) (pas : List UInt64)
    (s : Session MemoryMap) : Claims env (pas.filter fun pa => (shimCflDecodePa mc pa).valid &&
      chipMatches chips (shimCflDecodePa mc pa)) s
        (pas.foldl (maskChipPage env.fw mc chips) s) := by
  induction pas generalizing s with
  | nil => exact .nothing rfl rfl
  | cons pa pas ih =>
      have hrest := ih (maskChipPage env.fw mc chips s pa)
      rw [List.foldl_cons]
      cases hvalid : (shimCflDecodePa mc pa).valid with
      | false =>
          have hpage : maskChipPage env.fw mc chips s pa = s := by simp [maskChipPage, hvalid]
          rw [List.filter_cons_of_neg (by simp [hvalid])]
          rwa [hpage] at hrest ⊢
      | true =>
          cases hmatch : chipMatches chips (shimCflDecodePa mc pa) with
          | false =>
              have hpage : maskChipPage env.fw mc chips s pa = s := by
                simp [maskChipPage, hvalid, hmatch]
              rw [List.filter_cons_of_neg (by simp [hvalid, hmatch])]
              rwa [hpage] at hrest ⊢
          | true =>
              have hpage : maskChipPage env.fw mc chips s pa = (allocatePages env.fw pa s).2 := by
                simp [maskChipPage, hvalid, hmatch]
              rw [List.filter_cons_of_pos (by simp [hvalid, hmatch])]
              rw [hpage] at hrest ⊢
              exact (claims_allocatePages env s pa).append hrest

theorem claims_maskChips (chips : List BadmemChip) (s : Session MemoryMap) :
    Claims env (scannedPages (shimCflInit env.host) chips) s
      (maskChips env.fw env.host chips s).2 := by
  have hnothing : Claims env [] s (s.log (.maskChips chips)) := .event rfl rfl rfl
  have hnone (h : scannedPages (shimCflInit env.host) chips = []) :
      Claims env (scannedPages (shimCflInit env.host) chips) s (s.log (.maskChips chips)) := by
    rw [h]
    exact hnothing
  have hunresolved (h : chips.any BadmemChip.resolved = false) :
      scannedPages (shimCflInit env.host) chips = [] := by
    unfold scannedPages
    rw [List.filter_eq_nil_iff]
    intro pa _
    rw [chipMatches_of_unresolved h]
    simp
  have hempty (h : shimCflTotalMemory (shimCflInit env.host) = 0) :
      scannedPages (shimCflInit env.host) chips = [] := by
    unfold scannedPages
    rw [h, pages_empty]
    rfl
  unfold maskChips
  simp only
  split_ifs with hnil hres hinvalid htotal
  · exact hnone (hunresolved (by rw [List.isEmpty_iff.mp hnil]; rfl))
  · exact hnone (hunresolved (by simpa using hres))
  · refine hnone (hempty ?_)
    unfold shimCflTotalMemory
    rw [if_pos hinvalid]
  · exact hnone (hempty htotal)
  · exact hnothing.append (claims_maskChipPages env _ chips _ _)

theorem claims_reserveRanges (ranges : List BadmemRange) (s : Session MemoryMap) :
    Claims env (ranges.flatMap window) s (reserveRanges env ranges s) := by
  refine ⟨fun henv => ?_, reserveRanges_attempts env ranges s⟩
  unfold reserveRanges
  split_ifs with hempty
  · rw [List.isEmpty_iff.mp hempty, List.flatMap_nil, reserveAll_nil]
  · simp only [henv.verify]
    exact maskPages_mem henv.allocator ranges s

theorem claims_reserveChips (chips : List BadmemChip) (s : Session MemoryMap) :
    Claims env (chipPages env chips) s (reserveChips env chips s) := by
  unfold reserveChips
  split_ifs with hempty
  · have hnone : chipPages env chips = [] := by
      unfold chipPages scannedPages
      rw [List.isEmpty_iff.mp hempty, List.filter_eq_nil_iff]
      intro pa _
      rw [chipMatches_of_unresolved (by rfl)]
      simp
    rw [hnone]
    exact .nothing rfl rfl
  · exact claims_maskChips env _ s

theorem claims_pageMode (forceChip : Bool) (s : Session MemoryMap) :
    Claims env (pageModePages env forceChip s.nvram) s (pageMode env forceChip s) := by
  have hmasked := (claims_reserveRanges env (pageModeData env forceChip s.nvram).ranges
    s).append (claims_reserveChips env (pageModeData env forceChip s.nvram).chips _)
  unfold pageMode
  simp only
  split_ifs
  · have hevent (t : Session MemoryMap) : Claims env [] t (t.log .noBadMemory) :=
      .event (e := .noBadMemory) rfl rfl rfl
    have hlogged := hmasked.append (hevent _)
    rwa [List.append_nil] at hlogged
  · exact hmasked

theorem claims_applyMask (forceChip : Bool) (s : Session MemoryMap) :
    Claims env (plannedPages env forceChip s.nvram) s (applyMask env forceChip s) := by
  by_cases hrow : RowMode s.nvram
  · rw [applyMask_rows env forceChip hrow, plannedPages, if_pos hrow]
    exact claims_maskRows env _ s
  have hrow' : ¬(readNvramDecoderStatusValidated s.nvram = true ∧
      ¬readNvramBadrows s.nvram badmemMaxRows = []) := hrow
  unfold applyMask plannedPages
  simp only [List.isEmpty_iff, Bool.not_eq_true]
  rw [if_neg hrow, if_neg hrow']
  split_ifs
  · exact claims_pageMode env forceChip s
  · exact claims_maskChips env _ s
  · exact claims_pageMode env forceChip s

end

theorem readNvramBadpages_agree {s s' : Store} (h : Agree installerVars s s')
    (ranges : List BadmemRange) (cap : ℕ) :
    readNvramBadpages s' ranges cap = readNvramBadpages s ranges cap := by
  have hlegacy : (Guid.brr, legacyVarnameBadpages) ∉ installerVars := fun hmem =>
    notMem_unreadVars (by decide) (Or.inl hmem)
  unfold readNvramBadpages readBadpagesVariable
  rw [getVariable_agree h badpages_kept_by_installer, getVariable_agree h hlegacy]

theorem plannedPages_agree {σ : Type} (env : ShimEnv σ) {s s' : Store}
    (h : Agree installerVars s s') (forceChip : Bool) :
    plannedPages env forceChip s' = plannedPages env forceChip s := by
  have hunread := Agree.unread h
  have hdata : pageModeData env forceChip s' = pageModeData env forceChip s := by
    unfold pageModeData
    simp only [readNvramBadpages_agree h]
  unfold plannedPages pageModePages readNvramDecoderStatusFailed readNvramDecoderStatusValidated
  simp only [rowMode_congr hunread, readNvramBadrows_agree hunread,
    readNvramBadchips_agree hunread, decoderStatusIs_agree hunread, hdata]

/-- What a run of the shim is to mask: nothing when it is passed through or uninstalls. -/
def runPages {σ : Type} (env : ShimEnv σ) (s : Session σ) : List UInt64 :=
  if passthroughFlag env.loadOptions then []
  else
    let choice := (handleNvramState env s).1
    if choice.skipMask then [] else plannedPages env choice.forceChip s.nvram

theorem Claims.chainload {env : ShimEnv MemoryMap} {pas : List UInt64} {s s' : Session MemoryMap}
    (h : Claims env pas s s') : Claims env pas s (MaskShim.chainload env s').2 := by
  have hmem : (MaskShim.chainload env s').2.mem = s'.mem := by
    unfold MaskShim.chainload
    split_ifs
    · rfl
    · cases env.boot.bootOrderImage with
      | none => rfl
      | some status =>
          simp only
          split_ifs
          · rfl
          · rfl
  have hstarted := h.append (Claims.nothing hmem (attempts_chainload env s'))
  rwa [List.append_nil] at hstarted

/-- The state machine asks for no page, also when it uninstalls. -/
theorem claims_handleNvramState {env : ShimEnv MemoryMap}
    (huninstall : ∀ s, Claims env [] s (env.uninstallMaskFull s)) (s : Session MemoryMap) :
    Claims env [] s (handleNvramState env s).2 := by
  have hdecides := decides_handleNvramState env s
  generalize handleNvramState env s = choice at hdecides ⊢
  cases hdecides with
  | silent _ _ => exact .nothing rfl rfl
  | chipTrial _ => exact .nothing rfl rfl
  | confirmed _ _ =>
      exact .event (e := .setVariable .brr brrVarnameState (ascii statePermanentConfirmed)) rfl
        rfl rfl
  | @declined keys _ _ =>
      have hlogged : Claims env [] s (({ s with keys := keys } : Session MemoryMap).log
        .uninstallMask) := .event (e := .uninstallMask) rfl rfl rfl
      exact hlogged.append (huninstall _)
  | unanswered _ _ => exact .nothing rfl rfl

/-- A run which masks has left every variable that tells what to mask. -/
theorem agree_of_masks {σ : Type} {env : ShimEnv σ} {s : Session σ}
    (h : (handleNvramState env s).1.skipMask = false) :
    Agree installerVars s.nvram (handleNvramState env s).2.nvram := by
  refine (masks_of_quiet env fun hstate hno => ?_).2.2.1
  have hskip : (handleNvramState env s).1.skipMask = true := by
    have hdecides := decides_handleNvramState env s
    generalize handleNvramState env s = choice at hdecides ⊢
    cases hdecides with
    | silent _ hnot => exact absurd hstate hnot
    | chipTrial hchip => exact absurd hstate (stateIs_unique hchip (by decide))
    | confirmed _ hyes =>
        rw [hno] at hyes
        exact absurd hyes (by decide)
    | declined _ _ => rfl
    | unanswered _ hnot => exact absurd hno hnot
  rw [hskip] at h
  cases h

/-- A run asks for exactly the planned pages, and reserves exactly the conventional ones. -/
theorem claims_efiMain {env : ShimEnv MemoryMap}
    (huninstall : ∀ s, Claims env [] s (env.uninstallMaskFull s)) (s : Session MemoryMap) :
    Claims env (runPages env s) s (MaskShim.efiMain env s).2 := by
  have hstate := claims_handleNvramState huninstall s
  unfold MaskShim.efiMain runPages
  split_ifs with hflag
  · exact Claims.chainload (.nothing rfl rfl)
  simp only
  cases hskip : (handleNvramState env s).1.skipMask with
  | true => exact hstate.chainload
  | false =>
      have hagree := agree_of_masks hskip
      have hmasked := hstate.append (claims_applyMask env
        (handleNvramState env s).1.forceChip (handleNvramState env s).2)
      rw [List.nil_append, plannedPages_agree env hagree] at hmasked
      exact hmasked.chainload

/-- The uninstaller of the program touches variables only. -/
theorem claims_uninstallFrom (env : ShimEnv MemoryMap) (fw : Efi) (m : Machine)
    (s : Session MemoryMap) : Claims env [] s (uninstallFrom fw m s) := .nothing rfl rfl

/-- A computer on which the typed page is on trial. -/
def trialComputer : Machine := { InstallUndo.freshComputer with store := pageTrialStore }

/-- The boot of that computer, with every page free. -/
def trialBoot : Session MemoryMap :=
  (MaskShim.efiMain
    { trialEnv with uninstallMaskFull := uninstallFrom InstallUndo.usbEfi trialComputer }
    (Session.start freeMemory trialComputer.store [])).2

end BankFinder.Handover
