import BankFinder.ChipList
import BankFinder.ChipMask
import BankFinder.RowMask

/-!
# The mask-shim program

`efi_main` of `mask-shim` runs once at boot. It consults the state variable,
chooses one of three ways of masking, and starts macOS whatever came of it. The
search for `boot.efi` is only known by its outcome; it comes after all masking.
-/

namespace BankFinder.MaskShim
open Nvram BootSession PageMask BadPages BadmemParse BoardTopology ShimDecoder ChipMask RowMask
open ChipList

structure TextFile where
  content : List UInt8
  readStatus : EfiStatus

/-- The volume the program was loaded from, as far as `read_badmem` asks it. -/
structure ShimVolume where
  loadedImage : EfiStatus
  simpleFileSystem : EfiStatus
  openVolume : EfiStatus
  openFile : String → Except EfiStatus TextFile

/-- `startMacos` and `bootOrderImage` are what the started image returns. -/
structure BootSearch where
  findMacosBoot : EfiStatus
  startMacos : EfiStatus
  bootOrderImage : Option EfiStatus

/-- `loadOptions` is `none` when there are none. The uninstaller and the memory-map
check belong to other parts of the program. -/
structure ShimEnv (σ : Type) where
  fw : Firmware σ
  host : ShimHost
  profiles : List BoardProfile
  loadOptions : Option (List UInt16)
  volume : ShimVolume
  boot : BootSearch
  uninstallMaskFull : Session σ → Session σ
  verifyMaskInMemmap : List BadmemRange → σ → σ

def fileBufSize : ℕ := 65536

/-- The status, and what ends up in `ranges[]` and `chips[]`. -/
def readBadmem (v : ShimVolume) : EfiStatus × BadmemResult :=
  if v.loadedImage ≠ efiSuccess then (v.loadedImage, {})
  else if v.simpleFileSystem ≠ efiSuccess then (v.simpleFileSystem, {})
  else if v.openVolume ≠ efiSuccess then (v.openVolume, {})
  else
    let file : Except EfiStatus TextFile := match v.openFile "EFI\\BRR\\badmem.txt" with
      | .ok f => .ok f
      | .error _ => v.openFile "EFI\\BOOT\\badmem.txt"
    match file with
    | .error _ => (efiSuccess, {})
    | .ok f =>
        if f.readStatus ≠ efiSuccess then (f.readStatus, {})
        else (efiSuccess,
          badmemParseFull (f.content.take (fileBufSize - 1)) badmemMaxRanges badmemMaxChips)

def varnameDecoderStatus : String := "BrrDecoderStatus"

def decoderStatusIs (store : Store) (status : String) : Bool :=
  let r := maskNvramGetAscii store varnameDecoderStatus 32
  if r.1 ≠ efiSuccess then false else asciiEq r.2 (ascii status)

def readNvramDecoderStatusValidated (store : Store) : Bool := decoderStatusIs store "VALIDATED"
def readNvramDecoderStatusFailed (store : Store) : Bool := decoderStatusIs store "FAILED"

def wide (text : String) : List UInt16 := text.toList.map fun c => UInt16.ofNat c.toNat

/-- One of the two flags stands somewhere in the load options. -/
def passthroughFlag : Option (List UInt16) → Bool
  | none => false
  | some opts => opts.tails.any fun rest =>
      (wide "--no-mask").isPrefixOf rest || (wide "--passthrough").isPrefixOf rest

def brrVarnameState : String := "BrrMaskState"
def stateTrialPendingPage : String := "TRIAL_PENDING_PAGE"
def stateTrialPendingChip : String := "TRIAL_PENDING_CHIP"
def stateTrialBooted : String := "TRIAL_BOOTED"
def statePermanentUnconfirmed : String := "PERMANENT_UNCONFIRMED"
def statePermanentConfirmed : String := "PERMANENT_CONFIRMED"

/-- The size of the buffer for the state text. -/
def stateBufSize : ℕ := 64

structure MaskChoice where
  skipMask : Bool
  forceChip : Bool
  deriving DecidableEq, Repr

section
variable {σ : Type}

/-- `efi_readkey`; no key is 0. -/
def efiReadkey (s : Session σ) : UInt16 × Session σ :=
  match s.keys with
  | [] => (0, s)
  | k :: keys => (k, { s with keys := keys })

def keyYes : UInt16 := 0x59
def keyNo : UInt16 := 0x4E

/-- One poll for every tenth of a second; 0 after the last one. -/
def promptConfirm : ℕ → Session σ → UInt16 × Session σ
  | 0, s => (0, s)
  | ticks + 1, s =>
      let k := efiReadkey s
      if k.1 = 0x59 ∨ k.1 = 0x79 then (keyYes, k.2)
      else if k.1 = 0x4E ∨ k.1 = 0x6E then (keyNo, k.2)
      else promptConfirm ticks k.2

/-- "Did macOS boot OK?" -/
def confirmInstallation (env : ShimEnv σ) (s : Session σ) : MaskChoice × Session σ :=
  let answer := promptConfirm (30 * 10) s
  if answer.1 = keyYes then
    (⟨false, false⟩, (maskNvramSetAscii env.fw brrVarnameState statePermanentConfirmed answer.2).2)
  else if answer.1 = keyNo then (⟨true, false⟩, env.uninstallMaskFull (answer.2.log .uninstallMask))
  else (⟨false, false⟩, answer.2)

def handleNvramState (env : ShimEnv σ) (s : Session σ) : MaskChoice × Session σ :=
  let r := maskNvramGetAscii s.nvram brrVarnameState stateBufSize
  if r.1 ≠ efiSuccess then (⟨false, false⟩, s)
  else if asciiEq r.2 (ascii stateTrialPendingPage) then (⟨false, false⟩, s)
  else if asciiEq r.2 (ascii stateTrialPendingChip) then (⟨false, true⟩, s)
  else if asciiEq r.2 (ascii stateTrialBooted) then (⟨false, false⟩, s)
  else if asciiEq r.2 (ascii statePermanentUnconfirmed) then confirmInstallation env s
  else if asciiEq r.2 (ascii statePermanentConfirmed) then (⟨false, false⟩, s)
  else (⟨false, false⟩, s)

/-- `mask_pages` with the check behind it. -/
def reserveRanges (env : ShimEnv σ) (ranges : List BadmemRange) (s : Session σ) : Session σ :=
  if ranges.isEmpty then s
  else
    let s := (maskPages env.fw ranges s).2
    { s with mem := env.verifyMaskInMemmap ranges s.mem }

def reserveChips (env : ShimEnv σ) (chips : List BadmemChip) (s : Session σ) : Session σ :=
  if chips.isEmpty then s
  else (maskChips env.fw env.host (resolveChipEntries env.profiles chips) s).2

/-- What page mode masks: nothing is read for a chip trial. -/
def pageModeData (env : ShimEnv σ) (forceChip : Bool) (store : Store) : BadmemResult :=
  if forceChip then {}
  else
    let file := (readBadmem env.volume).2
    { ranges := readNvramBadpages store file.ranges badmemMaxRanges, chips := file.chips }

def pageMode (env : ShimEnv σ) (forceChip : Bool) (s : Session σ) : Session σ :=
  let data := pageModeData env forceChip s.nvram
  let s := reserveChips env data.chips (reserveRanges env data.ranges s)
  if data.ranges.isEmpty ∧ data.chips.isEmpty then s.log .noBadMemory else s

/-- Resolve and mask the listed chips, even when there are none. -/
def chipMode (env : ShimEnv σ) (chips : List BadmemChip) (s : Session σ) : Session σ :=
  (maskChips env.fw env.host (resolveChipEntries env.profiles chips) s).2

def applyMask (env : ShimEnv σ) (forceChip : Bool) (s : Session σ) : Session σ :=
  let validated := readNvramDecoderStatusValidated s.nvram
  let failed := readNvramDecoderStatusFailed s.nvram
  let rows := readNvramBadrows s.nvram badmemMaxRows
  if validated ∧ ¬rows.isEmpty then (maskRows env.fw env.host rows s).2
  else if failed ∨ (forceChip ∧ ¬validated) then
    let chips := readNvramBadchips s.nvram badmemMaxChips
    if ¬forceChip ∧ chips.isEmpty then pageMode env forceChip s
    else chipMode env chips s
  else pageMode env forceChip s

/-- First the volumes are searched, then the boot order. -/
def chainload (env : ShimEnv σ) (s : Session σ) : EfiStatus × Session σ :=
  if env.boot.findMacosBoot = efiSuccess then (env.boot.startMacos, s.log .startImage)
  else
    match env.boot.bootOrderImage with
    | none => (efiNotFound, s)
    | some status =>
        if status = efiSuccess then (status, s.log .startImage)
        else (efiNotFound, s.log .startImage)

def efiMain (env : ShimEnv σ) (s : Session σ) : EfiStatus × Session σ :=
  let choice :=
    if passthroughFlag env.loadOptions then (⟨true, false⟩, s) else handleNvramState env s
  if choice.1.skipMask then chainload env choice.2
  else chainload env (applyMask env choice.1.forceChip choice.2)

/-- The text which the state variable is read as. -/
def StateIs (store : Store) (state : String) : Prop :=
  maskNvramGetAscii store brrVarnameState stateBufSize = (efiSuccess, ascii state)

theorem handleNvramState_page (env : ShimEnv σ) {s : Session σ}
    (h : StateIs s.nvram stateTrialPendingPage) :
    handleNvramState env s = (⟨false, false⟩, s) := by
  unfold handleNvramState
  rw [h]
  rfl

theorem handleNvramState_chip (env : ShimEnv σ) {s : Session σ}
    (h : StateIs s.nvram stateTrialPendingChip) :
    handleNvramState env s = (⟨false, true⟩, s) := by
  unfold handleNvramState
  rw [h]
  rfl

theorem efiMain_page (env : ShimEnv σ) {s : Session σ}
    (hflag : passthroughFlag env.loadOptions = false)
    (h : StateIs s.nvram stateTrialPendingPage) :
    efiMain env s = chainload env (applyMask env false s) := by
  unfold efiMain
  rw [hflag, if_neg Bool.false_ne_true, handleNvramState_page env h]
  rfl

theorem efiMain_chip (env : ShimEnv σ) {s : Session σ}
    (hflag : passthroughFlag env.loadOptions = false)
    (h : StateIs s.nvram stateTrialPendingChip) :
    efiMain env s = chainload env (applyMask env true s) := by
  unfold efiMain
  rw [hflag, if_neg Bool.false_ne_true, handleNvramState_chip env h]
  rfl

/-- Nothing but an image start follows the masking. -/
theorem chainload_trace (env : ShimEnv σ) (s : Session σ) :
    (chainload env s).2.trace = s.trace ∨
      (chainload env s).2.trace = s.trace ++ [.startImage] := by
  unfold chainload
  split_ifs with hfound
  · exact Or.inr rfl
  · cases env.boot.bootOrderImage with
    | none => exact Or.inl rfl
    | some status =>
        simp only
        split_ifs
        · exact Or.inr rfl
        · exact Or.inr rfl

theorem reserveRanges_attempts (env : ShimEnv σ) (ranges : List BadmemRange) (s : Session σ) :
    attempts (reserveRanges env ranges s).trace = attempts s.trace ++ ranges.flatMap window := by
  unfold reserveRanges
  split_ifs with hempty
  · rw [List.isEmpty_iff.mp hempty, List.flatMap_nil, List.append_nil]
  · exact maskPages_attempts env.fw ranges s

theorem not_started_of_log {s s' : Session σ} {e : Event}
    (h : OnlyAllocates (s.log e) s') (he : e ≠ .startImage) (hs : .startImage ∉ s.trace) :
    .startImage ∉ s'.trace := by
  rw [h.mem_trace rfl, Session.log_trace, List.mem_append, List.mem_singleton]
  intro hmem
  rcases hmem with hmem | hmem
  · exact hs hmem
  · exact he hmem.symm

theorem reserveRanges_not_started (env : ShimEnv σ) (ranges : List BadmemRange) {s : Session σ}
    (h : .startImage ∉ s.trace) : .startImage ∉ (reserveRanges env ranges s).trace := by
  unfold reserveRanges
  split_ifs
  · exact h
  · have hmasked := not_started_of_log (onlyAllocates_maskPages env.fw ranges s) (by simp) h
    exact hmasked

theorem chipMode_not_started (env : ShimEnv σ) (chips : List BadmemChip) {s : Session σ}
    (h : .startImage ∉ s.trace) : .startImage ∉ (chipMode env chips s).trace :=
  not_started_of_log (onlyAllocates_maskChips env.fw env.host _ s) (by simp) h

theorem reserveChips_not_started (env : ShimEnv σ) (chips : List BadmemChip) {s : Session σ}
    (h : .startImage ∉ s.trace) : .startImage ∉ (reserveChips env chips s).trace := by
  unfold reserveChips
  split_ifs
  · exact h
  · exact chipMode_not_started env chips h

theorem pageMode_not_started (env : ShimEnv σ) (forceChip : Bool) {s : Session σ}
    (h : .startImage ∉ s.trace) : .startImage ∉ (pageMode env forceChip s).trace := by
  have hmasked := reserveChips_not_started env (pageModeData env forceChip s.nvram).chips
    (reserveRanges_not_started env (pageModeData env forceChip s.nvram).ranges h)
  unfold pageMode
  simp only
  split_ifs
  · rw [Session.log_trace, List.mem_append, List.mem_singleton, not_or]
    exact ⟨hmasked, by simp⟩
  · exact hmasked

/-- Whatever the variables say, masking starts nothing. -/
theorem applyMask_not_started (env : ShimEnv σ) (forceChip : Bool) {s : Session σ}
    (h : .startImage ∉ s.trace) : .startImage ∉ (applyMask env forceChip s).trace := by
  unfold applyMask
  simp only
  split_ifs
  · exact not_started_of_log (onlyAllocates_maskRows env.fw env.host _ s) (by simp) h
  · exact pageMode_not_started env forceChip h
  · exact chipMode_not_started env _ h
  · exact pageMode_not_started env forceChip h

theorem reserveChips_mem_attempts (env : ShimEnv σ) (chips : List BadmemChip) {s : Session σ}
    {pa : UInt64} (h : pa ∈ attempts s.trace) :
    pa ∈ attempts (reserveChips env chips s).trace := by
  unfold reserveChips
  split_ifs
  · exact h
  · refine (onlyAllocates_maskChips env.fw env.host _ s).mem_attempts ?_
    rw [Session.log_trace, attempts_append]
    exact List.mem_append_left _ h

theorem pageMode_mem_attempts (env : ShimEnv σ) (forceChip : Bool) (s : Session σ) {pa : UInt64}
    (h : pa ∈ (pageModeData env forceChip s.nvram).ranges.flatMap window) :
    pa ∈ attempts (pageMode env forceChip s).trace := by
  have hranges : pa ∈ attempts (reserveRanges env (pageModeData env forceChip s.nvram).ranges
      s).trace := by
    rw [reserveRanges_attempts]
    exact List.mem_append_right _ h
  have hmasked := reserveChips_mem_attempts env (pageModeData env forceChip s.nvram).chips hranges
  unfold pageMode
  simp only
  split_ifs
  · rw [Session.log_trace, attempts_append]
    exact List.mem_append_left _ hmasked
  · exact hmasked

theorem readBadmem_pageSpan (v : ShimVolume) :
    ∀ r ∈ (readBadmem v).2.ranges, PageSpan r := by
  have hnone : ∀ r ∈ ({} : BadmemResult).ranges, PageSpan r :=
    fun _ h => absurd h List.not_mem_nil
  unfold readBadmem
  split_ifs
  · exact hnone
  · exact hnone
  · exact hnone
  · simp only
    split
    · exact hnone
    · split_ifs
      · exact hnone
      · exact badmemParseFull_pageSpan _ _ _

/-- The decoder is trusted and there are rows to mask. -/
def RowMode (store : Store) : Prop :=
  readNvramDecoderStatusValidated store = true ∧ readNvramBadrows store badmemMaxRows ≠ []

/-- The decoder is known to be wrong and there are chips to mask. -/
def ChipFallback (store : Store) : Prop :=
  readNvramDecoderStatusFailed store = true ∧ readNvramBadchips store badmemMaxChips ≠ []

theorem applyMask_rows (env : ShimEnv σ) (forceChip : Bool) {s : Session σ}
    (h : RowMode s.nvram) : applyMask env forceChip s =
      (maskRows env.fw env.host (readNvramBadrows s.nvram badmemMaxRows) s).2 := by
  obtain ⟨hvalidated, hrows⟩ := h
  unfold applyMask
  simp only
  rw [if_pos ⟨hvalidated, by simpa using hrows⟩]

theorem applyMask_page (env : ShimEnv σ) {s : Session σ} (hrow : ¬RowMode s.nvram)
    (hchip : ¬ChipFallback s.nvram) : applyMask env false s = pageMode env false s := by
  have hrow' : ¬(readNvramDecoderStatusValidated s.nvram = true ∧
      ¬(readNvramBadrows s.nvram badmemMaxRows).isEmpty = true) := by
    rw [List.isEmpty_iff]
    exact hrow
  unfold applyMask
  simp only
  rw [if_neg hrow']
  by_cases hfailed : readNvramDecoderStatusFailed s.nvram = true
  · have hnone : readNvramBadchips s.nvram badmemMaxChips = [] :=
      not_not.mp fun hne => hchip ⟨hfailed, hne⟩
    rw [if_pos (Or.inl hfailed), hnone]
    rfl
  · rw [if_neg (by simp [hfailed])]

theorem applyMask_chips (env : ShimEnv σ) {s : Session σ}
    (h : readNvramDecoderStatusValidated s.nvram = false) : applyMask env true s =
      chipMode env (readNvramBadchips s.nvram badmemMaxChips) s := by
  unfold applyMask
  simp [h]

theorem decoderStatusIs_unique {store : Store} {status status' : String}
    (h : decoderStatusIs store status = true) (hne : ascii status ≠ ascii status') :
    decoderStatusIs store status' = false := by
  unfold decoderStatusIs at h ⊢
  simp only at h ⊢
  split_ifs at h ⊢
  rw [asciiEq_iff] at h
  rw [Bool.eq_false_iff, ne_eq, asciiEq_iff, h]
  exact hne

/-- A chip trial under a trusted decoder which has recorded no row masks nothing. -/
theorem applyMask_uncovered (env : ShimEnv σ) {s : Session σ}
    (hvalidated : readNvramDecoderStatusValidated s.nvram = true)
    (hrows : readNvramBadrows s.nvram badmemMaxRows = []) :
    applyMask env true s = s.log .noBadMemory := by
  have hfailed : readNvramDecoderStatusFailed s.nvram = false :=
    decoderStatusIs_unique hvalidated (by decide)
  unfold applyMask
  simp only [hvalidated, hfailed, hrows]
  rfl

end

end BankFinder.MaskShim
