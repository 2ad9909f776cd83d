import BankFinder.AddressEntry
import BankFinder.InstallUndo

/-!
# The address entry program

`brr-entry` offers the list it finds in `BrrBadPages`, or asks for a new one and stores
it. Then it installs the shim, unless the backup of the boot order says that this was
done, and starts the shim from the stick. All prompts come before the first effect.
-/

namespace BankFinder.BrrEntry
open Nvram EfiMachine MachineFrame MaskOps MaskFrames BadPages AddressEntry Install

/-- How a run ends: with all keys used up in a prompt, in a parser which does not return,
with a reset, or with the shim started. -/
inductive Outcome where
  | waiting
  | stuck
  | rebooted
  | chainloaded
  deriving DecidableEq, Repr

inductive RetryAnswer where
  | apply
  | cancel
  | enterNew
  deriving DecidableEq, Repr

/-- `Y = apply`, `N = discard`, `ESC = cancel`; `none` without an answer. -/
def retryPrompt : List Poll → Option (RetryAnswer × List Poll)
  | [] => none
  | poll :: polls =>
      let k := efiReadkey poll
      if k = 0x59 ∨ k = 0x79 then some (.apply, polls)
      else if k = 0x1B then some (.cancel, polls)
      else if k = 0x4E ∨ k = 0x6E then some (.enterNew, polls)
      else retryPrompt polls

/-- `Type Y to apply, any other key to cancel.` -/
def confirmPrompt : List Poll → Option Bool
  | [] => none
  | poll :: polls =>
      let k := efiReadkey poll
      if k = 0x59 ∨ k = 0x79 then some true
      else if k ≠ 0 then some false
      else confirmPrompt polls

/-- The list in a blob, when it is offered; the version is not looked at. -/
def offered (ex : List UInt8) : Option (List UInt64) :=
  if 8 ≤ ex.length then
    let nExisting := u32At ex 4
    if 0 < nExisting ∧ nExisting ≤ 4096 ∧ 8 + nExisting.toNat * 8 ≤ ex.length then
      some (paArray ex nExisting.toNat)
    else none
  else none

/-- The existing saved mask. -/
def quickRetryOffer (store : Store) : Option (List UInt64) :=
  let r := getVariable store .brr brrVarnameBadpages badpagesBlobMax
  if r.1 = efiSuccess then offered r.2 else none

def lineCap : ℕ := 512
def pasCap : ℕ := 256

/-- What the prompts lead to: an end of the run, the saved list or a new list. -/
inductive Choice where
  | ends (o : Outcome)
  | saved
  | typed (pas : List UInt64)
  deriving DecidableEq, Repr

def addressPrompt (polls : List Poll) : Choice :=
  match readLine lineCap [] polls with
  | none => .ends .waiting
  | some (line, polls) =>
      if line.length = 0 then .ends .rebooted
      else
        match parseAddresses line pasCap with
        | none => .ends .stuck
        | some pas =>
            if pas.length = 0 then .ends .rebooted
            else
              match confirmPrompt polls with
              | none => .ends .waiting
              | some false => .ends .rebooted
              | some true => .typed pas

def prompts (store : Store) (polls : List Poll) : Choice :=
  match quickRetryOffer store with
  | none => addressPrompt polls
  | some _ =>
      match retryPrompt polls with
      | none => .ends .waiting
      | some (.apply, _) => .saved
      | some (.cancel, _) => .ends .rebooted
      | some (.enterNew, polls) => addressPrompt polls

/-- A buffer of 8 bytes is enough to see whether the variable exists. -/
def alreadyInstalled (store : Store) : Bool :=
  let r := getVariable store .brr brrVarnameOrigboot 8
  r.1 == efiSuccess || r.1 == efiBufferTooSmall

def autoInstall (fw : Efi) : EfiM Refusal Unit := do
  let store ← readStore
  if alreadyInstalled store then pure ()
  else if ← succeeds (installMaskFull fw) then
    ignore (maskNvramSetAscii fw MaskShim.brrVarnameState MaskShim.stateTrialPendingPage)
  else pure ()

/-- The first volume with the shim on it. -/
def findShim (fw : Efi) : List Volume → EfiM Refusal Handle
  | [] => fail notFound
  | v :: vs =>
      if !opens v then findShim fw vs
      else do
        if ← succeeds (openRead fw v.handle usbShimPath) then pure v.handle else findShim fw vs

def shimPath : String := "\\EFI\\BOOT\\mask-shim.efi"

/-- The length of the nodes before the end node. -/
def prefixLen : ℕ → List UInt8 → ℕ
  | 0, _ => 0
  | fuel + 1, p =>
      if p.getD 0 0 = 0x7f ∧ p.getD 1 0 = 0xff then 0
      else
        let nodeLen := (p.getD 2 0).toNat + 256 * (p.getD 3 0).toNat
        nodeLen + prefixLen fuel (p.drop nodeLen)

/-- The device path of the shim, unless it is too long for `dp_buf[512]`. -/
def shimDevicePath (fw : Efi) (device : Handle) : Option (List UInt8) :=
  let nodes := match (fw.volumes.find? fun v => v.handle == device).bind Volume.devicePath with
    | none => []
    | some hwDp => hwDp.take (prefixLen hwDp.length hwDp)
  let fpSz := 4 + (shimPath.length + 1) * 2
  if 512 < nodes.length + fpSz + 4 then none else some (nodes ++ filePathNode shimPath ++ endNode)

def invalidParameter : Refusal := ⟨efiInvalidParameter, by decide⟩

/-- What the started shim does is a run of its own. -/
def chainloadShim (fw : Efi) : EfiM Refusal Unit := do
  let handles ← locateHandles fw
  let device ← findShim fw handles
  match shimDevicePath fw device with
  | none => fail invalidParameter
  | some _ => do
      perform fw .loadImage
      perform fw .startImage

/-- When the shim cannot be started the machine is reset. -/
def bootShim (fw : Efi) : EfiM Refusal Outcome := do
  if ← succeeds (chainloadShim fw) then pure .chainloaded else pure .rebooted

/-- A refused state is only reported. -/
def applySaved (fw : Efi) : EfiM Refusal Outcome := do
  ignore (maskNvramSetAscii fw MaskShim.brrVarnameState MaskShim.stateTrialPendingPage)
  autoInstall fw
  bootShim fw

/-- A refused write ends the run with its status. -/
def applyTyped (fw : Efi) (pas : List UInt64) : EfiM Refusal Outcome := do
  setVariable fw .brr brrVarnameBadpages (badpagesBlob pas)
  maskNvramSetAscii fw MaskShim.brrVarnameState MaskShim.stateTrialPendingPage
  autoInstall fw
  bootShim fw

def efiMain (fw : Efi) (polls : List Poll) : EfiM Refusal Outcome := do
  let store ← readStore
  match prompts store polls with
  | .ends o => pure o
  | .saved => applySaved fw
  | .typed pas => applyTyped fw pas

theorem frame_autoInstall (fw : Efi) : Keeps (Frame touchedVars Set.univ) (autoInstall fw) := by
  refine reads_readStore.frame.bind fun store => ?_
  split_ifs
  · exact Keeps.pure ()
  · refine Keeps.bind (x := succeeds (installMaskFull fw)) (frame_installMaskFull fw)
      fun installed => ?_
    split_ifs
    · exact (frame_setVariable fw _ (brr_touched (by simp))).ignore
    · exact Keeps.pure ()

theorem reads_findShim (fw : Efi) (vs : List Volume) : Reads (findShim fw vs) := by
  induction vs with
  | nil => exact reads_fail notFound
  | cons v vs ih =>
      unfold findShim
      split_ifs
      · exact ih
      · refine (reads_succeeds (reads_openRead fw v.handle usbShimPath)).bind fun found => ?_
        split_ifs
        · exact reads_pure v.handle
        · exact ih

theorem reads_chainloadShim (fw : Efi) : Reads (chainloadShim fw) := by
  refine (reads_locateHandles fw).bind fun handles => ?_
  refine (reads_findShim fw handles).bind fun device => ?_
  cases shimDevicePath fw device with
  | none => exact reads_fail invalidParameter
  | some dp => exact (reads_perform fw .loadImage).bind fun _ => reads_perform fw .startImage

theorem reads_bootShim (fw : Efi) : Reads (bootShim fw) := by
  refine (reads_succeeds (reads_chainloadShim fw)).bind fun started => ?_
  split_ifs
  · exact reads_pure Outcome.chainloaded
  · exact reads_pure Outcome.rebooted

theorem frame_setState (fw : Efi) (state : String) :
    Keeps (Frame touchedVars Set.univ) (maskNvramSetAscii fw MaskShim.brrVarnameState state) :=
  frame_setVariable fw _ (brr_touched (by simp))

theorem frame_applySaved (fw : Efi) : Keeps (Frame touchedVars Set.univ) (applySaved fw) :=
  (frame_setState fw _).ignore.bind fun _ => (frame_autoInstall fw).bind fun _ =>
    (reads_bootShim fw).frame

/-- What follows the write of a new list. -/
theorem frame_afterTyped (fw : Efi) : Keeps (Frame touchedVars Set.univ) (do
    maskNvramSetAscii fw MaskShim.brrVarnameState MaskShim.stateTrialPendingPage
    autoInstall fw
    bootShim fw) :=
  (frame_setState fw _).bind fun _ => (frame_autoInstall fw).bind fun _ => (reads_bootShim fw).frame

theorem badpages_untouched : (Guid.brr, brrVarnameBadpages) ∉ touchedVars := by
  simp [touchedVars]
  decide

theorem efiMain_ends {fw : Efi} {polls : List Poll} {m : Machine} {o : Outcome}
    (h : prompts m.store polls = .ends o) : efiMain fw polls m = (.ok o, m) := by
  rw [efiMain, readStore_bind, h]
  rfl

theorem efiMain_saved {fw : Efi} {polls : List Poll} {m : Machine}
    (h : prompts m.store polls = .saved) : efiMain fw polls m = applySaved fw m := by
  rw [efiMain, readStore_bind, h]

theorem efiMain_typed {fw : Efi} {polls : List Poll} {m : Machine} {pas : List UInt64}
    (h : prompts m.store polls = .typed pas) : efiMain fw polls m = applyTyped fw pas m := by
  rw [efiMain, readStore_bind, h]

/-- Without a newly typed list the saved one stays. -/
theorem efiMain_keeps_list {fw : Efi} {polls : List Poll} {m : Machine}
    (h : ∀ pas, prompts m.store polls ≠ .typed pas) :
    (efiMain fw polls m).2.store.get? .brr brrVarnameBadpages =
      m.store.get? .brr brrVarnameBadpages := by
  cases hchoice : prompts m.store polls with
  | ends o => rw [efiMain_ends hchoice]
  | saved =>
      rw [efiMain_saved hchoice]
      exact (frame_applySaved fw m).vars _ badpages_untouched
  | typed pas => exact absurd hchoice (h pas)

/-- A newly typed list is stored, or its write is refused and the old content stays. -/
theorem efiMain_stores_list (fw : Efi) {polls : List Poll} {m : Machine} {pas : List UInt64}
    (h : prompts m.store polls = .typed pas) :
    (efiMain fw polls m).2.store.get? .brr brrVarnameBadpages =
        m.store.get? .brr brrVarnameBadpages ∨
      (efiMain fw polls m).2.store.get? .brr brrVarnameBadpages = some (badpagesBlob pas) := by
  have hblob : badpagesBlob pas ≠ [] := by simp [badpagesBlob, badpagesHeader]
  rw [efiMain_typed h, applyTyped]
  rcases setVariable_cases fw .brr brrVarnameBadpages (badpagesBlob pas) m with ⟨hrun, -⟩ | ⟨e, hrun, -⟩
  · rw [bind_of_ok _ hrun]
    refine Or.inr (((frame_afterTyped fw _).vars (.brr, brrVarnameBadpages)
      badpages_untouched).trans ?_)
    exact Store.get?_set m.store .brr brrVarnameBadpages hblob
  · rw [bind_of_error _ hrun]
    exact Or.inl rfl

end BankFinder.BrrEntry
