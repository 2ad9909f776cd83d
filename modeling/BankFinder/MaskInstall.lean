import BankFinder.AddressEntry
import BankFinder.Install

/-!
# install.efi and revert.efi

Two programs started by hand: one installs the shim, or uninstalls it when its load
options say so, the other only uninstalls. Each asks first and takes everything but Y,
also no answer within 30 seconds, as a refusal.
-/

namespace BankFinder.MaskInstall
open Nvram EfiMachine MachineFrame MaskOps MaskFrames AddressEntry Install

/-- One poll for every tenth of a second; when there are no more keys none is ready. -/
def promptYes : ℕ → List Poll → Bool × List Poll
  | 0, polls => (false, polls)
  | ticks + 1, polls =>
      let k := efiReadkey (polls.head?.getD none)
      if k = 0x59 ∨ k = 0x79 then (true, polls.tail)
      else if k ≠ 0 then (false, polls.tail)
      else promptYes ticks polls.tail

def installPromptYesno (timeoutS : ℕ) : List Poll → Bool × List Poll := promptYes (timeoutS * 10)
def installPromptYesno2 (timeoutS : ℕ) : List Poll → Bool × List Poll := promptYes (timeoutS * 10)
def uninstallPromptYesno (timeoutS : ℕ) : List Poll → Bool × List Poll := promptYes (timeoutS * 10)
def revertPrompt (timeoutS : ℕ) : List Poll → Bool × List Poll := promptYes (timeoutS * 10)

/-- `--uninstall` stands somewhere in the load options. -/
def uninstallFlag : Option (List UInt16) → Bool
  | none => false
  | some opts => opts.tails.any fun rest => (MaskShim.wide "--uninstall").isPrefixOf rest

/-- The status of a failed installation without its message. -/
def statusOf {α : Type} (x : EfiM InstallError α) : EfiM Refusal α := fun m =>
  match x m with
  | (.ok a, m') => (.ok a, m')
  | (.error e, m') => (.error e.status, m')

def varnameProbe : String := "BrrMaskProbe"

/-- Whether variables can be written; the probe is deleted again. -/
def probeNvram (fw : Efi) : EfiM Refusal Unit := do
  setVariable fw .brr varnameProbe [0x42]
  ignore (setVariable fw .brr varnameProbe [])

def installConfirmed (polls : List Poll) : Bool :=
  let first := installPromptYesno 30 polls
  first.1 && (installPromptYesno2 30 first.2).1

/-- `efi_main` of `install.efi` -/
def installMain (fw : Efi) (loadOptions : Option (List UInt16)) (polls : List Poll) :
    EfiM Refusal Unit :=
  if uninstallFlag loadOptions then
    if (uninstallPromptYesno 30 polls).1 then uninstallMaskFull fw else fail aborted
  else do
    probeNvram fw
    if installConfirmed polls then statusOf (installMaskFull fw) else fail aborted

/-- `efi_main` of `revert.efi` -/
def revertMain (fw : Efi) (polls : List Poll) : EfiM Refusal Unit :=
  if (revertPrompt 30 polls).1 then uninstallMaskFull fw else fail aborted

theorem keeps_statusOf {α : Type} {R : Machine → Machine → Prop} {x : EfiM InstallError α}
    (h : Keeps R x) : Keeps R (statusOf x) := by
  intro m
  have hm := h m
  unfold statusOf
  rcases hx : x m with ⟨e | a, m'⟩
  · rw [hx] at hm
    exact hm
  · rw [hx] at hm
    exact hm

/-- The variables of the installer, and the probe. -/
def installerVars : Set (Guid × String) := touchedVars ∪ {(.brr, varnameProbe)}

theorem frame_probeNvram (fw : Efi) : Keeps (Frame installerVars Set.univ) (probeNvram fw) :=
  (frame_setVariable fw _ (by simp [installerVars])).bind fun _ =>
    (frame_setVariable fw _ (by simp [installerVars])).ignore

theorem frame_installMain (fw : Efi) {loadOptions : Option (List UInt16)} {polls : List Poll}
    (h : uninstallFlag loadOptions = false ∨ (uninstallPromptYesno 30 polls).1 = false) :
    Keeps (Frame installerVars Set.univ) (installMain fw loadOptions polls) := by
  unfold installMain
  split_ifs with hflag hyes hconfirmed
  · rcases h with h | h
    · exact absurd hflag (by simp [h])
    · exact absurd hyes (by simp [h])
  · exact Keeps.fail aborted
  · exact (frame_probeNvram fw).bind fun _ => keeps_statusOf fun m =>
      (frame_installMaskFull fw m).mono Set.subset_union_left subset_rfl
  · exact (frame_probeNvram fw).bind fun _ => Keeps.fail aborted

end BankFinder.MaskInstall
