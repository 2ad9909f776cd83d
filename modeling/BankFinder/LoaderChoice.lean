import BankFinder.SearchComplete
import BankFinder.SelfEntry
import BankFinder.StateHistory
import BankFinder.TieredSearch

/-!
# Which loader is started

`find_macos_boot` goes through the volumes twice, at first without the stick and without
removable media, and `try_bootorder_chainload` follows the boot order when no volume offers a
loader. What is started in the end is the offer at the least place of three tiers, and it is
started after everything else the shim does.
-/

namespace BankFinder.LoaderChoice
open Nvram EfiMachine BootSession BootNames BootOrder DevicePaths LoadOption SelfEntry BootSearch
open SearchComplete MaskShim SavedList StateHistory TieredSearch

/-- A handle with the file system protocol. It is removable when its block device says so, and
has no volume when none can be opened. -/
structure SfsHandle (H I : Type) where
  device : Handle
  removable : Bool
  volume : Option (Volume H I)

/-- What the choice depends on. `own` is the device of the shim's image, `located` the answer of
`LocateHandle`, and `started` what an image returns if it comes back. -/
structure Volumes (H I : Type) where
  own : Option Handle
  located : Except Refusal (List (SfsHandle H I))
  started : I → EfiStatus

variable {H I : Type}

/-- What is started: a file on a volume, or the file of a boot entry. -/
inductive Loader (I : Type) where
  | macos (device : Handle) (image : I)
  | entry (slot : UInt16) (image : I)
  deriving DecidableEq, Repr

/-- One pass of `find_macos_boot`. -/
def probePass (own : Option Handle) (pass : ℕ) : List (SfsHandle H I) → Option (Handle × I)
  | [] => none
  | h :: handles =>
      if pass = 0 ∧ some h.device = own then probePass own pass handles
      else if pass = 0 ∧ h.removable = true then probePass own pass handles
      else
        match h.volume with
        | none => probePass own pass handles
        | some vol =>
            match tryOpenCandidates vol with
            | some (_, image) => some (h.device, image)
            | none => probePass own pass handles

def findMacosBoot (v : Volumes H I) : Except Refusal (Handle × I) :=
  match v.located with
  | .error status => .error status
  | .ok handles =>
      match probePass v.own 0 handles with
      | some hit => .ok hit
      | none =>
          match probePass v.own 1 handles with
          | some hit => .ok hit
          | none => .error notFound

/-- The loop of `try_bootorder_chainload` over the volumes. -/
def loadFromVolumes (path : List UInt16) : List (SfsHandle H I) → Option I
  | [] => none
  | h :: handles =>
      match h.volume with
      | none => loadFromVolumes path handles
      | some vol =>
          match tryPath vol path with
          | some image => some image
          | none => loadFromVolumes path handles

/-- The firmware's answers to the reads of `BootOrder` and of the entries, and the verdicts on
what an earlier entry left in the buffer. -/
structure OrderReads where
  orderRefused : Option Refusal
  refused : UInt16 → Option Refusal
  stale : UInt16 → Verdict

/-- The image of an entry, from the first volume on which its file loads. -/
def entryImage (v : Volumes H I) (path : List UInt16) : Option I :=
  match v.located with
  | .error _ => none
  | .ok handles => loadFromVolumes path handles

/-- What the last file looked for comes to. -/
def launch (v : Volumes H I) (tried : List (UInt16 × List UInt16)) : Option EfiStatus :=
  match tried.getLast? with
  | none => none
  | some (_, path) => (entryImage v path).map v.started

def followedOrder (v : Volumes H I) (reads : OrderReads) (store : Store) :
    Option (UInt16 × EfiStatus) :=
  tryBootorderChainload reads.refused reads.stale (launch v) reads.orderRefused store

/-- The end of `efi_main`, with the variables as they are then. -/
def searchOutcome (v : Volumes H I) (reads : OrderReads) (store : Store) : MaskShim.BootSearch :=
  match findMacosBoot v with
  | .ok (_, image) => ⟨efiSuccess, v.started image, none⟩
  | .error e => ⟨e.1, efiNotFound, (followedOrder v reads store).map Prod.snd⟩

/-- Neither the stick nor another removable medium. -/
def Internal (v : Volumes H I) (h : SfsHandle H I) : Prop :=
  some h.device ≠ v.own ∧ h.removable = false

instance (v : Volumes H I) (h : SfsHandle H I) : Decidable (Internal v h) :=
  inferInstanceAs (Decidable (_ ∧ _))

/-- What the search on one volume finds. -/
def offer (h : SfsHandle H I) : Option (Loader I) :=
  h.volume.bind fun vol => (tryOpenCandidates vol).map fun hit => .macos h.device hit.2

def handles (v : Volumes H I) : List (SfsHandle H I) :=
  match v.located with
  | .error _ => []
  | .ok hs => hs

/-- The slots which are followed. -/
def slots (reads : OrderReads) (store : Store) : List UInt16 :=
  let r := answerGet reads.orderRefused store .global bootOrderName MaskOps.orderBufSize
  if r.1 ≠ efiSuccess ∨ r.2.length < 2 then [] else orderEntries r.2

def entryOffer (v : Volumes H I) (reads : OrderReads) (store : Store) (slot : UInt16) :
    Option (Loader I) :=
  match slotVerdict reads.refused reads.stale store slot with
  | .file path => (entryImage v path).map fun image => .entry slot image
  | _ => none

/-- The internal volumes, all volumes, the boot order. -/
def tiers (v : Volumes H I) (reads : OrderReads) (store : Store) :
    List (List (Option (Loader I))) :=
  [(handles v).map fun h => if Internal v h then offer h else none, (handles v).map offer,
    (slots reads store).map (entryOffer v reads store)]

def chosen (v : Volumes H I) (reads : OrderReads) (store : Store) : Option (Loader I) :=
  firstFound (tiers v reads store)

section
variable (v : Volumes H I) (reads : OrderReads) (store : Store)

theorem probePass_eq (own : Option Handle) (pass : ℕ) (hs : List (SfsHandle H I)) :
    (probePass own pass hs).map (fun hit => Loader.macos hit.1 hit.2) =
      hs.findSome? fun h =>
        if pass = 0 ∧ ¬(some h.device ≠ own ∧ h.removable = false) then none else offer h := by
  induction hs with
  | nil => rfl
  | cons h hs ih =>
      rw [probePass, List.findSome?_cons]
      by_cases hown : pass = 0 ∧ some h.device = own
      · rw [if_pos hown, if_pos ⟨hown.1, fun hinternal => hinternal.1 hown.2⟩, ih]
      by_cases hremovable : pass = 0 ∧ h.removable = true
      · have hskip : pass = 0 ∧ ¬(some h.device ≠ own ∧ h.removable = false) := by
          refine ⟨hremovable.1, fun hinternal => ?_⟩
          rw [hremovable.2] at hinternal
          cases hinternal.2
        rw [if_neg hown, if_pos hremovable, if_pos hskip, ih]
      · have hprobe : ¬(pass = 0 ∧ ¬(some h.device ≠ own ∧ h.removable = false)) := by
          intro ⟨hpass, hnot⟩
          refine hnot ⟨fun hsame => hown ⟨hpass, hsame⟩, ?_⟩
          exact Bool.eq_false_iff.mpr fun htrue => hremovable ⟨hpass, htrue⟩
        rw [if_neg hown, if_neg hremovable, if_neg hprobe, offer]
        cases h.volume with
        | none => exact ih
        | some vol =>
            simp only [Option.bind_some]
            cases tryOpenCandidates vol with
            | none => exact ih
            | some hit => rfl

/-- The entries are followed in their order up to the first which loads. -/
theorem followOrder_eq (tried : List (UInt16 × List UInt16)) (order : List UInt16) :
    followOrder reads.refused reads.stale (launch v) store tried order =
      order.findSome? fun slot => match slotVerdict reads.refused reads.stale store slot with
        | .file path => (entryImage v path).map fun image => (slot, v.started image)
        | _ => none := by
  induction order generalizing tried with
  | nil => rfl
  | cons slot order ih =>
      rw [followOrder, List.findSome?_cons]
      cases slotVerdict reads.refused reads.stale store slot with
      | file path =>
          simp only [launch, List.getLast?_concat]
          cases entryImage v path with
          | none => exact ih _
          | some image => rfl
      | malformed | usb | self | noPath => exact ih tried

/-- What the image returns when it comes back. -/
def returned : Loader I → EfiStatus
  | .macos _ image => v.started image
  | .entry _ image => v.started image

theorem followedOrder_eq : (followedOrder v reads store).map Prod.snd =
    ((slots reads store).findSome? (entryOffer v reads store)).map (returned v) := by
  have hslots : followedOrder v reads store = followOrder reads.refused reads.stale (launch v)
      store [] (slots reads store) := by
    unfold followedOrder tryBootorderChainload slots
    simp only
    split_ifs
    · rfl
    · rfl
  rw [hslots, followOrder_eq, List.map_findSome?, List.map_findSome?]
  congr 1
  funext slot
  simp only [Function.comp_apply, entryOffer]
  cases slotVerdict reads.refused reads.stale store slot with
  | file path =>
      simp only [Option.map_map]
      rfl
  | malformed | usb | self | noPath => rfl

/-- Both passes together. -/
theorem findMacosBoot_cases :
    (∃ device image, findMacosBoot v = .ok (device, image) ∧
      ((handles v).findSome? fun h => if Internal v h then offer h else none).or
        ((handles v).findSome? offer) = some (.macos device image)) ∨
    ∃ e, findMacosBoot v = .error e ∧
      ((handles v).findSome? fun h => if Internal v h then offer h else none).or
        ((handles v).findSome? offer) = none := by
  unfold findMacosBoot handles
  cases v.located with
  | error e => exact Or.inr ⟨e, rfl, rfl⟩
  | ok hs =>
      have hfirst := probePass_eq v.own 0 hs
      have hsecond := probePass_eq v.own 1 hs
      have hinternal : (fun h : SfsHandle H I => if (0 : ℕ) = 0 ∧
          ¬(some h.device ≠ v.own ∧ h.removable = false) then none else offer h) =
          fun h => if Internal v h then offer h else none := by
        funext h
        simp only [true_and, ite_not]
        rfl
      have hall : (fun h : SfsHandle H I => if (1 : ℕ) = 0 ∧
          ¬(some h.device ≠ v.own ∧ h.removable = false) then none else offer h) = offer := by
        funext h
        simp only [Nat.one_ne_zero, false_and, if_false]
      rw [hinternal] at hfirst
      rw [hall] at hsecond
      simp only [← hfirst, ← hsecond]
      cases probePass v.own 0 hs with
      | some hit => exact Or.inl ⟨hit.1, hit.2, rfl, rfl⟩
      | none =>
          cases probePass v.own 1 hs with
          | some hit => exact Or.inl ⟨hit.1, hit.2, rfl, rfl⟩
          | none => exact Or.inr ⟨notFound, rfl, rfl⟩

theorem chosen_eq : chosen v reads store =
    (((handles v).findSome? fun h => if Internal v h then offer h else none).or
      ((handles v).findSome? offer)).or ((slots reads store).findSome?
        (entryOffer v reads store)) := by
  unfold chosen firstFound tiers
  simp only [List.findSome?_cons, List.findSome?_nil, List.findSome?_map, Function.id_comp]
  cases (handles v).findSome? fun h => if Internal v h then offer h else none with
  | some l => rfl
  | none =>
      cases (handles v).findSome? offer with
      | some l => rfl
      | none =>
          cases (slots reads store).findSome? (entryOffer v reads store) with
          | some l => rfl
          | none => rfl

theorem not_macos_of_entryOffer {slot : UInt16} {l : Loader I}
    (h : entryOffer v reads store slot = some l) : ∃ image, l = .entry slot image := by
  unfold entryOffer at h
  cases hverdict : slotVerdict reads.refused reads.stale store slot with
  | file path =>
      rw [hverdict] at h
      obtain ⟨image, -, rfl⟩ := Option.map_eq_some_iff.mp h
      exact ⟨image, rfl⟩
  | malformed | usb | self | noPath =>
      rw [hverdict] at h
      cases h

/-- The search comes to what is chosen. -/
theorem searchOutcome_cases :
    (∃ device image, chosen v reads store = some (.macos device image) ∧
      searchOutcome v reads store = ⟨efiSuccess, v.started image, none⟩) ∨
    ∃ e : Refusal, searchOutcome v reads store =
        ⟨e.1, efiNotFound, (chosen v reads store).map (returned v)⟩ ∧
      ∀ device image, chosen v reads store ≠ some (.macos device image) := by
  rw [chosen_eq]
  unfold searchOutcome
  rcases findMacosBoot_cases v with ⟨device, image, hfound, hoffers⟩ | ⟨e, hfailed, hnone⟩
  · rw [hfound, hoffers]
    exact Or.inl ⟨device, image, rfl, rfl⟩
  · rw [hfailed, hnone, Option.none_or]
    refine Or.inr ⟨e, ?_, ?_⟩
    · simp only
      rw [followedOrder_eq]
    · intro device image hmacos
      obtain ⟨slot, -, hoffer⟩ := List.exists_of_findSome?_eq_some hmacos
      obtain ⟨image', hentry⟩ := not_macos_of_entryOffer v reads store hoffer
      cases hentry

end

section
variable {σ : Type} (env : ShimEnv σ)

/-- A run of the shim up to the search. -/
def beforeLoader (s : Session σ) : Session σ :=
  let choice :=
    if passthroughFlag env.loadOptions then (⟨true, false⟩, s) else handleNvramState env s
  if choice.1.skipMask then choice.2 else applyMask env choice.1.forceChip choice.2

theorem efiMain_eq_chainload (s : Session σ) :
    MaskShim.efiMain env s = chainload env (beforeLoader env s) := by
  unfold MaskShim.efiMain beforeLoader
  simp only
  split_ifs <;> rfl

/-- What the run returns: the status of macOS, or of an entry which ended well. -/
def returns (v : Volumes H I) : Loader I → EfiStatus
  | .macos _ image => v.started image
  | .entry _ image => if v.started image = efiSuccess then efiSuccess else efiNotFound

theorem chainload_chosen (v : Volumes H I) (reads : OrderReads) (s : Session σ) :
    chainload { env with boot := searchOutcome v reads s.nvram } s =
      match chosen v reads s.nvram with
      | none => (efiNotFound, s)
      | some l => (returns v l, s.log .startImage) := by
  unfold chainload
  rcases searchOutcome_cases v reads s.nvram with ⟨device, image, hchosen, heq⟩ | ⟨e, heq, hnot⟩
  · rw [heq, hchosen]
    exact if_pos rfl
  · rw [heq]
    simp only [if_neg e.2]
    cases hchosen : chosen v reads s.nvram with
    | none => rfl
    | some l =>
        cases l with
        | macos device image => exact absurd hchosen (hnot device image)
        | entry slot image =>
            simp only [Option.map_some, returned, returns]
            split_ifs with hended
            · rw [hended]
            · rfl

/-- No stick and not the shim itself, as far as the description of the entry tells. -/
def NotOurs (store : Store) (slot : UInt16) : Prop :=
  ∀ data, store.get? .global (chainloadName slot) = some data → 0 ∈ descUnits data →
    ¬NamesUsb (descText data) ∧ ¬NamesSelf (descText data)

theorem notOurs_of_file {refused : UInt16 → Option Refusal} {stale : UInt16 → Verdict}
    {store : Store} {slot : UInt16} {path : List UInt16}
    (h : slotVerdict refused stale store slot = .file path) : NotOurs store slot := by
  intro data hget hnul
  unfold slotVerdict at h
  cases hrefused : refused slot with
  | some e =>
      have hread : answerGet (some e) store .global (chainloadName slot) optBufSize = (e.1, []) :=
        rfl
      rw [hrefused, hread] at h
      simp [e.2] at h
  | none =>
      have hread : answerGet none store .global (chainloadName slot) optBufSize =
          getVariable store .global (chainloadName slot) optBufSize := rfl
      rw [hrefused, hread] at h
      simp only at h
      split_ifs at h with hcond
      simp only [not_or, not_not, not_lt] at hcond
      have hdata : (getVariable store .global (chainloadName slot) optBufSize).2 = data :=
        Option.some.inj ((Install.get?_of_getVariable hcond.1).symm.trans hget)
      rw [hdata] at h hcond
      rw [parseOption_terminated hcond.2 hnul] at h
      split_ifs at h with hlength husb hself
      exact ⟨husb, hself⟩

/-- An entry of the boot order is not one of ours. -/
def Allowed (store : Store) : Loader I → Prop
  | .macos _ _ => True
  | .entry slot _ => NotOurs store slot

theorem allowed_of_chosen {v : Volumes H I} {reads : OrderReads} {store : Store} {l : Loader I}
    (h : chosen v reads store = some l) : Allowed store l := by
  cases l with
  | macos _ _ => trivial
  | entry slot image =>
      rw [chosen_eq] at h
      rcases Option.or_eq_some_iff.mp h with hmacos | ⟨-, hentry⟩
      · rcases findMacosBoot_cases v with ⟨device, image', -, hoffers⟩ | ⟨e, -, hnone⟩
        · rw [hoffers] at hmacos
          cases hmacos
        · rw [hnone] at hmacos
          cases hmacos
      · obtain ⟨slot', -, hoffer⟩ := List.exists_of_findSome?_eq_some hentry
        unfold entryOffer at hoffer
        cases hverdict : slotVerdict reads.refused reads.stale store slot' with
        | file path =>
            rw [hverdict] at hoffer
            obtain ⟨image', -, hsame⟩ := Option.map_eq_some_iff.mp hoffer
            obtain ⟨rfl, -⟩ := Loader.entry.inj hsame
            exact notOurs_of_file hverdict
        | malformed | usb | self | noPath =>
            rw [hverdict] at hoffer
            cases hoffer

theorem beforeLoader_not_started (fw : Efi) (m : Machine) {s : Session σ}
    (h : .startImage ∉ s.trace) :
    .startImage ∉ (beforeLoader { env with uninstallMaskFull := uninstallFrom fw m } s).trace := by
  have hstate := (mem_handleNvramState_trace env fw m s (e := .startImage) (by simp) (by simp)).not
  unfold beforeLoader
  by_cases hflag : passthroughFlag env.loadOptions = true
  · simp only [if_pos hflag, if_true]
    exact h
  · simp only [if_neg hflag]
    cases (handleNvramState { env with uninstallMaskFull := uninstallFrom fw m } s).1.skipMask with
    | true =>
        rw [if_pos rfl]
        exact hstate.mpr h
    | false =>
        rw [if_neg Bool.false_ne_true]
        exact applyMask_not_started _ _ (hstate.mpr h)

/-- Whatever is masked and whatever the firmware lists, the shim starts the preferred one of all
offers, and at most this one: from an internal volume if one has a loader, from any volume
otherwise, and from the boot order at last, but neither a stick's entry nor its own. Everything
else it does comes before, and without an offer nothing is started. -/
theorem loader_choice (v : Volumes H I) (reads : OrderReads) (fw : Efi) (m : Machine) (mem : σ)
    (keys : List UInt16) :
    let env' := { env with uninstallMaskFull := uninstallFrom fw m }
    let start := Session.start mem m.store keys
    let before := beforeLoader env' start
    let run := MaskShim.efiMain { env' with boot := searchOutcome v reads before.nvram } start
    .startImage ∉ before.trace ∧
      ((∃ l, Preferred (tiers v reads before.nvram) l ∧ Allowed before.nvram l ∧
          run = (returns v l, before.log .startImage)) ∨
        (∀ k l, ¬FoundAt (tiers v reads before.nvram) k l) ∧ run = (efiNotFound, before)) := by
  intro env' start before run
  refine ⟨beforeLoader_not_started env fw m List.not_mem_nil, ?_⟩
  have hrun : run = chainload { env' with boot := searchOutcome v reads before.nvram } before :=
    efiMain_eq_chainload _ start
  rw [hrun, chainload_chosen env' v reads before]
  cases hchosen : chosen v reads before.nvram with
  | none => exact Or.inr ⟨firstFound_none_iff.mp hchosen, rfl⟩
  | some l =>
      exact Or.inl ⟨l, firstFound_eq_some_iff.mp hchosen, allowed_of_chosen hchosen, rfl⟩

/-- The firmware lists the stick first; macOS is on the disk behind it. -/
def stickAndDisk : Volumes Place UInt8 where
  own := some 1
  located := .ok [⟨1, true, some (strictVolume (loaderBelow (some 7)))⟩,
    ⟨2, false, some (strictVolume (loaderBelow (some 8)))⟩]
  started _ := efiSuccess

example : chosen stickAndDisk ⟨none, fun _ => none, fun _ => .malformed⟩ [] =
    some (.macos 2 8) := by
  decide +kernel

end

end BankFinder.LoaderChoice
