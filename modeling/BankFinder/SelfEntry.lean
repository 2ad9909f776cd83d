import BankFinder.BootOrder
import BankFinder.LoadOption

/-!
# The entry of the shim in the boot order

When no macOS is found the shim follows the boot order and starts the first entry whose
file loads. Its own entry is in that list, and it is told apart by its description.
-/

namespace BankFinder.SelfEntry
open LittleEndian TaggedNodes Nvram EfiMachine MachineFrame BootNames MaskOps MaskFrames
open Install InstallUndo BootOrder DevicePaths LoadOption

def optBufSize : ℕ := 4096

section
variable (refused : UInt16 → Option Refusal) (stale : UInt16 → Verdict)
variable (launch : List (UInt16 × List UInt16) → Option EfiStatus)

/-- The verdict on a slot. What is read beyond the variable was left in the buffer by
another one, so the verdict may then be any. -/
def slotVerdict (store : Store) (slot : UInt16) : Verdict :=
  let r := answerGet (refused slot) store .global (chainloadName slot) optBufSize
  if r.1 ≠ efiSuccess ∨ r.2.length < 8 then .malformed
  else
    match parseOption r.2 with
    | .ok v => v
    | .error _ => stale slot

/-- `launch` knows which files were looked for so far, the last one included. It gives the
status of the started image; without a status the search goes on. -/
def followOrder (store : Store) : List (UInt16 × List UInt16) → List UInt16 →
    Option (UInt16 × EfiStatus)
  | _, [] => none
  | tried, slot :: slots =>
      match slotVerdict refused stale store slot with
      | .file fp =>
          match launch (tried ++ [(slot, fp)]) with
          | some status => some (slot, status)
          | none => followOrder store (tried ++ [(slot, fp)]) slots
      | _ => followOrder store tried slots

def tryBootorderChainload (orderRefused : Option Refusal) (store : Store) :
    Option (UInt16 × EfiStatus) :=
  let r := answerGet orderRefused store .global bootOrderName orderBufSize
  if r.1 ≠ efiSuccess ∨ r.2.length < 2 then none
  else followOrder refused stale launch store [] (orderEntries r.2)

end

/-- The path of the shim on the internal ESP. -/
def entryName : FileName where
  chars := charsOf shimEntryPath
  nonempty := by decide
  noNul := by decide
  fits := by decide

/-- Without the path of the device. -/
def noDevice : DevicePath := ⟨[], by simp⟩

theorem installBootEntryOps_option {fw : Efi} {esp : Handle} {m m' : Machine} {slot : UInt16}
    (h : installBootEntryOps fw esp m = (.ok slot, m')) : ∃ fullDp m₁,
      MaskOps.orElse (buildFullDevicePathOps fw esp shimEntryPath)
        (filePathOnly fw shimEntryPath) m = (.ok fullDp, m₁) ∧
      (loadOption fullDp).length ≤ optBufSize ∧
      m'.store.get? .global (bootVarName slot) = some (loadOption fullDp) := by
  obtain ⟨fullDp, m₁, hdp, hrest⟩ := ok_of_bind h
  refine ⟨fullDp, m₁, hdp, ?_⟩
  split_ifs at hrest with hlong
  · cases hrest
  rw [readStore_bind] at hrest
  cases hfree : findFreeSlot m₁.store 255 0x0100 with
  | none =>
      simp only [hfree] at hrest
      cases hrest
  | some free =>
      simp only [hfree] at hrest
      obtain ⟨_, m₂, hset, hpure⟩ := ok_of_bind hrest
      cases hpure
      have hstored := setVariable_ok hset
      rw [stored, if_neg (loadOption_ne_nil fullDp)] at hstored
      exact ⟨not_lt.mp hlong, hstored⟩

/-- The device path is complete, or it is the path of the file alone. -/
theorem fullDp_eq {fw : Efi} {esp : Handle} {dp : DevicePath} (hdp : Answers fw esp dp)
    {m m₁ : Machine} {fullDp : List UInt8}
    (h : MaskOps.orElse (buildFullDevicePathOps fw esp shimEntryPath)
      (filePathOnly fw shimEntryPath) m = (.ok fullDp, m₁)) :
    fullDp = (dp.withFile entryName).bytes ∨ fullDp = (noDevice.withFile entryName).bytes := by
  have hname : charsOf shimEntryPath = entryName.chars := rfl
  unfold MaskOps.orElse at h
  cases hfull : (buildFullDevicePathOps fw esp shimEntryPath m).1 with
  | ok bytes =>
      simp only [hfull] at h
      cases h
      rw [buildFullDevicePathOps_eq hdp hname] at hfull
      obtain ⟨_, _, -, hpure⟩ := ok_of_bind (Prod.ext hfull rfl :
        allocated fw (dp.withFile entryName).bytes m = (.ok fullDp, _))
      cases hpure
      exact Or.inl rfl
  | error e =>
      simp only [hfull] at h
      obtain ⟨_, _, -, hpure⟩ := ok_of_bind h
      cases hpure
      rw [filePathNode_eq hname, withFile_bytes]
      exact Or.inr rfl

section
variable {fullDp : List UInt8}

theorem drop_loadOption (fullDp : List UInt8) : (loadOption fullDp).drop 6 =
    unitBytes (charsOf entryDescription ++ [0]) ++ fullDp := by
  rw [loadOption, ucs2_eq, List.append_assoc]
  exact List.drop_left' rfl

theorem descUnits_loadOption (fullDp : List UInt8) : descUnits (loadOption fullDp) =
    charsOf entryDescription ++ 0 :: units fullDp := by
  rw [descUnits, drop_loadOption, units_unitBytes, List.append_assoc]
  rfl

theorem descText_loadOption (fullDp : List UInt8) :
    descText (loadOption fullDp) = charsOf entryDescription := by
  rw [descText, descUnits_loadOption]
  exact textOf_terminated (by decide) _

theorem length_loadOption (fullDp : List UInt8) :
    (loadOption fullDp).length = 66 + fullDp.length := by
  rw [loadOption, List.length_append]
  rfl

theorem listStart_loadOption (fullDp : List UInt8) : listStart (loadOption fullDp) = 66 := by
  rw [listStart, descText_loadOption]
  rfl

theorem listLength_loadOption (h : (loadOption fullDp).length ≤ optBufSize) :
    listLength (loadOption fullDp) = fullDp.length := by
  have hlt : fullDp.length < 256 ^ 2 := by
    rw [length_loadOption, optBufSize] at h
    omega
  have hdecode : decode (encode 2 fullDp.length) = fullDp.length := decode_encode_of_lt hlt
  simp only [encode, decode, Nat.mul_zero, Nat.add_zero] at hdecode
  exact hdecode

theorem parseHeader_loadOption (h : (loadOption fullDp).length ≤ optBufSize) :
    parseHeader (loadOption fullDp) = .ok (some ⟨66, fullDp.length⟩) := by
  have hnul : 0 ∈ descUnits (loadOption fullDp) := by
    rw [descUnits_loadOption]
    exact List.mem_append_right _ List.mem_cons_self
  have hlen := length_loadOption fullDp
  rw [parseHeader_terminated (by omega) hnul, listStart_loadOption, listLength_loadOption h,
    if_neg (by omega)]

theorem pathList_loadOption (fullDp : List UInt8) :
    pathList (loadOption fullDp) ⟨66, fullDp.length⟩ = fullDp := by
  have hdrop : (loadOption fullDp).drop 66 = fullDp := by
    rw [loadOption]
    exact List.drop_left' rfl
  rw [pathList, hdrop, List.take_length]

/-- The word in the description which gives the entry away. -/
theorem parseOption_loadOption (h : (loadOption fullDp).length ≤ optBufSize) :
    parseOption (loadOption fullDp) = .ok .self := by
  have hnul : 0 ∈ descUnits (loadOption fullDp) := by
    rw [descUnits_loadOption]
    exact List.mem_append_right _ List.mem_cons_self
  have hlen := length_loadOption fullDp
  rw [parseOption_terminated (by omega) hnul, listStart_loadOption, listLength_loadOption h,
    descText_loadOption, if_neg (by omega), if_neg (by decide), if_pos (by decide)]

end

section
variable {refused : UInt16 → Option Refusal} {stale : UInt16 → Verdict}
variable {launch : List (UInt16 × List UInt16) → Option EfiStatus}
variable {store : Store} {slots : List UInt16} {tried : List (UInt16 × List UInt16)}

/-- Taking out slots which lead to no file changes nothing. -/
theorem followOrder_filter (p : UInt16 → Bool)
    (h : ∀ s, p s = false → ∀ fp, slotVerdict refused stale store s ≠ .file fp) :
    followOrder refused stale launch store tried slots =
      followOrder refused stale launch store tried (slots.filter p) := by
  induction slots generalizing tried with
  | nil => rfl
  | cons slot slots ih =>
      cases hp : p slot with
      | false =>
          have hskip := h slot hp
          rw [List.filter_cons_of_neg (by rw [hp]; exact Bool.false_ne_true), ← ih, followOrder]
          cases hverdict : slotVerdict refused stale store slot with
          | file fp => exact absurd hverdict (hskip fp)
          | malformed | usb | self | noPath => rfl
      | true =>
          rw [List.filter_cons_of_pos hp, followOrder, followOrder]
          cases slotVerdict refused stale store slot with
          | file fp =>
              simp only []
              cases launch (tried ++ [(slot, fp)]) with
              | some status => rfl
              | none => exact ih
          | malformed | usb | self | noPath => exact ih

theorem followOrder_mem {slot : UInt16} {status : EfiStatus}
    (h : followOrder refused stale launch store tried slots = some (slot, status)) :
    slot ∈ slots := by
  induction slots generalizing tried with
  | nil => exact absurd h (by simp [followOrder])
  | cons s slots ih =>
      rw [followOrder] at h
      cases hverdict : slotVerdict refused stale store s with
      | file fp =>
          simp only [hverdict] at h
          cases hlaunch : launch (tried ++ [(s, fp)]) with
          | some result =>
              simp only [hlaunch] at h
              cases h
              exact List.mem_cons_self
          | none =>
              simp only [hlaunch] at h
              exact List.mem_cons_of_mem _ (ih h)
      | malformed | usb | self | noPath =>
          simp only [hverdict] at h
          exact List.mem_cons_of_mem _ (ih h)

/-- A slot whose variable is an option of the installer is the shim itself, when the firmware
lets it be read. -/
theorem slotVerdict_self {slot : UInt16} {fullDp : List UInt8}
    (hstored : store.get? .global (chainloadName slot) = some (loadOption fullDp))
    (hfits : (loadOption fullDp).length ≤ optBufSize) :
    slotVerdict refused stale store slot = if refused slot = none then .self else .malformed := by
  have hlen := length_loadOption fullDp
  unfold slotVerdict
  cases refused slot with
  | some e =>
      have hrefused : (answerGet (some e) store .global (chainloadName slot) optBufSize).1 ≠
          efiSuccess := e.2
      simp only [if_pos (Or.inl hrefused)]
      rfl
  | none =>
      have hread : answerGet none store .global (chainloadName slot) optBufSize =
          (efiSuccess, loadOption fullDp) := getVariable_fits hstored hfits
      have hcond : ¬(efiSuccess ≠ efiSuccess ∨ (loadOption fullDp).length < 8) := by
        rintro (hne | hshort)
        · exact hne rfl
        · omega
      rw [hread]
      simp only [if_neg hcond, parseOption_loadOption hfits]
      rfl

end

/-- The slots of the boot order which do not lead to the variable of the installer's entry. -/
def otherSlots (slot : UInt16) (slots : List UInt16) : List UInt16 :=
  slots.filter fun s => chainloadName s ≠ bootVarName slot

/-- The option which the installer stores is read back as it was put together, and it is the
entry of the shim itself. As long as the variable holds it, following any boot order is the
same as following that order without it, so it is never started. -/
theorem never_relaunches {fw : Efi} {esp : Handle} {m m' : Machine} {slot : UInt16}
    (h : installBootEntryOps fw esp m = (.ok slot, m')) {dp : DevicePath}
    (hdp : Answers fw esp dp) : ∃ fullDp hd,
      (fullDp = (dp.withFile entryName).bytes ∨ fullDp = (noDevice.withFile entryName).bytes) ∧
      m'.store.get? .global (bootVarName slot) = some (loadOption fullDp) ∧
      parseHeader (loadOption fullDp) = .ok (some hd) ∧
      descText (loadOption fullDp) = charsOf entryDescription ∧
      pathList (loadOption fullDp) hd = fullDp ∧
      parseOption (loadOption fullDp) = .ok .self ∧
      ∀ refused stale launch store,
        store.get? .global (bootVarName slot) = some (loadOption fullDp) →
        (∀ s, chainloadName s = bootVarName slot → slotVerdict refused stale store s =
          if refused s = none then .self else .malformed) ∧
        (∀ slots, followOrder refused stale launch store [] slots =
          followOrder refused stale launch store [] (otherSlots slot slots)) ∧
        ∀ orderRefused s status,
          tryBootorderChainload refused stale launch orderRefused store = some (s, status) →
          chainloadName s ≠ bootVarName slot := by
  obtain ⟨fullDp, m₁, hbuilt, hfits, hstored⟩ := installBootEntryOps_option h
  refine ⟨fullDp, ⟨66, fullDp.length⟩, fullDp_eq hdp hbuilt, hstored,
    parseHeader_loadOption hfits, descText_loadOption fullDp, pathList_loadOption fullDp,
    parseOption_loadOption hfits, ?_⟩
  intro refused stale launch store hheld
  have hself (s : UInt16) (hname : chainloadName s = bootVarName slot) :
      slotVerdict refused stale store s = if refused s = none then .self else .malformed :=
    slotVerdict_self (by rw [hname]; exact hheld) hfits
  have hfilter (slots : List UInt16) : followOrder refused stale launch store [] slots =
      followOrder refused stale launch store [] (otherSlots slot slots) := by
    refine followOrder_filter _ fun s hs fp hfile => ?_
    rw [hself s (by simpa using hs)] at hfile
    split_ifs at hfile
  refine ⟨hself, hfilter, fun orderRefused s status hrun => ?_⟩
  unfold tryBootorderChainload at hrun
  simp only [] at hrun
  split_ifs at hrun
  rw [hfilter] at hrun
  have hmem := List.mem_filter.mp (followOrder_mem hrun)
  simpa using hmem.2

def pciEfi : Efi := plainEfi 1 [pciDisk]

theorem never_relaunches_pci : ∃ fullDp hd,
    (fullDp = (pciPath.withFile entryName).bytes ∨
      fullDp = (noDevice.withFile entryName).bytes) ∧
    parseHeader (loadOption fullDp) = .ok (some hd) ∧ pathList (loadOption fullDp) hd = fullDp ∧
    parseOption (loadOption fullDp) = .ok .self := by
  have hrun : installBootEntryOps pciEfi 2 freshComputer =
      (.ok 0x100, (installBootEntryOps pciEfi 2 freshComputer).2) :=
    run_of_ok (by decide +kernel)
  obtain ⟨fullDp, hd, hbytes, -, hheader, -, hlist, hself, -⟩ :=
    @never_relaunches _ _ _ _ _ hrun pciPath ⟨[], by decide⟩
  exact ⟨fullDp, hd, hbytes, hheader, hlist, hself⟩

end BankFinder.SelfEntry
