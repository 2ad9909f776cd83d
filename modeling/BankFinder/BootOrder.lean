import BankFinder.InstallUndo

/-!
# The boot order and the entry at its head

The installer puts the slot of its entry in front of the boot order which it has read. A
boot order which could not be read counts as empty, also when it did not fit into the
buffer. The name of the entry is written with lower-case digits, and whoever follows the
boot order looks for upper-case ones.
-/

namespace BankFinder.BootOrder
open LittleEndian Nvram EfiMachine MachineFrame BootNames MaskOps MaskFrames Install InstallUndo

/-- `GetVariable` of a firmware which may refuse the call. -/
def answerGet (refused : Option Refusal) (store : Store) (guid : Guid) (name : String)
    (cap : ℕ) : EfiStatus × List UInt8 :=
  match refused with
  | some e => (e.1, [])
  | none => getVariable store guid name cap

/-- `current[]` after a read with the given answer. -/
def orderRead (r : EfiStatus × List UInt8) : List UInt8 :=
  if r.1 = efiSuccess then r.2.take (r.2.length / 2 * 2) else []

/-- `prepend_boot_order_ops` with the answer to its `GetVariable` call. -/
def prependBootOrder (fw : Efi) (refused : Option Refusal) (slot : UInt16) :
    EfiM Refusal Unit := do
  let store ← readStore
  let r := answerGet refused store .global bootOrderName orderBufSize
  setVariable fw .global bootOrderName (encode 2 slot.toNat ++ orderRead r)

theorem prependBootOrder_none (fw : Efi) (slot : UInt16) :
    prependBootOrder fw none slot = prependBootOrderOps fw slot := rfl

/-- The 16-bit entries of a boot order; a byte which is left over is none. -/
def orderEntries (data : List UInt8) : List UInt16 :=
  (chunks 2 (data.length / 2) data).map fun bytes => UInt16.ofNat (decode bytes)

/-- The content of `BootOrder`; without the variable there is none. -/
def heldOrder (store : Store) : List UInt8 := (store.get? .global bootOrderName).getD []

theorem orderEntries_cons (slot : UInt16) (data : List UInt8) :
    orderEntries (encode 2 slot.toNat ++ data) = slot :: orderEntries data := by
  have hlength : (encode 2 slot.toNat ++ data).length / 2 = data.length / 2 + 1 := by
    rw [List.length_append, length_encode]
    omega
  have hchunks : chunks 2 (data.length / 2 + 1) (encode 2 slot.toNat ++ data) =
      encode 2 slot.toNat :: chunks 2 (data.length / 2) data := by
    rw [chunks, List.take_left' (length_encode 2 _), List.drop_left' (length_encode 2 _)]
  have hslot : decode (encode 2 slot.toNat) = slot.toNat := decode_encode_of_lt slot.toNat_lt
  rw [orderEntries, hlength, hchunks, List.map_cons, hslot, UInt16.ofNat_toNat, orderEntries]

/-- A byte which is left over does not matter. -/
theorem orderEntries_take (data : List UInt8) :
    orderEntries (data.take (data.length / 2 * 2)) = orderEntries data := by
  have hlength : (data.take (data.length / 2 * 2)).length / 2 = data.length / 2 := by
    rw [List.length_take]
    omega
  rw [orderEntries, hlength, chunks_take, orderEntries]

theorem orderEntries_eq_nil {data : List UInt8} : orderEntries data = [] ↔ data.length < 2 := by
  unfold orderEntries
  rw [List.map_eq_nil_iff, ← List.length_eq_zero_iff, length_chunks]
  omega

theorem prependBootOrder_ok {fw : Efi} {refused : Option Refusal} {slot : UInt16}
    {m m' : Machine} (h : prependBootOrder fw refused slot m = (.ok (), m')) :
    orderEntries (heldOrder m'.store) = slot :: orderEntries (orderRead
      (answerGet refused m.store .global bootOrderName orderBufSize)) := by
  rw [prependBootOrder, readStore_bind] at h
  have hstored := setVariable_ok h
  rw [stored, if_neg (List.append_ne_nil_of_left_ne_nil (slotBytes_ne_nil slot) _)] at hstored
  rw [heldOrder, hstored, Option.getD_some, orderEntries_cons]

theorem orderRead_getVariable (store : Store) :
    orderRead (getVariable store .global bootOrderName orderBufSize) =
      if (heldOrder store).length ≤ orderBufSize then
        (heldOrder store).take ((heldOrder store).length / 2 * 2)
      else [] := by
  cases hget : store.get? .global bootOrderName with
  | none =>
      have hheld : heldOrder store = [] := by rw [heldOrder, hget, Option.getD_none]
      rw [getVariable, hget, hheld]
      rfl
  | some order =>
      have hheld : heldOrder store = order := by rw [heldOrder, hget, Option.getD_some]
      rw [hheld]
      by_cases hfits : order.length ≤ orderBufSize
      · rw [getVariable_fits hget hfits, if_pos hfits]
        rfl
      · rw [getVariable, hget, if_neg hfits]
        simp only [if_pos (not_le.mp hfits)]
        rfl

/-- The slot comes in front of all former entries exactly when there were none, or they could
be read and fit into the buffer. -/
theorem entries_kept_iff {fw : Efi} {refused : Option Refusal} {slot : UInt16} {m m' : Machine}
    (h : prependBootOrder fw refused slot m = (.ok (), m')) :
    orderEntries (heldOrder m'.store) = slot :: orderEntries (heldOrder m.store) ↔
      (heldOrder m.store).length < 2 ∨
        refused = none ∧ (heldOrder m.store).length ≤ orderBufSize := by
  rw [prependBootOrder_ok h, List.cons_inj_right, ← orderEntries_eq_nil]
  have hlost : orderEntries [] = orderEntries (heldOrder m.store) ↔
      orderEntries (heldOrder m.store) = [] := eq_comm
  cases refused with
  | some e =>
      have hread : orderRead (answerGet (some e) m.store .global bootOrderName orderBufSize) = [] :=
        if_neg e.2
      rw [hread, hlost]
      simp
  | none =>
      have hread : orderRead (answerGet none m.store .global bootOrderName orderBufSize) = _ :=
        orderRead_getVariable m.store
      rw [hread]
      split_ifs with hfits
      · rw [orderEntries_take]
        simp [hfits]
      · rw [hlost]
        simp [hfits]

theorem entries_kept_fresh :
    orderEntries (heldOrder (prependBootOrder usbEfi none 0x100 freshComputer).2.store) =
      0x100 :: orderEntries (heldOrder freshComputer.store) :=
  (entries_kept_iff (run_of_ok (by decide +kernel))).mpr (Or.inr ⟨rfl, by decide⟩)

/-- A computer with 257 boot entries in its boot order. -/
def manyEntries : Machine :=
  ⟨[⟨.global, bootOrderName, List.replicate 514 0⟩], fun _ => ∅, [], 0⟩

/-- Only the new slot is left. -/
theorem long_order_lost :
    (prependBootOrderOps usbEfi 0x100 manyEntries).1 = .ok () ∧
      orderEntries (heldOrder manyEntries.store) ≠ [] ∧
      orderEntries (heldOrder (prependBootOrderOps usbEfi 0x100 manyEntries).2.store) = [0x100] := by
  refine ⟨by decide +kernel, by decide +kernel, by decide +kernel⟩

/-- `name[]` in `try_bootorder_chainload`, as `Boot%04X`. -/
def chainloadName (slot : UInt16) : String :=
  String.ofList ("Boot".toList ++ ([12, 8, 4, 0] : List UInt16).map fun shift =>
    "0123456789ABCDEF".toList.getD ((slot >>> shift) &&& 0xF).toNat '0')

def headSlot (store : Store) : Option UInt16 := (orderEntries (heldOrder store)).head?

/-- The slot leads to the load option which was written between the two stores, and the
entries which were there before are kept. -/
structure Designates (before after : Store) (slot : UInt16) : Prop where
  entry : ∃ data, after.get? .global (chainloadName slot) = some data ∧ PointsAtShim data
  fresh : before.get? .global (chainloadName slot) = none
  kept : ∀ name, isBootEntry name = true → before.get? .global name ≠ none →
    after.get? .global name = before.get? .global name

/-- All boot entries are named with upper-case digits. -/
def UpperNames (store : Store) : Prop :=
  ∀ name, isBootEntry name = true → store.get? .global name ≠ none →
    ∀ c ∈ name.toList.drop 4, ¬('a' ≤ c ∧ c ≤ 'f')

/-- The name of the slot `0x100 + n`. -/
def numberedName (n : ℕ) : String := chainloadName (UInt16.ofNat (0x100 + n))

theorem findFreeSlot_congr {store store' : Store}
    (h : ∀ slot, store.get? .global (bootVarName slot) = store'.get? .global (bootVarName slot))
    (fuel : ℕ) (slot : UInt16) : findFreeSlot store fuel slot = findFreeSlot store' fuel slot := by
  induction fuel generalizing slot with
  | zero => rfl
  | succ fuel ih =>
      unfold findFreeSlot
      rw [getVariable_congr (h slot), ih]

/-- The slot found is the first one whose name is not taken. -/
theorem findFreeSlot_first {store : Store} {fuel : ℕ} {slot free : UInt16}
    (h : findFreeSlot store fuel slot = some free) : slot.toNat ≤ free.toNat ∧
      ∀ s : UInt16, slot.toNat ≤ s.toNat → s.toNat < free.toNat →
        store.get? .global (bootVarName s) ≠ none := by
  induction fuel generalizing slot with
  | zero => exact absurd h (by simp [findFreeSlot])
  | succ fuel ih =>
      unfold findFreeSlot at h
      split_ifs at h with hlast hfree
      · obtain rfl := Option.some.inj h
        exact ⟨le_rfl, fun s hle hlt => absurd hlt (not_lt.mpr hle)⟩
      · obtain ⟨hle, hbefore⟩ := ih h
        have hmax : (0x01FF : UInt16).toNat = 511 := rfl
        have hnext : (slot + 1).toNat = slot.toNat + 1 := by
          rw [UInt16.lt_iff_toNat_lt, hmax] at hlast
          rw [UInt16.toNat_add, UInt16.toNat_one]
          omega
        refine ⟨by omega, ?_⟩
        intro s hs hlt
        by_cases heq : s = slot
        · rw [heq]
          rw [getVariable_notFound_iff] at hfree
          exact hfree
        · have hne : s.toNat ≠ slot.toNat := fun h => heq (UInt16.toNat_inj.mp h)
          exact hbefore s (by omega) hlt

theorem headSlot_of_order {store : Store} {slot : UInt16} {rest : List UInt8}
    (h : store.get? .global bootOrderName = some (encode 2 slot.toNat ++ rest)) :
    headSlot store = some slot := by
  rw [headSlot, heldOrder, h, Option.getD_some, orderEntries_cons, List.head?_cons]

/-- A successful run puts the first free slot in front. -/
theorem installed_first {fw : Efi} {m m' : Machine} (h : installMaskFull fw m = (.ok (), m')) :
    ∃ slot, Installed fw m m' slot ∧ headSlot m'.store = some slot ∧
      findFreeSlot m.store 255 0x0100 = some slot := by
  obtain ⟨slot, hinstalled⟩ := installed_of_ok h
  have hhead := headSlot_of_order hinstalled.order
  rw [installMaskFull_eq] at h
  obtain ⟨⟨esp, slot'⟩, m₄, hentry, horder⟩ := ok_of_bind h
  obtain ⟨m₁, m₂, m₃, hfind, hprepare, hcopy, hregister⟩ := uptoEntry_ok hentry
  have hframe := frame_prepareEsp fw esp m₁
  rw [hprepare] at hframe
  have hsame := headSlot_of_order (activateEntry_ok horder).1
  rw [hhead] at hsame
  obtain rfl := Option.some.inj hsame
  refine ⟨slot, hinstalled, hhead, ?_⟩
  rw [← (registerEntry_ok hregister).1]
  refine findFreeSlot_congr (fun s => ?_) 255 0x0100
  rw [hcopy.1, hframe.vars (.global, bootVarName s) (by simp [backupVars]), hfind.1]

/-- The first ten names have no letters. -/
theorem bootVarName_decimal {n : ℕ} (h : n < 10) :
    bootVarName (UInt16.ofNat (0x100 + n)) = numberedName n := by
  have hall : ∀ n < 10, bootVarName (UInt16.ofNat (0x100 + n)) = numberedName n := by
    decide +kernel
  exact hall n h

/-- The eleventh name has one, so it is not taken. -/
theorem eleventh_free {store : Store} (h : UpperNames store) :
    store.get? .global (bootVarName 0x10A) = none := by
  by_contra htaken
  exact h _ (isBootEntry_bootVarName 0x10A) htaken 'a' (by decide) ⟨by decide, by decide⟩

theorem designates_of_same {fw : Efi} {m m' : Machine} {slot : UInt16}
    (h : Installed fw m m' slot) (hname : chainloadName slot = bootVarName slot) :
    Designates m.store m'.store slot := by
  refine ⟨?_, ?_, ?_⟩
  · rw [hname]
    exact h.entry
  · rw [hname]
    exact h.free
  · intro name hentry hbefore
    refine h.vars (.global, name) (isBootEntry_iff_vars hentry ?_)
    rintro rfl
    exact hbefore h.free

theorem toNat_firstSlot {n : ℕ} (h : n < 10) : (UInt16.ofNat (0x100 + n)).toNat = 0x100 + n := by
  rw [UInt16.toNat_ofNat']
  omega

theorem ofNat_slot {slot : UInt16} (h : 0x100 ≤ slot.toNat) :
    UInt16.ofNat (0x100 + (slot.toNat - 0x100)) = slot := by
  rw [show 0x100 + (slot.toNat - 0x100) = slot.toNat by omega, UInt16.ofNat_toNat]

/-- One of the first ten slots is chosen when one of their names is not taken. -/
theorem decimal_of_free {store : Store} {slot : UInt16}
    (h : findFreeSlot store 255 0x0100 = some slot) {n : ℕ} (hn : n < 10)
    (hfree : store.get? .global (numberedName n) = none) :
    ∃ k < 10, slot = UInt16.ofNat (0x100 + k) := by
  obtain ⟨hfrom, hbefore⟩ := findFreeSlot_first h
  have hstart : (0x0100 : UInt16).toNat = 0x100 := rfl
  rw [hstart] at hfrom
  have hle : slot.toNat ≤ 0x100 + n := by
    by_contra hlt
    have htaken := hbefore (UInt16.ofNat (0x100 + n)) (by rw [toNat_firstSlot hn]; omega)
      (by rw [toNat_firstSlot hn]; omega)
    rw [bootVarName_decimal hn] at htaken
    exact htaken hfree
  exact ⟨slot.toNat - 0x100, by omega, (ofNat_slot hfrom).symm⟩

/-- The eleventh one is chosen when all their names are taken. -/
theorem eleventh_of_taken {store : Store} (hupper : UpperNames store) {slot : UInt16}
    (h : findFreeSlot store 255 0x0100 = some slot)
    (htaken : ∀ n < 10, store.get? .global (numberedName n) ≠ none) : slot = 0x10A := by
  obtain ⟨hfrom, hbefore⟩ := findFreeSlot_first h
  have hstart : (0x0100 : UInt16).toNat = 0x100 := rfl
  rw [hstart] at hfrom
  have hlarge : 0x10A ≤ slot.toNat := by
    by_contra hlt
    have hn : slot.toNat - 0x100 < 10 := by omega
    apply htaken (slot.toNat - 0x100) hn
    rw [← bootVarName_decimal hn, ofNat_slot hfrom]
    exact findFreeSlot_free h
  have hsmall : slot.toNat ≤ 0x10A := by
    by_contra hlt
    exact hbefore 0x10A (by decide) (not_le.mp hlt) (eleventh_free hupper)
  exact UInt16.toNat_inj.mp (le_antisymm hsmall hlarge)

/-- Nothing was written under the name to which that slot leads. -/
theorem not_designates_eleventh {fw : Efi} {m m' : Machine} (h : Installed fw m m' 0x10A) :
    ¬Designates m.store m'.store 0x10A := by
  intro hdesignates
  obtain ⟨data, hdata, -⟩ := hdesignates.entry
  have hkept := h.vars (.global, chainloadName 0x10A)
    (isBootEntry_iff_vars (by decide +kernel) (by decide +kernel))
  rw [hdata, hdesignates.fresh] at hkept
  cases hkept

/-- The slot in front leads to the new entry exactly when one of the first ten slots was free. -/
theorem slot_designates_iff {fw : Efi} {m m' : Machine} (hupper : UpperNames m.store)
    (h : installMaskFull fw m = (.ok (), m')) :
    (∃ slot, headSlot m'.store = some slot ∧ Designates m.store m'.store slot) ↔
      ∃ n < 10, m.store.get? .global (numberedName n) = none := by
  obtain ⟨slot, hinstalled, hhead, hfound⟩ := installed_first h
  rw [hhead]
  constructor
  · intro hdesignates
    obtain ⟨slot', hslot, hdesignates⟩ := hdesignates
    obtain rfl := Option.some.inj hslot
    by_contra hnone
    obtain rfl := eleventh_of_taken hupper hfound fun n hn hfree => hnone ⟨n, hn, hfree⟩
    exact not_designates_eleventh hinstalled hdesignates
  · intro hsome
    obtain ⟨n, hn, hfree⟩ := hsome
    obtain ⟨k, hk, rfl⟩ := decimal_of_free hfound hn hfree
    exact ⟨_, rfl, designates_of_same hinstalled (bootVarName_decimal hk).symm⟩

/-- Only the names in the store need to be looked at. -/
theorem upperNames_of_all {store : Store} (h : (storeNames store).all fun k =>
    (k.2.toList.drop 4).all (fun c => !('a' ≤ c && c ≤ 'f')) || !isBootEntry k.2) :
    UpperNames store := by
  intro name hentry htaken c hc hlower
  have hname := List.all_eq_true.mp h (.global, name) ((mem_storeNames store _).mpr htaken)
  rw [hentry, Bool.not_true, Bool.or_false, List.all_eq_true] at hname
  simpa [hlower.1, hlower.2] using hname c hc

theorem slot_designates_fresh :
    ∃ slot, headSlot onceInstalled.store = some slot ∧
      Designates freshComputer.store onceInstalled.store slot :=
  (slot_designates_iff (upperNames_of_all (by decide +kernel)) install_once).mpr
    ⟨0, by decide, by decide +kernel⟩

/-- A computer on which the first ten slots are taken. -/
def tenTaken : Machine :=
  { freshComputer with
    store := (List.range 10).map fun n => ⟨.global, numberedName n, [0x01]⟩ }

/-- The entry is called `Boot010a`, and nothing is called `Boot010A`. -/
theorem eleventh_slot_dangles :
    UpperNames tenTaken.store ∧ (installMaskFull usbEfi tenTaken).1 = .ok () ∧
      headSlot (installMaskFull usbEfi tenTaken).2.store = some 0x10A ∧
      (installMaskFull usbEfi tenTaken).2.store.get? .global (chainloadName 0x10A) = none := by
  refine ⟨upperNames_of_all (by decide +kernel), ?_, ?_, ?_⟩ <;> decide +kernel

end BankFinder.BootOrder
