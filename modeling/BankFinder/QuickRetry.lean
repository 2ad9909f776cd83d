import BankFinder.BrrEntry

/-!
# The two readers of the saved list

`brr-entry` offers the list in `BrrBadPages`, `mask-shim` masks it. Both check length and
count, but only the shim checks the version, so a list of another version is offered and
then ignored.
-/

namespace BankFinder.QuickRetry
open LittleEndian Nvram EfiMachine MachineFrame BootSession BadPages AddressEntry BrrEntry
open InstallUndo

/-- What `brr-entry` reads of the variable. -/
def existing (store : Store) : List UInt8 :=
  (getVariable store .brr brrVarnameBadpages badpagesBlobMax).2

theorem existing_of_offer {store : Store} {pas : List UInt64}
    (h : quickRetryOffer store = some pas) :
    (getVariable store .brr brrVarnameBadpages badpagesBlobMax).1 = efiSuccess ∧
      offered (existing store) = some pas := by
  unfold quickRetryOffer at h
  simp only at h
  split_ifs at h with hread
  exact ⟨hread, h⟩

/-- The shim reads the same bytes. -/
theorem readBadpagesVariable_of_offer {store : Store} {pas : List UInt64}
    (h : quickRetryOffer store = some pas) :
    readBadpagesVariable store = some (existing store) := by
  unfold readBadpagesVariable
  simp only [(existing_of_offer h).1, if_true]
  rfl

/-- On an offered list the shim only asks for the version. -/
theorem parseBadpages_offered {ex : List UInt8} {pas : List UInt64} (h : offered ex = some pas) :
    parseBadpages ex = if u32At ex 0 ≠ 1 then
      .error "[mask] BrrBadPages: unknown version, ignoring" else .ok pas := by
  unfold offered at h
  simp only at h
  split_ifs at h with hheader hcount
  obtain ⟨-, hmax, hlength⟩ := hcount
  cases h
  have hok : ¬(ex.length < 8 + (u32At ex 4).toNat * 8 ∨ u32At ex 4 > 4096) :=
    not_or.mpr ⟨Nat.not_lt.mpr hlength, UInt32.not_lt.mpr hmax⟩
  unfold parseBadpages
  simp only [if_neg (Nat.not_lt.mpr hheader), if_neg hok]

theorem offered_ne_nil {ex : List UInt8} {pas : List UInt64} (h : offered ex = some pas) :
    pas ≠ [] := by
  unfold offered at h
  simp only at h
  split_ifs at h with hheader hcount
  cases h
  rw [paArray, ne_eq, List.map_eq_nil_iff, ← List.length_eq_zero_iff, length_chunks]
  exact (UInt32.lt_iff_toNat_lt.mp hcount.1).ne'

/-- From a store the shim masks exactly the list, on top of any ranges and up to any bound. -/
def MasksList (store : Store) (pas : List UInt64) : Prop :=
  ∀ ranges cap, readNvramBadpages store ranges cap = mergeBadPages cap pas ranges

theorem masksList_iff {store : Store} {pas : List UInt64} (h : quickRetryOffer store = some pas) :
    MasksList store pas ↔ u32At (existing store) 0 = 1 := by
  have hoffered := (existing_of_offer h).2
  have hread (ranges : List BadmemRange) (cap : ℕ) : readNvramBadpages store ranges cap =
      if u32At (existing store) 0 ≠ 1 then ranges else mergeBadPages cap pas ranges := by
    unfold readNvramBadpages
    rw [readBadpagesVariable_of_offer h]
    simp only [parseBadpages_offered hoffered]
    split_ifs
    · rfl
    · rfl
  constructor
  · intro hmasks
    by_contra hversion
    obtain ⟨pa, rest, rfl⟩ := List.exists_cons_of_ne_nil (offered_ne_nil hoffered)
    have hnone := hmasks [] 1
    rw [hread, if_pos hversion, mergeBadPages_cons] at hnone
    obtain ⟨added, hadded, -⟩ := mergeBadPages_append 1 rest [pageRange (pageAlign pa)]
    simp [hadded] at hnone
  · intro hversion ranges cap
    rw [hread, if_neg (not_not.mpr hversion)]

/-- The same content is read from a store in which only other variables changed. -/
theorem quickRetryOffer_congr {store store' : Store}
    (h : store'.get? .brr brrVarnameBadpages = store.get? .brr brrVarnameBadpages) :
    quickRetryOffer store' = quickRetryOffer store ∧ existing store' = existing store := by
  unfold quickRetryOffer existing
  rw [MaskFrames.getVariable_congr h]
  exact ⟨rfl, rfl⟩

/-- A run in which the offered list was accepted leaves it as it was offered. -/
theorem offer_kept (fw : Efi) {polls : List Poll} {m : Machine}
    (h : prompts m.store polls = .saved) :
    quickRetryOffer (efiMain fw polls m).2.store = quickRetryOffer m.store ∧
      existing (efiMain fw polls m).2.store = existing m.store :=
  quickRetryOffer_congr (efiMain_keeps_list (by simp [h]))

/-- The shim masks the offered list, then and after the run which accepted it, exactly when
the list is of version 1. -/
theorem offered_list_masked_iff {m : Machine} {pas : List UInt64}
    (hoffer : quickRetryOffer m.store = some pas) :
    (MasksList m.store pas ∧ ∀ fw polls, prompts m.store polls = .saved →
      MasksList (efiMain fw polls m).2.store pas) ↔ u32At (existing m.store) 0 = 1 := by
  rw [masksList_iff hoffer]
  constructor
  · exact And.left
  · intro hversion
    refine ⟨hversion, ?_⟩
    intro fw polls hsaved
    obtain ⟨hkept, hbytes⟩ := offer_kept fw hsaved
    rw [masksList_iff (hkept.trans hoffer), hbytes]
    exact hversion

/-- A list of one page, as a tool of another version might have stored it. -/
def savedBlob (version : UInt8) : List UInt8 :=
  [version, 0, 0, 0, 1, 0, 0, 0, 0x00, 0x10, 0, 0, 0, 0, 0, 0]

def savedComputer (version : UInt8) : Machine :=
  { freshComputer with store := freshStore ++ [⟨.brr, brrVarnameBadpages, savedBlob version⟩] }

theorem offered_list_masked_version_one : MasksList (savedComputer 1).store [0x1000] :=
  ((@offered_list_masked_iff (savedComputer 1) [0x1000] (by decide)).mpr
    (by decide)).1

/-- Y on a list of version 2 boots without the mask which was offered. -/
theorem version_two_offered_and_ignored : ¬∀ (m : Machine) (pas : List UInt64),
    quickRetryOffer m.store = some pas → MasksList m.store pas ∧ ∀ fw polls,
      prompts m.store polls = .saved → MasksList (efiMain fw polls m).2.store pas := by
  intro h
  have hmasks := (h (savedComputer 2) [0x1000] (by decide)).1 [] 1
  exact absurd hmasks (by decide)

end BankFinder.QuickRetry
