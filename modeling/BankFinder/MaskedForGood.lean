import BankFinder.AddressDump
import BankFinder.LineEditor
import BankFinder.StateHistory

/-!
# From an error to a masked page

The whole way of an address: memtest records its page and shows the list, the user types the
list into `brr-entry`, which stores it, and from then on every boot through the shim asks the
firmware for the page before macOS starts. What lies between does not matter: any number of
runs of any of the programs, as long as nobody uninstalls or enters another list.
-/

namespace BankFinder.MaskedForGood
open Nvram EfiMachine MachineFrame BootSession MaskOps MaskFrames PageMask BadPages BadmemLog
open BadmemParse CappedLog AddressDump AddressEntry LineEditor Uninstall Install MaskInstall
open BrrEntry LabelledRuns SavedList InstallTriples StateHistory RowMask ChipList MaskShim TrialBoot

/-- Nobody asks for an uninstallation or confirms another list. -/
def Quiet (r : ProgramRun) : Prop := ¬AsksUninstall r ∧ ∀ pas, ¬SavesList r pas

theorem state_installerVars : (Guid.brr, brrVarnameState) ∈ installerVars :=
  Or.inl (brr_touched (by simp))

theorem agree_of_frame {K : Set (Guid × String)} {m m' : Machine} (h : Frame K Set.univ m m')
    (hK : K ⊆ installerVars) : Agree installerVars m.store m'.store :=
  fun k hk => h.vars k fun hmem => hk (hK hmem)

theorem agree_brrEntry (fw : Efi) {polls : List Poll} {m : Machine}
    (h : ∀ pas, ¬SavesList ⟨.brrEntry fw polls, m⟩ pas) :
    Agree installerVars m.store (BrrEntry.efiMain fw polls m).2.store := by
  cases hchoice : prompts m.store polls with
  | ends o =>
      rw [efiMain_ends hchoice]
      exact Agree.refl _ _
  | saved =>
      rw [efiMain_saved hchoice]
      exact agree_of_frame (frame_applySaved fw m) Set.subset_union_left
  | typed pas => exact absurd (prompts_typed hchoice) (h pas)

section
variable {σ : Type}

/-- What the shim chooses when it is not asked to uninstall: it masks, as a chip trial only in
that state, and changes nothing but the state and its record of calls. -/
theorem masks_of_quiet (env : ShimEnv σ) {s : Session σ}
    (hno : StateIs s.nvram statePermanentUnconfirmed → (promptConfirm (30 * 10) s).1 ≠ keyNo) :
    (handleNvramState env s).1.skipMask = false ∧
      ((handleNvramState env s).1.forceChip = true → StateIs s.nvram stateTrialPendingChip) ∧
      Agree installerVars s.nvram (handleNvramState env s).2.nvram ∧
      (.startImage ∉ s.trace → .startImage ∉ (handleNvramState env s).2.trace) := by
  have hdecides := decides_handleNvramState env s
  generalize handleNvramState env s = choice at hdecides ⊢
  cases hdecides with
  | silent _ _ => exact ⟨rfl, fun h => absurd h Bool.false_ne_true, Agree.refl _ _, id⟩
  | chipTrial hchip => exact ⟨rfl, fun _ => hchip, Agree.refl _ _, id⟩
  | @confirmed keys _ _ =>
      refine ⟨rfl, fun h => absurd h Bool.false_ne_true, ?_, ?_⟩
      · rcases setAscii_nvram env.fw brrVarnameState statePermanentConfirmed
          { s with keys := keys } with hkept | hset
        · rw [hkept]
          exact Agree.refl _ _
        · rw [hset]
          exact fun k hk => Store.get?_set_other s.nvram _ fun heq =>
            hk (Set.mem_of_eq_of_mem heq state_installerVars)
      · intro hstart hmem
        have hsplit : .startImage ∈ s.trace ++ [.setVariable .brr brrVarnameState
          (ascii statePermanentConfirmed)] := hmem
        rcases List.mem_append.mp hsplit with hold | hnew
        · exact hstart hold
        · cases List.mem_singleton.mp hnew
  | declined hstate hanswer => exact absurd hanswer (hno hstate)
  | unanswered _ _ => exact ⟨rfl, fun h => absurd h Bool.false_ne_true, Agree.refl _ _, id⟩

theorem agree_maskShim (env : ShimEnv σ) (fw : Efi) (mem : σ) (keys : List UInt16) (m : Machine)
    (h : ¬AsksUninstall ⟨.maskShim env fw mem keys, m⟩) :
    Agree installerVars m.store (ProgramRun.after ⟨.maskShim env fw mem keys, m⟩) := by
  unfold ProgramRun.after
  simp only
  rw [efiMain_nvram]
  split_ifs with hflag
  · exact Agree.refl _ _
  · refine (masks_of_quiet { env with uninstallMaskFull := uninstallFrom fw m }
      (s := Session.start mem m.store keys) ?_).2.2.1
    exact fun hstate hno => h ⟨Bool.eq_false_iff.mpr hflag, hstate, hno⟩

end

/-- A quiet run leaves every variable which tells what to mask. -/
theorem agree_programStep {store store' : Store} {r : ProgramRun} (hquiet : Quiet r)
    (h : programStep store r store') : Agree installerVars store store' := by
  obtain ⟨rfl, rfl⟩ := h
  obtain ⟨program, m⟩ := r
  cases program with
  | brrEntry fw polls => exact agree_brrEntry fw hquiet.2
  | maskShim env fw mem keys => exact agree_maskShim env fw mem keys m hquiet.1
  | installEfi fw loadOptions polls =>
      refine agree_of_frame (frame_installMain fw ?_ m) subset_rfl
      by_contra hboth
      rw [not_or, Bool.not_eq_false, Bool.not_eq_false] at hboth
      exact hquiet.1 hboth
  | revertEfi fw polls =>
      have hno : ¬(revertPrompt 30 polls).1 = true := hquiet.1
      have hafter : (revertMain fw polls m).2.store = m.store := by
        rw [revertMain, if_neg hno]
        rfl
      change Agree installerVars m.store (revertMain fw polls m).2.store
      rw [hafter]
      exact Agree.refl _ _

theorem not_chipTrial_step {content content' : Option (List UInt8)} {r : ProgramRun}
    (h : StateStep content r content') (hnot : ¬ReadsAs content stateTrialPendingChip) :
    ¬ReadsAs content' stateTrialPendingChip := by
  cases h with
  | kept => exact hnot
  | trial _ => exact fun hreads => absurd (readsAs_ascii (by decide) hreads) (by decide)
  | permanent _ => exact fun hreads => absurd (readsAs_ascii (by decide) hreads) (by decide)
  | confirmed _ _ => exact fun hreads => absurd (readsAs_ascii (by decide) hreads) (by decide)
  | removed _ => exact not_readsAs_none _

/-- What a run may change which does not enter into the choice of the mask. -/
def unreadVars : Set (Guid × String) := installerVars ∪ {(.brr, brrVarnameBadpages)}

section
variable {s s' : Store}

theorem getVariable_agree {K : Set (Guid × String)} (h : Agree K s s') {guid : Guid}
    {name : String} (hname : (guid, name) ∉ K) (cap : ℕ) :
    Nvram.getVariable s' guid name cap = Nvram.getVariable s guid name cap :=
  getVariable_congr (h (guid, name) hname) cap

theorem notMem_unreadVars {name : String} (h : name ∉ [brrVarnameState, brrVarnameOrigboot,
    brrVarnameBootentries, brrVarnameBootslot, varnameProbe, brrVarnameBadpages]) :
    (Guid.brr, name) ∉ unreadVars := by
  simp only [List.mem_cons, List.not_mem_nil, or_false, not_or] at h
  simp [unreadVars, installerVars, touchedVars, h]

theorem maskNvramGetAscii_agree (h : Agree unreadVars s s') {name : String}
    (hname : name ∉ [brrVarnameState, brrVarnameOrigboot, brrVarnameBootentries,
      brrVarnameBootslot, varnameProbe, brrVarnameBadpages]) (bufsz : ℕ) :
    Nvram.maskNvramGetAscii s' name bufsz = Nvram.maskNvramGetAscii s name bufsz := by
  unfold Nvram.maskNvramGetAscii
  rw [getVariable_agree h (notMem_unreadVars hname)]

theorem decoderStatusIs_agree (h : Agree unreadVars s s') (status : String) :
    decoderStatusIs s' status = decoderStatusIs s status := by
  unfold decoderStatusIs
  rw [maskNvramGetAscii_agree h (by decide)]

theorem readNvramBadrows_agree (h : Agree unreadVars s s') (cap : ℕ) :
    readNvramBadrows s' cap = readNvramBadrows s cap := by
  have happle : (Guid.apple, varnameBadrows) ∉ unreadVars := by
    simp [unreadVars, installerVars, touchedVars]
  unfold readNvramBadrows readBadrowsVariable
  rw [getVariable_agree h (notMem_unreadVars (by decide)), getVariable_agree h happle,
    getVariable_agree h (notMem_unreadVars (by decide))]

theorem readNvramBadchips_agree (h : Agree unreadVars s s') (cap : ℕ) :
    readNvramBadchips s' cap = readNvramBadchips s cap := by
  unfold readNvramBadchips badchipDesignators readBadchipsVariable
  rw [maskNvramGetAscii_agree h (by decide), maskNvramGetAscii_agree h (by decide)]

theorem rowMode_congr (h : Agree unreadVars s s') : RowMode s' ↔ RowMode s := by
  unfold RowMode readNvramDecoderStatusValidated
  rw [readNvramBadrows_agree h, decoderStatusIs_agree h]

theorem chipFallback_congr (h : Agree unreadVars s s') : ChipFallback s' ↔ ChipFallback s := by
  unfold ChipFallback readNvramDecoderStatusFailed
  rw [readNvramBadchips_agree h, decoderStatusIs_agree h]

/-- Rows or chips are to be masked, and not the list. -/
def OtherMask (store : Store) : Prop := RowMode store ∨ ChipFallback store

theorem otherMask_congr (h : Agree unreadVars s s') : OtherMask s' ↔ OtherMask s :=
  or_congr (rowMode_congr h) (chipFallback_congr h)

theorem Agree.unread (h : Agree installerVars s s') : Agree unreadVars s s' :=
  fun k hk => h k fun hmem => hk (Or.inl hmem)

end

theorem wellFormed_of_parse {blob : List UInt8} {pas : List UInt64}
    (h : parseBadpages blob = .ok pas) (hfits : blob.length ≤ badpagesBlobMax) :
    WellFormedBadpages blob ∧ listedAddresses blob = pas := by
  unfold parseBadpages at h
  simp only at h
  split_ifs at h with hshort hversion hlong
  rw [not_or, gt_iff_lt, UInt32.lt_iff_toNat_lt, Nat.not_lt, Nat.not_lt] at hlong
  exact ⟨⟨not_not.mp hversion, hlong.2, hlong.1, hfits⟩, Except.ok.inj h⟩

theorem wellFormed_badpagesBlob {pas : List UInt64} (h : pas.length ≤ 4096) :
    WellFormedBadpages (badpagesBlob pas) ∧ listedAddresses (badpagesBlob pas) = pas := by
  refine wellFormed_of_parse (parseBadpages_blob h) ?_
  rw [length_badpagesBlob h, badpagesBlobMax]
  omega

/-- A page trial of the list, without any other variable. -/
def trialStore (pas : List UInt64) : Store :=
  [⟨.brr, brrVarnameState, ascii stateTrialPendingPage⟩,
    ⟨.brr, brrVarnameBadpages, badpagesBlob pas⟩]

theorem trialStore_trial {σ : Type} {env : ShimEnv σ} {pas : List UInt64} (h : pas.length ≤ 4096)
    (hflag : passthroughFlag env.loadOptions = false) :
    PageTrial env (trialStore pas) (badpagesBlob pas) where
  masked := hflag
  state := rfl
  stored := rfl
  wellFormed := (wellFormed_badpagesBlob h).1

section
variable {σ : Type} {env : ShimEnv σ} {store : Store} {pas : List UInt64}

theorem mergedRanges_stored (hlen : pas.length ≤ 4096)
    (hstored : store.get? .brr brrVarnameBadpages = some (badpagesBlob pas)) :
    mergedRanges env store = mergeBadPages badmemMaxRanges pas (readBadmem env.volume).2.ranges := by
  obtain ⟨hblob, hlisted⟩ := wellFormed_badpagesBlob hlen
  have hmerged := readNvramBadpages_wellFormed hstored hblob (readBadmem env.volume).2.ranges
    badmemMaxRanges
  rw [hlisted] at hmerged
  exact hmerged

theorem length_mergeBadPages_le (cap : ℕ) (pas : List UInt64) (ranges : List BadmemRange) :
    (mergeBadPages cap pas ranges).length ≤ ranges.length + pas.length := by
  induction pas generalizing ranges with
  | nil => exact le_rfl
  | cons pa pas ih =>
      rw [mergeBadPages_cons, List.length_cons]
      split_ifs
      · exact (ih ranges).trans (by omega)
      · omega
      · have hrest := ih (ranges ++ [pageRange (pageAlign pa)])
        rw [List.length_append, List.length_singleton] at hrest
        omega

/-- What a boot needs to mask the list: no passthrough, no chip trial, no rows or chips to be
masked instead, and no request to uninstall. -/
structure MasksPages (env : ShimEnv σ) (mem : σ) (keys : List UInt16) (store : Store) : Prop where
  masked : passthroughFlag env.loadOptions = false
  noChipTrial : ¬StateIs store stateTrialPendingChip
  noOther : ¬OtherMask store
  keeps : StateIs store statePermanentUnconfirmed →
    (promptConfirm (30 * 10) (Session.start mem store keys)).1 ≠ keyNo

/-- In whatever state, a boot with a stored list asks for every page of it before macOS. -/
theorem stored_pages_attempted {mem : σ} {keys : List UInt16} (h : MasksPages env mem keys store)
    (hstored : store.get? .brr brrVarnameBadpages = some (badpagesBlob pas))
    (hroom : (readBadmem env.volume).2.ranges.length + pas.length < badmemMaxRanges) :
    ∀ pa ∈ pas, WindowsFit env (pageAlign pa) →
      PageAttempted (MaskShim.efiMain env (.start mem store keys)).2.trace (pageAlign pa) := by
  intro pa hpa hfit
  have hlen : pas.length ≤ 4096 := by
    rw [badmemMaxRanges] at hroom
    omega
  obtain ⟨hskip, hforce, hagree, htrace⟩ := masks_of_quiet env
    (s := Session.start mem store keys) h.keeps
  have hforceFalse : (handleNvramState env (Session.start mem store keys)).1.forceChip = false :=
    Bool.eq_false_iff.mpr fun htrue => h.noChipTrial (hforce htrue)
  generalize hchoice : handleNvramState env (Session.start mem store keys) = choice
    at hskip hforceFalse hagree htrace
  have hrun : MaskShim.efiMain env (.start mem store keys) =
      chainload env (pageMode env false choice.2) := by
    unfold MaskShim.efiMain
    simp only [h.masked, Bool.false_eq_true, if_false, hchoice, hskip, hforceFalse]
    have hother : ¬OtherMask choice.2.nvram :=
      fun hother => h.noOther ((otherMask_congr (Agree.unread hagree)).mp hother)
    rw [applyMask_page env (fun hrow => hother (Or.inl hrow)) fun hchips => hother (Or.inr hchips)]
  have hstoredAfter : choice.2.nvram.get? .brr brrVarnameBadpages = some (badpagesBlob pas) :=
    (hagree (.brr, brrVarnameBadpages) badpages_kept_by_installer).trans hstored
  -- the ranges of this boot are those of a page trial of the list
  have hranges : mergedRanges env choice.2.nvram = mergedRanges env (trialStore pas) := by
    rw [mergedRanges_stored hlen hstoredAfter,
      mergedRanges_stored hlen (trialStore_trial hlen h.masked).stored]
  have hlength : (mergedRanges env (trialStore pas)).length < badmemMaxRanges := by
    rw [mergedRanges_stored hlen (trialStore_trial hlen h.masked).stored]
    exact lt_of_le_of_lt (length_mergeBadPages_le _ _ _) hroom
  have hlisted : pageAlign pa ∈ listedPages (badpagesBlob pas) := by
    rw [listedPages, (wellFormed_badpagesBlob hlen).2]
    exact List.mem_map_of_mem hpa
  have hwindow := listed_page_in_window (trialStore_trial hlen h.masked) hlength hlisted hfit
  rw [← hranges] at hwindow
  rw [hrun, pageAttempted_chainload env (pageMode_not_started env false (htrace List.not_mem_nil))]
  exact pageMode_mem_attempts env false choice.2 hwindow

end

theorem stateIs_of_readsAs {store : Store} {state : String} (h : ReadsAs (maskState store) state) :
    StateIs store state := by
  obtain ⟨data, hget, hlength, htext⟩ := h
  unfold StateIs Nvram.maskNvramGetAscii
  simp only [getVariable_fits hget hlength, if_true, htext]

/-- The list is typed, with corrections if need be, and confirmed. A saved list which is offered
is declined first. -/
def TypesList (store : Store) (polls : List Poll) (text : List UInt8) : Prop :=
  ∃ later, (quickRetryOffer store = none ∧ later = polls ∨
      quickRetryOffer store ≠ none ∧ retryPrompt polls = some (.enterNew, later)) ∧
    ∃ events enter rest, later = events ++ some enter :: rest ∧ (∀ e ∈ events, Ordinary e) ∧
      Fits lineCap events ∧ edited events = typed text ∧ IsEnter enter ∧
      confirmPrompt rest = some true

theorem prompts_of_types {store : Store} {polls : List Poll} {text : List UInt8}
    {pas : List UInt64} (h : TypesList store polls text)
    (hparse : parseAddresses (typed text) pasCap = some pas) (hne : pas ≠ []) :
    prompts store polls = .typed pas := by
  obtain ⟨later, hoffer, events, enter, rest, rfl, hordinary, hfits, hedited, henter, hyes⟩ := h
  have hline : readLine lineCap [] (events ++ some enter :: rest) = some (typed text, rest) := by
    rw [readLine_enter lineCap hordinary henter rest, bufferAfter_of_fits hfits, hedited]
  have hlength : (typed text).length ≠ 0 := by
    intro hzero
    rw [List.length_eq_zero_iff.mp hzero] at hparse
    exact hne (Option.some.inj hparse).symm
  have hprompt : addressPrompt (events ++ some enter :: rest) = .typed pas := by
    unfold addressPrompt
    simp only [hline, if_neg hlength, hparse, if_neg fun h => hne (List.length_eq_zero_iff.mp h),
      hyes]
  unfold prompts
  rcases hoffer with ⟨hnone, rfl⟩ | ⟨hsome, hretry⟩
  · rw [hnone]
    exact hprompt
  · obtain ⟨saved, hsaved⟩ := Option.ne_none_iff_exists'.mp hsome
    rw [hsaved]
    simp only [hretry]
    exact hprompt

/-- A run which ends well has stored the typed list, and changed nothing else that tells what
to mask. -/
theorem stored_of_typed {fw : Efi} {polls : List Poll} {m : Machine} {pas : List UInt64}
    {o : Outcome} (h : prompts m.store polls = .typed pas)
    (hok : (BrrEntry.efiMain fw polls m).1 = .ok o) :
    (BrrEntry.efiMain fw polls m).2.store.get? .brr brrVarnameBadpages =
        some (badpagesBlob pas) ∧
      Agree unreadVars m.store (BrrEntry.efiMain fw polls m).2.store := by
  have hblob : badpagesBlob pas ≠ [] := by simp [badpagesBlob, badpagesHeader]
  have hrest (m' : Machine) := frame_afterTyped fw m'
  rw [efiMain_typed h, applyTyped] at hok ⊢
  rcases hset : setVariable fw .brr brrVarnameBadpages (badpagesBlob pas) m with ⟨e | _, m₁⟩
  · rw [bind_of_error _ hset] at hok
    cases hok
  · rw [bind_of_ok _ hset]
    have hstored := setVariable_ok hset
    rw [stored, if_neg hblob] at hstored
    have hframe := frame_setVariable (K := {(.brr, brrVarnameBadpages)}) (F := Set.univ) fw
      (badpagesBlob pas) (Set.mem_singleton _) m
    rw [hset] at hframe
    constructor
    · exact ((hrest m₁).vars (.brr, brrVarnameBadpages) badpages_untouched).trans hstored
    · intro k hk
      refine ((hrest m₁).vars k fun hmem => hk (Or.inl (Or.inl hmem))).trans ?_
      exact hframe.vars k fun hmem => hk (Or.inr hmem)

theorem pageAlign_pageAlign (a : UInt64) : pageAlign (pageAlign a) = pageAlign a := by
  apply UInt64.toNat_inj.mp
  rw [pageAlign_toNat, pageAlign_toNat]
  omega

/-- With at most 256 pages the log holds the page of every report. -/
theorem pages_of_reports {reports : List UInt64}
    (hcount : (reports.map pageAlign).toFinset.card ≤ 256) :
    (reports.foldl badmemLogRecord {}).pages = (reports.map pageAlign).eraseDups ∧
      (reports.map pageAlign).eraseDups.length ≤ 256 := by
  have hpages : (reports.foldl badmemLogRecord {}).pages = (reports.map pageAlign).eraseDups := by
    rw [foldl_badmemLogRecord_pages]
    exact recordAll_eq_eraseDups (hcount.trans (by decide))
  have hnodup : (reports.map pageAlign).eraseDups.Nodup := by
    rw [← hpages, foldl_badmemLogRecord_pages]
    exact recordAll_nodup List.nodup_nil maxEntries _
  have hset : (reports.map pageAlign).eraseDups.toFinset = (reports.map pageAlign).toFinset := by
    ext v
    rw [List.mem_toFinset, List.mem_toFinset, List.mem_eraseDups]
  refine ⟨hpages, ?_⟩
  rw [← List.toFinset_card_of_nodup hnodup, hset]
  exact hcount

def typedKey (c : UInt8) : InputKey := ⟨0, c.toUInt16⟩

theorem printable_typedKey {c : UInt8} (h : 0x20 ≤ c ∧ c < 0x7F) : Printable (typedKey c) := by
  obtain ⟨hlo, hhi⟩ := h
  rw [UInt8.le_iff_toNat_le] at hlo
  rw [UInt8.lt_iff_toNat_lt] at hhi
  constructor
  · rw [UInt16.le_iff_toNat_le, typedKey, UInt8.toNat_toUInt16]
    exact hlo
  · rw [UInt16.lt_iff_toNat_lt, typedKey, UInt8.toNat_toUInt16]
    exact hhi

theorem edited_typed {text : List UInt8} (h : ∀ c ∈ text, 0x20 ≤ c ∧ c < 0x7F) :
    edited (text.map fun c => some (typedKey c)) = typed text := by
  induction text using List.reverseRecOn with
  | nil => rfl
  | append_singleton text c ih =>
      have hbefore := ih fun d hd => h d (List.mem_append_left _ hd)
      have hkey := printable_typedKey (h c (by simp))
      rw [List.map_append, List.map_singleton, edited_concat, hbefore,
        editText_printable _ hkey, typed, typed, List.map_append]
      rfl

/-- Where no list is offered, a printable text, Enter and Y will do. -/
theorem typesList_straight {store : Store} (hoffer : quickRetryOffer store = none)
    {text : List UInt8} (h : ∀ c ∈ text, 0x20 ≤ c ∧ c < 0x7F) (hlength : text.length < lineCap) :
    TypesList store (text.map (fun c => some (typedKey c)) ++
      [some ⟨0, 0x0D⟩, some ⟨0, 0x59⟩]) text := by
  refine ⟨_, Or.inl ⟨hoffer, rfl⟩, _, ⟨0, 0x0D⟩, [some ⟨0, 0x59⟩], rfl, ?_, ?_, edited_typed h,
    ⟨by decide, by decide⟩, by decide⟩
  · intro e he
    obtain ⟨c, hc, rfl⟩ := List.mem_map.mp he
    obtain ⟨hlo, -⟩ := printable_typedKey (h c hc)
    refine ordinary_some (show (0 : UInt16) ≠ 0x17 by decide) ?_
    rintro (hcr | hlf)
    · rw [hcr] at hlo
      exact absurd hlo (by decide)
    · rw [hlf] at hlo
      exact absurd hlo (by decide)
  · exact fits_of_few_keys (by rwa [List.length_map])

theorem promptConfirm_noKeys {σ : Type} (ticks : ℕ) {s : Session σ} (h : s.keys = []) :
    (promptConfirm ticks s).1 = 0 := by
  induction ticks generalizing s with
  | zero => rfl
  | succ ticks ih =>
      have hkey : MaskShim.efiReadkey s = (0, s) := by
        unfold MaskShim.efiReadkey
        rw [h]
      unfold promptConfirm
      simp only [hkey]
      exact ih h

/-- One error, typed in on a fresh computer. -/
def oneError : List UInt64 := [0x200123]
def oneErrorText : List UInt8 := (addressLines (oneError.foldl badmemLogRecord {})).flatten
def oneErrorKeys : List Poll :=
  oneErrorText.map (fun c => some (typedKey c)) ++ [some ⟨0, 0x0D⟩, some ⟨0, 0x59⟩]

/-- A boot after that run. -/
def bootRun (fw : Efi) (m : Machine) : ProgramRun :=
  ⟨.maskShim trialEnv fw freeMemory [], (BrrEntry.efiMain fw oneErrorKeys m).2⟩

theorem booted (fw : Efi) (m : Machine) :
    Run programStep (BrrEntry.efiMain fw oneErrorKeys m).2.store [bootRun fw m]
      (bootRun fw m).after :=
  .snoc (l := bootRun fw m) .nil ⟨rfl, rfl⟩

end BankFinder.MaskedForGood
