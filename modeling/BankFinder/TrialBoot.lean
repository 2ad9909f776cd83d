import BankFinder.MaskShim

/-!
# Trial boots

What a trial run of mask-shim does before it starts macOS. A page trial masks the
typed addresses unless the decoder's verdict selects rows or chips instead; a chip
trial masks the named chip unless a trusted decoder has no row on record.
-/

namespace BankFinder.TrialBoot
open Nvram BootSession PageMask BadPages BadmemParse BoardTopology ShimDecoder ChipMask RowMask
open ChipList MaskShim

/-- One channel with one rank. -/
def oneChannelHost : ShimHost := ⟨0x906ea, 0xfed10001, 0, ⟨0, 0, 0x410, 0, 0⟩⟩

/-- A USB stick without badmem.txt in a machine with one memory channel. -/
def trialEnv : ShimEnv MemoryMap where
  fw := uefi
  host := oneChannelHost
  profiles := boardProfiles
  loadOptions := none
  volume := ⟨efiSuccess, efiSuccess, efiSuccess, fun _ => .error efiNotFound⟩
  boot := ⟨efiSuccess, efiSuccess, none⟩
  uninstallMaskFull := id
  verifyMaskInMemmap := fun _ => id

/-- Every page is free. -/
def freeMemory : MemoryMap := fun _ => some .conventionalMemory

/-- The page was asked for while no image had been started yet. -/
def PageAttempted (trace : List Event) (page : UInt64) : Prop :=
  ∃ before after, trace = before ++ after ∧ .startImage ∉ before ∧ page ∈ attempts before

/-- The chip was masked, or a row was, while no image had been started yet, and the run
never declared that there is nothing to mask. -/
def ChipProtected (trace : List Event) (designator : List UInt8) : Prop :=
  .noBadMemory ∉ trace ∧ ∃ before after, trace = before ++ after ∧ .startImage ∉ before ∧
    ((∃ chips, .maskChips chips ∈ before ∧
        ∃ c ∈ chips, c.designator = designator ∧ c.resolved = true) ∨
      ∃ rows, .maskRows rows ∈ before ∧ rows ≠ [])

section
variable {σ : Type} (env : ShimEnv σ)

theorem chainload_split (s : Session σ) :
    ∃ after, (chainload env s).2.trace = s.trace ++ after ∧
      ∀ e ∈ after, e = .startImage := by
  rcases chainload_trace env s with h | h
  · exact ⟨[], by rw [h, List.append_nil], by simp⟩
  · exact ⟨[.startImage], h, by simp⟩

theorem mem_chainload_trace (s : Session σ) {e : Event} (he : e ≠ .startImage) :
    e ∈ (chainload env s).2.trace ↔ e ∈ s.trace := by
  obtain ⟨after, heq, hafter⟩ := chainload_split env s
  rw [heq, List.mem_append]
  constructor
  · intro h
    rcases h with h | h
    · exact h
    · exact absurd (hafter e h) he
  · exact Or.inl

theorem attempts_chainload (s : Session σ) :
    attempts (chainload env s).2.trace = attempts s.trace := by
  rcases chainload_trace env s with h | h
  · rw [h]
  · rw [h, attempts_append]
    exact List.append_nil _

theorem pageAttempted_chainload {s : Session σ} (hs : .startImage ∉ s.trace) (page : UInt64) :
    PageAttempted (chainload env s).2.trace page ↔ page ∈ attempts s.trace := by
  obtain ⟨after, heq, -⟩ := chainload_split env s
  constructor
  · intro h
    obtain ⟨before, rest, hsplit, -, hpage⟩ := h
    rw [← attempts_chainload env s, hsplit, attempts_append]
    exact List.mem_append_left _ hpage
  · intro h
    exact ⟨s.trace, after, heq, hs, h⟩

theorem chipProtected_chainload {s : Session σ} (hs : .startImage ∉ s.trace)
    (designator : List UInt8) :
    ChipProtected (chainload env s).2.trace designator ↔ .noBadMemory ∉ s.trace ∧
      ((∃ chips, .maskChips chips ∈ s.trace ∧
          ∃ c ∈ chips, c.designator = designator ∧ c.resolved = true) ∨
        ∃ rows, .maskRows rows ∈ s.trace ∧ rows ≠ []) := by
  obtain ⟨after, heq, -⟩ := chainload_split env s
  unfold ChipProtected
  rw [mem_chainload_trace env s (by simp)]
  constructor
  · intro h
    obtain ⟨hclean, before, rest, hsplit, -, hmasked⟩ := h
    have hmem {e : Event} (he : e ≠ .startImage) (hbefore : e ∈ before) : e ∈ s.trace := by
      rw [← mem_chainload_trace env s he, hsplit]
      exact List.mem_append_left _ hbefore
    refine ⟨hclean, ?_⟩
    rcases hmasked with ⟨chips, hcall, hchip⟩ | ⟨rows, hcall, hrows⟩
    · exact Or.inl ⟨chips, hmem (by simp) hcall, hchip⟩
    · exact Or.inr ⟨rows, hmem (by simp) hcall, hrows⟩
  · intro h
    exact ⟨h.1, s.trace, after, heq, hs, h.2⟩

end

section
variable {σ : Type}

/-- A masking run with a pending page trial and a well-formed list of pages. -/
structure PageTrial (env : ShimEnv σ) (store : Store) (blob : List UInt8) : Prop where
  masked : passthroughFlag env.loadOptions = false
  state : StateIs store stateTrialPendingPage
  stored : store.get? .brr brrVarnameBadpages = some blob
  wellFormed : WellFormedBadpages blob

def listedPages (blob : List UInt8) : List UInt64 := (listedAddresses blob).map pageAlign

/-- `ranges[]` after both sources have been merged. -/
def mergedRanges (env : ShimEnv σ) (store : Store) : List BadmemRange :=
  (pageModeData env false store).ranges

/-- Neither the page's own window nor that of a range of the file which contains it wraps. -/
def WindowsFit (env : ShimEnv σ) (page : UInt64) : Prop :=
  page.toNat + 4096 + 2 ^ 20 < 2 ^ 64 ∧
    ∀ r ∈ (readBadmem env.volume).2.ranges, Inside page r →
      r.start.toNat + r.len.toNat + 2 ^ 20 < 2 ^ 64

theorem mem_window_of_inside {r : BadmemRange} (h : PageSpan r)
    (hfit : r.start.toNat + r.len.toNat + 2 ^ 20 < 2 ^ 64) {page : UInt64}
    (hpage : 4096 ∣ page.toNat) (hin : Inside page r) : page ∈ window r := by
  rw [mem_window_of_fits h hfit, meetsMargin_iff h]
  obtain ⟨hlo, hhi⟩ := hin
  exact ⟨hpage, by omega, by omega⟩

theorem pageSpan_pageRange (pa : UInt64) : PageSpan (pageRange (pageAlign pa)) := by
  obtain ⟨hstart, hlen⟩ := pageSized_pageRange pa
  have hsize : (4096 : UInt64).toNat = 4096 := rfl
  exact ⟨hstart, hlen, hsize.symm ▸ Nat.succ_pos 4095⟩

/-- A listed page is inside a merged range whose window holds it. -/
theorem listed_page_in_window {env : ShimEnv σ} {store : Store} {blob : List UInt8}
    (h : PageTrial env store blob)
    (hroom : (mergedRanges env store).length < badmemMaxRanges) {page : UInt64}
    (hpage : page ∈ listedPages blob) (hfit : WindowsFit env page) :
    page ∈ (mergedRanges env store).flatMap window := by
  obtain ⟨pa, hpa, rfl⟩ := List.mem_map.mp hpage
  have hfile := readBadmem_pageSpan env.volume
  have hmerged : mergedRanges env store =
      mergeBadPages badmemMaxRanges (listedAddresses blob) (readBadmem env.volume).2.ranges :=
    readNvramBadpages_wellFormed h.stored h.wellFormed _ _
  rw [hmerged] at hroom ⊢
  obtain ⟨r, hr, hin⟩ := mergeBadPages_inside (listedAddresses blob) _
    (fun r hr => ⟨(hfile r hr).start_aligned, (hfile r hr).len_aligned⟩) hroom pa hpa
  rw [List.mem_flatMap]
  refine ⟨r, hr, ?_⟩
  obtain ⟨added, heq, -, hadded⟩ := mergeBadPages_append badmemMaxRanges
    (listedAddresses blob) (readBadmem env.volume).2.ranges
  rw [heq] at hr
  rcases List.mem_append.mp hr with hr | hr
  · exact mem_window_of_inside (hfile r hr) (hfit.2 r hr hin) (pageAlign_aligned pa) hin
  · obtain ⟨pa', -, rfl⟩ := hadded r hr
    have hown : (pageAlign pa').toNat + 4096 + 2 ^ 20 < 2 ^ 64 := by
      have hsize : (pageRange (pageAlign pa')).len.toNat = 4096 := rfl
      obtain ⟨hlo, hhi⟩ := hin
      have hfit₁ := hfit.1
      rw [hsize] at hhi
      change (pageAlign pa').toNat ≤ (pageAlign pa).toNat at hlo
      omega
    exact mem_window_of_inside (pageSpan_pageRange pa') hown (pageAlign_aligned pa) hin

/-- Unless rows or chips are masked instead, a page trial asks for every listed page
before macOS starts. -/
theorem page_trial_attempts_listed_pages {env : ShimEnv σ} {nvram : Store} {blob : List UInt8}
    (mem : σ) (keys : List UInt16) (h : PageTrial env nvram blob) (hrow : ¬RowMode nvram)
    (hchip : ¬ChipFallback nvram)
    (hroom : (mergedRanges env nvram).length < badmemMaxRanges) :
    ∀ page ∈ listedPages blob, WindowsFit env page →
      PageAttempted (efiMain env (.start mem nvram keys)).2.trace page := by
  intro page hpage hfit
  have hstart : Event.startImage ∉ (Session.start mem nvram keys).trace := List.not_mem_nil
  have hmode : applyMask env false (.start mem nvram keys) =
      pageMode env false (.start mem nvram keys) := applyMask_page env hrow hchip
  rw [efiMain_page env h.masked h.state, hmode,
    pageAttempted_chainload env (pageMode_not_started env false hstart)]
  exact pageMode_mem_attempts env false (.start mem nvram keys)
    (listed_page_in_window h hroom hpage hfit)

end

/-- The typed page 0x200000 and no other mask data. -/
def pageTrialStore : Store :=
  [⟨.brr, brrVarnameState, ascii stateTrialPendingPage⟩,
    ⟨.brr, brrVarnameBadpages, badpagesBlob [0x200000]⟩]

theorem pageTrialStore_trial :
    PageTrial trialEnv pageTrialStore (badpagesBlob [0x200000]) where
  masked := rfl
  state := by unfold StateIs; decide
  stored := by decide
  wellFormed := ⟨by decide, by decide, by decide, by decide⟩

theorem page_trial_attempts_typed_page :
    PageAttempted (efiMain trialEnv (.start freeMemory pageTrialStore [])).2.trace 0x200000 :=
  page_trial_attempts_listed_pages freeMemory [] pageTrialStore_trial
    (fun h => absurd h.1 (by decide)) (fun h => absurd h.1 (by decide)) (by decide)
    0x200000 (by decide) ⟨by decide, fun _ h => absurd h List.not_mem_nil⟩

/-- The same list beside one row which a trusted decoder has recorded elsewhere. -/
def rowTrialStore : Store := pageTrialStore ++
  [⟨.brr, varnameDecoderStatus, ascii "VALIDATED"⟩,
    ⟨.brr, varnameBadrows, [1, 0, 0, 0, 1, 0, 0, 0, 0, 0, 0, 0, 0x39, 0x30, 0, 0]⟩]

theorem rowTrialStore_rowMode : RowMode rowTrialStore := ⟨by decide, by decide⟩

theorem row_mode_drops_typed_page :
    PageTrial trialEnv rowTrialStore (badpagesBlob [0x200000]) ∧
      0x200000 ∈ listedPages (badpagesBlob [0x200000]) ∧
      (mergedRanges trialEnv rowTrialStore).length < badmemMaxRanges ∧
      ¬PageAttempted (efiMain trialEnv (.start freeMemory rowTrialStore [])).2.trace
        0x200000 := by
  have htrial : PageTrial trialEnv rowTrialStore (badpagesBlob [0x200000]) :=
    ⟨rfl, by unfold StateIs; decide, by decide, by decide, by decide, by decide, by decide⟩
  refine ⟨htrial, by decide, by decide, ?_⟩
  have hstart : Event.startImage ∉ (Session.start freeMemory rowTrialStore []).trace :=
    List.not_mem_nil
  have hrows : readNvramBadrows rowTrialStore badmemMaxRows = [⟨0, 0, 0, 0, 0x3039⟩] := by decide
  rw [efiMain_page trialEnv (s := .start freeMemory rowTrialStore []) htrial.masked htrial.state,
    pageAttempted_chainload trialEnv (applyMask_not_started trialEnv false hstart),
    applyMask_rows trialEnv false (s := .start freeMemory rowTrialStore []) rowTrialStore_rowMode,
    maskRows_attempts]
  intro hpage
  rcases List.mem_append.mp hpage with hpage | hpage
  · exact absurd hpage List.not_mem_nil
  · obtain ⟨r, hr, hmatch⟩ := rowMatches_of_mem_rowPages hpage
    rw [show (Session.start freeMemory rowTrialStore []).nvram = rowTrialStore from rfl, hrows,
      List.mem_singleton] at hr
    rw [hr] at hmatch
    exact absurd hmatch (by decide)

/-- The entries between the commas, without the spaces around them. -/
def namedChips (text : List UInt8) : List (List UInt8) :=
  (text.splitOn comma).map fun field =>
    ((field.dropWhile (· == 0x20)).reverse.dropWhile (· == 0x20)).reverse

section
variable {σ : Type}

/-- A masking run with a pending chip trial for a chip of the board table, on a machine
whose memory controller can be read. -/
structure ChipTrial (env : ShimEnv σ) (store : Store) (designator : List UInt8) : Prop where
  masked : passthroughFlag env.loadOptions = false
  state : StateIs store stateTrialPendingChip
  board : ∃ p ∈ env.profiles, ∃ pkg ∈ p.packages, pkg.designator = designator
  named : ∃ text, store.get? .brr brrVarnameBadchips = some text ∧
    designator ∈ namedChips (cString text)
  valid : (shimCflInit env.host).valid = true
  total : shimCflTotalMemory (shimCflInit env.host) ≠ 0

theorem mem_log_start (mem : σ) (nvram : Store) (keys : List UInt16) {e e' : Event} :
    e ∈ ((Session.start mem nvram keys).log e').trace ↔ e = e' := by
  rw [Session.log_trace]
  exact List.mem_singleton

theorem chipProtected_of_rowMode (env : ShimEnv σ) (mem : σ) {nvram : Store}
    (keys : List UInt16) (h : RowMode nvram) (designator : List UInt8) :
    ChipProtected (chainload env (applyMask env true (.start mem nvram keys))).2.trace
      designator := by
  have hstart : Event.startImage ∉ (Session.start mem nvram keys).trace := List.not_mem_nil
  rw [chipProtected_chainload env (applyMask_not_started env true hstart),
    applyMask_rows env true (s := .start mem nvram keys) h]
  have honly := onlyAllocates_maskRows env.fw env.host (readNvramBadrows nvram badmemMaxRows)
    (.start mem nvram keys)
  constructor
  · intro hclean
    have hlog := (honly.mem_trace rfl).mp hclean
    exact absurd ((mem_log_start mem nvram keys).mp hlog) (by simp)
  · exact Or.inr ⟨_, (honly.mem_trace rfl).mpr ((mem_log_start mem nvram keys).mpr rfl), h.2⟩

theorem not_chipProtected_of_uncovered (env : ShimEnv σ) (mem : σ) {nvram : Store}
    (keys : List UInt16) (hvalidated : readNvramDecoderStatusValidated nvram = true)
    (hrows : readNvramBadrows nvram badmemMaxRows = []) (designator : List UInt8) :
    ¬ChipProtected (chainload env (applyMask env true (.start mem nvram keys))).2.trace
      designator := by
  have hstart : Event.startImage ∉ (Session.start mem nvram keys).trace := List.not_mem_nil
  rw [chipProtected_chainload env (applyMask_not_started env true hstart),
    applyMask_uncovered env (s := .start mem nvram keys) hvalidated hrows]
  intro h
  exact h.1 ((mem_log_start mem nvram keys).mpr rfl)

theorem mem_resolved_iff {env : ShimEnv σ} {designator : List UInt8}
    (hboard : ∃ p ∈ env.profiles, ∃ pkg ∈ p.packages, pkg.designator = designator)
    (store : Store) (cap : ℕ) :
    (∃ c ∈ resolveChipEntries env.profiles (readNvramBadchips store cap),
        c.designator = designator ∧ c.resolved = true) ↔
      designator ∈ badchipDesignators store cap := by
  unfold resolveChipEntries readNvramBadchips
  constructor
  · intro h
    obtain ⟨c, hc, hd, -⟩ := h
    obtain ⟨c₀, hc₀, rfl⟩ := List.mem_map.mp hc
    obtain ⟨d, hmem, rfl⟩ := List.mem_map.mp hc₀
    rw [resolveChip_designator] at hd
    change d = designator at hd
    rwa [← hd]
  · intro h
    refine ⟨_, List.mem_map_of_mem (List.mem_map_of_mem h), resolveChip_designator _ _, ?_⟩
    exact resolveChip_resolved hboard

theorem chipProtected_chipMode_iff {env : ShimEnv σ} (mem : σ) {nvram : Store}
    (keys : List UInt16) {designator : List UInt8}
    (hboard : ∃ p ∈ env.profiles, ∃ pkg ∈ p.packages, pkg.designator = designator)
    (hvalidated : readNvramDecoderStatusValidated nvram = false) :
    ChipProtected (chainload env (applyMask env true (.start mem nvram keys))).2.trace
        designator ↔
      designator ∈ badchipDesignators nvram badmemMaxChips := by
  have hstart : Event.startImage ∉ (Session.start mem nvram keys).trace := List.not_mem_nil
  have honly := onlyAllocates_maskChips env.fw env.host
    (resolveChipEntries env.profiles (readNvramBadchips nvram badmemMaxChips))
    (.start mem nvram keys)
  rw [chipProtected_chainload env (applyMask_not_started env true hstart),
    applyMask_chips env (s := .start mem nvram keys) hvalidated, ← mem_resolved_iff hboard]
  unfold chipMode
  constructor
  · intro h
    rcases h.2 with ⟨chips, hcall, hchip⟩ | ⟨rows, hcall, -⟩
    · have hlog := (mem_log_start mem nvram keys).mp ((honly.mem_trace rfl).mp hcall)
      obtain rfl := Event.maskChips.inj hlog
      exact hchip
    · have hlog := (mem_log_start mem nvram keys).mp ((honly.mem_trace rfl).mp hcall)
      cases hlog
  · intro h
    constructor
    · intro hclean
      have hlog := (mem_log_start mem nvram keys).mp ((honly.mem_trace rfl).mp hclean)
      cases hlog
    · exact Or.inl ⟨_, (honly.mem_trace rfl).mpr ((mem_log_start mem nvram keys).mpr rfl), h⟩

/-- A chip trial protects the machine exactly when a trusted decoder has rows to mask, or
the decoder is not trusted and the chip is among the designators which are read. -/
theorem chip_trial_protected_iff {env : ShimEnv σ} {nvram : Store} {designator : List UInt8}
    (mem : σ) (keys : List UInt16) (h : ChipTrial env nvram designator) :
    ChipProtected (efiMain env (.start mem nvram keys)).2.trace designator ↔
      RowMode nvram ∨ (readNvramDecoderStatusValidated nvram = false ∧
        designator ∈ badchipDesignators nvram badmemMaxChips) := by
  have hrun := efiMain_chip env (s := .start mem nvram keys) h.masked h.state
  rw [hrun]
  cases hvalidated : readNvramDecoderStatusValidated nvram with
  | false =>
      rw [chipProtected_chipMode_iff mem keys h.board hvalidated]
      constructor
      · intro hmem
        exact Or.inr ⟨rfl, hmem⟩
      · intro hcases
        rcases hcases with hrow | hchips
        · rw [RowMode, hvalidated] at hrow
          exact absurd hrow.1 Bool.false_ne_true
        · exact hchips.2
  | true =>
      by_cases hrows : readNvramBadrows nvram badmemMaxRows = []
      · constructor
        · intro hprot
          exact absurd hprot (not_chipProtected_of_uncovered env mem keys hvalidated hrows _)
        · intro hcases
          rcases hcases with hrow | hchips
          · exact absurd hrows hrow.2
          · exact absurd hchips.1 Bool.true_eq_false.mp
      · constructor
        · intro _
          exact Or.inl ⟨hvalidated, hrows⟩
        · intro _
          exact chipProtected_of_rowMode env mem keys ⟨hvalidated, hrows⟩ _

end

/-- A chip of the board table and no decoder verdict. -/
def chipTrialStore : Store :=
  [⟨.brr, brrVarnameState, ascii stateTrialPendingChip⟩,
    ⟨.brr, brrVarnameBadchips, ascii "U2410"⟩]

theorem chip_trial_protects_named_chip :
    ChipTrial trialEnv chipTrialStore (ascii "U2410") ∧
      ChipProtected (efiMain trialEnv (.start freeMemory chipTrialStore [])).2.trace
        (ascii "U2410") := by
  have htrial : ChipTrial trialEnv chipTrialStore (ascii "U2410") :=
    ⟨rfl, by unfold StateIs; decide, by decide, ⟨ascii "U2410", by decide, by decide⟩,
      by decide, by decide⟩
  exact ⟨htrial, (chip_trial_protected_iff freeMemory [] htrial).mpr
    (Or.inr ⟨by decide, by decide⟩)⟩

/-- The same list under a trusted decoder which has recorded no row. -/
def uncoveredStore : Store :=
  chipTrialStore ++ [⟨.brr, varnameDecoderStatus, ascii "VALIDATED"⟩]

theorem validated_without_rows_boots_unmasked :
    ChipTrial trialEnv uncoveredStore (ascii "U2410") ∧
      ¬ChipProtected (efiMain trialEnv (.start freeMemory uncoveredStore [])).2.trace
        (ascii "U2410") := by
  have htrial : ChipTrial trialEnv uncoveredStore (ascii "U2410") :=
    ⟨rfl, by unfold StateIs; decide, by decide, ⟨ascii "U2410", by decide, by decide⟩,
      by decide, by decide⟩
  refine ⟨htrial, ?_⟩
  rw [efiMain_chip trialEnv (s := .start freeMemory uncoveredStore []) htrial.masked htrial.state]
  exact not_chipProtected_of_uncovered trialEnv freeMemory [] (by decide) (by decide) _

end BankFinder.TrialBoot
