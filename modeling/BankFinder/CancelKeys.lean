import BankFinder.BrrEntry
import BankFinder.LineEditor

/-!
# ESC at the prompts of the address entry program

The firmware reports ESC as a scan code without a character. `read_line` looks at
the scan code; the two other prompts read keys through `efi_readkey`, which hands
on the character only, so ESC is no key to them and they go on waiting.
-/

namespace BankFinder.CancelKeys
open Nvram EfiMachine MachineFrame MaskOps MaskFrames Install AddressEntry BrrEntry PollLoop
open BadPages LineEditor InstallUndo

/-- What is on record stays on record. -/
def Grows (m m' : Machine) : Prop := m.sets <+: m'.sets

instance : Std.Refl Grows := ⟨fun _ => List.prefix_rfl⟩

instance : IsTrans Machine Grows := ⟨fun _ _ _ h h' => h.trans h'⟩

theorem grows_of_sameVars {m m' : Machine} (h : SameVars m m') : Grows m m' := by
  rw [Grows, h.2]

section
variable {ε α : Type}

theorem grows_reads {x : EfiM ε α} (h : Reads x) : Keeps Grows x :=
  fun m => grows_of_sameVars (h.sameVars m)

theorem grows_writes {x : EfiM ε α} (h : Writes Set.univ x) : Keeps Grows x :=
  fun m => grows_of_sameVars (h.sameVars m)

theorem grows_setVariable (fw : Efi) (guid : Guid) (name : String) (data : List UInt8) :
    Keeps Grows (setVariable fw guid name data) := by
  intro m
  obtain ⟨status, hsets⟩ := setVariable_sets fw guid name data m
  rw [Grows, hsets]
  exact List.prefix_append _ _

theorem grows_maskNvramDelete (fw : Efi) (name : String) :
    Keeps Grows (maskNvramDelete fw name : EfiM ε Unit) :=
  (grows_setVariable fw _ _ _).ignore

theorem grows_deleteFileOps (fw : Efi) (root : Handle) (path : EfiPath) :
    Keeps Grows (deleteFileOps fw root path : EfiM ε Unit) :=
  grows_writes (writes_deleteFileOps fw (Set.mem_univ _))

theorem grows_undoCopy (fw : Efi) (esp : Handle) :
    Keeps Grows (undoCopy fw esp : EfiM ε Unit) :=
  (grows_deleteFileOps fw esp _).bind fun _ => (grows_maskNvramDelete fw _).bind fun _ =>
    grows_maskNvramDelete fw _

theorem grows_undoEntry (fw : Efi) (esp : Handle) :
    Keeps Grows (undoEntry fw esp : EfiM ε Unit) :=
  (grows_deleteFileOps fw esp _).bind fun _ => (grows_deleteFileOps fw esp _).bind fun _ =>
    (grows_maskNvramDelete fw _).bind fun _ => grows_maskNvramDelete fw _

theorem grows_undoOrder (fw : Efi) (esp : Handle) (slot : UInt16) :
    Keeps Grows (undoOrder fw esp slot : EfiM ε Unit) :=
  (grows_setVariable fw _ _ _).ignore.bind fun _ => (grows_maskNvramDelete fw _).bind fun _ =>
    (grows_maskNvramDelete fw _).bind fun _ => (grows_maskNvramDelete fw _).bind fun _ =>
      (grows_deleteFileOps fw esp _).bind fun _ => grows_deleteFileOps fw esp _

end

theorem grows_prepareEsp (fw : Efi) (esp : Handle) : Keeps Grows (prepareEsp fw esp) := by
  have hentries : Keeps Grows (saveExistingBootEntries fw : EfiM InstallError Unit) := by
    refine (grows_reads reads_readStore).bind fun store => ?_
    simp only
    split_ifs
    · exact Keeps.pure ()
    · exact (grows_setVariable fw _ _ _).ignore
  have horder : Keeps Grows (saveBootOrder fw : EfiM InstallError Unit) := by
    refine (grows_reads reads_readStore).bind fun store => ?_
    simp only
    split_ifs
    · exact (grows_setVariable fw _ _ _).ignore
    · exact Keeps.pure ()
  have hfiles : Keeps Grows (backupBrrFiles fw esp : EfiM InstallError Unit) :=
    fun m => grows_of_sameVars ((writes_backupBrrFiles fw esp).sameVars m)
  have hdir (path : EfiPath) : Keeps Grows (mkdirPOps fw esp path : EfiM InstallError Unit) :=
    grows_writes (writes_mkdirPOps fw (Set.mem_univ _))
  exact hentries.bind fun _ => hfiles.bind fun _ => horder.bind fun _ => (hdir _).bind fun _ =>
    hdir _

theorem grows_installBootEntryOps (fw : Efi) (esp : Handle) :
    Keeps Grows (installBootEntryOps fw esp) := by
  refine (grows_reads (reads_devicePath fw esp)).bind fun fullDp => ?_
  split_ifs
  · exact Keeps.fail bufferTooSmall
  · refine (grows_reads reads_readStore).bind fun store => ?_
    cases findFreeSlot store 255 0x0100 with
    | none => exact Keeps.fail outOfResources
    | some slot => exact (grows_setVariable fw _ _ _).bind fun _ => Keeps.pure slot

/-- No step of the installer takes a call back from the record, rollbacks included. -/
theorem grows_installMaskFull (fw : Efi) : Keeps Grows (installMaskFull fw) := by
  have hcopy (usbRoot esp : Handle) : Keeps Grows (copyShim fw usbRoot esp) := by
    refine Keeps.bind (keeps_orFail ?_ _ (grows_undoCopy fw esp)) fun _ => ?_
    · exact grows_writes (writes_copyFileOps fw usbRoot usbShimPath (Set.mem_univ _))
    · exact (grows_writes (writes_copyFileOps fw usbRoot usbBadmem (Set.mem_univ _))).ignore
  have hregister (esp : Handle) : Keeps Grows (registerEntry fw esp) := by
    refine Keeps.bind (keeps_orFail (grows_installBootEntryOps fw esp) _ (grows_undoEntry fw esp))
      fun slot => ?_
    exact (grows_setVariable fw _ _ _).ignore.bind fun _ => Keeps.pure slot
  have hactivate (esp : Handle) (slot : UInt16) : Keeps Grows (activateEntry fw esp slot) := by
    refine Keeps.bind (keeps_orFail ?_ _ (grows_undoOrder fw esp slot)) fun _ => ?_
    · exact (grows_reads reads_readStore).bind fun _ => grows_setVariable fw _ _ _
    · exact (grows_setVariable fw _ _ _).ignore
  refine (grows_reads (reads_findVolumes fw)).bind fun volumes => ?_
  refine (grows_prepareEsp fw volumes.2).bind fun _ => (hcopy volumes.1 volumes.2).bind fun _ => ?_
  exact (hregister volumes.2).bind fun slot => hactivate volumes.2 slot

theorem grows_autoInstall (fw : Efi) : Keeps Grows (autoInstall fw) := by
  refine (grows_reads reads_readStore).bind fun store => ?_
  split_ifs
  · exact Keeps.pure ()
  · refine Keeps.bind (x := succeeds (installMaskFull fw)) (grows_installMaskFull fw)
      fun installed => ?_
    split_ifs
    · exact (grows_setVariable fw _ _ _).ignore
    · exact Keeps.pure ()

/-- Neither a `SetVariable` call nor any of the installer and of the chain-loader. -/
def Silent (fw : Efi) (polls : List Poll) (m : Machine) : Prop :=
  (efiMain fw polls m).2.sets = m.sets ∧ (efiMain fw polls m).2.calls = m.calls

theorem grows_afterSet {α : Type} {x : EfiM Refusal α} (hx : Keeps Grows x)
    {m m' : Machine} {c : SetCall} (hset : m'.sets = m.sets ++ [c]) : (x m').2.sets ≠ m.sets := by
  intro heq
  have hprefix := (hx m').length_le
  rw [heq, hset, List.length_append, List.length_singleton] at hprefix
  omega

theorem not_silent_saved {fw : Efi} {polls : List Poll} {m : Machine}
    (h : prompts m.store polls = .saved) : ¬Silent fw polls m := by
  rintro ⟨hsets, -⟩
  rw [efiMain_saved h] at hsets
  obtain ⟨status, hset⟩ := setVariable_sets fw .brr MaskShim.brrVarnameState
    (ascii MaskShim.stateTrialPendingPage) m
  have hrest : Keeps Grows (do autoInstall fw; bootShim fw) :=
    (grows_autoInstall fw).bind fun _ => grows_reads (reads_bootShim fw)
  exact grows_afterSet hrest hset hsets

theorem not_silent_typed {fw : Efi} {polls : List Poll} {m : Machine} {pas : List UInt64}
    (h : prompts m.store polls = .typed pas) : ¬Silent fw polls m := by
  rintro ⟨hsets, -⟩
  rw [efiMain_typed h, applyTyped] at hsets
  obtain ⟨status, hset⟩ := setVariable_sets fw .brr brrVarnameBadpages (badpagesBlob pas) m
  have hrest : Keeps Grows (do
      maskNvramSetAscii fw MaskShim.brrVarnameState MaskShim.stateTrialPendingPage
      autoInstall fw
      bootShim fw) :=
    (grows_setVariable fw _ _ _).bind fun _ => (grows_autoInstall fw).bind fun _ =>
      grows_reads (reads_bootShim fw)
  rcases hrun : setVariable fw .brr brrVarnameBadpages (badpagesBlob pas) m with ⟨e | u, m'⟩
  · rw [bind_of_error _ hrun] at hsets
    rw [hrun] at hset
    rw [hset] at hsets
    exact absurd (congrArg List.length hsets) (by simp)
  · rw [bind_of_ok _ hrun] at hsets
    rw [hrun] at hset
    exact grows_afterSet hrest hset hsets

theorem silent_of_ends {fw : Efi} {polls : List Poll} {m : Machine} {o : Outcome}
    (h : prompts m.store polls = .ends o) : Silent fw polls m := by
  rw [Silent, efiMain_ends h]
  exact ⟨rfl, rfl⟩

/-- The prompt at which a key event is read. -/
inductive Prompt where
  | quickRetry
  | addressLine
  | confirmation
  deriving DecidableEq, Repr

def retryStep (_ : Unit) (poll : Poll) : Unit ⊕ RetryAnswer :=
  let k := efiReadkey poll
  if k = 0x59 ∨ k = 0x79 then .inr .apply
  else if k = 0x1B then .inr .cancel
  else if k = 0x4E ∨ k = 0x6E then .inr .enterNew
  else .inl ()

def confirmStep (_ : Unit) (poll : Poll) : Unit ⊕ Bool :=
  let k := efiReadkey poll
  if k = 0x59 ∨ k = 0x79 then .inr true
  else if k ≠ 0 then .inr false
  else .inl ()

theorem retryPrompt_eq_pollLoop (polls : List Poll) :
    retryPrompt polls = pollLoop retryStep () polls := by
  induction polls with
  | nil => rfl
  | cons poll polls ih =>
      simp only [retryPrompt, pollLoop, retryStep, ih]
      split_ifs <;> rfl

theorem confirmPrompt_eq_pollLoop (polls : List Poll) :
    confirmPrompt polls = (pollLoop confirmStep () polls).map Prod.fst := by
  induction polls with
  | nil => rfl
  | cons poll polls ih =>
      simp only [confirmPrompt, pollLoop, confirmStep, ih]
      split_ifs <;> rfl

def addressHeard (polls : List Poll) : List (Prompt × Poll) :=
  (heard (lineStep lineCap) [] polls).map (Prod.mk .addressLine) ++
    match readLine lineCap [] polls with
    | none => []
    | some (line, polls) =>
        match parseAddresses line pasCap with
        | none => []
        | some pas =>
            if pas.length = 0 then []
            else (heard confirmStep () polls).map (Prod.mk .confirmation)

/-- Every key event which a run reads, with the prompt that reads it. -/
def promptsHeard (store : Store) (polls : List Poll) : List (Prompt × Poll) :=
  match quickRetryOffer store with
  | none => addressHeard polls
  | some _ =>
      (heard retryStep () polls).map (Prod.mk .quickRetry) ++
        match retryPrompt polls with
        | some (.enterNew, polls) => addressHeard polls
        | _ => []

/-- ESC as the firmware reports it. -/
def IsEsc (poll : Poll) : Prop := poll = some ⟨0x17, 0⟩

def IsYes (poll : Poll) : Prop := efiReadkey poll = 0x59 ∨ efiReadkey poll = 0x79

def IsNo (poll : Poll) : Prop := efiReadkey poll = 0x4E ∨ efiReadkey poll = 0x6E

/-- The quick-retry prompt goes on waiting. -/
def RetryWaits (poll : Poll) : Prop := ¬IsYes poll ∧ efiReadkey poll ≠ 0x1B ∧ ¬IsNo poll

theorem isEsc_readkey {poll : Poll} (h : IsEsc poll) : efiReadkey poll = 0 := by
  rw [h]
  rfl

theorem not_isYes_of_isEsc {poll : Poll} (h : IsEsc poll) : ¬IsYes poll := by
  rw [IsYes, isEsc_readkey h]
  decide

theorem not_isNo_of_isEsc {poll : Poll} (h : IsEsc poll) : ¬IsNo poll := by
  rw [IsNo, isEsc_readkey h]
  decide

theorem not_ordinary_of_isEsc {poll : Poll} (h : IsEsc poll) : ¬Ordinary poll := by
  intro hordinary
  exact (hordinary _ h).1 rfl

theorem retryStep_waits {poll : Poll} : retryStep () poll = .inl () ↔ RetryWaits poll := by
  unfold retryStep RetryWaits IsYes IsNo
  simp only
  split_ifs <;> simp_all

theorem retryStep_apply {poll : Poll} : retryStep () poll = .inr .apply ↔ IsYes poll := by
  unfold retryStep IsYes
  simp only
  split_ifs <;> simp_all

theorem retryStep_enterNew {poll : Poll} : retryStep () poll = .inr .enterNew ↔ IsNo poll := by
  unfold retryStep IsNo
  simp only
  split_ifs with hyes hesc hno
  · refine iff_of_false (by simp) ?_
    rcases hyes with h | h <;> rw [h] <;> decide
  · refine iff_of_false (by simp) ?_
    rw [hesc]
    decide
  · exact iff_of_true rfl hno
  · exact iff_of_false (by simp) hno

theorem confirmStep_waits {poll : Poll} :
    confirmStep () poll = .inl () ↔ efiReadkey poll = 0 := by
  unfold confirmStep
  simp only
  split_ifs with hyes hkey
  · refine iff_of_false (by simp) ?_
    rcases hyes with h | h <;> rw [h] <;> decide
  · exact iff_of_false (by simp) hkey
  · exact iff_of_true rfl (not_not.mp hkey)

theorem confirmStep_true {poll : Poll} : confirmStep () poll = .inr true ↔ IsYes poll := by
  unfold confirmStep IsYes
  simp only
  split_ifs <;> simp_all

theorem lineStep_submits {cap : ℕ} {buf line : List UInt16} {poll : Poll}
    (h : lineStep cap buf poll = .inr line) (hline : line ≠ []) :
    ∃ enter, poll = some enter ∧ IsEnter enter ∧ line = buf := by
  cases poll with
  | none => exact absurd h (by simp [lineStep])
  | some key =>
      by_cases hesc : key.scanCode = 0x17
      · rw [lineStep_esc cap buf hesc] at h
        exact absurd (Sum.inr.inj h).symm hline
      by_cases henter : key.unicodeChar = 0x0D ∨ key.unicodeChar = 0x0A
      · rw [lineStep_enter cap buf ⟨hesc, henter⟩] at h
        exact ⟨key, rfl, ⟨hesc, henter⟩, (Sum.inr.inj h).symm⟩
      · rw [lineStep_ordinary cap buf (ordinary_some hesc henter)] at h
        exact absurd h (by simp)

theorem continues_unit {A : Type} {step : Unit → Poll → Unit ⊕ A} {polls : List Poll}
    (h : ∀ p ∈ polls, step () p = .inl ()) : Continues step () polls () :=
  continues_foldl (f := fun _ _ => ()) () fun p hp _ => h p hp

/-- The keys are a line with an address in it, then polls which the confirmation ignores,
and then Y. -/
structure Confirmed (polls events : List Poll) (enter : InputKey) (ignored : List Poll)
    (yes : Poll) (rest : List Poll) : Prop where
  polls_eq : polls = events ++ some enter :: (ignored ++ yes :: rest)
  ordinary : ∀ e ∈ events, Ordinary e
  submitted : IsEnter enter
  addresses : ∃ pas, parseAddresses (bufferAfter lineCap events) pasCap = some pas ∧ pas ≠ []
  waits : ∀ p ∈ ignored, efiReadkey p = 0
  confirmed : IsYes yes

theorem confirmed_of_typed {polls : List Poll} {pas : List UInt64}
    (h : addressPrompt polls = .typed pas) :
    ∃ events enter ignored yes rest, Confirmed polls events enter ignored yes rest := by
  unfold addressPrompt at h
  cases hread : readLine lineCap [] polls with
  | none =>
      rw [hread] at h
      cases h
  | some r =>
      obtain ⟨line, after⟩ := r
      rw [hread] at h
      simp only at h
      split_ifs at h with hempty
      cases hparse : parseAddresses line pasCap with
      | none =>
          rw [hparse] at h
          cases h
      | some found =>
          rw [hparse] at h
          simp only at h
          split_ifs at h with hnone
          cases hconfirm : confirmPrompt after with
          | none =>
              rw [hconfirm] at h
              cases h
          | some answer =>
              rw [hconfirm] at h
              cases answer with
              | false => cases h
              | true =>
                  rw [readLine_eq_pollLoop] at hread
                  obtain ⟨events, p, buf, rfl, hcont, hend⟩ := pollLoop_eq_some_iff.mp hread
                  obtain ⟨hordinary, rfl⟩ := bufferAfter_of_continues hcont
                  obtain ⟨enter, rfl, henter, rfl⟩ :=
                    lineStep_submits hend (fun hnil => hempty (by rw [hnil]; rfl))
                  rw [confirmPrompt_eq_pollLoop, Option.map_eq_some_iff] at hconfirm
                  obtain ⟨⟨answer, rest⟩, hanswer, rfl⟩ := hconfirm
                  obtain ⟨ignored, yes, _, rfl, hwaits, hyes⟩ := pollLoop_eq_some_iff.mp hanswer
                  refine ⟨events, enter, ignored, yes, rest, rfl, hordinary, henter,
                    ⟨found, hparse, ?_⟩, ?_, confirmStep_true.mp hyes⟩
                  · exact List.ne_nil_of_length_pos (Nat.pos_of_ne_zero hnone)
                  · exact hwaits.forall_mem fun _ _ _ hstep => confirmStep_waits.mp hstep

/-- Such keys get a new list past the prompts, and all of them are read. -/
theorem Confirmed.typed {polls events ignored rest : List Poll} {enter : InputKey} {yes : Poll}
    (h : Confirmed polls events enter ignored yes rest) :
    (∃ pas, addressPrompt polls = .typed pas) ∧
      addressHeard polls = (events ++ [some enter]).map (Prod.mk .addressLine) ++
        (ignored ++ [yes]).map (Prod.mk .confirmation) := by
  obtain ⟨rfl, hordinary, henter, ⟨pas, hparse, hne⟩, hwaits, hyes⟩ := h
  have hline := readLine_enter lineCap hordinary henter (ignored ++ yes :: rest)
  have hbuffer : (bufferAfter lineCap events).length ≠ 0 := by
    intro hzero
    rw [List.length_eq_zero_iff.mp hzero] at hparse
    exact hne (Option.some.inj hparse).symm
  have hlength : pas.length ≠ 0 := (List.length_pos_of_ne_nil hne).ne'
  have hcont : Continues confirmStep () ignored () :=
    continues_unit fun p hp => confirmStep_waits.mpr (hwaits p hp)
  have hanswer : confirmPrompt (ignored ++ yes :: rest) = some true := by
    rw [confirmPrompt_eq_pollLoop, pollLoop_of_ends hcont (confirmStep_true.mpr hyes)]
    rfl
  constructor
  · refine ⟨pas, ?_⟩
    unfold addressPrompt
    rw [hline]
    simp only [if_neg hbuffer, hparse, if_neg hlength, hanswer]
  · unfold addressHeard
    rw [hline, heard_of_ends (continues_ordinary lineCap hordinary) (lineStep_enter lineCap _ henter)]
    simp only [hparse, if_neg hlength, heard_of_ends hcont (confirmStep_true.mpr hyes)]

/-- ESC comes at the quick-retry prompt or at the confirmation, and then the keys which
apply a mask nevertheless. -/
def EscPassed (store : Store) (polls : List Poll) : Prop :=
  (quickRetryOffer store ≠ none ∧ ∃ waits yes rest, polls = waits ++ yes :: rest ∧
      (∀ p ∈ waits, RetryWaits p) ∧ IsYes yes ∧ ∃ e ∈ waits, IsEsc e) ∨
    (quickRetryOffer store ≠ none ∧ ∃ waits no typed events enter ignored yes rest,
      polls = waits ++ no :: typed ∧ (∀ p ∈ waits, RetryWaits p) ∧ IsNo no ∧
        Confirmed typed events enter ignored yes rest ∧ ∃ e ∈ waits ++ ignored, IsEsc e) ∨
    (quickRetryOffer store = none ∧ ∃ events enter ignored yes rest,
      Confirmed polls events enter ignored yes rest ∧ ∃ e ∈ ignored, IsEsc e)

/-- The last key read is a Y at the quick-retry prompt or at the confirmation. -/
def EndsInYes (keys : List (Prompt × Poll)) : Prop :=
  ∃ earlier p yes, keys = earlier ++ [(p, yes)] ∧ p ≠ .addressLine ∧ IsYes yes

theorem endsInYes_concat (earlier : List (Prompt × Poll)) {p : Prompt} (ignored : List Poll)
    {yes : Poll} (hp : p ≠ .addressLine) (hyes : IsYes yes) :
    EndsInYes (earlier ++ (ignored ++ [yes]).map (Prod.mk p)) := by
  refine ⟨earlier ++ ignored.map (Prod.mk p), p, yes, ?_, hp, hyes⟩
  rw [List.map_append, List.map_singleton, List.append_assoc]

/-- After ESC at any prompt nothing happens, and nothing happens but after a Y at the end. -/
structure CancelLaw (fw : Efi) (polls : List Poll) (m : Machine) : Prop where
  silent : (∃ e ∈ promptsHeard m.store polls, IsEsc e.2) → Silent fw polls m
  answered : ¬Silent fw polls m → EndsInYes (promptsHeard m.store polls)

theorem retry_continues {waits : List Poll} (h : ∀ p ∈ waits, RetryWaits p) :
    Continues retryStep () waits () :=
  continues_unit fun p hp => retryStep_waits.mpr (h p hp)

theorem retryPrompt_some {polls rest : List Poll} {a : RetryAnswer}
    (h : retryPrompt polls = some (a, rest)) : ∃ waits p, polls = waits ++ p :: rest ∧
      (∀ q ∈ waits, RetryWaits q) ∧ retryStep () p = .inr a := by
  rw [retryPrompt_eq_pollLoop] at h
  obtain ⟨waits, p, _, heq, hcont, hend⟩ := pollLoop_eq_some_iff.mp h
  exact ⟨waits, p, heq, hcont.forall_mem fun _ _ _ hstep => retryStep_waits.mp hstep, hend⟩

theorem retryPrompt_of_waits {waits : List Poll} {p : Poll} {a : RetryAnswer}
    (rest : List Poll) (h : ∀ q ∈ waits, RetryWaits q) (hend : retryStep () p = .inr a) :
    retryPrompt (waits ++ p :: rest) = some (a, rest) ∧
      heard retryStep () (waits ++ p :: rest) = waits ++ [p] := by
  rw [retryPrompt_eq_pollLoop]
  exact ⟨pollLoop_of_ends (retry_continues h) hend, heard_of_ends (retry_continues h) hend⟩

section
variable {store : Store} {waits : List Poll} {offer : List UInt64}

theorem prompts_yes (rest : List Poll) (hoffer : quickRetryOffer store = some offer) {yes : Poll}
    (h : ∀ p ∈ waits, RetryWaits p) (hyes : IsYes yes) :
    prompts store (waits ++ yes :: rest) = .saved ∧
      promptsHeard store (waits ++ yes :: rest) =
        (waits ++ [yes]).map (Prod.mk .quickRetry) := by
  obtain ⟨hanswer, hread⟩ := retryPrompt_of_waits rest h (retryStep_apply.mpr hyes)
  unfold prompts promptsHeard
  rw [hoffer]
  simp only [hanswer, hread, List.append_nil, and_self]

theorem prompts_no (typed : List Poll) (hoffer : quickRetryOffer store = some offer) {no : Poll}
    (h : ∀ p ∈ waits, RetryWaits p) (hno : IsNo no) :
    prompts store (waits ++ no :: typed) = addressPrompt typed ∧
      promptsHeard store (waits ++ no :: typed) =
        (waits ++ [no]).map (Prod.mk .quickRetry) ++ addressHeard typed := by
  obtain ⟨hanswer, hread⟩ := retryPrompt_of_waits typed h (retryStep_enterNew.mpr hno)
  unfold prompts promptsHeard
  rw [hoffer]
  simp only [hanswer, hread, and_self]

theorem prompts_fresh (hoffer : quickRetryOffer store = none) (polls : List Poll) :
    prompts store polls = addressPrompt polls ∧ promptsHeard store polls = addressHeard polls := by
  unfold prompts promptsHeard
  rw [hoffer]
  exact ⟨rfl, rfl⟩

theorem waits_of_saved {polls : List Poll} (h : prompts store polls = .saved) :
    ∃ offer, quickRetryOffer store = some offer ∧ ∃ waits yes rest,
      polls = waits ++ yes :: rest ∧ (∀ p ∈ waits, RetryWaits p) ∧ IsYes yes := by
  have htyped (polls : List Poll) : addressPrompt polls ≠ .saved := by
    unfold addressPrompt
    repeat' split
    all_goals simp
  cases hoffer : quickRetryOffer store with
  | none =>
      rw [(prompts_fresh hoffer polls).1] at h
      exact absurd h (htyped polls)
  | some offer =>
      unfold prompts at h
      rw [hoffer] at h
      cases hretry : retryPrompt polls with
      | none =>
          rw [hretry] at h
          cases h
      | some r =>
          obtain ⟨answer, rest⟩ := r
          rw [hretry] at h
          cases answer with
          | cancel => cases h
          | enterNew => exact absurd h (htyped rest)
          | apply =>
              obtain ⟨waits, yes, heq, hwaits, hend⟩ := retryPrompt_some hretry
              exact ⟨offer, rfl, waits, yes, rest, heq, hwaits, retryStep_apply.mp hend⟩

theorem confirmed_of_prompts {polls : List Poll} {pas : List UInt64}
    (h : prompts store polls = .typed pas) :
    (quickRetryOffer store = none ∧ ∃ events enter ignored yes rest,
      Confirmed polls events enter ignored yes rest) ∨
    ∃ offer, quickRetryOffer store = some offer ∧
      ∃ waits no typed events enter ignored yes rest, polls = waits ++ no :: typed ∧
        (∀ p ∈ waits, RetryWaits p) ∧ IsNo no ∧
        Confirmed typed events enter ignored yes rest := by
  cases hoffer : quickRetryOffer store with
  | none =>
      rw [(prompts_fresh hoffer polls).1] at h
      exact Or.inl ⟨rfl, confirmed_of_typed h⟩
  | some offer =>
      unfold prompts at h
      rw [hoffer] at h
      cases hretry : retryPrompt polls with
      | none =>
          rw [hretry] at h
          cases h
      | some r =>
          obtain ⟨answer, typed⟩ := r
          rw [hretry] at h
          cases answer with
          | apply => cases h
          | cancel => cases h
          | enterNew =>
              obtain ⟨waits, no, heq, hwaits, hend⟩ := retryPrompt_some hretry
              obtain ⟨events, enter, ignored, yes, rest, hconfirmed⟩ := confirmed_of_typed h
              exact Or.inr ⟨offer, rfl, waits, no, typed, events, enter, ignored, yes, rest, heq,
                hwaits, retryStep_enterNew.mp hend, hconfirmed⟩

end

/-- ESC is none of the keys which submit a line or confirm it. -/
theorem Confirmed.esc_ignored {polls events ignored rest : List Poll} {enter : InputKey}
    {yes : Poll} (h : Confirmed polls events enter ignored yes rest) {e : Prompt × Poll}
    (he : e ∈ addressHeard polls) (hesc : IsEsc e.2) : e.2 ∈ ignored := by
  rw [h.typed.2, List.mem_append, List.mem_map, List.mem_map] at he
  rcases he with ⟨poll, hmem, rfl⟩ | ⟨poll, hmem, rfl⟩
  · rcases List.mem_append.mp hmem with hmem | hmem
    · exact absurd (h.ordinary poll hmem) (not_ordinary_of_isEsc hesc)
    · obtain rfl := List.mem_singleton.mp hmem
      obtain rfl := Option.some.inj hesc
      exact absurd rfl h.submitted.1
  · rcases List.mem_append.mp hmem with hmem | hmem
    · exact hmem
    · obtain rfl := List.mem_singleton.mp hmem
      exact absurd h.confirmed (not_isYes_of_isEsc hesc)

theorem mem_concat_esc {p : Prompt} {waits : List Poll} {key : Poll} {e : Prompt × Poll}
    (he : e ∈ (waits ++ [key]).map (Prod.mk p)) (hesc : IsEsc e.2) (hkey : ¬IsEsc key) :
    e.2 ∈ waits := by
  obtain ⟨poll, hmem, rfl⟩ := List.mem_map.mp he
  rcases List.mem_append.mp hmem with hmem | hmem
  · exact hmem
  · obtain rfl := List.mem_singleton.mp hmem
    exact absurd hesc hkey

theorem not_escPassed_of_law {fw : Efi} {polls : List Poll} {m : Machine}
    (h : CancelLaw fw polls m) : ¬EscPassed m.store polls := by
  rintro (⟨hoffer, waits, yes, rest, rfl, hwaits, hyes, e, he, hesc⟩ |
    ⟨hoffer, waits, no, typed, events, enter, ignored, yes, rest, rfl, hwaits, hno, hconfirmed, e,
      he, hesc⟩ | ⟨hoffer, events, enter, ignored, yes, rest, hconfirmed, e, he, hesc⟩)
  · obtain ⟨offer, hoffer⟩ := Option.ne_none_iff_exists'.mp hoffer
    obtain ⟨hsaved, hheard⟩ := prompts_yes rest hoffer hwaits hyes
    apply not_silent_saved hsaved
    apply h.silent
    rw [hheard]
    exact ⟨(.quickRetry, e), List.mem_map_of_mem (List.mem_append_left _ he), hesc⟩
  · obtain ⟨offer, hoffer⟩ := Option.ne_none_iff_exists'.mp hoffer
    obtain ⟨hprompts, hheard⟩ := prompts_no typed hoffer hwaits hno
    obtain ⟨⟨pas, htyped⟩, haddress⟩ := hconfirmed.typed
    apply not_silent_typed (hprompts.trans htyped)
    apply h.silent
    rw [hheard, haddress]
    rcases List.mem_append.mp he with he | he
    · exact ⟨(.quickRetry, e), List.mem_append_left _
        (List.mem_map_of_mem (List.mem_append_left _ he)), hesc⟩
    · exact ⟨(.confirmation, e), List.mem_append_right _ (List.mem_append_right _
        (List.mem_map_of_mem (List.mem_append_left _ he))), hesc⟩
  · obtain ⟨hprompts, hheard⟩ := prompts_fresh hoffer polls
    obtain ⟨⟨pas, htyped⟩, haddress⟩ := hconfirmed.typed
    apply not_silent_typed (hprompts.trans htyped)
    apply h.silent
    rw [hheard, haddress]
    exact ⟨(.confirmation, e), List.mem_append_right _
      (List.mem_map_of_mem (List.mem_append_left _ he)), hesc⟩

/-- On the way to a mask the last key is a Y, and every ESC before it is passed over. -/
def LeadsToMask (store : Store) (polls : List Poll) : Prop :=
  EndsInYes (promptsHeard store polls) ∧
    ∀ e ∈ promptsHeard store polls, IsEsc e.2 → EscPassed store polls

theorem leadsToMask_of_saved {store : Store} {polls : List Poll}
    (h : prompts store polls = .saved) : LeadsToMask store polls := by
  obtain ⟨offer, hoffer, waits, yes, rest, rfl, hwaits, hyes⟩ := waits_of_saved h
  obtain ⟨-, hheard⟩ := prompts_yes rest hoffer hwaits hyes
  unfold LeadsToMask
  rw [hheard]
  constructor
  · exact endsInYes_concat [] waits (by decide) hyes
  · intro e he hesc
    have hignored := mem_concat_esc he hesc fun hkey => not_isYes_of_isEsc hkey hyes
    exact Or.inl ⟨by simp [hoffer], waits, yes, rest, rfl, hwaits, hyes, e.2, hignored, hesc⟩

theorem leadsToMask_of_fresh {store : Store} {polls events ignored rest : List Poll}
    {enter : InputKey} {yes : Poll} (hoffer : quickRetryOffer store = none)
    (h : Confirmed polls events enter ignored yes rest) : LeadsToMask store polls := by
  obtain ⟨-, hheard⟩ := prompts_fresh hoffer polls
  constructor
  · rw [hheard, h.typed.2]
    exact endsInYes_concat _ ignored (by decide) h.confirmed
  · intro e he hesc
    rw [hheard] at he
    exact Or.inr (Or.inr ⟨hoffer, events, enter, ignored, yes, rest, h, e.2,
      h.esc_ignored he hesc, hesc⟩)

theorem leadsToMask_of_enterNew {store : Store} {waits typed events ignored rest : List Poll}
    {offer : List UInt64} {enter : InputKey} {no yes : Poll}
    (hoffer : quickRetryOffer store = some offer) (hwaits : ∀ p ∈ waits, RetryWaits p)
    (hno : IsNo no) (h : Confirmed typed events enter ignored yes rest) :
    LeadsToMask store (waits ++ no :: typed) := by
  obtain ⟨-, hheard⟩ := prompts_no typed hoffer hwaits hno
  constructor
  · rw [hheard, h.typed.2, ← List.append_assoc]
    exact endsInYes_concat _ ignored (by decide) h.confirmed
  · intro e he hesc
    rw [hheard, List.mem_append] at he
    have hmem : e.2 ∈ waits ++ ignored := by
      rw [List.mem_append]
      rcases he with he | he
      · exact Or.inl (mem_concat_esc he hesc fun hkey => not_isNo_of_isEsc hkey hno)
      · exact Or.inr (h.esc_ignored he hesc)
    exact Or.inr (Or.inl ⟨by simp [hoffer], waits, no, typed, events, enter, ignored, yes, rest,
      rfl, hwaits, hno, h, e.2, hmem, hesc⟩)

theorem leadsToMask_of_typed {store : Store} {polls : List Poll} {pas : List UInt64}
    (h : prompts store polls = .typed pas) : LeadsToMask store polls := by
  rcases confirmed_of_prompts h with ⟨hoffer, events, enter, ignored, yes, rest, hconfirmed⟩ |
    ⟨offer, hoffer, waits, no, typed, events, enter, ignored, yes, rest, rfl, hwaits, hno,
      hconfirmed⟩
  · exact leadsToMask_of_fresh hoffer hconfirmed
  · exact leadsToMask_of_enterNew hoffer hwaits hno hconfirmed

theorem law_of_leadsToMask {fw : Efi} {polls : List Poll} {m : Machine}
    (hleads : LeadsToMask m.store polls) (h : ¬EscPassed m.store polls) :
    CancelLaw fw polls m where
  silent := by
    rintro ⟨e, he, hesc⟩
    exact absurd (hleads.2 e he hesc) h
  answered := fun _ => hleads.1

theorem law_of_not_escPassed (fw : Efi) {polls : List Poll} {m : Machine}
    (h : ¬EscPassed m.store polls) : CancelLaw fw polls m := by
  cases hchoice : prompts m.store polls with
  | ends o =>
      have hsilent := @silent_of_ends fw polls m o hchoice
      exact ⟨fun _ => hsilent, fun hloud => absurd hsilent hloud⟩
  | saved => exact law_of_leadsToMask (leadsToMask_of_saved hchoice) h
  | typed pas => exact law_of_leadsToMask (leadsToMask_of_typed hchoice) h

/-- Cancelling works exactly when no ESC is passed over on the way to a mask. -/
theorem cancelLaw_iff (fw : Efi) (polls : List Poll) (m : Machine) :
    CancelLaw fw polls m ↔ ¬EscPassed m.store polls :=
  ⟨not_escPassed_of_law, law_of_not_escPassed fw⟩

/-- The keys 1, 0, 0, 0 and Enter, then ESC at the confirmation, and Y. -/
def escThenYes : List Poll :=
  [some ⟨0, 0x31⟩, some ⟨0, 0x30⟩, some ⟨0, 0x30⟩, some ⟨0, 0x30⟩, some ⟨0, 0x0D⟩,
    some ⟨0x17, 0⟩, some ⟨0, 0x59⟩]

theorem esc_at_confirmation_ignored : ¬CancelLaw usbEfi escThenYes freshComputer := by
  intro hlaw
  apply not_escPassed_of_law hlaw
  have hconfirmed : Confirmed escThenYes
      [some ⟨0, 0x31⟩, some ⟨0, 0x30⟩, some ⟨0, 0x30⟩, some ⟨0, 0x30⟩] ⟨0, 0x0D⟩
      [some ⟨0x17, 0⟩] (some ⟨0, 0x59⟩) [] := by
    refine ⟨rfl, ?_, ⟨by decide, Or.inl rfl⟩, ⟨[0x1000], by decide, by decide⟩, ?_, Or.inl rfl⟩
    · have hdigit (c : UInt16) (hc : ¬(c = 0x0D ∨ c = 0x0A)) : Ordinary (some ⟨0, c⟩) :=
        ordinary_some (show (0 : UInt16) ≠ 0x17 by decide) hc
      simp only [List.forall_mem_cons]
      exact ⟨hdigit 0x31 (by decide), hdigit 0x30 (by decide), hdigit 0x30 (by decide),
        hdigit 0x30 (by decide), fun e he => absurd he List.not_mem_nil⟩
    · intro p hp
      rw [List.mem_singleton.mp hp]
      rfl
  exact Or.inr (Or.inr ⟨by decide, _, _, _, _, _, hconfirmed, _, List.mem_singleton_self _, rfl⟩)

end BankFinder.CancelKeys
