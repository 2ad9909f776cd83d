import BankFinder.PollLoop
import BankFinder.AddressEntry

/-!
# The line editor against the text typed

`read_line` is a polling loop whose state is its buffer. The text a user has typed
is a fold over the keys with no end to it, while a character for which the buffer
has no room is neither stored nor echoed.
-/

namespace BankFinder.LineEditor
open PollLoop AddressEntry

def Printable (key : InputKey) : Prop := 0x20 ≤ key.unicodeChar ∧ key.unicodeChar < 0x7F

instance (key : InputKey) : Decidable (Printable key) := inferInstanceAs (Decidable (_ ∧ _))

/-- The buffer after an event which is neither ESC nor Enter. -/
def editBuffer (cap : ℕ) (buf : List UInt16) : Poll → List UInt16
  | none => buf
  | some key =>
      if key.unicodeChar = 0x08 ∨ key.unicodeChar = 0x7F then buf.dropLast
      else if Printable key ∧ buf.length + 1 < cap then buf ++ [key.unicodeChar]
      else buf

def lineStep (cap : ℕ) (buf : List UInt16) (poll : Poll) : List UInt16 ⊕ List UInt16 :=
  match poll with
  | none => .inl (editBuffer cap buf poll)
  | some key =>
      if key.scanCode = 0x17 then .inr []
      else if key.unicodeChar = 0x0D ∨ key.unicodeChar = 0x0A then .inr buf
      else .inl (editBuffer cap buf poll)

/-- Neither ESC nor Enter. -/
def Ordinary (poll : Poll) : Prop :=
  ∀ key, poll = some key →
    key.scanCode ≠ 0x17 ∧ key.unicodeChar ≠ 0x0D ∧ key.unicodeChar ≠ 0x0A

def IsEnter (key : InputKey) : Prop :=
  key.scanCode ≠ 0x17 ∧ (key.unicodeChar = 0x0D ∨ key.unicodeChar = 0x0A)

theorem ordinary_none : Ordinary none := by
  intro key hkey
  exact absurd hkey (Option.some_ne_none key).symm

theorem ordinary_some {key : InputKey} (hesc : key.scanCode ≠ 0x17)
    (henter : ¬(key.unicodeChar = 0x0D ∨ key.unicodeChar = 0x0A)) : Ordinary (some key) := by
  intro other heq
  obtain rfl := Option.some.inj heq
  exact ⟨hesc, not_or.mp henter⟩

theorem lineStep_ordinary (cap : ℕ) (buf : List UInt16) {poll : Poll} (h : Ordinary poll) :
    lineStep cap buf poll = .inl (editBuffer cap buf poll) := by
  cases poll with
  | none => rfl
  | some key =>
      obtain ⟨hesc, hcr, hlf⟩ := h key rfl
      unfold lineStep
      simp only [if_neg hesc, if_neg (not_or.mpr ⟨hcr, hlf⟩)]

theorem ordinary_of_lineStep {cap : ℕ} {buf buf' : List UInt16} {poll : Poll}
    (h : lineStep cap buf poll = .inl buf') : Ordinary poll ∧ buf' = editBuffer cap buf poll := by
  cases poll with
  | none =>
      exact ⟨ordinary_none, (Sum.inl.inj h).symm⟩
  | some key =>
      unfold lineStep at h
      simp only at h
      split_ifs at h with hesc henter
      exact ⟨ordinary_some hesc henter, (Sum.inl.inj h).symm⟩

theorem lineStep_enter (cap : ℕ) (buf : List UInt16) {key : InputKey} (h : IsEnter key) :
    lineStep cap buf (some key) = .inr buf := by
  unfold lineStep
  simp only [if_neg h.1, if_pos h.2]

theorem lineStep_esc (cap : ℕ) (buf : List UInt16) {key : InputKey} (h : key.scanCode = 0x17) :
    lineStep cap buf (some key) = .inr [] := by
  unfold lineStep
  simp only [if_pos h]

theorem readLine_eq_pollLoop (cap : ℕ) (buf : List UInt16) (polls : List Poll) :
    readLine cap buf polls = pollLoop (lineStep cap) buf polls := by
  induction polls generalizing buf with
  | nil => rfl
  | cons poll polls ih =>
      cases poll with
      | none => exact ih buf
      | some key =>
          by_cases hesc : key.scanCode = 0x17
          · rw [pollLoop_end polls (lineStep_esc cap buf hesc), readLine, if_pos hesc]
          by_cases henter : key.unicodeChar = 0x0D ∨ key.unicodeChar = 0x0A
          · rw [pollLoop_end polls (lineStep_enter cap buf ⟨hesc, henter⟩), readLine, if_neg hesc]
            exact if_pos henter
          have hordinary := lineStep_ordinary cap buf (ordinary_some hesc henter)
          rw [pollLoop_go polls hordinary, ← ih, readLine, if_neg hesc]
          simp only [if_neg henter, editBuffer, Printable, and_assoc]
          split_ifs <;> rfl

/-- The buffer after ordinary events. -/
def bufferAfter (cap : ℕ) (events : List Poll) : List UInt16 := events.foldl (editBuffer cap) []

theorem continues_ordinary (cap : ℕ) {events : List Poll} (h : ∀ e ∈ events, Ordinary e) :
    Continues (lineStep cap) [] events (bufferAfter cap events) := by
  apply continues_foldl
  intro e he buf
  exact lineStep_ordinary cap buf (h e he)

theorem bufferAfter_of_continues {cap : ℕ} {events : List Poll} {buf : List UInt16}
    (h : Continues (lineStep cap) [] events buf) :
    (∀ e ∈ events, Ordinary e) ∧ buf = bufferAfter cap events := by
  constructor
  · exact h.forall_mem fun _ _ _ hstep => (ordinary_of_lineStep hstep).1
  · exact h.eq_foldl fun _ _ _ hstep => (ordinary_of_lineStep hstep).2

/-- A line which ends in Enter is the buffer at that moment. -/
theorem readLine_enter (cap : ℕ) {events : List Poll} (h : ∀ e ∈ events, Ordinary e)
    {enter : InputKey} (henter : IsEnter enter) (rest : List Poll) :
    readLine cap [] (events ++ some enter :: rest) = some (bufferAfter cap events, rest) := by
  rw [readLine_eq_pollLoop]
  exact pollLoop_of_ends (continues_ordinary cap h) (lineStep_enter cap _ henter)

/-- The text after one more event, with no bound on its length. -/
def editText (text : List UInt16) : Poll → List UInt16
  | none => text
  | some key =>
      if key.unicodeChar = 0x08 ∨ key.unicodeChar = 0x7F then text.dropLast
      else if Printable key then text ++ [key.unicodeChar]
      else text

/-- Each printable character in order, each backspace taking the last one that is left. -/
def edited (events : List Poll) : List UInt16 := events.foldl editText []

theorem bufferAfter_concat (cap : ℕ) (events : List Poll) (e : Poll) :
    bufferAfter cap (events ++ [e]) = editBuffer cap (bufferAfter cap events) e :=
  List.foldl_concat ..

theorem edited_concat (events : List Poll) (e : Poll) :
    edited (events ++ [e]) = editText (edited events) e :=
  List.foldl_concat ..

theorem not_backspace_of_printable {key : InputKey} (h : Printable key) :
    ¬(key.unicodeChar = 0x08 ∨ key.unicodeChar = 0x7F) := by
  obtain ⟨hlo, hhi⟩ := h
  rintro (hback | hdel)
  · rw [hback] at hlo
    exact absurd hlo (by decide)
  · rw [hdel] at hhi
    exact absurd hhi (by decide)

theorem editText_printable (text : List UInt16) {key : InputKey} (h : Printable key) :
    editText text (some key) = text ++ [key.unicodeChar] := by
  simp only [editText, if_neg (not_backspace_of_printable h), if_pos h]

/-- Every typed character finds room behind the text which stands before it. -/
def Fits (cap : ℕ) (events : List Poll) : Prop :=
  ∀ before key after, events = before ++ some key :: after → Printable key →
    (edited before).length + 1 < cap

/-- The character is stored whenever one is typed. -/
def NoneDropped (cap : ℕ) (events : List Poll) : Prop :=
  ∀ before key after, events = before ++ some key :: after → Printable key →
    bufferAfter cap (before ++ [some key]) = bufferAfter cap before ++ [key.unicodeChar]

theorem editBuffer_eq_editText {cap : ℕ} {text : List UInt16} {e : Poll}
    (h : ∀ key, e = some key → Printable key → text.length + 1 < cap) :
    editBuffer cap text e = editText text e := by
  cases e with
  | none => rfl
  | some key =>
      unfold editBuffer editText
      by_cases hprint : Printable key
      · simp only [hprint, h key rfl hprint, and_self]
      · simp only [hprint, false_and]

/-- As long as everything fits, the buffer holds the text. -/
theorem bufferAfter_of_fits {cap : ℕ} {events : List Poll} (h : Fits cap events) :
    bufferAfter cap events = edited events := by
  induction events using List.reverseRecOn with
  | nil => rfl
  | append_singleton events e ih =>
      have hfits : Fits cap events := by
        intro before key after heq hprint
        apply h before key (after ++ [e]) _ hprint
        rw [heq, List.append_assoc, List.cons_append]
      rw [bufferAfter_concat, edited_concat, ih hfits]
      apply editBuffer_eq_editText
      rintro key rfl hprint
      exact h events key [] rfl hprint

theorem editBuffer_stores_iff {cap : ℕ} (buf : List UInt16) {key : InputKey}
    (h : Printable key) :
    editBuffer cap buf (some key) = buf ++ [key.unicodeChar] ↔ buf.length + 1 < cap := by
  simp only [editBuffer, if_neg (not_backspace_of_printable h)]
  by_cases hroom : buf.length + 1 < cap
  · rw [if_pos ⟨h, hroom⟩]
    exact iff_of_true rfl hroom
  · rw [if_neg (fun hboth => hroom hboth.2)]
    refine iff_of_false ?_ hroom
    intro heq
    have hlength := congrArg List.length heq
    rw [List.length_append, List.length_singleton] at hlength
    omega

theorem fits_of_noneDropped {cap : ℕ} {events : List Poll} (h : NoneDropped cap events) :
    Fits cap events := by
  induction events using List.reverseRecOn with
  | nil =>
      intro before key after heq
      exact absurd heq.symm (by simp)
  | append_singleton events e ih =>
      have hearlier : NoneDropped cap events := by
        intro before key after heq hprint
        apply h before key (after ++ [e]) _ hprint
        rw [heq, List.append_assoc, List.cons_append]
      have hfits := ih hearlier
      intro before key after heq hprint
      rcases List.eq_nil_or_concat' after with rfl | ⟨after, last, rfl⟩
      · obtain ⟨rfl, hlast⟩ := List.append_inj' heq rfl
        have hstored := h events key [] (by rw [List.cons.inj hlast |>.1]) hprint
        rw [bufferAfter_concat, editBuffer_stores_iff _ hprint, bufferAfter_of_fits hfits] at hstored
        exact hstored
      · rw [← List.cons_append, ← List.append_assoc] at heq
        obtain ⟨hinit, -⟩ := List.append_inj' heq rfl
        exact hfits before key after hinit hprint

theorem noneDropped_of_fits {cap : ℕ} {events : List Poll} (h : Fits cap events) :
    NoneDropped cap events := by
  intro before key after heq hprint
  have hbefore : Fits cap before := by
    intro before' key' after' heq' hprint'
    apply h before' key' (after' ++ some key :: after) _ hprint'
    rw [heq, heq', List.append_assoc, List.cons_append]
  rw [bufferAfter_concat, editBuffer_stores_iff _ hprint, bufferAfter_of_fits hbefore]
  exact h before key after heq hprint

theorem edited_length_le (events : List Poll) : (edited events).length ≤ events.length := by
  induction events using List.reverseRecOn with
  | nil => exact le_rfl
  | append_singleton events e ih =>
      have hone : (editText (edited events) e).length ≤ (edited events).length + 1 := by
        cases e with
        | none => exact Nat.le_succ _
        | some key =>
            simp only [editText]
            split_ifs
            · rw [List.length_dropLast]
              omega
            · simp
            · exact Nat.le_succ _
      rw [edited_concat, List.length_append, List.length_singleton]
      omega

/-- A line of fewer keys than the buffer has places always fits. -/
theorem fits_of_few_keys {cap : ℕ} {events : List Poll} (h : events.length < cap) :
    Fits cap events := by
  rintro before key after rfl -
  have hle := edited_length_le before
  rw [List.length_append, List.length_cons] at h
  omega

theorem edited_replicate {key : InputKey} (h : Printable key) (n : ℕ) :
    edited (List.replicate n (some key)) = List.replicate n key.unicodeChar := by
  induction n with
  | zero => rfl
  | succ n ih =>
      rw [List.replicate_succ', edited_concat, ih, editText_printable _ h, List.replicate_succ']

/-- What `read_line` returns is the text typed, and no typed character was left out. -/
def ReadsExactly (cap : ℕ) (events : List Poll) (enter : InputKey) (rest : List Poll) : Prop :=
  readLine cap [] (events ++ some enter :: rest) = some (edited events, rest) ∧
    NoneDropped cap events

/-- The line is the text typed exactly when the text stays shorter than the buffer. -/
theorem readsExactly_iff (cap : ℕ) {events : List Poll} (h : ∀ e ∈ events, Ordinary e)
    {enter : InputKey} (henter : IsEnter enter) (rest : List Poll) :
    ReadsExactly cap events enter rest ↔ Fits cap events := by
  constructor
  · rintro ⟨-, hnone⟩
    exact fits_of_noneDropped hnone
  · intro hfits
    refine ⟨?_, noneDropped_of_fits hfits⟩
    rw [readLine_enter cap h henter, bufferAfter_of_fits hfits]

/-- A digit, taken back, and another one. -/
theorem readsExactly_corrected_digit :
    ReadsExactly 512 [some ⟨0, 0x31⟩, none, some ⟨0, 0x08⟩, some ⟨0, 0x32⟩] ⟨0, 0x0D⟩ [] := by
  have hevents : ∀ e ∈ [some ⟨0, 0x31⟩, none, some ⟨0, 0x08⟩, some ⟨0, 0x32⟩], Ordinary e := by
    simp only [List.forall_mem_cons]
    refine ⟨ordinary_some ?_ ?_, ordinary_none, ordinary_some ?_ ?_, ordinary_some ?_ ?_,
      fun e he => absurd he List.not_mem_nil⟩
    all_goals decide
  exact (readsExactly_iff 512 hevents (show IsEnter ⟨0, 0x0D⟩ from ⟨by decide, Or.inl rfl⟩) []).mpr
    (fits_of_few_keys (by decide))

/-- Five hundred and twelve digits: the last one is dropped. -/
theorem last_digit_dropped :
    ¬ReadsExactly 512 (List.replicate 512 (some ⟨0, 0x31⟩)) ⟨0, 0x0D⟩ [] := by
  rintro ⟨-, hnone⟩
  have hprint : Printable ⟨0, 0x31⟩ := by decide
  have hroom := fits_of_noneDropped hnone (List.replicate 511 (some ⟨0, 0x31⟩)) ⟨0, 0x31⟩ []
    (List.replicate_succ' ..) hprint
  rw [edited_replicate hprint, List.length_replicate] at hroom
  exact absurd hroom (by decide)

end BankFinder.LineEditor
