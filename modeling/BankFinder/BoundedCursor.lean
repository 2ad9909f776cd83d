import Mathlib

/-!
# A cursor in a bounded buffer

A read at the end of the buffer or behind it is an error. A loop which tests the bound
before each read makes none, and it goes through the buffer as the recursion over the
list of what is left does.
-/

namespace BankFinder.BoundedCursor

structure OutOfBounds where
  position : ℕ
  deriving DecidableEq, Repr

variable {A S : Type}

def deref (buf : List A) (p : ℕ) : Except OutOfBounds A :=
  match buf[p]? with
  | some c => .ok c
  | none => .error ⟨p⟩

/-- What a loop does with a byte: go on behind it, or stop in front of it. -/
inductive Turn (S : Type)
  | next (s : S)
  | leave (s : S)

/-- `while (p < end) { step on *p; p++; }` -/
def turns (buf : List A) (step : S → A → Turn S) : ℕ → ℕ → S → Except OutOfBounds (S × ℕ)
  | 0, p, s => .ok (s, p)
  | fuel + 1, p, s =>
      if p < buf.length then do
        let c ← deref buf p
        match step s c with
        | .next s => turns buf step fuel (p + 1) s
        | .leave s => .ok (s, p)
      else .ok (s, p)

/-- The fuel is the distance to the end: where it is used up, the bound is reached. -/
def scan (buf : List A) (step : S → A → Turn S) (p : ℕ) (s : S) : Except OutOfBounds (S × ℕ) :=
  turns buf step (buf.length - p) p s

/-- `while (p < end && f(*p)) p++;` -/
def seek (buf : List A) (f : A → Bool) (p : ℕ) : Except OutOfBounds ℕ := do
  let (_, p) ← scan buf (fun (_ : Unit) c => if f c then .next () else .leave ()) p ()
  return p

/-- The loop of `scan` over a list. -/
def scanList (step : S → A → Turn S) : S → List A → S × List A
  | s, [] => (s, [])
  | s, c :: l =>
      match step s c with
      | .next s => scanList step s l
      | .leave s => (s, c :: l)

structure At (buf : List A) (p : ℕ) (l : List A) : Prop where
  bound : p ≤ buf.length
  left : buf.drop p = l

namespace At
variable {buf l : List A} {p : ℕ} {c : A}

theorem start (buf : List A) : At buf 0 buf := ⟨Nat.zero_le _, rfl⟩

theorem length_eq (h : At buf p l) : l.length = buf.length - p := by
  rw [← h.left, List.length_drop]

theorem end_of_nil (h : At buf p []) : ¬p < buf.length := by
  have hlen := h.length_eq
  rw [List.length_nil] at hlen
  omega

theorem lt_of_cons (h : At buf p (c :: l)) : p < buf.length := by
  have hlen := h.length_eq
  rw [List.length_cons] at hlen
  omega

theorem next (h : At buf p (c :: l)) : At buf (p + 1) l := by
  refine ⟨h.lt_of_cons, ?_⟩
  rw [← List.drop_drop, h.left]
  rfl

theorem skip {l' : List A} (h : At buf p (l' ++ l)) : At buf (p + l'.length) l := by
  induction l' generalizing p with
  | nil => exact h
  | cons a l' ih =>
      rw [List.length_cons, Nat.add_comm l'.length, ← Nat.add_assoc]
      exact ih h.next

theorem deref (h : At buf p (c :: l)) : deref buf p = .ok c := by
  have hget : buf[p]? = some c := by
    rw [← List.head?_drop, h.left, List.head?_cons]
  unfold BoundedCursor.deref
  rw [hget]

end At

/-- The cursor program gives what the list program gives, and stands where that stops. -/
def Reaches {B : Type} (buf : List A) (x : Except OutOfBounds (B × ℕ)) (y : B × List A) : Prop :=
  ∃ q, At buf q y.2 ∧ x = .ok (y.1, q)

/-- The same for a program which may find nothing. -/
def ReachesSome {B : Type} (buf : List A) (x : Except OutOfBounds (Option (B × ℕ))) :
    Option (B × List A) → Prop
  | none => x = .ok none
  | some y => ∃ q, At buf q y.2 ∧ x = .ok (some (y.1, q))

@[simp] theorem ok_bind {B C : Type} (b : B) (f : B → Except OutOfBounds C) :
    ((.ok b : Except OutOfBounds B) >>= f) = f b := rfl

theorem exists_of_bind_ok {B C : Type} {x : Except OutOfBounds B} {f : B → Except OutOfBounds C}
    {c : C} (h : x >>= f = .ok c) : ∃ b, x = .ok b ∧ f b = .ok c := by
  cases x with
  | ok b => exact ⟨b, rfl, h⟩
  | error e => exact absurd h (by simp [bind, Except.bind])

@[simp] theorem pure_eq_ok {B : Type} (b : B) : (pure b : Except OutOfBounds B) = .ok b := rfl

theorem deref_getD {buf : List A} {p : ℕ} (h : p < buf.length) (a : A) :
    deref buf p = .ok (buf.getD p a) := by
  unfold deref
  rw [List.getElem?_eq_getElem h, List.getD_eq_getElem _ _ h]

theorem turns_reaches {buf : List A} (step : S → A → Turn S) {p : ℕ} {l : List A}
    (h : At buf p l) {fuel : ℕ} (hfuel : l.length ≤ fuel) (s : S) :
    Reaches buf (turns buf step fuel p s) (scanList step s l) := by
  induction l generalizing p fuel s with
  | nil =>
      refine ⟨p, h, ?_⟩
      cases fuel with
      | zero => rfl
      | succ fuel => exact if_neg h.end_of_nil
  | cons c l ih =>
      cases fuel with
      | zero => exact absurd hfuel (Nat.not_succ_le_zero _)
      | succ fuel =>
          have hturn : turns buf step (fuel + 1) p s = match step s c with
              | .next s => turns buf step fuel (p + 1) s
              | .leave s => .ok (s, p) := by
            refine (if_pos h.lt_of_cons).trans ?_
            rw [h.deref]
            rfl
          rw [hturn]
          unfold scanList
          cases step s c with
          | next s => exact ih h.next (Nat.le_of_succ_le_succ hfuel) s
          | leave s => exact ⟨p, h, rfl⟩

/-- No read of the loop is out of bounds. -/
theorem scan_reaches {buf : List A} (step : S → A → Turn S) {p : ℕ} {l : List A}
    (h : At buf p l) (s : S) : Reaches buf (scan buf step p s) (scanList step s l) :=
  turns_reaches step h h.length_eq.le s

theorem scanList_dropWhile (f : A → Bool) (l : List A) :
    scanList (fun (_ : Unit) c => if f c then .next () else .leave ()) () l =
      ((), l.dropWhile f) := by
  induction l with
  | nil => rfl
  | cons c l ih =>
      unfold scanList
      rw [List.dropWhile_cons]
      cases f c with
      | false => rfl
      | true => exact ih

/-- A loop which only looks for the first byte of another kind finds it. -/
theorem seek_reaches {buf l : List A} {p : ℕ} (h : At buf p l) (f : A → Bool) :
    ∃ q, At buf q (l.dropWhile f) ∧ seek buf f p = .ok q := by
  obtain ⟨q, hq, hscan⟩ :=
    scan_reaches (fun (_ : Unit) c => if f c then Turn.next () else .leave ()) h ()
  rw [scanList_dropWhile] at hq
  exact ⟨q, hq, by unfold seek; rw [hscan]; rfl⟩

end BankFinder.BoundedCursor
