import BankFinder.BoundedCursor

/-!
# Arrays which are filled from the front

A store behind the end of an array is an error. A program which writes one element behind the
other, as long as there is room, makes none, and the array begins with what it wrote.
-/

namespace BankFinder.FixedBuffer
open BoundedCursor

variable {A : Type}

/-- `buf[i] = a;` -/
def put (buf : List A) (i : ℕ) (a : A) : Except OutOfBounds (List A) :=
  if i < buf.length then .ok (buf.set i a) else .error ⟨i⟩

/-- `buf[pos++] = a;` for one element after the other -/
def putAll : List A → ℕ → List A → Except OutOfBounds (List A)
  | buf, _, [] => .ok buf
  | buf, pos, a :: as => do
      let buf ← put buf pos a
      putAll buf (pos + 1) as

/-- `for (k = 0; src[k] && pos + 1 < cap; k++) buf[pos++] = src[k];`, with the new `pos`. The
source ends where `stop` holds, or with the list. -/
def putWhile (stop : A → Bool) (cap : ℕ) : List A → ℕ → List A → Except OutOfBounds (ℕ × List A)
  | buf, pos, [] => .ok (pos, buf)
  | buf, pos, a :: src =>
      if !stop a && decide (pos + 1 < cap) then do
        let buf ← put buf pos a
        putWhile stop cap buf (pos + 1) src
      else .ok (pos, buf)

/-- What such a loop takes from its source when `room` cells are left. -/
def kept (stop : A → Bool) (room : ℕ) (src : List A) : List A :=
  (src.takeWhile fun a => !stop a).take room

/-- An array of `n` cells which begins with `t`. -/
structure Begins (n : ℕ) (t buf : List A) : Prop where
  size : buf.length = n
  text : t <+: buf

section
variable {n : ℕ} {t buf : List A}

theorem Begins.length_le (h : Begins n t buf) : t.length ≤ n := h.size ▸ h.text.length_le

theorem Begins.shorten {more : List A} (h : Begins n (t ++ more) buf) : Begins n t buf :=
  ⟨h.size, (List.prefix_append t more).trans h.text⟩

theorem begins_nil (h : buf.length = n) : Begins n [] buf := ⟨h, List.nil_prefix⟩

theorem mem_of_put {buf' : List A} {i : ℕ} {a b : A} (h : FixedBuffer.put buf i a = .ok buf')
    (hb : b ∈ buf') : b ∈ buf ∨ b = a := by
  unfold FixedBuffer.put at h
  split_ifs at h
  obtain rfl := Except.ok.inj h
  exact List.mem_or_eq_of_mem_set hb

/-- A store behind the text makes it longer; what stood there is gone. -/
theorem Begins.put (h : Begins n t buf) (hroom : t.length < n) (a : A) :
    ∃ buf', put buf t.length a = .ok buf' ∧ Begins n (t ++ [a]) buf' := by
  refine ⟨buf.set t.length a, if_pos (h.size ▸ hroom), ?_, ?_⟩
  · rw [List.length_set, h.size]
  · obtain ⟨rest, hrest⟩ := h.text
    rw [← hrest, List.set_append_right _ _ le_rfl, Nat.sub_self]
    cases rest with
    | nil =>
        rw [List.append_nil] at hrest
        rw [hrest, h.size] at hroom
        exact absurd hroom (Nat.lt_irrefl n)
    | cons b rest => exact ⟨rest, by rw [List.set_cons_zero, List.append_assoc]; rfl⟩

theorem Begins.putAll (h : Begins n t buf) {as : List A} (hroom : t.length + as.length ≤ n) :
    ∃ buf', putAll buf t.length as = .ok buf' ∧ Begins n (t ++ as) buf' := by
  induction as generalizing t buf with
  | nil => exact ⟨buf, rfl, by rwa [List.append_nil]⟩
  | cons a as ih =>
      rw [List.length_cons] at hroom
      obtain ⟨buf₁, hput, hbegins⟩ := h.put (by omega) a
      have hlen : (t ++ [a]).length = t.length + 1 := List.length_append
      obtain ⟨buf₂, hputAll, hbegins'⟩ := ih hbegins (by omega)
      refine ⟨buf₂, ?_, by rwa [List.append_assoc] at hbegins'⟩
      rw [FixedBuffer.putAll, hput, ok_bind, ← hlen, hputAll]

/-- The guarded loop stays in the array, and leaves a cell for the terminator. -/
theorem Begins.putWhile (h : Begins n t buf) {cap : ℕ} (hcap : cap ≤ n) (hlt : t.length < cap)
    (stop : A → Bool) (src : List A) :
    ∃ buf', putWhile stop cap buf t.length src =
        .ok ((t ++ kept stop (cap - 1 - t.length) src).length, buf') ∧
      Begins n (t ++ kept stop (cap - 1 - t.length) src) buf' := by
  induction src generalizing t buf with
  | nil => exact ⟨buf, by simp [FixedBuffer.putWhile, kept], by simpa [kept] using h⟩
  | cons a src ih =>
      by_cases hgo : stop a = false ∧ t.length + 1 < cap
      · obtain ⟨buf₁, hput, hbegins⟩ := h.put (by omega) a
        have hlen : (t ++ [a]).length = t.length + 1 := List.length_append
        obtain ⟨buf₂, hloop, hbegins'⟩ := ih hbegins (by omega)
        have hkept : t ++ kept stop (cap - 1 - t.length) (a :: src) =
            (t ++ [a]) ++ kept stop (cap - 1 - (t ++ [a]).length) src := by
          have hroom : cap - 1 - t.length = (cap - 1 - (t ++ [a]).length) + 1 := by omega
          unfold kept
          rw [hroom, List.takeWhile_cons_of_pos (by simp [hgo.1]), List.take_succ_cons,
            List.append_assoc]
          rfl
        rw [hkept]
        refine ⟨buf₂, ?_, hbegins'⟩
        rw [FixedBuffer.putWhile, if_pos (by simp [hgo]), hput, ok_bind, ← hlen, hloop]
      · have hnothing : kept stop (cap - 1 - t.length) (a :: src) = [] := by
          unfold kept
          rcases not_and_or.mp hgo with hstop | hfull
          · rw [List.takeWhile_cons_of_neg (by simpa using hstop), List.take_nil]
          · rw [show cap - 1 - t.length = 0 by omega, List.take_zero]
        rw [hnothing, List.append_nil]
        refine ⟨buf, ?_, h⟩
        rw [FixedBuffer.putWhile, if_neg]
        simpa using hgo

/-- The text of a terminated array. -/
theorem Begins.takeWhile {stop : A → Bool} {a : A} (h : Begins n (t ++ [a]) buf)
    (ht : ∀ c ∈ t, stop c = false) (ha : stop a = true) :
    (buf.takeWhile fun c => !stop c) = t := by
  obtain ⟨rest, hrest⟩ := h.text
  rw [← hrest, List.append_assoc, List.takeWhile_append_of_pos (by simpa using ht),
    List.singleton_append, List.takeWhile_cons_of_neg (by simp [ha]), List.append_nil]

end

end BankFinder.FixedBuffer
