import Mathlib

/-!
# Painting on a linear canvas

A canvas is a memory of pixels which is addressed linearly, with a stride from one line to
the next. What a loop paints is a partial picture laid over the canvas: a segment grows at its
end, and a block grows by a line as long as a line fits into the stride.
-/

namespace BankFinder.Painting

variable {S V : Type*}

/-- A counting loop. -/
def upTo (n : ℕ) (body : ℕ → S → S) (s : S) : S := (List.range n).foldl (fun s k => body k s) s

theorem upTo_succ (n : ℕ) (body : ℕ → S → S) (s : S) :
    upTo (n + 1) body s = body n (upTo n body s) := by
  simp [upTo, List.range_succ]

/-- The rule for counting loops: `I k` holds before turn `k`. -/
theorem upTo_invariant {I : ℕ → S → Prop} {n : ℕ} {body : ℕ → S → S} {s : S} (hstart : I 0 s)
    (hturn : ∀ k < n, ∀ s, I k s → I (k + 1) (body k s)) : I n (upTo n body s) := by
  induction n with
  | zero => exact hstart
  | succ n ih =>
      rw [upTo_succ]
      exact hturn n (Nat.lt_succ_self n) _ (ih fun k hk => hturn k (Nat.lt_succ_of_lt hk))

abbrev Canvas (V : Type*) := ℕ → V

/-- Pixels of the picture cover those of the canvas. -/
def lay (picture : ℕ → Option V) (canvas : Canvas V) : Canvas V := fun i =>
  (picture i).getD (canvas i)

theorem lay_apply (picture : ℕ → Option V) (canvas : Canvas V) (i : ℕ) :
    lay picture canvas i = (picture i).getD (canvas i) := rfl

def segment (start length : ℕ) (f : ℕ → V) : ℕ → Option V := fun i =>
  if start ≤ i ∧ i < start + length then some (f (i - start)) else none

theorem lay_segment_zero (start : ℕ) (f : ℕ → V) (canvas : Canvas V) :
    lay (segment start 0 f) canvas = canvas := by
  funext i
  rw [lay_apply, segment, if_neg (by omega)]
  rfl

/-- A segment grows at its end. -/
theorem lay_segment_append {start length more : ℕ} {f g : ℕ → V} (canvas : Canvas V)
    (h : ∀ k < more, g k = f (length + k)) :
    lay (segment (start + length) more g) (lay (segment start length f) canvas) =
      lay (segment start (length + more) f) canvas := by
  funext i
  simp only [lay_apply, segment]
  by_cases hlast : start + length ≤ i ∧ i < start + length + more
  · have hk := h (i - (start + length)) (by omega)
    have hwhole : start ≤ i ∧ i < start + (length + more) := by omega
    have hoffset : length + (i - (start + length)) = i - start := by omega
    rw [if_pos hlast, if_pos hwhole, hk, hoffset]
    rfl
  · rw [if_neg hlast]
    by_cases hfirst : start ≤ i ∧ i < start + length
    · have hwhole : start ≤ i ∧ i < start + (length + more) := by omega
      rw [if_pos hfirst, if_pos hwhole]
      rfl
    · have hwhole : ¬(start ≤ i ∧ i < start + (length + more)) := by omega
      rw [if_neg hfirst, if_neg hwhole]
      rfl

theorem update_eq_lay (canvas : Canvas V) (p : ℕ) (v : V) :
    Function.update canvas p v = lay (segment p 1 fun _ => v) canvas := by
  funext i
  rw [lay_apply, segment]
  by_cases hi : i = p
  · subst hi
    rw [Function.update_self, if_pos (by omega)]
    rfl
  · rw [Function.update_of_ne hi, if_neg (by omega)]
    rfl

/-- Line `y` of the block starts `y` strides behind its origin. -/
def block (origin stride height width : ℕ) (f : ℕ → ℕ → V) : ℕ → Option V := fun i =>
  if origin ≤ i ∧ (i - origin) / stride < height ∧ (i - origin) % stride < width then
    some (f ((i - origin) / stride) ((i - origin) % stride))
  else none

section
variable {origin stride height width : ℕ} {f : ℕ → ℕ → V}

theorem lay_block_zero (canvas : Canvas V) :
    lay (block origin stride 0 width f) canvas = canvas := by
  funext i
  rw [lay_apply, block, if_neg fun h => Nat.not_lt_zero _ h.2.1]
  rfl

/-- Where a pixel of the plane lies on the canvas. -/
theorem place_iff (hwidth : width ≤ stride) {y i : ℕ} :
    origin + y * stride ≤ i ∧ i < origin + y * stride + width ↔
      origin ≤ i ∧ (i - origin) / stride = y ∧ (i - origin) % stride < width := by
  constructor
  · rintro ⟨hlo, hhi⟩
    have hpos : 0 < stride := by omega
    have hsplit : i - origin = (i - origin - y * stride) + y * stride := by omega
    have hsmall : i - origin - y * stride < stride := by omega
    refine ⟨by omega, ?_, ?_⟩
    · rw [hsplit, Nat.add_mul_div_right _ _ hpos, Nat.div_eq_of_lt hsmall, Nat.zero_add]
    · rw [hsplit, Nat.add_mul_mod_self_right, Nat.mod_eq_of_lt hsmall]
      omega
  · rintro ⟨hlo, rfl, hmod⟩
    have hdiv := Nat.div_add_mod' (i - origin) stride
    omega

/-- A block grows by a line. -/
theorem lay_block_line {g : ℕ → V} (hwidth : width ≤ stride) (hline : ∀ x < width, g x = f height x)
    (canvas : Canvas V) :
    lay (segment (origin + height * stride) width g)
        (lay (block origin stride height width f) canvas) =
      lay (block origin stride (height + 1) width f) canvas := by
  funext i
  simp only [lay_apply, segment, block]
  by_cases hlast : origin + height * stride ≤ i ∧ i < origin + height * stride + width
  · obtain ⟨hlo, hy, hx⟩ := (place_iff hwidth).mp hlast
    have hoffset : i - (origin + height * stride) = (i - origin) % stride := by
      have hdiv := Nat.div_add_mod' (i - origin) stride
      rw [hy] at hdiv
      omega
    have hwhole : origin ≤ i ∧ height < height + 1 ∧ (i - origin) % stride < width :=
      ⟨hlo, Nat.lt_succ_self _, hx⟩
    rw [hy, if_pos hlast, if_pos hwhole, hoffset, hline _ hx]
    rfl
  · rw [if_neg hlast]
    rw [place_iff hwidth] at hlast
    by_cases hbefore : origin ≤ i ∧ (i - origin) / stride < height ∧ (i - origin) % stride < width
    · rw [if_pos hbefore, if_pos ⟨hbefore.1, Nat.lt_succ_of_lt hbefore.2.1, hbefore.2.2⟩]
      rfl
    · rw [if_neg hbefore, if_neg]
      · rfl
      · rintro ⟨hlo, hy, hx⟩
        rcases Nat.lt_succ_iff_lt_or_eq.mp hy with hlt | heq
        · exact hbefore ⟨hlo, hlt, hx⟩
        · exact hlast ⟨hlo, heq, hx⟩

/-- Two places of a plane are in order as their lines are. -/
theorem line_eq_of_place {y y' x z : ℕ} (hx : x < stride) (hlo : y' * stride ≤ y * stride + x)
    (hhi : y * stride + x < y' * stride + z) (hz : z ≤ stride) : y = y' := by
  have hle : y' < y + 1 := by
    apply Nat.lt_of_mul_lt_mul_right (a := stride)
    rw [Nat.succ_mul]
    omega
  have hge : y < y' + 1 := by
    apply Nat.lt_of_mul_lt_mul_right (a := stride)
    rw [Nat.succ_mul]
    omega
  omega

/-- A block which lies at a pixel of a plane with the same stride. -/
theorem block_at {base row col y x : ℕ} (hcol : col + width ≤ stride) (hx : x < stride) :
    block (base + row * stride + col) stride height width f (base + y * stride + x) =
      if row ≤ y ∧ y < row + height ∧ col ≤ x ∧ x < col + width then some (f (y - row) (x - col))
      else none := by
  have hwidth : width ≤ stride := by omega
  rw [block]
  by_cases hin : row ≤ y ∧ y < row + height ∧ col ≤ x ∧ x < col + width
  · obtain ⟨hrow, hheight, hleft, hright⟩ := hin
    have hy : row * stride + (y - row) * stride = y * stride := by
      rw [← Nat.add_mul, Nat.add_sub_cancel' hrow]
    have hplace : base + row * stride + col + (y - row) * stride ≤ base + y * stride + x ∧
        base + y * stride + x < base + row * stride + col + (y - row) * stride + width :=
      ⟨by omega, by omega⟩
    obtain ⟨hlo, hdiv, hmod⟩ := (place_iff hwidth).mp hplace
    have hsplit := Nat.div_add_mod' (base + y * stride + x - (base + row * stride + col)) stride
    rw [hdiv] at hsplit
    have hoffset : (base + y * stride + x - (base + row * stride + col)) % stride = x - col := by
      omega
    rw [if_pos ⟨hlo, by omega, hmod⟩, if_pos ⟨hrow, hheight, hleft, hright⟩, hdiv, hoffset]
  · rw [if_neg hin, if_neg]
    rintro ⟨hlo, hq, hmod⟩
    obtain ⟨hstart, hend⟩ := (place_iff hwidth).mpr ⟨hlo, rfl, hmod⟩
    generalize (base + y * stride + x - (base + row * stride + col)) / stride = q at *
    have hrow : (row + q) * stride = row * stride + q * stride := Nat.add_mul ..
    have hy : y = row + q := by
      apply line_eq_of_place hx _ _ hcol
      · omega
      · omega
    subst hy
    exact hin ⟨by omega, by omega, by omega, by omega⟩

end

end BankFinder.Painting
