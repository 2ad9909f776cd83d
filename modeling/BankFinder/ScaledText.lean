import BankFinder.Painting

/-!
# Scaled text

On a large panel `lfb32_put_char` draws every pixel of a font as a square. Its four loops write
one pixel after another behind a running pointer; what they leave is the magnified character in
its cell and everything else as it was, so that after any sequence of characters the panel shows
the last one in every cell.
-/

namespace BankFinder.ScaledText
open Painting

def fontWidth : ℕ := 8
def fontHeight : ℕ := 16
def screenWidth : ℕ := 80
def screenHeight : ℕ := 25

/-- The framebuffer in pixels. The stride is not less than the width. -/
structure Panel where
  width : ℕ
  height : ℕ
  stride : ℕ
  bytesPerPixel : ℕ
  rotated : Bool
  width_le_stride : width ≤ stride

/-- `s`, from how often the text goes into the panel. -/
def scaleFor (sx sy : ℕ) : ℕ :=
  let s := if sx < sy then sx else sy
  let s := if s > 4 then 4 else s
  if s < 1 then 1 else s

/-- `lfb_scale` after `screen_init`. A scale of 1 is chosen anew, whether it was asked for or
not, but neither on a rotated panel nor with another depth. -/
def Panel.scale (p : Panel) (asked : ℕ) : ℕ :=
  if p.rotated = false ∧ asked = 1 ∧ p.bytesPerPixel = 4 then
    scaleFor (p.width / (screenWidth * fontWidth)) (p.height / (screenHeight * fontHeight))
  else asked

/-- How far `lfb_base` is moved to centre the text on a panel which is not rotated, in pixels. -/
def Panel.origin (p : Panel) (scale : ℕ) : ℕ :=
  (p.width - screenWidth * fontWidth * scale) / 2 +
    (p.height - screenHeight * fontHeight * scale) / 2 * p.stride

/-- How the loop over the characters of `scale=` ends. -/
inductive ScaleValue where
  | value (v : ℕ)
  | noDigit
  | overflow
  deriving DecidableEq, Repr

/-- `v`, an `int`: for a greater number the language leaves open what comes. -/
def scaleValue : List UInt8 → ℕ → ScaleValue
  | [], v => .value v
  | c :: digits, v =>
      if c < 0x30 ∨ c > 0x39 then .noDigit
      else
        let v := v * 10 + (c.toNat - 0x30)
        if v < 2 ^ 31 then scaleValue digits v else .overflow

/-- `lfb_scale` after an option `scale=` with these characters; `none` stands for an overflow. -/
def parseOption (lfbScale : ℕ) (digits : List UInt8) : Option ℕ :=
  match scaleValue digits 0 with
  | .value v => some (if 1 ≤ v ∧ v ≤ 4 then v else lfbScale)
  | .noDigit => some lfbScale
  | .overflow => none

/-- `lfb_scale` after all of them. -/
def parseCmdLine (options : List (List UInt8)) : Option ℕ := options.foldlM parseOption 1

theorem parseOption_bounds {lfbScale scale : ℕ} {digits : List UInt8}
    (h : parseOption lfbScale digits = some scale) (hbounds : 1 ≤ lfbScale ∧ lfbScale ≤ 4) :
    1 ≤ scale ∧ scale ≤ 4 := by
  unfold parseOption at h
  split at h
  · have hscale := Option.some.inj h
    split_ifs at hscale with hin
    · exact hscale ▸ hin
    · exact hscale ▸ hbounds
  · exact Option.some.inj h ▸ hbounds
  · cases h

theorem foldlM_parseOption_bounds {options : List (List UInt8)} {lfbScale scale : ℕ}
    (h : options.foldlM parseOption lfbScale = some scale)
    (hbounds : 1 ≤ lfbScale ∧ lfbScale ≤ 4) : 1 ≤ scale ∧ scale ≤ 4 := by
  induction options generalizing lfbScale with
  | nil => exact Option.some.inj h ▸ hbounds
  | cons digits options ih =>
      rw [List.foldlM_cons, Option.bind_eq_bind, Option.bind_eq_some_iff] at h
      obtain ⟨next, hnext, hrest⟩ := h
      exact ih hrest (parseOption_bounds hnext hbounds)

/-- Whatever the command line says, the scale is one of the four. -/
theorem parseCmdLine_bounds {options : List (List UInt8)} {scale : ℕ}
    (h : parseCmdLine options = some scale) : 1 ≤ scale ∧ scale ≤ 4 :=
  foldlM_parseOption_bounds h ⟨le_refl 1, by decide⟩

/-- The text has room on the panel. -/
def Panel.Fits (p : Panel) (scale : ℕ) : Prop :=
  screenWidth * fontWidth * scale ≤ p.width ∧ screenHeight * fontHeight * scale ≤ p.height

instance (p : Panel) (scale : ℕ) : Decidable (p.Fits scale) := inferInstanceAs (Decidable (_ ∧ _))

theorem scaleFor_eq {sx sy : ℕ} (hx : 1 ≤ sx) (hy : 1 ≤ sy) :
    scaleFor sx sy = min (min sx sy) 4 := by
  unfold scaleFor
  grind

/-- The scaled branch is for these panels only. -/
structure Panel.Direct (p : Panel) : Prop where
  unrotated : p.rotated = false
  depth : p.bytesPerPixel = 4

/-- A scale of 1 becomes the largest one, up to 4, for which there is room. -/
theorem scale_largest {p : Panel} (hdirect : p.Direct) (h : p.Fits 1) :
    p.Fits (p.scale 1) ∧ 1 ≤ p.scale 1 ∧ p.scale 1 ≤ 4 ∧
      ∀ s ≤ 4, p.Fits s → s ≤ p.scale 1 := by
  have hfits (s : ℕ) : p.Fits s ↔ s ≤ p.width / 640 ∧ s ≤ p.height / 400 := by
    rw [Nat.le_div_iff_mul_le (by decide), Nat.le_div_iff_mul_le (by decide), Panel.Fits,
      Nat.mul_comm s, Nat.mul_comm s]
    rfl
  have hone := (hfits 1).mp h
  have hscale : p.scale 1 = min (min (p.width / 640) (p.height / 400)) 4 := by
    rw [Panel.scale, if_pos ⟨hdirect.unrotated, rfl, hdirect.depth⟩]
    exact scaleFor_eq hone.1 hone.2
  rw [hscale, hfits]
  refine ⟨by omega, by omega, by omega, fun s hs hroom => ?_⟩
  have hroom := (hfits s).mp hroom
  omega

abbrev Pixels := Canvas UInt32

/-- The parts of the screen driver which the character routine uses: `fg_colour` and
`bg_colour` of an attribute, and where the text starts. The branches which were there before
the patch are parameters. -/
structure Display where
  fontData : UInt8 → ℕ → UInt8
  colours : UInt8 → UInt32 × UInt32
  base : ℕ
  stride : ℕ
  scale : ℕ
  rotated : Bool
  putRotated : ℕ → ℕ → UInt8 → UInt8 → Pixels → Pixels
  putUnscaled : ℕ → ℕ → UInt8 → UInt8 → Pixels → Pixels

/-- `*p++ = c` -/
def putPixel (c : UInt32) (st : ℕ × Pixels) : ℕ × Pixels :=
  (st.1 + 1, Function.update st.2 st.1 c)

/-- One font pixel: the square's line, and the next bit. -/
def putBit (s : ℕ) (fg bg : UInt32) (st : UInt8 × ℕ × Pixels) : UInt8 × ℕ × Pixels :=
  let c := if st.1 &&& 0x80 ≠ 0 then fg else bg
  (st.1 <<< 1, upTo s (fun _ => putPixel c) st.2)

def putFontRow (s : ℕ) (fg bg : UInt32) (fontRow : UInt8) (p : ℕ) (fb : Pixels) : Pixels :=
  (upTo fontWidth (fun _ => putBit s fg bg) (fontRow, p, fb)).2.2

/-- The branch of the patch. -/
def putScaled (d : Display) (row col : ℕ) (ch attr : UInt8) (fb : Pixels) : Pixels :=
  let s := d.scale
  let (fg, bg) := d.colours attr
  let pixelRow := d.base + (row * fontHeight * s) * d.stride + (col * fontWidth * s)
  (upTo fontHeight (fun y (st : ℕ × Pixels) =>
    let fontRow := d.fontData ch y
    let fb := upTo s (fun sy fb => putFontRow s fg bg fontRow (st.1 + sy * d.stride) fb) st.2
    (st.1 + s * d.stride, fb)) (pixelRow, fb)).2

def lfb32PutChar (d : Display) (row col : ℕ) (ch attr : UInt8) (fb : Pixels) : Pixels :=
  if d.rotated then d.putRotated row col ch attr fb
  else if d.scale ≤ 1 then d.putUnscaled row col ch attr fb
  else putScaled d row col ch attr fb

/-- The colour of a font pixel: the highest bit is on the left. -/
def bitColour (fg bg : UInt32) (fontRow : UInt8) (x : ℕ) : UInt32 :=
  if fontRow.toNat.testBit (7 - x) then fg else bg

/-- The magnified character. -/
def glyph (d : Display) (ch attr : UInt8) (y x : ℕ) : UInt32 :=
  bitColour (d.colours attr).1 (d.colours attr).2 (d.fontData ch (y / d.scale)) (x / d.scale)

theorem putPixels_eq (s : ℕ) (c : UInt32) (p : ℕ) (fb : Pixels) :
    upTo s (fun _ => putPixel c) (p, fb) = (p + s, lay (segment p s fun _ => c) fb) := by
  refine upTo_invariant (I := fun k st => st = (p + k, lay (segment p k fun _ => c) fb)) ?_ ?_
  · rw [lay_segment_zero]
    rfl
  · intro k _ st hst
    rw [hst, putPixel, update_eq_lay, lay_segment_append]
    · rfl
    · intros
      rfl

/-- The bits of the row after some turns. -/
def shifted (fontRow : UInt8) (turns : ℕ) : UInt8 := UInt8.ofNat (fontRow.toNat <<< turns)

theorem shifted_next (fontRow : UInt8) (turns : ℕ) :
    shifted fontRow turns <<< 1 = shifted fontRow (turns + 1) := by
  rw [← UInt8.toNat_inj, UInt8.toNat_shiftLeft]
  simp only [shifted, UInt8.toNat_ofNat', Nat.shiftLeft_eq]
  have hone : (1 : UInt8).toNat % 8 = 1 := rfl
  rw [hone, Nat.pow_succ 2 turns, ← Nat.mul_assoc]
  omega

/-- The bit which is looked at in a turn. -/
theorem highBit_iff (fontRow : UInt8) {turns : ℕ} (h : turns < 8) :
    shifted fontRow turns &&& 0x80 ≠ 0 ↔ fontRow.toNat.testBit (7 - turns) = true := by
  have hall : ∀ n < 256, ∀ k < 8, (UInt8.ofNat (n <<< k) &&& 0x80 ≠ 0 ↔
      n.testBit (7 - k) = true) := by decide +kernel
  exact hall fontRow.toNat fontRow.toNat_lt turns h

/-- A line of the magnified font row. -/
theorem putFontRow_eq {s : ℕ} (hs : 0 < s) (fg bg : UInt32) (fontRow : UInt8) (p : ℕ)
    (fb : Pixels) : putFontRow s fg bg fontRow p fb =
      lay (segment p (fontWidth * s) fun x => bitColour fg bg fontRow (x / s)) fb := by
  let line (x : ℕ) : UInt32 := bitColour fg bg fontRow (x / s)
  have hrun : upTo fontWidth (fun _ => putBit s fg bg) (fontRow, p, fb) =
      (shifted fontRow fontWidth, p + fontWidth * s,
        lay (segment p (fontWidth * s) line) fb) := by
    refine upTo_invariant (I := fun k st => st = (shifted fontRow k, p + k * s,
      lay (segment p (k * s) line) fb)) ?_ ?_
    · simp [lay_segment_zero, shifted]
    · intro k hk st hst
      have hline : ∀ x < s, (if shifted fontRow k &&& 0x80 ≠ 0 then fg else bg) =
          line (k * s + x) := by
        intro x hx
        have hdiv : (k * s + x) / s = k := by
          rw [Nat.add_comm, Nat.add_mul_div_right _ _ hs, Nat.div_eq_of_lt hx, Nat.zero_add]
        simp only [line, bitColour, hdiv, highBit_iff fontRow hk]
      rw [hst, putBit, putPixels_eq, lay_segment_append fb hline, shifted_next, Nat.succ_mul,
        Nat.add_assoc]
  rw [putFontRow, hrun]

/-- The four loops leave the magnified character, line under line, and nothing else. -/
theorem putScaled_eq {d : Display} (hs : 0 < d.scale) (hwidth : fontWidth * d.scale ≤ d.stride)
    (row col : ℕ) (ch attr : UInt8) (fb : Pixels) : putScaled d row col ch attr fb =
      lay (block (d.base + row * fontHeight * d.scale * d.stride + col * fontWidth * d.scale)
        d.stride (fontHeight * d.scale) (fontWidth * d.scale) (glyph d ch attr)) fb := by
  let start := d.base + row * fontHeight * d.scale * d.stride + col * fontWidth * d.scale
  let shown (n : ℕ) := lay (block start d.stride n (fontWidth * d.scale) (glyph d ch attr)) fb
  -- one font row adds as many lines as the scale says
  have hrow (y : ℕ) : upTo d.scale (fun sy fb => putFontRow d.scale (d.colours attr).1
      (d.colours attr).2 (d.fontData ch y) (start + y * d.scale * d.stride + sy * d.stride) fb)
        (shown (y * d.scale)) = shown (y * d.scale + d.scale) := by
    refine upTo_invariant (I := fun k fb => fb = shown (y * d.scale + k)) rfl ?_
    intro k hk fb' hfb
    have hplace : start + y * d.scale * d.stride + k * d.stride =
        start + (y * d.scale + k) * d.stride := by rw [Nat.add_mul, Nat.add_assoc]
    have hy : (y * d.scale + k) / d.scale = y := by
      rw [Nat.add_comm, Nat.add_mul_div_right _ _ hs, Nat.div_eq_of_lt hk, Nat.zero_add]
    rw [hfb, putFontRow_eq hs, hplace]
    refine lay_block_line hwidth (fun x _ => ?_) fb
    rw [glyph, hy]
  have hall : upTo fontHeight (fun y (st : ℕ × Pixels) =>
      (st.1 + d.scale * d.stride, upTo d.scale (fun sy fb => putFontRow d.scale (d.colours attr).1
        (d.colours attr).2 (d.fontData ch y) (st.1 + sy * d.stride) fb) st.2)) (start, fb) =
        (start + fontHeight * d.scale * d.stride, shown (fontHeight * d.scale)) := by
    refine upTo_invariant (I := fun y st =>
      st = (start + y * d.scale * d.stride, shown (y * d.scale))) ?_ ?_
    · simp [shown, lay_block_zero]
    · intro y _ st hst
      rw [hst, hrow, Nat.succ_mul, Nat.add_mul, Nat.add_assoc]
  unfold putScaled
  simp only
  exact congrArg Prod.snd hall

/-- A character which is drawn. -/
structure Drawn where
  row : ℕ
  col : ℕ
  ch : UInt8
  attr : UInt8
  deriving DecidableEq, Repr

def draw (d : Display) (fb : Pixels) (c : Drawn) : Pixels :=
  lfb32PutChar d c.row c.col c.ch c.attr fb

/-- The cell with the pixel of line `y` and column `x`. -/
def Drawn.covers (c : Drawn) (scale y x : ℕ) : Bool :=
  c.row == y / (fontHeight * scale) && c.col == x / (fontWidth * scale)

/-- The last character in the cell of this pixel. -/
def lastDrawn (scale : ℕ) (cs : List Drawn) (y x : ℕ) : Option Drawn :=
  cs.reverse.find? fun c => c.covers scale y x

/-- What the panel is to show: the last character of the cell, or what was there. -/
def shownAt (d : Display) (fb : Pixels) (cs : List Drawn) (y x : ℕ) : UInt32 :=
  match lastDrawn d.scale cs y x with
  | some c => glyph d c.ch c.attr (y % (fontHeight * d.scale)) (x % (fontWidth * d.scale))
  | none => fb (d.base + y * d.stride + x)

theorem cell_iff {k n y : ℕ} (hn : 0 < n) : (k * n ≤ y ∧ y < k * n + n) ↔ k = y / n := by
  constructor
  · rintro ⟨hlo, hhi⟩
    rw [← Nat.succ_mul] at hhi
    exact (Nat.div_eq_of_lt_le hlo hhi).symm
  · rintro rfl
    have hdiv := Nat.div_add_mod' y n
    have hmod := Nat.mod_lt y hn
    omega

section
variable {d : Display} (hrotated : d.rotated = false) (hs : 1 < d.scale)
  (hwidth : screenWidth * fontWidth * d.scale ≤ d.stride)

theorem draw_eq (hrotated : d.rotated = false) (hs : 1 < d.scale) (fb : Pixels) (c : Drawn) :
    draw d fb c = putScaled d c.row c.col c.ch c.attr fb := by
  rw [draw, lfb32PutChar, hrotated, if_neg Bool.false_ne_true, if_neg (Nat.not_le.mpr hs)]

include hrotated hs hwidth

theorem draw_at {c : Drawn} (hcol : c.col < screenWidth) (fb : Pixels) {y x : ℕ}
    (hx : x < screenWidth * fontWidth * d.scale) :
    draw d fb c (d.base + y * d.stride + x) = if c.covers d.scale y x then
      glyph d c.ch c.attr (y % (fontHeight * d.scale)) (x % (fontWidth * d.scale))
      else fb (d.base + y * d.stride + x) := by
  have hpos : 0 < d.scale := Nat.zero_lt_of_lt hs
  have hcells : (c.col + 1) * (fontWidth * d.scale) ≤ screenWidth * (fontWidth * d.scale) :=
    Nat.mul_le_mul_right _ hcol
  rw [Nat.succ_mul, ← Nat.mul_assoc, ← Nat.mul_assoc] at hcells
  have hfont : fontWidth * d.scale ≤ d.stride := by omega
  have hright : c.col * fontWidth * d.scale + fontWidth * d.scale ≤ d.stride := by omega
  have hcovers : c.covers d.scale y x = true ↔ c.row * fontHeight * d.scale ≤ y ∧
      y < c.row * fontHeight * d.scale + fontHeight * d.scale ∧
      c.col * fontWidth * d.scale ≤ x ∧
      x < c.col * fontWidth * d.scale + fontWidth * d.scale := by
    rw [Drawn.covers, Bool.and_eq_true, beq_iff_eq, beq_iff_eq, ← and_assoc, Nat.mul_assoc,
      Nat.mul_assoc, cell_iff (Nat.mul_pos (by decide) hpos),
      cell_iff (Nat.mul_pos (by decide) hpos)]
  rw [draw_eq hrotated hs, putScaled_eq hpos hfont, lay_apply, block_at hright (hx.trans_le hwidth)]
  by_cases hin : c.covers d.scale y x = true
  · have hplace := hcovers.mp hin
    rw [if_pos hplace, if_pos hin, Option.getD_some]
    rw [Drawn.covers, Bool.and_eq_true, beq_iff_eq, beq_iff_eq] at hin
    have hy := Nat.div_add_mod' y (fontHeight * d.scale)
    have hx := Nat.div_add_mod' x (fontWidth * d.scale)
    rw [← hin.1, ← Nat.mul_assoc] at hy
    rw [← hin.2, ← Nat.mul_assoc] at hx
    have hline : y - c.row * fontHeight * d.scale = y % (fontHeight * d.scale) := by omega
    have hcolumn : x - c.col * fontWidth * d.scale = x % (fontWidth * d.scale) := by omega
    rw [hline, hcolumn]
  · rw [if_neg fun h => hin (hcovers.mpr h), if_neg hin]
    rfl

/-- A character changes pixels of its cell only. -/
theorem draw_changes {c : Drawn} (hrow : c.row < screenHeight) (hcol : c.col < screenWidth)
    {fb : Pixels} {i : ℕ} (h : draw d fb c i ≠ fb i) :
    ∃ y < screenHeight * fontHeight * d.scale, ∃ x < screenWidth * fontWidth * d.scale,
      i = d.base + y * d.stride + x := by
  have hrows : (c.row + 1) * (fontHeight * d.scale) ≤ screenHeight * (fontHeight * d.scale) :=
    Nat.mul_le_mul_right _ hrow
  have hcols : (c.col + 1) * (fontWidth * d.scale) ≤ screenWidth * (fontWidth * d.scale) :=
    Nat.mul_le_mul_right _ hcol
  rw [Nat.succ_mul, ← Nat.mul_assoc, ← Nat.mul_assoc] at hrows hcols
  rw [draw_eq hrotated hs, putScaled_eq (Nat.zero_lt_of_lt hs) (by omega), lay_apply, block] at h
  split_ifs at h with hin
  · obtain ⟨hlo, hq, hr⟩ := hin
    have hsplit := Nat.div_add_mod' (i - (d.base + c.row * fontHeight * d.scale * d.stride +
      c.col * fontWidth * d.scale)) d.stride
    generalize (i - (d.base + c.row * fontHeight * d.scale * d.stride +
      c.col * fontWidth * d.scale)) / d.stride = q at hq hsplit
    generalize (i - (d.base + c.row * fontHeight * d.scale * d.stride +
      c.col * fontWidth * d.scale)) % d.stride = r at hr hsplit
    refine ⟨c.row * fontHeight * d.scale + q, by omega, c.col * fontWidth * d.scale + r,
      by omega, ?_⟩
    rw [Nat.add_mul]
    omega
  · exact absurd rfl h

/-- After any sequence of characters every cell shows the last one which was drawn there. -/
theorem screen_shows (cs : List Drawn)
    (hgrid : ∀ c ∈ cs, c.row < screenHeight ∧ c.col < screenWidth) (fb : Pixels) :
    (∀ y, ∀ x < screenWidth * fontWidth * d.scale,
        cs.foldl (draw d) fb (d.base + y * d.stride + x) = shownAt d fb cs y x) ∧
      ∀ i, cs.foldl (draw d) fb i ≠ fb i →
        ∃ y < screenHeight * fontHeight * d.scale, ∃ x < screenWidth * fontWidth * d.scale,
          i = d.base + y * d.stride + x := by
  induction cs using List.reverseRecOn with
  | nil => exact ⟨fun y x _ => rfl, fun i h => absurd rfl h⟩
  | append_singleton cs c ih =>
      obtain ⟨hshows, hchanges⟩ := ih fun c' hc => hgrid c' (List.mem_append_left _ hc)
      obtain ⟨hrow, hcol⟩ := hgrid c (by simp)
      have hlast (s y x : ℕ) : lastDrawn s (cs ++ [c]) y x =
          if c.covers s y x then some c else lastDrawn s cs y x := by
        rw [lastDrawn, List.reverse_append, List.reverse_singleton, List.singleton_append,
          List.find?_cons]
        cases c.covers s y x with
        | true => rfl
        | false => rfl
      refine ⟨fun y x hx => ?_, fun i h => ?_⟩
      · rw [List.foldl_append, List.foldl_cons, List.foldl_nil,
          draw_at hrotated hs hwidth hcol _ hx, hshows y x hx]
        simp only [shownAt, hlast]
        by_cases hcovers : c.covers d.scale y x = true
        · simp only [if_pos hcovers]
        · simp only [if_neg hcovers]
      · rw [List.foldl_append, List.foldl_cons, List.foldl_nil] at h
        by_cases hbefore : cs.foldl (draw d) fb i = fb i
        · rw [← hbefore] at h
          exact draw_changes hrotated hs hwidth hrow hcol h
        · exact hchanges i hbefore

end

/-- The driver on this panel when this scale is asked for. -/
def Panel.display (p : Panel) (asked : ℕ) (fontData : UInt8 → ℕ → UInt8)
    (colours : UInt8 → UInt32 × UInt32)
    (putRotated putUnscaled : ℕ → ℕ → UInt8 → UInt8 → Pixels → Pixels) : Display where
  fontData := fontData
  colours := colours
  base := p.origin (p.scale asked)
  stride := p.stride
  scale := p.scale asked
  rotated := p.rotated
  putRotated := putRotated
  putUnscaled := putUnscaled

theorem scale_fits {p : Panel} (hdirect : p.Direct) {asked : ℕ} (h : p.Fits asked) :
    p.Fits (p.scale asked) := by
  by_cases hone : asked = 1
  · subst hone
    exact (scale_largest hdirect h).1
  · rw [Panel.scale, if_neg fun h => hone h.2.1]
    exact h

/-- On a panel of 32 bits which is not rotated and has room for the text in the size which is
asked for, any sequence of scaled characters leaves the last one in every cell and whatever was
there in the cells without one, and no pixel besides the panel's is changed. -/
theorem panel_shows_text {p : Panel} (hdirect : p.Direct) {options : List (List UInt8)} {asked : ℕ}
    (hasked : parseCmdLine options = some asked) (hroom : p.Fits asked)
    (hscaled : 1 < p.scale asked) (fontData : UInt8 → ℕ → UInt8)
    (colours : UInt8 → UInt32 × UInt32)
    (putRotated putUnscaled : ℕ → ℕ → UInt8 → UInt8 → Pixels → Pixels) {cs : List Drawn}
    (hgrid : ∀ c ∈ cs, c.row < screenHeight ∧ c.col < screenWidth) (fb : Pixels) :
    let d := p.display asked fontData colours putRotated putUnscaled
    let panel := cs.foldl (draw d) fb
    (1 < asked ∧ d.scale = asked ∨ asked = 1 ∧ ∀ s ≤ 4, p.Fits s → s ≤ d.scale) ∧ d.scale ≤ 4 ∧
    (∀ y < screenHeight * fontHeight * d.scale, ∀ x < screenWidth * fontWidth * d.scale,
      panel (d.base + y * p.stride + x) = shownAt d fb cs y x) ∧
    ∀ i, panel i ≠ fb i → ∃ y < p.height, ∃ x < p.width, i = y * p.stride + x := by
  intro d panel
  have hbounds := parseCmdLine_bounds hasked
  have hfits : p.Fits d.scale := scale_fits hdirect hroom
  have hwidth : screenWidth * fontWidth * d.scale ≤ d.stride := hfits.1.trans p.width_le_stride
  have hchosen : (1 < asked ∧ d.scale = asked ∨ asked = 1 ∧ ∀ s ≤ 4, p.Fits s → s ≤ d.scale) ∧
      d.scale ≤ 4 := by
    by_cases hone : asked = 1
    · subst hone
      obtain ⟨-, -, hfour, hlargest⟩ := scale_largest hdirect hroom
      exact ⟨Or.inr ⟨rfl, hlargest⟩, hfour⟩
    · have hscale : d.scale = asked := if_neg fun h => hone h.2.1
      rw [hscale]
      exact ⟨Or.inl ⟨by omega, rfl⟩, hbounds.2⟩
  obtain ⟨hshows, hchanges⟩ := screen_shows hdirect.unrotated hscaled hwidth cs hgrid fb
  refine ⟨hchosen.1, hchosen.2, fun y _ x hx => hshows y x hx, fun i hi => ?_⟩
  obtain ⟨y, hy, x, hx, rfl⟩ := hchanges i hi
  have hbase : d.base = (p.width - screenWidth * fontWidth * d.scale) / 2 +
      (p.height - screenHeight * fontHeight * d.scale) / 2 * p.stride := rfl
  have hstride : d.stride = p.stride := rfl
  refine ⟨(p.height - screenHeight * fontHeight * d.scale) / 2 + y, ?_,
    (p.width - screenWidth * fontWidth * d.scale) / 2 + x, ?_, ?_⟩
  · have := hfits.2
    omega
  · have := hfits.1
    omega
  · rw [hbase, hstride, Nat.add_mul]
    omega

/-- A panel on which everything is doubled. -/
def smallPanel : Panel := ⟨1280, 800, 1344, 4, false, by decide⟩

def smallDisplay : Display :=
  smallPanel.display 1 (fun ch _ => ch) (fun _ => (0xFFFFFF, 0)) (fun _ _ _ _ fb => fb)
    (fun _ _ _ _ fb => fb)

/-- In the last cell, one character over another. -/
def twoDrawn : List Drawn := [⟨24, 79, 0x42, 0x07⟩, ⟨24, 79, 0x41, 0x07⟩]

/-- `screen.scale=0` is passed over, and `screen.scale=1` is no other than none. -/
theorem panel_shows_text_doubled :
    (1 < 1 ∧ smallDisplay.scale = 1 ∨
        1 = 1 ∧ ∀ s ≤ 4, smallPanel.Fits s → s ≤ smallDisplay.scale) ∧ smallDisplay.scale ≤ 4 ∧
    (∀ y < screenHeight * fontHeight * smallDisplay.scale,
      ∀ x < screenWidth * fontWidth * smallDisplay.scale,
        twoDrawn.foldl (draw smallDisplay) (fun _ => 0)
          (smallDisplay.base + y * smallPanel.stride + x) =
            shownAt smallDisplay (fun _ => 0) twoDrawn y x) ∧
    ∀ i, twoDrawn.foldl (draw smallDisplay) (fun _ => 0) i ≠ 0 →
      ∃ y < smallPanel.height, ∃ x < smallPanel.width, i = y * smallPanel.stride + x :=
  have hasked : parseCmdLine [[0x31], [0x30]] = some 1 := by decide
  panel_shows_text ⟨rfl, rfl⟩ hasked (by decide) (by decide) _ _ _ _ (by decide) _

end BankFinder.ScaledText
