/-
The framebuffer console (`src/core/console.c`). The framebuffer is an array of 32-bit words, `pitch / 4` for each row of
pixels; a read or write outside it is `Stop.wild`. Counters are `u32`, sizes are `u64`: a loop up to a size of 2^32 or
more never ends.

The reference is a grid of characters with a cursor (`Grid`). Where the height is not a multiple of 16 there is a strip
below the last row of cells; `fb_scroll` moves it up with the rest, into the last row of cells. It never holds anything
but background.

- `Paints`: what a loop of plots leaves, as a region and its colours.
- `fbDrawChar_spec`, `fbScroll_spec`, `consoleInit_spec`: the pixels afterwards.
- `Renders`: the pixels are those of the grid.
- `fbPutc_renders`: a character keeps it.
- `console_renders`: so does any text, and no access leaves the framebuffer.
-/
import Uix.Types
import Uix.Io.Font
import Uix.Lib.Machine

namespace Uix

open List Function

/-- `struct limine_framebuffer`, the sizes of it -/
structure Framebuffer where
  width : ℕ
  height : ℕ
  pitch : ℕ
  deriving DecidableEq, Repr

/-- the console with its framebuffer; `pix` is the array at `fb->address`, `serial` what was sent to the UART -/
structure Console where
  fb : Framebuffer
  pix : ℕ → BitVec 32
  curX : ℕ
  curY : ℕ
  cols : ℕ
  rows : ℕ
  serial : List (BitVec 8)

namespace Console

open Machine

/-- `GLYPH_W` -/
def glyphW : ℕ := 8

/-- `GLYPH_H` -/
def glyphH : ℕ := 16

def fg : BitVec 32 := 0xE8E8E8#32

def bg : BitVec 32 := 0x101018#32

/-! ## The framebuffer -/

/-- `base[i]` -/
def read (s : Console) (i : ℕ) : Except Stop (BitVec 32) :=
  if i < s.fb.pitch / 4 * s.fb.height then pure (s.pix i) else .error .wild

/-- `base[i] = color` -/
def write (s : Console) (i : ℕ) (color : BitVec 32) : Except Stop Console :=
  if i < s.fb.pitch / 4 * s.fb.height then pure { s with pix := Function.update s.pix i color } else .error .wild

/-- the values of a `u32` counter that starts at `a` and stays below the `u64` bound `n` -/
def counter (a n : ℕ) : Except Stop (List ℕ) := if n < 2 ^ 32 then pure (List.range' a (n - a)) else .error .hang

/-- `fb_plot`, with an index of 64 bits -/
def fbPlot (s : Console) (x y : ℕ) (color : BitVec 32) : Except Stop Console :=
  s.write ((y * (s.fb.pitch / 4) + x) % 2 ^ 64) color

/-- the character that is drawn for `c`, which is a signed `char` -/
def shown (c : BitVec 8) : BitVec 8 := if c.toInt < 0x20 ∨ 0x7E < c.toInt then 0x3F#8 else c

/-- the row `gy` of the glyph of a character -/
def glyphRow (c : BitVec 8) (gy : ℕ) : BitVec 8 := (font8x8.getD (c.toNat - 0x20) []).getD gy 0

/-- `fb_draw_char` -/
def fbDrawChar (s : Console) (c : BitVec 8) (cx cy : ℕ) : Except Stop Console :=
  let c := shown c
  (List.range 8).foldlM (fun s gy =>
    (List.range 2).foldlM (fun s rep =>
      let py := (cy * glyphH + gy * 2 + rep) % 2 ^ 32
      (List.range 8).foldlM (fun s gx =>
        let px := (cx * glyphW + gx) % 2 ^ 32
        s.fbPlot px py (if (glyphRow c gy).getLsbD gx then fg else bg)) s) s) s

/-- `base[(y - line) * w + x] = base[y * w + x]`, with indices of 32 bits -/
def moveWord (w y : ℕ) (s : Console) (x : ℕ) : Except Stop Console := do
  let v ← s.read ((y * w + x) % 2 ^ 32)
  s.write (((y - glyphH) * w + x) % 2 ^ 32) v

/-- a row of pixels moved up by `line` -/
def moveRow (w : ℕ) (s : Console) (y : ℕ) : Except Stop Console := (List.range w).foldlM (moveWord w y) s

/-- a row of pixels set to `bg` -/
def clearRow (w : ℕ) (s : Console) (y : ℕ) : Except Stop Console :=
  (List.range w).foldlM (fun s x => s.write ((y * w + x) % 2 ^ 32) bg) s

/-- `fb_scroll` -/
def fbScroll (s : Console) : Except Stop Console := do
  let w := s.fb.pitch / 4 % 2 ^ 32
  let moved ← counter glyphH s.fb.height
  let s ← moved.foldlM (moveRow w) s
  let cleared ← counter ((s.fb.height - glyphH) % 2 ^ 32) s.fb.height
  cleared.foldlM (clearRow w) s

/-- the end of `fb_putc`: scroll if the cursor has left the last row -/
def fbWrap (s : Console) : Except Stop Console :=
  if s.rows ≤ s.curY then do
    let s ← s.fbScroll
    pure { s with curY := s.rows - 1 }
  else pure s

/-- `fb_putc`, with a framebuffer -/
def fbPutc (s : Console) (c : BitVec 8) : Except Stop Console := do
  let s ←
    if c = 0x0A#8 then pure { s with curX := 0, curY := (s.curY + 1) % 2 ^ 32 }
    else if c = 0x0D#8 then pure { s with curX := 0 }
    else if c = 0x08#8 then pure (if 0 < s.curX then { s with curX := s.curX - 1 } else s)
    else do
      let s ← s.fbDrawChar c s.curX s.curY
      let x := (s.curX + 1) % 2 ^ 32
      pure (if s.cols ≤ x then { s with curX := 0, curY := (s.curY + 1) % 2 ^ 32 } else { s with curX := x })
  s.fbWrap

/-- `console_init`, with a framebuffer whose words hold anything -/
def consoleInit (fb : Framebuffer) (pix : ℕ → BitVec 32) (serial : List (BitVec 8)) : Except Stop Console := do
  let s : Console := ⟨fb, pix, 0, 0, fb.width / glyphW % 2 ^ 32, fb.height / glyphH % 2 ^ 32, serial⟩
  let ys ← counter 0 fb.height
  let xs ← counter 0 fb.width
  ys.foldlM (fun s y => xs.foldlM (fun s x => s.fbPlot x y bg) s) s

/-- `console_putc`: the character goes to the serial line, a line feed after a carriage return, and to the screen -/
def consolePutc (s : Console) (c : BitVec 8) : Except Stop Console :=
  { s with serial := s.serial ++ if c = 0x0A#8 then [0x0D#8, c] else [c] }.fbPutc c

end Console

/-- 32 bits a pixel, at least one cell, and indices of 32 bits -/
structure Framebuffer.Ok (fb : Framebuffer) : Prop where
  aligned : fb.pitch % 4 = 0
  pitch : fb.width ≤ fb.pitch / 4
  width : Console.glyphW ≤ fb.width
  height : Console.glyphH ≤ fb.height
  small : fb.pitch / 4 * fb.height < 2 ^ 32

theorem Framebuffer.Ok.bounds {fb : Framebuffer} (h : fb.Ok) : fb.pitch / 4 < 2 ^ 32 ∧ fb.height < 2 ^ 32 := by
  have hpitch := h.pitch
  have hwidth := h.width
  have hheight := h.height
  rw [Console.glyphW] at hwidth
  rw [Console.glyphH] at hheight
  refine ⟨lt_of_le_of_lt ?_ h.small, lt_of_le_of_lt ?_ h.small⟩
  · exact Nat.le_mul_of_pos_right _ (by omega)
  · exact Nat.le_mul_of_pos_left _ (by omega)

namespace Console

open Machine

/-! ## Pixels -/

/-- the pixel in column `x` of row `y` -/
def pixel (s : Console) (x y : ℕ) : BitVec 32 := s.pix (y * (s.fb.pitch / 4) + x)

/-- `t` is `s` with the region `R` painted with the colours `f`, in the columns that there are -/
structure Paints (s t : Console) (R : ℕ → ℕ → Prop) (f : ℕ → ℕ → BitVec 32) : Prop where
  rest : t = { s with pix := t.pix }
  hit : ∀ x y, x < s.fb.pitch / 4 → R x y → t.pixel x y = f x y
  miss : ∀ x y, x < s.fb.pitch / 4 → ¬ R x y → t.pixel x y = s.pixel x y

/-- a computation that always succeeds -/
def Succeeds {α : Type} (x : Except Stop α) (Q : α → Prop) : Prop := Meets x (fun _ => False) Q

section Paints

variable {s t u : Console} {R R' : ℕ → ℕ → Prop} {f f' g : ℕ → ℕ → BitVec 32}

theorem Paints.fb (h : Paints s t R f) : t.fb = s.fb := by rw [h.rest]

theorem Paints.refl (s : Console) (f : ℕ → ℕ → BitVec 32) : Paints s s (fun _ _ => False) f :=
  ⟨rfl, fun _ _ _ h => h.elim, fun _ _ _ _ => rfl⟩

theorem Paints.trans (h : Paints s t R f) (h' : Paints t u R' f') (h1 : ∀ x y, R' x y → g x y = f' x y)
    (h2 : ∀ x y, R x y → ¬ R' x y → g x y = f x y) : Paints s u (fun x y => R x y ∨ R' x y) g := by
  have hfb := h.fb
  refine ⟨?_, fun x y hx hR => ?_, fun x y hx hR => ?_⟩
  · rw [h'.rest, h.rest]
  · by_cases hR' : R' x y
    · rw [h'.hit x y (hfb ▸ hx) hR', h1 x y hR']
    · have hR1 := hR.resolve_right hR'
      rw [h'.miss x y (hfb ▸ hx) hR', h.hit x y hx hR1, h2 x y hR1 hR']
  · rw [not_or] at hR
    rw [h'.miss x y (hfb ▸ hx) hR.2, h.miss x y hx hR.1]

theorem Paints.congr (h : Paints s t R f) (hR : ∀ x y, x < s.fb.pitch / 4 → (R' x y ↔ R x y))
    (hf : ∀ x y, R x y → g x y = f x y) : Paints s t R' g := by
  refine ⟨h.rest, fun x y hx hRx => ?_, fun x y hx hRx => ?_⟩
  · have := (hR x y hx).1 hRx
    rw [h.hit x y hx this, hf x y this]
  · exact h.miss x y hx fun hc => hRx ((hR x y hx).2 hc)

/-- **A loop** that paints a region in each step. -/
theorem paints_loop {ι : Type} {l : List ι} {body : Console → ι → Except Stop Console} {R : ι → ℕ → ℕ → Prop}
    (h : ∀ s' i, i ∈ l → s'.fb = s.fb → Succeeds (body s' i) fun t => Paints s' t (R i) f) :
    Succeeds (l.foldlM body s) fun t => Paints s t (fun x y => ∃ i ∈ l, R i x y) f := by
  refine foldlM_meets (fun pre t => Paints s t (fun x y => ∃ i ∈ pre, R i x y) f) ?_ ?_
  · refine (Paints.refl s f).congr (fun x y _ => ?_) fun _ _ h => h.elim
    simp
  · intro pre i post s' hl hP
    refine (h s' i (by rw [hl]; exact mem_append_right _ mem_cons_self) hP.fb).mono (fun _ h => h) fun t hT => ?_
    refine (hP.trans hT (fun _ _ _ => rfl) fun _ _ _ _ => rfl).congr (fun x y _ => ?_) fun _ _ _ => rfl
    simp only [mem_append, mem_singleton, or_and_right, exists_or, exists_eq_left]

/-- places in the array are pixels -/
theorem index_inj {w x y x' y' : ℕ} (hx : x < w) (hx' : x' < w) : y * w + x = y' * w + x' ↔ x = x' ∧ y = y' := by
  constructor
  · intro h
    have hmod := congrArg (· % w) h
    have hdiv := congrArg (· / w) h
    have hw : 0 < w := Nat.zero_lt_of_lt hx
    simp only [Nat.mul_comm _ w, Nat.mul_add_mod, Nat.mod_eq_of_lt hx, Nat.mod_eq_of_lt hx'] at hmod
    simp only [Nat.mul_comm _ w, Nat.mul_add_div hw, Nat.div_eq_of_lt hx, Nat.div_eq_of_lt hx', Nat.add_zero] at hdiv
    exact ⟨hmod, hdiv⟩
  · rintro ⟨rfl, rfl⟩
    rfl

theorem index_lt {w n x y : ℕ} (hx : x < w) (hy : y < n) : y * w + x < w * n := by
  calc y * w + x < y * w + w := by omega
    _ = (y + 1) * w := by ring
    _ ≤ n * w := Nat.mul_le_mul_right w hy
    _ = w * n := Nat.mul_comm n w

/-- **One word written.** -/
theorem write_paints {x y : ℕ} (hx : x < s.fb.pitch / 4) (hy : y < s.fb.height) :
    Succeeds (s.write (y * (s.fb.pitch / 4) + x) (f x y)) fun t => Paints s t (fun x' y' => x' = x ∧ y' = y) f := by
  rw [write, if_pos (index_lt hx hy)]
  refine meets_ok ⟨rfl, fun x' y' _ hR => ?_, fun x' y' hx' hR => ?_⟩
  · rw [hR.1, hR.2]
    exact update_self ..
  · exact update_of_ne (fun hc => hR ((index_inj hx' hx).1 hc)) ..

theorem fbPlot_paints (hok : s.fb.Ok) {x y : ℕ} {c : BitVec 32} (hx : x < s.fb.pitch / 4) (hy : y < s.fb.height)
    (hc : c = f x y) : Succeeds (s.fbPlot x y c) fun t => Paints s t (fun x' y' => x' = x ∧ y' = y) f := by
  have hlt := index_lt hx hy
  have hsmall := hok.small
  rw [fbPlot, Nat.mod_eq_of_lt (by omega), hc]
  exact write_paints hx hy

theorem counter_ok {a n : ℕ} (h : n < 2 ^ 32) : counter a n = .ok (range' a (n - a)) := by
  rw [counter, if_pos h]
  rfl

end Paints

/-! ## What is drawn -/

/-- the pixel of a cell that shows `c`: every row of the glyph is drawn twice -/
def glyphPixel (c : BitVec 8) (gx gy : ℕ) : BitVec 32 := if (glyphRow c (gy / 2)).getLsbD gx then fg else bg

/-- the pixels of cell `(cx, cy)` -/
def InCell (cx cy x y : ℕ) : Prop :=
  cx * glyphW ≤ x ∧ x < cx * glyphW + glyphW ∧ cy * glyphH ≤ y ∧ y < cy * glyphH + glyphH

section Drawn

variable {s : Console}

/-- **A character** is drawn in its cell. -/
theorem fbDrawChar_spec (hok : s.fb.Ok) (c : BitVec 8) {cx cy : ℕ} (hcx : cx < s.fb.width / glyphW)
    (hcy : cy < s.fb.height / glyphH) :
    Succeeds (s.fbDrawChar c cx cy) fun t =>
      Paints s t (InCell cx cy) fun x y => glyphPixel (shown c) (x - cx * glyphW) (y - cy * glyphH) := by
  have hpitch := hok.pitch
  obtain ⟨hw, hh⟩ := hok.bounds
  unfold fbDrawChar
  simp only [glyphW, glyphH] at hcx hcy ⊢
  refine Meets.mono (paints_loop (f := fun x y => glyphPixel (shown c) (x - cx * 8) (y - cy * 16))
    fun s1 gy hgy hs1 => paints_loop fun s2 rep hrep hs2 => paints_loop
    (R := fun gx x y => x = cx * 8 + gx ∧ y = cy * 16 + gy * 2 + rep) fun s3 gx hgx hs3 => ?_) (fun _ h => h)
      fun t hT => ?_
  · have hfb : s3.fb = s.fb := by rw [hs3, hs2, hs1]
    rw [mem_range] at hgy hrep hgx
    have hx : cx * 8 + gx < s3.fb.pitch / 4 := by rw [hfb]; omega
    have hy : cy * 16 + gy * 2 + rep < s3.fb.height := by rw [hfb]; omega
    rw [Nat.mod_eq_of_lt (show cx * 8 + gx < 2 ^ 32 by rw [hfb] at hx; omega),
      Nat.mod_eq_of_lt (show cy * 16 + gy * 2 + rep < 2 ^ 32 by rw [hfb] at hy; omega)]
    refine fbPlot_paints (hfb ▸ hok) hx hy ?_
    rw [glyphPixel, show cx * 8 + gx - cx * 8 = gx by omega, show (cy * 16 + gy * 2 + rep - cy * 16) / 2 = gy by omega]
  · refine hT.congr (fun x y _ => ?_) fun _ _ _ => rfl
    simp only [InCell, glyphW, glyphH, mem_range]
    constructor
    · rintro ⟨h1, h2, h3, h4⟩
      exact ⟨(y - cy * 16) / 2, by omega, (y - cy * 16) % 2, by omega, x - cx * 8, by omega, by omega, by omega⟩
    · rintro ⟨gy, hgy, rep, hrep, gx, hgx, rfl, rfl⟩
      omega

/-- what stands below row `y` is moved up, word by word -/
theorem moveWord_spec {s₀ : Console} {x y : ℕ} (hok : s₀.fb.Ok) (hx : x < s₀.fb.pitch / 4) (hy : glyphH ≤ y)
    (hlt : y < s₀.fb.height)
    (h : Paints s₀ s (fun x' p => p + glyphH < y ∨ p + glyphH = y ∧ x' < x) fun x p => s₀.pixel x (p + glyphH)) :
    Succeeds (moveWord (s₀.fb.pitch / 4) y s x) fun t =>
      Paints s₀ t (fun x' p => p + glyphH < y ∨ p + glyphH = y ∧ x' < x + 1) fun x p => s₀.pixel x (p + glyphH) := by
  have hsmall := hok.small
  have hfb := h.fb
  have hi := index_lt hx hlt
  have hi' : (y - glyphH) * (s₀.fb.pitch / 4) + x < s₀.fb.pitch / 4 * s₀.fb.height := index_lt hx (by omega)
  -- the word to be moved has not been written to
  have hread : s.read (y * (s₀.fb.pitch / 4) + x) = .ok (s₀.pixel x y) := by
    rw [read, hfb, if_pos hi]
    refine congrArg Except.ok (Eq.trans ?_ (h.miss x y hx (by rw [glyphH]; omega)))
    rw [pixel, hfb]
  have hwrite := @write_paints s (fun x p => s₀.pixel x (p + glyphH)) x (y - glyphH) (by rw [hfb]; exact hx) (by
    rw [hfb]
    omega)
  rw [hfb, Nat.sub_add_cancel hy] at hwrite
  rw [moveWord, Nat.mod_eq_of_lt (by omega), Nat.mod_eq_of_lt (by omega), hread, ok_bind]
  refine hwrite.mono (fun _ h => h) fun t hT => ?_
  refine (h.trans hT (fun _ _ _ => rfl) fun _ _ _ _ => rfl).congr (fun x' p _ => ?_) fun _ _ _ => rfl
  omega

/-- the rows from 16 on are moved up by 16 -/
theorem moveRows_spec (hok : s.fb.Ok) :
    Succeeds ((range' glyphH (s.fb.height - glyphH)).foldlM (moveRow (s.fb.pitch / 4)) s) fun t =>
      Paints s t (fun _ y => y + glyphH < s.fb.height) fun x y => s.pixel x (y + glyphH) := by
  have hheight := hok.height
  have hnone : Paints s s (fun _ p => p + glyphH < glyphH) fun x p => s.pixel x (p + glyphH) :=
    (Paints.refl s fun x p => s.pixel x (p + glyphH)).congr (fun x p _ => by simp) fun _ _ h => h.elim
  have hloop := @range_meets Stop Console (fun _ => False) s (moveRow (s.fb.pitch / 4))
    (fun y t => Paints s t (fun _ p => p + glyphH < y) fun x p => s.pixel x (p + glyphH)) glyphH (s.fb.height - glyphH)
    hnone ?_
  · rw [Nat.add_sub_cancel' hheight] at hloop
    exact hloop
  · intro y s1 hy1 hy2 h1
    rw [Nat.add_sub_cancel' hheight] at hy2
    have hrow := @range_meets Stop Console (fun _ => False) s1 (moveWord (s.fb.pitch / 4) y)
      (fun x t => Paints s t (fun x' p => p + glyphH < y ∨ p + glyphH = y ∧ x' < x) fun x p => s.pixel x (p + glyphH))
      0 (s.fb.pitch / 4) (h1.congr (fun x p _ => by simp) fun _ _ _ => rfl)
      fun x s2 _ hx h2 => moveWord_spec hok (by omega) hy1 hy2 h2
    rw [← range_eq_range'] at hrow
    refine hrow.mono (fun _ h => h) fun t hT => hT.congr (fun x p hx => ?_) fun _ _ _ => rfl
    omega

theorem clearRow_spec {s₀ : Console} {y : ℕ} (hok : s₀.fb.Ok) (hfb : s.fb = s₀.fb) (hy : y < s₀.fb.height) :
    Succeeds (clearRow (s₀.fb.pitch / 4) s y) fun t => Paints s t (fun _ y' => y' = y) fun _ _ => bg := by
  have hsmall := hok.small
  refine Meets.mono (paints_loop (f := fun _ _ => bg) (R := fun x x' y' => x' = x ∧ y' = y) fun s1 x hx hs1 => ?_)
    (fun _ h => h) fun t hT => hT.congr (fun x y' hx => ?_) fun _ _ _ => rfl
  · have hfb1 : s1.fb = s₀.fb := by rw [hs1, hfb]
    rw [mem_range] at hx
    have hi := index_lt hx hy
    have hwrite := @write_paints s1 (fun _ _ => bg) x y (by rw [hfb1]; exact hx) (by rw [hfb1]; exact hy)
    rw [hfb1] at hwrite
    rw [Nat.mod_eq_of_lt (by omega)]
    exact hwrite
  · rw [hfb] at hx
    constructor
    · intro h
      exact ⟨x, mem_range.2 hx, rfl, h⟩
    · rintro ⟨x', -, -, h⟩
      exact h

/-- **Scrolling** moves the rows of pixels up by 16 and clears the last 16. -/
theorem fbScroll_spec (hok : s.fb.Ok) :
    Succeeds s.fbScroll fun t => Paints s t (fun _ y => y < s.fb.height) fun x y =>
      if y + glyphH < s.fb.height then s.pixel x (y + glyphH) else bg := by
  obtain ⟨hw, hh⟩ := hok.bounds
  have hheight := hok.height
  unfold fbScroll
  simp only [Nat.mod_eq_of_lt hw, counter_ok hh, ok_bind]
  refine (moveRows_spec hok).bind fun t hT => ?_
  have hfb := hT.fb
  rw [hfb, Nat.mod_eq_of_lt (show s.fb.height - glyphH < 2 ^ 32 by omega), counter_ok hh, ok_bind]
  have hclear := @paints_loop t (fun _ _ => bg) ℕ (range' (s.fb.height - glyphH) (s.fb.height - (s.fb.height - glyphH)))
    (clearRow (s.fb.pitch / 4)) (fun y _ y' => y' = y) fun s1 y hy hs1 =>
    clearRow_spec hok (hs1.trans hfb) (show y < s.fb.height by rw [mem_range'_1] at hy; omega)
  refine hclear.mono (fun _ h => h) fun u hU => ?_
  have hpainted := @Paints.trans _ _ _ _ _ _ _
    (fun x y => if y + glyphH < s.fb.height then s.pixel x (y + glyphH) else bg)
    hT hU (fun x y hR => ?_) fun x y hR _ => if_pos hR
  · refine hpainted.congr (fun x y _ => ?_) fun _ _ _ => rfl
    simp only [mem_range'_1]
    constructor
    · intro hy
      by_cases hrow : y + glyphH < s.fb.height
      · exact .inl hrow
      · exact .inr ⟨y, by omega, rfl⟩
    · rintro (h | ⟨y', hy', rfl⟩)
      · omega
      · omega
  · obtain ⟨y', hy', rfl⟩ := hR
    rw [mem_range'_1] at hy'
    exact if_neg (by omega)

/-- **The screen is cleared.** -/
theorem consoleInit_spec {fb : Framebuffer} (hok : fb.Ok) (pix : ℕ → BitVec 32) (serial : List (BitVec 8)) :
    Succeeds (consoleInit fb pix serial) fun t =>
      Paints ⟨fb, pix, 0, 0, fb.width / glyphW, fb.height / glyphH, serial⟩ t (fun x y => x < fb.width ∧ y < fb.height)
        fun _ _ => bg := by
  obtain ⟨hw, hh⟩ := hok.bounds
  have hpitch := hok.pitch
  have hwidth : fb.width < 2 ^ 32 := by omega
  have hcols : fb.width / glyphW % 2 ^ 32 = fb.width / glyphW :=
    Nat.mod_eq_of_lt (lt_of_le_of_lt (Nat.div_le_self _ _) hwidth)
  have hrows : fb.height / glyphH % 2 ^ 32 = fb.height / glyphH :=
    Nat.mod_eq_of_lt (lt_of_le_of_lt (Nat.div_le_self _ _) hh)
  unfold consoleInit
  rw [hcols, hrows, counter_ok hh, counter_ok hwidth, ok_bind, ok_bind]
  refine Meets.mono (paints_loop (f := fun _ _ => bg) fun s1 y hy hs1 => paints_loop
    (R := fun x x' y' => x' = x ∧ y' = y) fun s2 x hx hs2 => ?_) (fun _ h => h) fun t hT => ?_
  · have hfb : s2.fb = fb := by rw [hs2, hs1]
    rw [mem_range'_1] at hx hy
    exact fbPlot_paints (hfb.symm ▸ hok) (by rw [hfb]; omega) (by rw [hfb]; omega) rfl
  · refine hT.congr (fun x y _ => ?_) fun _ _ _ => rfl
    simp only [mem_range'_1]
    constructor
    · rintro ⟨h1, h2⟩
      exact ⟨y, by omega, x, by omega, rfl, rfl⟩
    · rintro ⟨y', hy, x', hx, rfl, rfl⟩
      omega

end Drawn

end Console

/-! ## The grid -/

/-- a terminal of characters; `none` is a blank cell -/
structure Grid where
  cells : ℕ → ℕ → Option (BitVec 8)
  curX : ℕ
  curY : ℕ

namespace Grid

def blank : Grid := ⟨fun _ _ => none, 0, 0⟩

/-- the start of the next row; at the last one, all rows move up -/
def newline (rows : ℕ) (g : Grid) : Grid :=
  if g.curY + 1 < rows then { g with curX := 0, curY := g.curY + 1 }
  else ⟨fun x y => if y + 1 < rows then g.cells x (y + 1) else none, 0, rows - 1⟩

/-- the character itself, or `?` -/
def visible (c : BitVec 8) : BitVec 8 := if 0x20 ≤ c.toNat ∧ c.toNat ≤ 0x7E then c else 0x3F#8

/-- a character at the cursor -/
def put (g : Grid) (c : BitVec 8) : Grid :=
  { g with cells := fun x y => if x = g.curX ∧ y = g.curY then some (visible c) else g.cells x y }

/-- one character: newline, CR, backspace, or a character to be shown -/
def putc (cols rows : ℕ) (g : Grid) (c : BitVec 8) : Grid :=
  if c = 0x0A#8 then g.newline rows
  else if c = 0x0D#8 then { g with curX := 0 }
  else if c = 0x08#8 then { g with curX := g.curX - 1 }
  else if g.curX + 1 < cols then { g.put c with curX := g.curX + 1 }
  else (g.put c).newline rows

end Grid

namespace Console

open Machine

/-- the pixel of a cell -/
def cellPixel : Option (BitVec 8) → ℕ → ℕ → BitVec 32
  | some c => glyphPixel c
  | none => fun _ _ => bg

/-- the cells show the characters `cells`, and the strip below them is background -/
structure Shows (s : Console) (cells : ℕ → ℕ → Option (BitVec 8)) : Prop where
  ok : s.fb.Ok
  size : s.cols = s.fb.width / glyphW ∧ s.rows = s.fb.height / glyphH
  cell : ∀ x < s.cols, ∀ y < s.rows, ∀ gx < glyphW, ∀ gy < glyphH,
    s.pixel (x * glyphW + gx) (y * glyphH + gy) = cellPixel (cells x y) gx gy
  strip : ∀ x < s.cols * glyphW, ∀ y < s.fb.height, s.rows * glyphH ≤ y → s.pixel x y = bg

/-- the pixels are those of the grid, and the cursor is where it is there -/
structure Renders (s : Console) (g : Grid) : Prop where
  shows : s.Shows g.cells
  cursor : s.curX = g.curX ∧ s.curY = g.curY
  inside : s.curX < s.cols ∧ s.curY < s.rows

section Renders

variable {s t : Console} {g : Grid} {cells cells' : ℕ → ℕ → Option (BitVec 8)}

theorem shown_eq (c : BitVec 8) : shown c = Grid.visible c := by
  revert c
  decide

/-- only the pixels, the framebuffer and its size matter -/
theorem Shows.congr (h : s.Shows cells) (hfb : t.fb = s.fb) (hpix : t.pix = s.pix) (hcols : t.cols = s.cols)
    (hrows : t.rows = s.rows) : t.Shows cells := by
  obtain ⟨fb, pix, x, y, cols, rows, serial⟩ := t
  dsimp only at hfb hpix hcols hrows
  subst hfb hpix hcols hrows
  exact ⟨h.ok, h.size, h.cell, h.strip⟩

theorem Shows.sizes (h : s.Shows cells) : s.cols * glyphW ≤ s.fb.pitch / 4 ∧ s.rows * glyphH ≤ s.fb.height ∧
    s.fb.height < s.rows * glyphH + glyphH ∧ 0 < s.cols ∧ 0 < s.rows ∧ s.cols < 2 ^ 32 ∧ s.rows < 2 ^ 32 := by
  obtain ⟨hcols, hrows⟩ := h.size
  have h1 := h.ok.pitch
  have h2 := h.ok.width
  have h3 := h.ok.height
  obtain ⟨h4, h5⟩ := h.ok.bounds
  simp only [glyphW, glyphH] at *
  omega

/-- **A character drawn** changes its cell. -/
theorem Shows.draw (h : s.Shows cells) (c : BitVec 8) {cx cy : ℕ} (hcx : cx < s.cols) (hcy : cy < s.rows) :
    Succeeds (s.fbDrawChar c cx cy) fun t => t = { s with pix := t.pix } ∧
      t.Shows fun x y => if x = cx ∧ y = cy then some (Grid.visible c) else cells x y := by
  obtain ⟨hcols, hrows⟩ := h.size
  obtain ⟨h1, h2, h3, -⟩ := h.sizes
  refine (fbDrawChar_spec h.ok c (hcols ▸ hcx) (hrows ▸ hcy)).mono (fun _ h => h) fun t hT => ⟨hT.rest, ?_⟩
  have hfb : t.fb = s.fb := hT.fb
  have htcols : t.cols = s.cols := by rw [hT.rest]
  have htrows : t.rows = s.rows := by rw [hT.rest]
  refine ⟨hfb ▸ h.ok, by rw [hfb, htcols, htrows]; exact h.size, fun x hx y hy gx hgx gy hgy => ?_,
    fun x hx y hy hrow => ?_⟩
  · rw [htcols] at hx
    rw [htrows] at hy
    have hlt : x * glyphW + gx < s.fb.pitch / 4 := by
      simp only [glyphW] at *
      omega
    by_cases hcell : x = cx ∧ y = cy
    · obtain ⟨rfl, rfl⟩ := hcell
      rw [hT.hit _ _ hlt ⟨by omega, by omega, by omega, by omega⟩, if_pos ⟨rfl, rfl⟩, shown_eq, Nat.add_sub_cancel_left,
        Nat.add_sub_cancel_left]
      rfl
    · rw [if_neg hcell, hT.miss _ _ hlt ?_, h.cell x hx y hy gx hgx gy hgy]
      simp only [InCell, glyphW, glyphH] at *
      omega
  · rw [htcols] at hx
    rw [hfb] at hy
    rw [htrows] at hrow
    rw [hT.miss x y (by omega) ?_, h.strip x hx y hy hrow]
    simp only [InCell, glyphH] at *
    omega

/-- **Scrolling** moves the rows of cells up. -/
theorem Shows.scroll (h : s.Shows cells) :
    Succeeds s.fbScroll fun t => t = { s with pix := t.pix } ∧
      t.Shows fun x y => if y + 1 < s.rows then cells x (y + 1) else none := by
  obtain ⟨h1, h2, h3, -⟩ := h.sizes
  refine (fbScroll_spec h.ok).mono (fun _ h => h) fun t hT => ⟨hT.rest, ?_⟩
  have hfb : t.fb = s.fb := hT.fb
  have htcols : t.cols = s.cols := by rw [hT.rest]
  have htrows : t.rows = s.rows := by rw [hT.rest]
  refine ⟨hfb ▸ h.ok, by rw [hfb, htcols, htrows]; exact h.size, fun x hx y hy gx hgx gy hgy => ?_,
    fun x hx y hy hrow => ?_⟩
  · rw [htcols] at hx
    rw [htrows] at hy
    have hlt : x * glyphW + gx < s.cols * glyphW := by
      simp only [glyphW] at *
      omega
    have hin : y * glyphH + gy < s.fb.height := by
      simp only [glyphH] at *
      omega
    rw [hT.hit _ _ (lt_of_lt_of_le hlt h1) hin]
    have hnext : y * glyphH + gy + glyphH = (y + 1) * glyphH + gy := by ring
    rw [hnext]
    by_cases hlast : y + 1 < s.rows
    · rw [if_pos hlast, if_pos, h.cell x hx (y + 1) hlast gx hgx gy hgy]
      simp only [glyphH] at *
      omega
    · -- the strip moves into the last row of cells
      rw [if_neg hlast]
      split_ifs with hstrip
      · refine h.strip _ hlt _ hstrip ?_
        simp only [glyphH] at *
        omega
      · rfl
  · rw [htcols] at hx
    rw [hfb] at hy
    rw [htrows] at hrow
    rw [hT.hit x y (lt_of_lt_of_le hx h1) hy, if_neg (by omega)]

/-- a cursor in the last row at most, or one below it -/
theorem fbWrap_renders (h : s.Shows g.cells) (hx : s.curX = 0) (hy : s.curY = g.curY + 1) (hlt : g.curY < s.rows) :
    Succeeds s.fbWrap fun t => t.Renders (g.newline s.rows) ∧ t.cols = s.cols ∧ t.rows = s.rows ∧ t.fb = s.fb := by
  obtain ⟨-, -, -, hcols, hrows, -⟩ := h.sizes
  rw [fbWrap]
  by_cases hlast : g.curY + 1 < s.rows
  · have hnew : g.newline s.rows = { g with curX := 0, curY := g.curY + 1 } := if_pos hlast
    rw [if_neg (by omega), hnew]
    exact meets_ok ⟨⟨h, ⟨hx, hy⟩, by omega, by omega⟩, rfl, rfl, rfl⟩
  · have hnew : g.newline s.rows =
        ⟨fun x y => if y + 1 < s.rows then g.cells x (y + 1) else none, 0, s.rows - 1⟩ := if_neg hlast
    rw [if_pos (by omega), hnew]
    refine h.scroll.bind fun t hT => meets_ok ?_
    obtain ⟨hrest, hshows⟩ := hT
    have htx : t.curX = 0 := by rw [hrest]; exact hx
    have htcols : t.cols = s.cols := by rw [hrest]
    have htrows : t.rows = s.rows := by rw [hrest]
    have htfb : t.fb = s.fb := by rw [hrest]
    refine ⟨⟨hshows.congr rfl rfl rfl rfl, ⟨htx, ?_⟩, ?_, ?_⟩, htcols, htrows, htfb⟩
    · show t.rows - 1 = s.rows - 1
      rw [htrows]
    · show t.curX < t.cols
      omega
    · show t.rows - 1 < t.rows
      omega

/-- a cursor that stays in its row needs no scrolling -/
theorem fbWrap_stays (h : s.Renders g) :
    Succeeds s.fbWrap fun t => t.Renders g ∧ t.cols = s.cols ∧ t.rows = s.rows ∧ t.fb = s.fb := by
  rw [fbWrap, if_neg (Nat.not_le.2 h.inside.2)]
  exact meets_ok ⟨h, rfl, rfl, rfl⟩

/-- **A character keeps the picture.** -/
theorem fbPutc_renders (h : s.Renders g) (c : BitVec 8) :
    Succeeds (s.fbPutc c) fun t => t.Renders (g.putc s.cols s.rows c) ∧ t.cols = s.cols ∧ t.rows = s.rows ∧
    t.fb = s.fb := by
  obtain ⟨hshows, ⟨hx, hy⟩, hinx, hiny⟩ := h
  obtain ⟨-, -, -, -, -, hcols, hrows⟩ := hshows.sizes
  have hy32 : (s.curY + 1) % 2 ^ 32 = s.curY + 1 := Nat.mod_eq_of_lt (by omega)
  have hx32 : (s.curX + 1) % 2 ^ 32 = s.curX + 1 := Nat.mod_eq_of_lt (by omega)
  rw [fbPutc, Grid.putc, hy32]
  by_cases hnl : c = 0x0A#8
  · rw [if_pos hnl, if_pos hnl, pure_bind]
    exact fbWrap_renders (hshows.congr rfl rfl rfl rfl) rfl (congrArg (· + 1) hy) (hy ▸ hiny)
  rw [if_neg hnl, if_neg hnl]
  by_cases hcr : c = 0x0D#8
  · have hR : { s with curX := 0 }.Renders { g with curX := 0 } :=
      ⟨hshows.congr rfl rfl rfl rfl, ⟨rfl, hy⟩, Nat.zero_lt_of_lt hinx, hiny⟩
    rw [if_pos hcr, if_pos hcr, pure_bind]
    exact fbWrap_stays hR
  rw [if_neg hcr, if_neg hcr]
  by_cases hbs : c = 0x08#8
  · -- the cursor of the grid stops at 0 by itself
    have hback : (if 0 < s.curX then { s with curX := s.curX - 1 } else s) = { s with curX := s.curX - 1 } := by
      split_ifs with hpos
      · rfl
      · rw [show s.curX - 1 = s.curX by omega]
    have hR : { s with curX := s.curX - 1 }.Renders { g with curX := g.curX - 1 } :=
      ⟨hshows.congr rfl rfl rfl rfl, ⟨congrArg (· - 1) hx, hy⟩, lt_of_le_of_lt (Nat.sub_le _ _) hinx, hiny⟩
    rw [if_pos hbs, if_pos hbs, hback, pure_bind]
    exact fbWrap_stays hR
  rw [if_neg hbs, if_neg hbs]
  refine (hshows.draw c hinx hiny).bind fun t hT => ?_
  obtain ⟨hrest, hdrawn⟩ := hT
  have htx : t.curX = s.curX := by rw [hrest]
  have hty : t.curY = s.curY := by rw [hrest]
  have htcols : t.cols = s.cols := by rw [hrest]
  have htrows : t.rows = s.rows := by rw [hrest]
  have htfb : t.fb = s.fb := by rw [hrest]
  have hput : t.Shows (g.put c).cells := by
    rw [hx, hy] at hdrawn
    exact hdrawn
  dsimp only
  rw [htx, hty, hx32, hy32, htcols, pure_bind]
  by_cases hwrap : s.curX + 1 < s.cols
  · have hR : { t with curX := s.curX + 1, curY := s.curY }.Renders { g.put c with curX := g.curX + 1 } :=
      ⟨hput.congr rfl rfl rfl rfl, ⟨congrArg (· + 1) hx, hy⟩, htcols.symm ▸ hwrap, htrows.symm ▸ hiny⟩
    rw [if_neg (Nat.not_le.2 hwrap), if_pos (hx ▸ hwrap), ← htcols, ← htrows, ← htfb]
    exact fbWrap_stays hR
  · rw [if_pos (Nat.not_lt.1 hwrap), if_neg (hx ▸ hwrap), ← htcols, ← htrows, ← htfb]
    exact @fbWrap_renders { t with curX := 0, curY := s.curY + 1 } (g.put c) (hput.congr rfl rfl rfl rfl) rfl
      (congrArg (· + 1) hy) (by rw [htrows]; exact hy ▸ hiny)

theorem consolePutc_renders (h : s.Renders g) (c : BitVec 8) :
    Succeeds (s.consolePutc c) fun t => t.Renders (g.putc s.cols s.rows c) ∧ t.cols = s.cols ∧ t.rows = s.rows ∧
    t.fb = s.fb :=
  @fbPutc_renders { s with serial := s.serial ++ if c = 0x0A#8 then [0x0D#8, c] else [c] } g
    ⟨h.shows.congr rfl rfl rfl rfl, h.cursor, h.inside⟩ c

/-- a cleared screen is the blank grid -/
theorem consoleInit_renders {fb : Framebuffer} (hok : fb.Ok) (pix : ℕ → BitVec 32) (serial : List (BitVec 8)) :
    Succeeds (consoleInit fb pix serial) fun t =>
      t.Renders .blank ∧ t.cols = fb.width / glyphW ∧ t.rows = fb.height / glyphH ∧ t.fb = fb := by
  refine (consoleInit_spec hok pix serial).mono (fun _ h => h) fun t hT => ?_
  have hfb : t.fb = fb := hT.fb
  have hcols : t.cols = fb.width / glyphW := by rw [hT.rest]
  have hrows : t.rows = fb.height / glyphH := by rw [hT.rest]
  have hx : t.curX = 0 := by rw [hT.rest]
  have hy : t.curY = 0 := by rw [hT.rest]
  have hpitch := hok.pitch
  have hwidth := hok.width
  have hheight := hok.height
  have hblank : ∀ x y, x < t.cols * glyphW → y < fb.height → t.pixel x y = bg := by
    intro x y hxc hyh
    have hlt : x < fb.width := by
      rw [hcols] at hxc
      exact lt_of_lt_of_le hxc (Nat.div_mul_le_self _ _)
    exact hT.hit x y (lt_of_lt_of_le hlt hpitch) ⟨hlt, hyh⟩
  refine ⟨⟨⟨hfb.symm ▸ hok, by rw [hfb]; exact ⟨hcols, hrows⟩, fun x hxc y hyr gx hgx gy hgy => ?_,
    fun x hxc y hyh _ => hblank x y hxc (hfb ▸ hyh)⟩, ⟨hx, hy⟩, ?_, ?_⟩, hcols, hrows, hfb⟩
  · refine hblank _ _ ?_ ?_
    · simp only [glyphW] at *
      omega
    · simp only [glyphH] at *
      omega
  · rw [hx, hcols]
    exact Nat.div_pos hwidth (by decide)
  · rw [hy, hrows]
    exact Nat.div_pos hheight (by decide)

end Renders

/-- the console after a text -/
def console (fb : Framebuffer) (pix : ℕ → BitVec 32) (serial text : List (BitVec 8)) : Except Stop Console := do
  let s ← consoleInit fb pix serial
  text.foldlM consolePutc s

/-- **A whole text**, one character after the other. -/
theorem console_meets {fb : Framebuffer} (hok : fb.Ok) (pix : ℕ → BitVec 32) (serial text : List (BitVec 8)) :
    Succeeds (console fb pix serial text) fun t =>
      t.Renders (text.foldl (Grid.putc (fb.width / glyphW) (fb.height / glyphH)) .blank) ∧
        t.cols = fb.width / glyphW ∧ t.rows = fb.height / glyphH ∧ t.fb = fb := by
  refine (consoleInit_renders hok pix serial).bind fun s hs => foldlM_meets (fun pre (t : Console) =>
    t.Renders (pre.foldl (Grid.putc (fb.width / glyphW) (fb.height / glyphH)) .blank) ∧
      t.cols = fb.width / glyphW ∧ t.rows = fb.height / glyphH ∧ t.fb = fb) hs ?_
  intro pre c post s hl hP
  obtain ⟨hR, hcols, hrows, hfb⟩ := hP
  refine (consolePutc_renders hR c).mono (fun _ h => h) fun t hT => ?_
  rw [hcols, hrows, hfb] at hT
  rw [foldl_append]
  exact hT

/-- **The console is a terminal.** For every framebuffer, whatever it holds, and every text, initialising the console
and writing the text never leaves the framebuffer, and the cursor and the pixels of all cells are those of the grid. The
text is any text, so this holds after each character of a longer one. -/
theorem console_renders {fb : Framebuffer} (hok : fb.Ok) (pix : ℕ → BitVec 32) (serial text : List (BitVec 8)) :
    ∃ t, console fb pix serial text = .ok t ∧ t.fb = fb ∧ t.cols = fb.width / glyphW ∧ t.rows = fb.height / glyphH ∧
      t.curX < t.cols ∧ t.curY < t.rows ∧
      let g := text.foldl (Grid.putc t.cols t.rows) .blank
      t.curX = g.curX ∧ t.curY = g.curY ∧
      ∀ x < t.cols, ∀ y < t.rows, ∀ gx < glyphW, ∀ gy < glyphH,
        t.pixel (x * glyphW + gx) (y * glyphH + gy) = cellPixel (g.cells x y) gx gy := by
  obtain ⟨t, ht, hR, hcols, hrows, hfb⟩ := (console_meets hok pix serial text).exists_ok fun _ h => h
  refine ⟨t, ht, hfb, hcols, hrows, hR.inside.1, hR.inside.2, ?_⟩
  rw [← hcols, ← hrows] at hR
  exact ⟨hR.cursor.1, hR.cursor.2, hR.shows.cell⟩

/-- a screen of three by two cells, a letter in its first row and one in its second -/
theorem console_renders_letter : ∃ t, console ⟨24, 40, 128⟩ (fun _ => 0) [] [0x41#8, 0x0A#8, 0x42#8] = .ok t ∧
    t.curX = 1 ∧ t.curY = 1 ∧ t.pixel 3 0 = fg ∧ t.pixel 0 0 = bg ∧ t.pixel 0 16 = fg := by
  have hok : Framebuffer.Ok ⟨24, 40, 128⟩ := ⟨by decide, by decide, by decide, by decide, by decide⟩
  obtain ⟨t, ht, -, hcols, hrows, -, -, hx, hy, hcell⟩ := console_renders hok (fun _ => 0) [] [0x41#8, 0x0A#8, 0x42#8]
  rw [hcols, hrows] at hx hy hcell
  exact ⟨t, ht, hx, hy, hcell 0 (by decide) 0 (by decide) 3 (by decide) 0 (by decide),
    hcell 0 (by decide) 0 (by decide) 0 (by decide) 0 (by decide),
    hcell 0 (by decide) 1 (by decide) 0 (by decide) 0 (by decide)⟩

end Console

end Uix
