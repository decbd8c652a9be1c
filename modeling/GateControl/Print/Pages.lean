import Mathlib.Logic.Equiv.Defs
import GateControl.Print.Raster

/-!
# Pages — a rendered page, put onto the sheet

A page is turned by a quarter, put onto a white sheet and, where it is printed on the back, turned
round or mirrored as the printer wants it.  Each of these moves whole pixels to distinct places, so
what they do is said pixel by pixel.
-/

namespace GateControl
namespace Print

open Library

/-- `SHEET_BACK` -/
inductive SheetBack where
  | normal
  | flipped
  | rotated
  | manualTumble
  deriving DecidableEq

/-- The positions of a page, line by line. -/
def positions (w h : Nat) : List (Nat × Nat) :=
  (List.range h).flatMap fun y => (List.range w).map fun x => (x, y)

/-- A quarter turn to the left: what is at the top comes to the left. -/
def rotate90 (img : Img) : Img :=
  let w := img.width
  let h := img.height
  let out := (List.range h).foldl (fun out y => (List.range w).foldl (fun out x =>
    let src := (y * w + x) * img.bpp
    let dst := ((w - 1 - x) * h + y) * img.bpp
    (List.range img.bpp).foldl (fun out c => out.set (dst + c) ((img.data[src + c]?).getD 0)) out)
    out) (List.replicate (w * h * img.bpp) 0)
  ⟨h, w, img.bpp, none, out⟩

/-- `x0` is at most `W`, as `layout` computes it. -/
def onSheet (img : Img) (W H x0 y0 : Nat) : Img :=
  if img.width = W ∧ img.height = H then img
  else
    let cw := min img.width (W - x0)
    -- the lines that end up on the sheet
    let out := (List.range (min img.height (H - y0))).foldl (fun out y =>
      writeBytes out (((y + y0) * W + x0) * img.bpp)
        (slice img.data (y * img.width * img.bpp) ((y * img.width + cw) * img.bpp)))
      (List.replicate (W * H * img.bpp) 0xff)
    ⟨W, H, img.bpp, none, out⟩

def backSide (img : Img) (back : SheetBack) : Img :=
  if back ≠ .rotated ∧ back ≠ .flipped then img
  else
    let w := img.width
    let h := img.height
    let row := w * img.bpp
    let out := (List.range h).foldl (fun out y =>
      let src := slice img.data (y * row) ((y + 1) * row)
      let dst := (h - 1 - y) * row
      if back = .flipped then writeBytes out dst src
      else (List.range w).foldl (fun out x =>
        let s := x * img.bpp
        let d := dst + (w - 1 - x) * img.bpp
        (List.range img.bpp).foldl (fun out c => out.set (d + c) ((src[s + c]?).getD 0)) out) out)
      (List.replicate img.data.length 0)
    { img with data := out }

/-! ## Pixels -/

namespace Img

/-- A page as the renderer leaves it, in grey or in RGB. -/
structure Rendered (img : Img) : Prop where
  bpp : img.bpp = 1 ∨ img.bpp = 3
  row : img.row = none
  sized : img.data.length = img.width * img.height * img.bpp

instance (img : Img) : Decidable img.Rendered :=
  decidable_of_iff (_ ∧ _ ∧ _) ⟨fun h => ⟨h.1, h.2.1, h.2.2⟩, fun h => ⟨h.bpp, h.row, h.sized⟩⟩

/-- The pixel in the column `x` of the line `y`. -/
def pixelAt (img : Img) (x y : Nat) : Bytes := cell img.data img.bpp (y * img.width + x)

end Img

section Positions

variable {w h : Nat}

theorem mem_positions {p : Nat × Nat} : p ∈ positions w h ↔ p.1 < w ∧ p.2 < h := by
  constructor
  · intro hp
    obtain ⟨y, hy, hp⟩ := List.mem_flatMap.1 hp
    obtain ⟨x, hx, rfl⟩ := List.mem_map.1 hp
    exact ⟨List.mem_range.1 hx, List.mem_range.1 hy⟩
  · intro hp
    exact List.mem_flatMap.2
      ⟨p.2, List.mem_range.2 hp.2, List.mem_map.2 ⟨p.1, List.mem_range.2 hp.1, rfl⟩⟩

/-- Two nested loops over the lines and the columns. -/
theorem foldl_positions {β : Type*} (f : β → Nat → Nat → β) (b : β) :
    (List.range h).foldl (fun b y => (List.range w).foldl (fun b x => f b x y) b) b =
      (positions w h).foldl (fun b p => f b p.1 p.2) b := by
  simp only [positions, List.foldl_flatMap, List.foldl_map]

/-- A position as a number. -/
theorem index_lt {x y : Nat} (hx : x < w) (hy : y < h) : y * w + x < w * h := by
  have hle : (y + 1) * w ≤ h * w := Nat.mul_le_mul_right w hy
  rw [Nat.succ_mul, Nat.mul_comm h] at hle
  omega

theorem index_inj {x y x' y' : Nat} (hx : x < w) (hx' : x' < w) (heq : y * w + x = y' * w + x') :
    x = x' ∧ y = y' := by
  have hw : 0 < w := by omega
  have hdiv := congrArg (· / w) heq
  have hmod := congrArg (· % w) heq
  simp only [Nat.mul_comm _ w, Nat.mul_add_div hw, Nat.mul_add_mod, Nat.div_eq_of_lt hx,
    Nat.div_eq_of_lt hx', Nat.mod_eq_of_lt hx, Nat.mod_eq_of_lt hx'] at hdiv hmod
  exact ⟨hmod, by simpa using hdiv⟩

/-- The loop that copies the bytes of a pixel. -/
theorem foldl_set {src : Bytes} {size s n : Nat} (hlen : src.length = n * size) (hs : s < n)
    (out : Bytes) (d : Nat) :
    (List.range size).foldl (fun out c => out.set (d + c) ((src[s * size + c]?).getD 0)) out =
      writeBytes out d (cell src size s) := by
  have hbytes : (List.range size).map (fun c => (src[s * size + c]?).getD 0) = cell src size s := by
    apply List.ext_getElem?
    intro c
    by_cases hc : c < size
    · have hin : s * size + c < src.length := by
        have hle : (s + 1) * size ≤ n * size := Nat.mul_le_mul_right size hs
        rw [Nat.succ_mul] at hle
        omega
      rw [getElem?_cell hc, List.getElem?_map, List.getElem?_range hc, Option.map_some,
        List.getElem?_eq_getElem hin, Option.getD_some]
    · rw [List.getElem?_eq_none (by simpa using hc),
        List.getElem?_eq_none (by rw [length_cell hlen hs]; omega)]
  rw [← hbytes]
  clear hbytes
  -- both sides write the bytes one after the other
  generalize hf : (fun c => (src[s * size + c]?).getD 0) = f
  have hstep : ∀ (k : Nat) (out : Bytes), (List.range k).foldl (fun out c => out.set (d + c) (f c)) out =
      writeBytes out d ((List.range k).map f) := by
    intro k
    induction k with
    | zero =>
        intro out
        rfl
    | succ k ih =>
        intro out
        rw [List.range_succ, List.foldl_append, ih, List.map_append, writeBytes_append,
          List.length_map, List.length_range]
        rfl
  rw [← hf]
  subst hf
  exact hstep size out

end Positions

namespace Img

variable {img a b : Img}

/-- A page is determined by its pixels. -/
theorem ext_pixelAt (ha : a.Rendered) (hb : b.Rendered) (hw : a.width = b.width)
    (hh : a.height = b.height) (hbpp : a.bpp = b.bpp)
    (h : ∀ x < a.width, ∀ y < a.height, a.pixelAt x y = b.pixelAt x y) : a = b := by
  have hdata : a.data = b.data := by
    refine ext_cell ha.sized (by rw [hb.sized, hw, hh, hbpp]) ?_
    intro i hi
    have hpos : 0 < a.width := Nat.pos_of_ne_zero fun h0 => by simp [h0] at hi
    have hpixel := h (i % a.width) (Nat.mod_lt i hpos) (i / a.width) (Nat.div_lt_of_lt_mul hi)
    simp only [pixelAt, ← hw, ← hbpp, Nat.mul_comm _ a.width, Nat.div_add_mod] at hpixel
    exact hpixel
  have hrow : a.row = b.row := ha.row.trans hb.row.symm
  cases a
  cases b
  simp_all

/-- A loop over all pixels that moves each to another place, on a canvas of `W` × `H` pixels. -/
def moved (img : Img) (W : Nat) (move : Nat × Nat → Nat × Nat) (ps : List (Nat × Nat))
    (canvas : Bytes) : Bytes :=
  scatter img.bpp (fun p => (move p).2 * W + (move p).1) (fun p => img.pixelAt p.1 p.2) ps canvas

section Moved

variable {W H : Nat} {ps : List (Nat × Nat)} {canvas : Bytes} (move : Nat × Nat → Nat × Nat)

theorem Rendered.length_pixelAt (h : img.Rendered) {x y : Nat} (hx : x < img.width)
    (hy : y < img.height) : (img.pixelAt x y).length = img.bpp :=
  length_cell h.sized (index_lt hx hy)

/-- Where the pixels of the page come to. -/
theorem cell_moved (h : img.Rendered) (hcanvas : canvas.length = W * H * img.bpp)
    (hps : ∀ p ∈ ps, p.1 < img.width ∧ p.2 < img.height)
    (hmove : ∀ p ∈ ps, (move p).1 < W ∧ (move p).2 < H)
    (hinj : ∀ p ∈ ps, ∀ q ∈ ps, move p = move q → p = q) {p : Nat × Nat} (hp : p ∈ ps) :
    cell (img.moved W move ps canvas) img.bpp ((move p).2 * W + (move p).1) =
      img.pixelAt p.1 p.2 := by
  refine cell_scatter (fun p => (move p).2 * W + (move p).1) hcanvas ?_ ?_ hp
    (index_lt (hmove p hp).1 (hmove p hp).2)
  · intro q hq
    exact h.length_pixelAt (hps q hq).1 (hps q hq).2
  · intro q hq r hr heq
    obtain ⟨h1, h2⟩ := index_inj (hmove q hq).1 (hmove r hr).1 heq
    exact hinj q hq r hr (Prod.ext h1 h2)

/-- What no pixel comes to stays as it is on the canvas. -/
theorem cell_moved_of_not_mem (h : img.Rendered)
    (hps : ∀ p ∈ ps, p.1 < img.width ∧ p.2 < img.height) (hmove : ∀ p ∈ ps, (move p).1 < W)
    {i j : Nat} (hi : i < W) (hout : ∀ p ∈ ps, move p ≠ (i, j)) :
    cell (img.moved W move ps canvas) img.bpp (j * W + i) = cell canvas img.bpp (j * W + i) := by
  refine cell_scatter_of_not_mem (fun p => (move p).2 * W + (move p).1) ?_ ?_
  · intro q hq
    exact h.length_pixelAt (hps q hq).1 (hps q hq).2
  · intro q hq heq
    obtain ⟨h1, h2⟩ := index_inj (hmove q hq) hi heq
    exact hout q hq (Prod.ext h1 h2)

end Moved

end Img

/-! ## A quarter turn -/

section Turns

variable {img : Img}

theorem rotate90_data (h : img.Rendered) :
    (rotate90 img).data = img.moved img.height (fun p => (p.2, img.width - 1 - p.1))
      (positions img.width img.height)
      (List.replicate (img.width * img.height * img.bpp) 0) := by
  rw [rotate90]
  simp only
  rw [foldl_positions, Img.moved, scatter]
  refine List.foldl_ext _ _ _ ?_
  intro out p hp
  obtain ⟨hx, hy⟩ := mem_positions.1 hp
  exact foldl_set h.sized (index_lt hx hy) out _

theorem Img.Rendered.rotate90 (h : img.Rendered) : (Print.rotate90 img).Rendered := by
  refine ⟨h.bpp, rfl, ?_⟩
  rw [rotate90_data h, Img.moved, length_scatter, List.length_replicate]
  exact congrArg (· * img.bpp) (Nat.mul_comm _ _)

/-- The pixel at `(x, y)` comes to `(y, width - 1 - x)`. -/
theorem pixelAt_rotate90 (h : img.Rendered) {x y : Nat} (hx : x < img.width)
    (hy : y < img.height) :
    (rotate90 img).pixelAt y (img.width - 1 - x) = img.pixelAt x y := by
  rw [Img.pixelAt, rotate90_data h]
  refine Img.cell_moved (W := img.height) (H := img.width) (fun p => (p.2, img.width - 1 - p.1))
    (p := (x, y)) h ?_ ?_ ?_ ?_ (mem_positions.2 ⟨hx, hy⟩)
  · rw [List.length_replicate, Nat.mul_comm img.width]
  · intro p hp
    exact mem_positions.1 hp
  · intro p hp
    have hp' := mem_positions.1 hp
    exact ⟨hp'.2, by simp only; omega⟩
  · intro p hp q hq heq
    have hp' := mem_positions.1 hp
    have hq' := mem_positions.1 hq
    obtain ⟨h1, h2⟩ := Prod.mk.injEq .. ▸ heq
    exact Prod.ext (by omega) h1

end Turns

/-! ## The back of a sheet -/

section Backs

variable {img : Img}

/-- Where a pixel comes to on the back. -/
def onBack (w h : Nat) (back : SheetBack) (p : Nat × Nat) : Nat × Nat :=
  match back with
  | .rotated => (w - 1 - p.1, h - 1 - p.2)
  | .flipped => (p.1, h - 1 - p.2)
  | _ => p

/-- Both ways to turn the page are one loop over its pixels. -/
theorem backSide_data (h : img.Rendered) {back : SheetBack}
    (hback : back = .rotated ∨ back = .flipped) :
    (backSide img back).data = img.moved img.width (onBack img.width img.height back)
      (positions img.width img.height) (List.replicate img.data.length 0) := by
  have hrow : ∀ y, y * (img.width * img.bpp) = y * img.width * img.bpp :=
    fun y => (Nat.mul_assoc y _ _).symm
  rw [Img.moved, scatter, ← foldl_positions
    (fun out x y => writeBytes out (((onBack img.width img.height back (x, y)).2 * img.width +
      (onBack img.width img.height back (x, y)).1) * img.bpp) (img.pixelAt x y)), backSide]
  rcases hback with rfl | rfl
  · rw [if_neg (by simp)]
    simp only [reduceCtorEq, if_false]
    refine List.foldl_ext _ _ _ ?_
    intro out y hy
    refine List.foldl_ext _ _ _ ?_
    intro out x hx
    have hy' := List.mem_range.1 hy
    have hx' := List.mem_range.1 hx
    -- the line is a range of cells, and the pixel is one of them
    have hline : (slice img.data (y * (img.width * img.bpp))
        ((y + 1) * (img.width * img.bpp))).length = img.width * img.bpp := by
      have hle : (y + 1) * (img.width * img.bpp) ≤ img.data.length := by
        rw [h.sized, hrow, Nat.mul_comm img.width img.height]
        exact Nat.mul_le_mul_right _ (Nat.mul_le_mul_right _ hy')
      rw [length_slice hle, Nat.succ_mul, Nat.add_sub_cancel_left]
    have hpixel : cell (slice img.data (y * (img.width * img.bpp))
        ((y + 1) * (img.width * img.bpp))) img.bpp x = img.pixelAt x y := by
      rw [Img.pixelAt, cell_eq_iff hline h.sized hx' (index_lt hx' hy')]
      intro c hc
      have hin : (x + 1) * img.bpp ≤ img.width * img.bpp := Nat.mul_le_mul_right _ hx'
      rw [Nat.succ_mul] at hin
      rw [getElem?_slice _ (by rw [Nat.succ_mul]; omega), hrow, Nat.add_mul, Nat.add_assoc]
    rw [foldl_set hline hx', hpixel, hrow, ← Nat.add_mul]
    rfl
  · rw [if_neg (by simp)]
    simp only [if_true]
    refine List.foldl_ext _ _ _ ?_
    intro out y hy
    -- a whole line is copied, which is copying its pixels
    have hcells := writeBytes_cellRange out h.sized ((img.height - 1 - y) * img.width)
      (s := y * img.width) (k := img.width)
      (by
        have hle : (y + 1) * img.width ≤ img.height * img.width :=
          Nat.mul_le_mul_right _ (List.mem_range.1 hy)
        rw [Nat.succ_mul, Nat.mul_comm img.height] at hle
        exact hle)
    rw [hrow, hrow, hrow, Nat.succ_mul]
    exact hcells

theorem onBack_lt {w h : Nat} (back : SheetBack) {p : Nat × Nat} (hp : p.1 < w ∧ p.2 < h) :
    (onBack w h back p).1 < w ∧ (onBack w h back p).2 < h := by
  cases back <;> simp only [onBack] <;> omega

/-- The other side of the other side is the side itself. -/
theorem onBack_onBack {w h : Nat} (back : SheetBack) {p : Nat × Nat} (hp : p.1 < w ∧ p.2 < h) :
    onBack w h back (onBack w h back p) = p := by
  cases back <;> simp only [onBack] <;> ext <;> simp only <;> omega

theorem backSide_of_other {back : SheetBack} (hback : ¬ (back = .rotated ∨ back = .flipped)) :
    backSide img back = img := by
  rw [backSide, if_pos (not_or.1 hback)]

theorem backSide_eq {back : SheetBack} (hback : back = .rotated ∨ back = .flipped) :
    backSide img back = { img with data := (backSide img back).data } := by
  rw [backSide, if_neg (fun h => hback.elim h.1 h.2)]

theorem Img.Rendered.backSide (h : img.Rendered) (back : SheetBack) :
    (Print.backSide img back).Rendered := by
  by_cases hback : back = .rotated ∨ back = .flipped
  · rw [backSide_eq hback]
    refine ⟨h.bpp, h.row, ?_⟩
    simp only
    rw [backSide_data h hback, Img.moved, length_scatter, List.length_replicate, h.sized]
  · rwa [backSide_of_other hback]

theorem backSide_size (img : Img) (back : SheetBack) :
    (backSide img back).width = img.width ∧ (backSide img back).height = img.height ∧
      (backSide img back).bpp = img.bpp := by
  rw [backSide]
  split <;> exact ⟨rfl, rfl, rfl⟩

theorem pixelAt_backSide (h : img.Rendered) {back : SheetBack}
    (hback : back = .rotated ∨ back = .flipped) {p : Nat × Nat}
    (hp : p.1 < img.width ∧ p.2 < img.height) :
    (backSide img back).pixelAt (onBack img.width img.height back p).1
      (onBack img.width img.height back p).2 = img.pixelAt p.1 p.2 := by
  obtain ⟨hw, -, hbpp⟩ := backSide_size img back
  rw [Img.pixelAt, hw, hbpp, backSide_data h hback]
  refine Img.cell_moved (H := img.height) (onBack img.width img.height back) h ?_ ?_ ?_ ?_
    (mem_positions.2 hp)
  · rw [List.length_replicate, h.sized]
  · intro q hq
    exact mem_positions.1 hq
  · intro q hq
    exact onBack_lt back (mem_positions.1 hq)
  · intro q hq r hr heq
    rw [← onBack_onBack back (mem_positions.1 hq), heq, onBack_onBack back (mem_positions.1 hr)]

end Backs

/-! ## On the sheet -/

section Sheets

variable {img : Img} {W H x0 y0 : Nat}

theorem onSheet_of_same (hsize : img.width = W ∧ img.height = H) :
    onSheet img W H x0 y0 = img := if_pos hsize

/-- The lines are copied pixel by pixel. -/
theorem onSheet_data (h : img.Rendered) (hW : x0 + img.width ≤ W) (hH : y0 + img.height ≤ H)
    (hsize : ¬ (img.width = W ∧ img.height = H)) :
    onSheet img W H x0 y0 = ⟨W, H, img.bpp, none, img.moved W (fun p => (p.1 + x0, p.2 + y0))
      (positions img.width img.height) (List.replicate (W * H * img.bpp) 0xff)⟩ := by
  have hcw : min img.width (W - x0) = img.width := Nat.min_eq_left (by omega)
  have hch : min img.height (H - y0) = img.height := Nat.min_eq_left (by omega)
  rw [onSheet, if_neg hsize]
  simp only [hcw, hch]
  rw [Img.moved, scatter, ← foldl_positions
    (fun out x y => writeBytes out (((y + y0) * W + (x + x0)) * img.bpp) (img.pixelAt x y))]
  congr 1
  refine List.foldl_ext _ _ _ ?_
  intro out y hy
  have hcells := writeBytes_cellRange out h.sized ((y + y0) * W + x0) (s := y * img.width)
    (k := img.width)
    (by
      have hle : (y + 1) * img.width ≤ img.height * img.width :=
        Nat.mul_le_mul_right _ (List.mem_range.1 hy)
      rw [Nat.succ_mul, Nat.mul_comm img.height] at hle
      exact hle)
  have hplace : ∀ x, (y + y0) * W + x0 + x = (y + y0) * W + (x + x0) := by
    intro x
    omega
  simp only [hplace] at hcells
  exact hcells

theorem Img.Rendered.onSheet (h : img.Rendered) (hW : x0 + img.width ≤ W)
    (hH : y0 + img.height ≤ H) : (Print.onSheet img W H x0 y0).Rendered := by
  by_cases hsize : img.width = W ∧ img.height = H
  · rwa [onSheet_of_same hsize]
  · rw [onSheet_data h hW hH hsize]
    refine ⟨h.bpp, rfl, ?_⟩
    simp only
    rw [Img.moved, length_scatter, List.length_replicate]

theorem onSheet_size (img : Img) (W H x0 y0 : Nat) :
    (onSheet img W H x0 y0).width = W ∧ (onSheet img W H x0 y0).height = H := by
  rw [onSheet]
  split
  · next hsize =>
      exact hsize
  · exact ⟨rfl, rfl⟩

theorem cell_white {size n k : Nat} (hk : k < n) :
    cell (List.replicate (n * size) (0xff : UInt8)) size k = List.replicate size 0xff := by
  have hlen : (List.replicate (n * size) (0xff : UInt8)).length = n * size := by simp
  apply List.eq_replicate_iff.2
  refine ⟨length_cell hlen hk, ?_⟩
  intro b hb
  have hmem : b ∈ List.replicate (n * size) (0xff : UInt8) :=
    List.mem_of_mem_take (List.mem_of_mem_drop hb)
  exact (List.mem_replicate.1 hmem).2

/-- The page in its place, and white around it. -/
theorem pixelAt_onSheet (h : img.Rendered) (hW : x0 + img.width ≤ W) (hH : y0 + img.height ≤ H)
    {i j : Nat} (hi : i < W) (hj : j < H) :
    (onSheet img W H x0 y0).pixelAt i j =
      if (x0 ≤ i ∧ i < x0 + img.width) ∧ y0 ≤ j ∧ j < y0 + img.height then
        img.pixelAt (i - x0) (j - y0)
      else List.replicate img.bpp 0xff := by
  by_cases hsize : img.width = W ∧ img.height = H
  · -- the page fills the sheet
    obtain rfl : x0 = 0 := by omega
    obtain rfl : y0 = 0 := by omega
    rw [onSheet_of_same hsize, if_pos ⟨⟨Nat.zero_le i, by omega⟩, Nat.zero_le j, by omega⟩]
    rfl
  · rw [onSheet_data h hW hH hsize, Img.pixelAt]
    simp only
    split
    · next hin =>
        have hcell := Img.cell_moved (W := W) (H := H) (fun p => (p.1 + x0, p.2 + y0))
          (p := (i - x0, j - y0)) h (List.length_replicate (n := W * H * img.bpp) (a := 0xff))
          (fun q hq => mem_positions.1 hq)
          (fun q hq => by have := mem_positions.1 hq; simp only; omega)
          (fun q _ r _ heq => by
            obtain ⟨h1, h2⟩ := Prod.mk.inj heq
            exact Prod.ext (by omega) (by omega))
          (mem_positions.2 (by simp only; omega))
        simp only [Nat.sub_add_cancel hin.1.1, Nat.sub_add_cancel hin.2.1] at hcell
        exact hcell
    · next hout =>
        rw [Img.cell_moved_of_not_mem _ h (fun q hq => mem_positions.1 hq) ?_ hi ?_,
          cell_white (index_lt hi hj)]
        · intro q hq
          have := mem_positions.1 hq
          simp only
          omega
        · intro q hq heq
          have := mem_positions.1 hq
          obtain ⟨h1, h2⟩ := Prod.mk.inj heq
          exact hout (by omega)

end Sheets

/-! ## Nothing is lost -/

/-- Where a quarter turn moves the pixels of a page of `w` × `h`. -/
def quarterTurn (w h : Nat) : Fin w × Fin h ≃ Fin h × Fin w where
  toFun p := (p.2, p.1.rev)
  invFun q := (q.2.rev, q.1)
  left_inv p := by simp
  right_inv q := by simp

section Transforms

variable {img : Img}

theorem pixelAt_quarterTurn (h : img.Rendered) (p : Fin img.width × Fin img.height) :
    (rotate90 img).pixelAt (quarterTurn _ _ p).1 (quarterTurn _ _ p).2 = img.pixelAt p.1 p.2 := by
  have hpixel := pixelAt_rotate90 h p.1.isLt p.2.isLt
  rwa [show img.width - 1 - p.1.val = p.1.rev.val by rw [Fin.val_rev]; omega] at hpixel

/-- Two quarter turns are half a turn. -/
theorem rotate90_rotate90 (h : img.Rendered) : rotate90 (rotate90 img) = backSide img .rotated := by
  have hback := h.backSide .rotated
  obtain ⟨hw, hh, hbpp⟩ := backSide_size img .rotated
  refine Img.ext_pixelAt h.rotate90.rotate90 hback hw.symm hh.symm hbpp.symm ?_
  intro x hx y hy
  have hx' : x < img.width := hx
  have hy' : y < img.height := hy
  -- the pixel comes from the opposite corner, by either way
  have hp : img.width - 1 - x < img.width ∧ img.height - 1 - y < img.height := by omega
  have hfirst := pixelAt_rotate90 h hp.1 hp.2
  have hsecond := pixelAt_rotate90 h.rotate90 (x := img.height - 1 - y)
    (y := img.width - 1 - (img.width - 1 - x)) (show _ < img.height by omega)
    (show _ < img.width by omega)
  have hround := pixelAt_backSide h (Or.inl rfl) (p := (img.width - 1 - x, img.height - 1 - y)) hp
  simp only [onBack] at hround
  rw [show (rotate90 img).width = img.height from rfl] at hsecond
  rw [show img.width - 1 - (img.width - 1 - x) = x by omega] at hfirst hsecond hround
  rw [show img.height - 1 - (img.height - 1 - y) = y by omega] at hsecond hround
  rw [hsecond, hfirst, hround]

theorem backSide_backSide (h : img.Rendered) (back : SheetBack) :
    backSide (backSide img back) back = img := by
  by_cases hback : back = .rotated ∨ back = .flipped
  · have hone := h.backSide back
    obtain ⟨hw, hh, hbpp⟩ := backSide_size img back
    obtain ⟨hw', hh', hbpp'⟩ := backSide_size (backSide img back) back
    refine Img.ext_pixelAt (hone.backSide back) h (hw'.trans hw) (hh'.trans hh)
      (hbpp'.trans hbpp) ?_
    intro x hx y hy
    rw [hw', hw] at hx
    rw [hh', hh] at hy
    -- the position whose other side is `(x, y)`
    have hp := onBack_lt back (p := (x, y)) ⟨hx, hy⟩
    have hfirst := pixelAt_backSide h hback hp
    have hsecond := pixelAt_backSide hone hback (p := onBack img.width img.height back (x, y))
      ⟨hw ▸ hp.1, hh ▸ hp.2⟩
    rw [onBack_onBack back ⟨hx, hy⟩] at hfirst
    rw [hw, hh, onBack_onBack back ⟨hx, hy⟩] at hsecond
    have hthird := pixelAt_backSide h hback (p := (x, y)) ⟨hx, hy⟩
    exact hsecond.trans hthird
  · rw [backSide_of_other hback, backSide_of_other hback]

/-- What becomes of the pixels of a page that is turned, put onto a sheet or printed on the back. -/
theorem pages_keep_pixels (img : Img) (h : img.Rendered) :
    ((rotate90 img).width = img.height ∧ (rotate90 img).height = img.width ∧
      ∀ p, (rotate90 img).pixelAt (quarterTurn img.width img.height p).1
        (quarterTurn img.width img.height p).2 = img.pixelAt p.1 p.2) ∧
    rotate90 (rotate90 (rotate90 (rotate90 img))) = img ∧
    rotate90 (rotate90 img) = backSide img .rotated ∧
    backSide (backSide img .rotated) .rotated = img ∧
    backSide (backSide img .flipped) .flipped = img ∧
    ∀ W H x y, x + img.width ≤ W → y + img.height ≤ H →
      (onSheet img W H x y).width = W ∧ (onSheet img W H x y).height = H ∧
      ∀ i < W, ∀ j < H, (onSheet img W H x y).pixelAt i j =
        if (x ≤ i ∧ i < x + img.width) ∧ y ≤ j ∧ j < y + img.height then
          img.pixelAt (i - x) (j - y)
        else List.replicate img.bpp 0xff := by
  refine ⟨⟨rfl, rfl, pixelAt_quarterTurn h⟩, ?_, rotate90_rotate90 h, backSide_backSide h _,
    backSide_backSide h _, ?_⟩
  · -- half a turn, twice
    rw [rotate90_rotate90 h.rotate90.rotate90, rotate90_rotate90 h]
    exact backSide_backSide h .rotated
  · intro W H x y hW hH
    obtain ⟨hwidth, hheight⟩ := onSheet_size img W H x y
    exact ⟨hwidth, hheight, fun i hi j hj => pixelAt_onSheet h hW hH hi hj⟩

/-- Three grey pixels in a line. -/
def greyLine : Img := ⟨3, 1, 1, none, [10, 20, 30]⟩

theorem pages_keep_pixels_greyLine :
    rotate90 (rotate90 greyLine) = backSide greyLine .rotated ∧
      (onSheet greyLine 5 3 1 1).pixelAt 2 1 = [20] := by
  have hall := pages_keep_pixels greyLine (by decide)
  refine ⟨hall.2.2.1, ?_⟩
  rw [(hall.2.2.2.2.2 5 3 1 1 (by decide) (by decide)).2.2 2 (by decide) 1 (by decide)]
  rfl

end Transforms

/-! ## The pixels of the printer -/

inductive RasterType where
  | srgb8
  | sgray8
  | black1
  deriving DecidableEq

/-- `0x80 >> (x & 7)` -/
def blackBit (x : Nat) : UInt8 := 0x80 >>> UInt8.ofNat (x % 8)

/-- Grey as RGB, or as one bit for each pixel, which is set where the page is dark. -/
def toType (img : Img) (type : RasterType) : Img :=
  if type = .srgb8 ∧ img.bpp = 1 then
    let out := (List.range img.data.length).foldl (fun out i =>
      let v := (img.data[i]?).getD 0
      ((out.set (3 * i) v).set (3 * i + 1) v).set (3 * i + 2) v)
      (List.replicate (img.width * img.height * 3) 0)
    { img with bpp := 3, data := out }
  else if type = .black1 then
    let row := (img.width + 7) / 8
    let out := (List.range img.height).foldl (fun out y => (List.range img.width).foldl (fun out x =>
      if (img.data[y * img.width + x]?).any (· < 128) then
        out.modify (y * row + x / 8) (· ||| blackBit x)
      else out) out) (List.replicate (row * img.height) 0)
    { img with bpp := 0, row := some row, data := out }
  else img

theorem length_foldl {α β : Type*} {f : List β → α → List β}
    (hf : ∀ out a, (f out a).length = out.length) (as : List α) (out : List β) :
    (as.foldl f out).length = out.length := by
  induction as generalizing out with
  | nil =>
      rfl
  | cons a as ih =>
      rw [List.foldl_cons, ih, hf]

/-- What is compressed has whole lines, whatever kind of pixels the printer wants. -/
theorem complete_toType {img : Img} (h : img.Rendered) (type : RasterType) :
    (toType img type).Complete := by
  rw [toType]
  split
  · refine ⟨Or.inl ⟨h.row, Or.inr rfl⟩, ?_⟩
    simp only [Img.rowBytes, h.row]
    rw [length_foldl (fun out i => by simp only [List.length_set]), List.length_replicate,
      Nat.mul_comm img.width, Nat.mul_assoc]
  · split
    · refine ⟨Or.inr ⟨rfl, rfl⟩, ?_⟩
      simp only [Img.rowBytes]
      rw [length_foldl, List.length_replicate, Nat.mul_comm]
      · split
        · next hzero =>
            rw [hzero, Nat.mul_zero, Nat.mul_zero, Nat.mul_zero]
        · rfl
      · intro out y
        refine length_foldl ?_ _ _
        intro out x
        split
        · rw [List.length_modify]
        · rfl
    · refine ⟨Or.inl ⟨h.row, h.bpp⟩, ?_⟩
      rw [Img.rowBytes, h.row, h.sized, Nat.mul_comm img.width, Nat.mul_assoc]

/-- A page on its way to the printer. -/
def printed (img : Img) (W H x y : Nat) (back : SheetBack) (type : RasterType) : Img :=
  toType (backSide (onSheet img W H x y) back) type

/-- Front or back, it is compressed without loss. -/
theorem unpack_printed {img : Img} (h : img.Rendered) {W H x y : Nat} (hW : x + img.width ≤ W)
    (hH : y + img.height ≤ H) (back : SheetBack) (type : RasterType) :
    ∃ packed, packPage (printed img W H x y back type) = some packed ∧
      unpackPage (printed img W H x y back type).unit
        ((printed img W H x y back type).rowBytes / (printed img W H x y back type).unit)
        (printed img W H x y back type).height packed =
          some ((printed img W H x y back type).lines, []) := by
  have hcomplete : (printed img W H x y back type).Complete :=
    complete_toType ((h.onSheet hW hH).backSide back) type
  obtain ⟨packed, hpack, hunpack⟩ := packPageFrom_spec hcomplete (Nat.zero_le _)
  refine ⟨packed, hpack, ?_⟩
  simpa [Img.lines] using hunpack []

end Print
end GateControl
