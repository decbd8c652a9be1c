import GateControl.Library.Cells

/-!
# Raster — the lines of a page, compressed

PWG and Apple raster compress a line in the same way: a control byte, and behind it one pixel that
is repeated or a few pixels that are copied.  Equal lines that follow each other are written once,
behind a count.  What `packLine` and `packPage` write is read back to the same lines, and the buffer
that `packLine` reserves for a line is never too small.
-/

namespace GateControl
namespace Print

open Library

/-- A rendered page.  `bpp` is the number of bytes of a pixel, 0 for one bit; only then the length
of a row is given. -/
structure Img where
  width : Nat
  height : Nat
  bpp : Nat
  row : Option Nat
  data : Bytes
  deriving DecidableEq

/-! ## The buffer -/

/-- A buffer that is filled from the front: what stands in it up to `o`. -/
structure Out where
  capacity : Nat
  bytes : Bytes
  fits : bytes.length ≤ capacity

namespace Out

/-- `Buffer.allocUnsafe(capacity)` -/
def alloc (capacity : Nat) : Out := ⟨capacity, [], Nat.zero_le _⟩

/-- Write behind what there is; `none` where that would be past the end of the buffer. -/
def put (out : Out) (bs : Bytes) : Option Out :=
  if h : (out.bytes ++ bs).length ≤ out.capacity then some ⟨out.capacity, out.bytes ++ bs, h⟩
  else none

theorem put_of_fits (out : Out) (bs : Bytes) (h : out.bytes.length + bs.length ≤ out.capacity) :
    ∃ out', out.put bs = some out' ∧ out'.bytes = out.bytes ++ bs ∧
      out'.capacity = out.capacity := by
  have hfits : (out.bytes ++ bs).length ≤ out.capacity := by
    rwa [List.length_append]
  exact ⟨⟨out.capacity, out.bytes ++ bs, hfits⟩, dif_pos hfits, rfl, rfl⟩

end Out

/-! ## Compression -/

/-- The pixel at `a` is the pixel at `b`. -/
def same (row : Bytes) (unit a b : Nat) : Bool :=
  if unit = 1 then row[a]? == row[b]?
  else (List.range unit).all fun c => row[a * unit + c]? == row[b * unit + c]?

/-- `while (i + run < n && run < 128 && same(i, i + run)) run++`; the first argument is what is
missing to 128. -/
def runFrom (line : Bytes) (unit n i : Nat) : Nat → Nat → Nat
  | 0, run => run
  | left + 1, run =>
      if i + run < n ∧ same line unit i (i + run) then runFrom line unit n i left (run + 1)
      else run

/-- `while (i < n && i - start < 128 && !(i + 1 < n && same(i, i + 1))) i++`; the first argument is
what is missing to `start + 128`. -/
def literalFrom (line : Bytes) (unit n : Nat) : Nat → Nat → Nat
  | 0, i => i
  | left + 1, i =>
      if i < n ∧ ¬ (i + 1 < n ∧ same line unit i (i + 1)) then literalFrom line unit n left (i + 1)
      else i

theorem le_runFrom (line : Bytes) (unit n i left run : Nat) :
    run ≤ runFrom line unit n i left run := by
  induction left generalizing run with
  | zero =>
      exact Nat.le_refl run
  | succ left ih =>
      rw [runFrom]
      split
      · exact Nat.le_of_succ_le (ih (run + 1))
      · exact Nat.le_refl run

theorem le_literalFrom (line : Bytes) (unit n left i : Nat) :
    i ≤ literalFrom line unit n left i := by
  induction left generalizing i with
  | zero =>
      exact Nat.le_refl i
  | succ left ih =>
      rw [literalFrom]
      split
      · exact Nat.le_of_succ_le (ih (i + 1))
      · exact Nat.le_refl i

/-- The loop of `packLine` from the pixel `i` on. -/
def packFrom (line : Bytes) (unit n i : Nat) (out : Out) : Option Out :=
  if i < n then
    let run := runFrom line unit n i 127 1
    if 1 < run ∨ n ≤ i + 1 then do
      -- a run, or the last pixel alone
      let out ← out.put [UInt8.ofNat (run - 1)]
      let out ← out.put (slice line (i * unit) ((i + 1) * unit))
      packFrom line unit n (i + run) out
    else do
      -- a literal, which begins at `i`
      let stop := literalFrom line unit n 127 (i + 1)
      let count := stop - i
      let out ← out.put [UInt8.ofNat (if count = 1 then 0 else 257 - count)]
      let out ← out.put (slice line (i * unit) (stop * unit))
      packFrom line unit n stop out
  else some out
termination_by n - i
decreasing_by
  · have := le_runFrom line unit n i 127 1
    omega
  · have := le_literalFrom line unit n 127 (i + 1)
    omega

/-- How many pixels there are, a broken one included. -/
def pixels (line : Bytes) (unit : Nat) : Nat := (line.length + (unit - 1)) / unit

def packLine (line : Bytes) (unit : Nat) : Option Bytes :=
  let n := pixels line unit
  let capacity := line.length + (n + 127) / 128 * 2 + 2 + line.length / unit
  (packFrom line unit n 0 (Out.alloc capacity)).map Out.bytes

namespace Img

variable (img : Img)

/-- `img.row || img.width * img.bpp` -/
def rowBytes : Nat :=
  match img.row with
  | some row => if row = 0 then img.width * img.bpp else row
  | none => img.width * img.bpp

/-- `img.bpp || 1` -/
def unit : Nat := if img.bpp = 0 then 1 else img.bpp

def line (y : Nat) : Bytes := slice img.data (y * img.rowBytes) ((y + 1) * img.rowBytes)

end Img

/-- `while (y + rep + 1 < height && rep < 255 && …equals(line)) rep++`; the first argument is what
is missing to 255. -/
def repFrom (img : Img) (y : Nat) : Nat → Nat → Nat
  | 0, rep => rep
  | left + 1, rep =>
      if y + rep + 1 < img.height ∧ img.line (y + rep + 1) = img.line y then
        repFrom img y left (rep + 1)
      else rep

/-- The loop of `packPage` from the line `y` on. -/
def packPageFrom (img : Img) (y : Nat) : Option Bytes :=
  if y < img.height then do
    let rep := repFrom img y 255 0
    let packed ← packLine (img.line y) img.unit
    let rest ← packPageFrom img (y + rep + 1)
    pure (UInt8.ofNat rep :: packed ++ rest)
  else some []
termination_by img.height - y

def packPage (img : Img) : Option Bytes := packPageFrom img 0

/-! ## Decompression -/

/-- Read a line of as many pixels: a control byte up to 127 repeats the next pixel, one from 129 on
is followed by pixels to copy, and 128 has no meaning. -/
def unpackLine (unit : Nat) : Nat → Bytes → Option (Bytes × Bytes)
  | 0, bs => some ([], bs)
  | _ + 1, [] => none
  | need + 1, c :: bs =>
      if c.toNat ≤ 127 then
        if c.toNat + 1 ≤ need + 1 ∧ unit ≤ bs.length then do
          let (line, rest) ← unpackLine unit (need + 1 - (c.toNat + 1)) (bs.drop unit)
          pure ((List.replicate (c.toNat + 1) (bs.take unit)).flatten ++ line, rest)
        else none
      else if c.toNat = 128 then none
      else
        let count := 257 - c.toNat
        if count ≤ need + 1 ∧ count * unit ≤ bs.length then do
          let (line, rest) ← unpackLine unit (need + 1 - count) (bs.drop (count * unit))
          pure (bs.take (count * unit) ++ line, rest)
        else none
termination_by need => need
decreasing_by
  · omega
  · have := c.toNat_lt
    omega

/-- Read as many lines: a count `r` stands before a line that is there `r + 1` times. -/
def unpackPage (unit width : Nat) : Nat → Bytes → Option (List Bytes × Bytes)
  | 0, bs => some ([], bs)
  | _ + 1, [] => none
  | height + 1, r :: bs =>
      if r.toNat + 1 ≤ height + 1 then do
        let (line, bs) ← unpackLine unit width bs
        let (lines, rest) ← unpackPage unit width (height + 1 - (r.toNat + 1)) bs
        pure (List.replicate (r.toNat + 1) line ++ lines, rest)
      else none
termination_by height => height
decreasing_by exact Nat.sub_lt (Nat.succ_pos height) (Nat.succ_pos r.toNat)

/-! ## Pixels -/

section Pixels

variable {line : Bytes} {unit n i j k : Nat}

theorem same_iff (hunit : 1 ≤ unit) (hlen : line.length = n * unit) (hi : i < n) (hj : j < n) :
    same line unit i j = true ↔ cell line unit i = cell line unit j := by
  rw [cell_eq_iff hlen hlen hi hj, same]
  split
  · next hone =>
      -- a pixel is one byte, and its position is that of the byte
      subst hone
      constructor
      · intro h c hc
        obtain rfl : c = 0 := by omega
        simpa using h
      · intro h
        simpa using h 0 (by omega)
  · simp [List.all_eq_true]

/-- What the first inner loop finds. -/
theorem runFrom_spec (hunit : 1 ≤ unit) (hlen : line.length = n * unit) (left run : Nat)
    (hsum : run + left = 128) (hrun : 1 ≤ run) (hn : i + run ≤ n)
    (heq : ∀ m < run, cell line unit (i + m) = cell line unit i) :
    runFrom line unit n i left run ≤ 128 ∧ i + runFrom line unit n i left run ≤ n ∧
      ∀ m < runFrom line unit n i left run, cell line unit (i + m) = cell line unit i := by
  induction left generalizing run with
  | zero =>
      exact ⟨by simp only [runFrom]; omega, hn, heq⟩
  | succ left ih =>
      rw [runFrom]
      split
      · next hmore =>
          refine ih (run + 1) (by omega) (by omega) (by omega) ?_
          intro m hm
          rcases Nat.lt_succ_iff_lt_or_eq.1 hm with hlt | rfl
          · exact heq m hlt
          · exact ((same_iff hunit hlen (by omega) hmore.1).1 hmore.2).symm
      · exact ⟨by omega, hn, heq⟩

/-- The second one stops at the end of the line, or as soon as it has gone as far as it may. -/
theorem literalFrom_le (line : Bytes) (unit left : Nat) (hi : i ≤ n) :
    literalFrom line unit n left i ≤ n ∧ literalFrom line unit n left i ≤ i + left := by
  induction left generalizing i with
  | zero =>
      exact ⟨hi, Nat.le_refl i⟩
  | succ left ih =>
      rw [literalFrom]
      split
      · next hmore =>
          have hnext := ih (i := i + 1) hmore.1
          omega
      · omega

theorem pixels_eq (hunit : 1 ≤ unit) (hlen : line.length = n * unit) : pixels line unit = n := by
  rw [pixels, hlen, Nat.div_eq_of_lt_le]
  · omega
  · rw [Nat.succ_mul]
    omega

end Pixels

/-! ## A line is read back -/

section Lines

variable {line : Bytes} {unit n : Nat}

/-- A control byte that repeats a pixel. -/
theorem unpackLine_run {k need : Nat} {px tail rest : Bytes} {pxs : Bytes} (hk : 1 ≤ k)
    (hk' : k ≤ 128) (hpx : px.length = unit)
    (htail : unpackLine unit need tail = some (pxs, rest)) :
    unpackLine unit (k + need) (UInt8.ofNat (k - 1) :: (px ++ tail)) =
      some ((List.replicate k px).flatten ++ pxs, rest) := by
  obtain ⟨m, rfl⟩ : ∃ m, k = m + 1 := ⟨k - 1, by omega⟩
  have hc : (UInt8.ofNat (m + 1 - 1)).toNat = m := by
    rw [UInt8.toNat_ofNat', Nat.add_sub_cancel]
    omega
  have hneed : m + need + 1 - (m + 1) = need := by omega
  subst hpx
  rw [show m + 1 + need = m + need + 1 by omega, unpackLine]
  simp only [hc]
  rw [if_pos (by omega), if_pos ⟨by omega, by simp⟩, hneed, List.drop_left, htail, List.take_left]
  rfl

/-- A control byte with pixels to copy. -/
theorem unpackLine_literal {k need : Nat} {px tail rest : Bytes} {pxs : Bytes} (hk : 2 ≤ k)
    (hk' : k ≤ 128) (hpx : px.length = k * unit)
    (htail : unpackLine unit need tail = some (pxs, rest)) :
    unpackLine unit (k + need) (UInt8.ofNat (257 - k) :: (px ++ tail)) =
      some (px ++ pxs, rest) := by
  obtain ⟨m, rfl⟩ : ∃ m, k = m + 1 := ⟨k - 1, by omega⟩
  have hc : (UInt8.ofNat (257 - (m + 1))).toNat = 256 - m := by
    rw [UInt8.toNat_ofNat']
    omega
  have hcount : 257 - (256 - m) = m + 1 := by omega
  have hneed : m + need + 1 - (m + 1) = need := by omega
  rw [show m + 1 + need = m + need + 1 by omega, unpackLine]
  simp only [hc, hcount]
  rw [if_neg (by omega), if_neg (by omega), if_pos ⟨by omega, by simp [hpx]⟩, hneed, ← hpx,
    List.drop_left, htail, List.take_left]
  rfl

/-- A control byte and `m` pixels behind it. -/
theorem putPixels {i j m : Nat} {out : Out} (c : UInt8) {px : Bytes} (hpx : px.length = m * unit)
    (hm : 1 ≤ m) (hij : i + m ≤ j) (hj : j ≤ n) (hout : out.bytes.length ≤ i * (unit + 1))
    (hcap : n * (unit + 1) ≤ out.capacity) :
    ∃ out' : Out, out'.bytes = out.bytes ++ c :: px ∧ out'.bytes.length ≤ j * (unit + 1) ∧
      out'.capacity = out.capacity ∧
      ∀ f : Out → Option Out, (do
        let out ← out.put [c]
        let out ← out.put px
        f out) = f out' := by
  -- each pixel has room for itself and one byte more
  have hend : j * (unit + 1) ≤ n * (unit + 1) := Nat.mul_le_mul_right _ hj
  have hmul : (i + m) * (unit + 1) ≤ j * (unit + 1) := Nat.mul_le_mul_right _ hij
  have hadd : (i + m) * (unit + 1) = i * (unit + 1) + (m * unit + m) := by
    rw [Nat.add_mul, Nat.mul_succ m]
  obtain ⟨out1, hput1, hbytes1, hcap1⟩ := Out.put_of_fits out [c]
    (by simp only [List.length_singleton]; omega)
  have hlen1 : out1.bytes.length = out.bytes.length + 1 := by
    rw [hbytes1, List.length_append, List.length_singleton]
  obtain ⟨out2, hput2, hbytes2, hcap2⟩ := Out.put_of_fits out1 px (by omega)
  have hlen2 : out2.bytes.length = out1.bytes.length + px.length := by
    rw [hbytes2, List.length_append]
  refine ⟨out2, by rw [hbytes2, hbytes1, List.append_assoc, List.singleton_append], by omega,
    hcap2.trans hcap1, ?_⟩
  intro f
  simp only [hput1, hput2, Option.bind_eq_bind, Option.bind_some]

/-- The loop writes what reads back to the pixels from `i` on.  It stays inside the buffer, since
no pixel costs more than itself and one byte. -/
theorem packFrom_spec (hunit : 1 ≤ unit) (hlen : line.length = n * unit) {i : Nat} (out : Out)
    (hi : i ≤ n) (hout : out.bytes.length ≤ i * (unit + 1))
    (hcap : n * (unit + 1) ≤ out.capacity) :
    ∃ out' bs, packFrom line unit n i out = some out' ∧ out'.bytes = out.bytes ++ bs ∧
      ∀ rest, unpackLine unit (n - i) (bs ++ rest) = some (cellRange line unit i n, rest) := by
  by_cases hmore : i < n
  · obtain ⟨hmax, hend, heq⟩ := runFrom_spec hunit hlen (i := i) 127 1 rfl (Nat.le_refl 1) hmore
      (fun m hm => by rw [Nat.lt_one_iff.1 hm]; rfl)
    have hpos := le_runFrom line unit n i 127 1
    by_cases hrun : 1 < runFrom line unit n i 127 1 ∨ n ≤ i + 1
    · -- one pixel for the whole run
      have hpx := length_cell hlen hmore
      obtain ⟨out1, hbytes1, hlen1, hcap1, hput⟩ := putPixels
        (UInt8.ofNat (runFrom line unit n i 127 1 - 1)) (m := 1) (hpx.trans (Nat.one_mul _).symm)
        (Nat.le_refl 1) (by omega) hend hout hcap
      obtain ⟨out2, bs, hpack, hbytes2, hunpack⟩ := packFrom_spec hunit hlen out1 hend hlen1
        (hcap1 ▸ hcap)
      refine ⟨out2, _, ?_, by rw [hbytes2, hbytes1, List.append_assoc], ?_⟩
      · rw [packFrom, if_pos hmore]
        simp only [if_pos hrun]
        exact (hput _).trans hpack
      · intro rest
        have hsplit : n - i =
            runFrom line unit n i 127 1 + (n - (i + runFrom line unit n i 127 1)) := by omega
        rw [hsplit, List.cons_append, List.cons_append, List.append_assoc,
          unpackLine_run hpos hmax hpx (hunpack rest), ← cellRange_of_run heq,
          cellRange_append (by omega) hend]
    · -- the pixels themselves
      obtain ⟨hstop, hfar⟩ := literalFrom_le line unit 127 hmore
      have hstart := le_literalFrom line unit n 127 (i + 1)
      generalize hs : literalFrom line unit n 127 (i + 1) = stop at hstop hfar hstart
      have hpx := length_cellRange hlen hstop (i := i)
      obtain ⟨out1, hbytes1, hlen1, hcap1, hput⟩ := putPixels
        (UInt8.ofNat (if stop - i = 1 then 0 else 257 - (stop - i))) hpx (by omega) (by omega)
        hstop hout hcap
      obtain ⟨out2, bs, hpack, hbytes2, hunpack⟩ := packFrom_spec hunit hlen out1 hstop hlen1
        (hcap1 ▸ hcap)
      refine ⟨out2, _, ?_, by rw [hbytes2, hbytes1, List.append_assoc], ?_⟩
      · rw [packFrom, if_pos hmore]
        simp only [if_neg hrun, hs]
        exact (hput _).trans hpack
      · intro rest
        have hsplit : n - i = stop - i + (n - stop) := by omega
        rw [hsplit, List.cons_append, List.cons_append, List.append_assoc,
          ← cellRange_append (show i ≤ stop by omega) hstop]
        by_cases hone : stop - i = 1
        · -- a single pixel is a run of length one
          have hrun := unpackLine_run (k := 1) (Nat.le_refl 1) (by omega)
            (by rw [hpx, hone, Nat.one_mul]) (hunpack rest)
          rw [if_pos hone, hone]
          simpa using hrun
        · rw [if_neg hone, unpackLine_literal (by omega) (by omega) hpx (hunpack rest)]
  · obtain rfl : i = n := by omega
    refine ⟨out, [], by rw [packFrom, if_neg hmore], (List.append_nil _).symm, ?_⟩
    intro rest
    rw [Nat.sub_self, unpackLine, cellRange_self, List.nil_append]
termination_by n - i

/-- A line is compressed without leaving the buffer, and is read back. -/
theorem packLine_spec (hunit : 1 ≤ unit) (hlen : line.length = n * unit) :
    ∃ packed, packLine line unit = some packed ∧
      ∀ rest, unpackLine unit n (packed ++ rest) = some (line, rest) := by
  have hdiv : line.length / unit = n := by
    rw [hlen, Nat.mul_div_cancel n hunit]
  obtain ⟨out, bs, hpack, hbytes, hunpack⟩ := packFrom_spec hunit hlen (i := 0)
    (Out.alloc (line.length + (n + 127) / 128 * 2 + 2 + line.length / unit))
    (Nat.zero_le n) (Nat.zero_le _) (by rw [hdiv, hlen, Nat.mul_succ]; simp only [Out.alloc]; omega)
  refine ⟨bs, ?_, ?_⟩
  · simp only [packLine, pixels_eq hunit hlen, hpack, Option.map_some, hbytes]
    rfl
  · intro rest
    have hwhole : cellRange line unit 0 n = line := by
      rw [cellRange, Nat.zero_mul, ← hlen]
      simp [slice]
    have := hunpack rest
    rwa [hwhole] at this

end Lines

/-! ## A page is read back -/

namespace Img

variable (img : Img)

/-- A page as the renderer or `toType` leaves it: 8-bit grey, RGB, or one bit for each pixel in rows
of whole bytes. -/
structure Complete : Prop where
  kind : img.row = none ∧ (img.bpp = 1 ∨ img.bpp = 3) ∨
    img.bpp = 0 ∧ img.row = some ((img.width + 7) / 8)
  sized : img.data.length = img.height * img.rowBytes

instance : Decidable img.Complete :=
  decidable_of_iff (_ ∧ _) ⟨fun h => ⟨h.1, h.2⟩, fun h => ⟨h.kind, h.sized⟩⟩

def lines : List Bytes := (List.range' 0 img.height).map img.line

variable {img}

theorem unit_pos : 1 ≤ img.unit := by
  rw [unit]
  split <;> omega

theorem Complete.rowBytes_eq (h : img.Complete) :
    img.rowBytes = img.rowBytes / img.unit * img.unit := by
  rcases h.kind with ⟨hrow, -⟩ | ⟨hbpp, -⟩
  · -- whole pixels of one byte or of three
    rcases Nat.eq_zero_or_pos img.bpp with hbpp | hbpp
    · simp [unit, hbpp]
    · rw [rowBytes, hrow, unit, if_neg (by omega), Nat.mul_div_cancel _ hbpp]
  · simp [unit, hbpp]

theorem Complete.length_line (h : img.Complete) {y : Nat} (hy : y < img.height) :
    (img.line y).length = img.rowBytes / img.unit * img.unit := by
  have hle : (y + 1) * img.rowBytes ≤ img.data.length :=
    h.sized ▸ Nat.mul_le_mul_right img.rowBytes hy
  rw [line, length_slice hle, Nat.succ_mul, Nat.add_sub_cancel_left]
  exact h.rowBytes_eq

end Img

section Pages

variable {img : Img}

/-- What the inner loop of `packPage` counts: lines like the one at `y`. -/
theorem repFrom_spec {y : Nat} (left rep : Nat) (hsum : rep + left = 255) (hy : y + rep < img.height)
    (heq : ∀ m ≤ rep, img.line (y + m) = img.line y) :
    repFrom img y left rep ≤ 255 ∧ y + repFrom img y left rep < img.height ∧
      ∀ m ≤ repFrom img y left rep, img.line (y + m) = img.line y := by
  induction left generalizing rep with
  | zero =>
      exact ⟨by simp only [repFrom]; omega, hy, heq⟩
  | succ left ih =>
      rw [repFrom]
      split
      · next hmore =>
          refine ih (rep + 1) (by omega) (by omega) ?_
          intro m hm
          rcases Nat.le_succ_iff.1 hm with hle | rfl
          · exact heq m hle
          · exact hmore.2
      · exact ⟨by omega, hy, heq⟩

/-- A group of equal lines. -/
theorem unpackPage_group {unit width k need : Nat} {packed tail rest : Bytes} {line : Bytes}
    {lines : List Bytes} (hk : k ≤ 255)
    (hline : unpackLine unit width (packed ++ tail) = some (line, tail))
    (htail : unpackPage unit width need tail = some (lines, rest)) :
    unpackPage unit width (k + 1 + need) (UInt8.ofNat k :: (packed ++ tail)) =
      some (List.replicate (k + 1) line ++ lines, rest) := by
  have hr : (UInt8.ofNat k).toNat = k := by
    rw [UInt8.toNat_ofNat']
    omega
  have hneed : k + need + 1 - (k + 1) = need := by omega
  rw [show k + 1 + need = k + need + 1 by omega, unpackPage]
  simp only [hr]
  rw [if_pos (by omega), hneed]
  simp only [hline, htail, Option.bind_eq_bind, Option.bind_some, Option.pure_def]

theorem packPageFrom_spec (h : img.Complete) {y : Nat} (hy : y ≤ img.height) :
    ∃ packed, packPageFrom img y = some packed ∧
      ∀ rest, unpackPage img.unit (img.rowBytes / img.unit) (img.height - y) (packed ++ rest) =
        some ((List.range' y (img.height - y)).map img.line, rest) := by
  by_cases hmore : y < img.height
  · obtain ⟨hmax, hend, heq⟩ := repFrom_spec (y := y) 255 0 rfl hmore
      (fun m hm => by rw [Nat.le_zero.1 hm]; rfl)
    generalize hrep : repFrom img y 255 0 = rep at hmax hend heq
    obtain ⟨packed, hpack, hline⟩ := packLine_spec Img.unit_pos (h.length_line hmore)
    obtain ⟨tail, htail, hlines⟩ := packPageFrom_spec h (y := y + rep + 1) hend
    refine ⟨UInt8.ofNat rep :: packed ++ tail, ?_, ?_⟩
    · rw [packPageFrom, if_pos hmore]
      simp only [hrep, hpack, htail, Option.bind_eq_bind, Option.bind_some, Option.pure_def]
    · intro rest
      have hsplit : img.height - y = rep + 1 + (img.height - (y + rep + 1)) := by omega
      -- the group is one line over and over, since the lines in it are equal
      have hgroup : (List.range' y (rep + 1)).map img.line = List.replicate (rep + 1) (img.line y) := by
        rw [List.eq_replicate_iff]
        refine ⟨by simp, ?_⟩
        intro b hb
        obtain ⟨k, hk, rfl⟩ := List.mem_map.1 hb
        have hrange := List.mem_range'_1.1 hk
        rw [show k = y + (k - y) by omega]
        exact heq (k - y) (by omega)
      have hlast : y + 1 * (rep + 1) = y + rep + 1 := by omega
      rw [hsplit, List.cons_append, List.cons_append, List.append_assoc,
        unpackPage_group hmax (hline _) (hlines rest), ← List.range'_append, List.map_append, hgroup,
        hlast]
  · obtain rfl : y = img.height := by omega
    refine ⟨[], by rw [packPageFrom, if_neg hmore], ?_⟩
    intro rest
    rw [Nat.sub_self, unpackPage]
    rfl
termination_by img.height - y

/-- A compressed line is written inside its buffer, with control bytes that have a meaning, and is
read back to the line; and a compressed page is read back to its lines. -/
theorem unpack_pack :
    (∀ (line : Bytes) (unit : Nat), 1 ≤ unit → unit ∣ line.length →
      ∃ packed, packLine line unit = some packed ∧
        unpackLine unit (line.length / unit) packed = some (line, [])) ∧
    ∀ img : Img, img.Complete →
      ∃ packed, packPage img = some packed ∧
        unpackPage img.unit (img.rowBytes / img.unit) img.height packed = some (img.lines, []) := by
  constructor
  · intro line unit hunit hdvd
    obtain ⟨packed, hpack, hunpack⟩ :=
      packLine_spec hunit (Nat.div_mul_cancel hdvd).symm
    refine ⟨packed, hpack, ?_⟩
    simpa using hunpack []
  · intro img h
    obtain ⟨packed, hpack, hunpack⟩ := packPageFrom_spec h (Nat.zero_le img.height)
    refine ⟨packed, hpack, ?_⟩
    simpa [Img.lines] using hunpack []

/-- Two RGB lines of two pixels. -/
def twoLines : Img := ⟨2, 2, 3, none, [1, 2, 3, 1, 2, 3, 4, 5, 6, 7, 8, 9]⟩

theorem unpack_pack_twoLines :
    (∃ packed, packLine [7, 7, 9] 1 = some packed ∧ unpackLine 1 3 packed = some ([7, 7, 9], [])) ∧
    ∃ packed, packPage twoLines = some packed ∧
      unpackPage 3 2 2 packed = some ([[1, 2, 3, 1, 2, 3], [4, 5, 6, 7, 8, 9]], []) :=
  ⟨unpack_pack.1 [7, 7, 9] 1 (by decide) (by decide), unpack_pack.2 twoLines (by decide)⟩

end Pages

end Print
end GateControl
