import GateControl.Library.Bytes

/-!
# Cells — a buffer as a row of cells of one size

The bytes from `i * size` on are the cell `i`.  A cell that is written holds what was written, and
the other cells are left alone; so writing many cells to distinct places puts each where it belongs,
in whatever order.
-/

namespace GateControl
namespace Library

/-- The cells from `i` on, before the cell `j`. -/
def cellRange (buf : Bytes) (size i j : Nat) : Bytes := slice buf (i * size) (j * size)

def cell (buf : Bytes) (size i : Nat) : Bytes := cellRange buf size i (i + 1)

section Ranges

variable {buf : Bytes} {size n i j k : Nat}

theorem length_cellRange (hlen : buf.length = n * size) (hj : j ≤ n) :
    (cellRange buf size i j).length = (j - i) * size := by
  have hle : j * size ≤ buf.length := hlen ▸ Nat.mul_le_mul_right size hj
  rw [cellRange, length_slice hle, Nat.sub_mul]

theorem length_cell (hlen : buf.length = n * size) (hi : i < n) :
    (cell buf size i).length = size := by
  rw [cell, length_cellRange hlen hi, Nat.succ_sub (Nat.le_refl i), Nat.sub_self, Nat.one_mul]

@[simp] theorem cellRange_self : cellRange buf size i i = [] := by
  simp [cellRange, slice]

theorem cellRange_append (hij : i ≤ j) (hjk : j ≤ k) :
    cellRange buf size i j ++ cellRange buf size j k = cellRange buf size i k :=
  slice_append buf (Nat.mul_le_mul_right size hij) (Nat.mul_le_mul_right size hjk)

theorem getElem?_cell {c : Nat} (hc : c < size) : (cell buf size i)[c]? = buf[i * size + c]? := by
  have hlt : i * size + c < (i + 1) * size := by
    rw [Nat.succ_mul]
    omega
  exact getElem?_slice buf hlt

/-- Equal cells are one cell, repeated. -/
theorem cellRange_of_run (h : ∀ m < k, cell buf size (i + m) = cell buf size i) :
    cellRange buf size i (i + k) = (List.replicate k (cell buf size i)).flatten := by
  induction k with
  | zero =>
      exact cellRange_self
  | succ k ih =>
      have hlast : cellRange buf size (i + k) (i + k + 1) = cell buf size i := h k (by omega)
      have hfirst := ih fun m hm => h m (by omega)
      calc cellRange buf size i (i + k + 1)
          = cellRange buf size i (i + k) ++ cellRange buf size (i + k) (i + k + 1) :=
            (cellRange_append (by omega) (by omega)).symm
        _ = (List.replicate k (cell buf size i)).flatten ++ cell buf size i := by
            rw [hfirst, hlast]
        _ = (List.replicate (k + 1) (cell buf size i)).flatten := by
            rw [List.replicate_succ', List.flatten_append, List.flatten_singleton]

theorem cell_eq_iff {buf' : Bytes} (hlen : buf.length = n * size) (hlen' : buf'.length = k * size)
    (hi : i < n) (hj : j < k) :
    cell buf size i = cell buf' size j ↔
      ∀ c < size, buf[i * size + c]? = buf'[j * size + c]? := by
  constructor
  · intro heq c hc
    rw [← getElem?_cell hc, ← getElem?_cell hc, heq]
  · intro h
    apply List.ext_getElem?
    intro c
    by_cases hc : c < size
    · rw [getElem?_cell hc, getElem?_cell hc, h c hc]
    · rw [List.getElem?_eq_none (by rw [length_cell hlen hi]; omega),
        List.getElem?_eq_none (by rw [length_cell hlen' hj]; omega)]

/-- A buffer is determined by its cells. -/
theorem ext_cell {buf' : Bytes} (hlen : buf.length = n * size) (hlen' : buf'.length = n * size)
    (h : ∀ i < n, cell buf size i = cell buf' size i) : buf = buf' := by
  apply List.ext_getElem?
  intro p
  by_cases hp : p < n * size
  · -- the byte is in the cell `p / size`
    have hsize : 0 < size := Nat.pos_of_ne_zero fun h0 => by simp [h0] at hp
    have hi : p / size < n := Nat.div_lt_of_lt_mul (by rwa [Nat.mul_comm])
    have hbyte := (cell_eq_iff hlen hlen' hi hi).1 (h _ hi) (p % size) (Nat.mod_lt p hsize)
    rwa [Nat.mul_comm, Nat.div_add_mod] at hbyte
  · rw [List.getElem?_eq_none (by omega), List.getElem?_eq_none (by omega)]

end Ranges

/-! ## Writing cells -/

theorem writeBytes_append (buf : Bytes) (i : Nat) (a b : Bytes) :
    writeBytes buf i (a ++ b) = writeBytes (writeBytes buf i a) (i + a.length) b := by
  induction a generalizing buf i with
  | nil =>
      rfl
  | cons x a ih =>
      rw [List.cons_append, writeBytes, ih, writeBytes, List.length_cons, Nat.add_assoc,
        Nat.add_comm 1]

section Writing

variable {buf : Bytes} {size n i j : Nat} {bs : Bytes}

theorem cell_writeBytes_self (hlen : buf.length = n * size) (hi : i < n) (hbs : bs.length = size) :
    cell (writeBytes buf (i * size) bs) size i = bs := by
  have hend : i * size + bs.length = (i + 1) * size := by
    rw [hbs, Nat.succ_mul]
  have hle : (i + 1) * size ≤ n * size := Nat.mul_le_mul_right size hi
  rw [cell, cellRange, ← hend]
  exact slice_writeBytes buf (by omega)

theorem cell_writeBytes_of_ne (hbs : bs.length = size) (hij : i ≠ j) :
    cell (writeBytes buf (i * size) bs) size j = cell buf size j := by
  apply slice_congr
  intro p hp hp'
  apply getElem?_writeBytes_of_outside
  rcases Nat.lt_or_gt_of_ne hij with hlt | hgt
  · -- the cell lies behind the one that is written
    have hle : (i + 1) * size ≤ j * size := Nat.mul_le_mul_right size hlt
    rw [Nat.succ_mul] at hle
    omega
  · have hle : (j + 1) * size ≤ i * size := Nat.mul_le_mul_right size hgt
    omega

/-- A range of cells is written cell by cell. -/
theorem writeBytes_cellRange (buf : Bytes) {src : Bytes} {m : Nat} (hlen : src.length = m * size)
    (d : Nat) {s k : Nat} (hk : s + k ≤ m) :
    writeBytes buf (d * size) (cellRange src size s (s + k)) =
      (List.range k).foldl (fun buf x => writeBytes buf ((d + x) * size) (cell src size (s + x)))
        buf := by
  induction k with
  | zero =>
      rw [Nat.add_zero, cellRange_self]
      rfl
  | succ k ih =>
      have hsplit : cellRange src size s (s + (k + 1)) =
          cellRange src size s (s + k) ++ cell src size (s + k) :=
        (cellRange_append (by omega) (by omega)).symm
      have hstart : d * size + (cellRange src size s (s + k)).length = (d + k) * size := by
        rw [length_cellRange hlen (by omega), Nat.add_sub_cancel_left, Nat.add_mul]
      rw [hsplit, writeBytes_append, ih (by omega), hstart, List.range_succ, List.foldl_append]
      rfl

end Writing

/-! ## Many cells to distinct places -/

section Scatter

variable {ι : Type*} (size : Nat) (place : ι → Nat) (what : ι → Bytes)

/-- Write for each index a cell. -/
def scatter (is : List ι) (buf : Bytes) : Bytes :=
  is.foldl (fun buf i => writeBytes buf (place i * size) (what i)) buf

@[simp] theorem length_scatter (is : List ι) (buf : Bytes) :
    (scatter size place what is buf).length = buf.length := by
  induction is generalizing buf with
  | nil =>
      rfl
  | cons i is ih =>
      rw [scatter, List.foldl_cons, ← scatter, ih, length_writeBytes]

variable {size what}

/-- The cells that no index goes to. -/
theorem cell_scatter_of_not_mem {is : List ι} {buf : Bytes} {k : Nat}
    (hwhat : ∀ i ∈ is, (what i).length = size) (hk : ∀ i ∈ is, place i ≠ k) :
    cell (scatter size place what is buf) size k = cell buf size k := by
  induction is generalizing buf with
  | nil =>
      rfl
  | cons i is ih =>
      rw [scatter, List.foldl_cons, ← scatter,
        ih (fun i hi => hwhat i (List.mem_cons_of_mem _ hi))
          (fun i hi => hk i (List.mem_cons_of_mem _ hi)),
        cell_writeBytes_of_ne (hwhat i List.mem_cons_self) (hk i List.mem_cons_self)]

/-- A cell that is written holds what its index says, if no other index goes there. -/
theorem cell_scatter {is : List ι} {buf : Bytes} {n : Nat} (hlen : buf.length = n * size)
    (hwhat : ∀ i ∈ is, (what i).length = size)
    (hplace : ∀ i ∈ is, ∀ j ∈ is, place i = place j → i = j) {i : ι} (hi : i ∈ is) (hn : place i < n) :
    cell (scatter size place what is buf) size (place i) = what i := by
  induction is generalizing buf with
  | nil =>
      exact absurd hi List.not_mem_nil
  | cons j is ih =>
      rw [scatter, List.foldl_cons, ← scatter]
      have hwhat' : ∀ i ∈ is, (what i).length = size :=
        fun i hi => hwhat i (List.mem_cons_of_mem _ hi)
      by_cases hmem : i ∈ is
      · -- it is written once more, with the same bytes
        exact ih (by rw [length_writeBytes, hlen]) hwhat'
          (fun i hi j hj => hplace i (List.mem_cons_of_mem _ hi) j (List.mem_cons_of_mem _ hj)) hmem
      · obtain rfl : i = j := (List.mem_cons.1 hi).resolve_right hmem
        have hrest : ∀ j ∈ is, place j ≠ place i := by
          intro j hj heq
          exact hmem (hplace j (List.mem_cons_of_mem _ hj) i List.mem_cons_self heq ▸ hj)
        rw [cell_scatter_of_not_mem place hwhat' hrest,
          cell_writeBytes_self hlen hn (hwhat i List.mem_cons_self)]

end Scatter

end Library
end GateControl
