import GateControl.Library.Bytes

/-!
# Boxes — the structure of an MP4 file

A file is a sequence of boxes, and so is the content of some of them.  A box begins with its size
and its type.  The size can stand in a longer field behind the type, and the last box can go to the
end of its container without a size.

Over the boxes that are found by their offsets there are the bytes of each box: a sequence of boxes
is found in a buffer if and only if their bytes stand there one behind the other.
-/

namespace GateControl
namespace Cameras

open Library

/-! ## Boxes by their offsets -/

structure Box where
  type : Text
  start : Nat
  size : Nat
  body : Nat
  deriving DecidableEq

/-- Behind the box. -/
def Box.stop (b : Box) : Nat := b.start + b.size

/-- The size and the length of the header that the bytes at `i` declare. -/
def declared (buf : Bytes) (i stop : Nat) : Option (Nat × Nat) :=
  (readUInt32BE buf i).bind fun size =>
    if size = 1 then
      if i + 16 > stop then none
      else (readUInt64BE buf (i + 8)).bind fun big => if big > stop - i then none else some (big, 16)
    else if size = 0 then some (stop - i, 8)
    else some (size, 8)

/-- They have to fit. -/
def header (buf : Bytes) (i stop : Nat) : Option (Nat × Nat) :=
  (declared buf i stop).bind fun (size, head) =>
    if size < head ∨ i + size > stop then none else some (size, head)

def typeAt (buf : Bytes) (i : Nat) : Text := latin1 (slice buf (i + 4) (i + 8))

/-- The loop of `boxes`, for at most so many boxes. -/
def boxesFrom (buf : Bytes) (stop : Nat) : Nat → Nat → Option (List Box)
  | 0, _ => some []
  | n + 1, i =>
      if i + 8 ≤ stop then
        (header buf i stop).bind fun (size, head) =>
          (boxesFrom buf stop n (i + size)).map (⟨typeAt buf i, i, size, i + head⟩ :: ·)
      else some []

/-- The boxes of a range; `none` is an `Mp4Error`. -/
def boxes (buf : Bytes) (start stop : Nat) : Option (List Box) :=
  boxesFrom buf stop (stop - start) start

/-- The boxes inside of a box. -/
def inside (buf : Bytes) (b : Box) : Option (List Box) := boxes buf b.body b.stop

def childOf (buf : Bytes) (b : Box) (type : Text) : Option (Option Box) :=
  (inside buf b).map fun bs => bs.find? (·.type = type)

/-! ## The loop -/

variable {buf c : Bytes} {i stop : Nat} {cs : List Bytes}

theorem header_eq_some {size head : Nat} :
    header buf i stop = some (size, head) ↔
      declared buf i stop = some (size, head) ∧ head ≤ size ∧ i + size ≤ stop := by
  rw [header, Option.bind_eq_some_iff]
  constructor
  · rintro ⟨⟨size', head'⟩, hdeclared, hfits⟩
    dsimp only at hfits
    split at hfits
    · exact nomatch hfits
    · rename_i hbounds
      obtain ⟨rfl, rfl⟩ := Prod.mk.inj (Option.some.inj hfits)
      exact ⟨hdeclared, by omega, by omega⟩
  · rintro ⟨hdeclared, hhead, hstop⟩
    exact ⟨(size, head), hdeclared, if_neg (by omega)⟩

/-- What a header can declare: a short size, a long one, or none. -/
theorem declared_eq_some {size head : Nat} :
    declared buf i stop = some (size, head) ↔
      (readUInt32BE buf i = some size ∧ size ≠ 0 ∧ size ≠ 1 ∧ head = 8) ∨
      (readUInt32BE buf i = some 1 ∧ i + 16 ≤ stop ∧ readUInt64BE buf (i + 8) = some size ∧
        size ≤ stop - i ∧ head = 16) ∨
      (readUInt32BE buf i = some 0 ∧ size = stop - i ∧ head = 8) := by
  cases hread : readUInt32BE buf i with
  | none => simp [declared, hread]
  | some n =>
      rw [declared, hread, Option.bind_some]
      by_cases hone : n = 1
      · subst hone
        by_cases hshort : i + 16 > stop
        · simp [hshort]
          omega
        · cases hbig : readUInt64BE buf (i + 8) with
          | none => simp [hshort]; omega
          | some big =>
              by_cases hlarge : big > stop - i
              · simp [hshort, hlarge]; omega
              · simp [hshort, hlarge]; omega
      · by_cases hzero : n = 0
        · subst hzero
          simp
          omega
        · simp [hone, hzero]
          omega

theorem header_bounds {size head : Nat} (h : header buf i stop = some (size, head)) :
    8 ≤ head ∧ head ≤ size ∧ i + size ≤ stop := by
  obtain ⟨hdeclared, hhead, hstop⟩ := header_eq_some.1 h
  refine ⟨?_, hhead, hstop⟩
  rcases declared_eq_some.1 hdeclared with ⟨-, -, -, h8⟩ | ⟨-, -, -, -, h16⟩ | ⟨-, -, h8⟩ <;> omega

/-- More turns than there is room for boxes change nothing. -/
theorem boxesFrom_congr {n m : Nat} (hn : stop - i ≤ n) (hm : stop - i ≤ m) :
    boxesFrom buf stop n i = boxesFrom buf stop m i := by
  induction n generalizing m i with
  | zero =>
      cases m with
      | zero => rfl
      | succ m => rw [boxesFrom, boxesFrom, if_neg (by omega)]
  | succ n ih =>
      cases m with
      | zero => rw [boxesFrom, boxesFrom, if_neg (by omega)]
      | succ m =>
          rw [boxesFrom, boxesFrom]
          split
          · refine Option.bind_congr fun ⟨size, head⟩ hheader => ?_
            have hbounds := header_bounds hheader
            dsimp only
            rw [ih (m := m) (by omega) (by omega)]
          · rfl

theorem boxes_eq (buf : Bytes) (i stop : Nat) :
    boxes buf i stop =
      if i + 8 ≤ stop then
        (header buf i stop).bind fun (size, head) =>
          (boxes buf (i + size) stop).map (⟨typeAt buf i, i, size, i + head⟩ :: ·)
      else some [] := by
  rw [boxes]
  cases hfuel : stop - i with
  | zero => rw [boxesFrom, if_neg (by omega)]
  | succ n =>
      rw [boxesFrom]
      split
      · refine Option.bind_congr fun ⟨size, head⟩ hheader => ?_
        have hbounds := header_bounds hheader
        dsimp only
        rw [boxes, boxesFrom_congr (m := stop - (i + size)) (by omega) (by omega)]
      · rfl

/-! ## Boxes by their bytes -/

def headOf (c : Bytes) : Nat := if readUInt32BE c 0 = some 1 then 16 else 8

/-- The bytes of one box, and no more. -/
def IsBox (c : Bytes) : Prop := header c 0 c.length = some (c.length, headOf c)

/-- The box has a size, so that another one can follow. -/
def Closed (c : Bytes) : Prop := readUInt32BE c 0 ≠ some 0

instance (c : Bytes) : Decidable (IsBox c) := inferInstanceAs (Decidable (_ = _))

instance (c : Bytes) : Decidable (Closed c) := inferInstanceAs (Decidable (_ ≠ _))

theorem IsBox.length (hc : IsBox c) : 8 ≤ headOf c ∧ headOf c ≤ c.length := by
  have hbounds := header_bounds hc
  omega

/-- The bytes of a box declare it wherever they stand. -/
theorem IsBox.header (hc : IsBox c) (hat : BytesAt buf i c) (hstop : i + c.length ≤ stop)
    (hlast : Closed c ∨ stop = i + c.length) : header buf i stop = some (c.length, headOf c) := by
  have hlength := hc.length
  obtain ⟨hdeclared, hhead, -⟩ := header_eq_some.1 hc
  have hread : readUInt32BE buf i = readUInt32BE c 0 := hat.readUInt32BE_add (k := 0) (by omega)
  refine header_eq_some.2 ⟨declared_eq_some.2 ?_, hhead, hstop⟩
  rw [hread]
  rcases declared_eq_some.1 hdeclared with hshort | ⟨hone, h16, hbig, -, hhead⟩ | ⟨hzero, -, h8⟩
  · exact .inl hshort
  · have hlong : readUInt64BE buf (i + 8) = readUInt64BE c 8 := hat.readUInt64BE_add (by omega)
    exact .inr (.inl ⟨hone, by omega, by rw [hlong]; exact hbig, by omega, hhead⟩)
  · rcases hlast with hclosed | hend
    · exact absurd hzero hclosed
    · exact .inr (.inr ⟨hzero, by omega, h8⟩)

/-- What is found in a buffer are the bytes of a box. -/
theorem isBox_of_header {size head : Nat} (h : header buf i stop = some (size, head))
    (hstop : stop ≤ buf.length) :
    IsBox (slice buf i (i + size)) ∧ headOf (slice buf i (i + size)) = head ∧
      (slice buf i (i + size)).length = size ∧
      (Closed (slice buf i (i + size)) ∨ i + size = stop) := by
  have hbounds := header_bounds h
  obtain ⟨hdeclared, hhead, hend⟩ := header_eq_some.1 h
  have hlength : (slice buf i (i + size)).length = size := by
    rw [length_slice (by omega)]
    omega
  have hat : BytesAt buf i (slice buf i (i + size)) := .of_slice (by omega) (by omega)
  have hread : readUInt32BE buf i = readUInt32BE (slice buf i (i + size)) 0 :=
    hat.readUInt32BE_add (k := 0) (by omega)
  generalize slice buf i (i + size) = c at hlength hat hread
  have hself : headOf c = head → declared c 0 c.length = some (size, head) → IsBox c := by
    intro hheadOf hdeclares
    rw [IsBox, hheadOf, hlength]
    rw [hlength] at hdeclares
    exact header_eq_some.2 ⟨hdeclares, hhead, by omega⟩
  rcases declared_eq_some.1 hdeclared with ⟨hsize, hne0, hne1, h8⟩ | ⟨hone, -, hbig, -, h16⟩ |
    ⟨hzero, hrest, h8⟩
  · rw [hread] at hsize
    have hheadOf : headOf c = head := by rw [headOf, hsize, if_neg (by simpa using hne1), h8]
    refine ⟨hself hheadOf ?_, hheadOf, hlength, .inl ?_⟩
    · exact declared_eq_some.2 (.inl ⟨hsize, hne0, hne1, h8⟩)
    · rw [Closed, hsize]
      simpa using hne0
  · rw [hread] at hone
    have hlong : readUInt64BE c 8 = some size := by
      rw [← hbig]
      exact (hat.readUInt64BE_add (by omega)).symm
    have hheadOf : headOf c = head := by rw [headOf, if_pos hone, h16]
    refine ⟨hself hheadOf ?_, hheadOf, hlength, .inl ?_⟩
    · exact declared_eq_some.2 (.inr (.inl ⟨hone, by omega, hlong, by omega, h16⟩))
    · rw [Closed, hone]
      simp
  · rw [hread] at hzero
    have hheadOf : headOf c = head := by rw [headOf, hzero, if_neg (by simp), h8]
    refine ⟨hself hheadOf ?_, hheadOf, hlength, .inr (by omega)⟩
    exact declared_eq_some.2 (.inr (.inr ⟨hzero, by omega, h8⟩))

/-! ## Sequences of boxes -/

/-- Only the last one can be without a size. -/
inductive Boxed : List Bytes → Prop where
  | nil : Boxed []
  | last {c : Bytes} (hc : IsBox c) : Boxed [c]
  | cons {c : Bytes} {cs : List Bytes} (hc : IsBox c) (hclosed : Closed c) (hcs : Boxed cs) :
      Boxed (c :: cs)

/-- A range is filled by these boxes and by less than a header behind them. -/
structure Splits (content : Bytes) (cs : List Bytes) : Prop where
  boxed : Boxed cs
  tail : ∃ tail, content = cs.flatten ++ tail ∧ tail.length < 8 ∧
    (tail = [] ∨ ∀ c ∈ cs, Closed c)

def boxAt (i : Nat) (c : Bytes) : Box := ⟨typeAt c 0, i, c.length, i + headOf c⟩

/-- Where the boxes are that stand one behind the other from `i` on. -/
def layout : Nat → List Bytes → List Box
  | _, [] => []
  | i, c :: cs => boxAt i c :: layout (i + c.length) cs

def bytesOf (buf : Bytes) (b : Box) : Bytes := slice buf b.start b.stop

theorem typeAt_eq (hat : BytesAt buf i c) (hlength : 8 ≤ c.length) : typeAt buf i = typeAt c 0 := by
  have hslice : slice buf (i + 4) (i + 8) = slice c (0 + 4) (0 + 8) := by
    apply List.ext_getElem?
    intro k
    by_cases hk : k < 4
    · rw [getElem?_slice _ (by omega), getElem?_slice _ (by omega), Nat.add_assoc,
        hat.getElem? (by omega), Nat.zero_add]
    · have hle := hat.length_le
      rw [List.getElem?_eq_none (by rw [length_slice (by omega)]; omega),
        List.getElem?_eq_none (by rw [length_slice (by omega)]; omega)]
  rw [typeAt, typeAt, hslice]

theorem boxes_of_short (h : stop < i + 8) : boxes buf i stop = some [] := by
  rw [boxes_eq, if_neg (by omega)]

theorem boxes_cons (hc : IsBox c) (hat : BytesAt buf i c) (hstop : i + c.length ≤ stop)
    (hlast : Closed c ∨ stop = i + c.length) :
    boxes buf i stop = (boxes buf (i + c.length) stop).map (boxAt i c :: ·) := by
  have hlength := hc.length
  rw [boxes_eq, if_pos (by omega), hc.header hat hstop hlast, Option.bind_some,
    typeAt_eq hat (by omega)]
  rfl

/-- Boxes that stand one behind the other are found. -/
theorem boxes_layout (hcs : Boxed cs) (hat : BytesAt buf i cs.flatten)
    (hstop : i + cs.flatten.length ≤ stop) (htail : stop < i + cs.flatten.length + 8)
    (hlast : stop = i + cs.flatten.length ∨ ∀ c ∈ cs, Closed c) :
    boxes buf i stop = some (layout i cs) := by
  induction hcs generalizing i with
  | nil =>
      simp only [List.flatten_nil, List.length_nil] at htail
      exact boxes_of_short (by omega)
  | @last c hc =>
      simp only [List.flatten_cons, List.flatten_nil, List.append_nil] at hat hstop htail hlast
      have hend : Closed c ∨ stop = i + c.length :=
        hlast.symm.imp_left fun h => h c List.mem_cons_self
      rw [boxes_cons hc hat hstop hend, boxes_of_short (by omega)]
      rfl
  | @cons c cs hc hclosed hcs ih =>
      rw [List.flatten_cons] at hat
      rw [List.flatten_cons, List.length_append] at hstop htail hlast
      have hrest := ih hat.right (by omega) (by omega)
        (hlast.imp (by omega) fun h c' hc' => h c' (List.mem_cons_of_mem _ hc'))
      rw [boxes_cons hc hat.left (by omega) (.inl hclosed), hrest]
      rfl

/-- What is found stands there, one behind the other. -/
theorem splits_of_boxes {bs : List Box} (h : boxes buf i stop = some bs)
    (hstop : stop ≤ buf.length) :
    ∃ cs, Splits (slice buf i stop) cs ∧ bs = layout i cs := by
  induction hn : stop - i using Nat.strongRecOn generalizing i bs with
  | ind n ih =>
      subst hn
      rw [boxes_eq] at h
      split at h
      · rename_i hroom
        obtain ⟨⟨size, head⟩, hheader, h⟩ := Option.bind_eq_some_iff.1 h
        obtain ⟨rest, hrest, rfl⟩ := Option.map_eq_some_iff.1 h
        have hbounds := header_bounds hheader
        obtain ⟨hbox, hhead, hlength, hlast⟩ := isBox_of_header hheader hstop
        have hat : BytesAt buf i (slice buf i (i + size)) := .of_slice (by omega) (by omega)
        obtain ⟨cs, hcs, rfl⟩ := ih _ (by omega) hrest rfl
        obtain ⟨hboxed, tail, hslice, htail, hclosed⟩ := hcs
        refine ⟨slice buf i (i + size) :: cs, ⟨?_, tail, ?_, htail, ?_⟩, ?_⟩
        · rcases hlast with hclosed | hend
          · exact .cons hbox hclosed hboxed
          · -- nothing comes behind a box that goes to the end
            have hnil : cs = [] := by
              rw [← hend, boxes_of_short (by omega)] at hrest
              cases cs with
              | nil => rfl
              | cons c cs => exact absurd hrest (by simp [layout])
            rw [hnil]
            exact .last hbox
        · rw [List.flatten_cons, List.append_assoc, ← hslice,
            slice_append buf (by omega) (by omega)]
        · rcases hlast with hbox | hend
          · refine hclosed.imp_right fun hcs c hc => ?_
            rcases List.mem_cons.1 hc with rfl | hc
            · exact hbox
            · exact hcs c hc
          · have hnil : slice buf (i + size) stop = [] := by
              apply List.eq_nil_of_length_eq_zero
              rw [length_slice hstop]
              omega
            rw [hnil] at hslice
            exact .inl (List.append_eq_nil_iff.1 hslice.symm).2
        · rw [layout, boxAt, hlength, hhead, typeAt_eq hat (by omega)]
      · obtain rfl := Option.some.inj h
        refine ⟨[], ⟨.nil, slice buf i stop, rfl, ?_, .inr ?_⟩, rfl⟩
        · rw [length_slice hstop]
          omega
        · exact fun c hc => absurd hc List.not_mem_nil

theorem boxes_of_splits (h : Splits (slice buf i stop) cs) (hi : i ≤ stop)
    (hstop : stop ≤ buf.length) : boxes buf i stop = some (layout i cs) := by
  obtain ⟨hboxed, tail, hslice, htail, hlast⟩ := h
  have hat : BytesAt buf i (cs.flatten ++ tail) := hslice ▸ BytesAt.of_slice hi hstop
  have hlength : stop - i = cs.flatten.length + tail.length := by
    rw [← List.length_append, ← hslice, length_slice hstop]
  refine boxes_layout hboxed hat.left (by omega) (by omega) (hlast.imp_left ?_)
  rintro rfl
  rw [List.length_nil] at hlength
  omega

/-! ### Where they are -/

theorem layout_append (i : Nat) (as bs : List Bytes) :
    layout i (as ++ bs) = layout i as ++ layout (i + as.flatten.length) bs := by
  induction as generalizing i with
  | nil =>
      rfl
  | cons a as ih =>
      rw [List.cons_append, layout, layout, ih, List.flatten_cons, List.length_append, Nat.add_assoc]
      rfl

/-- A box that is found belongs to bytes. -/
theorem exists_of_layout {pre post : List Box} {b : Box} (h : layout i cs = pre ++ b :: post) :
    ∃ as c bs, cs = as ++ c :: bs ∧ pre = layout i as ∧ b = boxAt (i + as.flatten.length) c ∧
      post = layout (i + as.flatten.length + c.length) bs := by
  induction cs generalizing i pre with
  | nil =>
      exact absurd h (by simp [layout])
  | cons c cs ih =>
      cases pre with
      | nil =>
          obtain ⟨rfl, rfl⟩ := List.cons.inj h
          exact ⟨[], c, cs, rfl, rfl, rfl, rfl⟩
      | cons p pre =>
          obtain ⟨hp, hrest⟩ := List.cons.inj h
          obtain ⟨as, c', bs, rfl, rfl, rfl, rfl⟩ := ih hrest
          subst hp
          refine ⟨c :: as, c', bs, rfl, rfl, ?_, ?_⟩ <;>
            simp only [List.flatten_cons, List.length_append, Nat.add_assoc]

/-- The boxes of a range, by their bytes. -/
theorem exists_layout {bs : List Box} (h : boxes buf i stop = some bs) (hi : i ≤ stop)
    (hstop : stop ≤ buf.length) : ∃ cs, Boxed cs ∧ bs = layout i cs ∧ BytesAt buf i cs.flatten := by
  obtain ⟨cs, hcs, rfl⟩ := splits_of_boxes h hstop
  obtain ⟨tail, hslice, -⟩ := hcs.tail
  have hat : BytesAt buf i (cs.flatten ++ tail) := hslice ▸ BytesAt.of_slice hi hstop
  exact ⟨cs, hcs.boxed, rfl, hat.left⟩

/-- The boxes inside of a box. -/
theorem exists_layout_inside {bs : List Box} (hc : IsBox c) (hat : BytesAt buf i c)
    (h : inside buf (boxAt i c) = some bs) :
    ∃ cs, Boxed cs ∧ bs = layout (i + headOf c) cs ∧ BytesAt buf (i + headOf c) cs.flatten := by
  have hlength := hc.length
  have hle := hat.length_le
  exact exists_layout h (Nat.add_le_add_left hlength.2 i) hle

theorem bytesOf_boxAt (hat : BytesAt buf i c) : bytesOf buf (boxAt i c) = c :=
  hat.slice_eq

theorem bytesOf_layout (hat : BytesAt buf i cs.flatten) : (layout i cs).map (bytesOf buf) = cs := by
  induction cs generalizing i with
  | nil =>
      rfl
  | cons c cs ih =>
      rw [List.flatten_cons] at hat
      rw [layout, List.map_cons, ih hat.right, bytesOf_boxAt hat.left]

/-- The bytes of the boxes of some types. -/
theorem bytesOf_filter_layout (p : Text → Bool) (hat : BytesAt buf i cs.flatten) :
    ((layout i cs).filter (p ·.type)).map (bytesOf buf) = cs.filter (p <| typeAt · 0) := by
  induction cs generalizing i with
  | nil =>
      rfl
  | cons c cs ih =>
      rw [List.flatten_cons] at hat
      have hrest := ih hat.right
      have htype : (boxAt i c).type = typeAt c 0 := rfl
      rw [layout, List.filter_cons, List.filter_cons, htype]
      split
      · rw [List.map_cons, hrest, bytesOf_boxAt hat.left]
      · exact hrest

theorem sum_size_layout (i : Nat) (cs : List Bytes) :
    ((layout i cs).map Box.size).sum = cs.flatten.length := by
  induction cs generalizing i with
  | nil =>
      rfl
  | cons c cs ih =>
      rw [layout, List.map_cons, List.sum_cons, ih, List.flatten_cons, List.length_append]
      rfl

/-- The boxes lie in the range of their bytes. -/
theorem mem_layout {b : Box} (h : b ∈ layout i cs) :
    i ≤ b.start ∧ b.stop ≤ i + cs.flatten.length := by
  induction cs generalizing i with
  | nil =>
      exact absurd h List.not_mem_nil
  | cons c cs ih =>
      rw [List.flatten_cons, List.length_append]
      rcases List.mem_cons.1 h with rfl | h
      · have hstart : (boxAt i c).start = i := rfl
        have hstop : (boxAt i c).stop = i + c.length := rfl
        omega
      · have := ih h
        omega

/-- Two boxes of a range are one behind the other. -/
theorem layout_disjoint {b b' : Box} (hb : b ∈ layout i cs) (hb' : b' ∈ layout i cs) :
    b = b' ∨ b.stop ≤ b'.start ∨ b'.stop ≤ b.start := by
  induction cs generalizing i with
  | nil =>
      exact absurd hb List.not_mem_nil
  | cons c cs ih =>
      rcases List.mem_cons.1 hb with rfl | hb
      · rcases List.mem_cons.1 hb' with rfl | hb'
        · exact .inl rfl
        · exact .inr (.inl (mem_layout hb').1)
      · rcases List.mem_cons.1 hb' with rfl | hb'
        · exact .inr (.inr (mem_layout hb).1)
        · exact ih hb hb'

/-! ### Other sequences -/

namespace Boxed

variable {cs as bs : List Bytes} {c c' : Bytes}

theorem isBox (h : Boxed cs) : ∀ c ∈ cs, IsBox c := by
  induction h with
  | nil => exact fun c hc => absurd hc List.not_mem_nil
  | last hc => exact fun c hmem => List.mem_singleton.1 hmem ▸ hc
  | cons hc _ _ ih =>
      intro c' hmem
      rcases List.mem_cons.1 hmem with rfl | hmem
      · exact hc
      · exact ih c' hmem

theorem of_cons (h : Boxed (c :: cs)) : Boxed cs := by
  cases h with
  | last => exact .nil
  | cons _ _ hcs => exact hcs

/-- Boxes can be left out. -/
theorem sublist (h : Boxed cs) (hsub : as.Sublist cs) : Boxed as := by
  induction h generalizing as with
  | nil =>
      obtain rfl := List.sublist_nil.1 hsub
      exact .nil
  | @last c hc =>
      cases hsub with
      | cons _ hsub =>
          obtain rfl := List.sublist_nil.1 hsub
          exact .nil
      | cons_cons _ hsub =>
          obtain rfl := List.sublist_nil.1 hsub
          exact .last hc
  | @cons c cs hc hclosed hcs ih =>
      cases hsub with
      | cons _ hsub => exact ih hsub
      | cons_cons _ hsub => exact .cons hc hclosed (ih hsub)

/-- A box can be exchanged for one with a size. -/
theorem exchange (h : Boxed (as ++ c :: bs)) (hc : IsBox c') (hclosed : Closed c') :
    Boxed (as ++ c' :: bs) := by
  induction as with
  | nil => exact .cons hc hclosed (of_cons h)
  | cons a as ih =>
      have hne : as ++ c :: bs ≠ [] := by simp
      rw [List.cons_append] at h ⊢
      generalize hrest : as ++ c :: bs = rest at h hne ih
      cases h with
      | last => exact absurd rfl hne
      | cons ha hclosed' hcs => exact .cons ha hclosed' (ih hcs)

end Boxed

/-! ### Boxes in another place -/

/-- The same box further back. -/
def Box.shift (i : Nat) (b : Box) : Box := { b with start := i + b.start, body := i + b.body }

theorem Box.stop_shift (i : Nat) (b : Box) : (b.shift i).stop = i + b.stop :=
  Nat.add_assoc i b.start b.size

theorem boxAt_add (i j : Nat) (c : Bytes) : boxAt (i + j) c = (boxAt j c).shift i := by
  rw [boxAt, boxAt, Box.shift, Nat.add_assoc]

theorem layout_add (i j : Nat) (cs : List Bytes) :
    layout (i + j) cs = (layout j cs).map (Box.shift i) := by
  induction cs generalizing j with
  | nil =>
      rfl
  | cons c cs ih =>
      rw [layout, layout, List.map_cons, boxAt_add, Nat.add_assoc, ih]

theorem slice_shift {s e : Nat} (hat : BytesAt buf i c) (hse : s ≤ e) (he : e ≤ c.length) :
    slice buf (i + s) (i + e) = slice c s e := by
  have hpart : BytesAt c s (slice c s e) := .of_slice hse he
  obtain ⟨pre, post, rfl, rfl⟩ := hat
  obtain ⟨pre', post', hc, hpre'⟩ := hpart
  have hinner : BytesAt (pre ++ c ++ post) (pre.length + s) (slice c s e) := by
    refine ⟨pre ++ pre', post' ++ post, ?_, by rw [List.length_append, hpre']⟩
    conv_lhs => rw [hc]
    simp only [List.append_assoc]
  have hslice := hinner.slice_eq
  rwa [length_slice he, Nat.add_assoc, Nat.add_sub_cancel' hse] at hslice

/-- The boxes of a range only depend on its bytes. -/
theorem boxes_shift {s e : Nat} (hat : BytesAt buf i c) (hse : s ≤ e) (he : e ≤ c.length) :
    boxes buf (i + s) (i + e) = (boxes c s e).map (List.map (Box.shift i)) := by
  have hle := hat.length_le
  have hslice := slice_shift hat hse he
  cases hc : boxes c s e with
  | some bs =>
      obtain ⟨cs, hcs, rfl⟩ := splits_of_boxes hc he
      rw [boxes_of_splits (hslice.symm ▸ hcs) (by omega) (by omega), layout_add]
      rfl
  | none =>
      cases hbuf : boxes buf (i + s) (i + e) with
      | none => rfl
      | some bs =>
          obtain ⟨cs, hcs, rfl⟩ := splits_of_boxes hbuf (by omega)
          rw [boxes_of_splits (hslice ▸ hcs) hse he] at hc
          exact nomatch hc

theorem inside_shift (hat : BytesAt buf i c) {b : Box} (hb : b.body ≤ b.stop)
    (hstop : b.stop ≤ c.length) :
    inside buf (b.shift i) = (inside c b).map (List.map (Box.shift i)) := by
  rw [inside, Box.stop_shift]
  exact boxes_shift hat hb hstop

/-- A box that is found has bytes, which are a box. -/
theorem exists_of_mem_layout {b : Box} (h : b ∈ layout i cs) : ∃ c ∈ cs, ∃ j, b = boxAt j c := by
  obtain ⟨pre, post, hsplit⟩ := List.append_of_mem h
  obtain ⟨as, c, bs, rfl, -, rfl, -⟩ := exists_of_layout hsplit
  exact ⟨c, by simp, _, rfl⟩

theorem Splits.length_le {content : Bytes} (h : Splits content cs) :
    cs.flatten.length ≤ content.length := by
  obtain ⟨tail, rfl, -⟩ := h.tail
  rw [List.length_append]
  exact Nat.le_add_right _ _

/-- The boxes of a range lie in it, with their headers in them. -/
theorem mem_boxes {bs : List Box} (h : boxes buf i stop = some bs) (hstop : stop ≤ buf.length)
    {b : Box} (hb : b ∈ bs) :
    i ≤ b.start ∧ b.start + 8 ≤ b.body ∧ b.body ≤ b.stop ∧ b.stop ≤ stop := by
  obtain ⟨cs, hcs, rfl⟩ := splits_of_boxes h hstop
  have hlength := hcs.length_le
  rw [length_slice hstop] at hlength
  have hmem := mem_layout hb
  obtain ⟨c, hc, j, rfl⟩ := exists_of_mem_layout hb
  have hbox := (hcs.boxed.isBox c hc).length
  simp only [boxAt, Box.stop] at hmem ⊢
  omega

end Cameras
end GateControl
