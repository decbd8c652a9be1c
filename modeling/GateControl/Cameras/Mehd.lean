import GateControl.Cameras.Boxes
import GateControl.Library.Patches

/-!
# Mehd — the duration in the head of a clip

The head of a clip gets a box with its duration, in a container that is in a container.  Both are
built anew, with their new sizes; all other boxes are copied.  The duration is written again when
the clip is complete, at an offset that is computed beside the buffer.
-/

namespace GateControl
namespace Cameras

open Library

/-! ## The head -/

def mehdType : Text := "mehd".toList

def mvexType : Text := "mvex".toList

def moovType : Text := "moov".toList

/-- The box with the duration, in its version 1. -/
def mehd (ticks : Nat) : Bytes :=
  uint32BE 20 ++ asciiBytes mehdType ++ [1, 0, 0, 0] ++ uint64BE ticks

/-- A box with a size that is filled in when its parts are there. -/
def container (type : Text) (parts : List Bytes) : Option Bytes :=
  let buf := uint32BE 0 ++ asciiBytes type ++ parts.flatten
  if buf.length < 4294967296 then some (writeUInt32BE buf buf.length 0) else none

/-- The first box of a type, with a short header. -/
def plain (bs : List Box) (type : Text) : Option Box :=
  (bs.find? (·.type = type)).filter fun b => b.body - b.start = 8

def withMehd (init : Bytes) (ticks : Nat) : Option (Bytes × Nat) := do
  let top ← boxes init 0 init.length
  let moov ← plain top moovType
  let inner ← inside init moov
  let mvex ← plain inner mvexType
  -- a number that does not fit is not written
  guard (ticks < 18446744073709551616)
  let kids ← inside init mvex
  let newMvex ← container mvexType
    (mehd ticks :: (kids.filter (·.type ≠ mehdType)).map (bytesOf init))
  let newMoov ← container moovType
    (inner.map fun b => if b = mvex then newMvex else bytesOf init b)
  let before := ((top.filter (·.start < moov.start)).map (bytesOf init)).flatten
  let after := ((top.filter (·.start > moov.start)).map (bytesOf init)).flatten
  let off := before.length + 8 + ((inner.takeWhile (· ≠ mvex)).map Box.size).sum
  pure (before ++ newMoov ++ after, off + 8 + 12)

/-! ## Containers -/

/-- What begins with its length is a box. -/
theorem isBox_of_size {c rest : Bytes} (hc : c = uint32BE c.length ++ rest) (h8 : 8 ≤ c.length)
    (hlt : c.length < 4294967296) : IsBox c ∧ Closed c ∧ headOf c = 8 := by
  have hat : BytesAt c 0 (uint32BE c.length) := ⟨[], rest, hc, rfl⟩
  have hread : readUInt32BE c 0 = some c.length := hat.readUInt32BE hlt
  have hhead : headOf c = 8 := by
    rw [headOf, hread, if_neg]
    rw [Option.some.injEq]
    omega
  refine ⟨?_, ?_, hhead⟩
  · rw [IsBox, hhead]
    refine header_eq_some.2 ⟨declared_eq_some.2 (.inl ⟨hread, ?_, ?_, rfl⟩), h8, ?_⟩ <;> omega
  · rw [Closed, hread, ne_eq, Option.some.injEq]
    omega

theorem typeAt_of_size {c rest : Bytes} {n : Nat} {type : Text} (htype : ∀ x ∈ type, isAscii x)
    (hlength : type.length = 4) (hc : c = uint32BE n ++ (asciiBytes type ++ rest)) :
    typeAt c 0 = type := by
  have hat : BytesAt c 4 (asciiBytes type) := by
    refine ⟨uint32BE n, rest, ?_, rfl⟩
    rw [hc, List.append_assoc]
  have hslice := hat.slice_eq
  rw [length_asciiBytes htype, hlength] at hslice
  rw [typeAt, hslice, latin1_asciiBytes htype]

theorem container_eq_some {type : Text} {parts : List Bytes} {c : Bytes}
    (h : container type parts = some c) :
    c = uint32BE c.length ++ (asciiBytes type ++ parts.flatten) ∧ c.length < 4294967296 := by
  obtain ⟨hlt, h⟩ := Option.ite_none_right_eq_some.1 h
  obtain rfl := Option.some.inj h
  have hwrite : ∀ n : Nat, writeUInt32BE (uint32BE 0 ++ asciiBytes type ++ parts.flatten) n 0 =
      uint32BE n ++ (asciiBytes type ++ parts.flatten) := by
    intro n
    have hinside : writeBytes ([] ++ uint32BE 0 ++ (asciiBytes type ++ parts.flatten)) 0
        (uint32BE n) = [] ++ writeBytes (uint32BE 0) 0 (uint32BE n) ++
          (asciiBytes type ++ parts.flatten) :=
      writeBytes_inside [] _ (i := 0) (Nat.le_refl _)
    rw [List.append_assoc]
    exact hinside
  constructor
  · rw [writeUInt32BE, length_writeBytes]
    exact hwrite _
  · rw [writeUInt32BE, length_writeBytes]
    exact hlt

/-! ## One box in place of another -/

/-- Two containers have the same boxes but for one, which keeps its type and its place. -/
def Exchanged (init : Bytes) (bs : List Box) (b : Box) (out : Bytes) (bs' : List Box) (b' : Box) :
    Prop :=
  ∃ pre post pre' post', bs = pre ++ b :: post ∧ bs' = pre' ++ b' :: post' ∧
    pre'.map (bytesOf out) = pre.map (bytesOf init) ∧
    post'.map (bytesOf out) = post.map (bytesOf init) ∧ b'.type = b.type

section Exchange

variable {init out c c' : Bytes} {as bs : List Bytes} {i j : Nat}

theorem exchanged_layout (hat : BytesAt init i (as ++ c :: bs).flatten)
    (hat' : BytesAt out j (as ++ c' :: bs).flatten) (htype : typeAt c' 0 = typeAt c 0) :
    Exchanged init (layout i (as ++ c :: bs)) (boxAt (i + as.flatten.length) c)
      out (layout j (as ++ c' :: bs)) (boxAt (j + as.flatten.length) c') := by
  obtain ⟨hbefore, -, hbehind⟩ := hat.row
  obtain ⟨hbefore', -, hbehind'⟩ := hat'.row
  refine ⟨_, _, _, _, layout_append _ _ _, layout_append _ _ _, ?_, ?_, htype⟩
  · rw [bytesOf_layout hbefore, bytesOf_layout hbefore']
  · rw [bytesOf_layout hbehind, bytesOf_layout hbehind']

variable {b : Box}

theorem start_lt_stop {cs : List Bytes} (h : ∀ c ∈ cs, IsBox c) (hb : b ∈ layout i cs) :
    b.start < b.stop := by
  induction cs generalizing i with
  | nil =>
      exact absurd hb List.not_mem_nil
  | cons c cs ih =>
      rcases List.mem_cons.1 hb with rfl | hb
      · have hlength := (h c List.mem_cons_self).length
        have hstart : (boxAt i c).start = i := rfl
        have hstop : (boxAt i c).stop = i + c.length := rfl
        omega
      · exact ih (fun c' hc' => h c' (List.mem_cons_of_mem _ hc')) hb

/-- The boxes before a box start before it. -/
theorem start_lt (h : ∀ c ∈ as, IsBox c) (hb : b ∈ layout i as) :
    b.start < (boxAt (i + as.flatten.length) c).start := by
  have hstop := (mem_layout hb).2
  have hlt := start_lt_stop h hb
  have hstart : (boxAt (i + as.flatten.length) c).start = i + as.flatten.length := rfl
  omega

/-- Those behind it start behind it. -/
theorem lt_start (hc : IsBox c) (hb : b ∈ layout (i + c.length) bs) :
    (boxAt i c).start < b.start := by
  have hstart := (mem_layout hb).1
  have hlength := hc.length
  have hself : (boxAt i c).start = i := rfl
  omega

theorem filter_before (h : ∀ c' ∈ as ++ c :: bs, IsBox c') :
    (layout i (as ++ c :: bs)).filter (·.start < (boxAt (i + as.flatten.length) c).start) =
      layout i as := by
  have has : ∀ c' ∈ as, IsBox c' := fun c' hc' => h c' (List.mem_append_left _ hc')
  have hc : IsBox c := h c (by simp)
  rw [layout_append, layout, List.filter_append, List.filter_cons_of_neg (by simp),
    List.filter_eq_self.2 fun b hb => decide_eq_true (start_lt has hb),
    List.filter_eq_nil_iff.2 ?_, List.append_nil]
  intro b hb
  have hlt := lt_start hc hb
  simp only [decide_eq_true_eq]
  omega

theorem filter_behind (h : ∀ c' ∈ as ++ c :: bs, IsBox c') :
    (layout i (as ++ c :: bs)).filter (·.start > (boxAt (i + as.flatten.length) c).start) =
      layout (i + as.flatten.length + c.length) bs := by
  have has : ∀ c' ∈ as, IsBox c' := fun c' hc' => h c' (List.mem_append_left _ hc')
  have hc : IsBox c := h c (by simp)
  rw [layout_append, layout, List.filter_append, List.filter_cons_of_neg (by simp),
    List.filter_eq_self.2 fun b hb => decide_eq_true (lt_start hc hb),
    List.filter_eq_nil_iff.2 ?_, List.nil_append]
  intro b hb
  have hlt := start_lt (c := c) has hb
  simp only [decide_eq_true_eq]
  omega

theorem takeWhile_before (h : ∀ c' ∈ as ++ c :: bs, IsBox c') :
    (layout i (as ++ c :: bs)).takeWhile (· ≠ boxAt (i + as.flatten.length) c) = layout i as := by
  have has : ∀ c' ∈ as, IsBox c' := fun c' hc' => h c' (List.mem_append_left _ hc')
  rw [layout_append, layout, List.takeWhile_append_of_pos, List.takeWhile_cons_of_neg (by simp),
    List.append_nil]
  intro b hb
  have hlt := start_lt (c := c) has hb
  exact decide_eq_true fun heq => by rw [heq] at hlt; omega

/-- The parts of the new container. -/
theorem map_exchange (h : ∀ c' ∈ as ++ c :: bs, IsBox c')
    (hat : BytesAt init i (as ++ c :: bs).flatten) :
    ((layout i (as ++ c :: bs)).map fun b =>
      if b = boxAt (i + as.flatten.length) c then c' else bytesOf init b) = as ++ c' :: bs := by
  have has : ∀ c' ∈ as, IsBox c' := fun c' hc' => h c' (List.mem_append_left _ hc')
  have hc : IsBox c := h c (by simp)
  obtain ⟨hbefore, -, hbehind⟩ := hat.row
  have hleft : ((layout i as).map fun b =>
      if b = boxAt (i + as.flatten.length) c then c' else bytesOf init b) = as := by
    conv_rhs => rw [← bytesOf_layout hbefore]
    refine List.map_congr_left fun b hb => if_neg ?_
    have hlt := start_lt (c := c) has hb
    exact fun heq => by rw [heq] at hlt; omega
  have hright : ((layout (i + as.flatten.length + c.length) bs).map fun b =>
      if b = boxAt (i + as.flatten.length) c then c' else bytesOf init b) = bs := by
    conv_rhs => rw [← bytesOf_layout hbehind]
    refine List.map_congr_left fun b hb => if_neg ?_
    have hlt := lt_start hc hb
    exact fun heq => by rw [heq] at hlt; omega
  rw [layout_append, layout, List.map_append, List.map_cons, hleft, hright, if_pos rfl]

end Exchange

/-! ## The new head -/

theorem plain_eq_some {i : Nat} {cs : List Bytes} {type : Text} {b : Box}
    (h : plain (layout i cs) type = some b) :
    (layout i cs).find? (·.type = type) = some b ∧ ∃ as c bs, cs = as ++ c :: bs ∧
      b = boxAt (i + as.flatten.length) c ∧ typeAt c 0 = type ∧ headOf c = 8 := by
  obtain ⟨hfind, hhead⟩ := Option.filter_eq_some_iff.1 h
  refine ⟨hfind, ?_⟩
  obtain ⟨htype, pre, post, hsplit, -⟩ := List.find?_eq_some_iff_append.1 hfind
  obtain ⟨as, c, bs, rfl, -, rfl, -⟩ := exists_of_layout hsplit
  refine ⟨as, c, bs, rfl, rfl, of_decide_eq_true htype, ?_⟩
  have hbody : (boxAt (i + as.flatten.length) c).body =
      (boxAt (i + as.flatten.length) c).start + headOf c := rfl
  rw [hbody, Nat.add_sub_cancel_left] at hhead
  exact of_decide_eq_true hhead

theorem mehd_eq (ticks : Nat) :
    mehd ticks = uint32BE (mehd ticks).length ++
      (asciiBytes mehdType ++ ([1, 0, 0, 0] ++ uint64BE ticks)) := rfl

theorem isBox_mehd (ticks : Nat) : IsBox (mehd ticks) ∧ Closed (mehd ticks) ∧ headOf (mehd ticks) = 8 :=
  isBox_of_size (mehd_eq ticks) (by decide : 8 ≤ 20) (by decide : 20 < 4294967296)

theorem ascii_types : (∀ x ∈ mehdType, isAscii x) ∧ (∀ x ∈ mvexType, isAscii x) ∧
    ∀ x ∈ moovType, isAscii x :=
  ⟨List.all_eq_true.1 (by decide), List.all_eq_true.1 (by decide), List.all_eq_true.1 (by decide)⟩

/-- A container with boxes in it. -/
theorem isBox_container {type : Text} {parts : List Bytes} {c : Bytes}
    (h : container type parts = some c) (htype : ∀ x ∈ type, isAscii x) (hlength : type.length = 4) :
    IsBox c ∧ Closed c ∧ headOf c = 8 ∧ typeAt c 0 = type ∧
      c = (uint32BE c.length ++ asciiBytes type) ++ parts.flatten ∧
      (uint32BE c.length ++ asciiBytes type).length = 8 := by
  obtain ⟨hc, hlt⟩ := container_eq_some h
  have hheader : (uint32BE c.length ++ asciiBytes type).length = 8 := by
    rw [List.length_append, length_asciiBytes htype, hlength]
    rfl
  have h8 : 8 ≤ c.length := by
    rw [hc, ← List.append_assoc, List.length_append, hheader]
    exact Nat.le_add_right _ _
  obtain ⟨hbox, hclosed, hhead⟩ := isBox_of_size hc h8 hlt
  refine ⟨hbox, hclosed, hhead, typeAt_of_size htype hlength hc, ?_, hheader⟩
  rw [List.append_assoc]
  exact hc

/-- Where the boxes of a new container are. -/
theorem inside_container {out c hdr : Bytes} {parts : List Bytes} {i : Nat} (hat : BytesAt out i c)
    (hc : c = hdr ++ parts.flatten) (hhdr : hdr.length = 8) (hhead : headOf c = 8)
    (hparts : Boxed parts) :
    inside out (boxAt i c) = some (layout (i + 8) parts) ∧ BytesAt out (i + 8) parts.flatten := by
  have hright : BytesAt out (i + 8) parts.flatten := by
    rw [hc] at hat
    rw [← hhdr]
    exact hat.right
  have hstop : (boxAt i c).stop = i + 8 + parts.flatten.length := by
    have hlength : c.length = 8 + parts.flatten.length := by rw [hc, List.length_append, hhdr]
    rw [Nat.add_assoc, ← hlength]
    rfl
  have hbody : (boxAt i c).body = i + 8 := by rw [← hhead]; rfl
  refine ⟨?_, hright⟩
  rw [inside, hbody, hstop]
  exact boxes_layout hparts hright (Nat.le_refl _) (by omega) (.inl rfl)

/-- The duration is inserted, and nothing else changes: in the file, in the `moov` and in the
`mvex`. -/
theorem withMehd_exchanges {init out : Bytes} {ticks off : Nat}
    (h : withMehd init ticks = some (out, off)) :
    ∃ top moov inner mvex kids top' moov' inner' mvex' mehd' kids',
      boxes init 0 init.length = some top ∧ top.find? (·.type = moovType) = some moov ∧
      inside init moov = some inner ∧ inner.find? (·.type = mvexType) = some mvex ∧
      inside init mvex = some kids ∧
      boxes out 0 out.length = some top' ∧ Exchanged init top moov out top' moov' ∧
      inside out moov' = some inner' ∧ Exchanged init inner mvex out inner' mvex' ∧
      inside out mvex' = some (mehd' :: kids') ∧
      kids'.map (bytesOf out) = (kids.filter (·.type ≠ mehdType)).map (bytesOf init) ∧
      bytesOf out mehd' = mehd ticks ∧ off = mehd'.body + 4 ∧ off + 8 = mehd'.stop ∧
      slice out off (off + 8) = uint64BE ticks ∧ readUInt64BE out off = some ticks := by
  obtain ⟨top, htop, h⟩ := Option.bind_eq_some_iff.1 h
  obtain ⟨moov, hmoov, h⟩ := Option.bind_eq_some_iff.1 h
  obtain ⟨inner, hinner, h⟩ := Option.bind_eq_some_iff.1 h
  obtain ⟨mvex, hmvex, h⟩ := Option.bind_eq_some_iff.1 h
  obtain ⟨⟨⟩, hticks, h⟩ := Option.bind_eq_some_iff.1 h
  obtain ⟨kids, hkids, h⟩ := Option.bind_eq_some_iff.1 h
  obtain ⟨newMvex, hnewMvex, h⟩ := Option.bind_eq_some_iff.1 h
  obtain ⟨newMoov, hnewMoov, h⟩ := Option.bind_eq_some_iff.1 h
  have hout := Option.some.inj h
  -- the boxes of the old head, level by level
  obtain ⟨tops, hboxed, rfl, hat⟩ := exists_layout htop (Nat.zero_le _) (Nat.le_refl _)
  obtain ⟨hfind, as, m, bs, rfl, rfl, hmtype, hmhead⟩ := plain_eq_some hmoov
  obtain ⟨hbefore, hm, hbehind⟩ := hat.row
  obtain ⟨inners, hboxed', rfl, hat'⟩ := exists_layout_inside (hboxed.isBox m (by simp)) hm hinner
  obtain ⟨hfind', as', x, bs', rfl, rfl, hxtype, hxhead⟩ := plain_eq_some hmvex
  have hx := hat'.row.2.1
  obtain ⟨ks, hboxed'', rfl, hat''⟩ := exists_layout_inside (hboxed'.isBox x (by simp)) hx hkids
  -- the boxes of the new one
  rw [bytesOf_filter_layout (fun t => t ≠ mehdType) hat''] at hnewMvex
  rw [map_exchange hboxed'.isBox hat'] at hnewMoov
  obtain ⟨hv, hvclosed, hvhead, hvtype, hveq, hvlen⟩ :=
    isBox_container hnewMvex ascii_types.2.1 rfl
  obtain ⟨ho, hoclosed, hohead, hotype, hoeq, holen⟩ :=
    isBox_container hnewMoov ascii_types.2.2 rfl
  obtain ⟨hd, hdclosed, hdhead⟩ := isBox_mehd ticks
  rw [filter_before hboxed.isBox, filter_behind hboxed.isBox, takeWhile_before hboxed'.isBox,
    sum_size_layout, bytesOf_layout hbefore, bytesOf_layout hbehind, Prod.mk.injEq] at hout
  obtain ⟨hout, hoff⟩ := hout
  have hflat : out = (as ++ newMoov :: bs).flatten := by
    rw [← hout, List.flatten_append, List.flatten_cons, List.append_assoc]
  have htop' : BytesAt out 0 (as ++ newMoov :: bs).flatten := hflat ▸ BytesAt.whole out
  have hmoov' := htop'.row.2.1
  obtain ⟨hinner', hinnerat⟩ :=
    inside_container hmoov' hoeq holen hohead (hboxed'.exchange hv hvclosed)
  have hmvex' := hinnerat.row.2.1
  obtain ⟨hkids', hkidsat⟩ := inside_container hmvex' hveq hvlen hvhead
    (.cons hd hdclosed (hboxed''.sublist List.filter_sublist))
  rw [List.flatten_cons] at hkidsat
  have hticksat : BytesAt out off (uint64BE ticks) := by
    have hoff' : off = 0 + as.flatten.length + 8 + as'.flatten.length + 8 + 12 := by omega
    rw [hoff']
    exact BytesAt.right (a := uint32BE 20 ++ asciiBytes mehdType ++ [1, 0, 0, 0]) hkidsat.left
  have hfits : ticks < 18446744073709551616 := by
    by_contra hlarge
    rw [guard, if_neg hlarge] at hticks
    cases hticks
  refine ⟨_, _, _, _, _, _, _, _, _, _, _, htop, hfind, hinner, hfind', hkids, ?_,
    exchanged_layout hat htop' (hotype.trans hmtype.symm), hinner',
    exchanged_layout hat' hinnerat (hvtype.trans hxtype.symm), hkids', ?_,
    bytesOf_boxAt hkidsat.left, ?_, ?_, hticksat.slice_eq, hticksat.readUInt64BE hfits⟩
  · have hstop : out.length = 0 + (as ++ newMoov :: bs).flatten.length := by
      rw [hflat, Nat.zero_add]
    rw [hstop]
    exact boxes_layout (hboxed.exchange ho hoclosed) htop' (Nat.le_refl _) (by omega) (.inl rfl)
  · rw [bytesOf_layout hkidsat.right, bytesOf_filter_layout (fun t => t ≠ mehdType) hat'']
  · have hbody : (boxAt (0 + as.flatten.length + 8 + as'.flatten.length + 8) (mehd ticks)).body =
        0 + as.flatten.length + 8 + as'.flatten.length + 8 + 8 := by
      rw [boxAt, hdhead]
    omega
  · have hstop : (boxAt (0 + as.flatten.length + 8 + as'.flatten.length + 8) (mehd ticks)).stop =
        0 + as.flatten.length + 8 + as'.flatten.length + 8 + 20 := rfl
    omega

/-- A head with an older duration, in a `moov` that goes to the end. -/
def oldHead : Bytes :=
  [0, 0, 0, 8] ++ asciiBytes "ftyp".toList ++
    ([0, 0, 0, 0] ++ asciiBytes moovType ++
      ([0, 0, 0, 10] ++ asciiBytes "mvhd".toList ++ [7, 7]) ++
      ([0, 0, 0, 29] ++ asciiBytes mvexType ++
        ([0, 0, 0, 12] ++ asciiBytes mehdType ++ [0, 0, 0, 1]) ++
        ([0, 0, 0, 9] ++ asciiBytes "trex".toList ++ [9])))

/-- The same with a duration of 258. -/
def newHead : Bytes :=
  [0, 0, 0, 8] ++ asciiBytes "ftyp".toList ++
    ([0, 0, 0, 55] ++ asciiBytes moovType ++
      ([0, 0, 0, 10] ++ asciiBytes "mvhd".toList ++ [7, 7]) ++
      ([0, 0, 0, 37] ++ asciiBytes mvexType ++ mehd 258 ++
        ([0, 0, 0, 9] ++ asciiBytes "trex".toList ++ [9])))

theorem withMehd_exchanges_oldHead :
    withMehd oldHead 258 = some (newHead, 46) ∧ readUInt64BE newHead 46 = some 258 := by
  have hrun : withMehd oldHead 258 = some (newHead, 46) := by decide +kernel
  obtain ⟨_, _, _, _, _, _, _, _, _, _, _, -, -, -, -, -, -, -, -, -, -, -, -, -, -, -, hread⟩ :=
    withMehd_exchanges hrun
  exact ⟨hrun, hread⟩

end Cameras
end GateControl
