import GateControl.Cameras.Rebase

/-!
# Rebased — a segment box by box

The times that are found in a segment are those of its boxes, moved to where the boxes stand.  So
are the patches that write the new times, and each of them lies in its own box.
-/

namespace GateControl
namespace Cameras

open Library

/-! ## Times and patches -/

def encodeTime (version : UInt8) (n : Nat) : Bytes := if version = 1 then uint64BE n else uint32BE n

/-- The patch that writes a new time. -/
def patchOf (base : OrderedMap Nat Int) (t : DecodeTime) : Option Patch :=
  (base.get t.trackId).map fun b => (t.offset, encodeTime t.version (rebasedTime t.value b))

def patchesOf (base : OrderedMap Nat Int) (ts : List DecodeTime) : List Patch :=
  ts.filterMap (patchOf base)

/-- The time fits into its field. -/
def DecodeTime.Fits (t : DecodeTime) : Prop :=
  t.value < if t.version = 1 then 18446744073709551616 else 4294967296

/-- No track begins before 0. -/
def NonNegative (base : OrderedMap Nat Int) : Prop := ∀ track, ∀ b ∈ base.get track, 0 ≤ b

section Writing

variable {base : OrderedMap Nat Int}

theorem fits_of_timeAt {buf : Bytes} {tfhd tfdt : Box} {t : DecodeTime}
    (h : timeAt buf tfhd tfdt = some t) : t.Fits := by
  obtain ⟨version, -, h⟩ := Option.bind_eq_some_iff.1 h
  obtain ⟨value, hvalue, h⟩ := Option.bind_eq_some_iff.1 h
  obtain ⟨trackId, -, rfl⟩ := Option.map_eq_some_iff.1 h
  rw [DecodeTime.Fits]
  dsimp only
  by_cases hone : version = 1
  · rw [if_pos hone] at hvalue ⊢
    exact (readUInt64BE_bounds hvalue).2
  · rw [if_neg hone] at hvalue ⊢
    exact (readUInt32BE_bounds hvalue).2

/-- A time that is moved back still fits. -/
theorem writeTime_eq (hbase : NonNegative base) {t : DecodeTime} (ht : t.Fits) (out : Bytes) :
    writeTime base out t = some (patch out (patchOf base t).toList) := by
  rw [writeTime, patchOf]
  cases hb : base.get t.trackId with
  | none =>
      rfl
  | some b =>
      have hpos : 0 ≤ b := hbase t.trackId b hb
      have hv : (if (t.value : Int) - b < 0 then 0 else (t.value : Int) - b) =
          (rebasedTime t.value b : Int) := by
        rw [rebasedTime]
        split <;> omega
      have hle : rebasedTime t.value b ≤ t.value := by
        rw [rebasedTime]
        omega
      rw [DecodeTime.Fits] at ht
      dsimp only
      rw [hv]
      by_cases hone : t.version = 1
      · rw [if_pos hone] at ht ⊢
        rw [if_pos (by omega), Option.map_some, encodeTime, if_pos hone]
        rfl
      · rw [if_neg hone] at ht ⊢
        have hmod : ((rebasedTime t.value b : Int) % 4294967296).toNat = rebasedTime t.value b := by
          omega
        rw [hmod, Option.map_some, encodeTime, if_neg hone]
        rfl

theorem foldlM_writeTime (hbase : NonNegative base) {ts : List DecodeTime}
    (hts : ∀ t ∈ ts, t.Fits) (out : Bytes) :
    ts.foldlM (writeTime base) out = some (patch out (patchesOf base ts)) := by
  induction ts generalizing out with
  | nil =>
      rfl
  | cons t ts ih =>
      have hcons : patchesOf base (t :: ts) = (patchOf base t).toList ++ patchesOf base ts := by
        rw [patchesOf, List.filterMap_cons]
        cases patchOf base t <;> rfl
      rw [List.foldlM_cons, writeTime_eq hbase (hts t List.mem_cons_self), hcons, patch_append]
      exact ih (fun t' ht' => hts t' (List.mem_cons_of_mem _ ht')) _

end Writing

/-! ## Times of boxes one behind the other -/

/-- The times of the boxes of one type, when each box has the times `g` by itself. -/
def spreadTimes (type : Text) (g : Bytes → List DecodeTime) (i : Nat) : List Bytes → List DecodeTime
  | [] => []
  | c :: cs =>
      (if typeAt c 0 = type then (g c).map (DecodeTime.shift i) else []) ++
        spreadTimes type g (i + c.length) cs

section Spread

variable {type : Text} {g : Bytes → List DecodeTime}

theorem collect_layout {buf : Bytes} {f : Box → Option (List DecodeTime)} {cs : List Bytes}
    {i : Nat} (hf : ∀ c ∈ cs, typeAt c 0 = type → ∀ j, BytesAt buf j c →
      f (boxAt j c) = some ((g c).map (DecodeTime.shift j)))
    (hat : BytesAt buf i cs.flatten) :
    collect type f (layout i cs) = some (spreadTimes type g i cs) := by
  induction cs generalizing i with
  | nil =>
      rfl
  | cons c cs ih =>
      rw [List.flatten_cons] at hat
      have hrest := ih (fun c' hc' => hf c' (List.mem_cons_of_mem _ hc')) hat.right
      have htype : (boxAt i c).type = typeAt c 0 := rfl
      rw [collect] at hrest ⊢
      obtain ⟨tss, htss, hflat⟩ := Option.map_eq_some_iff.1 hrest
      rw [layout, List.filter_cons, htype, spreadTimes]
      by_cases hc : typeAt c 0 = type
      · rw [if_pos (decide_eq_true hc), if_pos hc, List.mapM_cons,
          hf c List.mem_cons_self hc i hat.left]
        simp [htss, hflat]
      · rw [if_neg (by simpa using hc), if_neg hc, htss, List.nil_append]
        exact congrArg some hflat

theorem spreadTimes_add (i j : Nat) (cs : List Bytes) :
    spreadTimes type g (i + j) cs = (spreadTimes type g j cs).map (DecodeTime.shift i) := by
  induction cs generalizing j with
  | nil =>
      rfl
  | cons c cs ih =>
      have hshift : ∀ ts : List DecodeTime, ts.map (DecodeTime.shift (i + j)) =
          (ts.map (DecodeTime.shift j)).map (DecodeTime.shift i) := by
        intro ts
        rw [List.map_map]
        exact List.map_congr_left fun t _ => by simp [DecodeTime.shift, Nat.add_assoc]
      rw [spreadTimes, spreadTimes, List.map_append, Nat.add_assoc, ih, hshift]
      split <;> rfl

theorem patchesOf_shift (base : OrderedMap Nat Int) (i : Nat) (ts : List DecodeTime) :
    patchesOf base (ts.map (DecodeTime.shift i)) = shiftBy i (patchesOf base ts) := by
  rw [patchesOf, patchesOf, shiftBy, List.filterMap_map, List.map_filterMap]
  refine List.filterMap_congr fun t _ => ?_
  have htrack : (t.shift i).trackId = t.trackId := rfl
  simp only [Function.comp_apply, patchOf, htrack, Option.map_map]
  rfl

/-- The patches of the times are patches of the boxes. -/
theorem patchesOf_spreadTimes (base : OrderedMap Nat Int) (i : Nat) (cs : List Bytes) :
    patchesOf base (spreadTimes type g i cs) =
      spread (fun c => if typeAt c 0 = type then patchesOf base (g c) else []) i cs := by
  induction cs generalizing i with
  | nil =>
      rfl
  | cons c cs ih =>
      have happend : ∀ as bs : List DecodeTime,
          patchesOf base (as ++ bs) = patchesOf base as ++ patchesOf base bs :=
        fun as bs => List.filterMap_append
      rw [spreadTimes, happend, ih, spread]
      split
      · rw [patchesOf_shift]
      · rfl

end Spread

/-! ## The levels of a segment -/

/-- The times of a `traf` by itself. -/
def trafTimes (t : Bytes) : List DecodeTime := (timesOfTraf t (boxAt 0 t)).getD []

/-- A `traf` whose time can be read and lies in it. -/
structure TrafOk (t : Bytes) : Prop where
  box : IsBox t
  full : fullTraf t (boxAt 0 t) = true
  times : timesOfTraf t (boxAt 0 t) = some (trafTimes t)

def moofTimes (m : Bytes) : List DecodeTime := (timesOfMoof m (boxAt 0 m)).getD []

/-- A `moof` with these boxes. -/
structure MoofOk (m : Bytes) (ds : List Bytes) : Prop where
  box : IsBox m
  splits : Splits (m.drop (headOf m)) ds
  trafs : ∀ d ∈ ds, typeAt d 0 = trafType → TrafOk d

section Levels

variable {buf t m : Bytes} {ds cs : List Bytes} {i : Nat}

theorem IsBox.boxAt_bounds {c : Bytes} (hc : IsBox c) :
    (boxAt 0 c).body ≤ (boxAt 0 c).stop ∧ (boxAt 0 c).stop ≤ c.length := by
  have hlength := hc.length
  simp only [boxAt, Box.stop]
  omega

theorem TrafOk.times_at (h : TrafOk t) (hat : BytesAt buf i t) :
    timesOfTraf buf (boxAt i t) = some ((trafTimes t).map (DecodeTime.shift i)) := by
  have hbounds := h.box.boxAt_bounds
  have hshift := timesOfTraf_shift hat hbounds.1 hbounds.2 h.full
  rw [← boxAt_add, Nat.add_zero] at hshift
  rw [hshift, h.times]
  rfl

/-- A `traf` whose time can be read in a buffer. -/
theorem trafOk_of_buffer (hbox : IsBox t) (hat : BytesAt buf i t)
    (hfull : fullTraf buf (boxAt i t) = true) {ts : List DecodeTime}
    (hts : timesOfTraf buf (boxAt i t) = some ts) : TrafOk t := by
  have hbounds := hbox.boxAt_bounds
  have hat0 : boxAt i t = (boxAt 0 t).shift i := by rw [← boxAt_add, Nat.add_zero]
  rw [hat0, fullTraf_shift hat hbounds.1 hbounds.2] at hfull
  rw [hat0, timesOfTraf_shift hat hbounds.1 hbounds.2 hfull] at hts
  obtain ⟨ts', hts', -⟩ := Option.map_eq_some_iff.1 hts
  refine ⟨hbox, hfull, ?_⟩
  rw [trafTimes, hts']
  rfl

/-- What is inside of a box that stands in a buffer. -/
theorem inside_of_splits {c : Bytes} (hc : IsBox c) (hds : Splits (c.drop (headOf c)) ds)
    (hat : BytesAt buf i c) : inside buf (boxAt i c) = some (layout (i + headOf c) ds) := by
  have hlength := hc.length
  have hle := hat.length_le
  have hslice : slice buf (i + headOf c) (i + c.length) = c.drop (headOf c) := by
    rw [slice_shift hat hlength.2 (Nat.le_refl _), slice, List.take_length]
  exact boxes_of_splits (hslice.symm ▸ hds) (Nat.add_le_add_left hlength.2 i) hle

theorem splits_of_inside {c : Bytes} (hc : IsBox c) (hat : BytesAt buf i c) {bs : List Box}
    (h : inside buf (boxAt i c) = some bs) :
    ∃ ds, Splits (c.drop (headOf c)) ds ∧ bs = layout (i + headOf c) ds := by
  have hlength := hc.length
  have hslice : slice buf (i + headOf c) (i + c.length) = c.drop (headOf c) := by
    rw [slice_shift hat hlength.2 (Nat.le_refl _), slice, List.take_length]
  obtain ⟨ds, hds, hbs⟩ := splits_of_boxes h hat.length_le
  exact ⟨ds, hslice ▸ hds, hbs⟩

theorem bytesAt_children {c : Bytes} (hds : Splits (c.drop (headOf c)) ds) (hat : BytesAt buf i c)
    (hc : IsBox c) : BytesAt buf (i + headOf c) ds.flatten := by
  obtain ⟨tail, htail, -⟩ := hds.tail
  have hsplit : c = c.take (headOf c) ++ (ds.flatten ++ tail) := by
    rw [← htail, List.take_append_drop]
  rw [hsplit] at hat
  have hhead : (c.take (headOf c)).length = headOf c := by
    rw [List.length_take, Nat.min_eq_left hc.length.2]
  rw [← hhead]
  exact hat.right.left

theorem MoofOk.times_at (h : MoofOk m ds) (hat : BytesAt buf i m) :
    timesOfMoof buf (boxAt i m) =
      some (spreadTimes trafType trafTimes (i + headOf m) ds) := by
  rw [timesOfMoof, inside_of_splits h.box h.splits hat, Option.bind_some]
  exact collect_layout (fun d hd htype j hatd => (h.trafs d hd htype).times_at hatd)
    (bytesAt_children h.splits hat h.box)

theorem MoofOk.moofTimes_eq (h : MoofOk m ds) :
    moofTimes m = spreadTimes trafType trafTimes (headOf m) ds := by
  rw [moofTimes, h.times_at (BytesAt.whole m), Nat.zero_add]
  rfl

/-- The times of the boxes of a segment. -/
theorem collect_moofs (hcs : ∀ c ∈ cs, typeAt c 0 = moofType → ∃ ds, MoofOk c ds)
    (hat : BytesAt buf i cs.flatten) :
    collect moofType (timesOfMoof buf) (layout i cs) =
      some (spreadTimes moofType moofTimes i cs) := by
  refine collect_layout (fun c hc htype j hatc => ?_) hat
  obtain ⟨ds, hds⟩ := hcs c hc htype
  rw [hds.times_at hatc, hds.moofTimes_eq, spreadTimes_add]

/-! ### A segment that is read -/

theorem exists_at {c : Bytes} (hc : c ∈ cs) (hat : BytesAt buf i cs.flatten) :
    ∃ j, boxAt j c ∈ layout i cs ∧ BytesAt buf j c := by
  obtain ⟨as, bs, rfl⟩ := List.append_of_mem hc
  refine ⟨i + as.flatten.length, ?_, hat.row.2.1⟩
  rw [layout_append, layout]
  exact List.mem_append_right _ List.mem_cons_self

theorem of_collect {type : Text} {f : Box → Option (List DecodeTime)} {bs : List Box}
    {ts : List DecodeTime} (h : collect type f bs = some ts) {b : Box} (hb : b ∈ bs)
    (htype : b.type = type) : ∃ ts', f b = some ts' := by
  obtain ⟨tss, htss, -⟩ := Option.map_eq_some_iff.1 h
  have hmem : b ∈ bs.filter (·.type = type) := List.mem_filter.2 ⟨hb, decide_eq_true htype⟩
  obtain ⟨ts', -, hts'⟩ := mem_of_mapM htss hmem
  exact ⟨ts', hts'⟩

theorem of_everyTraf {test : Box → Box → Bool} (h : everyTraf test buf = true) {top inner : List Box}
    (htop : boxes buf 0 buf.length = some top) {moof traf : Box} (hmoof : moof ∈ top)
    (hmtype : moof.type = moofType) (hinner : inside buf moof = some inner) (htraf : traf ∈ inner)
    (httype : traf.type = trafType) : ofTraf test buf traf = true := by
  rw [everyTraf, htop, Option.all_some, List.all_eq_true] at h
  have hm := h moof (List.mem_filter.2 ⟨hmoof, decide_eq_true hmtype⟩)
  rw [hinner, Option.all_some, List.all_eq_true] at hm
  exact hm traf (List.mem_filter.2 ⟨htraf, decide_eq_true httype⟩)

/-- The boxes of a segment whose times are read, and long enough. -/
theorem moofs_ok (htop : boxes buf 0 buf.length = some (layout 0 cs)) (hboxed : Boxed cs)
    (hat : BytesAt buf 0 cs.flatten) {ts : List DecodeTime} (hts : tfdtsOf buf = some ts)
    (htfdts : fullTfdts buf = true) (htfhds : fullTfhds buf = true) :
    ∀ c ∈ cs, typeAt c 0 = moofType → ∃ ds, MoofOk c ds := by
  intro c hc hmtype
  rw [tfdtsOf, htop, Option.bind_some] at hts
  obtain ⟨j, hmem, hatc⟩ := exists_at hc hat
  obtain ⟨tsm, htsm⟩ := of_collect hts hmem hmtype
  obtain ⟨inner, hinner, hcollect⟩ := Option.bind_eq_some_iff.1 htsm
  have hbox := hboxed.isBox c hc
  obtain ⟨ds, hds, rfl⟩ := splits_of_inside hbox hatc hinner
  refine ⟨ds, hbox, hds, fun d hd httype => ?_⟩
  obtain ⟨k, hmemd, hatd⟩ := exists_at hd (bytesAt_children hds hatc hbox)
  obtain ⟨tst, htst⟩ := of_collect hcollect hmemd httype
  have hfull : fullTraf buf (boxAt k d) = true := by
    rw [fullTraf, of_everyTraf htfdts htop hmem hmtype hinner hmemd httype,
      of_everyTraf htfhds htop hmem hmtype hinner hmemd httype]
    rfl
  exact trafOk_of_buffer (hds.boxed.isBox d hd) hatd hfull htst

end Levels

end Cameras
end GateControl
