import GateControl.Cameras.Rebased
import Mathlib.Data.List.Forall2

/-!
# DecodeTimes — the times of a rebased segment

The patches of a segment write the new boxes, and the new boxes have the new times where the old
ones had theirs.
-/

namespace GateControl
namespace Cameras

open Library

/-! ## Boxes with the same header -/

structure SameHead (old new : Bytes) : Prop where
  length : new.length = old.length
  head : ∀ j < headOf old, new[j]? = old[j]?

section SameHead

variable {c c' : Bytes} {cs cs' ds ds' : List Bytes} {i : Nat}

theorem SameHead.refl (c : Bytes) : SameHead c c := ⟨rfl, fun _ _ => rfl⟩

theorem eight_le_headOf (c : Bytes) : 8 ≤ headOf c := by
  rw [headOf]
  split <;> omega

theorem SameHead.read (h : SameHead c c') : readUInt32BE c' 0 = readUInt32BE c 0 := by
  have h8 := eight_le_headOf c
  exact readUInt32BE_congr fun j _ hj => h.head j (by omega)

theorem SameHead.headOf (h : SameHead c c') : headOf c' = headOf c := by
  rw [Cameras.headOf, Cameras.headOf, h.read]

theorem SameHead.typeAt (h : SameHead c c') : typeAt c' 0 = typeAt c 0 := by
  have h8 := eight_le_headOf c
  rw [Cameras.typeAt, Cameras.typeAt,
    slice_congr (a := c') (b := c) fun j _ hj => h.head j (by omega)]

theorem SameHead.boxAt (h : SameHead c c') (i : Nat) : boxAt i c' = boxAt i c := by
  rw [Cameras.boxAt, Cameras.boxAt, h.typeAt, h.length, h.headOf]

theorem SameHead.closed (h : SameHead c c') (hc : Closed c) : Closed c' := by
  rw [Closed, h.read]
  exact hc

theorem SameHead.isBox (h : SameHead c c') (hc : IsBox c) : IsBox c' := by
  obtain ⟨hdeclared, hhead, hend⟩ := header_eq_some.1 hc
  rw [IsBox, h.length, h.headOf]
  refine header_eq_some.2 ⟨declared_eq_some.2 ?_, hhead, hend⟩
  rw [h.read]
  rcases declared_eq_some.1 hdeclared with hshort | ⟨hone, h16, hbig, hle, hhd⟩ | hopen
  · exact .inl hshort
  · have hlong : readUInt64BE c' (0 + 8) = readUInt64BE c (0 + 8) := by
      rw [readUInt64BE, readUInt64BE, readUInt32BE_congr fun j _ hj => h.head j (by omega),
        readUInt32BE_congr fun j _ hj => h.head j (by omega)]
    exact .inr (.inl ⟨hone, h16, by rw [hlong]; exact hbig, hle, hhd⟩)
  · exact .inr (.inr hopen)

/-- Boxes with the same headers stand in the same places. -/
theorem layout_sameHead (h : List.Forall₂ SameHead cs cs') (i : Nat) :
    layout i cs' = layout i cs := by
  induction h generalizing i with
  | nil =>
      rfl
  | cons hc _ ih =>
      rw [layout, layout, hc.boxAt, hc.length, ih]

theorem Boxed.sameHead (hcs : Boxed cs) (h : List.Forall₂ SameHead cs cs') : Boxed cs' := by
  induction hcs generalizing cs' with
  | nil =>
      cases h
      exact .nil
  | last hc =>
      cases h with
      | cons hhead hrest =>
          cases hrest
          exact .last (hhead.isBox hc)
  | cons hc hclosed _ ih =>
      cases h with
      | cons hhead hrest => exact .cons (hhead.isBox hc) (hhead.closed hclosed) (ih hrest)

theorem closed_sameHead (hcs : ∀ c ∈ cs, Closed c) (h : List.Forall₂ SameHead cs cs') :
    ∀ c ∈ cs', Closed c := by
  induction h with
  | nil =>
      exact hcs
  | cons hhead _ ih =>
      intro c hc
      rcases List.mem_cons.1 hc with rfl | hc
      · exact hhead.closed (hcs _ List.mem_cons_self)
      · exact ih (fun c hc => hcs c (List.mem_cons_of_mem _ hc)) c hc

theorem length_flatten_sameHead (h : List.Forall₂ SameHead cs cs') :
    cs'.flatten.length = cs.flatten.length := by
  induction h with
  | nil =>
      rfl
  | cons hc _ ih =>
      rw [List.flatten_cons, List.flatten_cons, List.length_append, List.length_append, hc.length, ih]

theorem children_eq (hc : IsBox c) (hds : Splits (c.drop (Cameras.headOf c)) ds) : children c = ds := by
  have hinside := inside_of_splits hc hds (BytesAt.whole c)
  have hat := bytesAt_children hds (BytesAt.whole c) hc
  rw [children, hinside, Option.getD_some, bytesOf_layout hat]

/-- A box with new boxes in it, of the same headers as those before. -/
theorem withChildren_eq {tail : Bytes}
    (hsplit : c.drop (Cameras.headOf c) = ds.flatten ++ tail) (hds : children c = ds)
    (ds' : List Bytes) :
    withChildren c ds' = c.take (Cameras.headOf c) ++ ds'.flatten ++ tail := by
  rw [withChildren, hds, ← List.drop_drop, hsplit, List.drop_left]

theorem SameHead.withChildren (hc : IsBox c) (hds : Splits (c.drop (Cameras.headOf c)) ds)
    (h : List.Forall₂ SameHead ds ds') :
    SameHead c (withChildren c ds') ∧
      Splits ((withChildren c ds').drop (Cameras.headOf c)) ds' := by
  obtain ⟨hboxed, tail, hsplit, htail, hlast⟩ := hds
  have heq := withChildren_eq hsplit
    (children_eq hc ⟨hboxed, tail, hsplit, htail, hlast⟩) ds'
  have hlength := hc.length
  have htake : (c.take (Cameras.headOf c)).length = Cameras.headOf c := by
    rw [List.length_take, Nat.min_eq_left hlength.2]
  rw [heq]
  refine ⟨⟨?_, fun j hj => ?_⟩, hboxed.sameHead h, tail, ?_, htail, ?_⟩
  · have hwhole := congrArg List.length hsplit
    rw [List.length_drop, List.length_append] at hwhole
    rw [List.length_append, List.length_append, htake, length_flatten_sameHead h]
    omega
  · rw [List.append_assoc, List.getElem?_append_left (by omega), List.getElem?_take, if_pos hj]
  · rw [List.append_assoc]
    exact List.drop_left' htake
  · exact hlast.imp_right fun hclosed => closed_sameHead hclosed h

end SameHead

/-! ## One `traf` -/

/-- A `traf` with a time, which stands in the box `d`. -/
structure TimedTraf (t : Bytes) (time : DecodeTime) (as : List Bytes) (d : Bytes)
    (bs : List Bytes) : Prop where
  splits : Splits (t.drop (headOf t)) (as ++ d :: bs)
  first : ∀ a ∈ as, typeAt a 0 ≠ tfdtType
  type : typeAt d 0 = tfdtType
  times : trafTimes t = [time]
  track : trackOf t = some time.trackId
  offset : time.offset = headOf t + as.flatten.length + headOf d + 4
  version : d[headOf d]? = some time.version
  value : (if time.version = 1 then readUInt64BE d (headOf d + 4)
    else readUInt32BE d (headOf d + 4)) = some time.value

/-- The first box of a type among those that stand one behind the other. -/
theorem find?_layout (type : Text) (i : Nat) (cs : List Bytes) :
    ((layout i cs).find? (·.type = type) = none ∧ cs.find? (typeAt · 0 = type) = none) ∨
    ∃ as c bs, cs = as ++ c :: bs ∧ (∀ a ∈ as, typeAt a 0 ≠ type) ∧ typeAt c 0 = type ∧
      (layout i cs).find? (·.type = type) = some (boxAt (i + as.flatten.length) c) ∧
      cs.find? (typeAt · 0 = type) = some c := by
  induction cs generalizing i with
  | nil =>
      exact .inl ⟨rfl, rfl⟩
  | cons c cs ih =>
      have htype : (boxAt i c).type = typeAt c 0 := rfl
      by_cases hc : typeAt c 0 = type
      · refine .inr ⟨[], c, cs, rfl, fun a ha => absurd ha List.not_mem_nil, hc, ?_, ?_⟩
        · rw [layout, List.find?_cons_of_pos (by simpa [htype] using hc)]
          rfl
        · rw [List.find?_cons_of_pos (by simpa using hc)]
      · rw [layout, List.find?_cons_of_neg (by simpa [htype] using hc),
          List.find?_cons_of_neg (by simpa using hc)]
        rcases ih (i + c.length) with hnone | ⟨as, d, bs, rfl, hfirst, hd, hbox, hfind⟩
        · exact .inl hnone
        · refine .inr ⟨c :: as, d, bs, rfl, ?_, hd, ?_, hfind⟩
          · intro a ha
            rcases List.mem_cons.1 ha with rfl | ha
            · exact hc
            · exact hfirst a ha
          · rw [hbox, List.flatten_cons, List.length_append, Nat.add_assoc]

section Traf

variable {t d : Bytes} {as bs : List Bytes} {time : DecodeTime}

/-- The boxes of a `traf` that can be read. -/
theorem TrafOk.exists_splits (h : TrafOk t) : ∃ ds, Splits (t.drop (headOf t)) ds := by
  have htimes := h.times
  obtain ⟨tfhd, htfhd, -⟩ := Option.bind_eq_some_iff.1 htimes
  obtain ⟨bs, hinside, -⟩ := Option.map_eq_some_iff.1 htfhd
  obtain ⟨ds, hds, -⟩ := splits_of_inside h.box (BytesAt.whole t) hinside
  exact ⟨ds, hds⟩

theorem childOf_of_splits {c : Bytes} {ds : List Bytes} (hc : IsBox c)
    (hds : Splits (c.drop (headOf c)) ds) (type : Text) :
    childOf c (boxAt 0 c) type = some ((layout (headOf c) ds).find? (·.type = type)) := by
  rw [childOf, inside_of_splits hc hds (BytesAt.whole c), Nat.zero_add]
  rfl

theorem fullTfdt_room {buf : Bytes} {tfdt : Box} {version : UInt8}
    (hversion : buf[tfdt.body]? = some version) (h : fullTfdt buf tfdt = true) :
    tfdt.body + (if version = 1 then 12 else 8) ≤ tfdt.stop := by
  by_cases hone : version = 1 <;> simpa [fullTfdt, hversion, hone] using h

/-- What is read of a full `tfdt` in the `traf` is read in the box itself. -/
theorem read_tfdt {pos : Nat} {version : UInt8} {value : Nat} (hat : BytesAt t pos d)
    (hversion : t[(boxAt pos d).body]? = some version) (hfull : fullTfdt t (boxAt pos d) = true)
    (hvalue : (if version = 1 then readUInt64BE t ((boxAt pos d).body + 4)
      else readUInt32BE t ((boxAt pos d).body + 4)) = some value) :
    d[headOf d]? = some version ∧
      (if version = 1 then readUInt64BE d (headOf d + 4)
        else readUInt32BE d (headOf d + 4)) = some value := by
  have hroom := fullTfdt_room hversion hfull
  simp only [boxAt, Box.stop] at hroom hversion hvalue
  refine ⟨?_, ?_⟩
  · rw [← hversion]
    refine (hat.getElem? ?_).symm
    split at hroom <;> omega
  · rw [← hvalue, Nat.add_assoc pos]
    split
    · rename_i hone
      rw [if_pos hone] at hroom
      exact (hat.readUInt64BE_add (by omega)).symm
    · rename_i hone
      rw [if_neg hone] at hroom
      exact (hat.readUInt32BE_add (by omega)).symm

/-- And so is the number of the track in a full `tfhd`. -/
theorem read_tfhd {pos : Nat} {c : Bytes} (hat : BytesAt t pos c)
    (hfull : fullTfhd (boxAt pos c) = true) :
    readUInt32BE t ((boxAt pos c).body + 4) = readUInt32BE c (headOf c + 4) := by
  have hroom := of_decide_eq_true hfull
  simp only [boxAt, Box.stop] at hroom ⊢
  rw [Nat.add_assoc pos]
  exact hat.readUInt32BE_add (by omega)

/-- A `traf` has no time, or it has one in its first `tfdt`. -/
theorem TrafOk.cases (h : TrafOk t) :
    (trafTimes t = [] ∧ trackOf t = none) ∨ ∃ time as d bs, TimedTraf t time as d bs := by
  obtain ⟨ds, hds⟩ := h.exists_splits
  have hchildren := children_eq h.box hds
  have htimes := h.times
  have hfull := h.full
  rw [timesOfTraf, childOf_of_splits h.box hds, childOf_of_splits h.box hds, Option.bind_some,
    Option.bind_some] at htimes
  rw [fullTraf, ofTraf, ofTraf, childOf_of_splits h.box hds, childOf_of_splits h.box hds] at hfull
  rcases find?_layout tfhdType (headOf t) ds with ⟨hhd, hhdc⟩ |
    ⟨hs, hc, hs', hsplit, -, hhdtype, hhd, hhdc⟩
  · rw [hhd] at htimes
    refine .inl ⟨(Option.some.inj htimes).symm, ?_⟩
    rw [trackOf, hchildren, hhdc]
    rfl
  · rcases find?_layout tfdtType (headOf t) ds with ⟨hdt, hdtc⟩ |
      ⟨as, d, bs, hsplit', hfirst, hdtype, hdt, hdtc⟩
    · rw [hhd, hdt] at htimes
      refine .inl ⟨(Option.some.inj htimes).symm, ?_⟩
      rw [trackOf, hchildren, hhdc, hdtc]
      rfl
    · rw [hhd, hdt] at htimes hfull
      obtain ⟨time, htime, htimes⟩ := Option.map_eq_some_iff.1 htimes
      obtain ⟨version, hversion, htime⟩ := Option.bind_eq_some_iff.1 htime
      obtain ⟨value, hvalue, htime⟩ := Option.bind_eq_some_iff.1 htime
      obtain ⟨trackId, htrack, rfl⟩ := Option.map_eq_some_iff.1 htime
      have hat := bytesAt_children hds (BytesAt.whole t) h.box
      rw [Nat.zero_add] at hat
      have hathd : BytesAt t (headOf t + hs.flatten.length) hc := (hsplit ▸ hat).row.2.1
      have hatdt : BytesAt t (headOf t + as.flatten.length) d := (hsplit' ▸ hat).row.2.1
      obtain ⟨hhdfull, hdtfull⟩ : fullTfhd (boxAt (headOf t + hs.flatten.length) hc) = true ∧
          fullTfdt t (boxAt (headOf t + as.flatten.length) d) = true := by
        simpa using hfull
      obtain ⟨hversion', hvalue'⟩ := read_tfdt hatdt hversion hdtfull hvalue
      rw [read_tfhd hathd hhdfull] at htrack
      refine .inr ⟨_, as, d, bs, hsplit' ▸ hds, hfirst, hdtype, htimes.symm, ?_, rfl, hversion', hvalue'⟩
      rw [trackOf, hchildren, hhdc, hdtc]
      exact htrack

theorem length_encodeTime (version : UInt8) (n : Nat) :
    (encodeTime version n).length = if version = 1 then 8 else 4 := by
  rw [encodeTime]
  split <;> rfl

/-- There is room for the time. -/
theorem TimedTraf.room (h : TimedTraf t time as d bs) (n : Nat) :
    headOf d + 4 + (encodeTime time.version n).length ≤ d.length := by
  have hvalue := h.value
  rw [length_encodeTime]
  split at hvalue
  · rename_i hone
    rw [if_pos hone]
    exact (readUInt64BE_bounds hvalue).1
  · rename_i hone
    rw [if_neg hone]
    exact (readUInt32BE_bounds hvalue).1

theorem TimedTraf.rebaseTfdt_eq (h : TimedTraf t time as d bs) (b : Int) :
    rebaseTfdt b d =
      writeBytes d (headOf d + 4) (encodeTime time.version (rebasedTime time.value b)) := by
  have hvalue := h.value
  rw [rebaseTfdt, h.version, encodeTime]
  by_cases hone : time.version = 1
  · rw [if_pos hone] at hvalue ⊢
    rw [if_pos (congrArg some hone), hvalue]
    rfl
  · rw [if_neg hone] at hvalue ⊢
    rw [if_neg (fun heq => hone (Option.some.inj heq)), hvalue]
    rfl

theorem sameHead_rebaseTfdt (h : TimedTraf t time as d bs) (b : Int) :
    SameHead d (rebaseTfdt b d) := by
  rw [h.rebaseTfdt_eq]
  exact ⟨length_writeBytes _ _ _, fun j hj => getElem?_writeBytes_of_outside _ (by omega)⟩

theorem sameHead_exchange (h : TimedTraf t time as d bs) (b : Int) :
    List.Forall₂ SameHead (as ++ d :: bs) (as ++ rebaseTfdt b d :: bs) := by
  refine List.rel_append (List.forall₂_same.2 fun c _ => .refl c) (.cons (sameHead_rebaseTfdt h b) ?_)
  exact List.forall₂_same.2 fun c _ => .refl c

/-- The patch of a `traf` writes its `tfdt` anew. -/
theorem TimedTraf.patch (h : TimedTraf t time as d bs) (ht : IsBox t) (b : Int) :
    writeBytes t time.offset (encodeTime time.version (rebasedTime time.value b)) =
      withChildren t (as ++ rebaseTfdt b d :: bs) := by
  obtain ⟨tail, hsplit, -⟩ := h.splits.tail
  have htake : (t.take (headOf t)).length = headOf t := by
    rw [List.length_take, Nat.min_eq_left ht.length.2]
  have hparts : t = (t.take (headOf t) ++ as.flatten) ++ d ++ (bs.flatten ++ tail) := by
    conv_lhs => rw [← List.take_append_drop (headOf t) t, hsplit]
    simp only [List.flatten_append, List.flatten_cons, List.append_assoc]
  have hoffset : time.offset = (t.take (headOf t) ++ as.flatten).length + (headOf d + 4) := by
    rw [List.length_append, htake, h.offset, Nat.add_assoc]
  rw [withChildren_eq hsplit (children_eq ht h.splits), h.rebaseTfdt_eq]
  conv_lhs => rw [hparts, hoffset, writeBytes_inside _ _ (h.room _)]
  simp only [List.flatten_append, List.flatten_cons, List.append_assoc]

theorem exchangeFirst_append {type : Text} (f : Bytes → Bytes) {c : Bytes}
    (has : ∀ a ∈ as, typeAt a 0 ≠ type) (hc : typeAt c 0 = type) :
    exchangeFirst type f (as ++ c :: bs) = as ++ f c :: bs := by
  induction as with
  | nil =>
      exact if_pos hc
  | cons a as ih =>
      rw [List.cons_append, exchangeFirst, if_neg (has a List.mem_cons_self),
        ih fun a' ha' => has a' (List.mem_cons_of_mem _ ha')]
      rfl

theorem TimedTraf.rebaseTraf_eq (h : TimedTraf t time as d bs) (ht : IsBox t)
    (base : OrderedMap Nat Int) :
    rebaseTraf base t = match base.get time.trackId with
      | none => t
      | some b => withChildren t (as ++ rebaseTfdt b d :: bs) := by
  rw [rebaseTraf, h.track, children_eq ht h.splits, Option.bind_some]
  cases base.get time.trackId with
  | none => rfl
  | some b => exact congrArg (withChildren t) (exchangeFirst_append _ h.first h.type)

/-- The time of a track that is in the map is moved. -/
def DecodeTime.renewed (base : OrderedMap Nat Int) (t : DecodeTime) : DecodeTime :=
  { t with
    value := match base.get t.trackId with
      | none => t.value
      | some b => rebasedTime t.value b }

/-- Where the boxes of a `traf` are, and its time in them. -/
theorem TrafOk.boxes_of_time (h : TrafOk t) (htimes : trafTimes t = [time]) :
    ∃ tfhd tfdt, childOf t (boxAt 0 t) tfhdType = some (some tfhd) ∧
      childOf t (boxAt 0 t) tfdtType = some (some tfdt) ∧ timeAt t tfhd tfdt = some time := by
  have hall := h.times
  rw [htimes, timesOfTraf] at hall
  obtain ⟨tfhd, htfhd, hall⟩ := Option.bind_eq_some_iff.1 hall
  obtain ⟨tfdt, htfdt, hall⟩ := Option.bind_eq_some_iff.1 hall
  cases tfhd with
  | none => exact absurd (Option.some.inj hall) (by simp)
  | some tfhd =>
      cases tfdt with
      | none => exact absurd (Option.some.inj hall) (by simp)
      | some tfdt =>
          obtain ⟨time', htime, heq⟩ := Option.map_eq_some_iff.1 hall
          obtain rfl : time' = time := (List.cons.inj heq).1
          exact ⟨tfhd, tfdt, htfhd, htfdt, htime⟩

/-- The new time is read where the old one was. -/
theorem timeAt_writeBytes {tfhd tfdt : Box} {n : Nat} (htime : timeAt t tfhd tfdt = some time)
    (hn : n ≤ time.value) (htfhd : tfhd.body + 8 ≤ tfhd.stop)
    (htfdt : tfdt.body + (if time.version = 1 then 12 else 8) ≤ tfdt.stop)
    (hstop : tfdt.stop ≤ t.length) (hbody : tfhd.start ≤ tfhd.body) (hbody' : tfdt.start ≤ tfdt.body)
    (hdisjoint : tfhd.stop ≤ tfdt.start ∨ tfdt.stop ≤ tfhd.start) :
    timeAt (writeBytes t time.offset (encodeTime time.version n)) tfhd tfdt =
      some { time with value := n } := by
  have hfits := fits_of_timeAt htime
  obtain ⟨version, hversion, htime⟩ := Option.bind_eq_some_iff.1 htime
  obtain ⟨value, hvalue, htime⟩ := Option.bind_eq_some_iff.1 htime
  obtain ⟨trackId, htrack, rfl⟩ := Option.map_eq_some_iff.1 htime
  rw [DecodeTime.Fits] at hfits
  dsimp only at hfits hn htfdt ⊢
  have hroom : tfdt.body + 4 + (encodeTime version n).length ≤ tfdt.stop := by
    rw [length_encodeTime]
    by_cases hone : version = 1
    · rw [if_pos hone] at htfdt ⊢
      exact htfdt
    · rw [if_neg hone] at htfdt ⊢
      exact htfdt
  have hlen : (writeBytes t (tfdt.body + 4) (encodeTime version n)).length = t.length :=
    length_writeBytes _ _ _
  have hat : BytesAt (writeBytes t (tfdt.body + 4) (encodeTime version n)) (tfdt.body + 4)
      (encodeTime version n) := by
    have hslice : slice (writeBytes t (tfdt.body + 4) (encodeTime version n)) (tfdt.body + 4)
        (tfdt.body + 4 + (encodeTime version n).length) = encodeTime version n :=
      slice_writeBytes t (by omega)
    conv => arg 3; rw [← hslice]
    exact .of_slice (by omega) (by omega)
  -- the version stands before the time that is written
  have hversion' : (writeBytes t (tfdt.body + 4) (encodeTime version n))[tfdt.body]? =
      some version := by
    rw [getElem?_writeBytes_of_outside _ (by omega), hversion]
  -- and the number of the track in another box
  have htrack' : readUInt32BE (writeBytes t (tfdt.body + 4) (encodeTime version n)) (tfhd.body + 4) =
      some trackId := by
    rw [← htrack]
    exact readUInt32BE_congr fun j hlo hhi => getElem?_writeBytes_of_outside _ (by omega)
  -- four or eight bytes, as the version says
  have hvalue' : (if version = 1 then
        readUInt64BE (writeBytes t (tfdt.body + 4) (encodeTime version n)) (tfdt.body + 4)
      else readUInt32BE (writeBytes t (tfdt.body + 4) (encodeTime version n)) (tfdt.body + 4)) =
      some n := by
    by_cases hone : version = 1
    · rw [if_pos hone] at hfits ⊢
      have henc : encodeTime version n = uint64BE n := if_pos hone
      rw [henc] at hat ⊢
      exact hat.readUInt64BE (by omega)
    · rw [if_neg hone] at hfits ⊢
      have henc : encodeTime version n = uint32BE n := if_neg hone
      rw [henc] at hat ⊢
      exact hat.readUInt32BE (by omega)
  rw [timeAt, hversion', Option.bind_some, hvalue', htrack']
  rfl

theorem rebasedTime_le {v : Nat} {b : Int} (hb : 0 ≤ b) : rebasedTime v b ≤ v := by
  rw [rebasedTime]
  omega

theorem start_le_body {i : Nat} {cs : List Bytes} {b : Box} (h : b ∈ layout i cs) :
    b.start ≤ b.body := by
  obtain ⟨c, -, j, rfl⟩ := exists_of_mem_layout h
  exact Nat.le_add_right _ _

theorem version_of_timeAt {buf : Bytes} {tfhd tfdt : Box} (h : timeAt buf tfhd tfdt = some time) :
    buf[tfdt.body]? = some time.version := by
  obtain ⟨version, hversion, h⟩ := Option.bind_eq_some_iff.1 h
  obtain ⟨value, -, h⟩ := Option.bind_eq_some_iff.1 h
  obtain ⟨trackId, -, rfl⟩ := Option.map_eq_some_iff.1 h
  exact hversion

theorem mem_of_childOf {c : Bytes} {ds : List Bytes} (hc : IsBox c)
    (hds : Splits (c.drop (headOf c)) ds) {type : Text} {b : Box}
    (h : childOf c (boxAt 0 c) type = some (some b)) :
    b ∈ layout (headOf c) ds ∧ b.type = type := by
  rw [childOf_of_splits hc hds] at h
  have hfind := Option.some.inj h
  exact ⟨List.mem_of_find?_eq_some hfind, by simpa using List.find?_some hfind⟩

/-- The boxes of the new `traf` are where they were. -/
theorem TimedTraf.childOf_eq (htimed : TimedTraf t time as d bs) (hbox : IsBox t) {b : Int}
    {t' : Bytes} (hhead : SameHead t t')
    (hsplits : Splits (t'.drop (headOf t)) (as ++ rebaseTfdt b d :: bs)) (type : Text) :
    childOf t' (boxAt 0 t') type = childOf t (boxAt 0 t) type := by
  rw [childOf_of_splits (hhead.isBox hbox) (hhead.headOf.symm ▸ hsplits),
    childOf_of_splits hbox htimed.splits, hhead.headOf,
    layout_sameHead (sameHead_exchange htimed b)]

/-- The boxes of the track and of the time do not overlap. -/
theorem TimedTraf.disjoint (htimed : TimedTraf t time as d bs) (hbox : IsBox t) {tfhd tfdt : Box}
    (htfhd : childOf t (boxAt 0 t) tfhdType = some (some tfhd))
    (htfdt : childOf t (boxAt 0 t) tfdtType = some (some tfdt)) :
    tfhd.stop ≤ tfdt.start ∨ tfdt.stop ≤ tfhd.start := by
  have hhdmem := mem_of_childOf hbox htimed.splits htfhd
  have hdtmem := mem_of_childOf hbox htimed.splits htfdt
  rcases layout_disjoint hhdmem.1 hdtmem.1 with heq | hdisjoint
  · have htypes : tfhdType ≠ tfdtType := by decide
    have hsame : tfhdType = tfdtType :=
      calc tfhdType = tfhd.type := hhdmem.2.symm
        _ = tfdt.type := congrArg Box.type heq
        _ = tfdtType := hdtmem.2
    exact absurd hsame htypes
  · exact hdisjoint

/-- The new `traf` has the new time. -/
theorem TrafOk.rebase (h : TrafOk t) {base : OrderedMap Nat Int} (hbase : NonNegative base) :
    SameHead t (rebaseTraf base t) ∧ TrafOk (rebaseTraf base t) ∧
      trafTimes (rebaseTraf base t) = (trafTimes t).map (DecodeTime.renewed base) := by
  rcases h.cases with ⟨hnone, htrack⟩ | ⟨time, as, d, bs, htimed⟩
  · have hsame : rebaseTraf base t = t := by
      rw [rebaseTraf, htrack]
      rfl
    rw [hsame, hnone]
    exact ⟨.refl t, h, rfl⟩
  · rw [htimed.rebaseTraf_eq h.box, htimed.times]
    cases hb : base.get time.trackId with
    | none =>
        refine ⟨.refl t, h, htimed.times.trans ?_⟩
        simp [DecodeTime.renewed, hb]
    | some b =>
        obtain ⟨hhead, hsplits⟩ :=
          SameHead.withChildren h.box htimed.splits (sameHead_exchange htimed b)
        have hpatch := htimed.patch h.box b
        obtain ⟨tfhd, tfdt, htfhd, htfdt, htime⟩ := h.boxes_of_time htimed.times
        dsimp only
        generalize withChildren t (as ++ rebaseTfdt b d :: bs) = t' at hhead hsplits hpatch ⊢
        have hbox' := hhead.isBox h.box
        have hchild := htimed.childOf_eq h.box hhead hsplits
        obtain ⟨hhd, hdt⟩ : fullTfhd tfhd = true ∧ fullTfdt t tfdt = true := by
          simpa [fullTraf, ofTraf, htfhd, htfdt] using h.full
        have hroom := fullTfdt_room (version_of_timeAt htime) hdt
        have hbounds := h.box.boxAt_bounds
        have hhdmem := mem_of_childOf h.box htimed.splits htfhd
        have hdtmem := mem_of_childOf h.box htimed.splits htfdt
        -- the time is written over the old one, and nothing else that is read
        have hnew := timeAt_writeBytes htime (rebasedTime_le (hbase _ b hb)) (of_decide_eq_true hhd)
          hroom (Nat.le_trans (childOf_bounds hbounds.2 htfdt).2 hbounds.2)
          (start_le_body hhdmem.1) (start_le_body hdtmem.1) (htimed.disjoint h.box htfhd htfdt)
        rw [hpatch] at hnew
        have htimes' : timesOfTraf t' (boxAt 0 t') =
            some [{ time with value := rebasedTime time.value b }] := by
          rw [timesOfTraf, hchild, hchild, htfhd, htfdt]
          simp only [Option.bind_some, hnew]
          rfl
        have hfull' : fullTraf t' (boxAt 0 t') = true := by
          have hversion : t'[tfdt.body]? = t[tfdt.body]? :=
            (version_of_timeAt hnew).trans (version_of_timeAt htime).symm
          have hdt' : fullTfdt t' tfdt = true := by
            simpa [fullTfdt, hversion] using hdt
          simp [fullTraf, ofTraf, hchild, htfhd, htfdt, hhd, hdt']
        have hgot : trafTimes t' = [{ time with value := rebasedTime time.value b }] := by
          rw [trafTimes, htimes']
          rfl
        refine ⟨hhead, ⟨hbox', hfull', by rw [htimes', hgot]⟩, ?_⟩
        rw [hgot]
        simp [DecodeTime.renewed, hb]

/-- The patches of a `traf` lie in it, and make the new one. -/
theorem TrafOk.patch_eq (h : TrafOk t) (base : OrderedMap Nat Int) :
    patch t (patchesOf base (trafTimes t)) = rebaseTraf base t ∧
      Fit (patchesOf base (trafTimes t)) t.length := by
  have hnothing : Fit [] t.length := fun w hw => absurd hw List.not_mem_nil
  rcases h.cases with ⟨hnone, htrack⟩ | ⟨time, as, d, bs, htimed⟩
  · rw [hnone, rebaseTraf, htrack]
    exact ⟨rfl, hnothing⟩
  · have hone : patchesOf base [time] = (patchOf base time).toList := by
      rw [patchesOf, List.filterMap_cons]
      cases patchOf base time <;> rfl
    rw [htimed.rebaseTraf_eq h.box, htimed.times, hone, patchOf]
    cases hb : base.get time.trackId with
    | none => exact ⟨rfl, hnothing⟩
    | some b =>
        refine ⟨htimed.patch h.box b, fun w hw => ?_⟩
        obtain rfl := Option.mem_toList.1 hw |> Option.some.inj
        have hroom := htimed.room (rebasedTime time.value b)
        have hlength := htimed.splits.length_le
        rw [List.length_drop, List.flatten_append, List.flatten_cons, List.length_append,
          List.length_append] at hlength
        have hhead := h.box.length
        have hoffset := htimed.offset
        dsimp only
        omega

end Traf

/-! ## One `moof` -/

section Moof

variable {m : Bytes} {ds cs : List Bytes}

/-- The new boxes of a `moof`. -/
def rebaseChild (base : OrderedMap Nat Int) (d : Bytes) : Bytes :=
  if typeAt d 0 = trafType then rebaseTraf base d else d

theorem MoofOk.rebaseMoof_eq (h : MoofOk m ds) (base : OrderedMap Nat Int) :
    rebaseMoof base m = withChildren m (ds.map (rebaseChild base)) := by
  rw [rebaseMoof, children_eq h.box h.splits]
  rfl

theorem MoofOk.patch_eq (h : MoofOk m ds) (base : OrderedMap Nat Int) :
    patch m (patchesOf base (moofTimes m)) = rebaseMoof base m ∧
      Fit (patchesOf base (moofTimes m)) m.length := by
  obtain ⟨tail, hsplit, -⟩ := h.splits.tail
  have htake : (m.take (headOf m)).length = headOf m := by
    rw [List.length_take, Nat.min_eq_left h.box.length.2]
  have hparts : m = m.take (headOf m) ++ ds.flatten ++ tail := by
    conv_lhs => rw [← List.take_append_drop (headOf m) m, hsplit]
    rw [List.append_assoc]
  -- only the boxes `traf` are patched, each inside itself
  have hfit : ∀ d ∈ ds,
      Fit (if typeAt d 0 = trafType then patchesOf base (trafTimes d) else []) d.length := by
    intro d hd
    split
    · rename_i htype
      exact ((h.trafs d hd htype).patch_eq base).2
    · exact fun w hw => absurd hw List.not_mem_nil
  rw [h.moofTimes_eq, patchesOf_spreadTimes, h.rebaseMoof_eq,
    withChildren_eq hsplit (children_eq h.box h.splits)]
  constructor
  · have hspread := patch_spread (m.take (headOf m)) tail hfit
    rw [htake, ← hparts] at hspread
    rw [hspread]
    congr 3
    refine List.map_congr_left fun d hd => ?_
    rw [rebaseChild]
    split
    · rename_i htype
      exact ((h.trafs d hd htype).patch_eq base).1
    · rfl
  · have hlength := h.splits.length_le
    have hhead := h.box.length
    rw [List.length_drop] at hlength
    intro w hw
    have hspread := fit_spread hfit (headOf m) w hw
    omega

/-- Boxes with the same headers and new times have their times in the same places. -/
theorem spreadTimes_map {type : Text} {g : Bytes → List DecodeTime} {f : Bytes → Bytes}
    {base : OrderedMap Nat Int} (hf : ∀ c ∈ cs, SameHead c (f c))
    (hg : ∀ c ∈ cs, typeAt c 0 = type → g (f c) = (g c).map (DecodeTime.renewed base)) (i : Nat) :
    spreadTimes type g i (cs.map f) = (spreadTimes type g i cs).map (DecodeTime.renewed base) := by
  induction cs generalizing i with
  | nil =>
      rfl
  | cons c cs ih =>
      have hhead := hf c List.mem_cons_self
      have hrest := ih (fun c' hc' => hf c' (List.mem_cons_of_mem _ hc'))
        (fun c' hc' => hg c' (List.mem_cons_of_mem _ hc')) (i + c.length)
      rw [List.map_cons, spreadTimes, spreadTimes, List.map_append, hhead.typeAt, hhead.length, hrest]
      by_cases htype : typeAt c 0 = type
      · rw [if_pos htype, if_pos htype, hg c List.mem_cons_self htype, List.map_map, List.map_map]
        rfl
      · rw [if_neg htype, if_neg htype]
        rfl

/-- The new `moof` has the new times. -/
theorem MoofOk.rebase (h : MoofOk m ds) {base : OrderedMap Nat Int} (hbase : NonNegative base) :
    SameHead m (rebaseMoof base m) ∧ MoofOk (rebaseMoof base m) (ds.map (rebaseChild base)) ∧
      moofTimes (rebaseMoof base m) = (moofTimes m).map (DecodeTime.renewed base) := by
  have hsame : ∀ d ∈ ds, SameHead d (rebaseChild base d) := by
    intro d hd
    rw [rebaseChild]
    split
    · rename_i htype
      exact ((h.trafs d hd htype).rebase hbase).1
    · exact .refl d
  have hall : List.Forall₂ SameHead ds (ds.map (rebaseChild base)) :=
    List.forall₂_map_right_iff.2 (List.forall₂_same.2 hsame)
  obtain ⟨hhead, hsplits⟩ := SameHead.withChildren h.box h.splits hall
  rw [← h.rebaseMoof_eq] at hhead hsplits
  have hok : MoofOk (rebaseMoof base m) (ds.map (rebaseChild base)) := by
    refine ⟨hhead.isBox h.box, hhead.headOf.symm ▸ hsplits, fun d' hd' htype => ?_⟩
    obtain ⟨d, hd, rfl⟩ := List.mem_map.1 hd'
    rw [(hsame d hd).typeAt] at htype
    rw [rebaseChild, if_pos htype]
    exact ((h.trafs d hd htype).rebase hbase).2.1
  refine ⟨hhead, hok, ?_⟩
  rw [hok.moofTimes_eq, h.moofTimes_eq, hhead.headOf]
  refine spreadTimes_map hsame (fun d hd htype => ?_) _
  rw [rebaseChild, if_pos htype]
  exact ((h.trafs d hd htype).rebase hbase).2.2

/-! ## A segment -/

/-- The boxes of a segment. -/
structure SegmentOk (seg : Bytes) (cs : List Bytes) : Prop where
  top : boxes seg 0 seg.length = some (layout 0 cs)
  boxed : Boxed cs
  at_start : BytesAt seg 0 cs.flatten
  moofs : ∀ c ∈ cs, typeAt c 0 = moofType → ∃ ds, MoofOk c ds

/-- Boxes alone are a segment. -/
theorem segmentOk_flatten (hboxed : Boxed cs)
    (hmoofs : ∀ c ∈ cs, typeAt c 0 = moofType → ∃ ds, MoofOk c ds) : SegmentOk cs.flatten cs := by
  refine ⟨?_, hboxed, BytesAt.whole _, hmoofs⟩
  exact boxes_layout hboxed (BytesAt.whole _) (by omega) (by omega) (.inl (Nat.zero_add _).symm)

theorem SegmentOk.times {seg : Bytes} (h : SegmentOk seg cs) :
    tfdtsOf seg = some (spreadTimes moofType moofTimes 0 cs) := by
  rw [tfdtsOf, h.top, Option.bind_some]
  exact collect_moofs h.moofs h.at_start

theorem exists_segmentOk {seg : Bytes} {ts : List DecodeTime} (hts : tfdtsOf seg = some ts)
    (htfdts : fullTfdts seg = true) (htfhds : fullTfhds seg = true) : ∃ cs, SegmentOk seg cs := by
  obtain ⟨top, htop, -⟩ := Option.bind_eq_some_iff.1 hts
  obtain ⟨cs, hboxed, rfl, hat⟩ := exists_layout htop (Nat.zero_le _) (Nat.le_refl _)
  exact ⟨cs, htop, hboxed, hat, moofs_ok htop hboxed hat hts htfdts htfhds⟩

/-- The boxes that are left. -/
def keeps (c : Bytes) : Bool := typeAt c 0 ≠ stypType ∧ typeAt c 0 ≠ sidxType

theorem SegmentOk.kept_eq {seg : Bytes} (h : SegmentOk seg cs) :
    kept seg (layout 0 cs) = cs.filter keeps :=
  bytesOf_filter_layout (fun t => t ≠ stypType ∧ t ≠ sidxType) h.at_start

theorem SegmentOk.filter {seg : Bytes} (h : SegmentOk seg cs) :
    SegmentOk (cs.filter keeps).flatten (cs.filter keeps) :=
  segmentOk_flatten (h.boxed.sublist List.filter_sublist)
    fun c hc => h.moofs c (List.mem_of_mem_filter hc)

theorem mem_collect {type : Text} {f : Box → Option (List DecodeTime)} {bs : List Box}
    {ts : List DecodeTime} (h : collect type f bs = some ts) {t : DecodeTime} (ht : t ∈ ts) :
    ∃ b ts', f b = some ts' ∧ t ∈ ts' := by
  obtain ⟨tss, htss, rfl⟩ := Option.map_eq_some_iff.1 h
  obtain ⟨ts', hts', ht⟩ := List.mem_flatten.1 ht
  have hmem : some ts' ∈ (bs.filter (·.type = type)).map f :=
    mapM_eq_some.1 htss ▸ List.mem_map_of_mem hts'
  obtain ⟨b, -, hb⟩ := List.mem_map.1 hmem
  exact ⟨b, ts', hb, ht⟩

/-- Every time that is found fits into its field. -/
theorem fits_of_tfdtsOf {seg : Bytes} {ts : List DecodeTime} (h : tfdtsOf seg = some ts) :
    ∀ t ∈ ts, t.Fits := by
  intro t ht
  obtain ⟨top, -, hmoofs⟩ := Option.bind_eq_some_iff.1 h
  obtain ⟨moof, tsm, hmoof, htm⟩ := mem_collect hmoofs ht
  obtain ⟨inner, -, htrafs⟩ := Option.bind_eq_some_iff.1 hmoof
  obtain ⟨traf, tst, htraf, htt⟩ := mem_collect htrafs htm
  obtain ⟨tfhd, -, htraf⟩ := Option.bind_eq_some_iff.1 htraf
  obtain ⟨tfdt, -, htraf⟩ := Option.bind_eq_some_iff.1 htraf
  cases tfhd with
  | none =>
      obtain rfl := Option.some.inj htraf
      exact absurd htt List.not_mem_nil
  | some tfhd =>
      cases tfdt with
      | none =>
          obtain rfl := Option.some.inj htraf
          exact absurd htt List.not_mem_nil
      | some tfdt =>
          obtain ⟨time, htime, rfl⟩ := Option.map_eq_some_iff.1 htraf
          rw [List.mem_singleton.1 htt]
          exact fits_of_timeAt htime

section Rebase

variable {seg : Bytes} {base : OrderedMap Nat Int}

theorem sameHead_rebaseBox (hmoofs : ∀ c ∈ cs, typeAt c 0 = moofType → ∃ ds, MoofOk c ds)
    (hbase : NonNegative base) : ∀ c ∈ cs, SameHead c (rebaseBox base c) := by
  intro c hc
  rw [rebaseBox]
  split
  · rename_i htype
    obtain ⟨ds, hds⟩ := hmoofs c hc htype
    exact (hds.rebase hbase).1
  · exact .refl c

/-- The patches of a segment write its boxes anew. -/
theorem SegmentOk.rebase_eq (h : SegmentOk seg cs) (hbase : NonNegative base) :
    rebase seg base = some ((cs.filter keeps).map (rebaseBox base)).flatten := by
  have hkept := h.filter
  have hts := hkept.times
  have hfit : ∀ c ∈ cs.filter keeps,
      Fit (if typeAt c 0 = moofType then patchesOf base (moofTimes c) else []) c.length := by
    intro c hc
    split
    · rename_i htype
      obtain ⟨ds, hds⟩ := hkept.moofs c hc htype
      exact (hds.patch_eq base).2
    · exact fun w hw => absurd hw List.not_mem_nil
  have hspread := patch_spread [] [] hfit
  rw [List.nil_append, List.append_nil, List.nil_append, List.append_nil, List.length_nil] at hspread
  rw [rebase, h.top, Option.bind_some, h.kept_eq, hts, Option.bind_some,
    foldlM_writeTime hbase (fits_of_tfdtsOf hts), patchesOf_spreadTimes, hspread]
  congr 2
  refine List.map_congr_left fun c hc => ?_
  rw [rebaseBox]
  split
  · rename_i htype
    obtain ⟨ds, hds⟩ := hkept.moofs c hc htype
    exact (hds.patch_eq base).1
  · rfl

/-- What is written is a segment again. -/
theorem SegmentOk.rebase_ok (h : SegmentOk seg cs) (hbase : NonNegative base) :
    SegmentOk ((cs.filter keeps).map (rebaseBox base)).flatten
      ((cs.filter keeps).map (rebaseBox base)) := by
  have hkept := h.filter
  have hsame := sameHead_rebaseBox hkept.moofs hbase
  refine segmentOk_flatten (hkept.boxed.sameHead (List.forall₂_map_right_iff.2
    (List.forall₂_same.2 hsame))) fun c' hc' htype => ?_
  obtain ⟨c, hc, rfl⟩ := List.mem_map.1 hc'
  rw [(hsame c hc).typeAt] at htype
  obtain ⟨ds, hds⟩ := hkept.moofs c hc htype
  rw [rebaseBox, if_pos htype]
  exact ⟨_, (hds.rebase hbase).2.1⟩

/-- Its times are the new ones. -/
theorem SegmentOk.times_rebase (h : SegmentOk seg cs) (hbase : NonNegative base) :
    tfdtsOf ((cs.filter keeps).map (rebaseBox base)).flatten =
      some ((spreadTimes moofType moofTimes 0 (cs.filter keeps)).map (DecodeTime.renewed base)) := by
  have hkept := h.filter
  rw [(h.rebase_ok hbase).times]
  refine congrArg some (spreadTimes_map (sameHead_rebaseBox hkept.moofs hbase) ?_ 0)
  intro c hc htype
  obtain ⟨ds, hds⟩ := hkept.moofs c hc htype
  rw [rebaseBox, if_pos htype]
  exact (hds.rebase hbase).2.2

end Rebase

end Moof

end Cameras
end GateControl
