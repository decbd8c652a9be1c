import GateControl.Cameras.Boxes
import GateControl.Library.OrderedMap
import GateControl.Library.Patches

/-!
# Rebase — the decode times of a segment

A clip is made of segments that were recorded as a part of something longer.  Their decode times
are written again, so that the clip begins at 0.  The boxes whose times do not fit any more are
left out.

The times are found by their offsets in what is left of the segment, and overwritten there.  This
is to write each box anew, with the new time in its place and nothing else changed.
-/

namespace GateControl
namespace Cameras

open Library

def moofType : Text := "moof".toList

def trafType : Text := "traf".toList

def tfhdType : Text := "tfhd".toList

def tfdtType : Text := "tfdt".toList

def stypType : Text := "styp".toList

def sidxType : Text := "sidx".toList

/-! ## The decode times of a segment -/

/-- A decode time; `offset` is its field `tfdtOffset`. -/
structure DecodeTime where
  trackId : Nat
  offset : Nat
  version : UInt8
  value : Nat
  deriving DecidableEq

/-- Where there is no version there is no time behind it either. -/
def timeAt (buf : Bytes) (tfhd tfdt : Box) : Option DecodeTime :=
  buf[tfdt.body]?.bind fun version =>
    (if version = 1 then readUInt64BE buf (tfdt.body + 4) else readUInt32BE buf (tfdt.body + 4)).bind
      fun value => (readUInt32BE buf (tfhd.body + 4)).map fun trackId =>
        ⟨trackId, tfdt.body + 4, version, value⟩

def timesOfTraf (buf : Bytes) (traf : Box) : Option (List DecodeTime) :=
  (childOf buf traf tfhdType).bind fun tfhd =>
    (childOf buf traf tfdtType).bind fun tfdt =>
      match tfhd, tfdt with
      | some tfhd, some tfdt => (timeAt buf tfhd tfdt).map ([·])
      | _, _ => some []

/-- What the boxes of one type yield, in their order. -/
def collect (type : Text) (f : Box → Option (List DecodeTime)) (bs : List Box) :
    Option (List DecodeTime) :=
  ((bs.filter (·.type = type)).mapM f).map List.flatten

def timesOfMoof (buf : Bytes) (moof : Box) : Option (List DecodeTime) :=
  (inside buf moof).bind (collect trafType (timesOfTraf buf))

/-- The decode times of a segment; `none` is an error that is thrown. -/
def tfdtsOf (buf : Bytes) : Option (List DecodeTime) :=
  (boxes buf 0 buf.length).bind (collect moofType (timesOfMoof buf))

/-- The first time of each track. -/
def firstTimes (buf : Bytes) : Option (OrderedMap Nat Int) :=
  (tfdtsOf buf).map fun ts =>
    ts.foldl (fun m t => if m.has t.trackId then m else m.set t.trackId t.value) .empty

/-! ## The new times -/

def writeTime (base : OrderedMap Nat Int) (out : Bytes) (t : DecodeTime) : Option Bytes :=
  match base.get t.trackId with
  | none => some out
  | some b =>
      let v : Int := if (t.value : Int) - b < 0 then 0 else t.value - b
      if t.version = 1 then
        -- a number that does not fit is not written
        if v < 18446744073709551616 then some (writeBytes out t.offset (uint64BE v.toNat)) else none
      else some (writeUInt32BE out (v % 4294967296).toNat t.offset)

/-- What is left of a segment. -/
def kept (buf : Bytes) (top : List Box) : List Bytes :=
  (top.filter fun b => b.type ≠ stypType ∧ b.type ≠ sidxType).map (bytesOf buf)

def rebase (buf : Bytes) (base : OrderedMap Nat Int) : Option Bytes :=
  (boxes buf 0 buf.length).bind fun top =>
    (tfdtsOf (kept buf top).flatten).bind fun ts =>
      ts.foldlM (writeTime base) (kept buf top).flatten

/-! ## Box by box -/

/-- The time of a track that begins at `b`. -/
def rebasedTime (v : Nat) (b : Int) : Nat := (max 0 ((v : Int) - b)).toNat

/-- The boxes in a box. -/
def children (c : Bytes) : List Bytes :=
  ((inside c (boxAt 0 c)).getD []).map (bytesOf c)

/-- A box with other boxes in it. -/
def withChildren (c : Bytes) (ds : List Bytes) : Bytes :=
  c.take (headOf c) ++ ds.flatten ++ c.drop (headOf c + (children c).flatten.length)

/-- Exchange the first box of a type. -/
def exchangeFirst (type : Text) (f : Bytes → Bytes) : List Bytes → List Bytes
  | [] => []
  | c :: cs => if typeAt c 0 = type then f c :: cs else c :: exchangeFirst type f cs

/-- A `tfdt` with its new time. -/
def rebaseTfdt (b : Int) (tfdt : Bytes) : Bytes :=
  if tfdt[headOf tfdt]? = some 1 then
    writeBytes tfdt (headOf tfdt + 4)
      (uint64BE (rebasedTime ((readUInt64BE tfdt (headOf tfdt + 4)).getD 0) b))
  else
    writeBytes tfdt (headOf tfdt + 4)
      (uint32BE (rebasedTime ((readUInt32BE tfdt (headOf tfdt + 4)).getD 0) b))

/-- The track of a `traf`, if it has one and a time. -/
def trackOf (c : Bytes) : Option Nat :=
  ((children c).find? (typeAt · 0 = tfhdType)).bind fun tfhd =>
    ((children c).find? (typeAt · 0 = tfdtType)).bind fun _ =>
      readUInt32BE tfhd (headOf tfhd + 4)

def rebaseTraf (base : OrderedMap Nat Int) (c : Bytes) : Bytes :=
  match (trackOf c).bind base.get with
  | none => c
  | some b => withChildren c (exchangeFirst tfdtType (rebaseTfdt b) (children c))

def rebaseMoof (base : OrderedMap Nat Int) (c : Bytes) : Bytes :=
  withChildren c ((children c).map fun d =>
    if typeAt d 0 = trafType then rebaseTraf base d else d)

def rebaseBox (base : OrderedMap Nat Int) (c : Bytes) : Bytes :=
  if typeAt c 0 = moofType then rebaseMoof base c else c

/-! ## Boxes that are long enough -/

def fullTfhd (tfhd : Box) : Bool := tfhd.body + 8 ≤ tfhd.stop

def fullTfdt (buf : Bytes) (tfdt : Box) : Bool :=
  tfdt.body + (if buf[tfdt.body]? = some 1 then 12 else 8) ≤ tfdt.stop

/-- A test of the `tfhd` and the `tfdt` of a `traf`. -/
def ofTraf (test : Box → Box → Bool) (buf : Bytes) (traf : Box) : Bool :=
  match childOf buf traf tfhdType, childOf buf traf tfdtType with
  | some (some tfhd), some (some tfdt) => test tfhd tfdt
  | _, _ => true

def everyTraf (test : Box → Box → Bool) (buf : Bytes) : Bool :=
  (boxes buf 0 buf.length).all fun top =>
    (top.filter (·.type = moofType)).all fun moof =>
      (inside buf moof).all fun inner =>
        (inner.filter (·.type = trafType)).all (ofTraf test buf)

/-- Each `tfdt` has its full length for its version. -/
def fullTfdts (buf : Bytes) : Bool := everyTraf (fun _ tfdt => fullTfdt buf tfdt) buf

/-- Each `tfhd` has its track. -/
def fullTfhds (buf : Bytes) : Bool := everyTraf (fun tfhd _ => fullTfhd tfhd) buf

/-! ## Boxes in another place -/

def DecodeTime.shift (i : Nat) (t : DecodeTime) : DecodeTime := { t with offset := i + t.offset }

section Shift

variable {buf c : Bytes} {i : Nat}

theorem childOf_shift (hat : BytesAt buf i c) {b : Box} (hb : b.body ≤ b.stop)
    (hstop : b.stop ≤ c.length) (type : Text) :
    childOf buf (b.shift i) type = (childOf c b type).map (Option.map (Box.shift i)) := by
  rw [childOf, inside_shift hat hb hstop, childOf]
  cases inside c b with
  | none =>
      rfl
  | some bs =>
      exact congrArg some List.find?_map

/-- A child is found in its box. -/
theorem childOf_bounds {b : Box} (hstop : b.stop ≤ c.length) {type : Text} {child : Box}
    (h : childOf c b type = some (some child)) :
    child.body ≤ child.stop ∧ child.stop ≤ b.stop := by
  obtain ⟨bs, hbs, hfind⟩ := Option.map_eq_some_iff.1 h
  have hmem := mem_boxes hbs hstop (List.mem_of_find?_eq_some hfind)
  exact hmem.2.2

theorem fullTfdt_shift (hat : BytesAt buf i c) {tfdt : Box} (hstop : tfdt.stop ≤ c.length) :
    fullTfdt buf (tfdt.shift i) = fullTfdt c tfdt := by
  have hbody : (tfdt.shift i).body = i + tfdt.body := rfl
  rw [fullTfdt, fullTfdt, Box.stop_shift, hbody]
  by_cases hlt : tfdt.body < c.length
  · rw [hat.getElem? hlt]
    exact decide_eq_decide.2 (by omega)
  · -- behind the bytes nothing is long enough
    rw [decide_eq_false, decide_eq_false]
    · split <;> omega
    · split <;> omega

/-- The time of boxes that are long enough is read in them. -/
theorem timeAt_shift (hat : BytesAt buf i c) {tfhd tfdt : Box} (htfhd : fullTfhd tfhd = true)
    (htfdt : fullTfdt c tfdt = true) (hhd : tfhd.stop ≤ c.length) (hdt : tfdt.stop ≤ c.length) :
    timeAt buf (tfhd.shift i) (tfdt.shift i) = (timeAt c tfhd tfdt).map (DecodeTime.shift i) := by
  have hfull := of_decide_eq_true htfdt
  have hhfull := of_decide_eq_true htfhd
  have hbody : (tfdt.shift i).body = i + tfdt.body := rfl
  have hhbody : (tfhd.shift i).body = i + tfhd.body := rfl
  have hlt : tfdt.body < c.length := by
    split at hfull <;> omega
  obtain ⟨version, hversion⟩ : ∃ version, getElem? c tfdt.body = some version :=
    ⟨_, List.getElem?_eq_getElem hlt⟩
  -- as many bytes as the version says are in the box
  have hread : (if version = 1 then readUInt64BE buf (i + tfdt.body + 4)
      else readUInt32BE buf (i + tfdt.body + 4)) =
      if version = 1 then readUInt64BE c (tfdt.body + 4) else readUInt32BE c (tfdt.body + 4) := by
    rw [hversion] at hfull
    rw [Nat.add_assoc]
    split
    · rename_i hone
      rw [if_pos (congrArg some hone)] at hfull
      exact hat.readUInt64BE_add (by omega)
    · rename_i hone
      rw [if_neg (fun heq => hone (Option.some.inj heq))] at hfull
      exact hat.readUInt32BE_add (by omega)
  have htrack : readUInt32BE buf (i + tfhd.body + 4) = readUInt32BE c (tfhd.body + 4) := by
    rw [Nat.add_assoc]
    exact hat.readUInt32BE_add (by omega)
  rw [timeAt, timeAt, hbody, hhbody, hat.getElem? hlt, hversion, Option.bind_some,
    Option.bind_some, hread, htrack]
  cases (if version = 1 then readUInt64BE c (tfdt.body + 4)
      else readUInt32BE c (tfdt.body + 4)) with
  | none =>
      rfl
  | some value =>
      cases readUInt32BE c (tfhd.body + 4) with
      | none => rfl
      | some trackId => simp [DecodeTime.shift, Nat.add_assoc]

/-- The `tfhd` and the `tfdt` of a `traf` are long enough. -/
def fullTraf (buf : Bytes) (traf : Box) : Bool :=
  ofTraf (fun tfhd _ => fullTfhd tfhd) buf traf && ofTraf (fun _ tfdt => fullTfdt buf tfdt) buf traf

theorem timesOfTraf_shift (hat : BytesAt buf i c) {traf : Box} (hb : traf.body ≤ traf.stop)
    (hstop : traf.stop ≤ c.length) (hfull : fullTraf c traf = true) :
    timesOfTraf buf (traf.shift i) =
      (timesOfTraf c traf).map (List.map (DecodeTime.shift i)) := by
  rw [timesOfTraf, timesOfTraf, childOf_shift hat hb hstop, childOf_shift hat hb hstop]
  cases htfhd : childOf c traf tfhdType with
  | none => rfl
  | some tfhd =>
      cases htfdt : childOf c traf tfdtType with
      | none => rfl
      | some tfdt =>
          cases tfhd with
          | none => rfl
          | some tfhd =>
              cases tfdt with
              | none => rfl
              | some tfdt =>
                  obtain ⟨hhd, hdt⟩ : fullTfhd tfhd = true ∧ fullTfdt c tfdt = true := by
                    simpa [fullTraf, ofTraf, htfhd, htfdt] using hfull
                  have hhdstop := (childOf_bounds hstop htfhd).2
                  have hdtstop := (childOf_bounds hstop htfdt).2
                  simp only [Option.map_some, Option.bind_some,
                    timeAt_shift hat hhd hdt (by omega) (by omega), Option.map_map]
                  rfl

theorem fullTraf_shift (hat : BytesAt buf i c) {traf : Box} (hb : traf.body ≤ traf.stop)
    (hstop : traf.stop ≤ c.length) : fullTraf buf (traf.shift i) = fullTraf c traf := by
  have hfull : ∀ tfhd : Box, fullTfhd (tfhd.shift i) = fullTfhd tfhd := by
    intro tfhd
    have hbody : (tfhd.shift i).body = i + tfhd.body := rfl
    rw [fullTfhd, fullTfhd, Box.stop_shift, hbody]
    exact decide_eq_decide.2 (by omega)
  rw [fullTraf, fullTraf, ofTraf, ofTraf, ofTraf, ofTraf, childOf_shift hat hb hstop,
    childOf_shift hat hb hstop]
  cases htfhd : childOf c traf tfhdType with
  | none => rfl
  | some tfhd =>
      cases htfdt : childOf c traf tfdtType with
      | none => cases tfhd <;> rfl
      | some tfdt =>
          cases tfhd with
          | none => rfl
          | some tfhd =>
              cases tfdt with
              | none => rfl
              | some tfdt =>
                  have hdtstop := (childOf_bounds hstop htfdt).2
                  simp only [Option.map_some, hfull, fullTfdt_shift hat (Nat.le_trans hdtstop hstop)]

end Shift

end Cameras
end GateControl
