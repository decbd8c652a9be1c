import GateControl.Cameras.DecodeTimes

/-!
# ClipTimes — the times of the tracks of a clip

Track by track, the times of a rebased segment are the old ones, moved back by the same amount and
not below 0.  So a clip begins at 0, and its times go on as they did.
-/

namespace GateControl
namespace Cameras

open Library

/-- The times of one track. -/
def valuesOf (track : Nat) (ts : List DecodeTime) : List Nat :=
  (ts.filter (·.trackId = track)).map DecodeTime.value

def timesOf (track : Nat) (seg : Bytes) : List Nat := valuesOf track ((tfdtsOf seg).getD [])

/-- A segment that is read, with boxes that are long enough. -/
def Readable (seg : Bytes) : Prop :=
  (tfdtsOf seg).isSome = true ∧ fullTfdts seg = true ∧ fullTfhds seg = true

instance (seg : Bytes) : Decidable (Readable seg) := inferInstanceAs (Decidable (_ ∧ _ ∧ _))

/-- What becomes of a time of a track. -/
def newTime (base : OrderedMap Nat Int) (track : Nat) (v : Nat) : Nat :=
  match base.get track with
  | none => v
  | some b => rebasedTime v b

section Times

variable {seg : Bytes} {cs : List Bytes} {base : OrderedMap Nat Int}

theorem Readable.segmentOk (h : Readable seg) : ∃ cs, SegmentOk seg cs := by
  obtain ⟨hread, htfdts, htfhds⟩ := h
  obtain ⟨ts, hts⟩ := Option.isSome_iff_exists.1 hread
  exact exists_segmentOk hts htfdts htfhds

/-- The times of a track do not depend on where its boxes stand. -/
theorem valuesOf_spreadTimes (track : Nat) (type : Text) (g : Bytes → List DecodeTime) (i : Nat)
    (cs : List Bytes) :
    valuesOf track (spreadTimes type g i cs) =
      cs.flatMap fun c => if typeAt c 0 = type then valuesOf track (g c) else [] := by
  induction cs generalizing i with
  | nil =>
      rfl
  | cons c cs ih =>
      have hshift : ∀ ts : List DecodeTime,
          valuesOf track (ts.map (DecodeTime.shift i)) = valuesOf track ts := by
        intro ts
        rw [valuesOf, List.filter_map, List.map_map]
        rfl
      have happend : ∀ as bs : List DecodeTime,
          valuesOf track (as ++ bs) = valuesOf track as ++ valuesOf track bs := by
        intro as bs
        rw [valuesOf, List.filter_append, List.map_append]
        rfl
      rw [spreadTimes, happend, ih, List.flatMap_cons]
      split
      · rw [hshift]
      · rfl

/-- Nor on the boxes that are left out. -/
theorem valuesOf_filter_keeps (track i : Nat) (cs : List Bytes) :
    valuesOf track (spreadTimes moofType moofTimes i (cs.filter keeps)) =
      valuesOf track (spreadTimes moofType moofTimes i cs) := by
  rw [valuesOf_spreadTimes, valuesOf_spreadTimes]
  induction cs with
  | nil =>
      rfl
  | cons c cs ih =>
      rw [List.flatMap_cons, ← ih]
      by_cases hc : keeps c = true
      · rw [List.filter_cons_of_pos hc, List.flatMap_cons]
      · have hmoof : typeAt c 0 ≠ moofType := by
          intro htype
          rw [keeps, htype] at hc
          exact hc (by decide)
        rw [List.filter_cons_of_neg hc, if_neg hmoof, List.nil_append]

theorem valuesOf_renewed (track : Nat) (ts : List DecodeTime) :
    valuesOf track (ts.map (DecodeTime.renewed base)) =
      (valuesOf track ts).map (newTime base track) := by
  rw [valuesOf, valuesOf, List.filter_map, List.map_map, List.map_map]
  refine List.map_congr_left fun t ht => ?_
  obtain rfl : t.trackId = track := of_decide_eq_true (List.mem_filter.1 ht).2
  rfl

/-- The times of a rebased segment. -/
theorem timesOf_rebase (h : Readable seg) (hbase : NonNegative base) {out : Bytes}
    (hout : rebase seg base = some out) (track : Nat) :
    timesOf track out = (timesOf track seg).map (newTime base track) := by
  obtain ⟨cs, hcs⟩ := h.segmentOk
  rw [hcs.rebase_eq hbase] at hout
  obtain rfl := Option.some.inj hout
  rw [timesOf, timesOf, hcs.times_rebase hbase, hcs.times, Option.getD_some, Option.getD_some,
    valuesOf_renewed, valuesOf_filter_keeps]

/-- A clip of several segments: its times are moved one by one. -/
theorem timesOf_mapM_rebase (hbase : NonNegative base) {segs : List Bytes}
    (hsegs : ∀ seg ∈ segs, Readable seg) :
    ∃ outs, segs.mapM (rebase · base) = some outs ∧ ∀ track,
      outs.flatMap (timesOf track) = (segs.flatMap (timesOf track)).map (newTime base track) := by
  induction segs with
  | nil =>
      exact ⟨[], rfl, fun _ => rfl⟩
  | cons seg segs ih =>
      obtain ⟨outs, houts, htimes⟩ := ih fun seg h => hsegs seg (List.mem_cons_of_mem _ h)
      have hseg := hsegs seg List.mem_cons_self
      obtain ⟨cs, hcs⟩ := hseg.segmentOk
      have hout := hcs.rebase_eq hbase
      refine ⟨((cs.filter keeps).map (rebaseBox base)).flatten :: outs, ?_, fun track => ?_⟩
      · rw [List.mapM_cons, hout, houts]
        rfl
      · rw [List.flatMap_cons, List.flatMap_cons, List.map_append, htimes,
          timesOf_rebase hseg hbase hout]

/-! ## The beginning of a clip -/

/-- The map has the first time of each track. -/
theorem get_firstTimes {m : OrderedMap Nat Int} (h : firstTimes seg = some m) (track : Nat) :
    m.get track = (timesOf track seg).head?.map fun v : Nat => (v : Int) := by
  obtain ⟨ts, hts, rfl⟩ := Option.map_eq_some_iff.1 h
  -- what the map has is kept, so the first time of a track stays
  have hfold : ∀ (ts : List DecodeTime) (m : OrderedMap Nat Int),
      (ts.foldl (fun m t => if m.has t.trackId then m else m.set t.trackId t.value) m).get track =
        (m.get track).or ((valuesOf track ts).head?.map fun v : Nat => (v : Int)) := by
    intro ts
    induction ts with
    | nil =>
        intro m
        simp [valuesOf]
    | cons t ts ih =>
        intro m
        rw [List.foldl_cons, ih]
        by_cases htrack : t.trackId = track
        · subst htrack
          cases hget : m.get t.trackId with
          | some v => simp [OrderedMap.has, hget]
          | none => simp [OrderedMap.has, hget, valuesOf]
        · have hother : (if m.has t.trackId then m else m.set t.trackId t.value).get track =
              m.get track := by
            split
            · rfl
            · exact OrderedMap.get_set_ne m (Ne.symm htrack) _
          rw [hother]
          simp [valuesOf, htrack]
  rw [hfold, timesOf, hts]
  rfl

theorem nonNegative_firstTimes {m : OrderedMap Nat Int} (h : firstTimes seg = some m) :
    NonNegative m := by
  intro track b hb
  rw [get_firstTimes h] at hb
  obtain ⟨v, -, rfl⟩ := Option.map_eq_some_iff.1 hb
  exact Int.natCast_nonneg v

theorem rebasedTime_self (v : Nat) : rebasedTime v v = 0 := by
  rw [rebasedTime]
  omega

theorem newTime_mono {track v w : Nat} (hvw : v ≤ w) :
    newTime base track v ≤ newTime base track w := by
  rw [newTime, newTime]
  split
  · exact hvw
  · rw [rebasedTime, rebasedTime]
    omega

end Times

/-- A segment that is read keeps its boxes but for two types, with new decode times and nothing
else new.  The tracks of the first segment begin at 0, and times that do not go back do not go back
either when they are moved. -/
theorem rebase_moves_times :
    (∀ (seg : Bytes) (base : OrderedMap Nat Int), Readable seg → NonNegative base →
      ∃ top, boxes seg 0 seg.length = some top ∧
        rebase seg base = some ((kept seg top).map (rebaseBox base)).flatten) ∧
    (∀ (seg : Bytes) (base : OrderedMap Nat Int), Readable seg → firstTimes seg = some base →
      ∃ out zero, rebase seg base = some out ∧ firstTimes out = some zero ∧
        ∀ track, zero.get track = (base.get track).map fun _ => 0) ∧
    (∀ (segs : List Bytes) (base : OrderedMap Nat Int), NonNegative base →
      (∀ seg ∈ segs, Readable seg) → ∃ outs, segs.mapM (rebase · base) = some outs ∧
        ∀ track, (segs.flatMap (timesOf track)).Pairwise (· ≤ ·) →
          (outs.flatMap (timesOf track)).Pairwise (· ≤ ·)) := by
  refine ⟨?boxes, ?first, ?order⟩
  case boxes =>
    -- the copy is parsed again, but each offset found there lies in a box of the segment
    intro seg base hseg hbase
    obtain ⟨cs, hcs⟩ := hseg.segmentOk
    refine ⟨_, hcs.top, ?_⟩
    rw [hcs.kept_eq]
    exact hcs.rebase_eq hbase
  case first =>
    -- the first time `v` of a track is its base, and `v - v` is 0
    intro seg base hseg hfirst
    have hbase := nonNegative_firstTimes hfirst
    obtain ⟨cs, hcs⟩ := hseg.segmentOk
    have hout := hcs.rebase_eq hbase
    obtain ⟨zero, hzero⟩ : ∃ zero, firstTimes ((cs.filter keeps).map (rebaseBox base)).flatten =
        some zero := by
      rw [firstTimes, hcs.times_rebase hbase]
      exact ⟨_, rfl⟩
    refine ⟨_, zero, hout, hzero, fun track => ?_⟩
    rw [get_firstTimes hzero, timesOf_rebase hseg hbase hout, List.head?_map,
      get_firstTimes hfirst]
    have hget := get_firstTimes hfirst track
    cases hhead : (timesOf track seg).head? with
    | none => rfl
    | some v =>
        rw [hhead] at hget
        simp [newTime, hget, rebasedTime_self]
  case order =>
    -- one map moves all times of a track, and it is monotone
    intro segs base hbase hsegs
    obtain ⟨outs, houts, htimes⟩ := timesOf_mapM_rebase hbase hsegs
    refine ⟨outs, houts, fun track hsorted => ?_⟩
    rw [htimes, List.pairwise_map]
    exact hsorted.imp newTime_mono

/-- A box of a type with a body. -/
def boxOf (type : String) (body : Bytes) : Bytes :=
  uint32BE (8 + body.length) ++ asciiBytes type.toList ++ body

/-- Two tracks, the second with another `tfdt` behind its first. -/
def clipSegment : Bytes :=
  boxOf "styp" [1] ++
    boxOf "moof" (boxOf "traf" (boxOf "tfhd" ([0, 0, 0, 0] ++ uint32BE 7) ++
        boxOf "tfdt" ([1, 0, 0, 0] ++ uint64BE 1000)) ++
      boxOf "traf" (boxOf "tfdt" ([0, 0, 0, 0] ++ uint32BE 555) ++
        boxOf "tfdt" ([0, 0, 0, 0] ++ uint32BE 556) ++
        boxOf "tfhd" ([0, 0, 0, 0] ++ uint32BE 8) ++ [1, 2])) ++
    boxOf "sidx" [3] ++ boxOf "mdat" [5]

theorem rebase_moves_times_clipSegment :
    ∃ base out zero, firstTimes clipSegment = some base ∧ rebase clipSegment base = some out ∧
      firstTimes out = some zero ∧ zero.get 8 = some 0 ∧
      ∃ outs, [clipSegment, clipSegment].mapM (rebase · base) = some outs ∧
        (outs.flatMap (timesOf 7)).Pairwise (· ≤ ·) := by
  have hread : Readable clipSegment := by
    decide +kernel
  have hsome : (firstTimes clipSegment).isSome = true := by
    decide +kernel
  obtain ⟨base, hbase⟩ := Option.isSome_iff_exists.1 hsome
  have hpos := nonNegative_firstTimes hbase
  obtain ⟨out, zero, hout, hzero, htracks⟩ := rebase_moves_times.2.1 _ _ hread hbase
  obtain ⟨outs, houts, horder⟩ := rebase_moves_times.2.2 [clipSegment, clipSegment] base hpos
    (by simp [hread])
  refine ⟨base, out, zero, hbase, hout, hzero, ?_, outs, houts, horder 7 ?_⟩
  · rw [htracks, get_firstTimes hbase]
    decide +kernel
  · decide +kernel

/-- The track of a `tfhd` that is too short is read behind it, here in a box that is left out. -/
def shortSegment : Bytes :=
  boxOf "moof" (boxOf "traf" (boxOf "tfdt" ([1, 0, 0, 0] ++ uint64BE 1000) ++ boxOf "tfhd" [])) ++
    boxOf "sidx" []

/-- A time that cannot grow. -/
def lastSegment : Bytes :=
  boxOf "moof" (boxOf "traf" (boxOf "tfhd" ([0, 0, 0, 0] ++ uint32BE 7) ++
    boxOf "tfdt" ([1, 0, 0, 0] ++ uint64BE 18446744073709551615)))

theorem not_rebase_shortSegment :
    ((tfdtsOf shortSegment).isSome = true ∧ fullTfdts shortSegment = true ∧
      rebase shortSegment .empty = none) ∧
    (Readable lastSegment ∧ rebase lastSegment (OrderedMap.empty.set 7 (-1)) = none) := by
  decide +kernel

end Cameras
end GateControl
