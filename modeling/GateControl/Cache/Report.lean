import Mathlib.Data.Finset.Basic
import Mathlib.Data.Finset.Dedup
import Mathlib.Tactic.Tauto
import GateControl.Cache.Store
import GateControl.Library.Transition

/-!
# Report — telling the server what the home cache holds

`HomeCache.report` takes a snapshot of the store (everything, or the recorded changes), posts it in
chunks and edits the change sets when the last post has succeeded.  Downloads and evictions go on
while a post is awaited.  The server is modelled by the set of blobs it believes in: a full report
replaces it, any other adds `have` and takes `gone` away.

The system `step` interleaves `commit` and `remove` with the steps of one report at a time:
taking the snapshot, and every awaited post coming back.  The main result says when the server's
set is the store's once nothing is left to report.
-/

namespace GateControl
namespace Cache

open Library

/-- Entries per post and list (the server's limit). -/
def maxHave : Nat := 5000

def fullEveryMs : Int := 6 * 3600 * 1000

structure Counters where
  hits : Nat
  misses : Nat
  bytesServed : Nat
  bytesFetched : Nat
  denied : Nat
  deriving DecidableEq

def zeroCounters : Counters := ⟨0, 0, 0, 0, 0⟩

def Counters.add (a b : Counters) : Counters where
  hits := a.hits + b.hits
  misses := a.misses + b.misses
  bytesServed := a.bytesServed + b.bytesServed
  bytesFetched := a.bytesFetched + b.bytesFetched
  denied := a.denied + b.denied

/-- The parts of a report body the server's inventory depends on, and its statistics. -/
structure Body where
  full : Bool
  have_ : List Sha
  gone : List Sha
  hits : Nat
  misses : Nat
  bytesServed : Nat
  bytesFetched : Nat
  period : Int × Int
  deriving DecidableEq

/-- The local variables of a call of `report` that waits for the post of chunk `i`. -/
structure Report where
  full : Bool
  added : List Sha
  removed : List Sha
  counters : Counters
  start : Int
  finish : Int
  i : Nat
  deriving DecidableEq

namespace Report

def chunksOf (l : List Sha) : Nat := (l.length + maxHave - 1) / maxHave

def chunks (r : Report) : Nat := max 1 (max (chunksOf r.added) (chunksOf r.removed))

def slice (l : List Sha) (i : Nat) : List Sha := (l.drop (i * maxHave)).take maxHave

/-- The body posted for chunk `i`; the statistics go with the first one. -/
def body (r : Report) : Body where
  -- only the first chunk replaces the server's list, the others add to it
  full := r.full && r.i == 0
  have_ := slice r.added r.i
  gone := slice r.removed r.i
  hits := if r.i = 0 then r.counters.hits else 0
  misses := if r.i = 0 then r.counters.misses else 0
  bytesServed := if r.i = 0 then r.counters.bytesServed else 0
  bytesFetched := if r.i = 0 then r.counters.bytesFetched else 0
  period := (r.start, r.finish)

end Report

structure HomeCache where
  enabled : Bool
  store : BlobStore
  needFull : Bool
  lastFullAt : Int
  lastReportAt : Option Int
  counters : Counters
  periodFrom : Int
  now : Int
  /-- The report that waits for the server, if any. -/
  inflight : Option Report
  /-- The server's view: what it believes the gateway holds. -/
  view : Finset Sha

/-- A delivered body changes the server's view. -/
def deliver (view : Finset Sha) (b : Body) : Finset Sha :=
  if b.full then b.have_.toFinset else (view ∪ b.have_.toFinset) \ b.gone.toFinset

namespace HomeCache

/-- A cache that has just opened its store; nothing is known about the server's view. -/
def start (items : OrderedMap Sha Item) (view : Finset Sha) (now : Int) : HomeCache where
  enabled := true
  store := .opened items
  needFull := true
  lastFullAt := 0
  lastReportAt := none
  counters := zeroCounters
  periodFrom := now
  now := now
  inflight := none
  view := view

/-- `report` up to its first post. -/
def beginReport (h : HomeCache) : HomeCache :=
  if !h.enabled then h
  else
    -- nothing has been reported yet, a post has failed, or the last full report is too old
    let full := h.needFull || decide (fullEveryMs ≤ h.now - h.lastFullAt)
    { h with
      -- the counters are taken out before the post, and put back when the first one fails
      counters := zeroCounters
      periodFrom := h.now
      inflight := some
        { full := full
          added := if full then h.store.items.keys else OrderedMap.keys h.store.added
          removed := if full then [] else OrderedMap.keys h.store.removed
          counters := h.counters
          start := h.periodFrom
          finish := h.now
          i := 0 } }

/-- The end of `report` after all posts have succeeded. -/
def complete (h : HomeCache) (r : Report) : HomeCache :=
  if r.full then
    { h with
      inflight := none
      needFull := false
      lastFullAt := r.finish
      lastReportAt := some r.finish
      -- clears also what was recorded after the snapshot was taken
      store := { h.store with added := .empty, removed := .empty } }
  else
    { h with
      inflight := none
      lastReportAt := some r.finish
      store := { h.store with
        -- takes out what was sent, so changes recorded meanwhile stay
        added := OrderedSet.deleteAll h.store.added r.added
        removed := OrderedSet.deleteAll h.store.removed r.removed } }

/-- The end of `report` after a failed post; the first post carried the statistics. -/
def abandon (h : HomeCache) (r : Report) : HomeCache :=
  { h with
    inflight := none
    needFull := true
    counters := if r.i = 0 then h.counters.add r.counters else h.counters
    periodFrom := if r.i = 0 then r.start else h.periodFrom }

/-- The awaited post comes back: the server may have got it also when the answer is a failure. -/
def answer (h : HomeCache) (r : Report) (ok delivered : Bool) : HomeCache :=
  -- a lost answer looks like a failed post to the gateway, but not to the server
  let h := { h with view := if delivered then deliver h.view r.body else h.view }
  if !ok then h.abandon r
  else if r.i + 1 < r.chunks then { h with inflight := some { r with i := r.i + 1 } }
  else h.complete r

inductive Action
  | commit (sha : Sha) (size : Int) (kind : Option String)
  | remove (sha : Sha)
  | clock (now : Int)
  /-- The LAN endpoint or a download counts something. -/
  | count (c : Counters)
  | report
  | answer (ok delivered : Bool)

/-- One step; reports do not overlap, and a post that succeeds has been delivered. -/
def step (h : HomeCache) : Action → Option HomeCache
  | .commit sha size kind => some { h with store := h.store.commit h.now sha size kind }
  | .remove sha => some { h with store := h.store.remove sha }
  | .clock now => some { h with now := now }
  | .count c => some { h with counters := h.counters.add c }
  | .report => if h.inflight.isSome then none else some h.beginReport
  | .answer ok delivered =>
      match h.inflight with
      | none => none
      | some r => if ok && !delivered then none else some (h.answer r ok delivered)

/-! ## Chunks -/

end HomeCache

namespace Report

theorem take_append_slice (l : List Sha) (i : Nat) :
    l.take (i * maxHave) ++ slice l i = l.take ((i + 1) * maxHave) := by
  rw [slice, Nat.succ_mul, List.take_add]

theorem mem_take_succ {l : List Sha} {i : Nat} {x : Sha} :
    x ∈ l.take ((i + 1) * maxHave) ↔ x ∈ l.take (i * maxHave) ∨ x ∈ slice l i := by
  simp [← take_append_slice]

theorem mem_of_mem_slice {l : List Sha} {i : Nat} {x : Sha} (h : x ∈ slice l i) : x ∈ l :=
  List.mem_of_mem_drop (List.mem_of_mem_take h)

theorem length_le_of_chunksOf_le {l : List Sha} {n : Nat} (h : chunksOf l ≤ n) :
    l.length ≤ n * maxHave := by
  have hdiv : (l.length + maxHave - 1) / maxHave ≤ n := h
  simp only [maxHave] at hdiv ⊢
  omega

/-- When the last chunk has been sent, everything has been sent. -/
theorem take_of_chunks_le {r : Report} {n : Nat} (h : r.chunks ≤ n) :
    r.added.take (n * maxHave) = r.added ∧ r.removed.take (n * maxHave) = r.removed := by
  have h1 : chunksOf r.added ≤ n := by
    have := le_max_left (chunksOf r.added) (chunksOf r.removed)
    have := le_max_right 1 (max (chunksOf r.added) (chunksOf r.removed))
    unfold chunks at h
    omega
  have h2 : chunksOf r.removed ≤ n := by
    have := le_max_right (chunksOf r.added) (chunksOf r.removed)
    have := le_max_right 1 (max (chunksOf r.added) (chunksOf r.removed))
    unfold chunks at h
    omega
  exact ⟨List.take_of_length_le (length_le_of_chunksOf_le h1),
    List.take_of_length_le (length_le_of_chunksOf_le h2)⟩

end Report

namespace HomeCache

/-! ## What every step keeps -/

variable {h : HomeCache} {r : Report}

/-- The index is what the server believes, corrected by the recorded changes, where the changes
`A` and `R` are on their way to the server. -/
def Agrees (h : HomeCache) (A R : List Sha) : Prop :=
  ∀ x, x ∈ h.store.items.keys ↔
    x ∈ OrderedMap.keys h.store.added ∨
      (x ∉ OrderedMap.keys h.store.removed ∧ (x ∈ A ∨ (x ∈ h.view ∧ x ∉ R)))

/-- How far a full report has come: the server's view is the part of the snapshot sent so far. -/
def FullProgress (h : HomeCache) : Prop :=
  ∀ r, h.inflight = some r → r.full = true →
    r.removed = [] ∧ (0 < r.i → h.view = (r.added.take (r.i * maxHave)).toFinset)

/-- The state of a report of changes. -/
structure DeltaProgress (h : HomeCache) (r : Report) : Prop where
  agrees : h.Agrees r.added r.removed
  apart : ∀ x ∈ r.added, x ∉ r.removed
  sentAdded : ∀ x ∈ r.added.take (r.i * maxHave), x ∈ h.view
  sentRemoved : ∀ x ∈ r.removed.take (r.i * maxHave), x ∉ h.view

/-- The invariant of the reports that do not lose changes. -/
structure Inv (h : HomeCache) : Prop where
  consistent : h.store.Consistent
  full : h.FullProgress
  delta : ∀ r, h.inflight = some r → r.full = false → h.DeltaProgress r
  idle : h.inflight = none → h.needFull = false → h.Agrees [] []

/-- Only the store and the server's view matter to a report. -/
theorem DeltaProgress.of_eq {h' : HomeCache} (hd : h.DeltaProgress r) (hs : h'.store = h.store)
    (hv : h'.view = h.view) : h'.DeltaProgress r := by
  refine ⟨fun x => ?_, hd.apart, ?_, ?_⟩
  · simpa [hs, hv] using hd.agrees x
  · simpa [hv] using hd.sentAdded
  · simpa [hv] using hd.sentRemoved

theorem Agrees.commit {A R : List Sha} (ha : h.Agrees A R) (sha : Sha) (size : Int)
    (kind : Option String) : Agrees { h with store := h.store.commit h.now sha size kind } A R := by
  intro x
  have hx := ha x
  simp only [BlobStore.mem_items_commit, BlobStore.mem_added_commit, BlobStore.mem_removed_commit]
  by_cases heq : x = sha
  · simp [heq]
  · simpa [heq] using hx

theorem Agrees.remove {A R : List Sha} (ha : h.Agrees A R) (sha : Sha) :
    Agrees { h with store := h.store.remove sha } A R := by
  by_cases hm : sha ∈ h.store.items.keys
  · intro x
    have hx := ha x
    have hr := h.store.remove_of_mem (x := x) hm
    simp only [hr.1, hr.2.1, hr.2.2]
    by_cases heq : x = sha
    · simp [heq]
    · simpa [heq] using hx
  · intro x
    simpa [BlobStore.remove_of_not_mem h.store hm] using ha x

theorem mem_view_deliver {view : Finset Sha} (hf : r.full = false) {x : Sha} :
    x ∈ deliver view r.body ↔
      (x ∈ view ∨ x ∈ Report.slice r.added r.i) ∧ x ∉ Report.slice r.removed r.i := by
  simp [deliver, Report.body, hf]

theorem Agrees.deliver (hf : r.full = false) (ha : h.Agrees r.added r.removed) :
    Agrees { h with view := deliver h.view r.body } r.added r.removed := by
  intro x
  have hx := ha x
  have hin : x ∈ Report.slice r.added r.i → x ∈ r.added := Report.mem_of_mem_slice
  have hout : x ∈ Report.slice r.removed r.i → x ∈ r.removed := Report.mem_of_mem_slice
  simp only [mem_view_deliver hf]
  grind

/-- The rest of a report of changes after its current chunk has arrived. -/
theorem DeltaProgress.deliver (hf : r.full = false) (hd : h.DeltaProgress r) :
    DeltaProgress { h with view := Cache.deliver h.view r.body } { r with i := r.i + 1 } := by
  refine ⟨hd.agrees.deliver hf, hd.apart, ?_, ?_⟩
  · intro x hx
    have hxr : x ∈ r.added := List.mem_of_mem_take hx
    have hnot : x ∉ Report.slice r.removed r.i := fun h' =>
      hd.apart x hxr (Report.mem_of_mem_slice h')
    refine (mem_view_deliver hf).2 ⟨?_, hnot⟩
    exact (Report.mem_take_succ.1 hx).imp_left (hd.sentAdded x)
  · intro x hx hview
    have hxr : x ∈ r.removed := List.mem_of_mem_take hx
    rcases (mem_view_deliver hf).1 hview with ⟨hold | hnew, hnot⟩
    · rcases Report.mem_take_succ.1 hx with hsent | hnow
      · exact hd.sentRemoved x hsent hold
      · exact hnot hnow
    · exact hd.apart x (Report.mem_of_mem_slice hnew) hxr

/-- Once all changes have arrived, what is left is what was recorded meanwhile. -/
theorem DeltaProgress.complete (hf : r.full = false) (hd : h.DeltaProgress r)
    (hc : h.store.Consistent) (hi : r.chunks ≤ r.i) : Agrees (h.complete r) [] [] := by
  have hall := Report.take_of_chunks_le hi
  intro x
  have hx := hd.agrees x
  have hA : x ∈ r.added → x ∈ h.view := fun hmem => hd.sentAdded x (hall.1.symm ▸ hmem)
  have hR : x ∈ r.removed → x ∉ h.view := fun hmem => hd.sentRemoved x (hall.2.symm ▸ hmem)
  have hap := hd.apart x
  have hdis : x ∈ OrderedMap.keys h.store.added → x ∉ OrderedMap.keys h.store.removed :=
    fun hmem => hc.disjoint hmem
  simp only [HomeCache.complete, hf, Bool.false_eq_true, if_false,
    OrderedSet.mem_keys_deleteAll, List.not_mem_nil, not_false_eq_true, and_true, false_or]
  by_cases hxA : x ∈ r.added
  · -- the server has it now; it is gone again only if its removal was recorded since
    have hrem := hap hxA
    have hview := hA hxA
    by_cases hxa : x ∈ OrderedMap.keys h.store.added
    · simpa [hxA, hrem, hview, hxa, hdis hxa] using hx
    · simpa [hxA, hrem, hview, hxa] using hx
  · by_cases hxR : x ∈ r.removed
    · simpa [hxA, hxR, hR hxR] using hx
    · simpa [hxA, hxR] using hx

theorem FullProgress.deliver (hp : h.FullProgress) (hr : h.inflight = some r) (hf : r.full = true) :
    Cache.deliver h.view r.body = (r.added.take ((r.i + 1) * maxHave)).toFinset := by
  rcases hp r hr hf with ⟨hrem, hview⟩
  by_cases hi : r.i = 0
  · simp [Cache.deliver, Report.body, hf, hi, Report.slice]
  · have hpos : 0 < r.i := Nat.pos_of_ne_zero hi
    have hslice : Report.slice r.removed r.i = [] := by simp [hrem, Report.slice]
    ext x
    simp [Cache.deliver, Report.body, hf, hi, hview hpos, hslice, Report.mem_take_succ]

/-- A successful last post of a full report finds the index as it was when the report was taken. -/
def FullReportCurrent (h : HomeCache) : Action → Prop
  | .answer true _ =>
      ∀ r, h.inflight = some r → r.full = true → r.chunks ≤ r.i + 1 →
        ∀ x, x ∈ r.added ↔ x ∈ h.store.items.keys
  | _ => True

theorem beginReport_fullProgress (h : HomeCache) (hn : h.inflight = none) :
    h.beginReport.FullProgress := by
  intro r hr hf
  by_cases he : h.enabled
  · simp only [beginReport, he, Bool.not_true, Bool.false_eq_true, if_false,
      Option.some.injEq] at hr
    subst hr
    simp only at hf
    simp [hf]
  · simp [beginReport, he, hn] at hr

theorem answer_fullProgress (hp : h.FullProgress) (hr : h.inflight = some r) (ok delivered : Bool)
    (hdel : ok = true → delivered = true) : (h.answer r ok delivered).FullProgress := by
  intro r' hr' hf'
  cases ok with
  | false =>
      simp [answer, abandon] at hr'
  | true =>
      have hd := hdel rfl
      by_cases hlast : r.i + 1 < r.chunks
      · simp only [answer, hd, hlast, Bool.not_true, Bool.false_eq_true, if_false, if_true,
          Option.some.injEq] at hr'
        subst hr'
        refine ⟨(hp r hr hf').1, fun _ => ?_⟩
        simpa [answer, hd, hlast] using hp.deliver hr hf'
      · simp only [answer, hlast, Bool.not_true, Bool.false_eq_true, if_false, complete] at hr'
        split at hr' <;> cases hr'

/-- The progress of full reports does not depend on what happens to the store meanwhile. -/
theorem step_fullProgress (h : HomeCache) (a : Action) (h' : HomeCache) (hp : h.FullProgress)
    (hstep : step h a = some h') : h'.FullProgress := by
  cases a with
  | commit sha size kind =>
      cases hstep
      exact hp
  | remove sha =>
      cases hstep
      exact hp
  | clock now =>
      cases hstep
      exact hp
  | count c =>
      cases hstep
      exact hp
  | report =>
      simp only [step] at hstep
      split at hstep
      · cases hstep
      · rename_i hn
        cases hstep
        exact beginReport_fullProgress h (by simpa using hn)
  | answer ok delivered =>
      simp only [step] at hstep
      split at hstep
      · cases hstep
      · rename_i r hr
        split at hstep
        · cases hstep
        · rename_i hok
          cases hstep
          refine answer_fullProgress hp hr ok delivered ?_
          intro h1
          simpa [h1] using hok

theorem DeltaProgress.commit (hd : h.DeltaProgress r) (sha : Sha) (size : Int)
    (kind : Option String) :
    DeltaProgress { h with store := h.store.commit h.now sha size kind } r := by
  exact ⟨hd.agrees.commit sha size kind, hd.apart, hd.sentAdded, hd.sentRemoved⟩

theorem DeltaProgress.remove (hd : h.DeltaProgress r) (sha : Sha) :
    DeltaProgress { h with store := h.store.remove sha } r := by
  exact ⟨hd.agrees.remove sha, hd.apart, hd.sentAdded, hd.sentRemoved⟩

/-- A report of changes starts from a state in which nothing is on its way. -/
theorem beginReport_inv (hi : h.Inv) (hn : h.inflight = none) : h.beginReport.Inv := by
  by_cases he : h.enabled
  · refine ⟨?_, beginReport_fullProgress h hn, ?_, ?_⟩
    · simpa [beginReport, he] using hi.consistent
    · intro r hr hf
      simp only [beginReport, he, Bool.not_true, Bool.false_eq_true, if_false,
        Option.some.injEq] at hr
      subst hr
      simp only [Bool.or_eq_false_iff, decide_eq_false_iff_not] at hf
      have hidle := hi.idle hn hf.1
      refine ⟨?_, ?_, ?_, ?_⟩
      · intro x
        have hx := hidle x
        simp only [beginReport, he, hf, Bool.not_true, Bool.false_eq_true, if_false,
          decide_false, Bool.or_self, List.not_mem_nil, not_false_eq_true, and_true,
          false_or] at hx ⊢
        grind
      · intro x hx
        simp only [hf, decide_false, Bool.or_self, Bool.false_eq_true, if_false] at hx ⊢
        exact hi.consistent.disjoint hx
      · intro x hx
        simp at hx
      · intro x hx
        simp at hx
    · intro hnone
      simp [beginReport, he] at hnone
  · have hsame : h.beginReport = h := by simp [beginReport, he]
    rw [hsame]
    exact hi

/-- A full report has arrived: nothing is recorded any more, and the server has the snapshot. -/
theorem complete_full_inv (hi : h.Inv) (hr : h.inflight = some r) (hf : r.full = true)
    (hle : r.chunks ≤ r.i + 1) (hcur : ∀ x, x ∈ r.added ↔ x ∈ h.store.items.keys)
    (hfull : ({ h with view := deliver h.view r.body }.complete r).FullProgress) :
    ({ h with view := deliver h.view r.body }.complete r).Inv := by
  refine ⟨?_, hfull, ?_, ?_⟩
  · simp only [complete, hf, if_true]
    exact BlobStore.consistent_of_empty rfl rfl
  · intro r' hr'
    simp [complete, hf] at hr'
  · intro _ _ x
    have hview := hi.full.deliver hr hf
    rw [(Report.take_of_chunks_le hle).1] at hview
    have hna := OrderedMap.not_mem_keys_empty (β := Unit) x
    simp only [complete, hf, if_true, hview, List.mem_toFinset, List.not_mem_nil,
      not_false_eq_true, and_true, false_or, hna, true_and]
    exact (hcur x).symm

/-- The changes have arrived: what is left was recorded meanwhile. -/
theorem complete_delta_inv (hi : h.Inv) (hr : h.inflight = some r) (hf : r.full = false)
    (hle : r.chunks ≤ r.i + 1)
    (hfull : ({ h with view := deliver h.view r.body }.complete r).FullProgress) :
    ({ h with view := deliver h.view r.body }.complete r).Inv := by
  have hprog := (hi.delta r hr hf).deliver hf
  refine ⟨?_, hfull, ?_, ?_⟩
  · simp only [complete, hf, Bool.false_eq_true, if_false]
    constructor
    · intro x hx
      exact hi.consistent.added_mem x ((OrderedSet.mem_keys_deleteAll _ _).1 hx).2
    · intro x hx
      exact hi.consistent.removed_not_mem x ((OrderedSet.mem_keys_deleteAll _ _).1 hx).2
  · intro r' hr'
    simp [complete, hf] at hr'
  · intro _ _ x
    have hagree := hprog.complete (r := { r with i := r.i + 1 }) hf hi.consistent hle x
    simpa [complete, hf] using hagree

theorem answer_inv (hi : h.Inv) (hr : h.inflight = some r) (ok delivered : Bool)
    (hdel : ok = true → delivered = true) (hcur : FullReportCurrent h (.answer ok delivered)) :
    (h.answer r ok delivered).Inv := by
  have hfull := answer_fullProgress hi.full hr ok delivered hdel
  cases ok with
  | false =>
      refine ⟨?_, hfull, ?_, ?_⟩
      · simpa [answer, abandon] using hi.consistent
      · intro r' hr'
        simp [answer, abandon] at hr'
      · intro _ hneed
        simp [answer, abandon] at hneed
  | true =>
      have hd : delivered = true := hdel rfl
      by_cases hlast : r.i + 1 < r.chunks
      · -- the next chunk goes out
        have heq : h.answer r true delivered =
            { h with view := deliver h.view r.body, inflight := some { r with i := r.i + 1 } } := by
          simp [answer, hd, hlast]
        rw [heq] at hfull ⊢
        refine ⟨hi.consistent, hfull, ?_, ?_⟩
        · intro r' hr' hf'
          cases hr'
          have hf : r.full = false := hf'
          have hprog := (hi.delta r hr hf).deliver hf
          exact ⟨hprog.agrees, hprog.apart, hprog.sentAdded, hprog.sentRemoved⟩
        · intro hnone
          cases hnone
      · -- that was the last chunk
        have heq : h.answer r true delivered =
            { h with view := deliver h.view r.body }.complete r := by
          simp [answer, hd, hlast]
        have hle : r.chunks ≤ r.i + 1 := Nat.le_of_not_lt hlast
        rw [heq] at hfull ⊢
        cases hf : r.full with
        | true =>
            exact complete_full_inv hi hr hf hle (hcur r hr hf hle) hfull
        | false =>
            exact complete_delta_inv hi hr hf hle hfull

theorem step_inv (h : HomeCache) (a : Action) (h' : HomeCache) (hi : h.Inv)
    (hcur : FullReportCurrent h a) (hstep : step h a = some h') : h'.Inv := by
  cases a with
  | commit sha size kind =>
      cases hstep
      exact ⟨hi.consistent.commit, hi.full, fun r hr hf => (hi.delta r hr hf).commit sha size kind,
        fun hn hneed => (hi.idle hn hneed).commit sha size kind⟩
  | remove sha =>
      cases hstep
      exact ⟨hi.consistent.remove, hi.full, fun r hr hf => (hi.delta r hr hf).remove sha,
        fun hn hneed => (hi.idle hn hneed).remove sha⟩
  | clock now =>
      cases hstep
      exact ⟨hi.consistent, hi.full, fun r hr hf => (hi.delta r hr hf).of_eq rfl rfl, hi.idle⟩
  | count c =>
      cases hstep
      exact ⟨hi.consistent, hi.full, fun r hr hf => (hi.delta r hr hf).of_eq rfl rfl, hi.idle⟩
  | report =>
      simp only [step] at hstep
      split at hstep
      · cases hstep
      · rename_i hn
        cases hstep
        exact beginReport_inv hi (by simpa using hn)
  | answer ok delivered =>
      simp only [step] at hstep
      split at hstep
      · cases hstep
      · rename_i r hr
        split at hstep
        · cases hstep
        · rename_i hok
          cases hstep
          refine answer_inv hi hr ok delivered ?_ hcur
          intro h1
          simpa [h1] using hok

/-! ## Whole runs -/

theorem start_inv (items : OrderedMap Sha Item) (view : Finset Sha) (now : Int) :
    (start items view now).Inv := by
  refine ⟨BlobStore.opened_consistent items, ?_, ?_, ?_⟩
  · intro r hr
    cases hr
  · intro r hr
    cases hr
  · intro _ hneed
    cases hneed

/-- With nothing left to report the server believes exactly in what the store holds. -/
def InStep (h : HomeCache) : Prop :=
  h.inflight = none → h.needFull = false → OrderedMap.keys h.store.added = [] →
    OrderedMap.keys h.store.removed = [] → h.view = h.store.items.keys.toFinset

theorem Inv.inStep (hi : h.Inv) : h.InStep := by
  intro hn hneed hadd hrem
  -- without changes on either side `Agrees` is equality
  ext x
  have hx := hi.idle hn hneed x
  simpa [hadd, hrem] using hx.symm

/-- A full report that ends in step found the index as it was when the report was taken. -/
theorem fullReportCurrent_of_inStep (h : HomeCache) (a : Action) (h' : HomeCache)
    (hp : h.FullProgress) (hstep : step h a = some h') (hin : h'.InStep) :
    FullReportCurrent h a := by
  cases a with
  | answer ok delivered =>
      cases ok with
      | false =>
          trivial
      | true =>
          intro r hr hf hle x
          have hd : delivered = true := by
            cases delivered with
            | false =>
                simp [step, hr] at hstep
            | true =>
                rfl
          have hlast : ¬ r.i + 1 < r.chunks := Nat.not_lt.2 hle
          have hh' : h' = { h with view := deliver h.view r.body }.complete r := by
            simpa [step, hr, hd, answer, hlast] using hstep.symm
          have hview := hp.deliver hr hf
          rw [(Report.take_of_chunks_le hle).1] at hview
          -- the completion leaves nothing to report, so the two sets are compared here
          have hsame : r.added.toFinset = h.store.items.keys.toFinset := by
            have hin' := hin (by simp [hh', complete, hf]) (by simp [hh', complete, hf])
              (by simp [hh', complete, hf]) (by simp [hh', complete, hf])
            simpa [hh', complete, hf, hview] using hin'
          simpa using Finset.ext_iff.1 hsame x
  | _ =>
      trivial

/-- No update of the inventory is lost in a run if and only if every full report that succeeds
finds, when its last post comes back, the index as it was when its snapshot was taken. -/
theorem inventory_in_step (items : OrderedMap Sha Item) (view : Finset Sha) (now : Int)
    (as : List Action) (t : HomeCache) (hrun : exec step (start items view now) as = some t) :
    Throughout step InStep (start items view now) as ↔
      Admits step FullReportCurrent (start items view now) as := by
  have hstart := start_inv items view now
  constructor
  · exact admits_of_throughout step_fullProgress fullReportCurrent_of_inStep hstart.full hrun
  · exact throughout_of_admits step_inv (fun _ hi => hi.inStep) hstart

/-- An empty store takes a blob, reports it in full and takes the next one. -/
def twoDownloads : List Action :=
  [.commit "a0" 10 none, .report, .answer true true, .commit "b1" 20 none]

theorem inventory_in_step_two_downloads :
    (exec step (start .empty ∅ 0) twoDownloads).isSome = true ∧
      Throughout step InStep (start .empty ∅ 0) twoDownloads := by
  have hrun : ∃ t, exec step (start .empty ∅ 0) twoDownloads = some t := ⟨_, rfl⟩
  rcases hrun with ⟨t, ht⟩
  refine ⟨by simp [ht], (inventory_in_step .empty ∅ 0 twoDownloads t ht).2 ?_⟩
  refine ⟨trivial, fun h1 e1 => ⟨trivial, fun h2 e2 => ⟨?_, fun _ _ => ?_⟩⟩⟩
  case refine_2 =>
    exact ⟨trivial, fun _ _ => trivial⟩
  -- nothing happens while the full report is awaited
  intro r hr _ _ x
  cases e1
  cases e2
  cases hr
  exact Iff.rfl

/-- A download that ends while the first full report is awaited is never reported. -/
theorem inventory_out_of_step :
    ∃ t, exec step (start .empty ∅ 0)
        [.report, .commit "a0" 10 none, .answer true true] = some t ∧
      t.inflight = none ∧ t.needFull = false ∧ OrderedMap.keys t.store.added = [] ∧
      OrderedMap.keys t.store.removed = [] ∧ t.view = ∅ ∧
      t.view ≠ t.store.items.keys.toFinset :=
  ⟨_, rfl, rfl, rfl, rfl, rfl, rfl, by decide⟩

end HomeCache

end Cache
end GateControl
