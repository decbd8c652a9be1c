import GateControl.Inetq.Buffer
import Mathlib.Data.List.TakeWhile

/-!
# Outages — when the internet was away

The detector is told for each measurement whether the internet and the router have answered.  It
suspects an outage at the first observation without an answer, opens it when that goes on for
`confirmMs`, and closes it with the next answer; each time it reports a record.  Over a sequence of
observations its records are those of the maximal runs of observations without an answer, each run
for itself.
-/

namespace GateControl
namespace Inetq

open Library

/-! ## The detector -/

/-- An observation; `time` is its field `at`. -/
structure Observation where
  time : Int
  inetOk : Bool
  routerOk : Option Bool
  deriving DecidableEq

structure Suspect where
  time : Int
  routerDown : Bool

structure OpenOutage where
  start : Int
  cause : Cause
  lastDownAt : Int

structure OutageDetector where
  confirmMs : Int
  gapMs : Int
  suspect : Option Suspect
  opened : Option OpenOutage

namespace OutageDetector

/-- A detector that has no outage to go on with. -/
def fresh (confirmMs gapMs : Int) : OutageDetector := ⟨confirmMs, gapMs, none, none⟩

def causeOf (routerDown : Bool) : Cause := if routerDown then .router else .isp

variable (d : OutageDetector)

/-- The internet has answered. -/
def observeOk (time : Int) : OutageDetector × Option Outage :=
  match d.opened with
  | none => ({ d with suspect := none }, none)
  | some o =>
      let ended := if time - o.lastDownAt > d.gapMs then o.lastDownAt else time
      ({ d with suspect := none, opened := none }, some ⟨o.start, some ended, o.cause⟩)

/-- It has not. -/
def observeDown (time : Int) (routerDown : Bool) : OutageDetector × Option Outage :=
  match d.opened with
  | some o =>
      if routerDown ∧ o.cause ≠ .router then
        ({ d with opened := some { o with lastDownAt := time, cause := .router } },
          some ⟨o.start, none, .router⟩)
      else ({ d with opened := some { o with lastDownAt := time } }, none)
  | none =>
      match d.suspect with
      | none => ({ d with suspect := some ⟨time, routerDown⟩ }, none)
      | some s =>
          let s := if routerDown then { s with routerDown := true } else s
          if time - s.time ≥ d.confirmMs then
            ({ d with suspect := none, opened := some ⟨s.time, causeOf s.routerDown, time⟩ },
              some ⟨s.time, none, causeOf s.routerDown⟩)
          else ({ d with suspect := some s }, none)

def observe (o : Observation) : OutageDetector × Option Outage :=
  if o.inetOk then d.observeOk o.time else d.observeDown o.time (o.routerOk = some false)

/-- The detector and the records of a sequence of observations. -/
def observeAll (d : OutageDetector) : List Observation → OutageDetector × List Outage
  | [] => (d, [])
  | o :: os =>
      let (d, r) := d.observe o
      let (d, rs) := observeAll d os
      (d, r.toList ++ rs)

end OutageDetector

/-! ## Runs without an answer -/

/-- A maximal run of observations without an answer, and the observation behind it. -/
structure Run where
  first : Observation
  rest : List Observation
  next : Option Observation

namespace Run

variable (run : Run)

def observations : List Observation := run.first :: run.rest

def last : Observation := run.rest.getLastD run.first

/-- The run is long enough for an outage. -/
def Confirmed (confirmMs : Int) : Prop := run.last.time - run.first.time ≥ confirmMs

/-- The router has not answered either. -/
def RouterDown : Prop := ∃ o ∈ run.observations, o.routerOk = some false

instance (confirmMs : Int) : Decidable (run.Confirmed confirmMs) :=
  inferInstanceAs (Decidable (_ ≥ _))

instance : Decidable run.RouterDown := inferInstanceAs (Decidable (∃ _ ∈ _, _))

/-- The outage ends with the answer, or with the run if the answer is too long after it. -/
def endedAt (gapMs : Int) (next : Observation) : Int :=
  if next.time - run.last.time > gapMs then run.last.time else next.time

def cause : Cause := if run.RouterDown then .router else .isp

/-- The record that closes the outage. -/
def closing (gapMs : Int) : Option Outage :=
  run.next.map fun next => ⟨run.first.time, some (run.endedAt gapMs next), run.cause⟩

end Run

/-- The maximal runs of a sequence, in their order. -/
def runs (obs : List Observation) : List Run :=
  match _ : obs.dropWhile (·.inetOk) with
  | [] => []
  | first :: rest =>
      ⟨first, rest.takeWhile (!·.inetOk), (rest.dropWhile (!·.inetOk)).head?⟩ ::
        runs (rest.dropWhile (!·.inetOk))
termination_by obs.length
decreasing_by
  rename_i h
  have h1 : (obs.dropWhile (·.inetOk)).length ≤ obs.length := (List.dropWhile_suffix _).length_le
  have h2 : (rest.dropWhile (!·.inetOk)).length ≤ rest.length :=
    (List.dropWhile_suffix _).length_le
  rw [h, List.length_cons] at h1
  omega

/-! ## One run -/

namespace OutageDetector

theorem observeAll_append (d : OutageDetector) (as bs : List Observation) :
    d.observeAll (as ++ bs) =
      (((d.observeAll as).1.observeAll bs).1,
        (d.observeAll as).2 ++ ((d.observeAll as).1.observeAll bs).2) := by
  induction as generalizing d with
  | nil =>
      rfl
  | cons a as ih =>
      simp only [List.cons_append, observeAll, ih, List.append_assoc]

/-- Answers are no news for a fresh detector. -/
theorem observeAll_ok (confirmMs gapMs : Int) {oks : List Observation}
    (h : ∀ o ∈ oks, o.inetOk = true) :
    (fresh confirmMs gapMs).observeAll oks = (fresh confirmMs gapMs, []) := by
  induction oks with
  | nil =>
      rfl
  | cons o oks ih =>
      have hone : (fresh confirmMs gapMs).observe o = (fresh confirmMs gapMs, none) := by
        rw [observe, if_pos (h o List.mem_cons_self)]
        rfl
      simp only [observeAll, hone, ih fun o ho => h o (List.mem_cons_of_mem _ ho)]
      rfl

/-- The records of an outage that has not ended: each has its start, and the last one its cause. -/
def Partial (start : Int) (cause : Cause) (rs : List Outage) : Prop :=
  (∀ r ∈ rs, r.start = start ∧ r.ended = none) ∧ ∃ r, rs.getLast? = some r ∧ r.cause = cause

/-- Where the detector is after the first observations of a run. -/
inductive Inside (confirmMs gapMs : Int) (first last : Observation) (cause : Cause) :
    OutageDetector × List Outage → Prop where
  | suspected (routerDown : Bool) (hcause : causeOf routerDown = cause)
      (hshort : last.time - first.time < confirmMs) :
      Inside confirmMs gapMs first last cause
        (⟨confirmMs, gapMs, some ⟨first.time, routerDown⟩, none⟩, [])
  | opened (rs : List Outage) (hparts : Partial first.time cause rs)
      (hlong : last.time - first.time ≥ confirmMs) :
      Inside confirmMs gapMs first last cause
        (⟨confirmMs, gapMs, none, some ⟨first.time, cause, last.time⟩⟩, rs)

theorem Partial.append {start : Int} {cause : Cause} {rs : List Outage} (h : Partial start cause rs)
    (cause' : Cause) : Partial start cause' (rs ++ [⟨start, none, cause'⟩]) := by
  refine ⟨?_, ⟨start, none, cause'⟩, List.getLast?_concat, rfl⟩
  intro r hr
  rcases List.mem_append.1 hr with hold | hnew
  · exact h.1 r hold
  · rw [List.mem_singleton.1 hnew]
    exact ⟨rfl, rfl⟩

variable {confirmMs gapMs : Int} {first last : Observation} {cause : Cause}

/-- The cause gets worse, but not better. -/
def worse (cause : Cause) (o : Observation) : Cause :=
  if o.routerOk = some false then .router else cause

/-- One more observation of the run. -/
theorem Inside.observe {p : OutageDetector × List Outage}
    (h : Inside confirmMs gapMs first last cause p) {o : Observation} (ho : o.inetOk = false)
    (hle : last.time ≤ o.time) :
    Inside confirmMs gapMs first o (worse cause o)
      ((p.1.observe o).1, p.2 ++ (p.1.observe o).2.toList) := by
  have hdown : ∀ d : OutageDetector, d.observe o = d.observeDown o.time (o.routerOk = some false) := by
    intro d
    rw [OutageDetector.observe, if_neg (by simp [ho])]
  rw [hdown]
  cases h with
  | suspected routerDown hcause hshort =>
      have hworse : causeOf (if o.routerOk = some false then true else routerDown) =
          worse cause o := by
        rw [worse, ← hcause]
        split <;> rfl
      have hsuspect : (if decide (o.routerOk = some false) = true then
          { (⟨first.time, routerDown⟩ : Suspect) with routerDown := true }
          else ⟨first.time, routerDown⟩) =
          ⟨first.time, if o.routerOk = some false then true else routerDown⟩ := by
        by_cases hr : o.routerOk = some false <;> simp [hr]
      simp only [observeDown, hsuspect]
      by_cases hlong : o.time - first.time ≥ confirmMs
      · -- long enough now
        rw [if_pos hlong, hworse]
        refine .opened _ ⟨?_, _, rfl, rfl⟩ hlong
        intro r hr
        obtain rfl := List.mem_singleton.1 hr
        exact ⟨rfl, rfl⟩
      · rw [if_neg hlong]
        exact .suspected _ hworse (by omega)
  | opened rs hparts hlong =>
      have hstill : o.time - first.time ≥ confirmMs := by omega
      simp only [observeDown]
      by_cases hr : o.routerOk = some false
      · have hworse : worse cause o = .router := if_pos hr
        rw [hworse]
        by_cases hc : cause = .router
        · -- it is known already
          subst hc
          rw [if_neg (by simp)]
          simpa using Inside.opened rs hparts hstill
        · rw [if_pos (by simp [hr, hc])]
          exact .opened _ (hparts.append .router) hstill
      · have hworse : worse cause o = cause := if_neg hr
        rw [hworse, if_neg (by simp [hr])]
        simpa using Inside.opened rs hparts hstill

theorem foldl_worse (cause : Cause) (downs : List Observation) :
    downs.foldl worse cause = if ∃ o ∈ downs, o.routerOk = some false then .router else cause := by
  induction downs generalizing cause with
  | nil =>
      simp
  | cons o downs ih =>
      rw [List.foldl_cons, ih]
      by_cases ho : o.routerOk = some false <;> simp [worse, ho]

/-- The rest of the run. -/
theorem Inside.observeAll {p : OutageDetector × List Outage}
    (h : Inside confirmMs gapMs first last cause p) {downs : List Observation}
    (hdown : ∀ o ∈ downs, o.inetOk = false) (htimes : (last :: downs).Pairwise (·.time ≤ ·.time)) :
    Inside confirmMs gapMs first (downs.getLastD last) (downs.foldl worse cause)
      ((p.1.observeAll downs).1, p.2 ++ (p.1.observeAll downs).2) := by
  induction downs generalizing last cause p with
  | nil =>
      simpa [OutageDetector.observeAll] using h
  | cons o downs ih =>
      obtain ⟨hle, htimes⟩ := List.pairwise_cons.1 htimes
      have hstep := h.observe (hdown o List.mem_cons_self) (hle o List.mem_cons_self)
      have hrest := ih hstep (fun o' ho' => hdown o' (List.mem_cons_of_mem _ ho')) htimes
      rw [List.getLastD_cons, List.foldl_cons]
      simpa only [OutageDetector.observeAll, List.append_assoc] using hrest

/-- The answer behind the run. -/
theorem Inside.observeOk {p : OutageDetector × List Outage}
    (h : Inside confirmMs gapMs first last cause p) (time : Int) :
    (p.1.observeOk time).2 =
      if last.time - first.time ≥ confirmMs then
        some ⟨first.time, some (if time - last.time > gapMs then last.time else time), cause⟩
      else none := by
  cases h with
  | suspected routerDown hcause hshort =>
      rw [if_neg (by omega)]
      rfl
  | opened rs hparts hlong =>
      rw [if_pos hlong]
      rfl

end OutageDetector

namespace Run

open OutageDetector

/-- What a fresh detector reports of the run. -/
def records (run : Run) (confirmMs gapMs : Int) : List Outage :=
  ((fresh confirmMs gapMs).observeAll (run.observations ++ run.next.toList)).2

/-- A run of failures in the order of their times, and the answer behind it. -/
structure WellFormed (run : Run) : Prop where
  down : ∀ o ∈ run.observations, o.inetOk = false
  times : (run.observations ++ run.next.toList).Pairwise (·.time ≤ ·.time)
  next : ∀ o ∈ run.next, o.inetOk = true

variable {run : Run} {confirmMs gapMs : Int}

theorem WellFormed.inside (h : run.WellFormed) (hconfirm : 0 < confirmMs) :
    Inside confirmMs gapMs run.first run.last run.cause
      ((fresh confirmMs gapMs).observeAll run.observations) := by
  -- the first failure is suspect, and no more than that, since `confirmMs` is positive
  have hfirst : run.first.inetOk = false := h.down _ List.mem_cons_self
  have hone : (fresh confirmMs gapMs).observe run.first =
      (⟨confirmMs, gapMs, some ⟨run.first.time, run.first.routerOk = some false⟩, none⟩, none) := by
    rw [observe, if_neg (by simp [hfirst])]
    rfl
  have hstart : Inside confirmMs gapMs run.first run.first
      (causeOf (run.first.routerOk = some false))
      (⟨confirmMs, gapMs, some ⟨run.first.time, run.first.routerOk = some false⟩, none⟩, []) :=
    .suspected _ rfl (by omega)
  have hrest := hstart.observeAll (fun o ho => h.down o (List.mem_cons_of_mem _ ho))
    (List.pairwise_append.1 h.times).1
  have hcause : run.rest.foldl worse (causeOf (run.first.routerOk = some false)) = run.cause := by
    rw [foldl_worse]
    by_cases hr : run.first.routerOk = some false <;>
      simp [cause, RouterDown, observations, causeOf, hr]
  rw [hcause] at hrest
  simpa [observations, observeAll, hone, last] using hrest

/-- The answer behind the run, if there is one, adds its record to those of the run. -/
theorem WellFormed.records_eq (h : run.WellFormed) (confirmMs gapMs : Int) :
    run.records confirmMs gapMs =
      ((fresh confirmMs gapMs).observeAll run.observations).2 ++
        (run.next.bind fun o =>
          (((fresh confirmMs gapMs).observeAll run.observations).1.observeOk o.time).2).toList := by
  rw [records, observeAll_append]
  cases hnext : run.next with
  | none =>
      rfl
  | some o =>
      have hok : o.inetOk = true := h.next o hnext
      simp [observeAll, observe, hok]

/-- A run that is too short is not reported. -/
theorem WellFormed.records_of_not_confirmed (h : run.WellFormed) (hconfirm : 0 < confirmMs)
    (hshort : ¬ run.Confirmed confirmMs) : run.records confirmMs gapMs = [] := by
  have hinside : Inside confirmMs gapMs run.first run.last run.cause _ := h.inside hconfirm
  have hnone : ((fresh confirmMs gapMs).observeAll run.observations).2 = [] := by
    generalize (fresh confirmMs gapMs).observeAll run.observations = p at hinside
    cases hinside with
    | suspected routerDown hcause hlt => rfl
    | opened rs hparts hlong => exact absurd hlong hshort
  rw [h.records_eq, hnone]
  cases run.next with
  | none =>
      rfl
  | some o =>
      rw [Option.bind_some, hinside.observeOk, if_neg (by exact hshort)]
      rfl

/-- One that is long enough has its records, of which the last one closes it. -/
theorem WellFormed.records_of_confirmed (h : run.WellFormed) (gapMs : Int)
    (hconfirm : 0 < confirmMs) (hlong : run.Confirmed confirmMs) :
    ∃ rs, Partial run.first.time run.cause rs ∧
      run.records confirmMs gapMs = rs ++ (run.closing gapMs).toList := by
  have hinside : Inside confirmMs gapMs run.first run.last run.cause _ := h.inside hconfirm
  refine ⟨((fresh confirmMs gapMs).observeAll run.observations).2, ?_, ?_⟩
  · generalize (fresh confirmMs gapMs).observeAll run.observations = p at hinside
    cases hinside with
    | suspected routerDown hcause hlt => exact absurd hlong (by simp only [Confirmed]; omega)
    | opened rs hparts hge => exact hparts
  · rw [h.records_eq, closing]
    cases run.next with
    | none =>
        rfl
    | some o =>
        rw [Option.bind_some, hinside.observeOk, if_pos (by exact hlong)]
        rfl

end Run

/-! ## All runs -/

open OutageDetector (fresh observe observeOk observeDown observeAll observeAll_ok
  observeAll_append)

theorem runs_of_answered {obs : List Observation} (h : ∀ o ∈ obs, o.inetOk = true) :
    runs obs = [] := by
  rw [runs]
  split
  · rfl
  · rename_i first rest hdrop
    rw [List.dropWhile_eq_nil_iff.2 h] at hdrop
    exact absurd hdrop (List.cons_ne_nil first rest).symm

theorem runs_append {oks downs tail : List Observation} {first : Observation}
    (hoks : ∀ o ∈ oks, o.inetOk = true) (hdown : ∀ o ∈ first :: downs, o.inetOk = false)
    (hnext : ∀ o ∈ tail.head?, o.inetOk = true) :
    runs (oks ++ (first :: downs ++ tail)) = ⟨first, downs, tail.head?⟩ :: runs tail := by
  have hdrop : (oks ++ (first :: downs ++ tail)).dropWhile (·.inetOk) = first :: (downs ++ tail) := by
    rw [List.dropWhile_append_of_pos hoks]
    simp [hdown first List.mem_cons_self]
  have hdowns : ∀ o ∈ downs, (!o.inetOk) = true := by
    intro o ho
    simp [hdown o (List.mem_cons_of_mem _ ho)]
  have htail : tail.takeWhile (!·.inetOk) = [] ∧ tail.dropWhile (!·.inetOk) = tail := by
    cases tail with
    | nil => simp
    | cons next tail => simp [hnext next rfl]
  rw [runs]
  split
  · rename_i hnil
    rw [hdrop] at hnil
    exact absurd hnil (List.cons_ne_nil _ _)
  · rename_i first' rest' hcons
    obtain ⟨rfl, rfl⟩ : first = first' ∧ downs ++ tail = rest' := by
      simpa using hdrop.symm.trans hcons
    -- the run takes the observations up to the next answer
    have htake : (downs ++ tail).takeWhile (!·.inetOk) = downs := by
      rw [List.takeWhile_append_of_pos hdowns, htail.1, List.append_nil]
    have hrest : (downs ++ tail).dropWhile (!·.inetOk) = tail := by
      rw [List.dropWhile_append_of_pos hdowns, htail.2]
    rw [htake, hrest]

/-- Induction over the runs of a sequence. -/
theorem runs_induction {P : List Observation → List Run → Prop}
    (answered : ∀ obs, (∀ o ∈ obs, o.inetOk = true) → P obs [])
    (run : ∀ oks first downs tail, (∀ o ∈ oks, o.inetOk = true) →
      (∀ o ∈ first :: downs, o.inetOk = false) → (∀ o ∈ tail.head?, o.inetOk = true) →
      P tail (runs tail) →
      P (oks ++ (first :: downs ++ tail)) (⟨first, downs, tail.head?⟩ :: runs tail))
    (obs : List Observation) : P obs (runs obs) := by
  induction obs using runs.induct with
  | case1 obs h =>
      have hoks : ∀ o ∈ obs, o.inetOk = true := List.dropWhile_eq_nil_iff.1 h
      rw [runs_of_answered hoks]
      exact answered obs hoks
  | case2 obs first rest h ih =>
      -- the answers before the run, the run, and what is behind it
      obtain ⟨hoks, hsplit⟩ : (∀ o ∈ obs.takeWhile (·.inetOk), o.inetOk = true) ∧
          obs.takeWhile (·.inetOk) ++ (first :: rest.takeWhile (!·.inetOk) ++
            rest.dropWhile (!·.inetOk)) = obs := by
        refine ⟨fun o ho => List.mem_takeWhile_imp ho, ?_⟩
        rw [List.cons_append, List.takeWhile_append_dropWhile, ← h,
          List.takeWhile_append_dropWhile]
      have hdown : ∀ o ∈ first :: rest.takeWhile (!·.inetOk), o.inetOk = false := by
        intro o ho
        rcases List.mem_cons.1 ho with rfl | ho
        · have hhead := List.head?_dropWhile_not (·.inetOk) obs
          rw [h] at hhead
          exact hhead
        · simpa using List.mem_takeWhile_imp ho
      have hnext : ∀ o ∈ (rest.dropWhile (!·.inetOk)).head?, o.inetOk = true := by
        intro o ho
        have hhead := List.head?_dropWhile_not (!·.inetOk) rest
        rw [Option.mem_def.1 ho] at hhead
        simpa using hhead
      have hruns := runs_append hoks hdown hnext
      rw [hsplit] at hruns
      have hrun := run _ _ _ _ hoks hdown hnext ih
      rwa [hsplit, ← hruns] at hrun

theorem runs_of_mem (obs : List Observation) : ∀ run ∈ runs obs,
    (run.observations ++ run.next.toList).Sublist obs ∧
      (∀ o ∈ run.observations, o.inetOk = false) ∧ ∀ o ∈ run.next, o.inetOk = true := by
  induction obs using runs_induction with
  | answered obs h =>
      exact fun run hrun => absurd hrun List.not_mem_nil
  | run oks first downs tail hoks hdown hnext ih =>
      intro run hrun
      rcases List.mem_cons.1 hrun with rfl | hrun
      · have hhead : tail.head?.toList.Sublist tail := by
          cases tail with
          | nil => exact List.Sublist.slnil
          | cons next tail => exact List.Sublist.cons_cons next (List.nil_sublist tail)
        exact ⟨((List.Sublist.refl _).append hhead).trans (List.sublist_append_right _ _), hdown,
          hnext⟩
      · obtain ⟨hsub, hrest⟩ := ih run hrun
        refine ⟨hsub.trans ?_, hrest⟩
        exact (List.sublist_append_right _ _).trans (List.sublist_append_right _ _)

theorem runs_wellFormed {obs : List Observation} (hobs : obs.Pairwise (·.time ≤ ·.time))
    {run : Run} (hrun : run ∈ runs obs) : run.WellFormed := by
  obtain ⟨hsub, hdown, hnext⟩ := runs_of_mem obs run hrun
  exact ⟨hdown, hobs.sublist hsub, hnext⟩

/-- Between two runs there is the answer behind the first one. -/
theorem runs_ordered {obs : List Observation} (hobs : obs.Pairwise (·.time ≤ ·.time)) :
    (runs obs).Pairwise fun a b => ∃ o ∈ a.next, o ∈ obs ∧ o.time ≤ b.first.time := by
  induction obs using runs_induction with
  | answered obs h =>
      exact List.Pairwise.nil
  | run oks first downs tail hoks hdown hnext ih =>
      have htail := List.sublist_append_right (first :: downs) tail
      have hwhole := htail.trans (List.sublist_append_right oks _)
      refine List.pairwise_cons.2 ⟨?_, (ih (hobs.sublist hwhole)).imp ?_⟩
      · intro run hrun
        have hfirst : run.first ∈ tail :=
          (runs_of_mem tail run hrun).1.subset (List.mem_append_left _ List.mem_cons_self)
        cases tail with
        | nil =>
            exact absurd hfirst List.not_mem_nil
        | cons next tail =>
            refine ⟨next, rfl, hwhole.subset List.mem_cons_self, ?_⟩
            rcases List.mem_cons.1 hfirst with heq | hlater
            · rw [heq]
            · exact (List.pairwise_cons.1 (hobs.sublist hwhole)).1 _ hlater
      · rintro a b ⟨o, hnext, ho, hle⟩
        exact ⟨o, hnext, hwhole.subset ho, hle⟩

/-- After an answer a detector knows no more than its settings. -/
theorem observe_ok (d : OutageDetector) {o : Observation} (ho : o.inetOk = true) :
    (d.observe o).1 = fresh d.confirmMs d.gapMs := by
  rw [observe, if_pos ho, observeOk]
  split
  · rename_i hopen
    rw [fresh, ← hopen]
  · rfl

theorem observe_settings (d : OutageDetector) (o : Observation) :
    (d.observe o).1.confirmMs = d.confirmMs ∧ (d.observe o).1.gapMs = d.gapMs := by
  by_cases ho : o.inetOk = true
  · rw [observe_ok d ho]
    exact ⟨rfl, rfl⟩
  · rw [observe, if_neg ho, observeDown]
    cases d.opened with
    | some outage =>
        dsimp only
        split <;> exact ⟨rfl, rfl⟩
    | none =>
        cases d.suspect with
        | none => exact ⟨rfl, rfl⟩
        | some s =>
            dsimp only
            split <;> split <;> exact ⟨rfl, rfl⟩

theorem observeAll_settings (d : OutageDetector) (obs : List Observation) :
    (d.observeAll obs).1.confirmMs = d.confirmMs ∧ (d.observeAll obs).1.gapMs = d.gapMs := by
  induction obs generalizing d with
  | nil =>
      exact ⟨rfl, rfl⟩
  | cons o obs ih =>
      obtain ⟨hconfirm, hgap⟩ := ih (d.observe o).1
      exact ⟨hconfirm.trans (observe_settings d o).1, hgap.trans (observe_settings d o).2⟩

/-- After an answer the detector is as fresh as before. -/
theorem observeAll_concat_ok (confirmMs gapMs : Int) (obs : List Observation) {next : Observation}
    (hnext : next.inetOk = true) :
    ((fresh confirmMs gapMs).observeAll (obs ++ [next])).1 = fresh confirmMs gapMs := by
  obtain ⟨hconfirm, hgap⟩ := observeAll_settings (fresh confirmMs gapMs) obs
  rw [observeAll_append]
  exact (observe_ok _ hnext).trans (by rw [hconfirm, hgap]; rfl)

/-- Each run is reported for itself. -/
theorem observeAll_eq (confirmMs gapMs : Int) (obs : List Observation) :
    ((fresh confirmMs gapMs).observeAll obs).2 =
      (runs obs).flatMap (·.records confirmMs gapMs) := by
  induction obs using runs_induction with
  | answered obs h =>
      rw [observeAll_ok _ _ h]
      rfl
  | run oks first downs tail hoks hdown hnext ih =>
      rw [observeAll_append, observeAll_ok _ _ hoks, List.nil_append, List.flatMap_cons, ← ih]
      cases tail with
      | nil =>
          simp [Run.records, Run.observations, observeAll]
      | cons next tail =>
          -- the run with the answer behind it leaves a fresh detector, for which the answer is
          -- no news
          have hok : next.inetOk = true := hnext next rfl
          have hsplit : first :: downs ++ next :: tail = (first :: downs ++ [next]) ++ tail := by
            simp
          have hnews : ((fresh confirmMs gapMs).observeAll (next :: tail)).2 =
              ((fresh confirmMs gapMs).observeAll tail).2 := by
            have hone : (fresh confirmMs gapMs).observeAll [next] = (fresh confirmMs gapMs, []) :=
              observeAll_ok _ _ (by simpa using hok)
            rw [← List.singleton_append, observeAll_append, hone, List.nil_append]
          rw [hsplit, observeAll_append, observeAll_concat_ok _ _ _ hok, hnews]
          rfl

/-! ## What is reported -/

/-- All records of a sequence. -/
def outages (confirmMs gapMs : Int) (obs : List Observation) : List Outage :=
  ((fresh confirmMs gapMs).observeAll obs).2

section Reported

variable {confirmMs gapMs : Int} {obs : List Observation}

theorem mem_outages {o : Outage} :
    o ∈ outages confirmMs gapMs obs ↔ ∃ run ∈ runs obs, o ∈ run.records confirmMs gapMs := by
  rw [outages, observeAll_eq, List.mem_flatMap]

/-- A record is that of an outage, and names its start. -/
theorem Run.WellFormed.confirmed_of_mem {run : Run} (h : run.WellFormed) (hconfirm : 0 < confirmMs)
    {o : Outage} (ho : o ∈ run.records confirmMs gapMs) :
    run.Confirmed confirmMs ∧ o.start = run.first.time ∧
      (o.ended = none ∨ o ∈ run.closing gapMs) := by
  by_cases hlong : run.Confirmed confirmMs
  · obtain ⟨rs, hparts, hrecords⟩ := h.records_of_confirmed gapMs hconfirm hlong
    rw [hrecords] at ho
    refine ⟨hlong, ?_⟩
    rcases List.mem_append.1 ho with hrs | hclosing
    · exact ⟨(hparts.1 o hrs).1, .inl (hparts.1 o hrs).2⟩
    · rw [Option.mem_toList] at hclosing
      obtain ⟨next, hnext, rfl⟩ := Option.map_eq_some_iff.1 hclosing
      exact ⟨rfl, .inr hclosing⟩
  · rw [h.records_of_not_confirmed hconfirm hlong] at ho
    exact absurd ho List.not_mem_nil

/-- The outage ends when the last failure is over, and before the answer. -/
theorem Run.WellFormed.endedAt_mem {run : Run} (h : run.WellFormed) (gapMs : Int)
    {next : Observation} (hnext : next ∈ run.next) :
    run.last.time ≤ run.endedAt gapMs next ∧ run.endedAt gapMs next ≤ next.time := by
  have hlast : run.last ∈ run.observations := List.getLastD_mem_cons
  have hle : run.last.time ≤ next.time :=
    (List.pairwise_append.1 h.times).2.2 _ hlast _ (by simpa using hnext)
  rw [Run.endedAt]
  split
  · exact ⟨Int.le_refl _, hle⟩
  · exact ⟨hle, Int.le_refl _⟩

theorem Run.closing_of_ended {run : Run} {o : Outage} {e : Int}
    (h : o.ended = none ∨ o ∈ run.closing gapMs) (he : e ∈ o.ended) :
    ∃ next ∈ run.next, run.endedAt gapMs next = e := by
  rcases h with hnone | hclosing
  · rw [hnone] at he
    exact nomatch he
  · obtain ⟨next, hnext, rfl⟩ := Option.map_eq_some_iff.1 hclosing
    exact ⟨next, hnext, Option.some.inj he⟩

theorem Run.cause_eq_router {run : Run} : run.cause = .router ↔ run.RouterDown := by
  by_cases h : run.RouterDown <;> simp [Run.cause, h]

/-- An outage starts after those before it. -/
theorem start_lt_start (hconfirm : 0 < confirmMs) (hobs : obs.Pairwise (·.time ≤ ·.time)) :
    (runs obs).Pairwise fun a b => a.Confirmed confirmMs → a.first.time < b.first.time := by
  refine (runs_ordered hobs).imp_of_mem ?_
  rintro a b ha - ⟨next, hnext, -, hle⟩ hlong
  have hend := (runs_wellFormed hobs ha).endedAt_mem 0 hnext
  simp only [Run.Confirmed] at hlong
  omega

/-- The records with the start of an outage are its records. -/
theorem filter_outages (hconfirm : 0 < confirmMs) (hobs : obs.Pairwise (·.time ≤ ·.time))
    {run : Run} (hrun : run ∈ runs obs) (hlong : run.Confirmed confirmMs) :
    (outages confirmMs gapMs obs).filter (·.start = run.first.time) =
      run.records confirmMs gapMs := by
  obtain ⟨before, after, hsplit⟩ := List.append_of_mem hrun
  have horder := start_lt_start hconfirm hobs
  rw [hsplit] at horder
  obtain ⟨-, hafter, hbefore⟩ := List.pairwise_append.1 horder
  have hwf : ∀ run' ∈ before ++ run :: after, run'.WellFormed := by
    intro run' hrun'
    exact runs_wellFormed hobs (hsplit ▸ hrun')
  rw [outages, observeAll_eq, hsplit, List.flatMap_append, List.flatMap_cons, List.filter_append,
    List.filter_append]
  have hnone : ∀ others : List Run, (∀ run' ∈ others, run'.WellFormed ∧
      (run'.Confirmed confirmMs → run'.first.time ≠ run.first.time)) →
      (others.flatMap (·.records confirmMs gapMs)).filter (·.start = run.first.time) = [] := by
    intro others hothers
    rw [List.filter_eq_nil_iff]
    intro o ho
    obtain ⟨run', hrun', ho⟩ := List.mem_flatMap.1 ho
    obtain ⟨hlong', hstart, -⟩ := (hothers run' hrun').1.confirmed_of_mem hconfirm ho
    rw [decide_eq_true_eq, hstart]
    exact (hothers run' hrun').2 hlong'
  have hself : (run.records confirmMs gapMs).filter (·.start = run.first.time) =
      run.records confirmMs gapMs := by
    rw [List.filter_eq_self]
    intro o ho
    have hmem := (hwf run (by simp)).confirmed_of_mem hconfirm ho
    exact decide_eq_true hmem.2.1
  rw [hself, hnone before, hnone after, List.nil_append, List.append_nil]
  · intro run' hrun'
    refine ⟨hwf run' (by simp [hrun']), fun _ => ?_⟩
    exact Int.ne_of_gt ((List.pairwise_cons.1 hafter).1 run' hrun' hlong)
  · intro run' hrun'
    refine ⟨hwf run' (by simp [hrun']), fun hlong' => ?_⟩
    exact Int.ne_of_lt (hbefore run' hrun' run List.mem_cons_self hlong')

section Exact

variable {confirmMs : Int} (gapMs : Int) {obs : List Observation} (hconfirm : 0 < confirmMs)
  (hobs : obs.Pairwise (·.time ≤ ·.time))

include hconfirm hobs

/-- An outage starts with the first failure of a run that is long enough. -/
theorem exists_outage_iff (start : Int) : (∃ o ∈ outages confirmMs gapMs obs, o.start = start) ↔
    ∃ run ∈ runs obs, run.Confirmed confirmMs ∧ run.first.time = start := by
  constructor
  · rintro ⟨o, ho, rfl⟩
    obtain ⟨run, hrun, ho⟩ := mem_outages.1 ho
    obtain ⟨hlong, hstart, -⟩ := (runs_wellFormed hobs hrun).confirmed_of_mem hconfirm ho
    exact ⟨run, hrun, hlong, hstart.symm⟩
  · rintro ⟨run, hrun, hlong, rfl⟩
    obtain ⟨rs, hparts, hrecords⟩ :=
      (runs_wellFormed hobs hrun).records_of_confirmed gapMs hconfirm hlong
    obtain ⟨r, hlast, -⟩ := hparts.2
    have hr : r ∈ rs := List.mem_of_getLast? hlast
    refine ⟨r, mem_outages.2 ⟨run, hrun, ?_⟩, (hparts.1 r hr).1⟩
    rw [hrecords]
    exact List.mem_append_left _ hr

/-- One record closes a run that is long enough, and its last record has the cause. -/
theorem records_of_run {run : Run} (hrun : run ∈ runs obs) (hlong : run.Confirmed confirmMs) :
    (outages confirmMs gapMs obs).filter (fun o => o.start = run.first.time ∧ o.ended ≠ none) =
        (run.closing gapMs).toList ∧
      ∃ o, ((outages confirmMs gapMs obs).filter (·.start = run.first.time)).getLast? = some o ∧
        (o.cause = .router ↔ run.RouterDown) := by
  obtain ⟨rs, hparts, hrecords⟩ :=
    (runs_wellFormed hobs hrun).records_of_confirmed gapMs hconfirm hlong
  have hmine : (outages confirmMs gapMs obs).filter (·.start = run.first.time) =
      rs ++ (run.closing gapMs).toList := by
    rw [← hrecords]
    exact filter_outages hconfirm hobs hrun hlong
  constructor
  · have hboth : (outages confirmMs gapMs obs).filter
        (fun o => o.start = run.first.time ∧ o.ended ≠ none) =
        ((outages confirmMs gapMs obs).filter (·.start = run.first.time)).filter
          (·.ended ≠ none) := by
      rw [List.filter_filter]
      exact List.filter_congr fun o _ => by simp [Bool.and_comm]
    have hopen : rs.filter (·.ended ≠ none) = [] := by
      rw [List.filter_eq_nil_iff]
      intro r hr
      simp [(hparts.1 r hr).2]
    rw [hboth, hmine, List.filter_append, hopen, List.nil_append]
    cases hnext : run.next <;> simp [Run.closing, hnext]
  · rw [hmine]
    cases hnext : run.next with
    | none =>
        -- the outage goes on, its last record is the last one so far
        obtain ⟨r, hlast, hcause⟩ := hparts.2
        refine ⟨r, ?_, by rw [hcause, Run.cause_eq_router]⟩
        simpa [Run.closing, hnext] using hlast
    | some next =>
        refine ⟨⟨run.first.time, some (run.endedAt gapMs next), run.cause⟩, ?_,
          Run.cause_eq_router⟩
        simp [Run.closing, hnext]

theorem start_lt_ended {o : Outage} (ho : o ∈ outages confirmMs gapMs obs) :
    ∀ e ∈ o.ended, o.start < e := by
  intro e he
  obtain ⟨run, hrun, ho⟩ := mem_outages.1 ho
  have hwf := runs_wellFormed hobs hrun
  obtain ⟨hlong, hstart, hended⟩ := hwf.confirmed_of_mem hconfirm ho
  obtain ⟨next, hnext, rfl⟩ := Run.closing_of_ended hended he
  have hend := hwf.endedAt_mem gapMs hnext
  simp only [Run.Confirmed] at hlong
  omega

/-- The outages come one after the other. -/
theorem outages_pairwise : (outages confirmMs gapMs obs).Pairwise fun a b => a.start ≤ b.start ∧
    ∀ e ∈ a.ended, e ≤ b.start ∧ (e = b.start → ∃ o ∈ obs, o.inetOk ∧ o.time = e) := by
  rw [outages, observeAll_eq, List.pairwise_flatMap]
  constructor
  · intro run hrun
    by_cases hlong : run.Confirmed confirmMs
    · obtain ⟨rs, hparts, hrecords⟩ :=
        (runs_wellFormed hobs hrun).records_of_confirmed gapMs hconfirm hlong
      have hopen : ∀ a ∈ rs, ∀ b : Outage, b.start = run.first.time → a.start ≤ b.start ∧
          ∀ e ∈ a.ended, e ≤ b.start ∧ (e = b.start → ∃ o ∈ obs, o.inetOk ∧ o.time = e) := by
        intro a ha b hb
        obtain ⟨hstart, hended⟩ := hparts.1 a ha
        rw [hstart, hb, hended]
        exact ⟨Int.le_refl _, fun e he => nomatch he⟩
      rw [hrecords, List.pairwise_append]
      refine ⟨List.pairwise_of_forall_mem_list ?_, ?_, ?_⟩
      · exact fun a ha b hb => hopen a ha b (hparts.1 b hb).1
      · -- nothing of the run comes behind the record that closes it
        cases hnext : run.next <;> simp [Run.closing, hnext]
      · intro a ha b hb
        obtain ⟨next, -, rfl⟩ := Option.map_eq_some_iff.1 (Option.mem_toList.1 hb)
        exact hopen a ha _ rfl
    · rw [(runs_wellFormed hobs hrun).records_of_not_confirmed hconfirm hlong]
      exact List.Pairwise.nil
  · refine ((start_lt_start hconfirm hobs).and (runs_ordered hobs)).imp_of_mem ?_
    rintro a b ha hb ⟨hlt, next, hnext, hmem, hle⟩ x hx y hy
    obtain ⟨hlong, hxstart, hxended⟩ :=
      (runs_wellFormed hobs ha).confirmed_of_mem hconfirm hx
    obtain ⟨-, hystart, -⟩ := (runs_wellFormed hobs hb).confirmed_of_mem hconfirm hy
    have hlt := hlt hlong
    refine ⟨by omega, ?_⟩
    intro e he
    obtain ⟨next', hnext', rfl⟩ := Run.closing_of_ended hxended he
    obtain rfl : next' = next := Option.some.inj (hnext'.symm.trans hnext)
    have hend := (runs_wellFormed hobs ha).endedAt_mem gapMs hnext
    refine ⟨by omega, fun htouch => ⟨next', hmem, ?_, by omega⟩⟩
    exact (runs_wellFormed hobs ha).next next' hnext

end Exact

/-- The outages are those of the runs that are long enough.  A run with an answer behind it is
closed by one record, the last record of each run has its cause, and the outages come one after the
other: two of them touch only at the time of an answer. -/
theorem outages_exact (confirmMs gapMs : Int) (obs : List Observation) (hconfirm : 0 < confirmMs)
    (hobs : obs.Pairwise (·.time ≤ ·.time)) :
    (∀ start, (∃ o ∈ outages confirmMs gapMs obs, o.start = start) ↔
      ∃ run ∈ runs obs, run.Confirmed confirmMs ∧ run.first.time = start) ∧
    (∀ run ∈ runs obs, run.Confirmed confirmMs →
      (outages confirmMs gapMs obs).filter (fun o => o.start = run.first.time ∧ o.ended ≠ none) =
        (run.closing gapMs).toList ∧
      ∃ o, ((outages confirmMs gapMs obs).filter (·.start = run.first.time)).getLast? = some o ∧
        (o.cause = .router ↔ run.RouterDown)) ∧
    (∀ o ∈ outages confirmMs gapMs obs, ∀ e ∈ o.ended, o.start < e) ∧
    (outages confirmMs gapMs obs).Pairwise fun a b => a.start ≤ b.start ∧
      ∀ e ∈ a.ended, e ≤ b.start ∧ (e = b.start → ∃ o ∈ obs, o.inetOk ∧ o.time = e) :=
  ⟨exists_outage_iff gapMs hconfirm hobs,
    fun _ hrun hlong => records_of_run gapMs hconfirm hobs hrun hlong,
    fun _ ho => start_lt_ended gapMs hconfirm hobs ho, outages_pairwise gapMs hconfirm hobs⟩
/-- Two outages, of which the first one is closed with its last failure, since the answer comes
late, and the second one goes on. -/
theorem outages_exact_two :
    let obs : List Observation := [⟨0, true, some true⟩, ⟨10, false, none⟩, ⟨40, false, some true⟩,
      ⟨75, false, some false⟩, ⟨500, true, some true⟩, ⟨510, false, none⟩, ⟨520, true, some true⟩,
      ⟨600, false, some true⟩, ⟨680, false, none⟩]
    outages 60 120 obs = [⟨10, none, .router⟩, ⟨10, some 75, .router⟩, ⟨600, none, .isp⟩] ∧
    (∀ run ∈ runs obs, run.Confirmed 60 →
      (outages 60 120 obs).filter (fun o => o.start = run.first.time ∧ o.ended ≠ none) =
        (run.closing 120).toList) := by
  refine ⟨by decide, fun run hrun hlong => ?_⟩
  exact ((outages_exact 60 120 _ (by decide) (by decide)).2.1 run hrun hlong).1

end Reported

end Inetq
end GateControl
