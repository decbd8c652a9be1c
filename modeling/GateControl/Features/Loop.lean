import GateControl.Library.Transition

/-!
# Loop — a task that is done again and again

`loop` runs `fn`, waits for its end and sets a timer for the next run.  `start` sets this timer too,
whether or not `fn` is running; `schedule` replaces the timer that is pending, so that there is
never more than one.

A timer that `start` sets while `fn` is running does not wait for its end.  When it fires first, the
task overlaps itself; when no timer does so, it never happens.
-/

namespace GateControl
namespace Features

open Library

/-- A timer that has neither fired nor been cleared.  `during` are the invocations that were running
when it was set; they are only there to be talked about. -/
structure Timer where
  handle : Nat
  due : Nat
  during : List Nat

/-- `pending` are the timers of the process, `timer` is the one that the loop knows.  The
invocations of `fn` have numbers, `running` are those that have not ended. -/
structure Loop where
  now : Nat
  pending : List Timer
  timer : Option Nat
  stopped : Bool
  running : List Nat
  next : Nat

namespace Loop

def new : Loop := ⟨0, [], none, false, [], 0⟩

variable (s : Loop)

def clearTimer : Loop :=
  match s.timer with
  | some h => { s with pending := s.pending.filter fun t => t.handle ≠ h }
  | none => s

/-- The new timer; a negative time to wait counts as none. -/
def setTimer (ms : Int) : Loop :=
  { s with
    pending := s.pending ++ [⟨s.next, s.now + ms.toNat, s.running⟩]
    timer := some s.next
    next := s.next + 1 }

def schedule (ms : Int) : Loop := if s.stopped then s else s.clearTimer.setTimer ms

def start (firstDelayMs : Int) : Loop := { s with stopped := false }.schedule firstDelayMs

def stop : Loop := { s.clearTimer with stopped := true, timer := none }

/-- The timer with this handle has fired. -/
def fired (h : Nat) : Loop :=
  { s with pending := s.pending.filter fun t => t.handle ≠ h, timer := none }

/-- What `run` does up to the call of `fn`. -/
def run : Loop :=
  if s.stopped then s else { s with running := s.running ++ [s.next], next := s.next + 1 }

/-- What `run` does after the call of `fn`; `ms` is the value of `delayFn`. -/
def finish (i : Nat) (ms : Int) : Loop :=
  let s := { s with running := s.running.erase i }
  if s.stopped then s else s.schedule ms

inductive Action
  | start (firstDelayMs : Int)
  | stop
  | wait (ms : Nat)
  | fire (handle : Nat)
  | finish (invocation : Nat) (ms : Int)

def step : Action → Option Loop
  | .start ms => some (s.start ms)
  | .stop => some s.stop
  | .wait ms => some { s with now := s.now + ms }
  | .fire h =>
      match s.pending.find? fun t => t.handle = h with
      | some t => if t.due ≤ s.now then some (s.fired h).run else none
      | none => none
  | .finish i ms => if i ∈ s.running then some (s.finish i ms) else none

/-- At most one invocation is running, and none begins while the loop is stopped. -/
def Apart : Prop :=
  s.running.length ≤ 1 ∧
    (s.stopped = true → ∀ a s', s.step a = some s' → s'.running ⊆ s.running)

/-- A timer fires after the end of the invocations that were running when it was set. -/
def InTurn : Action → Prop
  | .fire h => ∀ t ∈ s.pending.find? fun t => t.handle = h, ∀ i ∈ t.during, i ∉ s.running
  | _ => True

instance (a : Action) : Decidable (s.InTurn a) :=
  match a with
  | .fire _ => inferInstanceAs (Decidable (∀ _ ∈ _, ∀ _ ∈ _, _))
  | .start _ => inferInstanceAs (Decidable True)
  | .stop => inferInstanceAs (Decidable True)
  | .wait _ => inferInstanceAs (Decidable True)
  | .finish _ _ => inferInstanceAs (Decidable True)

/-! ## The timer -/

/-- Only the timer that the loop knows is pending, and none while it is stopped. -/
structure Known : Prop where
  known : ∀ t ∈ s.pending, s.timer = some t.handle
  stopped : s.stopped = true → s.pending = []

variable {s} {s' : Loop} {a : Action}

@[simp] theorem clearTimer_running : s.clearTimer.running = s.running := by
  unfold clearTimer
  split <;> rfl

@[simp] theorem schedule_running (ms : Int) : (s.schedule ms).running = s.running := by
  unfold schedule
  split
  · rfl
  · exact clearTimer_running

theorem Known.cleared (h : s.Known) : s.clearTimer.pending = [] := by
  cases ht : s.timer with
  | none =>
      rw [clearTimer, ht]
      apply List.eq_nil_iff_forall_not_mem.2
      intro t hmem
      have hsome := h.known t hmem
      rw [ht] at hsome
      cases hsome
  | some n =>
      rw [clearTimer, ht]
      apply List.filter_eq_nil_iff.2
      intro t hmem
      have hn : n = t.handle := Option.some.inj (ht.symm.trans (h.known t hmem))
      simp [hn]

/-- Every timer that is pending after `schedule` was set by it. -/
theorem Known.schedule_pending (h : s.Known) {ms : Int} {t : Timer}
    (ht : t ∈ (s.schedule ms).pending) :
    (s.schedule ms).timer = some t.handle ∧ s.stopped = false ∧ t.during = s.running := by
  cases hs : s.stopped with
  | true =>
      rw [schedule, if_pos hs, h.stopped hs] at ht
      cases ht
  | false =>
      have hnot : ¬ s.stopped = true := by simp [hs]
      rw [schedule, if_neg hnot] at ht ⊢
      simp only [setTimer, h.cleared, List.nil_append, List.mem_singleton] at ht
      subst ht
      exact ⟨rfl, rfl, clearTimer_running⟩

theorem Known.schedule (h : s.Known) (ms : Int) : (s.schedule ms).Known where
  known := fun _ ht => (h.schedule_pending ht).1
  stopped := by
    intro hstop
    apply List.eq_nil_iff_forall_not_mem.2
    intro t ht
    have hs := (h.schedule_pending ht).2.1
    rw [Loop.schedule, if_neg (by simp [hs])] at hstop
    have hclear : s.clearTimer.stopped = s.stopped := by
      unfold clearTimer
      split <;> rfl
    rw [setTimer, hclear, hs] at hstop
    cases hstop

/-- A loop that is started has the timers it had. -/
theorem Known.started (h : s.Known) : Known { s with stopped := false } where
  known := h.known
  stopped := fun hstop => by cases hstop

theorem Known.fired_pending (h : s.Known) {n : Nat} {t : Timer}
    (ht : s.pending.find? (fun t => t.handle = n) = some t) : (s.fired n).pending = [] := by
  apply List.filter_eq_nil_iff.2
  intro u hu
  have hhandle : t.handle = n := by simpa using List.find?_some ht
  have hsame : u.handle = t.handle :=
    Option.some.inj ((h.known u hu).symm.trans (h.known t (List.mem_of_find?_eq_some ht)))
  simp [hsame.trans hhandle]

theorem run_pending : s.run.pending = s.pending := by
  unfold run
  split <;> rfl

/-- `schedule` looks at `stopped` itself. -/
theorem finish_eq (i : Nat) (ms : Int) :
    s.finish i ms = { s with running := s.running.erase i }.schedule ms := by
  unfold finish
  cases hs : s.stopped with
  | true => simp [schedule]
  | false => simp

/-- What an action does, seen from the timers. -/
inductive Transition (s : Loop) : Action → Loop → Prop
  | start (ms : Int) : Transition s (.start ms) ({ s with stopped := false }.schedule ms)
  | stop : Transition s .stop s.stop
  | wait (ms : Nat) : Transition s (.wait ms) { s with now := s.now + ms }
  | fire {t : Timer} : s.pending.find? (fun u => u.handle = t.handle) = some t →
      t.due ≤ s.now → Transition s (.fire t.handle) (s.fired t.handle).run
  | finish {i : Nat} (ms : Int) : i ∈ s.running →
      Transition s (.finish i ms) ({ s with running := s.running.erase i }.schedule ms)

theorem step_transition (h : s.step a = some s') : Transition s a s' := by
  cases a with
  | start ms =>
      cases h
      exact .start ms
  | stop =>
      cases h
      exact .stop
  | wait ms =>
      cases h
      exact .wait ms
  | fire n =>
      simp only [step] at h
      cases ht : s.pending.find? (fun t => t.handle = n) with
      | none =>
          simp [ht] at h
      | some t =>
          obtain rfl : t.handle = n := by simpa using List.find?_some ht
          simp only [ht] at h
          split at h
          · next hdue =>
              cases h
              exact .fire ht hdue
          · cases h
  | finish i ms =>
      simp only [step] at h
      split at h
      · next hi =>
          obtain rfl : s.finish i ms = s' := Option.some.inj h
          rw [finish_eq]
          exact .finish ms hi
      · cases h

theorem known_of_nil (h : s.pending = []) : s.Known where
  known := by
    intro t ht
    rw [h] at ht
    cases ht
  stopped := fun _ => h

theorem Known.step (h : s.Known) (hs : s.step a = some s') : s'.Known := by
  cases step_transition hs with
  | start ms => exact h.started.schedule ms
  | stop => exact known_of_nil h.cleared
  | wait ms => exact ⟨h.known, h.stopped⟩
  | fire ht hdue => exact known_of_nil (run_pending.trans (h.fired_pending ht))
  | @finish i ms hi =>
      have hk : Known { s with running := s.running.erase i } := ⟨h.known, h.stopped⟩
      exact hk.schedule ms

/-- While the loop is stopped there is no timer that could begin an invocation. -/
theorem Known.stopped_quiet (h : s.Known) (hstop : s.stopped = true) (hs : s.step a = some s') :
    s'.running ⊆ s.running := by
  cases step_transition hs with
  | start ms =>
      rw [schedule_running]
      exact List.Subset.refl _
  | stop =>
      rw [stop, clearTimer_running]
      exact List.Subset.refl _
  | wait ms => exact List.Subset.refl _
  | fire ht hdue =>
      have hmem := List.mem_of_find?_eq_some ht
      rw [h.stopped hstop] at hmem
      cases hmem
  | finish ms hi =>
      rw [schedule_running]
      exact List.erase_subset

/-! ## One invocation at a time -/

/-- At most one invocation is running, and the timers that are pending were set during it. -/
structure Single : Prop extends s.Known where
  single : s.running.length ≤ 1
  during : ∀ t ∈ s.pending, ∀ i ∈ s.running, i ∈ t.during

theorem new_single : new.Single where
  known := fun _ ht => by cases ht
  stopped := fun h => by cases h
  single := Nat.zero_le 1
  during := fun _ ht => by cases ht

/-- A timer that `schedule` sets knows the invocations that are running. -/
theorem Single.schedule (h : s.Known) (hsingle : s.running.length ≤ 1) (ms : Int) :
    (s.schedule ms).Single where
  toKnown := h.schedule ms
  single := by
    rw [schedule_running]
    exact hsingle
  during := by
    intro t ht i hi
    rw [(h.schedule_pending ht).2.2]
    rwa [schedule_running] at hi

theorem Single.step (h : s.Single) (hok : s.InTurn a) (hs : s.step a = some s') : s'.Single := by
  have hknown := h.toKnown.step hs
  cases step_transition hs with
  | start ms => exact .schedule h.toKnown.started h.single ms
  | stop =>
      refine ⟨hknown, clearTimer_running.symm ▸ h.single, ?_⟩
      intro t ht
      rw [show s.stop.pending = [] from h.cleared] at ht
      cases ht
  | wait ms => exact ⟨hknown, h.single, h.during⟩
  | @fire t ht hdue =>
      have hidle : s.running = [] := by
        apply List.eq_nil_iff_forall_not_mem.2
        intro i hi
        exact hok t ht i (h.during t (List.mem_of_find?_eq_some ht) i hi) hi
      have hone : (s.fired t.handle).run.running.length ≤ 1 := by
        unfold run
        split
        · exact h.single
        · simp [fired, hidle]
      refine ⟨hknown, hone, ?_⟩
      intro u hu
      rw [run_pending, h.fired_pending ht] at hu
      cases hu
  | @finish i ms hi =>
      have hk : Known { s with running := s.running.erase i } := ⟨h.known, h.stopped⟩
      exact .schedule hk (Nat.le_trans (List.length_erase_le ..) h.single) ms

theorem Single.apart (h : s.Single) : s.Apart :=
  ⟨h.single, fun hstop _ _ hs => h.toKnown.stopped_quiet hstop hs⟩

/-- A timer that begins an invocation beside no other has waited for its end. -/
theorem inTurn_of_apart (h : s.Known) (hs : s.step a = some s') (hapart : s'.Apart) :
    s.InTurn a := by
  cases step_transition hs with
  | start ms => trivial
  | stop => trivial
  | wait ms => trivial
  | finish ms hi => trivial
  | @fire t ht hdue =>
      intro u hu i _ hi
      have hgoing : ¬ s.stopped = true := by
        intro hstop
        have hmem := List.mem_of_find?_eq_some ht
        rw [h.stopped hstop] at hmem
        cases hmem
      have hpos : 0 < s.running.length := List.length_pos_of_mem hi
      have hlen : (s.fired t.handle).run.running.length = s.running.length + 1 := by
        rw [run, if_neg (show ¬ (s.fired t.handle).stopped = true from hgoing)]
        simp [fired]
      have hsingle := hapart.1
      omega

/-- The task overlaps itself in exactly the runs in which a timer does not wait for its end. -/
theorem invocations_apart (as : List Action) {t : Loop} (h : exec step new as = some t) :
    Throughout step Apart new as ↔ Admits step InTurn new as := by
  constructor
  · exact admits_of_throughout (fun _ _ _ hi hs => Known.step hi hs)
      (fun _ _ _ hi hs hapart => inTurn_of_apart hi hs hapart) new_single.toKnown h
  · exact throughout_of_admits (fun _ _ _ hi hok hs => Single.step hi hok hs)
      (fun _ hi => hi.apart) new_single

/-- The loop is started anew while the task is running, and the task ends before the timer. -/
def restarted : List Action :=
  [.start 0, .fire 0, .start 1000, .wait 400, .finish 1 5000, .wait 5000, .fire 3]

theorem invocations_apart_restarted : Throughout step Apart new restarted := by
  have hrun : ∃ t, exec step new restarted = some t :=
    Option.isSome_iff_exists.1 (by decide)
  rcases hrun with ⟨t, ht⟩
  exact (invocations_apart restarted ht).2 (admits_of_checkRun (fun _ _ h => of_decide_eq_true h)
    (show checkRun step (fun s a => decide (s.InTurn a)) new restarted = true by decide))

/-- The task takes longer than the time that the second start gives. -/
def slow : List Action := [.start 0, .fire 0, .start 1000, .wait 1000, .fire 2]

theorem invocations_overlap : ∃ s, exec step new slow = some s ∧ ¬ s.Apart := by
  have hrun : (exec step new slow).any (fun s => decide (s.running.length = 2)) = true := by
    decide
  rcases (Option.any_eq_true ..).1 hrun with ⟨s, hs, htwo⟩
  refine ⟨s, hs, fun hapart => ?_⟩
  have hsingle := hapart.1
  have hlen : s.running.length = 2 := of_decide_eq_true htwo
  omega

end Loop

end Features
end GateControl
