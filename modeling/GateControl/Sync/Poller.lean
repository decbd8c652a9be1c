import Mathlib.Algebra.Group.Nat.Defs
import GateControl.Library.Transition

/-!
# Poller — fetching the configuration at intervals and on notice

The poller fetches when its interval has passed, and soon after the server has announced a change
(`triggerImmediate`, collected for a moment by the debounce timer).  A fetch may take any time; while
it runs no other is begun, and its end arms the interval timer.

A debounce timer that expires during a fetch is dropped with its notice, and a fetch that ends after
`stop` arms the timer again.  Runs without these keep every notice and are quiet after `stop`.
-/

namespace GateControl
namespace Sync

open Library

def computeBackoff (fails baseMs maxMs : Nat) : Nat := min (baseMs * 2 ^ fails) maxMs

/-- What has happened, as far as notices and fetches are concerned. -/
inductive Event
  | triggered
  | began
  | stopped
  deriving DecidableEq

structure PollerOptions where
  intervalMs : Nat
  baseMs : Nat
  maxMs : Nat
  deriving DecidableEq

/-- The poller; a timer that is armed is there with its delay. -/
structure Poller where
  options : PollerOptions
  consecutiveFails : Nat
  timer : Option Nat
  debounceTimer : Bool
  running : Bool
  /-- The events so far, the latest first; only there to be talked about. -/
  history : List Event
  deriving DecidableEq

namespace Poller

def new (options : PollerOptions) : Poller := ⟨options, 0, none, false, false, []⟩

variable (p : Poller)

/-- A timer that is armed already is replaced. -/
def scheduleNext (delayMs : Nat) : Poller := { p with timer := some delayMs }

def start : Poller := p.scheduleNext p.options.intervalMs

def stop : Poller :=
  { p with
    timer := none
    debounceTimer := false
    history := .stopped :: p.history }

def triggerImmediate : Poller :=
  { p with
    debounceTimer := true
    history := .triggered :: p.history }

/-- `_runOnce` up to its wait for the fetcher. -/
def runOnce : Poller :=
  -- prevent concurrent
  if p.running then p
  else
    { p with
      running := true
      history := .began :: p.history }

/-- The fetcher has ended. -/
def fetched (ok : Bool) : Poller :=
  if ok then
    { { p with consecutiveFails := 0 }.scheduleNext p.options.intervalMs with running := false }
  else
    let fails := p.consecutiveFails + 1
    { { p with consecutiveFails := fails }.scheduleNext
        (computeBackoff fails p.options.baseMs p.options.maxMs) with running := false }

inductive Action
  | start
  | stop
  | triggerImmediate
  /-- The first poll is made by a call of its own. -/
  | runOnce
  | debounceExpires
  | timerExpires
  | fetched (ok : Bool)

def step (p : Poller) : Action → Option Poller
  | .start => some p.start
  | .stop => some p.stop
  | .triggerImmediate => some p.triggerImmediate
  | .runOnce => some p.runOnce
  | .debounceExpires =>
      if p.debounceTimer then some { p with debounceTimer := false }.runOnce else none
  | .timerExpires => if p.timer.isSome then some { p with timer := none }.runOnce else none
  | .fetched ok => if p.running then some (p.fetched ok) else none

/-! ## The property -/

/-- The latest fetch began after the latest notice. -/
def Served : List Event → Prop
  | [] => True
  | .triggered :: _ => False
  | .began :: _ => True
  | .stopped :: older => Served older

def Stopped : Prop := .stopped ∈ p.history

/-- In a poller at rest no notice waits for its fetch. -/
def NoticesServed : Prop :=
  ¬ p.Stopped → p.running = false → p.debounceTimer = false → Served p.history

/-- No fetch has begun after `stop`. -/
def QuietAfterStop : Prop :=
  ∀ newer older, p.history = newer ++ .stopped :: older → .began ∉ newer

/-- No notice meets a running fetch when its time has come; after `stop` the poller is left alone,
and no fetch ends. -/
def Undisturbed : Action → Prop
  | .debounceExpires => p.running = false
  | .start => ¬ p.Stopped
  | .triggerImmediate => ¬ p.Stopped
  | .runOnce => ¬ p.Stopped
  | .fetched _ => ¬ p.Stopped
  | _ => True

instance : Decidable p.Stopped := inferInstanceAs (Decidable (_ ∈ _))

instance (a : Action) : Decidable (p.Undisturbed a) :=
  match a with
  | .debounceExpires => inferInstanceAs (Decidable (_ = _))
  | .start => inferInstanceAs (Decidable (¬ _))
  | .triggerImmediate => inferInstanceAs (Decidable (¬ _))
  | .runOnce => inferInstanceAs (Decidable (¬ _))
  | .fetched _ => inferInstanceAs (Decidable (¬ _))
  | .stop => .isTrue trivial
  | .timerExpires => .isTrue trivial

/-- A notice is on its way as long as it is not served; nothing is armed after `stop`. -/
structure Inv : Prop where
  served : ¬ p.Stopped → p.debounceTimer = false → Served p.history
  disarmed : p.Stopped → p.timer = none ∧ p.debounceTimer = false
  quiet : p.QuietAfterStop

theorem new_inv (options : PollerOptions) : Inv (new options) := by
  refine ⟨fun _ _ => trivial, ?_, ?_⟩
  · intro h
    cases h
  · intro newer older h
    simp [new] at h

variable {p}

/-- Another event, which is not a fetch begun after `stop`. -/
theorem QuietAfterStop.cons (hq : p.QuietAfterStop) {e : Event} {q : Poller}
    (hhist : q.history = e :: p.history) (he : e = .began → ¬ p.Stopped) : q.QuietAfterStop := by
  intro newer older h
  rw [hhist] at h
  cases newer with
  | nil =>
      simp
  | cons e' newer =>
      simp only [List.cons_append, List.cons.injEq] at h
      rcases h with ⟨rfl, hrest⟩
      rw [List.mem_cons, not_or]
      refine ⟨?_, hq newer older hrest⟩
      intro hbegan
      refine he hbegan.symm ?_
      rw [Stopped, hrest]
      simp

/-- A fetch that begins before `stop` serves all notices. -/
theorem runOnce_inv (hq : p.QuietAfterStop) (hlive : ¬ p.Stopped)
    (hserved : p.running = true → p.debounceTimer = false → Served p.history) : Inv p.runOnce := by
  unfold runOnce
  split
  · rename_i hrun
    exact ⟨fun _ => hserved hrun, fun h => absurd h hlive, hq⟩
  · refine ⟨fun _ _ => trivial, ?_, hq.cons rfl fun _ => hlive⟩
    intro h
    exact absurd (List.mem_of_ne_of_mem (by decide) h) hlive

theorem step_inv (p : Poller) (a : Action) (p' : Poller) (hi : Inv p) (hok : p.Undisturbed a)
    (hstep : step p a = some p') : Inv p' := by
  cases a with
  | start =>
      cases hstep
      exact ⟨hi.served, fun h => absurd h hok, hi.quiet⟩
  | stop =>
      cases hstep
      refine ⟨fun h => absurd List.mem_cons_self h, fun _ => ⟨rfl, rfl⟩, ?_⟩
      refine hi.quiet.cons rfl ?_
      intro h
      cases h
  | triggerImmediate =>
      cases hstep
      refine ⟨?_, ?_, hi.quiet.cons rfl ?_⟩
      · intro _ h
        cases h
      · intro h
        exact absurd (List.mem_of_ne_of_mem (by decide) h) hok
      · intro h
        cases h
  | runOnce =>
      cases hstep
      exact runOnce_inv hi.quiet hok fun _ => hi.served hok
  | debounceExpires =>
      simp only [step] at hstep
      split at hstep
      · rename_i hpending
        cases hstep
        have hlive : ¬ p.Stopped := by
          intro h
          rw [(hi.disarmed h).2] at hpending
          cases hpending
        refine runOnce_inv hi.quiet hlive ?_
        intro hrun
        exact absurd (hok.symm.trans hrun) (by decide)
      · cases hstep
  | timerExpires =>
      simp only [step] at hstep
      split at hstep
      · rename_i harmed
        cases hstep
        have hlive : ¬ p.Stopped := by
          intro h
          rw [(hi.disarmed h).1] at harmed
          cases harmed
        exact runOnce_inv hi.quiet hlive fun _ => hi.served hlive
      · cases hstep
  | fetched ok =>
      simp only [step] at hstep
      split at hstep
      · cases hstep
        -- the end of a fetch touches neither notices nor the history
        cases ok with
        | true =>
            exact ⟨hi.served, fun h => absurd h hok, hi.quiet⟩
        | false =>
            exact ⟨hi.served, fun h => absurd h hok, hi.quiet⟩
      · cases hstep

/-- In a run in which no notice comes due during a fetch, and in which the poller is left alone once
it has been stopped, every notice is served and nothing is fetched after `stop`. -/
theorem notices_served (options : PollerOptions) (as : List Action)
    (hok : Admits step Undisturbed (new options) as) :
    Throughout step (fun p => p.NoticesServed ∧ p.QuietAfterStop) (new options) as :=
  throughout_of_admits step_inv (fun _ hi => ⟨fun hlive _ => hi.served hlive, hi.quiet⟩)
    (new_inv options) hok

/-- The options of the gateway: every five minutes, five seconds after a failure. -/
def fiveMinutes : PollerOptions := ⟨300000, 5000, 300000⟩

/-- The first poll fails; a notice is served before the poller is stopped. -/
def noticedOnce : List Action :=
  [.runOnce, .fetched false, .start, .triggerImmediate, .debounceExpires, .fetched true, .stop]

theorem notices_served_once :
    (exec step (new fiveMinutes) noticedOnce).any (fun p => !p.running) = true ∧
      Throughout step (fun p => p.NoticesServed ∧ p.QuietAfterStop) (new fiveMinutes) noticedOnce := by
  refine ⟨by decide, notices_served fiveMinutes noticedOnce ?_⟩
  exact admits_of_checkRun (fun _ _ h => of_decide_eq_true h)
    (show checkRun step (fun p a => decide (p.Undisturbed a)) (new fiveMinutes) noticedOnce = true by
      decide)

/-- A notice that comes during a fetch is never served, and a fetch that runs when the poller is
stopped is followed by another. -/
theorem notice_dropped :
    (∃ p, exec step (new fiveMinutes)
        [.start, .timerExpires, .triggerImmediate, .debounceExpires, .fetched true] = some p ∧
      ¬ p.NoticesServed) ∧
    ∃ p, exec step (new fiveMinutes) [.start, .timerExpires, .stop, .fetched true, .timerExpires] =
        some p ∧ ¬ p.QuietAfterStop := by
  refine ⟨⟨_, rfl, ?_⟩, ⟨_, rfl, ?_⟩⟩
  · intro h
    exact h (by decide) rfl rfl
  · intro h
    exact h [.began] [.began] rfl List.mem_cons_self

end Poller

end Sync
end GateControl
