import GateControl.Cameras.Endings
import GateControl.Library.Transition

/-!
# Times — when events begin and end

Beside the service there is a clock, which only goes forward; messages, recordings and ticks read it
as they begin.  An event that is ended should have ended no earlier than it began and no later than
now.  The end is reckoned back from `endAt`, which lies ten seconds behind the end only where a
message has set it; and a tick ends events with the time at which it has begun.
-/

namespace GateControl
namespace Cameras

open Library

/-! ## The clock -/

/-- The service and the time of the last call. -/
structure Clocked (τ : Type) where
  service : CameraService τ
  now : Int

/-- An action and the time at which it is taken. -/
structure Timed (τ : Type) where
  now : Int
  action : CameraService.Action τ

namespace Timed

variable {τ : Type}

/-- What a call has read from the clock. -/
def read (a : Timed τ) : Option Int :=
  match a.action with
  | .onMessage _ t _ _ => some t
  | .record _ t _ _ => some t
  | .tick t => some t
  | _ => none

end Timed

namespace Clocked

variable {τ : Type}

def start (reporter : Bool) (now : Int) : Clocked τ := ⟨.new reporter, now⟩

/-- The clock does not go back, and a call reads it. -/
def step [DecidableEq τ] (c : Clocked τ) (a : Timed τ) : Option (Clocked τ) :=
  if c.now ≤ a.now ∧ a.read.all (· = a.now) then
    (c.service.step a.action).map fun s => ⟨s, a.now⟩
  else none

/-- Every event that has ended has done so after its begin, and not in the future. -/
def EndsInOrder (c : Clocked τ) : Prop :=
  ∀ ev ∈ c.service.events, ∀ x ∈ ev.endedAt, ev.startedAt ≤ x ∧ x ≤ c.now

instance (c : Clocked τ) : Decidable c.EndsInOrder := inferInstanceAs (Decidable (∀ _ ∈ _, _))

end Clocked

namespace Event

/-- The camera has not said for a minute that it sees something, and has never said that it does
not. -/
def stale (ev : Event) (lastTrueAt t : Int) : Bool :=
  ev.ending.isNone && lastTrueAt ≠ 0 && t - lastTrueAt > staleTrueMs

/-- The ring that the clip is read from has been started again. -/
def restarted (ev : Event) (ring : Ring) : Bool := ev.writing.any (·.isRestarted ring)

end Event

namespace Clocked

variable {τ : Type}

/-- An event that `recordStep` ends because the motion is stale or the ring has been started again is
at least ten seconds old; and a tick that ends an event has begun no earlier than the event. -/
def Timely (c : Clocked τ) (a : Timed τ) : Prop :=
  match a.action with
  | .record id t ring _ =>
      ∀ r ∈ c.service.cams.get id, ∀ rt ∈ c.service.runtimes[r]?, ∀ e ∈ rt.event,
        ∀ ev ∈ c.service.events[e]?, t ≠ 0 →
          (ev.stale rt.lastTrueAt t || ev.restarted ring) = true → ev.startedAt + postMs ≤ t
  | .visit i r connected _ =>
      ∀ t ∈ c.service.ticks[i]?, ∀ rt ∈ c.service.runtimes[r]?,
        rt.wantEvents c.service.nobodyHome connected = false →
          ∀ e ∈ rt.event, ∀ ev ∈ c.service.events[e]?, ev.startedAt ≤ t
  | _ => True

instance (c : Clocked τ) (a : Timed τ) : Decidable (c.Timely a) := by
  unfold Timely
  split
  · exact inferInstanceAs (Decidable (∀ _ ∈ _, ∀ _ ∈ _, ∀ _ ∈ _, ∀ _ ∈ _, _ → _ → _))
  · exact inferInstanceAs (Decidable (∀ _ ∈ _, ∀ _ ∈ _, _ → ∀ _ ∈ _, ∀ _ ∈ _, _))
  · exact inferInstanceAs (Decidable True)

end Clocked

/-! ## One event -/

namespace Event

/-- The event has begun; an end that is set lies ten seconds behind a time since then, and where it
has ended that is so of the end. -/
structure InTime (ev : Event) (now : Int) : Prop where
  started : ev.startedAt ≤ now
  ending : ∀ x ∈ ev.ending, ev.startedAt ≤ x - postMs ∧ x - postMs ≤ now
  ended : ∀ x ∈ ev.endedAt, ev.startedAt ≤ x ∧ x ≤ now

variable {ev : Event} {now t : Int}

theorem InTime.later (h : ev.InTime now) (hle : now ≤ t) : ev.InTime t := by
  refine ⟨h.started.trans hle, ?_, ?_⟩
  · intro x hx
    exact ⟨(h.ending x hx).1, (h.ending x hx).2.trans hle⟩
  · intro x hx
    exact ⟨(h.ended x hx).1, (h.ended x hx).2.trans hle⟩

/-- The times of an event decide. -/
theorem InTime.congr {ev' : Event} (h : ev.InTime now) (hstart : ev'.startedAt = ev.startedAt)
    (hend : ev'.endAt = ev.endAt) (hended : ev'.endedAt = ev.endedAt) : ev'.InTime now := by
  have hending : ev'.ending = ev.ending := by
    rw [Event.ending, Event.ending, hend]
  refine ⟨hstart ▸ h.started, ?_, ?_⟩
  · rw [hending, hstart]
    exact h.ending
  · rw [hended, hstart]
    exact h.ended

/-- A new end. -/
theorem InTime.setEnd (h : ev.InTime now) {x : Int} (hx : x ≠ 0 → ev.startedAt ≤ x - postMs)
    (hnow : x - postMs ≤ now) : ({ ev with endAt := some x }).InTime now := by
  refine ⟨h.started, ?_, h.ended⟩
  intro y hy
  -- zero would be no end at all
  have hy' : (some x).filter (· ≠ 0) = some y := hy
  obtain ⟨heq, hne⟩ := Option.filter_eq_some_iff.1 hy'
  obtain rfl := Option.some.inj heq
  exact ⟨hx (by simpa using hne), hnow⟩

theorem InTime.carryOn (h : ev.InTime now) (hits : List EventKind) : (ev.carryOn hits).InTime now := by
  refine ⟨h.started, ?_, h.ended⟩
  intro x hx
  cases hx

theorem InTime.runOut (h : ev.InTime now) : (ev.runOut now).InTime now := by
  have hback : now + postMs - postMs = now := Int.add_sub_cancel now postMs
  rw [Event.runOut]
  split
  · exact h.setEnd (fun _ => by rw [hback]; exact h.started) (by rw [hback])
  · exact h

/-- What `recordStep` sets comes without the ten seconds. -/
theorem InTime.recorded {τ : Type} {rt : Runtime τ} {ring : Ring} (h : ev.InTime now)
    (hok : now ≠ 0 → (ev.stale rt.lastTrueAt now || ev.restarted ring) = true →
      ev.startedAt + postMs ≤ now) :
    (CameraService.recorded rt now ring ev).InTime now := by
  have hpost : now - postMs ≤ now := by
    rw [postMs]
    omega
  have hexpired : (ev.expire rt.lastTrueAt now).InTime now := by
    rw [Event.expire]
    split
    · next hstale =>
        refine h.setEnd (fun hne => ?_) hpost
        have := hok hne (by rw [Event.stale, hstale, Bool.true_or])
        omega
    · exact h
  have hsame : (ev.expire rt.lastTrueAt now).writing = ev.writing ∧
      (ev.expire rt.lastTrueAt now).startedAt = ev.startedAt := by
    rw [Event.expire]
    split <;> exact ⟨rfl, rfl⟩
  rw [CameraService.recorded, Event.write]
  split
  · exact hexpired
  · next clip hclip =>
      split
      · next hrestarted =>
          refine hexpired.setEnd (fun hne => ?_) hpost
          have := hok hne (by
            rw [Event.restarted, ← hsame.1, hclip, Option.any_some, hrestarted, Bool.or_true])
          rw [hsame.2]
          omega
      · exact hexpired.congr rfl rfl rfl

theorem closeClip_times (ev : Event) (closing : Closing) :
    (ev.closeClip closing).startedAt = ev.startedAt ∧ (ev.closeClip closing).endAt = ev.endAt ∧
      (ev.closeClip closing).endedAt = ev.endedAt := by
  unfold Event.closeClip
  cases ev.writing with
  | none =>
      exact ⟨rfl, rfl, rfl⟩
  | some clip =>
      cases closing <;> exact ⟨rfl, rfl, rfl⟩

/-- The end of an event is the time that is given, or what its `endAt` says. -/
theorem InTime.finish (h : ev.InTime now) {force : Bool} (closing : Closing)
    (ht : (force = true ∨ ev.ending = none) → ev.startedAt ≤ t ∧ t ≤ now) :
    (ev.finish t force closing).InTime now := by
  obtain ⟨hstart, hend, hended⟩ := closeClip_times
    { ev with endedAt := some (if force then t else (ev.ending.map (· - postMs)).getD t) } closing
  suffices hnew : ({ ev with
      endedAt := some (if force then t else (ev.ending.map (· - postMs)).getD t) } : Event).InTime now
    from hnew.congr hstart hend hended
  refine ⟨h.started, h.ending, ?_⟩
  intro x hx
  obtain rfl := Option.some.inj hx
  cases force with
  | true =>
      exact ht (Or.inl rfl)
  | false =>
      cases hnone : ev.ending with
      | none =>
          exact ht (Or.inr hnone)
      | some y =>
          exact h.ending y hnone

end Event

/-! ## All events -/

namespace CameraService

variable {τ : Type} {s : CameraService τ}

theorem events_modifyEvent_mem {e : Nat} {f : Event → Event} {ev : Event}
    (h : ev ∈ (s.modifyEvent e f).events) :
    ev ∈ s.events ∨ ∃ ev', s.events[e]? = some ev' ∧ ev = f ev' := by
  obtain ⟨k, hk⟩ := List.getElem?_of_mem h
  simp only [modifyEvent, List.getElem?_modify] at hk
  obtain ⟨ev', hev', rfl⟩ := Option.map_eq_some_iff.1 hk
  split
  · next heq =>
      exact Or.inr ⟨ev', heq ▸ hev', rfl⟩
  · exact Or.inl (List.mem_of_getElem? hev')

/-- The settings say nothing about events, and neither do they about ticks. -/
theorem apply_frame [DecidableEq τ] (s : CameraService τ) (cfg : Config τ) :
    (s.apply cfg).events = s.events ∧ (s.apply cfg).ticks = s.ticks := by
  have hdrop : ∀ (ks : List (Text × Nat)) (s : CameraService τ),
      (ks.foldl (fun s k => s.drop k.1 k.2) s).events = s.events ∧
        (ks.foldl (fun s k => s.drop k.1 k.2) s).ticks = s.ticks := by
    intro ks
    induction ks with
    | nil =>
        intro s
        exact ⟨rfl, rfl⟩
    | cons k ks ih =>
        intro s
        exact ih (s.drop k.1 k.2)
  have hconfigure : ∀ (cams : List (Cam τ)) (s : CameraService τ),
      (cams.foldl configure s).events = s.events ∧ (cams.foldl configure s).ticks = s.ticks := by
    intro cams
    induction cams with
    | nil =>
        intro s
        exact ⟨rfl, rfl⟩
    | cons cam cams ih =>
        intro s
        have hone : (s.configure cam).events = s.events ∧ (s.configure cam).ticks = s.ticks := by
          rw [configure]
          split <;> exact ⟨rfl, rfl⟩
        exact ⟨(ih _).1.trans hone.1, (ih _).2.trans hone.2⟩
  rw [apply]
  split
  · exact ⟨(hconfigure _ _).1.trans (hdrop _ _).1, (hconfigure _ _).2.trans (hdrop _ _).2⟩
  · exact hdrop _ _

/-- All events are in time, and no tick has begun in the future. -/
structure InTime (s : CameraService τ) (now : Int) : Prop where
  events : ∀ ev ∈ s.events, ev.InTime now
  ticks : ∀ t ∈ s.ticks, t ≤ now

variable {now : Int}

theorem InTime.later (h : s.InTime now) {t : Int} (hle : now ≤ t) : s.InTime t :=
  ⟨fun ev hev => (h.events ev hev).later hle, fun x hx => (h.ticks x hx).trans hle⟩

theorem InTime.of_eq (h : s.InTime now) {s' : CameraService τ} (hevents : s'.events = s.events)
    (hticks : s'.ticks = s.ticks) : s'.InTime now :=
  ⟨fun ev hev => h.events ev (hevents ▸ hev), fun t ht => h.ticks t (hticks ▸ ht)⟩

theorem InTime.modifyEvent (h : s.InTime now) {e : Nat} {f : Event → Event}
    (hf : ∀ ev, s.events[e]? = some ev → (f ev).InTime now) : (s.modifyEvent e f).InTime now := by
  refine ⟨?_, h.ticks⟩
  intro ev hev
  rcases events_modifyEvent_mem hev with hold | ⟨ev', hev', rfl⟩
  · exact h.events ev hold
  · exact hf ev' hev'

theorem InTime.startEvent (h : s.InTime now) (r : Nat) (rt : Runtime τ) (kinds : List EventKind)
    (opening : Option Opening) : (s.startEvent r rt now kinds opening).InTime now := by
  refine ⟨?_, h.ticks⟩
  intro ev hev
  rcases List.mem_append.1 hev with hold | hnew
  · exact h.events ev hold
  · obtain rfl := List.mem_singleton.1 hnew
    refine ⟨Int.le_refl now, ?_, ?_⟩
    · intro x hx
      cases hx
    · intro x hx
      cases hx

theorem InTime.onMessage (h : s.InTime now) (r : Nat) (msg : List (EventKind × Bool))
    (opening : Option Opening) : (s.onMessage r now msg opening).InTime now := by
  rw [CameraService.onMessage]
  split
  · exact h
  · split
    · exact h
    · next rt hrt =>
        have hobserved : (s.modifyRuntime r (·.observe now msg)).InTime now := h.of_eq rfl rfl
        simp only
        split
        · -- the camera sees something
          split
          · exact hobserved.startEvent r _ _ _
          · next e _ =>
              rw [carryOn]
              split
              · exact hobserved
              · have hcarried := hobserved.modifyEvent (e := e)
                  (f := (·.carryOn (rt.observe now msg).hits))
                  (fun ev hev => (hobserved.events ev (List.mem_of_getElem? hev)).carryOn _)
                simp only
                split
                · exact hcarried
                · exact hcarried.of_eq rfl rfl
        · split
          · exact hobserved
          · exact hobserved.modifyEvent
              fun ev hev => (hobserved.events ev (List.mem_of_getElem? hev)).runOut

theorem endEvent_frame (s : CameraService τ) (r e : Nat) (t : Int) (force : Bool)
    (closing : Closing) :
    (s.endEvent r e t force closing).events = (s.modifyEvent e (·.finish t force closing)).events ∧
      (s.endEvent r e t force closing).ticks = s.ticks := by
  rw [endEvent]
  split <;> exact ⟨rfl, rfl⟩

theorem InTime.endEvent (h : s.InTime now) {r e : Nat} {t : Int} {force : Bool} {closing : Closing}
    (ht : ∀ ev ∈ s.events[e]?, (force = true ∨ ev.ending = none) → ev.startedAt ≤ t ∧ t ≤ now) :
    (s.endEvent r e t force closing).InTime now := by
  obtain ⟨hevents, hticks⟩ := endEvent_frame s r e t force closing
  refine (h.modifyEvent (e := e) (f := (·.finish t force closing)) ?_).of_eq hevents hticks
  intro ev hev
  exact (h.events ev (List.mem_of_getElem? hev)).finish closing (ht ev hev)

/-- An event is ended with the time of the call, unless an end is set. -/
theorem InTime.record (h : s.InTime now) {r : Nat} {ring : Ring} {closing : Closing}
    (hok : ∀ rt ∈ s.runtimes[r]?, ∀ e ∈ rt.event, ∀ ev ∈ s.events[e]?, now ≠ 0 →
      (ev.stale rt.lastTrueAt now || ev.restarted ring) = true → ev.startedAt + postMs ≤ now) :
    (s.record r now ring closing).InTime now := by
  rw [CameraService.record]
  split
  · exact h
  · next rt hrt =>
      split
      · exact h
      · next e he =>
          split
          · exact h
          · next ev hev =>
              have hrecorded : (s.modifyEvent e (recorded rt now ring)).InTime now := by
                refine h.modifyEvent ?_
                intro ev' hev'
                exact (h.events ev' (List.mem_of_getElem? hev')).recorded (hok rt hrt e he ev' hev')
              simp only
              split
              · refine hrecorded.endEvent ?_
                intro ev' hev' _
                exact ⟨(hrecorded.events ev' (List.mem_of_getElem? hev')).started, Int.le_refl now⟩
              · exact hrecorded

theorem InTime.visit (h : s.InTime now) {r : Nat} {t : Int} (ht : t ≤ now) {connected : Bool}
    {closing : Closing}
    (hok : ∀ rt ∈ s.runtimes[r]?, rt.wantEvents s.nobodyHome connected = false →
      ∀ e ∈ rt.event, ∀ ev ∈ s.events[e]?, ev.startedAt ≤ t) :
    (s.visit r t connected closing).InTime now := by
  rw [CameraService.visit]
  split
  · exact h
  · next rt hrt =>
      split
      · exact h.of_eq rfl rfl
      · next hunwanted =>
          have hstopped : (if rt.subscribed then s.modifyRuntime r Runtime.stopEvents else s).InTime
              now ∧ (if rt.subscribed then s.modifyRuntime r Runtime.stopEvents else s).events =
                s.events := by
            split
            · exact ⟨h.of_eq rfl rfl, rfl⟩
            · exact ⟨h, rfl⟩
          simp only
          split
          · exact hstopped.1
          · next e he =>
              refine hstopped.1.endEvent ?_
              intro ev hev _
              rw [hstopped.2] at hev
              exact ⟨hok rt hrt (by simpa using hunwanted) e he ev hev, ht⟩

/-! ### Where an end is set too early -/

variable {rt : Runtime τ} {ring : Ring} {ev : Event} {t : Int}

theorem expire_of_stale {lastTrueAt : Int} (h : ev.stale lastTrueAt t = true) :
    ev.expire lastTrueAt t = { ev with endAt := some t } := if_pos h

/-- Stale motion and a new start of the ring set the end to the time of the call. -/
theorem ending_recorded (ht : t ≠ 0)
    (h : (ev.stale rt.lastTrueAt t || ev.restarted ring) = true) :
    (recorded rt t ring ev).ending = some t := by
  have hset : ∀ ev : Event, ({ ev with endAt := some t }).ending = some t := by
    intro ev
    rw [Event.ending]
    simp [ht]
  have hwriting : (ev.expire rt.lastTrueAt t).writing = ev.writing := by
    rw [Event.expire]
    split <;> rfl
  rw [recorded, Event.write, hwriting]
  cases hclip : ev.writing with
  | none =>
      have hstale : ev.stale rt.lastTrueAt t = true := by
        simpa [Event.restarted, hclip] using h
      rw [expire_of_stale hstale]
      exact hset ev
  | some clip =>
      simp only
      split
      · exact hset (ev.expire rt.lastTrueAt t)
      · next hnot =>
          have hstale : ev.stale rt.lastTrueAt t = true := by
            simpa [Event.restarted, hclip, hnot] using h
          rw [expire_of_stale hstale]
          exact hset { ev with writing := some (clip.appendNew (ring.playlist.getD [])) }

theorem startedAt_recorded (rt : Runtime τ) (t : Int) (ring : Ring) (ev : Event) :
    (recorded rt t ring ev).startedAt = ev.startedAt := by
  have hexpire : (ev.expire rt.lastTrueAt t).startedAt = ev.startedAt := by
    rw [Event.expire]
    split <;> rfl
  rw [recorded, Event.write]
  split
  · exact hexpire
  · split <;> exact hexpire

/-- What becomes of the event that a call ends. -/
theorem ended_endEvent {r e : Nat} (force : Bool) (closing : Closing) (hev : s.events[e]? = some ev) :
    ∃ ev' ∈ (s.endEvent r e t force closing).events, ev'.startedAt = ev.startedAt ∧
      ev'.endedAt = some (if force then t else (ev.ending.map (· - postMs)).getD t) := by
  refine ⟨ev.finish t force closing, ?_, (Event.closeClip_times _ closing).1,
    (Event.closeClip_times _ closing).2.2⟩
  rw [(endEvent_frame s r e t force closing).1]
  apply List.mem_of_getElem? (i := e)
  simp only [modifyEvent, List.getElem?_modify, hev, if_true]
  rfl

theorem ended_record {r e : Nat} (closing : Closing) (hrt : s.runtimes[r]? = some rt)
    (he : rt.event = some e) (hev : s.events[e]? = some ev) (ht : t ≠ 0)
    (h : (ev.stale rt.lastTrueAt t || ev.restarted ring) = true) :
    ∃ ev' ∈ (s.record r t ring closing).events, ev'.startedAt = ev.startedAt ∧
      ev'.endedAt = some (t - postMs) := by
  have hending := ending_recorded ht h
  have hdue : (recorded rt t ring ev).due t = true := by
    rw [Event.due, hending]
    simp
  have hforce : ((recorded rt t ring ev).tooLong t && (recorded rt t ring ev).ending.isNone) =
      false := by
    rw [hending]
    exact Bool.and_false _
  have hmodified : (s.modifyEvent e (recorded rt t ring)).events[e]? =
      some (recorded rt t ring ev) := by
    simp only [modifyEvent, List.getElem?_modify, hev, if_true]
    rfl
  obtain ⟨ev', hmem, hstart, hended⟩ := ended_endEvent (t := t) (r := r) false closing
    hmodified
  refine ⟨ev', ?_, hstart.trans (startedAt_recorded rt t ring ev), ?_⟩
  · rw [record, hrt]
    simp only [he, hev]
    rw [if_pos hdue, hforce]
    exact hmem
  · rw [hended, hending]
    rfl

theorem ended_visit {r e : Nat} {connected : Bool} (closing : Closing)
    (hrt : s.runtimes[r]? = some rt) (hwant : rt.wantEvents s.nobodyHome connected = false)
    (he : rt.event = some e) (hev : s.events[e]? = some ev) :
    ∃ ev' ∈ (s.visit r t connected closing).events, ev'.startedAt = ev.startedAt ∧
      ev'.endedAt = some t := by
  have hstopped : (if rt.subscribed then s.modifyRuntime r Runtime.stopEvents else s).events[e]? =
      some ev := by
    split <;> exact hev
  obtain ⟨ev', hmem, hstart, hended⟩ := ended_endEvent (t := t) (r := r) true closing
    hstopped
  refine ⟨ev', ?_, hstart, hended⟩
  rw [visit, hrt]
  simp only [hwant, he]
  exact hmem

end CameraService

/-! ## Runs -/

namespace Clocked

variable {τ : Type} [DecidableEq τ] {c c' : Clocked τ} {a : Timed τ}

theorem step_eq_some_iff :
    c.step a = some c' ↔ (c.now ≤ a.now ∧ a.read.all (· = a.now)) ∧
      c.service.step a.action = some c'.service ∧ c'.now = a.now := by
  rw [step]
  split
  · next hclock =>
      constructor
      · intro h
        obtain ⟨s, hs, rfl⟩ := Option.map_eq_some_iff.1 h
        exact ⟨hclock, hs, rfl⟩
      · rintro ⟨-, hs, hnow⟩
        cases c'
        cases hnow
        rw [hs]
        rfl
  · next hclock =>
      exact ⟨nofun, fun h => absurd h.1 hclock⟩

/-- A timely step keeps all events in time. -/
theorem inTime_step (hc : c.service.InTime c.now) (hok : c.Timely a) (h : c.step a = some c') :
    c'.service.InTime c'.now := by
  obtain ⟨⟨hle, hread⟩, hstep, hnow⟩ := step_eq_some_iff.1 h
  have hs : c.service.InTime a.now := hc.later hle
  rw [hnow]
  obtain ⟨now, action⟩ := a
  simp only [Timely] at hok
  cases action with
  | apply cfg =>
      have hframe := CameraService.apply_frame c.service cfg
      exact Option.some.inj hstep ▸ hs.of_eq hframe.1 hframe.2
  | onMessage r t msg opening =>
      obtain rfl : t = now := by simpa [Timed.read] using hread
      exact Option.some.inj hstep ▸ hs.onMessage r msg opening
  | record id t ring closing =>
      obtain rfl : t = now := by simpa [Timed.read] using hread
      obtain ⟨r, hr, heq⟩ := Option.map_eq_some_iff.1 hstep
      exact heq ▸ hs.record (hok r hr)
  | tick t =>
      obtain rfl : t = now := by simpa [Timed.read] using hread
      simp only [CameraService.step] at hstep
      split at hstep
      · rw [← Option.some.inj hstep]
        refine ⟨hs.events, ?_⟩
        intro x hx
        rcases List.mem_append.1 hx with hold | hnew
        · exact hs.ticks x hold
        · exact (List.mem_singleton.1 hnew).le
      · cases hstep
  | visit i r connected closing =>
      obtain ⟨t, ht, heq⟩ := Option.map_eq_some_iff.1 hstep
      exact heq ▸ hs.visit (hs.ticks t (List.mem_of_getElem? ht)) (hok t ht)
  | cleanup e =>
      obtain heq := Option.some.inj hstep
      refine heq ▸ hs.modifyEvent ?_
      intro ev hev
      exact (hs.events ev (List.mem_of_getElem? hev)).congr rfl rfl rfl
  | ticked i =>
      simp only [CameraService.step] at hstep
      split at hstep
      · rw [← Option.some.inj hstep]
        exact ⟨hs.events, fun x hx => hs.ticks x (List.mem_of_mem_eraseIdx hx)⟩
      · cases hstep
  | flush =>
      exact Option.some.inj hstep ▸ hs.of_eq rfl rfl
  | answered ok =>
      obtain ⟨q, -, heq⟩ := Option.map_eq_some_iff.1 hstep
      exact heq ▸ hs.of_eq rfl rfl

/-- A step after which the events are in order was timely. -/
theorem timely_of_endsInOrder (h : c.step a = some c') (hc' : c'.EndsInOrder) : c.Timely a := by
  obtain ⟨-, hstep, -⟩ := step_eq_some_iff.1 h
  obtain ⟨now, action⟩ := a
  simp only [Timely]
  cases action with
  | record id t ring closing =>
      intro r hr rt hrt e he ev hev ht hearly
      have hs' : c.service.record r t ring closing = c'.service := by
        have hmap : (c.service.cams.get id).map (fun r => c.service.record r t ring closing) =
            some c'.service := hstep
        rw [hr] at hmap
        exact Option.some.inj hmap
      obtain ⟨ev', hmem, hstart, hended⟩ := CameraService.ended_record (s := c.service) (r := r)
        closing hrt he hev ht hearly
      have horder := (hc' ev' (hs' ▸ hmem) _ hended).1
      omega
  | visit i r connected closing =>
      intro t ht rt hrt hwant e he ev hev
      have hs' : c.service.visit r t connected closing = c'.service := by
        have hmap : c.service.ticks[i]?.map
            (fun t => c.service.visit r t connected closing) = some c'.service := hstep
        rw [ht] at hmap
        exact Option.some.inj hmap
      obtain ⟨ev', hmem, hstart, hended⟩ := CameraService.ended_visit (s := c.service) (r := r)
        (t := t) closing hrt hwant he hev
      exact hstart ▸ (hc' ev' (hs' ▸ hmem) _ hended).1
  | _ => trivial

/-- The events end in order in exactly the runs whose steps are timely. -/
theorem ends_in_order_iff (reporter : Bool) (now : Int) (as : List (Timed τ)) {c : Clocked τ}
    (h : exec step (start reporter now) as = some c) :
    Throughout step EndsInOrder (start reporter now) as ↔
      Admits step Timely (start reporter now) as := by
  constructor
  · -- no invariant is needed for this direction
    have hinv : ∀ (s : Clocked τ) (a : Timed τ) (s' : Clocked τ), True → s.step a = some s' → True :=
      fun _ _ _ h _ => h
    exact admits_of_throughout hinv (fun _ _ _ _ hs hc' => timely_of_endsInOrder hs hc') trivial h
  · have hinv : ∀ (s : Clocked τ) (a : Timed τ) (s' : Clocked τ), s.service.InTime s.now →
        s.Timely a → s.step a = some s' → s'.service.InTime s'.now :=
      fun _ _ _ hc hok hs => inTime_step hc hok hs
    refine throughout_of_admits hinv (fun c hc ev hev x hx => (hc.events ev hev).ended x hx) ?_
    exact ⟨fun _ hev => absurd hev List.not_mem_nil, fun _ ht => absurd ht List.not_mem_nil⟩

open CameraService (frontDoor watching ringOf personSeen)

/-- An action at the time that it reads, or at the one that is given. -/
def timed (action : CameraService.Action Nat) (now : Int) : Timed Nat := ⟨now, action⟩

def recordAt (t : Int) (ring : Ring) : Timed Nat :=
  timed (.record "c0000000000000a1".toList t ring .finished) t

/-- The motion stops, and the event ends ten seconds later. -/
def calm : List (Timed Nat) :=
  [timed (.apply (watching .motion)) 1000, timed (personSeen 5000 (.bytes 500)) 5000,
    timed (.onMessage 0 7000 [(.person, false)] none) 7000,
    recordAt 17000 (ringOf [(2, .bytes 500), (3, .bytes 500)])]

theorem ends_in_order_calm : Throughout step EndsInOrder (start true 0) calm := by
  have hrun : ∃ c, exec step (start true 0) calm = some c :=
    Option.isSome_iff_exists.1 (by decide +kernel)
  obtain ⟨c, hc⟩ := hrun
  exact (ends_in_order_iff true 0 calm hc).2 (by decide +kernel)

/-- The ring is started again one second after the event has begun. -/
def ringAgain : List (Timed Nat) :=
  [timed (.apply (watching .motion)) 1000, timed (personSeen 5000 (.bytes 500)) 5000,
    recordAt 6000 { ringOf [(1, .bytes 500)] with initMtime := some 2 }]

/-- A person has been seen for two minutes; a message that a vehicle has gone begins the next event,
which is stale from its first second on. -/
def staleAgain : List (Timed Nat) :=
  [timed (.apply (watching .motion)) 1000, timed (personSeen 5000 (.bytes 500)) 5000,
    recordAt 130000 (ringOf [(2, .bytes 500)]),
    timed (.onMessage 0 131000 [(.vehicle, false)] none) 131000,
    recordAt 132000 (ringOf [(2, .bytes 500)])]

/-- An event begins while a tick waits, and is not wanted any more when the tick goes on. -/
def slowTick : List (Timed Nat) :=
  [timed (.apply (watching .motion)) 1000, timed (.tick 2000) 2000,
    timed (personSeen 5000 (.bytes 500)) 5000, timed (.apply (watching .never)) 6000,
    timed (.visit 0 0 true .finished) 7000]

/-- Events that end before they have begun. -/
theorem ends_out_of_order :
    (∃ c, exec step (start true 0) ringAgain = some c ∧ ¬ c.EndsInOrder) ∧
    (∃ c, exec step (start true 0) staleAgain = some c ∧ ¬ c.EndsInOrder) ∧
    ∃ c, exec step (start true 0) slowTick = some c ∧ ¬ c.EndsInOrder := by
  have hbad : ∀ as ∈ [ringAgain, staleAgain, slowTick],
      (exec step (start true 0) as).any (fun c => decide (¬ c.EndsInOrder)) = true := by
    decide +kernel
  have hend : ∀ as ∈ [ringAgain, staleAgain, slowTick],
      ∃ c, exec step (start true 0) as = some c ∧ ¬ c.EndsInOrder := by
    intro as has
    obtain ⟨c, hc, hnot⟩ := (Option.any_eq_true ..).1 (hbad as has)
    exact ⟨c, hc, of_decide_eq_true hnot⟩
  exact ⟨hend ringAgain (by simp), hend staleAgain (by simp), hend slowTick (by simp)⟩

end Clocked

end Cameras
end GateControl
