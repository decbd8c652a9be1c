import GateControl.Cameras.Events

/-!
# Endings — every event is brought to an end

An event whose start has been queued is either the open event of a camera in the table, which
`recordStep` or `tick` will end, or its end has been queued and nothing is left of the writing of
its clip.  `events_ended` says in which runs that is so: no runtime with an open event is dropped, no
event begins on a dropped one, and an event that is ended leaves no descriptor and no `.part` file.

Every step changes little of that (`Quiet`), except that it begins an event (`Begins`) or ends one
(`Ends`).
-/

namespace GateControl
namespace Cameras

open Library

namespace CameraService

variable {τ : Type} {s s' t : CameraService τ}

/-- The end of an event has been queued, its clip is closed and its `.part` file gone. -/
def Finished (s : CameraService τ) (e : Nat) : Prop :=
  (∃ m ∈ s.queue.queued, m.phase = .finish ∧ m.event = e) ∧
    ∀ ev ∈ s.events[e]?, ev.fdOpen = false ∧ ev.part = false

/-- Every event that has been announced is finished, or open in a camera of the table. -/
def Accounted (s : CameraService τ) : Prop :=
  ∀ m ∈ s.queue.queued, m.phase = .start →
    s.Finished m.event ∨ ∃ r ∈ s.cams.values, s.openEvent r = some m.event

instance (e : Nat) : Decidable (s.Finished e) :=
  inferInstanceAs (Decidable ((∃ _ ∈ _, _) ∧ ∀ _ ∈ _, _))

instance : Decidable s.Accounted := inferInstanceAs (Decidable (∀ _ ∈ _, _ → _ ∨ ∃ _ ∈ _, _))

/-! ## The condition -/

/-- Closing the clip of an event leaves nothing: what was opened is known to the event, and the file
can be renamed or removed. -/
def Releases (ev : Event) (closing : Closing) : Prop :=
  match ev.writing with
  | none => ev.fdOpen = false ∧ ev.part = false
  | some _ => closing = .failed false → ev.part = false

instance (ev : Event) (closing : Closing) : Decidable (Releases ev closing) := by
  unfold Releases
  cases ev.writing with
  | none => exact inferInstanceAs (Decidable (_ ∧ _))
  | some _ => exact inferInstanceAs (Decidable (_ → _))

/-- A message begins an event of a runtime. -/
def begins (s : CameraService τ) (r : Nat) (t : Int) (msg : List (EventKind × Bool)) : Bool :=
  msg ≠ [] && s.runtimes[r]?.any fun rt => (rt.observe t msg).sees s.nobodyHome && rt.event.isNone

/-- No runtime with an open event is dropped, no event begins on a dropped one, and an event that is
ended leaves nothing of its clip. -/
def Orderly (s : CameraService τ) : Action τ → Prop
  | .apply cfg => ∀ k ∈ s.gone cfg, s.openEvent k.2 = none
  | .onMessage r t msg _ => s.begins r t msg = true → r ∈ s.cams.values
  | .record id t ring closing =>
      ∀ r ∈ s.cams.get id, ∀ rt ∈ s.runtimes[r]?, ∀ e ∈ rt.event, ∀ ev ∈ s.events[e]?,
        (recorded rt t ring ev).due t = true → Releases ev closing
  | .visit _ r connected closing =>
      ∀ rt ∈ s.runtimes[r]?, rt.wantEvents s.nobodyHome connected = false →
        ∀ e ∈ rt.event, ∀ ev ∈ s.events[e]?, Releases ev closing
  | _ => True

instance (a : Action τ) : Decidable (s.Orderly a) :=
  match a with
  | .apply _ => inferInstanceAs (Decidable (∀ _ ∈ _, _))
  | .onMessage .. => inferInstanceAs (Decidable (_ → _))
  | .record .. => inferInstanceAs (Decidable (∀ _ ∈ _, ∀ _ ∈ _, ∀ _ ∈ _, ∀ _ ∈ _, _ → _))
  | .visit .. => inferInstanceAs (Decidable (∀ _ ∈ _, _ → ∀ _ ∈ _, ∀ _ ∈ _, _))
  | .tick _ | .cleanup _ | .ticked _ | .flush | .answered _ => inferInstanceAs (Decidable True)

/-! ## What a step does to the events -/

/-- Nothing begins or ends. -/
structure Quiet (s s' : CameraService τ) : Prop where
  openEvent : ∀ r, s'.openEvent r = s.openEvent r
  events : s'.events.length = s.events.length
  files : ∀ (e : Nat) (ev' : Event), s'.events[e]? = some ev' → ∃ ev, s.events[e]? = some ev ∧
    ev'.fdOpen = ev.fdOpen ∧ (ev'.part = true → ev.part = true)
  queued : ∃ ms, s'.queue.queued = s.queue.queued ++ ms ∧ ∀ m ∈ ms, m.phase = .update

theorem Quiet.refl (s : CameraService τ) : Quiet s s :=
  ⟨fun _ => rfl, rfl, fun _ ev' h => ⟨ev', h, rfl, id⟩, [], (List.append_nil _).symm, by simp⟩

theorem Quiet.trans (h : Quiet s s') (h' : Quiet s' t) : Quiet s t where
  openEvent := fun r => (h'.openEvent r).trans (h.openEvent r)
  events := h'.events.trans h.events
  files := by
    intro e ev'' hev''
    rcases h'.files e ev'' hev'' with ⟨ev', hev', hfd', hpart'⟩
    rcases h.files e ev' hev' with ⟨ev, hev, hfd, hpart⟩
    exact ⟨ev, hev, hfd'.trans hfd, fun hp => hpart (hpart' hp)⟩
  queued := by
    rcases h.queued with ⟨ms, hms, hupd⟩
    rcases h'.queued with ⟨ms', hms', hupd'⟩
    refine ⟨ms ++ ms', ?_, fun m hm => ?_⟩
    · rw [hms', hms, List.append_assoc]
    · rcases List.mem_append.1 hm with hold | hnew
      · exact hupd m hold
      · exact hupd' m hnew

/-- Of a step that touches neither the runtimes nor the events nor the queue. -/
theorem Quiet.of_eq (hr : s'.runtimes = s.runtimes) (he : s'.events = s.events)
    (hq : s'.queue.queued = s.queue.queued) : Quiet s s' where
  openEvent := fun r => by rw [CameraService.openEvent, CameraService.openEvent, hr]
  events := by rw [he]
  files := fun e ev' h => ⟨ev', he ▸ h, rfl, id⟩
  queued := ⟨[], by rw [hq, List.append_nil], by simp⟩

theorem openEvent_modify (r q : Nat) (f : Runtime τ → Runtime τ) :
    (s.modifyRuntime r f).openEvent q =
      if r = q then s.runtimes[q]?.bind fun rt => (f rt).event else s.openEvent q := by
  simp only [openEvent, modifyRuntime, List.getElem?_modify]
  split
  · cases s.runtimes[q]? with
    | none => rfl
    | some rt => rfl
  · simp

/-- A runtime changes, but not its open event. -/
theorem Quiet.of_runtime (r : Nat) {f : Runtime τ → Runtime τ} (hf : ∀ rt, (f rt).event = rt.event) :
    Quiet s (s.modifyRuntime r f) where
  openEvent := by
    intro q
    rw [openEvent_modify]
    split
    · simp only [hf]
      rfl
    · rfl
  events := rfl
  files := fun e ev' h => ⟨ev', h, rfl, id⟩
  queued := ⟨[], (List.append_nil _).symm, by simp⟩

/-- An event changes, but its files do not become more. -/
theorem Quiet.of_event (e : Nat) {f : Event → Event}
    (hf : ∀ ev, (f ev).fdOpen = ev.fdOpen ∧ ((f ev).part = true → ev.part = true)) :
    Quiet s (s.modifyEvent e f) where
  openEvent := fun _ => rfl
  events := List.length_modify ..
  files := by
    intro q ev' h
    simp only [modifyEvent, List.getElem?_modify] at h
    rcases Option.map_eq_some_iff.1 h with ⟨ev, hev, rfl⟩
    refine ⟨ev, hev, ?_⟩
    split
    · exact hf ev
    · exact ⟨rfl, id⟩
  queued := ⟨[], (List.append_nil _).symm, by simp⟩

theorem Quiet.of_update {m : Message} (hm : m.phase = .update) : Quiet s (s.send m) where
  openEvent := fun _ => rfl
  events := rfl
  files := fun e ev' h => ⟨ev', h, rfl, id⟩
  queued := ⟨[m], EventQueue.queued_queue .., by simpa using hm⟩

/-- An event begins on a runtime. -/
structure Begins (s s' : CameraService τ) (r : Nat) : Prop where
  before : s.openEvent r = none
  openEvent : ∀ q, s'.openEvent q = if q = r then some s.events.length else s.openEvent q
  events : s'.events.length = s.events.length + 1
  files : ∀ e < s.events.length, s'.events[e]? = s.events[e]?
  queued : ∃ m, s'.queue.queued = s.queue.queued ++ [m] ∧ m.phase = .start ∧
    m.event = s.events.length

/-- The open event of a runtime ends. -/
structure Ends (s s' : CameraService τ) (r e : Nat) (closing : Closing) : Prop where
  before : s.openEvent r = some e
  openEvent : ∀ q, s'.openEvent q = if q = r then none else s.openEvent q
  events : s'.events.length = s.events.length
  files : ∀ q ≠ e, s'.events[q]? = s.events[q]?
  closed : ∀ ev ∈ s.events[e]?, ∀ ev' ∈ s'.events[e]?,
    (ev'.fdOpen = false ∧ ev'.part = false ↔ Releases ev closing)
  queued : ∃ m, s'.queue.queued = s.queue.queued ++ [m] ∧ m.phase = .finish ∧ m.event = e

/-! ## The invariant -/

/-- Every event has been announced; the open ones are open in one runtime each and have not been
reported as ended, the others have. -/
structure Recorded (s : CameraService τ) : Prop where
  single : ∀ r q e, s.openEvent r = some e → s.openEvent q = some e → r = q
  known : ∀ r e, s.openEvent r = some e → e < s.events.length
  bound : ∀ m ∈ s.queue.queued, m.phase ≠ .update → m.event < s.events.length
  started : ∀ e < s.events.length, ∃ m ∈ s.queue.queued, m.phase = .start ∧ m.event = e
  unfinished : ∀ m ∈ s.queue.queued, m.phase = .finish → ∀ r, s.openEvent r ≠ some m.event
  finished : ∀ e < s.events.length, (∀ r, s.openEvent r ≠ some e) →
    ∃ m ∈ s.queue.queued, m.phase = .finish ∧ m.event = e

/-- Nothing is left of the clips of the events that are not open. -/
def Clean (s : CameraService τ) : Prop :=
  ∀ (e : Nat) (ev : Event), s.events[e]? = some ev → (∀ r, s.openEvent r ≠ some e) →
    ev.fdOpen = false ∧ ev.part = false

/-- A runtime with an open event is in the table. -/
def Watched (s : CameraService τ) : Prop :=
  ∀ r e, s.openEvent r = some e → r ∈ s.cams.values

/-- Where the events are recorded, they are accounted for if the open ones are in the table and
nothing is left of the others. -/
theorem Recorded.accounted_iff (h : s.Recorded) : s.Accounted ↔ s.Watched ∧ s.Clean := by
  constructor
  · intro hacc
    have hevent : ∀ e < s.events.length, s.Finished e ∨
        ∃ r ∈ s.cams.values, s.openEvent r = some e := by
      intro e he
      rcases h.started e he with ⟨m, hm, hstart, rfl⟩
      exact hacc m hm hstart
    constructor
    · intro r e hr
      rcases hevent e (h.known r e hr) with hfin | ⟨q, hq, hqe⟩
      · rcases hfin.1 with ⟨m, hm, hend, rfl⟩
        exact absurd hr (h.unfinished m hm hend r)
      · rw [h.single r q e hr hqe]
        exact hq
    · intro e ev hev hclosed
      have he : e < s.events.length := (List.getElem?_eq_some_iff.1 hev).1
      rcases hevent e he with hfin | ⟨r, _, hr⟩
      · exact hfin.2 ev hev
      · exact absurd hr (hclosed r)
  · rintro ⟨hwatched, hclean⟩ m hm hstart
    by_cases hopen : ∃ r, s.openEvent r = some m.event
    · rcases hopen with ⟨r, hr⟩
      exact Or.inr ⟨r, hwatched r _ hr, hr⟩
    · have hclosed : ∀ r, s.openEvent r ≠ some m.event := fun r hr => hopen ⟨r, hr⟩
      have hbound := h.bound m hm (by rw [hstart]; decide)
      exact Or.inl ⟨h.finished _ hbound hclosed, fun ev hev => hclean _ ev hev hclosed⟩

theorem new_recorded (reporter : Bool) : (new reporter : CameraService τ).Recorded where
  single := fun _ _ _ h => (by cases h)
  known := fun _ _ h => (by cases h)
  bound := fun _ h => (by cases h)
  started := fun _ h => absurd h (Nat.not_lt_zero _)
  unfinished := fun _ h => (by cases h)
  finished := fun _ h => absurd h (Nat.not_lt_zero _)

/-! ### What the steps keep -/

theorem Recorded.quiet (h : s.Recorded) (hq : Quiet s s') : s'.Recorded := by
  rcases hq.queued with ⟨ms, hms, hupd⟩
  -- only updates are new in the queue
  have hold : ∀ m ∈ s'.queue.queued, m.phase ≠ .update → m ∈ s.queue.queued := by
    intro m hm hne
    rw [hms] at hm
    exact (List.mem_append.1 hm).resolve_right fun hin => hne (hupd m hin)
  have hnew : ∀ m ∈ s.queue.queued, m ∈ s'.queue.queued := by
    intro m hm
    rw [hms]
    exact List.mem_append_left _ hm
  refine ⟨?_, ?_, ?_, ?_, ?_, ?_⟩
  · intro r q e hr hq'
    rw [hq.openEvent] at hr hq'
    exact h.single r q e hr hq'
  · intro r e hr
    rw [hq.openEvent] at hr
    rw [hq.events]
    exact h.known r e hr
  · intro m hm hne
    rw [hq.events]
    exact h.bound m (hold m hm hne) hne
  · intro e he
    rw [hq.events] at he
    rcases h.started e he with ⟨m, hm, hm'⟩
    exact ⟨m, hnew m hm, hm'⟩
  · intro m hm hend r
    rw [hq.openEvent]
    exact h.unfinished m (hold m hm (by rw [hend]; decide)) hend r
  · intro e he hclosed
    rw [hq.events] at he
    simp only [hq.openEvent] at hclosed
    rcases h.finished e he hclosed with ⟨m, hm, hm'⟩
    exact ⟨m, hnew m hm, hm'⟩

theorem Clean.quiet (h : s.Clean) (hq : Quiet s s') : s'.Clean := by
  intro e ev' hev' hclosed
  rcases hq.files e ev' hev' with ⟨ev, hev, hfd, hpart⟩
  simp only [hq.openEvent] at hclosed
  obtain ⟨hold, hgone⟩ := h e ev hev hclosed
  refine ⟨hfd.trans hold, ?_⟩
  by_contra hp
  rw [hpart (Bool.not_eq_false _ ▸ hp)] at hgone
  cases hgone

theorem Recorded.begins {r : Nat} (h : s.Recorded) (hb : Begins s s' r) : s'.Recorded := by
  rcases hb.queued with ⟨m₀, hms, hstart, hevent⟩
  have hmem : ∀ m, m ∈ s'.queue.queued ↔ m ∈ s.queue.queued ∨ m = m₀ := by
    intro m
    rw [hms, List.mem_append, List.mem_singleton]
  -- the new event is open in its runtime only, and its number is new
  have hopen : ∀ q e, s'.openEvent q = some e →
      (q = r ∧ e = s.events.length) ∨ (q ≠ r ∧ s.openEvent q = some e) := by
    intro q e hqe
    rw [hb.openEvent] at hqe
    split at hqe
    · next heq => exact Or.inl ⟨heq, (Option.some.inj hqe).symm⟩
    · next hne => exact Or.inr ⟨hne, hqe⟩
  refine ⟨?_, ?_, ?_, ?_, ?_, ?_⟩
  · intro p q e hp hq
    rcases hopen p e hp with ⟨rfl, rfl⟩ | ⟨_, hp'⟩
    · rcases hopen q _ hq with ⟨rfl, _⟩ | ⟨_, hq'⟩
      · rfl
      · exact absurd (h.known q _ hq') (Nat.lt_irrefl _)
    · rcases hopen q e hq with ⟨rfl, rfl⟩ | ⟨_, hq'⟩
      · exact absurd (h.known p _ hp') (Nat.lt_irrefl _)
      · exact h.single p q e hp' hq'
  · intro q e hqe
    rw [hb.events]
    rcases hopen q e hqe with ⟨_, rfl⟩ | ⟨_, hold⟩
    · exact Nat.lt_succ_self _
    · exact Nat.lt_succ_of_lt (h.known q e hold)
  · intro m hm hne
    rw [hb.events]
    rcases (hmem m).1 hm with hold | rfl
    · exact Nat.lt_succ_of_lt (h.bound m hold hne)
    · rw [hevent]
      exact Nat.lt_succ_self _
  · intro e he
    rw [hb.events] at he
    rcases Nat.lt_succ_iff_lt_or_eq.1 he with hlt | rfl
    · rcases h.started e hlt with ⟨m, hm, hm'⟩
      exact ⟨m, (hmem m).2 (Or.inl hm), hm'⟩
    · exact ⟨m₀, (hmem m₀).2 (Or.inr rfl), hstart, hevent⟩
  · intro m hm hend q hqe
    rcases (hmem m).1 hm with hold | rfl
    · rcases hopen q _ hqe with ⟨_, heq⟩ | ⟨_, hq'⟩
      · have hlt := h.bound m hold (by rw [hend]; decide)
        rw [heq] at hlt
        exact Nat.lt_irrefl _ hlt
      · exact h.unfinished m hold hend q hq'
    · rw [hstart] at hend
      cases hend
  · intro e he hclosed
    rw [hb.events] at he
    have hr : s'.openEvent r = some s.events.length := by rw [hb.openEvent, if_pos rfl]
    rcases Nat.lt_succ_iff_lt_or_eq.1 he with hlt | rfl
    · have hold : ∀ q, s.openEvent q ≠ some e := by
        intro q hqe
        by_cases hqr : q = r
        · subst hqr
          rw [hb.before] at hqe
          cases hqe
        · apply hclosed q
          rw [hb.openEvent, if_neg hqr]
          exact hqe
      rcases h.finished e hlt hold with ⟨m, hm, hm'⟩
      exact ⟨m, (hmem m).2 (Or.inl hm), hm'⟩
    · exact absurd hr (hclosed r)

theorem Clean.begins {r : Nat} (h : s.Clean) (hb : Begins s s' r) : s'.Clean := by
  intro e ev hev hclosed
  have hlt : e < s'.events.length := (List.getElem?_eq_some_iff.1 hev).1
  rw [hb.events] at hlt
  rcases Nat.lt_succ_iff_lt_or_eq.1 hlt with hold | rfl
  · rw [hb.files e hold] at hev
    apply h e ev hev
    intro q hqe
    by_cases hqr : q = r
    · subst hqr
      rw [hb.before] at hqe
      cases hqe
    · apply hclosed q
      rw [hb.openEvent, if_neg hqr]
      exact hqe
  · exact absurd ((hb.openEvent r).trans (if_pos rfl)) (hclosed r)

theorem Recorded.ends {r e : Nat} {closing : Closing} (h : s.Recorded)
    (he : Ends s s' r e closing) : s'.Recorded := by
  rcases he.queued with ⟨m₀, hms, hend, hevent⟩
  -- one message more, the end of this event
  have hmem : ∀ m, m ∈ s'.queue.queued ↔ m ∈ s.queue.queued ∨ m = m₀ := by
    intro m
    rw [hms, List.mem_append, List.mem_singleton]
  -- the events that are still open were open before
  have hopen : ∀ q d, s'.openEvent q = some d → q ≠ r ∧ s.openEvent q = some d := by
    intro q d hqd
    rw [he.openEvent] at hqd
    split at hqd
    · cases hqd
    · next hne => exact ⟨hne, hqd⟩
  refine ⟨?_, ?_, ?_, ?_, ?_, ?_⟩
  · intro p q d hp hq
    exact h.single p q d (hopen p d hp).2 (hopen q d hq).2
  · intro q d hqd
    rw [he.events]
    exact h.known q d (hopen q d hqd).2
  · intro m hm hne
    rw [he.events]
    rcases (hmem m).1 hm with hold | rfl
    · exact h.bound m hold hne
    · rw [hevent]
      exact h.known r e he.before
  · intro d hd
    rw [he.events] at hd
    rcases h.started d hd with ⟨m, hm, hm'⟩
    exact ⟨m, (hmem m).2 (Or.inl hm), hm'⟩
  · intro m hm hfin q hqd
    obtain ⟨hne, hold⟩ := hopen q _ hqd
    rcases (hmem m).1 hm with hin | rfl
    · exact h.unfinished m hin hfin q hold
    · rw [hevent] at hold
      -- an event is open at one camera only
      exact hne (h.single q r e hold he.before)
  · intro d hd hclosed
    rw [he.events] at hd
    -- the event that ends has its message, the others had theirs
    by_cases hde : d = e
    · subst hde
      exact ⟨m₀, (hmem m₀).2 (Or.inr rfl), hend, hevent⟩
    · have hold : ∀ q, s.openEvent q ≠ some d := by
        intro q hqd
        apply hclosed q
        rw [he.openEvent, if_neg]
        · exact hqd
        · rintro rfl
          exact hde (Option.some.inj (hqd.symm.trans he.before))
      rcases h.finished d hd hold with ⟨m, hm, hm'⟩
      exact ⟨m, (hmem m).2 (Or.inl hm), hm'⟩

theorem Clean.ends {r e : Nat} {closing : Closing} (h : s.Clean) (he : Ends s s' r e closing)
    (hrel : ∀ ev ∈ s.events[e]?, Releases ev closing) : s'.Clean := by
  intro d ev' hev' hclosed
  by_cases hde : d = e
  · subst hde
    have hlt := (List.getElem?_eq_some_iff.1 hev').1
    rw [he.events] at hlt
    have hev : s.events[d]? = some s.events[d] := List.getElem?_eq_getElem hlt
    exact (he.closed _ hev _ hev').2 (hrel _ hev)
  · rw [he.files d hde] at hev'
    apply h d ev' hev'
    intro q hqd
    apply hclosed q
    rw [he.openEvent, if_neg]
    · exact hqd
    · rintro rfl
      exact hde (Option.some.inj (hqd.symm.trans he.before))

theorem releases_of_clean {r e : Nat} {closing : Closing} (h : s.Recorded)
    (he : Ends s s' r e closing) (hclean : s'.Clean) :
    ∀ ev ∈ s.events[e]?, Releases ev closing := by
  intro ev hev
  have hlt : e < s'.events.length := by
    rw [he.events]
    exact (List.getElem?_eq_some_iff.1 hev).1
  have hev' : s'.events[e]? = some s'.events[e] := List.getElem?_eq_getElem hlt
  have hclosed : ∀ q, s'.openEvent q ≠ some e := by
    intro q hqe
    rw [he.openEvent] at hqe
    split at hqe
    · cases hqe
    · next hne => exact hne (h.single q r e hqe he.before)
  exact (he.closed ev hev _ hev').1 (hclean e _ hev' hclosed)

/-- What a step of the camera does; `ok` is what it takes to keep the events accounted for. -/
inductive Effect (s s' : CameraService τ) (ok : Prop) : Prop
  | quiet (hq : Quiet s s') (hok : ok)
  | begins (t : CameraService τ) (r : Nat) (hq : Quiet s t) (hb : Begins t s' r)
      (hok : ok ↔ r ∈ s.cams.values)
  | ends (t : CameraService τ) (r e : Nat) (closing : Closing) (hq : Quiet s t)
      (he : Ends t s' r e closing) (hok : ok ↔ ∀ ev ∈ t.events[e]?, Releases ev closing)

theorem Recorded.effect {ok : Prop} (h : s.Recorded) (he : Effect s s' ok) : s'.Recorded := by
  cases he with
  | quiet hq hok =>
      exact h.quiet hq
  | begins t r hq hb hok =>
      exact (h.quiet hq).begins hb
  | ends t r e closing hq he hok =>
      exact (h.quiet hq).ends he

/-- The open events after a step are the old ones, or the one that has begun. -/
theorem Watched.effect {ok : Prop} (h : s.Watched) (hc : s'.cams = s.cams) (he : Effect s s' ok)
    (hok : ok) : s'.Watched := by
  intro q e hqe
  rw [hc]
  cases he with
  | quiet hq _ =>
      rw [hq.openEvent] at hqe
      exact h q e hqe
  | begins t r hq hb hiff =>
      rw [hb.openEvent] at hqe
      split at hqe
      · next heq =>
          rw [heq]
          exact hiff.1 hok
      · rw [hq.openEvent] at hqe
        exact h q e hqe
  | ends t r d closing hq he _ =>
      rw [he.openEvent] at hqe
      split at hqe
      · cases hqe
      · rw [hq.openEvent] at hqe
        exact h q e hqe

theorem Clean.effect {ok : Prop} (h : s.Clean) (he : Effect s s' ok) (hok : ok) : s'.Clean := by
  cases he with
  | quiet hq _ =>
      exact h.quiet hq
  | begins t r hq hb _ =>
      exact (h.quiet hq).begins hb
  | ends t r e closing hq he hiff =>
      exact (h.quiet hq).ends he (hiff.1 hok)

theorem Effect.ok_of {ok : Prop} (he : Effect s s' ok) (h : s.Recorded) (hc : s'.cams = s.cams)
    (hwatched : s'.Watched) (hclean : s'.Clean) : ok := by
  cases he with
  | quiet hq hok =>
      exact hok
  | begins t r hq hb hiff =>
      apply hiff.2
      rw [← hc]
      exact hwatched r _ ((hb.openEvent r).trans (if_pos rfl))
  | ends t r e closing hq he hiff =>
      exact hiff.2 (releases_of_clean (h.quiet hq) he hclean)

/-! ## The operations -/

theorem startEvent_begins {r : Nat} {rt : Runtime τ} (t : Int) (kinds : List EventKind)
    (opening : Option Opening) (hr : r < s.runtimes.length) (hev : s.openEvent r = none) :
    Begins s (s.startEvent r rt t kinds opening) r := by
  refine ⟨hev, fun q => ?_, ?_, fun e he => ?_, ?_⟩
  · change (s.modifyRuntime r fun rt => { rt with event := some s.events.length }).openEvent q = _
    rw [openEvent_modify]
    by_cases hqr : r = q
    · subst hqr
      rw [if_pos rfl, if_pos rfl, List.getElem?_eq_getElem hr]
      rfl
    · rw [if_neg hqr, if_neg (Ne.symm hqr)]
  · exact List.length_append
  · exact List.getElem?_append_left he
  · exact ⟨_, EventQueue.queued_queue .., rfl, rfl⟩

/-- An event that is finished leaves nothing exactly if its clip releases what was opened. -/
theorem finish_files (ev : Event) (t : Int) (force : Bool) (closing : Closing) :
    (ev.finish t force closing).fdOpen = false ∧ (ev.finish t force closing).part = false ↔
      Releases ev closing := by
  unfold Event.finish Event.closeClip Releases
  cases hw : ev.writing with
  | none =>
      simp
  | some c =>
      cases closing with
      | finished => simp
      | failed removed =>
          cases removed with
          | true => simp
          | false => simp

theorem endEvent_ends {r e : Nat} (t : Int) (force : Bool) (closing : Closing)
    (hev : s.openEvent r = some e) (he : e < s.events.length) :
    Ends s (s.endEvent r e t force closing) r e closing := by
  have hlen : e < (s.events.modify e (·.finish t force closing)).length := by
    rw [List.length_modify]
    exact he
  have heq : s.endEvent r e t force closing =
      (((s.modifyRuntime r fun rt => { rt with event := none }).modifyEvent e
        (·.finish t force closing)).send
          ((s.events.modify e (·.finish t force closing))[e].message e .finish)) := by
    simp only [endEvent, modifyEvent, modifyRuntime, List.getElem?_eq_getElem hlen]
  rw [heq]
  refine ⟨hev, fun q => ?_, List.length_modify .., fun q hq => ?_, fun ev hs ev' hs' => ?_, ?_⟩
  · change (s.modifyRuntime r fun rt => { rt with event := none }).openEvent q = _
    rw [openEvent_modify]
    -- the event of this camera is closed, those of the others stay open
    by_cases hqr : r = q
    · subst hqr
      rw [if_pos rfl, if_pos rfl]
      cases s.runtimes[r]? with
      | none => rfl
      | some rt => rfl
    · rw [if_neg hqr, if_neg (Ne.symm hqr)]
  · exact List.getElem?_modify_ne _ _ (Ne.symm hq)
  · have hs'' : (s.events.modify e (·.finish t force closing))[e]? = some ev' := hs'
    rw [List.getElem?_modify_eq, hs] at hs''
    cases hs''
    exact finish_files ev t force closing
  · exact ⟨_, EventQueue.queued_queue .., rfl, rfl⟩

theorem Recorded.openEvent_lt (h : s.Recorded) {r e : Nat} {rt : Runtime τ}
    (hrt : s.runtimes[r]? = some rt) (he : rt.event = some e) :
    s.openEvent r = some e ∧ e < s.events.length := by
  have hopen : s.openEvent r = some e := by rw [openEvent, hrt, Option.bind_some, he]
  exact ⟨hopen, h.known r e hopen⟩

theorem carryOn_quiet (e : Nat) (hits : List EventKind) : Quiet s (s.carryOn e hits) := by
  unfold carryOn
  split
  · exact .refl s
  · have hev : Quiet s (s.modifyEvent e (·.carryOn hits)) := .of_event e fun ev => ⟨rfl, id⟩
    dsimp only
    split
    · exact hev
    · exact hev.trans (.of_update rfl)

theorem runOut_files (ev : Event) (t : Int) :
    (ev.runOut t).fdOpen = ev.fdOpen ∧ ((ev.runOut t).part = true → ev.part = true) := by
  unfold Event.runOut
  split
  · exact ⟨rfl, id⟩
  · exact ⟨rfl, id⟩

/-- A message carries an open event on, begins one or lets it run out. -/
theorem onMessage_effect (r : Nat) (t : Int) (msg : List (EventKind × Bool))
    (opening : Option Opening) :
    Effect s (s.onMessage r t msg opening) (s.begins r t msg = true → r ∈ s.cams.values) := by
  unfold onMessage
  split
  · next hmsg =>
      -- nothing is said about motion
      exact .quiet (.refl s) fun hb => by simp [begins, hmsg] at hb
  · next hmsg =>
      split
      · next hnone =>
          exact .quiet (.refl s) fun hb => by simp [begins, hnone] at hb
      · next rt hrt =>
          have hobs : Quiet s (s.modifyRuntime r (·.observe t msg)) := .of_runtime r fun rt => rfl
          have hlt := (List.getElem?_eq_some_iff.1 hrt).1
          have hbegins : s.begins r t msg =
              ((rt.observe t msg).sees s.nobodyHome && rt.event.isNone) := by
            simp [begins, hmsg, hrt]
          dsimp only
          split
          · next hsees =>
              have hsees' : (rt.observe t msg).sees s.nobodyHome = true := hsees
              -- the camera sees something: an event begins, or goes on
              cases hev : rt.event with
              | none =>
                  have hopen : (s.modifyRuntime r (·.observe t msg)).openEvent r = none := by
                    rw [hobs.openEvent, openEvent, hrt, Option.bind_some, hev]
                  have hb : s.begins r t msg = true := by
                    rw [hbegins, hsees', hev]
                    rfl
                  simp only [Runtime.observe, hev]
                  refine .begins _ r hobs (startEvent_begins t _ opening ?_ hopen) ?_
                  · simpa [modifyRuntime] using hlt
                  · exact ⟨fun hr => hr hb, fun hr _ => hr⟩
              | some e =>
                  have hb : s.begins r t msg = false := by
                    rw [hbegins, hev]
                    exact Bool.and_false _
                  simp only [Runtime.observe, hev]
                  exact .quiet (hobs.trans (carryOn_quiet e _)) fun ht => absurd ht (by simp [hb])
          · next hsees =>
              -- it sees nothing: an open event runs out
              have hsees' : (rt.observe t msg).sees s.nobodyHome = false := Bool.eq_false_iff.2 hsees
              have hb : s.begins r t msg = false := by
                rw [hbegins, hsees']
                exact Bool.false_and _
              cases hev : rt.event with
              | none =>
                  simp only [Runtime.observe, hev]
                  exact .quiet hobs fun ht => absurd ht (by simp [hb])
              | some e =>
                  simp only [Runtime.observe, hev]
                  exact .quiet (hobs.trans (.of_event e fun ev => runOut_files ev t))
                    fun ht => absurd ht (by simp [hb])

/-! ### The end of an event -/

theorem recorded_files (rt : Runtime τ) (t : Int) (ring : Ring) (ev : Event) :
    (recorded rt t ring ev).fdOpen = ev.fdOpen ∧ (recorded rt t ring ev).part = ev.part ∧
      (recorded rt t ring ev).writing.isSome = ev.writing.isSome := by
  have hexp : (ev.expire rt.lastTrueAt t).fdOpen = ev.fdOpen ∧
      (ev.expire rt.lastTrueAt t).part = ev.part ∧
      (ev.expire rt.lastTrueAt t).writing = ev.writing := by
    unfold Event.expire
    split
    · exact ⟨rfl, rfl, rfl⟩
    · exact ⟨rfl, rfl, rfl⟩
  unfold recorded Event.write
  split
  · exact ⟨hexp.1, hexp.2.1, congrArg _ hexp.2.2⟩
  · next c hc =>
      have hsome : ev.writing.isSome = true := by
        rw [← hexp.2.2, hc]
        rfl
      split
      · exact ⟨hexp.1, hexp.2.1, congrArg _ hexp.2.2⟩
      · exact ⟨hexp.1, hexp.2.1, hsome.symm⟩

/-- Whether a clip releases what was opened does not depend on what has been written. -/
theorem releases_congr {ev ev' : Event} {closing : Closing} (hf : ev'.fdOpen = ev.fdOpen)
    (hp : ev'.part = ev.part) (hw : ev'.writing.isSome = ev.writing.isSome) :
    Releases ev' closing ↔ Releases ev closing := by
  unfold Releases
  rw [hf, hp]
  cases h : ev.writing with
  | none =>
      rw [h, Option.isSome_none, Option.isSome_eq_false_iff, Option.isNone_iff_eq_none] at hw
      rw [hw]
  | some c =>
      rw [h, Option.isSome_some, Option.isSome_iff_exists] at hw
      rcases hw with ⟨c', hc'⟩
      rw [hc']

theorem record_effect (h : s.Recorded) (r : Nat) (t : Int) (ring : Ring) (closing : Closing) :
    Effect s (s.record r t ring closing) (∀ rt ∈ s.runtimes[r]?, ∀ e ∈ rt.event,
      ∀ ev ∈ s.events[e]?, (recorded rt t ring ev).due t = true → Releases ev closing) := by
  unfold record
  split
  · next hrt =>
      exact .quiet (.refl s) fun rt hrt' => by rw [hrt] at hrt'; cases hrt'
  · next rt hrt =>
      split
      · -- no event is open
        next hev =>
          refine .quiet (.refl s) fun rt' hrt' e he => ?_
          rw [hrt] at hrt'
          cases hrt'
          rw [hev] at he
          cases he
      · next e hev =>
          obtain ⟨hopen, hlt⟩ := h.openEvent_lt hrt hev
          split
          · next hnone => exact absurd hlt (by simpa using hnone)
          · next ev hin =>
              have hq : Quiet s (s.modifyEvent e (recorded rt t ring)) :=
                .of_event e fun ev => ⟨(recorded_files rt t ring ev).1,
                  fun hp => (recorded_files rt t ring ev).2.1 ▸ hp⟩
              have hiff : (∀ rt ∈ s.runtimes[r]?, ∀ e ∈ rt.event, ∀ ev ∈ s.events[e]?,
                  (recorded rt t ring ev).due t = true → Releases ev closing) ↔
                  ((recorded rt t ring ev).due t = true → Releases ev closing) := by
                simp only [hrt, hev, hin, Option.mem_def, Option.some.injEq, forall_eq']
              dsimp only
              -- the event may be over now
              split
              · next hdue =>
                  refine .ends _ r e closing hq (endEvent_ends t _ closing ?_ ?_) ?_
                  · rw [hq.openEvent]
                    exact hopen
                  · rw [hq.events]
                    exact hlt
                  · have hat : (s.modifyEvent e (recorded rt t ring)).events[e]? =
                        some (recorded rt t ring ev) := by
                      simp only [modifyEvent, List.getElem?_modify_eq, hin]
                      rfl
                    obtain ⟨hfd, hpart, hwriting⟩ := recorded_files rt t ring ev
                    rw [hiff]
                    simp only [hat, Option.mem_def, Option.some.injEq, forall_eq',
                      releases_congr hfd hpart hwriting]
                    exact ⟨fun hr => hr hdue, fun hr _ => hr⟩
              · next hdue =>
                  exact .quiet hq (hiff.2 fun hd => absurd hd hdue)

theorem visit_effect (h : s.Recorded) (r : Nat) (t : Int) (connected : Bool) (closing : Closing) :
    Effect s (s.visit r t connected closing) (∀ rt ∈ s.runtimes[r]?,
      rt.wantEvents s.nobodyHome connected = false →
        ∀ e ∈ rt.event, ∀ ev ∈ s.events[e]?, Releases ev closing) := by
  unfold visit
  split
  · next hrt =>
      exact .quiet (.refl s) fun rt hrt' => by rw [hrt] at hrt'; cases hrt'
  · next rt hrt =>
      split
      · next hwant =>
          refine .quiet (.of_runtime r fun rt => rfl) fun rt' hrt' hno => ?_
          rw [hrt] at hrt'
          cases hrt'
          rw [hwant] at hno
          cases hno
      · next hwant =>
          -- the camera is not wanted any more, so its events are stopped
          have hstop : Quiet s (if rt.subscribed = true then s.modifyRuntime r Runtime.stopEvents
              else s) := by
            split
            · exact .of_runtime r fun rt => rfl
            · exact .refl s
          have hevents : (if rt.subscribed = true then s.modifyRuntime r Runtime.stopEvents
              else s).events = s.events := by
            split
            · rfl
            · rfl
          dsimp only
          split
          · next hev =>
              refine .quiet hstop fun rt' hrt' _ e he => ?_
              rw [hrt] at hrt'
              cases hrt'
              rw [hev] at he
              cases he
          · next e hev =>
              obtain ⟨hopen, hlt⟩ := h.openEvent_lt hrt hev
              refine .ends _ r e closing hstop (endEvent_ends t true closing ?_ ?_) ?_
              · rw [hstop.openEvent]
                exact hopen
              · rw [hevents]
                exact hlt
              · have hno : rt.wantEvents s.nobodyHome connected = false := Bool.eq_false_iff.2 hwant
                simp only [hrt, hev, hevents, Option.mem_def, Option.some.injEq, forall_eq', hno,
                  forall_const]

/-! ### Settings -/

/-- The runtimes of the table are different and there. -/
structure Indexed (s : CameraService τ) : Prop where
  single : ∀ id id' r, s.cams.get id = some r → s.cams.get id' = some r → id = id'
  bound : ∀ id r, s.cams.get id = some r → r < s.runtimes.length

theorem drop_quiet (id : Text) (r : Nat) : Quiet s (s.drop id r) :=
  (Quiet.of_runtime r (f := Runtime.stopEvents) fun _ => rfl).trans (.of_eq rfl rfl rfl)

theorem dropAll_quiet (ks : List (Text × Nat)) : Quiet s (ks.foldl (fun s k => s.drop k.1 k.2) s) := by
  induction ks generalizing s with
  | nil =>
      exact .refl s
  | cons k ks ih =>
      exact (drop_quiet k.1 k.2).trans ih

theorem dropAll_get (ks : List (Text × Nat)) (id : Text) :
    (ks.foldl (fun s k => s.drop k.1 k.2) s).cams.get id =
      if id ∈ ks.map Prod.fst then none else s.cams.get id := by
  induction ks generalizing s with
  | nil =>
      simp
  | cons k ks ih =>
      rw [List.foldl_cons, ih]
      simp only [drop, OrderedMap.get_delete, List.map_cons, List.mem_cons]
      by_cases hk : id = k.1
      · simp [hk]
      · simp only [hk, false_or, if_false]

theorem dropAll_length (ks : List (Text × Nat)) :
    (ks.foldl (fun s k => s.drop k.1 k.2) s).runtimes.length = s.runtimes.length := by
  induction ks generalizing s with
  | nil =>
      rfl
  | cons k ks ih =>
      rw [List.foldl_cons, ih]
      exact List.length_modify ..

/-- The runtimes of the cameras that are gone, one after the other. -/
theorem dropGone (cfg : Config τ) :
    Quiet s ((s.gone cfg).foldl (fun s k => s.drop k.1 k.2) s) ∧
      (s.Indexed → ((s.gone cfg).foldl (fun s k => s.drop k.1 k.2) s).Indexed) ∧
      ∀ id r, ((s.gone cfg).foldl (fun s k => s.drop k.1 k.2) s).cams.get id = some r ↔
        s.cams.get id = some r ∧ (id, r) ∉ s.gone cfg := by
  have hget : ∀ id r, ((s.gone cfg).foldl (fun s k => s.drop k.1 k.2) s).cams.get id = some r ↔
      s.cams.get id = some r ∧ (id, r) ∉ s.gone cfg := by
    intro id r
    rw [dropAll_get]
    constructor
    · intro h
      split at h
      · cases h
      · next hmem => exact ⟨h, fun hin => hmem (List.mem_map_of_mem hin)⟩
    · rintro ⟨h, hin⟩
      rw [if_neg]
      · exact h
      · intro hmem
        rcases List.mem_map.1 hmem with ⟨⟨_, q⟩, hk, rfl⟩
        -- a camera has one runtime
        have hq := s.cams.get_eq_some_iff.2 (List.mem_filter.1 hk).1
        cases hq.symm.trans h
        exact hin hk
  refine ⟨dropAll_quiet _, fun h => ⟨fun id id' r hid hid' => ?_, fun id r hid => ?_⟩, hget⟩
  · exact h.single id id' r ((hget id r).1 hid).1 ((hget id' r).1 hid').1
  · rw [dropAll_length]
    exact h.bound id r ((hget id r).1 hid).1

section

variable [DecidableEq τ]

theorem configure_quiet (cam : Cam τ) : Quiet s (s.configure cam) := by
  unfold configure
  split
  · refine ⟨fun q => ?_, rfl, fun e ev' h => ⟨ev', h, rfl, id⟩, [], (List.append_nil _).symm, by simp⟩
    rw [openEvent, openEvent]
    by_cases hq : q < s.runtimes.length
    · rw [List.getElem?_append_left hq]
    · -- a new runtime has no event, as the place has not been there
      rw [List.getElem?_eq_none (Nat.le_of_not_lt hq), List.getElem?_append_right (Nat.le_of_not_lt hq)]
      cases q - s.runtimes.length with
      | zero => rfl
      | succ n => rfl
  · refine .of_runtime _ fun rt => ?_
    unfold Runtime.configure
    dsimp only
    split
    · rfl
    · rfl

theorem configure_get {cam : Cam τ} {id : Text} {r : Nat} :
    (s.cams.get id = some r → (s.configure cam).cams.get id = some r) ∧
      ((s.configure cam).cams.get id = some r →
        s.cams.get id = some r ∨ (id = cam.id ∧ r = s.runtimes.length)) := by
  unfold configure
  split
  · next hnone =>
      constructor
      · intro hget
        have hne : id ≠ cam.id := by
          rintro rfl
          rw [hnone] at hget
          cases hget
        rw [OrderedMap.get_set_ne _ hne]
        exact hget
      · intro hget
        rcases OrderedMap.get_set_cases hget with ⟨rfl, rfl⟩ | ⟨_, hold⟩
        · exact Or.inr ⟨rfl, rfl⟩
        · exact Or.inl hold
  · exact ⟨fun hget => hget, Or.inl⟩

theorem configure_length (cam : Cam τ) :
    s.runtimes.length ≤ (s.configure cam).runtimes.length ∧
      ∀ r, (s.configure cam).cams.get cam.id = some r → r < (s.configure cam).runtimes.length ∨
        s.cams.get cam.id = some r := by
  unfold configure
  split
  · next hnone =>
      constructor
      · simp
      · intro r hget
        rw [OrderedMap.get_set_self] at hget
        cases hget
        simp
  · constructor
    · simp [modifyRuntime]
    · exact fun r hget => Or.inr hget

theorem Indexed.configure (h : s.Indexed) (cam : Cam τ) : (s.configure cam).Indexed := by
  constructor
  · intro id id' r hid hid'
    rcases configure_get.2 hid with hold | ⟨rfl, rfl⟩
    · rcases configure_get.2 hid' with hold' | ⟨_, rfl⟩
      · exact h.single id id' r hold hold'
      · exact absurd (h.bound id _ hold) (Nat.lt_irrefl _)
    · rcases configure_get.2 hid' with hold' | ⟨rfl, _⟩
      · exact absurd (h.bound id' _ hold') (Nat.lt_irrefl _)
      · rfl
  · intro id r hget
    rcases configure_get.2 hget with hold | ⟨rfl, rfl⟩
    · exact Nat.lt_of_lt_of_le (h.bound id r hold) (configure_length cam).1
    · rcases (configure_length cam).2 _ hget with hlt | hold
      · exact hlt
      · exact absurd (h.bound _ _ hold) (Nat.lt_irrefl _)

/-- The cameras of a configuration, one after the other. -/
theorem configureAll (cams : List (Cam τ)) :
    Quiet s (cams.foldl configure s) ∧
      (s.Indexed → (cams.foldl configure s).Indexed) ∧
      ∀ id r, (s.cams.get id = some r →
          (cams.foldl configure s).cams.get id = some r) ∧
        ((cams.foldl configure s).cams.get id = some r →
          s.cams.get id = some r ∨ s.runtimes.length ≤ r) := by
  induction cams generalizing s with
  | nil =>
      exact ⟨.refl s, fun h => h, fun id r => ⟨fun h => h, Or.inl⟩⟩
  | cons cam cams ih =>
      obtain ⟨hq, hi, hget⟩ := ih (s := s.configure cam)
      refine ⟨(configure_quiet cam).trans hq, fun h => hi (h.configure cam), fun id r => ⟨?_, ?_⟩⟩
      · exact fun h => (hget id r).1 (configure_get.1 h)
      · intro h
        rcases (hget id r).2 h with hold | hlarge
        · rcases configure_get.2 hold with hold | ⟨_, rfl⟩
          · exact Or.inl hold
          · exact Or.inr (Nat.le_refl _)
        · exact Or.inr (Nat.le_trans (configure_length cam).1 hlarge)

/-- The table that `apply` leaves has the runtimes of the cameras that stay, and new ones. -/
theorem apply_spec (cfg : Config τ) :
    Quiet s (s.apply cfg) ∧ (s.Indexed → (s.apply cfg).Indexed) ∧
      ∀ id r, (s.cams.get id = some r → (id, r) ∉ s.gone cfg →
          (s.apply cfg).cams.get id = some r) ∧
        ((s.apply cfg).cams.get id = some r →
          (s.cams.get id = some r ∧ (id, r) ∉ s.gone cfg) ∨ s.runtimes.length ≤ r) := by
  let s₀ : CameraService τ := { s with enabled := cfg.enabled, nobodyHome := cfg.nobodyHome }
  have hset : Quiet s s₀ := .of_eq rfl rfl rfl
  have hindexed : s.Indexed → s₀.Indexed := fun h => ⟨h.single, h.bound⟩
  obtain ⟨hq, hi, hget⟩ := dropGone (s := s₀) cfg
  by_cases hon : cfg.enabled = true
  · -- enabled: the cameras that are left are configured again
    obtain ⟨hq', hi', hget'⟩ := configureAll (s := (s₀.gone cfg).foldl (fun s k => s.drop k.1 k.2) s₀)
      cfg.cameras
    have happly : s.apply cfg = cfg.cameras.foldl configure
        ((s₀.gone cfg).foldl (fun s k => s.drop k.1 k.2) s₀) := if_pos hon
    rw [happly]
    refine ⟨(hset.trans hq).trans hq', fun h => hi' (hi (hindexed h)), fun id r => ⟨?_, ?_⟩⟩
    · exact fun h hin => (hget' id r).1 ((hget id r).2 ⟨h, hin⟩)
    · intro h
      rcases (hget' id r).2 h with hold | hlarge
      · exact Or.inl ((hget id r).1 hold)
      · rw [dropAll_length] at hlarge
        exact Or.inr hlarge
  · have happly : s.apply cfg = (s₀.gone cfg).foldl (fun s k => s.drop k.1 k.2) s₀ := if_neg hon
    rw [happly]
    refine ⟨hset.trans hq, fun h => hi (hindexed h), fun id r => ⟨?_, ?_⟩⟩
    · exact fun h hin => (hget id r).2 ⟨h, hin⟩
    · exact fun h => Or.inl ((hget id r).1 h)

/-- The runtimes of the cameras that are gone leave the table. -/
theorem none_open_of_watched (cfg : Config τ) (hi : s.Indexed) :
    (s.apply cfg).Watched → ∀ k ∈ s.gone cfg, s.openEvent k.2 = none := by
  rintro hwatched ⟨id, r⟩ hk
  obtain ⟨hq, _, hget⟩ := apply_spec (s := s) cfg
  have hid : s.cams.get id = some r := s.cams.get_eq_some_iff.2 (List.mem_filter.1 hk).1
  cases hopen : s.openEvent r with
  | none => rfl
  | some e =>
      have hin := hwatched r e ((hq.openEvent r).trans hopen)
      rcases (OrderedMap.mem_values_iff _).1 hin with ⟨id', hid'⟩
      rcases (hget id' r).2 hid' with ⟨hold, hstays⟩ | hlarge
      · -- the runtime is in the table once
        rw [hi.single id' id r hold hid] at hstays
        exact absurd hk hstays
      · exact absurd (hi.bound id r hid) (Nat.not_lt.2 hlarge)

theorem Watched.apply (h : s.Watched) (cfg : Config τ)
    (hok : ∀ k ∈ s.gone cfg, s.openEvent k.2 = none) : (s.apply cfg).Watched := by
  intro r e hr
  obtain ⟨hq, _, hget⟩ := apply_spec (s := s) cfg
  rw [hq.openEvent] at hr
  rcases (OrderedMap.mem_values_iff _).1 (h r e hr) with ⟨id, hid⟩
  refine (OrderedMap.mem_values_iff _).2 ⟨id, (hget id r).1 hid fun hk => ?_⟩
  have hnone := hok (id, r) hk
  rw [hr] at hnone
  cases hnone

/-! ## Steps -/

/-- The table of the runtimes stays. -/
def SameTable (s s' : CameraService τ) : Prop :=
  s'.cams = s.cams ∧ s'.runtimes.length = s.runtimes.length

omit [DecidableEq τ] in
theorem sameTable_modify (r : Nat) (f : Runtime τ → Runtime τ) : SameTable s (s.modifyRuntime r f) :=
  ⟨rfl, List.length_modify ..⟩

omit [DecidableEq τ] in
theorem SameTable.trans (h : SameTable s s') (h' : SameTable s' t) : SameTable s t :=
  ⟨h'.1.trans h.1, h'.2.trans h.2⟩

omit [DecidableEq τ] in
theorem sameTable_startEvent (r : Nat) (rt : Runtime τ) (t : Int) (kinds : List EventKind)
    (opening : Option Opening) : SameTable s (s.startEvent r rt t kinds opening) :=
  ⟨rfl, List.length_modify ..⟩

omit [DecidableEq τ] in
theorem sameTable_onMessage (r : Nat) (t : Int) (msg : List (EventKind × Bool))
    (opening : Option Opening) : SameTable s (s.onMessage r t msg opening) := by
  have hobs := sameTable_modify (s := s) r (·.observe t msg)
  unfold onMessage
  split
  · exact ⟨rfl, rfl⟩
  · split
    · exact ⟨rfl, rfl⟩
    · dsimp only
      split
      · split
        · exact hobs.trans (sameTable_startEvent r _ t _ opening)
        · refine hobs.trans ?_
          unfold carryOn
          split
          · exact ⟨rfl, rfl⟩
          · dsimp only
            split
            · exact ⟨rfl, rfl⟩
            · exact ⟨rfl, rfl⟩
      · split
        · exact hobs
        · exact hobs

omit [DecidableEq τ] in
theorem sameTable_endEvent (r e : Nat) (t : Int) (force : Bool) (closing : Closing) :
    SameTable s (s.endEvent r e t force closing) := by
  have hmod := sameTable_modify (s := s) r fun rt => { rt with event := none }
  unfold endEvent
  dsimp only
  split
  · exact hmod
  · exact hmod

omit [DecidableEq τ] in
theorem sameTable_record (r : Nat) (t : Int) (ring : Ring) (closing : Closing) :
    SameTable s (s.record r t ring closing) := by
  unfold record
  split
  · exact ⟨rfl, rfl⟩
  · split
    · exact ⟨rfl, rfl⟩
    · next e _ =>
        split
        · exact ⟨rfl, rfl⟩
        · dsimp only
          split
          · exact sameTable_endEvent (s := s.modifyEvent e _) r e t _ closing
          · exact ⟨rfl, rfl⟩

omit [DecidableEq τ] in
theorem sameTable_visit (r : Nat) (t : Int) (connected : Bool) (closing : Closing) :
    SameTable s (s.visit r t connected closing) := by
  unfold visit
  split
  · exact ⟨rfl, rfl⟩
  · next rt _ =>
      split
      · exact sameTable_modify r _
      · have hstop : SameTable s (if rt.subscribed = true then s.modifyRuntime r Runtime.stopEvents
            else s) := by
          split
          · exact sameTable_modify r _
          · exact ⟨rfl, rfl⟩
        dsimp only
        split
        · exact hstop
        · exact hstop.trans (sameTable_endEvent r _ t true closing)

/-- What a step does, apart from `apply`. -/
theorem step_effect (h : s.Recorded) {a : Action τ} (hs : s.step a = some s')
    (ha : ∀ cfg, a ≠ .apply cfg) :
    Effect s s' (s.Orderly a) ∧ SameTable s s' := by
  cases a with
  | apply cfg =>
      exact absurd rfl (ha cfg)
  | onMessage r t msg opening =>
      cases hs
      exact ⟨onMessage_effect r t msg opening, sameTable_onMessage r t msg opening⟩
  | record id t ring closing =>
      rcases Option.map_eq_some_iff.1 hs with ⟨r, hr, rfl⟩
      have he := record_effect h r t ring closing
      simp only [Orderly, hr, Option.mem_def, Option.some.injEq, forall_eq'] at he ⊢
      exact ⟨he, sameTable_record r t ring closing⟩
  | tick t =>
      simp only [step] at hs
      split at hs
      · cases hs
        exact ⟨.quiet (.of_eq rfl rfl rfl) trivial, rfl, rfl⟩
      · cases hs
  | visit i r connected closing =>
      rcases Option.map_eq_some_iff.1 hs with ⟨t, _, rfl⟩
      exact ⟨visit_effect h r t connected closing, sameTable_visit r t connected closing⟩
  | cleanup e =>
      cases hs
      exact ⟨.quiet (.of_event e fun ev => ⟨rfl, fun hp => by cases hp⟩) trivial, rfl, rfl⟩
  | ticked i =>
      simp only [step] at hs
      split at hs
      · cases hs
        exact ⟨.quiet (.of_eq rfl rfl rfl) trivial, rfl, rfl⟩
      · cases hs
  | flush =>
      cases hs
      exact ⟨.quiet (.of_eq rfl rfl (EventQueue.queued_flush _)) trivial, rfl, rfl⟩
  | answered ok =>
      rcases Option.map_eq_some_iff.1 hs with ⟨q, hq, rfl⟩
      rcases Option.map_eq_some_iff.1 hq with ⟨p, _, rfl⟩
      exact ⟨.quiet (.of_eq rfl rfl (EventQueue.queued_answered _ p ok)) trivial, rfl, rfl⟩

/-- The invariant of every run. -/
def Consistent (s : CameraService τ) : Prop := s.Recorded ∧ s.Indexed

omit [DecidableEq τ] in
theorem new_consistent (reporter : Bool) : (new reporter : CameraService τ).Consistent :=
  ⟨new_recorded reporter, fun _ _ _ h => (by cases h), fun _ _ h => (by cases h)⟩

theorem Consistent.step (h : s.Consistent) {a : Action τ} (hs : s.step a = some s') :
    s'.Consistent := by
  by_cases ha : ∃ cfg, a = .apply cfg
  · rcases ha with ⟨cfg, rfl⟩
    cases hs
    obtain ⟨hq, hi, _⟩ := apply_spec (s := s) cfg
    exact ⟨h.1.quiet hq, hi h.2⟩
  · obtain ⟨he, hcams, hlen⟩ := step_effect h.1 hs fun cfg hcfg => ha ⟨cfg, hcfg⟩
    refine ⟨h.1.effect he, fun id id' r hid hid' => ?_, fun id r hid => ?_⟩
    · rw [hcams] at hid hid'
      exact h.2.single id id' r hid hid'
    · rw [hcams] at hid
      rw [hlen]
      exact h.2.bound id r hid

theorem accounted_step (h : s.Consistent) {a : Action τ} (hok : s.Orderly a)
    (hs : s.step a = some s') (hacc : s.Accounted) : s'.Accounted := by
  obtain ⟨hwatched, hclean⟩ := h.1.accounted_iff.1 hacc
  refine (h.step hs).1.accounted_iff.2 ?_
  by_cases ha : ∃ cfg, a = .apply cfg
  · rcases ha with ⟨cfg, rfl⟩
    cases hs
    exact ⟨hwatched.apply cfg hok, hclean.quiet (apply_spec cfg).1⟩
  · obtain ⟨he, hcams, _⟩ := step_effect h.1 hs fun cfg hcfg => ha ⟨cfg, hcfg⟩
    exact ⟨hwatched.effect hcams he hok, hclean.effect he hok⟩

theorem orderly_of_accounted (h : s.Consistent) {a : Action τ} (hs : s.step a = some s')
    (hacc : s'.Accounted) : s.Orderly a := by
  obtain ⟨hwatched, hclean⟩ := (h.step hs).1.accounted_iff.1 hacc
  by_cases ha : ∃ cfg, a = .apply cfg
  · rcases ha with ⟨cfg, rfl⟩
    cases hs
    exact none_open_of_watched cfg h.2 hwatched
  · obtain ⟨he, hcams, _⟩ := step_effect h.1 hs fun cfg hcfg => ha ⟨cfg, hcfg⟩
    exact he.ok_of h.1 hcams hwatched hclean

/-! ## Runs -/

/-- The events are accounted for in exactly the runs that drop no runtime with an open event, begin
no event on a dropped one and leave nothing of the clip of an event that they end. -/
theorem events_ended (reporter : Bool) (as : List (Action τ)) {s : CameraService τ}
    (h : exec step (new reporter) as = some s) :
    Throughout step Accounted (new reporter) as ↔ Admits step Orderly (new reporter) as := by
  constructor
  · exact admits_of_throughout (fun _ _ _ hi hs => Consistent.step hi hs)
      (fun _ _ _ hi hs hacc => orderly_of_accounted hi hs hacc) (new_consistent reporter) h
  · have hstep : ∀ (s : CameraService τ) a s', s.Consistent ∧ s.Accounted → s.Orderly a →
        s.step a = some s' → s'.Consistent ∧ s'.Accounted :=
      fun _ _ _ hi hok hs => ⟨hi.1.step hs, accounted_step hi.1 hok hs hi.2⟩
    refine throughout_of_admits hstep (fun _ hi => hi.2) ⟨new_consistent reporter, ?_⟩
    intro m hm
    cases hm

end

def frontDoor (record : Record) : Cam Nat := ⟨"c0000000000000a1".toList, 554, record, [.person]⟩

def watching (record : Record) : Config Nat := ⟨true, false, [frontDoor record]⟩

/-- A ring with segments of two seconds. -/
def ringOf (segs : List (Int × Content)) : Ring :=
  ⟨some 1, some (segs.map fun seg => ⟨seg.1, 2, some (seg.1 * 2000), seg.2⟩)⟩

def personSeen (t : Int) (content : Content) : Action Nat :=
  .onMessage 0 t [(.person, true)] (some ⟨ringOf [(1, .bytes 500), (2, content)], 100, true⟩)

/-- One event ends by itself; another ends when the camera may no longer record, and only then the
camera goes. -/
def attended : List (Action Nat) :=
  [.apply (watching .motion), .tick 1000, .visit 0 0 true .finished, .ticked 0,
    personSeen 5000 (.bytes 500), .flush, .answered true,
    .record "c0000000000000a1".toList 6000 (ringOf [(2, .bytes 500), (3, .bytes 500)]) .finished,
    .onMessage 0 7000 [(.person, false)] none,
    .record "c0000000000000a1".toList 17000 (ringOf [(4, .damaged)]) (.failed true),
    personSeen 20000 .missing, .apply (watching .never), .tick 25000, .visit 0 0 true .finished,
    .ticked 0, .apply ⟨true, false, []⟩, .apply ⟨false, false, []⟩]

theorem events_ended_attended : Throughout step Accounted (new true) attended := by
  have hrun : ∃ s, exec step (new true) attended = some s :=
    Option.isSome_iff_exists.1 (by decide +kernel)
  rcases hrun with ⟨s, hs⟩
  exact (events_ended true attended hs).2 (by decide +kernel)

/-- The camera is removed while its event is open. -/
def removed : List (Action Nat) :=
  [.apply (watching .motion), personSeen 5000 (.bytes 500), .apply ⟨true, false, []⟩]

/-- A message that was on its way begins an event after the camera has been removed. -/
def late : List (Action Nat) :=
  [.apply (watching .motion), .apply ⟨true, false, []⟩, personSeen 5000 (.bytes 500)]

/-- The second segment of the clip is damaged, so that the clip is not started; then the event
ends. -/
def damaged : List (Action Nat) :=
  [.apply (watching .motion), personSeen 5000 .damaged, .onMessage 0 7000 [(.person, false)] none,
    .record "c0000000000000a1".toList 17000 (ringOf [(3, .bytes 500)]) .finished]

/-- Events that are never ended, and one that ends without its clip being closed. -/
theorem events_left :
    (∃ s, exec step (new true) removed = some s ∧ ¬ s.Accounted) ∧
    (∃ s, exec step (new true) late = some s ∧ ¬ s.Accounted) ∧
    ∃ s, exec step (new true) damaged = some s ∧ ¬ s.Accounted := by
  have hleft : ∀ as ∈ [removed, late, damaged],
      (exec step (new true) as).any (fun s => decide (¬ s.Accounted)) = true := by
    decide +kernel
  have hbad : ∀ as ∈ [removed, late, damaged],
      ∃ s, exec step (new true) as = some s ∧ ¬ s.Accounted := by
    intro as has
    rcases (Option.any_eq_true ..).1 (hleft as has) with ⟨s, hs, hnot⟩
    exact ⟨s, hs, of_decide_eq_true hnot⟩
  exact ⟨hbad removed (by simp), hbad late (by simp), hbad damaged (by simp)⟩

end CameraService

end Cameras
end GateControl
