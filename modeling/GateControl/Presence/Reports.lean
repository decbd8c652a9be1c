import GateControl.Library.Ledger
import GateControl.Library.Transition
import GateControl.Presence.Presence
import Mathlib.Data.List.Chain

/-!
# Reports — what the server learns about who is at home

For each device the changes alternate, as long as it is in the settings.  A device is offline only
when there has been no sign of it for the time that is in force.  A change is accepted by the
server once, in its turn, unless it has been dropped from a full queue, or the feature has been
switched off before.
-/

namespace GateControl
namespace Presence

open Library

/-! ## Runs -/

/-- What becomes of a change. -/
inductive Fate where
  | accepted
  | dropped
  | cleared
  deriving DecidableEq

/-- A step at the time at which it is over. -/
structure Timed where
  now : Int
  action : Action

/-- A run so far: the changes and their fates, the batches that the server has accepted, and when
there was a sign of a device or when it was first looked for. -/
structure World where
  presence : Presence
  clock : Int
  generated : List Event
  ledger : Ledger Event Fate
  accepted : List (List Event)
  signs : List (Mac × Int)

section Ghost

variable (p : Presence)

/-- The changes that a step finds. -/
def generates (now : Int) : Action → List Event
  | .detected seen => p.changes seen now
  | _ => []

/-- The changes that leave the queue with a step.  Those of a batch that is under way when the
feature is switched off are cleared when it fails. -/
def settles (l : Ledger Event Fate) (now : Int) : Action → Ledger Event Fate
  | .apply cfg _ =>
      match cfg.enabled, p.phase with
      | true, _ => l
      | false, .posting _ => l
      | false, _ => l.settle p.queue.length .cleared
  | .detected seen =>
      (l.record (p.changes seen now)).settle
        (p.queue.length + (p.changes seen now).length - maxQueue) .dropped
  | .answered ok =>
      match p.phase with
      | .posting batch =>
          if ok then l.settle batch.length .accepted
          else if p.queue = [] then l.settle batch.length .cleared
          else l
      | _ => l
  | _ => l

/-- The batch that the server accepts. -/
def accepts : Action → List (List Event)
  | .answered true =>
      match p.phase with
      | .posting batch => [batch]
      | _ => []
  | _ => []

/-- The signs of devices, and when one is met for the first time. -/
def signals (now : Int) : Action → List (Mac × Int)
  | .apply cfg readAt =>
      if cfg.enabled then (cfg.macs.filter (!p.state.has ·)).map fun mac => (mac, readAt mac)
      else []
  | .detected seen => seen.map (·, now)
  | _ => []

end Ghost

/-- The clock does not go back, neither between two steps nor within one. -/
def Timed.InTime (clock : Int) (a : Timed) : Prop :=
  clock ≤ a.now ∧ match a.action with
    | .apply cfg readAt => ∀ mac ∈ cfg.macs, clock ≤ readAt mac ∧ readAt mac ≤ a.now
    | _ => True

instance (clock : Int) (a : Timed) : Decidable (a.InTime clock) := by
  unfold Timed.InTime
  cases a.action <;> exact inferInstance

namespace World

def start (now : Int) : World := ⟨.new, now, [], .empty, [], []⟩

def step (w : World) (a : Timed) : Option World :=
  if a.InTime w.clock then
    (w.presence.step a.now a.action).map fun p =>
      { presence := p
        clock := a.now
        generated := w.generated ++ w.presence.generates a.now a.action
        ledger := w.presence.settles w.ledger a.now a.action
        accepted := w.accepted ++ w.presence.accepts a.action
        signs := w.signs ++ w.presence.signals a.now a.action }
  else none

end World

/-! ## Steps -/

section Steps

variable {p p' : Presence} {now : Int} {a : Action}

/-- What a step does. -/
inductive Step (p : Presence) (now : Int) : Action → Presence → Prop where
  | apply (cfg : Config) (readAt : Mac → Int) : Step p now (.apply cfg readAt) (p.apply cfg readAt)
  | skip : Step p now .tick p
  | detect (hidle : p.phase = .idle) : Step p now .tick { p with phase := .detecting }
  | flush (hidle : p.phase = .idle) : Step p now .tick p.flush
  | detected (seen : List Mac) (hphase : p.phase = .detecting) :
      Step p now (.detected seen) (p.detected seen now)
  | failed (hphase : p.phase = .detecting) : Step p now .detectFailed { p with phase := .idle }
  | answered (batch : List Event) (ok : Bool) (hphase : p.phase = .posting batch) :
      Step p now (.answered ok) (p.answered batch ok)

/-- There is nothing to find for nobody. -/
theorem detected_of_nobody (hempty : p.state.entries = []) (seen : List Mac) (now : Int) :
    p.detected seen now = p.flush := by
  have hchanges : p.changes seen now = [] := by
    rw [changes, hempty]
    rfl
  have hstate : p.state.mapValues
      (fun mac st => (st.advance mac (mac ∈ seen) p.awayMs now).1) = p.state := by
    apply OrderedMap.eq_of_entries
    simp [OrderedMap.mapValues, hempty]
  simp only [detected, transitions, hchanges, hstate, enqueue, if_pos]

theorem Step.of_step (h : p.step now a = some p') : Step p now a p' := by
  cases a with
  | apply cfg readAt =>
      obtain rfl := Option.some.inj h
      exact .apply cfg readAt
  | tick =>
      obtain rfl := Option.some.inj h
      rw [Presence.tick]
      by_cases hskip : (!p.cfg.enabled || p.phase ≠ .idle) = true
      · rw [if_pos hskip]
        exact .skip
      · have hidle : p.phase = .idle := by
          simp only [Bool.or_eq_true, not_or, decide_eq_true_eq, not_not] at hskip
          exact hskip.2
        rw [if_neg hskip]
        split
        · rename_i hempty
          rw [detected_of_nobody hempty]
          exact .flush hidle
        · exact .detect hidle
  | detected seen =>
      obtain ⟨hphase, h⟩ := Option.ite_none_right_eq_some.1 h
      obtain rfl := Option.some.inj h
      exact .detected seen hphase
  | detectFailed =>
      obtain ⟨hphase, h⟩ := Option.ite_none_right_eq_some.1 h
      obtain rfl := Option.some.inj h
      exact .failed hphase
  | answered ok =>
      cases hphase : p.phase with
      | posting batch =>
          rw [Presence.step, hphase] at h
          obtain rfl := Option.some.inj h
          exact .answered batch ok hphase
      | idle =>
          rw [Presence.step, hphase] at h
          exact nomatch h
      | detecting =>
          rw [Presence.step, hphase] at h
          exact nomatch h

/-! ## The queue -/

/-- The queue is what has not left, but for a batch that is under way: it is the whole queue, which
may have been cleared meanwhile. -/
def Pending (p : Presence) (l : Ledger Event Fate) : Prop :=
  match p.phase with
  | .posting batch => l.pending = batch ∧ batch ≠ [] ∧ (p.queue = batch ∨ p.queue = [])
  | _ => l.pending = p.queue

variable {l : Ledger Event Fate}

theorem pending_flush (hl : l.pending = p.queue) (hshort : p.queue.length ≤ maxQueue) :
    Pending p.flush l := by
  unfold Presence.flush
  split
  · exact hl
  · rename_i hne
    rw [List.take_of_length_le hshort]
    exact ⟨hl, hne, .inl rfl⟩

theorem queue_flush : p.flush.queue = p.queue := by
  unfold Presence.flush
  split <;> rfl

theorem trim_eq_drop (queue : List Event) : trim queue = queue.drop (queue.length - maxQueue) := by
  unfold trim
  split
  · rfl
  · rename_i hle
    rw [Nat.sub_eq_zero_of_le (by omega), List.drop_zero]

/-- A queue that is not too long is trimmed as it is. -/
theorem queue_enqueue (hshort : p.queue.length ≤ maxQueue) (events : List Event) :
    (p.enqueue events).queue =
      (p.queue ++ events).drop (p.queue.length + events.length - maxQueue) := by
  unfold Presence.enqueue
  split
  · rename_i hnil
    rw [hnil, List.append_nil, List.length_nil, Nat.sub_eq_zero_of_le (by omega), List.drop_zero]
  · rw [← List.length_append]
    exact trim_eq_drop _

theorem detected_eq (seen : List Mac) : p.detected seen now =
    ((p.transitions seen now).1.enqueue (p.changes seen now)).flush := rfl

theorem Step.pending (h : Step p now a p') (hl : Pending p l)
    (hshort : p.queue.length ≤ maxQueue) :
    Pending p' (p.settles l now a) ∧ p'.queue.length ≤ maxQueue := by
  cases h with
  | apply cfg readAt =>
      cases henabled : cfg.enabled with
      | true =>
          have hqueue : (p.apply cfg readAt).queue = p.queue := by simp [Presence.apply, henabled]
          have hphase : (p.apply cfg readAt).phase = p.phase := rfl
          simp only [Pending, settles, henabled, hqueue, hphase]
          exact ⟨hl, hshort⟩
      | false =>
          have hqueue : (p.apply cfg readAt).queue = [] := by simp [Presence.apply, henabled]
          have hphase : (p.apply cfg readAt).phase = p.phase := rfl
          refine ⟨?_, by rw [hqueue]; exact Nat.zero_le _⟩
          simp only [Pending, settles, henabled, hqueue, hphase]
          cases hp : p.phase with
          | posting batch =>
              -- the batch is still under way
              rw [Pending, hp] at hl
              exact ⟨hl.1, hl.2.1, .inr trivial⟩
          | idle =>
              rw [Pending, hp] at hl
              simp [show l.pending = p.queue from hl]
          | detecting =>
              rw [Pending, hp] at hl
              simp [show l.pending = p.queue from hl]
  | skip =>
      exact ⟨hl, hshort⟩
  | detect hidle =>
      rw [Pending, hidle] at hl
      exact ⟨hl, hshort⟩
  | flush hidle =>
      rw [Pending, hidle] at hl
      refine ⟨pending_flush hl hshort, ?_⟩
      rw [queue_flush]
      exact hshort
  | detected seen hphase =>
      rw [Pending, hphase] at hl
      have hqueue := queue_enqueue (p := (p.transitions seen now).1) hshort (p.changes seen now)
      have hlong : ((p.transitions seen now).1.enqueue (p.changes seen now)).queue.length ≤
          maxQueue := by
        rw [hqueue, List.length_drop, List.length_append]
        have hsame : (p.transitions seen now).1.queue = p.queue := rfl
        rw [hsame]
        omega
      rw [detected_eq]
      refine ⟨pending_flush ?_ hlong, by rwa [queue_flush]⟩
      rw [hqueue, settles, Ledger.pending_settle, Ledger.pending_record,
        show l.pending = p.queue from hl]
      rfl
  | failed hphase =>
      rw [Pending, hphase] at hl
      exact ⟨hl, hshort⟩
  | answered batch ok hphase =>
      rw [Pending, hphase] at hl
      obtain ⟨hl, hne, hqueue⟩ := hl
      have hnothing : (p.queue.drop batch.length) = [] := by
        rcases hqueue with heq | heq <;> simp [heq]
      cases ok with
      | true =>
          simp only [Pending, Presence.answered, settles, hphase, if_true, hnothing]
          exact ⟨by simp [hl], Nat.zero_le _⟩
      | false =>
          refine ⟨?_, hshort⟩
          simp only [Pending, Presence.answered, settles, hphase]
          rcases hqueue with heq | heq
          · simp [heq, hne, hl]
          · simp [heq, hl]

/-- A step adds to the history what it finds. -/
theorem history_settles (p : Presence) (l : Ledger Event Fate) (now : Int) (a : Action) :
    (p.settles l now a).history = l.history ++ p.generates now a := by
  cases a with
  | apply cfg readAt =>
      simp only [settles, generates, List.append_nil]
      split
      · rfl
      · rfl
      · exact l.history_settle _ _
  | detected seen =>
      simp only [settles, generates, Ledger.history_settle, Ledger.history_record]
  | answered ok =>
      simp only [settles, generates, List.append_nil]
      cases p.phase with
      | posting batch =>
          dsimp only
          split
          · exact l.history_settle _ _
          · split
            · exact l.history_settle _ _
            · rfl
      | idle => rfl
      | detecting => rfl
  | tick =>
      exact (List.append_nil _).symm
  | detectFailed =>
      exact (List.append_nil _).symm

/-- What the server accepts leaves the queue as accepted, and nothing else does. -/
theorem Step.accepted (h : Step p now a p') (hl : Pending p l) :
    (p.settles l now a).those .accepted = l.those .accepted ++ (p.accepts a).flatten := by
  cases h with
  | apply cfg readAt =>
      simp only [settles, accepts, List.flatten_nil, List.append_nil]
      split
      · rfl
      · rfl
      · exact l.those_settle_ne (by decide) _
  | skip =>
      exact (List.append_nil _).symm
  | detect hidle =>
      exact (List.append_nil _).symm
  | flush hidle =>
      exact (List.append_nil _).symm
  | detected seen hphase =>
      rw [settles, Ledger.those_settle_ne _ (by decide), Ledger.those_record]
      exact (List.append_nil _).symm
  | failed hphase =>
      exact (List.append_nil _).symm
  | answered batch ok hphase =>
      rw [Pending, hphase] at hl
      cases ok with
      | true =>
          simp only [settles, accepts, hphase, if_true, Ledger.those_settle, hl.1,
            List.take_length, List.flatten_singleton]
      | false =>
          simp only [settles, accepts, hphase, List.flatten_nil, List.append_nil]
          split
          · contradiction
          · split
            · exact l.those_settle_ne (by decide) _
            · rfl

/-! ## The devices -/

/-- A device of the settings is met, or is known; another one is forgotten. -/
theorem get_apply (p : Presence) (cfg : Config) (readAt : Mac → Int) (mac : Mac) :
    (p.apply cfg readAt).state.get mac =
      if cfg.enabled = true ∧ mac ∈ cfg.macs then
        some ((p.state.get mac).getD ⟨none, none, readAt mac⟩)
      else none := by
  have hmacs : mac ∈ (if cfg.enabled then cfg.macs else []) ↔
      cfg.enabled = true ∧ mac ∈ cfg.macs := by
    cases cfg.enabled <;> simp
  simp only [Presence.apply, OrderedMap.get_addMissing, hmacs]
  by_cases hmem : cfg.enabled = true ∧ mac ∈ cfg.macs
  · rw [if_pos hmem, if_pos hmem]
    cases hget : p.state.get mac with
    | none =>
        have hkept : (p.state.filter fun mac _ =>
            mac ∈ (if cfg.enabled then cfg.macs else [])).get mac = none := by
          rw [Option.eq_none_iff_forall_ne_some]
          intro st hst
          rw [((OrderedMap.get_filter _ _).1 hst).1] at hget
          cases hget
        rw [hkept]
        rfl
    | some st =>
        have hkept : (p.state.filter fun mac _ =>
            mac ∈ (if cfg.enabled then cfg.macs else [])).get mac = some st :=
          (OrderedMap.get_filter _ _).2 ⟨hget, decide_eq_true (hmacs.2 hmem)⟩
        rw [hkept]
        rfl
  · have hgone : (p.state.filter fun mac _ =>
        mac ∈ (if cfg.enabled then cfg.macs else [])).get mac = none := by
      rw [Option.eq_none_iff_forall_ne_some]
      intro st hst
      exact hmem (hmacs.1 (of_decide_eq_true ((OrderedMap.get_filter _ _).1 hst).2))
    rw [hgone, if_neg hmem, if_neg hmem]
    rfl

theorem state_flush : p.flush.state = p.state := by
  unfold Presence.flush
  split <;> rfl

theorem get_detected (p : Presence) (seen : List Mac) (now : Int) (mac : Mac) :
    (p.detected seen now).state.get mac =
      (p.state.get mac).map fun st => (st.advance mac (mac ∈ seen) p.awayMs now).1 := by
  have hstate : ((p.transitions seen now).1.enqueue (p.changes seen now)).state =
      (p.transitions seen now).1.state := by
    unfold Presence.enqueue
    split <;> rfl
  rw [detected_eq, state_flush, hstate, transitions, OrderedMap.get_mapValues]

theorem advance_mac {st : Tracked} {mac : Mac} {seen : Bool} {awayMs now : Int} {e : Event}
    (h : (st.advance mac seen awayMs now).2 = some e) : e.mac = mac := by
  unfold Tracked.advance at h
  split at h
  · obtain ⟨-, h⟩ := Option.ite_none_right_eq_some.1 h
    obtain rfl := Option.some.inj h
    rfl
  · split at h
    · obtain rfl := Option.some.inj h
      rfl
    · exact nomatch h

/-- The changes of one device. -/
theorem filter_changes (p : Presence) (seen : List Mac) (now : Int) (mac : Mac) :
    (p.changes seen now).filter (·.mac = mac) =
      ((p.state.get mac).bind fun st =>
        (st.advance mac (mac ∈ seen) p.awayMs now).2).toList :=
  OrderedMap.filter_filterMap_entries
    (f := fun mac st => (st.advance mac (mac ∈ seen) p.awayMs now).2)
    (fun _ _ _ h => advance_mac h) p.state mac

/-- The device stays in the settings. -/
def Keeps (mac : Mac) : Action → Prop
  | .apply cfg _ => cfg.enabled = true ∧ mac ∈ cfg.macs
  | _ => True

/-- A change is one from what was known of the device. -/
theorem advance_online (st : Tracked) (mac : Mac) (seen : Bool) (awayMs now : Int) :
    ((st.advance mac seen awayMs now).2 = none ∧
      (st.advance mac seen awayMs now).1.online = st.online) ∨
    ∃ e, (st.advance mac seen awayMs now).2 = some e ∧ st.online ≠ some e.online ∧
      (st.advance mac seen awayMs now).1.online = some e.online := by
  unfold Tracked.advance
  split
  · by_cases honline : st.online = some true
    · exact .inl (by simp [honline])
    · exact .inr ⟨⟨mac, true, now, some now⟩, by simp [honline]⟩
  · split
    · rename_i haway
      exact .inr ⟨⟨mac, false, now, st.lastSeen⟩, rfl, haway.1, rfl⟩
    · exact .inl ⟨rfl, rfl⟩

/-- A device that stays in the settings has at most one change in a step. -/
theorem Step.device (h : Step p now a p') {mac : Mac} (hkeeps : Keeps mac a) {st : Tracked}
    (hst : p.state.get mac = some st) :
    ∃ st', p'.state.get mac = some st' ∧
      (((p.generates now a).filter (·.mac = mac) = [] ∧ st'.online = st.online) ∨
        ∃ e, (p.generates now a).filter (·.mac = mac) = [e] ∧ st.online ≠ some e.online ∧
          st'.online = some e.online) := by
  cases h with
  | apply cfg readAt =>
      refine ⟨st, ?_, .inl ⟨rfl, rfl⟩⟩
      rw [get_apply, if_pos (by exact hkeeps), hst]
      rfl
  | skip =>
      exact ⟨st, hst, .inl ⟨rfl, rfl⟩⟩
  | detect hidle =>
      exact ⟨st, hst, .inl ⟨rfl, rfl⟩⟩
  | flush hidle =>
      exact ⟨st, by rwa [state_flush], .inl ⟨rfl, rfl⟩⟩
  | detected seen hphase =>
      refine ⟨_, by rw [get_detected, hst]; rfl, ?_⟩
      rw [generates, filter_changes, hst, Option.bind_some]
      rcases advance_online st mac (mac ∈ seen) p.awayMs now with ⟨hnone, hsame⟩ | ⟨e, he, hchange⟩
      · exact .inl ⟨by rw [hnone]; rfl, hsame⟩
      · exact .inr ⟨e, by rw [he]; rfl, hchange⟩
  | failed hphase =>
      exact ⟨st, hst, .inl ⟨rfl, rfl⟩⟩
  | answered batch ok hphase =>
      exact ⟨st, hst, .inl ⟨rfl, rfl⟩⟩

/-- Every sign of a device is at its last one, or before. -/
def Dated (p : Presence) (signs : List (Mac × Int)) : Prop :=
  ∀ mac st, p.state.get mac = some st → ∀ t, (mac, t) ∈ signs → t ≤ st.lastSign

theorem advance_lastSign (st : Tracked) (mac : Mac) (seen : Bool) (awayMs now : Int) :
    (st.advance mac seen awayMs now).1.lastSign = if seen then now else st.lastSign := by
  unfold Tracked.advance Tracked.lastSign
  split
  · rfl
  · split <;> rfl

theorem mem_signals_apply {cfg : Config} {readAt : Mac → Int} {s : Mac × Int}
    (h : s ∈ p.signals now (.apply cfg readAt)) :
    s.1 ∈ cfg.macs ∧ p.state.get s.1 = none ∧ s.2 = readAt s.1 := by
  rw [signals] at h
  split at h
  · obtain ⟨mac, hmac, rfl⟩ := List.mem_map.1 h
    obtain ⟨hmem, hhas⟩ := List.mem_filter.1 hmac
    refine ⟨hmem, ?_, rfl⟩
    simpa [OrderedMap.has] using hhas
  · exact absurd h List.not_mem_nil

theorem Step.past (h : Step p now a p') {signs : List (Mac × Int)} {clock : Int}
    (hpast : ∀ s ∈ signs, s.2 ≤ clock) (htime : Timed.InTime clock ⟨now, a⟩) :
    ∀ s ∈ signs ++ p.signals now a, s.2 ≤ now := by
  intro s hs
  rcases List.mem_append.1 hs with hold | hnew
  · exact Int.le_trans (hpast s hold) htime.1
  · cases h with
    | apply cfg readAt =>
        obtain ⟨hmem, -, hread⟩ := mem_signals_apply hnew
        rw [hread]
        exact (htime.2 _ hmem).2
    | detected seen hphase =>
        obtain ⟨mac, -, rfl⟩ := List.mem_map.1 hnew
        exact Int.le_refl _
    | _ => exact absurd hnew List.not_mem_nil

theorem Step.dated (h : Step p now a p') {signs : List (Mac × Int)} {clock : Int}
    (hdated : Dated p signs) (hpast : ∀ s ∈ signs, s.2 ≤ clock)
    (htime : Timed.InTime clock ⟨now, a⟩) : Dated p' (signs ++ p.signals now a) := by
  have hquiet : p.signals now a = [] → p'.state = p.state →
      Dated p' (signs ++ p.signals now a) := by
    intro hnone hsame
    rw [hnone, List.append_nil, Dated, hsame]
    exact hdated
  cases h with
  | apply cfg readAt =>
      intro mac st hst t ht
      rw [get_apply] at hst
      obtain ⟨⟨-, hmem⟩, hst⟩ := Option.ite_none_right_eq_some.1 hst
      cases hget : p.state.get mac with
      | some known =>
          -- a device that is known is not met
          rw [hget] at hst
          obtain rfl := Option.some.inj hst
          rcases List.mem_append.1 ht with hold | hnew
          · exact hdated mac _ hget t hold
          · exact absurd ((mem_signals_apply hnew).2.1.symm.trans hget) (by simp)
      | none =>
          rw [hget] at hst
          obtain rfl := Option.some.inj hst
          rcases List.mem_append.1 ht with hold | hnew
          · exact Int.le_trans (hpast _ hold) (htime.2 mac hmem).1
          · exact Int.le_of_eq (mem_signals_apply hnew).2.2
  | detected seen hphase =>
      intro mac st hst t ht
      rw [get_detected] at hst
      obtain ⟨old, hold, rfl⟩ := Option.map_eq_some_iff.1 hst
      rw [advance_lastSign]
      rcases List.mem_append.1 ht with hsign | hnew
      · split
        · exact Int.le_trans (hpast _ hsign) htime.1
        · exact hdated mac old hold t hsign
      · obtain ⟨mac', hseen, heq⟩ := List.mem_map.1 hnew
        obtain ⟨rfl, rfl⟩ := Prod.mk.inj heq
        exact Int.le_of_eq (if_pos (decide_eq_true hseen)).symm
  | flush hidle => exact hquiet rfl state_flush
  | _ => exact hquiet rfl rfl

theorem advance_offline {st : Tracked} {mac : Mac} {seen : Bool} {awayMs now : Int} {e : Event}
    (h : (st.advance mac seen awayMs now).2 = some e) (hoffline : e.online = false) :
    seen = false ∧ e.time = now ∧ awayMs ≤ now - st.lastSign := by
  unfold Tracked.advance at h
  split at h
  · obtain ⟨-, h⟩ := Option.ite_none_right_eq_some.1 h
    obtain rfl := Option.some.inj h
    exact nomatch hoffline
  · rename_i hseen
    split at h
    · rename_i haway
      obtain rfl := Option.some.inj h
      exact ⟨Bool.eq_false_iff.2 hseen, rfl, haway.2⟩
    · exact nomatch h

theorem cfg_detected (p : Presence) (seen : List Mac) (now : Int) :
    (p.detected seen now).cfg = p.cfg := by
  rw [detected_eq, Presence.flush, Presence.enqueue]
  split <;> split <;> rfl

/-- A device that is found offline has not given a sign for the time that is in force. -/
theorem Step.away (h : Step p now a p') {signs : List (Mac × Int)} (hdated : Dated p signs)
    {e : Event} (he : e ∈ p.generates now a) (hoffline : e.online = false) {t : Int}
    (ht : (e.mac, t) ∈ signs ++ p.signals now a) : p'.cfg.awayAfterSec * 1000 ≤ e.time - t := by
  cases h with
  | detected seen hphase =>
      obtain ⟨⟨mac, st⟩, hentry, hadvance⟩ := List.mem_filterMap.1 he
      obtain rfl : e.mac = mac := advance_mac hadvance
      obtain ⟨hunseen, htime, haway⟩ := advance_offline hadvance hoffline
      rw [cfg_detected, htime]
      rcases List.mem_append.1 ht with hsign | hnew
      · have hlast := hdated e.mac st ((OrderedMap.get_eq_some_iff _).2 hentry) t hsign
        have haway : p.awayMs ≤ now - st.lastSign := haway
        have hms : p.cfg.awayAfterSec * 1000 = p.awayMs := rfl
        omega
      · obtain ⟨mac', hseen, heq⟩ := List.mem_map.1 hnew
        rw [← (Prod.mk.inj heq).1] at hunseen
        exact absurd hseen (of_decide_eq_false hunseen)
  | _ => exact absurd he List.not_mem_nil

end Steps

/-! ## Worlds -/

namespace World

structure Consistent (w : World) : Prop where
  generated : w.generated = w.ledger.history
  accepted : w.accepted.flatten = w.ledger.those .accepted
  short : w.presence.queue.length ≤ maxQueue
  pending : Pending w.presence w.ledger
  past : ∀ s ∈ w.signs, s.2 ≤ w.clock
  dated : Dated w.presence w.signs

variable {w w' : World} {a : Timed}

theorem step_eq_some (h : w.step a = some w') :
    a.InTime w.clock ∧ ∃ p, Step w.presence a.now a.action p ∧ w' =
      { presence := p
        clock := a.now
        generated := w.generated ++ w.presence.generates a.now a.action
        ledger := w.presence.settles w.ledger a.now a.action
        accepted := w.accepted ++ w.presence.accepts a.action
        signs := w.signs ++ w.presence.signals a.now a.action } := by
  obtain ⟨htime, h⟩ := Option.ite_none_right_eq_some.1 h
  obtain ⟨p, hp, rfl⟩ := Option.map_eq_some_iff.1 h
  exact ⟨htime, p, .of_step hp, rfl⟩

theorem consistent_start (now : Int) : (start now).Consistent where
  generated := rfl
  accepted := rfl
  short := Nat.zero_le _
  pending := rfl
  past := fun _ hs => absurd hs List.not_mem_nil
  dated := fun _ _ _ _ ht => absurd ht List.not_mem_nil

theorem Consistent.step (h : w.Consistent) (hs : w.step a = some w') : w'.Consistent := by
  obtain ⟨htime, p, hp, rfl⟩ := step_eq_some hs
  obtain ⟨hpending, hshort⟩ := hp.pending h.pending h.short
  exact {
    generated := by rw [history_settles, h.generated]
    accepted := by rw [List.flatten_append, h.accepted, hp.accepted h.pending]
    short := hshort
    pending := hpending
    past := hp.past h.past htime
    dated := hp.dated h.dated h.past htime }

theorem consistent_of_exec {now : Int} {as : List Timed} (h : exec step (start now) as = some w) :
    w.Consistent :=
  exec_invariant (fun _ _ _ hi hs => hi.step hs) (consistent_start now) h

/-- While a device stays in the settings its changes alternate. -/
theorem alternates {mac : Mac} {as : List Timed} (hrun : exec step w as = some w')
    (hkeeps : ∀ a ∈ as, Keeps mac a.action) {st : Tracked}
    (hst : w.presence.state.get mac = some st) :
    ∃ new, w'.generated = w.generated ++ new ∧
      (new.filter (·.mac = mac)).IsChain (fun a b => a.online ≠ b.online) ∧
      ∀ e ∈ (new.filter (·.mac = mac)).head?, st.online ≠ some e.online := by
  induction as generalizing w st with
  | nil =>
      obtain rfl := Option.some.inj hrun
      exact ⟨[], (List.append_nil _).symm, .nil, fun e he => nomatch he⟩
  | cons a as ih =>
      obtain ⟨v, hstep, hrun⟩ := exec_cons.1 hrun
      obtain ⟨-, p, hp, rfl⟩ := step_eq_some hstep
      obtain ⟨st', hst', hchange⟩ := hp.device (hkeeps a List.mem_cons_self) hst
      obtain ⟨new, hnew, hchain, hfirst⟩ :=
        ih hrun (fun b hb => hkeeps b (List.mem_cons_of_mem _ hb)) hst'
      refine ⟨w.presence.generates a.now a.action ++ new, by rw [hnew, List.append_assoc], ?_⟩
      rw [List.filter_append]
      rcases hchange with ⟨hnone, hsame⟩ | ⟨e, hone, hnew, honline⟩
      · rw [hnone, List.nil_append, ← hsame]
        exact ⟨hchain, hfirst⟩
      · rw [hone, List.singleton_append]
        refine ⟨List.isChain_cons.2 ⟨fun next hnext => ?_, hchain⟩, ?_⟩
        · have hne := hfirst next hnext
          rw [honline] at hne
          exact fun heq => hne (congrArg some heq)
        · intro e' he'
          obtain rfl : e = e' := Option.some.inj he'
          exact hnew

end World

open World

/-- After every run: what the server has accepted is what has been found, in this order, but for
what has been dropped from a full queue, what has been cleared and what is still to be reported.
A device that is found offline next has given no sign for long enough, and the changes of a device
that stays in the settings alternate. -/
theorem changes_are_reported {now : Int} {as : List Timed} {w : World}
    (h : exec World.step (.start now) as = some w) :
    (w.accepted.flatten = w.ledger.those .accepted ∧
      w.generated = w.ledger.settled.map Prod.fst ++ w.ledger.pending ∧
      w.presence.queue.length ≤ maxQueue ∧ Pending w.presence w.ledger) ∧
    (∀ a w', w.step a = some w' →
      ∀ e ∈ w'.generated.drop w.generated.length, e.online = false →
        ∀ t, (e.mac, t) ∈ w'.signs → w'.presence.cfg.awayAfterSec * 1000 ≤ e.time - t) ∧
    (∀ mac as' w', w.presence.state.has mac = true → (∀ a ∈ as', Keeps mac a.action) →
      exec World.step w as' = some w' →
      ((w'.generated.drop w.generated.length).filter (·.mac = mac)).IsChain
        fun a b => a.online ≠ b.online) := by
  have hw := consistent_of_exec h
  refine ⟨⟨hw.accepted, hw.generated, hw.short, hw.pending⟩, ?_, ?_⟩
  · intro a w' hs e he hoffline t ht
    obtain ⟨-, p, hp, rfl⟩ := step_eq_some hs
    rw [List.drop_left] at he
    exact hp.away hw.dated he hoffline ht
  · intro mac as' w' hmac hkeeps hrun
    obtain ⟨st, hst⟩ := (OrderedMap.mem_keys_iff _).1 ((OrderedMap.has_iff _).1 hmac)
    obtain ⟨new, hnew, hchain, -⟩ := alternates hrun hkeeps hst
    rw [hnew, List.drop_left]
    exact hchain

/-- A report fails, the next one is under way when the feature is switched off, and is accepted. -/
def evening : List Timed :=
  let phone : Mac := "aa:bb:cc:00:00:01".toList
  [⟨0, .apply ⟨true, [phone], 60⟩ fun _ => 0⟩, ⟨5000, .tick⟩, ⟨6000, .detected [phone]⟩,
    ⟨7000, .answered false⟩, ⟨65000, .tick⟩, ⟨66000, .detected []⟩, ⟨67000, .answered true⟩,
    ⟨68000, .apply ⟨true, [phone], 60⟩ fun _ => 68000⟩, ⟨125000, .tick⟩, ⟨126000, .detected [phone]⟩,
    ⟨127000, .apply ⟨false, [], 60⟩ fun _ => 127000⟩, ⟨128000, .answered true⟩]

theorem changes_are_reported_evening :
    ∃ w, exec World.step (.start 0) evening = some w ∧
      w.accepted.flatten.map (fun e => (e.online, e.time)) =
        [(true, 6000), (false, 66000), (true, 126000)] ∧
      w.accepted.flatten = w.ledger.those .accepted := by
  refine ⟨_, rfl, by decide, ?_⟩
  have hrun : exec World.step (.start 0) evening = some _ := rfl
  exact (changes_are_reported hrun).1.1

end Presence
end GateControl
