import GateControl.Edge.MqttPackets
import GateControl.Library.Transition

/-!
# MqttRequests — the requests of the MQTT client and their answers

A request is written with a packet id, and `pending` names the request that an acknowledgement with
that id settles.  Each request has a timer, and the end of a connection rejects all requests that
`pending` names.

There are 65535 ids, and they are given out one after the other.  An id that comes again while a
request still waits with it takes the place of that request in `pending`; what happens then is what
`Correct` rules out.
-/

namespace GateControl
namespace Edge

open Library

namespace MqttClient

/-! ## The client -/

/-- How a request is settled: with the answer that came for it, or with an error. -/
inductive Settlement
  | acknowledged (granted : Option Bytes)
  | timedOut
  | closed
  | notConnected
  deriving DecidableEq

/-- Sockets and requests are numbered in the order they are made.  `timers` are those that run, with
the id their request was written with.  `written` and `settled` are there only to be talked about:
the packets of requests, and each call of `resolve` and `reject`. -/
structure Client where
  sockets : Nat
  sock : Option Nat
  connected : Bool
  nextId : Nat
  pending : OrderedMap Nat Nat
  requests : Nat
  timers : OrderedMap Nat Nat
  written : List (Nat × Nat)
  settled : List (Nat × Settlement)
  deriving DecidableEq

namespace Client

def new : Client := ⟨0, none, false, 0, .empty, 0, .empty, [], []⟩

variable (s : Client)

/-- The id that `id()` gives out. -/
def freshId : Nat := s.nextId % 65535 + 1

/-- A request is settled, and its timer is stopped. -/
def settle (r : Nat) (o : Settlement) : Client :=
  { s with timers := s.timers.delete r, settled := s.settled ++ [(r, o)] }

def settleAll (o : Settlement) (rs : List Nat) : Client := rs.foldl (fun s r => s.settle r o) s

def request : Client :=
  if s.connected && s.sock.isSome then
    { s with
      nextId := s.freshId
      requests := s.requests + 1
      timers := s.timers.set s.requests s.freshId
      -- whatever stood under the id before is replaced
      pending := s.pending.set s.freshId s.requests
      written := s.written ++ [(s.requests, s.freshId)] }
  else
    -- there is nothing to write on
    { s with
      requests := s.requests + 1
      settled := s.settled ++ [(s.requests, .notConnected)] }

/-- What an effect of a packet does to the requests; `pending` is as it was before. -/
def answer (pending : OrderedMap Nat Nat) : Effect → Client
  | .settled id granted =>
      match pending.get id with
      | some r => s.settle r (.acknowledged granted)
      | none => s
  | .write _ => s
  | .message _ _ _ _ => s

def received (p : Packet) : Option Client :=
  (onPacket s.pending p).map fun r =>
    r.2.foldl (fun t e => t.answer s.pending e) { s with pending := r.1 }

/-- The timer of a request fires: the entry under its id goes. -/
def timeout (r id : Nat) : Client :=
  { s with pending := s.pending.delete id }.settle r .timedOut

/-- The `close` event of a socket. -/
def closed (k : Nat) : Client :=
  { s.settleAll .closed s.pending.values with
    connected := false
    pending := .empty
    sock := if s.sock = some k then none else s.sock }

inductive Action
  | connect
  /-- A `CONNACK` without an error. -/
  | connack
  | request
  | packet (p : Packet)
  | timeout (r : Nat)
  | closed (k : Nat)
  /-- `end()`; the socket closes later. -/
  | finish

def step : Action → Option Client
  | .connect => some { s with sockets := s.sockets + 1, sock := some s.sockets }
  | .connack => some { s with connected := true }
  | .request => some s.request
  | .packet p => s.received p
  | .timeout r => (s.timers.get r).map fun id => s.timeout r id
  | .closed k => if k < s.sockets then some (s.closed k) else none
  | .finish => some { s with connected := false }

/-! ## What is asked of a run -/

/-- A request that is not settled yet, with its id. -/
def Outstanding (r id : Nat) : Prop := s.timers.get r = some id

/-- How often a request has been settled. -/
def settlements (r : Nat) : Nat := (s.settled.map Prod.fst).count r

/-- No two outstanding requests have the same id, and every request is outstanding or has been
settled once. -/
structure Sound : Prop where
  distinct : ∀ r r' id, s.Outstanding r id → s.Outstanding r' id → r = r'
  once : ∀ r < s.requests, s.settlements r = if s.timers.has r then 0 else 1

/-- An acknowledgement resolves the only request that has been written with its id, and a timeout
takes no entry of another request away. -/
structure Correlated (a : Action) (s' : Client) : Prop where
  resolved : ∀ r granted, (r, .acknowledged granted) ∈ s'.settled.drop s.settled.length →
    ∃ p id, a = .packet p ∧ (p.type = typePuback ∨ p.type = typeSuback ∨ p.type = typeUnsuback) ∧
      readUInt16BE p.body 0 = some id ∧ (r, id) ∈ s.written ∧ s.Outstanding r id ∧
      ∀ r', s.Outstanding r' id → r' = r
  timeout : ∀ r, a = .timeout r → ∀ id r', r' ≠ r → s.pending.get id = some r' →
    s'.pending.get id = some r'

def Correct (a : Action) : Prop := ∀ s', s.step a = some s' → s'.Sound ∧ s.Correlated a s'

/-- The id of a request that is made is not that of an outstanding one. -/
def IdFree : Action → Prop
  | .request => s.connected = true → s.sock.isSome = true → ∀ r, ¬ s.Outstanding r s.freshId
  | _ => True

/-! ## What holds in every run -/

/-- What `pending` names is outstanding under that id, and what is outstanding has been made and
written; the others have been settled once. -/
structure Booked : Prop where
  pending : ∀ id r, s.pending.get id = some r → s.Outstanding r id
  made : ∀ r id, s.Outstanding r id → r < s.requests
  written : ∀ r id, s.Outstanding r id → (r, id) ∈ s.written
  once : ∀ r, s.settlements r = if r < s.requests ∧ s.timers.has r = false then 1 else 0

/-- In a run in which ids come back only after they are free. -/
structure Tidy : Prop where
  booked : s.Booked
  distinct : ∀ r r' id, s.Outstanding r id → s.Outstanding r' id → r = r'
  named : ∀ r id, s.Outstanding r id → s.pending.get id = some r

variable {s} {s' : Client} {r id : Nat}

/-! ## What the steps do -/

/-- A packet settles no request, or the one that `pending` names under its id. -/
theorem received_cases {p : Packet} (h : s.received p = some s') :
    s' = s ∨ ∃ id r granted, (p.type = typePuback ∨ p.type = typeSuback ∨ p.type = typeUnsuback) ∧
      readUInt16BE p.body 0 = some id ∧ s.pending.get id = some r ∧
      s' = ({ s with pending := s.pending.delete id } : Client).settle r
        (.acknowledged granted) := by
  obtain ⟨⟨pending, effects⟩, hpacket, rfl⟩ := Option.map_eq_some_iff.1 h
  unfold onPacket at hpacket
  split at hpacket
  · -- a message is handed on, and perhaps confirmed
    left
    obtain ⟨tl, _, hrest⟩ := Option.bind_eq_some_iff.1 hpacket
    simp only at hrest
    split at hrest
    · obtain ⟨id, _, hend⟩ := Option.bind_eq_some_iff.1 hrest
      cases hend
      split <;> rfl
    · cases hrest
      rfl
  · split at hpacket
    · -- an acknowledgement, of a request that waits or of none
      next hack =>
        obtain ⟨id, hid, hrest⟩ := Option.bind_eq_some_iff.1 hpacket
        split at hrest
        · next hhas =>
            obtain ⟨r, hr⟩ := Option.isSome_iff_exists.1 hhas
            cases hrest
            refine Or.inr ⟨id, r, if p.type = typeSuback then some (p.body.drop 2) else none, hack,
              hid, hr, ?_⟩
            simp only [List.foldl_cons, List.foldl_nil, answer, hr]
        · cases hrest
          exact Or.inl rfl
    · cases hpacket
      exact Or.inl rfl

theorem outstanding_settle {o : Settlement} {r' : Nat} :
    (s.settle r o).Outstanding r' id ↔ r' ≠ r ∧ s.Outstanding r' id := by
  unfold Outstanding settle
  rw [OrderedMap.get_delete]
  by_cases hr : r' = r
  · simp [hr]
  · simp [hr]

theorem settlements_settle {o : Settlement} {r' : Nat} :
    (s.settle r o).settlements r' = s.settlements r' + if r' = r then 1 else 0 := by
  simp only [settlements, settle, List.map_append, List.count_append, List.map_singleton,
    List.count_singleton]
  by_cases hr : r' = r
  · simp [hr]
  · simp [hr, Ne.symm hr]

theorem settleAll_spec (o : Settlement) {rs : List Nat} (hn : rs.Nodup) (s : Client) :
    (∀ r id, (s.settleAll o rs).Outstanding r id ↔ r ∉ rs ∧ s.Outstanding r id) ∧
      (∀ r, (s.settleAll o rs).settlements r = s.settlements r + if r ∈ rs then 1 else 0) ∧
      (s.settleAll o rs).requests = s.requests ∧ (s.settleAll o rs).written = s.written ∧
      (s.settleAll o rs).settled = s.settled ++ rs.map fun r => (r, o) := by
  induction rs generalizing s with
  | nil =>
      simp [settleAll]
  | cons r rs ih =>
      -- the requests differ, so the first is not settled again with the others
      obtain ⟨hnot, hn'⟩ := List.nodup_cons.1 hn
      obtain ⟨hout, hcount, hreq, hwritten, hsettled⟩ := ih hn' (s.settle r o)
      refine ⟨?_, ?_, hreq, hwritten, ?_⟩
      · intro r' id
        change ((s.settle r o).settleAll o rs).Outstanding r' id ↔ _
        rw [hout, outstanding_settle, List.mem_cons, not_or]
        grind
      · intro r'
        change ((s.settle r o).settleAll o rs).settlements r' = _
        rw [hcount, settlements_settle]
        by_cases hr : r' = r
        · simp [hr, hnot]
        · simp [hr]
      · change ((s.settle r o).settleAll o rs).settled = _
        rw [hsettled, settle, List.append_assoc]
        rfl

/-- Each request stands in `pending` at most once. -/
theorem Booked.nodup (h : s.Booked) : s.pending.values.Nodup := by
  -- a request has one timer, and so one id
  have hinj : ∀ e ∈ s.pending.entries, ∀ e' ∈ s.pending.entries, e.2 = e'.2 → e = e' := by
    intro e he e' he' heq
    have hget := h.pending e.1 e.2 (s.pending.get_eq_some_iff.2 he)
    have hget' := h.pending e'.1 e'.2 (s.pending.get_eq_some_iff.2 he')
    rw [heq] at hget
    exact Prod.ext (Option.some.inj (hget.symm.trans hget')) heq
  exact (List.Nodup.of_map _ s.pending.nodup).map_on hinj

theorem has_timer : s.timers.has r = true ↔ ∃ id, s.Outstanding r id :=
  Option.isSome_iff_exists

/-- An outstanding request is settled. -/
theorem Booked.settle (h : s.Booked) {o : Settlement} {pending : OrderedMap Nat Nat}
    (hr : s.Outstanding r id)
    (hpending : ∀ id' r', pending.get id' = some r' → r' ≠ r ∧ s.pending.get id' = some r') :
    (({ s with pending := pending } : Client).settle r o).Booked where
  pending id' r' hget := by
    obtain ⟨hne, hold⟩ := hpending id' r' hget
    exact outstanding_settle.2 ⟨hne, h.pending id' r' hold⟩
  made r' id' hout := h.made r' id' (outstanding_settle.1 hout).2
  written r' id' hout := h.written r' id' (outstanding_settle.1 hout).2
  once r' := by
    have hold := h.once r'
    have htimer : (({ s with pending := pending } : Client).settle r o).timers.has r' = true ↔
        r' ≠ r ∧ s.timers.has r' = true := by
      rw [has_timer, has_timer]
      constructor
      · rintro ⟨id', hout⟩
        exact ⟨(outstanding_settle.1 hout).1, id', (outstanding_settle.1 hout).2⟩
      · rintro ⟨hne, id', hout⟩
        exact ⟨id', outstanding_settle.2 ⟨hne, hout⟩⟩
    have hcount : (({ s with pending := pending } : Client).settle r o).settlements r' =
        s.settlements r' + if r' = r then 1 else 0 := settlements_settle
    have hreq : (({ s with pending := pending } : Client).settle r o).requests = s.requests := rfl
    rw [hcount, hold, hreq]
    by_cases heq : r' = r
    · -- it had not been settled before
      have hlt := h.made r id hr
      have hhas : s.timers.has r = true := has_timer.2 ⟨id, hr⟩
      have hgone := mt htimer.1 fun hb => hb.1 heq
      simp [heq, hlt, hhas, Bool.eq_false_iff.2 (heq ▸ hgone)]
    · have hsame : (({ s with pending := pending } : Client).settle r o).timers.has r' =
          s.timers.has r' := by
        rw [Bool.eq_iff_iff, htimer]
        exact and_iff_right heq
      rw [hsame, if_neg heq, Nat.add_zero]

theorem new_booked : new.Booked where
  pending := fun _ _ h => by cases h
  made := fun _ _ h => by cases h
  written := fun _ _ h => by cases h
  once := fun _ => rfl

/-- The number of the next request is new. -/
theorem Booked.not_outstanding (h : s.Booked) : ¬ s.Outstanding s.requests id :=
  fun hout => Nat.lt_irrefl _ (h.made _ _ hout)

theorem outstanding_request (hup : (s.connected && s.sock.isSome) = true) :
    s.request.Outstanding r id ↔ (r = s.requests ∧ id = s.freshId) ∨
      (r ≠ s.requests ∧ s.Outstanding r id) := by
  unfold request Outstanding
  rw [if_pos hup]
  change (s.timers.set s.requests s.freshId).get r = some id ↔ _
  rw [OrderedMap.get_set]
  by_cases hr : r = s.requests
  · simp [hr, eq_comm]
  · simp [hr]

theorem Booked.request (h : s.Booked) : s.request.Booked := by
  have hnone : s.timers.has s.requests = false :=
    Bool.eq_false_iff.2 fun hhas => (has_timer.1 hhas).elim fun _ hout => h.not_outstanding hout
  by_cases hup : (s.connected && s.sock.isSome) = true
  · -- connected: the request has a new number and waits
    have heq : s.request = { s with
        nextId := s.freshId
        requests := s.requests + 1
        timers := s.timers.set s.requests s.freshId
        pending := s.pending.set s.freshId s.requests
        written := s.written ++ [(s.requests, s.freshId)] } := if_pos hup
    refine ⟨?_, ?_, ?_, ?_⟩
    · intro id r hget
      rw [outstanding_request hup]
      rw [heq] at hget
      rcases OrderedMap.get_set_cases hget with ⟨rfl, rfl⟩ | ⟨_, hold⟩
      · exact Or.inl ⟨rfl, rfl⟩
      · have hout := h.pending id r hold
        exact Or.inr ⟨fun hr => h.not_outstanding (hr ▸ hout), hout⟩
    · intro r id hout
      rw [heq]
      rcases (outstanding_request hup).1 hout with ⟨rfl, _⟩ | ⟨_, hold⟩
      · exact Nat.lt_succ_self _
      · exact Nat.lt_succ_of_lt (h.made r id hold)
    · intro r id hout
      rw [heq]
      rcases (outstanding_request hup).1 hout with ⟨rfl, rfl⟩ | ⟨_, hold⟩
      · exact List.mem_append_right _ (List.mem_singleton_self _)
      · exact List.mem_append_left _ (h.written r id hold)
    · intro r
      have hhas : s.request.timers.has r = (decide (r = s.requests) || s.timers.has r) := by
        rw [heq, OrderedMap.has, OrderedMap.get_set]
        by_cases hr : r = s.requests
        · simp [hr]
        · simp [hr, OrderedMap.has]
      have hcount : s.request.settlements r = s.settlements r := by
        rw [heq]
        rfl
      have hreq : s.request.requests = s.requests + 1 := by rw [heq]
      rw [hcount, hhas, hreq, h.once r]
      by_cases hr : r = s.requests
      · simp [hr]
      · have hlt : r < s.requests + 1 ↔ r < s.requests := by omega
        simp [hr, hlt]
  · -- not connected: it is settled at once
    have heq : s.request = { s with
        requests := s.requests + 1
        settled := s.settled ++ [(s.requests, .notConnected)] } := if_neg hup
    rw [heq]
    refine ⟨h.pending, fun r id hout => Nat.lt_succ_of_lt (h.made r id hout), h.written, ?_⟩
    intro r
    have hold := h.once r
    have hcount : settlements { s with
        requests := s.requests + 1
        settled := s.settled ++ [(s.requests, .notConnected)] } r =
          s.settlements r + if r = s.requests then 1 else 0 := by
      simp only [settlements, List.map_append, List.count_append, List.map_singleton,
        List.count_singleton]
      by_cases hr : r = s.requests
      · simp [hr]
      · simp [hr, Ne.symm hr]
    rw [hcount, hold]
    by_cases hr : r = s.requests
    · simp [hr, hnone]
    · have hlt : r < s.requests + 1 ↔ r < s.requests := by omega
      simp [hr, hlt]

theorem outstanding_closed (h : s.Booked) (k : Nat) :
    (s.closed k).Outstanding r id ↔ r ∉ s.pending.values ∧ s.Outstanding r id :=
  (settleAll_spec .closed h.nodup s).1 r id

theorem Booked.closed (h : s.Booked) (k : Nat) : (s.closed k).Booked := by
  obtain ⟨_, hcount, hreq, hwritten, _⟩ := settleAll_spec .closed h.nodup s
  refine ⟨fun _ _ hget => (by cases hget), ?_, ?_, ?_⟩
  · intro r id hout
    change r < (s.settleAll .closed s.pending.values).requests
    rw [hreq]
    exact h.made r id ((outstanding_closed h k).1 hout).2
  · intro r id hout
    change (r, id) ∈ (s.settleAll .closed s.pending.values).written
    rw [hwritten]
    exact h.written r id ((outstanding_closed h k).1 hout).2
  · intro r
    -- what was pending is settled, and nothing else
    have hhas : (s.closed k).timers.has r = (s.timers.has r && decide (r ∉ s.pending.values)) := by
      rw [Bool.eq_iff_iff, Bool.and_eq_true, has_timer, has_timer, decide_eq_true_eq]
      constructor
      · rintro ⟨id, hout⟩
        obtain ⟨hnot, hold⟩ := (outstanding_closed h k).1 hout
        exact ⟨⟨id, hold⟩, hnot⟩
      · rintro ⟨⟨id, hold⟩, hnot⟩
        exact ⟨id, (outstanding_closed h k).2 ⟨hnot, hold⟩⟩
    have hsettlements : (s.closed k).settlements r =
        s.settlements r + if r ∈ s.pending.values then 1 else 0 := hcount r
    have hrequests : (s.closed k).requests = s.requests := hreq
    rw [hsettlements, hhas, hrequests, h.once r]
    by_cases hmem : r ∈ s.pending.values
    · obtain ⟨id, hget⟩ := s.pending.mem_values_iff.1 hmem
      have hout := h.pending id r hget
      simp [hmem, h.made r id hout, has_timer.2 ⟨id, hout⟩]
    · simp [hmem]

/-- What is left of `pending` without one of its ids names other requests. -/
theorem Booked.pending_delete (h : s.Booked) (hr : s.pending.get id = some r) {id' r' : Nat}
    (hget : (s.pending.delete id).get id' = some r') : r' ≠ r ∧ s.pending.get id' = some r' := by
  obtain ⟨hne, hold⟩ := OrderedMap.get_delete_cases hget
  refine ⟨?_, hold⟩
  rintro rfl
  exact hne (Option.some.inj ((h.pending id' r' hold).symm.trans (h.pending id r' hr)))

theorem Booked.step {a : Action} (h : s.Booked) (hs : s.step a = some s') : s'.Booked := by
  cases a with
  | connect =>
      cases hs
      exact ⟨h.pending, h.made, h.written, h.once⟩
  | connack =>
      cases hs
      exact ⟨h.pending, h.made, h.written, h.once⟩
  | request =>
      cases hs
      exact h.request
  | packet p =>
      rcases received_cases hs with rfl | ⟨id, r, granted, _, _, hr, rfl⟩
      · exact h
      · exact h.settle (h.pending id r hr) fun id' r' => h.pending_delete hr
  | timeout r =>
      obtain ⟨id, hr, rfl⟩ := Option.map_eq_some_iff.1 hs
      refine h.settle hr fun id' r' hget => ?_
      obtain ⟨hne, hold⟩ := OrderedMap.get_delete_cases hget
      refine ⟨?_, hold⟩
      -- the number of the request that is settled was its own
      rintro rfl
      exact hne (Option.some.inj ((h.pending id' r' hold).symm.trans hr))
  | closed k =>
      simp only [Client.step] at hs
      split at hs
      · cases hs
        exact h.closed k
      · cases hs
  | finish =>
      cases hs
      exact ⟨h.pending, h.made, h.written, h.once⟩

/-! ## Runs in which ids are free -/

theorem new_tidy : new.Tidy where
  booked := new_booked
  distinct := fun _ _ _ h => by cases h
  named := fun _ _ h => by cases h

/-- A request is settled and its entry goes. -/
theorem Tidy.settle (h : s.Tidy) {o : Settlement} (hr : s.Outstanding r id) :
    (({ s with pending := s.pending.delete id } : Client).settle r o).Tidy where
  booked := h.booked.settle hr fun _ _ => h.booked.pending_delete (h.named r id hr)
  distinct r' r'' id' hout hout' :=
    h.distinct r' r'' id' (outstanding_settle.1 hout).2 (outstanding_settle.1 hout').2
  named r' id' hout := by
    obtain ⟨hne, hold⟩ := outstanding_settle.1 hout
    -- the entry that goes is not that of another request
    have hid : id' ≠ id := by
      rintro rfl
      exact hne (h.distinct r' r id' hold hr)
    change (s.pending.delete id).get id' = some r'
    rw [OrderedMap.get_delete, if_neg hid]
    exact h.named r' id' hold

theorem Tidy.request (h : s.Tidy) (hfree : s.IdFree .request) : s.request.Tidy := by
  by_cases hup : (s.connected && s.sock.isSome) = true
  · obtain ⟨hconn, hsock⟩ := Bool.and_eq_true_iff.1 hup
    have hno := hfree hconn hsock
    refine ⟨h.booked.request, ?_, ?_⟩
    · intro r r' id hout hout'
      rcases (outstanding_request hup).1 hout with ⟨rfl, rfl⟩ | ⟨_, hold⟩
      · rcases (outstanding_request hup).1 hout' with ⟨rfl, _⟩ | ⟨_, hold'⟩
        · rfl
        · exact absurd hold' (hno r')
      · rcases (outstanding_request hup).1 hout' with ⟨rfl, rfl⟩ | ⟨_, hold'⟩
        · exact absurd hold (hno r)
        · exact h.distinct r r' id hold hold'
    · intro r id hout
      have hpending : s.request.pending = s.pending.set s.freshId s.requests := by
        rw [Client.request, if_pos hup]
      rw [hpending]
      rcases (outstanding_request hup).1 hout with ⟨rfl, rfl⟩ | ⟨_, hold⟩
      · exact OrderedMap.get_set_self ..
      · have hid : id ≠ s.freshId := fun heq => hno r (heq ▸ hold)
        rw [OrderedMap.get_set_ne _ hid]
        exact h.named r id hold
  · have hbooked := h.booked.request
    rw [Client.request, if_neg hup] at hbooked ⊢
    exact ⟨hbooked, h.distinct, h.named⟩

theorem Tidy.step {a : Action} (h : s.Tidy) (hfree : s.IdFree a) (hs : s.step a = some s') :
    s'.Tidy := by
  cases a with
  | connect =>
      cases hs
      exact ⟨h.booked.step (a := .connect) rfl, h.distinct, h.named⟩
  | connack =>
      cases hs
      exact ⟨h.booked.step (a := .connack) rfl, h.distinct, h.named⟩
  | request =>
      cases hs
      exact h.request hfree
  | packet p =>
      rcases received_cases hs with rfl | ⟨id, r, granted, _, _, hr, rfl⟩
      · exact h
      · exact h.settle (h.booked.pending id r hr)
  | timeout r =>
      obtain ⟨id, hr, rfl⟩ := Option.map_eq_some_iff.1 hs
      exact h.settle hr
  | closed k =>
      have hbooked := h.booked.step hs
      simp only [Client.step] at hs
      split at hs
      · cases hs
        -- all that is outstanding has been rejected
        have hnone : ∀ r id, ¬ (s.closed k).Outstanding r id := by
          intro r id hout
          obtain ⟨hnot, hold⟩ := (outstanding_closed h.booked k).1 hout
          exact hnot (s.pending.mem_values_iff.2 ⟨id, h.named r id hold⟩)
        exact ⟨hbooked, fun r _ id hout => absurd hout (hnone r id),
          fun r id hout => absurd hout (hnone r id)⟩
      · cases hs
  | finish =>
      cases hs
      exact ⟨h.booked.step (a := .finish) rfl, h.distinct, h.named⟩

theorem Tidy.sound (h : s.Tidy) : s.Sound where
  distinct := h.distinct
  once r hr := by
    have hone := h.booked.once r
    rw [hone]
    cases htimer : s.timers.has r with
    | true => simp
    | false => simp [hr]

theorem Tidy.correlated {a : Action} (h : s.Tidy) (hs : s.step a = some s') :
    s.Correlated a s' := by
  have hnothing : ∀ {t : Client}, t.settled = s.settled →
      ∀ x, x ∉ t.settled.drop s.settled.length := by
    intro t ht x hx
    rw [ht, List.drop_length] at hx
    cases hx
  cases a with
  | connect =>
      cases hs
      exact ⟨fun _ _ hx => absurd hx (hnothing rfl _), fun _ ha => by cases ha⟩
  | connack =>
      cases hs
      exact ⟨fun _ _ hx => absurd hx (hnothing rfl _), fun _ ha => by cases ha⟩
  | request =>
      cases hs
      refine ⟨fun r granted hx => ?_, fun _ ha => by cases ha⟩
      unfold Client.request at hx
      split at hx
      · exact absurd hx (hnothing rfl _)
      · rw [List.drop_left] at hx
        cases List.mem_singleton.1 hx
  | packet p =>
      rcases received_cases hs with rfl | ⟨id, r, granted, hack, hid, hr, rfl⟩
      · exact ⟨fun _ _ hx => absurd hx (hnothing rfl _), fun _ ha => by cases ha⟩
      · have hout := h.booked.pending id r hr
        refine ⟨fun r' granted' hx => ?_, fun _ ha => by cases ha⟩
        rw [Client.settle, List.drop_left] at hx
        cases List.mem_singleton.1 hx
        exact ⟨p, id, rfl, hack, hid, h.booked.written r id hout, hout,
          fun r' hout' => h.distinct r' r id hout' hout⟩
  | timeout r =>
      obtain ⟨id, hr, rfl⟩ := Option.map_eq_some_iff.1 hs
      refine ⟨fun r' granted hx => ?_, ?_⟩
      · rw [Client.timeout, Client.settle, List.drop_left] at hx
        cases List.mem_singleton.1 hx
      · -- the entry under the id of the late request is its own
        rintro r' ⟨⟩ id' r'' hne hget
        have hid : id' ≠ id := by
          rintro rfl
          exact hne (Option.some.inj (hget.symm.trans (h.named r id' hr)))
        change (s.pending.delete id).get id' = some r''
        rw [OrderedMap.get_delete, if_neg hid, hget]
  | closed k =>
      simp only [Client.step] at hs
      split at hs
      · cases hs
        refine ⟨fun r granted hx => ?_, fun _ ha => by cases ha⟩
        -- all that is added is rejected
        have hadded := (settleAll_spec .closed h.booked.nodup s).2.2.2.2
        change _ ∈ (s.settleAll .closed s.pending.values).settled.drop _ at hx
        rw [hadded, List.drop_left] at hx
        obtain ⟨_, _, heq⟩ := List.mem_map.1 hx
        cases heq
      · cases hs
  | finish =>
      cases hs
      exact ⟨fun _ _ hx => absurd hx (hnothing rfl _), fun _ ha => by cases ha⟩

theorem Tidy.correct {a : Action} (h : s.Tidy) (hfree : s.IdFree a) : s.Correct a :=
  fun _ hs => ⟨(h.step hfree hs).sound, h.correlated hs⟩

/-- After a request with the id of an outstanding one there are two of them. -/
theorem idFree_of_correct {a : Action} (h : s.Booked) (hc : s.Correct a) : s.IdFree a := by
  cases a with
  | request =>
      intro hconn hsock r hout
      have hup : (s.connected && s.sock.isSome) = true := Bool.and_eq_true_iff.2 ⟨hconn, hsock⟩
      have hne : r ≠ s.requests := fun heq => h.not_outstanding (heq ▸ hout)
      exact hne ((hc s.request rfl).1.distinct r s.requests s.freshId
        ((outstanding_request hup).2 (Or.inr ⟨hne, hout⟩))
        ((outstanding_request hup).2 (Or.inl ⟨rfl, rfl⟩)))
  | connect => trivial
  | connack => trivial
  | packet p => trivial
  | timeout r => trivial
  | closed k => trivial
  | finish => trivial

/-- Requests and answers belong together in a run if and only if no request is made while the id
that comes next belongs to an outstanding one. -/
theorem correlated_iff (as : List Action) :
    Admits step Correct new as ↔ Admits step IdFree new as := by
  constructor
  · exact admits_of_admits (fun _ _ _ hb _ hs => Booked.step hb hs)
      (fun _ _ hb hc => idFree_of_correct hb hc) new_booked
  · exact admits_of_admits (fun _ _ _ ht hfree hs => Tidy.step ht hfree hs)
      (fun _ _ ht hfree => Tidy.correct ht hfree) new_tidy

/-! ## A slow request -/

/-- One more request, which is answered at once. -/
def quickRound (k : Nat) : List Action :=
  [.request, .packet ⟨typePuback, 0, uint16BE (k + 2)⟩]

/-- A request that is not answered, and `n` that are. -/
def slowRun (n : Nat) : List Action :=
  [.connect, .connack, .request] ++ (List.range n).flatMap quickRound

/-- Where such a run stands. -/
structure Slow (n : Nat) (s : Client) : Prop where
  up : (s.connected && s.sock.isSome) = true
  nextId : s.nextId = n + 1
  requests : s.requests = n + 1
  outstanding : s.Outstanding 0 1

theorem slow_round {n : Nat} (h : Slow n s) (hn : n < 65534) :
    ∃ s', exec step s (quickRound n) = some s' ∧ Slow (n + 1) s' := by
  -- the ids do not come round before 65535
  have hid : s.freshId = n + 2 := by
    rw [freshId, h.nextId, Nat.mod_eq_of_lt (by omega)]
  have hread : readUInt16BE (uint16BE (n + 2)) 0 = some (n + 2) :=
    (BytesAt.whole _).readUInt16BE rfl (by omega)
  have heq : s.request = { s with
      nextId := n + 2
      requests := n + 2
      timers := s.timers.set (n + 1) (n + 2)
      pending := s.pending.set (n + 2) (n + 1)
      written := s.written ++ [(n + 1, n + 2)] } := by
    rw [request, if_pos h.up, hid, h.requests]
  have hget : s.request.pending.get (n + 2) = some (n + 1) := by
    rw [heq]
    exact OrderedMap.get_set_self ..
  have hhas : s.request.pending.has (n + 2) = true := by
    rw [OrderedMap.has, hget]
    rfl
  have hreceived : s.request.received ⟨typePuback, 0, uint16BE (n + 2)⟩ =
      some (({ s.request with pending := s.request.pending.delete (n + 2) } : Client).settle (n + 1)
        (.acknowledged none)) := by
    have hpacket : onPacket s.request.pending ⟨typePuback, 0, uint16BE (n + 2)⟩ =
        some (s.request.pending.delete (n + 2), [.settled (n + 2) none]) := by
      simp [onPacket, typePuback, typePublish, typeSuback, hread, hhas]
    simp only [received, hpacket, Option.map_some, List.foldl_cons, List.foldl_nil, answer, hget]
  refine ⟨_, exec_cons.2 ⟨_, rfl, exec_cons.2 ⟨_, hreceived, rfl⟩⟩, ?_, ?_, ?_, ?_⟩
  · change (s.request.connected && s.request.sock.isSome) = true
    rw [heq]
    exact h.up
  · change s.request.nextId = _
    rw [heq]
  · change s.request.requests = _
    rw [heq]
  · refine outstanding_settle.2 ⟨(Nat.succ_ne_zero n).symm, ?_⟩
    refine (outstanding_request h.up).2 (Or.inr ⟨?_, h.outstanding⟩)
    rw [h.requests]
    exact (Nat.succ_ne_zero n).symm

theorem slow_run {n : Nat} (hn : n ≤ 65534) :
    ∃ s, exec step new (slowRun n) = some s ∧ Slow n s := by
  induction n with
  | zero =>
      exact ⟨_, rfl, rfl, rfl, rfl, rfl⟩
  | succ n ih =>
      obtain ⟨s, hs, hslow⟩ := ih (by omega)
      obtain ⟨s', hs', hslow'⟩ := slow_round hslow hn
      refine ⟨s', ?_, hslow'⟩
      have hsplit : slowRun (n + 1) = slowRun n ++ quickRound n := by
        rw [slowRun, slowRun, List.range_succ, List.flatMap_append, List.append_assoc,
          List.flatMap_singleton]
      rw [hsplit]
      exact exec_append.2 ⟨s, hs, hs'⟩

/-- After 65534 other requests the id of the first one is given out again while it still waits. -/
theorem id_reused :
    ¬ Admits step Correct new (slowRun 65534 ++ [.request]) ∧
      ∃ s, exec step new (slowRun 65534 ++ [.request]) = some s ∧
        s.Outstanding 0 1 ∧ s.Outstanding 65535 1 := by
  obtain ⟨s, hs, hslow⟩ := slow_run (Nat.le_refl 65534)
  have hid : s.freshId = 1 := by rw [freshId, hslow.nextId]
  constructor
  · intro hc
    have hbooked : s.Booked := exec_invariant (fun _ _ _ hb hstep => Booked.step hb hstep)
      new_booked hs
    have hfree := idFree_of_correct hbooked (hc.append hs).2.1
    obtain ⟨hconn, hsock⟩ := Bool.and_eq_true_iff.1 hslow.up
    exact hfree hconn hsock 0 (hid ▸ hslow.outstanding)
  · refine ⟨s.request, exec_append.2 ⟨s, hs, rfl⟩, ?_, ?_⟩
    · refine (outstanding_request hslow.up).2 (Or.inr ⟨?_, hslow.outstanding⟩)
      rw [hslow.requests]
      exact (Nat.succ_ne_zero _).symm
    · refine (outstanding_request hslow.up).2 (Or.inl ⟨?_, hid.symm⟩)
      rw [hslow.requests]

end Client

end MqttClient

end Edge
end GateControl
