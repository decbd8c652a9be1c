import GateControl.Edge.GatewayRpc

/-!
# RpcLinks — the edge host always has a connection, or a next attempt
-/

namespace GateControl
namespace Edge

open Library

namespace GatewayRpc
namespace System

variable {size : Frame → Nat} {s t : System}

/-! ## The connection of the host -/

/-- The host has not given its socket up before the socket closes, and has no other one. -/
structure Wired (s : System) : Prop where
  linked : s.Linked
  live : ∀ k, s.host.ws = some k → ∃ r, s.hostEnd k = some r ∧ r ≠ .closed
  dialing : ∀ k, s.hostEnd k = some .connecting → s.host.ws = some k

theorem hostEnd_setHost (k j : Nat) (r : Ready) :
    (s.setHost k r).hostEnd j = if j = k then (s.hostEnd k).map fun _ => r else s.hostEnd j := by
  unfold hostEnd setHost
  by_cases hj : j = k
  · subst hj
    rw [List.getElem?_modify_eq, if_pos rfl]
    cases s.links[j]? <;> rfl
  · rw [List.getElem?_modify_ne _ _ (Ne.symm hj), if_neg hj]

@[simp] theorem hostEnd_setGateway (k j : Nat) (r : Ready) :
    (s.setGateway k r).hostEnd j = s.hostEnd j := by
  unfold hostEnd setGateway
  rw [List.getElem?_modify]
  cases s.links[j]? with
  | none => rfl
  | some l =>
      by_cases hk : k = j
      · simp [hk]
      · simp [hk]

/-- The host and its ends of the connections stay, and no call is added to none. -/
theorem Wired.of_ends (h : s.Wired) (hends : ∀ k, t.hostEnd k = s.hostEnd k)
    (hstopped : t.host.stopped = s.host.stopped) (hws : t.host.ws = s.host.ws)
    (hconnected : t.host.connected = s.host.connected) (hretry : t.host.retry = s.host.retry)
    (hpending : s.host.connected = false → t.host.calls.pending ⊆ s.host.calls.pending) :
    t.Wired := by
  obtain ⟨⟨hrunning, hstop, hidle, hup⟩, hlive, hdialing⟩ := h
  refine ⟨⟨?_, ?_, ?_, ?_⟩, ?_, ?_⟩
  · rw [hstopped, hws, hretry]
    exact hrunning
  · rw [hstopped, hws, hretry]
    exact hstop
  · intro hdown
    rw [hconnected] at hdown
    exact List.subset_nil.1 (hidle hdown ▸ hpending hdown)
  · intro hconn
    obtain ⟨k, hk, hend⟩ := hup (hconnected ▸ hconn)
    exact ⟨k, hws.trans hk, by rw [hends]; exact hend⟩
  · intro k hk
    rw [hends]
    exact hlive k (hws ▸ hk)
  · intro k hk
    rw [hws]
    exact hdialing k (hends k ▸ hk)

/-- A socket that is not connecting gets on. -/
theorem Wired.setHost (h : s.Wired) {k : Nat} {r : Ready} (hr : r = .opened ∨ r = .closing) :
    (s.setHost k r).Wired := by
  obtain ⟨⟨hrunning, hstop, hidle, hup⟩, hlive, hdialing⟩ := h
  refine ⟨⟨hrunning, hstop, hidle, ?_⟩, ?_, ?_⟩
  · intro hconn
    obtain ⟨j, hj, hend⟩ := hup hconn
    refine ⟨j, hj, ?_⟩
    rw [hostEnd_setHost]
    split
    · next heq =>
        subst heq
        rcases hend with hend | hend <;> rw [hend] <;> simpa using hr
    · exact hend
  · intro j hj
    obtain ⟨r', hr', hne⟩ := hlive j hj
    rw [hostEnd_setHost]
    split
    · next heq =>
        subst heq
        rw [hr']
        exact ⟨r, rfl, by rcases hr with rfl | rfl <;> decide⟩
    · exact ⟨r', hr', hne⟩
  · intro j hj
    rw [hostEnd_setHost] at hj
    split at hj
    · obtain ⟨_, _, rfl⟩ := Option.map_eq_some_iff.1 hj
      rcases hr with hr | hr <;> cases hr
    · exact hdialing j hj

/-- A host without a socket connects, or waits for the next attempt. -/
theorem Wired.connect (hws : s.host.ws = none) (hretry : s.host.retry = false)
    (hidle : s.host.calls.pending = []) (hconnected : s.host.connected = false)
    (hdialing : ∀ k, s.hostEnd k ≠ some .connecting) (dials : Bool) : (s.connect dials).Wired := by
  have hdown : s.host.connected ≠ true := by simp [hconnected]
  have hnows : ∀ k, s.host.ws ≠ some k := by simp [hws]
  unfold System.connect
  by_cases hstopped : s.host.stopped = true
  · rw [if_pos hstopped]
    refine ⟨⟨fun h => ?_, fun _ => ⟨hws, hretry⟩, fun _ => hidle, fun h => absurd h hdown⟩,
      fun k hk => absurd hk (hnows k), fun k hk => absurd hk (hdialing k)⟩
    rw [hstopped] at h
    cases h
  · rw [if_neg hstopped]
    cases dials with
    | true =>
        -- a new socket, behind all others
        have hends : ∀ j, ({ s with links := s.links ++ [⟨.connecting, .connecting⟩] } :
            System).hostEnd j = some .connecting ↔ j = s.links.length := by
          intro j
          unfold hostEnd
          rw [Option.map_eq_some_iff]
          constructor
          · rintro ⟨l, hl, hend⟩
            rcases getElem?_concat_iff.1 hl with hold | ⟨hj, _⟩
            · exact absurd (by unfold hostEnd; rw [hold, Option.map_some, hend]) (hdialing j)
            · exact hj
          · rintro rfl
            exact ⟨_, List.getElem?_concat_length, rfl⟩
        refine ⟨⟨fun _ => ⟨fun _ => hretry, fun _ => rfl⟩, fun h => absurd h hstopped,
          fun _ => hidle, fun h => absurd h hdown⟩, ?_, ?_⟩
        · intro k hk
          cases hk
          exact ⟨_, (hends _).2 rfl, by decide⟩
        · intro k hk
          rw [(hends k).1 hk]
          rfl
    | false =>
        have hhost : s.host.scheduleRetry =
            { s.host with attempt := s.host.attempt + 1, retry := true } := if_neg hstopped
        rw [hhost]
        refine ⟨⟨fun _ => ?_, fun h => absurd h hstopped, fun _ => hidle, fun h => absurd h hdown⟩,
          fun k hk => absurd hk (hnows k), fun k hk => absurd hk (hdialing k)⟩
        simp [hws]

theorem Wired.alone (h : s.Wired) (hws : s.host.ws = none) :
    s.host.connected = false ∧ s.host.calls.pending = [] ∧
      ∀ k, s.hostEnd k ≠ some .connecting := by
  have hconnected : s.host.connected = false := by
    rw [Bool.eq_false_iff]
    intro hconn
    obtain ⟨k, hk, _⟩ := h.linked.up hconn
    rw [hws] at hk
    cases hk
  refine ⟨hconnected, h.linked.idle hconnected, fun k hk => ?_⟩
  have hsome := h.dialing k hk
  rw [hws] at hsome
  cases hsome

theorem Wired.start (h : s.Wired) (dials : Bool) : (s.start dials).Wired := by
  unfold System.start
  by_cases hstopped : s.host.stopped = true
  · obtain ⟨hws, hretry⟩ := h.linked.stopped hstopped
    obtain ⟨hconnected, hidle, hdialing⟩ := h.alone hws
    rw [hstopped]
    exact Wired.connect (s := { s with host := { s.host with stopped := false } }) hws hretry hidle
      hconnected hdialing dials
  · rw [Bool.not_eq_true] at hstopped
    rw [hstopped]
    exact h

theorem Wired.retryFires (h : s.Wired) (hretry : s.host.retry = true) (dials : Bool) :
    (({ s with host := { s.host with retry := false } } : System).connect dials).Wired := by
  have hstopped : s.host.stopped = false := by
    rw [Bool.eq_false_iff]
    intro hstop
    rw [(h.linked.stopped hstop).2] at hretry
    cases hretry
  have hws : s.host.ws = none := by
    rw [← Option.not_isSome_iff_eq_none, h.linked.running hstopped, hretry]
    decide
  obtain ⟨hconnected, hidle, hdialing⟩ := h.alone hws
  exact Wired.connect (s := { s with host := { s.host with retry := false } }) hws rfl hidle
    hconnected hdialing dials

/-- The socket of a host that has been told to stop closes by itself. -/
theorem Wired.stop (h : s.Wired) : s.stop.Wired := by
  have hdialing : ∀ k, s.stop.hostEnd k ≠ some .connecting := by
    intro k hk
    cases hws : s.host.ws with
    | none =>
        refine (h.alone hws).2.2 k ?_
        rw [System.stop, hws] at hk
        exact hk
    | some j =>
        have hend : (s.terminate j).hostEnd k = some .connecting := by
          rw [System.stop, hws] at hk
          exact hk
        unfold System.terminate at hend
        split at hend
        · next hclosed =>
            obtain ⟨r, hr, hne⟩ := h.live j hws
            rw [hclosed] at hr
            exact hne (Option.some.inj hr).symm
        · rw [hostEnd_setHost] at hend
          split at hend
          · obtain ⟨_, _, hr⟩ := Option.map_eq_some_iff.1 hend
            cases hr
          · next hne =>
              have hj := h.dialing k hend
              rw [hws] at hj
              exact hne (Option.some.inj hj).symm
  exact ⟨⟨fun hr => (nomatch hr), fun _ => ⟨rfl, rfl⟩, fun _ => rfl, fun hc => (nomatch hc)⟩,
    fun k hk => (nomatch hk), fun k hk => absurd hk (hdialing k)⟩

theorem Wired.opened (h : s.Wired) {k : Nat} (hk : s.hostEnd k = some .connecting) (ok : Bool) :
    (s.opened k ok).Wired := by
  cases ok with
  | false =>
      exact h.setHost (Or.inr rfl)
  | true =>
      obtain ⟨⟨hrunning, hstop, _, _⟩, hlive, hdialing⟩ := h.setHost (k := k) (Or.inl rfl)
      refine ⟨⟨hrunning, hstop, fun hc => (nomatch hc), fun _ => ?_⟩, hlive, hdialing⟩
      refine ⟨k, h.dialing k hk, Or.inl ?_⟩
      change (s.setHost k .opened).hostEnd k = _
      rw [hostEnd_setHost, if_pos rfl, hk]
      rfl

/-- The socket of the host has closed: it waits for the next attempt.  Any other one that closes had
been given up before. -/
theorem Wired.hostClosed (h : s.Wired) (k : Nat) : (s.hostClosed k).Wired := by
  have hends : ∀ j r, r ≠ .closed → (s.setHost k .closed).hostEnd j = some r →
      j ≠ k ∧ s.hostEnd j = some r := by
    intro j r hr hj
    rw [hostEnd_setHost] at hj
    split at hj
    · obtain ⟨_, _, hr'⟩ := Option.map_eq_some_iff.1 hj
      exact absurd hr'.symm hr
    · next hne => exact ⟨hne, hj⟩
  by_cases hws : s.host.ws = some k
  · have hstopped : s.host.stopped = false := by
      rw [Bool.eq_false_iff]
      intro hstop
      rw [(h.linked.stopped hstop).1] at hws
      cases hws
    have hnone : ∀ j, (s.setHost k .closed).hostEnd j ≠ some .connecting := by
      intro j hj
      obtain ⟨hne, hold⟩ := hends j _ (by decide) hj
      have hj' := h.dialing j hold
      rw [hws] at hj'
      exact hne (Option.some.inj hj').symm
    have hhost : (({ s.host with ws := none, connected := false } : Host).failAll .lost).scheduleRetry
        = { (({ s.host with ws := none, connected := false } : Host).failAll .lost) with
            attempt := s.host.attempt + 1, retry := true } :=
      if_neg (by simp [Host.failAll, hstopped])
    unfold System.hostClosed
    rw [if_pos hws, hhost]
    exact ⟨⟨fun _ => ⟨fun hr => (nomatch hr), fun hr => (nomatch hr)⟩,
      fun hstop => absurd (hstopped.symm.trans hstop) (by decide), fun _ => rfl,
      fun hc => (nomatch hc)⟩, fun j hj => (nomatch hj), fun j hj => absurd hj (hnone j)⟩
  · unfold System.hostClosed
    rw [if_neg hws]
    have hkeep : ∀ j, s.host.ws = some j → (s.setHost k .closed).hostEnd j = s.hostEnd j := by
      intro j hj
      rw [hostEnd_setHost, if_neg]
      rintro rfl
      exact hws hj
    obtain ⟨⟨hrunning, hstop, hidle, hup⟩, hlive, hdialing⟩ := h
    refine ⟨⟨hrunning, hstop, hidle, fun hc => ?_⟩, fun j hj => ?_, fun j hj => ?_⟩
    · obtain ⟨j, hj, hend⟩ := hup hc
      exact ⟨j, hj, (hkeep j hj).symm ▸ hend⟩
    · exact (hkeep j hj).symm ▸ hlive j hj
    · exact hdialing j (hends j _ (by decide) hj).2

theorem Wired.of_gateway (h : s.Wired) {u : System} (hlinks : u.links = s.links)
    (hhost : u.host = s.host) : u.Wired :=
  h.of_ends (fun k => by rw [hostEnd, hlinks]; rfl) (by rw [hhost]) (by rw [hhost]) (by rw [hhost])
    (by rw [hhost]) fun _ => by rw [hhost]; exact List.Subset.refl _

/-- The gateway sends, which changes nothing else. -/
theorem reply_frame (k id : Nat) (r : Reply) :
    (s.reply size k id r).links = s.links ∧ (s.reply size k id r).host = s.host := by
  unfold System.reply
  split
  · exact ⟨rfl, rfl⟩
  · split
    · split <;> exact ⟨rfl, rfl⟩
    · exact ⟨rfl, rfl⟩

theorem onRpc_frame (k id : Nat) (c : Call) :
    (s.onRpc size k id c).links = s.links ∧ (s.onRpc size k id c).host = s.host := by
  unfold System.onRpc
  split
  · exact reply_frame ..
  · exact ⟨rfl, rfl⟩

theorem Wired.call (h : s.Wired) (c : Call) : (s.call size c).Wired := by
  unfold System.call
  by_cases hc : s.host.connected = true
  · have hvacuous : ∀ {p : Prop}, s.host.connected = false → p := by
      intro p hd
      rw [hc] at hd
      cases hd
    rw [if_neg (by rw [hc]; decide)]
    dsimp only
    split
    · exact h.of_ends (fun _ => rfl) rfl rfl rfl rfl hvacuous
    · exact h.of_ends (fun _ => rfl) rfl rfl rfl rfl hvacuous
  · rw [if_pos (by simpa using hc)]
    exact h

theorem Wired.step (h : s.Wired) {a : Action} (ht : s.step size a = some t) : t.Wired := by
  cases a with
  | start dials =>
      cases ht
      exact h.start dials
  | stop =>
      cases ht
      exact h.stop
  | retryFires dials =>
      obtain ⟨hretry, ht⟩ := Option.ite_none_right_eq_some.1 ht
      cases ht
      exact h.retryFires hretry dials
  | opened k ok =>
      obtain ⟨hk, ht⟩ := Option.ite_none_right_eq_some.1 ht
      cases ht
      exact h.opened hk.1 ok
  | accepted k =>
      obtain ⟨_, ht⟩ := Option.ite_none_right_eq_some.1 ht
      cases ht
      unfold System.bindRpc
      split
      · exact h.of_ends (fun j => (hostEnd_setGateway ..).trans (hostEnd_setGateway ..)) rfl rfl rfl
          rfl fun _ => List.Subset.refl _
      · exact h.of_ends (fun j => hostEnd_setGateway ..) rfl rfl rfl rfl fun _ => List.Subset.refl _
  | hostClosing k =>
      obtain ⟨_, ht⟩ := Option.ite_none_right_eq_some.1 ht
      cases ht
      exact h.setHost (Or.inr rfl)
  | gatewayClosing k =>
      obtain ⟨_, ht⟩ := Option.ite_none_right_eq_some.1 ht
      cases ht
      exact h.of_ends (fun j => hostEnd_setGateway ..) rfl rfl rfl rfl fun _ => List.Subset.refl _
  | hostClosed k =>
      obtain ⟨_, ht⟩ := Option.ite_none_right_eq_some.1 ht
      cases ht
      exact h.hostClosed k
  | gatewayClosed k =>
      obtain ⟨_, ht⟩ := Option.ite_none_right_eq_some.1 ht
      cases ht
      exact h.of_ends (fun j => hostEnd_setGateway ..) rfl rfl rfl rfl fun _ => List.Subset.refl _
  | gatewayStop =>
      cases ht
      unfold System.gatewayStop
      split
      · exact h.of_ends (fun j => hostEnd_setGateway ..) rfl rfl rfl rfl fun _ => List.Subset.refl _
      · exact h
  | call c =>
      cases ht
      exact h.call c
  | timeout id =>
      obtain ⟨_, ht⟩ := Option.ite_none_right_eq_some.1 ht
      cases ht
      exact h.of_ends (fun _ => rfl) rfl rfl rfl rfl fun _ => Requests.pending_settle_subset ..
  | called k =>
      obtain ⟨_, ht⟩ := Option.ite_none_right_eq_some.1 ht
      obtain ⟨⟨⟨id, c⟩, rest⟩, _, rfl⟩ := Option.map_eq_some_iff.1 ht
      exact h.of_gateway (onRpc_frame ..).1 (onRpc_frame ..).2
  | finished i o =>
      rw [System.step] at ht
      split at ht
      · cases ht
        exact h.of_gateway (reply_frame ..).1 (reply_frame ..).2
      · cases ht
  | freed i =>
      rw [System.step] at ht
      split at ht
      · cases ht
        exact h.of_gateway rfl rfl
      · cases ht
  | answered k =>
      obtain ⟨_, ht⟩ := Option.ite_none_right_eq_some.1 ht
      obtain ⟨⟨⟨id, r⟩, rest⟩, _, rfl⟩ := Option.map_eq_some_iff.1 ht
      cases r with
      | result v =>
          exact h.of_ends (fun _ => rfl) rfl rfl rfl rfl fun _ => Requests.pending_settle_subset ..
      | error e =>
          exact h.of_ends (fun _ => rfl) rfl rfl rfl rfl fun _ => Requests.pending_settle_subset ..

theorem new_wired : new.Wired where
  linked := ⟨fun h => (nomatch h), fun _ => ⟨rfl, rfl⟩, fun _ => rfl, fun h => (nomatch h)⟩
  live := fun _ h => (nomatch h)
  dialing := fun _ h => (nomatch h)

/-- Over every run: the host is never left without a connection to come, and no call is left waiting
for one that is gone. -/
theorem host_linked (size : Frame → Nat) {as : List Action} {s : System}
    (h : exec (step size) new as = some s) : s.Linked :=
  (exec_invariant (fun _ _ _ hs ht => hs.step ht) new_wired h).linked

/-- The connection breaks while a call waits. -/
def lostRun (c : Call) : List Action :=
  [.start true, .accepted 0, .opened 0 true, .call c, .hostClosed 0]

theorem host_linked_lost : ∃ s,
    exec (step fun _ => 0) new (lostRun ⟨[], [], .null, .null⟩) = some s ∧
      s.host.calls.settled = [(1, .failed .lost)] ∧ s.host.retry = true ∧ s.Linked := by
  refine ⟨_, rfl, rfl, rfl, host_linked (fun _ => 0) (?_ : exec _ new (lostRun
    ⟨[], [], .null, .null⟩) = some _)⟩
  rfl

end System

end GatewayRpc
end Edge
end GateControl
