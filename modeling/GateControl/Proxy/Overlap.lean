import GateControl.Proxy.Egress
import GateControl.Proxy.Tcp

/-!
# Overlap — tables that are passed while others are still being applied

A change of the configuration and the heartbeat both call `setRoutes`, and a call may have to wait
for the clients of a listener that it removes.  When nothing is left to do but to wait for clients,
the table passed last should have been applied (`Applied`); it has, if no call has to wait and the
calls are in order.
-/

namespace GateControl
namespace Proxy

open Library

/-- The server whose clients a call waits for. -/
def Call.waitsFor {ι ρ : Type} (c : Call ι ρ) : Option Nat :=
  match c.pc with
  | .closing _ n => some n
  | _ => none

namespace Manager

section Overlap

variable {ι ρ : Type} [DecidableEq ι] (K : Kind ι ρ) (s : Manager ι ρ)

/-- Nothing is pending, except that calls wait for clients to disconnect. -/
def Quiescent : Prop :=
  s.overlap = [] ∧
    ∀ c ∈ s.calls, ∃ n, n ∈ c.waitsFor ∧ ∃ sv, sv ∈ s.servers.get n ∧ sv.clients ≠ 0

/-- Then the routes of the table passed last have been dealt with (a listener serves the route, or
the host has refused it since), and nobody is let in for another route. -/
def Applied : Prop :=
  s.Quiescent →
    (∀ r ∈ s.table, r ∈ s.processed ∧
      (Alone K s.table r → r ∈ s.refused ∨ Serves K r (s.view (K.id r)))) ∧
    ∀ sv ∈ s.servers.values, sv.accepting = true → K.id sv.route ∈ s.table.map K.id

/-- The calls are in order, and a listener that is removed has no clients. -/
def Unhindered (a : Action ρ) : Prop :=
  Orderly K s a ∧
    match a with
    | .run i => ∀ table ∈ s.callAt i Call.removal, ∀ e ∈ s.nextRemoval K table,
        ∀ sv ∈ s.servers.get e.2.server, sv.clients = 0
    | _ => True

instance : Decidable s.Quiescent := inferInstanceAs (Decidable (_ ∧ ∀ _ ∈ _, _))

instance [DecidableEq ρ] : Decidable (s.Applied K) :=
  inferInstanceAs (Decidable (_ → (∀ _ ∈ _, _ ∧ (_ → _)) ∧ ∀ _ ∈ _, _))

instance [DecidableEq ρ] (a : Action ρ) : Decidable (s.Unhindered K a) :=
  match a with
  | .run _ => inferInstanceAs (Decidable (_ ∧ ∀ _ ∈ _, ∀ _ ∈ _, ∀ _ ∈ _, _))
  | .call _ => inferInstanceAs (Decidable (_ ∧ True))
  | .bind _ _ => inferInstanceAs (Decidable (_ ∧ True))
  | .connect _ => inferInstanceAs (Decidable (_ ∧ True))
  | .disconnect _ => inferInstanceAs (Decidable (_ ∧ True))
  | .expire _ => inferInstanceAs (Decidable (_ ∧ True))

variable {K s} {s' : Manager ι ρ} {a : Action ρ}

/-- No call has to wait. -/
def Drained (s : Manager ι ρ) : Prop :=
  ∀ c ∈ s.calls, ∀ n ∈ c.waitsFor,
    ∃ sv, s.servers.get n = some sv ∧ sv.clients = 0 ∧ sv.accepting = false

/-- A server that nobody uses any more stays that way. -/
def KeepsUnused (s s' : Manager ι ρ) : Prop :=
  ∀ n sv, s.servers.get n = some sv → sv.clients = 0 → sv.accepting = false →
    ∃ sv', s'.servers.get n = some sv' ∧ sv'.clients = 0 ∧ sv'.accepting = false

omit [DecidableEq ι] in
theorem keepsUnused_of_eq (h : s'.servers = s.servers) : KeepsUnused s s' :=
  fun _ sv hsv hclients hacc => ⟨sv, h ▸ hsv, hclients, hacc⟩

omit [DecidableEq ι] in
/-- One server changes; if it was unused it still is. -/
theorem keepsUnused_of_set {n : Nat} {w : Server ρ} (h : s'.servers = s.servers.set n w)
    (hw : ∀ sv, s.servers.get n = some sv → sv.clients = 0 → sv.accepting = false →
      w.clients = 0 ∧ w.accepting = false) : KeepsUnused s s' := by
  intro m sv hsv hclients hacc
  rw [h, OrderedMap.get_set]
  by_cases hm : m = n
  · subst hm
    rw [if_pos rfl]
    exact ⟨w, rfl, hw sv hsv hclients hacc⟩
  · rw [if_neg hm]
    exact ⟨sv, hsv, hclients, hacc⟩

omit [DecidableEq ι] in
theorem keepsUnused_close (s : Manager ι ρ) (n : Nat) : KeepsUnused s (s.close n) := by
  cases hsv : s.servers.get n with
  | none =>
      apply keepsUnused_of_eq
      simp only [close, hsv]
  | some sv =>
      have hset : (s.close n).servers = s.servers.set n { sv with accepting := false } := by
        simp only [close, hsv]
      apply keepsUnused_of_set hset
      intro sv' hsv' hclients _
      obtain rfl : sv = sv' := Option.some.inj (hsv.symm.trans hsv')
      exact ⟨hclients, rfl⟩

namespace Drained

omit [DecidableEq ι] in
theorem goOn (h : s.Drained) {c : Call ι ρ} {ds : List (Call ι ρ)}
    (hr : Replaces s.calls s'.calls c ds) (hk : KeepsUnused s s')
    (hds : ∀ d ∈ ds, d.waitsFor = none) : s'.Drained := by
  intro d hd n hn
  rcases hr.cases_new hd with hnew | hold
  · rw [hds d hnew] at hn
    cases hn
  · obtain ⟨sv, hsv, hclients, hacc⟩ := h d hold n hn
    exact hk n sv hsv hclients hacc

omit [DecidableEq ι] in
/-- The calls stay where they are. -/
theorem quiet (h : s.Drained) (hc : s'.calls = s.calls) (hk : KeepsUnused s s') : s'.Drained := by
  intro c hcs n hn
  obtain ⟨sv, hsv, hclients, hacc⟩ := h c (hc ▸ hcs) n hn
  exact hk n sv hsv hclients hacc

theorem step (h : s.Drained) (hs : s.Servers K) (ht : Transition K s a s')
    (hok : s.Unhindered K a) : s'.Drained := by
  cases ht with
  | call table =>
      intro c hc n hn
      rcases List.mem_append.1 hc with hc | hc
      · exact h c hc n hn
      · obtain rfl := List.mem_singleton.1 hc
        cases hn
  | @close i table id l hc hl =>
      have hr : Replaces s.calls ((s.close l.server).goOn i table (.closing id l.server)).calls
        ⟨table, .removing⟩ [⟨table, .closing id l.server⟩] := .of_set hc _
      obtain ⟨_, _, k, hk, _⟩ := hs.registered id l (nextRemoval_some hl).1
      obtain ⟨sv, hsv, rfl⟩ := Option.map_eq_some_iff.1 hk
      have hclients : sv.clients = 0 := hok.2 table (callAt_eq hc _) _ hl sv hsv
      intro d hd n hn
      rcases hr.cases_new hd with hnew | hold
      · obtain rfl := List.mem_singleton.1 hnew
        obtain rfl : l.server = n := Option.some.inj hn
        refine ⟨{ sv with accepting := false }, ?_, hclients, rfl⟩
        show (s.close l.server).servers.get l.server = _
        simp only [Manager.close, hsv, OrderedMap.get_set_self]
      · obtain ⟨sv', hsv', hunused⟩ := h d hold n hn
        exact keepsUnused_close s l.server n sv' hsv' hunused.1 hunused.2
  | apply hc hl => exact h.goOn (.of_set hc _) (keepsUnused_of_eq rfl) (by simp [Call.waitsFor])
  | removed hc hsv hclients =>
      exact h.goOn (.of_set hc _) (keepsUnused_of_eq rfl) (by simp [Call.waitsFor])
  | finish hc => exact h.goOn (.of_eraseIdx hc) (keepsUnused_of_eq rfl) (by simp)
  | new hc hl => exact h.goOn (.of_set hc _) (keepsUnused_of_eq rfl) (by simp [Call.waitsFor])
  | unchanged hc hl hsv hchange =>
      exact h.goOn (.of_set hc _) (keepsUnused_of_eq rfl) (by simp [Call.waitsFor])
  | inPlace hc hl hsv hchange =>
      refine h.goOn (.of_set hc _) (keepsUnused_of_set rfl ?_) (by simp [Call.waitsFor])
      intro sv' hsv' hclients hacc
      obtain rfl := Option.some.inj (hsv.symm.trans hsv')
      exact ⟨hclients, hacc⟩
  | rebind hc hl hsv hchange =>
      exact h.goOn (.of_set hc _) (keepsUnused_of_eq rfl) (by simp [Call.waitsFor])
  | listening hc hport =>
      refine h.goOn (.of_set hc _) (keepsUnused_of_set rfl ?_) (by simp [Call.waitsFor])
      intro sv hsv _ _
      exact absurd (hs.fresh _ _ (socket_of_get hsv)) (Nat.lt_irrefl _)
  | refused hc => exact h.goOn (.of_set hc _) (keepsUnused_of_eq rfl) (by simp [Call.waitsFor])
  | register hc hsv =>
      exact h.goOn (.of_set hc _) (keepsUnused_of_eq rfl) (by simp [Call.waitsFor])
  | connect hsv hopen =>
      refine h.quiet rfl (keepsUnused_of_set rfl ?_)
      intro sv' hsv' _ hacc
      obtain rfl := Option.some.inj (hsv.symm.trans hsv')
      rw [hopen] at hacc
      cases hacc
  | disconnect hsv hclients =>
      refine h.quiet rfl (keepsUnused_of_set rfl ?_)
      intro sv' hsv' hnone _
      obtain rfl := Option.some.inj (hsv.symm.trans hsv')
      exact absurd hclients (hnone ▸ Nat.lt_irrefl 0)
  | @expire n hn =>
      exact h.quiet rfl (keepsUnused_close { s with overlap := s.overlap.erase n } n)

end Drained

variable (K) in
/-- A listener serves the route, or the host has refused it. -/
def attempted : Goal ρ := fun r view refused => refused ∨ Serves K r view

omit [DecidableEq ι] in
theorem attempted_sound : (attempted K).Sound K where
  unchanged := fun _ _ _ hplaced hacc hchange => .inr (serves_unchanged hplaced hacc hchange)
  bound := fun _ _ _ hport => .inr (serves_bound hport)

theorem reaches_attempted (s : Manager ι ρ) (a : Action ρ) : Reaches K (attempted K) s a := by
  cases a with
  | run i =>
      intro r _ k _ hplaced hacc hchange
      exact .inr (serves_inPlace hplaced hacc hchange)
  | bind i port =>
      cases port with
      | some p => trivial
      | none => exact fun _ _ => .inl trivial
  | _ => trivial

theorem Ordered.applied (h : s.Ordered K (attempted K)) (hd : s.Drained) : s.Applied K := by
  rintro ⟨hover, hwaits⟩
  have hidle : s.calls = [] := by
    apply List.eq_nil_iff_forall_not_mem.2
    intro c hc
    obtain ⟨n, hn, sv, hsv, hclients⟩ := hwaits c hc
    obtain ⟨sv', hsv', hnone, _⟩ := hd c hc n hn
    obtain rfl : sv = sv' := Option.some.inj ((Option.mem_def.1 hsv).symm.trans hsv')
    exact hclients hnone
  constructor
  · intro r hr
    exact ⟨h.processed_of_idle hidle r hr, h.goal_of_idle hidle hr⟩
  · intro sv hmem hacc
    obtain ⟨n, hsv⟩ := (OrderedMap.mem_values_iff _).1 hmem
    rcases h.accepting_of_idle hidle (socket_of_get hsv) hacc with hmem | ⟨hid, _⟩
    · rw [hover] at hmem
      cases hmem
    · exact hid

/-- In a run without hindrance every table is applied. -/
theorem applied_of_unhindered (K : Kind ι ρ) {as : List (Action ρ)}
    (hok : Admits (Manager.step K) (Unhindered K) start as) :
    Throughout (Manager.step K) (Applied K) start as := by
  have hstep : ∀ (s : Manager ι ρ) a s', (s.Ordered K (attempted K) ∧ s.Drained) →
      s.Unhindered K a → s.step K a = some s' → (s'.Ordered K (attempted K) ∧ s'.Drained) := by
    intro s a s' ⟨hordered, hdrained⟩ hok hs
    exact ⟨hordered.step attempted_sound hs hok.1 (reaches_attempted s a),
      hdrained.step hordered.toServers (step_transition hs) hok⟩
  exact throughout_of_admits hstep (fun _ hi => hi.1.applied hi.2)
    ⟨start_ordered, fun _ hc => by cases hc⟩ hok

variable (ι) in
/-- Of both managers: in a run without hindrance every table is applied. -/
theorem tables_applied (bindIp : Text) :
    (∀ as : List (Action (TcpRoute ι)),
      Admits (Manager.step (tcpKind bindIp)) (Unhindered (tcpKind bindIp)) start as →
        Throughout (Manager.step (tcpKind bindIp)) (Applied (tcpKind bindIp)) start as) ∧
    ∀ as : List (Action (EgressRoute ι)),
      Admits (Manager.step egressKind) (Unhindered egressKind) start as →
        Throughout (Manager.step egressKind) (Applied egressKind) start as :=
  ⟨fun _ hok => applied_of_unhindered (tcpKind bindIp) hok,
    fun _ hok => applied_of_unhindered egressKind hok⟩

end Overlap

/-- The heartbeat passes the table again while the host is binding its route. -/
def repeated : List (Action (TcpRoute Nat)) :=
  [.call [route 8080 "nas"], .run 0, .run 0, .call [route 8080 "nas"], .run 1, .run 1,
    .bind 0 (some 8080), .run 0, .bind 1 none, .run 1, .run 0]

/-- Two calls change the list of the door; the second is the first to do it. -/
def repeatedDoor : List (Action (EgressRoute Nat)) :=
  opens (door "192.168.1.5" (some ["10.0.0.7"])) (some 9100) ++
    [.call [door "192.168.1.5" (some [])], .run 0, .call [door "192.168.1.5" (some [])], .run 1,
      .run 1, .run 0, .run 0, .run 0]

theorem tables_applied_repeated :
    (exec (step (tcpKind gateway)) start repeated).any (fun s => decide s.Quiescent) = true ∧
      Throughout (step (tcpKind gateway)) (Applied (tcpKind gateway)) start repeated ∧
      Throughout (step egressKind) (Applied egressKind) start repeatedDoor := by
  refine ⟨by decide +kernel, (tables_applied Nat gateway).1 repeated ?_,
    (tables_applied Nat gateway).2 repeatedDoor ?_⟩
  · exact admits_of_checkRun (fun _ _ h => of_decide_eq_true h)
      (show checkRun (step (tcpKind gateway)) (fun s a => decide (s.Unhindered (tcpKind gateway) a))
          start repeated = true by
        decide +kernel)
  · exact admits_of_checkRun (fun _ _ h => of_decide_eq_true h)
      (show checkRun (step egressKind) (fun s a => decide (s.Unhindered egressKind a)) start
          repeatedDoor = true by
        decide +kernel)

/-- Another route, on another port. -/
def second : TcpRoute Nat := { route 8081 "camera" with id := 2 }

/-- The route with the client is replaced by another: the call waits for the client. -/
def waiting : List (Action (TcpRoute Nat)) :=
  bindsRoute 8080 "nas" ++ [.connect 0, .call [second], .run 0]

/-- The table without the route overtakes the one with it. -/
def outdated : List (Action (TcpRoute Nat)) :=
  [.call [route 8080 "nas"], .run 0, .run 0, .call [], .run 1, .run 1, .bind 0 (some 8080), .run 0,
    .run 0]

theorem not_applied_of_any {as : List (Action (TcpRoute Nat))}
    (h : (exec (step (tcpKind gateway)) start as).any
      (fun s => decide (¬ s.Applied (tcpKind gateway))) = true) :
    ∃ s, exec (step (tcpKind gateway)) start as = some s ∧ ¬ s.Applied (tcpKind gateway) := by
  rcases (Option.any_eq_true ..).1 h with ⟨s, hs, hbad⟩
  exact ⟨s, hs, of_decide_eq_true hbad⟩

/-- The new route is not looked at, or the old one is served although the table is without it. -/
theorem table_not_applied :
    (∃ s, exec (step (tcpKind gateway)) start waiting = some s ∧
      ¬ s.Applied (tcpKind gateway)) ∧
    ∃ s, exec (step (tcpKind gateway)) start outdated = some s ∧
      ¬ s.Applied (tcpKind gateway) := by
  constructor
  · exact not_applied_of_any (by decide +kernel)
  · exact not_applied_of_any (by decide +kernel)

end Manager

end Proxy
end GateControl
