import GateControl.Proxy.Sequential

/-!
# Tcp — the TCP listeners follow the table

`TcpProxyManager` binds the listener of a changed route before it closes the old one.  If the old
one, or any other, still holds the port, the host refuses and the route is skipped; otherwise every
route of a table is served once the call has ended.
-/

namespace GateControl
namespace Proxy

open Library

/-- An entry of `l4_routes`. -/
structure TcpRoute (ι : Type) where
  id : ι
  listen_port : Nat
  target_lan_host : Text
  target_lan_port : Nat
  forcePortChange : Bool
  deriving DecidableEq

namespace TcpRoute

variable {ι : Type}

/-- `_handleConnection`: the upstream a client is connected with. -/
def handleConnection (r : TcpRoute ι) : Target := ⟨r.target_lan_host, r.target_lan_port⟩

/-- What `setRoutes` does with a route that has a listener already. -/
def change (a r : TcpRoute ι) : Change :=
  if a.target_lan_port ≠ r.target_lan_port ∨ a.target_lan_host ≠ r.target_lan_host ∨
      a.listen_port ≠ r.listen_port ∨ r.forcePortChange then .rebind
  else .none

theorem change_none {a r : TcpRoute ι} (h : a.change r = .none) :
    a.listen_port = r.listen_port ∧ a.handleConnection = r.handleConnection := by
  unfold change at h
  split at h
  · cases h
  · rename_i hsame
    simp only [ne_eq, not_or, not_not] at hsame
    exact ⟨hsame.2.2.1, by rw [handleConnection, handleConnection, hsame.1, hsame.2.1]⟩

theorem change_ne_inPlace (a r : TcpRoute ι) : a.change r ≠ .inPlace := by
  unfold change
  split <;> simp

end TcpRoute

section Tcp

variable {ι : Type} [DecidableEq ι] (bindIp : Text)

def tcpKind : Kind ι (TcpRoute ι) where
  id := TcpRoute.id
  place r := ⟨bindIp, r.listen_port⟩
  target := TcpRoute.handleConnection
  change := TcpRoute.change
  update _ r := r
  same_of_none a r h := ⟨by rw [(TcpRoute.change_none h).1], (TcpRoute.change_none h).2⟩
  place_of_inPlace a r h := absurd h (a.change_ne_inPlace r)
  update_id _ _ := rfl
  update_place _ _ := rfl
  update_target _ _ := rfl

namespace Manager

variable (s : Manager ι (TcpRoute ι))

/-- One of the manager's own open listeners has this place. -/
def Holds (q : Place) : Prop := ∃ sv ∈ s.servers.values, sv.accepting = true ∧ sv.place = q

instance (q : Place) : Decidable (s.Holds q) := inferInstanceAs (Decidable (∃ sv ∈ _, _))

/-- Calls come one after the other with distinct ids, and the host refuses an address exactly if one
of the manager's own open listeners holds it. -/
def Exclusive : Action (TcpRoute ι) → Prop
  | .call table => s.calls = [] ∧ (table.map TcpRoute.id).Nodup
  | .bind i (some port) => ∀ _ ∈ s.callAt i Call.binding, ¬ s.Holds ⟨bindIp, port⟩
  | .bind i none => ∀ r ∈ s.callAt i Call.binding, s.Holds ⟨bindIp, r.listen_port⟩
  | _ => True

instance (a : Action (TcpRoute ι)) : Decidable (s.Exclusive bindIp a) :=
  match a with
  | .call _ => inferInstanceAs (Decidable (_ ∧ _))
  | .bind _ (some _) => inferInstanceAs (Decidable (∀ _ ∈ _, _))
  | .bind _ none => inferInstanceAs (Decidable (∀ _ ∈ _, _))
  | .run _ => .isTrue trivial
  | .connect _ => .isTrue trivial
  | .disconnect _ => .isTrue trivial
  | .expire _ => .isTrue trivial

/-- When a route is given to the host, none of the open listeners has its port, unless it is the
route's own and forwards as the route says (the new one was forced). -/
def PortFree : Action (TcpRoute ι) → Prop
  | .bind i _ => ∀ r ∈ s.callAt i Call.binding,
      ¬ s.Holds ⟨bindIp, r.listen_port⟩ ∨ Serves (tcpKind bindIp) r (s.view r.id)
  | _ => True

instance (a : Action (TcpRoute ι)) : Decidable (s.PortFree bindIp a) :=
  match a with
  | .bind _ _ => inferInstanceAs (Decidable (∀ _ ∈ _, _))
  | .call _ => .isTrue trivial
  | .run _ => .isTrue trivial
  | .connect _ => .isTrue trivial
  | .disconnect _ => .isTrue trivial
  | .expire _ => .isTrue trivial

/-- When a call has ended, every route of the table has a registered listener on its port that
forwards to its target. -/
def Converged : Prop :=
  s.calls = [] → ∀ r ∈ s.table, ∃ l, l ∈ s.listeners.get r.id ∧ ∃ k, k ∈ s.socket l.server ∧
    k.accepting = true ∧ k.place = ⟨bindIp, l.port⟩ ∧ portFits r.listen_port l.port = true ∧
      k.route.handleConnection = r.handleConnection

instance : Decidable (s.Converged bindIp) := inferInstanceAs (Decidable (_ → ∀ _ ∈ _, _))

variable {bindIp} {s s' : Manager ι (TcpRoute ι)} {a : Action (TcpRoute ι)}

variable (ι bindIp) in
def tcpGoal : Goal (TcpRoute ι) := fun r view _ => Serves (tcpKind bindIp) r view

omit [DecidableEq ι] in
theorem tcpGoal_sound : (tcpGoal ι bindIp).Sound (tcpKind bindIp) where
  unchanged := fun _ _ _ hplaced hacc hchange => serves_unchanged hplaced hacc hchange
  bound := fun _ _ _ hport => serves_bound hport

omit [DecidableEq ι] in
theorem Exclusive.sequential (h : s.Exclusive bindIp a) : s.Sequential a := by
  cases a with
  | call table => exact h.1
  | _ => trivial

/-- If the port is free, the host does not refuse. -/
theorem PortFree.reaches (h : s.PortFree bindIp a) (hex : s.Exclusive bindIp a) :
    Reaches (tcpKind bindIp) (tcpGoal ι bindIp) s a := by
  cases a with
  | run i =>
      intro r _ k _ hplaced hacc hchange
      exact serves_inPlace hplaced hacc hchange
  | bind i port =>
      cases port with
      | some p => trivial
      | none =>
          intro r hr
          exact (h r hr).resolve_left (not_not_intro (hex r hr))
  | _ => trivial

/-- The ids of the table are distinct. -/
theorem distinct_step (h : (s.table.map TcpRoute.id).Nodup)
    (ht : Transition (tcpKind bindIp) s a s') (hok : s.Exclusive bindIp a) :
    (s'.table.map TcpRoute.id).Nodup := by
  cases ht with
  | call table => exact hok.2
  | _ => exact h

theorem Ordered.converged (h : s.Ordered (tcpKind bindIp) (tcpGoal ι bindIp))
    (hids : (s.table.map TcpRoute.id).Nodup) : s.Converged bindIp := by
  intro hidle r hr
  have halone : Alone (tcpKind bindIp) s.table r :=
    fun r' hr' hid => List.inj_on_of_nodup_map hids hr' hr hid
  obtain ⟨k, hk, hacc, haddress, hport, htarget⟩ := h.goal_of_idle hidle hr halone
  obtain ⟨l, hl, hk⟩ := Option.bind_eq_some_iff.1 hk
  obtain ⟨_, _, k', hk', _, hlport⟩ := h.registered _ l hl
  obtain rfl : k = k' := Option.some.inj (hk.symm.trans hk')
  refine ⟨l, hl, k, hk, hacc, ?_, ?_, htarget⟩
  · rw [hlport, ← show k.place.address = bindIp from haddress]
  · rw [hlport]
    exact hport

variable (bindIp)

/-- If the ports are free when they are asked for, every table is served. -/
theorem routes_converge (as : List (Action (TcpRoute ι)))
    (hok : Admits (step (tcpKind bindIp))
      (fun s a => s.Exclusive bindIp a ∧ s.PortFree bindIp a) start as) :
    Throughout (step (tcpKind bindIp)) (Converged bindIp) start as := by
  have hstep : ∀ (s : Manager ι (TcpRoute ι)) a s',
      (s.Single (tcpKind bindIp) ∧ s.Ordered (tcpKind bindIp) (tcpGoal ι bindIp) ∧
        (s.table.map TcpRoute.id).Nodup) →
      s.Exclusive bindIp a ∧ s.PortFree bindIp a → s.step (tcpKind bindIp) a = some s' →
      (s'.Single (tcpKind bindIp) ∧ s'.Ordered (tcpKind bindIp) (tcpGoal ι bindIp) ∧
        (s'.table.map TcpRoute.id).Nodup) := by
    intro s a s' ⟨hsingle, hordered, hids⟩ ⟨hex, hfree⟩ hs
    have ht := step_transition hs
    have horderly := hsingle.orderly hex.sequential
    exact ⟨hsingle.step ht hex.sequential,
      hordered.step tcpGoal_sound hs horderly (hfree.reaches hex), distinct_step hids ht hex⟩
  exact throughout_of_admits hstep (fun _ hi => hi.2.1.converged hi.2.2)
    ⟨Single.start, start_ordered, List.nodup_nil⟩ hok

/-- The address of the gateway in the tunnel. -/
def gateway : Text := "10.8.0.2".toList

/-- Route 1, on this port, to this host. -/
def route (port : Nat) (host : String) : TcpRoute Nat := ⟨1, port, host.toList, 443, false⟩

/-- A call with one route that the host binds. -/
def bindsRoute (port : Nat) (host : String) : List (Action (TcpRoute Nat)) :=
  [.call [route port host], .run 0, .run 0, .bind 0 (some port), .run 0, .run 0]

/-- The route gets another port and another target, and within the ten seconds a third port. -/
def moved : List (Action (TcpRoute Nat)) :=
  bindsRoute 8080 "nas" ++ [.connect 0] ++ bindsRoute 8081 "camera" ++ bindsRoute 8082 "camera" ++
    [.expire 0, .expire 1] ++ bindsRoute 8080 "nas"

theorem routes_converge_moved :
    ((exec (step (tcpKind gateway)) start moved).bind fun s => s.view 1).any
        (fun k => k.accepting && k.route = route 8080 "nas") = true ∧
      Throughout (step (tcpKind gateway)) (Converged gateway) start moved := by
  refine ⟨by decide +kernel, routes_converge gateway moved ?_⟩
  exact admits_of_checkRun (fun _ _ h => of_decide_eq_true h)
    (show checkRun (step (tcpKind gateway))
        (fun s a => decide (s.Exclusive gateway a ∧ s.PortFree gateway a)) start moved = true by
      decide +kernel)

/-- Only the target of the route changes: its own listener holds the port. -/
def retargeted : List (Action (TcpRoute Nat)) :=
  bindsRoute 8080 "nas" ++ [.call [route 8080 "camera"], .run 0, .run 0, .bind 0 none, .run 0]

/-- The host refuses, and the old target stays. -/
theorem route_stays :
    Admits (step (tcpKind gateway)) (Exclusive gateway) start retargeted ∧
      ∃ s, exec (step (tcpKind gateway)) start retargeted = some s ∧
        ¬ s.Converged gateway := by
  constructor
  · exact admits_of_checkRun (fun _ _ h => of_decide_eq_true h)
      (show checkRun (step (tcpKind gateway)) (fun s a => decide (s.Exclusive gateway a))
          start retargeted = true by
        decide +kernel)
  · have hrun : (exec (step (tcpKind gateway)) start retargeted).any
        (fun s => decide (¬ s.Converged gateway)) = true := by
      decide +kernel
    rcases (Option.any_eq_true ..).1 hrun with ⟨s, hs, hbad⟩
    exact ⟨s, hs, of_decide_eq_true hbad⟩

end Manager

end Tcp

end Proxy
end GateControl
