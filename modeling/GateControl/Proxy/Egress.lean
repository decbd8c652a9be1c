import Mathlib.Data.List.Sort
import GateControl.Proxy.Allowlist
import GateControl.Proxy.Sequential

/-!
# Egress — who is let in follows the table

Each listener of `EgressProxyManager` asks the route object it was bound with, or that has been
changed since, who is let in.  What a listener asks differs from the table where a rebind fails, and
where the table leaves out the list that the object has; and an entry of the list that is no network
may let others in than it names.
-/

namespace GateControl
namespace Proxy

open Library Edge

/-- An entry of `egress_routes`; the list of sources may be missing, or be null. -/
structure EgressRoute (ι : Type) where
  id : ι
  lan_bind_ip : Text
  lan_listen_port : Nat
  tunnel_target_host : Text
  tunnel_target_port : Nat
  allowed_source_ips : Option (Option (List Text))
  deriving DecidableEq

/-- `sort` compares the code units. -/
def sorted (l : List Text) : List Text := l.insertionSort fun a b => codeUnits a ≤ codeUnits b

namespace EgressRoute

variable {ι : Type}

/-- `allowed_source_ips || []` -/
def sources (r : EgressRoute ι) : List Text := r.allowed_source_ips.join.getD []

def target (r : EgressRoute ι) : Target := ⟨r.tunnel_target_host, r.tunnel_target_port⟩

/-- `_bindChanged` -/
def bindChanged (a b : EgressRoute ι) : Bool :=
  a.lan_bind_ip ≠ b.lan_bind_ip || a.lan_listen_port ≠ b.lan_listen_port

/-- `_softChanged` -/
def softChanged (a b : EgressRoute ι) : Bool :=
  a.tunnel_target_host ≠ b.tunnel_target_host || a.tunnel_target_port ≠ b.tunnel_target_port ||
    sorted a.sources ≠ sorted b.sources

/-- `Object.assign(a, r)`: a field that `r` does not have stays. -/
def assign (a r : EgressRoute ι) : EgressRoute ι :=
  { r with
    allowed_source_ips :=
      match r.allowed_source_ips with
      | none => a.allowed_source_ips
      | some l => some l }

/-- What `setRoutes` does with a route that has a listener already. -/
def change (a r : EgressRoute ι) : Change :=
  if a.bindChanged r then .rebind else if a.softChanged r then .inPlace else .none

/-- `_handleConnection`: the upstream a client is connected with, if it is let in. -/
def handleConnection (r : EgressRoute ι) (remoteAddress : Option Text) : Option Target :=
  if ipInAllowlist remoteAddress r.sources then some r.target else none

/-! ## What the changes mean -/

theorem place_of_bindChanged {a r : EgressRoute ι} (h : a.bindChanged r = false) :
    a.lan_bind_ip = r.lan_bind_ip ∧ a.lan_listen_port = r.lan_listen_port := by
  simpa [bindChanged] using h

theorem of_softChanged {a r : EgressRoute ι} (h : a.softChanged r = false) :
    a.target = r.target ∧ sorted a.sources = sorted r.sources := by
  simp only [softChanged, Bool.or_eq_false_iff, decide_eq_false_iff_not, not_not] at h
  exact ⟨by rw [target, target, h.1.1, h.1.2], h.2⟩

theorem handleConnection_eq_some (r : EgressRoute ι) (src : Option Text) (t : Target) :
    r.handleConnection src = some t ↔ ipInAllowlist src r.sources = true ∧ t = r.target := by
  rw [handleConnection]
  split
  · rename_i hin
    simp [hin, eq_comm]
  · rename_i hout
    simp [hout]

/-- Routes with the same sources and the same target let the same clients in. -/
theorem handleConnection_congr {a r : EgressRoute ι} (htarget : a.target = r.target)
    (hsources : ∀ ip, (∃ cidr ∈ a.sources, Reads ip cidr) ↔ ∃ cidr ∈ r.sources, Reads ip cidr)
    (src : Option Text) : a.handleConnection src = r.handleConnection src := by
  apply Option.ext
  intro t
  rw [handleConnection_eq_some, handleConnection_eq_some, ipInAllowlist_iff_reads,
    ipInAllowlist_iff_reads, htarget]
  simp only [hsources]

theorem handleConnection_of_softChanged {a r : EgressRoute ι} (h : a.softChanged r = false)
    (src : Option Text) : a.handleConnection src = r.handleConnection src := by
  obtain ⟨htarget, hsorted⟩ := of_softChanged h
  have hperm : a.sources.Perm r.sources :=
    calc
      a.sources.Perm (sorted a.sources) := (List.perm_insertionSort _ _).symm
      _ = sorted r.sources := hsorted
      List.Perm _ r.sources := List.perm_insertionSort _ _
  apply handleConnection_congr htarget
  intro ip
  simp only [hperm.mem_iff]

/-- The sources of a route that names them; otherwise those that were there must be no networks. -/
theorem handleConnection_assign {a r : EgressRoute ι}
    (h : r.allowed_source_ips ≠ none ∨ ∀ cidr ∈ a.sources, readEntry cidr = none)
    (src : Option Text) : (assign a r).handleConnection src = r.handleConnection src := by
  cases hr : r.allowed_source_ips with
  | some l =>
      have hsame : assign a r = r := by
        cases r
        simp_all [assign]
      rw [hsame]
  | none =>
      have hunread := h.resolve_left (not_not_intro hr)
      have hnone : r.sources = [] := by simp [sources, hr]
      have hold : (assign a r).sources = a.sources := by simp [sources, assign, hr]
      have htarget : (assign a r).target = r.target := rfl
      apply handleConnection_congr htarget
      intro ip
      rw [hold, hnone]
      constructor
      · rintro ⟨cidr, hmem, base, n, hread, _⟩
        rw [hunread cidr hmem] at hread
        cases hread
      · rintro ⟨cidr, hmem, _⟩
        cases hmem

end EgressRoute

section Egress

variable {ι : Type}

theorem egress_change_none {a r : EgressRoute ι} (h : a.change r = .none) :
    a.bindChanged r = false ∧ a.softChanged r = false := by
  unfold EgressRoute.change at h
  split at h
  · cases h
  · split at h
    · cases h
    · simp_all

theorem egress_change_inPlace {a r : EgressRoute ι} (h : a.change r = .inPlace) :
    a.bindChanged r = false := by
  unfold EgressRoute.change at h
  split at h
  · cases h
  · simp_all

def egressKind : Kind ι (EgressRoute ι) where
  id := EgressRoute.id
  place r := ⟨r.lan_bind_ip, r.lan_listen_port⟩
  target := EgressRoute.target
  change := EgressRoute.change
  update := EgressRoute.assign
  same_of_none a r h := by
    obtain ⟨hbind, hsoft⟩ := egress_change_none h
    obtain ⟨hip, hport⟩ := EgressRoute.place_of_bindChanged hbind
    exact ⟨by rw [hip, hport], (EgressRoute.of_softChanged hsoft).1⟩
  place_of_inPlace a r h := by
    obtain ⟨hip, hport⟩ := EgressRoute.place_of_bindChanged (egress_change_inPlace h)
    rw [hip, hport]
  update_id _ _ := rfl
  update_place _ _ := rfl
  update_target _ _ := rfl

namespace Manager

variable [DecidableEq ι] (s : Manager ι (EgressRoute ι))

/-- Calls come one after the other, with lists of networks; a change in place comes with a list, or
nobody was let in so far; and if the host refuses a route, the listener there asks the same list and
has the same target. -/
def Follows : Action (EgressRoute ι) → Prop
  | .call table => s.calls = [] ∧ ∀ r ∈ table, ∀ cidr ∈ r.sources, Plain cidr
  | .run i => ∀ r ∈ s.callAt i Call.next, ∀ k ∈ s.view r.id, k.route.change r = .inPlace →
      r.allowed_source_ips ≠ none ∨ ∀ cidr ∈ k.route.sources, readEntry cidr = none
  | .bind i none =>
      ∀ r ∈ s.callAt i Call.binding, ∀ k ∈ s.view r.id, k.route.softChanged r = false
  | _ => True

instance (a : Action (EgressRoute ι)) : Decidable (s.Follows a) :=
  match a with
  | .call _ => inferInstanceAs (Decidable (_ = [] ∧ ∀ _ ∈ _, ∀ _ ∈ _, _))
  | .run _ => inferInstanceAs (Decidable (∀ _ ∈ _, ∀ _ ∈ _, _ → _))
  | .bind _ none => inferInstanceAs (Decidable (∀ _ ∈ _, ∀ _ ∈ _, _))
  | .bind _ (some _) => .isTrue trivial
  | .connect _ => .isTrue trivial
  | .disconnect _ => .isTrue trivial
  | .expire _ => .isTrue trivial

/-- When a call has ended, a listener that is registered for a route of the table lets in the
addresses that lie in a network of the route's list, and forwards to its target. -/
def Current : Prop :=
  s.calls = [] → ∀ r ∈ s.table, Alone egressKind s.table r → ∀ k ∈ s.view r.id,
    ∀ src ip, PeerAddress src ip → ∀ t, k.route.handleConnection src = some t ↔
      (∃ cidr ∈ r.sources, ip.any (inNet readIPv4 cidr) = true) ∧ t = r.target

variable {s} {a : Action (EgressRoute ι)}

variable (ι) in
def egressGoal : Goal (EgressRoute ι) := fun r view _ =>
  ∀ k ∈ view, ∀ src, k.route.handleConnection src = r.handleConnection src

omit [DecidableEq ι] in
theorem egressGoal_sound : (egressGoal ι).Sound egressKind where
  unchanged := fun r k _ _ _ hchange k' hk' src => by
    obtain rfl := Option.some.inj hk'
    exact EgressRoute.handleConnection_of_softChanged (egress_change_none hchange).2 src
  bound := fun r _ _ _ k' hk' src => by
    obtain rfl := Option.some.inj hk'
    rfl

omit [DecidableEq ι] in
theorem Follows.sequential [DecidableEq ι] (h : s.Follows a) : s.Sequential a := by
  cases a with
  | call table => exact h.1
  | _ => trivial

theorem Follows.reaches (h : s.Follows a) : Reaches egressKind (egressGoal ι) s a := by
  cases a with
  | run i =>
      intro r hr k hk _ _ hchange k' hk' src
      obtain rfl := Option.some.inj hk'
      exact EgressRoute.handleConnection_assign (h r hr k hk hchange) src
  | bind i port =>
      cases port with
      | some p => trivial
      | none =>
          intro r hr k hk src
          exact EgressRoute.handleConnection_of_softChanged (h r hr k hk) src
  | _ => trivial

/-- The lists of the table are lists of networks. -/
def PlainTable (s : Manager ι (EgressRoute ι)) : Prop :=
  ∀ r ∈ s.table, ∀ cidr ∈ r.sources, Plain cidr

theorem PlainTable.step {s' : Manager ι (EgressRoute ι)} (h : s.PlainTable) (hfollows : s.Follows a)
    (hs : Transition egressKind s a s') : s'.PlainTable := by
  cases hs with
  | call table => exact hfollows.2
  | _ => exact h

theorem Ordered.current (h : s.Ordered egressKind (egressGoal ι)) (hplain : s.PlainTable) :
    s.Current := by
  intro hidle r hr halone k hk src ip hsrc t
  rw [h.goal_of_idle hidle hr halone k hk src, EgressRoute.handleConnection_eq_some,
    ipInAllowlist_iff hsrc (hplain r hr)]

/-- If the tables hold networks and the listeners are left with what the table says, they follow
it. -/
theorem admission_current (as : List (Action (EgressRoute ι)))
    (hok : Admits (step egressKind) Follows start as) :
    Throughout (step egressKind) Current (start : Manager ι (EgressRoute ι)) as := by
  have hstep : ∀ (s : Manager ι (EgressRoute ι)) a s',
      (s.Single egressKind ∧ s.Ordered egressKind (egressGoal ι) ∧ s.PlainTable) → s.Follows a →
      s.step egressKind a = some s' →
      (s'.Single egressKind ∧ s'.Ordered egressKind (egressGoal ι) ∧ s'.PlainTable) := by
    intro s a s' ⟨hsingle, hordered, hplain⟩ hfollows hs
    have horderly := hsingle.orderly hfollows.sequential
    exact ⟨hsingle.step (step_transition hs) hfollows.sequential,
      hordered.step egressGoal_sound hs horderly hfollows.reaches,
      hplain.step hfollows (step_transition hs)⟩
  refine throughout_of_admits hstep (fun _ hi => hi.2.1.current hi.2.2)
    ⟨Single.start, start_ordered, fun r hr => ?_⟩ hok
  cases hr

/-- The door to the printer, for these sources. -/
def door (ip : String) (sources : Option (List String)) : EgressRoute Nat :=
  ⟨1, ip.toList, 9100, "printer".toList, 9100, sources.map fun l => some (l.map String.toList)⟩

/-- A call with one route that has no listener on its address yet; the host binds it or refuses. -/
def opens (r : EgressRoute Nat) (port : Option Nat) : List (Action (EgressRoute Nat)) :=
  [.call [r], .run 0, .run 0, .bind 0 port, .run 0] ++ (port.map fun _ => .run 0).toList

/-- A call with one route that changes in place. -/
def changes (r : EgressRoute Nat) : List (Action (EgressRoute Nat)) :=
  [.call [r], .run 0, .run 0, .run 0]

/-- The list is shortened in place; then the listener moves to another address with a new list. -/
def shortened : List (Action (EgressRoute Nat)) :=
  opens (door "192.168.1.5" (some ["192.168.1.0/24", "10.0.0.7"])) (some 9100) ++
    changes (door "192.168.1.5" (some ["10.0.0.7"])) ++
    opens (door "192.168.1.6" (some [])) (some 9100)

theorem admission_current_shortened :
    ((exec (step egressKind) start shortened).bind fun s => s.view 1).any
        (fun k => (k.route.handleConnection (some "10.0.0.7".toList)).isNone) = true ∧
      Throughout (step egressKind) Current start shortened := by
  refine ⟨by decide +kernel, admission_current shortened ?_⟩
  exact admits_of_checkRun (fun _ _ h => of_decide_eq_true h)
    (show checkRun (step egressKind) (fun s a => decide (s.Follows a)) start shortened = true by
      decide +kernel)

/-- The next table leaves the list out. -/
def omitted : List (Action (EgressRoute Nat)) :=
  opens (door "192.168.1.5" (some ["192.168.1.0/24"])) (some 9100) ++
    changes (door "192.168.1.5" none)

/-- The next table has no source left and another address, which the host refuses. -/
def displaced : List (Action (EgressRoute Nat)) :=
  opens (door "192.168.1.5" (some ["192.168.1.0/24"])) (some 9100) ++
    opens (door "192.168.1.6" (some [])) none

/-- An entry with a mask in the place of the length is read as the network of all addresses. -/
def masked : List (Action (EgressRoute Nat)) :=
  opens (door "192.168.1.5" (some ["10.0.0.0/0.0.0.255"])) (some 9100)

/-- A client whose address lies in no network of the last table. -/
def visitor : Text := "192.168.1.9".toList

/-- No network of the table has the visitor in it, but the visitor is let in. -/
def LetsVisitorIn (s : Manager Nat (EgressRoute Nat)) : Prop :=
  s.calls = [] ∧ ∃ r ∈ s.table, s.table = [r] ∧
    (∀ cidr ∈ r.sources, inNet readIPv4 cidr (ipToInt visitor) = false) ∧
    ∃ k, k ∈ s.view r.id ∧ k.route.handleConnection (some visitor) = some k.route.target

instance (s : Manager Nat (EgressRoute Nat)) : Decidable s.LetsVisitorIn :=
  inferInstanceAs (Decidable (_ ∧ ∃ r ∈ _, _))

theorem LetsVisitorIn.not_current {s : Manager Nat (EgressRoute Nat)} (h : s.LetsVisitorIn) :
    ¬ s.Current := by
  obtain ⟨hidle, r, hr, htable, hout, k, hk, hlets⟩ := h
  intro hcurrent
  have halone : Alone egressKind s.table r := by
    intro r' hr' _
    rw [htable] at hr'
    exact List.mem_singleton.1 hr'
  have hpeer : PeerAddress (some visitor) (some (ipToInt visitor)) := .ipv4 (by decide)
  obtain ⟨⟨cidr, hcidr, hin⟩, _⟩ := (hcurrent hidle r hr halone k hk _ _ hpeer _).1 hlets
  rw [Option.any_some, hout cidr hcidr] at hin
  cases hin

/-- After a run of calls one after another, clients are let in that no list names. -/
def Stale (as : List (Action (EgressRoute Nat))) : Prop :=
  Admits (step egressKind) Sequential start as ∧
    ∃ s, exec (step egressKind) start as = some s ∧ ¬ s.Current

theorem stale_of_check {as : List (Action (EgressRoute Nat))}
    (h : (checkRun (step egressKind) (fun s a => decide (s.Sequential a)) start as &&
      (exec (step egressKind) start as).any fun s => decide s.LetsVisitorIn) = true) :
    Stale as := by
  obtain ⟨hsequential, hrun⟩ := Bool.and_eq_true_iff.1 h
  rcases (Option.any_eq_true ..).1 hrun with ⟨s, hs, hlets⟩
  refine ⟨admits_of_checkRun (fun _ _ h => of_decide_eq_true h) hsequential, s, hs, ?_⟩
  exact (of_decide_eq_true hlets : s.LetsVisitorIn).not_current

theorem admission_stale : Stale omitted ∧ Stale displaced ∧ Stale masked := by
  refine ⟨?_, ?_, ?_⟩
  · exact stale_of_check (by decide +kernel)
  · exact stale_of_check (by decide +kernel)
  · exact stale_of_check (by decide +kernel)

end Manager

end Egress

end Proxy
end GateControl
