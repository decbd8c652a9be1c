import Mathlib.Algebra.Order.Sub.Unbundled.Basic
import Mathlib.Algebra.BigOperators.Group.Multiset.Basic
import GateControl.Library.OrderedMap
import GateControl.Library.Text
import GateControl.Library.Transition

/-!
# Listeners — binding the LAN addresses and closing them again

`DnsListener` binds a UDP and a TCP socket on each address of the LAN, `LanBlobServer` an HTTPS
server.  Their `reconcile` is one loop: close what is no longer wanted, then bind the missing
addresses one after the other, waiting for every bind.  `Listener` models it once, with the sockets
of an address as a parameter.

Calls of `reconcile` may overlap, and `close` may come between any two of their steps.  The sockets
a call has bound so far are its own until the last bind of the address; `close` does not know them.
-/

namespace GateControl
namespace Dns

open Library

/-- What is bound on an address. -/
inductive SocketKind
  | udp4
  | udp6
  | tcp
  | https
  deriving DecidableEq

/-- An open socket.  The binds are exclusive, so that its kind and its address name it. -/
structure Socket where
  kind : SocketKind
  address : Text
  deriving DecidableEq

/-- The family that `lanListenAddresses` gives an address. -/
def family (address : Text) : Nat := if ':' ∈ address then 6 else 4

/-- The sockets of an address, in the order in which they are bound. -/
structure ListenerKind where
  first : Text → SocketKind
  more : List SocketKind

/-- The sockets of an address. -/
def ListenerKind.binds (k : ListenerKind) (address : Text) : List Socket :=
  (k.first address :: k.more).map (Socket.mk · address)

/-- `DnsListener`: `_udp`, then `_tcp`. -/
def dnsListener : ListenerKind where
  first address := if family address = 6 then .udp6 else .udp4
  more := [.tcp]

/-- `LanBlobServer`: `_listen`. -/
def lanBlobServer : ListenerKind where
  first _ := .https
  more := []

/-- A call of `reconcile` that waits for a bind. -/
structure ReconcileCall where
  address : Text
  /-- What is bound of the address already. -/
  held : List Socket
  /-- The kind it waits for. -/
  kind : SocketKind
  kinds : List SocketKind
  /-- The wanted addresses after this one. -/
  rest : List Text
  deriving DecidableEq

inductive ListenState
  | running
  | portBusy
  | error
  | noAddress
  deriving DecidableEq

structure ListenStatus where
  state : ListenState
  listen : List Text
  busy : List Text
  failed : OrderedMap Text Text
  port : Nat
  deriving DecidableEq

/-- A listener; `bound` is the map `servers` of `LanBlobServer`. -/
structure Listener where
  port : Nat
  bound : OrderedMap Text (List Socket)
  busy : OrderedSet Text
  failed : OrderedMap Text Text
  /-- The sockets that are open in the system. -/
  sockets : List Socket
  /-- The calls of `reconcile` under way. -/
  calls : List ReconcileCall
  /-- What the last call has returned. -/
  last : Option ListenStatus
  deriving DecidableEq

namespace Listener

def start (port : Nat) : Listener where
  port := port
  bound := .empty
  busy := OrderedMap.empty
  failed := .empty
  sockets := []
  calls := []
  last := none

/-- `status`; the one of `LanBlobServer` leaves `failed` out. -/
def status (l : Listener) : ListenStatus where
  state :=
    if OrderedMap.size l.busy ≠ 0 then .portBusy
    else if l.bound.keys = [] then (if l.failed.size ≠ 0 then .error else .noAddress)
    else .running
  listen := l.bound.keys
  busy := OrderedMap.keys l.busy
  failed := l.failed
  port := l.port

variable (k : ListenerKind) (l : Listener)

/-- The loop over the wanted addresses up to its next bind. -/
def nextBind : List Text → Option ReconcileCall
  | [] => none
  | address :: rest =>
      if l.bound.has address then nextBind rest
      else some ⟨address, [], k.first address, k.more, rest⟩

/-- Go on with the wanted addresses that are left; the call ends when there is nothing to bind. -/
def proceed (rest : List Text) : Listener :=
  match l.nextBind k rest with
  | some c => { l with calls := l.calls ++ [c] }
  | none => { l with last := some l.status }

/-- Close sockets. -/
def closeSockets (ss : List Socket) : Listener := { l with sockets := l.sockets.diff ss }

/-- `reconcile` up to its first bind. -/
def reconcile (addresses : List Text) : Listener :=
  let want : OrderedSet Text := addresses.foldl OrderedSet.add OrderedMap.empty
  let gone := l.bound.filter fun a _ => !OrderedMap.has want a
  { l.closeSockets gone.values.flatten with
    bound := l.bound.filter fun a _ => OrderedMap.has want a
    busy := OrderedMap.empty
    failed := .empty }.proceed k (OrderedMap.keys want)

/-- A bind has succeeded: the call waits for the next one of the address, or enters it. -/
def opened (i : Nat) (c : ReconcileCall) : Listener :=
  let s : Socket := ⟨c.kind, c.address⟩
  let l := { l with sockets := l.sockets ++ [s], calls := l.calls.eraseIdx i }
  match c.kinds with
  | kind :: kinds =>
      { l with calls := l.calls ++ [{ c with held := c.held ++ [s], kind := kind, kinds := kinds }] }
  | [] => { l with bound := l.bound.set c.address (c.held ++ [s]) }.proceed k c.rest

/-- A bind has failed: what the call has of the address is closed. -/
def refused (i : Nat) (c : ReconcileCall) (code : Option Text) : Listener :=
  let l := { l.closeSockets c.held with calls := l.calls.eraseIdx i }
  let l :=
    if code = some "EADDRINUSE".toList then { l with busy := OrderedSet.add l.busy c.address }
    else
      { l with failed := l.failed.set c.address ((code.filter (· ≠ [])).getD "error".toList) }
  l.proceed k c.rest

def close : Listener :=
  { l.closeSockets l.bound.values.flatten with
    bound := .empty
    busy := OrderedMap.empty
    failed := .empty }

inductive Action
  | reconcile (addresses : List Text)
  | opened (i : Nat)
  | refused (i : Nat) (code : Option Text)
  | close

/-- The steps of a listener; a bind can only succeed where nothing is bound. -/
def step (l : Listener) : Action → Option Listener
  | .reconcile addresses => some (l.reconcile k addresses)
  | .opened i =>
      match l.calls[i]? with
      | some c => if ⟨c.kind, c.address⟩ ∈ l.sockets then none else some (l.opened k i c)
      | none => none
  | .refused i code => (l.calls[i]?).map fun c => l.refused k i c code
  | .close => some l.close

/-! ## Who owns a socket -/

/-- The sockets in `bound`, as a bag. -/
def boundBag (l : Listener) : Multiset Socket := l.bound.sumOf Multiset.ofList

/-- The sockets that calls hold, as a bag. -/
def heldBag (cs : List ReconcileCall) : Multiset Socket :=
  (cs.map fun c => (c.held : Multiset Socket)).sum

/-- Every open socket is either in `bound` or held by one call. -/
structure Owned (l : Listener) : Prop where
  sockets : (l.sockets : Multiset Socket) = l.boundBag + heldBag l.calls
  bound : ∀ a ss, l.bound.get a = some ss → ss = k.binds a
  calls : ∀ c ∈ l.calls,
    c.held ++ (c.kind :: c.kinds).map (Socket.mk · c.address) = k.binds c.address

variable {k l}

theorem coe_flatten (ls : List (List Socket)) :
    ((ls.flatten : List Socket) : Multiset Socket) =
      (ls.map Multiset.ofList).sum := by
  induction ls with
  | nil =>
      rfl
  | cons ss ls ih =>
      rw [List.flatten_cons, ← Multiset.coe_add, ih, List.map_cons, List.sum_cons]

/-- Closing a part of the open sockets leaves the rest. -/
theorem diff_eq {ss closing : List Socket} {rest : Multiset Socket}
    (h : (ss : Multiset Socket) = (closing : Multiset Socket) + rest) :
    ((ss.diff closing : List Socket) : Multiset Socket) = rest := by
  rw [← Multiset.coe_sub, h, add_tsub_cancel_left]

theorem start_owned (port : Nat) : (start port).Owned k := by
  refine ⟨rfl, ?_, ?_⟩
  · intro a ss h
    cases h
  · intro c hc
    cases hc

theorem nextBind_spec {rest : List Text} {c : ReconcileCall} (h : l.nextBind k rest = some c) :
    c.held = [] ∧ (c.kind :: c.kinds).map (Socket.mk · c.address) = k.binds c.address := by
  induction rest with
  | nil =>
      cases h
  | cons a rest ih =>
      unfold nextBind at h
      split at h
      · exact ih h
      · cases h
        exact ⟨rfl, rfl⟩

/-- The rest of the loop neither opens nor closes a socket. -/
theorem proceed_owned (rest : List Text) (h : l.Owned k) : (l.proceed k rest).Owned k := by
  unfold proceed
  split
  · rename_i c hc
    obtain ⟨hheld, hkinds⟩ := nextBind_spec hc
    refine ⟨?_, h.bound, ?_⟩
    · have hbag : heldBag (l.calls ++ [c]) = heldBag l.calls := by simp [heldBag, hheld]
      exact h.sockets.trans (congrArg (l.boundBag + ·) hbag.symm)
    · intro c' hc'
      rcases List.mem_append.1 hc' with hc' | hc'
      · exact h.calls c' hc'
      · rw [List.mem_singleton.1 hc', hheld]
        exact hkinds
  · exact ⟨h.sockets, h.bound, h.calls⟩

theorem proceed_bound (rest : List Text) : (l.proceed k rest).bound = l.bound := by
  unfold proceed
  split <;> rfl

theorem reconcile_owned (addresses : List Text) (h : l.Owned k) :
    (l.reconcile k addresses).Owned k := by
  refine proceed_owned _ ⟨?_, ?_, h.calls⟩
  · refine diff_eq ?_
    rw [coe_flatten, ← add_assoc, h.sockets]
    refine congrArg (· + heldBag l.calls) ?_
    rw [add_comm]
    exact (OrderedMap.sumOf_filter _ l.bound _).symm
  · intro a ss hss
    exact h.bound a ss ((OrderedMap.get_filter _ _).1 hss).1

theorem close_owned (h : l.Owned k) : l.close.Owned k := by
  refine ⟨?_, ?_, h.calls⟩
  · refine diff_eq ?_
    rw [coe_flatten, h.sockets]
    change _ = _ + (0 + heldBag l.calls)
    rw [zero_add]
    rfl
  · intro a ss hss
    cases hss

theorem heldBag_eraseIdx {i : Nat} {c : ReconcileCall} (hi : l.calls[i]? = some c) :
    heldBag (l.calls.eraseIdx i) + (c.held : Multiset Socket) = heldBag l.calls :=
  sum_eraseIdx _ hi

theorem refused_owned {i : Nat} {c : ReconcileCall} (code : Option Text)
    (hi : l.calls[i]? = some c) (h : l.Owned k) : (l.refused k i c code).Owned k := by
  have hcalls : ∀ c' ∈ l.calls.eraseIdx i, c' ∈ l.calls := fun c' => List.mem_of_mem_eraseIdx
  have hsockets : ((l.sockets.diff c.held : List Socket) : Multiset Socket) =
      l.boundBag + heldBag (l.calls.eraseIdx i) := by
    refine diff_eq ?_
    rw [h.sockets, ← heldBag_eraseIdx hi, ← add_assoc, add_comm]
  refine proceed_owned _ ?_
  split
  · exact ⟨hsockets, h.bound, fun c' hc' => h.calls c' (hcalls c' hc')⟩
  · exact ⟨hsockets, h.bound, fun c' hc' => h.calls c' (hcalls c' hc')⟩

/-- The sockets of a bound address are open. -/
theorem mem_sockets_of_bound {a : Text} {ss : List Socket} {s : Socket} (h : l.Owned k)
    (ha : l.bound.get a = some ss) (hs : s ∈ ss) : s ∈ l.sockets := by
  have hsum := OrderedMap.sumOf_set Multiset.ofList l.bound a []
  simp only [ha, Option.map_some, Option.getD_some, Multiset.coe_nil, add_zero] at hsum
  have hmem : s ∈ l.boundBag := by
    unfold boundBag
    rw [← hsum]
    exact Multiset.mem_add.2 (Or.inr (Multiset.mem_coe.2 hs))
  have hopen : s ∈ (l.sockets : Multiset Socket) := by
    rw [h.sockets]
    exact Multiset.mem_add.2 (Or.inl hmem)
  exact Multiset.mem_coe.1 hopen

/-- Binds are exclusive: an address whose last bind succeeds is not in `bound` yet, so that no
entry is overwritten. -/
theorem not_bound_of_free {c : ReconcileCall} (h : l.Owned k) (hc : c ∈ l.calls)
    (hlast : c.kinds = []) (hfree : (⟨c.kind, c.address⟩ : Socket) ∉ l.sockets) :
    l.bound.get c.address = none := by
  cases hget : l.bound.get c.address with
  | none =>
      rfl
  | some ss =>
      have hss := h.bound _ _ hget
      have hkinds := h.calls c hc
      rw [hlast] at hkinds
      refine absurd (mem_sockets_of_bound h hget ?_) hfree
      rw [hss, ← hkinds]
      exact List.mem_append.2 (Or.inr (List.mem_singleton.2 rfl))

theorem opened_owned {i : Nat} {c : ReconcileCall} (hi : l.calls[i]? = some c)
    (hfree : (⟨c.kind, c.address⟩ : Socket) ∉ l.sockets) (h : l.Owned k) :
    (l.opened k i c).Owned k := by
  have hmem : c ∈ l.calls := List.mem_of_getElem? hi
  have hcalls : ∀ c' ∈ l.calls.eraseIdx i, c' ∈ l.calls := fun c' => List.mem_of_mem_eraseIdx
  have hkinds := h.calls c hmem
  have hsockets : ((l.sockets ++ [⟨c.kind, c.address⟩] : List Socket) : Multiset Socket) =
      l.boundBag + heldBag (l.calls.eraseIdx i) +
        ((c.held ++ [⟨c.kind, c.address⟩] : List Socket) : Multiset Socket) := by
    rw [← Multiset.coe_add, ← Multiset.coe_add, h.sockets, ← heldBag_eraseIdx hi]
    simp only [add_assoc]
  unfold opened
  simp only
  split
  · rename_i kind kinds hmore
    refine ⟨?_, h.bound, ?_⟩
    · refine hsockets.trans ?_
      simp only [boundBag, heldBag, List.map_append, List.sum_append, List.map_cons, List.map_nil,
        List.sum_cons, List.sum_nil, add_zero, add_assoc]
    · intro c' hc'
      rcases List.mem_append.1 hc' with hc' | hc'
      · exact h.calls c' (hcalls c' hc')
      · rw [List.mem_singleton.1 hc', ← hkinds, hmore]
        simp
  · rename_i hlast
    have hnone := not_bound_of_free h hmem hlast hfree
    refine proceed_owned _ ⟨?_, ?_, fun c' hc' => h.calls c' (hcalls c' hc')⟩
    · have hsum := OrderedMap.sumOf_set Multiset.ofList l.bound
        c.address (c.held ++ [⟨c.kind, c.address⟩])
      simp only [hnone, Option.map_none, Option.getD_none, add_zero] at hsum
      refine hsockets.trans ?_
      simp only [boundBag, hsum]
      exact add_right_comm _ _ _
    · intro a ss hss
      rcases OrderedMap.get_set_cases hss with ⟨rfl, rfl⟩ | ⟨_, hold⟩
      · rw [← hkinds, hlast]
        rfl
      · exact h.bound a ss hold

theorem step_owned {l' : Listener} {a : Action} (h : l.Owned k) (hs : step k l a = some l') :
    l'.Owned k := by
  cases a with
  | reconcile addresses =>
      cases hs
      exact reconcile_owned addresses h
  | opened i =>
      simp only [step] at hs
      split at hs
      · rename_i c hi
        split at hs
        · cases hs
        · rename_i hfree
          cases hs
          exact opened_owned hi hfree h
      · cases hs
  | refused i code =>
      rcases Option.map_eq_some_iff.1 hs with ⟨c, hi, rfl⟩
      exact refused_owned code hi h
  | close =>
      cases hs
      exact close_owned h

/-! ## After a close -/

/-- The completions of binds: what happens while no call of `reconcile` or `close` is made. -/
def Action.IsBind : Action → Prop
  | .opened _ | .refused _ _ => True
  | .reconcile _ | .close => False

/-- The last bind of an address succeeds: `_tcp` of the DNS listener, `_listen` of the other. -/
def Enters (l : Listener) : Action → Prop
  | .opened i => ∃ c, l.calls[i]? = some c ∧ c.kinds = []
  | _ => False

theorem size_set_pos (m : OrderedMap Text (List Socket)) (a : Text) (ss : List Socket) :
    m.set a ss ≠ .empty := by
  intro h
  have hget : (m.set a ss).get a = some ss := OrderedMap.get_set_self m a ss
  rw [h] at hget
  cases hget

/-- Among the completions of binds, only the last one of an address writes to `bound`. -/
theorem bind_bound {l' : Listener} {a : Action} (ha : a.IsBind) (hs : step k l a = some l') :
    l'.bound = .empty ↔ l.bound = .empty ∧ ¬ l.Enters a := by
  cases a with
  | reconcile addresses =>
      exact ha.elim
  | close =>
      exact ha.elim
  | opened i =>
      simp only [step] at hs
      split at hs
      · rename_i c hi
        split at hs
        · cases hs
        · cases hs
          unfold opened
          simp only
          split
          · rename_i kind kinds hmore
            have hnot : ¬ l.Enters (.opened i) := by
              rintro ⟨c', hi', hlast⟩
              obtain rfl : c = c' := Option.some.inj (hi.symm.trans hi')
              rw [hmore] at hlast
              cases hlast
            exact ⟨fun h => ⟨h, hnot⟩, And.left⟩
          · rename_i hlast
            rw [proceed_bound]
            refine ⟨fun h => absurd h (size_set_pos _ _ _), ?_⟩
            rintro ⟨_, hnot⟩
            exact absurd ⟨c, hi, hlast⟩ hnot
      · cases hs
  | refused i code =>
      rcases Option.map_eq_some_iff.1 hs with ⟨c, hi, rfl⟩
      have hbound : (l.refused k i c code).bound = l.bound := by
        unfold refused
        simp only
        rw [proceed_bound]
        split <;> rfl
      rw [hbound]
      exact ⟨fun h => ⟨h, id⟩, And.left⟩

theorem binds_bound {as : List Action} {t : Listener} (has : ∀ a ∈ as, a.IsBind)
    (hrun : exec (step k) l as = some t) :
    t.bound = .empty ↔ l.bound = .empty ∧ Admits (step k) (fun l a => ¬ l.Enters a) l as := by
  induction as generalizing l with
  | nil =>
      cases hrun
      exact ⟨fun h => ⟨h, trivial⟩, And.left⟩
  | cons a as ih =>
      rcases exec_cons.1 hrun with ⟨l', hl', hrun'⟩
      have hstep := bind_bound (has a List.mem_cons_self) hl'
      rw [ih (fun a' ha' => has a' (List.mem_cons_of_mem a ha')) hrun', hstep, and_assoc]
      refine and_congr_right fun _ => and_congr_right fun _ => ?_
      constructor
      · intro hadmits l'' hl''
        obtain rfl : l' = l'' := Option.some.inj (hl'.symm.trans hl'')
        exact hadmits
      · intro hadmits
        exact hadmits l' hl'

def lanAddress : Text := "192.168.1.2".toList

end Listener

end Dns
end GateControl
