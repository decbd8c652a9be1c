import GateControl.Library.OrderedMap
import GateControl.Library.Text
import GateControl.Library.Transition

/-!
# ListenerManager — listeners that follow a table of routes

`TcpProxyManager` and `EgressProxyManager` keep a listener for each route.  `setRoutes` stops the
listeners of routes that are gone, one after the other, and then goes through the table: a new route
is bound, a changed one is bound again while its old listener stays open for ten more seconds.  The
two differ in what makes them bind a route again, which is the parameter `Kind`.

`setRoutes` waits: for the host to bind an address, and for a closed listener to be rid of its
clients.  In between other calls may run.  A step of a call (`run`) leads from one decision of its
loops to the next; the code makes several of them without a pause, so that the runs of the code are
among those here.
-/

namespace GateControl
namespace Proxy

open Library

/-- What a listener is bound to; port `0` leaves the choice to the host. -/
structure Place where
  address : Text
  port : Nat
  deriving DecidableEq

/-- Where connections are forwarded to. -/
structure Target where
  host : Text
  port : Nat
  deriving DecidableEq

/-- What a route asks of the listener it has. -/
inductive Change
  | none
  | inPlace
  | rebind
  deriving DecidableEq

/-- What the two managers make of a route. -/
structure Kind (ι ρ : Type) where
  id : ρ → ι
  place : ρ → Place
  target : ρ → Target
  /-- What has changed from the route of the listener to the one in the table. -/
  change : ρ → ρ → Change
  /-- The route of the listener after a change in place. -/
  update : ρ → ρ → ρ
  same_of_none : ∀ a r, change a r = .none → place a = place r ∧ target a = target r
  place_of_inPlace : ∀ a r, change a r = .inPlace → place a = place r
  update_id : ∀ a r, id (update a r) = id r
  update_place : ∀ a r, place (update a r) = place r
  update_target : ∀ a r, target (update a r) = target r

/-! ## State -/

/-- A socket of the host: where it is bound, and the route that is looked at for each connection. -/
structure Socket (ρ : Type) where
  place : Place
  route : ρ
  accepting : Bool
  deriving DecidableEq

/-- A socket with the number of clients that are connected. -/
structure Server (ρ : Type) extends Socket ρ where
  clients : Nat
  deriving DecidableEq

/-- An entry of `_listeners`. -/
structure Listener where
  server : Nat
  port : Nat
  deriving DecidableEq

/-- Where a call of `setRoutes` has got to. -/
inductive Pc (ι ρ : Type)
  /-- It looks for the next listener to remove. -/
  | removing
  /-- It waits for the clients of a closed listener. -/
  | closing (id : ι) (server : Nat)
  | applying (rest : List ρ)
  /-- It waits for the host to bind a route; `old` is the server of its listener so far. -/
  | binding (route : ρ) (old : Option Nat) (rest : List ρ)
  | bound (route : ρ) (old : Option Nat) (server : Nat) (rest : List ρ)
  deriving DecidableEq

structure Call (ι ρ : Type) where
  table : List ρ
  pc : Pc ι ρ
  deriving DecidableEq

structure Manager (ι ρ : Type) where
  listeners : OrderedMap ι Listener
  /-- All servers there have been. -/
  servers : OrderedMap Nat (Server ρ)
  nextServer : Nat
  /-- The old servers whose ten seconds are running. -/
  overlap : List Nat
  calls : List (Call ι ρ)
  /-- The table of the last call. -/
  table : List ρ
  /-- The routes that have been dealt with since: found as they should be, changed in place, or
  given to the host to bind; and those of them that the host has refused. -/
  processed : List ρ
  refused : List ρ

namespace Manager

variable {ι ρ : Type}

def start : Manager ι ρ := ⟨.empty, .empty, 0, [], [], [], [], []⟩

/-! ## Operations -/

/-- `server.close`: from now on nobody is let in. -/
def close (s : Manager ι ρ) (n : Nat) : Manager ι ρ :=
  { s with
    servers :=
      match s.servers.get n with
      | some sv => s.servers.set n { sv with accepting := false }
      | none => s.servers }

def goOn (s : Manager ι ρ) (i : Nat) (table : List ρ) (pc : Pc ι ρ) : Manager ι ρ :=
  { s with calls := s.calls.set i ⟨table, pc⟩ }

variable [DecidableEq ι] (K : Kind ι ρ)

/-- The first listener whose route is not in the table.  The loop over the map never has to go back:
what it has passed is in the table or removed, and new entries stand at the end. -/
def nextRemoval (s : Manager ι ρ) (table : List ρ) : Option (ι × Listener) :=
  s.listeners.entries.find? fun e => e.1 ∉ table.map K.id

/-- The first loop of `setRoutes`. -/
def removeNext (s : Manager ι ρ) (i : Nat) (table : List ρ) : Manager ι ρ :=
  match s.nextRemoval K table with
  | some e => (s.close e.2.server).goOn i table (.closing e.1 e.2.server)
  | none => s.goOn i table (.applying table)

/-- The end of `_stopListener`: whatever is registered for the route by now is removed. -/
def removed (s : Manager ι ρ) (i : Nat) (table : List ρ) (id : ι) : Manager ι ρ :=
  { s with listeners := s.listeners.delete id }.goOn i table .removing

/-- The second loop of `setRoutes`. -/
def applyNext (s : Manager ι ρ) (i : Nat) (table : List ρ) (r : ρ) (rest : List ρ) :
    Option (Manager ι ρ) :=
  let s := { s with processed := s.processed ++ [r] }
  match s.listeners.get (K.id r) with
  | none => some (s.goOn i table (.binding r none rest))
  | some l =>
      match s.servers.get l.server with
      | none => none
      | some sv =>
          match K.change sv.route r with
          | .none => some (s.goOn i table (.applying rest))
          | .inPlace =>
              some ({ s with
                servers := s.servers.set l.server { sv with route := K.update sv.route r } }.goOn i
                  table (.applying rest))
          | .rebind => some (s.goOn i table (.binding r (some l.server) rest))

/-- The host has bound the address of a route, to this port. -/
def listening (s : Manager ι ρ) (i : Nat) (table : List ρ) (r : ρ) (old : Option Nat)
    (rest : List ρ) (port : Nat) : Manager ι ρ :=
  { s with
    servers := s.servers.set s.nextServer ⟨⟨⟨(K.place r).address, port⟩, r, true⟩, 0⟩
    nextServer := s.nextServer + 1 }.goOn i table (.bound r old s.nextServer rest)

/-- The end of `_startListener` and of `_transitionListener`. -/
def register (s : Manager ι ρ) (i : Nat) (table : List ρ) (r : ρ) (old : Option Nat) (n : Nat)
    (port : Nat) (rest : List ρ) : Manager ι ρ :=
  { s with
    listeners := s.listeners.set (K.id r) ⟨n, port⟩
    overlap := old.toList ++ s.overlap }.goOn i table (.applying rest)

/-! ## Steps -/

inductive Action (ρ : Type)
  | call (table : List ρ)
  /-- A call goes on. -/
  | run (i : Nat)
  /-- The host binds the address a call waits for, or refuses to. -/
  | bind (i : Nat) (port : Option Nat)
  | connect (n : Nat)
  | disconnect (n : Nat)
  /-- The ten seconds of an old server are over. -/
  | expire (n : Nat)
  deriving DecidableEq

def run (s : Manager ι ρ) (i : Nat) : Option (Manager ι ρ) :=
  match s.calls[i]? with
  | none => none
  | some ⟨table, pc⟩ =>
      match pc with
      | .removing => some (s.removeNext K i table)
      | .closing id n =>
          if (s.servers.get n).any fun sv => sv.clients = 0 then some (s.removed i table id)
          else none
      | .applying [] => some { s with calls := s.calls.eraseIdx i }
      | .applying (r :: rest) => s.applyNext K i table r rest
      | .binding _ _ _ => none
      | .bound r old n rest =>
          (s.servers.get n).map fun sv => s.register K i table r old n sv.place.port rest

/-- The port the host binds is the one asked for, or any for port `0`. -/
def portFits (asked port : Nat) : Bool := if asked = 0 then port ≠ 0 else port = asked

def step (s : Manager ι ρ) : Action ρ → Option (Manager ι ρ)
  | .call table =>
      some { s with
        calls := s.calls ++ [⟨table, .removing⟩]
        table := table
        processed := []
        refused := [] }
  | .run i => s.run K i
  | .bind i port =>
      match s.calls[i]? with
      | some ⟨table, .binding r old rest⟩ =>
          match port with
          | some p =>
              if portFits (K.place r).port p then some (s.listening K i table r old rest p)
              else none
          -- the failure is logged and the route skipped
          | none => some ({ s with refused := s.refused ++ [r] }.goOn i table (.applying rest))
      | _ => none
  | .connect n =>
      match s.servers.get n with
      | some sv =>
          if sv.accepting then
            some { s with servers := s.servers.set n { sv with clients := sv.clients + 1 } }
          else none
      | none => none
  | .disconnect n =>
      match s.servers.get n with
      | some sv =>
          if 0 < sv.clients then
            some { s with servers := s.servers.set n { sv with clients := sv.clients - 1 } }
          else none
      | none => none
  | .expire n =>
      if n ∈ s.overlap then some ({ s with overlap := s.overlap.erase n }.close n) else none

end Manager

end Proxy
end GateControl
