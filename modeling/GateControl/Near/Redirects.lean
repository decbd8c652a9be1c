import GateControl.Edge.Caps
import GateControl.Library.OrderedMap
import GateControl.Library.Transition
import Mathlib.Data.Multiset.Basic

/-!
# Redirects — virtual addresses of egress routes on the gateway

`apply` writes the configuration of keepalived for the egress routes that have a virtual address,
and sees that for each of them there is one iptables rule that redirects to the port of the route.
It runs when the routes change and at every heartbeat, and every command is awaited, so that calls
can overlap.

The manager remembers the redirects of its last call in a map that it replaces as a whole.  A call
that goes through such a map sees when another call clears it, but not when another call replaces
it.
-/

namespace GateControl
namespace Near

open Library

/-! ## Routes and what is planned for them -/

/-- An egress route; without a virtual address its `vipIp` is empty. -/
structure Route where
  id : Nat
  vipIp : Text
  vipPrefix : Nat
  lanListenPort : Nat
  nearPeers : List Text
  deriving DecidableEq

/-- A rule that sends the connections to port 445 of a virtual address to a port of the gateway. -/
structure Redirect where
  vip : Text
  toPort : Nat
  deriving DecidableEq

/-- `buildRedirectRuleArgs` throws for what is no address or no port. -/
def Redirect.isValid (k : Redirect) : Bool :=
  (Edge.ipv4 k.vip).isSome && 1 ≤ k.toPort && k.toPort ≤ 65535

def Route.redirect (r : Route) : Redirect := ⟨r.vipIp, r.lanListenPort⟩

/-- The routes that have a virtual address. -/
def near (egressRoutes : List Route) : List Route := egressRoutes.filter (·.vipIp ≠ [])

/-- The wanted redirects, each once. -/
def desired (routes : List Route) : List Redirect :=
  (routes.foldl (fun m r => OrderedSet.add m r.redirect) OrderedMap.empty).keys

/-- What the manager is made with. -/
structure Setup where
  iface : Text
  selfLanIp : Option Text
  peerLanIps : List Text
  hubTunnelIp : Text
  deriving DecidableEq

structure Instance where
  name : Text
  vrid : Nat
  priority : Int
  vip : Text
  vipPrefix : Nat
  unicastSrc : Text
  unicastPeers : List Text
  deriving DecidableEq

/-- The text of an integer. -/
def integerText (n : Int) : Text := if n < 0 then '-' :: decimal n.natAbs else decimal n.natAbs

def instanceBlock (iface : Text) (i : Instance) : Text :=
  "\nvrrp_instance ".toList ++ i.name ++ " \x7b\n    state BACKUP\n    interface ".toList ++ iface ++
    "\n    virtual_router_id ".toList ++ decimal i.vrid ++
    "\n    priority ".toList ++ integerText i.priority ++
    "\n    advert_int 1\n    nopreempt\n    unicast_src_ip ".toList ++ i.unicastSrc ++
    "\n    unicast_peer \x7b\n".toList ++
    List.intercalate ['\n'] (i.unicastPeers.map fun p => "        ".toList ++ p) ++
    "\n    \x7d\n    virtual_ipaddress \x7b\n        ".toList ++ i.vip ++ '/' :: decimal i.vipPrefix ++
    "\n    \x7d\n    track_script \x7b\n        chk_tunnel\n    \x7d\n\x7d\n".toList

def buildKeepalivedConf (iface healthCheckCmd : Text) (instances : List Instance) : Text :=
  ("global_defs \x7b\n    enable_script_security\n    script_user root\n\x7d\n\n" ++
    "vrrp_script chk_tunnel \x7b\n    script \"").toList ++ healthCheckCmd ++
    "\"\n    interval 5\n    timeout 3\n    rise 2\n    fall 2\n\x7d\n".toList ++
    List.intercalate ['\n'] (instances.map (instanceBlock iface))

/-- The part of `plan` for one route; `idx` is its place among those with a virtual address. -/
def planInstance (u : Setup) (idx : Nat) (r : Route) : Instance where
  name := "EGRESS_".toList ++ decimal r.id
  vrid := 51 + r.id % 200
  priority := 150 - idx
  vip := r.vipIp
  vipPrefix := if r.vipPrefix = 0 then 24 else r.vipPrefix
  unicastSrc := u.selfLanIp.getD "null".toList
  unicastPeers := if r.nearPeers = [] then u.peerLanIps else r.nearPeers

/-- What tells one plan from another. -/
structure Signature where
  conf : Text
  health : Text
  redirects : Multiset Redirect
  deriving DecidableEq

/-- The signature of some near routes.  The code sorts the texts of the redirects, so that their
order does not count. -/
def signature (u : Setup) (routes : List Route) : Signature where
  conf := buildKeepalivedConf u.iface "/run/keepalived/health.sh".toList
    (routes.mapIdx (planInstance u))
  health := "#!/bin/sh\nping -c1 -W2 ".toList ++ u.hubTunnelIp ++ " >/dev/null 2>&1\n".toList
  redirects := routes.map Route.redirect

/-! ## Calls of `apply` -/

inductive Verb
  | check
  | append
  | delete
  deriving DecidableEq

/-- What a call is waiting for.  The commands on rules have the redirect they are about and those
after it; `adds` says that the rule was missing and is being appended.  `map` is the map that is
gone through. -/
inductive Stage
  | probing
  | killing
  | clearing (map : Nat) (k : Redirect) (rest : List Redirect)
  | reensuring (map : Nat) (k : Redirect) (rest : List Redirect) (adds : Bool)
  | writing (files : Nat)
  | starting
  | adding (k : Redirect) (rest : List Redirect) (adds : Bool)
  | removing (map : Nat) (k : Redirect) (rest : List Redirect)
  | ensuring (k : Redirect) (rest : List Redirect) (adds : Bool)
  deriving DecidableEq

namespace Stage

/-- The command that a stage waits for. -/
def command : Stage → Option (Verb × Redirect)
  | .clearing _ k _ => some (.delete, k)
  | .reensuring _ k _ adds => some (if adds then .append else .check, k)
  | .adding k _ adds => some (if adds then .append else .check, k)
  | .removing _ k _ => some (.delete, k)
  | .ensuring k _ adds => some (if adds then .append else .check, k)
  | .probing | .killing | .writing _ | .starting => none

/-- The call is bringing the rules into line with its own routes. -/
def isReconciling : Stage → Bool
  | .adding .. | .removing .. | .ensuring .. => true
  | _ => false

end Stage

/-- A call for some near routes.  `answer` is the result of its command once it has been carried
out. -/
structure Call where
  routes : List Route
  stage : Stage
  answer : Option Bool
  deriving DecidableEq

/-- How a call goes on, or how it ends. -/
inductive Outcome
  | goesOn (stage : Stage)
  | cleared
  | replaced
  | threw
  | done

/-- `active` is the place of `_activeRedirects` among the maps there have been, `rules` is the table
of the kernel. -/
structure NearManager where
  setup : Setup
  lastSig : Option Signature
  active : Nat
  maps : List (List Redirect)
  rules : List Redirect
  calls : List Call
  deriving DecidableEq

namespace NearManager

def new (u : Setup) : NearManager := ⟨u, none, 0, [[]], [], []⟩

variable (s : NearManager)

def mapAt (i : Nat) : List Redirect := s.maps.getD i []

/-- `_activeRedirects`. -/
def activeRedirects : List Redirect := s.mapAt s.active

/-- What is left of a map that is gone through; nothing if it has been cleared. -/
def left (map : Nat) (rest : List Redirect) : List Redirect := if s.mapAt map = [] then [] else rest

/-! ### The loops, each up to its next command -/

def clear (map : Nat) : List Redirect → Outcome
  | [] => .cleared
  | k :: rest => if k.isValid then .goesOn (.clearing map k rest) else .threw

def reensure (map : Nat) : List Redirect → Outcome
  | [] => .done
  | k :: rest => if k.isValid then .goesOn (.reensuring map k rest false) else .threw

/-- At the end `desired` becomes the map. -/
def ensureDesired : List Redirect → Outcome
  | [] => .replaced
  | k :: rest => if k.isValid then .goesOn (.ensuring k rest false) else .threw

def removeStale (wanted : List Redirect) (map : Nat) : List Redirect → Outcome
  | [] => ensureDesired wanted
  | k :: rest =>
      if k ∈ wanted then removeStale wanted map rest
      else if k.isValid then .goesOn (.removing map k rest) else .threw

/-- What is active is looked up anew each time. -/
def addNew (wanted : List Redirect) : List Redirect → Outcome
  | [] => removeStale wanted s.active s.activeRedirects
  | k :: rest =>
      if k ∈ s.activeRedirects then addNew wanted rest
      else if k.isValid then .goesOn (.adding k rest false) else .threw

/-! ### How a call goes on -/

/-- `pgrep` has said whether keepalived is running. -/
def afterProbe (c : Call) (running : Bool) : Outcome :=
  if c.routes = [] then
    if running then .goesOn .killing else clear s.active s.activeRedirects
  else if s.lastSig = some (signature s.setup c.routes) && running then
    reensure s.active s.activeRedirects
  else .goesOn (.writing 3)

/-- Another command or a file operation has ended; the file operations may throw. -/
def afterWait (c : Call) (ok : Bool) : Option Outcome :=
  match c.stage with
  | .killing => some (clear s.active s.activeRedirects)
  | .writing n =>
      if ok then
        match n with
        | 0 => some (.goesOn .starting)
        | n + 1 => some (.goesOn (.writing n))
      else some .threw
  | .starting => some (s.addNew (desired c.routes) (desired c.routes))
  | _ => none

/-- The command on a rule has ended: what was checked and is missing is appended. -/
def afterCommand (c : Call) (answer : Bool) : Option Outcome :=
  match c.stage with
  | .clearing map _ rest => some (clear map (s.left map rest))
  | .reensuring map k rest adds =>
      if adds || answer then some (reensure map (s.left map rest))
      else some (.goesOn (.reensuring map k rest true))
  | .adding k rest adds =>
      if adds || answer then some (s.addNew (desired c.routes) rest)
      else some (.goesOn (.adding k rest true))
  | .removing map _ rest => some (removeStale (desired c.routes) map (s.left map rest))
  | .ensuring k rest adds =>
      if adds || answer then some (ensureDesired rest) else some (.goesOn (.ensuring k rest true))
  | .probing | .killing | .writing _ | .starting => none

/-- The call goes on or ends. -/
def settle (i : Nat) (c : Call) : Outcome → NearManager
  | .goesOn stage => { s with calls := s.calls.set i { c with stage := stage, answer := none } }
  | .cleared =>
      { s with
        maps := s.maps.set s.active []
        lastSig := some (signature s.setup c.routes)
        calls := s.calls.eraseIdx i }
  | .replaced =>
      { s with
        maps := s.maps ++ [desired c.routes]
        active := s.maps.length
        lastSig := some (signature s.setup c.routes)
        calls := s.calls.eraseIdx i }
  | .threw | .done => { s with calls := s.calls.eraseIdx i }

/-! ### Steps -/

inductive Action
  | apply (egressRoutes : List Route)
  | probed (i : Nat) (running : Bool)
  | passed (i : Nat) (ok : Bool)
  | exec (i : Nat) (works : Bool)
  | resume (i : Nat)
  deriving DecidableEq

/-- The call at a place and how it goes on by an action. -/
def outcome : Action → Option (Nat × Call × Outcome)
  | .probed i running =>
      s.calls[i]?.bind fun c =>
        if c.stage = .probing then some (i, c, s.afterProbe c running) else none
  | .passed i ok => s.calls[i]?.bind fun c => (s.afterWait c ok).map fun o => (i, c, o)
  | .resume i =>
      s.calls[i]?.bind fun c => c.answer.bind fun answer =>
        (s.afterCommand c answer).map fun o => (i, c, o)
  | .apply _ | .exec .. => none

/-- A command on a rule is carried out; one that fails changes nothing, and a check that fails says
that the rule is missing. -/
def execute (i : Nat) (c : Call) (works : Bool) : Verb × Redirect → NearManager
  | (.check, k) =>
      { s with calls := s.calls.set i { c with answer := some (works && k ∈ s.rules) } }
  | (.append, k) =>
      { s with
        rules := if works then s.rules ++ [k] else s.rules
        calls := s.calls.set i { c with answer := some works } }
  | (.delete, k) =>
      { s with
        rules := if works then s.rules.erase k else s.rules
        calls := s.calls.set i { c with answer := some works } }

/-- A call begins; it ends at once if the address of the gateway is needed and not known. -/
def apply (egressRoutes : List Route) : NearManager :=
  if near egressRoutes ≠ [] && s.setup.selfLanIp.isNone then s
  else { s with calls := s.calls ++ [⟨near egressRoutes, .probing, none⟩] }

def step : Action → Option NearManager
  | .apply egressRoutes => some (s.apply egressRoutes)
  | .exec i works =>
      s.calls[i]?.bind fun c =>
        if c.answer.isNone then c.stage.command.map (s.execute i c works) else none
  | .probed i running => (s.outcome (.probed i running)).map fun o => s.settle o.1 o.2.1 o.2.2
  | .passed i ok => (s.outcome (.passed i ok)).map fun o => s.settle o.1 o.2.1 o.2.2
  | .resume i => (s.outcome (.resume i)).map fun o => s.settle o.1 o.2.1 o.2.2

end NearManager

end Near
end GateControl
