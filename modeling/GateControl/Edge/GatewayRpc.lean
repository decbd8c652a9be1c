import GateControl.Library.Json
import GateControl.Library.Keyed
import GateControl.Library.Requests
import GateControl.Library.Transition

/-!
# GatewayRpc — the calls of the edge host and the answers of the gateway

The edge host has no network: what a plugin asks for goes to the gateway over a WebSocket, and the
gateway carries it out.  The host numbers its calls over all connections, remembers those that wait
and gives them up when the connection closes; then it connects again after a pause.  The gateway
carries out at most `maxInflight` calls at a time and answers on the connection that a call came
from.

An action is one event at the host or at the gateway.  A connection may break at any time, at each
end by itself; what is then still on the way is never received.
-/

namespace GateControl
namespace Edge

open Library

namespace GatewayRpc

/-! ## Errors -/

/-- What a call throws: the code and the data where it has them. -/
structure Thrown where
  code : Option Text
  message : Text
  data : Option Json

/-- An error as it is sent; the message is cut between two code units. -/
structure RpcError where
  code : Text
  message : List UInt32
  data : Option Json

/-- The gateway's side. -/
def errorOf (e : Thrown) : RpcError where
  code := (e.code.filter fun c => jsLength c ≤ 32).getD "edge_error".toList
  message := (codeUnits e.message).take 300
  data := e.data.filter Json.isObj

/-- `typeof` is `object`. -/
def isObject : Json → Bool
  | .obj _ => true
  | .arr _ => true
  | _ => false

/-- The host's side; data may be a list as well. -/
def rpcError (e : RpcError) : RpcError where
  code := if jsLength e.code ≤ 32 then e.code else "edge_error".toList
  message := e.message.take 300
  data := e.data.filter isObject

def simpleError (code message : String) : RpcError :=
  ⟨code.toList, codeUnits message.toList, none⟩

/-- An error as a caller is told of it. -/
structure RpcError.Plain (e : RpcError) : Prop where
  code : jsLength e.code ≤ 32
  message : e.message.length ≤ 300
  data : ∀ d ∈ e.data, isObject d = true

theorem plain_rpcError (e : RpcError) : (rpcError e).Plain where
  code := by
    change jsLength (if jsLength e.code ≤ 32 then e.code else "edge_error".toList) ≤ 32
    by_cases hcode : jsLength e.code ≤ 32
    · rw [if_pos hcode]
      exact hcode
    · rw [if_neg hcode]
      decide
  message := List.length_take_le ..
  data := fun _ hd => (Option.filter_eq_some_iff.1 hd).2

/-- The host changes nothing about such an error. -/
theorem rpcError_of_plain {e : RpcError} (h : e.Plain) : rpcError e = e := by
  obtain ⟨code, message, data⟩ := e
  unfold rpcError
  congr 1
  · exact if_pos h.code
  · exact List.take_of_length_le h.message
  · cases data with
    | none => rfl
    | some d => exact Option.filter_some_pos (h.data d rfl)

theorem plain_errorOf (e : Thrown) : (errorOf e).Plain where
  code := by
    change jsLength ((e.code.filter fun c => decide (jsLength c ≤ 32)).getD _) ≤ 32
    cases hc : e.code.filter fun c => decide (jsLength c ≤ 32) with
    | none =>
        change jsLength "edge_error".toList ≤ 32
        decide
    | some c =>
        simpa using (Option.filter_eq_some_iff.1 hc).2
  message := List.length_take_le ..
  data := by
    intro d hd
    have hobj := (Option.filter_eq_some_iff.1 hd).2
    cases d with
    | obj fields => rfl
    | _ => cases hobj

/-! ## Messages -/

structure Call where
  plugin : Text
  api : Text
  args : Json
  caps : Json

/-- The `ok` and the rest of a `result` message. -/
inductive Reply
  | result (v : Json)
  | error (e : RpcError)

/-- What a call at the gateway comes to; a result may be `undefined`. -/
inductive Outcome
  | returned (v : Option Json)
  | threw (e : Thrown)

def Outcome.reply : Outcome → Reply
  | .returned v => .result (v.getD .null)
  | .threw e => .error (errorOf e)

/-- The messages whose size matters. -/
inductive Frame
  | call (id : Nat) (c : Call)
  | result (id : Nat) (r : Reply)

def rpcMaxBytes : Nat := 8 * 1024 * 1024

def maxInflight : Nat := 128

def busy : RpcError := simpleError "busy" "too many calls at the gateway"

def resultTooLarge : RpcError :=
  simpleError "too_large" "result larger than the gateway socket allows"

theorem plain_busy : busy.Plain := ⟨by decide, by decide, fun _ h => by cases h⟩

theorem plain_resultTooLarge : resultTooLarge.Plain :=
  ⟨by decide, by decide, fun _ h => by cases h⟩

/-! ## The edge host -/

/-- Why a call is given up without an answer. -/
inductive Failure
  | stopping
  | lost
  | timedOut
  | unsent

def Failure.error (c : Call) : Failure → RpcError
  | .stopping => rpcError (simpleError "not_available" "edge host stopping")
  | .lost => rpcError (simpleError "not_available" "connection to the gateway lost")
  | .timedOut =>
      rpcError ⟨"timeout".toList, codeUnits (c.api ++ " timed out at the gateway".toList), none⟩
  | .unsent =>
      rpcError (simpleError "too_large" "request larger than the gateway socket allows")

inductive Settlement
  | resolved (v : Json)
  | rejected (e : RpcError)
  | failed (why : Failure)

/-- The error that the caller is told of. -/
def Settlement.error (c : Call) : Settlement → Option RpcError
  | .resolved _ => none
  | .rejected e => some e
  | .failed why => some (why.error c)

/-- `retry` says that the timer of the next attempt runs. -/
structure Host where
  stopped : Bool
  ws : Option Nat
  connected : Bool
  attempt : Nat
  retry : Bool
  sessions : Nat
  calls : Requests Call Settlement

/-- The `readyState` of one end of a connection. -/
inductive Ready
  | connecting
  | opened
  | closing
  | closed
  deriving DecidableEq

structure Link where
  host : Ready
  gateway : Ready

namespace Host

variable (h : Host)

def failAll (why : Failure) : Host := { h with calls := h.calls.settleAll (.failed why) }

def scheduleRetry : Host :=
  if h.stopped then h else { h with attempt := h.attempt + 1, retry := true }

/-- A `result` message; it is for the call that waits under its number. -/
def onMessage (id : Nat) : Reply → Host
  | .result v => { h with calls := h.calls.settle id (.resolved v) }
  | .error e => { h with calls := h.calls.settle id (.rejected (rpcError e)) }

end Host

/-! ## The gateway -/

inductive JobState
  | running
  /-- The answer has been given, `inflight` still counts the call. -/
  | replied (o : Outcome)
  | done (o : Outcome)

/-- A call that the gateway carries out or has carried out. -/
structure Job where
  link : Nat
  id : Nat
  call : Call
  state : JobState

def Job.outcome (j : Job) : Option Outcome :=
  match j.state with
  | .running => none
  | .replied o => some o
  | .done o => some o

def Job.counted (j : Job) : Bool :=
  match j.state with
  | .done _ => false
  | _ => true

/-- `refused` is there to be talked about: the calls that were answered with `busy`. -/
structure Gateway where
  rpc : Option Nat
  jobs : List Job
  inflight : Nat
  refused : List Nat

/-! ## Both together -/

/-- Connections are numbered in the order they are made; `up` and `down` are the messages on the
way, with their connection. -/
structure System where
  host : Host
  links : List Link
  up : List (Nat × Nat × Call)
  down : List (Nat × Nat × Reply)
  gateway : Gateway

inductive Action
  /-- `dials` says that the socket can be made. -/
  | start (dials : Bool)
  | stop
  | retryFires (dials : Bool)
  /-- The host's `open` event; `ok` is the comparison of the subprotocol. -/
  | opened (k : Nat) (ok : Bool)
  /-- The gateway takes the connection. -/
  | accepted (k : Nat)
  /-- The other side closes; the `close` event comes later. -/
  | hostClosing (k : Nat)
  | gatewayClosing (k : Nat)
  | hostClosed (k : Nat)
  | gatewayClosed (k : Nat)
  | gatewayStop
  | call (c : Call)
  | timeout (id : Nat)
  /-- The gateway reads a call. -/
  | called (k : Nat)
  | finished (j : Nat) (o : Outcome)
  /-- The `finally` of a call. -/
  | freed (j : Nat)
  /-- The host reads an answer. -/
  | answered (k : Nat)

namespace System

def new : System :=
  ⟨⟨true, none, false, 0, false, 0, .new⟩, [], [], [], ⟨none, [], 0, []⟩⟩

-- the bytes of a message as JSON text
variable (size : Frame → Nat) (s : System)

def setHost (k : Nat) (r : Ready) : System :=
  { s with links := s.links.modify k fun l => { l with host := r } }

def setGateway (k : Nat) (r : Ready) : System :=
  { s with links := s.links.modify k fun l => { l with gateway := r } }

def hostEnd (k : Nat) : Option Ready := s.links[k]?.map Link.host

def gatewayEnd (k : Nat) : Option Ready := s.links[k]?.map Link.gateway

def connect (dials : Bool) : System :=
  if s.host.stopped then s
  else if dials then
    { s with
      links := s.links ++ [⟨.connecting, .connecting⟩]
      host := { s.host with ws := some s.links.length } }
  else { s with host := s.host.scheduleRetry }

def start (dials : Bool) : System :=
  if !s.host.stopped then s
  else ({ s with host := { s.host with stopped := false } } : System).connect dials

/-- `terminate()` at the host. -/
def terminate (k : Nat) : System :=
  if s.hostEnd k = some .closed then s else s.setHost k .closing

def stop : System :=
  let t :=
    match s.host.ws with
    | some k => s.terminate k
    | none => s
  { t with
    host := ({ s.host with
      stopped := true, retry := false, ws := none, connected := false } : Host).failAll .stopping }

/-- The connection on which the host can send. -/
def sendable : Option Nat :=
  s.host.ws.filter fun k => s.host.connected && s.hostEnd k = some .opened

def call (c : Call) : System :=
  if !s.host.connected then s
  else
    let id := s.host.calls.fresh
    let calls := s.host.calls.make c
    match s.sendable.filter fun _ => size (.call id c) ≤ rpcMaxBytes with
    | some k => { s with host := { s.host with calls := calls }, up := s.up ++ [(k, id, c)] }
    | none => { s with host := { s.host with calls := calls.settle id (.failed .unsent) } }

def opened (k : Nat) (ok : Bool) : System :=
  if ok then
    { s.setHost k .opened with
      host := { s.host with attempt := 0, connected := true, sessions := s.host.sessions + 1 } }
  else s.setHost k .closing

def hostClosed (k : Nat) : System :=
  let t := s.setHost k .closed
  if s.host.ws = some k then
    { t with
      host := (({ s.host with ws := none, connected := false } : Host).failAll .lost).scheduleRetry }
  else t

/-- The gateway closes the connection it had, and the new one takes its place. -/
def bindRpc (k : Nat) : System :=
  let t :=
    match s.gateway.rpc with
    | some old => s.setGateway old .closing
    | none => s
  { t.setGateway k .opened with gateway := { s.gateway with rpc := some k } }

def gatewayClosed (k : Nat) : System :=
  { s.setGateway k .closed with
    gateway := { s.gateway with rpc := if s.gateway.rpc = some k then none else s.gateway.rpc } }

def gatewayStop : System :=
  match s.gateway.rpc with
  | some k => { s.setGateway k .closing with gateway := { s.gateway with rpc := none } }
  | none => s

/-- `rpcSend` succeeds. -/
def sends (k id : Nat) (r : Reply) : Bool :=
  s.gatewayEnd k = some .opened && size (.result id r) ≤ rpcMaxBytes

/-- A result that is too large is replaced; an answer to a connection that is gone is dropped. -/
def reply (k id : Nat) (r : Reply) : System :=
  if s.sends size k id r then { s with down := s.down ++ [(k, id, r)] }
  else
    match r with
    | .result _ =>
        if s.sends size k id (.error resultTooLarge) then
          { s with down := s.down ++ [(k, id, .error resultTooLarge)] }
        else s
    | .error _ => s

def onRpc (k id : Nat) (c : Call) : System :=
  if s.gateway.inflight ≥ maxInflight then
    ({ s with gateway := { s.gateway with refused := s.gateway.refused ++ [id] } } : System).reply
      size k id (.error busy)
  else
    { s with gateway := { s.gateway with
        inflight := s.gateway.inflight + 1
        jobs := s.gateway.jobs ++ [⟨k, id, c, .running⟩] } }

def setJob (i : Nat) (j : Job) : System :=
  { s with gateway := { s.gateway with jobs := s.gateway.jobs.set i j } }

def step : Action → Option System
  | .start dials => some (s.start dials)
  | .stop => some s.stop
  | .retryFires dials =>
      if s.host.retry then
        some (({ s with host := { s.host with retry := false } } : System).connect dials)
      else none
  | .opened k ok =>
      if s.hostEnd k = some .connecting ∧ (ok = true → s.gatewayEnd k ≠ some .connecting) then
        some (s.opened k ok)
      else none
  | .accepted k => if s.gatewayEnd k = some .connecting then some (s.bindRpc k) else none
  | .hostClosing k => if s.hostEnd k = some .opened then some (s.setHost k .closing) else none
  | .gatewayClosing k =>
      if s.gatewayEnd k = some .opened then some (s.setGateway k .closing) else none
  | .hostClosed k =>
      if k < s.links.length ∧ s.hostEnd k ≠ some .closed then some (s.hostClosed k) else none
  | .gatewayClosed k =>
      if k < s.links.length ∧ s.gatewayEnd k ≠ some .closed then some (s.gatewayClosed k) else none
  | .gatewayStop => some s.gatewayStop
  | .call c => some (s.call size c)
  | .timeout id =>
      if id ∈ s.host.calls.pending then
        some { s with
          host := { s.host with calls := s.host.calls.settle id (.failed .timedOut) } }
      else none
  | .called k =>
      if s.gatewayEnd k = some .opened ∨ s.gatewayEnd k = some .closing then
        (receive k s.up).map fun r => ({ s with up := r.2 } : System).onRpc size k r.1.1 r.1.2
      else none
  | .finished i o =>
      match s.gateway.jobs[i]? with
      | some ⟨k, id, c, .running⟩ =>
          some ((s.setJob i ⟨k, id, c, .replied o⟩).reply size k id o.reply)
      | _ => none
  | .freed i =>
      match s.gateway.jobs[i]? with
      | some ⟨k, id, c, .replied o⟩ =>
          let t := s.setJob i ⟨k, id, c, .done o⟩
          some { t with gateway := { t.gateway with inflight := s.gateway.inflight - 1 } }
      | _ => none
  | .answered k =>
      if s.hostEnd k = some .opened ∨ s.hostEnd k = some .closing then
        (receive k s.down).map fun r =>
          { s with down := r.2, host := s.host.onMessage r.1.1 r.1.2 }
      else none

/-! ## What is asked of a run -/

def jobIds : List Nat := s.gateway.jobs.map Job.id

/-- What the gateway gives for a call. -/
inductive Gave (jobs : List Job) (refused : List Nat) (id : Nat) (c : Call) : Reply → Prop
  | busy (h : id ∈ refused) (hnone : id ∉ jobs.map Job.id) : Gave jobs refused id c (.error busy)
  | answer {j : Job} {o : Outcome} (hj : j ∈ jobs) (hid : j.id = id) (hc : j.call = c)
      (ho : j.outcome = some o) : Gave jobs refused id c o.reply
  | tooLarge {j : Job} {v : Option Json} (hj : j ∈ jobs) (hid : j.id = id) (hc : j.call = c)
      (ho : j.outcome = some (.returned v))
      (hsize : rpcMaxBytes < size (.result id (.result (v.getD .null)))) :
      Gave jobs refused id c (.error resultTooLarge)

/-- A reply for one of the calls. -/
def Answered (id : Nat) (r : Reply) : Prop :=
  ∃ c, (id, c) ∈ s.host.calls.made ∧ Gave size s.gateway.jobs s.gateway.refused id c r

/-- A call waits or is settled once, and the gateway carries it out at most once.  It is resolved or
rejected with what the gateway has given for it, and one that is not sent is not carried out. -/
structure Served (id : Nat) (c : Call) : Prop where
  once : (s.host.calls.settled.map Prod.fst).count id = if id ∈ s.host.calls.pending then 0 else 1
  carriedOut : s.jobIds.count id ≤ 1
  resolved : ∀ v, (id, .resolved v) ∈ s.host.calls.settled →
    Gave size s.gateway.jobs s.gateway.refused id c (.result v)
  rejected : ∀ e, (id, .rejected e) ∈ s.host.calls.settled →
    Gave size s.gateway.jobs s.gateway.refused id c (.error e)
  unsent : (id, .failed .unsent) ∈ s.host.calls.settled → id ∉ s.jobIds
  told : ∀ a e, (id, a) ∈ s.host.calls.settled → a.error c = some e → e.Plain

/-- `inflight` counts the calls that the gateway has not finished. -/
def Load : Prop :=
  s.gateway.inflight = s.gateway.jobs.countP Job.counted ∧ s.gateway.inflight ≤ maxInflight

/-- Every call is served, and the gateway carries out only such calls, a limited number at a
time. -/
structure Correct : Prop where
  served : ∀ id c, (id, c) ∈ s.host.calls.made → s.Served size id c
  made : ∀ j ∈ s.gateway.jobs, (j.id, j.call) ∈ s.host.calls.made
  load : s.Load

/-- A host that runs has a connection, or the timer of the next one; without a connection no call
waits. -/
structure Linked : Prop where
  running : s.host.stopped = false → (s.host.ws.isSome = true ↔ s.host.retry = false)
  stopped : s.host.stopped = true → s.host.ws = none ∧ s.host.retry = false
  idle : s.host.connected = false → s.host.calls.pending = []
  up : s.host.connected = true →
    ∃ k, s.host.ws = some k ∧ (s.hostEnd k = some .opened ∨ s.hostEnd k = some .closing)

end System

end GatewayRpc
end Edge
end GateControl
