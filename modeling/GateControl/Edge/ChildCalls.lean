import GateControl.Edge.GatewayRpc
import GateControl.Library.Exchange

/-!
# ChildCalls — the process of an edge plugin, its calls and the calls to it

An `EdgeProcess` runs the plugin in a process of its own and starts another when that has ended.
Both sides call each other over the channel of the process: the host calls the handlers of the
plugin, the plugin calls `gc`.  The host numbers its calls over all processes; each process numbers
its own from one, and the host sends what a call of `gc` comes to to the process that is there then.

An action is one event at the host or in a process.  The two directions are kept apart, so that more
orders are possible than on the one channel.  Code of the plugin may also send messages itself; then
`forged` says so.
-/

namespace GateControl
namespace Edge

open Library

namespace ChildCalls

open GatewayRpc (Thrown Outcome isObject)

/-! ## Calls to the plugin -/

/-- `proc` is the process that the host has when it makes the call; it is not sent. -/
structure Call where
  proc : Nat
  method : Text
  params : Json

/-- A `result` message; the value and the code may be missing. -/
inductive Reply
  | result (v : Option Json)
  | error (code : Option (List UInt32)) (message : List UInt32)

structure CallError where
  code : List UInt32
  message : List UInt32

def edgeError : List UInt32 := codeUnits "edge_error".toList

/-- What a handler comes to, as the process sends it. -/
def resultOf : Outcome → Reply
  | .returned v => .result (some (v.getD .null))
  | .threw e =>
      .error (some (((e.code.filter fun c => jsLength c ≤ 32).map codeUnits).getD edgeError))
        ((codeUnits e.message).take 500)

def unknownMethod (method : Text) : Reply :=
  .error (some (codeUnits "unknown_method".toList))
    (codeUnits "unknown method ".toList ++ (codeUnits method).take 64)

/-- What the host makes of a `result` message. -/
def Reply.told : Reply → Except CallError (Option Json)
  | .result v => .ok v
  | .error code message =>
      .error ⟨(code.map (List.take 32)).getD edgeError,
        if message = [] then codeUnits "edge error".toList else message.take 500⟩

/-- Why a call is given up without an answer. -/
inductive Failure
  | ended
  | timedOut
  | unsent

def Failure.error : Failure → CallError
  | .ended => ⟨codeUnits "not_running".toList, codeUnits "edge part ended".toList⟩
  | .timedOut => ⟨codeUnits "timeout".toList, codeUnits "edge part did not answer in time".toList⟩
  | .unsent => ⟨codeUnits "not_running".toList, codeUnits "edge part is not running".toList⟩

inductive Settlement
  | replied (r : Reply)
  | failed (why : Failure)

/-- What the caller is told. -/
def Settlement.told : Settlement → Except CallError (Option Json)
  | .replied r => r.told
  | .failed why => .error why.error

def Settlement.verdict : Settlement → Verdict Reply
  | .replied r => .answered r
  | .failed .unsent => .unsent
  | .failed _ => .givenUp

/-! ## Calls of `gc` -/

structure GcCall where
  api : Text
  args : Json

/-- A `hostResult` message. -/
inductive GcReply
  | result (v : Json)
  | error (code : Text) (message : List UInt32) (data : Option Json)

structure GcError where
  code : Text
  message : List UInt32
  extra : List (Text × Json)

/-- What a call of `gc` comes to, as the host sends it. -/
def hostResultOf : Outcome → GcReply
  | .returned v => .result (v.getD .null)
  | .threw e =>
      .error (e.code.getD "edge_error".toList) ((codeUnits e.message).take 300)
        (e.data.filter Json.isObj)

def gcBusy : GcReply :=
  .error "busy".toList (codeUnits "too many concurrent gc calls".toList) none

def errorDataFields : List String := ["sha256", "expectedSha256", "certificate"]

/-- What the process makes of a `hostResult` message. -/
def GcReply.told : GcReply → Except GcError Json
  | .result v => .ok v
  | .error code message data =>
      .error ⟨if code = [] then "edge_error".toList else code,
        if message = [] then codeUnits "gc call failed".toList else message,
        errorDataFields.filterMap fun k =>
          ((data.filter Json.isObj).bind (Json.get? k)).map fun v => (k.toList, v)⟩

inductive GcSettlement
  | replied (r : GcReply)
  | timedOut

def GcSettlement.verdict : GcSettlement → Verdict GcReply
  | .replied r => .answered r
  | .timedOut => .givenUp

/-! ## The system -/

inductive State
  | stopped
  | starting
  | running
  | crashed
  | stopping
  deriving DecidableEq

/-- `connected` is the channel as the host sees it; the messages on it have their process as wire. -/
structure Process where
  alive : Bool
  connected : Bool
  handlers : List Text
  gc : Exchange GcCall GcReply GcSettlement

def Process.new : Process := ⟨true, true, [], .new⟩

def openCallsPerPlugin : Nat := 32

def hostCallsPerPlugin : Nat := 64

/-- Processes are numbered in the order they are started; `calls` are those of the host, with
the jobs that they are in the processes. -/
structure System where
  state : State
  wanted : Bool
  child : Option Nat
  restart : Bool
  hostCalls : Nat
  procs : List Process
  calls : Exchange Call Reply Settlement
  forged : Bool

/-- A message that code of the plugin sends itself. -/
inductive Message
  | result (n : Nat) (r : Reply)
  | host (n : Nat) (c : GcCall)

inductive Action
  /-- `forks` says that the process can be made. -/
  | start (forks : Bool)
  | stop
  /-- The timer of the restart fires. -/
  | restart (forks : Bool)
  /-- The host reads that the plugin is ready. -/
  | ready (k : Nat)
  | died (k : Nat)
  | disconnected (k : Nat)
  /-- The `exit` event of a process. -/
  | exited (k : Nat)
  | call (method : Text) (params : Json)
  | timeout (n : Nat)
  | ping
  /-- The process reads a call. -/
  | called (k : Nat)
  /-- A handler is done. -/
  | returned (i : Nat) (o : Outcome)
  /-- The host reads a result. -/
  | answered (k : Nat)
  | handle (k : Nat) (method : Text)
  | gcCall (k : Nat) (c : GcCall)
  | gcTimeout (k n : Nat)
  /-- The host reads a call of `gc`. -/
  | asked (k : Nat)
  /-- The hook for a call of `gc` is done. -/
  | hooked (k i : Nat) (o : Outcome)
  /-- The process reads what a call of `gc` has come to. -/
  | gcAnswered (k : Nat)
  | forge (k : Nat) (m : Message)

namespace System

def new : System := ⟨.stopped, false, none, false, 0, [], .new, false⟩

variable (s : System)

def proc (k : Nat) : Option Process := s.procs[k]?

def alive (k : Nat) : Bool := (s.proc k).any Process.alive

def setProc (k : Nat) (p : Process) : System := { s with procs := s.procs.set k p }

/-- The current process, if the channel to it is open. -/
def reachable : Option Nat := s.child.filter fun k => (s.proc k).any Process.connected

/-! ### Processes -/

/-- `onExit` for the current process. -/
def onExit : System :=
  let t := { s with child := none, calls := s.calls.settleAll (.failed .ended) }
  if s.wanted then { t with state := .crashed, restart := true } else { t with state := .stopped }

def spawn (forks : Bool) : System :=
  if s.child.isSome then s
  else if forks then
    { s with state := .starting, child := some s.procs.length, procs := s.procs ++ [.new] }
  else s.onExit

def start (forks : Bool) : System :=
  let t := { s with wanted := true }
  if s.child.isSome || s.restart then t else t.spawn forks

def stop : System :=
  { s with
    wanted := false
    restart := false
    state := if s.child.isSome then .stopping else .stopped }

/-! ### Calls to the plugin -/

def call (method : Text) (params : Json) : System :=
  match s.child with
  | some k =>
      if s.state ≠ .running ∨ s.calls.calls.pending.length ≥ openCallsPerPlugin then s
      else if s.reachable.isSome then
        { s with calls := s.calls.send k ⟨k, method, params⟩ }
      else { s with calls := s.calls.decline ⟨k, method, params⟩ (.failed .unsent) }
  | none => s

/-- `handleCall` fails at once for a method that has no handler. -/
def noHandler (handlers : List Text) (c : Call) : Option Reply :=
  if c.method ∈ handlers then none else some (unknownMethod c.method)

def called (k : Nat) (p : Process) : Option System :=
  (s.calls.accept k (noHandler p.handlers)).map fun r =>
    match r.1.answer with
    | some b => { s with calls := r.2.push k r.1.id b }
    | none => { s with calls := r.2 }

def returned (i : Nat) (o : Outcome) : Option System :=
  (s.calls.finish i (resultOf o)).map fun r =>
    { s with calls := r.2.push r.1.wire r.1.id (resultOf o) }

/-! ### Calls of `gc` -/

/-- `toChild` with a `hostResult` message: it goes to the process that is there. -/
def reply (n : Nat) (b : GcReply) : System :=
  match s.reachable with
  | some k =>
      { s with procs := s.procs.modify k fun p => { p with gc := p.gc.push k n b } }
  | none => s

def asked (k : Nat) (p : Process) : Option System :=
  let busy := s.hostCalls ≥ hostCallsPerPlugin
  (p.gc.accept k fun _ => if busy then some gcBusy else none).map fun r =>
    let t := s.setProc k { p with gc := r.2 }
    if busy then t.reply r.1.id gcBusy else { t with hostCalls := s.hostCalls + 1 }

/-- Nothing comes between the reply and the `finally` that counts the call off. -/
def hooked (k i : Nat) (p : Process) (o : Outcome) : Option System :=
  (p.gc.finish i (hostResultOf o)).map fun r =>
    ({ s.setProc k { p with gc := r.2 } with hostCalls := s.hostCalls - 1 } : System).reply
      r.1.id (hostResultOf o)

def forge (k : Nat) (p : Process) : Message → System
  | .result n r => { s with calls := s.calls.push k n r, forged := true }
  | .host n c =>
      { s.setProc k { p with gc := { p.gc with up := p.gc.up ++ [(k, n, c)] } } with forged := true }

/-- Something that a process does while it runs. -/
def inside (k : Nat) (f : Process → Option System) : Option System :=
  (s.proc k).bind fun p => if p.alive then f p else none

def step : Action → Option System
  | .start forks => some (s.start forks)
  | .stop => some s.stop
  | .restart forks =>
      if s.restart then
        let t := { s with restart := false }
        some (if s.wanted then t.spawn forks else t)
      else none
  | .ready k => if k < s.procs.length then some { s with state := .running } else none
  | .died k => s.inside k fun p => some (s.setProc k { p with alive := false })
  | .disconnected k => (s.proc k).map fun p => s.setProc k { p with connected := false }
  | .exited k =>
      if s.alive k then none else some (if s.child = some k then s.onExit else s)
  | .call method params => some (s.call method params)
  | .timeout n =>
      if n ∈ s.calls.calls.pending then
        some { s with calls := s.calls.settle n (.failed .timedOut) }
      else none
  | .ping => some { s with calls := s.calls.skip }
  | .called k => s.inside k fun p => s.called k p
  | .returned i o =>
      (s.calls.jobs[i]?).bind fun j => if s.alive j.wire then s.returned i o else none
  | .answered k => (s.calls.deliver k .replied).map fun c => { s with calls := c }
  | .handle k method =>
      s.inside k fun p => some (s.setProc k { p with handlers := method :: p.handlers })
  | .gcCall k c => s.inside k fun p => some (s.setProc k { p with gc := p.gc.send k c })
  | .gcTimeout k n =>
      s.inside k fun p => some (s.setProc k { p with gc := p.gc.settle n .timedOut })
  | .asked k => (s.proc k).bind fun p => s.asked k p
  | .hooked k i o => (s.proc k).bind fun p => s.hooked k i p o
  | .gcAnswered k =>
      s.inside k fun p =>
        (p.gc.deliver k .replied).map fun gc => s.setProc k { p with gc := gc }
  | .forge k m => s.inside k fun p => some (s.forge k p m)

end System
end ChildCalls
end Edge
end GateControl
