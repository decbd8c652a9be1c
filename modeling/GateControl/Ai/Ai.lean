import GateControl.Library.Slots
import GateControl.Library.Text
import GateControl.Library.Transition

/-!
# Ai — answers of the local AI

A call of `chat` takes its backend, waits for a slot, and then lets the backend answer.  Between
these steps other calls, aborts of the callers' signals and new settings come in, so that each part
of a call that runs without a break is an action of its own: `chat` up to the first `await`, `use`
from the slot to the start of the backend, `settle` from the end of the backend to the end of the
call.
-/

namespace GateControl
namespace Ai

open Library

/-- `MAX_ACTIVE`. -/
def maxActive : Nat := 1

/-- `MAX_WAITING`. -/
def maxWaiting : Nat := 2

inductive Api
  | ollama
  | openai
  deriving DecidableEq, Repr

structure LanServer where
  url : Text
  api : Api
  deriving DecidableEq, Repr

/-- `source`, with the server that only the source `lan` has; none where its address is refused. -/
inductive Source
  | service
  | lan (server : Option LanServer)
  deriving DecidableEq, Repr

/-- What `normalizeAi` makes of the setting. -/
structure AiConfig where
  enabled : Bool
  source : Source
  deriving DecidableEq, Repr

inductive Backend
  | service
  | lan (server : LanServer)
  deriving DecidableEq, Repr

/-- Why `canChat` or `chat` refuses a request. -/
inductive Refusal
  | disabled
  | notRunning
  | busy
  deriving DecidableEq, Repr

inductive Outcome
  | refused (why : Refusal)
  | aborted
  /-- The backend has answered or failed, or `onStart` has thrown. -/
  | finished (ok : Bool)
  deriving DecidableEq, Repr

inductive Phase
  | waiting
  /-- The promise of `_slot` is resolved, the call has not gone on yet. -/
  | granted
  /-- The backend answers; whether the controller of the call has been aborted. -/
  | running (cancelled : Bool)
  | ended (outcome : Outcome)
  deriving DecidableEq, Repr

/-- A call of `chat`. -/
structure Call where
  backend : Option Backend
  /-- The signal of the caller. -/
  aborted : Bool
  phase : Phase
  deriving DecidableEq, Repr

namespace Call

/-- The call has a slot. -/
def holds (c : Call) : Bool :=
  match c.phase with
  | .granted | .running _ => true
  | .waiting | .ended _ => false

/-- The backend is at work for the call. -/
def runs (c : Call) : Bool :=
  match c.phase with
  | .running _ => true
  | .waiting | .granted | .ended _ => false

def pending (c : Call) : Bool :=
  match c.phase with
  | .ended _ => false
  | .waiting | .granted | .running _ => true

/-- The call has had a slot. -/
def served (c : Call) : Bool :=
  match c.phase with
  | .granted | .running _ | .ended (.finished _) => true
  | .waiting | .ended (.refused _) | .ended .aborted => false

def grant (c : Call) : Call := { c with phase := .granted }

/-- The controller of a running call is aborted. -/
def cancel (c : Call) : Call :=
  match c.phase with
  | .running _ => { c with phase := .running true }
  | .waiting | .granted | .ended _ => c

end Call

/-- The fields of the service that the answers depend on, and its calls, numbered in the order in
which they were made.  The set `running` of the service has the controllers of the calls that run;
`served` are the numbers of the calls that got a slot, in that order. -/
structure AiService extends Slots Nat where
  cfg : AiConfig
  lan : Option LanServer
  reachable : Bool
  calls : List Call
  served : List Nat

inductive Action
  | apply (cfg : AiConfig)
  | stop
  /-- A `tick` has found out whether the server answers. -/
  | tick (reachable : Bool)
  /-- A call; whether its signal has been aborted before. -/
  | chat (aborted : Bool)
  /-- The caller of a call aborts its signal. -/
  | abort (i : Nat)
  /-- A call goes on with its slot; whether `onStart` throws. -/
  | use (i : Nat) (throws : Bool)
  /-- The backend of a call has answered or failed. -/
  | settle (i : Nat) (ok : Bool)

namespace AiService

/-- `normalizeAi(undefined)` is the first setting. -/
def start : AiService :=
  { Slots.new with
    cfg := ⟨false, .service⟩
    lan := none
    reachable := false
    calls := []
    served := [] }

def backend (s : AiService) : Option Backend :=
  if s.cfg.enabled then
    match s.cfg.source with
    | .service => some .service
    | .lan _ => s.lan.map .lan
  else none

def apply (s : AiService) (cfg : AiConfig) : AiService :=
  let lan := match cfg.enabled, cfg.source with
    | true, .lan server => server
    | _, _ => none
  if cfg = s.cfg then { s with lan := lan }
  else
    { s with
      cfg := cfg
      lan := lan
      reachable := false
      calls := if cfg.enabled then s.calls else s.calls.map Call.cancel }

def stop (s : AiService) : AiService := { s with calls := s.calls.map Call.cancel }

/-- `_slot`, up to where a call waits. -/
def slot (s : AiService) (i : Nat) : Place × Slots Nat := s.toSlots.take maxActive maxWaiting i

/-- `canChat`; `managed` is whether the service is looked after by its guard. -/
def canChat (s : AiService) (managed : Bool) : Option Refusal :=
  if s.backend = none then some .disabled
  else if s.cfg.source = .service && !managed && !s.reachable then some .notRunning
  else if s.active ≥ maxActive && s.waiting.length ≥ maxWaiting then some .busy
  else none

/-- `chat` up to the first `await`. -/
def chat (s : AiService) (aborted : Bool) : AiService :=
  let i := s.calls.length
  match s.backend with
  | none => { s with calls := s.calls ++ [⟨none, aborted, .ended (.refused .disabled)⟩] }
  | some b =>
    match s.slot i with
    | (.slot, slots) =>
      { s with
        toSlots := slots
        calls := s.calls ++ [⟨some b, aborted, .granted⟩]
        served := s.served ++ [i] }
    | (.queue, slots) =>
      { s with toSlots := slots, calls := s.calls ++ [⟨some b, aborted, .waiting⟩] }
    | (.full, slots) =>
      { s with toSlots := slots, calls := s.calls ++ [⟨some b, aborted, .ended (.refused .busy)⟩] }

/-- The listeners of the signal: the one of a call that waits takes it out of the queue, the one of
a call that runs aborts its controller.  A call that has its slot and has not gone on has none. -/
def abort (s : AiService) (i : Nat) (c : Call) : AiService :=
  match c.phase with
  | .waiting =>
    { s with
      toSlots := s.toSlots.withdraw i
      calls := s.calls.modify i fun c => { c with aborted := true, phase := .ended .aborted } }
  | .running _ =>
    { s with calls := s.calls.modify i fun c => { c with aborted := true, phase := .running true } }
  | .granted | .ended _ => { s with calls := s.calls.modify i fun c => { c with aborted := true } }

/-- The end of a call that has a slot, with `_release`. -/
def finish (s : AiService) (i : Nat) (ok : Bool) : AiService :=
  let calls := s.calls.modify i fun c => { c with phase := .ended (.finished ok) }
  match s.toSlots.release with
  | (none, slots) => { s with toSlots := slots, calls := calls }
  | (some j, slots) =>
    { s with toSlots := slots, calls := calls.modify j Call.grant, served := s.served ++ [j] }

def step (s : AiService) : Action → Option AiService
  | .apply cfg => some (s.apply cfg)
  | .stop => some s.stop
  | .tick reachable => some { s with reachable := reachable }
  | .chat aborted => some (s.chat aborted)
  | .abort i => s.calls[i]?.bind fun c =>
      -- a signal that is aborted does not fire again
      if c.aborted then none else some (s.abort i c)
  | .use i throws => s.calls[i]?.bind fun c =>
      if c.phase ≠ .granted then none
      else if throws then some (s.finish i false)
      else some { s with calls := s.calls.modify i fun c => { c with phase := .running false } }
  | .settle i ok => s.calls[i]?.bind fun c => if c.runs then some (s.finish i ok) else none

end AiService

end Ai
end GateControl
