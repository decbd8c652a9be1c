import GateControl.Library.OrderedMap
import GateControl.Library.Text

/-!
# Presence — who is at home

The devices of a list of MAC addresses are looked for once a minute.  A device that is seen is
online.  One that has not been seen for `awayAfterSec` is offline.  The changes are queued and
reported.

A look and a report are waited for, and the settings can change meanwhile.
-/

namespace GateControl

open Library

namespace Presence

def maxQueue : Nat := 256

abbrev Mac := Text

structure Config where
  enabled : Bool
  macs : List Mac
  awayAfterSec : Int

/-- What is known of a device. -/
structure Tracked where
  online : Option Bool
  lastSeen : Option Int
  since : Int

/-- A change; `time` is its field `at`. -/
structure Event where
  mac : Mac
  online : Bool
  time : Int
  lastSeen : Option Int
  deriving DecidableEq

/-- What a tick is waiting for. -/
inductive Phase where
  | idle
  | detecting
  | posting (batch : List Event)
  deriving DecidableEq

/-! ## Changes -/

namespace Tracked

/-- One device, seen or not. -/
def advance (st : Tracked) (mac : Mac) (seen : Bool) (awayMs now : Int) : Tracked × Option Event :=
  if seen then
    ({ st with lastSeen := some now, online := some true },
      if st.online ≠ some true then some ⟨mac, true, now, some now⟩ else none)
  else if st.online ≠ some false ∧ now - st.lastSeen.getD st.since ≥ awayMs then
    ({ st with online := some false }, some ⟨mac, false, now, st.lastSeen⟩)
  else (st, none)

/-- When there was the last sign of the device, or else since when it is looked for. -/
def lastSign (st : Tracked) : Int := st.lastSeen.getD st.since

end Tracked

end Presence

open Presence (Config Mac Tracked Event Phase)

structure Presence where
  cfg : Config
  state : OrderedMap Mac Tracked
  queue : List Event
  phase : Phase

namespace Presence

def new : Presence := ⟨⟨false, [], 600⟩, .empty, [], .idle⟩

variable (p : Presence)

/-- New settings.  `readAt` is the time at which a device is met for the first time. -/
def apply (cfg : Config) (readAt : Mac → Int) : Presence :=
  let macs := if cfg.enabled then cfg.macs else []
  { p with
    cfg := { cfg with macs := macs }
    state := (p.state.filter fun mac _ => mac ∈ macs).addMissing macs fun mac =>
      ⟨none, none, readAt mac⟩
    -- switched off: nothing is reported any more
    queue := if cfg.enabled then p.queue else [] }

def awayMs : Int := p.cfg.awayAfterSec * 1000

/-- The changes since the last look, in the order of the devices. -/
def changes (seen : List Mac) (now : Int) : List Event :=
  p.state.entries.filterMap fun e => (e.2.advance e.1 (e.1 ∈ seen) p.awayMs now).2

def transitions (seen : List Mac) (now : Int) : Presence × List Event :=
  ({ p with state := p.state.mapValues fun mac st => (st.advance mac (mac ∈ seen) p.awayMs now).1 },
    p.changes seen now)

/-- The oldest are dropped from a queue that is too long. -/
def trim (queue : List Event) : List Event :=
  if queue.length > maxQueue then queue.drop (queue.length - maxQueue) else queue

def enqueue (events : List Event) : Presence :=
  if events = [] then p else { p with queue := trim (p.queue ++ events) }

def flush : Presence :=
  if p.queue = [] then { p with phase := .idle }
  else { p with phase := .posting (p.queue.take maxQueue) }

/-- The devices have been looked for. -/
def detected (seen : List Mac) (now : Int) : Presence :=
  let (p, events) := p.transitions seen now
  (p.enqueue events).flush

/-- Nobody is looked for if there is nobody to look for. -/
def tick (now : Int) : Presence :=
  if !p.cfg.enabled || p.phase ≠ .idle then p
  else if p.state.entries = [] then p.detected [] now
  else { p with phase := .detecting }

/-- A report has been answered; the queue may be another one by now. -/
def answered (batch : List Event) (ok : Bool) : Presence :=
  { p with
    queue := if ok then p.queue.drop batch.length else p.queue
    phase := .idle }

/-- What can happen: new settings, the timer, and the outcomes of what is waited for. -/
inductive Action where
  | apply (cfg : Config) (readAt : Mac → Int)
  | tick
  | detected (seen : List Mac)
  | detectFailed
  | answered (ok : Bool)

def step (now : Int) : Action → Option Presence
  | .apply cfg readAt => some (p.apply cfg readAt)
  | .tick => some (p.tick now)
  | .detected seen => if p.phase = .detecting then some (p.detected seen now) else none
  | .detectFailed => if p.phase = .detecting then some { p with phase := .idle } else none
  | .answered ok =>
      match p.phase with
      | .posting batch => some (p.answered batch ok)
      | _ => none

end Presence
end GateControl
