import GateControl.Library.Text
import GateControl.Library.Transition

/-!
# Zigbee — asking deCONZ for devices, and pairing new ones

`tick` and `pair` ask deCONZ several times and wait for each answer, and any number of them can be
under way at once: the loop ticks, a request for the state ticks too, and pairing is started by
requests.  What such a call does between two answers is an action of its own.  The devices are given
as `devicesOf` lists them; the key of deCONZ is kept, its file and the texts of errors are not.
-/

namespace GateControl
namespace Radio

open Library

inductive DeviceType
  | light
  | sensor
  deriving DecidableEq, Repr

structure Device where
  mac : Text
  type : DeviceType
  name : Option Text
  model : Option Text
  manufacturer : Option Text
  deriving DecidableEq, Repr

/-- The map of `devicesOf`: one device for each MAC. -/
structure Devices where
  list : List Device
  nodup : (list.map Device.mac).Nodup
  deriving DecidableEq

def Devices.macs (ds : Devices) : List Text := ds.list.map Device.mac

/-- A device that was noticed, and when. -/
structure Recent where
  device : Device
  time : Int
  deriving DecidableEq, Repr

/-- `PAIR_TAIL_MS`. -/
def pairTailMs : Int := 30000

/-- `RECENT_MS`. -/
def recentMs : Int := 1800000

/-- `MAX_RECENT`. -/
def maxRecent : Nat := 5

inductive KeyState
  | unknown
  | ok
  | needed
  deriving DecidableEq, Repr

structure Zigbee where
  reachable : Bool
  key : Option Text
  keyState : KeyState
  devices : Devices
  recent : List Recent
  pairUntil : Int
  /-- The MACs that were known before pairing. -/
  pairBase : Option (List Text)

namespace Zigbee

def new (key : Option Text) : Zigbee where
  reachable := false
  key := key
  keyState := .unknown
  devices := ⟨[], List.nodup_nil⟩
  recent := []
  pairUntil := 0
  pairBase := none

def recentMacs (z : Zigbee) : List Text := z.recent.map fun r => r.device.mac

/-- The end of the window, as it is after deCONZ has said how long it lets devices join. -/
def untilWith (z : Zigbee) (permitjoin : Int) (now : Int) : Int :=
  if permitjoin > 0 then max z.pairUntil (now + permitjoin * 1000) else z.pairUntil

/-- The loop over the devices: new ones are put in front. -/
def notice (base : List Text) (now : Int) (recent : List Recent) (ds : List Device) : List Recent :=
  ds.foldl
    (fun recent d =>
      if base.contains d.mac || recent.any fun r => r.device.mac == d.mac then recent
      else ⟨d, now⟩ :: recent)
    recent

/-- The end of a successful `tick`, which runs without a break. -/
def process (z : Zigbee) (permitjoin : Int) (devs : Devices) (now : Int) : Zigbee :=
  let z := { z with pairUntil := z.untilWith permitjoin now }
  let z := match z.pairBase with
    | none => z
    | some base =>
      if now ≤ z.pairUntil + pairTailMs then
        { z with recent := notice base now z.recent devs.list }
      else { z with pairBase := none }
  { z with devices := devs }

/-- `telemetry` forgets devices that were noticed long ago, or before the last five. -/
def telemetry (z : Zigbee) (now : Int) : Zigbee :=
  { z with recent := (z.recent.filter fun r => now - r.time < recentMs).take maxRecent }

end Zigbee

/-! ## Calls under way -/

/-- A call of `_ensureKey`: over, with a key or without one, or waiting for a new key. -/
inductive KeyWait
  | ready (got : Bool)
  | creating
  deriving DecidableEq, Repr

/-- `createKey` answers. -/
inductive KeyAnswer
  | created (key : Text)
  | needed
  | failed

def Zigbee.ensureKey (z : Zigbee) (force : Bool) : KeyWait :=
  if z.key.isSome then .ready true
  else if z.keyState = .needed && !force then .ready false
  else .creating

/-- What `_ensureKey` makes of the answer; `none` where it throws. -/
def Zigbee.keyCreated (z : Zigbee) : KeyAnswer → Zigbee × Option KeyWait
  | .created key => ({ z with key := some key, keyState := .ok }, some (.ready true))
  | .needed => ({ z with keyState := .needed }, some (.ready false))
  | .failed => (z, none)

/-- What a `tick` waits for; `again` after a key that was not accepted. -/
inductive TickPhase
  | probe
  | key (wait : KeyWait) (again : Bool)
  | lights (again : Bool)
  | rest
  | ended
  deriving DecidableEq, Repr

inductive LightsAnswer
  | ok
  | unauthorized
  | failed

/-- A pairing window: the devices that were known, and when and for how many seconds `pair` was
accepted. -/
structure Window where
  base : List Text
  start : Int
  seconds : Int
  deriving DecidableEq, Repr

def Window.stop (w : Window) : Int := w.start + w.seconds * 1000

inductive PairPhase
  | key (wait : KeyWait) (seconds : Int)
  /-- The base is taken, and `permitJoin` has been called. -/
  | join (seconds : Int) (base : List Text)
  | accepted (w : Window)
  | notRunning
  | keyNeeded
  | failed
  deriving DecidableEq, Repr

/-- The service with its calls, and the time that was read last. -/
structure Pairing extends Zigbee where
  ticks : List TickPhase
  pairs : List PairPhase
  clock : Option Int

inductive ZigbeeAction
  | tick
  | probed (i : Nat) (ok : Bool)
  | tickKey (i : Nat) (answer : KeyAnswer)
  | tickGo (i : Nat)
  | lights (i : Nat) (answer : LightsAnswer)
  /-- The configuration and the sensors, with the lists of devices and the time; or an error. -/
  | rest (i : Nat) (answer : Option (Int × Devices × Int))
  | pair (seconds : Option Int)
  | pairKey (j : Nat) (answer : KeyAnswer)
  | pairGo (j : Nat)
  /-- `permitJoin` has answered, and the time; or it has failed. -/
  | joined (j : Nat) (answer : Option Int)
  | telemetry (now : Int)

namespace Pairing

def start (key : Option Text) : Pairing :=
  { Zigbee.new key with
    ticks := []
    pairs := []
    clock := none }

def setTick (s : Pairing) (i : Nat) (p : TickPhase) : Pairing := { s with ticks := s.ticks.set i p }

def setPair (s : Pairing) (j : Nat) (p : PairPhase) : Pairing := { s with pairs := s.pairs.set j p }

/-- The seconds that `pair` asks for; `none` for what is not a whole number. -/
def windowSeconds (seconds : Option Int) : Int :=
  match seconds with
  | some n => min 254 (max 60 n)
  | none => 180

def probed (s : Pairing) (i : Nat) (ok : Bool) : Pairing :=
  if ok then
    let s := { s with reachable := true }
    s.setTick i (.key (s.ensureKey false) false)
  else { s with reachable := false }.setTick i .ended

def lights (s : Pairing) (i : Nat) (again : Bool) : LightsAnswer → Pairing
  | .ok => { s with keyState := .ok }.setTick i .rest
  | .failed => s.setTick i .ended
  | .unauthorized =>
    if again then s.setTick i .ended
    else
      let s := { s with key := none, keyState := .unknown }
      s.setTick i (.key (s.ensureKey false) true)

def rest (s : Pairing) (i : Nat) : Option (Int × Devices × Int) → Pairing
  | none => s.setTick i .ended
  | some (permitjoin, devs, now) =>
    { s with toZigbee := s.toZigbee.process permitjoin devs now, clock := some now }.setTick i .ended

def pair (s : Pairing) (seconds : Option Int) : Pairing :=
  { s with
    pairs := s.pairs ++
      [if s.reachable then .key (s.ensureKey true) (windowSeconds seconds) else .notRunning] }

/-- `pair` takes its base and calls `permitJoin`, or there is no key. -/
def pairGo (s : Pairing) (j : Nat) (got : Bool) (seconds : Int) : Pairing :=
  if got then
    { s with pairBase := some s.devices.macs }.setPair j (.join seconds s.devices.macs)
  else s.setPair j .keyNeeded

def joined (s : Pairing) (j : Nat) (seconds : Int) (base : List Text) : Option Int → Pairing
  | none => s.setPair j .failed
  | some now =>
    { s with pairUntil := now + seconds * 1000, clock := some now }.setPair j
      (.accepted ⟨base, now, seconds⟩)

def step (s : Pairing) : ZigbeeAction → Option Pairing
  | .tick => some { s with ticks := s.ticks ++ [.probe] }
  | .probed i ok =>
    match s.ticks[i]? with
    | some .probe => some (s.probed i ok)
    | _ => none
  | .tickKey i answer =>
    match s.ticks[i]? with
    | some (.key .creating again) =>
      let r := s.toZigbee.keyCreated answer
      some ({ s with toZigbee := r.1 }.setTick i ((r.2.map fun w => TickPhase.key w again).getD .ended))
    | _ => none
  | .tickGo i =>
    match s.ticks[i]? with
    | some (.key (.ready got) again) => some (s.setTick i (if got then .lights again else .ended))
    | _ => none
  | .lights i answer =>
    match s.ticks[i]? with
    | some (.lights again) => some (s.lights i again answer)
    | _ => none
  | .rest i answer =>
    match s.ticks[i]? with
    | some .rest => some (s.rest i answer)
    | _ => none
  | .pair seconds => some (s.pair seconds)
  | .pairKey j answer =>
    match s.pairs[j]? with
    | some (.key .creating seconds) =>
      let r := s.toZigbee.keyCreated answer
      some ({ s with toZigbee := r.1 }.setPair j ((r.2.map fun w => PairPhase.key w seconds).getD .failed))
    | _ => none
  | .pairGo j =>
    match s.pairs[j]? with
    | some (.key (.ready got) seconds) => some (s.pairGo j got seconds)
    | _ => none
  | .joined j answer =>
    match s.pairs[j]? with
    | some (.join seconds base) => some (s.joined j seconds base answer)
    | _ => none
  | .telemetry now => some { s with toZigbee := s.toZigbee.telemetry now, clock := some now }

end Pairing

end Radio
end GateControl
