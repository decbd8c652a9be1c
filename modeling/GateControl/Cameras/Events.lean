import GateControl.Cameras.EventQueue
import GateControl.Library.OrderedMap
import GateControl.Library.Text
import Mathlib.Algebra.Order.Floor.Defs
import Mathlib.Data.Rat.Floor

/-!
# Events — camera events and their clips

A camera has a runtime, which holds its open event.  A message of the camera opens an event or
carries it on; `recordStep` writes its clip and ends it; `tick` ends it when no events are wanted any
more.  A clip is written to a `.part` file, which is renamed at the end or removed.

`apply` drops the runtimes of cameras that are gone, and a subscription that was on its way can
still hand a message to a dropped one.
-/

namespace GateControl
namespace Cameras

open Library

def preMs : Int := 5000

def postMs : Int := 10000

def maxClipMs : Int := 120000

def staleTrueMs : Int := 60000

/-! ## Settings -/

inductive EventKind
  | person
  | vehicle
  | animal
  | motion
  deriving DecidableEq

def EventKind.rank : EventKind → Nat
  | .person => 4
  | .vehicle => 3
  | .animal => 2
  | .motion => 1

/-- The most important of some kinds. -/
def topKind (kinds : List EventKind) : EventKind :=
  kinds.foldl (fun best k => if k.rank > best.rank then k else best) .motion

inductive Record
  | motion
  | away
  | never
  deriving DecidableEq

/-- A camera.  `connection` is what decides where its streams are: host, ONVIF and RTSP addresses,
profile, stream and whether the certificate is checked. -/
structure Cam (τ : Type) where
  id : Text
  connection : τ
  record : Record
  events : List EventKind
  deriving DecidableEq

structure Config (τ : Type) where
  enabled : Bool
  nobodyHome : Bool
  cameras : List (Cam τ)

/-- `mayRecord`. -/
def mayRecord {τ : Type} (cam : Cam τ) (nobodyHome : Bool) : Bool :=
  match cam.record with
  | .never => false
  | .away => nobodyHome
  | .motion => true

/-! ## Clips -/

/-- The content of a segment file; writing a damaged one throws. -/
inductive Content
  | missing
  | damaged
  | bytes (n : Nat)
  deriving DecidableEq

/-- A segment of the ring; `duration` is in seconds, `time` its field `at`. -/
structure Segment where
  seq : Int
  duration : ℚ
  time : Option Int
  content : Content
  deriving DecidableEq

/-- The ring as it is found: the time of its first file, and its list. -/
structure Ring where
  initMtime : Option Int
  playlist : Option (List Segment)
  deriving DecidableEq

/-- A clip that is being written. -/
structure Clip where
  lastSeq : Int
  ms : Int
  bytes : Nat
  initMtime : Option Int
  deriving DecidableEq

/-- `Math.round`. -/
def mathRound (x : ℚ) : Int := ⌊x + 1 / 2⌋

namespace Clip

/-- `_append`; nothing where it throws. -/
def append (c : Clip) (seg : Segment) : Option Clip :=
  match seg.content with
  | .missing => some c
  | .damaged => none
  | .bytes n =>
      some { c with bytes := c.bytes + n, ms := c.ms + mathRound (seg.duration * 1000),
                    lastSeq := seg.seq }

/-- The segments that are new, up to the longest length of a clip; it stops where `append` throws. -/
def appendNew (c : Clip) : List Segment → Clip
  | [] => c
  | seg :: segs =>
      if seg.seq > c.lastSeq && c.ms < maxClipMs then
        match c.append seg with
        | none => c
        | some c => c.appendNew segs
      else c.appendNew segs

/-- The ring has been started again since the clip was opened. -/
def isRestarted (c : Clip) (ring : Ring) : Bool :=
  ring.initMtime ≠ c.initMtime ||
    (ring.playlist.bind List.getLast?).any fun seg => seg.seq < c.lastSeq

end Clip

/-- The segments that reach back into the time before an event. -/
def preRoll (startedAt : Int) (segs : List Segment) : List Segment :=
  let reaching := segs.filter fun seg =>
    seg.time.all fun time => decide ((startedAt - preMs : Int) ≤ time + seg.duration * 1000)
  let start := if reaching = [] then segs.drop (segs.length - 1) else reaching
  start.drop (start.length - 7)

/-- `_openClip` after it has opened the file, for a first file of `init` bytes; `written` says that
these could be written.  Nothing where it throws. -/
def openClip (startedAt : Int) (ring : Ring) (init : Nat) (written : Bool) : Option Clip :=
  if written then
    (preRoll startedAt (ring.playlist.getD [])).foldlM Clip.append ⟨-1, 0, init, ring.initMtime⟩
  else none

/-! ## Events -/

/-- `writing` is the field `rec`.  `fdOpen` and `part` say that the descriptor of the clip is open and
that its `.part` file is there. -/
structure Event where
  cameraId : Text
  kinds : OrderedSet EventKind
  kind : EventKind
  startedAt : Int
  endAt : Option Int
  endedAt : Option Int
  nobodyHome : Bool
  writing : Option Clip
  clip : Option (Int × Nat)
  fdOpen : Bool
  part : Bool
  deriving DecidableEq

inductive Phase
  | start
  | update
  | finish
  deriving DecidableEq

structure Message where
  event : Nat
  cameraId : Text
  kind : EventKind
  kinds : List EventKind
  phase : Phase
  startedAt : Int
  endedAt : Option Int
  nobodyHome : Bool
  clip : Option (Int × Nat)
  deriving DecidableEq

/-- How the end of a clip goes: what throws is caught, and the file removed if that is possible. -/
inductive Closing
  | finished
  | failed (removed : Bool)
  deriving DecidableEq

namespace Event

/-- An `endAt` that counts; zero is no time. -/
def ending (ev : Event) : Option Int := ev.endAt.filter (· ≠ 0)

/-- The message about an event. -/
def message (ev : Event) (e : Nat) (phase : Phase) : Message :=
  ⟨e, ev.cameraId, ev.kind, ev.kinds.keys, phase, ev.startedAt, ev.endedAt, ev.nobodyHome, ev.clip⟩

/-- The camera still sees something. -/
def carryOn (ev : Event) (hits : List EventKind) : Event :=
  let kinds := hits.foldl OrderedSet.add ev.kinds
  { ev with kinds := kinds, endAt := none, kind := topKind kinds.keys }

/-- The camera sees nothing more. -/
def runOut (ev : Event) (t : Int) : Event :=
  if ev.ending.isNone then { ev with endAt := some (t + postMs) } else ev

/-- For cameras that never say that they see nothing more. -/
def expire (ev : Event) (lastTrueAt t : Int) : Event :=
  if ev.ending.isNone && lastTrueAt ≠ 0 && t - lastTrueAt > staleTrueMs then
    { ev with endAt := some t }
  else ev

/-- The clip goes on, or the event ends with the ring. -/
def write (ev : Event) (t : Int) (ring : Ring) : Event :=
  match ev.writing with
  | none => ev
  | some c =>
      if c.isRestarted ring then { ev with endAt := some t }
      else { ev with writing := some (c.appendNew (ring.playlist.getD [])) }

def tooLong (ev : Event) (t : Int) : Bool :=
  t - ev.startedAt ≥ maxClipMs || ev.writing.any fun c => c.ms ≥ maxClipMs

/-- `recordStep` ends the event. -/
def due (ev : Event) (t : Int) : Bool := ev.ending.any (· ≤ t) || ev.tooLong t

/-- `_closeClip`. -/
def closeClip (ev : Event) (closing : Closing) : Event :=
  match ev.writing with
  | none => ev
  | some c =>
      match closing with
      | .finished =>
          { ev with
            writing := none
            clip := if c.ms ≤ 0 then ev.clip else some (c.ms, c.bytes)
            fdOpen := false
            part := false }
      | .failed removed =>
          { ev with writing := none, fdOpen := false, part := ev.part && !removed }

/-- `_endEvent`, of the event itself. -/
def finish (ev : Event) (t : Int) (force : Bool) (closing : Closing) : Event :=
  let endedAt := if force then t else (ev.ending.map (· - postMs)).getD t
  { ev with endedAt := some endedAt }.closeClip closing

end Event

/-! ## The service -/

/-- What a camera has while it is watched. -/
structure Runtime (τ : Type) where
  cam : Cam τ
  subscribed : Bool
  active : OrderedMap EventKind Bool
  lastTrueAt : Int
  event : Option Nat

/-- What is found when an event begins: whether a clip is opened, and how that goes. -/
structure Opening where
  ring : Ring
  init : Nat
  written : Bool
  deriving DecidableEq

/-- `runtimes` are all runtimes there have been, `cams` is the table of those in use, `events` are all
events, `ticks` the times at which the ticks in progress have begun. -/
structure CameraService (τ : Type) where
  enabled : Bool
  nobodyHome : Bool
  runtimes : List (Runtime τ)
  cams : OrderedMap Text Nat
  events : List Event
  queue : EventQueue Message
  ticks : List Int

namespace Runtime

variable {τ : Type}

def new (cam : Cam τ) : Runtime τ := ⟨cam, false, .empty, 0, none⟩

/-- `_stopEvents`. -/
def stopEvents (rt : Runtime τ) : Runtime τ := { rt with subscribed := false, active := .empty }

/-- The settings of a camera are new. -/
def configure [DecidableEq τ] (rt : Runtime τ) (cam : Cam τ) : Runtime τ :=
  let changed := rt.cam.connection ≠ cam.connection
  let rt := { rt with cam := cam }
  if changed then rt.stopEvents else rt

/-- What a message of the camera says. -/
def observe (rt : Runtime τ) (t : Int) (msg : List (EventKind × Bool)) : Runtime τ :=
  { rt with
    active := msg.foldl (fun m k => m.set k.1 k.2) rt.active
    lastTrueAt := if msg.any (·.2) then t else rt.lastTrueAt }

/-- The kinds that are seen and wanted. -/
def hits (rt : Runtime τ) : List EventKind :=
  (rt.active.entries.filter fun k =>
    k.2 && (rt.cam.events.contains k.1 || rt.cam.events.contains .motion)).map Prod.fst

/-- There is something to record. -/
def sees (rt : Runtime τ) (nobodyHome : Bool) : Bool :=
  rt.hits ≠ [] && mayRecord rt.cam nobodyHome

/-- `wantEvents`; `connected` says that the camera has been found and offers events. -/
def wantEvents (rt : Runtime τ) (nobodyHome connected : Bool) : Bool :=
  connected && rt.cam.events ≠ [] && mayRecord rt.cam nobodyHome

end Runtime

namespace CameraService

variable {τ : Type}

def new (reporter : Bool) : CameraService τ :=
  ⟨false, false, [], .empty, [], .new reporter, []⟩

variable (s : CameraService τ)

def modifyRuntime (r : Nat) (f : Runtime τ → Runtime τ) : CameraService τ :=
  { s with runtimes := s.runtimes.modify r f }

def modifyEvent (e : Nat) (f : Event → Event) : CameraService τ :=
  { s with events := s.events.modify e f }

/-- The open event of a runtime. -/
def openEvent (r : Nat) : Option Nat := s.runtimes[r]?.bind Runtime.event

/-- `_queue`. -/
def send (m : Message) : CameraService τ := { s with queue := s.queue.queue m }

/-! ### Settings -/

/-- A camera that is gone loses its runtime. -/
def drop (id : Text) (r : Nat) : CameraService τ :=
  { s.modifyRuntime r Runtime.stopEvents with cams := s.cams.delete id }

/-- A camera gets a runtime or new settings. -/
def configure [DecidableEq τ] (s : CameraService τ) (cam : Cam τ) : CameraService τ :=
  match s.cams.get cam.id with
  | none =>
      { s with
        runtimes := s.runtimes ++ [.new cam]
        cams := s.cams.set cam.id s.runtimes.length }
  | some r => s.modifyRuntime r (·.configure cam)

/-- The cameras that a configuration does not have. -/
def gone (cfg : Config τ) : List (Text × Nat) :=
  s.cams.entries.filter fun k => !(cfg.enabled && cfg.cameras.any (·.id = k.1))

/-- `apply`. -/
def apply [DecidableEq τ] (s : CameraService τ) (cfg : Config τ) : CameraService τ :=
  let s := { s with enabled := cfg.enabled, nobodyHome := cfg.nobodyHome }
  let kept := (s.gone cfg).foldl (fun s k => s.drop k.1 k.2) s
  if cfg.enabled then cfg.cameras.foldl configure kept else kept

/-! ### Messages -/

/-- `_startEvent`. -/
def startEvent (r : Nat) (rt : Runtime τ) (t : Int) (kinds : List EventKind)
    (opening : Option Opening) : CameraService τ :=
  let ev : Event :=
    { cameraId := rt.cam.id
      kinds := kinds.foldl OrderedSet.add .empty
      kind := topKind kinds
      startedAt := t
      endAt := none
      endedAt := none
      nobodyHome := s.nobodyHome
      writing := opening.bind fun o => openClip t o.ring o.init o.written
      clip := none
      -- what has been opened stays open if something throws
      fdOpen := opening.isSome
      part := opening.isSome }
  let s := s.modifyRuntime r fun rt => { rt with event := some s.events.length }
  { s with events := s.events ++ [ev] }.send (ev.message s.events.length .start)

/-- A message carries an open event on; the server is told of a new kind. -/
def carryOn (e : Nat) (hits : List EventKind) : CameraService τ :=
  match s.events[e]? with
  | none => s
  | some ev =>
      let s := s.modifyEvent e (·.carryOn hits)
      if (ev.carryOn hits).kind = ev.kind then s
      else s.send ((ev.carryOn hits).message e .update)

/-- `onMessage`, of what `classify` has found in the message. -/
def onMessage (r : Nat) (t : Int) (msg : List (EventKind × Bool)) (opening : Option Opening) :
    CameraService τ :=
  if msg = [] then s
  else
    match s.runtimes[r]? with
    | none => s
    | some rt =>
        let rt := rt.observe t msg
        let s := s.modifyRuntime r (·.observe t msg)
        if rt.sees s.nobodyHome then
          match rt.event with
          | none => s.startEvent r rt t rt.hits opening
          | some e => s.carryOn e rt.hits
        else
          match rt.event with
          | none => s
          | some e => s.modifyEvent e (·.runOut t)

/-! ### The end of an event -/

/-- `_endEvent`. -/
def endEvent (r e : Nat) (t : Int) (force : Bool) (closing : Closing) : CameraService τ :=
  let s := s.modifyRuntime r fun rt => { rt with event := none }
  let s := s.modifyEvent e (·.finish t force closing)
  match s.events[e]? with
  | none => s
  | some ev => s.send (ev.message e .finish)

/-- An event as `recordStep` leaves it before it looks whether it has ended. -/
def recorded (rt : Runtime τ) (t : Int) (ring : Ring) (ev : Event) : Event :=
  (ev.expire rt.lastTrueAt t).write t ring

/-- `recordStep` for one camera. -/
def record (r : Nat) (t : Int) (ring : Ring) (closing : Closing) : CameraService τ :=
  match s.runtimes[r]? with
  | none => s
  | some rt =>
      match rt.event with
      | none => s
      | some e =>
          match s.events[e]? with
          | none => s
          | some ev =>
              let ev := recorded rt t ring ev
              let s := s.modifyEvent e (recorded rt t ring)
              if ev.due t then s.endEvent r e t (ev.tooLong t && ev.ending.isNone) closing else s

/-- `tick` for one camera, in a tick that has begun at `t`. -/
def visit (r : Nat) (t : Int) (connected : Bool) (closing : Closing) : CameraService τ :=
  match s.runtimes[r]? with
  | none => s
  | some rt =>
      if rt.wantEvents s.nobodyHome connected then
        s.modifyRuntime r fun rt => { rt with subscribed := true }
      else
        let s := if rt.subscribed then s.modifyRuntime r Runtime.stopEvents else s
        match rt.event with
        | none => s
        | some e => s.endEvent r e t true closing

/-! ### Steps -/

inductive Action (τ : Type)
  | apply (cfg : Config τ)
  | onMessage (r : Nat) (t : Int) (msg : List (EventKind × Bool)) (opening : Option Opening)
  | record (id : Text) (t : Int) (ring : Ring) (closing : Closing)
  | tick (t : Int)
  | visit (i r : Nat) (connected : Bool) (closing : Closing)
  | cleanup (e : Nat)
  | ticked (i : Nat)
  | flush
  | answered (ok : Bool)

/-- The messages may be for a runtime that has been dropped, and so may be a tick that has waited for
its camera.  `cleanup` removes a `.part` file that nobody has written to for ten minutes. -/
def step [DecidableEq τ] (s : CameraService τ) : Action τ → Option (CameraService τ)
  | .apply cfg => some (s.apply cfg)
  | .onMessage r t msg opening => some (s.onMessage r t msg opening)
  | .record id t ring closing => (s.cams.get id).map fun r => s.record r t ring closing
  | .tick t => if s.enabled then some { s with ticks := s.ticks ++ [t] } else none
  | .visit i r connected closing => s.ticks[i]?.map fun t => s.visit r t connected closing
  | .cleanup e => some (s.modifyEvent e fun ev => { ev with part := false })
  | .ticked i => if i < s.ticks.length then some { s with ticks := s.ticks.eraseIdx i } else none
  | .flush => some { s with queue := s.queue.flush }
  | .answered ok => (s.queue.step (.answered ok)).map fun q => { s with queue := q }

end CameraService

end Cameras
end GateControl
