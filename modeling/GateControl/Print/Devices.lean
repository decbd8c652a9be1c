import GateControl.Edge.LanGuard
import GateControl.Library.OrderedMap
import GateControl.Library.Transition

/-!
# Devices — printers and scanners of the LAN

A search asks the subnets and the manual addresses; what it finds is merged into the table of
devices.  A device is an object whose fields change in place: a run or a scan holds the object, the
table has it under its id, and `busy` has the ids of the devices in use.

`isAllowed` is asked about the address of a device.  A run connects to the host of its print
endpoint, a scan to the host of its scan endpoint, and these may come from other services or from
an earlier search.
-/

namespace GateControl
namespace Print

open Library
open Edge (Subnet isIPv4 ipInCidr digitsValue)

def maxDevices : Nat := 64

/-- Thirty days. -/
def forgetMs : Int := 30 * 86400000

/-- `isRfc1918`. -/
def isRfc1918 (ip : Text) : Bool :=
  isIPv4 ip &&
    match (ip.splitOn '.').map digitsValue with
    | a :: b :: _ => a = 10 || (a = 172 && 16 ≤ b && b ≤ 31) || (a = 192 && b = 168)
    | _ => false

/-! ## Services and the devices they make up -/

inductive Scheme
  | ipp
  | ipps
  | http
  | https
  deriving DecidableEq

/-- Plain connections come first, for the certificates of the LAN are self-signed. -/
def prio : Scheme → Nat
  | .ipp => 2
  | .ipps => 1
  | .http => 2
  | .https => 1

def Scheme.isTls : Scheme → Bool
  | .ipps => true
  | .https => true
  | _ => false

structure Endpoint where
  scheme : Scheme
  host : Text
  port : Nat
  path : Text
  pin : Option Text
  deriving DecidableEq

inductive Kind
  | printer
  | scanner
  deriving DecidableEq

/-- A service that has been announced.  `uuid` is the text of that name. -/
structure Service where
  kind : Kind
  scheme : Scheme
  ip : Text
  ips : List Text
  port : Nat
  path : Text
  uuid : Text
  deriving DecidableEq

def Service.addresses (s : Service) : List Text := if s.ips = [] then [s.ip] else s.ips

def isHexDigit (c : Char) : Bool := c.isDigit || ('a' ≤ c && c ≤ 'f')

/-- `normUuid`: 32 hexadecimal digits, or nothing. -/
def normUuid (v : Text) : Option Text :=
  let urn := "urn:uuid:".toList
  let v := v.map asciiLower
  let u := (if urn.isPrefixOf v then v.drop urn.length else v).filter (· ≠ '-')
  if u.length = 32 && u.all isHexDigit then some u else none

/-- A device as the services of a search make it up. -/
structure Found where
  uuid : Option Text
  ip : Text
  ipp : Option Endpoint
  escl : Option Endpoint
  deriving DecidableEq

inductive Key
  | uuid (uuid : Text)
  | ip (ip : Text)
  deriving DecidableEq

/-- The devices made up so far; a device may have several keys. -/
structure Merging where
  byKey : OrderedMap Key Nat
  devices : List Found

/-- An endpoint is replaced by one of a better scheme. -/
def better (old : Option Endpoint) (ep : Endpoint) : Option Endpoint :=
  match old with
  | none => some ep
  | some o => if prio ep.scheme > prio o.scheme then some ep else some o

/-- What a service says about its device. -/
def Found.announce (d : Found) (s : Service) (uuid : Option Text) (ip : Text) : Found :=
  let ep : Endpoint := ⟨s.scheme, ip, s.port, s.path, none⟩
  let d := { d with uuid := d.uuid.or uuid }
  match s.kind with
  | .printer => { d with ipp := better d.ipp ep }
  | .scanner => { d with escl := better d.escl ep }

namespace Merging

/-- The device with the key of a service, else one with its address, else a new one. -/
def place (m : Merging) (uuid : Option Text) (ip : Text) : Option (Merging × Nat) :=
  let key := (uuid.map Key.uuid).getD (.ip ip)
  match m.byKey.get key with
  | some i => some (m, i)
  | none =>
      -- without UUID in the one service and with it in the other
      match m.devices.findIdx? fun d => d.ip = ip && (uuid.isNone || d.uuid.isNone) with
      | some i => some ({ m with byKey := m.byKey.set key i }, i)
      | none =>
          if m.devices.length ≥ maxDevices then none
          else
            some (⟨m.byKey.set key m.devices.length, m.devices ++ [⟨uuid, ip, none, none⟩]⟩,
              m.devices.length)

def add (isAllowed : Text → Bool) (m : Merging) (s : Service) : Merging :=
  match s.addresses.find? isAllowed with
  | none => m
  | some ip =>
      let uuid := normUuid s.uuid
      match m.place uuid ip with
      | none => m
      | some (m, i) => { m with devices := m.devices.modify i (·.announce s uuid ip) }

end Merging

/-- `mergeDevices`: the devices of the services, each with the first of its addresses that is
allowed. -/
def mergeDevices (isAllowed : Text → Bool) (services : List Service) : List Found :=
  (services.foldl (Merging.add isAllowed) ⟨.empty, []⟩).devices

/-! ## Devices -/

/-- A device object.  It keeps its place among the objects while its fields change. -/
structure Device where
  id : Text
  uuid : Option Text
  ip : Text
  ipp : Option Endpoint
  escl : Option Endpoint
  seenAt : Int
  deriving DecidableEq

def Device.endpoints (d : Device) : List Endpoint := d.ipp.toList ++ d.escl.toList

def Found.endpoints (f : Found) : List Endpoint := f.ipp.toList ++ f.escl.toList

/-- A job or a scan in progress on a device object. -/
structure Use where
  device : Nat
  scan : Option Text
  deriving DecidableEq

def manualIppPaths : List Text := ["ipp/print".toList, "ipp".toList, []]

/-- What a manual address has answered; `printer` is plain IPP under one of the paths or IPPS with
the fingerprint learned, `scanner` plain eSCL or eSCL over TLS. -/
structure Probe where
  printer : Option (Fin manualIppPaths.length ⊕ Text)
  scanner : Option (Option Text)
  uuid : Text
  deriving DecidableEq

/-- `_probeManual`: every endpoint is at the address that was asked. -/
def probeManual (ip : Text) (p : Probe) : Option Found :=
  let ipp : Option Endpoint := p.printer.map fun
    | .inl i => ⟨.ipp, ip, 631, manualIppPaths.get i, none⟩
    | .inr pin => ⟨.ipps, ip, 443, "ipp/print".toList, some pin⟩
  let escl : Option Endpoint := p.scanner.map fun
    | none => ⟨.http, ip, 80, "eSCL".toList, none⟩
    | some pin => ⟨.https, ip, 443, "eSCL".toList, some pin⟩
  if ipp.isNone && escl.isNone then none
  else some ⟨if ipp.isSome then normUuid p.uuid else none, ip, ipp, escl⟩

/-- The devices of the service.  `subnets` is what `getSubnets` gives, `objects` are all device
objects there have been, `devices` is the table of the ids.  `searching` is the search in progress
with its time once the packets are in, `probes` the manual addresses that have been asked.  `stored`
is the content of the state file; `outside` collects the hosts that were used while they were not
allowed. -/
structure Devices where
  enabled : Bool
  manual : List Text
  subnets : List Subnet
  objects : List Device
  devices : OrderedMap Text Nat
  busy : OrderedSet Text
  scans : OrderedMap Text Text
  uses : List Use
  searching : Option (Option Int)
  probes : List (Text × Int)
  stored : List Device
  outside : List Text
  deriving DecidableEq

/-- The answer to a scan request. -/
inductive ScanReply
  | disabled
  | unknownDevice
  | busy
  | accepted
  deriving DecidableEq

namespace Devices

/-- `deviceId`; `digest` is the start of the SHA-1 of an address. -/
def deviceId (digest : Text → Text) (uuid : Option Text) (ip : Text) : Text :=
  match uuid with
  | some u => 'u' :: ':' :: u
  | none => 'h' :: ':' :: digest ip

def new (subnets : List Subnet) : Devices :=
  ⟨false, [], subnets, [], .empty, .empty, .empty, [], none, [], [], []⟩

/-- An address under given settings. -/
def allows (manual : List Text) (subnets : List Subnet) (ip : Text) : Bool :=
  isRfc1918 ip && (ip ∈ manual || subnets.any fun n => ipInCidr ip n.network n.bits)

variable (digest : Text → Text) (s : Devices)

/-- `isAllowed`. -/
def isAllowed (ip : Text) : Bool := allows s.manual s.subnets ip

/-- The object that the table has under an id. -/
def lookup (id : Text) : Option (Nat × Device) :=
  (s.devices.get id).bind fun r => s.objects[r]?.map fun d => (r, d)

/-! ### Settings -/

/-- `_persist`, which fails without a state directory. -/
def persist (written : Bool) : Devices :=
  if written then { s with stored := s.devices.values.filterMap fun r => s.objects[r]? } else s

def restoreDevice (d : Device) : Devices :=
  if isRfc1918 d.ip then
    { s with
      objects := s.objects ++ [d]
      devices := s.devices.set d.id s.objects.length }
  else s

/-- `_restore`: every device that was stored becomes a new object. -/
def restore : Devices := (s.stored.take maxDevices).foldl restoreDevice s

/-- `_shutdown`: the scans are aborted and forgotten, `busy` stays. -/
def shutdown (written : Bool) : Devices := { s.persist written with scans := .empty }

/-- `apply`. -/
def apply (enabled : Bool) (manual : List Text) (written : Bool) : Devices :=
  let t := { s with enabled := enabled, manual := manual }
  if enabled then if s.enabled then t else t.restore
  else if s.enabled then t.shutdown written else t

/-- The process starts again with what was stored. -/
def restart : Devices := { new s.subnets with stored := s.stored, outside := s.outside }

/-! ### Searches -/

/-- A device without UUID, or with the same one, at the address of a found device. -/
def sameAddress (f : Found) (d : Device) : Bool :=
  d.ip = f.ip && (d.uuid.isNone || d.uuid = f.uuid)

/-- The device that a found one is: the one with its id, else one at its address. -/
def known (f : Found) : Option (Nat × Device) :=
  (s.lookup (deviceId digest f.uuid f.ip)).or <|
    s.devices.values.findSome? fun r =>
      (s.objects[r]?.filter (sameAddress f)).map fun d => (r, d)

/-- `keepPin`: a fingerprint is kept as long as the endpoint is the same, and a whole endpoint if the
search has found none. -/
def keepPin (fresh prev : Option Endpoint) : Option Endpoint :=
  match fresh, prev with
  | none, prev => prev
  | some ep, none => some ep
  | some ep, some p =>
      if p.scheme = ep.scheme ∧ p.host = ep.host ∧ p.port = ep.port ∧ p.pin.isSome then
        some { ep with pin := p.pin }
      else some ep

/-- `_merge`. -/
def merge (now : Int) (f : Found) : Devices :=
  let id := deviceId digest f.uuid f.ip
  match s.known digest f with
  | none =>
      { s with
        objects := s.objects ++ [⟨id, f.uuid, f.ip, f.ipp, f.escl, now⟩]
        devices := s.devices.set id s.objects.length }
  | some (r, old) =>
      { s with
        objects := s.objects.set r
          ⟨id, f.uuid, f.ip, keepPin f.ipp old.ipp, keepPin f.escl old.escl, now⟩
        devices := (if old.id = id then s.devices else s.devices.delete old.id).set id r }

def mergeAll (now : Int) (fs : List Found) : Devices := fs.foldl (merge digest · now) s

/-- `requestSearch` drops the fingerprints of a device whose new certificate has been confirmed. -/
def dropPins (id : Text) : Devices :=
  match s.lookup id with
  | none => s
  | some (r, d) =>
      let drop := Option.map fun ep : Endpoint => { ep with pin := none }
      { s with objects := s.objects.set r { d with ipp := drop d.ipp, escl := drop d.escl } }

/-- The packets of a search are in: what they announce is merged, and the manual addresses that are
not among it are asked. -/
def browsed (services : List Service) (now : Int) : Devices :=
  let found := mergeDevices s.isAllowed services
  let asked := s.manual.filter fun ip => !found.any (·.ip = ip)
  { s.mergeAll digest now found with
    searching := some (some now)
    probes := s.probes ++ asked.map fun ip => (ip, now) }

/-- A manual address has answered or not. -/
def probed (ip : Text) (now : Int) (answer : Option Probe) : Devices :=
  match answer.bind (probeManual ip) with
  | none => s
  | some f => s.merge digest now f

def isForgotten (now : Int) (d : Device) : Bool :=
  d.seenAt ≠ 0 && now - d.seenAt > forgetMs

/-- Devices at addresses that are no longer allowed go, and old ones. -/
def sweep (now : Int) : Devices :=
  { s with
    devices := s.devices.filter fun _ r =>
      s.objects[r]?.any fun d => s.isAllowed d.ip && !isForgotten now d }

/-- `_learnPins`: an endpoint over TLS without fingerprint gets one. -/
def learnPin (pin : Text) (ep : Endpoint) : Endpoint :=
  if ep.scheme.isTls && ep.pin.isNone then { ep with pin := some pin } else ep

def pinned (kind : Kind) (pin : Text) (d : Device) : Device :=
  match kind with
  | .printer => { d with ipp := d.ipp.map (learnPin pin) }
  | .scanner => { d with escl := d.escl.map (learnPin pin) }

/-! ### Jobs and scans -/

/-- A job or a scan goes ahead on an object. -/
def begin (r : Nat) (d : Device) (ep : Endpoint) (scan : Option Text) : Devices :=
  { s with
    uses := s.uses ++ [⟨r, scan⟩]
    busy := OrderedSet.add s.busy d.id
    outside := if s.isAllowed ep.host then s.outside else s.outside ++ [ep.host] }

/-- `_run` for a job that a poll has found; nothing if the job does not go ahead. -/
def run (deviceId : Text) : Option Devices :=
  if s.busy.has deviceId then none
  else
    match s.lookup deviceId with
    | none => none
    | some (r, d) =>
        match d.ipp with
        | none => none
        | some ep => if s.isAllowed d.ip then some (s.begin r d ep none) else none

/-- `requestScan` with a valid body. -/
def requestScan (scanId deviceId : Text) : ScanReply × Devices :=
  if s.enabled then
    match s.lookup deviceId with
    | none => (.unknownDevice, s)
    | some (r, d) =>
        match d.escl with
        | none => (.unknownDevice, s)
        | some ep =>
            if s.isAllowed d.ip then
              if s.busy.has d.id || s.scans.has scanId then (.busy, s)
              else
                (.accepted, { s.begin r d ep (some scanId) with scans := s.scans.set scanId d.id })
            else (.unknownDevice, s)
  else (.disabled, s)

/-- The end of a job or a scan, with the id that the object has by now. -/
def finish (i : Nat) (u : Use) : Devices :=
  { s with
    uses := s.uses.eraseIdx i
    busy := (s.objects[u.device]?.map fun d => s.busy.delete d.id).getD s.busy
    scans := (u.scan.map s.scans.delete).getD s.scans }

/-! ### Steps -/

inductive Action
  | apply (enabled : Bool) (manual : List Text) (written : Bool)
  | subnets (subnets : List Subnet)
  | restart
  | search (retrust : Option Text)
  | browsed (services : List Service) (now : Int)
  | probed (i : Nat) (answer : Option Probe)
  | sweep
  | searched (written : Bool)
  | seen (r : Nat) (now : Int)
  | pinned (r : Nat) (kind : Kind) (pin : Text)
  | run (deviceId : Text)
  | requestScan (scanId deviceId : Text)
  | finish (i : Nat)
  | persist (written : Bool)
  deriving DecidableEq

/-- `seen` and `pinned` are what a refresh of a device changes, `persist` is what the end of a job
writes.  A search may end early, when something throws; what it has asked is still answered. -/
def step : Action → Option Devices
  | .apply enabled manual written => some (s.apply enabled manual written)
  | .subnets subnets => some { s with subnets := subnets }
  | .restart => some s.restart
  | .search retrust =>
      if s.enabled && s.searching.isNone then
        some { (retrust.map s.dropPins).getD s with searching := some none }
      else none
  | .browsed services now =>
      if s.searching = some none then some (s.browsed digest services now) else none
  | .probed i answer =>
      s.probes[i]?.map fun p =>
        { s.probed digest p.1 p.2 answer with probes := s.probes.eraseIdx i }
  | .sweep => s.searching.bind fun now => now.map s.sweep
  | .searched written =>
      if s.searching.isSome then some { s.persist written with searching := none } else none
  | .seen r now =>
      s.objects[r]?.map fun d => { s with objects := s.objects.set r { d with seenAt := now } }
  | .pinned r kind pin =>
      s.objects[r]?.map fun d => { s with objects := s.objects.set r (pinned kind pin d) }
  | .run deviceId => s.run deviceId
  | .requestScan scanId deviceId => some (s.requestScan scanId deviceId).2
  | .finish i => s.uses[i]?.map (s.finish i)
  | .persist written => some (s.persist written)

/-! ### The table -/

variable {digest s}

theorem lookup_eq_some {id : Text} {r : Nat} {d : Device} :
    s.lookup id = some (r, d) ↔ s.devices.get id = some r ∧ s.objects[r]? = some d := by
  simp only [lookup, Option.bind_eq_some_iff, Option.map_eq_some_iff, Prod.mk.injEq]
  constructor
  · rintro ⟨_, hget, _, hobj, rfl, rfl⟩
    exact ⟨hget, hobj⟩
  · rintro ⟨hget, hobj⟩
    exact ⟨r, hget, d, hobj, rfl, rfl⟩

/-- The device that a found one is has an id in the table. -/
theorem mem_of_known {f : Found} {r : Nat} {d : Device} (h : s.known digest f = some (r, d)) :
    r ∈ s.devices.values ∧ s.objects[r]? = some d := by
  rw [known, Option.or_eq_some_iff] at h
  rcases h with hid | ⟨_, haddr⟩
  · have hlook := lookup_eq_some.1 hid
    exact ⟨(s.devices.mem_values_iff).2 ⟨_, hlook.1⟩, hlook.2⟩
  · rcases List.exists_of_findSome?_eq_some haddr with ⟨k, hk, hd⟩
    rcases Option.map_eq_some_iff.1 hd with ⟨e, he, heq⟩
    cases heq
    exact ⟨hk, (Option.filter_eq_some_iff.1 he).1⟩

/-- What each merge of a search keeps under a condition, all of them keep. -/
theorem mergeAll_of_admits {Inv : Devices → Prop} {ok : Devices → Found → Prop} {now : Int}
    (hstep : ∀ s f, Inv s → ok s f → Inv (merge digest s now f)) {fs : List Found} {s : Devices}
    (hs : Inv s) (hok : Admits (fun s f => some (merge digest s now f)) ok s fs) :
    Inv (s.mergeAll digest now fs) := by
  induction fs generalizing s with
  | nil =>
      exact hs
  | cons f fs ih =>
      exact ih (hstep s f hs hok.1) (hok.2 _ rfl)

end Devices

end Print
end GateControl
