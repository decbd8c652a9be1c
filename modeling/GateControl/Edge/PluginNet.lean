import GateControl.Edge.LanGuard
import GateControl.Library.OrderedMap

/-!
# PluginNet — the network of an edge plugin

A plugin has no network of its own: each `gc.lan.*` call ends in its `PluginNet`, which checks the
capabilities in force and the target and then does what was asked.  `Network` is what the gateway
has open for all of them.  Sockets are entered there when they are created; a bound UDP port and a
TCP connection become ready later, and only then the plugin's own maps name them.

Left out are payloads, the headers, time limits and replies of HTTP requests, and the buffer of a
connection that is written to.
-/

namespace GateControl
namespace Edge

open Library

/-! ## The platform -/

/-- A parsed URL; `credentials` says that it has a user name or a password. -/
structure Url where
  protocol : String
  credentials : Bool
  hostname : Text
  port : Option Nat
  deriving DecidableEq

/-- What the platform computes: `String(x)`, `toUpperCase`, `new URL(s)` and base64. -/
structure Platform where
  print : Json → String
  upperCase : String → String
  parseUrl : String → Option Url
  base64 : Text → List UInt8

/-- `String(x)` where there may be no value. -/
def Platform.text (env : Platform) (x : Option Json) : String := (x.map env.print).getD "undefined"

/-! ## Sockets -/

inductive SocketKind
  | udp (port : Nat) (groups : List String)
  /-- the socket for datagrams that are sent without a port of their own -/
  | ephemeral
  | tcp (host : Text) (port : Nat)
  deriving DecidableEq

/-- The map of its plugin that a socket belongs to. -/
inductive Table
  | udp
  | common
  | tcp
  deriving DecidableEq

def SocketKind.table : SocketKind → Table
  | .udp _ _ => .udp
  | .ephemeral => .common
  | .tcp _ _ => .tcp

/-- A socket that is open, or on its way; `net` is the number of the `PluginNet` that created it. -/
structure Socket where
  plugin : String
  net : Nat
  id : Nat
  kind : SocketKind
  ready : Bool
  deriving DecidableEq

structure Browse where
  plugin : String
  net : Nat
  id : Nat
  service : String
  deriving DecidableEq

/-- What is open.  The numbers stand for the identity of the objects. -/
structure Network where
  sockets : OrderedMap Nat Socket
  browses : OrderedMap Nat Browse
  nextSocket : Nat
  nextBrowse : Nat
  deriving DecidableEq

namespace Network

def new : Network := ⟨.empty, .empty, 0, 0⟩

def openSocket (w : Network) (s : Socket) : Network :=
  { w with sockets := w.sockets.set w.nextSocket s, nextSocket := w.nextSocket + 1 }

def browse (w : Network) (b : Browse) : Network :=
  { w with browses := w.browses.set w.nextBrowse b, nextBrowse := w.nextBrowse + 1 }

def closeSocket (w : Network) (n : Nat) : Network := { w with sockets := w.sockets.delete n }

def stopBrowse (w : Network) (n : Nat) : Network := { w with browses := w.browses.delete n }

end Network

/-- `udp`, `tcp` and `browses` name what is open by the ids that the plugin knows. -/
structure PluginNet where
  pluginId : String
  udp : OrderedMap Nat Nat
  tcp : OrderedMap Nat Nat
  browses : OrderedMap Nat Nat
  ephemeral : Option Nat
  nextId : Nat
  deriving DecidableEq

/-! ## Calls -/

structure NetError where
  code : String
  message : String
  deriving DecidableEq

def DeniedError.toNetError (e : DeniedError) : NetError := ⟨DeniedError.code, e.message⟩

/-- What a call does on the network. -/
inductive Effect
  | udpBind (port : Nat) (groups : List String)
  | udpSend (host : Text) (port : Nat)
  | tcpConnect (host : Text) (port : Nat)
  | httpRequest (host : Text) (port : Nat)
  | tlsProbe (host : Text) (port : Nat)
  | mdnsBrowse (service : String)
  | mqttPublish (topic : String)
  | mqttSubscribe (filter : String)
  deriving DecidableEq

/-- The result of a call; `pending` if it comes later. -/
inductive Answer
  | pending
  | id (n : Nat)
  | done
  deriving DecidableEq

structure NetOutcome where
  net : PluginNet
  network : Network
  effects : List Effect
  result : Except NetError Answer

def udpSocketsPerPlugin : Nat := 16
def udpDatagramBytes : Nat := 8192
def tcpSocketsPerPlugin : Nat := 32
def tcpWriteBufferBytes : Nat := 1024 * 1024
def httpRequestBytes : Nat := 1024 * 1024
def mdnsBrowsesPerPlugin : Nat := 8

def httpMethods : List String := ["GET", "HEAD", "POST", "PUT", "PATCH", "DELETE", "OPTIONS"]

/-! ## Checks -/

def need (cond : Bool) (what : String) : Except NetError Unit :=
  if cond then .ok ()
  else .error ⟨DeniedError.code, "capability " ++ what ++ " not approved for this plugin"⟩

def netCheck (cond : Bool) (code message : String) : Except NetError Unit :=
  if cond then .ok () else .error ⟨code, message⟩

/-- A refused target is an error of the call. -/
def guarded {α : Type} (x : Except DeniedError α) : Except NetError α :=
  x.mapError DeniedError.toNetError

/-- A number that the plugin names a socket by. -/
def keyOf (id : Option Json) : Option Nat :=
  match id.bind Json.int? with
  | some (.ofNat n) => some n
  | _ => none

section Checks

variable (env : Platform) (guard : LanGuard) (caps : Caps) (args : Json)

/-- `decodeB64`; only the length counts. -/
def decodeB64 (b64 : Option Json) (max : Nat) : Except NetError (List UInt8) :=
  match b64 with
  | none => .ok []
  | some .null => .ok []
  | some (.str s) =>
      if (env.base64 s).length > max then
        .error ⟨"too_large", "payload larger than " ++ toString max ++ " bytes"⟩
      else .ok (env.base64 s)
  | some _ => .error ⟨"bad_request", "payload must be base64"⟩

/-- An approved group, as it stands in the list of groups of a call. -/
def isApprovedGroup (u : UdpCaps) (g : Json) : Bool :=
  g.str?.any fun s => decide (String.ofList s ∈ u.multicast)

/-- The groups of a call: anything but a list means none. -/
def groupsOf : List Json := ((args.get? "multicast").getD (.arr [])).items

/-- All groups of a call are approved; the error names the first one that is not. -/
def needGroups (u : UdpCaps) (groups : List Json) : Except NetError Unit :=
  match groups.find? fun g => !isApprovedGroup u g with
  | some g => need false ("udp multicast " ++ env.print g)
  | none => .ok ()

/-- The checks of `udpBind`: the approved port and groups. -/
def checkBind (size : Nat) : Except NetError (Nat × List String) := do
  let port := args.get? "port"
  let u : UdpCaps := caps.udp.getD ⟨[], []⟩
  let n := keyOf port
  need (n.any fun p => decide (p ∈ u.ports)) ("udp port " ++ env.text port)
  let groups := groupsOf args
  needGroups env u groups
  netCheck (size < udpSocketsPerPlugin) "busy" "too many UDP sockets"
  return (n.getD 0, groups.filterMap fun g => g.str?.map String.ofList)

/-- The checks of `udpSend` up to the choice of the socket. -/
def checkSend : Except NetError (Text × Nat) := do
  need caps.udp.isSome "udp"
  let u : UdpCaps := caps.udp.getD ⟨[], []⟩
  let host ← guarded (guard.check env.print (args.get? "host") u.multicast)
  let port ← guarded (checkPort env.print (args.get? "port"))
  let _ ← decodeB64 env (args.get? "b64") udpDatagramBytes
  return (host, port)

def checkConnect (size : Nat) : Except NetError (Text × Nat) := do
  need (caps.tcp = some true) "tcp.lan"
  let host ← guarded (guard.check env.print (args.get? "host") [])
  let port ← guarded (checkPort env.print (args.get? "port"))
  netCheck (size < tcpSocketsPerPlugin) "busy" "too many TCP connections"
  return (host, port)

def checkProbe : Except NetError (Text × Nat) := do
  need (caps.http = some true || caps.tcp = some true) "http.lan or tcp.lan"
  let host ← guarded (guard.check env.print (args.get? "host") [])
  -- without a port it is that of https
  let port ← guarded (checkPort env.print (some ((args.get? "port").getD (.num 443))))
  return (host, port)

/-- `normalizeFingerprint` gives a fingerprint. -/
def isFingerprint (raw : Json) : Bool :=
  match raw with
  | .str s =>
      let lower := (trim s).map asciiLower
      let rest := if "sha256:".toList.isPrefixOf lower then lower.drop 7 else lower
      let hex := rest.filter fun c => !(isTrimmed c || c = ':' || c = '-')
      hex.length = 64 && hex.all fun c => c.isDigit || ('a' ≤ c && c ≤ 'f')
  | _ => false

/-- A value that counts as true. -/
def isTruthy : Json → Bool
  | .null => false
  | .bool b => b
  | .num q => q ≠ 0
  | .str s => s ≠ []
  | _ => true

/-- The errors of `tlsOptions`. -/
def checkPin (u : Url) (pin : Option Json) : Except NetError Unit :=
  if u.protocol ≠ "https:" then
    netCheck (!pin.any isTruthy) "bad_request" "pinSha256 only for https"
  else
    match pin with
    | none => .ok ()
    | some .null => .ok ()
    | some p =>
        netCheck (isFingerprint p) "bad_request"
          "pinSha256 must be the SHA-256 of the certificate (64 hex characters)"

/-- Whether the plugin asks for a connection without verification. -/
def wantsInsecure (insecure : Option Json) : Bool :=
  match insecure with
  | none => false
  | some .null => false
  | some (.bool b) => b
  | some _ => true

def checkRequest : Except NetError (Text × Nat) := do
  need (caps.http = some true) "http.lan"
  netCheck (!wantsInsecure (args.get? "insecure")) DeniedError.code
    ("insecure HTTPS is not available — pin the certificate with pinSha256 " ++
      "(see gc.lan.tlsFingerprint)")
  match env.parseUrl (env.text (args.get? "url")) with
  | none => .error ⟨"bad_request", "invalid url"⟩
  | some u => do
      netCheck (u.protocol = "http:" || u.protocol = "https:") "bad_request" "only http and https"
      netCheck (!u.credentials) "bad_request"
        "credentials in the url are not allowed (use a header)"
      let host ← guarded (guard.check env.print (some (.str u.hostname)) [])
      let port := u.port.getD (if u.protocol = "https:" then 443 else 80)
      let port ← guarded (checkPort env.print (some (.num port)))
      let method := env.upperCase (((args.get? "method").map env.print).getD "GET")
      netCheck (method ∈ httpMethods) "bad_request" ("method " ++ method ++ " not allowed")
      let _ ← decodeB64 env (args.get? "b64") httpRequestBytes
      checkPin u (args.get? "pinSha256")
      return (host, port)

def checkBrowse (mdns : Bool) (size : Nat) : Except NetError String := do
  let service := args.get? "service"
  let name := (service.bind Json.str?).map String.ofList
  need (name.any fun s => decide (s ∈ caps.mdns.getD [])) ("mdns " ++ env.text service)
  netCheck mdns "not_available" "mDNS not available"
  netCheck (size < mdnsBrowsesPerPlugin) "busy" "too many mDNS browses"
  return name.getD ""

def checkSerial : Except NetError Unit := do
  let name := args.get? "name"
  need ((name.bind Json.str?).any fun s => decide (String.ofList s ∈ caps.serial.getD []))
    ("serial " ++ env.text name)
  .error ⟨"not_available", "serial devices are not passed to the edge container yet"⟩

end Checks

/-! ## The APIs -/

inductive NetApi
  | udpBind
  | udpSend
  | udpClose
  | tcpConnect
  | tcpWrite
  | tcpEnd
  | tcpDestroy
  | httpRequest
  | tlsFingerprint
  | mdnsBrowse
  | mdnsStop
  | serialOpen
  deriving DecidableEq

def netApis : List (String × NetApi) :=
  [("udp.bind", .udpBind), ("udp.send", .udpSend), ("udp.close", .udpClose),
    ("tcp.connect", .tcpConnect), ("tcp.write", .tcpWrite), ("tcp.end", .tcpEnd),
    ("tcp.destroy", .tcpDestroy), ("http.request", .httpRequest),
    ("tls.fingerprint", .tlsFingerprint), ("mdns.browse", .mdnsBrowse), ("mdns.stop", .mdnsStop),
    ("serial.open", .serialOpen)]

namespace PluginNet

def new (pluginId : String) : PluginNet := ⟨pluginId, .empty, .empty, .empty, none, 0⟩

section Apis

variable (env : Platform) (guard : LanGuard) (mdns : Bool) (caps : Caps) (k : Nat)
  (net : PluginNet) (w : Network) (args : Json)

/-- A call that changes nothing. -/
def answer (effects : List Effect) (result : Except NetError Answer) : NetOutcome :=
  ⟨net, w, effects, result⟩

/-- A socket under a fresh id, to be registered when it is ready. -/
def create (kind : SocketKind) (effect : Effect) : NetOutcome where
  net := { net with nextId := net.nextId + 1 }
  network := w.openSocket ⟨net.pluginId, k, net.nextId + 1, kind, false⟩
  effects := [effect]
  result := .ok .pending

def udpBind : NetOutcome :=
  match checkBind env caps args net.udp.size with
  | .error e => net.answer w [] (.error e)
  | .ok (port, groups) => net.create k w (.udp port groups) (.udpBind port groups)

/-- A datagram through the plugin's common socket, which is created at its first use. -/
def sendEphemeral (effect : Effect) : NetOutcome :=
  match net.ephemeral with
  | some _ => net.answer w [effect] (.ok .pending)
  | none =>
      { net := { net with ephemeral := some w.nextSocket }
        network := w.openSocket ⟨net.pluginId, k, 0, .ephemeral, true⟩
        effects := [effect]
        result := .ok .pending }

def udpSend : NetOutcome :=
  match checkSend env guard caps args with
  | .error e => net.answer w [] (.error e)
  | .ok (host, port) =>
      match args.get? "id" with
      | none => net.sendEphemeral k w (.udpSend host port)
      | some .null => net.sendEphemeral k w (.udpSend host port)
      | some id =>
          match (keyOf (some id)).bind fun i => net.udp.get i with
          | none => net.answer w [] (.error ⟨"not_found", "udp socket closed"⟩)
          | some _ => net.answer w [.udpSend host port] (.ok .pending)

def udpClose : NetOutcome :=
  match keyOf (args.get? "id") with
  | none => net.answer w [] (.ok .done)
  | some i =>
      match net.udp.get i with
      | none => net.answer w [] (.ok .done)
      | some n => ⟨{ net with udp := net.udp.delete i }, w.closeSocket n, [], .ok .done⟩

def tcpConnect : NetOutcome :=
  match checkConnect env guard caps args net.tcp.size with
  | .error e => net.answer w [] (.error e)
  | .ok (host, port) => net.create k w (.tcp host port) (.tcpConnect host port)

def tcpWrite : NetOutcome :=
  match (keyOf (args.get? "id")).bind fun i => net.tcp.get i with
  | none => net.answer w [] (.error ⟨"not_found", "connection closed"⟩)
  | some _ =>
      match decodeB64 env (args.get? "b64") tcpWriteBufferBytes with
      | .error e => net.answer w [] (.error e)
      | .ok _ => net.answer w [] (.ok .pending)

/-- The connection ends with the peer's answer, so nothing changes yet. -/
def tcpEnd : NetOutcome := net.answer w [] (.ok .done)

def tcpDestroy : NetOutcome :=
  match keyOf (args.get? "id") with
  | none => net.answer w [] (.ok .done)
  | some i =>
      match net.tcp.get i with
      | none => net.answer w [] (.ok .done)
      | some n => ⟨{ net with tcp := net.tcp.delete i }, w.closeSocket n, [], .ok .done⟩

def httpRequest : NetOutcome :=
  match checkRequest env guard caps args with
  | .error e => net.answer w [] (.error e)
  | .ok (host, port) => net.answer w [.httpRequest host port] (.ok .pending)

def tlsFingerprint : NetOutcome :=
  match checkProbe env guard caps args with
  | .error e => net.answer w [] (.error e)
  | .ok (host, port) => net.answer w [.tlsProbe host port] (.ok .pending)

def mdnsBrowse : NetOutcome :=
  match checkBrowse env caps args mdns net.browses.size with
  | .error e => net.answer w [] (.error e)
  | .ok service =>
      let id := net.nextId + 1
      { net := { net with nextId := id, browses := net.browses.set id w.nextBrowse }
        network := w.browse ⟨net.pluginId, k, id, service⟩
        effects := [.mdnsBrowse service]
        result := .ok (.id id) }

def mdnsStop : NetOutcome :=
  match keyOf (args.get? "id") with
  | none => net.answer w [] (.ok .done)
  | some i =>
      match net.browses.get i with
      | none => net.answer w [] (.ok .done)
      | some n => ⟨{ net with browses := net.browses.delete i }, w.stopBrowse n, [], .ok .done⟩

def serialOpen : NetOutcome :=
  net.answer w [] ((checkSerial env caps args).map fun _ => .done)

/-- `apis()[api](args)`. -/
def call (api : NetApi) : NetOutcome :=
  match api with
  | .udpBind => net.udpBind env caps k w args
  | .udpSend => net.udpSend env guard caps k w args
  | .udpClose => net.udpClose w args
  | .tcpConnect => net.tcpConnect env guard caps k w args
  | .tcpWrite => net.tcpWrite env w args
  | .tcpEnd => net.tcpEnd w
  | .tcpDestroy => net.tcpDestroy w args
  | .httpRequest => net.httpRequest env guard caps w args
  | .tlsFingerprint => net.tlsFingerprint env guard caps w args
  | .mdnsBrowse => net.mdnsBrowse env mdns caps k w args
  | .mdnsStop => net.mdnsStop w args
  | .serialOpen => net.serialOpen env caps w args

end Apis

/-- The end of `udpBind` and `tcpConnect`: the socket is ready and gets its id. -/
def register (net : PluginNet) (n : Nat) (s : Socket) : PluginNet :=
  match s.kind with
  | .udp _ _ => { net with udp := net.udp.set s.id n }
  | .tcp _ _ => { net with tcp := net.tcp.set s.id n }
  | .ephemeral => net

/-- The sockets that the maps name. -/
def handles (net : PluginNet) : List Nat := net.udp.values ++ net.ephemeral.toList ++ net.tcp.values

/-- `closeAll` on what is open. -/
def closeOpen (net : PluginNet) (w : Network) : Network :=
  { w with
    sockets := w.sockets.filter fun n _ => n ∉ net.handles
    browses := w.browses.filter fun n _ => n ∉ net.browses.values }

/-- `closeAll` on the maps. -/
def cleared (net : PluginNet) : PluginNet :=
  { net with udp := .empty, tcp := .empty, browses := .empty, ephemeral := none }

end PluginNet

/-! ## What the capabilities approve -/

/-- The capabilities that an effect needs. -/
def Permits (caps : Caps) : Effect → Prop
  | .udpBind port groups =>
      ∃ u, caps.udp = some u ∧ port ∈ u.ports ∧ ∀ g ∈ groups, g ∈ u.multicast
  | .udpSend host _ =>
      ∃ u, caps.udp = some u ∧ (isMulticast host = true → String.ofList host ∈ u.multicast)
  | .tcpConnect _ _ => caps.tcp = some true
  | .httpRequest _ _ => caps.http = some true
  | .tlsProbe _ _ => caps.http = some true ∨ caps.tcp = some true
  | .mdnsBrowse service => ∃ l, caps.mdns = some l ∧ service ∈ l
  | .mqttPublish topic => ∃ f ∈ caps.mqtt.getD [], Topics.matchesTopic f topic = true
  | .mqttSubscribe filter => ∃ f ∈ caps.mqtt.getD [], Topics.covers f filter = true

/-- What is permitted by narrower capabilities is permitted. -/
theorem Permits.of_within {c a : Caps} (h : c.Within a) {e : Effect} (hp : Permits c e) :
    Permits a e := by
  have hmqtt : ∀ f ∈ c.mqtt.getD [], f ∈ a.mqtt.getD [] := by
    intro f hf
    cases hc : c.mqtt with
    | none =>
        rw [hc] at hf
        cases hf
    | some l =>
        rw [hc] at hf
        rcases h.mqtt l hc with ⟨t, ht, hsub⟩
        rw [ht]
        exact hsub f hf
  cases e with
  | udpBind port groups =>
      rcases hp with ⟨u, hu, hport, hgroups⟩
      rcases h.udp u hu with ⟨v, hv, hports, hmulti⟩
      exact ⟨v, hv, hports port hport, fun g hg => hmulti g (hgroups g hg)⟩
  | udpSend host port =>
      rcases hp with ⟨u, hu, hhost⟩
      rcases h.udp u hu with ⟨v, hv, _, hmulti⟩
      exact ⟨v, hv, fun hm => hmulti _ (hhost hm)⟩
  | tcpConnect host port =>
      exact h.tcp hp
  | httpRequest host port =>
      exact h.http hp
  | tlsProbe host port =>
      exact hp.imp h.http h.tcp
  | mdnsBrowse service =>
      rcases hp with ⟨l, hl, hs⟩
      rcases h.mdns l hl with ⟨t, ht, hsub⟩
      exact ⟨t, ht, hsub service hs⟩
  | mqttPublish topic =>
      rcases hp with ⟨f, hf, hm⟩
      exact ⟨f, hmqtt f hf, hm⟩
  | mqttSubscribe filter =>
      rcases hp with ⟨f, hf, hm⟩
      exact ⟨f, hmqtt f hf, hm⟩

/-- The unicast address an effect goes to. -/
def Effect.unicast : Effect → Option Text
  | .udpSend host _ => if isMulticast host then none else some host
  | .tcpConnect host _ => some host
  | .httpRequest host _ => some host
  | .tlsProbe host _ => some host
  | _ => none

/-- An effect that the capabilities approve and whose target the guard lets pass. -/
structure Confined (guard : LanGuard) (caps : Caps) (e : Effect) : Prop where
  permits : Permits caps e
  target : ∀ host, e.unicast = some host → guard.LanTarget host

/-! ## What the checks establish -/

section Specs

variable {env : Platform} {guard : LanGuard} {caps : Caps} {args : Json}

theorem bind_eq_ok {ε α β : Type} {x : Except ε α} {f : α → Except ε β} {b : β}
    (h : (x >>= f) = .ok b) : ∃ a, x = .ok a ∧ f a = .ok b := by
  cases x with
  | error e =>
      cases h
  | ok a =>
      exact ⟨a, rfl, h⟩

theorem need_eq_ok {cond : Bool} {what : String} {u : Unit} (h : need cond what = .ok u) :
    cond = true := by
  unfold need at h
  split at h
  · assumption
  · cases h

theorem guarded_eq_ok {α : Type} {x : Except DeniedError α} {a : α} (h : guarded x = .ok a) :
    x = .ok a := by
  cases x with
  | error e =>
      cases h
  | ok b =>
      cases h
      rfl

/-- Without groups to choose from, the guard lets only targets of the LAN pass. -/
theorem lanTarget_of_check {host : Option Json} {s : Text}
    (h : guarded (guard.check env.print host []) = .ok s) : guard.LanTarget s := by
  rcases LanGuard.check_spec env.print (guarded_eq_ok h) with ⟨_, hlan | ⟨_, hmem⟩⟩
  · exact hlan
  · cases hmem

theorem needGroups_eq_ok {u : UdpCaps} {groups : List Json} {x : Unit}
    (h : needGroups env u groups = .ok x) : ∀ g ∈ groups, isApprovedGroup u g = true := by
  unfold needGroups at h
  split at h
  · cases h
  · rename_i hnone
    intro g hg
    simpa using List.find?_eq_none.1 hnone g hg

theorem checkBind_spec {size port : Nat} {groups : List String}
    (h : checkBind env caps args size = .ok (port, groups)) :
    Permits caps (.udpBind port groups) := by
  unfold checkBind at h
  rcases bind_eq_ok h with ⟨_, hport, h⟩
  rcases bind_eq_ok h with ⟨_, hgroups, h⟩
  rcases bind_eq_ok h with ⟨_, _, h⟩
  have hport := need_eq_ok hport
  have hgroups := needGroups_eq_ok hgroups
  cases h
  rcases (Option.any_eq_true _ _).1 hport with ⟨p, hp, hmem⟩
  cases hu : caps.udp with
  | none =>
      simp [hu] at hmem
  | some u =>
      simp only [hu, Option.getD_some, decide_eq_true_eq] at hmem hgroups
      refine ⟨u, hu, ?_, ?_⟩
      · rw [hp]
        exact hmem
      · intro g hg
        rcases List.mem_filterMap.1 hg with ⟨j, hj, hjg⟩
        rcases Option.map_eq_some_iff.1 hjg with ⟨s, hs, rfl⟩
        have happ := hgroups j hj
        simpa [isApprovedGroup, hs] using happ

theorem checkSend_spec {host : Text} {port : Nat}
    (h : checkSend env guard caps args = .ok (host, port)) :
    (∃ u, caps.udp = some u) ∧ Confined guard caps (.udpSend host port) := by
  unfold checkSend at h
  rcases bind_eq_ok h with ⟨_, hudp, h⟩
  rcases bind_eq_ok h with ⟨s, hhost, h⟩
  rcases bind_eq_ok h with ⟨_, _, h⟩
  rcases bind_eq_ok h with ⟨_, _, h⟩
  cases h
  rcases Option.isSome_iff_exists.1 (need_eq_ok hudp) with ⟨u, hu⟩
  refine ⟨⟨u, hu⟩, ?_⟩
  rw [hu, Option.getD_some] at hhost
  rcases LanGuard.check_spec env.print (guarded_eq_ok hhost) with ⟨_, hlan | ⟨hmulti, hmem⟩⟩
  · refine ⟨⟨u, hu, fun hm => ?_⟩, fun t ht => ?_⟩
    · rw [hlan.unicast] at hm
      cases hm
    · simp only [Effect.unicast, hlan.unicast] at ht
      cases ht
      exact hlan
  · refine ⟨⟨u, hu, fun _ => hmem⟩, fun t ht => ?_⟩
    simp [Effect.unicast, hmulti] at ht

theorem checkConnect_spec {size : Nat} {host : Text} {port : Nat}
    (h : checkConnect env guard caps args size = .ok (host, port)) :
    Confined guard caps (.tcpConnect host port) := by
  unfold checkConnect at h
  rcases bind_eq_ok h with ⟨_, htcp, h⟩
  rcases bind_eq_ok h with ⟨s, hhost, h⟩
  rcases bind_eq_ok h with ⟨_, _, h⟩
  rcases bind_eq_ok h with ⟨_, _, h⟩
  cases h
  have htcp : caps.tcp = some true := of_decide_eq_true (need_eq_ok htcp)
  refine ⟨htcp, ?_⟩
  rintro t ⟨⟩
  exact lanTarget_of_check hhost

theorem checkProbe_spec {host : Text} {port : Nat}
    (h : checkProbe env guard caps args = .ok (host, port)) :
    Confined guard caps (.tlsProbe host port) := by
  unfold checkProbe at h
  rcases bind_eq_ok h with ⟨_, hcap, h⟩
  rcases bind_eq_ok h with ⟨s, hhost, h⟩
  rcases bind_eq_ok h with ⟨_, _, h⟩
  cases h
  have hcap : caps.http = some true ∨ caps.tcp = some true := by simpa using need_eq_ok hcap
  refine ⟨hcap, ?_⟩
  rintro t ⟨⟩
  exact lanTarget_of_check hhost

theorem checkRequest_spec {host : Text} {port : Nat}
    (h : checkRequest env guard caps args = .ok (host, port)) :
    Confined guard caps (.httpRequest host port) := by
  unfold checkRequest at h
  rcases bind_eq_ok h with ⟨_, hhttp, h⟩
  rcases bind_eq_ok h with ⟨_, _, h⟩
  split at h
  · cases h
  · rcases bind_eq_ok h with ⟨_, _, h⟩
    rcases bind_eq_ok h with ⟨_, _, h⟩
    -- the host that is checked is the one of the URL that is requested
    rcases bind_eq_ok h with ⟨s, hhost, h⟩
    rcases bind_eq_ok h with ⟨_, _, h⟩
    rcases bind_eq_ok h with ⟨_, _, h⟩
    rcases bind_eq_ok h with ⟨_, _, h⟩
    rcases bind_eq_ok h with ⟨_, _, h⟩
    cases h
    have hhttp : caps.http = some true := of_decide_eq_true (need_eq_ok hhttp)
    refine ⟨hhttp, ?_⟩
    rintro t ⟨⟩
    exact lanTarget_of_check hhost

theorem checkBrowse_spec {mdns : Bool} {size : Nat} {service : String}
    (h : checkBrowse env caps args mdns size = .ok service) :
    Permits caps (.mdnsBrowse service) := by
  unfold checkBrowse at h
  rcases bind_eq_ok h with ⟨_, hname, h⟩
  rcases bind_eq_ok h with ⟨_, _, h⟩
  rcases bind_eq_ok h with ⟨_, _, h⟩
  cases h
  rcases (Option.any_eq_true _ _).1 (need_eq_ok hname) with ⟨s, hs, hmem⟩
  rw [hs]
  cases hl : caps.mdns with
  | none =>
      simp [hl] at hmem
  | some l =>
      rw [hl, Option.getD_some, decide_eq_true_eq] at hmem
      exact ⟨l, hl, hmem⟩

end Specs

/-! ## What a call can do -/

/-- The capabilities that a socket needs. -/
def SocketKind.Permitted (caps : Caps) : SocketKind → Prop
  | .udp port groups => Permits caps (.udpBind port groups)
  | .ephemeral => ∃ u, caps.udp = some u
  | .tcp _ _ => caps.tcp = some true

theorem SocketKind.Permitted.of_within {c a : Caps} (h : c.Within a) {kind : SocketKind}
    (hp : kind.Permitted c) : kind.Permitted a := by
  cases kind with
  | udp port groups =>
      exact Permits.of_within (e := .udpBind port groups) h hp
  | ephemeral =>
      rcases hp with ⟨u, hu⟩
      rcases h.udp u hu with ⟨v, hv, _⟩
      exact ⟨v, hv⟩
  | tcp host port =>
      exact h.tcp hp

/-- How a call changes the maps of its plugin and what is open. -/
inductive Changes (caps : Caps) (k : Nat) (net : PluginNet) (w : Network) :
    PluginNet → Network → Prop
  | same : Changes caps k net w net w
  | created {kind : SocketKind} (hp : kind.Permitted caps) (hkind : kind ≠ .ephemeral) :
      Changes caps k net w { net with nextId := net.nextId + 1 }
        (w.openSocket ⟨net.pluginId, k, net.nextId + 1, kind, false⟩)
  | common (hp : SocketKind.ephemeral.Permitted caps) (hnone : net.ephemeral = none) :
      Changes caps k net w { net with ephemeral := some w.nextSocket }
        (w.openSocket ⟨net.pluginId, k, 0, .ephemeral, true⟩)
  | udpClosed {i n : Nat} (hn : net.udp.get i = some n) :
      Changes caps k net w { net with udp := net.udp.delete i } (w.closeSocket n)
  | tcpClosed {i n : Nat} (hn : net.tcp.get i = some n) :
      Changes caps k net w { net with tcp := net.tcp.delete i } (w.closeSocket n)
  | browsed {service : String} (hp : Permits caps (.mdnsBrowse service)) :
      Changes caps k net w
        { net with
          nextId := net.nextId + 1
          browses := net.browses.set (net.nextId + 1) w.nextBrowse }
        (w.browse ⟨net.pluginId, k, net.nextId + 1, service⟩)
  | stopped {i n : Nat} (hn : net.browses.get i = some n) :
      Changes caps k net w { net with browses := net.browses.delete i } (w.stopBrowse n)

/-- What a call does: effects that are allowed, and one of the changes above. -/
structure NetOutcome.Allowed (o : NetOutcome) (guard : LanGuard) (caps : Caps) (k : Nat)
    (net : PluginNet) (w : Network) : Prop where
  effects : ∀ e ∈ o.effects, Confined guard caps e
  changes : Changes caps k net w o.net o.network

namespace PluginNet

section Apis

variable {env : Platform} {guard : LanGuard} {mdns : Bool} {caps : Caps} {k : Nat}
  {net : PluginNet} {w : Network} {args : Json}

theorem answer_allowed {effects : List Effect} (result : Except NetError Answer)
    (h : ∀ e ∈ effects, Confined guard caps e) :
    (net.answer w effects result).Allowed guard caps k net w :=
  ⟨h, .same⟩

theorem answer_nil_allowed (result : Except NetError Answer) :
    (net.answer w [] result).Allowed guard caps k net w :=
  answer_allowed result (by simp)

theorem create_allowed {kind : SocketKind} {e : Effect} (hkind : kind ≠ .ephemeral)
    (hp : kind.Permitted caps) (he : Confined guard caps e) :
    (net.create k w kind e).Allowed guard caps k net w :=
  ⟨by simpa [create] using he, .created hp hkind⟩

theorem udpBind_allowed : (net.udpBind env caps k w args).Allowed guard caps k net w := by
  unfold udpBind
  split
  · exact answer_nil_allowed _
  · rename_i port groups h
    have hp := checkBind_spec h
    refine create_allowed (by simp) hp ⟨hp, ?_⟩
    rintro host ⟨⟩

theorem sendEphemeral_allowed {e : Effect} (hudp : ∃ u, caps.udp = some u)
    (he : Confined guard caps e) : (net.sendEphemeral k w e).Allowed guard caps k net w := by
  unfold sendEphemeral
  split
  · exact answer_allowed _ (by simpa using he)
  · rename_i hnone
    exact ⟨by simpa using he, .common hudp hnone⟩

theorem udpSend_allowed : (net.udpSend env guard caps k w args).Allowed guard caps k net w := by
  unfold udpSend
  split
  · exact answer_nil_allowed _
  · rename_i host port h
    rcases checkSend_spec h with ⟨hudp, he⟩
    split
    · exact sendEphemeral_allowed hudp he
    · exact sendEphemeral_allowed hudp he
    · split
      · exact answer_nil_allowed _
      · exact answer_allowed _ (by simpa using he)

theorem udpClose_allowed : (net.udpClose w args).Allowed guard caps k net w := by
  unfold udpClose
  split
  · exact answer_nil_allowed _
  · split
    · exact answer_nil_allowed _
    · rename_i hn
      exact ⟨by simp, .udpClosed hn⟩

theorem tcpConnect_allowed :
    (net.tcpConnect env guard caps k w args).Allowed guard caps k net w := by
  unfold tcpConnect
  split
  · exact answer_nil_allowed _
  · rename_i host port h
    have he := checkConnect_spec h
    exact create_allowed (by simp) he.permits he

theorem tcpWrite_allowed : (net.tcpWrite env w args).Allowed guard caps k net w := by
  unfold tcpWrite
  split
  · exact answer_nil_allowed _
  · split
    · exact answer_nil_allowed _
    · exact answer_nil_allowed _

theorem tcpDestroy_allowed : (net.tcpDestroy w args).Allowed guard caps k net w := by
  unfold tcpDestroy
  split
  · exact answer_nil_allowed _
  · split
    · exact answer_nil_allowed _
    · rename_i hn
      exact ⟨by simp, .tcpClosed hn⟩

theorem httpRequest_allowed :
    (net.httpRequest env guard caps w args).Allowed guard caps k net w := by
  unfold httpRequest
  split
  · exact answer_nil_allowed _
  · rename_i host port h
    exact answer_allowed _ (by simpa using checkRequest_spec h)

theorem tlsFingerprint_allowed :
    (net.tlsFingerprint env guard caps w args).Allowed guard caps k net w := by
  unfold tlsFingerprint
  split
  · exact answer_nil_allowed _
  · rename_i host port h
    exact answer_allowed _ (by simpa using checkProbe_spec h)

theorem mdnsBrowse_allowed :
    (net.mdnsBrowse env mdns caps k w args).Allowed guard caps k net w := by
  unfold mdnsBrowse
  split
  · exact answer_nil_allowed _
  · rename_i service h
    have hp := checkBrowse_spec h
    refine ⟨?_, .browsed hp⟩
    intro e he
    rw [List.mem_singleton.1 he]
    refine ⟨hp, ?_⟩
    rintro host ⟨⟩

theorem mdnsStop_allowed : (net.mdnsStop w args).Allowed guard caps k net w := by
  unfold mdnsStop
  split
  · exact answer_nil_allowed _
  · split
    · exact answer_nil_allowed _
    · rename_i hn
      exact ⟨by simp, .stopped hn⟩

/-- Every API does only what the capabilities and the guard allow at the call. -/
theorem call_allowed (api : NetApi) :
    (net.call env guard mdns caps k w args api).Allowed guard caps k net w := by
  cases api with
  | udpBind => exact udpBind_allowed
  | udpSend => exact udpSend_allowed
  | udpClose => exact udpClose_allowed
  | tcpConnect => exact tcpConnect_allowed
  | tcpWrite => exact tcpWrite_allowed
  | tcpEnd => exact answer_nil_allowed _
  | tcpDestroy => exact tcpDestroy_allowed
  | httpRequest => exact httpRequest_allowed
  | tlsFingerprint => exact tlsFingerprint_allowed
  | mdnsBrowse => exact mdnsBrowse_allowed
  | mdnsStop => exact mdnsStop_allowed
  | serialOpen => exact answer_nil_allowed _

end Apis

end PluginNet

end Edge
end GateControl
