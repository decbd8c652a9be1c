import GateControl.Edge.Mqtt
import GateControl.Edge.PluginNet
import GateControl.Library.Transition

/-!
# Bridge — the gateway's side of the edge socket

The edge container has no network; what its plugins want from the LAN, from mDNS and from the broker
comes to `EdgeBridge` as RPC messages.  The bridge reads along the desired state that the server
sends, and decides by it.  A plugin has an entry with the capabilities of its last call and with its
`PluginNet`; when the plugin is closed, the entry is forgotten, and the next call makes a new one.

A `PluginNet` lives on after that for the operations that still wait, so all of them are kept under
numbers.  `step` says what can happen: states, messages, the ends of binds and connects, packets,
closed connections, and what the broker and its volume do.  Reaching the relay, packages and the
replies to the edge host are left out.
-/

namespace GateControl
namespace Edge
namespace Bridge

open Library

/-! ## The desired state -/

structure PluginState where
  id : String
  caps : Caps
  capsError : Option String
  enabled : Bool
  deriving DecidableEq

structure Desired where
  edgeEnabled : Bool
  plugins : List PluginState
  mqtt : Mqtt.Config
  deriving DecidableEq

def mqttOff : Mqtt.Config := ⟨false, .empty⟩

namespace Desired

/-- The entry of a plugin that may run. -/
def wanted (st : Desired) (id : String) : Option PluginState :=
  if !st.edgeEnabled then none
  else
    match st.plugins.find? fun x => x.id = id with
    | some p => if p.enabled && p.capsError.isNone then some p else none
    | none => none

/-- What the broker is configured with. -/
def mqttConfig (st : Desired) : Mqtt.Config := if st.edgeEnabled then st.mqtt else mqttOff

end Desired

/-! ## The bridge -/

/-- The entry of a plugin; `net` is the number of its `PluginNet`. -/
structure Entry where
  caps : Caps
  net : Nat
  deriving DecidableEq

/-- `rpc` says whether the edge host is connected, `mdns` whether there is an mDNS service. -/
structure EdgeBridge where
  desired : Option Desired
  plugins : OrderedMap String Entry
  nets : OrderedMap Nat PluginNet
  nextNet : Nat
  network : Network
  mqtt : Mqtt.MqttManager
  rpc : Bool
  inflight : Nat
  guard : LanGuard
  mdns : Bool
  deriving DecidableEq

def new (guard : LanGuard) (mdns volume : Bool) : EdgeBridge where
  desired := none
  plugins := .empty
  nets := .empty
  nextNet := 0
  network := .new
  mqtt := .new volume
  rpc := false
  inflight := 0
  guard := guard
  mdns := mdns

def maxInflight : Nat := 128

def wanted (b : EdgeBridge) (id : String) : Option PluginState := b.desired.bind fun st => st.wanted id

/-- `e.net.closeAll()`. -/
def closeNet (b : EdgeBridge) (k : Nat) : EdgeBridge :=
  match b.nets.get k with
  | none => b
  | some net => { b with nets := b.nets.set k net.cleared, network := net.closeOpen b.network }

def closePlugin (b : EdgeBridge) (id : String) : EdgeBridge :=
  let b :=
    match b.plugins.get id with
    | none => b
    | some e => closeNet b e.net
  { b with mqtt := Mqtt.dropPlugin b.mqtt id, plugins := b.plugins.delete id }

def closePlugins (b : EdgeBridge) (ids : List String) : EdgeBridge := ids.foldl closePlugin b

def closeAllPlugins (b : EdgeBridge) : EdgeBridge := closePlugins b b.plugins.keys

/-- The plugins with an entry that a state does not want. -/
def unwanted (b : EdgeBridge) (st : Desired) : List String :=
  b.plugins.keys.filter fun id => (st.wanted id).isNone

def setDesired (b : EdgeBridge) (st : Desired) : EdgeBridge :=
  let b := closePlugins { b with desired := some st } (unwanted b st)
  -- without its volume the broker is not the gateway's
  if b.mqtt.available then { b with mqtt := Mqtt.apply b.mqtt st.mqttConfig } else b

/-! ## Messages of the edge host -/

/-- `/^[a-z0-9]+(?:-[a-z0-9]+)*$/` with 2 to 64 characters. -/
def validId (id : Text) : Bool :=
  2 ≤ id.length && id.length ≤ 64 &&
    (id.splitOn '-').all fun part => part ≠ [] && part.all isLowerAlnum

inductive MqttApi
  | subscribe
  | unsubscribe
  | publish
  deriving DecidableEq

inductive Api
  | net (api : NetApi)
  | mqtt (api : MqttApi)
  deriving DecidableEq

def mqttApis : List (String × MqttApi) :=
  [("mqtt.subscribe", .subscribe), ("mqtt.unsubscribe", .unsubscribe), ("mqtt.publish", .publish)]

def apis : List (String × Api) :=
  (netApis.map fun a => (a.1, .net a.2)) ++ mqttApis.map fun a => (a.1, .mqtt a.2)

/-- The API a message names. -/
def apiOf (api : Option Json) : Option Api :=
  (api.bind Json.str?).bind fun s => apis.lookup (String.ofList s)

/-- The outcome of a message; `result` is what is replied, now or later. -/
structure Outcome where
  bridge : EdgeBridge
  effects : List (String × Effect) := []
  result : Option (Except NetError Answer) := none

def refuse (b : EdgeBridge) (code message : String) : Outcome where
  bridge := b
  result := some (.error ⟨code, message⟩)

/-- `entry(id)`, with the capabilities of the call in it. -/
def enter (b : EdgeBridge) (id : String) (caps : Caps) : EdgeBridge :=
  match b.plugins.get id with
  | some e => { b with plugins := b.plugins.set id { e with caps := caps } }
  | none =>
      { b with
        plugins := b.plugins.set id ⟨caps, b.nextNet⟩
        nets := b.nets.set b.nextNet (.new id)
        nextNet := b.nextNet + 1 }

section Calls

variable (env : Platform)

/-- `e.net.apis()[api](args)`; the capabilities are read from the entry. -/
def callNet (b : EdgeBridge) (plugin : String) (api : NetApi) (args : Json) : Outcome :=
  match b.plugins.get plugin with
  | none => refuse b "not_enabled" "edge part not enabled on this gateway"
  | some e =>
      match b.nets.get e.net with
      | none => refuse b "not_enabled" "edge part not enabled on this gateway"
      | some net =>
          let o := net.call env b.guard b.mdns e.caps e.net b.network args api
          { bridge := { b with nets := b.nets.set e.net o.net, network := o.network }
            effects := o.effects.map fun f => (plugin, f)
            result := some o.result }

def topicArg (topic : Option Json) : Mqtt.TopicArg :=
  match topic with
  | some (.str s) => .str (String.ofList s)
  | _ => .other (env.text topic)

/-- The call of the manager; `reply` is the error of the broker's client, if there is one. -/
def mqttCall (api : MqttApi) (args : Json) (reply : Option Mqtt.MqttError) : Mqtt.Call :=
  match api with
  | .subscribe => .subscribe (topicArg env (args.get? "topic")) reply
  | .unsubscribe => .unsubscribe (env.text (args.get? "id"))
  | .publish =>
      .publish (topicArg env (args.get? "topic"))
        (env.base64 (((args.get? "b64").bind Json.str?).getD [])) reply

def mqttResult (r : Except Mqtt.MqttError Mqtt.Reply) : Except NetError Answer :=
  match r with
  | .error e => .error ⟨e.code, e.message⟩
  | .ok (.subscribed id) => .ok (.id id)
  | .ok .done => .ok .done

/-- The topic that was handed to the broker, or the filter of the entered subscription. -/
def mqttEffects (plugin : String) (o : Mqtt.Outcome) : List Effect :=
  (o.sent.map .mqttPublish).toList ++
    ((o.entered.bind fun id => o.manager.subs.get (Mqtt.subKey plugin (toString id))).map
      fun s => .mqttSubscribe s.filter).toList

def callMqtt (b : EdgeBridge) (plugin : String) (api : MqttApi) (args : Json)
    (reply : Option Mqtt.MqttError) : Outcome :=
  if !b.mqtt.available then refuse b "not_available" "MQTT is not available on this gateway"
  else
    let caps := ((b.plugins.get plugin).map Entry.caps).getD {}
    let o := Mqtt.pluginCall b.mqtt plugin caps.mqtt (mqttCall env api args reply)
    { bridge := { b with mqtt := o.manager }
      effects := (mqttEffects plugin o).map fun f => (plugin, f)
      result := some (mqttResult o.result) }

def callApi (b : EdgeBridge) (plugin : String) (api : Api) (args : Json)
    (reply : Option Mqtt.MqttError) : Outcome :=
  match api with
  | .net api => callNet env b plugin api args
  | .mqtt api => callMqtt env b plugin api args reply

/-- The arguments of a message; anything but an object counts as none. -/
def argsOf (m : Json) : Json :=
  match m.get? "args" with
  | some (.obj fields) => .obj fields
  | _ => .obj []

def handleCall (b : EdgeBridge) (m : Json) (reply : Option Mqtt.MqttError) : Outcome :=
  match (m.get? "plugin").bind Json.str? with
  | none => refuse b "bad_request" "invalid plugin id"
  | some id =>
      if !validId id then refuse b "bad_request" "invalid plugin id"
      else
        let plugin := String.ofList id
        match apiOf (m.get? "api") with
        | none =>
            refuse b "unknown_api"
              ("unknown gc api " ++ String.ofList ((env.text (m.get? "api")).toList.take 40))
        | some api =>
            match wanted b plugin with
            | none => refuse b "not_enabled" "edge part not enabled on this gateway"
            | some p =>
                match validateCaps env.print "caps" (m.get? "caps") with
                | .error e => refuse b "bad_request" e.message
                | .ok claimed =>
                    -- the claim can only narrow what the server approved
                    callApi env (enter b plugin (intersectCaps claimed p.caps)) plugin api
                      (argsOf m) reply

/-- A message of the edge host; other messages than these two are ignored. -/
def onRpc (b : EdgeBridge) (m : Json) (reply : Option Mqtt.MqttError) : Outcome :=
  if (m.field "t").isText "close" then
    match (m.get? "plugin").bind Json.str? with
    | some id => { bridge := if validId id then closePlugin b (String.ofList id) else b }
    | none => { bridge := b }
  else if (m.field "t").isText "call" && ((m.get? "id").bind Json.int?).isSome then
    if maxInflight ≤ b.inflight then refuse b "busy" "too many calls at the gateway"
    else handleCall env { b with inflight := b.inflight + 1 } m reply
  else { bridge := b }

end Calls

/-! ## The bridge as a system -/

inductive Action
  | setDesired (st : Desired)
  /-- A message of the edge host; `reply` is what the broker's client makes of it. -/
  | rpc (m : Json) (reply : Option Mqtt.MqttError)
  | rpcOpen
  | rpcClose
  /-- A bind or connect succeeds. -/
  | opened (n : Nat)
  | failed (n : Nat)
  /-- A datagram, or data, an end or an error on a connection. -/
  | event (n : Nat) (sender : Text)
  | peerClosed (n : Nat)
  | found (n : Nat) (ip : Text)
  | guard (g : LanGuard)
  | connection (up : Bool)
  | message (topic : String)
  | refresh
  | volume (up : Bool)
  /-- A call is settled. -/
  | finished
  | stop

/-- The end of a bind or connect that worked. -/
def register (b : EdgeBridge) (n : Nat) (s : Socket) (net : PluginNet) : EdgeBridge :=
  { b with
    nets := b.nets.set s.net (net.register n s)
    network := { b.network with sockets := b.network.sockets.set n { s with ready := true } } }

/-- A connection is gone. -/
def unregister (b : EdgeBridge) (n : Nat) (s : Socket) (net : PluginNet) : EdgeBridge :=
  { b with
    nets := b.nets.set s.net { net with tcp := net.tcp.delete s.id }
    network := b.network.closeSocket n }

def step (env : Platform) (b : EdgeBridge) : Action → Option EdgeBridge
  | .setDesired st => some (setDesired b st)
  | .rpc m reply => some (onRpc env b m reply).bridge
  | .rpcOpen =>
      -- a second edge host takes the place of the first one
      some { (if b.rpc then closeAllPlugins b else b) with rpc := true }
  | .rpcClose => if b.rpc then some { closeAllPlugins b with rpc := false } else none
  | .opened n =>
      (b.network.sockets.get n).bind fun s =>
        if s.ready then none else (b.nets.get s.net).map fun net => register b n s net
  | .failed n =>
      (b.network.sockets.get n).bind fun s =>
        if s.ready then none else some { b with network := b.network.closeSocket n }
  | .event n _ => (b.network.sockets.get n).bind fun s => if s.ready then some b else none
  | .peerClosed n =>
      (b.network.sockets.get n).bind fun s =>
        if s.ready && s.kind.table = .tcp then
          (b.nets.get s.net).map fun net => unregister b n s net
        else none
  | .found n _ => (b.network.browses.get n).map fun _ => b
  | .guard g => some { b with guard := g }
  | .connection up =>
      -- a client is there only while the broker is on
      if up && !b.mqtt.cfg.enabled then none
      else some { b with mqtt := { b.mqtt with connected := up } }
  | .message _ => if b.mqtt.connected then some b else none
  | .refresh => some { b with mqtt := Mqtt.refresh b.mqtt }
  | .volume up => some { b with mqtt := { b.mqtt with available := up } }
  | .finished => if b.inflight = 0 then none else some { b with inflight := b.inflight - 1 }
  | .stop =>
      let b := closeAllPlugins b
      some { b with
        rpc := false
        mqtt := { b.mqtt with cfg := { b.mqtt.cfg with enabled := false }, connected := false } }

/-! ## Messages to the edge host -/

/-- What a message to the edge host comes from. -/
inductive Source
  | socket (n : Nat)
  | browse (n : Nat)
  | subscription
  deriving DecidableEq

/-- `{ t: 'push', plugin, msg }` with the id in `msg`. -/
structure Push where
  plugin : String
  id : Nat
  source : Source
  deriving DecidableEq

/-- What a socket hands on: datagrams only from senders in the LAN. -/
def heard (env : Platform) (b : EdgeBridge) (s : Socket) (sender : Text) : Bool :=
  s.kind.table = .tcp || b.guard.allowed env.print sender

/-- The messages that a step sends; one may be dropped when the edge host does not read. -/
def pushes (env : Platform) (b : EdgeBridge) (a : Action) : List Push :=
  if !b.rpc then []
  else
    match a with
    | .event n sender =>
        match b.network.sockets.get n with
        | some s =>
            if s.ready && heard env b s sender then [⟨s.plugin, s.id, .socket n⟩] else []
        | none => []
    | .peerClosed n =>
        match b.network.sockets.get n with
        | some s =>
            -- a connection that the plugin has given up ends without a message
            if s.ready && s.kind.table = .tcp &&
                (b.nets.get s.net).any fun net => net.tcp.has s.id then
              [⟨s.plugin, s.id, .socket n⟩]
            else []
        | none => []
    | .found n ip =>
        match b.network.browses.get n with
        | some br =>
            if b.guard.allowed env.print ip then [⟨br.plugin, br.id, .browse n⟩] else []
        | none => []
    | .message topic =>
        if b.mqtt.connected then
          (Mqtt.onMessage b.mqtt topic).map fun d => ⟨d.plugin, d.id, .subscription⟩
        else []
    | _ => []

/-! ## What a message can do -/

/-- A message is refused or ignored, closes a plugin, or calls an API of a plugin that the desired
state wants, with no more than its approved capabilities. -/
inductive Handled (env : Platform) (b : EdgeBridge) (o : Outcome) : Prop
  | ignored {i : Nat} (hb : o.bridge = { b with inflight := i }) (he : o.effects = [])
  | closed {id : String} (hb : o.bridge = closePlugin b id) (he : o.effects = [])
  | call {i : Nat} {plugin : String} {p : PluginState} {caps : Caps} {api : Api} {args : Json}
      {reply : Option Mqtt.MqttError} (hp : wanted b plugin = some p) (hcaps : caps.Within p.caps)
      (ho : o = callApi env (enter { b with inflight := i } plugin caps) plugin api args reply)

theorem handleCall_cases (env : Platform) (b : EdgeBridge) (i : Nat) (m : Json)
    (reply : Option Mqtt.MqttError) :
    Handled env b (handleCall env { b with inflight := i } m reply) := by
  unfold handleCall
  split
  · exact .ignored rfl rfl
  · split
    · exact .ignored rfl rfl
    · dsimp only
      split
      · exact .ignored rfl rfl
      · split
        · exact .ignored rfl rfl
        · rename_i p hp
          split
          · exact .ignored rfl rfl
          · -- the capabilities of the call are an intersection with the approved ones
            exact .call hp (intersectCaps_right _ p.caps) rfl

theorem onRpc_cases (env : Platform) (b : EdgeBridge) (m : Json) (reply : Option Mqtt.MqttError) :
    Handled env b (onRpc env b m reply) := by
  unfold onRpc
  split
  · split
    · rename_i id _
      by_cases hid : validId id = true
      · exact .closed (if_pos hid) rfl
      · exact .ignored (i := b.inflight) (if_neg hid) rfl
    · exact .ignored (i := b.inflight) rfl rfl
  · split
    · split
      · exact .ignored (i := b.inflight) rfl rfl
      · exact handleCall_cases env b _ m reply
    · exact .ignored (i := b.inflight) rfl rfl

/-- After `enter` the plugin has an entry with the capabilities of the call. -/
theorem enter_spec (b : EdgeBridge) (id : String) (caps : Caps) :
    ∃ e, (enter b id caps).plugins.get id = some e ∧ e.caps = caps := by
  unfold enter
  split
  · exact ⟨_, OrderedMap.get_set_self .., rfl⟩
  · exact ⟨_, OrderedMap.get_set_self .., rfl⟩

end Bridge
end Edge
end GateControl
