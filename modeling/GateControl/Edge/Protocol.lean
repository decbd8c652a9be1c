import GateControl.Edge.Bridge
import GateControl.Edge.Host

/-!
# Protocol — the desired state as the server sends it

`parseState` checks a `state` message and brings it into one form before anything of it is applied.
A wrong message is refused as a whole; capabilities that are wrong only bar their own plugin.  The
checked state names no plugin and no broker account twice.  The gateway and the edge host read
different parts of it: `State.forBridge` and `State.forHost`.
-/

namespace GateControl
namespace Edge
namespace Protocol

open Library

/-! ## The checked state -/

inductive Access
  | read
  | write
  | readwrite
  deriving DecidableEq

structure AclEntry where
  access : Access
  topic : String
  deriving DecidableEq

structure Account where
  user : String
  hash : String
  acl : List AclEntry
  deriving DecidableEq

structure MqttState where
  enabled : Bool
  tls : Bool
  accounts : List Account
  pluginTopics : OrderedMap String (List String)
  nodup : (accounts.map Account.user).Nodup

structure PluginEntry where
  id : String
  version : String
  sha256 : String
  caps : Caps
  capsError : Option String
  memoryMb : Option Nat
  enabled : Bool
  deriving DecidableEq

structure State where
  edgeEnabled : Bool
  allowUnsigned : Bool
  plugins : List PluginEntry
  mqtt : MqttState
  nodup : (plugins.map PluginEntry.id).Nodup

namespace State

/-- What the bridge reads of a state. -/
def forBridge (st : State) : Bridge.Desired where
  edgeEnabled := st.edgeEnabled
  plugins := st.plugins.map fun p => ⟨p.id, p.caps, p.capsError, p.enabled⟩
  mqtt := ⟨st.mqtt.enabled, st.mqtt.pluginTopics⟩

/-- What the edge host reads of a state. -/
def forHost (st : State) : Desired where
  edgeEnabled := st.edgeEnabled
  allowUnsigned := st.allowUnsigned
  plugins := st.plugins.map fun p => ⟨p.id, p.version, p.sha256, p.memoryMb, p.capsError, p.enabled⟩
  nodup := by
    rw [List.map_map]
    exact st.nodup

end State

/-! ## Texts -/

def inClass (extra : String) (c : Char) : Bool := c.isAlphanum || c ∈ extra.toList

/-- `USER_RE`. -/
def isUser (s : Text) : Bool := s ≠ [] && s.length ≤ 64 && s.all (inClass "_.@-")

/-- `[A-Za-z0-9+/]+={0,2}`. -/
def isBase64 (s : Text) : Bool :=
  let body := s.takeWhile (inClass "+/")
  let padding := s.drop body.length
  body ≠ [] && padding.length ≤ 2 && padding.all (· = '=')

/-- `HASH_RE`: the forms `$7$<iterations>$<salt>$<hash>` and `$6$<salt>$<hash>`. -/
def isHash (s : Text) : Bool :=
  match s.splitOn '$' with
  | [[], ['7'], iterations, salt, hash] =>
      iterations ≠ [] && iterations.length ≤ 7 && iterations.all Char.isDigit && isBase64 salt &&
        isBase64 hash
  | [[], ['6'], salt, hash] => isBase64 salt && isBase64 hash
  | _ => false

/-- `VERSION_RE`: three numbers, and a suffix behind a hyphen or a plus. -/
def isVersion (s : Text) : Bool :=
  let numbers := s.takeWhile fun c => c.isDigit || c = '.'
  let parts := numbers.splitOn '.'
  parts.length = 3 && parts.all (· ≠ []) &&
    match s.drop numbers.length with
    | [] => true
    | c :: suffix =>
        (c = '-' || c = '+') && suffix ≠ [] && suffix.length ≤ 40 && suffix.all (inClass ".-")

/-- `/^[a-f0-9]{64}$/i`. -/
def isSha256 (s : Text) : Bool :=
  s.length = 64 && s.all fun c => c.isDigit || ('a' ≤ asciiLower c && asciiLower c ≤ 'f')

/-! ## The broker -/

def accessOf (s : Text) : Option Access :=
  if s = "read".toList then some .read
  else if s = "write".toList then some .write
  else if s = "readwrite".toList then some .readwrite
  else none

def reservedUsers : List String := ["gc-edge"]

def parseAcl (user : String) (r : Json) : Except String AclEntry :=
  match (r.get? "access").bind Json.str?, (r.get? "topic").bind Json.str? with
  | some access, some topic =>
      match accessOf access with
      | some a =>
          if !Topics.validFilter (String.ofList topic) || topic.head? = some '$' then
            .error ("state.mqtt.accounts: acl entry of " ++ user)
          else .ok ⟨a, String.ofList topic⟩
      | none => .error ("state.mqtt.accounts: acl entry of " ++ user)
  | _, _ => .error ("state.mqtt.accounts: acl entry of " ++ user)

abbrev Accounts := { accounts : List Account // (accounts.map Account.user).Nodup }

theorem nodup_snoc {α : Type} (f : α → String) {as : List α} (h : (as.map f).Nodup) {a : α}
    (ha : f a ∉ as.map f) : ((as ++ [a]).map f).Nodup := by
  rw [List.map_append, List.nodup_append]
  refine ⟨h, List.nodup_singleton _, fun x hx y hy hxy => ?_⟩
  rw [List.map_singleton, List.mem_singleton] at hy
  exact ha (hy ▸ hxy ▸ hx)

def addAccount (accounts : Accounts) (a : Json) : Except String Accounts :=
  match (a.get? "user").bind Json.str? with
  | none => .error "state.mqtt.accounts: invalid user"
  | some name =>
      let user := String.ofList name
      if !isUser name then .error "state.mqtt.accounts: invalid user"
      else if user ∈ reservedUsers then
        .error ("state.mqtt.accounts: user " ++ user ++ " is reserved")
      else if h : user ∈ accounts.1.map Account.user then
        .error ("state.mqtt.accounts: duplicate user " ++ user)
      else
        match (a.get? "hash").bind Json.str? with
        | none => .error ("state.mqtt.accounts: invalid hash for " ++ user)
        | some hash =>
            if jsLength hash > 512 || !isHash hash then
              .error ("state.mqtt.accounts: invalid hash for " ++ user)
            else
              match (a.get? "acl").getD (.arr []) with
              | .arr rules =>
                  if rules.length > 64 then .error ("state.mqtt.accounts: acl of " ++ user)
                  else
                    (rules.mapM (parseAcl user)).map fun acl =>
                      ⟨accounts.1 ++ [⟨user, String.ofList hash, acl⟩],
                        nodup_snoc Account.user accounts.2 h⟩
              | _ => .error ("state.mqtt.accounts: acl of " ++ user)

def parseAccounts (list : Option Json) : Except String Accounts :=
  match list.getD (.arr []) with
  | .arr accounts =>
      if accounts.length > 256 then .error "state.mqtt.accounts: list of at most 256 accounts"
      else accounts.foldlM addAccount ⟨[], List.nodup_nil⟩
  | _ => .error "state.mqtt.accounts: list of at most 256 accounts"

def pluginFilter? (t : Json) : Option String :=
  (t.str?.map String.ofList).filter Topics.validPluginFilter

/-- The topics of one plugin, without repetitions. -/
def addTopics (topics : OrderedMap String (List String)) (f : Text × Json) :
    Except String (OrderedMap String (List String)) :=
  if !Bridge.validId f.1 then .error "state.mqtt.pluginTopics: invalid plugin id"
  else
    match f.2 with
    | .arr items =>
        match if items.length > 16 then none else items.mapM pluginFilter? with
        | some filters => .ok (topics.set (String.ofList f.1) filters.eraseDups)
        | none => .error ("state.mqtt.pluginTopics." ++ String.ofList f.1)
    | _ => .error ("state.mqtt.pluginTopics." ++ String.ofList f.1)

def parsePluginTopics (topics : Option Json) : Except String (OrderedMap String (List String)) :=
  match topics with
  | none => .ok .empty
  | some (.obj fields) => fields.foldlM addTopics .empty
  | some _ => .error "state.mqtt.pluginTopics must be an object"

def parseMqtt (m : Option Json) : Except String MqttState :=
  match m with
  -- without a broker there is nothing to check
  | none => .ok ⟨false, false, [], .empty, List.nodup_nil⟩
  | some .null => .ok ⟨false, false, [], .empty, List.nodup_nil⟩
  | some (.obj fields) => do
      let m := Json.obj fields
      let accounts ← parseAccounts (m.get? "accounts")
      let topics ← parsePluginTopics (m.get? "pluginTopics")
      return ⟨(m.field "enabled").isTrue, (m.field "tls").isTrue, accounts.1, topics, accounts.2⟩
  | some _ => .error "state.mqtt must be an object"

/-! ## The state -/

section State

-- `print` is the text that JavaScript makes of a value in a message
variable (print : Json → String)

def maxPlugins : Nat := 32

def memoryMbMin : Nat := 16

def memoryMbMax : Nat := 256

def parseMemoryMb (id : String) (memoryMb : Option Json) : Except String (Option Nat) :=
  match memoryMb with
  | none => .ok none
  | some .null => .ok none
  | some m =>
      match m.int? with
      | some n =>
          if n < memoryMbMin || n > memoryMbMax then
            .error ("state.plugins." ++ id ++ ": memoryMb 16–256")
          else .ok (some n.toNat)
      | none => .error ("state.plugins." ++ id ++ ": memoryMb 16–256")

abbrev Plugins := { plugins : List PluginEntry // (plugins.map PluginEntry.id).Nodup }

/-- The text of a field, if it passes a check. -/
def textField (p : Json) (key : String) (check : Text → Bool) : Option Text :=
  ((p.get? key).bind Json.str?).filter check

def addPlugin (plugins : Plugins) (p : Json) : Except String Plugins :=
  match textField p "id" Bridge.validId with
  | none => .error "state.plugins: invalid id"
  | some name =>
      let id := String.ofList name
      if h : id ∈ plugins.1.map PluginEntry.id then .error ("state.plugins: duplicate " ++ id)
      else
        match textField p "version" fun v => jsLength v ≤ 64 && isVersion v with
        | none => .error ("state.plugins." ++ id ++ ": invalid version")
        | some version =>
            match textField p "sha256" isSha256 with
            | none => .error ("state.plugins." ++ id ++ ": invalid sha256")
            | some sha256 => do
                let memoryMb ← parseMemoryMb id (p.get? "memoryMb")
                -- wrong capabilities do not refuse the state
                let checked := validateCaps print ("caps of " ++ id) (p.get? "caps")
                let caps := match checked with
                  | .ok caps => caps
                  | .error _ => {}
                let capsError := match checked with
                  | .ok _ => none
                  | .error e => some e.message
                let entry : PluginEntry :=
                  ⟨id, String.ofList version, String.ofList (sha256.map asciiLower), caps,
                    capsError, memoryMb, !(p.field "enabled").isFalse⟩
                return ⟨plugins.1 ++ [entry], nodup_snoc PluginEntry.id plugins.2 h⟩

def parseState (msg : Json) : Except String State :=
  if !(msg.field "t").isText "state" then .error "not a state message"
  else
    match (msg.get? "plugins").getD (.arr []) with
    | .arr list =>
        if list.length > maxPlugins then .error "state.plugins: list of at most 32"
        else do
          let plugins ← list.foldlM (addPlugin print) ⟨[], List.nodup_nil⟩
          let mqtt ← parseMqtt (msg.get? "mqtt")
          return ⟨(msg.field "edgeEnabled").isTrue, (msg.field "allowUnsigned").isTrue, plugins.1,
            mqtt, plugins.2⟩
    | _ => .error "state.plugins: list of at most 32"

theorem isState_of_parseState {msg : Json} {st : State} (h : parseState print msg = .ok st) :
    (msg.field "t").isText "state" = true := by
  by_contra hnot
  rw [Bool.not_eq_true] at hnot
  rw [parseState, hnot] at h
  cases h

end State

end Protocol
end Edge
end GateControl
