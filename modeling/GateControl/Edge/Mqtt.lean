import Mathlib.Data.Nat.Basic
import GateControl.Edge.Topics
import GateControl.Library.OrderedMap
import GateControl.Library.PlainObject
import GateControl.Library.Transition

/-!
# Mqtt — the MQTT manager and the confinement of plugins to their topics

`MqttManager` keeps the subscriptions of the edge plugins, hands broker messages to them and
publishes for them.  A plugin gets a topic only if it is approved twice: by one of its own filters
(`caps.mqtt.topics`) and by a filter that the configuration in force grants it (`pluginTopics`).

The manager is embedded with the operations that touch subscriptions: `apply`, `refresh`,
`pluginCall`, `removeSub`, `dropPlugin`, `onMessage`.  Writing the broker's files and the mDNS
announcement have no influence on them and are left out, as are the account statistics.

`pluginTopics` is a plain object.  For a plugin that is named like a member that every object
inherits, such as `constructor`, the look-up finds that member where no topics are granted, and the
check ends with an exception.
-/

namespace GateControl
namespace Edge
namespace Mqtt

open Library
open Topics

/-! ## State -/

def mqttSubscriptionsPerPlugin : Nat := 64

def mqttPayloadBytes : Nat := 256 * 1024

/-- `state.mqtt` as far as subscriptions depend on it. -/
structure Config where
  enabled : Bool
  pluginTopics : OrderedMap String (List String)
  deriving DecidableEq

/-- The capabilities of a plugin that concern MQTT: `caps.mqtt.topics`, if present. -/
abbrev Caps := Option (List String)

/-- An entry of `subs`; `caps` are the capabilities at the time of the call. -/
structure Sub where
  plugin : String
  id : Nat
  filter : String
  caps : Caps
  deriving DecidableEq

structure MqttManager where
  cfg : Config
  /-- `files.available()`: the broker's volume is there. -/
  available : Bool
  /-- `client && client.connected`. -/
  connected : Bool
  subs : OrderedMap String Sub
  filterRefs : OrderedMap String Nat
  nextId : Nat
  deriving DecidableEq

def MqttManager.new (available : Bool) : MqttManager where
  cfg := { enabled := false, pluginTopics := .empty }
  available := available
  connected := false
  subs := .empty
  filterRefs := .empty
  nextId := 0

structure MqttError where
  code : String
  message : String
  deriving DecidableEq

/-! ## Operations -/

def subKey (plugin : String) (id : String) : String := plugin ++ "#" ++ id

/-- `granted.some` of what is no array; `errorOf` gives it the code. -/
def noArray : MqttError where
  code := "edge_error"
  message := "granted.some is not a function"

/-- The plugin's own filters that are also granted to it by the configuration. -/
def allowedFor (m : MqttManager) (plugin : String) (caps : Caps) : Except MqttError (List String) :=
  let own := caps.getD []
  match m.cfg.pluginTopics.get plugin with
  -- a filter of the plugin counts as a whole or not at all
  | some granted => .ok (own.filter fun f => granted.any fun g => covers g f)
  -- an inherited member is no list, which shows with the first filter of the plugin
  | none => if plugin.toList ∈ inheritedNames ∧ own ≠ [] then .error noArray else .ok []

def removeSub (m : MqttManager) (key : String) : MqttManager :=
  match m.subs.get key with
  | none => m
  | some s =>
      -- the broker is left when the last subscription of a filter ends
      let n := (m.filterRefs.get s.filter).getD 1 - 1
      { m with
        subs := m.subs.delete key
        filterRefs := if n = 0 then m.filterRefs.delete s.filter else m.filterRefs.set s.filter n }

/-- The loop over the subscriptions that ends those which are not approved any more. -/
def endRevoked (m : MqttManager) : List (String × Sub) → MqttManager
  | [] => m
  | e :: es =>
      match allowedFor m e.2.plugin e.2.caps with
      -- the exception leaves the loop, and what comes after this subscription stays
      | .error _ => m
      | .ok allowed =>
          endRevoked (if allowed.any fun a => covers a e.2.filter then m else removeSub m e.1) es

/-- End the subscriptions that are not approved any more; whoever calls this logs an exception. -/
def refresh (m : MqttManager) : MqttManager :=
  -- the broker is off, and its subscriptions stay for when it is on again
  if !m.cfg.enabled || !m.available then m else endRevoked m m.subs.entries

def apply (m : MqttManager) (cfg : Config) : MqttManager :=
  let m := { m with cfg := cfg }
  if !cfg.enabled || !m.available then { m with connected := false } else refresh m

def dropPlugin (m : MqttManager) (plugin : String) : MqttManager :=
  m.subs.entries.foldl (fun m e => if e.2.plugin = plugin then removeSub m e.1 else m) m

/-- `args.topic` as the plugin sent it: a text, or another value with its printed form. -/
inductive TopicArg
  | str (s : String)
  | other (printed : String)
  deriving DecidableEq

/-- `String(f)`. -/
def TopicArg.print : TopicArg → String
  | .str s => s
  | .other p => p

def notApproved (t : TopicArg) : MqttError where
  code := "denied"
  message := "topic " ++ String.ofList (t.print.toList.take 64) ++ " not approved"

/-- A `gc.mqtt.*` call.  Where the call waits for the broker, `answer` is the error the client
rejects with, if it does. -/
inductive Call
  | subscribe (topic : TopicArg) (answer : Option MqttError)
  | unsubscribe (id : String)
  | publish (topic : TopicArg) (payload : List UInt8) (answer : Option MqttError)
  | unknown
  deriving DecidableEq

inductive Reply
  | subscribed (id : Nat)
  | done
  deriving DecidableEq

/-- The effects of a call: the new state, the subscription it entered, the topic it handed to the
broker, and what the plugin gets to see. -/
structure Outcome where
  manager : MqttManager
  entered : Option Nat := none
  sent : Option String := none
  result : Except MqttError Reply

def refuse (m : MqttManager) (e : MqttError) : Outcome where
  manager := m
  result := .error e

def answered (answer : Option MqttError) (r : Reply) : Except MqttError Reply :=
  match answer with
  | some e => .error e
  | none => .ok r

/-- The subscribe case: the subscription is entered before the broker is asked. -/
def subscribe (m : MqttManager) (plugin : String) (caps : Caps) (allowed : List String)
    (topic : TopicArg) (answer : Option MqttError) : Outcome :=
  match topic with
  | .other _ => refuse m (notApproved topic)
  | .str f =>
      if !validFilter f || !(allowed.any fun a => covers a f) then
        refuse m (notApproved topic)
      else if mqttSubscriptionsPerPlugin ≤ (m.subs.values.filter fun s => s.plugin = plugin).length
      then refuse m { code := "busy", message := "too many subscriptions" }
      else
        let id := m.nextId + 1
        let n := (m.filterRefs.get f).getD 0 + 1
        { manager := { m with
            nextId := id
            subs := m.subs.set (subKey plugin (toString id))
              { plugin := plugin, id := id, filter := f, caps := caps }
            filterRefs := m.filterRefs.set f n }
          entered := some id
          result :=
            -- later subscriptions of a filter are not sent to the broker again
            if n = 1 && m.connected then answered answer (.subscribed id)
            else .ok (.subscribed id) }

def publish (m : MqttManager) (allowed : List String) (topic : TopicArg) (payload : List UInt8)
    (answer : Option MqttError) : Outcome :=
  match topic with
  | .other _ => refuse m (notApproved topic)
  | .str t =>
      if !validTopic t || !(allowed.any fun a => matchesTopic a t) then
        refuse m (notApproved topic)
      else if mqttPayloadBytes < payload.length then
        refuse m { code := "too_large", message := "payload larger than 256 KB" }
      else if !m.connected then
        refuse m { code := "not_available", message := "local MQTT broker not reachable" }
      else
        { manager := m, sent := some t, result := answered answer .done }

def pluginCall (m : MqttManager) (plugin : String) (caps : Caps) (call : Call) : Outcome :=
  if !m.cfg.enabled then
    refuse m { code := "not_enabled", message := "MQTT is not enabled on this gateway" }
  else
    match allowedFor m plugin caps with
    | .error e => refuse m e
    | .ok allowed =>
        match call with
        | .subscribe topic answer => subscribe m plugin caps allowed topic answer
        | .unsubscribe id =>
            { manager := removeSub m (subKey plugin id), result := .ok .done }
        | .publish topic payload answer => publish m allowed topic payload answer
        | .unknown => refuse m { code := "unknown_api", message := "unknown mqtt api" }

/-- A message handed to a plugin: `toChild({ t: 'mqtt', id, topic, … })`. -/
structure Delivery where
  plugin : String
  id : Nat
  topic : String
  deriving DecidableEq

/-- Hand a broker message to the subscriptions; the two `$SYS` topics are the manager's own. -/
def onMessage (m : MqttManager) (topic : String) : List Delivery :=
  if topic = "$SYS/broker/clients/connected" ∨ topic = "$SYS/broker/log/N" then []
  else
    (m.subs.values.filter fun s => matchesTopic s.filter topic).map fun s =>
      { plugin := s.plugin, id := s.id, topic := topic }

/-! ## The manager as a system -/

inductive Action
  | apply (cfg : Config)
  | refresh
  | volume (available : Bool)
  | connection (up : Bool)
  | call (plugin : String) (caps : Caps) (call : Call)
  | dropPlugin (plugin : String)

def step (m : MqttManager) : Action → Option MqttManager
  | .apply cfg => some (Mqtt.apply m cfg)
  | .refresh => some (Mqtt.refresh m)
  | .volume available => some { m with available := available }
  | .connection up => some { m with connected := up }
  | .call plugin caps c => some (pluginCall m plugin caps c).manager
  | .dropPlugin plugin => some (Mqtt.dropPlugin m plugin)

/-! ## What a plugin is allowed -/

/-- The filters granted to a plugin by the configuration in force. -/
def granted (m : MqttManager) (plugin : String) : List String :=
  (m.cfg.pluginTopics.get plugin).getD []

/-- A filter of the plugin's own that is also granted to it. -/
structure Allowed (m : MqttManager) (plugin : String) (caps : Caps) (f : String) : Prop where
  own : f ∈ caps.getD []
  granted : ∃ g ∈ granted m plugin, covers g f = true

theorem allowed_of_mem {m : MqttManager} {plugin : String} {caps : Caps} {allowed : List String}
    (h : allowedFor m plugin caps = .ok allowed) {f : String} (hf : f ∈ allowed) :
    Allowed m plugin caps f := by
  simp only [allowedFor] at h
  split at h
  · rename_i topics htopics
    cases h
    have hf' := List.mem_filter.1 hf
    rcases List.any_eq_true.1 hf'.2 with ⟨g, hg, hcov⟩
    exact ⟨hf'.1, g, by simpa [granted, htopics] using hg, hcov⟩
  · split at h
    · cases h
    · cases h
      cases hf

/-- Nothing but the configuration is looked at. -/
theorem allowedFor_congr {m m' : MqttManager} (h : m.cfg = m'.cfg) (plugin : String) (caps : Caps) :
    allowedFor m plugin caps = allowedFor m' plugin caps := by
  simp only [allowedFor, h]

/-- Whether a subscription stays: a filter of the plugin's own capabilities at the call that is still
granted covers it. -/
def stillAllowed (m : MqttManager) (s : Sub) : Bool :=
  match allowedFor m s.plugin s.caps with
  | .ok allowed => allowed.any fun a => covers a s.filter
  | .error _ => false

theorem stillAllowed_congr {m m' : MqttManager} (h : m.cfg = m'.cfg) (s : Sub) :
    stillAllowed m s = stillAllowed m' s := by
  simp only [stillAllowed, allowedFor_congr h]

/-- The subscriptions that the loop gets to: those before the first whose check ends with an
exception. -/
def checked (m : MqttManager) (es : List (String × Sub)) : List (String × Sub) :=
  es.takeWhile fun e => (allowedFor m e.2.plugin e.2.caps).isOk

theorem checked_congr {m m' : MqttManager} (h : m.cfg = m'.cfg) (es : List (String × Sub)) :
    checked m es = checked m' es := by
  simp only [checked, allowedFor_congr h]

/-! ## What the operations do to subscriptions -/

variable {m m' : MqttManager} {plugin : String} {caps : Caps}

/-- `m'` has no other subscriptions than `m`, under the same counter. -/
structure Shrinks (m m' : MqttManager) : Prop where
  nextId : m'.nextId = m.nextId
  subs : ∀ s ∈ m'.subs.values, s ∈ m.subs.values

namespace Shrinks

variable {m m' m'' : MqttManager}

theorem refl (m : MqttManager) : Shrinks m m := ⟨rfl, fun _ h => h⟩

theorem trans (h : Shrinks m m') (h' : Shrinks m' m'') : Shrinks m m'' :=
  ⟨h'.nextId.trans h.nextId, fun s hs => h.subs s (h'.subs s hs)⟩

theorem foldl {α : Type*} {f : MqttManager → α → MqttManager} (hf : ∀ m a, Shrinks m (f m a)) :
    ∀ (as : List α) (m : MqttManager), Shrinks m (as.foldl f m) := by
  intro as
  induction as with
  | nil =>
      intro m
      exact refl m
  | cons a as ih =>
      intro m
      exact (hf m a).trans (ih (f m a))

end Shrinks

theorem removeSub_shrinks (m : MqttManager) (key : String) : Shrinks m (removeSub m key) := by
  unfold removeSub
  split
  · exact Shrinks.refl m
  · exact ⟨rfl, fun s hs => OrderedMap.mem_values_delete hs⟩

theorem removeSub_cfg (m : MqttManager) (key : String) :
    (removeSub m key).cfg = m.cfg ∧ (removeSub m key).available = m.available ∧
      (removeSub m key).connected = m.connected := by
  unfold removeSub
  split
  · exact ⟨rfl, rfl, rfl⟩
  · exact ⟨rfl, rfl, rfl⟩

/-- The loop ends what fails the check, as far as it gets. -/
theorem endRevoked_eq (m : MqttManager) (es : List (String × Sub)) :
    endRevoked m es = (checked m es).foldl
      (fun m e => if stillAllowed m e.2 then m else removeSub m e.1) m := by
  induction es generalizing m with
  | nil =>
      rfl
  | cons e es ih =>
      cases hallowed : allowedFor m e.2.plugin e.2.caps with
      | error err =>
          simp [endRevoked, checked, hallowed, Except.isOk, Except.toBool]
      | ok allowed =>
          have hchecked : checked m (e :: es) = e :: checked m es := by
            simp [checked, hallowed, Except.isOk, Except.toBool]
          have hstill : stillAllowed m e.2 = allowed.any fun a => covers a e.2.filter := by
            simp only [stillAllowed, hallowed]
          rw [hchecked, List.foldl_cons, hstill]
          simp only [endRevoked, hallowed]
          -- the next round has the same configuration
          rw [ih]
          split
          · rfl
          · rw [checked_congr (removeSub_cfg m e.1).1]

theorem refresh_shrinks (m : MqttManager) : Shrinks m (refresh m) := by
  unfold refresh
  split
  · exact Shrinks.refl m
  · rw [endRevoked_eq]
    refine Shrinks.foldl (fun m e => ?_) _ m
    split
    · exact Shrinks.refl m
    · exact removeSub_shrinks m e.1

theorem apply_shrinks (m : MqttManager) (cfg : Config) : Shrinks m (apply m cfg) := by
  simp only [apply]
  split
  · exact ⟨rfl, fun _ hs => hs⟩
  · have hcfg : Shrinks m { m with cfg := cfg } := ⟨rfl, fun _ hs => hs⟩
    exact hcfg.trans (refresh_shrinks _)

theorem dropPlugin_shrinks (m : MqttManager) (plugin : String) :
    Shrinks m (dropPlugin m plugin) := by
  refine Shrinks.foldl (fun m e => ?_) _ m
  split
  · exact removeSub_shrinks m e.1
  · exact Shrinks.refl m

/-! ## Which subscriptions end -/

theorem removeSub_subs (m : MqttManager) (key : String) :
    (removeSub m key).subs = m.subs.delete key := by
  unfold removeSub
  split
  · rename_i hnone
    refine (OrderedMap.delete_of_not_mem fun hkey => ?_).symm
    rcases (OrderedMap.mem_keys_iff _).1 hkey with ⟨s, hs⟩
    rw [hnone] at hs
    cases hs
  · rfl

theorem get_removeSub (m : MqttManager) (key k : String) :
    (removeSub m key).subs.get k = if k = key then none else m.subs.get k := by
  rw [removeSub_subs, OrderedMap.get_delete]

/-- End the listed subscriptions that fail a test. -/
theorem foldl_removeSub (q : MqttManager → Sub → Bool)
    (hq : ∀ m m' s, m.cfg = m'.cfg → q m s = q m' s) (es : List (String × Sub))
    (m : MqttManager) :
    let m' := es.foldl (fun m e => if q m e.2 then m else removeSub m e.1) m
    m'.cfg = m.cfg ∧ m'.available = m.available ∧ m'.connected = m.connected ∧
      m'.subs = m.subs.filter fun k _ => es.all fun e => e.1 ≠ k || q m e.2 := by
  induction es generalizing m with
  | nil =>
      refine ⟨rfl, rfl, rfl, OrderedMap.eq_of_entries ?_⟩
      simp [OrderedMap.filter]
  | cons e es ih =>
      rcases removeSub_cfg m e.1 with ⟨hcfg, havail, hconn⟩
      simp only [List.foldl_cons]
      split
      · rename_i hkeep
        -- it passes the test and stays
        rcases ih m with ⟨h₁, h₂, h₃, h₄⟩
        refine ⟨h₁, h₂, h₃, ?_⟩
        rw [h₄]
        simp [hkeep]
      · rename_i hend
        -- it fails and is taken out, which changes no test
        rcases ih (removeSub m e.1) with ⟨h₁, h₂, h₃, h₄⟩
        refine ⟨h₁.trans hcfg, h₂.trans havail, h₃.trans hconn, ?_⟩
        rw [h₄, removeSub_subs]
        refine OrderedMap.eq_of_entries ?_
        simp only [OrderedMap.filter, OrderedMap.delete, List.filter_filter, hq _ _ _ hcfg]
        refine List.filter_congr fun p _ => ?_
        simp [hend, Bool.and_comm, eq_comm (a := p.1)]

/-- Of the listed subscriptions, those that fail the test end; all others stay. -/
theorem endAmong (q : MqttManager → Sub → Bool)
    (hq : ∀ m m' s, m.cfg = m'.cfg → q m s = q m' s) (m : MqttManager) {es : List (String × Sub)}
    (hes : ∀ e ∈ es, e ∈ m.subs.entries) :
    let m' := es.foldl (fun m e => if q m e.2 then m else removeSub m e.1) m
    m'.cfg = m.cfg ∧ m'.available = m.available ∧ m'.connected = m.connected ∧
      m'.subs = m.subs.filter fun k s => (k, s) ∉ es || q m s := by
  rcases foldl_removeSub q hq es m with ⟨h₁, h₂, h₃, h₄⟩
  refine ⟨h₁, h₂, h₃, h₄.trans (OrderedMap.eq_of_entries (List.filter_congr fun p hp => ?_))⟩
  rw [Bool.eq_iff_iff]
  simp only [List.all_eq_true, Bool.or_eq_true, decide_eq_true_eq]
  constructor
  · intro hall
    by_cases hmem : (p.1, p.2) ∈ es
    · exact (hall p hmem).imp (fun hne => absurd rfl hne) id
    · exact Or.inl hmem
  · intro h e he
    by_cases hk : e.1 = p.1
    · -- a key stands for one subscription
      have hsame : m.subs.get e.1 = some p.2 := hk ▸ m.subs.get_eq_some_iff.2 hp
      rw [m.subs.get_eq_some_iff.2 (hes e he)] at hsame
      have hep : e = (p.1, p.2) := Prod.ext hk (Option.some.inj hsame)
      rw [hep]
      exact Or.inr (h.resolve_left fun hnot => hnot (hep ▸ he))
    · exact Or.inl hk

theorem dropPlugin_eq (m : MqttManager) (plugin : String) :
    dropPlugin m plugin = m.subs.entries.foldl
      (fun m e => if decide (e.2.plugin ≠ plugin) then m else removeSub m e.1) m := by
  unfold dropPlugin
  congr 1
  funext m e
  by_cases he : e.2.plugin = plugin
  · simp [he]
  · simp [he]

/-- The subscriptions of one plugin end, and no others. -/
theorem dropPlugin_spec (m : MqttManager) (plugin : String) :
    (dropPlugin m plugin).cfg = m.cfg ∧ (dropPlugin m plugin).available = m.available ∧
      (dropPlugin m plugin).connected = m.connected ∧
      (dropPlugin m plugin).subs = m.subs.filter fun _ s => s.plugin ≠ plugin := by
  rcases endAmong (fun _ s => decide (s.plugin ≠ plugin)) (fun _ _ _ _ => rfl) m
    (fun _ he => he) with ⟨h₁, h₂, h₃, h₄⟩
  rw [dropPlugin_eq]
  refine ⟨h₁, h₂, h₃, h₄.trans (OrderedMap.eq_of_entries (List.filter_congr fun p hp => ?_))⟩
  simp [hp]

theorem mem_dropPlugin {s : Sub} :
    s ∈ (dropPlugin m plugin).subs.values ↔ s ∈ m.subs.values ∧ s.plugin ≠ plugin := by
  rw [(dropPlugin_spec m plugin).2.2.2, OrderedMap.mem_values_filter, decide_eq_true_eq]

/-- What the loop gets to and fails the check ends. -/
theorem refresh_spec (hon : m.cfg.enabled = true) (hv : m.available = true) :
    (refresh m).cfg = m.cfg ∧ (refresh m).available = m.available ∧
      (refresh m).connected = m.connected ∧
      (refresh m).subs =
        m.subs.filter fun k s => (k, s) ∉ checked m m.subs.entries || stillAllowed m s := by
  have hall : ∀ e ∈ checked m m.subs.entries, e ∈ m.subs.entries := fun _ he =>
    (List.takeWhile_sublist _).subset he
  have h := endAmong stillAllowed (fun _ _ s hcfg => stillAllowed_congr hcfg s) m hall
  unfold refresh
  rw [if_neg (by simp [hon, hv]), endRevoked_eq]
  exact h

/-! ## What a call does -/

/-- A call is refused and changes nothing, enters one subscription whose filter an allowed one covers,
removes an entry of its plugin, or hands a topic to the broker that an allowed filter matches. -/
inductive Handled (m : MqttManager) (plugin : String) (caps : Caps) : Call → Outcome → Prop
  | refused (call : Call) (e : MqttError) : Handled m plugin caps call (refuse m e)
  | entered {f a : String} {answer : Option MqttError} {result : Except MqttError Reply}
      (ha : Allowed m plugin caps a) (hcov : covers a f = true)
      (hresult : answer = none → ∃ r, result = .ok r) :
      Handled m plugin caps (.subscribe (.str f) answer)
        { manager := { m with
            nextId := m.nextId + 1
            subs := m.subs.set (subKey plugin (toString (m.nextId + 1)))
              { plugin := plugin, id := m.nextId + 1, filter := f, caps := caps }
            filterRefs := m.filterRefs.set f ((m.filterRefs.get f).getD 0 + 1) }
          entered := some (m.nextId + 1)
          result := result }
  | removed (id : String) :
      Handled m plugin caps (.unsubscribe id)
        { manager := removeSub m (subKey plugin id), result := .ok .done }
  | sent {t a : String} {payload : List UInt8} {answer : Option MqttError}
      {result : Except MqttError Reply} (ha : Allowed m plugin caps a)
      (hm : matchesTopic a t = true) :
      Handled m plugin caps (.publish (.str t) payload answer)
        { manager := m, sent := some t, result := result }

theorem pluginCall_handled (m : MqttManager) (plugin : String) (caps : Caps) (call : Call) :
    Handled m plugin caps call (pluginCall m plugin caps call) := by
  -- a test that is passed names the filter
  have hpass : ∀ {valid : Bool} {allowed : List String} {q : String → Bool},
      ¬ (!valid || !(allowed.any q)) = true → ∃ a ∈ allowed, q a = true := by
    intro valid allowed q h
    simp only [Bool.or_eq_true, Bool.not_eq_true', not_or, Bool.not_eq_false,
      List.any_eq_true] at h
    exact h.2
  unfold pluginCall
  split
  · exact .refused call _
  · split
    · exact .refused call _
    · rename_i allowed hallowed
      cases call with
      | subscribe topic answer =>
          cases topic with
          | other printed =>
              exact .refused _ _
          | str f =>
              simp only [subscribe]
              split
              · exact .refused _ _
              · rename_i hok
                rcases hpass hok with ⟨a, ha, hcov⟩
                split
                · exact .refused _ _
                · refine .entered (allowed_of_mem hallowed ha) hcov ?_
                  rintro rfl
                  exact ⟨.subscribed (m.nextId + 1), ite_self _⟩
      | unsubscribe id =>
          exact .removed id
      | publish topic payload answer =>
          cases topic with
          | other printed =>
              exact .refused _ _
          | str t =>
              simp only [publish]
              split
              · exact .refused _ _
              · rename_i hok
                rcases hpass hok with ⟨a, ha, hm⟩
                split
                · exact .refused _ _
                · split
                  · exact .refused _ _
                  · exact .sent (allowed_of_mem hallowed ha) hm
      | unknown =>
          exact .refused _ _

theorem pluginCall_cfg (m : MqttManager) (plugin : String) (caps : Caps) (call : Call) :
    (pluginCall m plugin caps call).manager.cfg = m.cfg := by
  have h := pluginCall_handled m plugin caps call
  generalize pluginCall m plugin caps call = o at h
  cases h with
  | removed id =>
      exact (removeSub_cfg m _).1
  | _ => rfl

/-- A call either enters nothing new, or enters one subscription under a fresh id whose filter is
covered by a filter allowed to the plugin at that moment. -/
theorem pluginCall_cases (m : MqttManager) (plugin : String) (caps : Caps) (call : Call) :
    let o := pluginCall m plugin caps call
    (o.entered = none ∧ Shrinks m o.manager) ∨
      ∃ f, o.entered = some (m.nextId + 1) ∧ o.manager.nextId = m.nextId + 1 ∧
        (∃ a, Allowed m plugin caps a ∧ covers a f = true) ∧
        ∀ s ∈ o.manager.subs.values,
          s = { plugin := plugin, id := m.nextId + 1, filter := f, caps := caps } ∨
            s ∈ m.subs.values := by
  have h := pluginCall_handled m plugin caps call
  generalize pluginCall m plugin caps call = o at h
  cases h with
  | @entered f a _ _ ha hcov _ =>
      exact Or.inr ⟨f, rfl, rfl, ⟨a, ha, hcov⟩, fun s hs => OrderedMap.mem_values_set hs⟩
  | removed id =>
      -- a subscription that ends is no new one
      exact Or.inl ⟨rfl, removeSub_shrinks m _⟩
  | _ => exact Or.inl ⟨rfl, Shrinks.refl m⟩

/-! ## A subscription keeps its filter over whole runs -/

/-- A step enters no subscription, or one under a fresh id. -/
theorem step_cases {a : Action} (hstep : step m a = some m') :
    Shrinks m m' ∨ ∃ s : Sub, s.id = m.nextId + 1 ∧ m'.nextId = m.nextId + 1 ∧
      ∀ t ∈ m'.subs.values, t = s ∨ t ∈ m.subs.values := by
  cases a with
  | apply cfg =>
      cases hstep
      exact Or.inl (apply_shrinks m cfg)
  | refresh =>
      cases hstep
      exact Or.inl (refresh_shrinks m)
  | volume available =>
      cases hstep
      exact Or.inl ⟨rfl, fun _ hs => hs⟩
  | connection up =>
      cases hstep
      exact Or.inl ⟨rfl, fun _ hs => hs⟩
  | call plugin caps c =>
      cases hstep
      exact (pluginCall_cases m plugin caps c).imp And.right
        fun ⟨_, _, hnext, _, hsubs⟩ => ⟨_, rfl, hnext, hsubs⟩
  | dropPlugin plugin =>
      cases hstep
      exact Or.inl (dropPlugin_shrinks m plugin)

/-- Every subscription with the id `i` has the filter `f`, and `i` has been handed out. -/
structure Tracked (i : Nat) (f : String) (m : MqttManager) : Prop where
  used : i ≤ m.nextId
  filter : ∀ s ∈ m.subs.values, s.id = i → s.filter = f

theorem step_tracked {i : Nat} {f : String} (m : MqttManager) (a : Action) (m' : MqttManager)
    (h : Tracked i f m) (hstep : step m a = some m') : Tracked i f m' := by
  rcases step_cases hstep with hs | ⟨s, hid, hnext, hsubs⟩
  · exact ⟨hs.nextId.symm ▸ h.used, fun t ht => h.filter t (hs.subs t ht)⟩
  · -- a fresh id is larger than every id handed out before
    refine ⟨hnext ▸ Nat.le_succ_of_le h.used, fun t ht hti => ?_⟩
    rcases hsubs t ht with rfl | hold
    · have := h.used
      omega
    · exact h.filter t hold hti

/-! ## Confinement -/

/-- `topic` is approved twice: by the plugin's own filters and by the granted ones. -/
def Approved (m : MqttManager) (plugin : String) (caps : Caps) (topic : String) : Prop :=
  (∃ f ∈ caps.getD [], matchesTopic f topic = true) ∧
    ∃ g ∈ granted m plugin, matchesTopic g topic = true

/-- The plugin's own filters and those granted to it are plugin filters. -/
structure PluginFilters (m : MqttManager) (plugin : String) (caps : Caps) : Prop where
  own : ∀ f ∈ caps.getD [], validPluginFilter f = true
  granted : ∀ g ∈ granted m plugin, validPluginFilter g = true

theorem approved_of_allowed (hv : PluginFilters m plugin caps) {a topic : String}
    (ha : Allowed m plugin caps a) (hm : matchesTopic a topic = true) :
    Approved m plugin caps topic := by
  rcases ha.granted with ⟨g, hg, hcov⟩
  exact ⟨⟨a, ha.own, hm⟩, g, hg, matchesTopic_of_covers (hv.granted g hg) hcov hm⟩

/-- A topic handed to the broker is matched by a filter that is allowed at that call. -/
theorem sent_allowed {call : Call} {t : String}
    (hs : (pluginCall m plugin caps call).sent = some t) :
    ∃ a, Allowed m plugin caps a ∧ matchesTopic a t = true := by
  have h := pluginCall_handled m plugin caps call
  generalize pluginCall m plugin caps call = o at h hs
  cases h with
  | sent ha hm =>
      cases hs
      exact ⟨_, ha, hm⟩
  | _ => cases hs

/-- What a call hands to the broker is approved at that call. -/
theorem sent_approved {call : Call} (hv : PluginFilters m plugin caps) {t : String}
    (hs : (pluginCall m plugin caps call).sent = some t) : Approved m plugin caps t := by
  rcases sent_allowed hs with ⟨a, ha, hm⟩
  exact approved_of_allowed hv ha hm

/-- An entered subscription has a filter that an allowed one covers. -/
theorem entered_allowed {call : Call} {i : Nat}
    (he : (pluginCall m plugin caps call).entered = some i) :
    ∃ s, (pluginCall m plugin caps call).manager.subs.get (subKey plugin (toString i)) = some s ∧
      ∃ a, Allowed m plugin caps a ∧ covers a s.filter = true := by
  have h := pluginCall_handled m plugin caps call
  generalize pluginCall m plugin caps call = o at h he
  cases h with
  | entered ha hcov _ =>
      cases he
      exact ⟨_, OrderedMap.get_set_self .., _, ha, hcov⟩
  | _ => cases he

/-- What is delivered through a subscription is approved at the call that entered it, however the
manager went on after that call. -/
theorem delivered_approved {call : Call} (hv : PluginFilters m plugin caps) {i : Nat}
    (he : (pluginCall m plugin caps call).entered = some i)
    (hids : ∀ s ∈ m.subs.values, s.id ≤ m.nextId) {as : List Action}
    (hrun : exec step (pluginCall m plugin caps call).manager as = some m') {topic : String}
    {d : Delivery} (hd : d ∈ onMessage m' topic) (hi : d.id = i) :
    Approved m plugin caps topic := by
  rcases pluginCall_cases m plugin caps call with ⟨hnone, _⟩ | ⟨f, hi', hnext, hcov, hsubs⟩
  · rw [hnone] at he
    cases he
  · rw [hi'] at he
    cases he
    rcases hcov with ⟨a, ha, hcov⟩
    have hstart : Tracked (m.nextId + 1) f (pluginCall m plugin caps call).manager := by
      refine ⟨hnext.ge, fun s hs hid => ?_⟩
      rcases hsubs s hs with rfl | hold
      · rfl
      · have := hids s hold
        omega
    -- ids are handed out once, so this one still stands for `f` at the end of the run
    have hend := exec_invariant (step_tracked (i := m.nextId + 1) (f := f)) hstart hrun
    unfold onMessage at hd
    split at hd
    · cases hd
    · rcases List.mem_map.1 hd with ⟨s, hs, rfl⟩
      have hs' := List.mem_filter.1 hs
      have hfilter : s.filter = f := hend.filter s hs'.1 hi
      have hm : matchesTopic f topic = true := by
        have h := hs'.2
        rw [hfilter] at h
        exact h
      have hown := hv.own a ha.own
      -- from the subscribed filter to the allowed one, and from there to the granted one
      exact approved_of_allowed hv ha (matchesTopic_of_covers hown hcov hm)

theorem step_ids_le (m : MqttManager) (a : Action) (m' : MqttManager)
    (h : ∀ s ∈ m.subs.values, s.id ≤ m.nextId) (hstep : step m a = some m') :
    ∀ s ∈ m'.subs.values, s.id ≤ m'.nextId := by
  intro t ht
  rcases step_cases hstep with hs | ⟨s, hid, hnext, hsubs⟩
  · rw [hs.nextId]
    exact h t (hs.subs t ht)
  · rw [hnext]
    -- the new subscription has the highest id so far
    rcases hsubs t ht with rfl | hold
    · exact hid.le
    · exact Nat.le_succ_of_le (h t hold)

/-- **Topic confinement.**  On plugin filters `covers` decides inclusion of the delivered topics for
every pair but `/+/#` and `/#`; and whatever a plugin publishes, or gets through a subscription it
was allowed to enter, is approved by its own filters and by those granted at the call. -/
theorem plugin_topics_confined :
    (∀ outer inner : String, validPluginFilter outer = true → validPluginFilter inner = true →
      ((covers outer inner = true ↔ Delivers outer inner) ↔
        ¬ (outer = "/+/#" ∧ inner = "/#"))) ∧
    ∀ (m : MqttManager) (plugin : String) (caps : Caps) (call : Call),
      PluginFilters m plugin caps →
      (∀ t, (pluginCall m plugin caps call).sent = some t → Approved m plugin caps t) ∧
      ∀ (available : Bool) (before after : List Action) (m' : MqttManager) (i : Nat),
        exec step (.new available) before = some m →
        (pluginCall m plugin caps call).entered = some i →
        exec step (pluginCall m plugin caps call).manager after = some m' →
        ∀ (topic : String) (d : Delivery), d ∈ onMessage m' topic → d.id = i →
          Approved m plugin caps topic := by
  refine ⟨fun outer inner ho hi => covers_iff_delivers ho hi, ?_⟩
  intro m plugin caps call hv
  refine ⟨fun t ht => sent_approved hv ht, ?_⟩
  intro available before after m' i hbefore he hafter topic d hd hi
  have hids : ∀ s ∈ m.subs.values, s.id ≤ m.nextId := by
    refine exec_invariant step_ids_le ?_ hbefore
    intro s hs
    cases hs
  exact delivered_approved hv he hids hafter hd hi

/-- A manager whose configuration grants the plugin `shelly` the topics below `shellies`. -/
def shellyConfig : Config where
  enabled := true
  pluginTopics := OrderedMap.ofList [("shelly", ["shellies/#"])]

theorem plugin_topics_confined_shelly :
    Delivers "shellies/#" "shellies/+/relay" ∧
      Approved (Mqtt.apply (.new true) shellyConfig) "shelly" (some ["shellies/#"])
        "shellies/a/relay" := by
  have hcov := plugin_topics_confined.1 "shellies/#" "shellies/+/relay" (by decide) (by decide)
  have hconf := plugin_topics_confined.2 (Mqtt.apply (.new true) shellyConfig) "shelly"
    (some ["shellies/#"]) (.subscribe (.str "shellies/+/relay") none) ⟨by decide, by decide⟩
  refine ⟨(hcov.2 (by decide)).1 (by decide), ?_⟩
  exact hconf.2 true [.apply shellyConfig] [] _ 1 rfl (by decide) rfl "shellies/a/relay"
    { plugin := "shelly", id := 1, topic := "shellies/a/relay" } (by decide) rfl

/-- `covers` denies `/#` below `/+/#`, although no non-empty topic tells them apart. -/
theorem covers_stricter_than_delivers :
    validPluginFilter "/+/#" = true ∧ validPluginFilter "/#" = true ∧
      ¬ (covers "/+/#" "/#" = true ↔ Delivers "/+/#" "/#") := by
  refine ⟨by decide, by decide, ?_⟩
  intro h
  exact absurd (h.2 delivers_root_pair) (by decide)

end Mqtt
end Edge
end GateControl
