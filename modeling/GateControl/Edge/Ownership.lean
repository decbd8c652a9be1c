import GateControl.Edge.Sockets

/-!
# Ownership — what belongs to which plugin of the bridge

`Owned` says that every `PluginNet` of the bridge is consistent with what is open, closed ones
included, and that mDNS browses and subscriptions belong to plugins that have an entry.  Every step
keeps it (`step_owned`).  `closePlugins_spec` says what is left after plugins are closed: what is
ready and registered with the current `PluginNet` of such a plugin goes, and nothing else.
-/

namespace GateControl
namespace Edge
namespace Bridge

open Library

/-- The plugin's `PluginNet` in force is number `k`. -/
def Current (b : EdgeBridge) (plugin : String) (k : Nat) : Prop :=
  ∃ e, b.plugins.get plugin = some e ∧ e.net = k

/-- A call makes at most a new entry. -/
theorem Current.enter {b : EdgeBridge} {plugin : String} {k : Nat} (h : Current b plugin k)
    (id : String) (caps : Caps) : Current (enter b id caps) plugin k := by
  rcases h with ⟨e, he, hk⟩
  unfold Bridge.enter
  split
  · rename_i e' he'
    simp only [Current, OrderedMap.get_set]
    split
    · rename_i heq
      rw [heq, he'] at he
      cases he
      exact ⟨_, rfl, hk⟩
    · exact ⟨e, he, hk⟩
  · rename_i hnone
    refine ⟨e, ?_, hk⟩
    rw [OrderedMap.get_set_ne, he]
    rintro rfl
    rw [hnone] at he
    cases he

structure Owned (b : EdgeBridge) : Prop where
  numbered : Numbered b.network
  fresh : ∀ {k net}, b.nets.get k = some net → k < b.nextNet
  nets : ∀ {k net}, b.nets.get k = some net → Consistent k net b.network
  entry : ∀ {id e}, b.plugins.get id = some e →
    ∃ net, b.nets.get e.net = some net ∧ net.pluginId = id
  socket : ∀ {n s}, b.network.sockets.get n = some s → ∃ net, b.nets.get s.net = some net
  browse : ∀ {n br}, b.network.browses.get n = some br → Current b br.plugin br.net
  sub : ∀ {s}, s ∈ b.mqtt.subs.values → ∃ e, b.plugins.get s.plugin = some e

namespace Owned

variable {b : EdgeBridge}

theorem init (guard : LanGuard) (mdns volume : Bool) : Owned (new guard mdns volume) where
  numbered := { socket := fun h => (by cases h), browse := fun h => (by cases h) }
  fresh h := by cases h
  nets h := by cases h
  entry h := by cases h
  socket h := by cases h
  browse h := by cases h
  sub h := by cases h

theorem withInflight (h : Owned b) (i : Nat) : Owned { b with inflight := i } :=
  ⟨h.numbered, h.fresh, h.nets, h.entry, h.socket, h.browse, h.sub⟩

theorem withDesired (h : Owned b) (st : Desired) : Owned { b with desired := some st } :=
  ⟨h.numbered, h.fresh, h.nets, h.entry, h.socket, h.browse, h.sub⟩

/-- Only the subscriptions that are left matter. -/
theorem of_mqtt (h : Owned b) {m : Mqtt.MqttManager} (hm : Mqtt.Shrinks b.mqtt m) :
    Owned { b with mqtt := m } :=
  ⟨h.numbered, h.fresh, h.nets, h.entry, h.socket, h.browse, fun hs => h.sub (hm.subs _ hs)⟩

/-- One `PluginNet` changes, and with it what is open for it. -/
theorem update (h : Owned b) {k : Nat} {net net' : PluginNet} {w' : Network}
    (hnet : b.nets.get k = some net) (hid : net'.pluginId = net.pluginId)
    (hcons : Consistent k net' w') (hnum : Numbered w')
    (hagree : ∀ j, k ≠ j → Agree j b.network w')
    (hbrowse : ∀ {n br}, w'.browses.get n = some br → br.net = k → Current b br.plugin k) :
    Owned { b with nets := b.nets.set k net', network := w' } where
  numbered := hnum
  fresh hj := by
    rcases OrderedMap.get_set_cases hj with ⟨rfl, _⟩ | ⟨_, hold⟩
    · exact h.fresh hnet
    · exact h.fresh hold
  nets {j netj} hj := by
    -- the one that changes, and the others
    rcases OrderedMap.get_set_cases hj with ⟨rfl, rfl⟩ | ⟨hne, hold⟩
    · exact hcons
    · exact (h.nets hold).of_agree (hagree j (Ne.symm hne))
  entry he := by
    rcases h.entry he with ⟨net₀, hnet₀, hid₀⟩
    rw [OrderedMap.get_set]
    split
    · rename_i hk
      rw [hk, hnet] at hnet₀
      cases hnet₀
      exact ⟨net', rfl, hid.trans hid₀⟩
    · exact ⟨net₀, hnet₀, hid₀⟩
  socket {n s} hs := by
    rw [OrderedMap.get_set]
    split
    · exact ⟨net', rfl⟩
    · rename_i hk
      exact h.socket (((hagree s.net (Ne.symm hk)).sockets n s rfl).1 hs)
  browse {n br} hb := by
    by_cases hk : br.net = k
    · rw [hk]
      exact hbrowse hb hk
    · exact h.browse (((hagree br.net (Ne.symm hk)).browses n br rfl).1 hb)
  sub hs := h.sub hs

theorem changed (h : Owned b) {id : String} {e : Entry} {caps : Caps} {net net' : PluginNet}
    {w' : Network} (he : b.plugins.get id = some e) (hnet : b.nets.get e.net = some net)
    (hc : Changes caps e.net net b.network net' w') :
    Owned { b with nets := b.nets.set e.net net', network := w' } := by
  have hcons := (h.nets hnet).changed h.numbered hc
  refine h.update hnet hc.pluginId hcons (h.numbered.changed hc)
    (fun j hj => Agree.changed h.numbered (h.nets hnet) hj hc) ?_
  intro n br hb hk
  -- the plugin of a browse is that of the `PluginNet`
  rcases h.entry he with ⟨net₀, hnet₀, hid⟩
  obtain rfl : net = net₀ := Option.some.inj (hnet.symm.trans hnet₀)
  refine ⟨e, ?_, rfl⟩
  rw [(hcons.browse hb hk).1, hc.pluginId, hid]
  exact he

theorem enter (h : Owned b) (id : String) (caps : Caps) : Owned (enter b id caps) := by
  have hcurrent : ∀ {plugin k}, Current b plugin k → Current (Bridge.enter b id caps) plugin k :=
    fun hc => hc.enter id caps
  have hsub : ∀ {s}, s ∈ b.mqtt.subs.values →
      ∃ e, (Bridge.enter b id caps).plugins.get s.plugin = some e := by
    intro s hs
    rcases h.sub hs with ⟨e, he⟩
    rcases hcurrent ⟨e, he, rfl⟩ with ⟨e', he', _⟩
    exact ⟨e', he'⟩
  unfold Bridge.enter at hcurrent hsub ⊢
  split at hcurrent
  · rename_i e he
    simp only [he] at hsub ⊢
    refine ⟨h.numbered, h.fresh, h.nets, ?_, h.socket, fun hb => hcurrent (h.browse hb), hsub⟩
    intro id' e' he'
    rcases OrderedMap.get_set_cases he' with ⟨rfl, rfl⟩ | ⟨_, hold⟩
    · have hnet := h.entry he
      exact hnet
    · exact h.entry hold
  · rename_i hnone
    simp only [hnone] at hsub ⊢
    -- the new number is that of no socket
    have hnew : ∀ {k net}, b.nets.get k = some net →
        (b.nets.set b.nextNet (.new id)).get k = some net := by
      intro k net hnet
      rw [OrderedMap.get_set_ne _ (Nat.ne_of_lt (h.fresh hnet)), hnet]
    refine ⟨h.numbered, ?_, ?_, ?_, ?_, fun hb => hcurrent (h.browse hb), hsub⟩
    · intro k net hk
      rcases OrderedMap.get_set_cases hk with ⟨rfl, _⟩ | ⟨_, hold⟩
      · exact Nat.lt_succ_self _
      · exact Nat.lt_succ_of_lt (h.fresh hold)
    · intro k net hk
      rcases OrderedMap.get_set_cases hk with ⟨rfl, rfl⟩ | ⟨_, hold⟩
      · refine .new _ id _ (fun n s hs hk => ?_) (fun n br hb hk => ?_)
        · rcases h.socket hs with ⟨net', hnet'⟩
          exact absurd hk (Nat.ne_of_lt (h.fresh hnet'))
        · rcases h.browse hb with ⟨e, he, hek⟩
          rcases h.entry he with ⟨net', hnet', _⟩
          exact absurd (hek.trans hk) (Nat.ne_of_lt (h.fresh hnet'))
      · exact h.nets hold
    · intro id' e' he'
      rcases OrderedMap.get_set_cases he' with ⟨rfl, rfl⟩ | ⟨_, hold⟩
      · exact ⟨_, OrderedMap.get_set_self .., rfl⟩
      · rcases h.entry hold with ⟨net', hnet', hid⟩
        exact ⟨net', hnew hnet', hid⟩
    · intro n s hs
      rcases h.socket hs with ⟨net', hnet'⟩
      exact ⟨net', hnew hnet'⟩

/-- The entry of a plugin goes, when nothing is left that belongs to it. -/
theorem forget (h : Owned b) {id : String} {m : Mqtt.MqttManager}
    (hb : ∀ {n br}, b.network.browses.get n = some br → br.plugin ≠ id)
    (hm : ∀ {s}, s ∈ m.subs.values → s ∈ b.mqtt.subs.values ∧ s.plugin ≠ id) :
    Owned { b with mqtt := m, plugins := b.plugins.delete id } := by
  have hkeep : ∀ {plugin e}, plugin ≠ id → b.plugins.get plugin = some e →
      (b.plugins.delete id).get plugin = some e := by
    intro plugin e hne he
    rw [OrderedMap.get_delete, if_neg hne, he]
  refine ⟨h.numbered, h.fresh, h.nets, fun he => h.entry (OrderedMap.get_delete_cases he).2,
    h.socket, ?_, ?_⟩
  · intro n br hbr
    rcases h.browse hbr with ⟨e, he, hk⟩
    exact ⟨e, hkeep (hb hbr) he, hk⟩
  · intro s hs
    rcases hm hs with ⟨hold, hne⟩
    rcases h.sub hold with ⟨e, he⟩
    exact ⟨e, hkeep hne he⟩

end Owned

/-! ## Closing plugins -/

variable {b b' : EdgeBridge} {env : Platform}

/-- `b'` is `b` without what the listed plugins have registered. -/
structure Closed (b : EdgeBridge) (ids : List String) (b' : EdgeBridge) : Prop where
  desired : b'.desired = b.desired
  guard : b'.guard = b.guard
  nextSocket : b'.network.nextSocket = b.network.nextSocket
  sockets : ∀ n s, b'.network.sockets.get n = some s ↔ b.network.sockets.get n = some s ∧
    ¬ (s.ready = true ∧ s.plugin ∈ ids ∧ Current b s.plugin s.net)
  browses : ∀ n br, b'.network.browses.get n = some br ↔
    b.network.browses.get n = some br ∧ br.plugin ∉ ids
  plugins : ∀ id e, b'.plugins.get id = some e ↔ b.plugins.get id = some e ∧ id ∉ ids
  cfg : b'.mqtt.cfg = b.mqtt.cfg
  available : b'.mqtt.available = b.mqtt.available
  subs : b'.mqtt.subs = b.mqtt.subs.filter fun _ s => s.plugin ∉ ids

theorem Closed.current {ids : List String} (h : Closed b ids b') (id : String) (k : Nat) :
    Current b' id k ↔ Current b id k ∧ id ∉ ids := by
  simp only [Current, h.plugins]
  constructor
  · rintro ⟨e, ⟨he, hid⟩, hk⟩
    exact ⟨⟨e, he, hk⟩, hid⟩
  · rintro ⟨⟨e, he, hk⟩, hid⟩
    exact ⟨e, ⟨he, hid⟩, hk⟩

theorem Closed.refl (b : EdgeBridge) : Closed b [] b := by
  refine ⟨rfl, rfl, rfl, ?_, ?_, ?_, rfl, rfl, OrderedMap.eq_of_entries ?_⟩ <;>
    simp [OrderedMap.filter]

theorem Closed.trans {b'' : EdgeBridge} {ids ids' : List String} (h : Closed b ids b')
    (h' : Closed b' ids' b'') : Closed b (ids ++ ids') b'' where
  desired := h'.desired.trans h.desired
  guard := h'.guard.trans h.guard
  nextSocket := h'.nextSocket.trans h.nextSocket
  sockets n s := by
    rw [h'.sockets, h.sockets, h.current, List.mem_append]
    grind
  browses n br := by
    rw [h'.browses, h.browses, List.mem_append, not_or, and_assoc]
  plugins id e := by
    rw [h'.plugins, h.plugins, List.mem_append, not_or, and_assoc]
  cfg := h'.cfg.trans h.cfg
  available := h'.available.trans h.available
  subs := by
    rw [h'.subs, h.subs]
    refine OrderedMap.eq_of_entries ?_
    simp only [OrderedMap.filter, List.filter_filter, List.mem_append, not_or]
    simp [Bool.and_comm]

/-- The subscriptions of closed plugins are gone. -/
theorem Closed.mem_subs {ids : List String} (h : Closed b ids b') {s : Mqtt.Sub}
    (hs : s ∈ b'.mqtt.subs.values) : s ∈ b.mqtt.subs.values ∧ s.plugin ∉ ids := by
  rw [h.subs] at hs
  simpa using OrderedMap.mem_values_filter.1 hs

/-- A plugin without an entry has nothing open. -/
theorem closePlugin_unknown (h : Owned b) {id : String} (he : b.plugins.get id = none) :
    Closed b [id] (closePlugin b id) ∧ Owned (closePlugin b id) := by
  rcases Mqtt.dropPlugin_spec b.mqtt id with ⟨hcfg, havail, _, hsubs⟩
  have hclose : closePlugin b id =
      { b with mqtt := Mqtt.dropPlugin b.mqtt id, plugins := b.plugins.delete id } := by
    simp [closePlugin, he]
  -- no `PluginNet` is current without an entry
  have hno : ∀ k, ¬ Current b id k := by
    rintro k ⟨e, he', _⟩
    rw [he] at he'
    cases he'
  rw [hclose]
  refine ⟨⟨rfl, rfl, rfl, ?_, ?_, ?_, hcfg, havail, ?_⟩, h.forget ?_ Mqtt.mem_dropPlugin.1⟩
  · intro n s
    refine (and_iff_left ?_).symm
    rintro ⟨_, hid, hc⟩
    rw [List.mem_singleton.1 hid] at hc
    exact hno _ hc
  · intro n br
    refine (and_iff_left_of_imp fun hb hid => ?_).symm
    have hc := h.browse hb
    rw [List.mem_singleton.1 hid] at hc
    exact hno _ hc
  · intro id' e
    rw [OrderedMap.get_delete, List.mem_singleton]
    split
    · simp [*]
    · simp [*]
  · rw [hsubs]
    simp only [List.mem_singleton]
  · rintro n br hb rfl
    exact hno _ (h.browse hb)

/-- What a plugin with an entry has open is what its `PluginNet` has. -/
theorem closePlugin_known (h : Owned b) {id : String} {e : Entry} (he : b.plugins.get id = some e) :
    Closed b [id] (closePlugin b id) ∧ Owned (closePlugin b id) := by
  rcases Mqtt.dropPlugin_spec b.mqtt id with ⟨hcfg, havail, _, hsubs⟩
  rcases h.entry he with ⟨net, hnet, hid⟩
  have hcons := h.nets hnet
  have hclose : closePlugin b id =
      { b with
        nets := b.nets.set e.net net.cleared
        network := net.closeOpen b.network
        mqtt := Mqtt.dropPlugin b.mqtt id
        plugins := b.plugins.delete id } := by
    simp [closePlugin, closeNet, he, hnet]
  have hnot : ∀ {n br}, (net.closeOpen b.network).browses.get n = some br →
      br.net ≠ e.net := by
    intro n br hb hk
    have hgone := (hcons.closed.browse hb hk).2.2
    cases hgone
  have hupdate : Owned { b with
      nets := b.nets.set e.net net.cleared, network := net.closeOpen b.network } :=
    h.update hnet rfl hcons.closed (h.numbered.closeOpen net)
      (fun j hj => Agree.closeOpen hcons hj) fun hb hk => absurd hk (hnot hb)
  have hcur : ∀ {k}, Current b id k → k = e.net := by
    rintro k ⟨e', he', hk⟩
    rw [he] at he'
    cases he'
    exact hk.symm
  rw [hclose]
  refine ⟨⟨rfl, rfl, rfl, ?_, ?_, ?_, hcfg, havail, ?_⟩,
    hupdate.forget ?_ Mqtt.mem_dropPlugin.1⟩
  · intro n s
    rw [Network.get_closeOpen]
    refine and_congr_right fun hs => ?_
    constructor
    · -- a ready socket of the current `PluginNet` stands in its maps
      rintro hno ⟨hready, hid', hc⟩
      rw [List.mem_singleton.1 hid'] at hc
      exact hno _ _ ((hcons.socket hs (hcur hc)).2.2.2.2 hready)
    · intro hno t i hn
      rcases hcons.named hn with ⟨s', hs', hk, _, _, hready⟩
      rw [hs] at hs'
      cases hs'
      have hp : s.plugin = id := (hcons.socket hs hk).1.trans hid
      exact hno ⟨hready, List.mem_singleton.2 hp, e, by rw [hp, he], hk.symm⟩
  · intro n br
    rw [Network.get_browse_closeOpen]
    refine and_congr_right fun hb => ?_
    rw [List.mem_singleton]
    constructor
    · rintro hno rfl
      exact hno _ (hcons.browse hb (hcur (h.browse hb))).2.2
    · intro hne i hi
      rcases hcons.browsed hi with ⟨br', hb', hk, _⟩
      rw [hb] at hb'
      cases hb'
      exact hne ((hcons.browse hb hk).1.trans hid)
  · intro id' e'
    rw [OrderedMap.get_delete, List.mem_singleton]
    split
    · simp [*]
    · simp [*]
  · rw [hsubs]
    simp only [List.mem_singleton]
  · rintro n br hb rfl
    have hold := (Network.get_browse_closeOpen.1 hb).1
    exact hnot hb (hcur (h.browse hold))

theorem closePlugin_spec (h : Owned b) (id : String) :
    Closed b [id] (closePlugin b id) ∧ Owned (closePlugin b id) := by
  cases he : b.plugins.get id with
  | none =>
      exact closePlugin_unknown h he
  | some e =>
      exact closePlugin_known h he
theorem closePlugins_spec (h : Owned b) (ids : List String) :
    Closed b ids (closePlugins b ids) ∧ Owned (closePlugins b ids) := by
  induction ids generalizing b with
  | nil =>
      exact ⟨.refl b, h⟩
  | cons id ids ih =>
      rcases closePlugin_spec h id with ⟨hfirst, howned⟩
      rcases ih howned with ⟨hrest, howned'⟩
      exact ⟨hfirst.trans hrest, howned'⟩

/-! ## Every step keeps it -/

/-- A state closes what it does not want, and then the broker is told. -/
theorem setDesired_eq (b : EdgeBridge) (st : Desired) :
    ∃ m, setDesired b st =
        { closePlugins { b with desired := some st } (unwanted b st) with mqtt := m } ∧
      Mqtt.Shrinks (closePlugins { b with desired := some st } (unwanted b st)).mqtt m := by
  simp only [setDesired]
  split
  · exact ⟨_, rfl, Mqtt.apply_shrinks _ _⟩
  · exact ⟨_, rfl, .refl _⟩

theorem Owned.setDesired (h : Owned b) (st : Desired) : Owned (setDesired b st) := by
  rcases setDesired_eq b st with ⟨m, heq, hm⟩
  rw [heq]
  exact (closePlugins_spec (h.withDesired st) (unwanted b st)).2.of_mqtt hm

section Enter

variable (b : EdgeBridge) (id : String) (caps : Caps)

@[simp] theorem enter_desired : (enter b id caps).desired = b.desired := by
  unfold enter
  split <;> rfl

@[simp] theorem enter_network : (enter b id caps).network = b.network := by
  unfold enter
  split <;> rfl

@[simp] theorem enter_mqtt : (enter b id caps).mqtt = b.mqtt := by
  unfold enter
  split <;> rfl

@[simp] theorem enter_guard : (enter b id caps).guard = b.guard := by
  unfold enter
  split <;> rfl

end Enter

/-- What a call does: it changes the network of its plugin or the broker's subscriptions, or it is
refused. -/
inductive Called (b : EdgeBridge) (plugin : String) (caps : Caps) (o : Outcome) : Prop
  | net {e : Entry} {net net' : PluginNet} {w' : Network} (he : b.plugins.get plugin = some e)
      (hnet : b.nets.get e.net = some net) (hc : Changes caps e.net net b.network net' w')
      (hb : o.bridge = { b with nets := b.nets.set e.net net', network := w' })
      (hf : ∀ f ∈ o.effects, f.1 = plugin ∧ Confined b.guard caps f.2)
  | mqtt {c : Mqtt.Call}
      (hb : o.bridge = { b with mqtt := (Mqtt.pluginCall b.mqtt plugin caps.mqtt c).manager })
      (hf : o.effects =
        (mqttEffects plugin (Mqtt.pluginCall b.mqtt plugin caps.mqtt c)).map fun f => (plugin, f))
  | refused (hb : o.bridge = b) (hf : o.effects = [])

theorem callApi_cases (h : Owned b) {plugin : String} {e : Entry}
    (he : b.plugins.get plugin = some e) (api : Api) (args : Json) (reply : Option Mqtt.MqttError) :
    Called b plugin e.caps (callApi env b plugin api args reply) := by
  cases api with
  | net api =>
      rcases h.entry he with ⟨net, hnet, _⟩
      have hallowed : (net.call env b.guard b.mdns e.caps e.net b.network args api).Allowed
          b.guard e.caps e.net net b.network := PluginNet.call_allowed api
      simp only [Bridge.callApi, callNet, he, hnet]
      refine .net he hnet hallowed.changes rfl ?_
      intro f hf
      rcases List.mem_map.1 hf with ⟨f', hf', rfl⟩
      exact ⟨rfl, hallowed.effects f' hf'⟩
  | mqtt api =>
      simp only [Bridge.callApi, callMqtt, he]
      split
      · exact .refused rfl rfl
      · exact .mqtt rfl rfl

theorem Owned.called (h : Owned b) {plugin : String} {e : Entry} {caps : Caps}
    (he : b.plugins.get plugin = some e) {o : Outcome} (hc : Called b plugin caps o) :
    Owned o.bridge := by
  cases hc with
  | net he hnet hc hb hf =>
      rw [hb]
      exact h.changed he hnet hc
  | @mqtt c hb hf =>
      rw [hb]
      rcases Mqtt.pluginCall_cases b.mqtt plugin caps.mqtt c with ⟨_, hs⟩ | ⟨f, _, _, _, hsubs⟩
      · exact h.of_mqtt hs
      · refine ⟨h.numbered, h.fresh, h.nets, h.entry, h.socket, h.browse, ?_⟩
        intro s hs
        rcases hsubs s hs with rfl | hold
        · exact ⟨e, he⟩
        · exact h.sub hold
  | refused hb hf =>
      rw [hb]
      exact h

/-- A message of the edge host in the terms of what it changes. -/
inductive Message (b : EdgeBridge) (o : Outcome) : Prop
  | ignored {i : Nat} (hb : o.bridge = { b with inflight := i }) (he : o.effects = [])
  | closed {id : String} (hb : o.bridge = closePlugin b id) (he : o.effects = [])
  | call {i : Nat} {plugin : String} {p : PluginState} {caps : Caps}
      (hp : wanted b plugin = some p) (hcaps : caps.Within p.caps)
      (hc : Called (enter { b with inflight := i } plugin caps) plugin caps o)

theorem onRpc_message (h : Owned b) (m : Json) (reply : Option Mqtt.MqttError) :
    Message b (onRpc env b m reply) := by
  cases onRpc_cases env b m reply with
  | ignored hb he => exact .ignored hb he
  | closed hb he => exact .closed hb he
  | @call i plugin p caps api args reply hp hcaps ho =>
      have hi := h.withInflight i
      rcases enter_spec { b with inflight := i } plugin caps with ⟨e, he, rfl⟩
      refine .call (i := i) hp hcaps ?_
      rw [ho]
      exact callApi_cases (hi.enter plugin e.caps) he api args reply

theorem Owned.onRpc (h : Owned b) (m : Json) (reply : Option Mqtt.MqttError) :
    Owned (onRpc env b m reply).bridge := by
  cases onRpc_message h m reply with
  | ignored hb _ =>
      rw [hb]
      exact h.withInflight _
  | closed hb _ =>
      rw [hb]
      exact (closePlugin_spec h _).2
  | @call i plugin p caps hp hcaps hc =>
      have hi := h.withInflight i
      rcases enter_spec { b with inflight := i } plugin caps with ⟨e, he, _⟩
      exact (hi.enter plugin caps).called he hc

theorem step_opened {n : Nat} (h : step env b (.opened n) = some b') :
    ∃ s net, b.network.sockets.get n = some s ∧ s.ready = false ∧ b.nets.get s.net = some net ∧
      b' = register b n s net := by
  rcases Option.bind_eq_some_iff.1 h with ⟨s, hs, h⟩
  split at h
  · cases h
  · rename_i hready
    rcases Option.map_eq_some_iff.1 h with ⟨net, hnet, rfl⟩
    exact ⟨s, net, hs, by simpa using hready, hnet, rfl⟩

theorem step_failed {n : Nat} (h : step env b (.failed n) = some b') :
    ∃ s, b.network.sockets.get n = some s ∧ s.ready = false ∧
      b' = { b with network := b.network.closeSocket n } := by
  rcases Option.bind_eq_some_iff.1 h with ⟨s, hs, h⟩
  split at h
  · cases h
  · rename_i hready
    exact ⟨s, hs, by simpa using hready, (Option.some.inj h).symm⟩

theorem step_peerClosed {n : Nat} (h : step env b (.peerClosed n) = some b') :
    ∃ s net, b.network.sockets.get n = some s ∧ s.ready = true ∧ s.kind.table = .tcp ∧
      b.nets.get s.net = some net ∧ b' = unregister b n s net := by
  rcases Option.bind_eq_some_iff.1 h with ⟨s, hs, h⟩
  split at h
  · rename_i hcond
    rcases Option.map_eq_some_iff.1 h with ⟨net, hnet, rfl⟩
    simp only [Bool.and_eq_true, decide_eq_true_eq] at hcond
    exact ⟨s, net, hs, hcond.1, hcond.2, hnet, rfl⟩
  · cases h

/-- What a step does not change that opens nothing. -/
structure Same (b b' : EdgeBridge) : Prop where
  desired : b'.desired = b.desired
  plugins : b'.plugins = b.plugins
  nets : b'.nets = b.nets
  nextNet : b'.nextNet = b.nextNet
  network : b'.network = b.network
  cfg : b'.mqtt.cfg = b.mqtt.cfg ∨ b'.mqtt.cfg.enabled = false
  mqtt : Mqtt.Shrinks b.mqtt b'.mqtt

theorem Same.refl (b : EdgeBridge) : Same b b :=
  ⟨rfl, rfl, rfl, rfl, rfl, Or.inl rfl, .refl _⟩

theorem Same.of_mqtt {m : Mqtt.MqttManager} (hcfg : m.cfg = b.mqtt.cfg ∨ m.cfg.enabled = false)
    (hm : Mqtt.Shrinks b.mqtt m) : Same b { b with mqtt := m } :=
  ⟨rfl, rfl, rfl, rfl, rfl, hcfg, hm⟩

theorem Owned.of_same (h : Owned b) (hsame : Same b b') : Owned b' where
  numbered := by
    rw [hsame.network]
    exact h.numbered
  fresh := by
    rw [hsame.nets, hsame.nextNet]
    exact h.fresh
  nets := by
    rw [hsame.nets, hsame.network]
    exact h.nets
  entry := by
    rw [hsame.plugins, hsame.nets]
    exact h.entry
  socket := by
    rw [hsame.network, hsame.nets]
    exact h.socket
  browse := by
    rw [hsame.network]
    unfold Current
    rw [hsame.plugins]
    exact h.browse
  sub hs := by
    rw [hsame.plugins]
    exact h.sub (hsame.mqtt.subs _ hs)

/-- The steps on sockets, states and messages; the others can at most close plugins. -/
def Main : Action → Prop
  | .setDesired _ => True
  | .rpc _ _ => True
  | .opened _ => True
  | .failed _ => True
  | .peerClosed _ => True
  | _ => False

theorem step_other {a : Action} (ha : ¬ Main a) (h : step env b a = some b') :
    ∃ ids, Same (closePlugins b ids) b' := by
  have hnone : Same b b' → ∃ ids, Same (closePlugins b ids) b' := fun hsame => ⟨[], hsame⟩
  cases a with
  | rpcOpen =>
      cases h
      by_cases hrpc : b.rpc = true
      · -- a new connection of the host: what the old one opened is closed
        refine ⟨b.plugins.keys, ?_⟩
        rw [if_pos hrpc]
        exact ⟨rfl, rfl, rfl, rfl, rfl, Or.inl rfl, .refl _⟩
      · refine ⟨[], ?_⟩
        rw [if_neg hrpc]
        exact ⟨rfl, rfl, rfl, rfl, rfl, Or.inl rfl, .refl _⟩
  | rpcClose =>
      simp only [step] at h
      split at h
      · cases h
        exact ⟨b.plugins.keys, rfl, rfl, rfl, rfl, rfl, Or.inl rfl, .refl _⟩
      · cases h
  | event n sender =>
      rcases Option.bind_eq_some_iff.1 h with ⟨s, _, h⟩
      split at h
      · cases h
        exact hnone (.refl b)
      · cases h
  | found n ip =>
      rcases Option.map_eq_some_iff.1 h with ⟨_, _, rfl⟩
      exact hnone (.refl b)
  | guard g =>
      cases h
      exact hnone ⟨rfl, rfl, rfl, rfl, rfl, Or.inl rfl, .refl _⟩
  | connection up =>
      simp only [step] at h
      split at h
      · cases h
      · cases h
        -- the connection to the broker opens nothing
        exact hnone (.of_mqtt (Or.inl rfl) ⟨rfl, fun _ hs => hs⟩)
  | message topic =>
      simp only [step] at h
      split at h
      · cases h
        exact hnone (.refl b)
      · cases h
  | refresh =>
      cases h
      refine hnone (.of_mqtt (Or.inl ?_) (Mqtt.refresh_shrinks _))
      by_cases hon : b.mqtt.cfg.enabled = true ∧ b.mqtt.available = true
      · exact (Mqtt.refresh_spec hon.1 hon.2).1
      · rw [Mqtt.refresh, if_pos]
        simpa [or_iff_not_imp_left] using hon
  | volume up =>
      cases h
      exact hnone (.of_mqtt (Or.inl rfl) ⟨rfl, fun _ hs => hs⟩)
  | finished =>
      simp only [step] at h
      split at h
      · cases h
      · cases h
        exact hnone ⟨rfl, rfl, rfl, rfl, rfl, Or.inl rfl, .refl _⟩
  | stop =>
      cases h
      exact ⟨b.plugins.keys, rfl, rfl, rfl, rfl, rfl, Or.inr rfl, ⟨rfl, fun _ hs => hs⟩⟩
  | setDesired st => exact absurd trivial ha
  | rpc m reply => exact absurd trivial ha
  | opened n => exact absurd trivial ha
  | failed n => exact absurd trivial ha
  | peerClosed n => exact absurd trivial ha

theorem step_owned (env : Platform) (b : EdgeBridge) (a : Action) (b' : EdgeBridge) (h : Owned b)
    (hs : step env b a = some b') : Owned b' := by
  by_cases ha : Main a
  · cases a with
    | setDesired st =>
        cases hs
        exact h.setDesired st
    | rpc m reply =>
        cases hs
        exact h.onRpc m reply
    | opened n =>
        rcases step_opened hs with ⟨s, net, hn, hready, hnet, rfl⟩
        have hcons := h.nets hnet
        -- an ephemeral socket is ready from the start
        have hkind : s.kind ≠ .ephemeral := fun hc => by
          have := (hcons.socket hn rfl).2.2.2.1 hc
          simp [hready] at this
        have hcons' := hcons.registered hn rfl hready
        refine h.update hnet (renamed_register net n hkind).pluginId hcons'
          (h.numbered.setSocket hn) (fun j hj => Agree.setSocket hn hj rfl) ?_
        intro m br hb hk
        exact hk ▸ h.browse hb
    | failed n =>
        rcases step_failed hs with ⟨s, hn, hready, rfl⟩
        rcases h.socket hn with ⟨net, hnet⟩
        refine ⟨h.numbered.closeSocket n, h.fresh, ?_, h.entry, ?_, h.browse, h.sub⟩
        · intro k netk hk
          by_cases hkn : s.net = k
          · subst hkn
            exact (h.nets hk).failed hn hready
          · exact (h.nets hk).of_agree (Agree.closeSocket hn hkn)
        · intro m t hm
          exact h.socket (Network.get_of_closeSocket hm)
    | peerClosed n =>
        rcases step_peerClosed hs with ⟨s, net, hn, hready, htable, hnet, rfl⟩
        have hcons := h.nets hnet
        -- a socket that was ready stands in the table of its plugin
        have hname := (hcons.socket hn rfl).2.2.2.2 hready
        rw [htable] at hname
        refine h.update hnet rfl (hcons.removed hname (renamed_tcp net s.id))
          (h.numbered.closeSocket n) (fun j hj => Agree.closeSocket hn hj) ?_
        intro m br hb hk
        exact hk ▸ h.browse hb
    | _ => cases ha
  · rcases step_other ha hs with ⟨ids, hsame⟩
    exact (closePlugins_spec h ids).2.of_same hsame

theorem owned_of_run {guard : LanGuard} {mdns volume : Bool} {as : List Action}
    (hrun : exec (step env) (new guard mdns volume) as = some b) : Owned b :=
  exec_invariant (step_owned env) (.init guard mdns volume) hrun

/-! ## A plugin to look at -/

def demoPlatform : Platform := ⟨fun _ => "", id, fun _ => none, fun _ => []⟩

/-- One subnet, and neither a tunnel nor a server. -/
def homeGuard : LanGuard := ⟨[⟨"192.168.1.0".toList, 24⟩], none, []⟩

/-- The plugin `lamp` with these capabilities, and no broker. -/
def lampState (caps : Caps) : Desired := ⟨true, [⟨"lamp", caps, none, true⟩], mqttOff⟩

def jsonOf (fields : List (String × Json)) : Json := .obj (fields.map fun f => (f.1.toList, f.2))

def lampClose : Json := jsonOf [("t", .str "close".toList), ("plugin", .str "lamp".toList)]

def lampCall (api : String) (caps args : List (String × Json)) : Json :=
  jsonOf [("t", .str "call".toList), ("id", .num 1), ("plugin", .str "lamp".toList),
    ("api", .str api.toList), ("caps", jsonOf caps), ("args", jsonOf args)]

/-- A call that claims two UDP ports and binds one. -/
def bindPort (port : ℚ) : Action :=
  .rpc (lampCall "udp.bind" [("udp", jsonOf [("ports", .arr [.num 5000, .num 5001])])]
    [("port", .num port)]) none

/-- The edge host is connected, and the plugin may use two UDP ports. -/
def portsApproved : List Action := [.setDesired (lampState { udp := some ⟨[5000, 5001], []⟩ }), .rpcOpen]

end Bridge
end Edge
end GateControl
