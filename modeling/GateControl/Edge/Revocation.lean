import GateControl.Edge.Ownership

/-!
# Revocation — whether a new state takes back what a plugin holds

A plugin that a state does not want any more is closed.  From a plugin that stays enabled, a state
takes only subscriptions, and these it checks against the capabilities of the call that entered
them; its sockets and browses go on without a check.  `revocation_complete` gives the condition under
which everything that is held is approved in every state of a run.
-/

namespace GateControl
namespace Edge
namespace Bridge

open Library

/-! ## What is held -/

/-- The state approves the subscription and grants its topics. -/
def SubApproved (st : Desired) (s : Mqtt.Sub) : Prop :=
  ∃ p, st.wanted s.plugin = some p ∧ ∃ f ∈ p.caps.mqtt.getD [],
    (∃ g ∈ (st.mqtt.pluginTopics.get s.plugin).getD [], Topics.covers g f = true) ∧
      Topics.covers f s.filter = true

/-- Everything that delivers data to a plugin, or takes data from it, could be opened anew.  For
subscriptions this is said once the manager works with the configuration of the desired state. -/
structure HeldApproved (b : EdgeBridge) : Prop where
  sockets : ∀ n s, b.network.sockets.get n = some s → s.ready = true →
    ∃ p, wanted b s.plugin = some p ∧ s.kind.Permitted p.caps
  browses : ∀ n br, b.network.browses.get n = some br →
    ∃ p, wanted b br.plugin = some p ∧ Permits p.caps (.mdnsBrowse br.service)
  subs : ∀ st, b.desired = some st → b.mqtt.cfg = st.mqttConfig → b.mqtt.cfg.enabled = true →
    ∀ s ∈ b.mqtt.subs.values, SubApproved st s

/-- The manager with the configuration of the state. -/
def Desired.mqttUnder (st : Desired) (m : Mqtt.MqttManager) : Mqtt.MqttManager :=
  { m with cfg := st.mqttConfig }

/-- The subscriptions of plugins that stay wanted, in the order in which they are checked when the
state is taken over. -/
def wantedSubs (b : EdgeBridge) (st : Desired) : List (String × Mqtt.Sub) :=
  b.mqtt.subs.entries.filter fun e => (st.wanted e.2.plugin).isSome

/-- The subscription is not ended when the state is taken over: it passes the check, or an exception
ends the check before it. -/
def Stays (b : EdgeBridge) (st : Desired) (e : String × Mqtt.Sub) : Prop :=
  if b.mqtt.available then
    e ∈ Mqtt.checked (st.mqttUnder b.mqtt) (wantedSubs b st) →
      Mqtt.stillAllowed (st.mqttUnder b.mqtt) e.2 = true
  else b.mqtt.cfg = st.mqttConfig

/-- No state takes a capability from a plugin that stays enabled and uses it, or from a socket that
its closed `PluginNet` has left behind; and no bind or connection succeeds whose capability is
gone. -/
def Spares (b : EdgeBridge) : Action → Prop
  | .setDesired st =>
      (∀ n s, b.network.sockets.get n = some s → s.ready = true →
        ¬ (Current b s.plugin s.net ∧ st.wanted s.plugin = none) →
        ∃ p, st.wanted s.plugin = some p ∧ s.kind.Permitted p.caps) ∧
      (∀ n br p, b.network.browses.get n = some br → st.wanted br.plugin = some p →
        Permits p.caps (.mdnsBrowse br.service)) ∧
      (st.mqttConfig.enabled = true → ∀ e ∈ wantedSubs b st, Stays b st e → SubApproved st e.2)
  | .opened n => ∀ s, b.network.sockets.get n = some s →
      ∃ p, wanted b s.plugin = some p ∧ s.kind.Permitted p.caps
  | _ => True

/-! ## Taking over a state -/

theorem mem_unwanted {b : EdgeBridge} {st : Desired} {id : String} :
    id ∈ unwanted b st ↔ (∃ e, b.plugins.get id = some e) ∧ st.wanted id = none := by
  rw [unwanted, List.mem_filter, OrderedMap.mem_keys_iff, Option.isNone_iff_eq_none]

/-- What is left after a state was taken over. -/
structure TakenOver (b : EdgeBridge) (st : Desired) (b' : EdgeBridge) : Prop where
  desired : b'.desired = some st
  sockets : ∀ n s, b'.network.sockets.get n = some s ↔ b.network.sockets.get n = some s ∧
    ¬ (s.ready = true ∧ Current b s.plugin s.net ∧ st.wanted s.plugin = none)
  browses : ∀ n br, b'.network.browses.get n = some br ↔
    b.network.browses.get n = some br ∧ st.wanted br.plugin ≠ none
  cfg : b'.mqtt.cfg = if b.mqtt.available then st.mqttConfig else b.mqtt.cfg
  subs : b'.mqtt.cfg = st.mqttConfig → st.mqttConfig.enabled = true →
    ∀ e, e ∈ b'.mqtt.subs.entries ↔ e ∈ wantedSubs b st ∧ Stays b st e

theorem setDesired_spec {b : EdgeBridge} (h : Owned b) (st : Desired) :
    TakenOver b st (setDesired b st) := by
  obtain ⟨c, hc⟩ : ∃ c, c = closePlugins { b with desired := some st } (unwanted b st) := ⟨_, rfl⟩
  have hclosed : Closed { b with desired := some st } (unwanted b st) c :=
    hc ▸ (closePlugins_spec (h.withDesired st) (unwanted b st)).1
  have hset : setDesired b st =
      if c.mqtt.available then { c with mqtt := Mqtt.apply c.mqtt st.mqttConfig } else c := by
    rw [setDesired, ← hc]
  have havail : c.mqtt.available = b.mqtt.available := hclosed.available
  have hsockets : ∀ n s, c.network.sockets.get n = some s ↔ b.network.sockets.get n = some s ∧
      ¬ (s.ready = true ∧ Current b s.plugin s.net ∧ st.wanted s.plugin = none) := by
    intro n s
    rw [hclosed.sockets]
    refine and_congr_right fun _ => not_congr ?_
    rw [mem_unwanted]
    constructor
    · rintro ⟨hready, ⟨_, hnone⟩, hcur⟩
      exact ⟨hready, hcur, hnone⟩
    · rintro ⟨hready, ⟨e, he, hk⟩, hnone⟩
      exact ⟨hready, ⟨⟨e, he⟩, hnone⟩, e, he, hk⟩
  have hbrowses : ∀ n br, c.network.browses.get n = some br ↔
      b.network.browses.get n = some br ∧ st.wanted br.plugin ≠ none := by
    intro n br
    rw [hclosed.browses]
    refine and_congr_right fun hb => not_congr ?_
    rw [mem_unwanted]
    rcases h.browse hb with ⟨e, he, _⟩
    exact and_iff_right ⟨e, he⟩
  have hsubs : c.mqtt.subs.entries = wantedSubs b st := by
    rw [hclosed.subs]
    refine List.filter_congr fun e he => ?_
    rw [Bool.eq_iff_iff, decide_eq_true_eq, mem_unwanted, Option.isSome_iff_ne_none]
    -- a plugin with a subscription has an entry
    have hentry := h.sub ((OrderedMap.mem_values_iff _).2 ⟨e.1, b.mqtt.subs.get_eq_some_iff.2 he⟩)
    exact not_congr (and_iff_right hentry)
  by_cases hv : b.mqtt.available = true
  · rw [hset, if_pos (havail.trans hv)]
    have hon : st.mqttConfig.enabled = true → Mqtt.apply c.mqtt st.mqttConfig =
        Mqtt.refresh (st.mqttUnder c.mqtt) := by
      intro henabled
      simp [Mqtt.apply, Desired.mqttUnder, henabled, havail.trans hv]
    refine ⟨hclosed.desired, hsockets, hbrowses, ?_, ?_⟩
    · rw [if_pos hv]
      by_cases henabled : st.mqttConfig.enabled = true
      · rw [hon henabled]
        exact (Mqtt.refresh_spec (m := st.mqttUnder c.mqtt) henabled (havail.trans hv)).1
      · simp [Mqtt.apply, henabled]
    · intro _ henabled e
      have hspec := Mqtt.refresh_spec (m := st.mqttUnder c.mqtt) henabled (havail.trans hv)
      -- nothing but the configuration is looked at
      have hcfg : (st.mqttUnder c.mqtt).cfg = (st.mqttUnder b.mqtt).cfg := rfl
      have hstays : ((e.1, e.2) ∉ Mqtt.checked (st.mqttUnder c.mqtt) c.mqtt.subs.entries ||
          Mqtt.stillAllowed (st.mqttUnder c.mqtt) e.2) = true ↔ Stays b st e := by
        rw [Stays, if_pos hv, hsubs, Mqtt.checked_congr hcfg, Mqtt.stillAllowed_congr hcfg]
        simp [imp_iff_not_or]
      rw [hon henabled, hspec.2.2.2]
      exact List.mem_filter.trans (and_congr (hsubs ▸ Iff.rfl) hstays)
  · rw [hset, if_neg (by rw [havail]; exact hv)]
    refine ⟨hclosed.desired, hsockets, hbrowses, ?_, ?_⟩
    · rw [if_neg hv]
      exact hclosed.cfg
    · intro hcfg _ e
      rw [hsubs, Stays, if_neg hv]
      exact (and_iff_left (hclosed.cfg.symm.trans hcfg)).symm

/-! ## Steps -/

namespace HeldApproved

variable {b b' : EdgeBridge}

/-- Closing takes only away. -/
theorem closed (h : HeldApproved b) {ids : List String} (hc : Closed b ids b') :
    HeldApproved b' := by
  have hwanted : ∀ id, wanted b' id = wanted b id := fun id => by rw [wanted, hc.desired, wanted]
  refine ⟨fun n s hs hready => ?_, fun n br hb => ?_, fun st hst hcfg hon s hs => ?_⟩
  · rw [hwanted]
    exact h.sockets n s ((hc.sockets n s).1 hs).1 hready
  · rw [hwanted]
    exact h.browses n br ((hc.browses n br).1 hb).1
  · rw [hc.cfg] at hcfg hon
    exact h.subs st (hc.desired.symm.trans hst) hcfg hon s (hc.mem_subs hs).1

theorem of_same (h : HeldApproved b) (hsame : Same b b') : HeldApproved b' := by
  have hwanted : ∀ id, wanted b' id = wanted b id := fun id => by rw [wanted, hsame.desired, wanted]
  refine ⟨fun n s hs hready => ?_, fun n br hb => ?_, fun st hst hcfg hon s hs => ?_⟩
  · rw [hsame.network] at hs
    rw [hwanted]
    exact h.sockets n s hs hready
  · rw [hsame.network] at hb
    rw [hwanted]
    exact h.browses n br hb
  · rcases hsame.cfg with heq | hoff
    · rw [heq] at hcfg hon
      exact h.subs st (hsame.desired.symm.trans hst) hcfg hon s (hsame.mqtt.subs s hs)
    · rw [hoff] at hon
      cases hon

/-- Fewer sockets, and all else as it was. -/
theorem of_subset (h : HeldApproved b) {w' : Network} {ns : OrderedMap Nat PluginNet}
    (hs : ∀ n s, w'.sockets.get n = some s → s.ready = true → b.network.sockets.get n = some s)
    (hb : w'.browses = b.network.browses) : HeldApproved { b with nets := ns, network := w' } := by
  refine ⟨fun n s hn hready => h.sockets n s (hs n s hn hready) hready, fun n br hn => ?_, h.subs⟩
  change w'.browses.get n = some br at hn
  rw [hb] at hn
  exact h.browses n br hn

/-- A call opens only what is approved. -/
theorem called (h : HeldApproved b) (hb : Owned b) {plugin : String} {caps : Caps} {o : Outcome}
    {p : PluginState} (hp : wanted b plugin = some p) (hcaps : caps.Within p.caps)
    (hc : Called b plugin caps o) : HeldApproved o.bridge := by
  cases hc with
  | @net e net net' w' he hnet hch hbr hf =>
      -- the plugin that calls is the one its `PluginNet` opens for
      have hid : net.pluginId = plugin := by
        rcases hb.entry he with ⟨net₀, hnet₀, hid₀⟩
        obtain rfl : net = net₀ := Option.some.inj (hnet.symm.trans hnet₀)
        exact hid₀
      rw [hbr]
      refine ⟨fun n s hs hready => ?_, fun n br hn => ?_, h.subs⟩
      · rcases hch.socket_cases hs with hold | ⟨_, _, hplugin, hperm⟩
        · exact h.sockets n s hold hready
        · rw [hplugin, hid]
          exact ⟨p, hp, hperm.of_within hcaps⟩
      · rcases hch.browse_cases hn with hold | ⟨_, hplugin, hperm⟩
        · exact h.browses n br hold
        · rw [hplugin, hid]
          exact ⟨p, hp, hperm.of_within hcaps⟩
  | @mqtt c hbr hf =>
      rw [hbr]
      refine ⟨h.sockets, h.browses, ?_⟩
      intro st hst hcfg hon s hs
      have hsame : (Mqtt.pluginCall b.mqtt plugin caps.mqtt c).manager.cfg = b.mqtt.cfg :=
        Mqtt.pluginCall_cfg ..
      rw [hsame] at hcfg hon
      rcases Mqtt.pluginCall_cases b.mqtt plugin caps.mqtt c with
        ⟨_, hshrink⟩ | ⟨f, _, _, ⟨a, ha, hcov⟩, hsubs⟩
      · exact h.subs st hst hcfg hon s (hshrink.subs s hs)
      · rcases hsubs s hs with rfl | hold
        · -- the filter is below one that both sides allow
          have hown := ha.own
          have hst' : b.desired = some st := hst
          have hp' : st.wanted plugin = some p := by
            rw [wanted, hst'] at hp
            exact hp
          refine ⟨p, hp', a, ?_, ?_, hcov⟩
          · cases hl : caps.mqtt with
            | none =>
                rw [hl] at hown
                cases hown
            | some l =>
                rcases hcaps.mqtt l hl with ⟨t, ht, hsub⟩
                rw [hl] at hown
                rw [ht]
                exact hsub a hown
          · -- MQTT is on, so the plugin may use it on this gateway
            have hedge : st.mqttConfig = st.mqtt := by
              unfold Desired.mqttConfig
              split
              · rfl
              · rename_i hedge
                rw [hcfg, Desired.mqttConfig, if_neg hedge] at hon
                cases hon
            rw [← hedge, ← hcfg]
            exact ha.granted
        · exact h.subs st hst hcfg hon s hold
  | refused hbr hf =>
      rw [hbr]
      exact h

theorem onRpc (h : HeldApproved b) (hb : Owned b) (env : Platform) (m : Json)
    (reply : Option Mqtt.MqttError) : HeldApproved (onRpc env b m reply).bridge := by
  cases onRpc_message hb m reply with
  | ignored hbr _ =>
      rw [hbr]
      exact ⟨h.sockets, h.browses, h.subs⟩
  | closed hbr _ =>
      rw [hbr]
      exact h.closed (closePlugin_spec hb _).1
  | @call i plugin p caps hp hcaps hc =>
      have hwanted : ∀ id, wanted (enter { b with inflight := i } plugin caps) id = wanted b id :=
        fun id => by rw [wanted, enter_desired, wanted]
      have hheld : HeldApproved (enter { b with inflight := i } plugin caps) := by
        refine ⟨fun n s hs hready => ?_, fun n br hn => ?_, fun st hst => ?_⟩
        · rw [enter_network] at hs
          rw [hwanted]
          exact h.sockets n s hs hready
        · rw [enter_network] at hn
          rw [hwanted]
          exact h.browses n br hn
        · rw [enter_mqtt]
          rw [enter_desired] at hst
          exact h.subs st hst
      exact hheld.called ((hb.withInflight i).enter plugin caps) ((hwanted plugin).trans hp) hcaps
        hc

theorem setDesired (hb : Owned b) {st : Desired} (hok : Spares b (.setDesired st)) :
    HeldApproved (setDesired b st) := by
  have hspec := setDesired_spec hb st
  have hwanted : ∀ id, wanted (Bridge.setDesired b st) id = st.wanted id := fun id => by
    rw [wanted, hspec.desired]
    rfl
  rcases hok with ⟨hsockets, hbrowses, hsubs⟩
  refine ⟨fun n s hs hready => ?_, fun n br hn => ?_, fun st' hst hcfg hon s hs => ?_⟩
  · rcases (hspec.sockets n s).1 hs with ⟨hold, hno⟩
    rw [hwanted]
    exact hsockets n s hold hready fun hcl => hno ⟨hready, hcl⟩
  · rcases (hspec.browses n br).1 hn with ⟨hold, hwant⟩
    rcases Option.ne_none_iff_exists'.1 hwant with ⟨p, hp⟩
    rw [hwanted]
    exact ⟨p, hp, hbrowses n br p hold hp⟩
  · rw [hspec.desired] at hst
    cases hst
    rw [hcfg] at hon
    rcases (OrderedMap.mem_values_iff _).1 hs with ⟨k, hk⟩
    rcases (hspec.subs hcfg hon (k, s)).1 ((OrderedMap.get_eq_some_iff _).1 hk) with
      ⟨hwant, hstays⟩
    exact hsubs hon (k, s) hwant hstays

end HeldApproved

theorem step_held {env : Platform} {b b' : EdgeBridge} {a : Action} (hb : Owned b)
    (h : HeldApproved b) (hok : Spares b a) (hs : step env b a = some b') : HeldApproved b' := by
  by_cases ha : Main a
  · cases a with
    | setDesired st =>
        cases hs
        exact .setDesired hb hok
    | rpc m reply =>
        cases hs
        exact h.onRpc hb env m reply
    | opened n =>
        rcases step_opened hs with ⟨s, net, hn, _, _, rfl⟩
        refine ⟨fun m t hm hready => ?_, h.browses, h.subs⟩
        rcases OrderedMap.get_set_cases hm with ⟨rfl, rfl⟩ | ⟨_, hold⟩
        · exact hok s hn
        · exact h.sockets m t hold hready
    | failed n =>
        rcases step_failed hs with ⟨s, _, _, rfl⟩
        exact h.of_subset (fun m t hm _ => Network.get_of_closeSocket hm) rfl
    | peerClosed n =>
        rcases step_peerClosed hs with ⟨s, net, _, _, _, _, rfl⟩
        exact h.of_subset (fun m t hm _ => Network.get_of_closeSocket hm) rfl
    | _ => cases ha
  · rcases step_other ha hs with ⟨ids, hsame⟩
    exact (h.closed (closePlugins_spec hb ids).1).of_same hsame

/-- What a step withdraws without closing it shows at once. -/
theorem spares_of_held {env : Platform} {b b' : EdgeBridge} {a : Action} (hb : Owned b)
    (hs : step env b a = some b') (h : HeldApproved b') : Spares b a := by
  cases a with
  | setDesired st =>
      cases hs
      have hspec := setDesired_spec hb st
      have hwanted : ∀ id, wanted (setDesired b st) id = st.wanted id := fun id => by
        rw [wanted, hspec.desired]
        rfl
      refine ⟨fun n s hn hready hno => ?_, fun n br p hn hp => ?_, fun hon e hwant hstays => ?_⟩
      · -- what the new state does not close is still there, and approved
        have hkept := (hspec.sockets n s).2 ⟨hn, fun hcl => hno hcl.2⟩
        rw [← hwanted]
        exact h.sockets n s hkept hready
      · have hkept := (hspec.browses n br).2 ⟨hn, by rw [hp]; simp⟩
        rcases h.browses n br hkept with ⟨p', hp', hperm⟩
        rw [hwanted, hp] at hp'
        cases hp'
        exact hperm
      · -- the subscriptions that stay are those of the new configuration
        have hcfg : (setDesired b st).mqtt.cfg = st.mqttConfig := by
          rw [hspec.cfg]
          split
          · rfl
          · rename_i hv
            rw [Stays, if_neg hv] at hstays
            exact hstays
        have hkept := (hspec.subs hcfg hon e).2 ⟨hwant, hstays⟩
        exact h.subs st hspec.desired hcfg (hcfg ▸ hon) e.2
          ((OrderedMap.mem_values_iff _).2 ⟨e.1, (OrderedMap.get_eq_some_iff _).2 hkept⟩)
  | opened n =>
      rcases step_opened hs with ⟨s, net, hn, _, _, rfl⟩
      intro t ht
      rw [hn] at ht
      cases ht
      exact h.sockets n { s with ready := true } (OrderedMap.get_set_self ..) rfl
  | _ => trivial

/-- The invariant of the runs in which nothing is withdrawn that is used. -/
structure Faithful (b : EdgeBridge) : Prop where
  owned : Owned b
  held : HeldApproved b

theorem step_faithful {env : Platform} {b b' : EdgeBridge} {a : Action} (h : Faithful b)
    (hok : Spares b a) (hs : step env b a = some b') : Faithful b' :=
  ⟨step_owned env b a b' h.owned hs, step_held h.owned h.held hok hs⟩

/-- The plugin connects to a device while it may. -/
def connected : List Action :=
  [.setDesired (lampState { tcp := some true }), .rpcOpen,
    .rpc (lampCall "tcp.connect" [("tcp", jsonOf [("lan", .bool true)])]
      [("host", .str "192.168.1.5".toList), ("port", .num 80)]) none, .opened 0]

end Bridge
end Edge
end GateControl
