import GateControl.Edge.Ownership

/-!
# Confinement — what a compromised edge host can reach

The edge host may send anything.  `confined` says that, whatever happened before, every effect of a
message is approved by the desired state in force, and that every address it goes to passed the
guard.  A port that is bound later, with its groups, and a connection that comes about later are
those of their call: `opened_confined` follows a socket to the end of the run.
-/

namespace GateControl
namespace Edge
namespace Bridge

open Library

/-- The desired state in force approves the effect for the plugin, on its own. -/
def ApprovedNow (b : EdgeBridge) (plugin : String) (f : Effect) : Prop :=
  ∃ st p, b.desired = some st ∧ st.edgeEnabled = true ∧
    st.plugins.find? (fun x => x.id = plugin) = some p ∧ p.enabled = true ∧ p.capsError = none ∧
    Confined b.guard p.caps f

theorem wanted_eq_some {b : EdgeBridge} {plugin : String} {p : PluginState}
    (h : wanted b plugin = some p) :
    ∃ st, b.desired = some st ∧ st.edgeEnabled = true ∧
      st.plugins.find? (fun x => x.id = plugin) = some p ∧ p.enabled = true ∧
      p.capsError = none := by
  rcases Option.bind_eq_some_iff.1 h with ⟨st, hst, h⟩
  unfold Desired.wanted at h
  split at h
  · cases h
  · rename_i hedge
    split at h
    · rename_i q hq
      split at h
      · rename_i hon
        cases h
        simp only [Bool.and_eq_true, Option.isNone_iff_eq_none] at hon
        exact ⟨st, hst, by simpa using hedge, hq, hon.1, hon.2⟩
      · cases h
    · cases h

theorem Confined.of_within {guard : LanGuard} {c a : Caps} (h : c.Within a) {f : Effect}
    (hf : Confined guard c f) : Confined guard a f :=
  ⟨hf.permits.of_within h, hf.target⟩

/-- What the broker is asked for is approved by the capabilities of the call. -/
theorem mqttEffects_confined {m : Mqtt.MqttManager} {plugin : String} {caps : Caps} {c : Mqtt.Call}
    {guard : LanGuard} {f : Effect}
    (hf : f ∈ mqttEffects plugin (Mqtt.pluginCall m plugin caps.mqtt c)) :
    Confined guard caps f := by
  unfold mqttEffects at hf
  rcases List.mem_append.1 hf with hsent | hentered
  · rcases Option.map_eq_some_iff.1 (Option.mem_toList.1 hsent) with ⟨t, ht, rfl⟩
    rcases Mqtt.sent_allowed ht with ⟨a, ha, hm⟩
    refine ⟨⟨a, ha.own, hm⟩, ?_⟩
    rintro host ⟨⟩
  · rcases Option.map_eq_some_iff.1 (Option.mem_toList.1 hentered) with ⟨s, hs, rfl⟩
    rcases Option.bind_eq_some_iff.1 hs with ⟨i, hi, hget⟩
    rcases Mqtt.entered_allowed hi with ⟨s', hs', a, ha, hcov⟩
    obtain rfl : s' = s := Option.some.inj (hs'.symm.trans hget)
    refine ⟨⟨a, ha.own, hcov⟩, ?_⟩
    rintro host ⟨⟩

theorem called_confined {b : EdgeBridge} {plugin : String} {caps : Caps} {o : Outcome}
    (h : Called b plugin caps o) {f : String × Effect} (hf : f ∈ o.effects) :
    f.1 = plugin ∧ Confined b.guard caps f.2 := by
  cases h with
  | net _ _ _ _ heff => exact heff f hf
  | mqtt _ heff =>
      rw [heff] at hf
      rcases List.mem_map.1 hf with ⟨g, hg, rfl⟩
      exact ⟨rfl, mqttEffects_confined hg⟩
  | refused _ heff =>
      rw [heff] at hf
      cases hf

/-- Every effect of a message is approved. -/
theorem effects_approved {env : Platform} {b : EdgeBridge} (h : Owned b) {m : Json}
    {reply : Option Mqtt.MqttError} {f : String × Effect} (hf : f ∈ (onRpc env b m reply).effects) :
    ApprovedNow b f.1 f.2 := by
  cases onRpc_message h m reply with
  | ignored _ he =>
      rw [he] at hf
      cases hf
  | closed _ he =>
      rw [he] at hf
      cases hf
  | call hp hcaps hc =>
      rcases called_confined hc hf with ⟨rfl, hconf⟩
      rcases wanted_eq_some hp with ⟨st, hst, hedge, hfind, hon, herr⟩
      rw [enter_guard] at hconf
      exact ⟨st, _, hst, hedge, hfind, hon, herr, Confined.of_within hcaps hconf⟩

/-! ## Sockets to the end of a run -/

variable {b : EdgeBridge} {plugin : String} {kind : SocketKind} {n : Nat}

/-- The socket `n` is, or was, this plugin's and of this kind. -/
structure Tracked (n : Nat) (plugin : String) (kind : SocketKind) (b : EdgeBridge) : Prop where
  owned : Owned b
  used : n < b.network.nextSocket
  same : ∀ s, b.network.sockets.get n = some s → s.plugin = plugin ∧ s.kind = kind

theorem Tracked.of_subset {b' : EdgeBridge} (h : Tracked n plugin kind b) (ho : Owned b')
    (hnext : b'.network.nextSocket = b.network.nextSocket)
    (hs : ∀ s, b'.network.sockets.get n = some s → b.network.sockets.get n = some s) :
    Tracked n plugin kind b' :=
  ⟨ho, hnext.symm ▸ h.used, fun s hn => h.same s (hs s hn)⟩

theorem Tracked.closed {b' : EdgeBridge} {ids : List String} (h : Tracked n plugin kind b)
    (hc : Closed b ids b') (ho : Owned b') : Tracked n plugin kind b' :=
  h.of_subset ho hc.nextSocket fun s hs => ((hc.sockets n s).1 hs).1

theorem Tracked.called {plugin' : String} {caps : Caps} {o : Outcome} (h : Tracked n plugin kind b)
    (hc : Called b plugin' caps o) (ho : Owned o.bridge) : Tracked n plugin kind o.bridge := by
  cases hc with
  | net he hnet hch hbr _ =>
      rw [hbr] at ho ⊢
      refine ⟨ho, Nat.lt_of_lt_of_le h.used hch.nextSocket_le, fun s hs => ?_⟩
      rcases hch.socket_cases hs with hold | ⟨hnew, _⟩
      · exact h.same s hold
      · exact absurd hnew (Nat.ne_of_lt h.used)
  | mqtt hbr _ =>
      rw [hbr] at ho ⊢
      exact h.of_subset ho rfl fun _ hs => hs
  | refused hbr _ =>
      rw [hbr]
      exact h

theorem Tracked.onRpc {env : Platform} (h : Tracked n plugin kind b) (m : Json)
    (reply : Option Mqtt.MqttError) : Tracked n plugin kind (onRpc env b m reply).bridge := by
  have ho : Owned (Bridge.onRpc env b m reply).bridge := h.owned.onRpc m reply
  have hmsg : Message b (Bridge.onRpc env b m reply) := onRpc_message h.owned m reply
  cases hmsg with
  | ignored hbr _ =>
      rw [hbr] at ho ⊢
      exact h.of_subset ho rfl fun _ hs => hs
  | closed hbr _ =>
      rw [hbr] at ho ⊢
      exact h.closed (closePlugin_spec h.owned _).1 ho
  | @call i plugin' p caps hp hcaps hc =>
      have hi := h.owned.withInflight i
      refine Tracked.called (b := enter { b with inflight := i } plugin' caps) ?_ hc ho
      exact h.of_subset (hi.enter plugin' caps) (by rw [enter_network]) fun s hs => by
        rwa [enter_network] at hs

theorem step_tracked (env : Platform) (b : EdgeBridge) (a : Action) (b' : EdgeBridge)
    (h : Tracked n plugin kind b) (hs : step env b a = some b') : Tracked n plugin kind b' := by
  have ho := step_owned env b a b' h.owned hs
  by_cases ha : Main a
  · cases a with
    | setDesired st =>
        cases hs
        have hst := h.owned.withDesired st
        have htrack : Tracked n plugin kind { b with desired := some st } :=
          h.of_subset hst rfl fun _ hs => hs
        rcases closePlugins_spec hst (unwanted b st) with ⟨hclosed, howned⟩
        rcases setDesired_eq b st with ⟨m, heq, _⟩
        rw [heq] at ho ⊢
        exact (htrack.closed hclosed howned).of_subset ho rfl fun _ hs => hs
    | rpc m reply =>
        cases hs
        exact h.onRpc m reply
    | opened m =>
        rcases step_opened hs with ⟨s, net, hm, _, _, rfl⟩
        refine ⟨ho, h.used, fun t ht => ?_⟩
        -- getting ready changes neither the plugin nor the kind
        rcases OrderedMap.get_set_cases ht with ⟨rfl, rfl⟩ | ⟨_, hold⟩
        · exact h.same s hm
        · exact h.same t hold
    | failed m =>
        rcases step_failed hs with ⟨s, _, _, rfl⟩
        exact h.of_subset ho rfl fun _ hs => Network.get_of_closeSocket hs
    | peerClosed m =>
        rcases step_peerClosed hs with ⟨s, net, _, _, _, _, rfl⟩
        exact h.of_subset ho rfl fun _ hs => Network.get_of_closeSocket hs
    | _ => cases ha
  · rcases step_other ha hs with ⟨ids, hsame⟩
    rcases closePlugins_spec h.owned ids with ⟨hclosed, howned⟩
    refine (h.closed hclosed howned).of_subset ho (by rw [hsame.network]) fun s hs => ?_
    rwa [hsame.network] at hs

/-- A socket that a message creates is approved. -/
theorem opened_approved {env : Platform} (h : Owned b) {m : Json} {reply : Option Mqtt.MqttError}
    {s : Socket} (hn : b.network.nextSocket ≤ n)
    (hs : (onRpc env b m reply).bridge.network.sockets.get n = some s) :
    ∃ p, wanted b s.plugin = some p ∧ s.kind.Permitted p.caps := by
  have hnew : b.network.sockets.get n ≠ some s := by
    intro hold
    have hlt := h.numbered.socket hold
    omega
  cases onRpc_message h m reply with
  | ignored hbr _ =>
      rw [hbr] at hs
      exact absurd hs hnew
  | closed hbr _ =>
      rw [hbr] at hs
      exact absurd (((closePlugin_spec h _).1.sockets n s).1 hs).1 hnew
  | @call i plugin p caps hp hcaps hc =>
      have hi := (h.withInflight i).enter plugin caps
      cases hc with
      | net he hnet hch hbr _ =>
          rw [hbr] at hs
          rcases hch.socket_cases hs with hold | ⟨_, _, hid, hperm⟩
          · rw [enter_network] at hold
            exact absurd hold hnew
          · rcases hi.entry he with ⟨net₀, hnet₀, hid₀⟩
            rw [hnet] at hnet₀
            cases hnet₀
            rw [hid, hid₀]
            exact ⟨p, hp, hperm.of_within hcaps⟩
      | mqtt hbr _ =>
          rw [hbr, enter_network] at hs
          exact absurd hs hnew
      | refused hbr _ =>
          rw [hbr, enter_network] at hs
          exact absurd hs hnew

/-- **Confinement.**  After any run, every effect of any message is approved by the desired state in
force, and goes to nobody but targets of the LAN and approved groups; and a socket that the message
creates is approved at the message and stays what it is, however the run goes on. -/
theorem confined (env : Platform) {guard : LanGuard} {mdns volume : Bool} {as : List Action}
    {b : EdgeBridge} (hrun : exec (step env) (new guard mdns volume) as = some b) (m : Json)
    (reply : Option Mqtt.MqttError) :
    (∀ f ∈ (onRpc env b m reply).effects, ApprovedNow b f.1 f.2) ∧
      ∀ n s, b.network.nextSocket ≤ n →
        (onRpc env b m reply).bridge.network.sockets.get n = some s →
        (∃ p, wanted b s.plugin = some p ∧ s.kind.Permitted p.caps) ∧
        ∀ as' b', exec (step env) (onRpc env b m reply).bridge as' = some b' →
          ∀ s', b'.network.sockets.get n = some s' → s'.plugin = s.plugin ∧ s'.kind = s.kind := by
  have hb := owned_of_run hrun
  refine ⟨fun f hf => effects_approved hb hf, fun n s hn hs => ⟨opened_approved hb hn hs, ?_⟩⟩
  intro as' b' hrun' s' hs'
  have ho : Owned (onRpc env b m reply).bridge := hb.onRpc m reply
  have hstart : Tracked n s.plugin s.kind (onRpc env b m reply).bridge := by
    refine ⟨ho, ho.numbered.socket hs, fun t ht => ?_⟩
    obtain rfl : t = s := Option.some.inj (ht.symm.trans hs)
    exact ⟨rfl, rfl⟩
  exact (exec_invariant (step_tracked env) hstart hrun').same s' hs'

/-- The edge host claims a port that the server has not approved, and one that it has. -/
theorem confined_bind :
    (∃ b, exec (step demoPlatform) (new homeGuard false false) portsApproved = some b ∧
      (onRpc demoPlatform b (lampCall "udp.bind"
        [("udp", jsonOf [("ports", .arr [.num 5000, .num 6000])])] [("port", .num 5000)])
        none).effects = [("lamp", .udpBind 5000 [])] ∧
      (onRpc demoPlatform b (lampCall "udp.bind"
        [("udp", jsonOf [("ports", .arr [.num 5000, .num 6000])])] [("port", .num 6000)])
        none).effects = [] ∧
      ApprovedNow b "lamp" (.udpBind 5000 [])) := by
  have hrun : (exec (step demoPlatform) (new homeGuard false false) portsApproved).any (fun b =>
      decide ((onRpc demoPlatform b (lampCall "udp.bind"
        [("udp", jsonOf [("ports", .arr [.num 5000, .num 6000])])] [("port", .num 5000)])
        none).effects = [("lamp", .udpBind 5000 [])]) &&
      decide ((onRpc demoPlatform b (lampCall "udp.bind"
        [("udp", jsonOf [("ports", .arr [.num 5000, .num 6000])])] [("port", .num 6000)])
        none).effects = [])) = true := by
    decide +kernel
  rcases (Option.any_eq_true ..).1 hrun with ⟨b, hb, htest⟩
  simp only [Bool.and_eq_true, decide_eq_true_eq] at htest
  refine ⟨b, hb, htest.1, htest.2, ?_⟩
  exact (confined demoPlatform hb _ none).1 ("lamp", .udpBind 5000 []) (by rw [htest.1]; simp)

end Bridge
end Edge
end GateControl
