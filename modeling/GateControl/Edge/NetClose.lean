import GateControl.Edge.Ownership

/-!
# NetClose — whether closing the network of a plugin is complete

`closeAll` closes what the maps of a `PluginNet` name.  A bind or a connection that is still on its
way stands in none of them; when it succeeds afterwards, it is registered with the closed
`PluginNet`, and nobody closes it any more.  The next `PluginNet` of the plugin counts its ids from
the start, so that the messages of the old socket come under an id that now means another one.
`closed_for_good` says that this is the only way: a run keeps what is ready with the current
`PluginNet` of its plugin if and only if no bind or connection succeeds too late.
-/

namespace GateControl
namespace Edge
namespace Bridge

open Library

/-- No bind or connection succeeds after its `PluginNet` was closed. -/
def InTime (b : EdgeBridge) : Action → Prop
  | .opened n => ∀ s, b.network.sockets.get n = some s → Current b s.plugin s.net
  | _ => True

/-- What is ready belongs to the current `PluginNet` of its plugin. -/
def Live (b : EdgeBridge) : Prop :=
  ∀ n s, b.network.sockets.get n = some s → s.ready = true → Current b s.plugin s.net

/-- No socket of a closed `PluginNet` is open, those apart that are still on their way; and a message
from a socket reaches its plugin under the id that the current `PluginNet` has given this socket. -/
structure ClosedForGood (env : Platform) (b : EdgeBridge) : Prop where
  live : Live b
  pushes : ∀ a p n, p ∈ pushes env b a → p.source = .socket n →
    ∃ e net t, b.plugins.get p.plugin = some e ∧ b.nets.get e.net = some net ∧
      net.named t p.id = some n

namespace Live

variable {b b' : EdgeBridge}

theorem closed (h : Live b) {ids : List String} (hc : Closed b ids b') : Live b' := by
  intro n s hs hready
  rcases (hc.sockets n s).1 hs with ⟨hold, hno⟩
  have hcur := h n s hold hready
  refine (hc.current _ _).2 ⟨hcur, fun hid => hno ⟨hready, hid, hcur⟩⟩

theorem of_same (h : Live b) (hsame : Same b b') : Live b' := by
  intro n s hs hready
  rw [hsame.network] at hs
  rcases h n s hs hready with ⟨e, he, hk⟩
  exact ⟨e, by rw [hsame.plugins, he], hk⟩

/-- Fewer sockets, with the same entries. -/
theorem of_subset (h : Live b) (hplugins : b'.plugins = b.plugins)
    (hs : ∀ n s, b'.network.sockets.get n = some s → b.network.sockets.get n = some s) :
    Live b' := by
  intro n s hn hready
  rcases h n s (hs n s hn) hready with ⟨e, he, hk⟩
  exact ⟨e, by rw [hplugins, he], hk⟩

theorem called (h : Live b) {plugin : String} {caps : Caps} {o : Outcome} (hb : Owned b)
    (hc : Called b plugin caps o) : Live o.bridge := by
  cases hc with
  | @net e net net' w' he hnet hc hbr hf =>
      rw [hbr]
      intro n s hs hready
      rcases hc.socket_cases hs with hold | ⟨_, hk, hid, _⟩
      · exact h n s hold hready
      · -- a socket that the call creates is one of the current `PluginNet`
        rcases hb.entry he with ⟨net₀, hnet₀, hid₀⟩
        obtain rfl : net = net₀ := Option.some.inj (hnet.symm.trans hnet₀)
        refine ⟨e, ?_, hk.symm⟩
        rw [hid, hid₀]
        exact he
  | mqtt hbr hf =>
      rw [hbr]
      exact h
  | refused hbr hf =>
      rw [hbr]
      exact h

theorem setDesired (h : Live b) (hb : Owned b) (st : Desired) : Live (setDesired b st) := by
  have hlive : Live { b with desired := some st } := h
  rcases setDesired_eq b st with ⟨m, heq, _⟩
  have hclosed := hlive.closed (closePlugins_spec (hb.withDesired st) (unwanted b st)).1
  rw [heq]
  exact hclosed

theorem onRpc (h : Live b) (hb : Owned b) (env : Platform) (m : Json)
    (reply : Option Mqtt.MqttError) : Live (onRpc env b m reply).bridge := by
  cases onRpc_message hb m reply with
  | ignored hbr _ =>
      rw [hbr]
      exact h
  | closed hbr _ =>
      rw [hbr]
      exact h.closed (closePlugin_spec hb _).1
  | @call i plugin p caps hp hcaps hc =>
      have hi := hb.withInflight i
      have hlive : Live (enter { b with inflight := i } plugin caps) := by
        intro n s hs hready
        rw [enter_network] at hs
        have hcur : Current { b with inflight := i } s.plugin s.net := h n s hs hready
        exact hcur.enter plugin caps
      exact hlive.called (hi.enter plugin caps) hc

end Live

/-- A step that is in time keeps what is ready with the current `PluginNet`. -/
theorem step_live {env : Platform} {b b' : EdgeBridge} {a : Action} (hb : Owned b) (h : Live b)
    (hok : InTime b a) (hs : step env b a = some b') : Live b' := by
  by_cases ha : Main a
  · cases a with
    | setDesired st =>
        cases hs
        exact h.setDesired hb st
    | rpc m reply =>
        cases hs
        exact h.onRpc hb env m reply
    | opened n =>
        rcases step_opened hs with ⟨s, net, hn, _, _, rfl⟩
        intro m t hm hready
        rcases OrderedMap.get_set_cases hm with ⟨rfl, rfl⟩ | ⟨_, hold⟩
        · exact hok s hn
        · exact h m t hold hready
    | failed n =>
        rcases step_failed hs with ⟨s, _, _, rfl⟩
        exact h.of_subset rfl fun m t hm => Network.get_of_closeSocket hm
    | peerClosed n =>
        rcases step_peerClosed hs with ⟨s, net, _, _, _, _, rfl⟩
        exact h.of_subset rfl fun m t hm => Network.get_of_closeSocket (n := n) hm
    | _ => cases ha
  · rcases step_other ha hs with ⟨ids, hsame⟩
    exact (h.closed (closePlugins_spec hb ids).1).of_same hsame

/-- The invariant of the runs in which nothing succeeds too late. -/
structure Tidy (b : EdgeBridge) : Prop where
  owned : Owned b
  live : Live b

theorem step_tidy {env : Platform} {b b' : EdgeBridge} {a : Action} (h : Tidy b)
    (hok : InTime b a) (hs : step env b a = some b') : Tidy b' :=
  ⟨step_owned env b a b' h.owned hs, step_live h.owned h.live hok hs⟩

/-- A late success shows at once. -/
theorem inTime_of_live {env : Platform} {b b' : EdgeBridge} {a : Action}
    (hs : step env b a = some b') (h : Live b') : InTime b a := by
  cases a with
  | opened n =>
      rcases step_opened hs with ⟨s, net, hn, _, _, rfl⟩
      intro t ht
      rw [hn] at ht
      cases ht
      exact h n { s with ready := true } (OrderedMap.get_set_self ..) rfl
  | _ => trivial

/-- With everything ready in its place, messages come under the right ids. -/
theorem closedForGood_of_live {env : Platform} {b : EdgeBridge} (hb : Owned b) (h : Live b) :
    ClosedForGood env b := by
  refine ⟨h, ?_⟩
  have hid : ∀ {n s}, b.network.sockets.get n = some s → s.ready = true →
      ∃ e net t, b.plugins.get s.plugin = some e ∧ b.nets.get e.net = some net ∧
        net.named t s.id = some n := by
    intro n s hs hready
    rcases h n s hs hready with ⟨e, he, hk⟩
    rcases hb.entry he with ⟨net, hnet, _⟩
    exact ⟨e, net, _, he, hnet, ((hb.nets hnet).socket hs hk.symm).2.2.2.2 hready⟩
  intro a p n hp hsource
  unfold pushes at hp
  split at hp
  · cases hp
  · cases a with
    | event m sender =>
        simp only at hp
        split at hp
        · rename_i s hs
          split at hp
          · rename_i hcond
            rw [List.mem_singleton.1 hp] at hsource ⊢
            cases hsource
            exact hid hs (Bool.and_eq_true_iff.1 hcond).1
          · cases hp
        · cases hp
    | peerClosed m =>
        simp only at hp
        split at hp
        · rename_i s hs
          split at hp
          · rename_i hcond
            rw [List.mem_singleton.1 hp] at hsource ⊢
            cases hsource
            exact hid hs (Bool.and_eq_true_iff.1 (Bool.and_eq_true_iff.1 hcond).1).1
          · cases hp
        · cases hp
    | found m ip =>
        simp only at hp
        split at hp
        · split at hp
          · rw [List.mem_singleton.1 hp] at hsource
            cases hsource
          · cases hp
        · cases hp
    | message topic =>
        simp only at hp
        split at hp
        · rcases List.mem_map.1 hp with ⟨d, _, rfl⟩
          cases hsource
        · cases hp
    | _ => cases hp

/-- **Complete closing.**  A run keeps every ready socket with the current `PluginNet` of its plugin,
and every message under the id that means its socket, if and only if no bind or connection succeeds
after its `PluginNet` was closed. -/
theorem closed_for_good (env : Platform) {guard : LanGuard} {mdns volume : Bool}
    {as : List Action} {b : EdgeBridge}
    (hrun : exec (step env) (new guard mdns volume) as = some b) :
    Throughout (step env) (ClosedForGood env) (new guard mdns volume) as ↔
      Admits (step env) InTime (new guard mdns volume) as := by
  constructor
  · intro h
    exact admits_of_throughout (step_owned env)
      (fun s a s' _ hs hP => inTime_of_live hs hP.live) (.init guard mdns volume) hrun h
  · intro h
    have hinit : Tidy (new guard mdns volume) := ⟨.init guard mdns volume, fun n s hs => by cases hs⟩
    exact throughout_of_admits (fun _ _ _ => step_tidy)
      (fun _ hinv => closedForGood_of_live hinv.owned hinv.live) hinit h

/-- A bind that is on its way when the plugin is closed. -/
def lateBind : List Action :=
  portsApproved ++ [bindPort 5000, .rpc lampClose none, bindPort 5001, .opened 1, .opened 0]

/-- Nothing is on its way any more, but the port of the closed `PluginNet` is bound; a datagram to it
reaches the plugin under the id of its other port. -/
theorem late_bind_heard :
    ∃ b, exec (step demoPlatform) (new homeGuard false false) lateBind = some b ∧
      (∀ s ∈ b.network.sockets.values, s.ready = true) ∧
      b.network.sockets.get 0 = some ⟨"lamp", 0, 1, .udp 5000 [], true⟩ ∧
      (∃ e net, b.plugins.get "lamp" = some e ∧ e.net = 1 ∧ b.nets.get 1 = some net ∧
        net.named .udp 1 = some 1) ∧
      pushes demoPlatform b (.event 0 "192.168.1.7".toList) = [⟨"lamp", 1, .socket 0⟩] ∧
      ¬ ClosedForGood demoPlatform b := by
  have hrun : (exec (step demoPlatform) (new homeGuard false false) lateBind).any (fun b =>
      decide (∀ s ∈ b.network.sockets.values, s.ready = true) &&
        decide (b.network.sockets.get 0 = some ⟨"lamp", 0, 1, .udp 5000 [], true⟩) &&
        ((b.plugins.get "lamp").any fun e => e.net = 1) &&
        ((b.nets.get 1).any fun net => net.named .udp 1 = some 1) &&
        decide (pushes demoPlatform b (.event 0 "192.168.1.7".toList) =
          [⟨"lamp", 1, .socket 0⟩])) = true := by
    decide +kernel
  rcases (Option.any_eq_true ..).1 hrun with ⟨b, hb, hbad⟩
  simp only [Bool.and_eq_true, decide_eq_true_eq, Option.any_eq_true] at hbad
  rcases hbad with ⟨⟨⟨⟨hready, hold⟩, e, he, hk⟩, net, hnet, hname⟩, hpush⟩
  refine ⟨b, hb, hready, hold, ⟨e, net, he, hk, hnet, hname⟩, hpush, fun hgood => ?_⟩
  rcases hgood.live 0 _ hold rfl with ⟨e', he', hk'⟩
  rw [he] at he'
  cases he'
  rw [hk] at hk'
  cases hk'

/-- The bind has succeeded before the plugin is closed. -/
theorem closed_for_good_in_time :
    (exec (step demoPlatform) (new homeGuard false false)
        (portsApproved ++ [bindPort 5000, .opened 0, .rpc lampClose none, bindPort 5001,
          .opened 1])).isSome = true ∧
      Throughout (step demoPlatform) (ClosedForGood demoPlatform) (new homeGuard false false)
        (portsApproved ++ [bindPort 5000, .opened 0, .rpc lampClose none, bindPort 5001,
          .opened 1]) := by
  have hrun : (exec (step demoPlatform) (new homeGuard false false)
      (portsApproved ++ [bindPort 5000, .opened 0, .rpc lampClose none, bindPort 5001,
        .opened 1])).isSome = true := by
    decide +kernel
  rcases Option.isSome_iff_exists.1 hrun with ⟨b, hb⟩
  refine ⟨hrun, (closed_for_good demoPlatform hb).2 ?_⟩
  have hcheck : checkRun (step demoPlatform) (fun b a => match a with
      | .opened n => (b.network.sockets.get n).all fun s =>
          (b.plugins.get s.plugin).any fun e => e.net = s.net
      | _ => true) (new homeGuard false false)
      (portsApproved ++ [bindPort 5000, .opened 0, .rpc lampClose none, bindPort 5001,
        .opened 1]) = true := by
    decide +kernel
  refine admits_of_checkRun ?_ hcheck
  intro b a htest
  cases a with
  | opened n =>
      intro s hs
      simp only [hs, Option.all_some, Option.any_eq_true, decide_eq_true_eq] at htest
      exact htest
  | _ => trivial

end Bridge
end Edge
end GateControl
