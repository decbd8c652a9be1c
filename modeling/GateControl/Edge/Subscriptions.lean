import GateControl.Edge.Bridge

/-!
# Subscriptions — what the maps hold while the broker is asked

A subscribe call enters its subscription and then waits for the broker, if it is the first one with
its filter.  `Session` keeps the calls that wait.  The reference counts are right in every state,
and a plugin never touches the entries of another (`subscriptions_kept`); but the code takes nothing
back when the broker rejects a call, so that its entry stays unless it has gone in the meantime.
-/

namespace GateControl
namespace Edge
namespace Mqtt

open Library

/-! ## Reference counts -/

/-- The number of subscriptions with a filter. -/
def countIn (subs : OrderedMap String Sub) (f : String) : Nat :=
  subs.sumOf fun s => if s.filter = f then 1 else 0

/-- The entry of `filterRefs` for a number of subscriptions. -/
def refsOf (n : Nat) : Option Nat := if n = 0 then none else some n

/-- Every filter is counted as often as it stands in `subs`, and no count is zero. -/
def Counted (m : MqttManager) : Prop := ∀ f, m.filterRefs.get f = refsOf (countIn m.subs f)

theorem getD_refsOf (n : Nat) : (refsOf n).getD 0 = n := by
  unfold refsOf
  split
  · rename_i hn
    exact hn.symm
  · rfl

/-- A subscription is entered under a new key. -/
theorem Counted.enter {m : MqttManager} (h : Counted m) {key : String}
    (hkey : m.subs.get key = none) (s : Sub) (i : Nat) :
    Counted { m with
      nextId := i
      subs := m.subs.set key s
      filterRefs := m.filterRefs.set s.filter ((m.filterRefs.get s.filter).getD 0 + 1) } := by
  intro f
  have hcount := m.subs.sumOf_set (fun t => if t.filter = f then 1 else 0) key s
  rw [hkey] at hcount
  have hcount : countIn (m.subs.set key s) f = countIn m.subs f + if s.filter = f then 1 else 0 :=
    hcount
  change (m.filterRefs.set _ _).get f = refsOf (countIn (m.subs.set key s) f)
  rw [OrderedMap.get_set, hcount]
  -- the count of its filter goes up, and no other
  by_cases hf : f = s.filter
  · rw [if_pos hf, if_pos hf.symm, hf, h s.filter, getD_refsOf]
    exact (if_neg (Nat.succ_ne_zero _)).symm
  · rw [if_neg hf, if_neg (Ne.symm hf), h f, Nat.add_zero]

theorem Counted.removeSub {m : MqttManager} (h : Counted m) (key : String) :
    Counted (Mqtt.removeSub m key) := by
  unfold Mqtt.removeSub
  split
  · exact h
  · rename_i s hs
    intro f
    have hcount := m.subs.sumOf_delete (fun t => if t.filter = f then 1 else 0) key
    rw [hs] at hcount
    have hcount : countIn (m.subs.delete key) f + (if s.filter = f then 1 else 0) =
        countIn m.subs f := hcount
    change (if _ then _ else _ : OrderedMap String Nat).get f =
      refsOf (countIn (m.subs.delete key) f)
    by_cases hf : s.filter = f
    · subst hf
      rw [if_pos rfl] at hcount
      -- the filter is counted, so the default is never taken
      have hrefs : (m.filterRefs.get s.filter).getD 1 - 1 =
          countIn (m.subs.delete key) s.filter := by
        rw [h s.filter, ← hcount, refsOf, if_neg (Nat.succ_ne_zero _)]
        rfl
      rw [hrefs]
      by_cases hzero : countIn (m.subs.delete key) s.filter = 0
      · rw [if_pos hzero, OrderedMap.get_delete, if_pos rfl, hzero]
        rfl
      · rw [if_neg hzero, OrderedMap.get_set_self, refsOf, if_neg hzero]
    · rw [if_neg hf, Nat.add_zero] at hcount
      rw [hcount, ← h f]
      split
      · rw [OrderedMap.get_delete, if_neg (Ne.symm hf)]
      · rw [OrderedMap.get_set_ne _ (Ne.symm hf)]

/-- What `removeSub` keeps is kept by a loop that calls it for some entries. -/
theorem kept_foldl {P : MqttManager → Prop} (hP : ∀ m key, P m → P (removeSub m key))
    (q : MqttManager → String × Sub → Bool) : ∀ (es : List (String × Sub)) (m : MqttManager),
      P m → P (es.foldl (fun m e => if q m e then m else removeSub m e.1) m) := by
  intro es
  induction es with
  | nil =>
      intro m hm
      exact hm
  | cons e es ih =>
      intro m hm
      refine ih _ ?_
      dsimp only
      split
      · exact hm
      · exact hP m e.1 hm

theorem kept_refresh {P : MqttManager → Prop} (hP : ∀ m key, P m → P (removeSub m key))
    {m : MqttManager} (hm : P m) : P (refresh m) := by
  unfold refresh
  split
  · exact hm
  · rw [endRevoked_eq]
    exact kept_foldl hP _ (checked m m.subs.entries) m hm

theorem kept_dropPlugin {P : MqttManager → Prop} (hP : ∀ m key, P m → P (removeSub m key))
    {m : MqttManager} (hm : P m) (plugin : String) : P (dropPlugin m plugin) := by
  rw [dropPlugin_eq]
  exact kept_foldl hP (fun _ e => decide (e.2.plugin ≠ plugin)) m.subs.entries m hm

/-! ## Keys -/

/-- The id of a plugin, as the bridge lets it pass. -/
abbrev PluginId := { s : String // Bridge.validId s.toList = true }

/-- The key of a subscription. -/
def Sub.key (s : Sub) : String := subKey s.plugin (toString s.id)

theorem hash_not_mem {p : PluginId} : '#' ∉ p.1.toList := by
  intro h
  have hparts := (Bool.and_eq_true_iff.1 p.2).2
  rcases mem_splitOn '-' h with hc | ⟨l, hl, hc⟩
  · cases hc
  · have hl := List.all_eq_true.1 hparts l hl
    have hall := List.all_eq_true.1 (Bool.and_eq_true_iff.1 hl).2 '#' hc
    revert hall
    decide

/-- Plugin and id can be read off a key. -/
theorem subKey_inj {p q : PluginId} {i j : String} (h : subKey p.1 i = subKey q.1 j) :
    p = q ∧ i = j := by
  -- an id of a plugin holds no `#`, so the first one ends it
  have hchars := congrArg String.toList h
  simp only [subKey, String.toList_append] at hchars
  rw [List.append_assoc, List.append_assoc] at hchars
  obtain ⟨hp, hi⟩ := append_cons_injective hash_not_mem hash_not_mem hchars
  exact ⟨Subtype.ext (String.toList_injective hp), String.toList_injective hi⟩

theorem toString_injective {i j : Nat} (h : toString i = toString j) : i = j := by
  have hdigits := congrArg String.toList h
  change (Nat.repr i).toList = (Nat.repr j).toList at hdigits
  rw [Nat.toList_repr, Nat.toList_repr] at hdigits
  exact decimal_injective hdigits

/-- Every subscription stands under its own key, and its id has been handed out. -/
def Keyed (m : MqttManager) : Prop :=
  ∀ k s, m.subs.get k = some s →
    k = s.key ∧ s.id ≤ m.nextId ∧ Bridge.validId s.plugin.toList = true

theorem Keyed.removeSub {m : MqttManager} (h : Keyed m) (key : String) :
    Keyed (Mqtt.removeSub m key) := by
  intro k s hs
  rw [get_removeSub] at hs
  split at hs
  · cases hs
  · rw [(removeSub_shrinks m key).nextId]
    exact h k s hs

/-- The next key is free. -/
theorem Keyed.fresh {m : MqttManager} (h : Keyed m) (p : PluginId) :
    m.subs.get (subKey p.1 (toString (m.nextId + 1))) = none := by
  cases hs : m.subs.get (subKey p.1 (toString (m.nextId + 1))) with
  | none => rfl
  | some s =>
      -- its id would have been handed out before
      obtain ⟨hk, hid, hv⟩ := h _ s hs
      have hsame := (subKey_inj (p := p) (q := ⟨s.plugin, hv⟩) hk).2
      rw [← toString_injective hsame] at hid
      exact absurd hid (Nat.not_succ_le_self _)

/-! ## The manager with calls that wait -/

/-- The manager, and the subscriptions of the calls that wait for the broker, by their ids. -/
structure Session where
  manager : MqttManager
  waiting : OrderedMap Nat Sub
  deriving DecidableEq

namespace Session

def new (available : Bool) : Session := ⟨.new available, .empty⟩

inductive Action
  | apply (cfg : Config)
  | refresh
  | volume (available : Bool)
  | connected
  /-- The connection is lost, and with it every request on it. -/
  | lost
  | subscribe (plugin : PluginId) (caps : Caps) (topic : TopicArg)
  | unsubscribe (plugin : PluginId) (caps : Caps) (id : String)
  | publish (plugin : PluginId) (caps : Caps) (topic : TopicArg) (payload : List UInt8)
  | removeSub (key : String)
  | dropPlugin (plugin : PluginId)
  /-- The broker grants a subscription. -/
  | granted (id : Nat)
  /-- A request is refused or takes too long, or an earlier connection is closed under it. -/
  | rejected (id : Nat)
  deriving DecidableEq

def call (v : Session) (plugin : PluginId) (caps : Caps) (c : Call) : Outcome :=
  pluginCall v.manager plugin.1 caps c

/-- The subscription that a call has entered. -/
def entered (o : Outcome) (plugin : PluginId) : Option Sub :=
  o.entered.bind fun id => o.manager.subs.get (subKey plugin.1 (toString id))

/-- Only the first subscription with a filter is sent to the broker. -/
def asksBroker (m : MqttManager) (s : Sub) : Bool :=
  (m.filterRefs.get s.filter).getD 0 = 0 && m.connected

def step (v : Session) : Action → Option Session
  | .apply cfg => some { v with manager := Mqtt.apply v.manager cfg }
  | .refresh => some { v with manager := Mqtt.refresh v.manager }
  | .volume available => some { v with manager := { v.manager with available := available } }
  | .connected => some { v with manager := { v.manager with connected := true } }
  -- what the rejected calls have entered is not taken back
  | .lost => some ⟨{ v.manager with connected := false }, .empty⟩
  | .subscribe plugin caps topic =>
      let o := v.call plugin caps (.subscribe topic none)
      match entered o plugin with
      | none => some { v with manager := o.manager }
      | some s =>
          some ⟨o.manager, if asksBroker v.manager s then v.waiting.set s.id s else v.waiting⟩
  | .unsubscribe plugin caps id =>
      some { v with manager := (v.call plugin caps (.unsubscribe id)).manager }
  | .publish plugin caps topic payload =>
      some { v with manager := (v.call plugin caps (.publish topic payload none)).manager }
  | .removeSub key => some { v with manager := Mqtt.removeSub v.manager key }
  | .dropPlugin plugin => some { v with manager := Mqtt.dropPlugin v.manager plugin.1 }
  | .granted id => (v.waiting.get id).map fun _ => { v with waiting := v.waiting.delete id }
  | .rejected id => (v.waiting.get id).map fun _ => { v with waiting := v.waiting.delete id }

/-! ## What is to hold -/

/-- The plugin whose operation an action is. -/
def ownerOf (v : Session) : Action → Option String
  | .subscribe plugin _ _ => some plugin.1
  | .unsubscribe plugin _ _ => some plugin.1
  | .publish plugin _ _ _ => some plugin.1
  | .dropPlugin plugin => some plugin.1
  | .granted id => (v.waiting.get id).map Sub.plugin
  | .rejected id => (v.waiting.get id).map Sub.plugin
  | _ => none

/-- The entries of other plugins stay, and they get no new ones. -/
def OthersKept (v : Session) (a : Action) : Prop :=
  ∀ p v', ownerOf v a = some p → step v a = some v' → ∀ k s, s.plugin ≠ p →
    (v'.manager.subs.get k = some s ↔ v.manager.subs.get k = some s)

/-- The calls that are rejected when an action comes. -/
def rejects (v : Session) : Action → List Sub
  | .lost => v.waiting.values
  | .rejected id => (v.waiting.get id).toList
  | _ => []

/-- The maps hold what they held, without the entries of some calls. -/
structure Without (before after : MqttManager) (calls : List Sub) : Prop where
  subs : ∀ k s, after.subs.get k = some s ↔
    before.subs.get k = some s ∧ ∀ c ∈ calls, k ≠ c.key
  filterRefs : ∀ f, after.filterRefs.get f =
    refsOf (countIn (before.subs.filter fun k _ => calls.all fun c => k ≠ c.key) f)

/-- A subscribe call that rejects leaves the maps as if it had not been made. -/
def Atomic (v : Session) : Action → Prop
  | .subscribe plugin caps topic =>
      ∀ e v', (v.call plugin caps (.subscribe topic none)).result = .error e →
        step v (.subscribe plugin caps topic) = some v' →
          v'.manager.subs = v.manager.subs ∧ v'.manager.filterRefs = v.manager.filterRefs
  | .lost => ∀ v', step v .lost = some v' → Without v.manager v'.manager (rejects v .lost)
  | .rejected id =>
      ∀ v', step v (.rejected id) = some v' →
        Without v.manager v'.manager (rejects v (.rejected id))
  | _ => True

/-- A call that is rejected finds its entry gone. -/
def EntryGone (v : Session) (a : Action) : Prop :=
  ∀ c ∈ rejects v a, v.manager.subs.get c.key = none

/-! ## What a call does -/

section Calls

variable {m : MqttManager} {plugin : PluginId} {caps : Caps}

/-- A subscribe call is refused and changes nothing, or it enters one subscription. -/
inductive Subscribed (m : MqttManager) (plugin : PluginId) (caps : Caps) (o : Outcome) : Prop
  | refused (hm : o.manager = m) (hnone : entered o plugin = none)
      (hresult : ∃ e, o.result = .error e)
  | done (s : Sub) (hkey : s.key = subKey plugin.1 (toString (m.nextId + 1)))
      (hplugin : s.plugin = plugin.1) (hid : s.id = m.nextId + 1)
      (hm : o.manager = { m with
        nextId := m.nextId + 1
        subs := m.subs.set s.key s
        filterRefs := m.filterRefs.set s.filter ((m.filterRefs.get s.filter).getD 0 + 1) })
      (hsome : entered o plugin = some s) (hresult : ∃ r, o.result = .ok r)

theorem subscribe_cases (m : MqttManager) (plugin : PluginId) (caps : Caps) (topic : TopicArg) :
    Subscribed m plugin caps (pluginCall m plugin.1 caps (.subscribe topic none)) := by
  have h := pluginCall_handled m plugin.1 caps (.subscribe topic none)
  generalize pluginCall m plugin.1 caps (.subscribe topic none) = o at h
  cases h with
  | refused _ e =>
      exact .refused rfl rfl ⟨e, rfl⟩
  | @entered f _ _ _ _ _ hresult =>
      exact .done ⟨plugin.1, m.nextId + 1, f, caps⟩ rfl rfl rfl rfl (OrderedMap.get_set_self ..)
        (hresult rfl)

/-- An unsubscribe call removes an entry of its plugin, or nothing. -/
theorem unsubscribe_cases (m : MqttManager) (plugin : PluginId) (caps : Caps) (id : String) :
    (pluginCall m plugin.1 caps (.unsubscribe id)).manager = m ∨
      (pluginCall m plugin.1 caps (.unsubscribe id)).manager =
        Mqtt.removeSub m (subKey plugin.1 id) := by
  have h := pluginCall_handled m plugin.1 caps (.unsubscribe id)
  generalize pluginCall m plugin.1 caps (.unsubscribe id) = o at h
  cases h with
  | refused _ e => exact Or.inl rfl
  | removed _ => exact Or.inr rfl

theorem publish_manager (m : MqttManager) (plugin : PluginId) (caps : Caps) (topic : TopicArg)
    (payload : List UInt8) :
    (pluginCall m plugin.1 caps (.publish topic payload none)).manager = m := by
  have h := pluginCall_handled m plugin.1 caps (.publish topic payload none)
  generalize pluginCall m plugin.1 caps (.publish topic payload none) = o at h
  cases h with
  | _ => rfl

end Calls

/-! ## Every step keeps the counts -/

/-- What holds in every state. -/
structure Sound (m : MqttManager) : Prop where
  counted : Counted m
  keyed : Keyed m

theorem Sound.removeSub {m : MqttManager} (h : Sound m) (key : String) :
    Sound (Mqtt.removeSub m key) :=
  ⟨h.counted.removeSub key, h.keyed.removeSub key⟩

theorem Sound.apply {m : MqttManager} (h : Sound m) (cfg : Config) : Sound (Mqtt.apply m cfg) := by
  have hcfg : Sound { m with cfg := cfg } := ⟨h.counted, h.keyed⟩
  simp only [Mqtt.apply]
  split
  · exact ⟨h.counted, h.keyed⟩
  · exact kept_refresh (fun _ key hm => hm.removeSub key) hcfg

theorem Sound.subscribe {m : MqttManager} {plugin : PluginId} {caps : Caps} {o : Outcome}
    (h : Sound m) (hsub : Subscribed m plugin caps o) : Sound o.manager := by
  cases hsub with
  | refused hm =>
      rw [hm]
      exact h
  | done s hkey hplugin hid hm =>
      rw [hm]
      have hfresh : m.subs.get s.key = none := hkey ▸ h.keyed.fresh plugin
      refine ⟨h.counted.enter hfresh s _, ?_⟩
      intro k t ht
      rcases OrderedMap.get_set_cases ht with ⟨rfl, rfl⟩ | ⟨_, hold⟩
      · exact ⟨rfl, hid.le, hplugin ▸ plugin.2⟩
      · obtain ⟨hk, hle, hv⟩ := h.keyed k t hold
        exact ⟨hk, Nat.le_succ_of_le hle, hv⟩

theorem manager_subscribe {v v' : Session} {plugin : PluginId} {caps : Caps} {topic : TopicArg}
    (hs : step v (.subscribe plugin caps topic) = some v') :
    v'.manager = (v.call plugin caps (.subscribe topic none)).manager := by
  simp only [step] at hs
  split at hs
  · cases hs
    rfl
  · cases hs
    rfl

theorem sound_step {v v' : Session} {a : Action} (h : Sound v.manager) (hs : step v a = some v') :
    Sound v'.manager := by
  have hremove : ∀ m key, Sound m → Sound (Mqtt.removeSub m key) := fun _ key hm => hm.removeSub key
  cases a with
  | apply cfg =>
      cases hs
      exact h.apply cfg
  | refresh =>
      cases hs
      exact kept_refresh hremove h
  | volume available =>
      cases hs
      exact ⟨h.counted, h.keyed⟩
  | connected =>
      cases hs
      exact ⟨h.counted, h.keyed⟩
  | lost =>
      cases hs
      exact ⟨h.counted, h.keyed⟩
  | subscribe plugin caps topic =>
      rw [manager_subscribe hs]
      exact h.subscribe (subscribe_cases v.manager plugin caps topic)
  | unsubscribe plugin caps id =>
      cases hs
      rcases unsubscribe_cases v.manager plugin caps id with hm | hm
      · exact hm ▸ h
      · exact hm ▸ h.removeSub _
  | publish plugin caps topic payload =>
      cases hs
      exact (publish_manager v.manager plugin caps topic payload) ▸ h
  | removeSub key =>
      cases hs
      exact h.removeSub key
  | dropPlugin plugin =>
      cases hs
      exact kept_dropPlugin hremove h plugin.1
  | granted id =>
      rcases Option.map_eq_some_iff.1 hs with ⟨s, _, rfl⟩
      exact h
  | rejected id =>
      rcases Option.map_eq_some_iff.1 hs with ⟨s, _, rfl⟩
      exact h

/-! ## The entries of others -/

/-- An entry of another plugin does not stand under a key of this one. -/
theorem Sound.key_ne {m : MqttManager} (h : Sound m) {plugin : PluginId} {k id : String} {s : Sub}
    (hs : m.subs.get k = some s) (hne : s.plugin ≠ plugin.1) : k ≠ subKey plugin.1 id := by
  rintro rfl
  obtain ⟨hk, _, hv⟩ := h.keyed _ s hs
  have hsame := (subKey_inj (q := ⟨s.plugin, hv⟩) hk).1
  exact hne (congrArg Subtype.val hsame).symm

theorem othersKept {v : Session} (h : Sound v.manager) (a : Action) : OthersKept v a := by
  intro p v' howner hs k s hne
  cases a with
  | subscribe plugin caps topic =>
      cases howner
      rw [manager_subscribe hs]
      cases subscribe_cases v.manager plugin caps topic with
      | refused hm =>
          rw [call, hm]
      | done t hkey hplugin hid hm =>
          rw [call, hm]
          change (v.manager.subs.set t.key t).get k = some s ↔ _
          rw [OrderedMap.get_set]
          split
          · -- the new entry is the plugin's own, and its key was free
            rename_i hk
            rw [hk, hkey, h.keyed.fresh]
            constructor
            · rintro ⟨⟩
              exact absurd hplugin hne
            · rintro ⟨⟩
          · exact Iff.rfl
  | unsubscribe plugin caps id =>
      cases howner
      cases hs
      change (pluginCall v.manager plugin.1 caps (.unsubscribe id)).manager.subs.get k = some s ↔ _
      rcases unsubscribe_cases v.manager plugin caps id with hm | hm
      · rw [hm]
      · rw [hm, get_removeSub]
        split
        · rename_i hk
          refine ⟨fun hn => (by cases hn), fun hold => ?_⟩
          exact absurd hk (h.key_ne hold hne)
        · exact Iff.rfl
  | publish plugin caps topic payload =>
      cases hs
      change (pluginCall v.manager plugin.1 caps (.publish topic payload none)).manager.subs.get k =
        some s ↔ _
      rw [publish_manager]
  | dropPlugin plugin =>
      cases howner
      cases hs
      change (Mqtt.dropPlugin v.manager plugin.1).subs.get k = some s ↔ _
      rw [(dropPlugin_spec v.manager plugin.1).2.2.2, OrderedMap.get_filter]
      -- the entry is of the other plugin
      exact and_iff_left (decide_eq_true hne)
  | granted id =>
      rcases Option.map_eq_some_iff.1 hs with ⟨t, _, rfl⟩
      exact Iff.rfl
  | rejected id =>
      rcases Option.map_eq_some_iff.1 hs with ⟨t, _, rfl⟩
      exact Iff.rfl
  | _ => cases howner

/-! ## Calls that reject -/

/-- The maps stay as they are, so they are as without some calls exactly if these have no entry. -/
theorem without_iff {m : MqttManager} (h : Sound m) (m' : MqttManager) (hsubs : m'.subs = m.subs)
    (hrefs : m'.filterRefs = m.filterRefs) (calls : List Sub) :
    Without m m' calls ↔ ∀ c ∈ calls, m.subs.get c.key = none := by
  constructor
  · intro hw c hc
    cases hs : m.subs.get c.key with
    | none => rfl
    | some s =>
        rw [← hsubs] at hs
        exact absurd rfl (((hw.subs c.key s).1 hs).2 c hc)
  · intro hgone
    have hkeep : ∀ {k s}, m.subs.get k = some s → ∀ c ∈ calls, k ≠ c.key := by
      rintro k s hs c hc rfl
      rw [hgone c hc] at hs
      cases hs
    have hall : m.subs.filter (fun k _ => calls.all fun c => k ≠ c.key) = m.subs := by
      refine OrderedMap.eq_of_entries (List.filter_eq_self.2 fun e he => ?_)
      refine List.all_eq_true.2 fun c hc => decide_eq_true ?_
      exact hkeep (m.subs.get_eq_some_iff.2 he) c hc
    refine ⟨fun k s => ?_, fun f => ?_⟩
    · rw [hsubs]
      exact (and_iff_left_of_imp hkeep).symm
    · rw [hrefs, hall]
      exact h.counted f

theorem atomic_iff {v : Session} (h : Sound v.manager) (a : Action) :
    Atomic v a ↔ EntryGone v a := by
  cases a with
  | subscribe plugin caps topic =>
      -- a call that is refused at once has entered nothing
      refine iff_of_true ?_ (by intro c hc; cases hc)
      intro e w hresult hw
      rw [manager_subscribe hw]
      cases subscribe_cases v.manager plugin caps topic with
      | refused hm =>
          rw [call, hm]
          exact ⟨rfl, rfl⟩
      | done t hkey hplugin hid hm hsome hok =>
          rcases hok with ⟨r, hr⟩
          rw [call, hr] at hresult
          cases hresult
  | lost =>
      have hiff := without_iff h { v.manager with connected := false } rfl rfl
        (rejects v .lost)
      refine Iff.trans ⟨fun ha => ha _ rfl, fun hw w hs => ?_⟩ hiff
      cases hs
      exact hw
  | rejected id =>
      cases hwait : v.waiting.get id with
      | none =>
          refine iff_of_true (fun w hs => ?_) fun c hc => ?_
          · simp [step, hwait] at hs
          · simp [rejects, hwait] at hc
      | some t =>
          have hstep : step v (.rejected id) = some { v with waiting := v.waiting.delete id } := by
            simp [step, hwait]
          have hiff := without_iff h v.manager rfl rfl (rejects v (.rejected id))
          refine Iff.trans ⟨fun ha => ha _ hstep, fun hw w hs => ?_⟩ hiff
          rw [hstep] at hs
          cases hs
          exact hw
  | _ => exact iff_of_true trivial (by intro c hc; cases hc)

theorem sound_new (available : Bool) : Sound (new available).manager where
  counted f := rfl
  keyed k s hs := by cases hs

/-- The counts are right in every state and no plugin touches the entries of another; and subscribe
calls that reject leave nothing behind exactly if each finds its entry gone. -/
theorem subscriptions_kept (available : Bool) (as : List Action) :
    Throughout step (fun v => Counted v.manager) (new available) as ∧
      Admits step OthersKept (new available) as ∧
        (Admits step Atomic (new available) as ↔ Admits step EntryGone (new available) as) := by
  have hstep : ∀ (v : Session) (a : Action) (v' : Session), Sound v.manager → step v a = some v' →
      Sound v'.manager := fun _ _ _ h hs => sound_step h hs
  have htrue : Admits step (fun _ _ => True) (new available) as := admits_true _ as
  refine ⟨?_, ?_, ?_⟩
  · exact throughout_of_admits (fun v a v' h _ hs => hstep v a v' h hs)
      (fun _ h => h.counted) (sound_new available) htrue
  · exact admits_of_admits (fun v a v' h _ hs => hstep v a v' h hs)
      (fun _ a h _ => othersKept h a) (sound_new available) htrue
  · constructor
    · exact admits_of_admits (fun v a v' h _ hs => hstep v a v' h hs)
        (fun _ a h ha => (atomic_iff h a).1 ha) (sound_new available)
    · exact admits_of_admits (fun v a v' h _ hs => hstep v a v' h hs)
        (fun _ a h ha => (atomic_iff h a).2 ha) (sound_new available)

/-! ## A broker that refuses -/

/-- Two plugins with the same topics. -/
def twoPlugins : Config where
  enabled := true
  pluginTopics := OrderedMap.ofList [("shelly", ["shellies/#"]), ("lamp", ["shellies/#"])]

def shelly : PluginId := ⟨"shelly", by decide +kernel⟩

def lamp : PluginId := ⟨"lamp", by decide +kernel⟩

/-- A subscribe call that the broker refuses, and then one of the other plugin. -/
def refusedRun : List Action :=
  [.apply twoPlugins, .connected, .subscribe shelly (some ["shellies/#"]) (.str "shellies/#"),
    .rejected 1, .subscribe lamp (some ["shellies/#"]) (.str "shellies/#")]

/-- The refused call keeps its entry and its count, so that the broker is not asked again when the
other plugin subscribes. -/
theorem refused_kept :
    ¬ Admits step Atomic (new true) refusedRun ∧
      ∃ v, exec step (new true) refusedRun = some v ∧
        v.manager.subs.get "shelly#1" = some ⟨"shelly", 1, "shellies/#", some ["shellies/#"]⟩ ∧
        v.manager.filterRefs.get "shellies/#" = some 2 ∧ v.waiting = .empty := by
  constructor
  · intro h
    have hrun : (exec step (new true) (refusedRun.take 3)).any (fun v =>
        decide (v.waiting.get 1 = some ⟨"shelly", 1, "shellies/#", some ["shellies/#"]⟩) &&
        (v.manager.subs.get "shelly#1").isSome) = true := by
      decide +kernel
    rcases (Option.any_eq_true ..).1 hrun with ⟨v, hv, htest⟩
    simp only [Bool.and_eq_true, decide_eq_true_eq] at htest
    have hsound : Sound v.manager := exec_invariant (fun _ _ _ hs hstep => sound_step hs hstep)
      (sound_new true) hv
    -- when the broker refuses, the entry is still there
    have hsplit : Admits step Atomic (new true) (refusedRun.take 3 ++ refusedRun.drop 3) := h
    have hnow : Atomic v (.rejected 1) := (hsplit.append hv).2.1
    have hgone := (atomic_iff hsound _).1 hnow _ (Option.mem_toList.2 htest.1)
    rw [Option.isSome_iff_exists] at htest
    rcases htest.2 with ⟨s, hs⟩
    rw [show Sub.key _ = "shelly#1" by decide +kernel, hs] at hgone
    cases hgone
  · have hrun : (exec step (new true) refusedRun).any (fun v =>
        decide (v.manager.subs.get "shelly#1" =
          some ⟨"shelly", 1, "shellies/#", some ["shellies/#"]⟩) &&
        decide (v.manager.filterRefs.get "shellies/#" = some 2) &&
        decide (v.waiting = .empty)) = true := by
      decide +kernel
    rcases (Option.any_eq_true ..).1 hrun with ⟨v, hv, htest⟩
    simp only [Bool.and_eq_true, decide_eq_true_eq] at htest
    exact ⟨v, hv, htest.1.1, htest.1.2, htest.2⟩

end Session

end Mqtt
end Edge
end GateControl
