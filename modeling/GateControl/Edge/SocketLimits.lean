import Mathlib.Algebra.Order.BigOperators.Group.List
import GateControl.Edge.Ownership

/-!
# SocketLimits — how many sockets a plugin holds

`udpBind` and `tcpConnect` test the size of a map that a socket enters only when it is ready.  Calls
that come before that all pass the test (`too_many_sockets`).  `limits_kept` says when the limits
hold: a call that passes its checks finds fewer sockets than the limit, those on their way included.
-/

namespace GateControl
namespace Edge

open Library

/-- A `PluginNet`, and what is open for it. -/
structure NetState where
  net : PluginNet
  network : Network
  deriving DecidableEq

namespace NetState

def new (pluginId : String) : NetState := ⟨.new pluginId, .new⟩

/-- A call of the plugin with the guard and the capabilities in force, or something that happens to
a socket. -/
inductive Action
  | call (guard : LanGuard) (caps : Caps) (api : NetApi) (args : Json)
  /-- A bind or connect succeeds. -/
  | opened (n : Nat)
  /-- A bind or connect fails, or a connect takes too long. -/
  | failed (n : Nat)
  | peerClosed (n : Nat)
  | closeAll

section Steps

variable (env : Platform) (mdns : Bool)

def step (v : NetState) : Action → Option NetState
  | .call guard caps api args =>
      let o := v.net.call env guard mdns caps 0 v.network args api
      some ⟨o.net, o.network⟩
  | .opened n =>
      (v.network.sockets.get n).bind fun s =>
        if s.ready then none
        else
          some ⟨v.net.register n s,
            { v.network with sockets := v.network.sockets.set n { s with ready := true } }⟩
  | .failed n =>
      (v.network.sockets.get n).bind fun s =>
        if s.ready then none else some { v with network := v.network.closeSocket n }
  | .peerClosed n =>
      (v.network.sockets.get n).bind fun s =>
        if s.ready && s.kind.table = .tcp then
          some ⟨{ v.net with tcp := v.net.tcp.delete s.id }, v.network.closeSocket n⟩
        else none
  | .closeAll => some ⟨v.net.cleared, v.net.closeOpen v.network⟩

end Steps

/-! ## Counting sockets -/

/-- The sockets that satisfy a test. -/
def count (v : NetState) (p : Socket → Bool) : Nat := v.network.sockets.sumOf fun s => (p s).toNat

/-- A socket of `udpBind` or `tcpConnect`, ready or on its way. -/
def belongs (t : Table) (s : Socket) : Bool := s.kind.table = t

def isBound (s : Socket) : Bool := belongs .udp s && s.ready

/-- The limits: bound UDP sockets, and TCP sockets that are open or connecting. -/
structure Within (v : NetState) : Prop where
  udp : v.count isBound ≤ udpSocketsPerPlugin
  tcp : v.count (belongs .tcp) ≤ tcpSocketsPerPlugin

/-- The limits hold, also when what is on its way succeeds. -/
def Safe (env : Platform) (mdns : Bool) (v : NetState) : Prop :=
  ∀ (ns : List Nat) (t : NetState), exec (step env mdns) v (ns.map .opened) = some t → Within t

/-- The map for which an action makes a socket: that of a bind or connect that passes its checks. -/
def makes (env : Platform) (v : NetState) : Action → Option Table
  | .call _ caps .udpBind args =>
      match checkBind env caps args v.net.udp.size with
      | .ok _ => some .udp
      | .error _ => none
  | .call guard caps .tcpConnect args =>
      match checkConnect env guard caps args v.net.tcp.size with
      | .ok _ => some .tcp
      | .error _ => none
  | _ => none

/-- A bind or connect that passes its checks finds room, with what is on its way counted. -/
def FindsRoom (env : Platform) (v : NetState) (a : Action) : Prop :=
  (makes env v a = some .udp → v.count (belongs .udp) < udpSocketsPerPlugin) ∧
    (makes env v a = some .tcp → v.count (belongs .tcp) < tcpSocketsPerPlugin)

/-- What the limits amount to: sockets on their way count. -/
structure Bounded (v : NetState) : Prop where
  udp : v.count (belongs .udp) ≤ udpSocketsPerPlugin
  tcp : v.count (belongs .tcp) ≤ tcpSocketsPerPlugin

section Counts

variable {v : NetState} {p : Socket → Bool} {n : Nat} {s : Socket}

theorem count_openSocket (hw : Numbered v.network) (net : PluginNet) (s : Socket) :
    (⟨net, v.network.openSocket s⟩ : NetState).count p = v.count p + (p s).toNat := by
  -- the number of the new socket has not been used
  have hnone : v.network.sockets.get v.network.nextSocket = none := by
    cases hs : v.network.sockets.get v.network.nextSocket with
    | none => rfl
    | some t => exact absurd (hw.socket hs) (Nat.lt_irrefl _)
  have hset := v.network.sockets.sumOf_set (fun s => (p s).toNat) v.network.nextSocket s
  rw [hnone] at hset
  exact hset

theorem count_closeSocket (net : PluginNet) (n : Nat) :
    (⟨net, v.network.closeSocket n⟩ : NetState).count p ≤ v.count p :=
  Nat.le.intro (v.network.sockets.sumOf_delete (fun s => (p s).toNat) n)

theorem count_closeOpen (net : PluginNet) :
    (⟨net, v.net.closeOpen v.network⟩ : NetState).count p ≤ v.count p :=
  Nat.le.intro (v.network.sockets.sumOf_filter (fun s => (p s).toNat) fun n _ => n ∉ v.net.handles)

theorem count_ready (hs : v.network.sockets.get n = some s) (t : Table) (net : PluginNet) :
    (⟨net, { v.network with sockets := v.network.sockets.set n { s with ready := true } }⟩ :
      NetState).count (belongs t) = v.count (belongs t) := by
  have hset := v.network.sockets.sumOf_set (fun s => (belongs t s).toNat) n { s with ready := true }
  rw [hs, Option.map_some, Option.getD_some] at hset
  exact Nat.add_right_cancel hset

/-- Sockets that satisfy a narrower test are fewer. -/
theorem count_le {q : Socket → Bool} (h : ∀ s, p s = true → q s = true) :
    v.count p ≤ v.count q := by
  simp only [count, OrderedMap.sumOf]
  refine List.sum_le_sum fun s _ => ?_
  cases hp : p s with
  | false => exact Nat.zero_le _
  | true => rw [h s hp]

theorem Bounded.within (h : Bounded v) : Within v where
  udp := (count_le fun _ hs => (Bool.and_eq_true_iff.1 hs).1).trans h.udp
  tcp := h.tcp

end Counts

/-! ## What a step does to the counts -/

section Calls

variable {env : Platform} {guard : LanGuard} {mdns : Bool} {caps : Caps} {v v' : NetState}
  {args : Json} {t : Table} {made : Option Table}

/-- The sockets of a map after a step that makes one for `made`. -/
structure Counts (v v' : NetState) (t : Table) (made : Option Table) : Prop where
  one : made = some t → v'.count (belongs t) = v.count (belongs t) + 1
  other : made ≠ some t → v'.count (belongs t) ≤ v.count (belongs t)

theorem Counts.of_le (h : v'.count (belongs t) ≤ v.count (belongs t)) : Counts v v' t none where
  one hm := by cases hm
  other _ := h

/-- A socket on its way counts at once. -/
theorem Counts.create (hw : Numbered v.network) (kind : SocketKind) (e : Effect) (t : Table) :
    Counts v ⟨(v.net.create 0 v.network kind e).net, (v.net.create 0 v.network kind e).network⟩ t
      (some kind.table) := by
  have hcount := count_openSocket (p := belongs t) hw { v.net with nextId := v.net.nextId + 1 }
    ⟨v.net.pluginId, 0, v.net.nextId + 1, kind, false⟩
  constructor
  · intro hm
    cases hm
    simpa [PluginNet.create, belongs] using hcount
  · intro hm
    have hne : kind.table ≠ t := fun ht => hm (by rw [ht])
    simpa [PluginNet.create, belongs, hne] using hcount.le

/-- An ephemeral socket belongs to neither of the two maps. -/
theorem counts_sendEphemeral (hw : Numbered v.network) (ht : t ≠ .common) (e : Effect) :
    Counts v ⟨(v.net.sendEphemeral 0 v.network e).net,
      (v.net.sendEphemeral 0 v.network e).network⟩ t none := by
  unfold PluginNet.sendEphemeral
  split
  · exact .of_le le_rfl
  · refine .of_le ?_
    have hne : belongs t ⟨v.net.pluginId, 0, 0, .ephemeral, true⟩ = false :=
      decide_eq_false fun hc => ht hc.symm
    have hcount := count_openSocket (p := belongs t) hw
      { v.net with ephemeral := some v.network.nextSocket }
      ⟨v.net.pluginId, 0, 0, .ephemeral, true⟩
    rw [hne] at hcount
    exact hcount.le

/-- Only a bind or connect that passes its checks makes a socket that counts. -/
theorem counts_call (hw : Numbered v.network) (ht : t ≠ .common) (api : NetApi) :
    Counts v ⟨(v.net.call env guard mdns caps 0 v.network args api).net,
      (v.net.call env guard mdns caps 0 v.network args api).network⟩ t
      (makes env v (.call guard caps api args)) := by
  have hsame : Counts v v t none := .of_le le_rfl
  cases api with
  | udpBind =>
      simp only [PluginNet.call, PluginNet.udpBind, makes]
      cases checkBind env caps args v.net.udp.size with
      | error e => exact hsame
      | ok r => exact .create hw (.udp r.1 r.2) ..
  | tcpConnect =>
      simp only [PluginNet.call, PluginNet.tcpConnect, makes]
      cases checkConnect env guard caps args v.net.tcp.size with
      | error e => exact hsame
      | ok r => exact .create hw (.tcp r.1 r.2) ..
  | udpSend =>
      simp only [PluginNet.call, PluginNet.udpSend, makes]
      split
      · exact hsame
      · split
        · exact counts_sendEphemeral hw ht _
        · exact counts_sendEphemeral hw ht _
        · split
          · exact hsame
          · exact hsame
  | udpClose =>
      simp only [PluginNet.call, PluginNet.udpClose, makes]
      split
      · exact hsame
      · split
        · exact hsame
        · exact .of_le (count_closeSocket ..)
  | tcpDestroy =>
      simp only [PluginNet.call, PluginNet.tcpDestroy, makes]
      split
      · exact hsame
      · split
        · exact hsame
        · exact .of_le (count_closeSocket ..)
  | tcpWrite =>
      simp only [PluginNet.call, PluginNet.tcpWrite, makes]
      split
      · exact hsame
      · split
        · exact hsame
        · exact hsame
  | tcpEnd => exact hsame
  | httpRequest =>
      simp only [PluginNet.call, PluginNet.httpRequest, makes]
      split
      · exact hsame
      · exact hsame
  | tlsFingerprint =>
      simp only [PluginNet.call, PluginNet.tlsFingerprint, makes]
      split
      · exact hsame
      · exact hsame
  | mdnsBrowse =>
      simp only [PluginNet.call, PluginNet.mdnsBrowse, makes]
      split
      · exact hsame
      · exact .of_le le_rfl
  | mdnsStop =>
      simp only [PluginNet.call, PluginNet.mdnsStop, makes]
      split
      · exact hsame
      · split
        · exact hsame
        · exact .of_le le_rfl
  | serialOpen => exact hsame

theorem step_opened {n : Nat} (h : step env mdns v (.opened n) = some v') :
    ∃ s, v.network.sockets.get n = some s ∧ v' = ⟨v.net.register n s,
      { v.network with sockets := v.network.sockets.set n { s with ready := true } }⟩ := by
  rcases Option.bind_eq_some_iff.1 h with ⟨s, hs, hrest⟩
  split at hrest
  · cases hrest
  · exact ⟨s, hs, (Option.some.inj hrest).symm⟩

theorem step_failed {n : Nat} (h : step env mdns v (.failed n) = some v') :
    v' = { v with network := v.network.closeSocket n } := by
  rcases Option.bind_eq_some_iff.1 h with ⟨s, _, hrest⟩
  split at hrest
  · cases hrest
  · exact (Option.some.inj hrest).symm

theorem step_peerClosed {n : Nat} (h : step env mdns v (.peerClosed n) = some v') :
    ∃ id, v' = ⟨{ v.net with tcp := v.net.tcp.delete id }, v.network.closeSocket n⟩ := by
  rcases Option.bind_eq_some_iff.1 h with ⟨s, _, hrest⟩
  split at hrest
  · exact ⟨s.id, (Option.some.inj hrest).symm⟩
  · cases hrest

/-- What one step does to the number of sockets of a map. -/
theorem counts_step {a : Action} (hw : Numbered v.network) (ht : t ≠ .common)
    (h : step env mdns v a = some v') : Counts v v' t (makes env v a) := by
  cases a with
  | call guard caps api args =>
      cases h
      exact counts_call hw ht api
  | opened n =>
      rcases step_opened h with ⟨s, hs, rfl⟩
      exact .of_le (count_ready hs t _).le
  | failed n =>
      rw [step_failed h]
      exact .of_le (count_closeSocket ..)
  | peerClosed n =>
      rcases step_peerClosed h with ⟨id, rfl⟩
      exact .of_le (count_closeSocket ..)
  | closeAll =>
      cases h
      exact .of_le (count_closeOpen _)

theorem numbered_step {a : Action} (hw : Numbered v.network) (h : step env mdns v a = some v') :
    Numbered v'.network := by
  cases a with
  | call guard caps api args =>
      cases h
      exact hw.changed (PluginNet.call_allowed api).changes
  | opened n =>
      rcases step_opened h with ⟨s, hs, rfl⟩
      exact hw.setSocket hs
  | failed n =>
      rw [step_failed h]
      exact hw.closeSocket n
  | peerClosed n =>
      rcases step_peerClosed h with ⟨id, rfl⟩
      exact hw.closeSocket n
  | closeAll =>
      cases h
      exact hw.closeOpen v.net

/-- Calls that find room keep the bounds. -/
theorem Bounded.step {a : Action} (h : Bounded v) (hw : Numbered v.network)
    (hok : FindsRoom env v a) (hs : NetState.step env mdns v a = some v') : Bounded v' := by
  have hudp := counts_step (t := .udp) hw (by simp) hs
  have htcp := counts_step (t := .tcp) hw (by simp) hs
  constructor
  · by_cases hm : makes env v a = some .udp
    · rw [hudp.one hm]
      exact hok.1 hm
    · exact (hudp.other hm).trans h.udp
  · by_cases hm : makes env v a = some .tcp
    · rw [htcp.one hm]
      exact hok.2 hm
    · exact (htcp.other hm).trans h.tcp

/-- If the bounds hold after a call, it has found room. -/
theorem Bounded.findsRoom {a : Action} (h : Bounded v') (hw : Numbered v.network)
    (hs : NetState.step env mdns v a = some v') : FindsRoom env v a := by
  constructor
  · intro hm
    have hle := h.udp
    rw [(counts_step (t := .udp) hw (by simp) hs).one hm] at hle
    exact hle
  · intro hm
    have hle := h.tcp
    rw [(counts_step (t := .tcp) hw (by simp) hs).one hm] at hle
    exact hle

end Calls

/-! ## Binds that are on their way succeed -/

section Completion

variable {env : Platform} {mdns : Bool} {v : NetState}

def isPending (s : Socket) : Bool := !s.ready

/-- All that is on its way can succeed, and then nothing else has changed. -/
theorem all_opened (env : Platform) (mdns : Bool) : ∀ (k : Nat) (v : NetState),
    v.count isPending = k → ∃ (ns : List Nat) (t : NetState),
      exec (step env mdns) v (ns.map .opened) = some t ∧ t.count isPending = 0 ∧
        t.count (belongs .udp) = v.count (belongs .udp) := by
  intro k
  induction k with
  | zero =>
      intro v hv
      exact ⟨[], v, rfl, hv, rfl⟩
  | succ k ih =>
      intro v hv
      -- there is a socket that is not ready yet; it is the next to succeed
      obtain ⟨s, hmem, hready⟩ : ∃ s ∈ v.network.sockets.values, s.ready = false := by
        by_contra hno
        have hzero : v.count isPending = 0 := by
          refine List.sum_eq_zero fun c hc => ?_
          rcases List.mem_map.1 hc with ⟨s, hs, rfl⟩
          have hr : s.ready = true := by
            by_contra hr
            exact hno ⟨s, hs, Bool.eq_false_iff.2 hr⟩
          rw [isPending, hr]
          rfl
        omega
      rcases v.network.sockets.mem_values_iff.1 hmem with ⟨n, hn⟩
      have hstep : step env mdns v (.opened n) = some ⟨v.net.register n s,
          { v.network with sockets := v.network.sockets.set n { s with ready := true } }⟩ := by
        simp [step, hn, hready]
      have hset := v.network.sockets.sumOf_set (fun s => (isPending s).toNat) n
        { s with ready := true }
      rw [hn, Option.map_some, Option.getD_some, isPending, isPending, hready] at hset
      have hless : NetState.count ⟨v.net.register n s,
          { v.network with sockets := v.network.sockets.set n { s with ready := true } }⟩
            isPending = k := by
        change _ + 1 = v.count isPending + 0 at hset
        rw [hv] at hset
        exact Nat.succ_injective hset
      rcases ih _ hless with ⟨ns, t, ht, hall, hsame⟩
      refine ⟨n :: ns, t, exec_cons.2 ⟨_, hstep, ht⟩, hall, ?_⟩
      rw [hsame, count_ready hn]

theorem count_bound (h : v.count isPending = 0) :
    v.count isBound = v.count (belongs .udp) := by
  have hready : ∀ s ∈ v.network.sockets.values, s.ready = true := by
    intro s hs
    have hzero : (isPending s).toNat = 0 := by
      have hle : (isPending s).toNat ≤ v.count isPending :=
        List.single_le_sum (fun c _ => Nat.zero_le c) _ (List.mem_map_of_mem hs)
      omega
    cases hr : s.ready with
    | true => rfl
    | false => simp [isPending, hr] at hzero
  simp only [count, OrderedMap.sumOf]
  congr 1
  refine List.map_congr_left fun s hs => ?_
  rw [isBound, hready s hs, Bool.and_true]

/-- A success changes nothing in the bounds. -/
theorem bounded_opened (h : Bounded v) {ns : List Nat} : ∀ {t : NetState},
    Numbered v.network → exec (step env mdns) v (ns.map .opened) = some t → Bounded t := by
  induction ns generalizing v with
  | nil =>
      intro t _ ht
      cases ht
      exact h
  | cons n ns ih =>
      intro t hw ht
      rcases exec_cons.1 ht with ⟨u, hu, ht⟩
      have hroom : FindsRoom env v (.opened n) := ⟨fun hm => (by cases hm), fun hm => (by cases hm)⟩
      exact ih (h.step hw hroom hu) (numbered_step hw hu) ht

theorem safe_iff (hw : Numbered v.network) : Safe env mdns v ↔ Bounded v := by
  constructor
  · -- let all that is on its way succeed; then every UDP socket is bound
    intro h
    rcases all_opened env mdns _ v rfl with ⟨ns, t, ht, hall, hsame⟩
    have hudp := (h ns t ht).udp
    rw [count_bound hall, hsame] at hudp
    exact ⟨hudp, (h [] v rfl).tcp⟩
  · intro h ns t ht
    exact (bounded_opened h hw ht).within

theorem numbered_new (pluginId : String) : Numbered (new pluginId).network where
  socket h := by cases h
  browse h := by cases h

/-- If the bounds hold after every step, a call finds room. -/
theorem findsRoom_of_after {a : Action} (hw : Numbered v.network)
    (h : ∀ v', step env mdns v a = some v' → Safe env mdns v') : FindsRoom env v a := by
  cases a with
  | call guard caps api args =>
      have hs : step env mdns v (.call guard caps api args) = some _ := rfl
      exact ((safe_iff (numbered_step hw hs)).1 (h _ hs)).findsRoom hw hs
  | _ => exact ⟨fun hm => (by cases hm), fun hm => (by cases hm)⟩

/-- The limits hold in every run whose binds and connects find room when they are made; if one does
not, they are exceeded as soon as what is on its way succeeds. -/
theorem limits_kept (env : Platform) (mdns : Bool) (pluginId : String) (as : List Action) :
    (Admits (step env mdns) (FindsRoom env) (new pluginId) as →
      Throughout (step env mdns) Within (new pluginId) as) ∧
    (Admits (step env mdns) (FindsRoom env) (new pluginId) as ↔
      Throughout (step env mdns) (Safe env mdns) (new pluginId) as) := by
  have hinit : Numbered (new pluginId).network ∧ Bounded (new pluginId) :=
    ⟨numbered_new pluginId, Nat.zero_le _, Nat.zero_le _⟩
  have hkeep : ∀ (v : NetState) (a : Action) (v' : NetState),
      Numbered v.network ∧ Bounded v → FindsRoom env v a → step env mdns v a = some v' →
        Numbered v'.network ∧ Bounded v' :=
    fun v a v' hv hok hs => ⟨numbered_step hv.1 hs, hv.2.step hv.1 hok hs⟩
  refine ⟨fun hok => ?_, fun hok => ?_, fun hsafe => ?_⟩
  · exact throughout_of_admits hkeep (fun v hv => hv.2.within) hinit hok
  · exact throughout_of_admits hkeep (fun v hv => (safe_iff hv.1).2 hv.2) hinit hok
  · exact admits_of_after (fun _ _ _ hw hs => numbered_step hw hs)
      (fun v a hw h => findsRoom_of_after hw h) hinit.1 hsafe

/-- A call that binds port 5000 and joins an approved group, so that the port can be shared. -/
def joinGroup : Action :=
  .call Bridge.homeGuard { udp := some ⟨[5000], ["239.255.255.250"]⟩ } .udpBind
    (Bridge.jsonOf [("port", .num 5000), ("multicast", .arr [.str "239.255.255.250".toList])])

def connectLamp : Action :=
  .call Bridge.homeGuard { tcp := some true } .tcpConnect
    (Bridge.jsonOf [("host", .str "192.168.1.5".toList), ("port", .num 80)])

/-- The limits are 16 and 32, but 17 binds that succeed late leave 17 bound sockets, and 33 connects
are on their way at once. -/
theorem too_many_sockets :
    (∃ v, exec (step Bridge.demoPlatform false) (new "lamp")
      (List.replicate 17 joinGroup ++ (List.range 17).map .opened) = some v ∧
        v.count isBound = 17 ∧ ¬ Within v) ∧
    ∃ v, exec (step Bridge.demoPlatform false) (new "lamp")
      (List.replicate 33 connectLamp) = some v ∧ v.count (belongs .tcp) = 33 ∧ ¬ Within v := by
  have hudp : (exec (step Bridge.demoPlatform false) (new "lamp")
      (List.replicate 17 joinGroup ++ (List.range 17).map .opened)).any
        (fun v => v.count isBound = 17) = true := by
    decide +kernel
  have htcp : (exec (step Bridge.demoPlatform false) (new "lamp")
      (List.replicate 33 connectLamp)).any (fun v => v.count (belongs .tcp) = 33) = true := by
    decide +kernel
  rcases (Option.any_eq_true ..).1 hudp with ⟨v, hv, hbound⟩
  rcases (Option.any_eq_true ..).1 htcp with ⟨u, hu, hopen⟩
  have hbound : v.count isBound = 17 := of_decide_eq_true hbound
  have hopen : u.count (belongs .tcp) = 33 := of_decide_eq_true hopen
  refine ⟨⟨v, hv, hbound, fun h => ?_⟩, u, hu, hopen, fun h => ?_⟩
  · exact absurd (hbound ▸ h.udp) (by decide)
  · exact absurd (hopen ▸ h.tcp) (by decide)

end Completion

end NetState
end Edge
end GateControl
