import GateControl.Dns.Resolver

/-!
# SharedQueries — what requests that share a query can notice of it

Requests of one key wait for one query, whoever started it and whenever it was started.

* The loop protection of the upstream looks at the client that started the query only.  As long as
  nobody joins a query of which the protection would think otherwise, no other client gets the
  error of the router's own query, and the router is not answered by a query to itself.
* A query is not cancelled when the upstream is replaced.  As long as none is in flight then, no
  reply of the old upstream is found in the cache or given to a later request.
-/

namespace GateControl
namespace Dns

open Library

namespace Resolver

/-! ## The loop protection -/

/-- Both requests come from the address, or neither. -/
def SameSide (a : Ip) (r r' : Request) : Prop := r.ip = some a ↔ r'.ip = some a

/-- The router addresses that decide what becomes of a call: the one it has asked or was kept from
asking and, while it can still fall back to the router, the current one. -/
def Concerns (s : Resolver) (k : Call) (a : Ip) : Prop :=
  k.phase.router = some a ∨
    (k.phase = .doh ∧ k.fallbackRouter = true ∧ s.routerIp = some a)

/-- A request that joins a call, and the waiters of a call when the router changes, are on the side
of the request that started the call. -/
def JoinsAlike (s : Resolver) : Action → Prop
  | .forward r _ => ∀ n k, (s.cache.get r.key s.now).2 = none → s.inflight.get r.key = some n →
      s.calls.get n = some k → ∀ a, s.Concerns k a → SameSide a r k.request
  | .router ip => ∀ n k, s.calls.get n = some k → k.phase = .doh → k.fallbackRouter = true →
      ∀ a, ip = some a → ∀ w ∈ k.waiters, SameSide a w.request k.request
  | _ => True

/-- Sharing a query cannot be noticed: the error of the loop protection is for the router only,
and an answer of the router is for others only. -/
structure Transparent (s : Resolver) : Prop where
  guarded : ∀ n k, s.calls.get n = some k → ∀ rip, k.phase = .failed (.loopGuard rip) →
    ∀ w ∈ k.waiters, w.request.ip = some rip
  loopFree : ∀ n k, s.calls.get n = some k → ∀ wire ttlOffsets rip,
    k.phase = .answered wire ttlOffsets (.router rip) → ∀ w ∈ k.waiters, w.request.ip ≠ some rip

/-- The waiters are on the side of the first request, and so is the protection. -/
structure Alike (s : Resolver) (k : Call) : Prop where
  waiters : ∀ a, s.Concerns k a → ∀ w ∈ k.waiters, SameSide a w.request k.request
  guard : ∀ a, k.phase.router = some a →
    (k.phase = .failed (.loopGuard a) ↔ k.request.ip = some a)

def AllAlike (s : Resolver) : Prop := ∀ n k, s.calls.get n = some k → s.Alike k

theorem routerPhase_router {fallbackRouter : Bool} {routerIp fromIp : Option Ip} {id : Nat} {a : Ip}
    (h : (routerPhase fallbackRouter routerIp fromIp id).router = some a) :
    fallbackRouter = true ∧ routerIp = some a ∧
      (routerPhase fallbackRouter routerIp fromIp id = .failed (.loopGuard a) ↔
        fromIp = some a) := by
  rcases routerPhase_cases fallbackRouter routerIp fromIp id with
    hfail | ⟨rip, hfall, hrip, ⟨hip, hphase⟩ | ⟨hip, hphase⟩⟩
  · rw [hfail] at h
    cases h
  · rw [hphase] at h ⊢
    cases h
    exact ⟨hfall, hrip, by simp [hip]⟩
  · rw [hphase] at h ⊢
    cases h
    exact ⟨hfall, hrip, by simp [hip]⟩

theorem firstPhase_router {s : Resolver} {r : Request} {id : Nat} {a : Ip}
    (h : (s.firstPhase r id).router = some a) :
    s.firstPhase r id = .failed (.loopGuard a) ↔ r.ip = some a := by
  rcases firstPhase_cases s r id with hdoh | ⟨f, hfail, rfl | rfl⟩ | ⟨fallbackRouter, hrouter⟩
  · rw [hdoh] at h
    cases h
  · rw [hfail] at h
    cases h
  · rw [hfail] at h
    cases h
  · rw [hrouter] at h ⊢
    exact (routerPhase_router h).2.2

theorem Alike.of_routerIp {s t : Resolver} {k : Call} (h : s.Alike k) (hip : t.routerIp = s.routerIp) :
    t.Alike k := by
  refine ⟨?_, h.guard⟩
  intro a ha
  exact h.waiters a (by simpa only [Concerns, hip] using ha)

theorem AllAlike.same {s t : Resolver} (hs : AllAlike s) (hcalls : t.calls = s.calls)
    (hip : t.routerIp = s.routerIp) : AllAlike t := by
  intro n k hk
  rw [hcalls] at hk
  exact (hs n k hk).of_routerIp hip

theorem AllAlike.set {s t : Resolver} (hs : AllAlike s) {n : Nat} {k : Call}
    (hcalls : t.calls = s.calls.set n k) (hip : t.routerIp = s.routerIp) (hk : s.Alike k) :
    AllAlike t := by
  intro m c hc
  rw [hcalls] at hc
  rcases OrderedMap.get_set_cases hc with ⟨_, rfl⟩ | ⟨_, hold⟩
  · exact hk.of_routerIp hip
  · exact (hs m c hold).of_routerIp hip

theorem alike_begin (s : Resolver) (r : Request) (id : Nat) (hs : AllAlike s) :
    AllAlike (s.begin r id) := by
  refine hs.set rfl rfl ⟨?_, ?_⟩
  · intro a _ w hw
    rw [List.mem_singleton.1 hw]
    exact Iff.rfl
  · intro a ha
    exact firstPhase_router ha

/-- The phase that follows concerns no new address, and the protection has looked at the first
request. -/
theorem alike_move {s : Resolver} {k : Call} {phase : Phase} (hk : s.Alike k)
    (h : Moves s k phase) : s.Alike { k with phase := phase } := by
  cases h with
  -- the router is asked now: the current address was already decisive before
  | fallback id hdoh =>
      constructor
      · intro a ha w hw
        rcases ha with hrouter | ⟨hdoh', _⟩
        · have hcase := routerPhase_router hrouter
          exact hk.waiters a (Or.inr ⟨hdoh, hcase.1, hcase.2.1⟩) w hw
        · -- falling back does not lead to another query over HTTPS
          rcases routerPhase_cases k.fallbackRouter s.routerIp k.request.ip id with
            hfail | ⟨rip, _, _, ⟨_, hphase⟩ | ⟨_, hphase⟩⟩
          · cases hfail.symm.trans hdoh'
          · cases hphase.symm.trans hdoh'
          · cases hphase.symm.trans hdoh'
      · intro a ha
        exact (routerPhase_router ha).2.2
  | retry ip id tcpId hudp =>
      -- the same router is asked again
      have hrouter : k.phase.router = some ip := by rw [hudp, Phase.router]
      constructor
      · intro a ha w hw
        rcases ha with ha | ⟨hdoh, _⟩
        · exact hk.waiters a (Or.inl (hrouter.trans ha)) w hw
        · cases hdoh
      · intro a ha
        have hguard := hk.guard a (hrouter.trans ha)
        simp only [hudp, reduceCtorEq, false_iff] at hguard ⊢
        exact hguard
  | fail =>
      exact ⟨fun a ha => by simp [Concerns, Phase.router] at ha, fun a ha => by cases ha⟩
  | bad =>
      exact ⟨fun a ha => by simp [Concerns, Phase.router] at ha, fun a ha => by cases ha⟩

theorem alike_answer {s : Resolver} {k : Call} {via : Via} (hk : s.Alike k) (h : Replies k via)
    (wire : Bytes) (ttlOffsets : List Nat) :
    s.Alike { k with phase := .answered wire ttlOffsets via } := by
  -- a reply of the router comes from the address the call has asked
  have hsame : ∀ a, (Phase.answered wire ttlOffsets via).router = some a →
      k.phase.router = some a ∧ ∀ b, k.phase ≠ .failed (.loopGuard b) := by
    intro a ha
    cases h with
    | doh hdoh =>
        cases ha
    | udp ip id hudp =>
        rw [hudp]
        exact ⟨ha, fun b hb => by cases hb⟩
    | tcp ip id htcp =>
        rw [htcp]
        exact ⟨ha, fun b hb => by cases hb⟩
  constructor
  · intro a ha w hw
    rcases ha with ha | ⟨hdoh, _⟩
    · exact hk.waiters a (Or.inl (hsame a ha).1) w hw
    · cases hdoh
  · intro a ha
    have hguard := hk.guard a (hsame a ha).1
    simp only [(hsame a ha).2 a, reduceCtorEq, false_iff] at hguard ⊢
    exact hguard

theorem step_alike (host : UnicodeHost) (s : Resolver) (a : Action) (s' : Resolver)
    (hs : AllAlike s) (hok : JoinsAlike s a) (h : step host s a = some s') : AllAlike s' := by
  cases step_event h with
  | look r id =>
      exact hs.same rfl rfl
  | join r id n k hmiss hn hk =>
      -- the condition is about the request that joins
      refine hs.set rfl rfl ⟨?_, (hs n k hk).guard⟩
      intro a ha w hw
      rcases List.mem_append.1 hw with hw | hw
      · exact (hs n k hk).waiters a ha w hw
      · rw [List.mem_singleton.1 hw]
        exact hok n k hmiss hn hk a ha
  | begin r id hfree =>
      exact alike_begin _ r id (hs.same rfl rfl)
  | move a n k phase up hk hopen hmoves =>
      exact hs.set rfl rfl (alike_move (hs n k hk) hmoves)
  | answer a n k wire r via up ha hk hopen hvia hr =>
      simp only [settle, hr]
      exact hs.set rfl rfl (alike_answer (hs n k hk) hvia wire r.ttlOffsets)
  | cleanup n k hk hsettled hin =>
      exact hs.same rfl rfl
  | replace cfg hne =>
      exact hs.same rfl rfl
  | keep cfg =>
      exact hs
  | router ip =>
      intro n k hk
      refine ⟨?_, (hs n k hk).guard⟩
      intro a ha w hw
      rcases ha with ha | ⟨hdoh, hfall, hip⟩
      · exact (hs n k hk).waiters a (Or.inl ha) w hw
      · -- only here can an address become decisive for a call that is under way
        exact hok n k hk hdoh hfall a hip w hw
  | clock now =>
      exact hs.same rfl rfl

theorem AllAlike.transparent {s : Resolver} (hs : AllAlike s) : Transparent s := by
  constructor
  · intro n k hk rip hphase w hw
    have hrouter : k.phase.router = some rip := by rw [hphase, Phase.router]
    have hstarter := ((hs n k hk).guard rip hrouter).1 hphase
    exact ((hs n k hk).waiters rip (Or.inl hrouter) w hw).2 hstarter
  · intro n k hk wire ttlOffsets rip hphase w hw hip
    have hrouter : k.phase.router = some rip := by rw [hphase, Phase.router]
    have hstarter := ((hs n k hk).waiters rip (Or.inl hrouter) w hw).1 hip
    have hguard := ((hs n k hk).guard rip hrouter).2 hstarter
    rw [hphase] at hguard
    cases hguard

theorem coalescing_transparent (host : UnicodeHost) (routerIp : Option Ip) (now : Int)
    (as : List Action) (hok : Admits (step host) JoinsAlike (start routerIp now) as) :
    Throughout (step host) Transparent (start routerIp now) as := by
  have hstart : AllAlike (start routerIp now) := by
    intro n k hk
    cases hk
  exact throughout_of_admits (step_alike host) (fun _ hs => hs.transparent) hstart hok

/-- A request for the address of `a`. -/
def requestFrom (ip : Ip) : Request := ⟨['a'], 1, 1, none, false, false, some ip⟩

def routerAddress : Ip := "192.168.1.1"

def quad9 : UpstreamCfg := ⟨.quad9, none, true⟩

/-- The reply to it with id 7: there are no such records. -/
def noRecords : Bytes := [0, 7, 0x81, 0x80, 0, 1, 0, 0, 0, 0, 0, 0, 1, 0x61, 0, 0, 1, 0, 1]

/-- Two devices ask, the query over HTTPS fails, the router answers. -/
def twoDevices : List Action :=
  [.apply (some quad9), .forward (requestFrom "192.168.1.20") 0,
    .forward (requestFrom "192.168.1.21") 0, .dohFail 0 7, .routerReply 0 noRecords 0]

theorem coalescing_transparent_two_devices :
    (exec (step .ascii) (start (some routerAddress) 0) twoDevices).any (fun t =>
        (t.calls.get 0).any fun k => k.phase.settled && k.waiters.length == 2) = true ∧
      Throughout (step .ascii) Transparent (start (some routerAddress) 0) twoDevices := by
  refine ⟨by decide +kernel, coalescing_transparent .ascii (some routerAddress) 0 twoDevices ?_⟩
  refine ⟨trivial, fun s1 e1 => ⟨?_, fun s2 e2 => ⟨?_, fun _ _ => ⟨trivial, fun _ _ =>
    ⟨trivial, fun _ _ => trivial⟩⟩⟩⟩⟩
  · cases e1
    intro n k _ hn
    cases hn
  · cases e1
    cases e2
    intro n k _ hn hk a ha
    cases hn
    cases hk
    -- the call is not at the router yet, so only the current router counts
    rcases ha with hrouter | ⟨_, _, hip⟩
    · cases hrouter
    · cases hip
      unfold SameSide
      decide

/-- The router asks and another device joins: it gets the error that is meant for the router.  When
the device asks first, the router joins and is given its own answer. -/
theorem coalescing_noticed :
    (∃ t, exec (step .ascii) (start (some routerAddress) 0)
        [.apply (some quad9), .forward (requestFrom routerAddress) 0,
          .forward (requestFrom "192.168.1.20") 0, .dohFail 0 7] = some t ∧
      ¬ Transparent t) ∧
    ∃ t, exec (step .ascii) (start (some routerAddress) 0)
        [.apply (some quad9), .forward (requestFrom "192.168.1.20") 0, .dohFail 0 7,
          .forward (requestFrom routerAddress) 0, .routerReply 0 noRecords 0] = some t ∧
      ¬ Transparent t := by
  constructor
  · have hrun : (exec (step .ascii) (start (some routerAddress) 0)
        [.apply (some quad9), .forward (requestFrom routerAddress) 0,
          .forward (requestFrom "192.168.1.20") 0, .dohFail 0 7]).any (fun t =>
        (t.calls.get 0).any fun k => k.phase = .failed (.loopGuard routerAddress) &&
          k.waiters.contains ⟨requestFrom "192.168.1.20", 1⟩) = true := by
      decide +kernel
    rcases (Option.any_eq_true ..).1 hrun with ⟨t, ht, hbad⟩
    rcases (Option.any_eq_true ..).1 hbad with ⟨k, hk, hboth⟩
    simp only [Bool.and_eq_true, decide_eq_true_eq, List.contains_iff_mem] at hboth
    refine ⟨t, ht, fun hp => ?_⟩
    exact absurd (hp.guarded 0 k hk _ hboth.1 _ hboth.2) (by decide)
  · have hrun : (exec (step .ascii) (start (some routerAddress) 0)
        [.apply (some quad9), .forward (requestFrom "192.168.1.20") 0, .dohFail 0 7,
          .forward (requestFrom routerAddress) 0, .routerReply 0 noRecords 0]).any (fun t =>
        (t.calls.get 0).any fun k => k.phase = .answered noRecords [] (.router routerAddress) &&
          k.waiters.contains ⟨requestFrom routerAddress, 1⟩) = true := by
      decide +kernel
    rcases (Option.any_eq_true ..).1 hrun with ⟨t, ht, hbad⟩
    rcases (Option.any_eq_true ..).1 hbad with ⟨k, hk, hboth⟩
    simp only [Bool.and_eq_true, decide_eq_true_eq, List.contains_iff_mem] at hboth
    refine ⟨t, ht, fun hp => ?_⟩
    exact hp.loopFree 0 k hk _ _ _ hboth.1 _ hboth.2 rfl

/-! ## Replacing the upstream -/

/-- When the upstream changes, no query is in flight. -/
def QuietChange (s : Resolver) : Action → Prop
  | .apply cfg => cfg ≠ s.upstream.map Upstream.cfg → s.inflight.keys = []
  | _ => True

/-- Nothing of an upstream outlives it: the cache holds replies of the current one, and a request
is only given replies of the upstream that it found at its arrival. -/
structure Current (s : Resolver) : Prop where
  cached : ∀ key e, s.cache.map.get key = some e → s.origin.get key = some s.gen
  answered : ∀ n k, s.calls.get n = some k → ∀ wire ttlOffsets via,
    k.phase = .answered wire ttlOffsets via → ∀ w ∈ k.waiters, w.gen = k.gen

/-- The queries in flight are those of the current upstream. -/
structure InTime (s : Resolver) : Prop where
  linked : Linked s
  cached : ∀ key e, s.cache.map.get key = some e → s.origin.get key = some s.gen
  flying : ∀ key n k, s.inflight.get key = some n → s.calls.get n = some k → k.gen = s.gen
  waiters : ∀ n k, s.calls.get n = some k → ∀ w ∈ k.waiters, w.gen = k.gen

theorem inTime_join {s : Resolver} {r : Request} {n : Nat} {k : Call} (hs : InTime s)
    (hn : s.inflight.get r.key = some n) (hk : s.calls.get n = some k)
    (hlinked : Linked (s.join n k r)) : InTime (s.join n k r) := by
  have hgen := hs.flying _ n k hn hk
  refine ⟨hlinked, hs.cached, ?_, ?_⟩
  · intro key m c hm hc
    rcases OrderedMap.get_set_cases hc with ⟨_, rfl⟩ | ⟨_, hold⟩
    · exact hgen
    · exact hs.flying key m c hm hold
  · intro m c hc w hw
    rcases OrderedMap.get_set_cases hc with ⟨_, rfl⟩ | ⟨_, hold⟩
    · rcases List.mem_append.1 hw with hw | hw
      · exact hs.waiters n k hk w hw
      · rw [List.mem_singleton.1 hw]
        exact hgen.symm
    · exact hs.waiters m c hold w hw

theorem inTime_begin {s : Resolver} {r : Request} {id : Nat} (hs : InTime s)
    (hfree : s.inflight.get r.key = none) : InTime (s.begin r id) := by
  refine ⟨hs.linked.begin id hfree, hs.cached, ?_, ?_⟩
  · intro key n k hn hk
    rcases OrderedMap.get_set_cases hk with ⟨_, rfl⟩ | ⟨hne, hold⟩
    · rfl
    · rcases OrderedMap.get_set_cases hn with ⟨_, rfl⟩ | ⟨_, hn⟩
      · exact absurd rfl hne
      · exact hs.flying key n k hn hold
  · intro n k hk w hw
    rcases OrderedMap.get_set_cases hk with ⟨_, rfl⟩ | ⟨_, hold⟩
    · rw [List.mem_singleton.1 hw]
    · exact hs.waiters n k hold w hw

/-- A new phase of a call changes nothing about upstreams. -/
theorem inTime_phase {s t : Resolver} {n : Nat} {k : Call} {phase : Phase} (hs : InTime s)
    (hk : s.calls.get n = some k) (hcalls : t.calls = s.calls.set n { k with phase := phase })
    (hin : t.inflight = s.inflight) (hgen : t.gen = s.gen) (hlinked : Linked t)
    (hcached : ∀ key e, t.cache.map.get key = some e → t.origin.get key = some s.gen) :
    InTime t := by
  refine ⟨hlinked, fun key e he => hgen ▸ hcached key e he, ?_, ?_⟩
  · intro key m c hm hc
    rw [hin] at hm
    rw [hcalls] at hc
    rw [hgen]
    rcases OrderedMap.get_set_cases hc with ⟨rfl, rfl⟩ | ⟨_, hold⟩
    · exact hs.flying key m k hm hk
    · exact hs.flying key m c hm hold
  · intro m c hc w hw
    rw [hcalls] at hc
    rcases OrderedMap.get_set_cases hc with ⟨rfl, rfl⟩ | ⟨_, hold⟩
    · exact hs.waiters m k hk w hw
    · exact hs.waiters m c hold w hw

/-- The reply of an open call is one of the current upstream. -/
theorem cached_settle {host : UnicodeHost} {s : Resolver} {n : Nat} {k : Call} {wire : Bytes}
    {r : Wire.Response} {via : Via} (hs : InTime s) (hk : s.calls.get n = some k)
    (hopen : k.phase.settled = false) (hr : Wire.parseResponse host wire = some r) (key : Text)
    (e : CacheEntry) (he : (s.settle host n k wire via).cache.map.get key = some e) :
    (s.settle host n k wire via).origin.get key = some s.gen := by
  -- a call that can still be answered is in flight, and so of the current upstream
  have hgen : k.gen = s.gen := hs.flying _ n k (hs.linked.opened n k hk hopen) hk
  simp only [settle, hr] at he ⊢
  rcases ResponseCache.set_entry he with ⟨rfl, hacc, _⟩ | ⟨hnot, hold⟩
  · rw [if_pos hacc, OrderedMap.get_set_self, hgen]
  · by_cases hacc : s.cache.accepts wire r = true
    · have hne : key ≠ k.request.key := fun heq => hnot ⟨heq, hacc⟩
      rw [if_pos hacc, OrderedMap.get_set_ne _ hne]
      exact hs.cached key e hold
    · rw [if_neg hacc]
      exact hs.cached key e hold

theorem step_inTime (host : UnicodeHost) (s : Resolver) (a : Action) (s' : Resolver)
    (hs : InTime s) (hok : QuietChange s a) (h : step host s a = some s') : InTime s' := by
  have hlinked := step_linked s a s' hs.linked h
  -- looking a request up only takes entries out of the cache
  have hlook : ∀ r : Request, InTime { s with cache := (s.cache.get r.key s.now).1 } := fun r =>
    ⟨hs.linked.same rfl rfl rfl, fun key e he => hs.cached key e (ResponseCache.get_entry he),
      hs.flying, hs.waiters⟩
  cases step_event h with
  | look r id =>
      exact hlook r
  | join r id n k hmiss hn hk =>
      exact inTime_join (hlook r) hn hk hlinked
  | begin r id hfree =>
      exact inTime_begin (hlook r) hfree
  | move a n k phase up hk hopen hmoves =>
      exact inTime_phase hs hk rfl rfl rfl hlinked hs.cached
  | answer a n k wire r via up ha hk hopen hvia hr =>
      have hup : InTime { s with upstream := up } :=
        ⟨hs.linked.same rfl rfl rfl, hs.cached, hs.flying, hs.waiters⟩
      have hcalls : ({ s with upstream := up }.settle host n k wire via).calls =
          s.calls.set n { k with phase := .answered wire r.ttlOffsets via } := by
        simp only [settle, hr]
      refine inTime_phase hup hk hcalls ?_ ?_ hlinked (cached_settle hup hk hopen hr)
      · simp only [settle, hr]
      · simp only [settle, hr]
  | cleanup n k hk hsettled hin =>
      refine ⟨hlinked, hs.cached, ?_, hs.waiters⟩
      intro key m c hm hc
      exact hs.flying key m c (OrderedMap.get_delete_cases hm).2 hc
  | replace cfg hne =>
      refine ⟨hlinked, ?_, ?_, hs.waiters⟩
      · intro key e he
        simp [ResponseCache.clear] at he
      · -- nothing is in flight, so no call of the old upstream can be joined
        intro key n k hn hk
        have hmem := (OrderedMap.mem_keys_iff _).2 ⟨n, hn⟩
        simp [hok hne] at hmem
  | keep cfg =>
      exact hs
  | router ip =>
      exact ⟨hlinked, hs.cached, hs.flying, hs.waiters⟩
  | clock now =>
      exact ⟨hlinked, hs.cached, hs.flying, hs.waiters⟩

theorem upstream_answers_current (host : UnicodeHost) (routerIp : Option Ip) (now : Int)
    (as : List Action) (hok : Admits (step host) QuietChange (start routerIp now) as) :
    Throughout (step host) Current (start routerIp now) as := by
  have hstart : InTime (start routerIp now) := by
    refine ⟨start_linked routerIp now, ?_, ?_, ?_⟩
    · intro key e he
      cases he
    · intro key n k hn
      cases hn
    · intro n k hk
      cases hk
  refine throughout_of_admits (step_inTime host) ?_ hstart hok
  intro s hs
  exact ⟨hs.cached, fun n k hk _ _ _ _ w hw => hs.waiters n k hk w hw⟩

def cloudflare : UpstreamCfg := ⟨.cloudflare, none, false⟩

/-- A query is answered before the upstream changes; the next request asks the new one. -/
def quietChange : List Action :=
  [.apply (some quad9), .forward (requestFrom "192.168.1.20") 0, .dohReply 0 noRecords,
    .cleanup 0, .apply (some cloudflare), .forward (requestFrom "192.168.1.20") 0,
    .dohReply 1 noRecords]

theorem upstream_answers_current_quiet_change :
    (exec (step .ascii) (start (some routerAddress) 0) quietChange).any (fun t =>
        t.gen == 2 && t.cache.map.size == 1 && t.calls.size == 2) = true ∧
      Throughout (step .ascii) Current (start (some routerAddress) 0) quietChange := by
  refine ⟨by decide +kernel, upstream_answers_current .ascii (some routerAddress) 0 quietChange ?_⟩
  refine ⟨fun _ => rfl, fun s1 e1 => ⟨trivial, fun s2 e2 => ⟨trivial, fun s3 e3 => ⟨trivial,
    fun s4 e4 => ⟨fun _ => ?_, fun _ _ => ⟨trivial, fun _ _ => ⟨trivial, fun _ _ => trivial⟩⟩⟩⟩⟩⟩⟩
  have hrun : ((((step .ascii (start (some routerAddress) 0) (.apply (some quad9))).bind fun s =>
      step .ascii s (.forward (requestFrom "192.168.1.20") 0)).bind fun s =>
      step .ascii s (.dohReply 0 noRecords)).bind fun s => step .ascii s (.cleanup 0)).all
      (fun s => s.inflight.keys.isEmpty) = true := by
    decide +kernel
  simpa [e1, e2, e3, e4] using hrun

/-- The upstream changes while a query to the router of the old one is pending: a later request
joins it, and the answer of the old upstream is stored. -/
theorem old_upstream_answers :
    ∃ t, exec (step .ascii) (start (some routerAddress) 0)
        [.apply (some quad9), .forward (requestFrom "192.168.1.20") 0, .dohFail 0 7,
          .apply (some cloudflare), .forward (requestFrom "192.168.1.21") 0,
          .routerReply 0 noRecords 0] = some t ∧
      (∃ key e, t.cache.map.get key = some e ∧ t.origin.get key ≠ some t.gen) ∧
      (∃ k w wire ttlOffsets via, t.calls.get 0 = some k ∧
        k.phase = .answered wire ttlOffsets via ∧ w ∈ k.waiters ∧ w.gen ≠ k.gen) ∧
      ¬ Current t := by
  have hrun : (exec (step .ascii) (start (some routerAddress) 0)
      [.apply (some quad9), .forward (requestFrom "192.168.1.20") 0, .dohFail 0 7,
        .apply (some cloudflare), .forward (requestFrom "192.168.1.21") 0,
        .routerReply 0 noRecords 0]).any (fun t =>
      (t.cache.map.has (requestFrom "192.168.1.20").key &&
        t.origin.get (requestFrom "192.168.1.20").key != some t.gen) &&
      (t.calls.get 0).any fun k =>
        k.phase = .answered noRecords [] (.router routerAddress) && k.gen == 1 &&
          k.waiters.contains ⟨requestFrom "192.168.1.21", 2⟩) = true := by
    decide +kernel
  rcases (Option.any_eq_true ..).1 hrun with ⟨t, ht, hbad⟩
  simp only [Bool.and_eq_true, Option.any_eq_true, decide_eq_true_eq, beq_iff_eq, bne_iff_ne,
    List.contains_iff_mem, OrderedMap.has_iff, OrderedMap.mem_keys_iff] at hbad
  rcases hbad with ⟨⟨⟨e, he⟩, horigin⟩, k, hk, ⟨hphase, hgen⟩, hw⟩
  refine ⟨t, ht, ⟨_, e, he, horigin⟩, ⟨k, _, _, _, _, hk, hphase, hw, ?_⟩, ?_⟩
  · rw [hgen]
    decide
  · intro hp
    exact horigin (hp.cached _ e he)

end Resolver

end Dns
end GateControl
