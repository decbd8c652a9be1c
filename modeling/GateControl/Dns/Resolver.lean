import GateControl.Library.OrderedMap
import GateControl.Library.Transition
import GateControl.Dns.Config
import GateControl.Dns.ResponseCache

/-!
# Resolver — forwarding requests, with a cache and shared queries

`_forward` answers a request from the cache, joins the query that is in flight under the same key,
or starts one.  A query goes to the upstream of that moment: over HTTPS first, then to the router,
unless the router itself asked.  `DnsFilter.apply` can replace the upstream at any time.

The state holds all calls that were ever started, so that who got which answer can be read off it:
a call's waiters get its outcome.  Replies, failures, random ids and the moments at which they
arrive are part of the actions.  `gen` counts the upstreams; together with `origin`, the upstream
each cached reply came from, it is only there to be talked about.
-/

namespace GateControl
namespace Dns

open Library

abbrev Ip := String

structure Request where
  name : Text
  qtype : Nat
  qclass : Nat
  /-- Whether the client spoke EDNS, and its DO bit. -/
  edns : Option Bool
  cd : Bool
  isLocal : Bool
  ip : Option Ip
  deriving DecidableEq

def flagChar (b : Bool) : Char := if b then '1' else '0'

/-- The key of the cache and of the queries in flight; the client's address is not part of it. -/
def Request.key (r : Request) : Text :=
  [if r.isLocal then 'L' else 'U'] ++ '|' :: decimal r.qtype ++ '|' :: decimal r.qclass ++
    '|' :: r.name ++ '|' :: [flagChar r.edns.isSome, flagChar (r.edns.getD false), flagChar r.cd]

/-- Requests of one key ask the same question. -/
theorem Request.key_injective {r r' : Request} (h : r.key = r'.key) :
    r.isLocal = r'.isLocal ∧ r.qtype = r'.qtype ∧ r.qclass = r'.qclass ∧ r.name = r'.name := by
  simp only [key, List.append_assoc, List.cons_append, List.nil_append, List.cons.injEq,
    true_and] at h
  have hpart : ∀ n, '|' ∉ decimal n := fun n => not_mem_decimal (by decide)
  have htype := append_cons_injective (hpart _) (hpart _) h.2
  have hclass := append_cons_injective (hpart _) (hpart _) htype.2
  -- the name can hold the separator; what follows it has a fixed length
  have hname := List.append_inj' hclass.2 (by simp)
  refine ⟨?_, decimal_injective htype.1, decimal_injective hclass.1, hname.1⟩
  cases hl : r.isLocal with
  | false =>
      cases hl' : r'.isLocal with
      | false =>
          rfl
      | true =>
          simp [hl, hl'] at h
  | true =>
      cases hl' : r'.isLocal with
      | false =>
          simp [hl, hl'] at h
      | true =>
          rfl

structure Upstream where
  cfg : UpstreamCfg
  dohDownUntil : Int
  streak : Nat
  deriving DecidableEq

def downAfter : Nat := 3

def downMs : Int := 60000

def Upstream.new (cfg : UpstreamCfg) : Upstream := ⟨cfg, 0, 0⟩

/-- A query over HTTPS has failed. -/
def Upstream.dohFailed (u : Upstream) (now : Int) : Upstream :=
  if u.streak + 1 ≥ downAfter then { u with dohDownUntil := now + downMs, streak := 0 }
  else { u with streak := u.streak + 1 }

inductive Via
  | doh
  | router (ip : Ip)
  deriving DecidableEq

/-- Why a call failed; `loopGuard` when the router would have been asked for itself. -/
inductive Failure
  | noUpstream
  | loopGuard (ip : Ip)
  | noRouter
  | upstream
  | badResponse
  deriving DecidableEq

/-- What a call waits for, or how it ended. -/
inductive Phase
  | doh
  | udp (ip : Ip) (id : Nat)
  | tcp (ip : Ip) (id : Nat)
  | answered (wire : Bytes) (ttlOffsets : List Nat) (via : Via)
  | failed (f : Failure)
  deriving DecidableEq

namespace Phase

def settled : Phase → Bool
  | .answered .. => true
  | .failed _ => true
  | _ => false

/-- The router address the call has asked, or was kept from asking. -/
def router : Phase → Option Ip
  | .udp ip _ => some ip
  | .tcp ip _ => some ip
  | .answered _ _ (.router ip) => some ip
  | .failed (.loopGuard ip) => some ip
  | _ => none

end Phase

/-- A request that waits for a call; `gen` is the upstream at its arrival. -/
structure Waiter where
  request : Request
  gen : Nat
  deriving DecidableEq

structure Call where
  /-- The request that started the call. -/
  request : Request
  /-- The upstream it asks, and that upstream's setting. -/
  gen : Nat
  fallbackRouter : Bool
  phase : Phase
  waiters : List Waiter
  deriving DecidableEq

structure Resolver where
  cache : ResponseCache
  calls : OrderedMap Nat Call
  nextCall : Nat
  inflight : OrderedMap Text Nat
  upstream : Option Upstream
  routerIp : Option Ip
  now : Int
  gen : Nat
  origin : OrderedMap Text Nat

namespace Resolver

/-- A filter that is switched off. -/
def start (routerIp : Option Ip) (now : Int) : Resolver where
  cache := .new 10000 8388608
  calls := .empty
  nextCall := 0
  inflight := .empty
  upstream := none
  routerIp := routerIp
  now := now
  gen := 0
  origin := .empty

/-! ## The upstream -/

/-- `_router`: ask the router, unless that is not wanted, not possible, or the router asked. -/
def routerPhase (fallbackRouter : Bool) (routerIp fromIp : Option Ip) (id : Nat) : Phase :=
  if !fallbackRouter then .failed .upstream
  else
    match routerIp with
    | none => .failed .upstream
    | some rip => if fromIp = some rip then .failed (.loopGuard rip) else .udp rip id

/-- `local`: names of the home network go to the router directly. -/
def localPhase (routerIp fromIp : Option Ip) (id : Nat) : Phase :=
  match routerIp with
  | none => .failed .noRouter
  | some rip => if fromIp = some rip then .failed (.loopGuard rip) else .udp rip id

theorem routerPhase_cases (fallbackRouter : Bool) (routerIp fromIp : Option Ip) (id : Nat) :
    routerPhase fallbackRouter routerIp fromIp id = .failed .upstream ∨
      ∃ rip, fallbackRouter = true ∧ routerIp = some rip ∧
        ((fromIp = some rip ∧
            routerPhase fallbackRouter routerIp fromIp id = .failed (.loopGuard rip)) ∨
          (fromIp ≠ some rip ∧ routerPhase fallbackRouter routerIp fromIp id = .udp rip id)) := by
  cases fallbackRouter with
  | false =>
      exact Or.inl rfl
  | true =>
      cases routerIp with
      | none =>
          exact Or.inl rfl
      | some rip =>
          refine Or.inr ⟨rip, rfl, rfl, ?_⟩
          by_cases hip : fromIp = some rip
          · exact Or.inl ⟨hip, by simp [routerPhase, hip]⟩
          · exact Or.inr ⟨hip, by simp [routerPhase, hip]⟩

/-- The first wait of a call; `id` is the random id of a query to the router. -/
def firstPhase (s : Resolver) (r : Request) (id : Nat) : Phase :=
  match s.upstream with
  -- the source fails on calling a method of `null`
  | none => .failed .noUpstream
  | some u =>
      if r.isLocal then localPhase s.routerIp r.ip id
      -- after several failures in a row HTTPS is not tried for a while
      else if u.dohDownUntil > s.now then routerPhase u.cfg.fallbackRouter s.routerIp r.ip id
      else .doh

theorem firstPhase_cases (s : Resolver) (r : Request) (id : Nat) :
    s.firstPhase r id = .doh ∨ (∃ f, s.firstPhase r id = .failed f ∧ (f = .noUpstream ∨ f = .noRouter)) ∨
      ∃ fallbackRouter, s.firstPhase r id = routerPhase fallbackRouter s.routerIp r.ip id := by
  unfold firstPhase
  split
  · exact Or.inr (Or.inl ⟨_, rfl, Or.inl rfl⟩)
  · split
    · cases s.routerIp with
      | none =>
          exact Or.inr (Or.inl ⟨_, rfl, Or.inr rfl⟩)
      | some rip =>
          -- with a router, `local` does what `_router` does when the fallback is wanted
          exact Or.inr (Or.inr ⟨true, rfl⟩)
    · split
      · exact Or.inr (Or.inr ⟨_, rfl⟩)
      · exact Or.inl rfl

/-- Change the state of the upstream if the call asked the current one. -/
def updateUpstream (s : Resolver) (k : Call) (f : Upstream → Upstream) : Option Upstream :=
  if k.gen = s.gen then s.upstream.map f else s.upstream

def setPhase (s : Resolver) (n : Nat) (k : Call) (phase : Phase) : Resolver :=
  { s with calls := s.calls.set n { k with phase := phase } }

/-- A reply has come back: it is parsed, stored and handed to the waiters. -/
def settle (host : UnicodeHost) (s : Resolver) (n : Nat) (k : Call) (wire : Bytes) (via : Via) :
    Resolver :=
  match Wire.parseResponse host wire with
  | none => s.setPhase n k (.failed .badResponse)
  | some r =>
      let key := k.request.key
      { s with
        -- stored under the key of the first request, whatever question the reply has
        cache := s.cache.set key wire r s.now
        origin := if s.cache.accepts wire r then s.origin.set key k.gen else s.origin
        calls := s.calls.set n { k with phase := .answered wire r.ttlOffsets via } }

/-! ## Requests -/

/-- Wait for the call that is in flight. -/
def join (s : Resolver) (n : Nat) (k : Call) (r : Request) : Resolver :=
  { s with calls := s.calls.set n { k with waiters := k.waiters ++ [⟨r, s.gen⟩] } }

def begin (s : Resolver) (r : Request) (id : Nat) : Resolver :=
  let k : Call :=
    { request := r
      gen := s.gen
      -- kept from the upstream of this moment, which the call holds on to
      fallbackRouter := (s.upstream.map fun u => u.cfg.fallbackRouter).getD false
      phase := s.firstPhase r id
      waiters := [⟨r, s.gen⟩] }
  { s with
    calls := s.calls.set s.nextCall k
    inflight := s.inflight.set r.key s.nextCall
    nextCall := s.nextCall + 1 }

/-- `_forward` up to its first wait. -/
def forward (s : Resolver) (r : Request) (id : Nat) : Resolver :=
  let look := s.cache.get r.key s.now
  let s := { s with cache := look.1 }
  match look.2 with
  | some _ => s
  | none =>
      match s.inflight.get r.key with
      | none => s.begin r id
      | some n =>
          match s.calls.get n with
          | some k => s.join n k r
          | none => s

/-- `DnsFilter.apply`; without a configuration the filter is switched off. -/
def apply (s : Resolver) (cfg : Option UpstreamCfg) : Resolver :=
  if cfg = s.upstream.map Upstream.cfg then s
  else
    { s with
      upstream := cfg.map Upstream.new
      gen := s.gen + 1
      -- `inflight` and the calls stay as they are
      cache := s.cache.clear }

/-! ## Steps -/

inductive Action
  | forward (r : Request) (id : Nat)
  /-- A body came back over HTTPS. -/
  | dohReply (n : Nat) (wire : Bytes)
  | dohFail (n : Nat) (id : Nat)
  /-- A message with the right id came back from the router. -/
  | routerReply (n : Nat) (wire : Bytes) (tcpId : Nat)
  | routerFail (n : Nat)
  /-- The settled call is taken out of the queries in flight. -/
  | cleanup (n : Nat)
  | apply (cfg : Option UpstreamCfg)
  | router (ip : Option Ip)
  | clock (now : Int)

/-- The truncation bit of a reply. -/
def truncated (wire : Bytes) : Bool := ((Wire.readFlags wire).getD 0).testBit 9

def step (host : UnicodeHost) (s : Resolver) : Action → Option Resolver
  | .forward r id => some (s.forward r id)
  | .dohReply n wire =>
      match s.calls.get n with
      | some k =>
          if k.phase = .doh ∧ 12 ≤ wire.length then
            -- a shorter body is a failure of the query
            some ({ s with upstream := s.updateUpstream k fun u => { u with streak := 0 } }.settle
              host n k wire .doh)
          else none
      | none => none
  | .dohFail n id =>
      match s.calls.get n with
      | some k =>
          if k.phase = .doh then
            some ({ s with upstream := s.updateUpstream k fun u => u.dohFailed s.now }.setPhase n k
              (routerPhase k.fallbackRouter s.routerIp k.request.ip id))
          else none
      | none => none
  | .routerReply n wire tcpId =>
      match s.calls.get n with
      | some k =>
          match k.phase with
          | .udp ip id =>
              if 12 ≤ wire.length ∧ readUInt16BE wire 0 = some id then
                -- a truncated reply is asked for again over TCP
                if truncated wire then some (s.setPhase n k (.tcp ip tcpId))
                else some (s.settle host n k wire (.router ip))
              else none
          | .tcp ip id =>
              if 12 ≤ wire.length ∧ readUInt16BE wire 0 = some id then
                some (s.settle host n k wire (.router ip))
              else none
          | _ => none
      | none => none
  | .routerFail n =>
      match s.calls.get n with
      | some k =>
          match k.phase with
          | .udp .. => some (s.setPhase n k (.failed .upstream))
          | .tcp .. => some (s.setPhase n k (.failed .upstream))
          | _ => none
      | none => none
  | .cleanup n =>
      match s.calls.get n with
      | some k =>
          if k.phase.settled ∧ s.inflight.get k.request.key = some n then
            some { s with inflight := s.inflight.delete k.request.key }
          else none
      | none => none
  | .apply cfg => some (s.apply cfg)
  | .router ip => some { s with routerIp := ip }
  | .clock now => some { s with now := now }

/-! ## What a step can do -/

/-- The phase a call can go to without having been answered. -/
inductive Moves (s : Resolver) (k : Call) : Phase → Prop
  /-- The query over HTTPS failed. -/
  | fallback (id : Nat) : k.phase = .doh →
      Moves s k (routerPhase k.fallbackRouter s.routerIp k.request.ip id)
  /-- The reply of the router was truncated. -/
  | retry (ip : Ip) (id tcpId : Nat) : k.phase = .udp ip id → Moves s k (.tcp ip tcpId)
  | fail : Moves s k (.failed .upstream)
  | bad : Moves s k (.failed .badResponse)

/-- Where the reply of a call can come from. -/
inductive Replies (k : Call) : Via → Prop
  | doh : k.phase = .doh → Replies k .doh
  | udp (ip : Ip) (id : Nat) : k.phase = .udp ip id → Replies k (.router ip)
  | tcp (ip : Ip) (id : Nat) : k.phase = .tcp ip id → Replies k (.router ip)

/-- All steps, without the conditions that only concern their timing. -/
inductive Event (host : UnicodeHost) (s : Resolver) : Action → Resolver → Prop
  /-- The request is answered from the cache. -/
  | look (r : Request) (id : Nat) :
      Event host s (.forward r id) { s with cache := (s.cache.get r.key s.now).1 }
  | join (r : Request) (id n : Nat) (k : Call) :
      (s.cache.get r.key s.now).2 = none → s.inflight.get r.key = some n → s.calls.get n = some k →
      Event host s (.forward r id) ({ s with cache := (s.cache.get r.key s.now).1 }.join n k r)
  | begin (r : Request) (id : Nat) : s.inflight.get r.key = none →
      Event host s (.forward r id) ({ s with cache := (s.cache.get r.key s.now).1 }.begin r id)
  | move (a : Action) (n : Nat) (k : Call) (phase : Phase) (up : Option Upstream) :
      s.calls.get n = some k → k.phase.settled = false → Moves s k phase →
      Event host s a ({ s with upstream := up }.setPhase n k phase)
  | answer (a : Action) (n : Nat) (k : Call) (wire : Bytes) (r : Wire.Response) (via : Via)
      (up : Option Upstream) :
      (a = .dohReply n wire ∨ ∃ tcpId, a = .routerReply n wire tcpId ∧
        (truncated wire = false ∨ ∃ ip id, k.phase = .tcp ip id)) →
      s.calls.get n = some k → k.phase.settled = false → Replies k via →
      Wire.parseResponse host wire = some r →
      Event host s a ({ s with upstream := up }.settle host n k wire via)
  | cleanup (n : Nat) (k : Call) :
      s.calls.get n = some k → k.phase.settled = true → s.inflight.get k.request.key = some n →
      Event host s (.cleanup n) { s with inflight := s.inflight.delete k.request.key }
  | replace (cfg : Option UpstreamCfg) : cfg ≠ s.upstream.map Upstream.cfg →
      Event host s (.apply cfg)
        { s with upstream := cfg.map Upstream.new, gen := s.gen + 1, cache := s.cache.clear }
  | keep (cfg : Option UpstreamCfg) : Event host s (.apply cfg) s
  | router (ip : Option Ip) : Event host s (.router ip) { s with routerIp := ip }
  | clock (now : Int) : Event host s (.clock now) { s with now := now }

/-- A reply that arrives is handed on, or found to be broken. -/
theorem settle_event {host : UnicodeHost} {s : Resolver} {a : Action} {n : Nat} {k : Call}
    {wire : Bytes} {via : Via} (up : Option Upstream)
    (ha : a = .dohReply n wire ∨ ∃ tcpId, a = .routerReply n wire tcpId ∧
      (truncated wire = false ∨ ∃ ip id, k.phase = .tcp ip id))
    (hk : s.calls.get n = some k) (hopen : k.phase.settled = false) (hvia : Replies k via) :
    Event host s a ({ s with upstream := up }.settle host n k wire via) := by
  cases hr : Wire.parseResponse host wire with
  | none =>
      have hbad : { s with upstream := up }.settle host n k wire via =
          { s with upstream := up }.setPhase n k (.failed .badResponse) := by
        simp [settle, hr]
      rw [hbad]
      exact .move a n k _ up hk hopen .bad
  | some r =>
      exact .answer a n k wire r via up ha hk hopen hvia hr

theorem step_event {host : UnicodeHost} {s s' : Resolver} {a : Action}
    (h : step host s a = some s') : Event host s a s' := by
  cases a with
  | forward r id =>
      cases h
      unfold forward
      simp only
      split
      · exact .look r id
      · rename_i hmiss
        split
        · rename_i hnone
          exact .begin r id hnone
        · rename_i n hn
          split
          · rename_i k hk
            exact .join r id n k hmiss hn hk
          · exact .look r id
  | dohReply n wire =>
      simp only [step] at h
      split at h
      · rename_i k hk
        split at h
        · rename_i hcond
          cases h
          exact settle_event _ (.inl rfl) hk (by simp [hcond.1, Phase.settled]) (.doh hcond.1)
        · cases h
      · cases h
  | dohFail n id =>
      simp only [step] at h
      split at h
      · rename_i k hk
        split at h
        · rename_i hdoh
          cases h
          exact .move _ n k _ _ hk (by simp [hdoh, Phase.settled]) (.fallback id hdoh)
        · cases h
      · cases h
  | routerReply n wire tcpId =>
      simp only [step] at h
      split at h
      · rename_i k hk
        split at h
        · rename_i ip id hudp
          have hopen : k.phase.settled = false := by simp [hudp, Phase.settled]
          split at h
          · split at h
            · cases h
              exact .move _ n k _ s.upstream hk hopen (.retry ip id tcpId hudp)
            · rename_i htc
              cases h
              exact settle_event s.upstream (.inr ⟨tcpId, rfl, .inl (by simpa using htc)⟩) hk hopen
                (.udp ip id hudp)
          · cases h
        · rename_i ip id htcp
          split at h
          · cases h
            exact settle_event s.upstream (.inr ⟨tcpId, rfl, .inr ⟨ip, id, htcp⟩⟩) hk
              (by simp [htcp, Phase.settled]) (.tcp ip id htcp)
          · cases h
        · cases h
      · cases h
  | routerFail n =>
      simp only [step] at h
      split at h
      · rename_i k hk
        split at h
        · rename_i hudp
          cases h
          exact .move _ n k _ s.upstream hk (by simp [hudp, Phase.settled]) .fail
        · rename_i htcp
          cases h
          exact .move _ n k _ s.upstream hk (by simp [htcp, Phase.settled]) .fail
        · cases h
      · cases h
  | cleanup n =>
      simp only [step] at h
      split at h
      · rename_i k hk
        split at h
        · rename_i hcond
          cases h
          exact .cleanup n k hk hcond.1 hcond.2
        · cases h
      · cases h
  | apply cfg =>
      cases h
      unfold apply
      split
      · exact .keep cfg
      · rename_i hne
        exact .replace cfg hne
  | router ip =>
      cases h
      exact .router ip
  | clock now =>
      cases h
      exact .clock now

/-! ## Calls and the queries in flight -/

/-- A call is in flight under its key until it has been settled, and all its waiters have its
key. -/
structure Linked (s : Resolver) : Prop where
  inflight : ∀ key n, s.inflight.get key = some n →
    ∃ k, s.calls.get n = some k ∧ k.request.key = key
  fresh : ∀ n k, s.calls.get n = some k → n < s.nextCall
  opened : ∀ n k, s.calls.get n = some k → k.phase.settled = false →
    s.inflight.get k.request.key = some n
  keys : ∀ n k, s.calls.get n = some k → ∀ w ∈ k.waiters, w.request.key = k.request.key
  starter : ∀ n k, s.calls.get n = some k → ∃ w ∈ k.waiters, w.request = k.request

theorem Linked.same {s t : Resolver} (hs : Linked s) (hcalls : t.calls = s.calls)
    (hin : t.inflight = s.inflight) (hnext : t.nextCall = s.nextCall) : Linked t where
  inflight := by simpa only [hcalls, hin] using hs.inflight
  fresh := by simpa only [hcalls, hnext] using hs.fresh
  opened := by simpa only [hcalls, hin] using hs.opened
  keys := by simpa only [hcalls] using hs.keys
  starter := by simpa only [hcalls] using hs.starter

theorem start_linked (routerIp : Option Ip) (now : Int) : Linked (start routerIp now) := by
  constructor <;> simp [start]

/-- A call that goes on, or gets another waiter, stays linked. -/
theorem Linked.update {s t : Resolver} (hs : Linked s) {n : Nat} {k k' : Call}
    (hk : s.calls.get n = some k) (hcalls : t.calls = s.calls.set n k')
    (hin : t.inflight = s.inflight) (hnext : t.nextCall = s.nextCall)
    (hreq : k'.request = k.request)
    (hopen : k'.phase.settled = false → k.phase.settled = false)
    (hkeep : ∀ w ∈ k.waiters, w ∈ k'.waiters)
    (hnew : ∀ w ∈ k'.waiters, w ∈ k.waiters ∨ w.request.key = k.request.key) : Linked t := by
  constructor
  case inflight =>
    intro key m hm
    rw [hin] at hm
    -- the call keeps the request that started it, and so its key
    rcases hs.inflight key m hm with ⟨c, hc, hkey⟩
    by_cases hmn : m = n
    · subst hmn
      have hck : c = k := Option.some.inj (hc.symm.trans hk)
      exact ⟨k', by rw [hcalls, OrderedMap.get_set_self], by rw [hreq, ← hck, hkey]⟩
    · exact ⟨c, by rw [hcalls, OrderedMap.get_set_ne _ hmn, hc], hkey⟩
  case fresh =>
    intro m c hc
    rw [hcalls] at hc
    rw [hnext]
    rcases OrderedMap.get_set_cases hc with ⟨rfl, _⟩ | ⟨_, hold⟩
    · exact hs.fresh m k hk
    · exact hs.fresh m c hold
  case opened =>
    intro m c hc hopened
    rw [hcalls] at hc
    rw [hin]
    rcases OrderedMap.get_set_cases hc with ⟨rfl, rfl⟩ | ⟨_, hold⟩
    · rw [hreq]
      exact hs.opened m k hk (hopen hopened)
    · exact hs.opened m c hold hopened
  case keys =>
    intro m c hc w hw
    rw [hcalls] at hc
    rcases OrderedMap.get_set_cases hc with ⟨rfl, rfl⟩ | ⟨_, hold⟩
    · rw [hreq]
      exact (hnew w hw).elim (hs.keys m k hk w) fun hkey => hkey
    · exact hs.keys m c hold w hw
  case starter =>
    intro m c hc
    rw [hcalls] at hc
    rcases OrderedMap.get_set_cases hc with ⟨rfl, rfl⟩ | ⟨_, hold⟩
    · rcases hs.starter m k hk with ⟨w, hw, hwreq⟩
      exact ⟨w, hkeep w hw, by rw [hreq, hwreq]⟩
    · exact hs.starter m c hold

theorem Linked.begin {s : Resolver} (hs : Linked s) {r : Request} (id : Nat)
    (hfree : s.inflight.get r.key = none) : Linked (s.begin r id) := by
  constructor
  case inflight =>
    intro key n hn
    rcases OrderedMap.get_set_cases hn with ⟨rfl, rfl⟩ | ⟨_, hold⟩
    · exact ⟨_, OrderedMap.get_set_self _ _ _, rfl⟩
    · -- older calls have smaller numbers
      rcases hs.inflight key n hold with ⟨k, hk, hkey⟩
      have hne : n ≠ s.nextCall := Nat.ne_of_lt (hs.fresh n k hk)
      exact ⟨k, (OrderedMap.get_set_ne _ hne _).trans hk, hkey⟩
  case fresh =>
    intro n k hk
    rcases OrderedMap.get_set_cases hk with ⟨rfl, _⟩ | ⟨_, hold⟩
    · exact Nat.lt_succ_self _
    · exact Nat.lt_succ_of_lt (hs.fresh n k hold)
  case opened =>
    intro n k hk hopened
    rcases OrderedMap.get_set_cases hk with ⟨rfl, rfl⟩ | ⟨_, hold⟩
    · exact OrderedMap.get_set_self _ _ _
    · have hin := hs.opened n k hold hopened
      -- an open call of this key would be in flight
      have hne : k.request.key ≠ r.key := by
        intro heq
        rw [heq, hfree] at hin
        cases hin
      exact (OrderedMap.get_set_ne _ hne _).trans hin
  case keys =>
    intro n k hk w hw
    rcases OrderedMap.get_set_cases hk with ⟨_, rfl⟩ | ⟨_, hold⟩
    · rw [List.mem_singleton.1 hw]
    · exact hs.keys n k hold w hw
  case starter =>
    intro n k hk
    rcases OrderedMap.get_set_cases hk with ⟨_, rfl⟩ | ⟨_, hold⟩
    · exact ⟨_, List.mem_singleton_self _, rfl⟩
    · exact hs.starter n k hold

theorem Linked.cleanup {s : Resolver} (hs : Linked s) {n : Nat} {k : Call}
    (hk : s.calls.get n = some k) (hsettled : k.phase.settled = true)
    (hin : s.inflight.get k.request.key = some n) :
    Linked { s with inflight := s.inflight.delete k.request.key } := by
  refine ⟨?_, hs.fresh, ?_, hs.keys, hs.starter⟩
  · intro key m hm
    exact hs.inflight key m (OrderedMap.get_delete_cases hm).2
  · intro m c hc hopened
    have hm := hs.opened m c hc hopened
    rw [OrderedMap.get_delete]
    split
    · rename_i hkey
      -- the call of this key is settled
      rw [hkey, hin, Option.some.injEq] at hm
      subst hm
      rw [Option.some.inj (hc.symm.trans hk), hsettled] at hopened
      cases hopened
    · exact hm

theorem step_linked {host : UnicodeHost} (s : Resolver) (a : Action) (s' : Resolver)
    (hs : Linked s) (h : step host s a = some s') : Linked s' := by
  cases step_event h with
  | join r id n k hmiss hn hk =>
      refine hs.update hk rfl rfl rfl rfl (fun hopen => hopen) ?_ ?_
      · intro w hw
        exact List.mem_append_left _ hw
      · intro w hw
        refine (List.mem_append.1 hw).imp (fun hold => hold) ?_
        intro hnew
        rcases hs.inflight _ n hn with ⟨c, hc, hkey⟩
        rw [List.mem_singleton.1 hnew, ← hkey, Option.some.inj (hc.symm.trans hk)]
  | begin r id hfree =>
      have hlook : Linked { s with cache := (s.cache.get r.key s.now).1 } := hs.same rfl rfl rfl
      exact hlook.begin id hfree
  | move a n k phase up hk hopen hmoves =>
      exact hs.update hk rfl rfl rfl rfl (fun _ => hopen) (fun _ hw => hw) (fun _ hw => Or.inl hw)
  | answer a n k wire r via up ha hk hopen hvia hr =>
      simp only [settle, hr]
      exact hs.update hk rfl rfl rfl rfl (fun _ => hopen) (fun _ hw => hw) (fun _ hw => Or.inl hw)
  | cleanup n k hk hsettled hin =>
      exact hs.cleanup hk hsettled hin
  | look r id =>
      exact hs.same rfl rfl rfl
  | replace cfg hne =>
      exact hs.same rfl rfl rfl
  | keep cfg =>
      exact hs
  | router ip =>
      exact hs.same rfl rfl rfl
  | clock now =>
      exact hs.same rfl rfl rfl

end Resolver

end Dns
end GateControl
