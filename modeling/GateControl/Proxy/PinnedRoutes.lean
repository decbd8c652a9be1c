import Mathlib.Data.List.Induction
import GateControl.Library.Transition
import GateControl.Proxy.TlsPin

/-!
# PinnedRoutes — routes whose backend has to show a certificate

A route may carry the fingerprint of its backend's certificate.  `Gateway` is what requests go
through: the routing table, the handlers of requests and upgrades, the cache of agents, and the
connections that are made.  `pinned_fail_closed` says that no request for such a route gets a socket
without the certificate, whatever comes in between.
-/

namespace GateControl
namespace Proxy
namespace Http

open Library
open Edge (isTruthy)

/-! ## The routing table -/

/-- A route as the server sends it; host and port as they are printed. -/
structure HttpRoute where
  id : Text
  domain : Text
  targetLanHost : Text
  targetLanPort : Text
  backendHttps : Option Json
  backendTlsFingerprint : Option Json
  wolEnabled : Option Json
  wolMac : Option Json

/-- What the table holds for a route. -/
structure Target where
  host : Text
  port : Text
  backendHttps : Bool
  wolMac : Option Json
  routeId : Text
  backendTlsFingerprint : Option Text
  backendTlsPinInvalid : Bool

/-- There is a value, and not the empty text. -/
def isConfigured (rawFingerprint : Option Json) : Bool :=
  match rawFingerprint with
  | none => false
  | some .null => false
  | some (.str s) => s ≠ []
  | some _ => true

/-- The backend is to be reached by TLS and has to show a certificate. -/
def HttpRoute.Pinned (route : HttpRoute) : Prop :=
  route.backendHttps.any isTruthy = true ∧ isConfigured route.backendTlsFingerprint = true

def targetOf (route : HttpRoute) : Target :=
  let rawFingerprint := route.backendTlsFingerprint
  let configured := isConfigured rawFingerprint
  let fingerprint := if configured then normalizeFingerprint rawFingerprint else none
  let backendHttps := route.backendHttps.any isTruthy
  { host := route.targetLanHost
    port := route.targetLanPort
    backendHttps := backendHttps
    wolMac := if route.wolEnabled.any isTruthy then route.wolMac.filter isTruthy else none
    routeId := route.id
    backendTlsFingerprint := fingerprint
    -- without TLS there is nothing to pin, and the route serves
    backendTlsPinInvalid := backendHttps && configured && fingerprint.isNone }

abbrev RouteMap := OrderedMap Text Target

def setRoutes (httpRoutes : List HttpRoute) : RouteMap :=
  httpRoutes.foldl (fun next route => next.set route.domain (targetOf route)) .empty

def resolve (routes : RouteMap) (domain : Text) : Option Target := routes.get domain

/-! ## Requests -/

/-- The headers that a request is routed by. -/
structure Request where
  targetDomain : Option Text
  host : Option Text

/-- The first header that is there and not empty. -/
def Request.domain (req : Request) : Text :=
  ((req.targetDomain.filter fun s => s ≠ []) <|> (req.host.filter fun s => s ≠ [])).getD []

/-- The options for the proxy; `close` asks for a connection of its own. -/
structure ProxyOptions where
  target : Text
  agent : Option PinnedHttpsAgent
  close : Bool

def urlOf (target : Target) : Text :=
  (if target.backendHttps then "https" else "http").toList ++ "://".toList ++ target.host ++
    ':' :: target.port

def proxyOptionsFor (agentCache : AgentCache) (target : Target) (upgrade : Bool) :
    AgentCache × ProxyOptions :=
  match target.backendTlsFingerprint.filter fun fp => target.backendHttps && fp ≠ [] with
  | some fingerprint =>
      let r := getPinnedAgent agentCache target.host target.port fingerprint
      (r.1, ⟨urlOf target, some r.2, !upgrade⟩)
  | none => (agentCache, ⟨urlOf target, none, false⟩)

/-- What becomes of a request. -/
inductive Outcome
  | answered (status : Nat) (body : Text)
  | destroyed
  | forwarded (options : ProxyOptions)

def pinConfigCode : String := "ERR_TLS_PIN_CONFIG"

def forward (agentCache : AgentCache) (target : Target) (upgrade : Bool) : AgentCache × Outcome :=
  let r := proxyOptionsFor agentCache target upgrade
  (r.1, .forwarded r.2)

def onRequest (routes : RouteMap) (agentCache : AgentCache) (req : Request) :
    AgentCache × Outcome :=
  match resolve routes req.domain with
  | none => (agentCache, .answered 502 ("No route for domain ".toList ++ req.domain))
  | some target =>
      -- refused rather than forwarded without the pin
      if target.backendTlsPinInvalid then
        (agentCache, .answered 502 ("Gateway upstream error: " ++ pinConfigCode).toList)
      else forward agentCache target false

def onUpgrade (routes : RouteMap) (agentCache : AgentCache) (req : Request) :
    AgentCache × Outcome :=
  match resolve routes req.domain with
  | none => (agentCache, .destroyed)
  | some target =>
      if target.backendTlsPinInvalid then (agentCache, .destroyed)
      else forward agentCache target true

/-! ## The gateway -/

/-- A request that was handled, with the table in force then. -/
structure Handled where
  table : List HttpRoute
  domain : Text
  outcome : Outcome

/-- A connection of a pinned agent; `request` is the number of the request it is made for. -/
structure Attempt where
  request : Option Nat
  connection : Connection

/-- `table` is what `setRoutes` was last called with, and `plain` names the requests that got a
socket without an agent. -/
structure Gateway where
  table : List HttpRoute
  routes : RouteMap
  agentCache : AgentCache
  handled : List Handled
  attempts : List Attempt
  plain : List Nat

namespace Gateway

def new : Gateway := ⟨[], setRoutes [], .empty, [], [], []⟩

inductive Action
  | setRoutes (httpRoutes : List HttpRoute)
  | request (req : Request)
  | upgrade (req : Request)
  /-- The proxy connects for a request that was forwarded, with the agent it was given. -/
  | connect (request : Nat)
  /-- `inspectLeafCertificate`: a handshake without a pin. -/
  | probe (host port : Text) (timeoutMs : Nat)
  | event (attempt : Nat) (e : Event)
  | resetAgents

def handle (g : Gateway) (req : Request) (r : AgentCache × Outcome) : Gateway :=
  { g with agentCache := r.1, handled := g.handled ++ [⟨g.table, req.domain, r.2⟩] }

def step (g : Gateway) : Action → Option Gateway
  | .setRoutes httpRoutes =>
      some { g with table := httpRoutes, routes := Http.setRoutes httpRoutes }
  | .request req => some (handle g req (onRequest g.routes g.agentCache req))
  | .upgrade req => some (handle g req (onUpgrade g.routes g.agentCache req))
  | .connect i =>
      match (g.handled[i]?).map Handled.outcome with
      | some (.forwarded o) =>
          match o.agent with
          | some agent =>
              some { g with attempts := g.attempts ++ [⟨some i, .create agent⟩] }
          | none => some { g with plain := g.plain ++ [i] }
      | _ => none
  | .probe host port timeoutMs =>
      some { g with attempts := g.attempts ++ [⟨none, .create ⟨host, port, none, timeoutMs⟩⟩] }
  | .event j e =>
      (g.attempts[j]?).map fun a =>
        { g with attempts := g.attempts.set j { a with connection := a.connection.on e } }
  | .resetAgents => some { g with agentCache := .empty }

/-! ## What is to hold -/

/-- The route for a domain: the last one in the table. -/
def inForce (table : List HttpRoute) (domain : Text) : Option HttpRoute :=
  table.reverse.find? fun route => route.domain = domain

/-- Requests for a pinned route are not forwarded without a usable pin, and get a socket only after
a handshake with the pinned certificate. -/
structure FailClosed (g : Gateway) : Prop where
  once : ∀ a ∈ g.attempts, a.connection.calls.length ≤ 1
  refused : ∀ h ∈ g.handled, ∀ route, inForce h.table h.domain = some route → route.Pinned →
    normalizeFingerprint route.backendTlsFingerprint = none → ∀ o, h.outcome ≠ .forwarded o
  verified : ∀ i h route, g.handled[i]? = some h → inForce h.table h.domain = some route →
    route.Pinned → i ∉ g.plain ∧ ∀ a ∈ g.attempts, a.request = some i → a.connection.Delivered →
      ∃ peer ∈ a.connection.peers, ∃ fp, normalizeFingerprint peer = some fp ∧
        normalizeFingerprint route.backendTlsFingerprint = some fp

/-! ## The table and the handlers -/

/-- The table holds the last route of a domain. -/
theorem resolve_setRoutes (table : List HttpRoute) (domain : Text) :
    resolve (Http.setRoutes table) domain = (inForce table domain).map targetOf := by
  -- from the end, since a later route replaces an earlier one
  induction table using List.reverseRecOn with
  | nil =>
      rfl
  | append_singleton table route ih =>
      have hset : Http.setRoutes (table ++ [route]) =
          (Http.setRoutes table).set route.domain (targetOf route) := by
        simp [Http.setRoutes, List.foldl_append]
      rw [hset, resolve, OrderedMap.get_set, inForce, List.reverse_append, List.reverse_singleton,
        List.singleton_append, List.find?_cons]
      by_cases hd : domain = route.domain
      · simp [hd]
      · simp only [if_neg hd, decide_eq_false (Ne.symm hd)]
        exact ih

theorem targetOf_pinned {route : HttpRoute} (h : route.Pinned) :
    (targetOf route).backendHttps = true ∧
      (targetOf route).backendTlsFingerprint =
        normalizeFingerprint route.backendTlsFingerprint ∧
      (targetOf route).backendTlsPinInvalid =
        (normalizeFingerprint route.backendTlsFingerprint).isNone := by
  simp [targetOf, h.1, h.2]

/-- What is done with a request for a pinned route. -/
def Honoured (route : HttpRoute) (outcome : Outcome) : Prop :=
  ∀ o, outcome = .forwarded o → ∃ fp agent,
    normalizeFingerprint route.backendTlsFingerprint = some fp ∧ o.agent = some agent ∧
      agent.pinFingerprint = some fp

/-- A forwarded request has an agent with the pin of its route. -/
theorem forward_spec {agentCache : AgentCache} (hfiled : Filed agentCache) (route : HttpRoute)
    (upgrade : Bool) : Filed (forward agentCache (targetOf route) upgrade).1 ∧
      (route.Pinned → (targetOf route).backendTlsPinInvalid = false →
        Honoured route (forward agentCache (targetOf route) upgrade).2) := by
  have hlen : ∀ fp, (targetOf route).backendTlsFingerprint = some fp → fp.length = 64 := by
    intro fp hfp
    simp only [targetOf] at hfp
    split at hfp
    · exact length_normalizeFingerprint hfp
    · cases hfp
  unfold forward proxyOptionsFor
  split
  · rename_i fp hfp
    obtain ⟨hfp, _⟩ := Option.filter_eq_some_iff.1 hfp
    obtain ⟨hcache, hagent⟩ := getPinnedAgent_spec hfiled (targetOf route).host
      (targetOf route).port (hlen fp hfp)
    refine ⟨hcache, fun hpinned _ o ho => ?_⟩
    cases ho
    exact ⟨fp, _, (targetOf_pinned hpinned).2.1 ▸ hfp, rfl, hagent⟩
  · rename_i hnone
    refine ⟨hfiled, fun hpinned hvalid => ?_⟩
    obtain ⟨hhttps, hfp, hinvalid⟩ := targetOf_pinned hpinned
    -- a pin that can be used leads to the other branch
    rw [hinvalid, Option.isNone_eq_false_iff, Option.isSome_iff_exists] at hvalid
    rcases hvalid with ⟨fp, hvalid⟩
    have hne : fp ≠ [] := by
      rintro rfl
      exact absurd (length_normalizeFingerprint hvalid) (by decide)
    rw [hfp, hvalid, hhttps] at hnone
    simp [hne] at hnone

/-- Either handler: what it answers without forwarding does not depend on the pin. -/
theorem handler_spec (table : List HttpRoute) {agentCache : AgentCache} (hfiled : Filed agentCache)
    (req : Request) (upgrade : Bool) (missing : Outcome) {invalid : Outcome}
    (hinvalid : ∀ o, invalid ≠ .forwarded o) :
    let r := match resolve (Http.setRoutes table) req.domain with
      | none => (agentCache, missing)
      | some target =>
          if target.backendTlsPinInvalid then (agentCache, invalid)
          else forward agentCache target upgrade
    Filed r.1 ∧ ∀ route, inForce table req.domain = some route → route.Pinned →
      Honoured route r.2 := by
  rw [resolve_setRoutes]
  cases hroute : inForce table req.domain with
  | none =>
      exact ⟨hfiled, fun route h => by cases h⟩
  | some route =>
      simp only [Option.map_some, Option.some.injEq, forall_eq']
      split
      · exact ⟨hfiled, fun _ o ho => absurd ho (hinvalid o)⟩
      · rename_i hvalid
        obtain ⟨hcache, hhonoured⟩ := forward_spec hfiled route upgrade
        exact ⟨hcache, fun hpinned => hhonoured hpinned (Bool.eq_false_iff.2 hvalid)⟩

/-! ## What every state has -/

/-- A request was forwarded with this agent. -/
def ForwardedWith (g : Gateway) (i : Nat) (agent : Option PinnedHttpsAgent) : Prop :=
  ∃ h o, g.handled[i]? = some h ∧ h.outcome = .forwarded o ∧ o.agent = agent

structure Sound (g : Gateway) : Prop where
  table : g.routes = Http.setRoutes g.table
  filed : Filed g.agentCache
  handled : ∀ h ∈ g.handled, ∀ route, inForce h.table h.domain = some route → route.Pinned →
    Honoured route h.outcome
  plain : ∀ i ∈ g.plain, ForwardedWith g i none
  attempts : ∀ a ∈ g.attempts, a.connection.Sound ∧
    ∀ i, a.request = some i → ForwardedWith g i (some a.connection.agent)

theorem new_sound : Sound new where
  table := rfl
  filed _ _ h := by cases h
  handled _ h := by cases h
  plain _ h := by cases h
  attempts _ h := by cases h

/-- Requests are not forgotten. -/
theorem ForwardedWith.handle {g : Gateway} {i : Nat} {agent : Option PinnedHttpsAgent}
    (h : ForwardedWith g i agent) (req : Request) (r : AgentCache × Outcome) :
    ForwardedWith (handle g req r) i agent := by
  rcases h with ⟨h, o, hget, hrest⟩
  have hlt : i < g.handled.length := (List.getElem?_eq_some_iff.1 hget).1
  exact ⟨h, o, (List.getElem?_append_left hlt).trans hget, hrest⟩

theorem Sound.handle {g : Gateway} (h : Sound g) (req : Request) {r : AgentCache × Outcome}
    (hfiled : Filed r.1)
    (hr : ∀ route, inForce g.table req.domain = some route → route.Pinned → Honoured route r.2) :
    Sound (handle g req r) where
  table := h.table
  filed := hfiled
  handled x hx := by
    rcases List.mem_append.1 hx with hold | hnew
    · exact h.handled x hold
    · rw [List.mem_singleton.1 hnew]
      exact hr
  plain i hi := (h.plain i hi).handle req r
  attempts a ha := ⟨(h.attempts a ha).1, fun i hi => ((h.attempts a ha).2 i hi).handle req r⟩

theorem sound_step {g g' : Gateway} {a : Action} (h : Sound g) (hs : step g a = some g') :
    Sound g' := by
  cases a with
  | setRoutes httpRoutes =>
      -- what was handled keeps the table of its time
      cases hs
      exact ⟨rfl, h.filed, h.handled, h.plain, h.attempts⟩
  | request req =>
      cases hs
      rw [h.table]
      have hinvalid : ∀ o, Outcome.answered 502
          ("Gateway upstream error: " ++ pinConfigCode).toList ≠ .forwarded o := by simp
      obtain ⟨hfiled, hr⟩ := handler_spec g.table h.filed req false
        (.answered 502 ("No route for domain ".toList ++ req.domain)) hinvalid
      exact h.handle req hfiled hr
  | upgrade req =>
      cases hs
      rw [h.table]
      have hinvalid : ∀ o, Outcome.destroyed ≠ .forwarded o := by simp
      obtain ⟨hfiled, hr⟩ := handler_spec g.table h.filed req true .destroyed hinvalid
      exact h.handle req hfiled hr
  | connect i =>
      -- the agent was chosen when the request came, whatever table is in force now
      simp only [step] at hs
      split at hs
      · rename_i o ho
        obtain ⟨x, hx, hout⟩ := Option.map_eq_some_iff.1 ho
        split at hs
        · rename_i agent hagent
          cases hs
          refine ⟨h.table, h.filed, h.handled, h.plain, fun a ha => ?_⟩
          rcases List.mem_append.1 ha with hold | hnew
          · exact h.attempts a hold
          · rw [List.mem_singleton.1 hnew]
            refine ⟨Connection.create_sound agent, fun j hj => ?_⟩
            cases hj
            exact ⟨x, o, hx, hout, hagent⟩
        · rename_i hagent
          cases hs
          refine ⟨h.table, h.filed, h.handled, fun j hj => ?_, h.attempts⟩
          rcases List.mem_append.1 hj with hold | hnew
          · exact h.plain j hold
          · rw [List.mem_singleton.1 hnew]
            exact ⟨x, o, hx, hout, hagent⟩
      · cases hs
  | probe host port timeoutMs =>
      cases hs
      refine ⟨h.table, h.filed, h.handled, h.plain, fun a ha => ?_⟩
      rcases List.mem_append.1 ha with hold | hnew
      · exact h.attempts a hold
      · rw [List.mem_singleton.1 hnew]
        exact ⟨Connection.create_sound _, fun i hi => by cases hi⟩
  | event j e =>
      obtain ⟨a, ha, rfl⟩ := Option.map_eq_some_iff.1 hs
      obtain ⟨hsound, hagent⟩ := h.attempts a (List.mem_of_getElem? ha)
      refine ⟨h.table, h.filed, h.handled, h.plain, fun x hx => ?_⟩
      rcases List.mem_or_eq_of_mem_set hx with hold | rfl
      · exact h.attempts x hold
      · -- the connection goes on with the agent it had
        refine ⟨Connection.on_sound hsound e, fun i hi => ?_⟩
        have hsame := hagent i hi
        rw [← Connection.agent_on a.connection e] at hsame
        exact hsame
  | resetAgents =>
      cases hs
      exact ⟨h.table, fun _ _ hget => (by cases hget), h.handled, h.plain, h.attempts⟩

theorem Sound.failClosed {g : Gateway} (h : Sound g) : FailClosed g where
  once a ha := (h.attempts a ha).1.verified.once
  refused x hx route hroute hpinned hbad o ho := by
    obtain ⟨fp, _, hfp, _⟩ := h.handled x hx route hroute hpinned o ho
    rw [hbad] at hfp
    cases hfp
  verified i x route hx hroute hpinned := by
    have hhonoured := h.handled x (List.mem_of_getElem? hx) route hroute hpinned
    have hagent : ∀ agent, ForwardedWith g i agent → ∃ fp,
        normalizeFingerprint route.backendTlsFingerprint = some fp ∧
          ∃ a, agent = some a ∧ a.pinFingerprint = some fp := by
      rintro agent ⟨y, o, hy, ho, rfl⟩
      obtain rfl : x = y := Option.some.inj (hx.symm.trans hy)
      obtain ⟨fp, a, hfp, ha, hpin⟩ := hhonoured o ho
      exact ⟨fp, hfp, a, ha, hpin⟩
    refine ⟨fun hi => ?_, fun a ha hi hd => ?_⟩
    · -- a socket without an agent is one for a request without a pin
      obtain ⟨fp, _, a, ha, _⟩ := hagent _ (h.plain i hi)
      cases ha
    · obtain ⟨fp, hfp, b, hb, hpin⟩ := hagent _ ((h.attempts a ha).2 i hi)
      cases hb
      obtain ⟨peer, hpeer, fp', hseen, hpin'⟩ := (h.attempts a ha).1.verified.pinned hd
      rw [hpin] at hpin'
      cases hpin'
      exact ⟨peer, hpeer, fp, hseen, hfp⟩

/-- Whatever tables are set, requests made and events seen: a request for a pinned route gets a
socket only after a handshake with a certificate of the pinned fingerprint. -/
theorem pinned_fail_closed (as : List Action) : Throughout step FailClosed new as := by
  have htrue : Admits step (fun _ _ => True) new as := admits_true _ as
  exact throughout_of_admits (fun _ _ _ h _ hs => sound_step h hs) (fun _ h => h.failClosed)
    new_sound htrue

/-- A fingerprint of 64 digits. -/
def demoPin : Option Json := some (.str (List.replicate 64 'a'))

def demoRoute : HttpRoute where
  id := "1".toList
  domain := "nas.example".toList
  targetLanHost := "192.168.1.5".toList
  targetLanPort := "5001".toList
  backendHttps := some (.bool true)
  backendTlsFingerprint := demoPin
  wolEnabled := none
  wolMac := none

-- the pinned backend does get the request
example : (exec step new [.setRoutes [demoRoute], .request ⟨some "nas.example".toList, none⟩,
    .connect 0, .event 0 (.secureConnect demoPin)]).any
      (fun g => g.attempts.any fun a => decide (none ∈ a.connection.calls)) = true := by
  decide +kernel

end Gateway

end Http
end Proxy
end GateControl
