import GateControl.Edge.PluginNet
import GateControl.Library.OrderedMap

/-!
# TlsPin — connections to backends with a pinned certificate

A `PinnedHttpsAgent` hands a socket on only when the leaf certificate of its peer has the pinned
fingerprint.  `Connection` is what happens to one socket: which events have come, and what the
callback of `createConnection` was called with.  `getPinnedAgent` keeps the agents in a cache whose
key ends in the fingerprint.
-/

namespace GateControl
namespace Proxy

open Library

/-! ## Fingerprints -/

def isHex (c : Char) : Bool := c.isDigit || ('a' ≤ c && c ≤ 'f')

/-- A fingerprint without its prefix and its separators.  What other letters than those of ASCII
become in lower case is no hexadecimal digit, so they can stay as they are. -/
def bareHex (s : Text) : Text :=
  let lower := (trim s).map asciiLower
  let rest := if "sha256:".toList.isPrefixOf lower then lower.drop 7 else lower
  rest.filter fun c => !(isTrimmed c || c = ':' || c = '-')

/-- A SHA-256 fingerprint as 64 hexadecimal digits. -/
def normalizeFingerprint (raw : Option Json) : Option Text :=
  match raw with
  | some (.str s) =>
      let hex := bareHex s
      if hex.length = 64 && hex.all isHex then some hex else none
  | _ => none

/-- The same check as for the pins of edge plugins. -/
theorem isFingerprint_eq (raw : Json) :
    Edge.isFingerprint raw = (normalizeFingerprint (some raw)).isSome := by
  cases raw with
  | str s =>
      change (decide ((bareHex s).length = 64) && (bareHex s).all isHex) = _
      simp only [normalizeFingerprint]
      split
      · rename_i hok
        rw [hok]
        rfl
      · rename_i hbad
        rw [Bool.eq_false_iff.2 hbad]
        rfl
  | _ => rfl

theorem length_normalizeFingerprint {raw : Option Json} {fp : Text}
    (h : normalizeFingerprint raw = some fp) : fp.length = 64 := by
  unfold normalizeFingerprint at h
  split at h
  · simp only at h
    split at h
    · rename_i hok
      cases h
      exact of_decide_eq_true (Bool.and_eq_true_iff.1 hok).1
    · cases h
  · cases h

/-! ## Agents -/

structure PinnedHttpsAgent where
  pinHost : Text
  pinPort : Text
  pinFingerprint : Option Text
  handshakeTimeoutMs : Nat
  deriving DecidableEq

/-- What the callback is called with, if it is not the socket. -/
inductive ConnectError
  | mismatch (expected actual : Text)
  | timedOut
  | socket
  deriving DecidableEq

/-- `_verifyPeer`: nothing if the certificate has the pinned fingerprint. -/
def PinnedHttpsAgent.verifyPeer (agent : PinnedHttpsAgent) (fingerprint256 : Option Json) :
    Option ConnectError :=
  let seen := normalizeFingerprint fingerprint256
  if seen ≠ none ∧ agent.pinFingerprint ≠ none ∧ seen = agent.pinFingerprint then none
  else
    some (.mismatch (agent.pinFingerprint.getD "none".toList) (seen.getD "none".toList))

/-! ## One connection -/

/-- A socket of `createConnection` with the listeners that wait for it.  `peers` are the
fingerprints in the certificates of the handshakes so far, `calls` what the callback was called
with: `none` for the socket. -/
structure Connection where
  agent : PinnedHttpsAgent
  settled : Bool
  timer : Bool
  onSecureConnect : Bool
  onError : Bool
  destroyed : Bool
  peers : List (Option Json)
  calls : List (Option ConnectError)

inductive Event
  /-- A handshake is complete; the certificate of the peer has this fingerprint. -/
  | secureConnect (fingerprint256 : Option Json)
  | error
  | timeout

namespace Connection

/-- `createConnection` with a callback. -/
def create (agent : PinnedHttpsAgent) : Connection where
  agent := agent
  settled := false
  -- only agents with a timeout set one
  timer := 0 < agent.handshakeTimeoutMs
  onSecureConnect := true
  onError := true
  destroyed := false
  peers := []
  calls := []

def settle (c : Connection) (err : Option ConnectError) : Connection :=
  if c.settled then c
  else
    -- the timer is cleared, and a socket that is not handed on is destroyed
    { c with
      settled := true
      timer := false
      destroyed := c.destroyed || err.isSome
      calls := c.calls ++ [err] }

/-- Each listener hears the first event of its kind only. -/
def on (c : Connection) : Event → Connection
  | .secureConnect fingerprint256 =>
      let c := { c with peers := c.peers ++ [fingerprint256] }
      if c.onSecureConnect then
        settle { c with onSecureConnect := false } (c.agent.verifyPeer fingerprint256)
      else c
  | .error => if c.onError then settle { c with onError := false } (some .socket) else c
  | .timeout => if c.timer then settle { c with timer := false } (some .timedOut) else c

/-- The socket has been handed to the HTTP client. -/
def Delivered (c : Connection) : Prop := none ∈ c.calls

/-- The callback is called at most once, and with the socket only after a handshake with the pinned
certificate. -/
structure Verified (c : Connection) : Prop where
  once : c.calls.length ≤ 1
  pinned : c.Delivered → ∃ peer ∈ c.peers, ∃ fp,
    normalizeFingerprint peer = some fp ∧ c.agent.pinFingerprint = some fp

/-- What holds of a connection after any events. -/
structure Sound (c : Connection) : Prop where
  waiting : c.settled = false → c.calls = []
  verified : Verified c

theorem create_sound (agent : PinnedHttpsAgent) : Sound (create agent) where
  waiting _ := rfl
  verified := ⟨Nat.zero_le 1, fun h => by cases h⟩

theorem verifyPeer_eq_none {agent : PinnedHttpsAgent} {peer : Option Json}
    (h : agent.verifyPeer peer = none) :
    ∃ fp, normalizeFingerprint peer = some fp ∧ agent.pinFingerprint = some fp := by
  simp only [PinnedHttpsAgent.verifyPeer] at h
  split at h
  · rename_i hok
    rcases Option.ne_none_iff_exists'.1 hok.1 with ⟨fp, hfp⟩
    exact ⟨fp, hfp, hok.2.2 ▸ hfp⟩
  · cases h

theorem settle_sound {c : Connection} {err : Option ConnectError} (h : Sound c)
    (hok : err = none → ∃ peer ∈ c.peers, ∃ fp,
      normalizeFingerprint peer = some fp ∧ c.agent.pinFingerprint = some fp) :
    Sound (settle c err) := by
  unfold settle
  split
  · exact h
  · rename_i hsettled
    -- this call of the callback is the first
    have hnone : c.calls = [] := h.waiting (Bool.eq_false_iff.2 hsettled)
    refine ⟨fun hc => (by cases hc), ?_, fun hd => ?_⟩
    · simp [hnone]
    · simp only [Delivered, hnone, List.nil_append, List.mem_singleton] at hd
      exact hok hd.symm

theorem on_sound {c : Connection} (h : Sound c) (e : Event) : Sound (c.on e) := by
  cases e with
  | secureConnect peer =>
      -- an earlier handshake stays in the record
      have hmore : Sound { c with peers := c.peers ++ [peer] } := by
        refine ⟨h.waiting, h.verified.once, fun hd => ?_⟩
        rcases h.verified.pinned hd with ⟨p, hp, hfp⟩
        exact ⟨p, List.mem_append_left _ hp, hfp⟩
      simp only [on]
      split
      · refine settle_sound ⟨hmore.waiting, hmore.verified.once, hmore.verified.pinned⟩ ?_
        intro hnone
        exact ⟨peer, by simp, verifyPeer_eq_none hnone⟩
      · exact hmore
  | error =>
      simp only [on]
      split
      · refine settle_sound ⟨h.waiting, h.verified.once, h.verified.pinned⟩ ?_
        intro hnone
        cases hnone
      · exact h
  | timeout =>
      simp only [on]
      split
      · refine settle_sound ⟨h.waiting, h.verified.once, h.verified.pinned⟩ ?_
        intro hnone
        cases hnone
      · exact h

theorem agent_settle (c : Connection) (err : Option ConnectError) :
    (settle c err).agent = c.agent := by
  unfold settle
  split
  · rfl
  · rfl

theorem agent_on (c : Connection) (e : Event) : (c.on e).agent = c.agent := by
  cases e with
  | secureConnect peer =>
      simp only [on]
      split
      · exact agent_settle ..
      · rfl
  | error =>
      simp only [on]
      split
      · exact agent_settle ..
      · rfl
  | timeout =>
      simp only [on]
      split
      · exact agent_settle ..
      · rfl

end Connection

/-! ## The cache of agents -/

def maxCachedAgents : Nat := 256

abbrev AgentCache := OrderedMap Text PinnedHttpsAgent

def agentKey (host port fingerprint : Text) : Text := host ++ '|' :: (port ++ '|' :: fingerprint)

def getPinnedAgent (agentCache : AgentCache) (host port fingerprint : Text) :
    AgentCache × PinnedHttpsAgent :=
  let key := agentKey host port fingerprint
  match agentCache.get key with
  | some cached => (agentCache, cached)
  | none =>
      -- a full cache is emptied; agents that are in use keep their pins
      let agentCache := if maxCachedAgents ≤ agentCache.size then .empty else agentCache
      let agent : PinnedHttpsAgent := ⟨host, port, some fingerprint, 0⟩
      (agentCache.set key agent, agent)

/-- Every agent stands under a key that ends in its fingerprint. -/
def Filed (agentCache : AgentCache) : Prop :=
  ∀ key agent, agentCache.get key = some agent → ∃ host port fp,
    key = agentKey host port fp ∧ fp.length = 64 ∧ agent.pinFingerprint = some fp

/-- The fingerprint can be read off the end of a key. -/
theorem fingerprint_of_agentKey {host port fp host' port' fp' : Text} (hfp : fp.length = 64)
    (hfp' : fp'.length = 64) (h : agentKey host port fp = agentKey host' port' fp') : fp = fp' := by
  have hsplit : ∀ a b c : Text, agentKey a b c = (a ++ '|' :: (b ++ ['|'])) ++ c := by
    intro a b c
    simp [agentKey]
  rw [hsplit, hsplit] at h
  -- both fingerprints have 64 digits, whatever stands before them
  exact List.append_inj_right' h (hfp.trans hfp'.symm)

/-- Whatever the cache holds, the agent has the fingerprint that is asked for. -/
theorem getPinnedAgent_spec {agentCache : AgentCache} (h : Filed agentCache) (host port : Text)
    {fp : Text} (hfp : fp.length = 64) :
    Filed (getPinnedAgent agentCache host port fp).1 ∧
      (getPinnedAgent agentCache host port fp).2.pinFingerprint = some fp := by
  unfold getPinnedAgent
  dsimp only
  split
  · rename_i cached hcached
    obtain ⟨host', port', fp', hkey, hlen, hpin⟩ := h _ _ hcached
    rw [fingerprint_of_agentKey hfp hlen hkey]
    exact ⟨h, hpin⟩
  · -- the new agent stands under its own key, the others were there before
    refine ⟨fun key agent hget => ?_, rfl⟩
    rcases OrderedMap.get_set_cases hget with ⟨rfl, rfl⟩ | ⟨_, hold⟩
    · exact ⟨host, port, fp, rfl, hfp, rfl⟩
    · split at hold
      · cases hold
      · exact h key agent hold

end Proxy
end GateControl
