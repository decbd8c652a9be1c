import GateControl.Library.RuleChain
import GateControl.Edge.Addresses

/-!
# FenceRules — the boundary of the edge container as packet filter rules

The same boundary is written for two packet filters: as one nftables table for both families, and as
one iptables chain for each family.  Both are embedded as rules with the text they are written as;
`Allowed` says which packets the boundary is meant to let out, and the verdict of each filter is
that (`nft_verdict`, `iptables_verdict`).
-/

namespace GateControl
namespace Edge

open Library

namespace Fence

def table : Text := "gc_edge".toList

def chain : Text := "GC_EDGE".toList

def brokerPort : Nat := 1883

def wgIface : Text := "gatecontrol0".toList

def lo : Text := "lo".toList

def multicast : Text := "224.0.0.0/4".toList

/-! ## Inputs -/

structure Inputs where
  uid : Int
  lanCidrs : List Text
  serverAddrs : List Text
  serverPort : Int
  tunnelIp : Option Text
  deriving DecidableEq

/-- `CIDR4` -/
def isCidr4 (s : Text) : Bool :=
  match s.splitOn '/' with
  | [a, n] =>
      (a.splitOn '.').length = 4 && (a.splitOn '.').all isOctetText && isOctetText n &&
        n.length ≤ 2
  | _ => false

/-- The tunnel address, unless it is missing or empty. -/
def Inputs.tunnel (o : Inputs) : Option Text := o.tunnelIp.filter fun t => t ≠ []

def assertInputs (o : Inputs) : Except Text Unit :=
  if o.uid < 1 then .error "fence: invalid uid".toList
  else
    match o.lanCidrs.find? fun c => !isCidr4 c with
    | some c => .error ("fence: invalid cidr ".toList ++ c)
    | none =>
        match o.serverAddrs.find? fun a => !isIP a with
        | some a => .error ("fence: invalid server address ".toList ++ a)
        | none =>
            if o.serverPort < 1 ∨ 65535 < o.serverPort then
              .error "fence: invalid server port".toList
            else if o.tunnel.any fun t => !isIPv4 t then .error "fence: invalid tunnel ip".toList
            else .ok ()

def v4 (addrs : List Text) : List Text := addrs.filter isIPv4

def v6 (addrs : List Text) : List Text := addrs.filter isIPv6

/-! ## Packets -/

inductive Address
  | v4 (a : BitVec 32)
  | v6 (a : BitVec 128)
  deriving DecidableEq

/-- A packet on its way out: the user it belongs to, the interface, and what its headers say; ports
of protocols that have none are arbitrary. -/
structure OutPacket where
  uid : Int
  oif : Text
  dest : Address
  protocol : Nat
  sport : Nat
  dport : Nat
  deriving DecidableEq

inductive Family
  | inet
  | inet6
  deriving DecidableEq

def OutPacket.family (p : OutPacket) : Family :=
  match p.dest with
  | .v4 _ => .inet
  | .v6 _ => .inet6

def OutPacket.isTcp (p : OutPacket) : Bool := p.protocol = 6

/-- Whether the packet goes to the IPv4 addresses that the text stands for. -/
def OutPacket.to4 (p : OutPacket) (t : Text) : Bool :=
  match p.dest with
  | .v4 a => inNet readIPv4 t a
  | .v6 _ => false

def OutPacket.to6 (p : OutPacket) (t : Text) : Bool :=
  match p.dest with
  | .v4 _ => false
  | .v6 a => inNet readIPv6 t a

inductive Verdict
  | accept
  | drop
  deriving DecidableEq

/-! ## nftables -/

inductive NftMatch
  | oifname (name : Text)
  | tcpDport (port : Nat)
  | tcpSport (port : Nat)
  | ipDaddr (addr : Text)
  | ipDaddrSet (addrs : List Text)
  | ip6DaddrSet (addrs : List Text)

def NftMatch.text : NftMatch → Text
  | .oifname name => "oifname \"".toList ++ name ++ "\"".toList
  | .tcpDport port => "tcp dport ".toList ++ decimal port
  | .tcpSport port => "tcp sport ".toList ++ decimal port
  | .ipDaddr addr => "ip daddr ".toList ++ addr
  | .ipDaddrSet addrs =>
      "ip daddr \x7b ".toList ++ ", ".toList.intercalate addrs ++ " \x7d".toList
  | .ip6DaddrSet addrs =>
      "ip6 daddr \x7b ".toList ++ ", ".toList.intercalate addrs ++ " \x7d".toList

def NftMatch.holds (p : OutPacket) : NftMatch → Bool
  | .oifname name => p.oif = name
  | .tcpDport port => p.isTcp && p.dport = port
  | .tcpSport port => p.isTcp && p.sport = port
  | .ipDaddr addr => p.to4 addr
  | .ipDaddrSet addrs => addrs.any p.to4
  | .ip6DaddrSet addrs => addrs.any p.to6

structure NftRule where
  conditions : List NftMatch
  counter : Bool := false
  verdict : Verdict

def NftRule.text (r : NftRule) : Text :=
  let statement := match r.verdict with
    | .accept => "accept".toList
    | .drop => "drop".toList
  "    ".toList ++ " ".toList.intercalate
    (r.conditions.map NftMatch.text ++ (if r.counter then ["counter".toList] else []) ++ [statement])

example : NftRule.text ⟨[.oifname lo, .tcpDport brokerPort], false, .accept⟩ =
    "    oifname \"lo\" tcp dport 1883 accept".toList := by
  decide

def NftRule.rule (r : NftRule) : Rule OutPacket Verdict :=
  ⟨fun p => r.conditions.all (NftMatch.holds p), r.verdict⟩

/-- The script: the user whose packets go through the chain `edge`, and its rules. -/
structure NftScript where
  uid : Int
  edge : List NftRule

def NftScript.text (s : NftScript) : Text :=
  "\n".toList.intercalate
    (["table inet ".toList ++ table,
      "delete table inet ".toList ++ table,
      "table inet ".toList ++ table ++ " \x7b".toList,
      "  chain output \x7b".toList,
      "    type filter hook output priority 0; policy accept;".toList,
      "    meta skuid ".toList ++ decimal s.uid.toNat ++ " jump edge".toList,
      "  \x7d".toList,
      "  chain edge \x7b".toList] ++
      s.edge.map NftRule.text ++ ["  \x7d".toList, "\x7d".toList, []])

/-- What becomes of a packet; those of other users are let out. -/
def NftScript.verdict (s : NftScript) (p : OutPacket) : Verdict :=
  if p.uid = s.uid then RuleChain.firstMatch (s.edge.map NftRule.rule) .accept p else .accept

def edgeRules (o : Inputs) : List NftRule :=
  let s4 := v4 o.serverAddrs
  let s6 := v6 o.serverAddrs
  [⟨[.oifname lo, .tcpDport brokerPort], false, .accept⟩,
    ⟨[.oifname lo, .tcpSport brokerPort], false, .accept⟩] ++
  (if s4 ≠ [] then [⟨[.ipDaddrSet s4, .tcpDport o.serverPort.toNat], false, .accept⟩] else []) ++
  (if s6 ≠ [] then [⟨[.ip6DaddrSet s6, .tcpDport o.serverPort.toNat], false, .accept⟩] else []) ++
  (o.tunnel.toList.map fun t => ⟨[.ipDaddr t], false, .drop⟩) ++
  [⟨[.oifname wgIface], false, .drop⟩, ⟨[.ipDaddr multicast], false, .accept⟩] ++
  (if o.lanCidrs ≠ [] then [⟨[.ipDaddrSet o.lanCidrs], false, .accept⟩] else []) ++
  [⟨[], true, .drop⟩]

def buildNftRuleset (o : Inputs) : Except Text NftScript := do
  assertInputs o
  return ⟨o.uid, edgeRules o⟩

/-! ## iptables -/

inductive IptablesMatch
  | out (name : Text)
  | dest (net : Text)
  | tcpDport (port : Nat)
  | tcpSport (port : Nat)

def IptablesMatch.text : IptablesMatch → Text
  | .out name => "-o ".toList ++ name
  | .dest net => "-d ".toList ++ net
  | .tcpDport port => "-p tcp --dport ".toList ++ decimal port
  | .tcpSport port => "-p tcp --sport ".toList ++ decimal port

/-- Each family has a filter of its own, which reads the addresses of that family. -/
def IptablesMatch.holds (family : Family) (p : OutPacket) : IptablesMatch → Bool
  | .out name => p.oif = name
  | .dest net =>
      match family with
      | .inet => p.to4 net
      | .inet6 => p.to6 net
  | .tcpDport port => p.isTcp && p.dport = port
  | .tcpSport port => p.isTcp && p.sport = port

structure IptablesRule where
  conditions : List IptablesMatch
  target : Verdict

def IptablesRule.text (r : IptablesRule) : Text :=
  let jump := match r.target with
    | .accept => "-j ACCEPT".toList
    | .drop => "-j DROP".toList
  " ".toList.intercalate
    (["-A ".toList ++ chain] ++ r.conditions.map IptablesMatch.text ++ [jump])

example : IptablesRule.text ⟨[.dest "10.0.0.1/32".toList, .tcpDport 443], .accept⟩ =
    "-A GC_EDGE -d 10.0.0.1/32 -p tcp --dport 443 -j ACCEPT".toList := by
  decide

def IptablesRule.rule (family : Family) (r : IptablesRule) : Rule OutPacket Verdict :=
  ⟨fun p => r.conditions.all (IptablesMatch.holds family p), r.target⟩

/-- The input of one family for the chain that the packets of the edge user are sent to. -/
structure IptablesScript where
  family : Family
  rules : List IptablesRule

def IptablesScript.text (s : IptablesScript) : Text :=
  "\n".toList.intercalate
    (["*filter".toList, ":".toList ++ chain ++ " - [0:0]".toList] ++
      s.rules.map IptablesRule.text ++ ["COMMIT".toList, []])

/-- What becomes of a packet in the chain; at its end a packet would be let out. -/
def IptablesScript.verdict (s : IptablesScript) (p : OutPacket) : Verdict :=
  RuleChain.firstMatch (s.rules.map (IptablesRule.rule s.family)) .accept p

def chainRules (o : Inputs) (family : Family) : List IptablesRule :=
  [⟨[.out lo, .tcpDport brokerPort], .accept⟩, ⟨[.out lo, .tcpSport brokerPort], .accept⟩] ++
  (match family with
    | .inet =>
        ((v4 o.serverAddrs).map fun a =>
          ⟨[.dest (a ++ "/32".toList), .tcpDport o.serverPort.toNat], .accept⟩) ++
        (o.tunnel.toList.map fun t => ⟨[.dest (t ++ "/32".toList)], .drop⟩) ++
        [⟨[.out wgIface], .drop⟩, ⟨[.dest multicast], .accept⟩] ++
        (o.lanCidrs.map fun c => ⟨[.dest c], .accept⟩)
    | .inet6 =>
        (v6 o.serverAddrs).map fun a =>
          ⟨[.dest (a ++ "/128".toList), .tcpDport o.serverPort.toNat], .accept⟩) ++
  [⟨[], .drop⟩]

def buildIptablesRestore (o : Inputs) (family : Family) : Except Text IptablesScript := do
  assertInputs o
  return ⟨family, chainRules o family⟩

/-! ## What the boundary is for -/

/-- Whether the packet goes to this very address. -/
def OutPacket.isTo (p : OutPacket) (s : Text) : Bool :=
  match p.dest with
  | .v4 a => readIPv4 s = some a
  | .v6 a => readIPv6 s = some a

/-- To or from the local broker. -/
def Broker (p : OutPacket) : Prop :=
  p.oif = lo ∧ p.isTcp = true ∧ (p.dport = brokerPort ∨ p.sport = brokerPort)

def Server (o : Inputs) (p : OutPacket) : Prop :=
  p.isTcp = true ∧ (p.dport : Int) = o.serverPort ∧ ∃ a ∈ o.serverAddrs, p.isTo a = true

/-- To a group or the LAN, and neither through the tunnel nor to its address. -/
def Local (o : Inputs) (p : OutPacket) : Prop :=
  p.oif ≠ wgIface ∧ (∀ t ∈ o.tunnelIp, p.isTo t = false) ∧
    (p.to4 multicast = true ∨ ∃ c ∈ o.lanCidrs, p.to4 c = true)

def Allowed (o : Inputs) (p : OutPacket) : Prop := Broker p ∨ Server o p ∨ Local o p

/-- The tests in the order in which both filters make them. -/
def decision (o : Inputs) (p : OutPacket) : Verdict :=
  if p.oif = lo && (p.isTcp && p.dport = brokerPort) then .accept
  else if p.oif = lo && (p.isTcp && p.sport = brokerPort) then .accept
  else if o.serverAddrs.any p.isTo && (p.isTcp && p.dport = o.serverPort.toNat) then .accept
  else if o.tunnel.any p.isTo then .drop
  else if p.oif = wgIface then .drop
  else if p.to4 multicast then .accept
  else if o.lanCidrs.any p.to4 then .accept
  else .drop

theorem assertInputs_ok {o : Inputs} (h : assertInputs o = .ok ()) :
    1 ≤ o.serverPort ∧ ∀ t ∈ o.tunnel, isIPv4 t = true := by
  unfold assertInputs at h
  split at h
  · cases h
  · split at h
    · cases h
    · split at h
      · cases h
      · split at h
        · cases h
        · rename_i hport
          split at h
          · cases h
          · rename_i htunnel
            refine ⟨by omega, ?_⟩
            intro t ht
            rw [Option.mem_def] at ht
            simpa [ht] using htunnel

/-! ## Addresses in rules -/

section Addresses

variable {p : OutPacket}

theorem to4_host {x : BitVec 32} (hp : p.dest = .v4 x) (s : Text) :
    (isIPv4 s && p.to4 s) = p.isTo s := by
  simp only [OutPacket.to4, OutPacket.isTo, hp]
  cases hs : isIPv4 s with
  | true =>
      rw [Bool.true_and, inNet_host readIPv4 (slash_of_isIPv4 hs)]
  | false =>
      simp [readIPv4, hs]

theorem to4_length {x : BitVec 32} (hp : p.dest = .v4 x) (s : Text) :
    (isIPv4 s && p.to4 (s ++ "/32".toList)) = p.isTo s := by
  simp only [OutPacket.to4, OutPacket.isTo, hp]
  cases hs : isIPv4 s with
  | true =>
      have hslash : '/' ∉ "32".toList := by decide
      have hlength : inNet readIPv4 (s ++ "/32".toList) x = decide (readIPv4 s = some x) :=
        inNet_length readIPv4 (slash_of_isIPv4 hs) hslash rfl rfl x
      rw [Bool.true_and]
      exact hlength
  | false =>
      simp [readIPv4, hs]

theorem readIPv6_of_not {s : Text} (h : isIPv6 s = false) (x : BitVec 128) :
    readIPv6 s ≠ some x := by
  intro hread
  rw [isIPv6_of_readIPv6 hread] at h
  cases h

theorem to6_host {x : BitVec 128} (hp : p.dest = .v6 x) (s : Text) :
    (isIPv6 s && p.to6 s) = p.isTo s := by
  simp only [OutPacket.to6, OutPacket.isTo, hp]
  cases hs : isIPv6 s with
  | true =>
      rw [Bool.true_and, inNet_host readIPv6 (slash_of_isIPv6 hs)]
  | false =>
      rw [Bool.false_and, decide_eq_false (readIPv6_of_not hs x)]

theorem to6_length {x : BitVec 128} (hp : p.dest = .v6 x) (s : Text) :
    (isIPv6 s && p.to6 (s ++ "/128".toList)) = p.isTo s := by
  simp only [OutPacket.to6, OutPacket.isTo, hp]
  cases hs : isIPv6 s with
  | true =>
      have hslash : '/' ∉ "128".toList := by decide
      have hlength : inNet readIPv6 (s ++ "/128".toList) x = decide (readIPv6 s = some x) :=
        inNet_length readIPv6 (slash_of_isIPv6 hs) hslash rfl rfl x
      rw [Bool.true_and]
      exact hlength
  | false =>
      rw [Bool.false_and, decide_eq_false (readIPv6_of_not hs x)]

/-- The addresses of one family that a packet goes to. -/
theorem any_filter_eq {keep holds : Text → Bool} (h : ∀ s, (keep s && holds s) = p.isTo s)
    (addrs : List Text) : (addrs.filter keep).any holds = addrs.any p.isTo := by
  rw [List.any_filter]
  exact congrArg (List.any addrs) (funext h)

theorem tunnel_host {o : Inputs} (ho : ∀ t ∈ o.tunnel, isIPv4 t = true) {holds : Text → Bool}
    (h : ∀ s, (isIPv4 s && holds s) = p.isTo s) : o.tunnel.any holds = o.tunnel.any p.isTo := by
  cases ht : o.tunnel with
  | none =>
      rfl
  | some t =>
      have hone := h t
      rw [ho t ht, Bool.true_and] at hone
      exact hone

theorem not_isTo_nil : p.isTo [] = false := by
  unfold OutPacket.isTo
  cases p.dest with
  | v4 x =>
      rfl
  | v6 x =>
      exact decide_eq_false (readIPv6_of_not rfl x)

end Addresses

/-! ## The decision -/

theorem tunnel_isTo {o : Inputs} {p : OutPacket} :
    o.tunnel.any p.isTo = false ↔ ∀ t ∈ o.tunnelIp, p.isTo t = false := by
  cases htip : o.tunnelIp with
  | none =>
      simp [Inputs.tunnel, htip]
  | some t =>
      by_cases hnil : t = []
      · simp [Inputs.tunnel, htip, hnil, not_isTo_nil]
      · simp [Inputs.tunnel, htip, hnil]

theorem server_iff {o : Inputs} {p : OutPacket} (h : 1 ≤ o.serverPort) :
    (o.serverAddrs.any p.isTo && (p.isTcp && p.dport = o.serverPort.toNat)) = true ↔
      Server o p := by
  have hport : p.dport = o.serverPort.toNat ↔ (p.dport : Int) = o.serverPort := by omega
  simp only [Server, Bool.and_eq_true, List.any_eq_true, decide_eq_true_eq, hport]
  constructor
  · rintro ⟨hto, htcp, hdport⟩
    exact ⟨htcp, hdport, hto⟩
  · rintro ⟨htcp, hdport, hto⟩
    exact ⟨hto, htcp, hdport⟩

theorem decision_accept {o : Inputs} (h : 1 ≤ o.serverPort) (p : OutPacket) :
    decision o p = .accept ↔ Allowed o p := by
  unfold decision
  by_cases hdport : (p.oif = lo && (p.isTcp && p.dport = brokerPort)) = true
  · rw [if_pos hdport]
    simp only [Bool.and_eq_true, decide_eq_true_eq] at hdport
    exact iff_of_true rfl (.inl ⟨hdport.1, hdport.2.1, .inl hdport.2.2⟩)
  rw [if_neg hdport]
  by_cases hsport : (p.oif = lo && (p.isTcp && p.sport = brokerPort)) = true
  · rw [if_pos hsport]
    simp only [Bool.and_eq_true, decide_eq_true_eq] at hsport
    exact iff_of_true rfl (.inl ⟨hsport.1, hsport.2.1, .inr hsport.2.2⟩)
  rw [if_neg hsport]
  have hbroker : ¬ Broker p := by
    simp only [Bool.and_eq_true, decide_eq_true_eq] at hdport hsport
    rintro ⟨hlo, htcp, hd | hs⟩
    · exact hdport ⟨hlo, htcp, hd⟩
    · exact hsport ⟨hlo, htcp, hs⟩
  by_cases hserver : Server o p
  · rw [if_pos ((server_iff h).2 hserver)]
    exact iff_of_true rfl (.inr (.inl hserver))
  rw [if_neg (mt (server_iff h).1 hserver)]
  -- what is left may only be local
  have honly : Allowed o p ↔ Local o p :=
    ⟨fun hall => (hall.resolve_left hbroker).resolve_left hserver, fun hloc => .inr (.inr hloc)⟩
  rw [honly]
  cases htunnel : o.tunnel.any p.isTo with
  | true =>
      rw [if_pos rfl]
      refine iff_of_false (by decide) fun hloc => ?_
      rw [tunnel_isTo.2 hloc.2.1] at htunnel
      cases htunnel
  | false =>
      rw [if_neg (by decide)]
      by_cases hwg : p.oif = wgIface
      · rw [if_pos hwg]
        exact iff_of_false (by decide) fun hloc => hloc.1 hwg
      rw [if_neg hwg]
      have hto : Local o p ↔ p.to4 multicast = true ∨ o.lanCidrs.any p.to4 = true := by
        rw [List.any_eq_true]
        exact ⟨fun hloc => hloc.2.2, fun hnet => ⟨hwg, tunnel_isTo.1 htunnel, hnet⟩⟩
      rw [hto]
      split
      · rename_i hmulti
        exact iff_of_true rfl (.inl hmulti)
      · rename_i hmulti
        split
        · rename_i hlan
          exact iff_of_true rfl (.inr hlan)
        · rename_i hlan
          exact iff_of_false (by decide) fun hnet => hnet.elim hmulti hlan

/-! ## Both filters make the same decision -/

section Filters

open RuleChain

theorem nft_rule (ms : List NftMatch) (counter : Bool) (v : Verdict) :
    NftRule.rule ⟨ms, counter, v⟩ = ⟨fun p => ms.all (NftMatch.holds p), v⟩ := rfl

theorem iptables_rule (family : Family) (ms : List IptablesMatch) (v : Verdict) :
    IptablesRule.rule family ⟨ms, v⟩ = ⟨fun p => ms.all (IptablesMatch.holds family p), v⟩ := rfl

/-- The tests of the rules for servers, of which one family has none to make. -/
theorem any_servers4 {p : OutPacket} {x : BitVec 32} (hp : p.dest = .v4 x) (addrs : List Text) :
    (v4 addrs).any p.to4 = addrs.any p.isTo ∧ (v6 addrs).any p.to6 = false := by
  refine ⟨any_filter_eq (to4_host hp) addrs, ?_⟩
  rw [List.any_eq_false]
  intro s _
  simp [OutPacket.to6, hp]

theorem any_servers6 {p : OutPacket} {x : BitVec 128} (hp : p.dest = .v6 x) (addrs : List Text) :
    (v6 addrs).any p.to6 = addrs.any p.isTo ∧ (v4 addrs).any p.to4 = false := by
  refine ⟨any_filter_eq (to6_host hp) addrs, ?_⟩
  rw [List.any_eq_false]
  intro s _
  simp [OutPacket.to4, hp]

/-- The rules of the table as tests of a packet. -/
theorem edgeRules_eq (o : Inputs) :
    (edgeRules o).map NftRule.rule =
      [⟨fun p => p.oif = lo && (p.isTcp && p.dport = brokerPort), .accept⟩,
        ⟨fun p => p.oif = lo && (p.isTcp && p.sport = brokerPort), .accept⟩] ++
      ((if v4 o.serverAddrs ≠ [] then
          [⟨fun p => (v4 o.serverAddrs).any (fun a => p.to4 a) &&
            (p.isTcp && p.dport = o.serverPort.toNat), .accept⟩] else []) ++
        ((if v6 o.serverAddrs ≠ [] then
            [⟨fun p => (v6 o.serverAddrs).any (fun a => p.to6 a) &&
              (p.isTcp && p.dport = o.serverPort.toNat), .accept⟩] else []) ++
          (o.tunnel.toList.map (fun t => ⟨fun p => p.to4 t, .drop⟩) ++
            ([⟨fun p => p.oif = wgIface, .drop⟩, ⟨fun p => p.to4 multicast, .accept⟩] ++
              ((if o.lanCidrs ≠ [] then
                  [⟨fun p => o.lanCidrs.any (fun c => p.to4 c) && true, .accept⟩] else []) ++
                [⟨fun _ => true, .drop⟩]))))) := by
  simp only [edgeRules, List.map_append, List.append_assoc, List.map_map, apply_ite (List.map _),
    List.map_cons, List.map_nil, nft_rule, List.all_cons, List.all_nil, Bool.and_true,
    NftMatch.holds, Function.comp_def]

theorem any_tunnel (o : Inputs) (f : Text → Bool) : o.tunnel.toList.any f = o.tunnel.any f := by
  cases o.tunnel with
  | none =>
      rfl
  | some t =>
      exact Bool.or_false (f t)

/-- No rule for the LAN lets an IPv6 packet out. -/
theorem decision_inet6 {o : Inputs} {p : OutPacket} {x : BitVec 128} (hp : p.dest = .v6 x) :
    decision o p =
      if p.oif = lo && (p.isTcp && p.dport = brokerPort) then .accept
      else if p.oif = lo && (p.isTcp && p.sport = brokerPort) then .accept
      else if o.serverAddrs.any p.isTo && (p.isTcp && p.dport = o.serverPort.toNat) then .accept
      else .drop := by
  have hto : ∀ t, p.to4 t = false := fun t => by simp [OutPacket.to4, hp]
  have hlan : o.lanCidrs.any p.to4 = false := List.any_eq_false.2 fun c _ => by simp [hto]
  simp only [decision, hto, hlan, Bool.false_eq_true, if_false, ite_self]

theorem nft_verdict {o : Inputs} (ho : ∀ t ∈ o.tunnel, isIPv4 t = true) (p : OutPacket) :
    firstMatch ((edgeRules o).map NftRule.rule) .accept p = decision o p := by
  rw [edgeRules_eq]
  simp only [List.cons_append, List.nil_append, firstMatch_cons]
  rw [firstMatch_set, firstMatch_set, firstMatch_map, firstMatch_cons, firstMatch_cons,
    firstMatch_set, firstMatch_cons]
  simp only [any_tunnel, Bool.and_true, if_true]
  cases hp : p.dest with
  | v4 x =>
      obtain ⟨hserver, hother⟩ := any_servers4 hp o.serverAddrs
      rw [hserver, hother, tunnel_host ho (to4_host hp)]
      simp only [Bool.false_and, Bool.false_eq_true, if_false, decision, decide_eq_true_eq]
  | v6 x =>
      obtain ⟨hserver, hother⟩ := any_servers6 hp o.serverAddrs
      have hto : ∀ t, p.to4 t = false := fun t => by simp [OutPacket.to4, hp]
      have hlan : o.lanCidrs.any (fun c => p.to4 c) = false :=
        List.any_eq_false.2 fun c _ => by simp [hto]
      rw [hserver, hother, hlan, decision_inet6 hp]
      simp only [Bool.false_and, Bool.false_eq_true, if_false, hto, ite_self]

/-- The rules of the chain as tests of a packet. -/
theorem chainRules_inet_eq (o : Inputs) :
    (chainRules o .inet).map (IptablesRule.rule .inet) =
      [⟨fun p => p.oif = lo && (p.isTcp && p.dport = brokerPort), .accept⟩,
        ⟨fun p => p.oif = lo && (p.isTcp && p.sport = brokerPort), .accept⟩] ++
      ((v4 o.serverAddrs).map (fun a => ⟨fun p => p.to4 (a ++ "/32".toList) &&
          (p.isTcp && p.dport = o.serverPort.toNat), .accept⟩) ++
        (o.tunnel.toList.map (fun t => ⟨fun p => p.to4 (t ++ "/32".toList), .drop⟩) ++
          ([⟨fun p => p.oif = wgIface, .drop⟩, ⟨fun p => p.to4 multicast, .accept⟩] ++
            (o.lanCidrs.map (fun c => ⟨fun p => p.to4 c, .accept⟩) ++
              [⟨fun _ => true, .drop⟩])))) := by
  simp only [chainRules, List.map_append, List.append_assoc, List.map_map, List.map_cons,
    List.map_nil, iptables_rule, List.all_cons, List.all_nil, Bool.and_true, IptablesMatch.holds,
    Function.comp_def]

theorem chainRules_inet6_eq (o : Inputs) :
    (chainRules o .inet6).map (IptablesRule.rule .inet6) =
      [⟨fun p => p.oif = lo && (p.isTcp && p.dport = brokerPort), .accept⟩,
        ⟨fun p => p.oif = lo && (p.isTcp && p.sport = brokerPort), .accept⟩] ++
      ((v6 o.serverAddrs).map (fun a => ⟨fun p => p.to6 (a ++ "/128".toList) &&
          (p.isTcp && p.dport = o.serverPort.toNat), .accept⟩) ++
        [⟨fun _ => true, .drop⟩]) := by
  simp only [chainRules, List.map_append, List.append_assoc, List.map_map, List.map_cons,
    List.map_nil, iptables_rule, List.all_cons, List.all_nil, Bool.and_true, IptablesMatch.holds,
    Function.comp_def]

/-- A rule for each server, with the port asked for in each of them. -/
theorem any_and (xs : List Text) (f : Text → Bool) (b : Bool) :
    xs.any (fun x => f x && b) = (xs.any f && b) := by
  cases b with
  | true =>
      simp
  | false =>
      simp

theorem iptables_verdict {o : Inputs} (ho : ∀ t ∈ o.tunnel, isIPv4 t = true) (p : OutPacket) :
    firstMatch ((chainRules o p.family).map (IptablesRule.rule p.family)) .accept p =
      decision o p := by
  cases hp : p.dest with
  | v4 x =>
      have hfamily : p.family = .inet := by simp [OutPacket.family, hp]
      rw [hfamily, chainRules_inet_eq]
      simp only [List.cons_append, List.nil_append, firstMatch_cons, firstMatch_map, any_tunnel,
        any_and, if_true]
      rw [v4, any_filter_eq (to4_length hp), tunnel_host ho (to4_length hp)]
      simp only [decision, decide_eq_true_eq]
  | v6 x =>
      have hfamily : p.family = .inet6 := by simp [OutPacket.family, hp]
      rw [hfamily, chainRules_inet6_eq]
      simp only [List.cons_append, List.nil_append, firstMatch_cons, firstMatch_map, any_and, if_true]
      rw [v6, any_filter_eq (to6_length hp), decision_inet6 hp]

end Filters

/-- Both filters give a packet of the edge user the same verdict, and let out what is allowed and
nothing else. -/
theorem fences_agree {o : Inputs} (h : assertInputs o = .ok ()) {p : OutPacket}
    (huid : p.uid = o.uid) :
    ∃ nft iptables, buildNftRuleset o = .ok nft ∧
      buildIptablesRestore o p.family = .ok iptables ∧
      nft.verdict p = iptables.verdict p ∧ (nft.verdict p = .accept ↔ Allowed o p) := by
  obtain ⟨hport, htunnel⟩ := assertInputs_ok h
  have hnft : NftScript.verdict ⟨o.uid, edgeRules o⟩ p = decision o p :=
    calc
      NftScript.verdict ⟨o.uid, edgeRules o⟩ p
          = RuleChain.firstMatch ((edgeRules o).map NftRule.rule) .accept p := if_pos huid
      _ = decision o p := nft_verdict htunnel p
  have hiptables : IptablesScript.verdict ⟨p.family, chainRules o p.family⟩ p = decision o p :=
    iptables_verdict htunnel p
  refine ⟨⟨o.uid, edgeRules o⟩, ⟨p.family, chainRules o p.family⟩, ?_, ?_, ?_, ?_⟩
  · rw [buildNftRuleset, h]
    rfl
  · rw [buildIptablesRestore, h]
    rfl
  · rw [hnft, hiptables]
  · rw [hnft]
    exact decision_accept hport p

theorem fences_agree_server :
    ∃ nft iptables,
      buildNftRuleset ⟨61001, ["192.168.1.0/24".toList],
        ["203.0.113.7".toList, "2001:db8::7".toList], 443, some "10.8.0.2".toList⟩ = .ok nft ∧
      buildIptablesRestore ⟨61001, ["192.168.1.0/24".toList],
        ["203.0.113.7".toList, "2001:db8::7".toList], 443, some "10.8.0.2".toList⟩ .inet6 =
          .ok iptables ∧
      nft.verdict ⟨61001, "eth0".toList, .v6 0x20010db8000000000000000000000007, 6, 40000, 443⟩ =
        iptables.verdict
          ⟨61001, "eth0".toList, .v6 0x20010db8000000000000000000000007, 6, 40000, 443⟩ ∧
      nft.verdict ⟨61001, "eth0".toList, .v6 0x20010db8000000000000000000000007, 6, 40000, 443⟩ =
        .accept := by
  let o : Inputs := ⟨61001, ["192.168.1.0/24".toList],
    ["203.0.113.7".toList, "2001:db8::7".toList], 443, some "10.8.0.2".toList⟩
  let p : OutPacket :=
    ⟨61001, "eth0".toList, .v6 0x20010db8000000000000000000000007, 6, 40000, 443⟩
  have hok : assertInputs o = .ok () := by decide +kernel
  obtain ⟨nft, iptables, hnft, hiptables, hsame, hallowed⟩ :=
    fences_agree hok (show p.uid = o.uid from rfl)
  refine ⟨nft, iptables, hnft, hiptables, hsame, hallowed.2 (.inr (.inl ⟨rfl, rfl, ?_⟩))⟩
  exact ⟨"2001:db8::7".toList, by decide, by decide +kernel⟩

end Fence

end Edge
end GateControl
