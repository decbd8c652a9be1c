import GateControl.Dns.Policy
import GateControl.Dns.RoundTrip

/-!
# Replies — from a request to the message the client gets

`handle` refuses what it does not understand, answers a blocked name itself, rebuilds the reply of a
safe search without compression, or forwards the upstream's reply.  Whatever fails on the way is a
SERVFAIL.  Over UDP a reply is cut to what the client can take; over TCP the listener puts its
length in front, in two bytes.

The decision and the upstream's reply are parameters.  The outer `none` of `handle` is an exception
that reaches the caller, `some none` a message that is dropped.
-/

namespace GateControl
namespace Dns

open Library Wire

namespace Replies

def maxChain : Nat := 8

def safeCnameTtl : Int := 300

def blockTtl : Int := 60

/-- A reply of the upstream as `_forward` hands it out; the parser has accepted it. -/
structure Forwarded (host : UnicodeHost) where
  wire : Bytes
  response : Response
  ageSec : Int
  parsed : parseResponse host wire = some response
  short : wire.length ≤ 65535

variable {host : UnicodeHost}

/-! ## Blocked names -/

/-- `_blocked`; the setting `nxdomain` or the decision ask for an NXDOMAIN. -/
def blocked (nxdomain : Bool) (q : Query) (a : Asked) (name : Text) (d : Policy.Decision) : Option Bytes :=
  if d.nxdomain || nxdomain then
    buildResponse q { rcode := rcodeNxDomain, ede := some edeBlocked }
  else
    let v4 := if a.qtype = typeA then [⟨name, typeA, blockTtl, List.replicate 4 0⟩] else []
    let v6 := if a.qtype = typeAaaa then [⟨name, typeAaaa, blockTtl, List.replicate 16 0⟩] else []
    buildResponse q { answers := v4 ++ v6, ede := some edeBlocked }

/-! ## Safe search -/

/-- The CNAME record of a name that has a target other than the root. -/
def linkOf (answers : List Answer) (cur : Text) : Option (Answer × Text) :=
  answers.findSome? fun a =>
    if a.name = cur ∧ a.type = typeCname then
      (a.target.filter fun t => !t.isEmpty).map fun t => (a, t)
    else none

/-- A CNAME record on the way: the name it stands at, the record, its target. -/
structure Link where
  cur : Text
  record : Answer
  target : Text

/-- The chain of at most `n` CNAME records from a name on, and the name at its end. -/
def chainFrom (answers : List Answer) : Nat → Text → List Link × Text
  | 0, cur => ([], cur)
  | n + 1, cur =>
      match linkOf answers cur with
      | none => ([], cur)
      | some c =>
          let rest := chainFrom answers n c.2
          (⟨cur, c.1, c.2⟩ :: rest.1, rest.2)

/-- `Math.max(0, ttl - ageSec)` -/
def agedTtl (ttl : Nat) (ageSec : Int) : Int := max 0 (ttl - ageSec)

/-- The data of a record of a safe search, before names are written. -/
inductive Rdata
  | target (name : Text)
  | bytes (rdata : Bytes)

def Rdata.encode : Rdata → Option Bytes
  | .target name => encodeName name
  | .bytes rdata => some rdata

structure SafeRecord where
  name : Text
  type : Nat
  ttl : Int
  rdata : Rdata

def SafeRecord.answer (r : SafeRecord) : Option NewAnswer :=
  r.rdata.encode.map fun rdata => ⟨r.name, r.type, r.ttl, rdata⟩

/-- The records of a safe search: from the name to the target, along the chain, and the addresses
at its end. -/
def safeRecords (name target : Text) (qtype : Nat) (r : Forwarded host) : List SafeRecord :=
  let chain := chainFrom r.response.answers maxChain target
  let links := chain.1.map fun l =>
    ⟨l.cur, typeCname, agedTtl l.record.ttl r.ageSec, .target l.target⟩
  let ends := r.response.answers.filter fun a => a.name = chain.2 ∧ a.type = qtype
  ⟨name, typeCname, safeCnameTtl, .target target⟩ :: links ++
    ends.map fun a => ⟨chain.2, a.type, agedTtl a.ttl r.ageSec, .bytes a.rdata⟩

/-- `_safeSearch`, with the upstream's reply for the target. -/
def safeSearch (q : Query) (a : Asked) (name target : Text) (r : Forwarded host) : Option Bytes :=
  if r.response.rcode ≠ rcodeNoError then buildResponse q { rcode := r.response.rcode }
  else
    ((safeRecords name target a.qtype r).mapM SafeRecord.answer).bind fun answers =>
      buildResponse q { answers := answers }

/-! ## The reply -/

def isAddressType (qtype : Nat) : Bool := qtype = typeA || qtype = typeAaaa

/-- The reply to an accepted question; `forwarded` is what the upstream says, if it can be asked. -/
def respond (nxdomain : Bool) (d : Policy.Decision) (forwarded : Option (Forwarded host)) (q : Query)
    (a : Asked) (name : Text) : Option Bytes :=
  match d.action with
  | .block => blocked nxdomain q a name d
  | .allow =>
      match d.safeSearch.filter fun t => !t.isEmpty with
      | some target =>
          if isAddressType a.qtype then forwarded.bind (safeSearch q a name target)
          -- other types are empty for search engines
          else buildResponse q {}
      | none => forwarded.bind fun r =>
          adaptResponse r.wire q.id (some a.question) r.response.ttlOffsets r.ageSec

/-- The bytes a client takes over UDP. -/
def maxUdp (q : Query) : Nat :=
  match q.edns with
  | none => 512
  | some e => min e.udpSize 4096

/-- Over UDP, a reply that is too long becomes an empty one with the TC bit. -/
def cut (host : UnicodeHost) (udp : Bool) (q : Query) (out : Bytes) : Option Bytes :=
  if udp ∧ out.length > maxUdp q then
    buildResponse q
      { rcode := ((parseResponse host out).map Response.rcode).getD rcodeNoError, tc := true }
  else some out

def handle (nxdomain : Bool) (d : Policy.Decision) (forwarded : Option (Forwarded host)) (udp : Bool)
    (msg : Bytes) : Option (Option Bytes) :=
  match parseQuery msg with
  | none => some none
  | some q =>
      if q.opcode ≠ 0 then (buildResponse q { rcode := rcodeNotImp }).map some
      else
        match q.asked with
        | none => (buildResponse q { rcode := rcodeFormErr }).map some
        | some a =>
            match a.name with
            | none => (buildResponse q { rcode := rcodeRefused }).map some
            | some name =>
                if a.qclass ≠ classIn then (buildResponse q { rcode := rcodeRefused }).map some
                else
                  let out := (respond nxdomain d forwarded q a name).or
                    (buildResponse q { rcode := rcodeServFail })
                  out.bind fun out => (cut host udp q out).map some

/-- What `_onTcp` writes: the length in two bytes, and the reply. -/
def tcpFrame (out : Bytes) : Option Bytes := (uint16? out.length).map fun l => l ++ out

end Replies

end Dns
end GateControl
