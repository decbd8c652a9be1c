import GateControl.Dns.Wire

/-!
# Messages — requests, and the messages the filter writes

`parseQuery` takes a request apart, `buildQuery` writes the query for the upstream, `buildResponse`
the replies the filter gives itself.  Upstream replies are read in `Wire`.

As there, an exception of the source is `none`; `parseQuery` catches it, the writers let it through.
-/

namespace GateControl
namespace Dns

open Library

namespace Wire

def typeA : Nat := 1

def typeAaaa : Nat := 28

def rcodeNoError : Nat := 0

def rcodeFormErr : Nat := 1

def rcodeServFail : Nat := 2

def rcodeNxDomain : Nat := 3

def rcodeNotImp : Nat := 4

def rcodeRefused : Nat := 5

def ednsUdp : Nat := 1232

def edeBlocked : Nat := 15

/-! ## Requests -/

structure Edns where
  udpSize : Nat
  doBit : Bool
  version : Nat
  deriving DecidableEq

/-- The question of a request; there is no name where a character of it has no place in one. -/
structure Asked where
  name : Option Text
  qtype : Nat
  qclass : Nat
  question : Bytes
  deriving DecidableEq

def Asked.nameOk (a : Asked) : Bool := a.name.isSome

structure Query where
  id : Nat
  opcode : Nat
  rd : Bool
  cd : Bool
  qdcount : Nat
  asked : Option Asked
  edns : Option Edns
  deriving DecidableEq

/-- The labels of an uncompressed name and the position behind it. -/
structure LabelsAt where
  labels : List Bytes
  stop : Nat
  deriving DecidableEq

/-- The loop of `readQuestionName`, with the labels it collects. -/
def readQuestionLabelsFrom (buf : Bytes) (labels : List Bytes) (pos total : Nat) :
    Option LabelsAt :=
  match h : buf[pos]? with
  | none => none
  | some b =>
      let len := b.toNat
      if len = 0 then some ⟨labels, pos + 1⟩
      else if len > 63 then none
      else if pos + 1 + len > buf.length then none
      else if total + (len + 1) > 255 then none
      else
        have : buf.length - (pos + 1 + len) < buf.length - pos := by
          have := (List.getElem?_eq_some_iff.1 h).1
          omega
        readQuestionLabelsFrom buf (labels ++ [slice buf (pos + 1) (pos + 1 + len)]) (pos + 1 + len)
          (total + (len + 1))
  termination_by buf.length - pos

def readQuestionLabels (buf : Bytes) (off : Nat) : Option LabelsAt :=
  readQuestionLabelsFrom buf [] off 0

/-- A byte a host name may hold, in lower case. -/
def labelChar (b : UInt8) : Option Char :=
  let c := b.toNat
  if c ≤ 0x20 ∨ c ≥ 0x7f ∨ c = 0x2e then none
  else some (Char.ofNat (if 0x41 ≤ c ∧ c ≤ 0x5a then c + 32 else c))

def labelText (label : Bytes) : Option Text := label.mapM labelChar

/-- The position behind a record; there is none when the record runs out of the message. -/
def skipRR (buf : Bytes) (pos : Nat) : Option (Option Nat) := do
  let n ← readName buf pos
  let p := n.next
  if p + 10 > buf.length then pure none
  else do
    let rdlen ← readUInt16BE buf (p + 8)
    if p + 10 + rdlen > buf.length then pure none else pure (some (p + 10 + rdlen))

def skipRRs (buf : Bytes) : Nat → Option Nat → Option (Option Nat)
  | 0, pos => some pos
  | _ + 1, none => some none
  | n + 1, some pos => (skipRR buf pos).bind fun pos => skipRRs buf n pos

/-- The OPT record at `p`, behind its name. -/
def ednsAt (buf : Bytes) (p : Nat) : Option Edns := do
  let ttl ← readUInt32BE buf (p + 4)
  let size ← readUInt16BE buf (p + 2)
  pure ⟨max 512 size, ttl.testBit 15, ttl / 65536 % 256⟩

/-- The loop over the `ar` additional records; the last OPT record counts. -/
def readEdns (buf : Bytes) : Nat → Option Nat → Option Edns → Option (Option Edns)
  | 0, _, edns => some edns
  | _ + 1, none, edns => some edns
  | ar + 1, some pos, edns => do
      let n ← readName buf pos
      if n.next + 10 > buf.length then pure edns
      else do
        let type ← readUInt16BE buf n.next
        let edns ← if type = typeOpt then (ednsAt buf n.next).map some else some edns
        let pos ← skipRR buf pos
        readEdns buf ar pos edns

/-- The question and what follows it; without a question when that cannot be read. -/
def readAsked (buf : Bytes) (base : Query) : Option Query :=
  match readQuestionLabels buf 12 with
  | none => some base
  | some q =>
      if q.stop + 4 > buf.length then some base
      else do
        let qtype ← readUInt16BE buf q.stop
        let qclass ← readUInt16BE buf (q.stop + 2)
        let qEnd := q.stop + 4
        let name := (q.labels.mapM labelText).map joinDots
        let an ← readUInt16BE buf 6
        let ns ← readUInt16BE buf 8
        let ar ← readUInt16BE buf 10
        if an + ns + ar > maxRR then pure base
        else do
          let pos ← skipRRs buf (an + ns) (some qEnd)
          let edns ← readEdns buf ar pos none
          pure { base with asked := some ⟨name, qtype, qclass, slice buf 12 qEnd⟩, edns := edns }

def parseQuery (buf : Bytes) : Option Query :=
  if buf.length < 12 ∨ buf.length > 65535 then none
  else do
    let id ← readUInt16BE buf 0
    let flags ← readFlags buf
    -- a reply, no request
    if flags.testBit 15 then none
    else do
      let qdcount ← readUInt16BE buf 4
      let base : Query :=
        { id := id
          opcode := flags / 2048 % 16
          rd := flags.testBit 8
          cd := flags.testBit 4
          qdcount := qdcount
          asked := none
          edns := none }
      if qdcount ≠ 1 then pure base else readAsked buf base

/-! ## Writing -/

/-- `writeUInt16BE` of a number that may not fit. -/
def uint16? (n : Nat) : Option Bytes := if n < 65536 then some (uint16BE n) else none

def encodeLabel (p : Text) : Option Bytes :=
  let b := asciiBytes p
  if b.length > 63 then none else some (UInt8.ofNat b.length :: b)

def encodeName (name : Text) : Option Bytes := do
  let bufs ← ((name.splitOn '.').filter fun p => !p.isEmpty).mapM encodeLabel
  pure (bufs.flatten ++ [0])

def questionFor (name : Text) (qtype qclass : Nat) : Option Bytes := do
  let t ← uint16? qtype
  let c ← uint16? qclass
  let n ← encodeName name
  pure (n ++ (t ++ c))

/-- The option for an extended error. -/
def encodeEde (ede : Option Nat) : Option Bytes :=
  match ede with
  | none => some []
  | some e => (uint16? e).map fun e => uint16BE 15 ++ uint16BE 2 ++ e

/-- The OPT record, with an extended error where `ede` names one. -/
def optRecord (udpSize : Nat) (doBit : Bool) (ede : Option Nat) : Option Bytes := do
  let rdata ← encodeEde ede
  let size ← uint16? udpSize
  pure (0 :: (uint16BE typeOpt ++ size ++ uint32BE (if doBit then 0x8000 else 0) ++
    uint16BE rdata.length ++ rdata))

/-- The OPT record for a client that spoke EDNS, with its DO bit. -/
def encodeEdns (edns : Option Bool) (ede : Option Nat) : Option Bytes :=
  match edns with
  | none => some []
  | some doBit => optRecord ednsUdp doBit ede

/-- The query for the upstream; `edns` is the DO bit of a client that spoke EDNS. -/
def buildQuery (id : Nat) (name : Text) (qtype qclass : Nat) (edns : Option Bool) (cd : Bool) :
    Option Bytes := do
  let h := uint16BE (id % 65536) ++ uint16BE (0x0100 + if cd then 0x0010 else 0) ++ uint16BE 1 ++
    uint16BE 0 ++ uint16BE 0 ++ uint16BE (if edns.isSome then 1 else 0)
  let q ← questionFor name qtype qclass
  let opt ← encodeEdns edns none
  pure (h ++ q ++ opt)

/-- An answer of the filter's own. -/
structure NewAnswer where
  name : Text
  type : Nat
  ttl : Int
  rdata : Bytes
  deriving DecidableEq

structure Reply where
  rcode : Nat := rcodeNoError
  answers : List NewAnswer := []
  tc : Bool := false
  ede : Option Nat := none

/-- `Math.max(0, ttl | 0)` -/
def ttlField (ttl : Int) : Nat := (max 0 (ttl.bmod 4294967296)).toNat

def responseFlags (query : Query) (rcode : Nat) (tc : Bool) : Nat :=
  0x8000 + query.opcode % 16 * 2048 + (if tc then 0x0200 else 0) + (if query.rd then 0x0100 else 0) +
    0x0080 + (if query.cd then 0x0010 else 0) + rcode % 16

/-- The name of a record; the name that was asked for is a pointer to the question. -/
def encodeOwner (qname : Option Text) (name : Text) : Option Bytes :=
  if some name = qname then some [0xc0, 0x0c] else encodeName name

/-- A record of the reply to a question for `qname`. -/
def encodeAnswer (qname : Option Text) (a : NewAnswer) : Option Bytes := do
  let n ← encodeOwner qname a.name
  let t ← uint16? a.type
  let l ← uint16? a.rdata.length
  pure (n ++ (t ++ uint16BE classIn ++ uint32BE (ttlField a.ttl) ++ l) ++ a.rdata)

/-- The question and the answers; without a question there are no answers either. -/
def encodeSections (asked : Option Asked) (answers : List NewAnswer) : Option (Nat × Bytes) :=
  match asked with
  | none => some (0, [])
  | some q => (answers.mapM (encodeAnswer q.name)).map fun rs =>
      (answers.length, q.question ++ rs.flatten)

def buildResponse (query : Query) (r : Reply) : Option Bytes := do
  let sections ← encodeSections query.asked r.answers
  let an ← uint16? sections.1
  let opt ← encodeEdns (query.edns.map Edns.doBit) r.ede
  let h := uint16BE (query.id % 65536) ++ uint16BE (responseFlags query r.rcode r.tc) ++
    uint16BE (if query.asked.isSome then 1 else 0) ++ an ++ uint16BE 0 ++
    uint16BE (if query.edns.isSome then 1 else 0)
  pure (h ++ sections.2 ++ opt)

end Wire

end Dns
end GateControl
