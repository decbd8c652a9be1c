import GateControl.Library.Bytes
import GateControl.Dns.DomainSet

/-!
# Wire — reading upstream replies and preparing them for a client

`readName` follows compression pointers, `parseResponse` walks over the records of a reply and
collects where their TTLs stand, `adaptResponse` turns a stored reply into the reply of one client:
its id, its spelling of the question, and TTLs lowered by the age of the reply.

An exception of the source is `none` here; `parseResponse` catches it and returns nothing.
-/

namespace GateControl
namespace Dns

open Library

namespace Wire

def typeCname : Nat := 5

def typeSoa : Nat := 6

def typeOpt : Nat := 41

def classIn : Nat := 1

def maxRR : Nat := 512

def maxJumps : Nat := 16

def maxLabels : Nat := 128

/-! ## Names -/

/-- A name and the position behind it. -/
structure NameAt where
  name : Text
  next : Nat
  deriving DecidableEq

def joinDots (labels : List Text) : Text := ['.'].intercalate labels

/-- The loop of `readName`: `next` is set by the first pointer. -/
def readNameFrom (buf : Bytes) (labels : List Text) (pos : Nat) (next : Option Nat) (jumps : Nat) :
    Option NameAt :=
  match buf[pos]? with
  | none => none
  | some b =>
      let len := b.toNat
      if len = 0 then some ⟨joinDots labels, next.getD (pos + 1)⟩
      -- a pointer; the name goes on elsewhere, the message behind the first one
      else if len ≥ 0xc0 then
        match buf[pos + 1]? with
        | none => none
        | some low =>
            if _h : jumps + 1 > maxJumps then none
            else
              readNameFrom buf labels ((len - 0xc0) * 256 + low.toNat)
                (some (next.getD (pos + 2))) (jumps + 1)
      -- reserved
      else if len ≥ 0x40 then none
      else if pos + 1 + len > buf.length then none
      else
        let label := utf8 (slice buf (pos + 1) (pos + 1 + len))
        if _h : labels.length + 1 > maxLabels then none
        else readNameFrom buf (labels ++ [label]) (pos + 1 + len) next jumps
  termination_by (maxJumps - jumps) + (maxLabels - labels.length)
  decreasing_by
    · omega
    · simp only [List.length_append, List.length_singleton]
      omega

def readName (buf : Bytes) (off : Nat) : Option NameAt := readNameFrom buf [] off none 0

/-- The end of an uncompressed name; `total` counts its bytes so far. -/
def readQuestionNameFrom (buf : Bytes) (pos total : Nat) : Option Nat :=
  match h : buf[pos]? with
  | none => none
  | some b =>
      let len := b.toNat
      if len = 0 then some (pos + 1)
      else if len > 63 then none
      else if pos + 1 + len > buf.length then none
      else if total + (len + 1) > 255 then none
      else
        have : buf.length - (pos + 1 + len) < buf.length - pos := by
          have := (List.getElem?_eq_some_iff.1 h).1
          omega
        readQuestionNameFrom buf (pos + 1 + len) (total + (len + 1))
  termination_by buf.length - pos

/-- Where a name without compression ends. -/
def readQuestionName (buf : Bytes) (off : Nat) : Option Nat := readQuestionNameFrom buf off 0

/-! ## Replies -/

/-- The flags of a message. -/
def readFlags (buf : Bytes) : Option Nat := readUInt16BE buf 2

structure Answer where
  name : Text
  type : Nat
  ttl : Nat
  rdata : Bytes
  target : Option Text
  deriving DecidableEq

/-- The variables of the loop over the records. -/
structure Walk where
  pos : Nat
  ttlOffsets : List Nat
  answers : List Answer
  minTtl : Option Nat
  negTtl : Option Nat

/-- The TTL for negative answers, from the SOA record at `rd`. -/
def soaTtl (buf : Bytes) (rd rdlen ttl : Nat) (negTtl : Option Nat) : Option (Option Nat) := do
  let m ← readName buf rd
  let r ← readName buf m.next
  -- the minimum is the last of the five numbers behind the two names
  if r.next + 20 ≤ rd + rdlen then (readUInt32BE buf (r.next + 16)).map fun t => some (min ttl t)
  else pure negTtl

/-- An answer; a CNAME record has a target. -/
def answerAt (host : UnicodeHost) (buf : Bytes) (name : Text) (type ttl rd rdlen : Nat) :
    Option Answer :=
  let a : Answer := ⟨lowerCase host name, type, ttl, slice buf rd (rd + rdlen), none⟩
  if type = typeCname then
    (readName buf rd).map fun t => { a with target := some (lowerCase host t.name) }
  else some a

/-- What record `i` adds to the variables; only authority records can be the SOA record. -/
def addRecord (host : UnicodeHost) (buf : Bytes) (an ns i : Nat) (w : Walk) (name : Text)
    (p type ttl rdlen : Nat) : Option Walk := do
  let rd := p + 10
  let isSoa := decide (type = typeSoa ∧ an ≤ i ∧ i < an + ns)
  let negTtl ← bif isSoa then soaTtl buf rd rdlen ttl w.negTtl else some w.negTtl
  let answer ← bif i < an then (answerAt host buf name type ttl rd rdlen).map some else some none
  pure
    { pos := rd + rdlen
      -- the field of an OPT record holds flags; additional records do not count for the lifetime
      ttlOffsets := if type ≠ typeOpt then w.ttlOffsets ++ [p + 4] else w.ttlOffsets
      answers := w.answers ++ answer.toList
      minTtl := if type ≠ typeOpt ∧ i < an + ns
        then some ((w.minTtl.map fun m => min m ttl).getD ttl) else w.minTtl
      negTtl := negTtl }

/-- Record `i` of a reply with `an` answers and `ns` authority records. -/
def readRecord (host : UnicodeHost) (buf : Bytes) (an ns i : Nat) (w : Walk) : Option Walk := do
  let n ← readName buf w.pos
  let p := n.next
  if p + 10 > buf.length then none
  else do
    let type ← readUInt16BE buf p
    let ttl ← readUInt32BE buf (p + 4)
    let rdlen ← readUInt16BE buf (p + 8)
    if p + 10 + rdlen > buf.length then none
    else addRecord host buf an ns i w n.name p type ttl rdlen

/-- The `n` records from record `i` on. -/
def readRecords (host : UnicodeHost) (buf : Bytes) (an ns : Nat) : Nat → Nat → Walk → Option Walk
  | 0, _, w => some w
  | n + 1, i, w => (readRecord host buf an ns i w).bind fun w => readRecords host buf an ns n (i + 1) w

structure Response where
  id : Nat
  rcode : Nat
  tc : Bool
  qname : Option Text
  ttlOffsets : List Nat
  minTtl : Option Nat
  negTtl : Option Nat
  answers : List Answer
  an : Nat
  deriving DecidableEq

/-- The name of the question, and the position behind the question section. -/
def readQuestion (buf : Bytes) (qd : Nat) : Option (Option Text × Nat) :=
  if qd = 1 then do
    let n ← readName buf 12
    if n.next + 4 > buf.length then none else pure (some n.name, n.next + 4)
  else some (none, 12)

def parseResponse (host : UnicodeHost) (buf : Bytes) : Option Response := do
  if buf.length < 12 then none
  else do
    let flags ← readFlags buf
    if !flags.testBit 15 then none
    else do
      let qd ← readUInt16BE buf 4
      let an ← readUInt16BE buf 6
      let ns ← readUInt16BE buf 8
      let ar ← readUInt16BE buf 10
      if an + ns + ar > maxRR ∨ qd > 1 then none
      else do
        let q ← readQuestion buf qd
        let w ← readRecords host buf an ns (an + ns + ar) 0 ⟨q.2, [], [], none, none⟩
        let id ← readUInt16BE buf 0
        pure
          { id := id
            rcode := flags % 16
            tc := flags.testBit 9
            qname := q.1.map (lowerCase host)
            ttlOffsets := w.ttlOffsets
            minTtl := w.minTtl
            negTtl := w.negTtl
            answers := w.answers
            an := an }

/-! ## Preparing a reply -/

/-- Write the client's spelling of the question over a question of the same length. -/
def copyQuestion (buf : Bytes) (question : Option Bytes) (out : Bytes) : Bytes :=
  match question with
  | none => out
  | some q =>
      -- the spelling of the client, when upstream has answered the same name in another one
      if readUInt16BE buf 4 = some 1 ∧ 12 + q.length ≤ out.length then
        match readQuestionName out 12 with
        | some e => if e + 4 - 12 = q.length then writeBytes out 12 q else out
        | none => out
      else out

/-- Lower the TTL at an offset by the age of the reply. -/
def lowerTtl (ageSec : Int) (out : Bytes) (off : Nat) : Option Bytes :=
  (readUInt32BE out off).map fun t =>
    writeUInt32BE out (if (t : Int) > ageSec then (t - ageSec).toNat else 0) off

def adaptResponse (buf : Bytes) (id : Nat) (question : Option Bytes) (ttlOffsets : List Nat)
    (ageSec : Int) : Option Bytes :=
  let out := writeUInt16BE buf (id % 65536) 0
  let out := copyQuestion buf question out
  if ageSec > 0 then ttlOffsets.foldlM (lowerTtl ageSec) out else some out

end Wire

end Dns
end GateControl
