import GateControl.Netwatch.DnsWire
import GateControl.Dns.Messages

/-!
# CheckedReads — requests and replies are read inside the message

`parseQuery` and `parseResponse` once more, with every read of the buffer and every exception told
apart.  They do what their plain counterparts in `Messages` and `Wire` say: for every message they
return a value or `null`, they do not throw, and no byte outside the message is asked for.
-/

namespace GateControl
namespace Dns
namespace Checked

open Library Reading
open Wire hiding readName
open Netwatch.DnsWire (readName readName_does readName_advances decodeRecord decodeResponse
  decodeRecord_advances decodeResponse_returns loop maxTurns Ended loop_new_ended)

/-! ## Requests -/

/-- The loop of `readQuestionName`. -/
def readQuestionNameFrom (buf : Bytes) (labels : List Bytes) (pos total : Nat) :
    Reading (Option LabelsAt) :=
  if _h : pos ≥ buf.length then pure none
  else do
    let b ← byteAt buf pos
    let len := b.toNat
    if len = 0 then pure (some ⟨labels, pos + 1⟩)
    else if len > 63 then pure none
    else if pos + 1 + len > buf.length then pure none
    else if total + (len + 1) > 255 then pure none
    else
      let label := slice buf (pos + 1) (pos + 1 + len)
      readQuestionNameFrom buf (labels ++ [label]) (pos + 1 + len) (total + (len + 1))
  termination_by buf.length - pos

def readQuestionName (buf : Bytes) (off : Nat) : Reading (Option LabelsAt) :=
  readQuestionNameFrom buf [] off 0

/-- The position behind a record; there is none when the record runs out of the message. -/
def skipRR (buf : Bytes) (pos : Nat) : Reading (Option Nat) := do
  let n ← readName buf pos
  let p := n.next
  if p + 10 > buf.length then pure none
  else do
    let rdlen ← uint16At buf (p + 8)
    if p + 10 + rdlen > buf.length then pure none else pure (some (p + 10 + rdlen))

def skipRRs (buf : Bytes) : Nat → Option Nat → Reading (Option Nat)
  | 0, pos => pure pos
  | _ + 1, none => pure none
  | n + 1, some pos => do
      let pos ← skipRR buf pos
      skipRRs buf n pos

def ednsAt (buf : Bytes) (p : Nat) : Reading Edns := do
  let ttl ← uint32At buf (p + 4)
  let size ← uint16At buf (p + 2)
  pure ⟨max 512 size, ttl.testBit 15, ttl / 65536 % 256⟩

/-- The loop over the `ar` additional records. -/
def readEdns (buf : Bytes) : Nat → Option Nat → Option Edns → Reading (Option Edns)
  | 0, _, edns => pure edns
  | _ + 1, none, edns => pure edns
  | ar + 1, some pos, edns => do
      let n ← readName buf pos
      if n.next + 10 > buf.length then pure edns
      else do
        let type ← uint16At buf n.next
        let edns ← if type = typeOpt then some <$> ednsAt buf n.next else pure edns
        let pos ← skipRR buf pos
        readEdns buf ar pos edns

def readAsked (buf : Bytes) (base : Query) : Reading Query := do
  match ← readQuestionName buf 12 with
  | none => pure base
  | some q =>
      if q.stop + 4 > buf.length then pure base
      else do
        let qtype ← uint16At buf q.stop
        let qclass ← uint16At buf (q.stop + 2)
        let qEnd := q.stop + 4
        let name := (q.labels.mapM labelText).map joinDots
        let an ← uint16At buf 6
        let ns ← uint16At buf 8
        let ar ← uint16At buf 10
        if an + ns + ar > maxRR then pure base
        else do
          let pos ← skipRRs buf (an + ns) (some qEnd)
          let edns ← readEdns buf ar pos none
          pure { base with asked := some ⟨name, qtype, qclass, slice buf 12 qEnd⟩, edns := edns }

def parseQuery (buf : Bytes) : Reading (Option Query) :=
  orNull <|
    if buf.length < 12 ∨ buf.length > 65535 then null
    else do
      let id ← uint16At buf 0
      let flags ← uint16At buf 2
      -- a reply, no request
      if flags.testBit 15 then null
      else do
        let qdcount ← uint16At buf 4
        let base : Query :=
          { id := id
            opcode := flags / 2048 % 16
            rd := flags.testBit 8
            cd := flags.testBit 4
            qdcount := qdcount
            asked := none
            edns := none }
        if qdcount ≠ 1 then pure base else readAsked buf base

/-! ## Replies -/

def soaTtl (buf : Bytes) (rd rdlen ttl : Nat) (negTtl : Option Nat) : Reading (Option Nat) := do
  let m ← readName buf rd
  let r ← readName buf m.next
  if r.next + 20 ≤ rd + rdlen then (fun t => some (min ttl t)) <$> uint32At buf (r.next + 16)
  else pure negTtl

def answerAt (host : UnicodeHost) (buf : Bytes) (name : Text) (type ttl rd rdlen : Nat) :
    Reading Answer :=
  let a : Answer := ⟨lowerCase host name, type, ttl, slice buf rd (rd + rdlen), none⟩
  if type = typeCname then
    (fun t : NameAt => { a with target := some (lowerCase host t.name) }) <$> readName buf rd
  else pure a

/-- What record `i` adds to the variables of the loop. -/
def addRecord (host : UnicodeHost) (buf : Bytes) (an ns i : Nat) (w : Walk) (name : Text)
    (p type ttl rdlen : Nat) : Reading Walk := do
  let rd := p + 10
  let isSoa := decide (type = typeSoa ∧ an ≤ i ∧ i < an + ns)
  let negTtl ← bif isSoa then soaTtl buf rd rdlen ttl w.negTtl else pure w.negTtl
  let answer ← bif i < an then some <$> answerAt host buf name type ttl rd rdlen else pure none
  pure
    { pos := rd + rdlen
      ttlOffsets := if type ≠ typeOpt then w.ttlOffsets ++ [p + 4] else w.ttlOffsets
      answers := w.answers ++ answer.toList
      minTtl := if type ≠ typeOpt ∧ i < an + ns
        then some ((w.minTtl.map fun m => min m ttl).getD ttl) else w.minTtl
      negTtl := negTtl }

def readRecord (host : UnicodeHost) (buf : Bytes) (an ns i : Nat) (w : Walk) : Reading Walk := do
  let n ← readName buf w.pos
  let p := n.next
  if p + 10 > buf.length then null
  else do
    let type ← uint16At buf p
    let ttl ← uint32At buf (p + 4)
    let rdlen ← uint16At buf (p + 8)
    if p + 10 + rdlen > buf.length then null
    else addRecord host buf an ns i w n.name p type ttl rdlen

def readRecords (host : UnicodeHost) (buf : Bytes) (an ns : Nat) : Nat → Nat → Walk → Reading Walk
  | 0, _, w => pure w
  | n + 1, i, w => do
      let w ← readRecord host buf an ns i w
      readRecords host buf an ns n (i + 1) w

def readQuestion (buf : Bytes) (qd : Nat) : Reading (Option Text × Nat) :=
  if qd = 1 then do
    let n ← readName buf 12
    if n.next + 4 > buf.length then null else pure (some n.name, n.next + 4)
  else pure (none, 12)

def parseResponse (host : UnicodeHost) (buf : Bytes) : Reading (Option Response) :=
  orNull <|
    if buf.length < 12 then null
    else do
      let flags ← uint16At buf 2
      if !flags.testBit 15 then null
      else do
        let qd ← uint16At buf 4
        let an ← uint16At buf 6
        let ns ← uint16At buf 8
        let ar ← uint16At buf 10
        if an + ns + ar > maxRR ∨ qd > 1 then null
        else do
          let q ← readQuestion buf qd
          let w ← readRecords host buf an ns (an + ns + ar) 0 ⟨q.2, [], [], none, none⟩
          let id ← uint16At buf 0
          pure
            { id := id
              rcode := flags % 16
              tc := flags.testBit 9
              qname := q.1.map (lowerCase host)
              ttlOffsets := w.ttlOffsets
              minTtl := w.minTtl
              negTtl := w.negTtl
              answers := w.answers
              an := an }

/-! ## What the readers do -/

section Does

variable {buf : Bytes}

theorem readQuestionLabelsFrom_eq (labels : List Bytes) (pos total : Nat) :
    readQuestionLabelsFrom buf labels pos total =
      match buf[pos]? with
      | none => none
      | some b =>
          if b.toNat = 0 then some ⟨labels, pos + 1⟩
          else if b.toNat > 63 then none
          else if pos + 1 + b.toNat > buf.length then none
          else if total + (b.toNat + 1) > 255 then none
          else readQuestionLabelsFrom buf (labels ++ [slice buf (pos + 1) (pos + 1 + b.toNat)])
            (pos + 1 + b.toNat) (total + (b.toNat + 1)) := by
  rw [readQuestionLabelsFrom]
  split <;> rename_i h <;> simp only [h]

theorem readQuestionNameFrom_does (labels : List Bytes) (pos total : Nat) :
    Does (readQuestionNameFrom buf labels pos total)
      (some (readQuestionLabelsFrom buf labels pos total)) := by
  induction hn : buf.length - pos using Nat.strong_induction_on generalizing labels pos total with
  | _ n ih =>
      rw [readQuestionNameFrom, readQuestionLabelsFrom_eq]
      split
      · rename_i hend
        rw [List.getElem?_eq_none hend]
        exact Does.pure none
      · rename_i hpos
        rw [not_le] at hpos
        have hb := List.getElem?_eq_getElem hpos
        generalize buf[pos] = b at hb
        have hbyte : byteAt buf pos = .ok b := by rw [byteAt, hb, ofRead]
        rw [hbyte, hb]
        simp only [bind, Except.bind, apply_ite some]
        refine Does.ite (fun _ => Does.pure _) fun _ => ?_
        refine Does.ite (fun _ => Does.pure none) fun _ => ?_
        refine Does.ite (fun _ => Does.pure none) fun _ => ?_
        refine Does.ite (fun _ => Does.pure none) fun _ => ?_
        exact ih _ (by omega) _ _ _ rfl

theorem skipRR_does (pos : Nat) : Does (skipRR buf pos) (Wire.skipRR buf pos) := by
  refine (readName_does buf pos).bind fun n _ => ?_
  refine Does.ite (fun _ => Does.pure none) fun hroom => ?_
  refine (uint16At_does (by omega)).bind fun rdlen _ => ?_
  exact Does.ite (fun _ => Does.pure none) fun _ => Does.pure _

theorem skipRRs_does (n : Nat) (pos : Option Nat) :
    Does (skipRRs buf n pos) (Wire.skipRRs buf n pos) := by
  induction n generalizing pos with
  | zero =>
      exact Does.pure pos
  | succ n ih =>
      cases pos with
      | none => exact Does.pure none
      | some pos => exact (skipRR_does pos).bind fun pos _ => ih pos

theorem ednsAt_does {p : Nat} (h : p + 8 ≤ buf.length) : Does (ednsAt buf p) (Wire.ednsAt buf p) :=
  (uint32At_does (by omega)).bind fun _ _ => (uint16At_does (by omega)).bind fun _ _ => Does.pure _

theorem readEdns_does (ar : Nat) (pos : Option Nat) (edns : Option Edns) :
    Does (readEdns buf ar pos edns) (Wire.readEdns buf ar pos edns) := by
  induction ar generalizing pos edns with
  | zero =>
      exact Does.pure edns
  | succ ar ih =>
      cases pos with
      | none => exact Does.pure edns
      | some pos =>
          refine (readName_does buf pos).bind fun n _ => ?_
          refine Does.ite (fun _ => Does.pure edns) fun hroom => ?_
          refine (uint16At_does (by omega)).bind fun type _ => ?_
          refine Does.ite (fun _ => ?_) fun _ => ?_
          · exact ((ednsAt_does (by omega)).map some).bind fun edns _ =>
              (skipRR_does pos).bind fun pos _ => ih pos edns
          · exact (Does.pure edns).bind fun edns _ => (skipRR_does pos).bind fun pos _ => ih pos edns

theorem readAsked_does (hlength : 12 ≤ buf.length) (base : Query) :
    Does (readAsked buf base) (Wire.readAsked buf base) := by
  have hname : Does (readQuestionName buf 12) (some (readQuestionLabels buf 12)) :=
    readQuestionNameFrom_does [] 12 0
  unfold readAsked Wire.readAsked
  rw [hname.eq_ok]
  cases readQuestionLabels buf 12 with
  | none => exact Does.pure base
  | some q =>
      refine Does.ite (fun _ => Does.pure base) fun hroom => ?_
      have h16 : ∀ i, i ≤ 10 → Does (uint16At buf i) (readUInt16BE buf i) := fun i hi =>
        uint16At_does (by omega)
      refine (uint16At_does (by omega)).bind fun qtype _ =>
        (uint16At_does (by omega)).bind fun qclass _ => ?_
      refine (h16 6 (by omega)).bind fun an _ => (h16 8 (by omega)).bind fun ns _ =>
        (h16 10 (by omega)).bind fun ar _ => ?_
      refine Does.ite (fun _ => Does.pure base) fun _ => ?_
      exact (skipRRs_does (an + ns) _).bind fun pos _ => (readEdns_does ar pos none).bind fun _ _ =>
        Does.pure _

theorem parseQuery_eq (buf : Bytes) : parseQuery buf = .ok (Wire.parseQuery buf) := by
  refine Does.orNull (Does.ite (fun _ => Does.null) fun hlength => ?_)
  rw [not_or, not_lt] at hlength
  refine (uint16At_does (by omega)).bind fun id _ => (uint16At_does (by omega)).bind fun flags _ => ?_
  refine Does.ite (fun _ => Does.null) fun _ => ?_
  refine (uint16At_does (by omega)).bind fun qdcount _ => ?_
  exact Does.ite (fun _ => Does.pure _) fun _ => readAsked_does hlength.1 _

theorem soaTtl_does {rd rdlen ttl : Nat} (h : rd + rdlen ≤ buf.length) (negTtl : Option Nat) :
    Does (soaTtl buf rd rdlen ttl negTtl) (Wire.soaTtl buf rd rdlen ttl negTtl) := by
  refine (readName_does buf rd).bind fun m _ => (readName_does buf m.next).bind fun r _ => ?_
  exact Does.ite (fun hroom => (uint32At_does (by omega)).map _) fun _ => Does.pure _

variable (host : UnicodeHost)

theorem answerAt_does (name : Text) (type ttl rd rdlen : Nat) :
    Does (answerAt host buf name type ttl rd rdlen) (Wire.answerAt host buf name type ttl rd rdlen) :=
  Does.ite (fun _ => (readName_does buf rd).map _) fun _ => Does.pure _

theorem addRecord_does {an ns i p type ttl rdlen : Nat} (h : p + 10 + rdlen ≤ buf.length) (w : Walk)
    (name : Text) : Does (addRecord host buf an ns i w name p type ttl rdlen)
      (Wire.addRecord host buf an ns i w name p type ttl rdlen) := by
  refine Does.bind ?_ fun negTtl _ => Does.bind ?_ fun answer _ => Does.pure _
  · cases decide (type = typeSoa ∧ an ≤ i ∧ i < an + ns) with
    | true => exact soaTtl_does h w.negTtl
    | false => exact Does.pure _
  · cases decide (i < an) with
    | true => exact (answerAt_does host name type ttl (p + 10) rdlen).map some
    | false => exact Does.pure none

theorem readRecord_does (an ns i : Nat) (w : Walk) :
    Does (readRecord host buf an ns i w) (Wire.readRecord host buf an ns i w) := by
  refine (readName_does buf w.pos).bind fun n _ => ?_
  refine Does.ite (fun _ => Does.null) fun hroom => ?_
  refine (uint16At_does (by omega)).bind fun type _ => (uint32At_does (by omega)).bind fun ttl _ =>
    (uint16At_does (by omega)).bind fun rdlen _ => ?_
  exact Does.ite (fun _ => Does.null) fun hdata => addRecord_does host (not_lt.1 hdata) w n.name

theorem readRecords_does (an ns n i : Nat) (w : Walk) :
    Does (readRecords host buf an ns n i w) (Wire.readRecords host buf an ns n i w) := by
  induction n generalizing i w with
  | zero => exact Does.pure w
  | succ n ih => exact (readRecord_does host an ns i w).bind fun w _ => ih (i + 1) w

theorem readQuestion_does (qd : Nat) : Does (readQuestion buf qd) (Wire.readQuestion buf qd) := by
  refine Does.ite (fun _ => ?_) fun _ => Does.pure _
  refine (readName_does buf 12).bind fun n _ => ?_
  exact Does.ite (fun _ => Does.null) fun _ => Does.pure _

theorem parseResponse_eq (buf : Bytes) :
    parseResponse host buf = .ok (Wire.parseResponse host buf) := by
  refine Does.orNull (Does.ite (fun _ => Does.null) fun hlength => ?_)
  rw [not_lt] at hlength
  refine (uint16At_does (by omega)).bind fun flags _ => ?_
  refine Does.ite (fun _ => Does.null) fun _ => ?_
  refine (uint16At_does (by omega)).bind fun qd _ => (uint16At_does (by omega)).bind fun an _ =>
    (uint16At_does (by omega)).bind fun ns _ => (uint16At_does (by omega)).bind fun ar _ => ?_
  refine Does.ite (fun _ => Does.null) fun _ => ?_
  exact (readQuestion_does qd).bind fun q _ => (readRecords_does host an ns _ 0 _).bind fun w _ =>
    (uint16At_does (by omega)).bind fun id _ => Does.pure _

end Does

/-! ## Every loop gets further -/

section Advance

variable {buf : Bytes} {pos : Nat}

theorem skipRR_advances {p : Nat} (h : skipRR buf pos = .ok (some p)) :
    pos < p ∧ p ≤ buf.length := by
  obtain ⟨n, hn, h⟩ := bind_eq_ok.1 h
  have hnext := readName_advances hn
  simp only at h
  split at h
  · cases h
  · obtain ⟨rdlen, -, h⟩ := bind_eq_ok.1 h
    split at h
    · cases h
    · cases h
      omega

theorem addRecord_pos {host : UnicodeHost} {an ns i p type ttl rdlen : Nat} {w w' : Walk}
    {name : Text} (h : addRecord host buf an ns i w name p type ttl rdlen = .ok w') :
    w'.pos = p + 10 + rdlen := by
  obtain ⟨negTtl, -, h⟩ := bind_eq_ok.1 h
  obtain ⟨answer, -, h⟩ := bind_eq_ok.1 h
  cases h
  rfl

theorem readRecord_advances {host : UnicodeHost} {an ns i : Nat} {w w' : Walk}
    (h : readRecord host buf an ns i w = .ok w') : w.pos < w'.pos ∧ w'.pos ≤ buf.length := by
  obtain ⟨n, hn, h⟩ := bind_eq_ok.1 h
  have hnext := readName_advances hn
  simp only at h
  split at h
  · cases h
  · obtain ⟨type, -, h⟩ := bind_eq_ok.1 h
    obtain ⟨ttl, -, h⟩ := bind_eq_ok.1 h
    obtain ⟨rdlen, -, h⟩ := bind_eq_ok.1 h
    split at h
    · cases h
    · rw [addRecord_pos h]
      omega

/-- An iteration that does not end its loop gets further, and not behind the end of the message. -/
structure LoopsAdvance (host : UnicodeHost) (buf : Bytes) : Prop where
  /-- The loops of `parseQuery` over the records. -/
  skipRR : ∀ pos p, skipRR buf pos = .ok (some p) → pos < p ∧ p ≤ buf.length
  /-- The loop of `parseResponse`. -/
  readRecord : ∀ an ns i w w', readRecord host buf an ns i w = .ok w' →
    w.pos < w'.pos ∧ w'.pos ≤ buf.length
  /-- The loops of `decodeResponse` over the questions and the records. -/
  skipQuestion : ∀ pos n, readName buf pos = .ok n → pos < n.next + 4
  decodeRecord : ∀ pos found p, decodeRecord buf pos = .ok (some (found, p)) →
    pos < p ∧ p ≤ buf.length

/-- Reading a name ends within the limits, and the readers of messages return for every message. -/
theorem reading_ends (host : UnicodeHost) :
    (∀ buf off, ∃ r, loop buf maxTurns (.new off) = some r ∧ Ended buf off (.new off) r) ∧
      ∀ buf, LoopsAdvance host buf ∧ (∃ q, parseQuery buf = .ok q) ∧
        (∃ r, parseResponse host buf = .ok r) ∧ ∃ r, decodeResponse buf = .ok r := by
  refine ⟨loop_new_ended, fun buf => ⟨?_, ⟨_, parseQuery_eq buf⟩, ⟨_, parseResponse_eq host buf⟩,
    decodeResponse_returns buf⟩⟩
  refine ⟨fun pos p => skipRR_advances, fun an ns i w w' => readRecord_advances,
    fun pos n h => ?_, fun pos found p => decodeRecord_advances⟩
  have hnext := readName_advances h
  omega

end Advance

end Checked
end Dns
end GateControl
