import Mathlib.Tactic.Ring
import GateControl.Library.Framing
import GateControl.Library.OrderedMap
import GateControl.Library.Utf8

/-!
# MqttPackets — the packets of the MQTT client

The client writes packets to its connection with the broker and reads them from it.  A packet has a
type, four flags, and a body whose length is written in one to four bytes of seven bits.
-/

namespace GateControl
namespace Edge

open Library

namespace MqttClient

def maxPacket : Nat := 512 * 1024

/-- `T` -/
def typePublish : Nat := 3

def typePuback : Nat := 4

def typeSuback : Nat := 9

def typeUnsuback : Nat := 11

/-! ## Writing -/

def encodeLength (n : Nat) : Bytes :=
  if n / 128 = 0 then [UInt8.ofNat (n % 128)]
  else UInt8.ofNat (n % 128 ||| 0x80) :: encodeLength (n / 128)
termination_by n
decreasing_by omega

def str (s : Text) : Bytes := uint16BE (utf8Bytes s).length ++ utf8Bytes s

def packet (type flags : Nat) (body : Bytes) : Bytes :=
  [UInt8.ofNat (type <<< 4 ||| flags)] ++ encodeLength body.length ++ body

structure Packet where
  type : Nat
  flags : Nat
  body : Bytes
  deriving DecidableEq

def Packet.encode (p : Packet) : Bytes := packet p.type p.flags p.body

def publishBody (topic : Text) (payload : Bytes) (qos id : Nat) : Bytes :=
  str topic ++ (if qos ≠ 0 then uint16BE id else []) ++ payload

def publishPacket (topic : Text) (payload : Bytes) (qos : Nat) (retain : Bool) (id : Nat) : Bytes :=
  packet typePublish (qos <<< 1 ||| (if retain then 1 else 0)) (publishBody topic payload qos id)

/-! ## Reading -/

inductive ParserError
  | malformedLength
  | packetTooLarge
  deriving DecidableEq

inductive ScannedLength
  | incomplete
  | malformed
  /-- The length of the body, and where it begins. -/
  | done (len start : Nat)

/-- The loop over the bytes of the length, at `i` with that many more allowed. -/
def scanLength (buf : Bytes) : Nat → Nat → Nat → Nat → ScannedLength
  | 0, _, _, _ => .malformed
  | more + 1, i, len, mul =>
      match buf[i]? with
      | none => .incomplete
      | some b =>
          let len := len + (b.toNat &&& 0x7f) * mul
          if b.toNat &&& 0x80 = 0 then .done len (i + 1)
          else scanLength buf more (i + 1) len (mul * 128)

/-- One round of the loop of `push`. -/
def nextPacket (buf : Bytes) : Front UInt8 Packet ParserError :=
  match buf with
  | [] => .wait
  | [_] => .wait
  | head :: _ :: _ =>
      match scanLength buf 4 1 0 1 with
      | .incomplete => .wait
      | .malformed => .error .malformedLength
      | .done len start =>
          if maxPacket < len then .error .packetTooLarge
          else if buf.length < start + len then .wait
          else
            .item ⟨head.toNat >>> 4, head.toNat &&& 0x0f, slice buf start (start + len)⟩
              (buf.drop (start + len))

/-- The parser: what has come and is not a packet yet. -/
structure Parser where
  buf : Bytes
  deriving DecidableEq

def Parser.new : Parser := ⟨[]⟩

def Parser.push (parser : Parser) (chunk : Bytes) : Except ParserError (List Packet × Parser) :=
  (Framing.push nextPacket parser.buf chunk).map fun r => (r.1, ⟨r.2⟩)

/-- Chunks one after the other, with all the packets. -/
def Parser.pushAll (parser : Parser) : List Bytes → Except ParserError (List Packet × Parser)
  | [] => .ok ([], parser)
  | chunk :: chunks => do
      let first ← parser.push chunk
      let more ← first.2.pushAll chunks
      return (first.1 ++ more.1, more.2)

/-! ## Packets of the broker -/

/-- What the client does: write to its connection, emit a message, or settle a request. -/
inductive Effect
  | write (data : Bytes)
  | message (topic : Text) (payload : Bytes) (qos : Nat) (retain : Bool)
  | settled (id : Nat) (granted : Option Bytes)
  deriving DecidableEq

/-- `onPacket` with the requests that wait for an answer; a body that is too short throws. -/
def onPacket {ρ : Type} (pending : OrderedMap Nat ρ) (p : Packet) :
    Option (OrderedMap Nat ρ × List Effect) :=
  if p.type = typePublish then do
    let qos := p.flags >>> 1 &&& 3
    let tl ← readUInt16BE p.body 0
    let topic := utf8 (slice p.body 2 (2 + tl))
    let off := 2 + tl
    let retain := p.flags &&& 1 = 1
    if 0 < qos then
      let id ← readUInt16BE p.body off
      let ack := if qos = 1 then [.write (packet typePuback 0 (uint16BE id))] else []
      return (pending, ack ++ [.message topic (p.body.drop (off + 2)) qos retain])
    else
      return (pending, [.message topic (p.body.drop off) qos retain])
  else if p.type = typePuback ∨ p.type = typeSuback ∨ p.type = typeUnsuback then do
    let id ← readUInt16BE p.body 0
    if pending.has id then
      return (pending.delete id,
        [.settled id (if p.type = typeSuback then some (p.body.drop 2) else none)])
    else
      return (pending, [])
  else some (pending, [])

/-! ## The length -/

theorem low_bits {v : Nat} (h : v < 128) : v &&& 0x7f = v ∧ v &&& 0x80 = 0 := by
  have hall : ∀ v < 128, v &&& 0x7f = v ∧ v &&& 0x80 = 0 := by decide
  exact hall v h

theorem more_bits {v : Nat} (h : v < 128) :
    v ||| 0x80 < 256 ∧ (v ||| 0x80) &&& 0x7f = v ∧ (v ||| 0x80) &&& 0x80 ≠ 0 := by
  have hall : ∀ v < 128, v ||| 0x80 < 256 ∧ (v ||| 0x80) &&& 0x7f = v ∧
      (v ||| 0x80) &&& 0x80 ≠ 0 := by decide
  exact hall v h

/-- One byte of the length is read. -/
theorem scanLength_byte {buf : Bytes} {i v : Nat} (h : buf[i]? = some (UInt8.ofNat v)) (hv : v < 256)
    (more len mul : Nat) :
    scanLength buf (more + 1) i len mul =
      if v &&& 0x80 = 0 then .done (len + (v &&& 0x7f) * mul) (i + 1)
      else scanLength buf more (i + 1) (len + (v &&& 0x7f) * mul) (mul * 128) := by
  simp only [scanLength, h, UInt8.toNat_ofNat_of_lt' hv]

/-- The encoded length is read back, and the place behind it found. -/
theorem scanLength_encodeLength {buf : Bytes} {i n more : Nat} (hmore : n < 128 ^ more)
    (hone : 0 < more) (hat : BytesAt buf i (encodeLength n)) (len mul : Nat) :
    scanLength buf more i len mul = .done (len + n * mul) (i + (encodeLength n).length) := by
  induction more generalizing i n len mul with
  | zero =>
      cases hone
  | succ more ih =>
      have hrem : n % 128 < 128 := Nat.mod_lt n (by decide)
      by_cases hlast : n / 128 = 0
      · -- the last byte, without the bit that says there are more
        rw [encodeLength, if_pos hlast] at hat ⊢
        obtain ⟨hlow, hend⟩ := low_bits hrem
        rw [scanLength_byte hat.head (by omega), if_pos hend, hlow]
        have hn : n % 128 = n := Nat.mod_eq_of_lt (by omega)
        rw [hn]
        rfl
      · rw [encodeLength, if_neg hlast] at hat ⊢
        obtain ⟨hbyte, hlow, hend⟩ := more_bits hrem
        -- seven bits are read, and the rest is a shorter length
        have hrest : n / 128 < 128 ^ more := by
          rw [pow_succ] at hmore
          exact Nat.div_lt_of_lt_mul (by omega)
        have hone' : 0 < more := by
          cases more with
          | zero =>
              rw [pow_zero] at hrest
              omega
          | succ more =>
              exact Nat.succ_pos more
        rw [scanLength_byte hat.head hbyte, if_neg hend, hlow, ih hrest hone' hat.tail]
        have hsum : len + n % 128 * mul + n / 128 * (mul * 128) = len + n * mul := by
          conv_rhs => rw [← Nat.mod_add_div n 128]
          ring
        have hplace : i + 1 + (encodeLength (n / 128)).length =
            i + (UInt8.ofNat (n % 128 ||| 128) :: encodeLength (n / 128)).length := by
          rw [List.length_cons]
          omega
        rw [hsum, hplace]

/-- If only the beginning of the length has come, the rest is waited for. -/
theorem scanLength_part (pre : Bytes) {part : Bytes} {n more : Nat} (hmore : n < 128 ^ more)
    (hone : 0 < more) (hpre : part <+: encodeLength n) (hne : part ≠ encodeLength n) (len mul : Nat) :
    scanLength (pre ++ part) more pre.length len mul = .incomplete := by
  induction more generalizing pre part n len mul with
  | zero =>
      cases hone
  | succ more ih =>
      cases part with
      | nil =>
          simp [scanLength]
      | cons b part =>
          have hrem : n % 128 < 128 := Nat.mod_lt n (by decide)
          have hget : (pre ++ b :: part)[pre.length]? = some b := by simp
          by_cases hlast : n / 128 = 0
          · -- a length of one byte has no beginning
            rw [encodeLength, if_pos hlast] at hpre hne
            obtain ⟨rfl, hnil⟩ := List.cons_prefix_cons.1 hpre
            rw [List.prefix_nil.1 hnil] at hne
            exact absurd rfl hne
          · rw [encodeLength, if_neg hlast] at hpre hne
            obtain ⟨rfl, hrest⟩ := List.cons_prefix_cons.1 hpre
            obtain ⟨hbyte, hlow, hend⟩ := more_bits hrem
            have hdiv : n / 128 < 128 ^ more := by
              rw [pow_succ] at hmore
              exact Nat.div_lt_of_lt_mul (by omega)
            have hone' : 0 < more := by
              cases more with
              | zero =>
                  rw [pow_zero] at hdiv
                  omega
              | succ more =>
                  exact Nat.succ_pos more
            have hne' : part ≠ encodeLength (n / 128) := fun heq => hne (by rw [heq])
            rw [scanLength_byte hget hbyte, if_neg hend]
            have hnext := ih (pre ++ [UInt8.ofNat (n % 128 ||| 128)]) hdiv hone' hrest hne'
              (len + ((n % 128 ||| 128) &&& 127) * mul) (mul * 128)
            rw [List.length_append, List.length_singleton, List.append_assoc,
              List.singleton_append] at hnext
            exact hnext

/-! ## Packets -/

/-- The packets the protocol has, as large as the client reads them. -/
structure Packet.Valid (p : Packet) : Prop where
  type : 1 ≤ p.type ∧ p.type ≤ 14
  flags : p.flags ≤ 15
  size : p.body.length ≤ maxPacket

theorem encodeLength_ne_nil (n : Nat) : encodeLength n ≠ [] := by
  unfold encodeLength
  split
  · exact List.cons_ne_nil _ _
  · exact List.cons_ne_nil _ _

theorem Packet.encode_eq (p : Packet) :
    p.encode = UInt8.ofNat (p.type <<< 4 ||| p.flags) :: (encodeLength p.body.length ++ p.body) := by
  simp [Packet.encode, packet]

/-- Type and flags come apart again. -/
theorem head_parts {type flags : Nat} (ht : type ≤ 14) (hf : flags ≤ 15) :
    (UInt8.ofNat (type <<< 4 ||| flags)).toNat >>> 4 = type ∧
      (UInt8.ofNat (type <<< 4 ||| flags)).toNat &&& 0x0f = flags := by
  have hall : ∀ type ≤ 14, ∀ flags ≤ 15, (UInt8.ofNat (type <<< 4 ||| flags)).toNat >>> 4 = type ∧
      (UInt8.ofNat (type <<< 4 ||| flags)).toNat &&& 0x0f = flags := by
    decide
  exact hall type ht flags hf

theorem size_lt {n : Nat} (h : n ≤ maxPacket) : n < 128 ^ 4 := by
  have hmax : maxPacket = 524288 := rfl
  omega

theorem Packet.Valid.read {p : Packet} (hp : p.Valid) (more : Bytes) :
    nextPacket (p.encode ++ more) = .item p more := by
  have hlength := encodeLength_ne_nil p.body.length
  have hsize := size_lt hp.size
  obtain ⟨htype, hflags⟩ := head_parts hp.type.2 hp.flags
  have hat : BytesAt (p.encode ++ more) 1 (encodeLength p.body.length ++ p.body) := by
    rw [p.encode_eq]
    exact ⟨[UInt8.ofNat (p.type <<< 4 ||| p.flags)], more, rfl, rfl⟩
  have hscan := scanLength_encodeLength hsize (by decide) hat.left 0 1
  have hbody := hat.right.slice_eq
  have hend := hat.right.length_le
  have hrest : (p.encode ++ more).drop (1 + (encodeLength p.body.length).length + p.body.length) =
      more := by
    rw [List.drop_left' (by rw [p.encode_eq, List.length_cons, List.length_append]; omega)]
  rw [Nat.zero_add, Nat.mul_one] at hscan
  -- a packet has at least the byte of its type and one of its length
  cases hcut : p.encode ++ more with
  | nil =>
      rw [p.encode_eq] at hcut
      cases hcut
  | cons head rest =>
      have hhead : head = UInt8.ofNat (p.type <<< 4 ||| p.flags) := by
        rw [p.encode_eq] at hcut
        exact (List.cons.inj hcut).1.symm
      cases rest with
      | nil =>
          rw [hcut] at hend
          have hpos := List.length_pos_of_ne_nil hlength
          simp only [List.length_singleton] at hend
          omega
      | cons second rest =>
          rw [hcut] at hscan hbody hend hrest
          simp only [nextPacket, hscan]
          rw [if_neg (Nat.not_lt.2 hp.size), if_neg (Nat.not_lt.2 hend), hbody, hrest, hhead, htype,
            hflags]

/-- Of a packet that has come in part, the length is not complete, or what follows it is not. -/
theorem scanLength_of_part {body part : Bytes} (hsize : body.length < 128 ^ 4)
    (hpre : part <+: encodeLength body.length ++ body)
    (hne : part ≠ encodeLength body.length ++ body) (head : UInt8) :
    scanLength (head :: part) 4 1 0 1 = .incomplete ∨
      (scanLength (head :: part) 4 1 0 1 =
          .done body.length (1 + (encodeLength body.length).length) ∧
        (head :: part).length < 1 + (encodeLength body.length).length + body.length) := by
  obtain ⟨tail, htail⟩ := hpre
  rcases List.append_eq_append_iff.1 htail with ⟨t, hshort, _⟩ | ⟨t, rfl, hbody⟩
  · by_cases hwhole : part = encodeLength body.length
    · -- the length is there, and the body is not empty
      right
      have hat : BytesAt (head :: part) 1 (encodeLength body.length) :=
        ⟨[head], [], by simp [hwhole], rfl⟩
      have hscan := scanLength_encodeLength hsize (by decide) hat 0 1
      rw [Nat.zero_add, Nat.mul_one] at hscan
      refine ⟨hscan, ?_⟩
      have hpos : body ≠ [] := by
        intro hnil
        rw [hnil, List.append_nil] at hne
        rw [hnil] at hwhole
        exact hne hwhole
      have := List.length_pos_of_ne_nil hpos
      rw [List.length_cons, hwhole]
      omega
    · left
      exact scanLength_part [head] hsize (by decide) ⟨t, hshort.symm⟩ hwhole 0 1
  · -- a part of the body is there too
    right
    have hat : BytesAt (head :: (encodeLength body.length ++ t)) 1 (encodeLength body.length) :=
      ⟨[head], t, rfl, rfl⟩
    have hscan := scanLength_encodeLength hsize (by decide) hat 0 1
    rw [Nat.zero_add, Nat.mul_one] at hscan
    refine ⟨hscan, ?_⟩
    have hless : t.length < body.length := by
      have hpre : t <+: body := ⟨tail, hbody.symm⟩
      refine Nat.lt_of_le_of_ne hpre.length_le fun heq => hne ?_
      rw [hpre.eq_of_length heq]
    rw [List.length_cons, List.length_append]
    omega

/-- The beginning of a packet is not taken for one. -/
theorem Packet.Valid.wait {p : Packet} (hp : p.Valid) {buf : Bytes} (hpre : buf <+: p.encode)
    (hne : buf ≠ p.encode) : nextPacket buf = .wait := by
  have hsize := size_lt hp.size
  rw [p.encode_eq] at hpre hne
  cases buf with
  | nil =>
      rfl
  | cons head rest =>
      obtain ⟨rfl, hrest⟩ := List.cons_prefix_cons.1 hpre
      have hne' : rest ≠ encodeLength p.body.length ++ p.body := fun heq => hne (by rw [heq])
      cases rest with
      | nil =>
          rfl
      | cons second rest =>
          have hscanned := scanLength_of_part hsize hrest hne'
          simp only [nextPacket]
          rcases hscanned _ with hmore | ⟨hdone, hless⟩
          · rw [hmore]
          · rw [hdone]
            simp only
            rw [if_neg (Nat.not_lt.2 hp.size), if_pos hless]

theorem reads_packets : Framing.Reads nextPacket Packet.encode Packet.Valid where
  whole := fun _ hp more => hp.read more
  part := fun _ hp _ hpre hne => hp.wait hpre hne
  nothing := rfl

theorem scanLength_start {buf : Bytes} {more i len mul n start : Nat}
    (h : scanLength buf more i len mul = .done n start) : i < start := by
  induction more generalizing i len mul with
  | zero =>
      cases h
  | succ more ih =>
      simp only [scanLength] at h
      cases hget : buf[i]? with
      | none =>
          rw [hget] at h
          cases h
      | some b =>
          rw [hget] at h
          simp only at h
          split at h
          · cases h
            exact Nat.lt_succ_self i
          · have := ih h
            omega

theorem nextPacket_shortens : Framing.Shortens nextPacket := by
  intro buf p rest h
  unfold nextPacket at h
  split at h
  · cases h
  · cases h
  · rename_i head second tail
    split at h
    · cases h
    · cases h
    · rename_i len start hscan
      have hstart := scanLength_start hscan
      split at h
      · cases h
      · split at h
        · cases h
        · rename_i hlong
          cases h
          rw [List.length_drop]
          omega

/-- After each chunk the parser waits for more. -/
theorem Parser.push_waits {parser parser' : Parser} {chunk : Bytes} {ps : List Packet}
    (h : parser.push chunk = .ok (ps, parser')) : nextPacket parser'.buf = .wait := by
  unfold Parser.push at h
  cases hdrain : Framing.push nextPacket parser.buf chunk with
  | error e =>
      rw [hdrain] at h
      cases h
  | ok r =>
      rw [hdrain] at h
      cases h
      exact Framing.drain_waits nextPacket_shortens rfl (Nat.le_refl _) hdrain

theorem Parser.pushAll_eq (parser : Parser) (chunks : List Bytes) :
    parser.pushAll chunks =
      (Framing.feed nextPacket parser.buf chunks).map fun r => (r.1, ⟨r.2⟩) := by
  induction chunks generalizing parser with
  | nil =>
      rfl
  | cons chunk chunks ih =>
      rw [Parser.pushAll, Framing.feed, Parser.push]
      cases Framing.push nextPacket parser.buf chunk with
      | error e =>
          rfl
      | ok r =>
          show (Parser.pushAll ⟨r.2⟩ chunks >>= _) =
            ((Framing.feed nextPacket r.2 chunks >>= _) : Except ParserError _).map _
          rw [ih]
          cases Framing.feed nextPacket r.2 chunks with
          | error e =>
              rfl
          | ok more =>
              rfl

/-! ## Published messages -/

theorem publishPacket_eq (topic : Text) (payload : Bytes) (qos : Nat) (retain : Bool) (id : Nat) :
    publishPacket topic payload qos retain id =
      Packet.encode ⟨typePublish, qos <<< 1 ||| (if retain then 1 else 0),
        publishBody topic payload qos id⟩ := rfl

theorem publish_flags {qos : Nat} (hqos : qos ≤ 1) (retain : Bool) :
    (qos <<< 1 ||| (if retain then 1 else 0)) ≤ 15 ∧
      (qos <<< 1 ||| (if retain then 1 else 0)) >>> 1 &&& 3 = qos ∧
      decide ((qos <<< 1 ||| (if retain then 1 else 0)) &&& 1 = 1) = retain := by
  have hall : ∀ qos ≤ 1, ∀ retain : Bool, (qos <<< 1 ||| (if retain then 1 else 0)) ≤ 15 ∧
      (qos <<< 1 ||| (if retain then 1 else 0)) >>> 1 &&& 3 = qos ∧
      decide ((qos <<< 1 ||| (if retain then 1 else 0)) &&& 1 = 1) = retain := by
    decide
  exact hall qos hqos retain

/-- A published message comes out as it went in, and is acknowledged if it asks for that. -/
theorem onPacket_publish {ρ : Type} (pending : OrderedMap Nat ρ) {topic : Text}
    (htopic : (utf8Bytes topic).length ≤ 65535) (payload : Bytes) {qos : Nat} (hqos : qos ≤ 1)
    (retain : Bool) {id : Nat} (hid : id ≤ 65535) :
    onPacket pending ⟨typePublish, qos <<< 1 ||| (if retain then 1 else 0),
        publishBody topic payload qos id⟩ =
      some (pending, (if qos = 1 then [.write (packet typePuback 0 (uint16BE id))] else []) ++
        [.message topic payload qos retain]) := by
  obtain ⟨_, hlevel, hretain⟩ := publish_flags hqos retain
  have hwhole := BytesAt.whole (publishBody topic payload qos id)
  conv at hwhole =>
    rhs
    rw [publishBody, str, List.append_assoc, List.append_assoc]
  have hlength : readUInt16BE (publishBody topic payload qos id) 0 = some (utf8Bytes topic).length :=
    hwhole.left.readUInt16BE rfl (by omega)
  have hname : slice (publishBody topic payload qos id) 2 (2 + (utf8Bytes topic).length) =
      utf8Bytes topic := hwhole.right.left.slice_eq
  have hrest := hwhole.right.right
  rw [length_uint16BE, Nat.zero_add] at hrest
  unfold onPacket
  simp only [if_true, hlevel, hlength, hname, hretain, utf8_utf8Bytes, Option.bind_eq_bind,
    Option.bind_some]
  rcases Nat.le_one_iff_eq_zero_or_eq_one.1 hqos with rfl | rfl
  · -- without a number the payload follows the topic
    have hdrop : (publishBody topic payload 0 id).drop (2 + (utf8Bytes topic).length) = payload := by
      refine List.drop_left' ?_
      simp only [str, ne_eq, not_true_eq_false, if_false, List.append_nil, List.length_append,
        length_uint16BE]
    rw [hdrop]
    rfl
  · -- with one it stands in between, and is acknowledged
    have hack : readUInt16BE (publishBody topic payload 1 id) (2 + (utf8Bytes topic).length) =
        some id := hrest.left.readUInt16BE rfl (by omega)
    have hdrop : (publishBody topic payload 1 id).drop (2 + (utf8Bytes topic).length + 2) =
        payload := by
      refine List.drop_left' ?_
      simp only [str, ne_eq, one_ne_zero, not_false_eq_true, if_true, List.length_append,
        length_uint16BE]
    rw [hack, hdrop]
    rfl

/-- However the encodings of some packets are cut into chunks, the parser gives these packets; and a
published message, once decoded, is emitted as it was and acknowledged under its number. -/
theorem packets_round_trip {ρ : Type} :
    (∀ (ps : List Packet) (chunks : List Bytes), (∀ p ∈ ps, p.Valid) →
      chunks.flatten = ps.flatMap Packet.encode →
      Parser.new.pushAll chunks = .ok (ps, Parser.new)) ∧
    ∀ (topic : Text) (payload : Bytes) (qos : Nat) (retain : Bool) (id : Nat),
      (utf8Bytes topic).length ≤ 65535 → qos ≤ 1 → 1 ≤ id → id ≤ 65535 →
      ∃ p : Packet, publishPacket topic payload qos retain id = p.encode ∧
        (p.body.length ≤ maxPacket → ∀ chunks : List Bytes,
          chunks.flatten = publishPacket topic payload qos retain id →
          Parser.new.pushAll chunks = .ok ([p], Parser.new)) ∧
        ∀ pending : OrderedMap Nat ρ, onPacket pending p =
          some (pending, (if qos = 1 then [.write (packet typePuback 0 (uint16BE id))] else []) ++
            [.message topic payload qos retain]) := by
  have hstream : ∀ (ps : List Packet) (chunks : List Bytes), (∀ p ∈ ps, p.Valid) →
      chunks.flatten = ps.flatMap Packet.encode →
      Parser.new.pushAll chunks = .ok (ps, Parser.new) := by
    intro ps chunks hps hall
    rw [Parser.pushAll_eq]
    have hfeed : Framing.feed nextPacket [] chunks = .ok (ps, []) :=
      Framing.feed_items reads_packets hps rfl hall
    exact congrArg (Except.map _) hfeed
  refine ⟨hstream, ?_⟩
  intro topic payload qos retain id htopic hqos _ hid
  refine ⟨_, publishPacket_eq topic payload qos retain id, ?_, ?_⟩
  · intro hsize chunks hchunks
    refine hstream _ chunks ?_ ?_
    · intro p hp
      rw [List.mem_singleton.1 hp]
      exact ⟨⟨by show 1 ≤ 3; omega, by show 3 ≤ 14; omega⟩, (publish_flags hqos retain).1, hsize⟩
    · rw [hchunks, publishPacket_eq, List.flatMap_singleton]
  · intro pending
    exact onPacket_publish pending htopic payload hqos retain hid

theorem packets_round_trip_cut :
    Parser.new.pushAll [[0xd0], [0x00, 0x30, 0x03], [0x00, 0x01, 0x74]] =
        .ok ([⟨13, 0, []⟩, ⟨3, 0, [0x00, 0x01, 0x74]⟩], Parser.new) ∧
      ∃ p : Packet, publishPacket "t".toList [0x6f, 0x6e] 1 true 7 = p.encode ∧
        onPacket (OrderedMap.empty : OrderedMap Nat Unit) p =
          some (OrderedMap.empty, [.write (packet typePuback 0 [0x00, 0x07]),
            .message "t".toList [0x6f, 0x6e] 1 true]) := by
  have hshort : ∀ n, n < 128 → encodeLength n = [UInt8.ofNat n] := by
    intro n hn
    rw [encodeLength, if_pos (Nat.div_eq_of_lt hn), Nat.mod_eq_of_lt hn]
  have hround := packets_round_trip (ρ := Unit)
  refine ⟨hround.1 _ _ ?_ ?_, ?_⟩
  · intro p hp
    rcases List.mem_cons.1 hp with rfl | hp
    · exact ⟨by decide, by decide, by decide⟩
    · rw [List.mem_singleton.1 hp]
      exact ⟨by decide, by decide, by decide⟩
  · simp only [List.flatMap_cons, List.flatMap_nil, Packet.encode, packet, List.length_nil,
      List.length_cons, hshort 0 (by decide), hshort (0 + 1 + 1 + 1) (by decide)]
    rfl
  · obtain ⟨p, hp, _, hpacket⟩ :=
      hround.2 "t".toList [0x6f, 0x6e] 1 true 7 (by decide) (by decide) (by decide) (by decide)
    exact ⟨p, hp, hpacket OrderedMap.empty⟩

end MqttClient

end Edge
end GateControl
