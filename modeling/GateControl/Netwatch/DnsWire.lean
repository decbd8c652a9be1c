import GateControl.Library.Reading
import GateControl.Dns.ServedTtl

/-!
# DnsWire — names in messages of any device

`readName` follows compression pointers, which may lead anywhere, also back to themselves.  Its loop
is bounded by the number of pointers and of labels: `readName_ends` says that it ends, where, and
that it reads nothing outside the message.  The readers of the DNS filter use it as well.

`decodeResponse` takes apart what a device of the LAN has answered.
-/

namespace GateControl
namespace Netwatch
namespace DnsWire

open Library Reading Dns Dns.Wire

/-! ## The loop of `readName` -/

/-- The variables of the loop; `next` is set by the first pointer. -/
structure NameLoop where
  labels : List Text
  pos : Nat
  next : Option Nat
  jumps : Nat

def NameLoop.new (off : Nat) : NameLoop := ⟨[], off, none, 0⟩

/-- What an iteration leads to. -/
inductive Turn
  | done (n : NameAt)
  | more (s : NameLoop)

/-- A pointer with the first byte `len`: the name goes on elsewhere, the message behind the first
one. -/
def followPointer (buf : Bytes) (s : NameLoop) (len : Nat) : Reading Turn :=
  if s.pos + 1 ≥ buf.length then throw "pointer out of range"
  else if s.jumps + 1 > maxJumps then throw "too many pointers"
  else do
    let low ← byteAt buf (s.pos + 1)
    let pos := (len &&& 0x3f) <<< 8 ||| low.toNat
    pure (.more ⟨s.labels, pos, some (s.next.getD (s.pos + 2)), s.jumps + 1⟩)

/-- A label of `len` bytes. -/
def takeLabel (buf : Bytes) (s : NameLoop) (len : Nat) : Reading Turn :=
  if s.pos + 1 + len > buf.length then throw "label out of range"
  else
    let labels := s.labels ++ [utf8 (slice buf (s.pos + 1) (s.pos + 1 + len))]
    if labels.length > maxLabels then throw "name too long"
    else pure (.more ⟨labels, s.pos + 1 + len, s.next, s.jumps⟩)

def turn (buf : Bytes) (s : NameLoop) : Reading Turn :=
  if s.pos ≥ buf.length then throw "name out of range"
  else do
    let b ← byteAt buf s.pos
    let len := b.toNat
    if len = 0 then pure (.done ⟨joinDots s.labels, s.next.getD (s.pos + 1)⟩)
    else if len &&& 0xc0 = 0xc0 then followPointer buf s len
    else if len &&& 0xc0 ≠ 0 then throw "bad label"
    else takeLabel buf s len

/-- At most `fuel` iterations; nothing when the loop has not ended by then. -/
def loop (buf : Bytes) : Nat → NameLoop → Option (Reading (NameLoop × NameAt))
  | 0, _ => none
  | fuel + 1, s =>
      match turn buf s with
      | .error e => some (.error e)
      | .ok (.done n) => some (.ok (s, n))
      | .ok (.more s) => loop buf fuel s

/-! ## The end of the loop -/

/-- The plain reader, from the same point on. -/
def NameLoop.plain (buf : Bytes) (s : NameLoop) : Option NameAt :=
  Wire.readNameFrom buf s.labels s.pos s.next s.jumps

/-- What the iterations can still do. -/
def NameLoop.rest (s : NameLoop) : Nat := (maxJumps - s.jumps) + (maxLabels - s.labels.length)

/-- The limits, and where the name ends in the message. -/
structure NameLoop.Bounded (buf : Bytes) (off : Nat) (s : NameLoop) : Prop where
  jumps : s.jumps ≤ maxJumps
  labels : s.labels.length ≤ maxLabels
  /-- Before the first pointer the loop only goes forward. -/
  forward : s.next = none → off ≤ s.pos
  next : ∀ n, s.next = some n → off < n ∧ n ≤ buf.length

theorem NameLoop.new_bounded (buf : Bytes) (off : Nat) : (NameLoop.new off).Bounded buf off :=
  ⟨Nat.zero_le _, Nat.zero_le _, fun _ => Nat.le_refl _, by simp [NameLoop.new]⟩

/-- What an iteration does: it stays inside the message, and goes on as the plain reader does. -/
def Turned (buf : Bytes) (s : NameLoop) : Reading Turn → Prop
  | .ok (.done n) => s.plain buf = some n ∧ s.pos < buf.length ∧ n.next = s.next.getD (s.pos + 1)
  | .ok (.more s') => s.plain buf = s'.plain buf ∧ s'.rest < s.rest ∧
      ∀ off, s.Bounded buf off → s'.Bounded buf off
  | .error (.thrown _) => s.plain buf = none
  | .error _ => False

/-! ### The first byte of a label -/

theorem and_c0_iff {n : Nat} (h : n < 256) : n &&& 0xc0 = 0xc0 ↔ n ≥ 0xc0 := by
  have hall : ∀ n : Fin 256, n.val &&& 0xc0 = 0xc0 ↔ n.val ≥ 0xc0 := by decide +kernel
  exact hall ⟨n, h⟩

theorem and_c0_ne_iff {n : Nat} (h : n < 0xc0) : n &&& 0xc0 ≠ 0 ↔ n ≥ 0x40 := by
  have hall : ∀ n : Fin 0xc0, n.val &&& 0xc0 ≠ 0 ↔ n.val ≥ 0x40 := by decide +kernel
  exact hall ⟨n, h⟩

/-- Where a pointer leads. -/
theorem pointer_eq {n low : Nat} (h : n < 256) (hn : n ≥ 0xc0) (hlow : low < 256) :
    (n &&& 0x3f) <<< 8 ||| low = (n - 0xc0) * 256 + low := by
  have hall : ∀ n : Fin 256, n.val ≥ 0xc0 → n.val &&& 0x3f = n.val - 0xc0 := by decide +kernel
  rw [hall ⟨n, h⟩ hn, ← Nat.shiftLeft_add_eq_or_of_lt hlow, Nat.shiftLeft_eq]

theorem followPointer_turned {buf : Bytes} {s : NameLoop} {b : UInt8} (hb : buf[s.pos]? = some b)
    (hptr : b.toNat ≥ 0xc0) : Turned buf s (followPointer buf s b.toNat) := by
  have hplain : s.plain buf = Wire.readNameFrom buf s.labels s.pos s.next s.jumps := rfl
  have hzero : ¬ b.toNat = 0 := by omega
  rw [Wire.readNameFrom, hb] at hplain
  simp only [if_neg hzero, if_pos hptr] at hplain
  unfold followPointer
  split
  · rename_i hend
    rw [List.getElem?_eq_none hend] at hplain
    exact hplain
  · rename_i hpos
    rw [not_le] at hpos
    have hlow := List.getElem?_eq_getElem hpos
    generalize buf[s.pos + 1] = low at hlow
    simp only [hlow] at hplain
    split
    · rename_i hjumps
      rw [dif_pos hjumps] at hplain
      exact hplain
    · rename_i hjumps
      rw [dif_neg hjumps, ← pointer_eq b.toNat_lt hptr low.toNat_lt] at hplain
      have hbyte : byteAt buf (s.pos + 1) = .ok low := by rw [byteAt, hlow, ofRead]
      rw [hbyte]
      refine ⟨hplain, ?_, fun off hs => ⟨Nat.le_of_not_lt hjumps, hs.labels, by simp, ?_⟩⟩
      · simp only [NameLoop.rest]
        omega
      · intro n hn
        obtain rfl := Option.some.inj hn
        cases hnext : s.next with
        | none =>
            have hforward := hs.forward hnext
            rw [Option.getD_none]
            omega
        | some n =>
            exact hs.next n hnext

theorem takeLabel_turned {buf : Bytes} {s : NameLoop} {b : UInt8} (hb : buf[s.pos]? = some b)
    (hzero : ¬ b.toNat = 0) (hsmall : ¬ b.toNat ≥ 0x40) :
    Turned buf s (takeLabel buf s b.toNat) := by
  have hplain : s.plain buf = Wire.readNameFrom buf s.labels s.pos s.next s.jumps := rfl
  have hptr : ¬ b.toNat ≥ 0xc0 := by omega
  rw [Wire.readNameFrom, hb] at hplain
  simp only [if_neg hzero, if_neg hptr, if_neg hsmall] at hplain
  unfold takeLabel
  split
  · rename_i hend
    rw [if_pos hend] at hplain
    exact hplain
  · rename_i hend
    rw [if_neg hend] at hplain
    simp only
    split
    · rename_i hlong
      rw [List.length_append, List.length_singleton] at hlong
      rw [dif_pos hlong] at hplain
      exact hplain
    · rename_i hshort
      have hlabels := hshort
      rw [List.length_append, List.length_singleton] at hlabels
      rw [dif_neg hlabels] at hplain
      refine ⟨hplain, ?_, fun off hs => ⟨hs.jumps, Nat.le_of_not_lt hshort, fun hnext => ?_,
        hs.next⟩⟩
      · simp only [NameLoop.rest, List.length_append, List.length_singleton]
        omega
      · have hforward := hs.forward hnext
        simp only
        omega

theorem turn_turned (buf : Bytes) (s : NameLoop) : Turned buf s (turn buf s) := by
  have hplain : s.plain buf = Wire.readNameFrom buf s.labels s.pos s.next s.jumps := rfl
  rw [Wire.readNameFrom] at hplain
  unfold turn
  split
  · -- behind the end of the message
    rename_i hend
    rw [List.getElem?_eq_none hend] at hplain
    exact hplain
  · rename_i hpos
    rw [not_le] at hpos
    have hb := List.getElem?_eq_getElem hpos
    generalize buf[s.pos] = b at hb
    have hlt : b.toNat < 256 := b.toNat_lt
    have hbyte : byteAt buf s.pos = .ok b := by rw [byteAt, hb, ofRead]
    rw [hbyte]
    simp only [hb] at hplain
    simp only [bind, Except.bind]
    by_cases hzero : b.toNat = 0
    · rw [if_pos hzero]
      rw [if_pos hzero] at hplain
      exact ⟨hplain, hpos, rfl⟩
    · rw [if_neg hzero]
      rw [if_neg hzero] at hplain
      by_cases hptr : b.toNat ≥ 0xc0
      · rw [if_pos ((and_c0_iff hlt).2 hptr)]
        exact followPointer_turned hb hptr
      · rw [if_neg fun h => hptr ((and_c0_iff hlt).1 h)]
        rw [if_neg hptr] at hplain
        have hmask := and_c0_ne_iff (Nat.lt_of_not_le hptr)
        by_cases hbad : b.toNat ≥ 0x40
        · rw [if_pos (hmask.2 hbad)]
          rw [if_pos hbad] at hplain
          exact hplain
        · rw [if_neg fun h => hbad (hmask.1 h)]
          exact takeLabel_turned hb hzero hbad

/-! ## `readName` -/

/-- How the loop ends, when it began with `s`. -/
def Ended (buf : Bytes) (off : Nat) (s : NameLoop) : Reading (NameLoop × NameAt) → Prop
  | .ok (s', n) => s.plain buf = some n ∧ s'.jumps ≤ maxJumps ∧ s'.labels.length ≤ maxLabels ∧
      off < n.next ∧ n.next ≤ buf.length
  | .error (.thrown _) => s.plain buf = none
  | .error _ => False

/-- Every iteration but the last uses up a pointer or a label. -/
theorem loop_ended {buf : Bytes} {off fuel : Nat} {s : NameLoop} (hs : s.Bounded buf off)
    (hfuel : s.rest < fuel) : ∃ r, loop buf fuel s = some r ∧ Ended buf off s r := by
  induction fuel generalizing s with
  | zero =>
      exact absurd hfuel (Nat.not_lt_zero _)
  | succ fuel ih =>
      have hturned := turn_turned buf s
      unfold loop
      match turn buf s, hturned with
      | .error (.thrown m), hturned =>
          exact ⟨_, rfl, hturned⟩
      | .ok (.done n), hturned =>
          obtain ⟨hplain, hpos, hnext⟩ := hturned
          refine ⟨_, rfl, hplain, hs.jumps, hs.labels, ?_⟩
          rw [hnext]
          cases h : s.next with
          | none =>
              have hforward := hs.forward h
              rw [Option.getD_none]
              omega
          | some x =>
              exact hs.next x h
      | .ok (.more s'), hturned =>
          obtain ⟨hplain, hrest, hbounded⟩ := hturned
          obtain ⟨r, hr, hended⟩ := ih (hbounded off hs) (by omega)
          refine ⟨r, hr, ?_⟩
          match r, hended with
          | .ok (_, _), hended => exact ⟨hplain.trans hended.1, hended.2⟩
          | .error (.thrown _), hended => exact hplain.trans hended

/-- One iteration for each pointer and each label, and the last one. -/
def maxTurns : Nat := maxJumps + maxLabels + 1

theorem loop_new_ended (buf : Bytes) (off : Nat) :
    ∃ r, loop buf maxTurns (.new off) = some r ∧ Ended buf off (.new off) r :=
  loop_ended (NameLoop.new_bounded buf off) (Nat.lt_succ_self _)

theorem loop_isSome (buf : Bytes) (off : Nat) : (loop buf maxTurns (.new off)).isSome = true := by
  obtain ⟨r, hr, -⟩ := loop_new_ended buf off
  rw [hr]
  rfl

def readName (buf : Bytes) (off : Nat) : Reading NameAt :=
  Prod.snd <$> (loop buf maxTurns (.new off)).get (loop_isSome buf off)

theorem readName_does (buf : Bytes) (off : Nat) :
    Does (readName buf off) (Wire.readName buf off) := by
  obtain ⟨r, hr, hended⟩ := loop_new_ended buf off
  have hread : readName buf off = Prod.snd <$> r := by
    unfold readName
    simp only [hr, Option.get_some]
  rw [hread]
  match r, hended with
  | .ok (_, _), hended => exact hended.1
  | .error (.thrown _), hended => exact hended

theorem readName_next {buf : Bytes} {off : Nat} {n : NameAt}
    (h : Wire.readName buf off = some n) : off < n.next ∧ n.next ≤ buf.length := by
  obtain ⟨r, -, hended⟩ := loop_new_ended buf off
  have hplain : NameLoop.plain buf (.new off) = some n := h
  match r, hended with
  | .ok (_, _), hended =>
      obtain rfl := Option.some.inj (hended.1.symm.trans hplain)
      exact hended.2.2.2
  | .error (.thrown _), hended =>
      have hnone : NameLoop.plain buf (.new off) = none := hended
      rw [hplain] at hnone
      cases hnone

/-! ## Answers of devices -/

def typeA : Nat := 1

def typePtr : Nat := 12

def maxRecords : Nat := 64

/-- A record that is looked at, with the address or the name it holds. -/
inductive Record
  | a (name data : Text)
  | ptr (name data : Text)
  deriving DecidableEq

structure Decoded where
  id : Nat
  records : List Record
  deriving DecidableEq

/-- The loop over the `n` questions, from `pos` on. -/
def skipQuestions (buf : Bytes) : Nat → Nat → Reading Nat
  | 0, pos => pure pos
  | n + 1, pos => do
      let name ← readName buf pos
      skipQuestions buf n (name.next + 4)

/-- The record of this type at `rd`, if it is one of those that are looked at. -/
def recordData (buf : Bytes) (name : Text) (type rd rdlen : Nat) : Reading (List Record) :=
  if type = typeA ∧ rdlen = 4 then do
    let a ← byteAt buf rd
    let b ← byteAt buf (rd + 1)
    let c ← byteAt buf (rd + 2)
    let d ← byteAt buf (rd + 3)
    pure [.a name (joinDots ([a, b, c, d].map fun o => decimal o.toNat))]
  else if type = typePtr then do
    let target ← readName buf rd
    pure [.ptr name target.name]
  else pure []

/-- A record, and the position behind it; there is none when the record runs out of the message. -/
def decodeRecord (buf : Bytes) (pos : Nat) : Reading (Option (List Record × Nat)) := do
  let n ← readName buf pos
  let pos := n.next
  if pos + 10 > buf.length then pure none
  else do
    let type ← uint16At buf pos
    let rdlen ← uint16At buf (pos + 8)
    let rd := pos + 10
    if rd + rdlen > buf.length then pure none
    else do
      let found ← recordData buf n.name type rd rdlen
      pure (some (found, rd + rdlen))

/-- The loop over the records; it is left at one that runs out of the message. -/
def decodeRecords (buf : Bytes) : Nat → Nat → List Record → Reading (List Record)
  | 0, _, records => pure records
  | n + 1, pos, records => do
      match ← decodeRecord buf pos with
      | none => pure records
      | some (found, pos) => decodeRecords buf n pos (records ++ found)

def decodeResponse (buf : Bytes) : Reading (Option Decoded) :=
  orNull <|
    if buf.length < 12 then null
    else do
      let id ← uint16At buf 0
      let flags ← uint16At buf 2
      -- no reply
      if !flags.testBit 15 then null
      else do
        let qd ← uint16At buf 4
        let an ← uint16At buf 6
        let ns ← uint16At buf 8
        let ar ← uint16At buf 10
        let pos ← skipQuestions buf qd 12
        let records ← decodeRecords buf (min (an + ns + ar) maxRecords) pos []
        pure ⟨id, records⟩

/-! ### Inside the message -/

section Inside

variable {buf : Bytes}

theorem skipQuestions_inside (n pos : Nat) : (skipQuestions buf n pos).Inside := by
  induction n generalizing pos with
  | zero =>
      exact (Does.pure pos).inside
  | succ n ih =>
      exact (readName_does buf pos).inside.bind fun name _ => ih _

theorem recordData_inside {name : Text} {type rd rdlen : Nat} (h : rd + rdlen ≤ buf.length) :
    (recordData buf name type rd rdlen).Inside := by
  refine Inside.ite (fun ha => ?_) fun _ => Inside.ite (fun _ => ?_) fun _ => (Does.pure _).inside
  · obtain ⟨-, rfl⟩ := ha
    exact (byteAt_does (by omega)).inside.bind fun a _ =>
      (byteAt_does (by omega)).inside.bind fun b _ =>
        (byteAt_does (by omega)).inside.bind fun c _ =>
          (byteAt_does (by omega)).inside.bind fun d _ => (Does.pure _).inside
  · exact (readName_does buf rd).inside.bind fun _ _ => (Does.pure _).inside

theorem decodeRecord_inside (pos : Nat) : (decodeRecord buf pos).Inside := by
  refine (readName_does buf pos).inside.bind fun n _ => ?_
  refine Inside.ite (fun _ => (Does.pure _).inside) fun hroom => ?_
  rw [not_lt] at hroom
  refine (uint16At_does (by omega)).inside.bind fun type _ => ?_
  refine (uint16At_does (by omega)).inside.bind fun rdlen _ => ?_
  refine Inside.ite (fun _ => (Does.pure _).inside) fun hdata => ?_
  exact (recordData_inside (not_lt.1 hdata)).bind fun _ _ => (Does.pure _).inside

theorem decodeRecords_inside (n pos : Nat) (records : List Record) :
    (decodeRecords buf n pos records).Inside := by
  induction n generalizing pos records with
  | zero =>
      exact (Does.pure records).inside
  | succ n ih =>
      refine (decodeRecord_inside pos).bind fun r _ => ?_
      cases r with
      | none => exact (Does.pure records).inside
      | some r => exact ih _ _

/-- A value or `null`, for every message. -/
theorem decodeResponse_returns (buf : Bytes) : ∃ r, decodeResponse buf = .ok r := by
  refine Inside.orNull (Inside.ite (fun _ => Does.null.inside) fun hlength => ?_)
  have h16 : ∀ i, i ≤ 10 → (uint16At buf i).Inside := fun i hi =>
    (uint16At_does (by omega)).inside
  refine (h16 0 (by omega)).bind fun id _ => (h16 2 (by omega)).bind fun flags _ => ?_
  refine Inside.ite (fun _ => Does.null.inside) fun _ => ?_
  refine (h16 4 (by omega)).bind fun qd _ => (h16 6 (by omega)).bind fun an _ =>
    (h16 8 (by omega)).bind fun ns _ => (h16 10 (by omega)).bind fun ar _ => ?_
  exact (skipQuestions_inside qd 12).bind fun pos _ =>
    (decodeRecords_inside _ pos []).bind fun _ _ => (Does.pure _).inside

end Inside

/-! ### Getting further -/

section Advance

variable {buf : Bytes} {pos : Nat}

theorem readName_advances {n : NameAt} (h : readName buf pos = .ok n) :
    pos < n.next ∧ n.next ≤ buf.length :=
  readName_next ((readName_does buf pos).eq_some h)

theorem decodeRecord_advances {found : List Record} {p : Nat}
    (h : decodeRecord buf pos = .ok (some (found, p))) : pos < p ∧ p ≤ buf.length := by
  obtain ⟨n, hn, h⟩ := bind_eq_ok.1 h
  have hnext := readName_advances hn
  simp only at h
  split at h
  · cases h
  · obtain ⟨type, -, h⟩ := bind_eq_ok.1 h
    obtain ⟨rdlen, -, h⟩ := bind_eq_ok.1 h
    split at h
    · cases h
    · rename_i hdata
      obtain ⟨records, -, h⟩ := bind_eq_ok.1 h
      cases h
      omega

end Advance

end DnsWire
end Netwatch
end GateControl
