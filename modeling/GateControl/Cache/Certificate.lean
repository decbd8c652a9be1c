import GateControl.Edge.Addresses
import GateControl.Library.Der
import GateControl.Library.Utf8

/-!
# Certificate — the certificate of the LAN endpoint

The endpoint writes its X.509 certificate itself: the values as DER, around a key and a signature
that the platform makes.  `readCertificate` says what such bytes mean to those who read them: the
version, the number, the names, the time, the key, the extensions, and what has been signed.

Dates are those of the clock in UTC.
-/

namespace GateControl
namespace Cache
namespace Certificate

open Library Der

/-! ## What is written -/

def derLength (n : Nat) : Bytes :=
  if n < 0x80 then [UInt8.ofNat n]
  else
    let bytes := bigEndian 256 n
    UInt8.ofNat (0x80 ||| bytes.length) :: bytes.map UInt8.ofNat

def tlv (tag : UInt8) (content : Bytes) : Bytes := [tag] ++ derLength content.length ++ content

def seq (items : List Bytes) : Bytes := tlv 0x30 items.flatten

def derSet (items : List Bytes) : Bytes := tlv 0x31 items.flatten

def derInt (buf : Bytes) : Bytes := tlv 0x02 buf

def bitString (buf : Bytes) : Bytes := tlv 0x03 (0x00 :: buf)

def octetString (buf : Bytes) : Bytes := tlv 0x04 buf

def utf8 (s : Text) : Bytes := tlv 0x0c (utf8Bytes s)

/-- A date of the clock, in UTC. -/
structure UtcDate where
  year : Nat
  month : Nat
  day : Nat
  hour : Nat
  minute : Nat
  second : Nat
  valid : month ≤ 12 ∧ day ≤ 31 ∧ hour ≤ 23 ∧ minute ≤ 59 ∧ second ≤ 59
deriving DecidableEq

/-- `String(n).padStart(2, '0')` -/
def pad (n : Nat) : Text := if (decimal n).length < 2 then '0' :: decimal n else decimal n

def time (d : UtcDate) : Bytes :=
  let body := pad d.month ++ pad d.day ++ pad d.hour ++ pad d.minute ++ pad d.second ++ ['Z']
  if d.year < 2050 then tlv 0x17 (asciiBytes (pad (d.year % 100) ++ body))
  else tlv 0x18 (asciiBytes (decimal d.year ++ body))

/-- The bytes of one number of an identifier. -/
def oidPart (part : Nat) : Bytes :=
  let stack := arcDigits part
  stack.mapIdx fun i b => UInt8.ofNat (if i = stack.length - 1 then b else b ||| 0x80)

def oid (parts : List Nat) : Bytes :=
  tlv 0x06 (UInt8.ofNat (40 * parts.getD 0 0 + parts.getD 1 0) :: (parts.drop 2).flatMap oidPart)

/-- Groups of hexadecimal digits, and no IPv4 address behind them. -/
def plainGroups (s : Text) : Option (List Nat) :=
  match Edge.splitGap s with
  | none => (Edge.partGroups false s).filter fun g => g.length = 8
  | some (l, r) =>
      match Edge.partGroups false l, Edge.partGroups false r with
      | some a, some b =>
          if a.length + b.length ≤ 7 then
            some (a ++ List.replicate (8 - a.length - b.length) 0 ++ b)
          else none
      | _, _ => none

/-- An address that stands in a certificate. -/
def Address : Type := { s : Text // Edge.isIPv4 s = true ∨ (plainGroups s).isSome = true }

def groupTexts (s : Text) : List Text := if s = [] then [] else s.splitOn ':'

def ipBytes (ip : Text) : Bytes :=
  if ':' ∈ ip then
    let (head, tail) := (Edge.splitGap ip).getD (ip, [])
    let h := groupTexts head
    let t := groupTexts tail
    let groups :=
      if (Edge.splitGap ip).isSome then h ++ List.replicate (8 - h.length - t.length) ['0'] ++ t
      else h
    groups.flatMap fun g => uint16BE (Edge.hexValue g)
  else (ip.splitOn '.').map fun o => UInt8.ofNat (Edge.digitsValue o)

inductive AltName
  | dns (name : Text)
  | ip (address : Address)

def AltName.bytes : AltName → Bytes
  | .dns name => tlv 0x82 (asciiBytes name)
  | .ip address => tlv 0x87 (ipBytes address.1)

/-- What a certificate is made of. -/
structure Request where
  commonName : Text
  altNames : List AltName
  notBefore : UtcDate
  notAfter : UtcDate
  /-- The public key, as the platform writes it. -/
  spki : Value
  /-- The random bytes of the number. -/
  first : UInt8
  random : { bs : Bytes // bs.length = 15 }

def ecdsaSha256 : Bytes := seq [oid [1, 2, 840, 10045, 4, 3, 2]]

section Request

variable (r : Request)

def name : Bytes := seq [derSet [seq [oid [2, 5, 4, 3], utf8 r.commonName]]]

def exts : List Bytes :=
  [seq [oid [2, 5, 29, 19], octetString (seq [])],
    seq [oid [2, 5, 29, 15], tlv 0x01 [0xff], octetString (tlv 0x03 [0x07, 0x80])],
    seq [oid [2, 5, 29, 37], octetString (seq [oid [1, 3, 6, 1, 5, 5, 7, 3, 1]])]] ++
    if r.altNames = [] then []
    else [seq [oid [2, 5, 29, 17], octetString (seq (r.altNames.map AltName.bytes))]]

def tbs : Bytes :=
  seq [tlv 0xa0 (derInt [0x02]),
    derInt ([r.first &&& 0x7f ||| 0x01] ++ r.random.1),
    ecdsaSha256,
    name r,
    seq [time r.notBefore, time r.notAfter],
    name r,
    r.spki.encode,
    tlv 0xa3 (seq (exts r))]

/-- The certificate as DER; `sign` is the platform's signature with the private key. -/
def makeSelfSigned (sign : Bytes → Bytes) : Bytes :=
  seq [tbs r, ecdsaSha256, bitString (sign (tbs r))]

end Request

/-! ## What it means -/

def boolean : Tag := ⟨0, 1⟩
def integer : Tag := ⟨0, 2⟩
def bits : Tag := ⟨0, 3⟩
def octets : Tag := ⟨0, 4⟩
def objectId : Tag := ⟨0, 6⟩
def text : Tag := ⟨0, 12⟩
def sequence : Tag := ⟨0, 16⟩
def set : Tag := ⟨0, 17⟩
def utcTime : Tag := ⟨0, 23⟩
def generalizedTime : Tag := ⟨0, 24⟩

/-- A tag that has its meaning where it stands. -/
def context (n : Fin 31) : Tag := ⟨2, n⟩

def bytesOf (tag : Tag) : Value → Option Bytes
  | .bytes t content => if t = tag then some content else none
  | .items .. => none

def itemsOf (tag : Tag) : Value → Option (List Value)
  | .items t vs => if t = tag then some vs else none
  | .bytes .. => none

def readObjectId (v : Value) : Option (List Nat) := (bytesOf objectId v).bind readOid

/-- Two digits. -/
def readPair (a b : Char) : Option Nat :=
  if a.isDigit && b.isDigit then some (10 * (a.toNat - '0'.toNat) + (b.toNat - '0'.toNat)) else none

/-- What follows the year. -/
def readDate (year : Nat) : Text → Option UtcDate
  | [m, m', d, d', h, h', n, n', s, s', 'Z'] => do
      let month ← readPair m m'
      let day ← readPair d d'
      let hour ← readPair h h'
      let minute ← readPair n n'
      let second ← readPair s s'
      if hvalid : month ≤ 12 ∧ day ≤ 31 ∧ hour ≤ 23 ∧ minute ≤ 59 ∧ second ≤ 59 then
        some ⟨year, month, day, hour, minute, second, hvalid⟩
      else none
  | _ => none

/-- Until 2049 a year has two digits, from then on four. -/
def readTime (v : Value) : Option UtcDate :=
  match (bytesOf utcTime v).map latin1, (bytesOf generalizedTime v).map latin1 with
  | some (y :: y' :: s), _ =>
      (readPair y y').bind fun n => readDate (if n < 50 then 2000 + n else 1900 + n) s
  | _, some (y₁ :: y₂ :: y₃ :: y₄ :: s) =>
      (readPair y₁ y₂).bind fun n => (readPair y₃ y₄).bind fun n' =>
        if 2050 ≤ 100 * n + n' then readDate (100 * n + n') s else none
  | _, _ => none

/-- A name that is a single attribute. -/
def readName (v : Value) : Option (List Nat × Text) :=
  match (itemsOf sequence v).map fun vs => vs.map (itemsOf set) with
  | some [some [attr]] =>
      match itemsOf sequence attr with
      | some [id, value] => do
          let id ← readObjectId id
          let value ← bytesOf text value
          some (id, Library.utf8 value)
      | _ => none
  | _ => none

inductive GeneralName
  | dns (name : Text)
  | address (bytes : Bytes)
deriving DecidableEq

def readGeneralName (v : Value) : Option GeneralName :=
  match bytesOf (context 2) v, bytesOf (context 7) v with
  | some name, _ => some (.dns (latin1 name))
  | _, some bytes => if bytes.length = 4 ∨ bytes.length = 16 then some (.address bytes) else none
  | _, _ => none

inductive Extension
  | basicConstraints (ca : Bool)
  | keyUsage (bits : List Nat)
  | extKeyUsage (purposes : List (List Nat))
  | subjectAltName (names : List GeneralName)
deriving DecidableEq

/-- The bits that are set, without the unused ones at the end. -/
def setBits (unused : Nat) (s : Bytes) : List Nat :=
  (List.range (8 * s.length - unused)).filter fun i =>
    (s.getD (i / 8) 0).toNat.testBit (7 - i % 8)

def readExtensionValue (id : List Nat) (v : Value) : Option Extension :=
  if id = [2, 5, 29, 19] then
    match itemsOf sequence v with
    | some [] => some (.basicConstraints false)
    | some [b] => if bytesOf boolean b = some [0xff] then some (.basicConstraints true) else none
    | _ => none
  else if id = [2, 5, 29, 15] then
    match bytesOf bits v with
    | some (unused :: s) => some (.keyUsage (setBits unused.toNat s))
    | _ => none
  else if id = [2, 5, 29, 37] then
    (itemsOf sequence v).bind fun vs => (vs.mapM readObjectId).map .extKeyUsage
  else if id = [2, 5, 29, 17] then
    (itemsOf sequence v).bind fun vs => (vs.mapM readGeneralName).map .subjectAltName
  else none

/-- An extension, and whether it is critical. -/
def readExtension (v : Value) : Option (Bool × Extension) :=
  let readWith (critical : Bool) (id value : Value) := do
    let id ← readObjectId id
    let content ← bytesOf octets value
    let inner ← read content
    let ext ← readExtensionValue id inner
    some (critical, ext)
  match itemsOf sequence v with
  | some [id, value] => readWith false id value
  | some [id, critical, value] =>
      if bytesOf boolean critical = some [0xff] then readWith true id value else none
  | _ => none

structure Meaning where
  serial : Int
  issuer : List Nat × Text
  notBefore : UtcDate
  notAfter : UtcDate
  subject : List Nat × Text
  key : Value
  extensions : List (Bool × Extension)
  algorithm : List Nat
  /-- What the signature is for. -/
  signed : Bytes
  signature : Bytes

def readAlgorithm (v : Value) : Option (List Nat) :=
  match itemsOf sequence v with
  | some [id] => readObjectId id
  | _ => none

/-- A certificate of version 3, whose parts name the same algorithm. -/
def readCertificate (s : Bytes) : Option Meaning := do
  let v ← read s
  match itemsOf sequence v with
  | some [tbs, algorithm, signature] =>
      match itemsOf sequence tbs, bytesOf bits signature with
      | some [version, serial, algorithm', issuer, validity, subject, key, exts],
          some (unused :: sig) =>
          match itemsOf (context 0) version, itemsOf sequence validity,
              (itemsOf (context 3) exts).map fun vs => vs.map (itemsOf sequence) with
          | some [version], some [notBefore, notAfter], some [some exts] => do
              let number ← bytesOf integer serial
              let serial ← readInt number
              let algorithm ← readAlgorithm algorithm
              let algorithm' ← readAlgorithm algorithm'
              let issuer ← readName issuer
              let notBefore ← readTime notBefore
              let notAfter ← readTime notAfter
              let subject ← readName subject
              let extensions ← exts.mapM readExtension
              if bytesOf integer version = some [0x02] ∧ algorithm' = algorithm ∧ unused = 0 then
                some ⟨serial, issuer, notBefore, notAfter, subject, key, extensions, algorithm,
                  tbs.encode, sig⟩
              else none
          | _, _, _ => none
      | _, _ => none
  | _ => none

/-! ## The values that are written -/

def oidValue (parts : List Nat) : Value :=
  .bytes objectId
    (UInt8.ofNat (40 * parts.getD 0 0 + parts.getD 1 0) :: (parts.drop 2).flatMap oidPart)

def timeValue (d : UtcDate) : Value :=
  let body := pad d.month ++ pad d.day ++ pad d.hour ++ pad d.minute ++ pad d.second ++ ['Z']
  if d.year < 2050 then .bytes utcTime (asciiBytes (pad (d.year % 100) ++ body))
  else .bytes generalizedTime (asciiBytes (decimal d.year ++ body))

def algorithmValue : Value := .items sequence [oidValue [1, 2, 840, 10045, 4, 3, 2]]

def AltName.value : AltName → Value
  | .dns name => .bytes (context 2) (asciiBytes name)
  | .ip address => .bytes (context 7) (ipBytes address.1)

def octetsOf (v : Value) : Value := .bytes octets v.encode

section Values

variable (r : Request)

def nameValue : Value :=
  .items sequence [.items set [.items sequence [oidValue [2, 5, 4, 3],
    .bytes text (utf8Bytes r.commonName)]]]

def altNamesValue : Value := .items sequence (r.altNames.map AltName.value)

def extValues : List Value :=
  [.items sequence [oidValue [2, 5, 29, 19], octetsOf (.items sequence [])],
    .items sequence [oidValue [2, 5, 29, 15], .bytes boolean [0xff],
      octetsOf (.bytes bits [0x07, 0x80])],
    .items sequence [oidValue [2, 5, 29, 37],
      octetsOf (.items sequence [oidValue [1, 3, 6, 1, 5, 5, 7, 3, 1]])]] ++
    if r.altNames = [] then []
    else [.items sequence [oidValue [2, 5, 29, 17], octetsOf (altNamesValue r)]]

def tbsValue : Value :=
  .items sequence [.items (context 0) [.bytes integer [0x02]],
    .bytes integer ([r.first &&& 0x7f ||| 0x01] ++ r.random.1),
    algorithmValue,
    nameValue r,
    .items sequence [timeValue r.notBefore, timeValue r.notAfter],
    nameValue r,
    r.spki,
    .items (context 3) [.items sequence (extValues r)]]

def certificateValue (sign : Bytes → Bytes) : Value :=
  .items sequence [tbsValue r, algorithmValue, .bytes bits (0x00 :: sign (tbs r))]

end Values

/-- The tags as bytes. -/
theorem tag_bytes :
    boolean.byte false = 0x01 ∧ integer.byte false = 0x02 ∧ bits.byte false = 0x03 ∧
      octets.byte false = 0x04 ∧ objectId.byte false = 0x06 ∧ text.byte false = 0x0c ∧
      sequence.byte true = 0x30 ∧ set.byte true = 0x31 ∧ utcTime.byte false = 0x17 ∧
      generalizedTime.byte false = 0x18 ∧ (context 0).byte true = 0xa0 ∧
      (context 3).byte true = 0xa3 ∧ (context 2).byte false = 0x82 ∧
      (context 7).byte false = 0x87 := by
  decide

theorem encodeAll_eq (vs : List Value) : encodeAll vs = (vs.map Value.encode).flatten := by
  induction vs with
  | nil =>
      rfl
  | cons v vs ih =>
      rw [encodeAll, ih, List.map_cons, List.flatten_cons]

theorem encode_items (tag : Tag) (vs : List Value) :
    (Value.items tag vs).encode = tlv (tag.byte true) (vs.map Value.encode).flatten := by
  rw [Value.encode, encodeAll_eq]
  rfl

theorem encode_bytes (tag : Tag) (content : Bytes) :
    (Value.bytes tag content).encode = tlv (tag.byte false) content := by
  rw [Value.encode]
  rfl

theorem encode_oidValue (parts : List Nat) : (oidValue parts).encode = oid parts :=
  encode_bytes _ _

theorem encode_timeValue (d : UtcDate) : (timeValue d).encode = time d := by
  unfold timeValue time
  split
  · exact encode_bytes _ _
  · exact encode_bytes _ _

theorem encode_altName (a : AltName) : a.value.encode = a.bytes := by
  cases a <;> exact encode_bytes _ _

theorem encode_algorithmValue : algorithmValue.encode = ecdsaSha256 := by
  rw [algorithmValue, encode_items, List.map_singleton, encode_oidValue]
  rfl

theorem encode_nameValue (r : Request) : (nameValue r).encode = name r := by
  rw [nameValue, encode_items, List.map_singleton, encode_items, List.map_singleton, encode_items,
    List.map_cons, List.map_singleton, encode_oidValue, encode_bytes]
  rfl

theorem encode_octetsOf (v : Value) : (octetsOf v).encode = octetString v.encode :=
  encode_bytes _ _

theorem encode_altNamesValue (r : Request) :
    (altNamesValue r).encode = seq (r.altNames.map AltName.bytes) := by
  rw [altNamesValue, encode_items, List.map_map]
  congr 2
  exact List.map_congr_left fun a _ => encode_altName a

theorem map_encode_extValues (r : Request) : (extValues r).map Value.encode = exts r := by
  have hvalues : ∀ vs, (Value.items sequence vs).encode = seq (vs.map Value.encode) := by
    intro vs
    rw [encode_items, tag_bytes.2.2.2.2.2.2.1, seq]
  by_cases h : r.altNames = []
  · simp only [extValues, exts, if_pos h, List.append_nil, List.map_cons, List.map_nil, hvalues,
      encode_oidValue, encode_octetsOf, encode_bytes, tag_bytes]
  · simp only [extValues, exts, if_neg h, List.map_append, List.map_cons, List.map_nil, hvalues,
      encode_oidValue, encode_octetsOf, encode_bytes, encode_altNamesValue, tag_bytes]

theorem encode_tbsValue (r : Request) : (tbsValue r).encode = tbs r := by
  rw [tbsValue, encode_items]
  simp only [List.map_cons, List.map_nil, encode_algorithmValue, encode_nameValue,
    encode_timeValue, encode_items, encode_bytes, map_encode_extValues, tag_bytes, tbs, seq, derInt,
    List.flatten_cons, List.flatten_nil, List.append_nil]

theorem encode_certificateValue (r : Request) (sign : Bytes → Bytes) :
    (certificateValue r sign).encode = makeSelfSigned r sign := by
  rw [certificateValue, encode_items]
  simp only [List.map_cons, List.map_nil, encode_algorithmValue, encode_tbsValue, encode_bytes,
    tag_bytes, makeSelfSigned, seq, bitString]

/-! ## Reading them -/

@[simp] theorem bytesOf_bytes (tag : Tag) (content : Bytes) :
    bytesOf tag (.bytes tag content) = some content := if_pos rfl

@[simp] theorem bytesOf_items (tag t : Tag) (vs : List Value) :
    bytesOf tag (.items t vs) = none := rfl

@[simp] theorem itemsOf_items (tag : Tag) (vs : List Value) :
    itemsOf tag (.items tag vs) = some vs := if_pos rfl

theorem mapIdx_marked (ds : List Nat) :
    (ds.mapIdx fun i b => UInt8.ofNat (if i = ds.length - 1 then b else b ||| 0x80)) =
      marked ds := by
  induction ds with
  | nil =>
      rfl
  | cons d ds ih =>
      cases ds with
      | nil =>
          rfl
      | cons e ds =>
          have hlast : ∀ i, (i + 1 = (d :: e :: ds).length - 1) = (i = (e :: ds).length - 1) := by
            intro i
            simp
          rw [List.mapIdx_cons, marked, ← ih, Nat.or_comm]
          simp only [hlast]
          rfl

theorem readArcs_parts (parts : List Nat) : readArcs none (parts.flatMap oidPart) = some parts := by
  induction parts with
  | nil =>
      rfl
  | cons part parts ih =>
      have hpart : oidPart part = marked (arcDigits part) := mapIdx_marked _
      rw [List.flatMap_cons, hpart, readArcs_arcDigits, ih]
      rfl

/-- The first byte of an identifier stands for its first two numbers. -/
theorem readObjectId_oidValue {a b : Nat} (h : a ≤ 1 ∧ b < 40 ∨ a = 2 ∧ b < 48) (parts : List Nat) :
    readObjectId (oidValue (a :: b :: parts)) = some (a :: b :: parts) := by
  have hbyte : (UInt8.ofNat (40 * a + b)).toNat = 40 * a + b := by
    rw [UInt8.toNat_ofNat']
    omega
  have hfirst : min ((40 * a + b) / 40) 2 = a := by omega
  have hsecond : 40 * a + b - 40 * a = b := by omega
  have harcs : readArcs none (UInt8.ofNat (40 * a + b) :: parts.flatMap oidPart) =
      some ((40 * a + b) :: parts) := by
    rw [readArcs, hbyte, if_pos (by omega), readArcs_parts, Option.getD_none, Nat.zero_mul,
      Nat.zero_add]
    rfl
  rw [readObjectId, oidValue, bytesOf_bytes, Option.bind_some]
  change readOid (UInt8.ofNat (40 * a + b) :: parts.flatMap oidPart) = _
  rw [readOid, harcs]
  simp only [hfirst, hsecond]

/-! ### Dates -/

theorem pad_eq {n : Nat} (hn : n < 100) :
    pad n = [Nat.digitChar (n / 10), Nat.digitChar (n % 10)] := by
  have hall : ∀ n : Fin 100, pad n = [Nat.digitChar (n / 10), Nat.digitChar (n % 10)] := by decide
  exact hall ⟨n, hn⟩

theorem readPair_digits {n : Nat} (hn : n < 100) :
    readPair (Nat.digitChar (n / 10)) (Nat.digitChar (n % 10)) = some n := by
  have hall : ∀ n : Fin 100,
      readPair (Nat.digitChar (n / 10)) (Nat.digitChar (n % 10)) = some (n : Nat) := by decide
  exact hall ⟨n, hn⟩

theorem decimal_year {y : Nat} (hlow : 1000 ≤ y) (hhigh : y ≤ 9999) :
    decimal y = pad (y / 100) ++ pad (y % 100) := by
  have hlast : ∀ n, 10 ≤ n → Nat.toDigits 10 n =
      Nat.toDigits 10 (n / 10) ++ [Nat.digitChar (n % 10)] := fun n hn =>
    Nat.toDigits_of_base_le (by decide) hn
  rw [pad_eq (by omega), pad_eq (by omega), decimal, hlast y (by omega), hlast (y / 10) (by omega),
    hlast (y / 10 / 10) (by omega), Nat.toDigits_of_lt_base (by omega)]
  have h1 : y / 10 / 10 / 10 = y / 100 / 10 := by omega
  have h2 : y / 10 / 10 % 10 = y / 100 % 10 := by omega
  have h3 : y / 10 % 10 = y % 100 / 10 := by omega
  have h4 : y % 10 = y % 100 % 10 := by omega
  rw [h1, h2, h3, h4]
  rfl

def dateText (d : UtcDate) : Text :=
  pad d.month ++ pad d.day ++ pad d.hour ++ pad d.minute ++ pad d.second ++ ['Z']

theorem readDate_dateText (d : UtcDate) : readDate d.year (dateText d) = some d := by
  obtain ⟨hmonth, hday, hhour, hminute, hsecond⟩ := d.valid
  have hmonth' : d.month < 100 := by omega
  have hday' : d.day < 100 := by omega
  have hhour' : d.hour < 100 := by omega
  have hminute' : d.minute < 100 := by omega
  have hsecond' : d.second < 100 := by omega
  rw [dateText, pad_eq hmonth', pad_eq hday', pad_eq hhour', pad_eq hminute', pad_eq hsecond']
  simp only [List.cons_append, List.nil_append, readDate, readPair_digits hmonth',
    readPair_digits hday', readPair_digits hhour', readPair_digits hminute',
    readPair_digits hsecond', Option.bind_eq_bind, Option.bind_some]
  exact dif_pos ⟨hmonth, hday, hhour, hminute, hsecond⟩

theorem ascii_pad {n : Nat} (hn : n < 100) : ∀ c ∈ pad n, isAscii c := by
  have hall : ∀ n : Fin 100, (pad n).all isAscii = true := by decide
  exact List.all_eq_true.1 (hall ⟨n, hn⟩)

theorem ascii_dateText (d : UtcDate) : ∀ c ∈ dateText d, isAscii c := by
  obtain ⟨hmonth, hday, hhour, hminute, hsecond⟩ := d.valid
  intro c hc
  simp only [dateText, List.mem_append, List.mem_singleton] at hc
  rcases hc with ((((hc | hc) | hc) | hc) | hc) | rfl
  · exact ascii_pad (by omega) c hc
  · exact ascii_pad (by omega) c hc
  · exact ascii_pad (by omega) c hc
  · exact ascii_pad (by omega) c hc
  · exact ascii_pad (by omega) c hc
  · rfl

/-- Two digits of the year are enough until 2049. -/
theorem readTime_timeValue {d : UtcDate} (hlow : 1950 ≤ d.year) (hhigh : d.year ≤ 9999) :
    readTime (timeValue d) = some d := by
  have hread := readDate_dateText d
  unfold timeValue
  by_cases hyear : d.year < 2050
  · have hmod : d.year % 100 < 100 := Nat.mod_lt _ (by decide)
    have hascii : ∀ c ∈ pad (d.year % 100) ++ dateText d, isAscii c := by
      intro c hc
      exact (List.mem_append.1 hc).elim (ascii_pad hmod c) (ascii_dateText d c)
    rw [if_pos hyear]
    change readTime (.bytes utcTime (asciiBytes (pad (d.year % 100) ++ dateText d))) = _
    rw [readTime, bytesOf_bytes, Option.map_some, latin1_asciiBytes hascii, pad_eq hmod]
    simp only [List.cons_append, List.nil_append, readPair_digits hmod, Option.bind_some]
    have hcentury : (if d.year % 100 < 50 then 2000 + d.year % 100 else 1900 + d.year % 100) =
        d.year := by
      split <;> omega
    rw [hcentury, hread]
  · have hmod : d.year % 100 < 100 := Nat.mod_lt _ (by decide)
    have hdiv : d.year / 100 < 100 := by omega
    have hascii : ∀ c ∈ decimal d.year ++ dateText d, isAscii c := by
      intro c hc
      rw [decimal_year (by omega) hhigh, List.mem_append, List.mem_append] at hc
      rcases hc with (hc | hc) | hc
      · exact ascii_pad hdiv c hc
      · exact ascii_pad hmod c hc
      · exact ascii_dateText d c hc
    rw [if_neg hyear]
    change readTime (.bytes generalizedTime (asciiBytes (decimal d.year ++ dateText d))) = _
    have hutc : bytesOf utcTime
        (.bytes generalizedTime (asciiBytes (decimal d.year ++ dateText d))) = none := rfl
    rw [readTime, hutc, bytesOf_bytes, Option.map_some, latin1_asciiBytes hascii,
      decimal_year (by omega) hhigh, pad_eq hdiv, pad_eq hmod]
    simp only [List.cons_append, List.nil_append, Option.map_none, readPair_digits hmod,
      readPair_digits hdiv, Option.bind_some]
    have hwhole : 100 * (d.year / 100) + d.year % 100 = d.year := Nat.div_add_mod _ _
    rw [hwhole, if_pos (by omega), hread]

/-! ### Numbers, names and addresses -/

theorem readName_nameValue (r : Request) :
    readName (nameValue r) = some ([2, 5, 4, 3], r.commonName) := by
  simp only [readName, nameValue, itemsOf_items, Option.map_some, List.map_cons, List.map_nil,
    readObjectId_oidValue (a := 2) (b := 5) (by decide), bytesOf_bytes, utf8_utf8Bytes,
    Option.bind_eq_bind, Option.bind_some]

theorem readAlgorithm_algorithmValue :
    readAlgorithm algorithmValue = some [1, 2, 840, 10045, 4, 3, 2] := by
  rw [readAlgorithm, algorithmValue, itemsOf_items]
  exact readObjectId_oidValue (by decide) _

/-- The number is positive, and its first byte cannot be left out. -/
theorem readInt_serial (r : Request) : ∃ n : Nat, 0 < n ∧ n < 2 ^ 127 ∧
    readInt ([r.first &&& 0x7f ||| 0x01] ++ r.random.1) = some (n : Int) := by
  have hbyte : (r.first &&& 0x7f ||| 0x01).toNat = r.first.toNat &&& 0x7f ||| 0x01 := by
    rw [UInt8.toNat_or, UInt8.toNat_and]
    rfl
  have hpos : 0 < (r.first &&& 0x7f ||| 0x01).toNat := hbyte ▸ Nat.right_le_or
  have hlt : (r.first &&& 0x7f ||| 0x01).toNat < 0x80 := hbyte ▸
    Nat.or_lt_two_pow (n := 7) (Nat.and_lt_two_pow _ (by decide)) (by decide)
  have hbytes : ∀ d ∈ r.random.1.map UInt8.toNat, d < 256 := by
    intro d hd
    obtain ⟨b, _, rfl⟩ := List.mem_map.1 hd
    exact b.toNat_lt
  have hlength : (r.random.1.map UInt8.toNat).length = 15 := by
    rw [List.length_map, r.random.2]
  obtain ⟨hlow, hhigh⟩ :=
    ofBigEndian_cons_bounds (d := (r.first &&& 0x7f ||| 0x01).toNat) hbytes
  rw [hlength] at hlow hhigh
  refine ⟨_, ?_, ?_, readInt_of_pos hpos hlt⟩
  · exact Nat.lt_of_lt_of_le (Nat.mul_pos hpos (by decide)) hlow
  · calc _ < ((r.first &&& 0x7f ||| 0x01).toNat + 1) * 256 ^ 15 := hhigh
      _ ≤ 0x80 * 256 ^ 15 := Nat.mul_le_mul_right _ hlt
      _ = 2 ^ 127 := by decide

/-- The octets of an address, or its groups of sixteen bits. -/
def Address.meaning (a : Address) : Bytes :=
  if Edge.isIPv4 a.1 = true then (a.1.splitOn '.').map fun o => UInt8.ofNat (Edge.digitsValue o)
  else ((Edge.ipv6Groups a.1).getD []).flatMap uint16BE

def AltName.meaning : AltName → GeneralName
  | .dns name => .dns name
  | .ip address => .address address.meaning

theorem hexGroups_eq {parts : List Text} {g : List Nat} (h : Edge.hexGroups false parts = some g) :
    parts.map Edge.hexValue = g ∧ Edge.hexGroups true parts = some g := by
  induction parts generalizing g with
  | nil =>
      cases h
      exact ⟨rfl, rfl⟩
  | cons s parts ih =>
      rw [Edge.hexGroups] at h
      by_cases hs : Edge.isHexGroup s = true
      · rw [if_pos hs] at h
        obtain ⟨g', hg', rfl⟩ := Option.map_eq_some_iff.1 h
        obtain ⟨hmap, htrue⟩ := ih hg'
        refine ⟨by rw [List.map_cons, hmap], ?_⟩
        rw [Edge.hexGroups, if_pos hs, htrue]
        rfl
      · rw [if_neg hs] at h
        cases h

theorem partGroups_eq {s : Text} {g : List Nat} (h : Edge.partGroups false s = some g) :
    (groupTexts s).map Edge.hexValue = g ∧ Edge.partGroups true s = some g := by
  rw [Edge.partGroups] at h
  rw [groupTexts, Edge.partGroups]
  by_cases hs : s = []
  · rw [if_pos hs] at h
    cases h
    rw [if_pos hs, if_pos hs]
    exact ⟨rfl, rfl⟩
  · rw [if_neg hs] at h
    rw [if_neg hs, if_neg hs]
    exact hexGroups_eq h

theorem mem_of_splitGap {s : Text} {lr : Text × Text} (h : Edge.splitGap s = some lr) :
    ':' ∈ s := by
  induction s generalizing lr with
  | nil =>
      cases h
  | cons c s ih =>
      rw [Edge.splitGap] at h
      by_cases hc : c = ':' ∧ s.head? = some ':'
      · rw [hc.1]
        exact List.mem_cons_self
      · rw [if_neg hc] at h
        obtain ⟨lr', hrest, _⟩ := Option.map_eq_some_iff.1 h
        exact List.mem_cons_of_mem _ (ih hrest)

theorem mem_of_groupTexts {s : Text} (h : 2 ≤ (groupTexts s).length) : ':' ∈ s := by
  by_contra hno
  rw [groupTexts, List.splitOn_eq_singleton hno] at h
  split at h
  · exact absurd h (by decide)
  · exact absurd h (by simp)

/-- The groups of a plain address, with the gap filled, are those the address is read as. -/
theorem ipBytes_of_plainGroups {s : Text} {g : List Nat} (h : plainGroups s = some g) :
    ':' ∈ s ∧ ipBytes s = g.flatMap uint16BE ∧ Edge.ipv6Groups s = some g ∧ g.length = 8 := by
  unfold plainGroups at h
  cases hgap : Edge.splitGap s with
  | none =>
      rw [hgap] at h
      obtain ⟨hparts, hlength⟩ := Option.filter_eq_some_iff.1 h
      obtain ⟨hmap, htrue⟩ := partGroups_eq hparts
      have hlength : g.length = 8 := of_decide_eq_true hlength
      have hcolon : ':' ∈ s := mem_of_groupTexts (by
        rw [← List.length_map (f := Edge.hexValue), hmap, hlength]
        decide)
      refine ⟨hcolon, ?_, ?_, hlength⟩
      · rw [ipBytes, if_pos hcolon, hgap]
        simp only [Option.getD_none, Option.isSome_none, Bool.false_eq_true, if_false]
        rw [← hmap, List.flatMap_map]
      · rw [Edge.ipv6Groups, hgap]
        exact Option.filter_eq_some_iff.2 ⟨htrue, decide_eq_true hlength⟩
  | some lr =>
      obtain ⟨l, r⟩ := lr
      rw [hgap] at h
      have hcolon := mem_of_splitGap hgap
      cases hl : Edge.partGroups false l with
      | none =>
          simp [hl] at h
      | some a =>
          cases hr : Edge.partGroups false r with
          | none =>
              simp [hl, hr] at h
          | some b =>
              simp only [hl, hr, Option.ite_none_right_eq_some, Option.some.injEq] at h
              obtain ⟨hroom, rfl⟩ := h
              obtain ⟨hmapl, _⟩ := partGroups_eq hl
              obtain ⟨hmapr, htrue⟩ := partGroups_eq hr
              have hlengthl : (groupTexts l).length = a.length := by
                rw [← hmapl, List.length_map]
              have hlengthr : (groupTexts r).length = b.length := by
                rw [← hmapr, List.length_map]
              refine ⟨hcolon, ?_, ?_, ?_⟩
              · rw [ipBytes, if_pos hcolon, hgap]
                simp only [Option.getD_some, Option.isSome_some, if_true, hlengthl, hlengthr]
                rw [← hmapl, ← hmapr, List.flatMap_append, List.flatMap_append,
                  List.flatMap_append, List.flatMap_append, List.flatMap_map, List.flatMap_map,
                  List.length_map, List.length_map, List.flatMap_replicate, List.flatMap_replicate]
                rfl
              · rw [Edge.ipv6Groups, hgap]
                simp only [hl, htrue, if_pos hroom]
              · rw [List.length_append, List.length_append, List.length_replicate]
                omega

theorem ipBytes_eq (a : Address) :
    ipBytes a.1 = a.meaning ∧ (a.meaning.length = 4 ∨ a.meaning.length = 16) := by
  unfold Address.meaning
  by_cases hv4 : Edge.isIPv4 a.1 = true
  · have hcolon : ':' ∉ a.1 := fun hc => by
      rcases Edge.char_of_isIPv4 hv4 hc with h | h
      · exact absurd h (by decide)
      · exact absurd h (by decide)
    rw [if_pos hv4, ipBytes, if_neg hcolon, List.length_map]
    simp only [Edge.isIPv4, Bool.and_eq_true, decide_eq_true_eq] at hv4
    exact ⟨rfl, .inl hv4.1⟩
  · obtain ⟨g, hg⟩ := Option.isSome_iff_exists.1 (a.2.resolve_left hv4)
    obtain ⟨_, hbytes, hgroups, hlength⟩ := ipBytes_of_plainGroups hg
    have hsixteen : (g.flatMap uint16BE).length = 16 := by
      have hsum : ∀ g : List Nat, (g.flatMap uint16BE).length = 2 * g.length := by
        intro g
        induction g with
        | nil =>
            rfl
        | cons n g ih =>
            rw [List.flatMap_cons, List.length_append, ih, List.length_cons]
            change 2 + _ = _
            omega
      rw [hsum, hlength]
    rw [if_neg hv4, hgroups, Option.getD_some]
    exact ⟨hbytes, .inr hsixteen⟩

/-- A name is read as what it stands for. -/
theorem readGeneralName_value {a : AltName} (ha : ∀ name, a = .dns name → ∀ c ∈ name, isAscii c) :
    readGeneralName a.value = some a.meaning := by
  cases a with
  | dns name =>
      rw [AltName.value, readGeneralName, bytesOf_bytes]
      simp only [latin1_asciiBytes (ha name rfl), AltName.meaning]
  | ip address =>
      obtain ⟨hbytes, hlength⟩ := ipBytes_eq address
      have hdns : bytesOf (context 2) (.bytes (context 7) (ipBytes address.1)) = none := rfl
      rw [AltName.value, readGeneralName, hdns, bytesOf_bytes, hbytes]
      exact if_pos hlength

/-! ### Extensions -/

theorem readExtension_octetsOf {a b : Nat} (h : a ≤ 1 ∧ b < 40 ∨ a = 2 ∧ b < 48) (parts : List Nat)
    {v : Value} (hfits : Fits v.encode.length) :
    readExtension (.items sequence [oidValue (a :: b :: parts), octetsOf v]) =
        (readExtensionValue (a :: b :: parts) v).map (Prod.mk false) ∧
      readExtension (.items sequence [oidValue (a :: b :: parts), .bytes boolean [0xff],
          octetsOf v]) = (readExtensionValue (a :: b :: parts) v).map (Prod.mk true) := by
  simp only [readExtension, itemsOf_items, readObjectId_oidValue h, octetsOf, bytesOf_bytes,
    read_encode hfits, Option.bind_eq_bind, Option.bind_some, if_true]
  exact ⟨(Option.map_eq_bind).symm, (Option.map_eq_bind).symm⟩

section Extensions

variable {r : Request} {sign : Bytes → Bytes}

/-- Each extension has its place in the certificate. -/
theorem fits_extension (hfits : Fits (makeSelfSigned r sign).length) (vs : List Value) {v : Value}
    (he : Value.items sequence vs ∈ extValues r) (hv : octetsOf v ∈ vs) : Fits v.encode.length := by
  refine Nat.lt_of_le_of_lt ?_ hfits
  rw [← encode_certificateValue]
  calc v.encode.length
      ≤ (octetsOf v).encode.length := length_encode_bytes _ _
    _ ≤ (Value.items sequence vs).encode.length := length_encode_of_mem hv
    _ ≤ (Value.items sequence (extValues r)).encode.length := length_encode_of_mem he
    _ ≤ (Value.items (context 3) [.items sequence (extValues r)]).encode.length :=
        length_encode_of_mem (List.mem_singleton_self _)
    _ ≤ (tbsValue r).encode.length := length_encode_of_mem (by simp)
    _ ≤ (certificateValue r sign).encode.length := length_encode_of_mem (by simp)

/-- The extensions of a certificate; there is no list of names where none are given. -/
def Request.extensions (r : Request) : List (Bool × Extension) :=
  [(false, .basicConstraints false), (true, .keyUsage [0]),
    (false, .extKeyUsage [[1, 3, 6, 1, 5, 5, 7, 3, 1]])] ++
    if r.altNames = [] then [] else [(false, .subjectAltName (r.altNames.map AltName.meaning))]

theorem readExtensions (hfits : Fits (makeSelfSigned r sign).length)
    (hnames : ∀ name, .dns name ∈ r.altNames → ∀ c ∈ name, isAscii c) :
    (extValues r).mapM readExtension = some r.extensions := by
  have hserver : readObjectId (oidValue [1, 3, 6, 1, 5, 5, 7, 3, 1]) =
      some [1, 3, 6, 1, 5, 5, 7, 3, 1] := readObjectId_oidValue (by decide) _
  have hbasic : Fits (Value.items sequence []).encode.length :=
    fits_extension hfits [oidValue [2, 5, 29, 19], octetsOf (.items sequence [])]
      (by simp [extValues]) (by simp)
  have husage : Fits (Value.bytes bits [0x07, 0x80]).encode.length :=
    fits_extension hfits [oidValue [2, 5, 29, 15], .bytes boolean [0xff],
      octetsOf (.bytes bits [0x07, 0x80])] (by simp [extValues]) (by simp)
  have hpurpose :
      Fits (Value.items sequence [oidValue [1, 3, 6, 1, 5, 5, 7, 3, 1]]).encode.length :=
    fits_extension hfits [oidValue [2, 5, 29, 37],
      octetsOf (.items sequence [oidValue [1, 3, 6, 1, 5, 5, 7, 3, 1]])] (by simp [extValues])
      (by simp)
  rw [mapM_eq_some, extValues, Request.extensions, List.map_append, List.map_append]
  refine congrArg₂ (· ++ ·) ?_ ?_
  · rw [List.map_cons, List.map_cons, List.map_singleton,
      (readExtension_octetsOf (by decide) [29, 19] hbasic).1,
      (readExtension_octetsOf (by decide) [29, 15] husage).2,
      (readExtension_octetsOf (by decide) [29, 37] hpurpose).1]
    have hbit : setBits 7 [0x80] = [0] := by decide
    simp [readExtensionValue, hserver, hbit]
  · by_cases hnone : r.altNames = []
    · rw [if_pos hnone, if_pos hnone]
      rfl
    · rw [if_neg hnone, if_neg hnone, List.map_singleton, List.map_singleton]
      have halt : Fits (altNamesValue r).encode.length :=
        fits_extension hfits [oidValue [2, 5, 29, 17], octetsOf (altNamesValue r)]
          (by simp [extValues, hnone]) (by simp)
      have hmap : (r.altNames.map AltName.value).mapM readGeneralName =
          some (r.altNames.map AltName.meaning) := by
        rw [mapM_eq_some, List.map_map, List.map_map]
        exact List.map_congr_left fun a ha =>
          readGeneralName_value fun name heq => hnames name (heq ▸ ha)
      rw [(readExtension_octetsOf (by decide) [29, 17] halt).1]
      simp [readExtensionValue, altNamesValue, hmap]

end Extensions

/-- What has been written is read as what was to be written: the time and the names as given, a
positive number, no right to sign others, and the same algorithm inside and outside.  What is signed
is what stands in the certificate. -/
theorem readCertificate_makeSelfSigned (r : Request) (sign : Bytes → Bytes)
    (hfits : Fits (makeSelfSigned r sign).length)
    (hbefore : 1950 ≤ r.notBefore.year ∧ r.notBefore.year ≤ 9999)
    (hafter : 1950 ≤ r.notAfter.year ∧ r.notAfter.year ≤ 9999)
    (hnames : ∀ name, .dns name ∈ r.altNames → ∀ c ∈ name, isAscii c) :
    ∃ serial : Nat, 0 < serial ∧ serial < 2 ^ 127 ∧
      readCertificate (makeSelfSigned r sign) = some {
        serial
        issuer := ([2, 5, 4, 3], r.commonName)
        notBefore := r.notBefore
        notAfter := r.notAfter
        subject := ([2, 5, 4, 3], r.commonName)
        key := r.spki
        extensions := r.extensions
        algorithm := [1, 2, 840, 10045, 4, 3, 2]
        signed := tbs r
        signature := sign (tbs r) } := by
  obtain ⟨serial, hpos, hlt, hserial⟩ := readInt_serial r
  refine ⟨serial, hpos, hlt, ?_⟩
  have hread : read (makeSelfSigned r sign) = some (certificateValue r sign) := by
    rw [← encode_certificateValue] at hfits ⊢
    exact read_encode hfits
  have htbs : itemsOf sequence (tbsValue r) = some _ := itemsOf_items _ _
  rw [readCertificate, hread]
  simp only [certificateValue, itemsOf_items, htbs, bytesOf_bytes, Option.bind_eq_bind,
    Option.bind_some, Option.map_some, List.map_singleton, hserial, readAlgorithm_algorithmValue,
    readName_nameValue, readTime_timeValue hbefore.1 hbefore.2,
    readTime_timeValue hafter.1 hafter.2, readExtensions hfits hnames, encode_tbsValue, and_self,
    if_true]

/-- A certificate with two addresses that is valid into the years with four digits. -/
def sample : Request where
  commonName := "GateControl Gateway".toList
  altNames := [.dns "gateway".toList, .ip ⟨"192.168.178.2".toList, .inl (by decide)⟩,
    .ip ⟨"fd00::2".toList, .inr (by decide)⟩]
  notBefore := ⟨2049, 12, 30, 23, 59, 9, by decide⟩
  notAfter := ⟨2059, 12, 28, 23, 59, 9, by decide⟩
  spki := .items sequence [algorithmValue, .bytes bits [0, 4]]
  first := 0xfe
  random := ⟨List.replicate 15 7, rfl⟩

theorem readCertificate_makeSelfSigned_sample :
    ∃ m, readCertificate (makeSelfSigned sample fun s => s.take 64) = some m ∧ 0 < m.serial ∧
      m.notBefore.year = 2049 ∧ m.notAfter.year = 2059 ∧
      m.extensions.getLast? = some (false, .subjectAltName [.dns "gateway".toList,
        .address [192, 168, 178, 2],
        .address [0xfd, 0, 0, 0, 0, 0, 0, 0, 0, 0, 0, 0, 0, 0, 0, 2]]) := by
  have hnames : ∀ name, .dns name ∈ sample.altNames → ∀ c ∈ name, isAscii c := by
    intro name hname
    rcases List.mem_cons.1 hname with h | h
    · rw [AltName.dns.inj h]
      exact List.all_eq_true.1 (by decide)
    · rcases List.mem_cons.1 h with h | h
      · cases h
      · cases List.mem_singleton.1 h
  have hlast : sample.extensions.getLast? = some (false, .subjectAltName [.dns "gateway".toList,
      .address [192, 168, 178, 2],
      .address [0xfd, 0, 0, 0, 0, 0, 0, 0, 0, 0, 0, 0, 0, 0, 0, 2]]) := by decide
  obtain ⟨serial, hpos, _, hread⟩ := readCertificate_makeSelfSigned sample (fun s => s.take 64)
    (by decide +kernel) (by decide) (by decide) hnames
  have hbefore : sample.notBefore.year = 2049 := rfl
  have hafter : sample.notAfter.year = 2059 := rfl
  exact ⟨_, hread, Int.natCast_pos.2 hpos, hbefore, hafter, hlast⟩

end Certificate
end Cache
end GateControl
