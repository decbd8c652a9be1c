import GateControl.Library.Bytes
import GateControl.Library.OrderedMap
import GateControl.Library.PlainObject
import GateControl.Library.Utf8

/-!
# Challenges — how a camera asks for a login, and what is answered

A header is cut at the commas behind which another challenge begins; in each part the scheme is
read, and then one parameter after the other.  Hashes and the random nonce of the client are
parameters of the answer.
-/

namespace GateControl
namespace Cameras

open Library

/-! ## Reading a header -/

/-- `\w`. -/
def isWordChar (c : Char) : Bool :=
  ('a' ≤ c && c ≤ 'z') || ('A' ≤ c && c ≤ 'Z') || ('0' ≤ c && c ≤ '9') || c == '_'

def isParamChar (c : Char) : Bool := isWordChar c || c == '-'

/-- What `.` does not match. -/
def isLineEnd (c : Char) : Bool := c == '\n' || c == '\r' || c.toNat == 0x2028 || c.toNat == 0x2029

/-- A text begins with a word, in any case, and white space behind it. -/
def opensWord : Text → Text → Bool
  | [], s => s.head?.any isTrimmed
  | _ :: _, [] => false
  | x :: w, c :: s => asciiLower c == x && opensWord w s

/-- `(?:Digest|Basic)\s` -/
def opensChallenge (s : Text) : Bool :=
  opensWord "digest".toList s || opensWord "basic".toList s

/-- The text begins with a comma at which the header is cut. -/
def breaks : Text → Bool
  | [] => false
  | c :: s => c == ',' && opensChallenge (s.dropWhile isTrimmed)

/-- Put a text in front of the first part. -/
def prepend (x : Text) : List Text → List Text
  | [] => [x]
  | p :: ps => (x ++ p) :: ps

/-- `split` at the commas; `skip` while the white space behind one is skipped. -/
def splitFrom (skip : Bool) : Text → List Text
  | [] => [[]]
  | c :: s =>
    if skip && isTrimmed c then splitFrom true s
    else if breaks (c :: s) then [] :: splitFrom true s
    else prepend [c] (splitFrom false s)

/-- The inside of a quoted value up to the closing quote, and what follows it; `escaped` behind a
backslash. -/
def readQuoted (escaped : Bool) : Text → Option (Text × Text)
  | [] => none
  | c :: s =>
    if escaped then
      if isLineEnd c then none else (readQuoted false s).map fun r => (c :: r.1, r.2)
    else if c = '"' then some ([], s)
    else (readQuoted (c = '\\') s).map fun r => (c :: r.1, r.2)

/-- `replace(/\\(.)/g, '$1')` -/
def unescapeValue (escaped : Bool) : Text → Text
  | [] => if escaped then ['\\'] else []
  | c :: s =>
    if escaped then
      if isLineEnd c then '\\' :: c :: unescapeValue false s else c :: unescapeValue false s
    else if c = '\\' then unescapeValue true s
    else c :: unescapeValue false s

/-- The value behind the `=`, and what follows it. -/
def readValue (s : Text) : Text × Text :=
  let bare := fun c => c != ',' && !isTrimmed c
  match s with
  | [] => ([], [])
  | c :: t =>
    match if c = '"' then readQuoted false t else none with
    | some (raw, rest) => (unescapeValue false raw, rest)
    | none => (s.takeWhile bare, s.dropWhile bare)

/-- A parameter at the start of the text, and what follows it. -/
def readParam (s : Text) : Option ((Text × Text) × Text) :=
  let rest := (s.dropWhile isParamChar).dropWhile isTrimmed
  if rest.head? = some '=' then
    let r := readValue (rest.tail.dropWhile isTrimmed)
    some ((s.takeWhile isParamChar, r.1), r.2)
  else none

/-- The matches of the pattern for a parameter, one after the other. -/
def paramsFrom : Nat → Text → List (Text × Text)
  | 0, _ | _ + 1, [] => []
  | n + 1, c :: s =>
    if isParamChar c then
      match readParam (c :: s) with
      | some (p, rest) => p :: paramsFrom n rest
      | none => paramsFrom n s
    else paramsFrom n s

def paramsOf (s : Text) : List (Text × Text) := paramsFrom s.length s

structure Challenge where
  scheme : Text
  params : OrderedMap Text Text

/-- `params[name] = value`; the prototype of an object is not set to a text. -/
def setParam (params : OrderedMap Text Text) (p : Text × Text) : OrderedMap Text Text :=
  if p.1.map asciiLower = protoName then params else params.set (p.1.map asciiLower) p.2

def parseChallenge (h : Text) : Option Challenge :=
  let s := trim h
  let word := s.takeWhile isWordChar
  if word = [] then none
  else
    some
      { scheme := word.map asciiLower
        params :=
          (paramsOf ((s.dropWhile isWordChar).dropWhile isTrimmed)).foldl setParam .empty }

/-- The header as it comes: not there, once, or several times. -/
inductive Header
  | absent
  | one (h : Text)
  | many (hs : List Text)

def Header.list : Header → List Text
  | .absent | .one [] => []
  | .one h => [h]
  | .many hs => hs

/-- The challenges of one header line. -/
def challengesOf (h : Text) : List Challenge := (splitFrom false h).filterMap parseChallenge

def challenges (header : Header) : List Challenge := header.list.flatMap challengesOf

/-! ## Answering -/

inductive Hash
  | md5
  | sha256
  /-- What the table has only from its prototype. -/
  | inherited
  deriving DecidableEq, Repr

/-- `HASH[algo]` -/
def hashOf (algo : Text) : Option Hash :=
  if algo ∈ ["md5", "md5-sess"].map String.toList then some .md5
  else if algo ∈ ["sha-256", "sha-256-sess"].map String.toList then some .sha256
  else if algo ∈ objectPrototype || algo = protoName then some .inherited
  else none

def Challenge.param (c : Challenge) (name : String) : Option Text := c.params.get name.toList

/-- `c.params[name] || ''` -/
def Challenge.paramOr (c : Challenge) (name : String) : Text := (c.param name).getD []

/-- The algorithm begins with `SHA-256` in capitals.  Only one other letter has a capital that is
one of these. -/
def Challenge.isSha256 (c : Challenge) : Bool :=
  let upper := fun c =>
    if 'a' ≤ c ∧ c ≤ 'z' then Char.ofNat (c.toNat - 32) else if c.toNat = 0x17f then 'S' else c
  "SHA-256".toList.isPrefixOf ((c.paramOr "algorithm").map upper)

structure Login where
  user : Text
  password : Text
  method : Text
  uri : Text

/-- `crypto.createHash` knows no such hash. -/
inductive AuthError
  | badHash
  deriving DecidableEq, Repr

def quoted (v : Text) : Text := v.flatMap fun c => if c = '"' ∨ c = '\\' then ['\\', c] else [c]

def joinBy (sep : Text) : List Text → Text
  | [] => []
  | [t] => t
  | t :: u :: ts => t ++ sep ++ joinBy sep (u :: ts)

def field (name : String) (value : Text) : Text := name.toList ++ "=\"".toList ++ value ++ ['"']

def base64Char (n : Nat) : Char :=
  ("ABCDEFGHIJKLMNOPQRSTUVWXYZabcdefghijklmnopqrstuvwxyz0123456789+/".toList[n]?).getD '='

def base64 : Bytes → Text
  | [] => []
  | [a] => [base64Char (a.toNat / 4), base64Char (a.toNat % 4 * 16), '=', '=']
  | [a, b] =>
    [base64Char (a.toNat / 4), base64Char (a.toNat % 4 * 16 + b.toNat / 16),
      base64Char (b.toNat % 16 * 4), '=']
  | a :: b :: c :: s =>
    base64Char (a.toNat / 4) :: base64Char (a.toNat % 4 * 16 + b.toNat / 16) ::
      base64Char (b.toNat % 16 * 4 + c.toNat / 64) :: base64Char (c.toNat % 64) :: base64 s

def basicAuth (user password : Text) : Text :=
  "Basic ".toList ++ base64 (utf8Bytes (user ++ [':'] ++ password))

section Answer

variable (hash : Hash → Bytes → Text) (cnonce : Text)

/-- `digestAuth` with the first nonce count. -/
def digestAuth (c : Challenge) (l : Login) : Except AuthError (Option Text) :=
  let algorithm := c.paramOr "algorithm"
  let algo := if algorithm = [] then "md5".toList else algorithm.map asciiLower
  let nonce := c.paramOr "nonce"
  match hashOf algo, c.param "realm" with
  | none, _ | _, none => .ok none
  | some h, some realm =>
    if nonce = [] then .ok none
    else if h = .inherited then .error .badHash
    else
      let H := fun parts : List Text => hash h (utf8Bytes (joinBy [':'] parts))
      let ncs := "00000001".toList
      let plain := H [l.user, realm, l.password]
      let ha1 := if "-sess".toList <:+ algo then H [plain, nonce, cnonce] else plain
      let ha2 := H [l.method, l.uri]
      let qops := ((c.paramOr "qop").splitOn ',').map fun x => (trim x).map asciiLower
      let auth := "auth".toList
      let qop : Bool := auth ∈ qops
      let response :=
        if qop then H [ha1, nonce, ncs, cnonce, auth, ha2] else H [ha1, nonce, ha2]
      let parts :=
        [field "username" (quoted l.user), field "realm" (quoted realm),
          field "nonce" (quoted nonce), field "uri" (quoted l.uri), field "response" response] ++
        (if algorithm = [] then [] else ["algorithm=".toList ++ algorithm]) ++
        ((c.param "opaque").map fun o => field "opaque" (quoted o)).toList ++
        if qop then
          ["qop=".toList ++ auth, "nc=".toList ++ ncs, field "cnonce" cnonce]
        else []
      .ok (some ("Digest ".toList ++ joinBy ", ".toList parts))

/-- The first challenge that has an answer. -/
def firstDigest (l : Login) : List Challenge → Except AuthError (Option Text)
  | [] => .ok none
  | c :: cs =>
    match digestAuth hash cnonce c l with
    | .error e => .error e
    | .ok (some h) => .ok (some h)
    | .ok none => firstDigest l cs

def authFor (header : Header) (l : Login) (allowBasic : Bool) : Except AuthError (Option Text) :=
  if l.user = [] then .ok none
  else
    let list := challenges header
    let digest := list.filter fun c => c.scheme = "digest".toList
    match firstDigest hash cnonce l (digest.mergeSort fun a b => a.isSha256 || !b.isSha256) with
    | .error e => .error e
    | .ok (some h) => .ok (some h)
    | .ok none =>
      if allowBasic && digest.isEmpty && list.any fun c => c.scheme = "basic".toList then
        .ok (some (basicAuth l.user l.password))
      else .ok none

end Answer

end Cameras
end GateControl
