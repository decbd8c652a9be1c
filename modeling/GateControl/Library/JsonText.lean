import GateControl.Library.Doubles
import GateControl.Library.OrderedMap
import GateControl.Library.Text

/-!
# JsonText — JSON texts as sequences of code units

The values of JavaScript that have a JSON text, how `JSON.stringify` writes strings and numbers, and
how `JSON.parse` reads a text.  A string is a sequence of UTF-16 code units, so a half of a
surrogate pair may stand alone.  The fields of an object are listed in order of insertion; the order
in which an engine enumerates them is not modelled.
-/

namespace GateControl
namespace Library

abbrev CodeUnit := Fin 65536

abbrev Units := List CodeUnit

def unit (c : Char) : CodeUnit := Fin.ofNat 65536 c.toNat

/-- The code unit of a number. -/
def unitOf (n : Nat) : CodeUnit := Fin.ofNat 65536 n

def units (s : Text) : Units := s.map unit

/-! ## Values -/

inductive JsNumber
  | finite (d : Double)
  | negZero
  | infinity (negative : Bool)
  | nan
  deriving DecidableEq

inductive JsValue
  | undefined
  | null
  | bool (b : Bool)
  | num (x : JsNumber)
  | str (s : Units)
  | arr (items : List JsValue)
  | obj (fields : List (Units × JsValue))

namespace JsonText

/-! ## Writing numbers -/

/-- A numeral of the digits before and behind the point, with an exponent if there is one. -/
def numeral (whole fraction : Text) (exponent : Option ℤ) : Text :=
  whole ++ (if fraction = [] then [] else '.' :: fraction) ++
    match exponent with
    | none => []
    | some x => 'e' :: (if x < 0 then '-' else '+') :: decimal x.natAbs

/-- `Number::toString` for the decimal `s · 10 ^ p`. -/
def decimalText (s : ℕ) (p : ℤ) : Text :=
  let digits := decimal s
  let k : ℤ := digits.length
  let n := p + k
  if k ≤ n ∧ n ≤ 21 then numeral (digits ++ List.replicate (n - k).toNat '0') [] none
  else if 0 < n ∧ n ≤ 21 then numeral (digits.take n.toNat) (digits.drop n.toNat) none
  else if -6 < n ∧ n ≤ 0 then numeral ['0'] (List.replicate (-n).toNat '0' ++ digits) none
  else numeral (digits.take 1) (digits.drop 1) (some (n - 1))

/-- `Number::toString` of a double. -/
def doubleText (d : Double) : Text :=
  if d.val = 0 then ['0']
  else if d.val < 0 then '-' :: decimalText (shortest (-d.val)).1 (shortest (-d.val)).2
  else decimalText (shortest d.val).1 (shortest d.val).2

/-- `JSON.stringify` of a number. -/
def stringifyNumber : JsNumber → Units
  | .finite d => units (doubleText d)
  | .negZero => units ['0']
  | .infinity _ | .nan => units "null".toList

/-! ## Writing strings -/

def isLead (c : CodeUnit) : Bool := 0xd800 ≤ c.val && c.val ≤ 0xdbff

def isTrail (c : CodeUnit) : Bool := 0xdc00 ≤ c.val && c.val ≤ 0xdfff

/-- The code units that are escaped by a letter, with that letter. -/
def escapes : List (CodeUnit × CodeUnit) :=
  [(unit '"', unit '"'), (unit '\\', unit '\\'), (0x08, unit 'b'), (0x09, unit 't'),
    (0x0a, unit 'n'), (0x0c, unit 'f'), (0x0d, unit 'r')]

def hexUnit (n : ℕ) : CodeUnit := unit (Nat.digitChar n)

/-- `\uXXXX`. -/
def hexEscape (c : CodeUnit) : Units :=
  [unit '\\', unit 'u', hexUnit (c.val / 4096), hexUnit (c.val / 256 % 16),
    hexUnit (c.val / 16 % 16), hexUnit (c.val % 16)]

def escapeUnit (c : CodeUnit) : Units :=
  match OrderedMap.find c escapes with
  | some e => [unit '\\', e]
  | none => if c.val < 0x20 || isLead c || isTrail c then hexEscape c else [c]

/-- The code units of a string, escaped; surrogate pairs stay as they are. -/
def escapeUnits : Units → Units
  | [] => []
  | [c] => escapeUnit c
  | c :: d :: s =>
      if isLead c && isTrail d then c :: d :: escapeUnits s
      else escapeUnit c ++ escapeUnits (d :: s)

/-- `JSON.stringify` of a string. -/
def quote (s : Units) : Units := unit '"' :: (escapeUnits s ++ [unit '"'])

/-- Texts with commas between them. -/
def commaJoin : List Units → Units
  | [] => []
  | [t] => t
  | t :: u :: ts => t ++ unit ',' :: commaJoin (u :: ts)

/-- An array of items that are given by their texts. -/
def arrayText (ts : List Units) : Units := unit '[' :: (commaJoin ts ++ [unit ']'])

/-- A key, and the text of its value. -/
def fieldText (f : Units × Units) : Units := quote f.1 ++ unit ':' :: f.2

def objectText (fs : List (Units × Units)) : Units :=
  unit '\x7b' :: (commaJoin (fs.map fieldText) ++ [unit '\x7d'])

/-! ## Reading numbers -/

def isDigitUnit (c : CodeUnit) : Bool := unit '0' ≤ c && c ≤ unit '9'

/-- The value of a sequence of digits. -/
def digitsNumber (s : Units) : ℕ := s.foldl (fun n c => 10 * n + (c.val - '0'.toNat)) 0

/-- One digit or more. -/
def readDigits (s : Units) : Option (Units × Units) :=
  if s.takeWhile isDigitUnit = [] then none
  else some (s.takeWhile isDigitUnit, s.dropWhile isDigitUnit)

/-- The digits before the point: no zero stands in front of others. -/
def readWhole (s : Units) : Option (Units × Units) := do
  let (digits, rest) ← readDigits s
  if digits.head? = some (unit '0') ∧ digits.length ≠ 1 then none else some (digits, rest)

def readFraction : Units → Option (Units × Units)
  | [] => some ([], [])
  | c :: s => if c = unit '.' then readDigits s else some ([], c :: s)

def readSigned : Units → Option (ℤ × Units)
  | [] => none
  | c :: s =>
      if c = unit '-' then (readDigits s).map fun d => (-(digitsNumber d.1 : ℤ), d.2)
      else (readDigits (if c = unit '+' then s else c :: s)).map fun d =>
        ((digitsNumber d.1 : ℤ), d.2)

def readExponent : Units → Option (ℤ × Units)
  | [] => some (0, [])
  | c :: s => if c = unit 'e' ∨ c = unit 'E' then readSigned s else some (0, c :: s)

/-- A number without a sign. -/
def readMagnitude (s : Units) : Option (ℚ × Units) := do
  let (whole, s) ← readWhole s
  let (fraction, s) ← readFraction s
  let (exponent, s) ← readExponent s
  some (digitsNumber (whole ++ fraction) * 10 ^ (exponent - fraction.length), s)

/-- The number nearest to a magnitude, with its sign. -/
def toNumber (negative : Bool) (q : ℚ) : JsNumber :=
  match toDouble? q with
  | none => .infinity negative
  | some d => if !negative then .finite d else if d.val = 0 then .negZero else .finite d.neg

def readNumber : Units → Option (JsNumber × Units)
  | [] => none
  | c :: s =>
      if c = unit '-' then (readMagnitude s).map fun q => (toNumber true q.1, q.2)
      else (readMagnitude (c :: s)).map fun q => (toNumber false q.1, q.2)

/-! ## Reading strings -/

def hexValue? (c : CodeUnit) : Option ℕ :=
  if unit '0' ≤ c ∧ c ≤ unit '9' then some (c.val - 48)
  else if unit 'a' ≤ c ∧ c ≤ unit 'f' then some (c.val - 87)
  else if unit 'A' ≤ c ∧ c ≤ unit 'F' then some (c.val - 55)
  else none

def readHex (a b c d : CodeUnit) : Option CodeUnit := do
  let w ← hexValue? a
  let x ← hexValue? b
  let y ← hexValue? c
  let z ← hexValue? d
  some (Fin.ofNat 65536 (w * 4096 + x * 256 + y * 16 + z))

/-- What a letter behind the backslash stands for. -/
def unescape (e : CodeUnit) : Option CodeUnit :=
  OrderedMap.find e ((unit '/', unit '/') :: escapes.map Prod.swap)

def push (c : CodeUnit) (t : Units × Units) : Units × Units := (c :: t.1, t.2)

/-- The string up to the closing quote, and what follows it. -/
def readString : Units → Option (Units × Units)
  | [] => none
  | c :: s =>
      if c = unit '"' then some ([], s)
      -- control characters have to be escaped
      else if c.val < 0x20 then none
      else if c ≠ unit '\\' then (readString s).map (push c)
      else
        match s with
        | [] => none
        | e :: s =>
            if e ≠ unit 'u' then
              (unescape e).bind fun x => (readString s).map (push x)
            else
              match s with
              | a :: b :: c :: d :: s =>
                  (readHex a b c d).bind fun x => (readString s).map (push x)
              | _ => none

/-! ## Reading values -/

def isWhite (c : CodeUnit) : Bool := c = 0x09 || c = 0x0a || c = 0x0d || c = 0x20

def skipWhite (s : Units) : Units := s.dropWhile isWhite

/-- A given code unit behind white space. -/
def readUnit (c : Char) (s : Units) : Option Units :=
  match skipWhite s with
  | [] => none
  | d :: s => if d = unit c then some s else none

def readWord (w : String) (v : JsValue) (s : Units) : Option (JsValue × Units) :=
  if (units w.toList).isPrefixOf s then some (v, s.drop w.length) else none

/-- The fields of an object; a later value of a key replaces an earlier one. -/
def fieldsOf (pairs : List (Units × JsValue)) : List (Units × JsValue) :=
  pairs.foldl (fun fields f => OrderedMap.put f.1 f.2 fields) []

/-- What stands between two brackets: nothing, or elements. -/
def readClosed {α : Type} (close : Char) (read : Units → Option (List α × Units)) (s : Units) :
    Option (List α × Units) :=
  match readUnit close s with
  | some s => some ([], s)
  | none => read s

/-- What follows an element: a comma and more of them, or the closing bracket. -/
def readMore {α : Type} (close : Char) (read : Units → Option (List α × Units)) (a : α)
    (s : Units) : Option (List α × Units) :=
  match readUnit ',' s with
  | some s => (read s).map fun t => (a :: t.1, t.2)
  | none => (readUnit close s).map fun s => ([a], s)

mutual

/-- A value, and what follows it. -/
def readValue : ℕ → Units → Option (JsValue × Units)
  | 0, _ => none
  | n + 1, s =>
      match skipWhite s with
      | [] => none
      | c :: s =>
          if c = unit '"' then (readString s).map fun t => (.str t.1, t.2)
          else if c = unit '[' then (readClosed ']' (readItems n) s).map fun t => (.arr t.1, t.2)
          else if c = unit '\x7b' then
            (readClosed '\x7d' (readFields n) s).map fun t => (.obj (fieldsOf t.1), t.2)
          else if c = unit 'n' then readWord "ull" .null s
          else if c = unit 't' then readWord "rue" (.bool true) s
          else if c = unit 'f' then readWord "alse" (.bool false) s
          else (readNumber (c :: s)).map fun t => (.num t.1, t.2)

/-- The items of an array up to its closing bracket. -/
def readItems : ℕ → Units → Option (List JsValue × Units)
  | 0, _ => none
  | n + 1, s => do
      let (v, s) ← readValue n s
      readMore ']' (readItems n) v s

/-- The fields of an object up to its closing brace. -/
def readFields : ℕ → Units → Option (List (Units × JsValue) × Units)
  | 0, _ => none
  | n + 1, s => do
      let s ← readUnit '"' s
      let (k, s) ← readString s
      let s ← readUnit ':' s
      let (v, s) ← readValue n s
      readMore '\x7d' (readFields n) (k, v) s

end

/-- `JSON.parse`; nothing where the text is not JSON. -/
def parse (s : Units) : Option JsValue :=
  match readValue (2 * s.length + 1) s with
  | none => none
  | some (v, rest) => if skipWhite rest = [] then some v else none

end JsonText

end Library
end GateControl
