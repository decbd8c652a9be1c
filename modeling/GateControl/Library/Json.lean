import Mathlib.Data.Rat.Defs
import GateControl.Library.Text

/-!
# Json — parsed JSON values

The fields of an object stand in the order in which they are enumerated.  A number is a rational,
or the infinity that a literal out of range is parsed to.
-/

namespace GateControl
namespace Library

inductive Json
  | null
  | bool (b : Bool)
  | num (q : ℚ)
  | infinity (negative : Bool)
  | str (s : Text)
  | arr (items : List Json)
  | obj (fields : List (Text × Json))

namespace Json

/-- The value of a field; `null` where there is none. -/
def field (k : String) : Json → Json
  | .obj fields => (fields.lookup k.toList).getD .null
  | _ => .null

/-- The value of a field, if there is one. -/
def get? (k : String) : Json → Option Json
  | .obj fields => fields.lookup k.toList
  | _ => none

/-- The number, if it is a whole one. -/
def int? : Json → Option Int
  | .num q => if q.den = 1 then some q.num else none
  | _ => none

/-- The items of an array; none for anything else. -/
def items : Json → List Json
  | .arr xs => xs
  | _ => []

/-- The fields of an object; none for anything else. -/
def fields : Json → List (Text × Json)
  | .obj fs => fs
  | _ => []

def isObj : Json → Bool
  | .obj _ => true
  | _ => false

def str? : Json → Option Text
  | .str s => some s
  | _ => none

def isTrue : Json → Bool
  | .bool b => b
  | _ => false

def isFalse : Json → Bool
  | .bool b => !b
  | _ => false

/-- Whether the value is this text. -/
def isText (j : Json) (s : String) : Bool := j.str? = some s.toList

end Json

end Library
end GateControl
