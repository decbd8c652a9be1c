import GateControl.Library.Json
import GateControl.Library.JsonText

/-!
# JsonDecode — the value of a JSON text over characters

What `JSON.parse` returns, with its strings as sequences of characters.  A half of a surrogate pair
that stands alone has no character; it becomes the replacement character.
-/

namespace GateControl
namespace Library

open JsonText

/-- The character of a code unit that is not part of a pair. -/
def loneChar (c : CodeUnit) : Char :=
  if isLead c || isTrail c then Char.ofNat 0xfffd else Char.ofNat c.val

/-- The character of a surrogate pair. -/
def pairChar (c d : CodeUnit) : Char :=
  Char.ofNat (0x10000 + (c.val - 0xd800) * 0x400 + (d.val - 0xdc00))

def decodeUnits : Units → Text
  | [] => []
  | [c] => [loneChar c]
  | c :: d :: s =>
      if isLead c && isTrail d then pairChar c d :: decodeUnits s
      else loneChar c :: decodeUnits (d :: s)

def JsNumber.toJson : JsNumber → Json
  | .finite d => .num d.val
  | .negZero => .num 0
  | .infinity negative => .infinity negative
  -- no text stands for it
  | .nan => .null

mutual

/-- The value over characters; `undefined` is in no text. -/
def JsValue.toJson : JsValue → Json
  | .undefined => .null
  | .null => .null
  | .bool b => .bool b
  | .num x => x.toJson
  | .str s => .str (decodeUnits s)
  | .arr items => .arr (jsonItems items)
  | .obj fields => .obj (jsonFields fields)

def jsonItems : List JsValue → List Json
  | [] => []
  | v :: vs => v.toJson :: jsonItems vs

def jsonFields : List (Units × JsValue) → List (Text × Json)
  | [] => []
  | (k, v) :: fs => (decodeUnits k, v.toJson) :: jsonFields fs

end

/-- `JSON.parse`; nothing where the text is not JSON. -/
def Json.parse (s : Units) : Option Json := (JsonText.parse s).map JsValue.toJson

end Library
end GateControl
