import GateControl.Library.JsonText
import GateControl.Library.RoseTree
import GateControl.Library.Search

/-!
# Xml — the answers of a camera

A small reader for the XML that cameras send.  It drops the prefixes of names, knows the five
standard entities and character references, and refuses a document type.  An end tag closes all
elements up to the one it names, and one that names none of them is passed over.

The texts are read from left to right, one piece of markup with the text in front of it at a time.
The elements that are open stand on a stack, whose lowest is the root.
-/

namespace GateControl
namespace Cameras
namespace Xml

open Library
open Library.JsonText (isDigitUnit digitsNumber hexValue?)

def maxDepth : Nat := 64

def maxNodes : Nat := 20000

inductive XmlError
  | unterminatedComment
  | unterminatedCdata
  | dtdNotAllowed
  | unterminatedDeclaration
  | unterminatedTag
  | badTag
  | tooManyNodes
  | tooDeep
  deriving DecidableEq

def XmlError.message : XmlError → String
  | unterminatedComment => "unterminated comment"
  | unterminatedCdata => "unterminated cdata"
  | dtdNotAllowed => "dtd not allowed"
  | unterminatedDeclaration => "unterminated declaration"
  | unterminatedTag => "unterminated tag"
  | badTag => "bad tag"
  | tooManyNodes => "too many nodes"
  | tooDeep => "too deep"

def XmlError.code (_ : XmlError) : String := "bad_xml"

/-- A node without its children. -/
structure Element where
  name : Units
  attrs : OrderedMap Units Units
  text : Units
  deriving DecidableEq

abbrev Node := RoseTree Element

/-! ## Names -/

def isNameStart (c : CodeUnit) : Bool :=
  (unit 'A' ≤ c && c ≤ unit 'Z') || (unit 'a' ≤ c && c ≤ unit 'z') || c = unit '_'

def isNameUnit (c : CodeUnit) : Bool :=
  isNameStart c || isDigitUnit c || c = unit '.' || c = unit ':' || c = unit '-'

/-- `[A-Za-z_][\w.:-]*` at the front of a text, and what follows. -/
def readName (s : Units) : Option (Units × Units) :=
  if s.head?.any isNameStart then some (s.takeWhile isNameUnit, s.dropWhile isNameUnit) else none

/-- The name behind its prefix; `local` in the source. -/
def localName (name : Units) : Units :=
  match cut [unit ':'] name with
  | none => name
  | some (_, behind) => behind

/-- White space and line terminators are code units of their own. -/
def isSpaceUnit (c : CodeUnit) : Bool := isTrimmed (Char.ofNat c.val)

def trimUnits (s : Units) : Units :=
  ((s.dropWhile isSpaceUnit).reverse.dropWhile isSpaceUnit).reverse

/-! ## Entities -/

def entities : List (Units × CodeUnit) :=
  [(units "lt".toList, unit '<'), (units "gt".toList, unit '>'), (units "amp".toList, unit '&'),
    (units "quot".toList, unit '"'), (units "apos".toList, unit '\'')]

/-- `String.fromCodePoint`. -/
def fromCodePoint (n : Nat) : Units :=
  if n < 0x10000 then [unitOf n]
  else [unitOf (0xd800 + (n - 0x10000) / 0x400), unitOf (0xdc00 + (n - 0x10000) % 0x400)]

def characterOf (n : Nat) : Units := if 0 < n ∧ n ≤ 0x10ffff then fromCodePoint n else []

def hexNumber (s : Units) : Nat := s.foldl (fun n c => 16 * n + (hexValue? c).getD 0) 0

def isLowerUnit (c : CodeUnit) : Bool := unit 'a' ≤ c && c ≤ unit 'z'

/-- So many code units of a kind, and a semicolon. -/
def readRun (least most : Nat) (kind : CodeUnit → Bool) (s : Units) : Option (Units × Units) :=
  let run := s.takeWhile kind
  match s.dropWhile kind with
  | [] => none
  | c :: s => if least ≤ run.length ∧ run.length ≤ most ∧ c = unit ';' then some (run, s) else none

/-- What a reference behind its `&` stands for, and what follows it. -/
def readReference (s : Units) : Option (Units × Units) :=
  if (units "#x".toList).isPrefixOf s then
    (readRun 1 6 (fun c => (hexValue? c).isSome) (s.drop 2)).map fun t =>
      (characterOf (hexNumber t.1), t.2)
  else if (units "#".toList).isPrefixOf s then
    (readRun 1 7 isDigitUnit (s.drop 1)).map fun t => (characterOf (digitsNumber t.1), t.2)
  else
    (readRun 2 4 isLowerUnit s).map fun t =>
      match OrderedMap.find t.1 entities with
      | some c => ([c], t.2)
      -- other names stay as they are
      | none => (unit '&' :: (t.1 ++ [unit ';']), t.2)

theorem length_of_readRun {least most : Nat} {kind : CodeUnit → Bool} {s run rest : Units}
    (h : readRun least most kind s = some (run, rest)) : rest.length < s.length := by
  have hle := (List.dropWhile_suffix (l := s) kind).length_le
  rw [readRun] at h
  split at h
  · cases h
  · rename_i hdrop
    split at h
    · cases h
      rw [hdrop] at hle
      exact hle
    · cases h

theorem length_of_readReference {s t rest : Units} (h : readReference s = some (t, rest)) :
    rest.length < s.length := by
  rw [readReference] at h
  split at h
  · obtain ⟨⟨run, rest'⟩, hrun, heq⟩ := Option.map_eq_some_iff.1 h
    cases heq
    exact Nat.lt_of_lt_of_le (length_of_readRun hrun) (List.drop_suffix _ _).length_le
  · split at h
    · obtain ⟨⟨run, rest'⟩, hrun, heq⟩ := Option.map_eq_some_iff.1 h
      cases heq
      exact Nat.lt_of_lt_of_le (length_of_readRun hrun) (List.drop_suffix _ _).length_le
    · obtain ⟨⟨run, rest'⟩, hrun, heq⟩ := Option.map_eq_some_iff.1 h
      have hlt := length_of_readRun hrun
      split at heq <;> cases heq <;> exact hlt

/-- A text with its references replaced. -/
def decode : Units → Units
  | [] => []
  | c :: s =>
      if c = unit '&' then
        match h : readReference s with
        | none => c :: decode s
        | some (t, rest) =>
            have := length_of_readReference h
            t ++ decode rest
      else c :: decode s
  termination_by s => s.length

/-! ## Attributes -/

/-- A quoted value behind a `=`; there may be white space before and after it. -/
def readValue (s : Units) : Option (Units × Units) :=
  match s.dropWhile isSpaceUnit with
  | [] => none
  | c :: s =>
      if c = unit '=' then
        match s.dropWhile isSpaceUnit with
        | [] => none
        | q :: s => if q = unit '"' ∨ q = unit '\'' then cut [q] s else none
      else none

/-- A match of `ATTR_RE` at the front of a text. -/
def readAttr (s : Units) : Option ((Units × Units) × Units) :=
  (readName s).bind fun n => (readValue n.2).map fun v => ((n.1, v.1), v.2)

theorem length_of_readName {s name rest : Units} (h : readName s = some (name, rest)) :
    rest.length ≤ s.length := by
  rw [readName] at h
  split at h
  · cases h
    exact (List.dropWhile_suffix (l := s) isNameUnit).length_le
  · cases h

theorem length_of_readValue {s value rest : Units} (h : readValue s = some (value, rest)) :
    rest.length < s.length := by
  have hle := (List.dropWhile_suffix (l := s) isSpaceUnit).length_le
  rw [readValue] at h
  split at h
  · cases h
  · rename_i c t hdrop
    rw [hdrop, List.length_cons] at hle
    have hle' := (List.dropWhile_suffix (l := t) isSpaceUnit).length_le
    split at h
    · split at h
      · cases h
      · rename_i q u hdrop'
        rw [hdrop', List.length_cons] at hle'
        split at h
        · have hlength := length_of_cut h
          omega
        · cases h
    · cases h

theorem length_of_readAttr {s rest : Units} {a : Units × Units}
    (h : readAttr s = some (a, rest)) : rest.length < s.length := by
  obtain ⟨⟨name, behind⟩, hname, hmap⟩ := Option.bind_eq_some_iff.1 h
  obtain ⟨⟨value, rest'⟩, hvalue, heq⟩ := Option.map_eq_some_iff.1 hmap
  cases heq
  calc rest'.length < behind.length := length_of_readValue hvalue
    _ ≤ s.length := length_of_readName hname

/-- All matches, each behind the one before. -/
def readAttrs : Units → List (Units × Units)
  | [] => []
  | c :: s =>
      match h : readAttr (c :: s) with
      | none => readAttrs s
      | some (a, rest) =>
          have : rest.length < s.length + 1 := length_of_readAttr h
          a :: readAttrs rest
  termination_by s => s.length

def xmlnsName : Units := units "xmlns".toList

def protoKey : Units := units "__proto__".toList

def isDeclaration (key : Units) : Bool :=
  key = xmlnsName || (xmlnsName ++ [unit ':']).isPrefixOf key

def setAttr (attrs : OrderedMap Units Units) (a : Units × Units) : OrderedMap Units Units :=
  if isDeclaration a.1 then attrs
  -- this key is the prototype of an object, and a text is none
  else if localName a.1 = protoKey then attrs
  else attrs.set (localName a.1) (decode a.2)

/-! ## Markup -/

inductive Markup
  | comment
  | cdata (text : Units)
  | declaration
  | endTag (name : Units)
  | startTag (element : Element) (selfClose : Bool)

/-- What stands between the `<` and the `>` of a tag. -/
def tagOf (raw : Units) : Except XmlError Markup :=
  if raw.head? = some (unit '/') then .ok (.endTag (localName (trimUnits raw.tail)))
  else
    let selfClose : Bool := raw.getLast? = some (unit '/')
    let body := if selfClose then raw.dropLast else raw
    match readName body with
    | none => .error .badTag
    | some (name, rest) =>
        .ok (.startTag ⟨localName name, (readAttrs rest).foldl setAttr .empty, []⟩ selfClose)

/-- Markup that goes on up to a pattern. -/
def readUpTo (pattern : String) (e : XmlError) (s : Units) : Except XmlError (Units × Units) :=
  match cut (units pattern.toList) s with
  | none => .error e
  | some t => .ok t

def startsWith (pattern : String) (s : Units) : Bool := (units pattern.toList).isPrefixOf s

/-- The markup behind a `<`, and what follows it. -/
def readMarkup (s : Units) : Except XmlError (Markup × Units) :=
  if startsWith "!--" s then
    (readUpTo "-->" .unterminatedComment (s.drop 3)).map fun t => (.comment, t.2)
  else if startsWith "![CDATA[" s then
    (readUpTo "]]>" .unterminatedCdata (s.drop 8)).map fun t => (.cdata t.1, t.2)
  else if startsWith "!" s then .error .dtdNotAllowed
  else if startsWith "?" s then
    (readUpTo "?>" .unterminatedDeclaration (s.drop 1)).map fun t => (.declaration, t.2)
  else
    (readUpTo ">" .unterminatedTag s).bind fun t => (tagOf t.1).map fun m => (m, t.2)

/-! ## The reader -/

structure Reader where
  opened : OpenTree Element
  nodes : Nat

namespace Reader

def start : Reader := ⟨⟨.node ⟨units "#root".toList, .empty, []⟩ [], []⟩, 0⟩

/-- `stack.length`, with the root. -/
def stackLength (r : Reader) : Nat := r.opened.level + 1

def addText (t : Units) (r : Reader) : Reader :=
  { r with opened := r.opened.relabel fun e => { e with text := e.text ++ t } }

def apply (r : Reader) : Markup → Except XmlError Reader
  | .comment | .declaration => .ok r
  | .cdata t => .ok (r.addText t)
  | .endTag name => .ok { r with opened := r.opened.leave fun e => e.name = name }
  | .startTag e selfClose =>
      if r.nodes + 1 > maxNodes then .error .tooManyNodes
      else if selfClose then .ok ⟨r.opened.add (.node e []), r.nodes + 1⟩
      else if r.stackLength > maxDepth then .error .tooDeep
      else .ok ⟨r.opened.enter (.node e []), r.nodes + 1⟩

/-- One turn of the loop: a text, and the markup behind it if there is any. -/
def step (r : Reader) (s : Units) : Except XmlError (Reader × Units) :=
  match cut [unit '<'] s with
  | none => .ok (r.addText (decode s), [])
  | some (t, s) =>
      (readMarkup s).bind fun m => ((r.addText (decode t)).apply m.1).map fun r => (r, m.2)

theorem step_cases {r r' : Reader} {s s' : Units} (h : r.step s = .ok (r', s')) :
    (cut [unit '<'] s = none ∧ r' = r.addText (decode s) ∧ s' = []) ∨
      ∃ t behind m, cut [unit '<'] s = some (t, behind) ∧ readMarkup behind = .ok (m, s') ∧
        (r.addText (decode t)).apply m = .ok r' := by
  rw [step] at h
  split at h
  · rename_i hcut
    cases h
    exact .inl ⟨hcut, rfl, rfl⟩
  · rename_i t behind hcut
    cases hmarkup : readMarkup behind with
    | error e =>
        rw [hmarkup] at h
        cases h
    | ok m =>
        rw [hmarkup] at h
        cases happly : (r.addText (decode t)).apply m.1 with
        | error e =>
            rw [Except.bind, happly] at h
            cases h
        | ok r₁ =>
            rw [Except.bind, happly] at h
            cases h
            exact .inr ⟨t, behind, m.1, hcut, hmarkup, happly⟩

end Reader

theorem length_of_readUpTo {pattern : String} {e : XmlError} {s : Units} {t : Units × Units}
    (h : readUpTo pattern e s = .ok t) : t.2.length ≤ s.length := by
  rw [readUpTo] at h
  split at h
  · cases h
  · rename_i t' hcut
    cases h
    have hlength := length_of_cut hcut
    omega

theorem length_of_readMarkup {s rest : Units} {m : Markup} (h : readMarkup s = .ok (m, rest)) :
    rest.length ≤ s.length := by
  have hupTo : ∀ {pattern e t} {f : Units × Units → Markup} (n : Nat),
      (readUpTo pattern e (s.drop n)).map (fun t => (f t, t.2)) = .ok t → t.2.length ≤ s.length := by
    intro pattern e t f n hmap
    cases hread : readUpTo pattern e (s.drop n) with
    | error e =>
        rw [hread] at hmap
        cases hmap
    | ok u =>
        rw [hread] at hmap
        cases hmap
        exact Nat.le_trans (length_of_readUpTo hread) (List.drop_suffix n s).length_le
  rw [readMarkup] at h
  split at h
  · exact hupTo 3 h
  split at h
  · exact hupTo 8 h
  split at h
  · cases h
  split at h
  · exact hupTo 1 h
  · cases hread : readUpTo ">" .unterminatedTag s with
    | error e =>
        rw [hread] at h
        cases h
    | ok t =>
        rw [hread, Except.bind] at h
        cases htag : tagOf t.1 with
        | error e =>
            rw [htag] at h
            cases h
        | ok m' =>
            rw [htag] at h
            cases h
            exact length_of_readUpTo hread

/-- Each turn takes something. -/
theorem Reader.length_of_step {r r' : Reader} {s s' : Units} (hs : s ≠ [])
    (h : r.step s = .ok (r', s')) : s'.length < s.length := by
  obtain ⟨-, -, rfl⟩ | ⟨t, behind, m, hcut, hmarkup, -⟩ := step_cases h
  · exact List.length_pos_iff.2 hs
  · have hmark := length_of_readMarkup hmarkup
    have hlength := length_of_cut hcut
    rw [List.length_singleton] at hlength
    omega

/-- The loop: one turn after the other, until the text is at its end. -/
def Reader.run (r : Reader) (s : Units) : Except XmlError Node :=
  if hs : s = [] then .ok r.opened.tree
  else
    match h : r.step s with
    | .error e => .error e
    | .ok (r', s') =>
        have := Reader.length_of_step hs h
        run r' s'
  termination_by s.length

/-- The root, with all that has been read below it. -/
def parse (s : Units) : Except XmlError Node := Reader.start.run s

end Xml
end Cameras
end GateControl
