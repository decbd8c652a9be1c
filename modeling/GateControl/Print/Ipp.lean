import GateControl.Library.PlainObject
import GateControl.Library.Utf8

/-!
# Ipp — the messages of the printing protocol

A message has a head and groups of attributes; an attribute has a tag, a name and values, where the
values behind the first have no name.  The decoder keeps the group, the last name and the collections
that are open.  Collections are objects of their own, which the values refer to.
-/

namespace GateControl
namespace Print
namespace Ipp

open Library

namespace Tag

def unsupported : UInt8 := 0x10
def unknown : UInt8 := 0x12
def noValue : UInt8 := 0x13
def integer : UInt8 := 0x21
def boolean : UInt8 := 0x22
def enum : UInt8 := 0x23
def dateTime : UInt8 := 0x31
def resolution : UInt8 := 0x32
def rangeOfInteger : UInt8 := 0x33
def begCollection : UInt8 := 0x34
def textWithLanguage : UInt8 := 0x35
def nameWithLanguage : UInt8 := 0x36
def endCollection : UInt8 := 0x37
def memberAttrName : UInt8 := 0x4a

end Tag

/-- `GROUP.end` -/
def groupEnd : UInt8 := 0x03

/-- The values of attributes.  A collection stands for an object that was made while decoding. -/
inductive Value where
  | null
  | int (n : Int)
  | bool (b : Bool)
  | text (s : Text)
  | range (lower upper : Int)
  | resolution (x y : Int) (units : UInt8)
  | collection (ref : Nat)
  deriving DecidableEq

namespace Value

def truthy : Value → Bool
  | null => false
  | int n => n ≠ 0
  | bool b => b
  | text s => s ≠ []
  | _ => true

end Value

/-! ## Encoding -/

/-- The tag, the name and the value, each with its length; `none` where a length does not fit into
its two bytes. -/
def field (tag : UInt8) (name : Text) (v : Bytes) : Option Bytes :=
  let n := utf8Bytes name
  if n.length < 65536 ∧ v.length < 65536 then
    some (tag :: (uint16BE n.length ++ n ++ (uint16BE v.length ++ v)))
  else none

def str (tag : UInt8) (name : Text) (value : Text) : Option Bytes := field tag name (utf8Bytes value)

def int (tag : UInt8) (name : Text) (value : Int) : Option Bytes :=
  if -2147483648 ≤ value ∧ value < 2147483648 then field tag name (int32BE value) else none

def bool (name : Text) (value : Bool) : Option Bytes :=
  field Tag.boolean name [if value then 1 else 0]

/-- A value of the kind that its tag says; nobody passes another one. -/
def encodeValue (tag : UInt8) (name : Text) : Value → Option Bytes
  | .int n => if tag = Tag.integer ∨ tag = Tag.enum then int tag name n else none
  | .bool b => if tag = Tag.boolean then bool name b else none
  | .text s =>
      if tag = Tag.integer ∨ tag = Tag.enum ∨ tag = Tag.boolean then none else str tag name s
  | _ => none

structure Attr where
  tag : UInt8
  name : Text
  values : List Value

/-- The values behind the first have an empty name. -/
def encodeAttr (a : Attr) : Option Bytes :=
  match a.values with
  | [] => some []
  | v :: vs => do
      let first ← encodeValue a.tag a.name v
      let rest ← vs.mapM (encodeValue a.tag [])
      pure (first ++ rest.flatten)

def encodeGroup (g : UInt8 × List Attr) : Option Bytes :=
  if g.2 = [] then some []
  else do
    let attrs ← g.2.mapM encodeAttr
    pure (g.1 :: attrs.flatten)

def encodeMessage (code requestId : Nat) (groups : List (UInt8 × List Attr)) : Option Bytes :=
  if code < 65536 then do
    let parts ← groups.mapM encodeGroup
    pure ([2, 0] ++ uint16BE code ++ uint32BE (requestId % 4294967296) ++ parts.flatten ++ [groupEnd])
  else none

/-! ## Decoding -/

/-- What is thrown: the error of the module, or one of the language. -/
inductive Failure where
  | ippError (code message : String)
  | typeError
  deriving DecidableEq

def badResponse (message : String) : Failure := .ippError "bad_response" message

def intOrNull (n : Option Int) : Value := n.elim .null .int

def readValue (tag : UInt8) (buf : Bytes) : Value :=
  if tag = Tag.integer ∨ tag = Tag.enum then
    if buf.length = 4 then intOrNull (readInt32BE buf 0) else .null
  else if tag = Tag.boolean then
    match buf with
    | [b] => .bool (b ≠ 0)
    | _ => .null
  else if tag = Tag.rangeOfInteger then
    if buf.length = 8 then
      match readInt32BE buf 0, readInt32BE buf 4 with
      | some lower, some upper => .range lower upper
      | _, _ => .null
    else .null
  else if tag = Tag.resolution then
    if buf.length = 9 then
      match readInt32BE buf 0, readInt32BE buf 4, buf[8]? with
      | some x, some y, some units => .resolution x y units
      | _, _, _ => .null
    else .null
  else if tag = Tag.dateTime then .null
  else if tag = Tag.textWithLanguage ∨ tag = Tag.nameWithLanguage then
    if buf.length < 4 then .null
    else
      let ll := (readUInt16BE buf 0).getD 0
      let tl := if 4 + ll ≤ buf.length then (readUInt16BE buf (2 + ll)).getD 0 else 0
      .text (utf8 (slice buf (4 + ll) (4 + ll + tl)))
  else if tag = Tag.unsupported ∨ tag = Tag.unknown ∨ tag = Tag.noValue then .null
  else .text (utf8 buf)

/-- What the decoder reads at a position: the begin of a group, or an attribute with the length of
its name. -/
inductive Item where
  | group (tag : UInt8)
  | attr (tag : UInt8) (nl : Nat) (name : Text) (raw : Bytes)

/-- A length of two bytes and as many bytes; where it ends. -/
def readCounted (buf : Bytes) (o : Nat) : Except Failure (Bytes × Nat) :=
  match readUInt16BE buf o with
  | none => .error (badResponse "truncated IPP response")
  | some n =>
      if o + 2 + n > buf.length then .error (badResponse "truncated IPP response")
      else .ok (slice buf (o + 2) (o + 2 + n), o + 2 + n)

/-- The item at `o`, which has the tag `tag`, and where the next one is. -/
def readItem (buf : Bytes) (o : Nat) (tag : UInt8) : Except Failure (Item × Nat) :=
  if tag < 0x10 then .ok (.group tag, o + 1)
  else do
    let (name, o) ← readCounted buf (o + 1)
    let (raw, o) ← readCounted buf o
    pure (.attr tag name.length (utf8 name) raw, o)

structure Group where
  tag : UInt8
  attrs : PlainObject Value

/-- A collection that is open, and the member its values go to. -/
structure Frame where
  obj : Nat
  member : Option Text

/-- `group` is the last of the groups, and `heap` are the objects that were made for collections. -/
structure State where
  done : List Group
  group : Option Group
  last : Option Text
  stack : List Frame
  heap : List (PlainObject Value)

namespace State

def start : State := ⟨[], none, none, [], []⟩

def groups (s : State) : List Group := s.done ++ s.group.toList

/-- `(top.obj[member] = top.obj[member] || []).push(v)` -/
def appendMember (s : State) (ref : Nat) (member : Text) (v : Value) : Except Failure State :=
  match s.heap[ref]? with
  | none => .ok s
  | some obj =>
      match obj.append Value.truthy member v with
      | none => .error .typeError
      | some obj => .ok { s with heap := s.heap.set ref obj }

/-- Replace the attributes of the group; `none` is a call of a method that is not there. -/
def setAttrs (s : State) (g : Group) (attrs : Option (PlainObject Value)) : Except Failure State :=
  match attrs with
  | none => .error .typeError
  | some attrs => .ok { s with group := some { g with attrs := attrs } }

def pushFrame (ref : Nat) (s : State) : State := { s with stack := ⟨ref, none⟩ :: s.stack }

/-- `tag === TAG.begCollection`; the head of the stack is its top. -/
def beginCollection (s : State) (g : Group) (nl : Nat) (name : Text) : Except Failure State :=
  if 8 ≤ s.stack.length then .error (badResponse "collections nested too deep")
  else
    let ref := s.heap.length
    let s := { s with heap := s.heap ++ [PlainObject.empty] }
    match s.stack with
    | top :: _ =>
        if nl ≠ 0 then .error (badResponse "named value inside a collection")
        else
          match top.member with
          | none => .error (badResponse "collection without member name")
          | some member =>
              if member = [] then .error (badResponse "collection without member name")
              else (s.appendMember top.obj member (.collection ref)).map (pushFrame ref)
    | [] =>
        if nl ≠ 0 then
          ({ s with last := some name }.setAttrs g
            (g.attrs.append Value.truthy name (.collection ref))).map (pushFrame ref)
        else
          match s.last with
          | some last =>
              (s.setAttrs g (g.attrs.push Value.truthy last (.collection ref))).map (pushFrame ref)
          | none => .ok (pushFrame ref s)

/-- A value inside a collection, or the name of its next member. -/
def memberValue (s : State) (top : Frame) (rest : List Frame) (tag : UInt8) (raw : Bytes) :
    Except Failure State :=
  if tag = Tag.memberAttrName then
    .ok { s with stack := { top with member := some (utf8 raw) } :: rest }
  else
    match top.member with
    | none => .ok s
    | some member =>
        if member = [] then .ok s else s.appendMember top.obj member (readValue tag raw)

/-- A value of an attribute of the group. -/
def groupValue (s : State) (g : Group) (tag : UInt8) (nl : Nat) (name : Text) (raw : Bytes) :
    Except Failure State :=
  if nl ≠ 0 then
    .ok { s with
      last := some name, group := some { g with attrs := g.attrs.assign name [readValue tag raw] } }
  else
    match s.last with
    | some last => s.setAttrs g (g.attrs.push Value.truthy last (readValue tag raw))
    | none => .ok s

/-- The body of the loop, once the item has been read. -/
def receive (s : State) : Item → Except Failure State
  | .group tag =>
      .ok { s with done := s.groups, group := some ⟨tag, PlainObject.empty⟩, last := none }
  | .attr tag nl name raw =>
      match s.group with
      | none => .error (badResponse "attribute outside a group")
      | some g =>
          if tag = Tag.begCollection then s.beginCollection g nl name
          else if tag = Tag.endCollection then .ok { s with stack := s.stack.tail }
          else
            match s.stack with
            | top :: rest => s.memberValue top rest tag raw
            | [] => s.groupValue g tag nl name raw

end State

/-- The objects that the values refer to are in `heap`. -/
structure Response where
  version : String
  status : Nat
  requestId : Nat
  groups : List Group
  heap : List (PlainObject Value)
  data : Option Bytes

/-- What the loop ends with. -/
structure Body where
  state : State
  data : Option Bytes

theorem readCounted_lt {buf : Bytes} {o o' : Nat} {bs : Bytes}
    (h : readCounted buf o = .ok (bs, o')) : o < o' ∧ o' ≤ buf.length := by
  rw [readCounted] at h
  split at h
  · cases h
  · split at h
    · cases h
    · next hle =>
        obtain ⟨-, rfl⟩ := Prod.mk.inj (Except.ok.inj h)
        omega

theorem readItem_lt {buf : Bytes} {o o' : Nat} {tag : UInt8} {item : Item}
    (h : readItem buf o tag = .ok (item, o')) : o < o' := by
  rw [readItem] at h
  split at h
  · obtain ⟨-, rfl⟩ := Prod.mk.inj (Except.ok.inj h)
    exact Nat.lt_succ_self o
  · cases hname : readCounted buf (o + 1) with
    | error e =>
        simp [hname, bind, Except.bind] at h
    | ok r =>
        cases hraw : readCounted buf r.2 with
        | error e =>
            simp [hname, hraw, bind, Except.bind] at h
        | ok r' =>
            simp only [hname, hraw, bind, Except.bind, pure, Except.pure, Except.ok.injEq,
              Prod.mk.injEq] at h
            have h1 := (readCounted_lt hname).1
            have h2 := (readCounted_lt hraw).1
            omega

/-- The loop of `decodeResponse`. -/
def decodeFrom (buf : Bytes) (o : Nat) (s : State) : Except Failure Body :=
  if hlt : o < buf.length then
    if buf[o] = groupEnd then .ok ⟨s, some (slice buf (o + 1) buf.length)⟩
    else
      match hitem : readItem buf o buf[o] with
      | .error e => .error e
      | .ok (item, o') =>
          match s.receive item with
          | .error e => .error e
          | .ok s => decodeFrom buf o' s
  else .ok ⟨s, none⟩
termination_by buf.length - o
decreasing_by
  have := readItem_lt hitem
  omega

def decodeResponse (buf : Bytes) : Except Failure Response :=
  match buf[0]?, buf[1]?, readUInt16BE buf 2, readUInt32BE buf 4, buf[8]? with
  | some major, some minor, some status, some requestId, some _ => do
      let body ← decodeFrom buf 8 State.start
      pure ⟨toString major.toNat ++ "." ++ toString minor.toNat, status, requestId, body.state.groups,
        body.state.heap, body.data⟩
  | _, _, _, _, _ => .error (badResponse "short IPP response")

end Ipp
end Print
end GateControl
