import Mathlib.Data.List.Basic
import Mathlib.Data.List.Sort
import GateControl.Library.OrderedMap
import GateControl.Library.Text

/-!
# DomainSet — domain names, their hashes and the sets the filter looks them up in

Block lists are kept as sorted arrays of 53-bit hashes (`CompactList`), the small hand-written
pattern lists as sets of names (`PatternSet`).  Both are filled through `cleanDomain`.

Two functions of the JavaScript host have tables of their own, lower-casing beyond ASCII and the
conversion of internationalised names; they are the parameter `UnicodeHost`.
-/

namespace GateControl
namespace Dns

open Library

/-- The functions of the host that depend on Unicode tables. -/
structure UnicodeHost where
  /-- `toLowerCase` of a text that is not all ASCII. -/
  toLowerCase : Text → Text
  /-- `domainToASCII`; the empty text for a name that has no ASCII form. -/
  domainToASCII : Text → Text

/-- A host for texts in ASCII, which never reach its functions. -/
def UnicodeHost.ascii : UnicodeHost := ⟨fun s => s, fun s => s⟩

/-! ## Names -/

def lowerCase (host : UnicodeHost) (s : Text) : Text :=
  if s.all isAscii then s.map asciiLower else host.toLowerCase s

/-- What follows each dot of a name: `a.b.c` gives `b.c` and `c`. -/
def tails : Text → List Text
  | [] => []
  | c :: rest => if c = '.' then rest :: tails rest else tails rest

/-- All end pieces of a name, the name itself first. -/
def suffixes (name : Text) : List Text := name :: tails name

/-! ## Cleaning names -/

/-- `[a-z0-9_]` -/
def isLabelEdge (c : Char) : Bool := ('a' ≤ c && c ≤ 'z') || ('0' ≤ c && c ≤ '9') || c == '_'

def isLabelChar (c : Char) : Bool := isLabelEdge c || c == '-'

/-- `LABEL_RE`: `[a-z0-9_]([a-z0-9_-]{0,61}[a-z0-9_])?` -/
def labelOk : Text → Bool
  | [] => false
  | c :: rest =>
      isLabelEdge c &&
        match rest.getLast? with
        | none => true
        | some last =>
            rest.dropLast.length ≤ 61 && rest.dropLast.all isLabelChar && isLabelEdge last

def isIpv4Char (c : Char) : Bool := ('0' ≤ c && c ≤ '9') || c == '.'

/-- The checks of `cleanDomain` on the ASCII form of a name. -/
def checkLabels (s : Text) (allowSingleLabel : Bool) : Option Text :=
  -- an address, not a name (`+` in the pattern: a name is not empty here)
  if s.all isIpv4Char then none
  else
    let labels := s.splitOn '.'
    if !allowSingleLabel && labels.length < 2 then none
    else if labels.all labelOk then some s else none

/-- Lower case, without the final dot, in ASCII form, all labels valid. -/
def cleanDomain (host : UnicodeHost) (raw : Text) (allowSingleLabel : Bool) : Option Text :=
  let s := lowerCase host (trim raw)
  -- one final dot only
  let s := if s.getLast? = some '.' then s.dropLast else s
  if s = [] ∨ jsLength s > 253 then none
  else if s.all isAscii then checkLabels s allowSingleLabel
  else
    -- the length was checked before this, the labels are after it
    let s := host.domainToASCII s
    if s = [] then none else checkLabels s allowSingleLabel

/-! ## Hashes -/

/-- The two running 32-bit hashes. -/
structure HashState where
  h1 : UInt32
  h2 : UInt32
  deriving DecidableEq

def HashState.start : HashState := ⟨0x811c9dc5, 0x9747b28c⟩

def HashState.feed (h : HashState) (c : UInt32) : HashState :=
  let h2 := (h.h2 ^^^ c) * 0x5bd1e995
  ⟨(h.h1 ^^^ c) * 0x01000193, h2 ^^^ (h2 >>> 13)⟩

/-- The 53-bit number made of the two hashes. -/
def HashState.finish (h : HashState) : Nat :=
  let h2 := (h.h2 ^^^ (h.h2 >>> 15)) * 0x85ebca6b
  let h2 := h2 ^^^ (h2 >>> 16)
  (h.h1 &&& 0x1fffff).toNat * 4294967296 + h2.toNat

def hash53 (s : Text) : Nat := ((codeUnits s).foldl HashState.feed .start).finish

/-! ## Sorted hashes -/

/-- The search loop on `[lo, hi)`; each round halves the range, so `hi - lo` rounds are enough. -/
def lowerBoundLoop (a : List Nat) (v : Nat) : Nat → Nat → Nat → Nat
  | 0, lo, _ => lo
  | rounds + 1, lo, hi =>
      if lo < hi then
        let mid := (lo + hi) / 2
        if a.getD mid 0 < v then lowerBoundLoop a v rounds (mid + 1) hi
        else lowerBoundLoop a v rounds lo mid
      else lo

def lowerBound (a : List Nat) (v : Nat) : Nat := lowerBoundLoop a v a.length 0 a.length

def hasHash (a : List Nat) (v : Nat) : Bool :=
  let i := lowerBound a v
  i < a.length && a.getD i 0 == v

/-- A growing buffer of hashes: `buf.length` is its capacity, `n` the part in use. -/
structure HashBuilder where
  buf : List Nat
  n : Nat
  deriving DecidableEq

namespace HashBuilder

def new (initial : Nat) : HashBuilder := ⟨List.replicate initial 0, 0⟩

def addHash (b : HashBuilder) (h : Nat) : HashBuilder :=
  -- a full buffer doubles, and one of capacity 0 stays empty: `set` then has no effect
  let buf := if b.n = b.buf.length then b.buf ++ List.replicate b.buf.length 0 else b.buf
  ⟨buf.set b.n h, b.n + 1⟩

/-- Keep an element when it differs from the one before it. -/
def dropRepeats : Option Nat → List Nat → List Nat
  | _, [] => []
  | prev, x :: rest =>
      if prev = some x then dropRepeats (some x) rest else x :: dropRepeats (some x) rest

def finish (b : HashBuilder) : List Nat :=
  dropRepeats none ((b.buf.take b.n).mergeSort (· ≤ ·))

end HashBuilder

/-- A loaded list: `suffix` entries block a name and everything below it, `exact` entries only the
name itself, and `except` entries lift the blocks of this list. -/
structure CompactList where
  suffix : List Nat
  exact : List Nat
  except : List Nat
  deriving DecidableEq

namespace CompactList

def size (l : CompactList) : Nat := l.suffix.length + l.exact.length

/-- Look up a name by the hashes of all its end pieces, the whole name first. -/
def matchHashes (l : CompactList) (h : List Nat) : Bool :=
  -- an exception for any end piece of the name beats every block of the list
  if h.any (hasHash l.except) then false
  else if h.head?.any (hasHash l.exact) then true
  else h.any (hasHash l.suffix)

def matchesName (l : CompactList) (name : Text) : Bool :=
  l.matchHashes ((suffixes name).map hash53)

end CompactList

/-! ## Patterns -/

/-- Whether a pattern is for the names below a domain only. -/
def isWild (p : Text) : Bool := ['*', '.'].isPrefixOf p

/-- A small set of patterns: `incl` holds domains that stand for themselves and all names below
them, `sub` those that stand for the names below them only. -/
structure PatternSet where
  incl : OrderedSet Text
  sub : OrderedSet Text
  deriving DecidableEq

namespace PatternSet

def empty : PatternSet := ⟨OrderedMap.empty, OrderedMap.empty⟩

def add (host : UnicodeHost) (ps : PatternSet) (p : Text) : PatternSet :=
  let wild := isWild (trim p)
  match cleanDomain host (if wild then (trim p).drop 2 else p) false with
  -- an invalid pattern is left out
  | none => ps
  | some d =>
      if wild then { ps with sub := OrderedSet.add ps.sub d }
      else { ps with incl := OrderedSet.add ps.incl d }

def new (host : UnicodeHost) (patterns : List Text) : PatternSet := patterns.foldl (add host) empty

def size (ps : PatternSet) : Nat := OrderedMap.size ps.incl + OrderedMap.size ps.sub

def matchesName (ps : PatternSet) (name : Text) : Bool :=
  if ps.size = 0 then false
  else OrderedMap.has ps.incl name ||
    (tails name).any fun s => OrderedMap.has ps.incl s || OrderedMap.has ps.sub s

end PatternSet

end Dns
end GateControl
