import Mathlib.Data.List.Basic
import GateControl.Dns.DomainSet
import GateControl.Library.Bytes

/-!
# ListParser — reading block lists from a stream of byte chunks

The parser works on ranges `[s, e)` of a buffer and never copies a line that lies inside one chunk,
so that some of its tests look at bytes behind the line.  Lines that straddle chunks are collected
in `rest`; a line of more than `maxLine` bytes is discarded up to its end.

Entries are handed to a callback `add`, which throws once there are too many.  The functions that
read lines are therefore written for an arbitrary monad.
-/

namespace GateControl
namespace Dns

open Library

inductive Format
  | domains
  | hosts
  | adblock
  deriving DecidableEq, Repr

/-- What an entry of a list does. -/
inductive Kind
  | suffix
  | exact
  | except
  deriving DecidableEq, Repr

def maxLine : Nat := 1024

def nl : UInt8 := 0x0a

/-! ## Buffers -/

/-- The first position of `c` from `s` on. -/
def indexOf (buf : Bytes) (c : UInt8) (s : Nat) : Option Nat :=
  ((buf.drop s).findIdx? (· == c)).map (s + ·)

/-! ## Domains in a buffer -/

def isSpace (c : UInt8) : Bool := c == 0x20 || c == 0x09 || c == 0x0d || c == 0x0b || c == 0x0c

def isAlnum (c : UInt8) : Bool := (0x61 ≤ c && c ≤ 0x7a) || (0x30 ≤ c && c ≤ 0x39)

/-- Why `hashDomainBytes` gives no hash: the name is invalid, or has to be read the slow way. -/
inductive NoHash
  | invalid
  | nonAscii
  deriving DecidableEq

structure DomainScan where
  hash : HashState
  labelLen : Nat
  dots : Nat
  prev : UInt8
  alpha : Bool

def DomainScan.start : DomainScan := ⟨.start, 0, 0, 0x2e, false⟩

/-- One byte of a domain. -/
def DomainScan.feed (d : DomainScan) (c : UInt8) : Except NoHash DomainScan :=
  if c ≥ 0x80 then .error .nonAscii
  else
    let c := if 0x41 ≤ c && c ≤ 0x5a then c + 32 else c
    if c = 0x2e then
      -- an empty label, or one that ends with a hyphen
      if d.labelLen = 0 || d.prev = 0x2d then .error .invalid
      else .ok ⟨d.hash.feed c.toUInt32, 0, d.dots + 1, c, d.alpha⟩
    else if isAlnum c || c = 0x5f || (c = 0x2d && d.labelLen > 0) then
      if d.labelLen + 1 > 63 then .error .invalid
      else .ok ⟨d.hash.feed c.toUInt32, d.labelLen + 1, d.dots, c, d.alpha || c > 0x39⟩
    else .error .invalid

/-- The loop over the `n` bytes from `i` on. -/
def scanDomain (buf : Bytes) : Nat → Nat → DomainScan → Except NoHash DomainScan
  | 0, _, d => .ok d
  | n + 1, i, d =>
      match buf[i]? with
      -- the ranges end inside the buffer, so there is a byte
      | none => .error .invalid
      | some c =>
          match d.feed c with
          | .error r => .error r
          | .ok d => scanDomain buf n (i + 1) d

/-- Check and hash the domain in `[s, e)`. -/
def hashDomainBytes (buf : Bytes) (s e : Nat) : Except NoHash Nat :=
  -- a final dot is not part of the name
  let e := if e > s ∧ buf[e - 1]? = some 0x2e then e - 1 else e
  let len := e - s
  if len < 3 ∨ len > 253 then .error .invalid
  else
    match scanDomain buf len s .start with
    | .error r => .error r
    | .ok d =>
        -- without a letter it is an IPv4 address
        if d.labelLen = 0 || d.prev = 0x2d || d.dots = 0 || !d.alpha then .error .invalid
        else .ok d.hash.finish

def domainHash (host : UnicodeHost) (buf : Bytes) (s e : Nat) : Option Nat :=
  match hashDomainBytes buf s e with
  | .ok h => some h
  | .error .invalid => none
  -- rare in practice: the name is decoded and cleaned as any other
  | .error .nonAscii => (cleanDomain host (utf8 (slice buf s e)) false).map hash53

def isIpChar (b : UInt8) : Bool :=
  let c := b ||| 0x20
  (0x30 ≤ c && c ≤ 0x39) || c == 0x2e || c == 0x3a || (0x61 ≤ c && c ≤ 0x66)

def isIpToken (buf : Bytes) (s e : Nat) : Bool :=
  if e - s < 2 ∨ e - s > 39 then false else (slice buf s e).all isIpChar

/-! ## Lines -/

def isSpaceAt (buf : Bytes) (i : Nat) : Bool := (buf[i]?).any isSpace

/-- `while (s < e && isSpace(buf[s])) s++`, with `n = e - s`. -/
def skipSpaces (buf : Bytes) : Nat → Nat → Nat
  | 0, s => s
  | n + 1, s => if isSpaceAt buf s then skipSpaces buf n (s + 1) else s

/-- `while (p < e && !isSpace(buf[p])) p++`, with `n = e - p`. -/
def skipToken (buf : Bytes) : Nat → Nat → Nat
  | 0, p => p
  | n + 1, p => if isSpaceAt buf p then p else skipToken buf n (p + 1)

/-- `while (e > s && isSpace(buf[e - 1])) e--` -/
def trimEnd (buf : Bytes) (s : Nat) : Nat → Nat
  | 0 => 0
  | e + 1 => if s < e + 1 && isSpaceAt buf e then trimEnd buf s e else e + 1

theorem le_skipSpaces (buf : Bytes) (n s : Nat) : s ≤ skipSpaces buf n s := by
  induction n generalizing s with
  | zero =>
      exact Nat.le_refl s
  | succ n ih =>
      simp only [skipSpaces]
      split
      · exact Nat.le_of_succ_le (ih (s + 1))
      · exact Nat.le_refl s

theorem le_skipToken (buf : Bytes) (n p : Nat) : p ≤ skipToken buf n p := by
  induction n generalizing p with
  | zero =>
      exact Nat.le_refl p
  | succ n ih =>
      simp only [skipToken]
      split
      · exact Nat.le_refl p
      · exact Nat.le_of_succ_le (ih (p + 1))

theorem skipSpaces_le (buf : Bytes) (n s : Nat) : skipSpaces buf n s ≤ s + n := by
  induction n generalizing s with
  | zero =>
      exact Nat.le_refl s
  | succ n ih =>
      simp only [skipSpaces]
      split
      · have := ih (s + 1)
        omega
      · omega

theorem skipToken_le (buf : Bytes) (n p : Nat) : skipToken buf n p ≤ p + n := by
  induction n generalizing p with
  | zero =>
      exact Nat.le_refl p
  | succ n ih =>
      simp only [skipToken]
      split
      · omega
      · have := ih (p + 1)
        omega

theorem trimEnd_le (buf : Bytes) (s e : Nat) : trimEnd buf s e ≤ e := by
  induction e with
  | zero =>
      exact Nat.le_refl 0
  | succ e ih =>
      simp only [trimEnd]
      split
      · omega
      · exact Nat.le_refl _

/-- A round of the host loop passes at least one byte. -/
theorem lt_skipToken_skipSpaces (buf : Bytes) {p e : Nat} (h : p < e) :
    p < skipToken buf (e - skipSpaces buf (e - p) p) (skipSpaces buf (e - p) p) := by
  obtain ⟨n, hn⟩ : ∃ n, e - p = n + 1 := ⟨e - p - 1, by omega⟩
  by_cases hs : isSpaceAt buf p
  · have h1 : p + 1 ≤ skipSpaces buf (e - p) p := by
      simpa [hn, skipSpaces, hs] using le_skipSpaces buf n (p + 1)
    exact Nat.lt_of_lt_of_le h1 (le_skipToken buf _ _)
  · have h1 : skipSpaces buf (e - p) p = p := by
      simp [hn, skipSpaces, hs]
    have h2 : skipToken buf (e - p) p = skipToken buf n (p + 1) := by
      simp [hn, skipToken, hs]
    simp only [h1, h2]
    exact le_skipToken buf n (p + 1)

def hostsSkip : List Nat :=
  ["localhost.localdomain", "local.localdomain", "ip6-localhost.localdomain"].map
    fun s => hash53 s.toList

def adblockOpts : List Text := ["", "$important", "$all", "$document"].map String.toList

section Lines

variable {m : Type → Type} [Monad m] (host : UnicodeHost) (add : Kind → Nat → m Unit)

/-- The names of a line of a hosts file, from `p` on. -/
def hostNames (buf : Bytes) (e p : Nat) (any : Bool) : m Bool :=
  if h : p < e then
    let t := skipSpaces buf (e - p) p
    let p' := skipToken buf (e - t) t
    have : e - p' < e - p := Nat.sub_lt_sub_left h (lt_skipToken_skipSpaces buf h)
    if p' > t then
      match domainHash host buf t p' with
      | some h =>
          -- the names of the machine itself are compared by their hash
          if hostsSkip.contains h then hostNames buf e p' any
          else do
            add .exact h
            hostNames buf e p' true
      | none => hostNames buf e p' any
    else hostNames buf e p' any
  else pure any
  termination_by e - p

def addDomain (kind : Kind) (buf : Bytes) (s e : Nat) : m Bool :=
  match domainHash host buf s e with
  | none => pure false
  | some h => do
      add kind h
      pure true

/-- A rule `||domain^` from `p` on. -/
def parseRule (kind : Kind) (buf : Bytes) (p e : Nat) : m Bool :=
  if buf[p]? ≠ some 0x7c ∨ buf[p + 1]? ≠ some 0x7c then pure false
  else
    let p := p + 2
    -- searched in the whole buffer, behind the line too
    match indexOf buf 0x5e p with
    | none => pure false
    | some caret =>
        if caret ≥ e then pure false
        else if adblockOpts.contains (latin1 (slice buf (caret + 1) e)) then
          addDomain host add kind buf p caret
        else pure false

/-- A rule, an exception `@@||domain^`, or a comment. -/
def parseAdblock (buf : Bytes) (s e : Nat) : m Bool :=
  if buf[s]? = some 0x21 ∨ buf[s]? = some 0x5b ∨ buf[s]? = some 0x23 then pure false
  else if buf[s]? = some 0x40 ∧ buf[s + 1]? = some 0x40 then
    parseRule host add .except buf (s + 2) e
  else parseRule host add .suffix buf s e

/-- The end of a line after a comment has been cut off. -/
def cutComment (buf : Bytes) (s e : Nat) : Nat :=
  match indexOf buf 0x23 s with
  | none => e
  | some hashPos => if hashPos < e then trimEnd buf s hashPos else e

theorem cutComment_le (buf : Bytes) (s e : Nat) : cutComment buf s e ≤ e := by
  simp only [cutComment]
  split
  · exact Nat.le_refl e
  · rename_i hashPos _
    have := trimEnd_le buf s hashPos
    split <;> omega

def parseHosts (buf : Bytes) (s e : Nat) : m Bool :=
  let p := skipToken buf (e - s) s
  if isIpToken buf s p then hostNames host add buf e p false else pure false

def parseDomain (buf : Bytes) (s e : Nat) : m Bool :=
  if (slice buf s e).any isSpace then pure false
  else
    let s :=
      -- `*.domain` and `.domain` are the domain with its subdomains, as every entry here is
      if buf[s]? = some 0x2a ∧ buf[s + 1]? = some 0x2e then s + 2
      else if buf[s]? = some 0x2e then s + 1
      else s
    addDomain host add .suffix buf s e

/-- The line in `[s, e)`; the result says whether it has an entry. -/
def parseLineBytes (format : Format) (buf : Bytes) (s e : Nat) : m Bool :=
  let s := skipSpaces buf (e - s) s
  let e := trimEnd buf s e
  if s ≥ e then pure false
  else
    match format with
    | .adblock => parseAdblock host add buf s e
    | .hosts =>
        if buf[s]? = some 0x23 ∨ buf[s]? = some 0x21 then pure false
        else parseHosts host add buf s (cutComment buf s e)
    | .domains =>
        if buf[s]? = some 0x23 ∨ buf[s]? = some 0x21 then pure false
        else parseDomain host add buf s (cutComment buf s e)

end Lines

/-! ## Streams -/

/-- What is left of the stream read so far: a begun line, or the fact that the line is too long. -/
structure Pending where
  rest : Option Bytes
  overlong : Bool
  deriving DecidableEq

theorem indexOf_eq_some {buf : Bytes} {c : UInt8} {s i : Nat} :
    indexOf buf c s = some i ↔
      s ≤ i ∧ buf[i]? = some c ∧ ∀ k, s ≤ k → k < i → buf[k]? ≠ some c := by
  simp only [indexOf, Option.map_eq_some_iff, List.findIdx?_eq_some_iff_getElem,
    List.length_drop, List.getElem_drop, beq_iff_eq]
  constructor
  · rintro ⟨j, ⟨hj, hc, hbefore⟩, rfl⟩
    refine ⟨by omega, List.getElem?_eq_some_iff.2 ⟨by omega, hc⟩, ?_⟩
    intro k hk hlt hget
    rcases List.getElem?_eq_some_iff.1 hget with ⟨hkl, hkc⟩
    refine hbefore (k - s) (by omega) ?_
    simpa [Nat.add_sub_cancel' hk] using hkc
  · rintro ⟨hs, hget, hbefore⟩
    rcases List.getElem?_eq_some_iff.1 hget with ⟨hil, hic⟩
    refine ⟨i - s, ⟨by omega, ?_, ?_⟩, by omega⟩
    · simpa [Nat.add_sub_cancel' hs] using hic
    · intro k hk hkc
      exact hbefore (s + k) (by omega) (by omega) (List.getElem?_eq_some_iff.2 ⟨by omega, hkc⟩)

theorem indexOf_eq_none {buf : Bytes} {c : UInt8} {s : Nat} :
    indexOf buf c s = none ↔ c ∉ buf.drop s := by
  simp only [indexOf, Option.map_eq_none_iff, List.findIdx?_eq_none_iff, beq_eq_false_iff_ne]
  exact ⟨fun h hc => h c hc rfl, fun h x hx hxc => h (hxc ▸ hx)⟩

theorem indexOf_bounds {buf : Bytes} {c : UInt8} {s i : Nat} (h : indexOf buf c s = some i) :
    s ≤ i ∧ i < buf.length := by
  rcases indexOf_eq_some.1 h with ⟨hs, hget, _⟩
  exact ⟨hs, (List.getElem?_eq_some_iff.1 hget).1⟩

section Stream

variable {m : Type → Type} [Monad m] (line : Bytes → Nat → Nat → m Unit) (skip : m Unit)

/-- A line of the chunk ends at `e`. -/
def endLine (chunk : Bytes) (s e : Nat) (p : Pending) : m Pending :=
  if p.overlong then do
    skip
    pure { p with overlong := false }
  else
    match p.rest with
    | some rest => do
        -- the only case in which bytes are copied
        let full := rest ++ slice chunk s e
        if full.length ≤ maxLine then line full 0 full.length else skip
        pure { p with rest := none }
    | none => do
        if e - s ≤ maxLine then line chunk s e else skip
        pure p

/-- The lines that end in the chunk; the position behind the last one. -/
def scanLines (chunk : Bytes) (s : Nat) (p : Pending) : m (Nat × Pending) :=
  match h : indexOf chunk nl s with
  | none => pure (s, p)
  | some e =>
      have : chunk.length - (e + 1) < chunk.length - s := by
        have := indexOf_bounds h
        omega
      do
        let p ← endLine line skip chunk s e p
        scanLines chunk (e + 1) p
  termination_by chunk.length - s

/-- Keep the begun line at the end of the chunk. -/
def keepTail (chunk : Bytes) (s : Nat) (p : Pending) : Pending :=
  if s < chunk.length && !p.overlong then
    let rest := p.rest.getD [] ++ chunk.drop s
    -- counted as skipped when its end comes, and not at all if it never does
    if rest.length > maxLine then ⟨none, true⟩ else ⟨some rest, p.overlong⟩
  else p

def readChunk (p : Pending) (chunk : Bytes) : m Pending := do
  let r ← scanLines line skip chunk 0 p
  pure (keepTail chunk r.1 r.2)

/-- All chunks, and the last line when the stream does not end with a line end. -/
def readStream (chunks : List Bytes) : m Unit := do
  let p ← chunks.foldlM (readChunk line skip) ⟨none, false⟩
  match p.rest with
  | some rest => if p.overlong then pure () else line rest 0 rest.length
  | none => pure ()

end Stream

/-! ## The parser -/

structure ListTooLarge where
  max : Nat
  deriving DecidableEq

def ListTooLarge.code (_ : ListTooLarge) : String := "too_many_entries"

def ListTooLarge.message (e : ListTooLarge) : String :=
  "list has more than " ++ toString e.max ++ " entries"

/-- The builders and counters of a run of the parser. -/
structure Parsing where
  suffix : HashBuilder
  exact : HashBuilder
  except : HashBuilder
  lines : Nat
  skipped : Nat
  total : Nat

abbrev ParseM := StateT Parsing (Except ListTooLarge)

def Parsing.addHash (b : Parsing) (kind : Kind) (h : Nat) : Parsing :=
  match kind with
  | .suffix => { b with suffix := b.suffix.addHash h }
  | .exact => { b with exact := b.exact.addHash h }
  | .except => { b with except := b.except.addHash h }

def addEntry (maxEntries : Nat) (kind : Kind) (h : Nat) : ParseM Unit := fun b =>
  let b := { b with total := b.total + 1 }
  -- doubles count here, while `ParsedList.entries` is what is left without them
  if b.total > maxEntries then .error ⟨maxEntries⟩ else .ok ((), b.addHash kind h)

def skipLine : ParseM Unit := modify fun b => { b with skipped := b.skipped + 1 }

/-- A line without an entry counts as skipped unless it is empty or a comment. -/
def isSkipped (buf : Bytes) (s e : Nat) : Bool :=
  let p := skipSpaces buf (e - s) s
  p < e && buf[p]? != some 0x23 && buf[p]? != some 0x21 && buf[p]? != some 0x5b

def readLine (host : UnicodeHost) (format : Format) (maxEntries : Nat) (buf : Bytes) (s e : Nat) :
    ParseM Unit := do
  modify fun b => { b with lines := b.lines + 1 }
  let found ← parseLineBytes host (addEntry maxEntries) format buf s e
  if !found && isSkipped buf s e then skipLine

structure ParsedList where
  list : CompactList
  entries : Nat
  lines : Nat
  skipped : Nat
  deriving DecidableEq

/-- `n | 0`: the low 32 bits as a signed number. -/
def toInt32 (n : Int) : Int := (n + 2147483648) % 4294967296 - 2147483648

def Parsing.start (format : Format) (maxEntries : Nat) (expectedEntries : Int) : Parsing :=
  let cap := (min (maxEntries : Int) (max 1024 (toInt32 expectedEntries))).toNat
  { suffix := .new (if format = .hosts then 1024 else cap)
    exact := .new (if format = .hosts then cap else 1024)
    except := .new 1024
    lines := 0
    skipped := 0
    total := 0 }

def Parsing.finish (b : Parsing) : ParsedList :=
  let list : CompactList :=
    { suffix := b.suffix.finish, exact := b.exact.finish, except := b.except.finish }
  { list := list, entries := list.size, lines := b.lines, skipped := b.skipped }

def parseListStream (host : UnicodeHost) (chunks : List Bytes) (format : Format)
    (maxEntries : Nat) (expectedEntries : Int) : Except ListTooLarge ParsedList :=
  (readStream (readLine host format maxEntries) skipLine chunks
    (.start format maxEntries expectedEntries)).map fun r => r.2.finish

/-- The lines of a file, an upper bound of its entries. -/
def countLines (chunks : List Bytes) : Nat :=
  let n := (chunks.map fun c => c.count nl).sum
  let last := chunks.foldl (fun last c => c.getLast?.getD last) nl
  if last = nl then n else n + 1

end Dns
end GateControl
