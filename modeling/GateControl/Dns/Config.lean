import Mathlib.Algebra.Order.Ring.Rat
import Mathlib.Data.List.Sort
import GateControl.Library.Json
import GateControl.Library.OrderedMap
import GateControl.Library.PlainObject
import GateControl.Dns.DomainSet
import GateControl.Dns.ListParser

/-!
# Config — the checked form of `features.dns`

`normalizeDns` turns whatever the server sent into a configuration of bounded size: what is broken
is left out, never refused as a whole.  The filter and the resolver only see its result.
-/

namespace GateControl
namespace Dns

open Library

/-! ## The configuration -/

inductive Provider
  | quad9
  | cloudflare
  | dns0
  | custom
  deriving DecidableEq

structure UpstreamCfg where
  provider : Provider
  url : Option Text
  fallbackRouter : Bool
  deriving DecidableEq

structure ListCfg where
  url : Text
  format : Format
  sha256 : Option Text
  deriving DecidableEq

inductive BlockMode
  | all
  | categories
  deriving DecidableEq

/-- A time rule; times in minutes since midnight, days from Monday (1) to Sunday (7). -/
structure Schedule where
  days : List Nat
  fromMin : Nat
  toMin : Nat
  block : BlockMode
  categories : List Text
  allowAlways : List Text
  deriving DecidableEq

structure ProfileCfg where
  id : Text
  lists : List Text
  safeSearch : Bool
  allow : List Text
  deny : List Text
  schedules : List Schedule
  macs : List Text
  deriving DecidableEq

/-- A pause or an extension of devices, until a time in milliseconds. -/
structure Pause where
  macs : List Text
  untilMs : ℚ
  deriving DecidableEq

inductive BlockResponse
  | zero
  | nxdomain
  deriving DecidableEq

structure DnsConfig where
  enabled : Bool
  upstream : UpstreamCfg
  logQueries : Bool
  alwaysAllow : List Text
  lists : OrderedMap Text ListCfg
  categories : OrderedMap Text (List Text)
  profiles : List ProfileCfg
  defaultProfile : Option Text
  pauses : List Pause
  extensions : List Pause
  blockResponse : BlockResponse
  deriving DecidableEq

/-! ## The host -/

/-- The parts of a parsed address. -/
structure Url where
  protocol : Text
  hostname : Text
  username : Text
  password : Text
  href : Text

/-- The functions of the host for numbers, dates and addresses. -/
structure ConfigHost extends UnicodeHost where
  /-- `String(n)` -/
  numberText : ℚ → Text
  /-- `n * 1000`, rounded as the host rounds. -/
  toMs : ℚ → ℚ
  /-- `Date.parse`; nothing for what is not a date. -/
  dateParse : Text → Option ℚ
  /-- `new URL`; nothing where it throws. -/
  parseUrl : Text → Option Url

/-! ## Limits -/

def maxLists : Nat := 32

def maxCategories : Nat := 16

def maxCategoryDomains : Nat := 20000

def maxAlwaysAllow : Nat := 1000

def maxProfiles : Nat := 32

def maxPatterns : Nat := 2000

def maxSchedules : Nat := 16

def macsPerProfile : Nat := 256

def macsTotal : Nat := 2048

def maxPauses : Nat := 512

/-! ## Values -/

def isLowerHex (c : Char) : Bool := ('0' ≤ c && c ≤ '9') || ('a' ≤ c && c ≤ 'f')

def isAlnumChar (c : Char) : Bool :=
  ('0' ≤ c && c ≤ '9') || ('a' ≤ c && c ≤ 'z') || ('A' ≤ c && c ≤ 'Z')

/-- A first character and at most `n` more. -/
def idOk (first rest : Char → Bool) (n : Nat) : Text → Bool
  | [] => false
  | c :: cs => first c && cs.all rest && cs.length ≤ n

/-- `LIST_ID_RE`: `[A-Za-z0-9][A-Za-z0-9_-]{0,63}` -/
def listIdOk : Text → Bool := idOk isAlnumChar (fun c => isAlnumChar c || c == '_' || c == '-') 63

/-- `KEY_RE`: `[a-z0-9][a-z0-9_-]{0,31}` -/
def keyOk : Text → Bool :=
  idOk (fun c => isLabelEdge c && c != '_') (fun c => isLabelEdge c || c == '-') 31

/-- `PROFILE_ID_RE`: `[A-Za-z0-9_.:-]{1,64}` -/
def profileIdOk : Text → Bool :=
  idOk (fun c => isAlnumChar c || c ∈ ['_', '.', ':', '-'])
    (fun c => isAlnumChar c || c ∈ ['_', '.', ':', '-']) 63

/-- Pairs of characters, as `match(/../g)` gives them. -/
def pairs : Text → List Text
  | a :: b :: rest => [a, b] :: pairs rest
  | _ => []

def normalizeMac (host : UnicodeHost) (v : Json) : Option Text :=
  v.str?.bind fun mac =>
    let hex := lowerCase host (mac.filter fun c => !(c ∈ [':', '-', '.'] || isTrimmed c))
    if hex.length = 12 ∧ hex.all isLowerHex then some ([':'].intercalate (pairs hex)) else none

/-- The normal form of a pattern `d` or `*.d`. -/
def cleanPatternText (host : UnicodeHost) (p : Text) : Option Text :=
  let t := trim p
  if isWild t then (cleanDomain host (t.drop 2) false).map fun d => '*' :: '.' :: d
  else cleanDomain host t false

def cleanPattern (host : UnicodeHost) (v : Json) : Option Text :=
  v.str?.bind (cleanPatternText host)

/-- The first different values that a function finds in an array. -/
def distinctUpTo (f : Json → Option Text) (v : Json) (max : Nat) : List Text :=
  -- invalid and repeated items count for the first limit, not for the second
  (((v.items.take (max * 2)).filterMap f).eraseDups).take max

def patterns (host : UnicodeHost) (v : Json) (max : Nat) : List Text :=
  distinctUpTo (cleanPattern host) v max

def macs (host : UnicodeHost) (v : Json) (max : Nat) : List Text :=
  distinctUpTo (normalizeMac host) v max

def httpsUrl (host : ConfigHost) (v : Json) : Option Text :=
  v.str?.bind fun u =>
    if jsLength u > 2048 then none
    else
      (host.parseUrl u).bind fun x =>
        if x.protocol = "https:".toList ∧ x.hostname ≠ [] ∧ x.username = [] ∧ x.password = [] then
          some x.href
        else none

def isDigit (c : Char) : Bool := '0' ≤ c && c ≤ '9'

def digit (c : Char) : Nat := c.toNat - '0'.toNat

/-- `TIME_RE`: `HH:MM` in minutes since midnight. -/
def timeOfDay : Text → Option Nat
  | [h1, h2, ':', m1, m2] =>
      let hourOk := ((h1 = '0' ∨ h1 = '1') ∧ isDigit h2) ∨ (h1 = '2' ∧ '0' ≤ h2 ∧ h2 ≤ '3')
      if hourOk ∧ '0' ≤ m1 ∧ m1 ≤ '5' ∧ isDigit m2 then
        some ((digit h1 * 10 + digit h2) * 60 + (digit m1 * 10 + digit m2))
      else none
  | _ => none

def minutes (v : Json) (allow24 : Bool) : Option Nat :=
  v.str?.bind fun s => if allow24 ∧ s = "24:00".toList then some 1440 else timeOfDay s

/-- A time in milliseconds; small numbers are seconds. -/
def timeMs (host : ConfigHost) : Json → Option ℚ
  | .num v => some (if v < 1000000000000 then host.toMs v else v)
  | .str s => if jsLength s > 64 then none else host.dateParse s
  | _ => none

/-! ## Schedules and pauses -/

/-- A day of the week. -/
def weekday : Json → Option Nat
  | .num q => if q.den = 1 ∧ 1 ≤ q ∧ q ≤ 7 then some q.num.toNat else none
  | _ => none

def blockMode (v : Json) : BlockMode := if v.isText "all" then .all else .categories

/-- `catKeys` are the categories that exist. -/
def normalizeSchedule (host : UnicodeHost) (catKeys : List Text) (s : Json) : Option Schedule :=
  let days := (((s.field "days").items.take 7).filterMap weekday).eraseDups.mergeSort (· ≤ ·)
  let block := blockMode (s.field "block")
  let categories := ((((s.field "categories").items.take maxCategories).filterMap Json.str?).filter
    (· ∈ catKeys)).eraseDups
  match minutes (s.field "from") false, minutes (s.field "to") true with
  | some fromMin, some toMin =>
      -- a rule that blocks categories, but none that exists, is no rule
      if !s.isObj || days = [] || (block = .categories && categories = []) then none
      else
        let allowAlways := patterns host (s.field "allowAlways") maxPatterns
        some ⟨days, fromMin, toMin, block, categories, allowAlways⟩
  | _, _ => none

def normalizePause (host : ConfigHost) (p : Json) : Option Pause :=
  match timeMs host (p.field "until") with
  | none => none
  | some untilMs =>
      let m := macs host.toUnicodeHost (p.field "macs") macsPerProfile
      if m = [] then none else some ⟨m, untilMs⟩

def normalizePauses (host : ConfigHost) (v : Json) : List Pause :=
  (v.items.take maxPauses).filterMap (normalizePause host)

/-! ## Upstream, lists and categories -/

def provider (v : Json) : Provider :=
  if v.isText "cloudflare" then .cloudflare
  else if v.isText "dns0" then .dns0
  else if v.isText "custom" then .custom
  else .quad9

def normalizeUpstream (host : ConfigHost) (up : Json) : UpstreamCfg :=
  let p := provider (up.field "provider")
  let url := if p = .custom then httpsUrl host (up.field "url") else none
  -- a custom provider needs an address
  { provider := if p = .custom ∧ url = none then .quad9 else p
    url := url
    fallbackRouter := !(up.field "fallbackRouter").isFalse }

def listFormat (v : Json) : Option Format :=
  if v.isText "domains" then some .domains
  else if v.isText "hosts" then some .hosts
  else if v.isText "adblock" then some .adblock
  else none

def listSha256 (host : UnicodeHost) (v : Json) : Option Text :=
  v.str?.bind fun s =>
    if s.length = 64 ∧ s.all fun c => isLowerHex (asciiLower c) then some (lowerCase host s)
    else none

def normalizeList (host : ConfigHost) (l : Json) : Option ListCfg :=
  match httpsUrl host (l.field "url"), listFormat (l.field "format") with
  | some url, some format => some ⟨url, format, listSha256 host.toUnicodeHost (l.field "sha256")⟩
  | _, _ => none

/-- Go over the lists until there are enough of them. -/
def normalizeLists (host : ConfigHost) :
    List (Text × Json) → OrderedMap Text ListCfg → OrderedMap Text ListCfg
  | [], lists => lists
  | (id, l) :: rest, lists =>
      -- the limit is looked at before every entry, so invalid ones do not count
      if lists.size ≥ maxLists then lists
      else
        match normalizeList host l with
        | some c =>
            if listIdOk id then normalizeLists host rest (lists.set id c)
            else normalizeLists host rest lists
        | none => normalizeLists host rest lists

def normalizeCategories (host : UnicodeHost) (v : Json) : OrderedMap Text (List Text) :=
  (v.fields.take maxCategories).foldl
    (fun m e => if keyOk e.1 then m.set e.1 (patterns host e.2 maxCategoryDomains) else m) .empty

/-! ## Profiles -/

def profileId (host : ConfigHost) : Json → Option Text
  | .num q => if q.den = 1 then some (host.numberText q) else none
  | .str s => some s
  | _ => none

def normalizeProfile (host : ConfigHost) (lists : OrderedMap Text ListCfg) (catKeys : List Text)
    (macBudget : Nat) (id : Text) (p : Json) : ProfileCfg where
  id := id
  lists := (((p.field "lists").items.take maxLists).filterMap Json.str?).filter
    -- `lists[l]` finds the members every object has, too
    (fun l => lists.has l || l ∈ inheritedNames) |>.eraseDups
  safeSearch := (p.field "safeSearch").isTrue
  allow := patterns host.toUnicodeHost (p.field "allow") maxPatterns
  deny := patterns host.toUnicodeHost (p.field "deny") maxPatterns
  schedules := ((p.field "schedules").items.take maxSchedules).filterMap
    (normalizeSchedule host.toUnicodeHost catKeys)
  -- what the profiles before have left
  macs := macs host.toUnicodeHost (p.field "macs") (min macsPerProfile macBudget)

/-- The loop over the profiles: `seen` are the ids of those before. -/
def normalizeProfiles (host : ConfigHost) (lists : OrderedMap Text ListCfg) (catKeys : List Text) :
    List Json → List Text → Nat → List ProfileCfg
  | [], _, _ => []
  | p :: rest, seen, macBudget =>
      match profileId host (p.field "id") with
      | none => normalizeProfiles host lists catKeys rest seen macBudget
      | some id =>
          if profileIdOk id ∧ id ∉ seen then
            let prof := normalizeProfile host lists catKeys macBudget id p
            -- the first profile of an id wins
            prof :: normalizeProfiles host lists catKeys rest (id :: seen)
              (macBudget - prof.macs.length)
          else normalizeProfiles host lists catKeys rest seen macBudget

/-- The id a value stands for, when it is looked up as the default profile. -/
def defaultId (host : ConfigHost) : Json → Option Text
  | .num q => some (host.numberText q)
  | .infinity negative => some (if negative then "-Infinity".toList else "Infinity".toList)
  | .str s => some s
  | _ => none

def normalizeDns (host : ConfigHost) (d : Json) : DnsConfig :=
  let lists := normalizeLists host ((d.field "lists").fields.take (maxLists * 2)) .empty
  let categories := normalizeCategories host.toUnicodeHost (d.field "categories")
  let profiles := normalizeProfiles host lists categories.keys
    ((d.field "profiles").items.take maxProfiles) [] macsTotal
  let wanted := defaultId host (d.field "defaultProfile")
  { enabled := (d.field "enabled").isTrue
    upstream := normalizeUpstream host (d.field "upstream")
    logQueries := (d.field "logQueries").isTrue
    alwaysAllow := patterns host.toUnicodeHost (d.field "alwaysAllow") maxAlwaysAllow
    lists := lists
    categories := categories
    profiles := profiles
    -- the first profile, when the wanted one does not exist
    defaultProfile :=
      if profiles.any fun p => some p.id = wanted then wanted else profiles.head?.map ProfileCfg.id
    pauses := normalizePauses host (d.field "pauses")
    extensions := normalizePauses host (d.field "extensions")
    blockResponse := if (d.field "blockResponse").isText "nxdomain" then .nxdomain else .zero }

end Dns
end GateControl
