import GateControl.Dns.Config

/-!
# Policy — the decision on one request

A policy is compiled from a checked configuration and the loaded lists.  `decide` goes through its
rules in a fixed order: the canary domain, names of the home network, `alwaysAllow`, the exceptions
of the profile, the pause of the device, the profile's `deny` patterns, the time rules in force, the
profile's lists.

The local time of a moment depends on the time zone of the process; it is a parameter.
-/

namespace GateControl
namespace Dns

open Library

/-! ## Safe search -/

/-- The names with a target of their own. -/
def safeSearchFixed : List (Text × Text) :=
  [("www.youtube.com", "restrict.youtube.com"), ("youtube.com", "restrict.youtube.com"),
    ("m.youtube.com", "restrict.youtube.com"), ("youtubei.googleapis.com", "restrict.youtube.com"),
    ("youtube.googleapis.com", "restrict.youtube.com"),
    ("www.youtube-nocookie.com", "restrict.youtube.com"), ("www.bing.com", "strict.bing.com"),
    ("bing.com", "strict.bing.com"), ("duckduckgo.com", "safe.duckduckgo.com"),
    ("www.duckduckgo.com", "safe.duckduckgo.com"),
    ("start.duckduckgo.com", "safe.duckduckgo.com")].map fun e => (e.1.toList, e.2.toList)

def isLowerLetter (c : Char) : Bool := 'a' ≤ c && c ≤ 'z'

/-- `[a-z]{2}` -/
def countryOk (s : Text) : Bool := s.length == 2 && s.all isLowerLetter

/-- Remove a text at the start, if it is there. -/
def dropPrefix? (pre : String) (s : Text) : Option Text :=
  if pre.toList.isPrefixOf s then some (s.drop pre.toList.length) else none

/-- `GOOGLE_RE`: `(www\.)?google\.((com?\.)?[a-z]{2}|com)` -/
def isGoogle (name : Text) : Bool :=
  let rest := (dropPrefix? "www." name).getD name
  (dropPrefix? "google." rest).any fun tld =>
    tld = "com".toList || countryOk tld || (dropPrefix? "co." tld).any countryOk ||
      (dropPrefix? "com." tld).any countryOk

def googleNot : List Text :=
  ["google.dev", "google.app", "google.org", "google.net", "www.google.dev", "www.google.app",
    "www.google.org", "www.google.net"].map String.toList

def safeSearchTarget (name : Text) : Option Text :=
  match safeSearchFixed.lookup name with
  | some target => some target
  | none =>
      if isGoogle name ∧ name ∉ googleNot then some "forcesafesearch.google.com".toList else none

/-! ## Local time -/

/-- Day of the week, Sunday being 0, and minutes since midnight. -/
structure LocalTime where
  day : Nat
  minutes : Nat
  deriving DecidableEq

/-- Whether a time rule is in force; over midnight the day on which it starts counts. -/
def scheduleActive (days : List Nat) (fromMin toMin : Nat) (date : LocalTime) : Bool :=
  let iso := if date.day = 0 then 7 else date.day
  let prev := if iso = 1 then 7 else iso - 1
  let m := date.minutes
  -- from 0:00 to 0:00, say, is the whole day
  if fromMin = toMin then iso ∈ days
  else if fromMin < toMin then iso ∈ days && fromMin ≤ m && m < toMin
  else (iso ∈ days && fromMin ≤ m) || (prev ∈ days && m < toMin)

/-! ## The compiled policy -/

structure CompiledSchedule where
  schedule : Schedule
  allowSet : PatternSet
  deriving DecidableEq

structure CompiledProfile where
  id : Text
  lists : List Text
  safeSearch : Bool
  allowSet : PatternSet
  denySet : PatternSet
  schedules : List CompiledSchedule
  deriving DecidableEq

structure Policy where
  lists : OrderedMap Text CompactList
  alwaysAllow : PatternSet
  localNames : PatternSet
  categories : OrderedMap Text PatternSet
  profiles : OrderedMap Text CompiledProfile
  byMac : OrderedMap Text CompiledProfile
  defaultProfile : Option CompiledProfile
  pauses : OrderedMap Text ℚ
  extensions : OrderedMap Text ℚ

/-- What the filter knows besides its configuration: the loaded lists, the host of the server and
the search domains of the home network. -/
structure Surroundings where
  lists : OrderedMap Text CompactList
  extraAllow : List Text
  localSuffixes : List Text

def canary : Text := "use-application-dns.net".toList

def builtinSuffixes : List Text :=
  ["local", "lan", "home", "home.arpa", "internal", "localdomain", "localhost", "fritz.box",
    "speedport.ip", "box.lan"].map String.toList

def privateReverse : List Text :=
  ["10.in-addr.arpa", "168.192.in-addr.arpa", "254.169.in-addr.arpa"].map String.toList ++
    (List.range 16).map (fun i => decimal (16 + i) ++ ".172.in-addr.arpa".toList) ++
    ["d.f.ip6.arpa", "c.f.ip6.arpa", "8.e.f.ip6.arpa", "9.e.f.ip6.arpa", "a.e.f.ip6.arpa",
      "b.e.f.ip6.arpa"].map String.toList

/-- Until when each device is paused (or extended): the latest of its entries. -/
def untilMap (entries : List Pause) : OrderedMap Text ℚ :=
  entries.foldl
    (fun m e => e.macs.foldl (fun m mac => m.set mac (max ((m.get mac).getD 0) e.untilMs)) m) .empty

namespace Policy

def compileSchedule (host : UnicodeHost) (s : Schedule) : CompiledSchedule :=
  ⟨s, .new host s.allowAlways⟩

def compileProfile (host : UnicodeHost) (p : ProfileCfg) : CompiledProfile where
  id := p.id
  lists := p.lists
  safeSearch := p.safeSearch
  -- the patterns of the configuration are cleaned once more, by `PatternSet.add`
  allowSet := .new host p.allow
  denySet := .new host p.deny
  schedules := p.schedules.map (compileSchedule host)

/-- The names of the home network.  A pattern needs a dot, so single labels are put in directly. -/
def localSet (host : UnicodeHost) (localSuffixes : List Text) : PatternSet :=
  let named := (builtinSuffixes ++ privateReverse ++ localSuffixes).filter (· ≠ [])
  let ps := PatternSet.new host
    (named.map fun s => if s.head? = some '.' then s.tail else s)
  (builtinSuffixes ++ localSuffixes).foldl
    (fun ps s =>
      if s ≠ [] ∧ '.' ∉ s then { ps with incl := OrderedSet.add ps.incl (lowerCase host s) }
      else ps) ps

/-- The first profile that names a device is the one it has. -/
def addMacs (byMac : OrderedMap Text CompiledProfile) (prof : CompiledProfile) (macs : List Text) :
    OrderedMap Text CompiledProfile :=
  macs.foldl (fun m mac => if m.has mac then m else m.set mac prof) byMac

def new (host : UnicodeHost) (cfg : DnsConfig) (sur : Surroundings) : Policy :=
  let profiles := cfg.profiles.foldl (fun m p => m.set p.id (compileProfile host p)) .empty
  { lists := sur.lists
    -- the server's own name is never blocked
    alwaysAllow := .new host (cfg.alwaysAllow ++ sur.extraAllow)
    localNames := localSet host sur.localSuffixes
    categories := .ofList (cfg.categories.entries.map fun e => (e.1, .new host e.2))
    profiles := profiles
    byMac := cfg.profiles.foldl (fun m p => addMacs m (compileProfile host p) p.macs) .empty
    defaultProfile := cfg.defaultProfile.bind profiles.get
    pauses := untilMap cfg.pauses
    extensions := untilMap cfg.extensions }

def profileFor (policy : Policy) (mac : Option Text) : Option CompiledProfile :=
  match mac.bind policy.byMac.get with
  | some p => some p
  | none => policy.defaultProfile

def isLocal (policy : Policy) (name : Text) : Bool :=
  name = [] || '.' ∉ name || policy.localNames.matchesName name

/-- An entry of a device that is not over; 0 stands for no entry. -/
def running (m : OrderedMap Text ℚ) (mac : Option Text) (now : ℚ) : Option ℚ :=
  (mac.bind m.get).bind fun u => if u ≠ 0 ∧ u > now then some u else none

def pausedUntil (policy : Policy) : Option Text → ℚ → Option ℚ := running policy.pauses

def extendedUntil (policy : Policy) : Option Text → ℚ → Option ℚ := running policy.extensions

/-! ## The decision -/

inductive Verdict
  | allow
  | block
  deriving DecidableEq

inductive Reason
  | canary
  | isLocal
  | alwaysAllow
  | profileAllow
  | paused
  | noProfile
  | profileDeny
  | schedule
  | scheduleCategory
  | list
  | default
  deriving DecidableEq

structure Decision where
  profileId : Option Text
  action : Verdict
  reason : Reason
  list : Option Text := none
  category : Option Text := none
  safeSearch : Option Text := none
  isLocal : Bool := false
  nxdomain : Bool := false
  deriving DecidableEq

/-- The first category of a time rule that holds the name. -/
def blockedCategory (policy : Policy) (s : CompiledSchedule) (name : Text) : Option Text :=
  s.schedule.categories.find? fun c =>
    (policy.categories.get c).any fun set => set.matchesName name

/-- The first time rule that blocks the name; with the category that does, unless it blocks all. -/
def scheduleBlock (policy : Policy) (date : LocalTime) (name : Text) :
    List CompiledSchedule → Option (Option Text)
  | [] => none
  | s :: rest =>
      let r := s.schedule
      if !scheduleActive r.days r.fromMin r.toMin date || s.allowSet.matchesName name then
        scheduleBlock policy date name rest
      else if r.block = .all then some none
      else
        match policy.blockedCategory s name with
        | some c => some (some c)
        | none => scheduleBlock policy date name rest

/-- The first list of a profile that is loaded and blocks the name. -/
def blockingList (policy : Policy) (lists : List Text) (name : Text) : Option Text :=
  let h := (suffixes name).map hash53
  lists.find? fun id => (policy.lists.get id).any fun l => l.matchHashes h

/-- The rules of a profile, from its `deny` patterns on. -/
def decideProfile (policy : Policy) (localTime : ℚ → LocalTime) (p : CompiledProfile) (name : Text)
    (mac : Option Text) (now : ℚ) (safe : Option Text) : Decision :=
  if p.denySet.matchesName name then { profileId := some p.id, action := .block, reason := .profileDeny }
  else
    let schedule :=
      -- an extension lifts the time rules, not the lists or the `deny` patterns
      if p.schedules ≠ [] ∧ policy.extendedUntil mac now = none then
        policy.scheduleBlock (localTime now) name p.schedules
      else none
    match schedule with
    | some none => { profileId := some p.id, action := .block, reason := .schedule }
    | some (some c) =>
        { profileId := some p.id, action := .block, reason := .scheduleCategory, category := some c }
    | none =>
        match policy.blockingList p.lists name with
        | some id => { profileId := some p.id, action := .block, reason := .list, list := some id }
        | none =>
            { profileId := some p.id, action := .allow, reason := .default, safeSearch := safe }

def decide (policy : Policy) (localTime : ℚ → LocalTime) (name : Text) (mac : Option Text) (now : ℚ) :
    Decision :=
  let profile := policy.profileFor mac
  let profileId := profile.map CompiledProfile.id
  if name = canary then { profileId, action := .block, reason := .canary, nxdomain := true }
  else if policy.isLocal name then { profileId, action := .allow, reason := .isLocal, isLocal := true }
  else if policy.alwaysAllow.matchesName name then
    { profileId, action := .allow, reason := .alwaysAllow }
  else
    -- safe search changes the target of an allowed name and never blocks one
    let safe := if profile.any CompiledProfile.safeSearch then safeSearchTarget name else none
    if profile.any fun p => p.allowSet.matchesName name then
      { profileId, action := .allow, reason := .profileAllow, safeSearch := safe }
    else if (policy.pausedUntil mac now).isSome then { profileId, action := .block, reason := .paused }
    else
      match profile with
      | none => { profileId, action := .allow, reason := .noProfile }
      | some p => policy.decideProfile localTime p name mac now safe

end Policy

end Dns
end GateControl
