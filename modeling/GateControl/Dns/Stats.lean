import Mathlib.Algebra.Order.Round
import Mathlib.Data.List.Lex
import Mathlib.Data.Rat.Floor
import GateControl.Library.OrderedMap
import GateControl.Library.Text
import GateControl.Library.Transition

/-!
# Stats — counting queries and reporting the counts

`DnsStats` counts the queries of the current period.  A report takes the period out, posts it and,
when the post fails, merges it back into the period that has begun meanwhile.  Reports may overlap:
the loop and a shutdown both start one.

The system `step` interleaves `record` with any number of reports that wait for the server.  The
main result says that no query is lost or counted twice on the way.
-/

namespace GateControl
namespace Dns

open Library

def maxTopKeys : Nat := 4096

def maxClients : Nat := 1024

def topN : Nat := 20

/-- The counters of a profile. -/
structure ProfileCount where
  queries : Nat
  blocked : Nat
  deriving DecidableEq

/-- How often a domain was blocked for a profile. -/
structure TopEntry where
  domain : Text
  count : Nat
  profileId : Option Text
  deriving DecidableEq

/-- A period; the profile `''` stands for queries without one. -/
structure Period where
  since : Int
  queries : Nat
  blocked : Nat
  cached : Nat
  msSum : Int
  top : OrderedMap Text TopEntry
  byProfile : OrderedMap Text ProfileCount
  clients : OrderedSet Text
  deriving DecidableEq

def emptyPeriod (since : Int) : Period where
  since := since
  queries := 0
  blocked := 0
  cached := 0
  msSum := 0
  top := .empty
  byProfile := .empty
  clients := OrderedMap.empty

/-- A query that has been answered. -/
structure QueryRecord where
  profileId : Option Text
  mac : Option Text
  blocked : Bool
  cached : Bool
  ms : Int
  domain : Option Text
  deriving DecidableEq

namespace Period

variable (p : Period)

/-- `_pruneTop`: the most frequent domains stay. -/
def pruneTop : Period :=
  { p with
    top := .ofList ((p.top.entries.mergeSort fun a b => b.2.count ≤ a.2.count).take
      (maxTopKeys * 3 / 4)) }

def pruneIfLarge : Period := if p.top.size > maxTopKeys then p.pruneTop else p

/-- Count a blocked domain; only a new entry can make the map too large. -/
def countDomain (domain key : Text) (profileId : Option Text) : Period :=
  let k := domain ++ '\n' :: key
  match p.top.get k with
  | some e => { p with top := p.top.set k { e with count := e.count + 1 } }
  | none => { p with top := p.top.set k ⟨domain, 1, profileId⟩ }.pruneIfLarge

/-- Count a query for its profile. -/
def countProfile (key : Text) (blocked : Bool) : Period :=
  let bp := (p.byProfile.get key).getD ⟨0, 0⟩
  { p with
    byProfile := p.byProfile.set key
      ⟨bp.queries + 1, if blocked then bp.blocked + 1 else bp.blocked⟩ }

def addClient (mac : Text) : Period :=
  if OrderedMap.size p.clients < maxClients then { p with clients := OrderedSet.add p.clients mac }
  else p

/-- `record`, as far as it concerns the period. -/
def record (r : QueryRecord) : Period :=
  let key := r.profileId.getD []
  let p := { p with
    queries := p.queries + 1
    msSum := p.msSum + r.ms
    cached := if r.cached then p.cached + 1 else p.cached
    blocked := if r.blocked then p.blocked + 1 else p.blocked }
  let p := p.countProfile key r.blocked
  let domain := if r.blocked then r.domain.filter (· ≠ []) else none
  let p := match domain with
    | some d => p.countDomain d key r.profileId
    | none => p
  match r.mac.filter (· ≠ []) with
  | some mac => p.addClient mac
  | none => p

/-- Add the counts of a domain. -/
def mergeTop (k : Text) (v : TopEntry) : Period :=
  match p.top.get k with
  | some e => { p with top := p.top.set k { e with count := e.count + v.count } }
  | none => { p with top := p.top.set k v }

/-- Add the counts of a profile. -/
def mergeProfile (k : Text) (v : ProfileCount) : Period :=
  match p.byProfile.get k with
  | some e =>
      { p with byProfile := p.byProfile.set k ⟨e.queries + v.queries, e.blocked + v.blocked⟩ }
  | none => { p with byProfile := p.byProfile.set k v }

/-- `giveBack`: merge an undelivered period into the current one. -/
def giveBack (old : Period) : Period :=
  let p := { p with
    since := min p.since old.since
    queries := p.queries + old.queries
    blocked := p.blocked + old.blocked
    cached := p.cached + old.cached
    msSum := p.msSum + old.msSum }
  let p := (old.top.entries.foldl (fun p e => p.mergeTop e.1 e.2) p).pruneIfLarge
  let p := old.byProfile.entries.foldl (fun p e => p.mergeProfile e.1 e.2) p
  (OrderedMap.keys old.clients).foldl addClient p

end Period

/-- What is posted about a period. -/
structure StatsBody where
  period : Int × Int
  queries : Nat
  blocked : Nat
  cached : Nat
  avgMs : Option ℚ
  topBlocked : List TopEntry
  byProfile : OrderedMap Text ProfileCount
  clientsSeen : List Text
  deriving DecidableEq

/-- `Math.round`: to the nearest whole number, halves upwards. -/
def mathRound (q : ℚ) : Int := ⌊q + 1 / 2⌋

/-- The order of `sort()`: by UTF-16 code units. -/
def textLe (a b : Text) : Bool := (codeUnits a).map UInt32.toNat ≤ (codeUnits b).map UInt32.toNat

/-- The order of `topBlocked`, with the host's comparison of texts. -/
def topLe (localeCompare : Text → Text → Int) (a b : TopEntry) : Bool :=
  b.count < a.count || (a.count = b.count && localeCompare a.domain b.domain ≤ 0)

/-- The body that `take` makes of a period. -/
def Period.body (localeCompare : Text → Text → Int) (p : Period) (finish : Int) : StatsBody where
  period := (p.since, finish)
  queries := p.queries
  blocked := p.blocked
  cached := p.cached
  avgMs := if p.queries = 0 then none else some (mathRound ((p.msSum / p.queries : ℚ) * 10) / 10)
  topBlocked := (p.top.values.mergeSort (topLe localeCompare)).take topN
  -- on an object, a value for `__proto__` is not a property
  byProfile := p.byProfile.filter fun id _ => id ≠ [] && id ≠ "__proto__".toList
  clientsSeen := (OrderedMap.keys p.clients).mergeSort textLe

/-! ## Reports -/

structure Total where
  queries : Nat
  blocked : Nat
  cached : Nat
  since : Int
  deriving DecidableEq

/-- The filter as far as its reports depend on it. -/
structure Reporting where
  cur : Period
  total : Total
  enabled : Bool
  now : Int
  lastReportAt : Option Int
  reportError : Option (Int × Nat)
  /-- The reports that wait for the server. -/
  inflight : List (StatsBody × Period)
  /-- The bodies the server has accepted. -/
  delivered : List StatsBody

namespace Reporting

def start (now : Int) : Reporting where
  cur := emptyPeriod now
  total := ⟨0, 0, 0, now⟩
  enabled := false
  now := now
  lastReportAt := none
  reportError := none
  inflight := []
  delivered := []

variable (s : Reporting)

def record (r : QueryRecord) : Reporting :=
  { s with
    cur := s.cur.record r
    total := { s.total with
      queries := s.total.queries + 1
      blocked := if r.blocked then s.total.blocked + 1 else s.total.blocked
      cached := if r.cached then s.total.cached + 1 else s.total.cached } }

/-- `report` up to its post; a period without queries is not posted when the filter is off. -/
def report (localeCompare : Text → Text → Int) : Reporting :=
  let body := s.cur.body localeCompare s.now
  let t := { s with cur := emptyPeriod s.now }
  if body.queries = 0 && !s.enabled then t
  else { t with inflight := s.inflight ++ [(body, s.cur)] }

/-- The `i`-th report in flight comes back; `status` is the one of a failed post. -/
def answer (i : Nat) (r : StatsBody × Period) (status : Option Nat) : Reporting :=
  let s := { s with inflight := s.inflight.eraseIdx i }
  match status with
  | none =>
      { s with
        delivered := s.delivered ++ [r.1]
        lastReportAt := some s.now
        reportError := none }
  | some code => { s with reportError := some (s.now, code), cur := s.cur.giveBack r.2 }

inductive Action
  | record (r : QueryRecord)
  | report
  | answer (i : Nat) (status : Option Nat)
  | enable (enabled : Bool)
  | clock (now : Int)

def step (localeCompare : Text → Text → Int) (s : Reporting) : Action → Option Reporting
  | .record r => some (s.record r)
  | .report => some (s.report localeCompare)
  | .answer i status => (s.inflight[i]?).map fun r => s.answer i r status
  | .enable enabled => some { s with enabled := enabled }
  | .clock now => some { s with now := now }

end Reporting

/-! ## One period -/

/-- The counters that every query goes into. -/
inductive Counter
  | queries
  | blocked
  | cached
  deriving DecidableEq

def Period.count (p : Period) : Counter → Nat
  | .queries => p.queries
  | .blocked => p.blocked
  | .cached => p.cached

def StatsBody.count (b : StatsBody) : Counter → Nat
  | .queries => b.queries
  | .blocked => b.blocked
  | .cached => b.cached

def Total.count (t : Total) : Counter → Nat
  | .queries => t.queries
  | .blocked => t.blocked
  | .cached => t.cached

/-- What a query adds to a counter. -/
def QueryRecord.count (r : QueryRecord) : Counter → Nat
  | .queries => 1
  | .blocked => if r.blocked then 1 else 0
  | .cached => if r.cached then 1 else 0

namespace Period

/-- The profiles of a period account for its queries, and its map of domains is not too large. -/
structure Balanced (p : Period) : Prop where
  queries : p.byProfile.sumOf ProfileCount.queries = p.queries
  blocked : p.byProfile.sumOf ProfileCount.blocked = p.blocked
  top : p.top.size ≤ maxTopKeys
  le : ∀ c, p.count c ≤ p.queries

/-- The second period differs in the domains and the clients only. -/
structure SameCounts (p p' : Period) : Prop where
  count : p'.count = p.count
  byProfile : p'.byProfile = p.byProfile

namespace SameCounts

variable {p p' p'' : Period}

theorem refl (p : Period) : SameCounts p p := ⟨rfl, rfl⟩

theorem trans (h : SameCounts p p') (h' : SameCounts p' p'') : SameCounts p p'' :=
  ⟨h'.count.trans h.count, h'.byProfile.trans h.byProfile⟩

theorem foldl {α : Type*} {f : Period → α → Period} (hf : ∀ p a, SameCounts p (f p a))
    (as : List α) (p : Period) : SameCounts p (as.foldl f p) := by
  induction as generalizing p with
  | nil =>
      exact refl p
  | cons a as ih =>
      exact (hf p a).trans (ih (f p a))

theorem balanced (h : SameCounts p p') (hp : p.Balanced) (htop : p'.top.size ≤ maxTopKeys) :
    p'.Balanced := by
  have hqueries : p'.queries = p.queries := congrFun h.count .queries
  have hblocked : p'.blocked = p.blocked := congrFun h.count .blocked
  constructor
  case queries =>
    rw [h.byProfile, hqueries, hp.queries]
  case blocked =>
    rw [h.byProfile, hblocked, hp.blocked]
  case top =>
    exact htop
  case le =>
    intro c
    rw [h.count, hqueries]
    exact hp.le c

end SameCounts

variable (p : Period)

theorem pruneIfLarge_same : SameCounts p p.pruneIfLarge := by
  unfold pruneIfLarge
  split
  · exact ⟨rfl, rfl⟩
  · exact .refl p

/-- Pruning keeps three quarters of what is allowed. -/
theorem pruneIfLarge_top : p.pruneIfLarge.top.size ≤ maxTopKeys := by
  unfold pruneIfLarge
  split
  · have hlen := OrderedMap.size_ofList_le
      ((p.top.entries.mergeSort fun a b => b.2.count ≤ a.2.count).take (maxTopKeys * 3 / 4))
    refine hlen.trans ?_
    rw [List.length_take]
    exact (Nat.min_le_left _ _).trans (by decide)
  · rename_i hle
    exact Nat.le_of_not_lt hle

theorem countDomain_same (domain key : Text) (profileId : Option Text) :
    SameCounts p (p.countDomain domain key profileId) := by
  unfold countDomain
  simp only
  split
  · exact ⟨rfl, rfl⟩
  · refine SameCounts.trans ⟨?_, ?_⟩ (pruneIfLarge_same _)
    · rfl
    · rfl

theorem countDomain_top (domain key : Text) (profileId : Option Text)
    (h : p.top.size ≤ maxTopKeys) : (p.countDomain domain key profileId).top.size ≤ maxTopKeys := by
  unfold countDomain
  simp only
  split
  · rename_i e he
    exact (OrderedMap.size_set_of_get he _).le.trans h
  · exact pruneIfLarge_top _

theorem addClient_same (mac : Text) : SameCounts p (p.addClient mac) := by
  unfold addClient
  split
  · exact ⟨rfl, rfl⟩
  · exact .refl p

theorem addClient_top (mac : Text) : (p.addClient mac).top = p.top := by
  unfold addClient
  split <;> rfl

theorem mergeTop_same (k : Text) (v : TopEntry) : SameCounts p (p.mergeTop k v) := by
  unfold mergeTop
  split
  · exact ⟨rfl, rfl⟩
  · exact ⟨rfl, rfl⟩

theorem emptyPeriod_balanced (since : Int) : (emptyPeriod since).Balanced := by
  refine ⟨rfl, rfl, Nat.zero_le _, ?_⟩
  intro c
  cases c <;> exact Nat.le_refl 0

/-- The counters after a query, before its domain and its client are noted. -/
def counted (r : QueryRecord) : Period :=
  { p with
    queries := p.queries + 1
    msSum := p.msSum + r.ms
    cached := if r.cached then p.cached + 1 else p.cached
    blocked := if r.blocked then p.blocked + 1 else p.blocked }.countProfile
      (r.profileId.getD []) r.blocked

theorem counted_count (r : QueryRecord) (c : Counter) :
    (p.counted r).count c = p.count c + r.count c := by
  cases c with
  | queries =>
      rfl
  | blocked =>
      simp only [counted, countProfile, count, QueryRecord.count]
      split <;> rfl
  | cached =>
      simp only [counted, countProfile, count, QueryRecord.count]
      split <;> rfl

theorem counted_balanced (r : QueryRecord) (hp : p.Balanced) : (p.counted r).Balanced := by
  constructor
  case queries =>
    have hsum := OrderedMap.sumOf_set ProfileCount.queries p.byProfile (r.profileId.getD [])
      ⟨((p.byProfile.get (r.profileId.getD [])).getD ⟨0, 0⟩).queries + 1,
        if r.blocked then ((p.byProfile.get (r.profileId.getD [])).getD ⟨0, 0⟩).blocked + 1
        else ((p.byProfile.get (r.profileId.getD [])).getD ⟨0, 0⟩).blocked⟩
    have hq := hp.queries
    simp only [counted, countProfile]
    cases hget : p.byProfile.get (r.profileId.getD []) with
    | none =>
        simp only [hget, Option.map_none, Option.getD_none] at hsum ⊢
        omega
    | some bp =>
        simp only [hget, Option.map_some, Option.getD_some] at hsum ⊢
        omega
  case blocked =>
    have hsum := OrderedMap.sumOf_set ProfileCount.blocked p.byProfile (r.profileId.getD [])
      ⟨((p.byProfile.get (r.profileId.getD [])).getD ⟨0, 0⟩).queries + 1,
        if r.blocked then ((p.byProfile.get (r.profileId.getD [])).getD ⟨0, 0⟩).blocked + 1
        else ((p.byProfile.get (r.profileId.getD [])).getD ⟨0, 0⟩).blocked⟩
    have hb := hp.blocked
    simp only [counted, countProfile]
    cases hget : p.byProfile.get (r.profileId.getD []) with
    | none =>
        simp only [hget, Option.map_none, Option.getD_none] at hsum ⊢
        split
        · rename_i hr
          simp only [hr, if_true] at hsum
          omega
        · rename_i hr
          simp only [hr] at hsum
          simpa [hb] using hsum
    | some bp =>
        simp only [hget, Option.map_some, Option.getD_some] at hsum ⊢
        split
        · rename_i hr
          simp only [hr, if_true] at hsum
          omega
        · rename_i hr
          simp only [hr] at hsum
          simpa [hb] using hsum
  case top =>
    exact hp.top
  case le =>
    intro c
    have hle := hp.le c
    have hadd : r.count c ≤ 1 := by
      cases c with
      | queries =>
          exact Nat.le_refl 1
      | blocked =>
          simp only [QueryRecord.count]
          split <;> omega
      | cached =>
          simp only [QueryRecord.count]
          split <;> omega
    rw [counted_count]
    exact Nat.add_le_add hle hadd

/-- What `record` does after the counters is about the domain and the client. -/
theorem record_counted (r : QueryRecord) :
    SameCounts (p.counted r) (p.record r) ∧
      ((p.counted r).top.size ≤ maxTopKeys → (p.record r).top.size ≤ maxTopKeys) := by
  have hdomain (d key : Text) (id : Option Text) := countDomain_same (p.counted r) d key id
  have htop (d key : Text) (id : Option Text) := countDomain_top (p.counted r) d key id
  have hclient (q : Period) (mac : Text) := congrArg OrderedMap.size (addClient_top q mac)
  unfold record
  simp only
  split
  · rename_i mac _
    split
    · refine ⟨(hdomain ..).trans (addClient_same _ mac), fun h => ?_⟩
      exact (hclient _ mac).le.trans (htop _ _ _ h)
    · exact ⟨addClient_same _ mac, fun h => (hclient _ mac).le.trans h⟩
  · split
    · exact ⟨hdomain .., htop _ _ _⟩
    · exact ⟨.refl _, id⟩

theorem record_count (r : QueryRecord) (c : Counter) :
    (p.record r).count c = p.count c + r.count c := by
  rw [(record_counted p r).1.count, counted_count]

theorem record_balanced (r : QueryRecord) (hp : p.Balanced) : (p.record r).Balanced := by
  have hcounted := counted_balanced p r hp
  obtain ⟨hsame, htop⟩ := record_counted p r
  exact hsame.balanced hcounted (htop hcounted.top)

/-! ## Giving a period back -/

variable {p}

theorem mergeProfile_sum {f : ProfileCount → Nat}
    (hf : ∀ a b : ProfileCount, f ⟨a.queries + b.queries, a.blocked + b.blocked⟩ = f a + f b)
    (k : Text) (v : ProfileCount) :
    (p.mergeProfile k v).byProfile.sumOf f = p.byProfile.sumOf f + f v := by
  unfold mergeProfile
  split
  · rename_i e he
    have hsum := OrderedMap.sumOf_set f p.byProfile k
      ⟨e.queries + v.queries, e.blocked + v.blocked⟩
    simp only [he, Option.map_some, Option.getD_some, hf] at hsum ⊢
    omega
  · rename_i hnone
    have hsum := OrderedMap.sumOf_set f p.byProfile k v
    simpa [hnone] using hsum

theorem mergeProfile_rest (k : Text) (v : ProfileCount) :
    (p.mergeProfile k v).count = p.count ∧ (p.mergeProfile k v).top = p.top := by
  unfold mergeProfile
  split
  · exact ⟨rfl, rfl⟩
  · exact ⟨rfl, rfl⟩

/-- Merging the profiles adds their counters and leaves everything else alone. -/
theorem foldl_mergeProfile (es : List (Text × ProfileCount)) (p : Period) :
    let p' := es.foldl (fun p e => p.mergeProfile e.1 e.2) p
    p'.count = p.count ∧ p'.top = p.top ∧
      p'.byProfile.sumOf ProfileCount.queries =
        p.byProfile.sumOf ProfileCount.queries + (es.map fun e => e.2.queries).sum ∧
      p'.byProfile.sumOf ProfileCount.blocked =
        p.byProfile.sumOf ProfileCount.blocked + (es.map fun e => e.2.blocked).sum := by
  induction es generalizing p with
  | nil =>
      exact ⟨rfl, rfl, rfl, rfl⟩
  | cons e es ih =>
      obtain ⟨hcount, htop, hqueries, hblocked⟩ := ih (p.mergeProfile e.1 e.2)
      obtain ⟨hcount', htop'⟩ := p.mergeProfile_rest e.1 e.2
      have hq : (p.mergeProfile e.1 e.2).byProfile.sumOf ProfileCount.queries = _ :=
        mergeProfile_sum (fun _ _ => rfl) e.1 e.2
      have hb : (p.mergeProfile e.1 e.2).byProfile.sumOf ProfileCount.blocked = _ :=
        mergeProfile_sum (fun _ _ => rfl) e.1 e.2
      simp only [List.foldl_cons, List.map_cons, List.sum_cons]
      refine ⟨hcount.trans hcount', htop.trans htop', ?_, ?_⟩
      · rw [hqueries, hq, Nat.add_assoc]
      · rw [hblocked, hb, Nat.add_assoc]

/-- The counters of both periods, before the maps are merged. -/
def merged (p old : Period) : Period :=
  { p with
    since := min p.since old.since
    queries := p.queries + old.queries
    blocked := p.blocked + old.blocked
    cached := p.cached + old.cached
    msSum := p.msSum + old.msSum }

theorem merged_count (p old : Period) (c : Counter) :
    (p.merged old).count c = p.count c + old.count c := by
  cases c <;> rfl

/-- Both periods are in the result, once each. -/
theorem giveBack_sums (p old : Period) :
    (∀ c, (p.giveBack old).count c = p.count c + old.count c) ∧
      (p.giveBack old).top.size ≤ maxTopKeys ∧
      (p.giveBack old).byProfile.sumOf ProfileCount.queries =
        p.byProfile.sumOf ProfileCount.queries + old.byProfile.sumOf ProfileCount.queries ∧
      (p.giveBack old).byProfile.sumOf ProfileCount.blocked =
        p.byProfile.sumOf ProfileCount.blocked + old.byProfile.sumOf ProfileCount.blocked := by
  have hdomains : SameCounts (p.merged old)
      (old.top.entries.foldl (fun p e => p.mergeTop e.1 e.2) (p.merged old)).pruneIfLarge :=
    (SameCounts.foldl (fun p (e : Text × TopEntry) => mergeTop_same p e.1 e.2) _ _).trans (pruneIfLarge_same _)
  have hsize :=
    pruneIfLarge_top (old.top.entries.foldl (fun p e => p.mergeTop e.1 e.2) (p.merged old))
  obtain ⟨hcount, htop, hqueries, hblocked⟩ := foldl_mergeProfile old.byProfile.entries
    (old.top.entries.foldl (fun p e => p.mergeTop e.1 e.2) (p.merged old)).pruneIfLarge
  have hclients : ∀ (ms : List Text) (q : Period),
      SameCounts q (ms.foldl addClient q) ∧ (ms.foldl addClient q).top = q.top := by
    intro ms q
    refine ⟨SameCounts.foldl addClient_same ms q, ?_⟩
    induction ms generalizing q with
    | nil =>
        rfl
    | cons m ms ih =>
        exact (ih (q.addClient m)).trans (addClient_top q m)
  obtain ⟨hsame, hsameTop⟩ := hclients (OrderedMap.keys old.clients)
    (old.byProfile.entries.foldl (fun p e => p.mergeProfile e.1 e.2)
      (old.top.entries.foldl (fun p e => p.mergeTop e.1 e.2) (p.merged old)).pruneIfLarge)
  have hprofile : (p.merged old).byProfile = p.byProfile := rfl
  refine ⟨?_, ?_, ?_, ?_⟩
  · intro c
    have h : (p.giveBack old).count = (p.merged old).count :=
      hsame.count.trans (hcount.trans hdomains.count)
    rw [h, merged_count]
  · have h := congrArg OrderedMap.size (hsameTop.trans htop)
    exact h.le.trans hsize
  · have h := congrArg (OrderedMap.sumOf ProfileCount.queries) hsame.byProfile
    refine h.trans (hqueries.trans ?_)
    rw [hdomains.byProfile, hprofile]
    simp [OrderedMap.sumOf, OrderedMap.values, Function.comp_def]
  · have h := congrArg (OrderedMap.sumOf ProfileCount.blocked) hsame.byProfile
    refine h.trans (hblocked.trans ?_)
    rw [hdomains.byProfile, hprofile]
    simp [OrderedMap.sumOf, OrderedMap.values, Function.comp_def]

theorem giveBack_balanced {old : Period} (hp : p.Balanced) (hold : old.Balanced) :
    (p.giveBack old).Balanced := by
  obtain ⟨hcount, htop, hqueries, hblocked⟩ := giveBack_sums p old
  have hcq : (p.giveBack old).queries = p.queries + old.queries := hcount .queries
  have hcb : (p.giveBack old).blocked = p.blocked + old.blocked := hcount .blocked
  constructor
  case queries =>
    rw [hqueries, hp.queries, hold.queries, hcq]
  case blocked =>
    rw [hblocked, hp.blocked, hold.blocked, hcb]
  case top =>
    exact htop
  case le =>
    intro c
    rw [hcount, hcq]
    exact Nat.add_le_add (hp.le c) (hold.le c)

end Period

/-! ## Conservation -/

namespace Reporting

variable {localeCompare : Text → Text → Int}

/-- What has been counted: in the bodies delivered, in the reports under way, in the period. -/
def accounted (s : Reporting) (c : Counter) : Nat :=
  (s.delivered.map (·.count c)).sum + (s.inflight.map (·.2.count c)).sum + s.cur.count c

/-- Nothing is lost or counted twice. -/
structure Conserved (s : Reporting) : Prop where
  accounted : ∀ c, s.accounted c = s.total.count c
  bodies : ∀ r ∈ s.inflight, r.1.count = r.2.count
  cur : s.cur.Balanced
  inflight : ∀ r ∈ s.inflight, r.2.Balanced

theorem body_count (p : Period) (finish : Int) : (p.body localeCompare finish).count = p.count := by
  funext c
  cases c <;> rfl

theorem start_conserved (now : Int) : (start now).Conserved := by
  refine ⟨?_, by simp [start], Period.emptyPeriod_balanced now, by simp [start]⟩
  intro c
  cases c <;> rfl

theorem record_conserved {s : Reporting} (r : QueryRecord) (h : s.Conserved) :
    (s.record r).Conserved := by
  refine ⟨?_, h.bodies, Period.record_balanced _ r h.cur, h.inflight⟩
  intro c
  have hacc := h.accounted c
  have hcur := Period.record_count s.cur r c
  have htotal : (s.record r).total.count c = s.total.count c + r.count c := by
    cases c with
    | queries =>
        rfl
    | blocked =>
        simp only [record, Total.count, QueryRecord.count]
        split <;> rfl
    | cached =>
        simp only [record, Total.count, QueryRecord.count]
        split <;> rfl
  rw [htotal, ← hacc]
  simp only [Reporting.accounted, record, hcur]
  omega

/-- A period that is not posted has no queries, so that nothing is lost with it. -/
theorem report_conserved {s : Reporting} (h : s.Conserved) :
    (s.report localeCompare).Conserved := by
  have hempty : ∀ c, (emptyPeriod s.now).count c = 0 := by
    intro c
    cases c <;> rfl
  unfold report
  simp only
  split
  · rename_i hdrop
    have hzero : s.cur.queries = 0 := by
      simp only [Bool.and_eq_true, decide_eq_true_eq] at hdrop
      exact hdrop.1
    refine ⟨?_, h.bodies, Period.emptyPeriod_balanced _, h.inflight⟩
    intro c
    have hacc := h.accounted c
    have hle := h.cur.le c
    simp only [Reporting.accounted, hempty] at hacc ⊢
    omega
  · refine ⟨?_, ?_, Period.emptyPeriod_balanced _, ?_⟩
    · intro c
      have hacc := h.accounted c
      simp only [Reporting.accounted, hempty, List.map_append, List.sum_append] at hacc ⊢
      simpa [Nat.add_assoc] using hacc
    · intro r hr
      rcases List.mem_append.1 hr with hr | hr
      · exact h.bodies r hr
      · rw [List.mem_singleton.1 hr]
        exact body_count _ _
    · intro r hr
      rcases List.mem_append.1 hr with hr | hr
      · exact h.inflight r hr
      · rw [List.mem_singleton.1 hr]
        exact h.cur

theorem answer_conserved {s : Reporting} {i : Nat} {r : StatsBody × Period} (status : Option Nat)
    (hi : s.inflight[i]? = some r) (h : s.Conserved) : (s.answer i r status).Conserved := by
  have hmem : r ∈ s.inflight := List.mem_of_getElem? hi
  have hsub : ∀ q, q ∈ s.inflight.eraseIdx i → q ∈ s.inflight := fun q hq =>
    List.mem_of_mem_eraseIdx hq
  have hsum := fun c => sum_eraseIdx (fun q : StatsBody × Period => q.2.count c) hi
  cases status with
  | none =>
      -- the body moves from the reports under way to the delivered ones
      refine ⟨?_, fun q hq => h.bodies q (hsub q hq), h.cur, fun q hq => h.inflight q (hsub q hq)⟩
      intro c
      have hacc := h.accounted c
      have hbody : r.1.count c = r.2.count c := congrFun (h.bodies r hmem) c
      have hc := hsum c
      simp only [Reporting.accounted, answer, List.map_append, List.sum_append, List.map_cons,
        List.map_nil, List.sum_cons, List.sum_nil] at hacc ⊢
      omega
  | some code =>
      -- the period moves into the one that runs now
      refine ⟨?_, fun q hq => h.bodies q (hsub q hq),
        Period.giveBack_balanced h.cur (h.inflight r hmem), fun q hq => h.inflight q (hsub q hq)⟩
      intro c
      have hacc := h.accounted c
      have hcur := (Period.giveBack_sums s.cur r.2).1 c
      have hc := hsum c
      simp only [Reporting.accounted, answer, hcur] at hacc ⊢
      omega

theorem step_conserved {s s' : Reporting} {a : Action} (h : s.Conserved)
    (hs : step localeCompare s a = some s') : s'.Conserved := by
  cases a with
  | record r =>
      cases hs
      exact record_conserved r h
  | report =>
      cases hs
      exact report_conserved h
  | answer i status =>
      rcases Option.map_eq_some_iff.1 hs with ⟨r, hr, rfl⟩
      exact answer_conserved status hr h
  | enable enabled =>
      cases hs
      exact ⟨h.accounted, h.bodies, h.cur, h.inflight⟩
  | clock now =>
      cases hs
      exact ⟨h.accounted, h.bodies, h.cur, h.inflight⟩

/-- Whatever reports overlap, fail or are merged back: every query is in exactly one of the
delivered bodies, the reports under way and the current period; the profiles of each period
account for its queries, and its map of domains stays within its limit. -/
theorem statistics_conserved {now : Int} {as : List Action} {s : Reporting}
    (hrun : exec (step localeCompare) (start now) as = some s) :
    (∀ c, (s.delivered.map (·.count c)).sum + (s.inflight.map (·.2.count c)).sum + s.cur.count c =
        s.total.count c) ∧
      ∀ p ∈ s.cur :: s.inflight.map Prod.snd,
        p.byProfile.sumOf ProfileCount.queries = p.queries ∧
          p.byProfile.sumOf ProfileCount.blocked = p.blocked ∧ p.top.size ≤ 4096 := by
  have h : s.Conserved :=
    exec_invariant (fun _ _ _ h hs => step_conserved h hs) (start_conserved now) hrun
  refine ⟨h.accounted, ?_⟩
  intro p hp
  have hbalanced : p.Balanced := by
    rcases List.mem_cons.1 hp with rfl | hp
    · exact h.cur
    · rcases List.mem_map.1 hp with ⟨r, hr, rfl⟩
      exact h.inflight r hr
  exact ⟨hbalanced.queries, hbalanced.blocked, hbalanced.top⟩

/-- A query to an advertiser that was blocked, and one that was answered from the cache. -/
def blockedQuery : QueryRecord := ⟨some "p1".toList, none, true, false, 2, some "ads.net".toList⟩

def cachedQuery : QueryRecord := ⟨none, some "m".toList, false, true, 1, some "a.org".toList⟩

/-- Two overlapping reports, the first of which fails. -/
def overlappingReports : List Action :=
  [.enable true, .record blockedQuery, .report, .record cachedQuery, .clock 300, .report,
    .record blockedQuery, .answer 0 (some 503), .answer 0 none]

theorem statistics_conserved_overlapping :
    ∃ s, exec (step fun _ _ => 0) (start 0) overlappingReports = some s ∧
      s.total.queries = 3 ∧ s.cur.queries = 2 ∧ (s.delivered.map StatsBody.queries) = [1] ∧
      ∀ c, (s.delivered.map (·.count c)).sum + (s.inflight.map (·.2.count c)).sum +
        s.cur.count c = s.total.count c := by
  have hrun : exec (step fun _ _ => 0) (start 0) overlappingReports = some _ := rfl
  exact ⟨_, hrun, rfl, rfl, rfl, (statistics_conserved hrun).1⟩

end Reporting

end Dns
end GateControl
