import GateControl.Library.Outbox
import GateControl.Library.OrderedMap
import GateControl.Library.Transition
import Mathlib.Data.Rat.Floor

/-!
# Buffer — the quality of the internet access, on its way to the server

`tick` measures; the measurements of five minutes become a sample.  Samples, changed outages and
finished speed tests are buffered and reported.  After a successful post they are taken out of the
buffers, by three notions of identity: an outage by what it says, a speed test as the object that it
is, and a sample by its time.

A sample shares its time with another one after the clock has been set back.  Then one that was not
in the post is removed with one that was.  Nothing else is ever lost.
-/

namespace GateControl
namespace Inetq

open Library

def bucketMs : Int := 5 * 60000

def maxSamples : Nat := 2016

def maxOutages : Nat := 200

def maxSpeedtests : Nat := 50

def samplesPerReport : Nat := 600

/-! ## Five-minute values -/

/-- A measurement; `time` is its field `at`. -/
structure Measurement where
  time : Int
  rttRouterMs : Option Rat
  rttInetMs : Option Rat
  rttServerMs : Option Rat
  sent : Nat
  received : Nat

structure Sample where
  t : Int
  rttRouterMs : Option Rat
  rttInetMs : Option Rat
  lossInetPct : Option Rat
  rttServerMs : Option Rat
  n : Nat

structure Bucket where
  t : Int
  router : List Rat
  inet : List Rat
  server : List Rat
  sent : Nat
  received : Nat
  n : Nat

/-- `Math.round(x * 10) / 10`. -/
def tenths (x : Rat) : Rat := ⌊x * 10 + 1 / 2⌋ / 10

def mean (xs : List Rat) : Option Rat :=
  if xs = [] then none else some (tenths (xs.sum / xs.length))

/-- The interval that measurements are added to. -/
structure Aggregator where
  cur : Option Bucket

namespace Aggregator

def finish (b : Bucket) : Sample where
  t := b.t
  rttRouterMs := mean b.router
  rttInetMs := mean b.inet
  lossInetPct :=
    if b.sent > 0 then some (tenths (((b.sent : Rat) - b.received) / b.sent * 100)) else none
  rttServerMs := mean b.server
  n := b.n

/-- The start of the interval that a time falls into. -/
def bucketOf (time : Int) : Int := time / bucketMs * bucketMs

def measured (b : Bucket) (m : Measurement) : Bucket :=
  { b with
    n := b.n + 1
    router := b.router ++ m.rttRouterMs.toList
    inet := b.inet ++ m.rttInetMs.toList
    server := b.server ++ m.rttServerMs.toList
    sent := b.sent + m.sent
    received := b.received + m.received }

/-- The interval that the measurement closes, if it falls into another one. -/
def add (g : Aggregator) (m : Measurement) : Aggregator × Option Sample :=
  let t := bucketOf m.time
  match g.cur with
  | some b =>
      if b.t = t then (⟨some (measured b m)⟩, none)
      else (⟨some (measured ⟨t, [], [], [], 0, 0, 0⟩ m)⟩, some (finish b))
  | none => (⟨some (measured ⟨t, [], [], [], 0, 0, 0⟩ m)⟩, none)

/-- Close the interval when its time is over. -/
def flush (g : Aggregator) (now : Int) : Aggregator × Option Sample :=
  match g.cur with
  | some b => if now ≥ b.t + bucketMs then (⟨none⟩, some (finish b)) else (g, none)
  | none => (g, none)

end Aggregator

/-! ## The buffers -/

inductive Cause
  | router
  | isp
  deriving DecidableEq

/-- An outage; `ended` is its field `end`. -/
structure Outage where
  start : Int
  ended : Option Int
  cause : Cause
  deriving DecidableEq

/-- What the signature of an outage is written from. -/
def sigOutage (o : Outage) : Int × Option Int × Cause := (o.start, o.ended, o.cause)

/-- What is posted. -/
structure Report (τ : Type) where
  samples : List (Nat × Sample)
  outages : List Outage
  speedtests : List (Nat × τ)

/-- `reporting` is the report that is being posted.  `latest` has the last version of every outage;
`delivered` are the versions that were in a successful post, `dropped` the outages whose last
version has fallen out; nothing reads these three. -/
structure InternetQuality (τ : Type) where
  agg : Aggregator
  samples : Outbox Sample
  outages : OrderedMap Int Outage
  speedtests : Outbox τ
  speedtestRunning : Bool
  reporting : Option (Report τ)
  latest : OrderedMap Int Outage
  delivered : List Outage
  dropped : List Int

namespace InternetQuality

variable {τ : Type} (s : InternetQuality τ)

def addSample (x : Option Sample) : InternetQuality τ :=
  match x with
  | some x => { s with samples := (s.samples.push x).trim maxSamples }
  | none => s

/-- The outage that came first falls out. -/
def dropOutage : InternetQuality τ :=
  match s.outages.keys with
  | k :: _ => { s with outages := s.outages.delete k, dropped := s.dropped ++ [k] }
  | [] => s

/-- The new version of an outage. -/
def setOutage (o : Outage) : InternetQuality τ :=
  { s with
    outages := s.outages.set o.start o
    latest := s.latest.set o.start o
    dropped := s.dropped.filter fun k => k ≠ o.start }

def addOutage (o : Option Outage) : InternetQuality τ :=
  match o with
  | some o =>
      if (s.setOutage o).outages.size > maxOutages then (s.setOutage o).dropOutage
      else s.setOutage o
  | none => s

def addSpeedtest (r : τ) : InternetQuality τ :=
  { s with speedtests := (s.speedtests.push r).trim maxSpeedtests, speedtestRunning := false }

def isPending : Bool :=
  s.samples.items.length > 0 || s.outages.size > 0 || s.speedtests.items.length > 0

def nextReport : Report τ :=
  ⟨s.samples.items.take samplesPerReport, s.outages.values, s.speedtests.items⟩

/-- `report` up to its post. -/
def report : InternetQuality τ :=
  if s.isPending then { s with reporting := some s.nextReport } else { s with reporting := none }

/-- A sample of the buffer has the time of one that was sent. -/
def sameTime (sent : List (Nat × Sample)) (x : Nat × Sample) : Bool :=
  decide (x.2.t ∈ sent.map fun y => y.2.t)

/-- The version that was sent is taken out, unless there is a newer one. -/
def takeOutage (outages : OrderedMap Int Outage) (o : Outage) : OrderedMap Int Outage :=
  match outages.get o.start with
  | some cur => if sigOutage cur = sigOutage o then outages.delete o.start else outages
  | none => outages

/-- The buffers after a successful post. -/
def confirmed (r : Report τ) : InternetQuality τ :=
  { s with
    samples := s.samples.acknowledge r.samples (sameTime r.samples)
    outages := r.outages.foldl takeOutage s.outages
    speedtests := s.speedtests.acknowledge r.speedtests fun x =>
      decide (x.1 ∈ r.speedtests.map Prod.fst)
    delivered := s.delivered ++ r.outages }

/-- The post has ended; `ok` is what `res.ok` says, and false where it throws. -/
def answered (r : Report τ) (ok : Bool) : InternetQuality τ :=
  if ok then
    let s := s.confirmed r
    if s.samples.items.length > 0 then s.report else { s with reporting := none }
  else { s with reporting := none }

/-- `measured` is a round of `tick` with its measurement and the change that it makes to an outage,
`flushed` is one during a speed test. -/
inductive Action (τ : Type)
  | measured (m : Measurement) (changed : Option Outage)
  | flushed (now : Int)
  | startSpeedtest
  | tested (r : τ)
  | report
  | answered (ok : Bool)

def step : Action τ → Option (InternetQuality τ)
  | .measured m changed =>
      some (({ s with agg := (s.agg.add m).1 }.addSample (s.agg.add m).2).addOutage changed)
  | .flushed now =>
      if s.speedtestRunning then
        some ({ s with agg := (s.agg.flush now).1 }.addSample (s.agg.flush now).2)
      else none
  | .startSpeedtest =>
      if s.speedtestRunning then none else some { s with speedtestRunning := true }
  | .tested r => if s.speedtestRunning then some (s.addSpeedtest r) else none
  | .report => if s.reporting.isSome then some s else some s.report
  | .answered ok => s.reporting.map fun r => s.answered r ok

/-- `as.slice(-max)` -/
@[irreducible] def newest {α : Type} (max : Nat) (as : List α) : List α := as.drop (as.length - max)

/-- What was buffered when the process ended before. -/
def load (samples : List Sample) (outages : List Outage) (speedtests : List τ) :
    InternetQuality τ where
  agg := ⟨none⟩
  samples := .ofList (newest maxSamples samples)
  outages := .ofList ((newest maxOutages outages).map fun o => (o.start, o))
  speedtests := .ofList (newest maxSpeedtests speedtests)
  speedtestRunning := false
  reporting := none
  latest := .ofList ((newest maxOutages outages).map fun o => (o.start, o))
  delivered := []
  dropped := []

/-- The last version of every outage is buffered, was in a successful post or has fallen out. -/
def OutagesKept : Prop :=
  ∀ o ∈ s.latest.values,
    s.outages.get o.start = some o ∨ o ∈ s.delivered ∨ o.start ∈ s.dropped

/-- Nothing has left a buffer but after a successful post with it, or as the oldest. -/
def Kept : Prop := s.samples.Complete ∧ s.OutagesKept ∧ s.speedtests.Complete

/-- A post succeeds only while no sample that was not in it has the time of one that was. -/
def Distinct : Action τ → Prop
  | .answered ok => ok = true → ∀ r ∈ s.reporting, ∀ x ∈ s.samples.items,
      sameTime r.samples x = true → x.1 ∈ r.samples.map Prod.fst
  | _ => True

instance (a : Action τ) : Decidable (s.Distinct a) :=
  match a with
  | .answered _ => inferInstanceAs (Decidable (_ → ∀ _ ∈ _, ∀ _ ∈ _, _ → _))
  | .measured _ _ => inferInstanceAs (Decidable True)
  | .flushed _ => inferInstanceAs (Decidable True)
  | .startSpeedtest => inferInstanceAs (Decidable True)
  | .tested _ => inferInstanceAs (Decidable True)
  | .report => inferInstanceAs (Decidable True)

/-! ## Outages -/

theorem sigOutage_injective {o o' : Outage} (h : sigOutage o = sigOutage o') : o = o' := by
  cases o
  cases o'
  cases h
  rfl

/-- The version that is taken out is the one that was sent. -/
theorem get_takeOutage {m : OrderedMap Int Outage} {k : Int} {o : Outage} (h : m.get k = some o)
    (o' : Outage) : (takeOutage m o').get k = some o ∨ o = o' := by
  unfold takeOutage
  cases hcur : m.get o'.start with
  | none =>
      exact .inl h
  | some cur =>
      by_cases hsig : sigOutage cur = sigOutage o'
      · simp only [hsig, if_true]
        by_cases hk : k = o'.start
        · right
          have hsame : o = cur := Option.some.inj (h.symm.trans (hk ▸ hcur))
          exact hsame.trans (sigOutage_injective hsig)
        · left
          rw [OrderedMap.get_delete, if_neg hk]
          exact h
      · simp only [hsig, if_false]
        exact .inl h

/-- Nothing else is. -/
theorem get_of_takeOutage {m : OrderedMap Int Outage} {k : Int} {o o' : Outage}
    (h : (takeOutage m o').get k = some o) : m.get k = some o := by
  unfold takeOutage at h
  split at h
  · split at h
    · exact (OrderedMap.get_delete_cases h).2
    · exact h
  · exact h

theorem get_foldl_takeOutage (os : List Outage) {m : OrderedMap Int Outage} {k : Int} {o : Outage}
    (h : m.get k = some o) : (os.foldl takeOutage m).get k = some o ∨ o ∈ os := by
  induction os generalizing m with
  | nil =>
      exact .inl h
  | cons o' os ih =>
      rcases get_takeOutage h o' with hstays | rfl
      · rcases ih hstays with hstays | hmem
        · exact .inl hstays
        · exact .inr (List.mem_cons_of_mem _ hmem)
      · exact .inr List.mem_cons_self

theorem get_of_foldl_takeOutage (os : List Outage) {m : OrderedMap Int Outage} {k : Int}
    {o : Outage} (h : (os.foldl takeOutage m).get k = some o) : m.get k = some o := by
  induction os generalizing m with
  | nil =>
      exact h
  | cons o' os ih =>
      exact get_of_takeOutage (ih h)

/-! ## What every round keeps -/

/-- What holds in every state of a run: only the samples may be incomplete. -/
structure Steady : Prop where
  samples : s.samples.Tracked
  speedtests : s.speedtests.Tracked
  sentSamples : ∀ r ∈ s.reporting, s.samples.Holds r.samples
  sentSpeedtests : ∀ r ∈ s.reporting, s.speedtests.Holds r.speedtests
  keyed : ∀ k o, s.latest.get k = some o → o.start = k
  current : ∀ k o, s.outages.get k = some o → s.latest.get k = some o
  outages : s.OutagesKept
  tests : s.speedtests.Complete

variable {s}

theorem OutagesKept.of_get (h : ∀ k o, s.latest.get k = some o → o.start = k ∧
    (s.outages.get k = some o ∨ o ∈ s.delivered ∨ k ∈ s.dropped)) : s.OutagesKept := by
  intro o ho
  rcases (OrderedMap.mem_values_iff _).1 ho with ⟨k, hk⟩
  obtain ⟨rfl, hkept⟩ := h k o hk
  exact hkept

theorem Steady.kept_get (h : s.Steady) {k : Int} {o : Outage} (hk : s.latest.get k = some o) :
    s.outages.get k = some o ∨ o ∈ s.delivered ∨ k ∈ s.dropped := by
  obtain rfl := h.keyed k o hk
  exact h.outages o ((OrderedMap.mem_values_iff _).2 ⟨_, hk⟩)

theorem Steady.setAgg (h : s.Steady) (g : Aggregator) : Steady { s with agg := g } :=
  ⟨h.samples, h.speedtests, h.sentSamples, h.sentSpeedtests, h.keyed, h.current, h.outages, h.tests⟩

theorem Steady.addSample (h : s.Steady) (x : Option Sample) : (s.addSample x).Steady := by
  cases x with
  | none => exact h
  | some x =>
      refine ⟨(h.samples.push x).trim _, h.speedtests, ?_, h.sentSpeedtests, h.keyed, h.current,
        h.outages, h.tests⟩
      intro r hr
      exact Outbox.holds_congr (Outbox.history_trim _) ((h.sentSamples r hr).push x)

theorem Steady.setOutage (h : s.Steady) (o : Outage) : (s.setOutage o).Steady := by
  refine ⟨h.samples, h.speedtests, h.sentSamples, h.sentSpeedtests, ?_, ?_, .of_get ?_, h.tests⟩
  · intro k o' hk
    rcases OrderedMap.get_set_cases hk with ⟨rfl, rfl⟩ | ⟨_, hold⟩
    · rfl
    · exact h.keyed k o' hold
  · intro k o' hk
    rcases OrderedMap.get_set_cases hk with ⟨rfl, rfl⟩ | ⟨hne, hold⟩
    · exact OrderedMap.get_set_self _ _ _
    · exact (OrderedMap.get_set_ne _ hne _).trans (h.current k o' hold)
  · intro k o' hk
    rcases OrderedMap.get_set_cases hk with ⟨rfl, rfl⟩ | ⟨hne, hold⟩
    · exact ⟨rfl, .inl (OrderedMap.get_set_self _ _ _)⟩
    · refine ⟨h.keyed k o' hold, ?_⟩
      rcases h.kept_get hold with hbuf | hdelivered | hdropped
      · exact .inl ((OrderedMap.get_set_ne _ hne _).trans hbuf)
      · exact .inr (.inl hdelivered)
      · exact .inr (.inr (List.mem_filter.2 ⟨hdropped, decide_eq_true hne⟩))

theorem Steady.dropOutage (h : s.Steady) : s.dropOutage.Steady := by
  unfold InternetQuality.dropOutage
  split
  · next first rest hkeys =>
      refine ⟨h.samples, h.speedtests, h.sentSamples, h.sentSpeedtests, h.keyed, ?_, .of_get ?_,
        h.tests⟩
      · intro k o hk
        exact h.current k o (OrderedMap.get_delete_cases hk).2
      · intro k o hk
        refine ⟨h.keyed k o hk, ?_⟩
        rcases h.kept_get hk with hbuf | hdelivered | hdropped
        · by_cases hfirst : k = first
          · -- this is the outage that falls out
            exact .inr (.inr (List.mem_append_right _ (List.mem_singleton.2 hfirst)))
          · left
            calc
              (s.outages.delete first).get k = s.outages.get k := by
                    rw [OrderedMap.get_delete, if_neg hfirst]
              _ = some o := hbuf
        · exact .inr (.inl hdelivered)
        · exact .inr (.inr (List.mem_append_left _ hdropped))
  · exact h

theorem Steady.addOutage (h : s.Steady) (o : Option Outage) : (s.addOutage o).Steady := by
  cases o with
  | none => exact h
  | some o =>
      simp only [InternetQuality.addOutage]
      split
      · exact (h.setOutage o).dropOutage
      · exact h.setOutage o

theorem Steady.addSpeedtest (h : s.Steady) (r : τ) : (s.addSpeedtest r).Steady := by
  refine ⟨h.samples, (h.speedtests.push r).trim _, h.sentSamples, ?_, h.keyed, h.current,
    h.outages, (h.tests.push r).trim _⟩
  intro p hp
  exact Outbox.holds_congr (Outbox.history_trim _) ((h.sentSpeedtests p hp).push r)

/-- A report that has ended. -/
theorem Steady.idle (h : s.Steady) : Steady { s with reporting := none } :=
  ⟨h.samples, h.speedtests, fun _ hr => (by cases hr), fun _ hr => (by cases hr), h.keyed,
    h.current, h.outages, h.tests⟩

/-- A report is made of what is buffered. -/
theorem Steady.report (h : s.Steady) : s.report.Steady := by
  unfold InternetQuality.report
  split
  · refine ⟨h.samples, h.speedtests, ?_, ?_, h.keyed, h.current, h.outages, h.tests⟩
    · intro r hr
      obtain rfl := Option.some.inj hr
      exact h.samples.holds.take _
    · intro r hr
      obtain rfl := Option.some.inj hr
      exact h.speedtests.holds
  · exact h.idle

theorem Steady.confirmed (h : s.Steady) {r : Report τ} (hr : s.reporting = some r) :
    (s.confirmed r).Steady := by
  have hsamples : (s.confirmed r).samples.Tracked := by
    refine h.samples.acknowledge (h.sentSamples r hr) ?_
    intro x _ hx
    exact decide_eq_true (List.mem_map_of_mem hx)
  have htests : (s.confirmed r).speedtests.Tracked := by
    refine h.speedtests.acknowledge (h.sentSpeedtests r hr) ?_
    intro x _ hx
    exact decide_eq_true (List.mem_map_of_mem hx)
  refine ⟨hsamples, htests, h.sentSamples, h.sentSpeedtests, h.keyed, ?_, .of_get ?_, ?_⟩
  · intro k o hk
    exact h.current k o (get_of_foldl_takeOutage _ hk)
  · intro k o hk
    refine ⟨h.keyed k o hk, ?_⟩
    rcases h.kept_get hk with hbuf | hdelivered | hdropped
    · rcases get_foldl_takeOutage r.outages hbuf with hstays | hmem
      · exact .inl hstays
      · exact .inr (.inl (List.mem_append_right _ hmem))
    · exact .inr (.inl (List.mem_append_left _ hdelivered))
    · exact .inr (.inr hdropped)
  · -- a speed test is removed as the object that it is
    exact h.tests.acknowledge fun _ _ hx => of_decide_eq_true hx

theorem Steady.answered (h : s.Steady) {r : Report τ} (hr : s.reporting = some r) (ok : Bool) :
    (s.answered r ok).Steady := by
  cases ok with
  | true =>
      simp only [InternetQuality.answered, if_true]
      split
      · exact (h.confirmed hr).report
      · exact (h.confirmed hr).idle
  | false => exact h.idle

theorem Steady.step (h : s.Steady) {a : Action τ} {s' : InternetQuality τ}
    (hs : s.step a = some s') : s'.Steady := by
  cases a with
  | measured m changed =>
      cases hs
      exact ((h.setAgg _).addSample _).addOutage changed
  | flushed now =>
      simp only [InternetQuality.step, Option.ite_none_right_eq_some] at hs
      obtain ⟨_, hs⟩ := hs
      cases hs
      exact (h.setAgg _).addSample _
  | startSpeedtest =>
      simp only [InternetQuality.step, Option.ite_none_left_eq_some] at hs
      obtain ⟨_, hs⟩ := hs
      cases hs
      exact ⟨h.samples, h.speedtests, h.sentSamples, h.sentSpeedtests, h.keyed, h.current,
        h.outages, h.tests⟩
  | tested r =>
      simp only [InternetQuality.step, Option.ite_none_right_eq_some] at hs
      obtain ⟨_, hs⟩ := hs
      cases hs
      exact h.addSpeedtest r
  | report =>
      simp only [InternetQuality.step] at hs
      split at hs
      · cases hs
        exact h
      · cases hs
        exact h.report
  | answered ok =>
      rcases Option.map_eq_some_iff.1 hs with ⟨r, hr, rfl⟩
      exact h.answered hr ok

/-! ## Samples -/

theorem addOutage_samples (o : Option Outage) : (s.addOutage o).samples = s.samples := by
  cases o with
  | none => rfl
  | some o =>
      have hdrop : ∀ u : InternetQuality τ, u.dropOutage.samples = u.samples := by
        intro u
        unfold dropOutage
        split <;> rfl
      simp only [addOutage]
      split
      · exact hdrop _
      · rfl

theorem report_samples : s.report.samples = s.samples := by
  unfold report
  split <;> rfl

theorem answered_samples (r : Report τ) :
    (s.answered r true).samples = s.samples.acknowledge r.samples (sameTime r.samples) := by
  simp only [answered, if_true]
  split
  · exact report_samples
  · rfl

theorem complete_addSample (h : s.samples.Complete) (x : Option Sample) :
    (s.addSample x).samples.Complete := by
  cases x with
  | none => exact h
  | some x => exact (h.push x).trim _

theorem complete_step (h : s.samples.Complete) {a : Action τ} {s' : InternetQuality τ}
    (hok : s.Distinct a) (hs : s.step a = some s') : s'.samples.Complete := by
  cases a with
  | measured m changed =>
      cases hs
      rw [addOutage_samples]
      exact complete_addSample (s := { s with agg := (s.agg.add m).1 }) h _
  | flushed now =>
      simp only [InternetQuality.step, Option.ite_none_right_eq_some] at hs
      obtain ⟨_, hs⟩ := hs
      cases hs
      exact complete_addSample (s := { s with agg := (s.agg.flush now).1 }) h _
  | startSpeedtest =>
      simp only [InternetQuality.step, Option.ite_none_left_eq_some] at hs
      obtain ⟨_, hs⟩ := hs
      cases hs
      exact h
  | tested r =>
      simp only [InternetQuality.step, Option.ite_none_right_eq_some] at hs
      obtain ⟨_, hs⟩ := hs
      cases hs
      exact h
  | report =>
      simp only [InternetQuality.step] at hs
      split at hs
      · cases hs
        exact h
      · cases hs
        rw [report_samples]
        exact h
  | answered ok =>
      rcases Option.map_eq_some_iff.1 hs with ⟨r, hr, rfl⟩
      cases ok with
      | true =>
          rw [answered_samples]
          exact h.acknowledge (hok rfl r hr)
      | false => exact h

/-- A post that loses no sample has not met two of the same time. -/
theorem distinct_of_complete (h : s.Steady) {a : Action τ} {s' : InternetQuality τ}
    (hs : s.step a = some s') (hc : s'.samples.Complete) : s.Distinct a := by
  cases a with
  | answered ok =>
      intro hok r hr x hx hgone
      subst hok
      have heq : s.answered r true = s' := by
        simpa [InternetQuality.step, Option.mem_def.1 hr] using hs
      rw [← heq, answered_samples] at hc
      exact Outbox.mem_sent_of_complete h.samples hc hx hgone
  | _ => trivial

theorem load_steady (samples : List Sample) (outages : List Outage) (speedtests : List τ) :
    (load samples outages speedtests).Steady := by
  have hsamples := Outbox.ofList_spec (newest maxSamples samples)
  have htests := Outbox.ofList_spec (newest maxSpeedtests speedtests)
  have hkeyed : ∀ k o, (load samples outages speedtests).latest.get k = some o → o.start = k := by
    intro k o hk
    rcases List.mem_map.1 (OrderedMap.mem_of_get_ofList hk) with ⟨o', _, heq⟩
    cases heq
    rfl
  exact ⟨hsamples.1, htests.1, fun _ hr => (by cases hr), fun _ hr => (by cases hr), hkeyed,
    fun _ _ hk => hk, .of_get fun k o hk => ⟨hkeyed k o hk, .inl hk⟩, htests.2⟩

/-- Buffered data is kept in exactly the runs in which no post succeeds while a sample that is not
in it has the time of one that is. -/
theorem data_kept (samples : List Sample) (outages : List Outage) (speedtests : List τ)
    (as : List (Action τ)) {t : InternetQuality τ}
    (h : exec step (load samples outages speedtests) as = some t) :
    Throughout step Kept (load samples outages speedtests) as ↔
      Admits step Distinct (load samples outages speedtests) as := by
  constructor
  · exact admits_of_throughout (fun _ _ _ hi hs => Steady.step hi hs)
      (fun _ _ _ hi hs hkept => distinct_of_complete hi hs hkept.1) (load_steady _ _ _) h
  · have hstep : ∀ (s : InternetQuality τ) a s', (s.Steady ∧ s.samples.Complete) → s.Distinct a →
        s.step a = some s' → s'.Steady ∧ s'.samples.Complete :=
      fun _ _ _ hi hok hs => ⟨hi.1.step hs, complete_step hi.2 hok hs⟩
    exact throughout_of_admits hstep (fun _ hi => ⟨hi.2, hi.1.outages, hi.1.tests⟩)
      ⟨load_steady _ _ _, (Outbox.ofList_spec (newest maxSamples samples)).2⟩

/-- A measurement without an answer. -/
def unanswered (time : Int) : Measurement := ⟨time, none, none, none, 3, 0⟩

/-- An outage begins and ends, and a speed test runs, while reports are sent. -/
def eventful : List (Action Nat) :=
  [.measured (unanswered 0) none, .measured (unanswered 300000) (some ⟨240000, none, .isp⟩),
    .report, .measured (unanswered 600000) (some ⟨240000, some 590000, .isp⟩), .startSpeedtest,
    .tested 7, .answered true, .answered false, .report, .answered true]

theorem data_kept_eventful : Throughout step Kept (load [] [] []) eventful := by
  have hrun : ∃ s, exec step (load [] [] []) eventful = some s :=
    Option.isSome_iff_exists.1 (by decide +kernel)
  rcases hrun with ⟨s, hs⟩
  exact (data_kept [] [] [] eventful hs).2 (admits_of_checkRun (fun _ _ h => of_decide_eq_true h)
    (show checkRun step (fun s a => decide (s.Distinct a)) (load [] [] []) eventful = true by
      decide +kernel))

/-- The clock is set back by five minutes while the first sample is posted. -/
def setBack : List (Action Nat) :=
  [.measured (unanswered 0) none, .measured (unanswered 300000) none, .report,
    .measured (unanswered 30000) none, .measured (unanswered 330000) none, .answered true]

/-- The second sample of the same five minutes is gone with the first. -/
theorem sample_lost : ∃ s, exec step (load [] [] []) setBack = some s ∧ ¬ s.Kept := by
  have hrun : (exec step (load [] [] []) setBack).any
      (fun s => decide (¬ s.samples.Complete)) = true := by
    decide +kernel
  rcases (Option.any_eq_true ..).1 hrun with ⟨s, hs, hbad⟩
  exact ⟨s, hs, fun hkept => of_decide_eq_true hbad hkept.1⟩

end InternetQuality

end Inetq
end GateControl
