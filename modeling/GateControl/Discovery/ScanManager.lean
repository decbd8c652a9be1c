import GateControl.Discovery.ScanEngine
import GateControl.Library.Keyed
import GateControl.Library.Transition

/-!
# ScanManager — one scan at a time, and its terminal batch

`start` lets `runScan` race against a time limit.  A run that ends in time reports its devices in a
terminal batch; when it fails or is too late, the manager sends an empty one itself and waits until
that has been delivered.  A run that has lost the race goes on: what it reports later is sent only
if its scan is still the active one.

An action runs from one `await` to the next.
-/

namespace GateControl
namespace Discovery

open Library

structure ScanRequest where
  requestId : Text
  subnets : List Text
  activeScan : Bool
  exclude : Bool
  categories : List Text

/-- Where a call of `start` waits. -/
inductive Wait
  | racing
  /-- For the delivery of its own terminal batch. -/
  | sending
  | settled
  deriving DecidableEq

/-- A scan that was started. -/
structure Scan where
  request : ScanRequest
  /-- `runScan` has reported or failed. -/
  ended : Bool
  /-- The timer of the time limit is running. -/
  armed : Bool
  wait : Wait

/-- A batch as it was handed to `sendBatch`, with the scan it is of and the scan that was active. -/
structure Batch where
  requestId : Text
  devices : List Device
  done : Bool
  scan : Nat
  active : Option Nat
  deriving DecidableEq

/-- The scans in the order of their starts; a scan is named by its place. -/
structure ScanManager where
  active : Option Nat
  scans : List Scan
  sent : List Batch

inductive ScanAction
  | start (r : ScanRequest)
  /-- `runScan` calls `onBatch` and returns. -/
  | report (i : Nat) (hits : List SubnetHits) (arp : OrderedMap Text Text)
  | fail (i : Nat)
  | timeout (i : Nat)
  /-- The empty batch has been delivered, or given up. -/
  | delivered (i : Nat)

namespace ScanManager

def new : ScanManager := ⟨none, [], []⟩

/-- `send` of scan `i`: what comes from a scan that is not the active one is dropped. -/
def send (s : ScanManager) (i : Nat) (requestId : Text) (devices : List Device) (done : Bool) :
    ScanManager :=
  if s.active ≠ some i then s
  else { s with sent := s.sent ++ [⟨requestId, devices, done, i, s.active⟩] }

def setScan (s : ScanManager) (i : Nat) (scan : Scan) : ScanManager :=
  { s with scans := s.scans.set i scan }

/-- `finally`: the timer is cleared, and the next scan may start. -/
def finish (s : ScanManager) (i : Nat) (scan : Scan) : ScanManager :=
  { s.setScan i { scan with armed := false, wait := .settled } with active := none }

/-- `catch`: a terminal batch, so that the server does not wait for one. -/
def giveUp (s : ScanManager) (i : Nat) (scan : Scan) : ScanManager :=
  (s.setScan i { scan with wait := .sending }).send i scan.request.requestId [] true

def step (s : ScanManager) : ScanAction → Option ScanManager
  | .start r =>
      -- `scan_in_progress`
      if s.active.isSome then some s
      else
        some
          { s with
            active := some s.scans.length
            scans := s.scans ++ [⟨r, false, true, .racing⟩] }
  | .report i hits arp => do
      let scan ← s.scans[i]?
      if scan.ended then none
      else
        let r := scan.request
        let s := s.send i r.requestId (runScan r.activeScan r.exclude r.categories hits arp) true
        let scan := { scan with ended := true }
        -- in time, this is also the end of the race
        if scan.wait = .racing then some (s.finish i scan) else some (s.setScan i scan)
  | .fail i => do
      let scan ← s.scans[i]?
      if scan.ended then none
      else
        let scan := { scan with ended := true }
        if scan.wait = .racing then some (s.giveUp i scan) else some (s.setScan i scan)
  | .timeout i => do
      let scan ← s.scans[i]?
      if !scan.armed then none
      else
        let scan := { scan with armed := false }
        if scan.wait = .racing then some (s.giveUp i scan) else some (s.setScan i scan)
  | .delivered i => do
      let scan ← s.scans[i]?
      if scan.wait = .sending then some (s.finish i scan) else none

/-! ## The end of a scan -/

/-- The batches of a scan. -/
def batchesOf (s : ScanManager) (i : Nat) : List Batch := s.sent.filter (·.scan = i)

/-- While it races, a scan has sent nothing; then it has sent one batch, a terminal one, for its
request and while it was the active scan. -/
def EndsOnce (s : ScanManager) : Prop :=
  ∀ i scan, s.scans[i]? = some scan →
    (scan.wait = .racing ∧ s.batchesOf i = []) ∨
      (scan.wait ≠ .racing ∧ ∃ b, s.batchesOf i = [b] ∧ b.done = true ∧
        b.requestId = scan.request.requestId ∧ b.active = some i)

/-- No run that has lost the race reports while the batch that was sent in its place is under way.
-/
def InTime (s : ScanManager) : ScanAction → Prop
  | .report i _ _ => ∀ scan, s.scans[i]? = some scan → scan.ended = false → scan.wait ≠ .sending
  | _ => True

/-! ## What a step does -/

/-- Scan `i` goes on, and sends some batches. -/
def update (s : ScanManager) (i : Nat) (scan : Scan) (active : Option Nat) (bs : List Batch) :
    ScanManager :=
  ⟨active, s.scans.set i scan, s.sent ++ bs⟩

/-- A terminal batch of scan `i`. -/
def terminal (i : Nat) (scan : Scan) (devices : List Device) : Batch :=
  ⟨scan.request.requestId, devices, true, i, some i⟩

/-- How a scan goes on; what else is active then, and what it has sent. -/
inductive Turns (s : ScanManager) (a : ScanAction) (i : Nat) (scan scan' : Scan) :
    Option Nat → List Batch → Prop
  | ends (devices : List Device) : scan.wait = .racing → scan'.wait = .settled →
      Turns s a i scan scan' none [terminal i scan devices]
  | givesUp : scan.wait = .racing → scan'.wait = .sending →
      Turns s a i scan scan' s.active [terminal i scan []]
  | late (hits : List SubnetHits) (arp : OrderedMap Text Text) (devices : List Device) :
      a = .report i hits arp → scan.ended = false → scan.wait = .sending → scan'.wait = .sending →
      Turns s a i scan scan' s.active [terminal i scan devices]
  | quiet : scan.wait ≠ .racing → scan'.wait = scan.wait → Turns s a i scan scan' s.active []
  | leaves : scan.wait = .sending → scan'.wait = .settled → Turns s a i scan scan' none []

def requestIdOf (s : ScanManager) (i : Nat) : Option Text :=
  s.scans[i]?.map fun scan => scan.request.requestId

/-- What holds whenever a run may report. -/
structure Sound (s : ScanManager) : Prop where
  active : ∀ i scan, s.scans[i]? = some scan → (scan.wait ≠ .settled ↔ s.active = some i)
  started : ∀ i, s.active = some i → i < s.scans.length
  racing : ∀ i scan, s.scans[i]? = some scan → scan.wait = .racing →
    scan.ended = false ∧ scan.armed = true ∧ s.batchesOf i = []
  ended : ∀ i scan, s.scans[i]? = some scan → scan.wait ≠ .racing → s.batchesOf i ≠ []
  sent : ∀ b ∈ s.sent, b.done = true ∧ b.active = some b.scan ∧
    s.requestIdOf b.scan = some b.requestId

theorem send_active {s : ScanManager} {i : Nat} (h : s.active = some i) (requestId : Text)
    (devices : List Device) (done : Bool) : s.send i requestId devices done =
      { s with sent := s.sent ++ [⟨requestId, devices, done, i, some i⟩] } := by
  rw [send, if_neg (not_not.2 h), h]

theorem send_inactive {s : ScanManager} {i : Nat} (h : s.active ≠ some i) (requestId : Text)
    (devices : List Device) (done : Bool) : s.send i requestId devices done = s :=
  if_pos h

/-- A run that fails, and a time limit that passes, end the race if it is still on. -/
theorem giveUp_cases {s s' : ScanManager} {a : ScanAction} {i : Nat} {scan : Scan} (scan' : Scan)
    (hs : s.Sound) (hscan : s.scans[i]? = some scan) (hrequest : scan'.request = scan.request)
    (hwait' : scan'.wait = scan.wait)
    (h : (if scan'.wait = .racing then some (s.giveUp i scan') else some (s.setScan i scan')) =
      some s') : ∃ scan' active bs, s.scans[i]? = some scan ∧ scan'.request = scan.request ∧
        Turns s a i scan scan' active bs ∧ s' = s.update i scan' active bs := by
  split at h
  · rename_i hwait
    rw [hwait'] at hwait
    have hactive : (s.setScan i { scan' with wait := .sending }).active = some i :=
      (hs.active i scan hscan).1 (by simp [hwait])
    rw [giveUp, send_active hactive] at h
    obtain rfl := Option.some.inj h
    exact ⟨{ scan' with wait := .sending }, s.active, _, hscan, hrequest, .givesUp hwait rfl,
      by rw [terminal, ← hrequest]; rfl⟩
  · rename_i hwait
    rw [hwait'] at hwait
    obtain rfl := Option.some.inj h
    exact ⟨scan', s.active, [], hscan, hrequest, .quiet hwait hwait',
      by rw [update, List.append_nil]; rfl⟩

/-- A step is refused, starts a scan, or lets one go on. -/
theorem step_cases {s s' : ScanManager} {a : ScanAction} (hs : s.Sound) (h : s.step a = some s') :
    s' = s ∨
      (∃ r, s.active = none ∧ s' =
        ⟨some s.scans.length, s.scans ++ [⟨r, false, true, .racing⟩], s.sent⟩) ∨
      ∃ i scan scan' active bs, s.scans[i]? = some scan ∧ scan'.request = scan.request ∧
        Turns s a i scan scan' active bs ∧ s' = s.update i scan' active bs := by
  cases a with
  | start r =>
      simp only [step] at h
      split at h
      · exact Or.inl (Option.some.inj h).symm
      · rename_i hidle
        exact Or.inr (Or.inl ⟨r, by simpa using hidle, (Option.some.inj h).symm⟩)
  | report i hits arp =>
      obtain ⟨scan, hscan, h⟩ := Option.bind_eq_some_iff.1 h
      have hactive := hs.active i scan hscan
      refine Or.inr (Or.inr ⟨i, scan, ?_⟩)
      simp only at h
      split at h
      · cases h
      · rename_i hended
        cases hwait : scan.wait with
        | racing =>
            rw [if_pos hwait, send_active (hactive.1 (by simp [hwait]))] at h
            obtain rfl := Option.some.inj h
            exact ⟨⟨scan.request, true, false, .settled⟩, none, _, hscan, rfl, .ends _ hwait rfl,
              rfl⟩
        | sending =>
            rw [if_neg (by simp [hwait]), send_active (hactive.1 (by simp [hwait]))] at h
            obtain rfl := Option.some.inj h
            exact ⟨{ scan with ended := true }, s.active, _, hscan, rfl,
              .late hits arp _ rfl (by simpa using hended) hwait hwait, rfl⟩
        | settled =>
            have hnot : s.active ≠ some i := fun h => hactive.2 h hwait
            rw [if_neg (by simp [hwait]), send_inactive hnot] at h
            obtain rfl := Option.some.inj h
            exact ⟨{ scan with ended := true }, s.active, [], hscan, rfl,
              .quiet (by simp [hwait]) rfl, by rw [update, List.append_nil]; rfl⟩
  | fail i =>
      obtain ⟨scan, hscan, h⟩ := Option.bind_eq_some_iff.1 h
      simp only at h
      split at h
      · cases h
      · refine Or.inr (Or.inr ⟨i, scan, ?_⟩)
        exact giveUp_cases { scan with ended := true } hs hscan rfl rfl h
  | timeout i =>
      obtain ⟨scan, hscan, h⟩ := Option.bind_eq_some_iff.1 h
      simp only at h
      split at h
      · cases h
      · refine Or.inr (Or.inr ⟨i, scan, ?_⟩)
        exact giveUp_cases { scan with armed := false } hs hscan rfl rfl h
  | delivered i =>
      obtain ⟨scan, hscan, h⟩ := Option.bind_eq_some_iff.1 h
      refine Or.inr (Or.inr ⟨i, scan, ?_⟩)
      split at h
      · rename_i hwait
        obtain rfl := Option.some.inj h
        exact ⟨{ scan with armed := false, wait := .settled }, none, [], hscan, rfl,
          .leaves hwait rfl, by rw [update, List.append_nil]; rfl⟩
      · cases h

/-! ## The books of a scan -/

section Update

variable {s : ScanManager} {a : ScanAction} {i : Nat} {scan scan' : Scan} {active : Option Nat}
  {bs : List Batch}

/-- The batches are of the scan that goes on. -/
theorem Turns.batches (h : Turns s a i scan scan' active bs) : ∀ b ∈ bs,
    b.done = true ∧ b.scan = i ∧ b.active = some i ∧ b.requestId = scan.request.requestId := by
  have hterminal : ∀ devices, ∀ b ∈ [terminal i scan devices], b.done = true ∧ b.scan = i ∧
      b.active = some i ∧ b.requestId = scan.request.requestId := by
    intro devices b hb
    obtain rfl := List.mem_singleton.1 hb
    exact ⟨rfl, rfl, rfl, rfl⟩
  cases h with
  | ends devices => exact hterminal devices
  | givesUp => exact hterminal []
  | late hits arp devices => exact hterminal devices
  | quiet => simp
  | leaves => simp

theorem Turns.not_racing (h : Turns s a i scan scan' active bs) : scan'.wait ≠ .racing := by
  cases h with
  | ends _ _ h => simp [h]
  | givesUp _ h => simp [h]
  | late _ _ _ _ _ _ h => simp [h]
  | quiet h h' => exact h' ▸ h
  | leaves _ h => simp [h]

theorem batchesOf_update (h : Turns s a i scan scan' active bs) (j : Nat) :
    (s.update i scan' active bs).batchesOf j = s.batchesOf j ++ if i = j then bs else [] := by
  rw [batchesOf, update, List.filter_append]
  refine congrArg (s.batchesOf j ++ ·) ?_
  split
  · rename_i hij
    exact List.filter_eq_self.2 fun b hb => by simp [(h.batches b hb).2.1, hij]
  · rename_i hij
    exact List.filter_eq_nil_iff.2 fun b hb => by simp [(h.batches b hb).2.1, hij]

theorem requestIdOf_update (hscan : s.scans[i]? = some scan)
    (hrequest : scan'.request = scan.request) (j : Nat) :
    (s.update i scan' active bs).requestIdOf j = s.requestIdOf j := by
  have hlt : i < s.scans.length := (List.getElem?_eq_some_iff.1 hscan).1
  unfold requestIdOf
  by_cases hij : i = j
  · subst hij
    rw [update, List.getElem?_set_self hlt, hscan, Option.map_some, Option.map_some, hrequest]
  · rw [update, List.getElem?_set_ne hij]

theorem Turns.active_iff (h : Turns s a i scan scan' active bs) (hs : s.Sound)
    (hscan : s.scans[i]? = some scan) : scan'.wait ≠ .settled ↔ active = some i := by
  have hactive := hs.active i scan hscan
  cases h with
  | ends _ _ h => simp [h]
  | givesUp h h' => simpa [h', h] using hactive
  | late _ _ _ _ _ h h' => simpa [h', h] using hactive
  | quiet _ h' => rw [h', hactive]
  | leaves _ h => simp [h]

/-- What is active for the other scans: one of them, or none as before. -/
theorem Turns.active_other (h : Turns s a i scan scan' active bs) (hs : s.Sound)
    (hscan : s.scans[i]? = some scan) {j : Nat} (hij : i ≠ j) :
    s.active = some j ↔ active = some j := by
  have hactive := hs.active i scan hscan
  have hne : s.active = some i → ¬ s.active = some j := by
    intro hi hj
    exact hij (Option.some.inj (hi.symm.trans hj))
  cases h with
  | ends _ h _ => simpa using hne (hactive.1 (by simp [h]))
  | givesUp => exact Iff.rfl
  | late => exact Iff.rfl
  | quiet => exact Iff.rfl
  | leaves h _ => simpa using hne (hactive.1 (by simp [h]))

theorem Sound.update (hs : s.Sound) (hscan : s.scans[i]? = some scan)
    (hrequest : scan'.request = scan.request) (h : Turns s a i scan scan' active bs) :
    (s.update i scan' active bs).Sound := by
  constructor
  case active =>
    intro j scanj hj
    rcases getElem?_set_cases hj with ⟨rfl, rfl⟩ | ⟨hne, hold⟩
    · exact h.active_iff hs hscan
    · rw [hs.active j scanj hold]
      exact h.active_other hs hscan hne.symm
  case started =>
    intro j hj
    have hlength : (s.update i scan' active bs).scans.length = s.scans.length := List.length_set
    rw [hlength]
    by_cases hij : i = j
    · subst hij
      exact (List.getElem?_eq_some_iff.1 hscan).1
    · exact hs.started j ((h.active_other hs hscan hij).2 hj)
  case racing =>
    intro j scanj hj hrace
    rcases getElem?_set_cases hj with ⟨rfl, rfl⟩ | ⟨hne, hold⟩
    · exact absurd hrace h.not_racing
    · rw [batchesOf_update h, if_neg hne.symm, List.append_nil]
      exact hs.racing j scanj hold hrace
  case ended =>
    intro j scanj hj hrace
    rw [batchesOf_update h]
    rcases getElem?_set_cases hj with ⟨rfl, rfl⟩ | ⟨hne, hold⟩
    · rw [if_pos rfl]
      cases h with
      | ends => simp
      | givesUp => simp
      | late => simp
      | quiet hwait =>
          rw [List.append_nil]
          exact hs.ended j scan hscan hwait
      | leaves hwait =>
          rw [List.append_nil]
          exact hs.ended j scan hscan (by simp [hwait])
    · rw [if_neg hne.symm, List.append_nil]
      exact hs.ended j scanj hold hrace
  case sent =>
    intro b hb
    rw [requestIdOf_update hscan hrequest]
    rcases List.mem_append.1 hb with hb | hb
    · exact hs.sent b hb
    · obtain ⟨hdone, hof, hactive, hid⟩ := h.batches b hb
      rw [hof, requestIdOf, hscan]
      exact ⟨hdone, hactive, congrArg some hid.symm⟩

end Update

/-! ## Runs -/

theorem new_sound : new.Sound where
  active := by simp [new]
  started := by simp [new]
  racing := by simp [new]
  ended := by simp [new]
  sent := by simp [new]

theorem Sound.batchesOf_eq_nil {s : ScanManager} (hs : s.Sound) {i : Nat}
    (h : s.scans[i]? = none) : s.batchesOf i = [] := by
  refine List.filter_eq_nil_iff.2 fun b hb hof => ?_
  have hid := (hs.sent b hb).2.2
  rw [of_decide_eq_true hof, requestIdOf, h] at hid
  cases hid

theorem Sound.start {s : ScanManager} (hs : s.Sound) (hidle : s.active = none) (r : ScanRequest) :
    Sound ⟨some s.scans.length, s.scans ++ [⟨r, false, true, .racing⟩], s.sent⟩ := by
  constructor
  case active =>
    intro j scan hj
    rcases getElem?_concat_iff.1 hj with hold | ⟨rfl, rfl⟩
    · have hlt : j < s.scans.length := (List.getElem?_eq_some_iff.1 hold).1
      have hsettled := hs.active j scan hold
      rw [hidle] at hsettled
      have hne : some s.scans.length ≠ some j := fun h => hlt.ne (Option.some.inj h).symm
      simpa [hne] using hsettled
    · simp
  case started =>
    intro j hj
    obtain rfl := Option.some.inj hj
    simp
  case racing =>
    intro j scan hj hrace
    rcases getElem?_concat_iff.1 hj with hold | ⟨rfl, rfl⟩
    · exact hs.racing j scan hold hrace
    · exact ⟨rfl, rfl, hs.batchesOf_eq_nil (List.getElem?_eq_none (Nat.le_refl _))⟩
  case ended =>
    intro j scan hj hrace
    rcases getElem?_concat_iff.1 hj with hold | ⟨rfl, rfl⟩
    · exact hs.ended j scan hold hrace
    · exact absurd rfl hrace
  case sent =>
    intro b hb
    obtain ⟨hdone, hactive, hid⟩ := hs.sent b hb
    refine ⟨hdone, hactive, ?_⟩
    obtain ⟨scan, hscan, heq⟩ := Option.map_eq_some_iff.1 hid
    have hlt : b.scan < s.scans.length := (List.getElem?_eq_some_iff.1 hscan).1
    rw [requestIdOf, List.getElem?_append_left hlt, hscan, Option.map_some, heq]

theorem Sound.step {s s' : ScanManager} {a : ScanAction} (hs : s.Sound) (h : s.step a = some s') :
    s'.Sound := by
  rcases step_cases hs h with rfl | ⟨r, hidle, rfl⟩ | ⟨i, scan, scan', active, bs, hscan, hrequest,
    hturns, rfl⟩
  · exact hs
  · exact hs.start hidle r
  · exact hs.update hscan hrequest hturns

/-- No scan has sent two batches. -/
def Single (s : ScanManager) : Prop := ∀ i, (s.batchesOf i).length ≤ 1

theorem Single.step {s s' : ScanManager} {a : ScanAction} (hs : s.Sound) (hsingle : s.Single)
    (hok : s.InTime a) (h : s.step a = some s') : s'.Single := by
  rcases step_cases hs h with rfl | ⟨r, hidle, rfl⟩ | ⟨i, scan, scan', active, bs, hscan, hrequest,
    hturns, rfl⟩
  · exact hsingle
  · exact hsingle
  · intro j
    rw [batchesOf_update hturns]
    split
    · rename_i hij
      subst hij
      cases hturns with
      | ends _ hrace => simp [(hs.racing i scan hscan hrace).2.2]
      | givesUp hrace => simp [(hs.racing i scan hscan hrace).2.2]
      | late hits arp devices ha hended hsending =>
          subst ha
          exact absurd hsending (hok scan hscan hended)
      | quiet => simpa using hsingle i
      | leaves => simpa using hsingle i
    · simpa using hsingle j

theorem endsOnce_iff {s : ScanManager} (hs : s.Sound) : s.EndsOnce ↔ s.Single := by
  constructor
  · intro hends i
    cases hscan : s.scans[i]? with
    | none =>
        rw [hs.batchesOf_eq_nil hscan]
        exact Nat.zero_le 1
    | some scan =>
        rcases hends i scan hscan with ⟨_, hnone⟩ | ⟨_, b, hone, _⟩
        · simp [hnone]
        · simp [hone]
  · intro hsingle i scan hscan
    by_cases hrace : scan.wait = .racing
    · exact Or.inl ⟨hrace, (hs.racing i scan hscan hrace).2.2⟩
    · have hpos : 0 < (s.batchesOf i).length :=
        List.length_pos_of_ne_nil (hs.ended i scan hscan hrace)
      have hlength : (s.batchesOf i).length = 1 := Nat.le_antisymm (hsingle i) hpos
      obtain ⟨b, hb⟩ := List.length_eq_one_iff.1 hlength
      have hmem : b ∈ s.batchesOf i := hb ▸ List.mem_singleton_self b
      obtain ⟨hsent, hof⟩ := List.mem_filter.1 hmem
      obtain rfl := of_decide_eq_true hof
      obtain ⟨hdone, hactive, hid⟩ := hs.sent b hsent
      rw [requestIdOf, hscan] at hid
      exact Or.inr ⟨hrace, b, hb, hdone, (Option.some.inj hid).symm, hactive⟩

/-- A run that reports too late, but early enough to be sent, sends a second batch. -/
theorem inTime_of_single {s : ScanManager} (hs : s.Sound) {a : ScanAction}
    (h : ∀ s', s.step a = some s' → s'.Single) : s.InTime a := by
  cases a with
  | report i hits arp =>
      intro scan hscan hended hsending
      have hactive : s.active = some i := (hs.active i scan hscan).1 (by simp [hsending])
      have hstep : s.step (.report i hits arp) =
          some (s.update i { scan with ended := true } s.active [terminal i scan
            (runScan scan.request.activeScan scan.request.exclude scan.request.categories hits
              arp)]) := by
        simp [ScanManager.step, hscan, hended, hsending, send_active hactive, setScan, update,
          terminal]
      have hturns : Turns s (.report i hits arp) i scan { scan with ended := true } s.active
          [terminal i scan (runScan scan.request.activeScan scan.request.exclude
            scan.request.categories hits arp)] :=
        .late hits arp _ rfl hended hsending hsending
      have hsingle := h _ hstep i
      have hbefore := List.length_pos_of_ne_nil (hs.ended i scan hscan (by simp [hsending]))
      rw [batchesOf_update hturns, if_pos rfl, List.length_append, List.length_singleton] at hsingle
      omega
  | start => trivial
  | fail => trivial
  | timeout => trivial
  | delivered => trivial

/-- A scan that races can run into its time limit, and then its race is over. -/
theorem timeout_ends {s : ScanManager} (hs : s.Sound) {i : Nat} {scan : Scan}
    (hscan : s.scans[i]? = some scan) (hrace : scan.wait = .racing) :
    ∃ s', s.step (.timeout i) = some s' ∧
      ∀ scan', s'.scans[i]? = some scan' → scan'.wait ≠ .racing := by
  have harmed := (hs.racing i scan hscan hrace).2.1
  have hactive : s.active = some i := (hs.active i scan hscan).1 (by simp [hrace])
  have hstep : s.step (.timeout i) = some (s.update i { scan with armed := false, wait := .sending }
      s.active [terminal i scan []]) := by
    simp [ScanManager.step, hscan, harmed, hrace, giveUp, setScan, send, hactive, update, terminal]
  refine ⟨_, hstep, fun scan' hscan' => ?_⟩
  rcases getElem?_set_cases hscan' with ⟨_, rfl⟩ | ⟨hne, _⟩
  · simp
  · exact absurd rfl hne

/-- Every scan ends exactly once, in all the runs in which no run reports while the batch that was
sent in its place is under way, and in no others. -/
theorem ends_once (as : List ScanAction) :
    (Throughout step EndsOnce new as ↔ Admits step InTime new as) ∧
      ∀ s, exec step new as = some s → ∀ i scan, s.scans[i]? = some scan → scan.wait = .racing →
        ∃ s', s.step (.timeout i) = some s' ∧
          ∀ scan', s'.scans[i]? = some scan' → scan'.wait ≠ .racing := by
  refine ⟨⟨fun h => ?_, fun h => ?_⟩, fun s hrun i scan hscan hrace => ?_⟩
  · have hinv : ∀ s a s', Sound s → s.step a = some s' → Sound s' := fun s a s' hs => hs.step
    have hback : ∀ s a, Sound s → (∀ s', s.step a = some s' → s'.EndsOnce) → s.InTime a := by
      intro s a hs hafter
      exact inTime_of_single hs fun s' hs' => (endsOnce_iff (hs.step hs')).1 (hafter s' hs')
    exact admits_of_after hinv hback new_sound h
  · have hinv : ∀ s a s', (Sound s ∧ Single s) → InTime s a → s.step a = some s' →
        Sound s' ∧ Single s' := fun s a s' hs hok hstep =>
      ⟨hs.1.step hstep, hs.2.step hs.1 hok hstep⟩
    exact throughout_of_admits hinv (fun s hs => (endsOnce_iff hs.1).2 hs.2)
      ⟨new_sound, fun i => Nat.zero_le 1⟩ h
  · have hs : Sound s := exec_invariant (fun s a s' hs hstep => hs.step hstep) new_sound hrun
    exact timeout_ends hs hscan hrace

/-- The time limit passes, and the run reports before the empty batch has been delivered. -/
theorem second_end : ∃ s, exec step new [.start ⟨['r'], [['n']], false, false, []⟩, .timeout 0,
    .report 0 [] .empty] = some s ∧ s.batchesOf 0 = [⟨['r'], [], true, 0, some 0⟩,
      ⟨['r'], [], true, 0, some 0⟩] ∧ ¬ s.EndsOnce := by
  have hrun : ∃ s, exec step new [.start ⟨['r'], [['n']], false, false, []⟩, .timeout 0,
      .report 0 [] .empty] = some s ∧ s.batchesOf 0 = [⟨['r'], [], true, 0, some 0⟩,
        ⟨['r'], [], true, 0, some 0⟩] ∧ ∃ scan, s.scans[0]? = some scan := ⟨_, rfl, rfl, _, rfl⟩
  obtain ⟨s, hs, hsent, scan, hscan⟩ := hrun
  refine ⟨s, hs, hsent, fun hends => ?_⟩
  rcases hends 0 scan hscan with ⟨_, hnone⟩ | ⟨_, b, hone, _⟩
  · simp [hsent] at hnone
  · simp [hsent] at hone

end ScanManager

end Discovery
end GateControl
