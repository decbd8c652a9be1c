import GateControl.Radio.Zigbee

/-!
# NewDevices — devices that are found while a pairing window is open

A `tick` that ends compares the devices with the base of the last `pair` while the window and its
tail last, and else takes the base away.  `pair` takes its base before it asks deCONZ and opens the
window after that, so that a `tick` that ends in between takes the new base away: then no device is
noticed in the whole window.  A later `pair` also replaces the base and the end of an open window.
`Careful` says that none of this happens to a window that is open or about to be opened; then every
new device is noticed.
-/

namespace GateControl
namespace Radio

open Library

namespace Zigbee

/-! ## One step of a tick -/

theorem recent_notice {base : List Text} {now : Int} {ds : List Device} {recent : List Recent}
    {mac : Text} (h : mac ∈ recent.map fun r => r.device.mac) :
    mac ∈ (notice base now recent ds).map fun r => r.device.mac := by
  induction ds generalizing recent with
  | nil =>
      exact h
  | cons d ds ih =>
      rw [notice, List.foldl_cons]
      apply ih
      split
      · exact h
      · exact List.mem_cons_of_mem _ h

/-- Every device that is not of the base is in the list after the loop. -/
theorem mem_notice {base : List Text} {now : Int} {ds : List Device} {recent : List Recent}
    {d : Device} (hd : d ∈ ds) (hnew : d.mac ∉ base) :
    d.mac ∈ (notice base now recent ds).map fun r => r.device.mac := by
  induction ds generalizing recent with
  | nil =>
      cases hd
  | cons e ds ih =>
      rw [notice, List.foldl_cons]
      rcases List.mem_cons.1 hd with rfl | hd
      · -- the device is added, or it is in the list already
        apply recent_notice
        split
        · rename_i hold
          rw [Bool.or_eq_true, List.contains_iff_mem, List.any_eq_true] at hold
          obtain ⟨r, hr, hmac⟩ := hold.resolve_left hnew
          exact List.mem_map.2 ⟨r, hr, beq_iff_eq.1 hmac⟩
        · exact List.mem_cons_self
      · exact ih hd

theorem pairUntil_le_untilWith (z : Zigbee) (permitjoin now : Int) :
    z.pairUntil ≤ z.untilWith permitjoin now := by
  rw [untilWith]
  split
  · exact Int.le_max_left _ _
  · exact Int.le_refl _

theorem pairUntil_process (z : Zigbee) (permitjoin : Int) (devs : Devices) (now : Int) :
    (z.process permitjoin devs now).pairUntil = z.untilWith permitjoin now := by
  rw [process]
  dsimp only
  split
  · rfl
  · split
    · rfl
    · rfl

theorem recentMacs_process {z : Zigbee} {permitjoin : Int} {devs : Devices} {now : Int} {mac : Text}
    (h : mac ∈ z.recentMacs) : mac ∈ (z.process permitjoin devs now).recentMacs := by
  rw [process]
  dsimp only
  split
  · exact h
  · split
    · exact recent_notice h
    · exact h

/-- While the window and its tail last, the base stays and the new devices are noticed. -/
theorem process_of_open {z : Zigbee} {base : List Text} (hbase : z.pairBase = some base)
    {permitjoin now : Int} (hopen : now ≤ z.untilWith permitjoin now + pairTailMs)
    (devs : Devices) :
    (z.process permitjoin devs now).pairBase = some base ∧
      ∀ d ∈ devs.list, d.mac ∉ base → d.mac ∈ (z.process permitjoin devs now).recentMacs := by
  rw [process]
  simp only [hbase, if_pos hopen]
  exact ⟨trivial, fun d hd hnew => mem_notice hd hnew⟩

end Zigbee

namespace PairPhase

/-- The window that a call has opened. -/
def window : PairPhase → Option Window
  | .accepted w => some w
  | .key _ _ | .join _ _ | .notRunning | .keyNeeded | .failed => none

/-- The seconds that a call has asked deCONZ for, while it waits for the answer. -/
def joining : PairPhase → Option Int
  | .join seconds _ => some seconds
  | .key _ _ | .accepted _ | .notRunning | .keyNeeded | .failed => none

/-- The call goes on to take its base. -/
def hasKey : PairPhase → Bool
  | .key (.ready true) _ => true
  | .key (.ready false) _ | .key .creating _ | .join _ _ | .accepted _ | .notRunning | .keyNeeded
  | .failed => false

/-- The base of a call that will open its window, or of a window that is not over. -/
def awaited (clock : Option Int) : PairPhase → Option (List Text)
  | .join _ base => some base
  | .accepted w => if ∀ c ∈ clock, c ≤ w.stop then some w.base else none
  | .key _ _ | .notRunning | .keyNeeded | .failed => none

end PairPhase

namespace Pairing

/-! ## The condition -/

/-- Each device of the list is of the base, or was noticed. -/
def Known (z : Zigbee) (base macs : List Text) : Prop :=
  ∀ mac ∈ macs, mac ∈ base ∨ mac ∈ z.recentMacs

instance (z : Zigbee) (base macs : List Text) : Decidable (Known z base macs) :=
  inferInstanceAs (Decidable (∀ mac ∈ _, _ ∨ _))

/-- The clock has not been set back. -/
def OnTime (s : Pairing) (now : Int) : Prop := ∀ c ∈ s.clock, c ≤ now

instance (s : Pairing) (now : Int) : Decidable (OnTime s now) :=
  inferInstanceAs (Decidable (∀ c ∈ _, _))

/-- No `tick` takes a base away before its window is opened; no `pair` replaces the base of another
window by one with devices that this window has not noticed, or ends it early; nothing is forgotten
that only the newer base has; and the clock is not set back. -/
def Careful (s : Pairing) : ZigbeeAction → Prop
  | .rest _ (some (permitjoin, _, now)) => OnTime s now ∧
      (now ≤ s.untilWith permitjoin now + pairTailMs ∨ ∀ p ∈ s.pairs, p.joining = none)
  | .pairGo j => ∀ q ∈ s.pairs[j]?, q.hasKey = true →
      ∀ p ∈ s.pairs, ∀ base ∈ p.awaited s.clock, Known s.toZigbee base s.devices.macs
  | .joined j (some now) => OnTime s now ∧
      ∀ q ∈ s.pairs[j]?, ∀ seconds ∈ q.joining, ∀ p ∈ s.pairs, ∀ w ∈ p.window,
        now ≤ w.stop → w.stop ≤ now + seconds * 1000 + pairTailMs
  | .telemetry now => OnTime s now ∧
      ∀ p ∈ s.pairs, ∀ base ∈ p.awaited (some now), ∀ macs ∈ s.pairBase,
        Known (s.toZigbee.telemetry now) base macs
  | _ => True

instance (s : Pairing) : ∀ a, Decidable (Careful s a)
  | .rest _ (some _) => inferInstanceAs (Decidable (_ ∧ (_ ∨ ∀ p ∈ _, _)))
  | .pairGo _ => inferInstanceAs (Decidable (∀ q ∈ _, _ → ∀ p ∈ _, ∀ base ∈ _, _))
  | .joined _ (some _) => inferInstanceAs
      (Decidable (_ ∧ ∀ q ∈ _, ∀ seconds ∈ _, ∀ p ∈ _, ∀ w ∈ _, _ → _))
  | .telemetry _ => inferInstanceAs (Decidable (_ ∧ ∀ p ∈ _, ∀ base ∈ _, ∀ macs ∈ _, _))
  | .rest _ none | .joined _ none | .tick | .probed _ _ | .tickKey _ _ | .tickGo _ | .lights _ _
  | .pair _ | .pairKey _ _ => isTrue trivial

/-- In the window, the devices that were not of its base are in `recent`. -/
def NoticedIn (w : Window) (devs : Devices) (now : Int) (z : Zigbee) : Prop :=
  w.start < now → now ≤ w.stop → ∀ d ∈ devs.list, d.mac ∉ w.base → d.mac ∈ z.recentMacs

instance (w : Window) (devs : Devices) (now : Int) (z : Zigbee) :
    Decidable (NoticedIn w devs now z) :=
  inferInstanceAs (Decidable (_ → _ → ∀ d ∈ _, _ → _))

/-- After a `tick` that ends, the new devices of its lists are noticed in all windows that were
opened. -/
def Noticed (s : Pairing) : ZigbeeAction → Prop
  | .rest i (some (permitjoin, devs, now)) =>
      ∀ s' ∈ step s (.rest i (some (permitjoin, devs, now))), ∀ p ∈ s.pairs, ∀ w ∈ p.window,
        NoticedIn w devs now s'.toZigbee
  | _ => True

instance (s : Pairing) : ∀ a, Decidable (Noticed s a)
  | .rest _ (some _) => inferInstanceAs (Decidable (∀ s' ∈ _, ∀ p ∈ _, ∀ w ∈ _, _))
  | .rest _ none | .joined _ _ | .tick | .probed _ _ | .tickKey _ _ | .tickGo _ | .lights _ _
  | .pair _ | .pairKey _ _ | .pairGo _ | .telemetry _ => isTrue trivial

/-! ## Windows are guarded -/

/-- The bases that are still needed are covered by the base of the service, which lasts as long as
the open windows. -/
structure Guarded (s : Pairing) : Prop where
  covers : ∀ p ∈ s.pairs, ∀ base ∈ p.awaited s.clock,
    ∃ macs ∈ s.pairBase, Known s.toZigbee base macs
  lasts : ∀ p ∈ s.pairs, ∀ w ∈ p.window, OnTime s w.stop → w.stop ≤ s.pairUntil + pairTailMs

variable {s s' : Pairing} {base : List Text} {p : PairPhase} {w : Window} {now : Int}

theorem awaited_window (hp : w ∈ p.window) (hopen : OnTime s w.stop) :
    w.base ∈ p.awaited s.clock := by
  cases p with
  | accepted v =>
      cases hp
      exact if_pos hopen
  | _ =>
      cases hp

/-- What is awaited later was awaited before. -/
theorem awaited_mono (htime : OnTime s now) (h : base ∈ p.awaited (some now)) :
    base ∈ p.awaited s.clock := by
  cases p with
  | accepted v =>
      rw [PairPhase.awaited] at h ⊢
      split at h
      · rename_i hopen
        rw [if_pos fun c hc => Int.le_trans (htime c hc) (hopen now rfl)]
        exact h
      · cases h
  | _ =>
      exact h

/-- A phase that awaits nothing. -/
def Quiet (p : PairPhase) : Prop := p.window = none ∧ ∀ clock, p.awaited clock = none

/-- Nothing that matters to the windows has changed, and the calls that have changed await
nothing. -/
theorem Guarded.of_same (h : Guarded s) (hclock : s'.clock = s.clock)
    (hbase : s'.pairBase = s.pairBase) (hrecent : s'.recent = s.recent)
    (huntil : s'.pairUntil = s.pairUntil) (hpairs : ∀ p ∈ s'.pairs, p ∈ s.pairs ∨ Quiet p) :
    Guarded s' where
  covers p hp base hbase' := by
    rcases hpairs p hp with hp | hquiet
    · rw [hclock] at hbase'
      obtain ⟨macs, hmacs, hknown⟩ := h.covers p hp base hbase'
      rw [← hbase] at hmacs
      refine ⟨macs, hmacs, fun mac hmac => ?_⟩
      rw [Zigbee.recentMacs, hrecent]
      exact hknown mac hmac
    · rw [hquiet.2] at hbase'
      cases hbase'
  lasts p hp w hw hopen := by
    rcases hpairs p hp with hp | hquiet
    · rw [OnTime, hclock] at hopen
      rw [huntil]
      exact h.lasts p hp w hw hopen
    · rw [hquiet.1] at hw
      cases hw

theorem quiet_key (wait : KeyWait) (seconds : Int) : Quiet (.key wait seconds) :=
  ⟨rfl, fun _ => rfl⟩

theorem mem_setPair {j : Nat} {q : PairPhase} (hp : p ∈ (s.setPair j q).pairs) :
    p ∈ s.pairs ∨ p = q :=
  List.mem_or_eq_of_mem_set hp

/-- A call goes on to a phase that awaits nothing. -/
theorem Guarded.setPair (h : Guarded s) (j : Nat) {q : PairPhase} (hq : Quiet q) :
    Guarded (s.setPair j q) := by
  refine h.of_same rfl rfl rfl rfl fun p hp => ?_
  rcases mem_setPair hp with hp | rfl
  · exact .inl hp
  · exact .inr hq

theorem Guarded.setTick (h : Guarded s) (i : Nat) (q : TickPhase) : Guarded (s.setTick i q) :=
  h.of_same rfl rfl rfl rfl fun _ hp => .inl hp

/-- A new key does not matter to the windows. -/
theorem Guarded.keyCreated (h : Guarded s) (answer : KeyAnswer) :
    Guarded { s with toZigbee := (s.toZigbee.keyCreated answer).1 } := by
  cases answer with
  | created key =>
      exact h.of_same rfl rfl rfl rfl fun _ hp => .inl hp
  | needed =>
      exact h.of_same rfl rfl rfl rfl fun _ hp => .inl hp
  | failed =>
      exact h

theorem Guarded.probed (h : Guarded s) (i : Nat) (ok : Bool) : Guarded (s.probed i ok) := by
  rw [Pairing.probed]
  split
  · exact h.of_same rfl rfl rfl rfl fun _ hp => .inl hp
  · exact h.of_same rfl rfl rfl rfl fun _ hp => .inl hp

theorem Guarded.lights (h : Guarded s) (i : Nat) (again : Bool) (answer : LightsAnswer) :
    Guarded (s.lights i again answer) := by
  cases answer with
  | ok =>
      exact h.of_same rfl rfl rfl rfl fun _ hp => .inl hp
  | failed =>
      exact h.setTick i .ended
  | unauthorized =>
      rw [Pairing.lights]
      split
      · exact h.setTick i .ended
      · exact h.of_same rfl rfl rfl rfl fun _ hp => .inl hp

theorem Guarded.pair (h : Guarded s) (seconds : Option Int) : Guarded (s.pair seconds) := by
  refine h.of_same rfl rfl rfl rfl fun p hp => ?_
  rcases List.mem_append.1 hp with hp | hp
  · exact .inl hp
  · rw [List.mem_singleton.1 hp]
    right
    split
    · exact quiet_key _ _
    · exact ⟨rfl, fun _ => rfl⟩

/-- The end of a `tick` that takes no base away that is still needed. -/
theorem Guarded.rest (h : Guarded s) {i : Nat} {permitjoin : Int} {devs : Devices}
    (htime : OnTime s now)
    (hok : now ≤ s.untilWith permitjoin now + pairTailMs ∨ ∀ p ∈ s.pairs, p.joining = none) :
    Guarded (s.rest i (some (permitjoin, devs, now))) := by
  have huntil := s.toZigbee.pairUntil_le_untilWith permitjoin now
  -- the base stays as long as a call or an open window needs it
  have hopen : ∀ p ∈ s.pairs, ∀ base ∈ p.awaited (some now),
      now ≤ s.untilWith permitjoin now + pairTailMs := by
    intro p hp base hbase
    cases p with
    | join seconds b =>
        refine hok.resolve_right fun hnone => ?_
        cases hnone _ hp
    | accepted v =>
        have hv : ∀ c ∈ some now, c ≤ v.stop := by
          by_contra hover
          rw [PairPhase.awaited, if_neg hover] at hbase
          cases hbase
        have hlasts := h.lasts _ hp v rfl fun c hc => Int.le_trans (htime c hc) (hv now rfl)
        have hnow := hv now rfl
        omega
    | _ =>
        cases hbase
  constructor
  · intro p hp base hbase
    obtain ⟨macs, hmacs, hknown⟩ := h.covers p hp base (awaited_mono htime hbase)
    have hprocess := Zigbee.process_of_open hmacs (hopen p hp base hbase) devs
    exact ⟨macs, hprocess.1, fun mac hmac =>
      (hknown mac hmac).imp_right Zigbee.recentMacs_process⟩
  · intro p hp w hw hstop
    have hlasts := h.lasts p hp w hw fun c hc => Int.le_trans (htime c hc) (hstop now rfl)
    have hprocess := s.toZigbee.pairUntil_process permitjoin devs now
    rw [Pairing.rest, Pairing.setTick]
    dsimp only
    omega

/-- A call takes its base, and the windows that still need one know its devices. -/
theorem Guarded.pairGo (h : Guarded s) {j : Nat} {seconds : Int}
    (hok : ∀ p ∈ s.pairs, ∀ base ∈ p.awaited s.clock, Known s.toZigbee base s.devices.macs) :
    Guarded (s.pairGo j true seconds) := by
  constructor
  · intro p hp base hbase
    refine ⟨s.devices.macs, rfl, ?_⟩
    rcases mem_setPair hp with hp | rfl
    · exact hok p hp base hbase
    · cases hbase
      exact fun mac hmac => .inl hmac
  · intro p hp w hw hstop
    rcases mem_setPair hp with hp | rfl
    · exact h.lasts p hp w hw hstop
    · cases hw

/-- A call opens its window, and the open windows last as long as before. -/
theorem Guarded.joined (h : Guarded s) {j : Nat} {seconds : Int}
    (hj : s.pairs[j]? = some (.join seconds base)) (htime : OnTime s now)
    (hok : ∀ p ∈ s.pairs, ∀ w ∈ p.window, now ≤ w.stop →
      w.stop ≤ now + seconds * 1000 + pairTailMs) :
    Guarded (s.joined j seconds base (some now)) := by
  have hcovers : ∀ p ∈ s.pairs, ∀ base ∈ p.awaited (some now),
      ∃ macs ∈ s.pairBase, Known s.toZigbee base macs :=
    fun p hp base hbase => h.covers p hp base (awaited_mono htime hbase)
  constructor
  · intro p hp b hb
    rcases mem_setPair hp with hp | rfl
    · exact hcovers p hp b hb
    · -- the new window has the base of the call
      have hbase : b = base := by
        rw [PairPhase.awaited] at hb
        split at hb
        · exact (Option.some.inj hb).symm
        · cases hb
      rw [hbase]
      exact hcovers _ (List.mem_of_getElem? hj) base rfl
  · intro p hp w hw hstop
    rcases mem_setPair hp with hp | rfl
    · exact hok p hp w hw (hstop now rfl)
    · cases hw
      have htail : (0 : Int) ≤ pairTailMs := by decide
      simp only [Pairing.joined, Pairing.setPair, Window.stop]
      omega

theorem Guarded.telemetry (h : Guarded s) (htime : OnTime s now)
    (hok : ∀ p ∈ s.pairs, ∀ base ∈ p.awaited (some now), ∀ macs ∈ s.pairBase,
      Known (s.toZigbee.telemetry now) base macs) :
    Guarded { s with toZigbee := s.toZigbee.telemetry now, clock := some now } := by
  constructor
  · intro p hp base hbase
    obtain ⟨macs, hmacs, _⟩ := h.covers p hp base (awaited_mono htime hbase)
    exact ⟨macs, hmacs, hok p hp base hbase macs hmacs⟩
  · intro p hp w hw hstop
    exact h.lasts p hp w hw fun c hc => Int.le_trans (htime c hc) (hstop now rfl)

theorem step_guarded (s : Pairing) (a : ZigbeeAction) (s' : Pairing) (h : Guarded s) (hok : Careful s a)
    (hstep : step s a = some s') : Guarded s' := by
  cases a with
  | tick =>
      cases hstep
      exact h.of_same rfl rfl rfl rfl fun _ hp => .inl hp
  | probed i ok =>
      rw [step] at hstep
      split at hstep
      · cases hstep
        exact h.probed i ok
      · cases hstep
  | tickKey i answer =>
      rw [step] at hstep
      split at hstep
      · cases hstep
        exact (h.keyCreated answer).setTick i _
      · cases hstep
  | tickGo i =>
      rw [step] at hstep
      split at hstep
      · cases hstep
        exact h.setTick i _
      · cases hstep
  | lights i answer =>
      rw [step] at hstep
      split at hstep
      · cases hstep
        exact h.lights i _ answer
      · cases hstep
  | rest i answer =>
      rw [step] at hstep
      split at hstep
      · cases hstep
        cases answer with
        | none =>
            exact h.setTick i .ended
        | some r =>
            exact h.rest hok.1 hok.2
      · cases hstep
  | pair seconds =>
      cases hstep
      exact h.pair seconds
  | pairKey j answer =>
      rw [step] at hstep
      split at hstep
      · cases hstep
        refine (h.keyCreated answer).setPair j ?_
        cases answer with
        | created key =>
            exact quiet_key _ _
        | needed =>
            exact quiet_key _ _
        | failed =>
            exact ⟨rfl, fun _ => rfl⟩
      · cases hstep
  | pairGo j =>
      rw [step] at hstep
      split at hstep
      · rename_i got seconds hj
        cases hstep
        cases got with
        | true =>
            exact h.pairGo (hok _ hj rfl)
        | false =>
            exact h.setPair j ⟨rfl, fun _ => rfl⟩
      · cases hstep
  | joined j answer =>
      rw [step] at hstep
      split at hstep
      · rename_i seconds base hj
        cases hstep
        cases answer with
        | none =>
            exact h.setPair j ⟨rfl, fun _ => rfl⟩
        | some now =>
            exact h.joined hj hok.1 (hok.2 _ hj seconds rfl)
      · cases hstep
  | telemetry now =>
      cases hstep
      exact h.telemetry hok.1 hok.2

/-- In an open window the base of the service is there, and has only devices that are of the base of
the window or were noticed. -/
theorem Guarded.noticed (h : Guarded s) (a : ZigbeeAction) (hok : Careful s a) : Noticed s a := by
  cases a with
  | rest i answer =>
      cases answer with
      | none =>
          trivial
      | some r =>
          obtain ⟨permitjoin, devs, now⟩ := r
          intro s' hs' p hp w hw _ hstop d hd hnew
          have hopen : OnTime s w.stop := fun c hc => Int.le_trans (hok.1 c hc) hstop
          have hlasts := h.lasts p hp w hw hopen
          have huntil := s.toZigbee.pairUntil_le_untilWith permitjoin now
          obtain ⟨macs, hmacs, hknown⟩ := h.covers p hp w.base (awaited_window hw hopen)
          have hlast : now ≤ s.untilWith permitjoin now + pairTailMs := by omega
          have hprocess := Zigbee.process_of_open hmacs hlast devs
          rw [step] at hs'
          split at hs'
          · cases hs'
            by_cases hmac : d.mac ∈ macs
            · exact Zigbee.recentMacs_process ((hknown _ hmac).resolve_left hnew)
            · exact hprocess.2 d hd hmac
          · cases hs'
  | _ =>
      trivial

theorem start_guarded (key : Option Text) : Guarded (start key) where
  covers p hp := by cases hp
  lasts p hp := by cases hp

/-- In every run that takes no base away from a window, every device that was not known when `pair`
took its base and that a `tick` finds in the window is in `recent` after this `tick`. -/
theorem devices_noticed {key : Option Text} {as : List ZigbeeAction}
    (hok : Admits step Careful (start key) as) : Admits step Noticed (start key) as :=
  admits_of_admits step_guarded (fun _ a h hok => h.noticed a hok) (start_guarded key) hok

/-! ## Runs -/

def lamp : Device := ⟨"00:15:8d:00:01:02:03:04".toList, .light, none, none, none⟩

def plug : Device := ⟨"00:15:8d:00:01:02:03:05".toList, .light, none, none, none⟩

/-- A `tick` up to where it waits for the rest of its answers. -/
def tickBegins (i : Nat) : List ZigbeeAction := [.tick, .probed i true, .tickGo i, .lights i .ok]

def onlyLamp : Devices := ⟨[lamp], by decide⟩

def lampAndPlug : Devices := ⟨[lamp, plug], by decide⟩

/-- The plug is found in the window; then pairing is started once more. -/
def pairsTwice : List ZigbeeAction :=
  tickBegins 0 ++ [.rest 0 (some (0, onlyLamp, 1000000)), .pair (some 180), .pairGo 0,
    .joined 0 (some 1001000)] ++
  tickBegins 1 ++ [.rest 1 (some (175, lampAndPlug, 1006000)), .telemetry 1007000, .pair (some 180),
    .pairGo 1, .joined 1 (some 1010000)] ++
  tickBegins 2 ++ [.rest 2 (some (171, lampAndPlug, 1020000))]

theorem devices_noticed_pairsTwice : Admits step Noticed (start (some ['k'])) pairsTwice :=
  devices_noticed (by decide)

/-- A `tick` ends between `pairGo` and `joined`, and the window of three minutes notices nothing. -/
theorem device_not_noticed :
    ¬Admits step Noticed (start (some ['k']))
      (tickBegins 0 ++ [.rest 0 (some (0, onlyLamp, 1000000))] ++
        tickBegins 1 ++ [.pair (some 180), .pairGo 0, .rest 1 (some (0, onlyLamp, 1000100)),
          .joined 0 (some 1000200)] ++
        tickBegins 2 ++ [.rest 2 (some (120, lampAndPlug, 1060000))]) := by
  decide

end Pairing

end Radio
end GateControl
