import GateControl.Edge.Processes

/-!
# OneProcess — one live process for each plugin

`stopProcess` lets go of a process before its end is awaited.  The call of `reconcile` waits itself
for what it stops, but `onRpcOpen` stops processes beside it: meanwhile `reconcile` finds an entry
without a process and may start one.  Then two children of the plugin are alive, and the end of the
older one closes the sockets and subscriptions of its successor.

`StartsAlone` is exactly what keeps this from happening: no process is started while a run of
`onRpcOpen` still waits for an earlier one of the plugin.
-/

namespace GateControl
namespace Edge

open Library

namespace Host

/-! ## The property -/

/-- At most one child of a plugin is alive. -/
def OneLive (h : Host) : Prop :=
  ∀ n m q r, h.procs.get n = some q → h.procs.get m = some r → q.child = true → r.child = true →
    q.spec.id = r.spec.id → n = m

/-- The process for whose plugin a step calls `net.closeAll` and `mqtt.dropPlugin`: one that ends,
or one whose stop has been waited for. -/
def closes (h : Host) : Action → Option Nat
  | .exit n => (h.procs.get n).bind fun q => if q.child then some n else none
  | .resume => if h.gone h.taskWaits then h.taskWaits else none
  | .rpcResume i => (h.restarts[i]?).bind fun t => if h.gone t.waits then t.waits else none
  | _ => none

/-- What is closed does not belong to another process. -/
def ClosesOwn (h : Host) (a : Action) : Prop :=
  ∀ n q m r, h.closes a = some n → h.procs.get n = some q → h.procs.get m = some r →
    r.child = true → r.spec.id = q.spec.id → m = n

def OneProcess (h : Host) : Prop := h.OneLive ∧ ∀ a, h.ClosesOwn a

/-! ## The condition -/

/-- A process is only started when no run of `onRpcOpen` waits for an earlier one of the plugin. -/
def StartsAlone (h : Host) (a : Action) : Prop :=
  ∀ id, h.starts a = some id → ∀ t ∈ h.restarts, ∀ n q, t.waits = some n →
    h.procs.get n = some q → q.spec.id ≠ id

/-! ## The invariant -/

/-- Every process that is alive or will be started again is the one of its plugin's entry or is
awaited; an awaited one will not be started again, and its plugin has no other. -/
structure Single (h : Host) (W : Nat → Prop) : Prop where
  held : ∀ id n, h.held id = some n → ∃ q, h.procs.get n = some q ∧ q.spec.id = id
  waited : ∀ n, W n → ∃ q, h.procs.get n = some q ∧ q.wanted = false ∧ q.timer = false ∧
    h.held q.spec.id = none
  active : ∀ n q, h.procs.get n = some q → q.child = true ∨ q.timer = true →
    h.held q.spec.id = some n ∨ W n
  apart : ∀ n m q r, W n → W m → h.procs.get n = some q → h.procs.get m = some r →
    q.spec.id = r.spec.id → n = m

variable {h h' : Host}

namespace Single

variable {W W' : Nat → Prop}

/-- Whoever has ended need not be waited for. -/
theorem drop (hs : Single h W) (hsub : ∀ n, W' n → W n)
    (hgone : ∀ n, W n → W' n ∨ h.gone (some n) = true) : Single h W' := by
  refine ⟨hs.held, fun n hn => hs.waited n (hsub n hn), ?_, ?_⟩
  · intro n q hq hactive
    rcases hs.active n q hq hactive with hheld | hw
    · exact Or.inl hheld
    · rcases hgone n hw with hw' | hg
      · exact Or.inr hw'
      · -- it has ended and will not be started again
        rcases hs.waited n hw with ⟨q', hq', _, htimer, _⟩
        obtain rfl : q = q' := Option.some.inj (hq.symm.trans hq')
        have hchild : q.child = false := by simpa [gone, hq] using hg
        rw [hchild, htimer] at hactive
        simp at hactive
  · intro n m q r hn hm
    exact hs.apart n m q r (hsub n hn) (hsub m hm)

theorem same (hs : Single h W) (hsame : SameProcs h h') : Single h' W := by
  refine ⟨?_, ?_, ?_, ?_⟩
  · intro id n hn
    rw [hsame.held] at hn
    rw [hsame.procs]
    exact hs.held id n hn
  · intro n hn
    rcases hs.waited n hn with ⟨q, hq, hwanted, htimer, hnone⟩
    exact ⟨q, by rw [hsame.procs, hq], hwanted, htimer, by rw [hsame.held, hnone]⟩
  · intro n q hq hactive
    rw [hsame.procs] at hq
    rw [hsame.held]
    exact hs.active n q hq hactive
  · intro n m q r hn hm hq hr
    rw [hsame.procs] at hq hr
    exact hs.apart n m q r hn hm hq hr

/-- The process of a plugin is told to end: from now on it is awaited. -/
theorem stop {id : PluginId} {n : Nat} (hs : Single h W) (hheld : h.held id = some n)
    (hstop : Stopped h h' id) : Single h' fun m => W m ∨ some n = some m := by
  rcases hs.held id n hheld with ⟨q, hq, hid⟩
  have hprocs : h'.procs = (h.updateProc n fun q => { q with wanted := false, timer := false }).procs := by
    rw [hstop.procs, hheld]
  have hget : ∀ m r, h'.procs.get m = some r ↔
      (m = n ∧ r = { q with wanted := false, timer := false }) ∨ (m ≠ n ∧ h.procs.get m = some r) := by
    intro m r
    rw [hprocs]
    exact get_updateProc _ hq
  -- a process that was awaited before belongs to another plugin
  have hother : ∀ m r, W m → h.procs.get m = some r → r.spec.id ≠ id := by
    intro m r hm hr heq
    rcases hs.waited m hm with ⟨r', hr', _, _, hnone⟩
    obtain rfl : r = r' := Option.some.inj (hr.symm.trans hr')
    rw [heq, hheld] at hnone
    cases hnone
  refine ⟨?_, ?_, ?_, ?_⟩
  · intro j m hm
    rw [hstop.held] at hm
    split at hm
    · cases hm
    · rename_i hj
      rcases hs.held j m hm with ⟨r, hr, hrid⟩
      refine ⟨r, (hget m r).2 (Or.inr ⟨?_, hr⟩), hrid⟩
      rintro rfl
      obtain rfl : q = r := Option.some.inj (hq.symm.trans hr)
      exact hj (hrid.symm.trans hid)
  · intro m hm
    rcases hm with hm | hm
    · rcases hs.waited m hm with ⟨r, hr, hwanted, htimer, hnone⟩
      refine ⟨r, (hget m r).2 (Or.inr ⟨?_, hr⟩), hwanted, htimer, ?_⟩
      · rintro rfl
        obtain rfl : q = r := Option.some.inj (hq.symm.trans hr)
        exact hother m q hm hq hid
      · rw [hstop.held, if_neg (hother m r hm hr), hnone]
    · obtain rfl : n = m := Option.some.inj hm
      refine ⟨_, (hget n _).2 (Or.inl ⟨rfl, rfl⟩), rfl, rfl, ?_⟩
      rw [hstop.held, if_pos hid]
  · intro m r hr hactive
    rcases (hget m r).1 hr with ⟨rfl, rfl⟩ | ⟨hne, hr⟩
    · exact Or.inr (Or.inr rfl)
    · rcases hs.active m r hr hactive with hm | hm
      · refine Or.inl ?_
        rw [hstop.held, if_neg ?_, hm]
        intro heq
        rw [heq, hheld] at hm
        exact hne (Option.some.inj hm).symm
      · exact Or.inr (Or.inl hm)
  · intro m m' r r' hm hm' hr hr' heq
    have hcase : ∀ k x, (W k ∨ some n = some k) → h'.procs.get k = some x →
        (k = n ∧ x.spec.id = id) ∨ (W k ∧ h.procs.get k = some x) := by
      intro k x hk hx
      rcases (hget k x).1 hx with ⟨rfl, rfl⟩ | ⟨hne, hx⟩
      · exact Or.inl ⟨rfl, hid⟩
      · rcases hk with hk | hk
        · exact Or.inr ⟨hk, hx⟩
        · exact absurd (Option.some.inj hk).symm hne
    rcases hcase m r hm hr with ⟨rfl, hmid⟩ | ⟨hmW, hmr⟩
    · rcases hcase m' r' hm' hr' with ⟨rfl, _⟩ | ⟨hmW', hmr'⟩
      · rfl
      · exact absurd (heq.symm.trans hmid) (hother m' r' hmW' hmr')
    · rcases hcase m' r' hm' hr' with ⟨rfl, hmid'⟩ | ⟨hmW', hmr'⟩
      · exact absurd (heq.trans hmid') (hother m r hmW hmr)
      · exact hs.apart m m' r r' hmW hmW' hmr hmr' heq

/-- A process is started for a plugin of which none is awaited. -/
theorem start {spec : RunSpec} {pkg : Package} (hs : Single h W) (hb : Base h)
    (hstart : Started h h' spec pkg)
    (halone : ∀ n q, W n → h.procs.get n = some q → q.spec.id ≠ spec.id) : Single h' W := by
  obtain ⟨ref, hprocs⟩ := hstart.procs
  have hold : ∀ n q, h.procs.get n = some q → h'.procs.get n = some q := by
    intro n q hq
    rw [hprocs, OrderedMap.get_set_ne _ (Nat.ne_of_lt (hb.fresh n q hq)), hq]
  -- what is awaited is among the old processes
  have hwaited : ∀ n q, W n → h'.procs.get n = some q → h.procs.get n = some q := by
    intro n q hn hq
    rcases hs.waited n hn with ⟨q', hq', _⟩
    obtain rfl : q = q' := Option.some.inj (hq.symm.trans (hold n q' hq'))
    exact hq'
  refine ⟨?_, ?_, ?_, ?_⟩
  · intro j n hn
    rw [hstart.held] at hn
    split at hn
    · rename_i hj
      cases hn
      exact ⟨_, by rw [hprocs, OrderedMap.get_set_self], hj.symm⟩
    · rcases hs.held j n hn with ⟨q, hq, hid⟩
      exact ⟨q, hold n q hq, hid⟩
  · intro n hn
    rcases hs.waited n hn with ⟨q, hq, hwanted, htimer, hnone⟩
    refine ⟨q, hold n q hq, hwanted, htimer, ?_⟩
    rw [hstart.held, if_neg (halone n q hn hq), hnone]
  · intro n q hq hactive
    rw [hprocs] at hq
    rcases OrderedMap.get_set_cases hq with ⟨rfl, rfl⟩ | ⟨_, hq⟩
    · exact Or.inl (by rw [hstart.held, if_pos rfl])
    · rcases hs.active n q hq hactive with hheld | hw
      · refine Or.inl ?_
        rw [hstart.held, if_neg ?_, hheld]
        intro heq
        rw [heq, hstart.none] at hheld
        cases hheld
      · exact Or.inr hw
  · intro n m q r hn hm hq hr
    exact hs.apart n m q r hn hm (hwaited n q hn hq) (hwaited m r hm hr)

/-- A process ends or is started again. -/
theorem changeProc {n : Nat} {q : Proc} (hs : Single h W) (hq : h.procs.get n = some q)
    (hactive : q.child = true ∨ q.timer = true) {f : Proc → Proc} (hspec : (f q).spec = q.spec)
    (hwanted : (f q).wanted = q.wanted) (htimer : q.wanted = false → (f q).timer = false) :
    Single (h.updateProc n f) W := by
  have hget : ∀ m r, (h.updateProc n f).procs.get m = some r ↔
      (m = n ∧ r = f q) ∨ (m ≠ n ∧ h.procs.get m = some r) := fun m r => get_updateProc f hq
  have hold : ∀ m r, (h.updateProc n f).procs.get m = some r →
      ∃ r', h.procs.get m = some r' ∧ r'.spec = r.spec := by
    intro m r hr
    rcases (hget m r).1 hr with ⟨rfl, rfl⟩ | ⟨_, hr⟩
    · exact ⟨q, hq, hspec.symm⟩
    · exact ⟨r, hr, rfl⟩
  refine ⟨?_, ?_, ?_, ?_⟩
  · intro id m hm
    rw [held_updateProc] at hm
    rcases hs.held id m hm with ⟨r, hr, hid⟩
    by_cases hmn : m = n
    · subst hmn
      obtain rfl : q = r := Option.some.inj (hq.symm.trans hr)
      exact ⟨f q, (hget m _).2 (Or.inl ⟨rfl, rfl⟩), by rw [hspec, hid]⟩
    · exact ⟨r, (hget m r).2 (Or.inr ⟨hmn, hr⟩), hid⟩
  · intro m hm
    rcases hs.waited m hm with ⟨r, hr, hrwanted, hrtimer, hnone⟩
    by_cases hmn : m = n
    · subst hmn
      obtain rfl : q = r := Option.some.inj (hq.symm.trans hr)
      refine ⟨f q, (hget m _).2 (Or.inl ⟨rfl, rfl⟩), hwanted.trans hrwanted, htimer hrwanted, ?_⟩
      rw [held_updateProc, hspec, hnone]
    · exact ⟨r, (hget m r).2 (Or.inr ⟨hmn, hr⟩), hrwanted, hrtimer, by rw [held_updateProc, hnone]⟩
  · intro m r hr hact
    rw [held_updateProc]
    rcases (hget m r).1 hr with ⟨rfl, rfl⟩ | ⟨_, hr⟩
    · rw [hspec]
      exact hs.active m q hq hactive
    · exact hs.active m r hr hact
  · intro m m' r r' hm hm' hr hr' heq
    rcases hold m r hr with ⟨x, hx, hxs⟩
    rcases hold m' r' hr' with ⟨x', hx', hxs'⟩
    exact hs.apart m m' x x' hm hm' hx hx' (by rw [hxs, hxs', heq])

end Single

/-! ## Steps -/

/-- The host is in order: what is alive is held or awaited, once for each plugin. -/
structure Inv1 (h : Host) : Prop where
  base : Base h
  single : Single h h.Awaited

theorem Acts.single {b : Option PluginId} (ha : Acts h h' b) (hb : Base h)
    (hs : Single h h.Awaited)
    (halone : ∀ id, b = some id → ∀ t ∈ h.restarts, ∀ n q, t.waits = some n →
      h.procs.get n = some q → q.spec.id ≠ id) : Single h' h'.Awaited := by
  obtain ⟨w, heffect, hw, hw'⟩ := ha.effect
  -- first let go of what has ended, then look at the effect
  have hkept : Single h fun n => h.Awaited n ∧ h'.Awaited n := by
    refine hs.drop (fun n hn => hn.1) ?_
    intro n hn
    exact (ha.ended n hn).imp_left fun hn' => ⟨hn, hn'⟩
  have hsingle : Single h' fun n => (h.Awaited n ∧ h'.Awaited n) ∨ w = some n := by
    cases heffect with
    | quiet hsame =>
        refine (hkept.same hsame).drop ?_ fun n hn => Or.inl (Or.inl hn)
        rintro n (hn | hn)
        · exact hn
        · cases hn
    | stop id hstop =>
        cases hheld : h.held id with
        | some n =>
            exact hkept.stop hheld hstop
        | none =>
            have hsame : SameProcs h h' := by
              refine ⟨?_, ?_, hstop.next⟩
              · intro j
                rw [hstop.held]
                split
                · rename_i hj
                  rw [hj, hheld]
                · rfl
              · rw [hstop.procs, hheld]
            refine (hkept.same hsame).drop ?_ fun n hn => Or.inl (Or.inl hn)
            rintro n (hn | hn)
            · exact hn
            · cases hn
    | start spec pkg hstart =>
        have hstarted : Single h' fun n => h.Awaited n ∧ h'.Awaited n := by
          refine hkept.start hb hstart ?_
          intro n q hn hq
          rcases (ha.kept (Option.some_ne_none _) n).1 hn.2 with ⟨t, ht, hwaits⟩
          exact halone _ rfl t ht n q hwaits hq
        refine hstarted.drop ?_ fun n hn => Or.inl (Or.inl hn)
        rintro n (hn | hn)
        · exact hn
        · cases hn
  refine hsingle.drop ?_ ?_
  · intro n hn
    rcases hw' n hn with hold | hnew
    · exact Or.inl ⟨hold, hn⟩
    · exact Or.inr hnew
  · rintro n (hn | hn)
    · exact Or.inl hn.2
    · exact Or.inl (hw n hn)

theorem awaited_updateProc (n : Nat) (f : Proc → Proc) :
    (h.updateProc n f).Awaited = h.Awaited := by
  funext m
  rw [Awaited, Awaited, taskWaits, taskWaits, updateProc_task, updateProc_restarts]

theorem step_single {a : Action} (hi : Inv1 h) (hok : h.StartsAlone a) (hs : h.step a = some h') :
    Inv1 h' := by
  refine ⟨step_base h a h' hi.base hs, ?_⟩
  rcases step_cases hi.base.frame hs with hacts | ⟨n, q, _, hq, hchild, rfl⟩ |
    ⟨n, q, _, hq, htimer, rfl⟩
  · exact hacts.single hi.base hi.single hok
  · rw [awaited_updateProc]
    exact hi.single.changeProc hq (Or.inl hchild) rfl rfl id
  · rw [awaited_updateProc]
    exact hi.single.changeProc hq (Or.inr htimer) rfl rfl fun _ => rfl

theorem start_inv1 (store : OrderedMap (PluginId × Version) Package) (localMqtt : Bool) (now : Int) :
    Inv1 (start store localMqtt now) := by
  refine ⟨start_base store localMqtt now, ⟨?_, ?_, ?_, ?_⟩⟩
  · intro id n hn
    cases hn
  · rintro n (hn | ⟨t, ht, _⟩)
    · cases hn
    · cases ht
  · intro n q hq
    cases hq
  · intro n m q r _ _ hq
    cases hq

/-- A process on whose behalf something is closed is one that ends, or one that is awaited. -/
theorem closes_cases {a : Action} {n : Nat} (hc : h.closes a = some n) :
    (∃ q, h.procs.get n = some q ∧ q.child = true) ∨ h.Awaited n := by
  cases a with
  | exit m =>
      rcases Option.bind_eq_some_iff.1 hc with ⟨q, hq, hn⟩
      split at hn
      · rename_i hchild
        cases hn
        exact Or.inl ⟨q, hq, hchild⟩
      · cases hn
  | resume =>
      simp only [closes] at hc
      split at hc
      · exact Or.inr (Or.inl hc)
      · cases hc
  | rpcResume i =>
      rcases Option.bind_eq_some_iff.1 hc with ⟨t, ht, hn⟩
      split at hn
      · exact Or.inr (Or.inr ⟨t, List.mem_of_getElem? ht, hn⟩)
      · cases hn
  | state st =>
      cases hc
  | fenceChecked mode active was =>
      cases hc
  | clock now =>
      cases hc
  | downloaded o =>
      cases hc
  | rpcOpen =>
      cases hc
  | restart m =>
      cases hc
  | ready m =>
      cases hc

theorem Inv1.oneProcess (hi : Inv1 h) : h.OneProcess := by
  -- an active process excludes an awaited one of the same plugin
  have hwaited : ∀ n m q r, h.Awaited n → h.procs.get n = some q → h.procs.get m = some r →
      r.child = true → r.spec.id = q.spec.id → m = n := by
    intro n m q r hn hq hr hchild hid
    rcases hi.single.active m r hr (Or.inl hchild) with hheld | hm
    · rcases hi.single.waited n hn with ⟨q', hq', _, _, hnone⟩
      obtain rfl : q = q' := Option.some.inj (hq.symm.trans hq')
      rw [← hid, hheld] at hnone
      cases hnone
    · exact hi.single.apart m n r q hm hn hr hq hid
  have hlive : h.OneLive := by
    intro n m q r hq hr hqc hrc hid
    rcases hi.single.active n q hq (Or.inl hqc) with hn | hn
    · rcases hi.single.active m r hr (Or.inl hrc) with hm | hm
      · rw [hid, hm] at hn
        exact (Option.some.inj hn).symm
      · exact hwaited m n r q hm hr hq hqc hid
    · exact (hwaited n m q r hn hq hr hrc hid.symm).symm
  refine ⟨hlive, ?_⟩
  intro a n q m r hc hq hr hrc hid
  rcases closes_cases hc with ⟨q', hq', hqc⟩ | hn
  · obtain rfl : q = q' := Option.some.inj (hq.symm.trans hq')
    exact hlive m n r q hr hq hrc hqc hid
  · exact hwaited n m q r hn hq hr hrc hid

/-- A process that is started beside an awaited one breaks the property at once. -/
theorem startsAlone_of_oneProcess {a : Action} (hb : Base h) (hs : h.step a = some h')
    (hone : h'.OneProcess) : h.StartsAlone a := by
  intro id hstarts t ht n q hwaits hq hid
  have hacts : Acts h h' (h.starts a) := by
    rcases step_cases hb.frame hs with hacts | ⟨m, r, rfl, _⟩ | ⟨m, r, rfl, _⟩
    · exact hacts
    · cases hstarts
    · cases hstarts
  have hawaited : h'.Awaited n :=
    (hacts.kept (by rw [hstarts]; exact Option.some_ne_none id) n).2 ⟨t, ht, hwaits⟩
  obtain ⟨w, heffect, _, _⟩ := hacts.effect
  rw [hstarts] at heffect
  cases heffect with
  | start spec pkg hstart =>
      obtain ⟨ref, hprocs⟩ := hstart.procs
      have hne : h.nextProc ≠ n := fun heq => (Nat.ne_of_lt (hb.fresh n q hq)) heq.symm
      have hold : h'.procs.get n = some q := by
        rw [hprocs, OrderedMap.get_set_ne _ (Ne.symm hne), hq]
      have hnew : h'.procs.get h.nextProc = some ⟨spec, pkg, ref, true, true, false⟩ := by
        rw [hprocs, OrderedMap.get_set_self]
      cases hchild : q.child with
      | true =>
          exact hne (hone.1 _ n _ q hnew hold rfl hchild hid.symm)
      | false =>
          -- the old one has ended: the run that waits for it goes on to close
          rcases hawaited with htask | ⟨t', ht', hwaits'⟩
          · have hcloses : h'.closes .resume = some n := by
              simp [closes, htask, gone, hold, hchild]
            exact hne (hone.2 .resume n q _ _ hcloses hold hnew rfl hid.symm)
          · rcases List.mem_iff_getElem?.1 ht' with ⟨i, hi⟩
            have hcloses : h'.closes (.rpcResume i) = some n := by
              simp [closes, hi, hwaits', gone, hold, hchild]
            exact hne (hone.2 (.rpcResume i) n q _ _ hcloses hold hnew rfl hid.symm)

/-- Along every run: at most one child of each plugin is alive and nothing is closed that belongs to
another process, exactly if no process is started beside one that `onRpcOpen` waits for. -/
theorem one_process (store : OrderedMap (PluginId × Version) Package) (localMqtt : Bool) (now : Int)
    {as : List Action} {t : Host} (hrun : exec step (start store localMqtt now) as = some t) :
    Throughout step OneProcess (start store localMqtt now) as ↔
      Admits step StartsAlone (start store localMqtt now) as := by
  constructor
  · intro hone
    exact admits_of_throughout step_base
      (fun _ _ _ hb hs hone => startsAlone_of_oneProcess hb hs hone)
      (start_base store localMqtt now) hrun hone
  · intro hok
    exact throughout_of_admits (fun _ _ _ hi hok hs => step_single hi hok hs)
      (fun _ hi => hi.oneProcess) (start_inv1 store localMqtt now) hok

/-- A plugin runs, and no call is under way. -/
def running : List Action := firstStart .trusted false ++ [.resume]

/-- The socket to the gateway comes back; its run waits for the process it has stopped when a new
`state` message makes the host start another one. -/
theorem two_live_processes :
    ∃ t, exec step (start .empty false 0)
        (running ++ [.rpcOpen, .state (wantDemo "1.0.0" "aa" false), .resume]) = some t ∧
      (∃ e, t.plugins.get "demo" = some e ∧ e.ref = 0 ∧ t.nextRef = 1) ∧
      (∃ q r, t.procs.get 0 = some q ∧ t.procs.get 1 = some r ∧ q.spec.id = "demo" ∧
        r.spec.id = "demo" ∧ q.child = true ∧ r.child = true ∧
        t.closes (.exit 0) = some 0) ∧
      ¬ t.OneLive ∧ ¬ t.ClosesOwn (.exit 0) := by
  have hrun : (exec step (start .empty false 0)
      (running ++ [.rpcOpen, .state (wantDemo "1.0.0" "aa" false), .resume])).any (fun t =>
      ((t.plugins.get "demo").any fun e => e.ref = 0) && t.nextRef = 1 &&
        ((t.procs.get 0).any fun q => q.spec.id = "demo" && q.child) &&
        ((t.procs.get 1).any fun r => r.spec.id = "demo" && r.child) &&
        t.closes (.exit 0) = some 0) = true := by
    decide +kernel
  rcases (Option.any_eq_true ..).1 hrun with ⟨t, ht, hbad⟩
  simp only [Bool.and_eq_true, decide_eq_true_eq, Option.any_eq_true] at hbad
  rcases hbad with ⟨⟨⟨⟨⟨e, he, href⟩, hnext⟩, q, hq, hqid, hqc⟩, r, hr, hrid, hrc⟩, hcloses⟩
  refine ⟨t, ht, ⟨e, he, href, hnext⟩, ⟨q, r, hq, hr, hqid, hrid, hqc, hrc, hcloses⟩, ?_, ?_⟩
  · intro hone
    cases hone 0 1 q r hq hr hqc hrc (hqid.trans hrid.symm)
  · intro hown
    cases hown 0 q 1 r hcloses hq hr hrc (hrid.trans hqid.symm)

/-- The process has ended before the host is asked to start another one. -/
theorem one_process_after_reconnect :
    (exec step (start .empty false 0)
        (running ++ [.rpcOpen, .exit 0, .rpcResume 0, .resume])).any (fun t =>
      t.held "demo" = some 1) = true ∧
      Throughout step OneProcess (start .empty false 0)
        (running ++ [.rpcOpen, .exit 0, .rpcResume 0, .resume]) := by
  have hrun : (exec step (start .empty false 0)
      (running ++ [.rpcOpen, .exit 0, .rpcResume 0, .resume])).any (fun t =>
        t.held "demo" = some 1) = true := by
    decide +kernel
  rcases (Option.any_eq_true ..).1 hrun with ⟨t, ht, _⟩
  refine ⟨hrun, (one_process .empty false 0 ht).2 ?_⟩
  -- whenever a process is started, no run of `onRpcOpen` is under way
  have hcheck : checkRun step (fun h a => decide (h.restarts = []) || decide (h.starts a = none))
      (start .empty false 0) (running ++ [.rpcOpen, .exit 0, .rpcResume 0, .resume]) = true := by
    decide +kernel
  refine admits_of_checkRun ?_ hcheck
  intro h a htest id hid t ht
  rcases Bool.or_eq_true_iff.1 htest with hnil | hnone
  · rw [of_decide_eq_true hnil] at ht
    cases ht
  · rw [of_decide_eq_true hnone] at hid
    cases hid

end Host

end Edge
end GateControl
