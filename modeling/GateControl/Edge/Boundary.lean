import GateControl.Edge.OneProcess

/-!
# Boundary — no plugin starts without the network boundary

`ensurePlugin` looks at the result of the last check of the boundary before it starts a process.
Two forks come later than that look: the one after an old process has been stopped to make room, and
the one of the timer that starts a crashed process again.
-/

namespace GateControl
namespace Edge

open Library

namespace Host

/-- The result of a check: the boundary is active, and in the mode that was found at first. -/
def checkResult (h : Host) (mode : Mode) (active : Bool) : Bool :=
  active && h.mode.all fun m => m = mode

/-- What the last check that has completed found, after a step. -/
def lastResult (h : Host) : Action → Bool
  | .fenceChecked mode active _ => h.checkResult mode active
  | _ => h.fence

/-- A child is alive that was not before. -/
def Forks (h h' : Host) : Prop :=
  ∃ n q', h'.procs.get n = some q' ∧ q'.child = true ∧
    ∀ q, h.procs.get n = some q → q.child = false

/-- If a step forks, the last check of the boundary found it active. -/
def ForksBehindFence (h : Host) (a : Action) : Prop :=
  ∀ h', h.step a = some h' → Forks h h' → h.fence = true

/-- The boundary is active when the timer of a crashed process fires, and when a process is started
after the old one has been stopped. -/
def FenceUp (h : Host) : Action → Prop
  | .restart _ => h.fence = true
  | .resume => ∀ st p rest waits spec pkg, h.task = some (.stopping st p rest waits (.start spec pkg)) →
      h.held p.id = none → h.fence = true
  | _ => True

variable {h h' : Host}

/-! ## `fence` is the result of the last check -/

theorem requestReconcile_fence (h : Host) : h.requestReconcile.fence = h.fence := by
  rcases requestReconcile_step h with ⟨heq, _⟩ | ⟨hs, _⟩
  · rw [heq]
  · exact hs.fence

theorem stopRunning_fence (h : Host) (list : List (PluginId × Nat)) :
    (h.stopRunning list).1.fence = h.fence := by
  cases list with
  | nil =>
      exact requestReconcile_fence h
  | cons e rest =>
      unfold stopRunning
      simp only
      split
      · exact stopProcess_fence h e.1
      · rfl

/-- Nothing but a check writes the result. -/
theorem step_fence {a : Action} (hb : Base h) (hs : h.step a = some h') :
    h'.fence = h.lastResult a := by
  cases a with
  | state st =>
      cases hs
      exact requestReconcile_fence _
  | fenceChecked mode active was =>
      simp only [step, Option.some.injEq] at hs
      rw [← hs]
      split
      · exact requestReconcile_fence _
      · rfl
  | clock now =>
      cases hs
      rfl
  | resume =>
      exact (resume_step hb.frame hs).1.fence
  | downloaded o =>
      exact (downloaded_taskStep hb.frame hs).1.fence
  | rpcOpen =>
      simp only [step] at hs
      split at hs
      · cases hs
        rfl
      · cases hs
        exact stopRunning_fence h _
  | rpcResume i =>
      simp only [step] at hs
      split at hs
      · cases hs
      · split at hs
        · cases hs
          exact stopRunning_fence h _
        · cases hs
  | exit n =>
      simp only [step] at hs
      split at hs
      · split at hs
        · cases hs
          exact updateProc_fence h n _
        · cases hs
      · cases hs
  | restart n =>
      simp only [step] at hs
      split at hs
      · split at hs
        · cases hs
          exact updateProc_fence h n _
        · cases hs
      · cases hs
  | ready n =>
      simp only [step] at hs
      split at hs
      · split at hs
        · cases hs
          rfl
        · cases hs
      · cases hs

/-! ## Forks -/

/-- Only a start is a fork. -/
theorem Effect.forks {b : Option PluginId} {w : Option Nat} (he : Effect h h' b w)
    (hf : Forks h h') : b ≠ none := by
  rcases hf with ⟨n, q', hq', hchild, hold⟩
  cases he with
  | quiet hsame =>
      rw [hsame.procs] at hq'
      rw [hold q' hq'] at hchild
      cases hchild
  | stop id hstop =>
      rw [hstop.procs] at hq'
      split at hq'
      · rename_i m _
        cases hm : h.procs.get m with
        | none =>
            rw [updateProc_procs, hm] at hq'
            rw [hold q' hq'] at hchild
            cases hchild
        | some r =>
            rcases (get_updateProc _ hm).1 hq' with ⟨rfl, rfl⟩ | ⟨_, hq'⟩
            · rw [hold r hm] at hchild
              cases hchild
            · rw [hold q' hq'] at hchild
              cases hchild
      · rw [hold q' hq'] at hchild
        cases hchild
  | start spec pkg hstart =>
      exact Option.some_ne_none spec.id

theorem started_forks {b : Option PluginId} {w : Option Nat} (hb : Base h) (he : Effect h h' b w)
    (hne : b ≠ none) : Forks h h' := by
  cases he with
  | quiet hsame =>
      exact absurd rfl hne
  | stop id hstop =>
      exact absurd rfl hne
  | start spec pkg hstart =>
      obtain ⟨ref, hprocs⟩ := hstart.procs
      refine ⟨h.nextProc, _, by rw [hprocs, OrderedMap.get_set_self], rfl, ?_⟩
      intro q hq
      exact absurd (hb.fresh _ q hq) (Nat.lt_irrefl _)

/-- The timer of a crashed process is always a fork. -/
theorem restart_forks {n : Nat} (hb : Base h) (hs : h.step (.restart n) = some h') : Forks h h' := by
  simp only [step] at hs
  split at hs
  · rename_i q hq
    split at hs
    · rename_i htimer
      cases hs
      refine ⟨n, _, (get_updateProc _ hq).2 (Or.inl ⟨rfl, rfl⟩), rfl, ?_⟩
      intro q' hq'
      obtain rfl : q = q' := Option.some.inj (hq.symm.trans hq')
      exact hb.timer n q hq htimer
    · cases hs
  · cases hs

/-- The gate of `ensurePlugin`: a start is behind the boundary, unless it follows a stop. -/
theorem starts_gate {a : Action} {id : PluginId} (hs : h.starts a = some id) :
    h.fence = true ∨ ∃ st p rest waits spec pkg, a = .resume ∧
      h.task = some (.stopping st p rest waits (.start spec pkg)) ∧ h.held p.id = none := by
  have hlaunch : ∀ {st p pkg}, h.launches st p pkg = true → h.fence = true := by
    intro st p pkg hl
    simp only [launches, Bool.and_eq_true] at hl
    exact hl.1.2
  cases a with
  | resume =>
      simp only [starts] at hs
      split at hs
      · split at hs
        · rename_i htest
          simp only [Bool.and_eq_true, Option.any_eq_true] at htest
          rcases htest.2 with ⟨pkg, _, hl⟩
          exact Or.inl (hlaunch hl)
        · cases hs
      · rename_i st p rest waits spec pkg htask
        split at hs
        · rename_i htest
          simp only [Bool.and_eq_true, Option.isNone_iff_eq_none] at htest
          exact Or.inr ⟨st, p, rest, waits, spec, pkg, rfl, htask, htest.2⟩
        · cases hs
      · cases hs
  | downloaded o =>
      simp only [starts] at hs
      split at hs
      · split at hs
        · split at hs
          · rename_i hl
            exact Or.inl (hlaunch hl)
          · cases hs
        · cases hs
      · cases hs
  | state st =>
      cases hs
  | fenceChecked mode active was =>
      cases hs
  | clock now =>
      cases hs
  | rpcOpen =>
      cases hs
  | rpcResume i =>
      cases hs
  | exit n =>
      cases hs
  | restart n =>
      cases hs
  | ready n =>
      cases hs

/-- A step keeps to the boundary exactly if the condition holds before it. -/
theorem forksBehindFence_iff {a : Action} (hb : Base h) (hs : h.step a = some h') :
    h.ForksBehindFence a ↔ h.FenceUp a := by
  have hdet : ∀ h'', h.step a = some h'' → h'' = h' := by
    intro h'' hs''
    exact Option.some.inj (hs''.symm.trans hs)
  rcases step_cases hb.frame hs with hacts | ⟨n, q, rfl, hq, hchild, rfl⟩ |
    ⟨n, q, rfl, hq, htimer, rfl⟩
  · obtain ⟨w, heffect, _, _⟩ := hacts.effect
    constructor
    · intro hfork
      cases a with
      | resume =>
          intro st p rest waits spec pkg htask hnone
          -- the step is possible, so the old process has ended
          have hgone : h.gone waits = true := by
            simp only [step, resume, htask] at hs
            split at hs
            · assumption
            · cases hs
          have hstarts : h.starts .resume = some p.id := by
            simp [starts, htask, hgone, hnone]
          rw [hstarts] at heffect
          exact hfork h' hs (started_forks hb heffect (Option.some_ne_none _))
      | restart n =>
          exact hfork h' hs (restart_forks hb hs)
      | state st =>
          trivial
      | fenceChecked mode active was =>
          trivial
      | clock now =>
          trivial
      | downloaded o =>
          trivial
      | rpcOpen =>
          trivial
      | rpcResume i =>
          trivial
      | exit n =>
          trivial
      | ready n =>
          trivial
    · intro hup h'' hs'' hfork
      obtain rfl := hdet h'' hs''
      obtain ⟨id, hid⟩ := Option.ne_none_iff_exists'.1 (heffect.forks hfork)
      rcases starts_gate hid with hfence | ⟨st, p, rest, waits, spec, pkg, rfl, htask, hnone⟩
      · exact hfence
      · exact hup st p rest waits spec pkg htask hnone
  · -- the end of a child is no fork
    refine ⟨fun _ => trivial, ?_⟩
    intro _ h'' hs'' hfork
    obtain rfl := hdet h'' hs''
    rcases hfork with ⟨m, r, hr, hrc, hold⟩
    rcases (get_updateProc _ hq).1 hr with ⟨rfl, rfl⟩ | ⟨_, hr⟩
    · cases hrc
    · rw [hold r hr] at hrc
      cases hrc
  · constructor
    · intro hfork
      exact hfork _ hs (restart_forks hb hs)
    · intro hup h'' _ _
      exact hup

/-- Along every run `fence` is the result of the last check; and each fork finds it active, exactly
if it is active whenever a timer starts a crashed process again and whenever a process follows a
stopped one. -/
theorem forks_behind_fence (store : OrderedMap (PluginId × Version) Package) (localMqtt : Bool)
    (now : Int) {as : List Action} {t : Host}
    (hrun : exec step (start store localMqtt now) as = some t) :
    Admits step (fun h a => ∀ h', h.step a = some h' → h'.fence = h.lastResult a)
        (start store localMqtt now) as ∧
      (Admits step ForksBehindFence (start store localMqtt now) as ↔
        Admits step FenceUp (start store localMqtt now) as) := by
  have hbase := start_base store localMqtt now
  constructor
  · have hresult : ∀ (h : Host) (a : Action) (h' : Host), Base h → h.step a = some h' →
        ((∀ h'', h.step a = some h'' → h''.fence = h.lastResult a) ↔ True) := by
      intro h a h' hb _
      exact iff_true_intro fun h'' hs'' => step_fence hb hs''
    exact (admits_congr hresult step_base hbase hrun).2 (admits_true _ _)
  · have hiff : ∀ (h : Host) (a : Action) (h' : Host), Base h → h.step a = some h' →
        (h.ForksBehindFence a ↔ h.FenceUp a) := by
      intro h a h' hb hs
      exact forksBehindFence_iff hb hs
    exact admits_congr hiff step_base hbase hrun

/-- A plugin has crashed and waits to be started again; the call that reacts to the loss of the
boundary is queued behind the download of another plugin. -/
def demoAndOther : Desired where
  edgeEnabled := true
  allowUnsigned := false
  plugins := [⟨"other", "2.0.0", "bb", none, none, true⟩, ⟨"demo", "1.0.0", "aa", none, none, true⟩]
  nodup := by decide

def lostWhileLoading : List Action :=
  running ++ [.state demoAndOther, .resume, .exit 0, .fenceChecked .fence false true]

/-- The boundary is lost, and then a fork happens: by the timer of a crashed process, and after the
stop of an old version. -/
theorem forks_without_boundary :
    (∃ h h', exec step (start .empty false 0) lostWhileLoading = some h ∧
      h.step (.restart 0) = some h' ∧ h.fence = false ∧ Forks h h') ∧
    ∃ h h', exec step (start .empty false 0)
        (running ++ [.state (wantDemo "1.1.0" "bb" false), .resume,
          .downloaded (demoContent "bb" .trusted), .fenceChecked .fence false true, .exit 0]) =
        some h ∧
      h.step .resume = some h' ∧ h.fence = false ∧ Forks h h' := by
  have hfirst : (exec step (start .empty false 0) lostWhileLoading).any (fun h =>
      (h.step (.restart 0)).any fun h' => !h.fence &&
        (h'.procs.get 0).any Proc.child && (h.procs.get 0).all fun q => !q.child) = true := by
    decide +kernel
  have hsecond : (exec step (start .empty false 0)
      (running ++ [.state (wantDemo "1.1.0" "bb" false), .resume,
        .downloaded (demoContent "bb" .trusted), .fenceChecked .fence false true, .exit 0])).any
      (fun h => (h.step .resume).any fun h' => !h.fence &&
        (h'.procs.get 1).any Proc.child && (h.procs.get 1).all fun q => !q.child) = true := by
    decide +kernel
  have hfork : ∀ {n : Nat} {h h' : Host}, (h'.procs.get n).any Proc.child = true →
      ((h.procs.get n).all fun q => !q.child) = true → Forks h h' := by
    intro n h h' hnew hold
    rcases (Option.any_eq_true ..).1 hnew with ⟨q', hq', hchild⟩
    refine ⟨n, q', hq', hchild, ?_⟩
    intro q hq
    simpa [hq] using hold
  constructor
  · rcases (Option.any_eq_true ..).1 hfirst with ⟨h, hrun, hstep⟩
    rcases (Option.any_eq_true ..).1 hstep with ⟨h', hs, hbad⟩
    simp only [Bool.and_eq_true, Bool.not_eq_true'] at hbad
    exact ⟨h, h', hrun, hs, hbad.1.1, hfork hbad.1.2 hbad.2⟩
  · rcases (Option.any_eq_true ..).1 hsecond with ⟨h, hrun, hstep⟩
    rcases (Option.any_eq_true ..).1 hstep with ⟨h', hs, hbad⟩
    simp only [Bool.and_eq_true, Bool.not_eq_true'] at hbad
    exact ⟨h, h', hrun, hs, hbad.1.1, hfork hbad.1.2 hbad.2⟩

/-- A crashed process is started again while the boundary is active. -/
theorem forks_behind_fence_after_crash :
    Admits step ForksBehindFence (start .empty false 0) (running ++ [.exit 0, .restart 0]) := by
  have hrun : (exec step (start .empty false 0) (running ++ [.exit 0, .restart 0])).isSome = true := by
    decide +kernel
  rcases Option.isSome_iff_exists.1 hrun with ⟨t, ht⟩
  refine (forks_behind_fence .empty false 0 ht).2.2 ?_
  have hcheck : checkRun step (fun h a => match a with
      | .restart _ => h.fence
      | .resume => h.fence || h.task.all fun f => f.waits.isNone && (match f with
          | .stopping .. => false
          | _ => true)
      | _ => true) (start .empty false 0) (running ++ [.exit 0, .restart 0]) = true := by
    decide +kernel
  refine admits_of_checkRun ?_ hcheck
  intro h a htest
  cases a with
  | restart n =>
      exact htest
  | resume =>
      intro st p rest waits spec pkg htask _
      simpa [htask] using htest
  | state st =>
      trivial
  | fenceChecked mode active was =>
      trivial
  | clock now =>
      trivial
  | downloaded o =>
      trivial
  | rpcOpen =>
      trivial
  | rpcResume i =>
      trivial
  | exit n =>
      trivial
  | ready n =>
      trivial

end Host

end Edge
end GateControl
