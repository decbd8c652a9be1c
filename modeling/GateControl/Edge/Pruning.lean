import GateControl.Edge.Boundary

/-!
# Pruning — the package a process is started from

A plugin that reports ready has the other versions of its package deleted; which one is kept is read
from the entry at that moment.  While `ensurePlugin` waits for the end of the old process the new
version is unpacked, but the entry still names the old one: a late `ready` of the old process deletes
what is about to be started.

Every other step leaves the package in its folder until the process is started.
-/

namespace GateControl
namespace Edge

open Library

namespace Host

/-- The folder of the version is there, with the description of this package. -/
def Unpacked (h : Host) (spec : RunSpec) (pkg : Package) : Prop :=
  h.store.get (spec.id, spec.version) = some pkg

/-- Every process that the next step may start has its package. -/
def StartsUnpacked (h : Host) : Prop :=
  ∀ a h' n q, h.step a = some h' → h.procs.get n = none → h'.procs.get n = some q →
    h'.Unpacked q.spec q.package

/-- What is started once the old process has ended. -/
def pending (h : Host) : Option (RunSpec × Package) :=
  match h.task with
  | some (.stopping _ _ _ _ (.start spec pkg)) => some (spec, pkg)
  | _ => none

/-- A plugin with a start before it does not report ready, unless its entry names that version. -/
def KeepsPending (h : Host) : Action → Prop
  | .ready n => ∀ q ∈ h.procs.get n, ∀ next ∈ h.pending, q.child = true → q.spec.id = next.1.id →
      (h.specOf q).version = next.1.version
  | _ => True

instance (h : Host) (a : Action) : Decidable (h.KeepsPending a) :=
  match a with
  | .ready _ => inferInstanceAs (Decidable (∀ _ ∈ _, ∀ _ ∈ _, _ → _ → _))
  | .state _ => .isTrue trivial
  | .fenceChecked .. => .isTrue trivial
  | .clock _ => .isTrue trivial
  | .resume => .isTrue trivial
  | .downloaded _ => .isTrue trivial
  | .rpcOpen => .isTrue trivial
  | .rpcResume _ => .isTrue trivial
  | .exit _ => .isTrue trivial
  | .restart _ => .isTrue trivial

/-- The package is there as long as the old process is waited for. -/
def PendingUnpacked (h : Host) : Prop :=
  ∀ next, h.pending = some next → h.Unpacked next.1 next.2

/-- A new process has its package. -/
def NewUnpacked (h h' : Host) : Prop :=
  ∀ n q, h.procs.get n = none → h'.procs.get n = some q → h'.Unpacked q.spec q.package

variable {h h' : Host}

theorem pendingUnpacked_of_none (hnone : h.pending = none) : h.PendingUnpacked := by
  intro next hnext
  rw [hnone] at hnext
  cases hnext

theorem newUnpacked_of_old (hold : ∀ n q, h'.procs.get n = some q → ∃ q₀, h.procs.get n = some q₀) :
    NewUnpacked h h' := by
  intro n q hnone hq
  rcases hold n q hq with ⟨q₀, hq₀⟩
  rw [hnone] at hq₀
  cases hq₀

/-- Neither what is pending nor the packages have changed. -/
theorem PendingUnpacked.of_eq (hi : h.PendingUnpacked) (htask : h'.task = h.task)
    (hstore : h'.store = h.store) : h'.PendingUnpacked := by
  intro next hnext
  rw [Unpacked, hstore]
  refine hi next ?_
  rw [← hnext, pending, pending, htask]

/-! ## The steps of `ensurePlugin` -/

section Ensure

variable {st : Desired} {p : PluginState} {rest : List PluginState} {pkg : Package}

@[simp] theorem stopProcess_store (h : Host) (id : PluginId) :
    (h.stopProcess id).1.store = h.store := by
  unfold stopProcess updateProc
  repeat' split
  all_goals simp

theorem updateProc_store (h : Host) (n : Nat) (f : Proc → Proc) :
    (h.updateProc n f).store = h.store := by
  unfold updateProc
  split <;> rfl

theorem updateProc_old (f : Proc → Proc) {m n : Nat} {q : Proc}
    (hq : (h.updateProc m f).procs.get n = some q) : ∃ q₀, h.procs.get n = some q₀ := by
  rw [updateProc_procs] at hq
  split at hq
  · rename_i q₀ hq₀
    rcases OrderedMap.get_set_cases hq with ⟨rfl, _⟩ | ⟨_, hold⟩
    · exact ⟨q₀, hq₀⟩
    · exact ⟨q, hold⟩
  · exact ⟨q, hq⟩

theorem stopThen_old (after : After) (n : Nat) (q : Proc)
    (hq : (h.stopThen st p rest after).procs.get n = some q) : ∃ q₀, h.procs.get n = some q₀ :=
  (calm_stopProcess h p.id).old n q hq

theorem stopThen_pendingUnpacked {after : After}
    (hafter : ∀ spec pkg, after = .start spec pkg → h.Unpacked spec pkg) :
    (h.stopThen st p rest after).PendingUnpacked := by
  cases after with
  | deny code =>
      exact pendingUnpacked_of_none rfl
  | fenceDown code spec =>
      exact pendingUnpacked_of_none rfl
  | start spec pkg =>
      intro next hnext
      cases hnext
      show (h.stopProcess p.id).1.store.get _ = _
      rw [stopProcess_store]
      exact hafter spec pkg rfl

/-- What `startIfNone` starts is what it is given. -/
theorem startIfNone_newUnpacked {spec : RunSpec} (hin : h.Unpacked spec pkg) (f : Option Frame) :
    NewUnpacked h { h.startIfNone spec pkg with task := f } := by
  intro n q hnone hq
  simp only [startIfNone] at hq ⊢
  split at hq
  · rename_i hheld
    rw [if_pos hheld]
    simp only [startProcess, update_procs, update_nextProc] at hq
    rcases OrderedMap.get_set_cases hq with ⟨_, rfl⟩ | ⟨_, hold⟩
    · simpa only [Unpacked, startProcess, update_store] using hin
    · rw [hnone] at hold
      cases hold
  · rw [update_procs, hnone] at hq
    cases hq

theorem launch_newUnpacked (hin : h.store.get (p.id, p.version) = some pkg) :
    NewUnpacked h (h.launch st p rest pkg) := by
  unfold launch
  split
  · exact newUnpacked_of_old fun n q => stopThen_old _ n q
  · simp only
    split
    · refine newUnpacked_of_old fun n q hq => ?_
      simpa using stopThen_old _ n q hq
    · split
      · refine newUnpacked_of_old fun n q hq => ?_
        simpa using stopThen_old _ n q hq
      · intro n q hnone hq
        refine startIfNone_newUnpacked ?_ _ n q ?_ hq
        · simpa [Unpacked, runSpec] using hin
        · simpa using hnone

theorem launch_pendingUnpacked (hin : h.store.get (p.id, p.version) = some pkg) :
    (h.launch st p rest pkg).PendingUnpacked := by
  unfold launch
  split
  · refine stopThen_pendingUnpacked ?_
    intro spec pkg' heq
    cases heq
  · simp only
    split
    · refine stopThen_pendingUnpacked ?_
      intro spec pkg' heq
      cases heq
    · split
      · refine stopThen_pendingUnpacked ?_
        intro spec pkg' heq
        cases heq
        simpa [Unpacked, runSpec] using hin
      · exact pendingUnpacked_of_none rfl

@[simp] theorem entry_procs (h : Host) (id : PluginId) : (h.entry id).procs = h.procs := by
  unfold entry
  split <;> rfl

theorem installed_get {p : PluginState} (hp : h.installed p = some pkg) :
    h.store.get (p.id, p.version) = some pkg :=
  (Option.filter_eq_some_iff.1 hp).1

theorem ensurePlugin_newUnpacked : NewUnpacked h (h.ensurePlugin st p rest) := by
  unfold ensurePlugin
  simp only
  split
  · refine newUnpacked_of_old fun n q hq => ?_
    simpa using stopThen_old _ n q hq
  · split
    · rename_i pkg hpkg
      intro n q hnone hq
      exact launch_newUnpacked (installed_get hpkg) n q (by simpa using hnone) hq
    · refine newUnpacked_of_old fun n q hq => ⟨q, ?_⟩
      split at hq
      · simpa using hq
      · simpa using hq

theorem ensurePlugin_pendingUnpacked : (h.ensurePlugin st p rest).PendingUnpacked := by
  unfold ensurePlugin
  simp only
  split
  · refine stopThen_pendingUnpacked ?_
    intro spec pkg heq
    cases heq
  · split
    · rename_i pkg hpkg
      exact launch_pendingUnpacked (installed_get hpkg)
    · split
      · exact pendingUnpacked_of_none rfl
      · exact pendingUnpacked_of_none rfl

theorem downloadFailed_old {code : String} (n : Nat) (q : Proc)
    (hq : (h.downloadFailed st p rest code).procs.get n = some q) :
    ∃ q₀, h.procs.get n = some q₀ := by
  unfold downloadFailed at hq
  simp only at hq
  split at hq
  · exact ⟨q, by simpa using hq⟩
  · simpa using stopThen_old _ n q hq

theorem downloaded_newUnpacked {o : Outcome} : NewUnpacked h (h.downloaded st p rest o) := by
  unfold downloaded
  split
  · exact newUnpacked_of_old downloadFailed_old
  · intro n q hnone hq
    refine launch_newUnpacked ?_ n q ?_ hq
    · simp
    · simpa using hnone

theorem downloaded_pendingUnpacked {o : Outcome} : (h.downloaded st p rest o).PendingUnpacked := by
  unfold downloaded
  split
  · unfold downloadFailed
    simp only
    split
    · exact pendingUnpacked_of_none rfl
    · refine stopThen_pendingUnpacked ?_
      intro spec pkg heq
      cases heq
  · exact launch_pendingUnpacked (by simp)

end Ensure

/-! ## The steps of the host -/

theorem stopUnwanted_pending (st : Desired) (list : List PluginId) (h : Host) :
    (h.stopUnwanted st list).pending = none := by
  induction list with
  | nil =>
      rfl
  | cons id rest ih =>
      unfold stopUnwanted
      split
      · exact ih
      · rfl

theorem reconcile_pending (h : Host) : h.reconcile.pending = none := by
  unfold reconcile
  simp only
  split
  · rfl
  · split
    · rfl
    · exact stopUnwanted_pending ..

theorem requestReconcile_pendingUnpacked (hi : h.PendingUnpacked) :
    h.requestReconcile.PendingUnpacked := by
  unfold requestReconcile
  split
  · exact hi.of_eq rfl rfl
  · exact pendingUnpacked_of_none (reconcile_pending h)

theorem stopRunning_pendingUnpacked (hi : h.PendingUnpacked) (list : List (PluginId × Nat)) :
    (h.stopRunning list).1.PendingUnpacked := by
  cases list with
  | nil =>
      exact requestReconcile_pendingUnpacked hi
  | cons e rest =>
      unfold stopRunning
      simp only
      split
      · exact hi.of_eq (stopProcess_task h e.1) (stopProcess_store h e.1)
      · exact hi

theorem prune_unpacked {id : PluginId} {keep : Version} {spec : RunSpec} {pkg : Package}
    (hin : h.Unpacked spec pkg) (hkeep : spec.id = id → keep = spec.version) :
    (h.prune id keep).Unpacked spec pkg := by
  refine (OrderedMap.get_filter _ _).2 ⟨hin, ?_⟩
  simp only [Bool.or_eq_true, decide_eq_true_eq]
  by_cases hid : spec.id = id
  · exact .inr (hkeep hid).symm
  · exact .inl hid

theorem resume_pendingUnpacked (hs : h.resume = some h') : h'.PendingUnpacked := by
  unfold resume at hs
  split at hs
  · cases hs
  · cases hs
    exact pendingUnpacked_of_none (stopUnwanted_pending ..)
  · split at hs
    · cases hs
      exact pendingUnpacked_of_none (stopUnwanted_pending ..)
    · cases hs
  · cases hs
    exact pendingUnpacked_of_none rfl
  · cases hs
    exact ensurePlugin_pendingUnpacked
  · cases hs
  · split at hs
    · cases hs
      exact pendingUnpacked_of_none rfl
    · cases hs
  · cases hs
    split
    · exact pendingUnpacked_of_none (reconcile_pending h)
    · exact pendingUnpacked_of_none rfl

theorem step_pendingUnpacked {a : Action} (hi : h.PendingUnpacked) (hok : h.KeepsPending a)
    (hs : h.step a = some h') : h'.PendingUnpacked := by
  cases a with
  | state st =>
      cases hs
      exact requestReconcile_pendingUnpacked (hi.of_eq rfl rfl)
  | fenceChecked mode active was =>
      simp only [step, Option.some.injEq] at hs
      rw [← hs]
      have hchecked : (h.checkFence mode active).PendingUnpacked := hi.of_eq rfl rfl
      split
      · exact requestReconcile_pendingUnpacked hchecked
      · exact hchecked
  | clock now =>
      cases hs
      exact hi.of_eq rfl rfl
  | resume =>
      exact resume_pendingUnpacked hs
  | downloaded o =>
      simp only [step] at hs
      split at hs
      · cases hs
        exact downloaded_pendingUnpacked
      · cases hs
  | rpcOpen =>
      simp only [step] at hs
      split at hs
      · cases hs
        exact hi
      · cases hs
        exact (stopRunning_pendingUnpacked hi _).of_eq rfl rfl
  | rpcResume i =>
      simp only [step] at hs
      split at hs
      · cases hs
      · split at hs
        · cases hs
          exact (stopRunning_pendingUnpacked hi _).of_eq rfl rfl
        · cases hs
  | exit n =>
      simp only [step] at hs
      split at hs
      · split at hs
        · cases hs
          exact hi.of_eq (updateProc_task h n _) (updateProc_store h n _)
        · cases hs
      · cases hs
  | restart n =>
      simp only [step] at hs
      split at hs
      · split at hs
        · cases hs
          exact hi.of_eq (updateProc_task h n _) (updateProc_store h n _)
        · cases hs
      · cases hs
  | ready n =>
      simp only [step] at hs
      split at hs
      · rename_i q hq
        split at hs
        · rename_i hchild
          cases hs
          intro next hnext
          -- what is pending belongs to another plugin, or its version is the one that is kept
          exact prune_unpacked (hi next hnext) fun hid => hok q hq next hnext hchild hid.symm
        · cases hs
      · cases hs

/-- Only a start makes a new process. -/
theorem Effect.old {b : Option PluginId} {w : Option Nat} (he : Effect h h' b w) (hb : b = none)
    (n : Nat) (q : Proc) (hq : h'.procs.get n = some q) : ∃ q₀, h.procs.get n = some q₀ := by
  cases he with
  | quiet hsame =>
      rw [hsame.procs] at hq
      exact ⟨q, hq⟩
  | stop id hstop =>
      rw [hstop.procs] at hq
      split at hq
      · exact updateProc_old _ hq
      · exact ⟨q, hq⟩
  | start spec pkg hstart =>
      cases hb

/-- Where a start comes from: the second half of `ensurePlugin`, or the end of the old process. -/
theorem starts_newUnpacked {a : Action} {id : PluginId} (hi : h.PendingUnpacked)
    (hstarts : h.starts a = some id) (hs : h.step a = some h') : NewUnpacked h h' := by
  cases a with
  | resume =>
      simp only [starts] at hstarts
      split at hstarts
      · rename_i st p rest htask
        simp only [step, resume, htask, Option.some.injEq] at hs
        rw [← hs]
        exact ensurePlugin_newUnpacked
      · rename_i st p rest waits spec pkg htask
        simp only [step, resume, htask] at hs
        split at hs
        · cases hs
          refine startIfNone_newUnpacked ?_ _
          exact hi (spec, pkg) (by simp [pending, htask])
        · cases hs
      · cases hstarts
  | downloaded o =>
      simp only [step] at hs
      split at hs
      · cases hs
        exact downloaded_newUnpacked
      · cases hs
  | state st =>
      cases hstarts
  | fenceChecked mode active was =>
      cases hstarts
  | clock now =>
      cases hstarts
  | rpcOpen =>
      cases hstarts
  | rpcResume i =>
      cases hstarts
  | exit n =>
      cases hstarts
  | restart n =>
      cases hstarts
  | ready n =>
      cases hstarts

theorem startsUnpacked_of_pending (hb : Base h) (hi : h.PendingUnpacked) : h.StartsUnpacked := by
  intro a h' n q hs hnone hq
  rcases step_cases hb.frame hs with hacts | ⟨m, r, rfl, hr, _, rfl⟩ | ⟨m, r, rfl, hr, _, rfl⟩
  · cases hstarts : h.starts a with
    | none =>
        obtain ⟨w, heffect, _, _⟩ := hacts.effect
        exact newUnpacked_of_old (heffect.old hstarts) n q hnone hq
    | some id =>
        exact starts_newUnpacked hi hstarts hs n q hnone hq
  · exact newUnpacked_of_old (fun _ _ hr' => updateProc_old _ hr') n q hnone hq
  · exact newUnpacked_of_old (fun _ _ hr' => updateProc_old _ hr') n q hnone hq

/-- In a run in which no plugin with a start before it reports ready while its entry names another
version, every process is started from a package that is there. -/
theorem starts_unpacked (store : OrderedMap (PluginId × Version) Package) (localMqtt : Bool)
    (now : Int) (as : List Action)
    (hok : Admits step KeepsPending (start store localMqtt now) as) :
    Throughout step StartsUnpacked (start store localMqtt now) as := by
  have hstep : ∀ (h : Host) (a : Action) (h' : Host), (Base h ∧ h.PendingUnpacked) →
      h.KeepsPending a → h.step a = some h' → (Base h' ∧ h'.PendingUnpacked) := by
    intro h a h' hi hok hs
    exact ⟨step_base h a h' hi.1 hs, step_pendingUnpacked hi.2 hok hs⟩
  have hstart : (start store localMqtt now).PendingUnpacked := pendingUnpacked_of_none rfl
  exact throughout_of_admits hstep (fun _ hi => startsUnpacked_of_pending hi.1 hi.2)
    ⟨start_base store localMqtt now, hstart⟩ hok

/-- A plugin gets a new version; its old process reports ready before the new package is there. -/
def updated : List Action :=
  running ++ [.state (wantDemo "1.1.0" "bb" false), .resume, .ready 0,
    .downloaded (demoContent "bb" .trusted), .exit 0]

theorem starts_unpacked_updated :
    ((exec step (start .empty false 0) updated).bind fun h => h.pending).any
        (fun next => next.1.version = "1.1.0") = true ∧
      Throughout step StartsUnpacked (start .empty false 0) updated := by
  refine ⟨by decide +kernel, starts_unpacked .empty false 0 updated ?_⟩
  exact admits_of_checkRun (fun _ _ h => of_decide_eq_true h)
    (show checkRun step (fun h a => decide (h.KeepsPending a)) (start .empty false 0) updated = true by
      decide +kernel)

/-- The old process reports ready while its end is awaited, and the new version is deleted. -/
theorem starts_pruned :
    ∃ h, exec step (start .empty false 0)
        (running ++ [.state (wantDemo "1.1.0" "bb" false), .resume,
          .downloaded (demoContent "bb" .trusted), .ready 0, .exit 0]) = some h ∧
      ¬ h.StartsUnpacked := by
  have hrun : (exec step (start .empty false 0)
      (running ++ [.state (wantDemo "1.1.0" "bb" false), .resume,
        .downloaded (demoContent "bb" .trusted), .ready 0, .exit 0])).any (fun h =>
      (h.step .resume).any fun h' => (h.procs.get 1).isNone && (h'.procs.get 1).any fun q =>
        decide (h'.store.get (q.spec.id, q.spec.version) ≠ some q.package)) = true := by
    decide +kernel
  rcases (Option.any_eq_true ..).1 hrun with ⟨h, hh, hstep⟩
  rcases (Option.any_eq_true ..).1 hstep with ⟨h', hs, hbad⟩
  rw [Bool.and_eq_true, Option.isNone_iff_eq_none] at hbad
  rcases (Option.any_eq_true ..).1 hbad.2 with ⟨q, hq, hmissing⟩
  refine ⟨h, hh, ?_⟩
  intro hunpacked
  exact of_decide_eq_true hmissing (hunpacked .resume h' 1 q hs hbad.1 hq)

end Host

end Edge
end GateControl
