import GateControl.Edge.FailClosed

/-!
# Processes — what the steps of the host do to its processes

Every step of a call of `reconcile` does one of three things to the processes of the host: nothing,
it tells one process to end and waits for it, or it starts one.  `TaskStep` says so, and `starts`
says from the state before the step whether and for which plugin a process is started.  What is
proved about processes is derived from this, without looking at the steps again.
-/

namespace GateControl
namespace Edge

open Library

/-- The process whose end a call waits for. -/
def Frame.waits : Frame → Option Nat
  | .unwanted _ _ _ waits => waits
  | .stopping _ _ _ waits _ => waits
  | _ => none

namespace Host

def taskWaits (h : Host) : Option Nat := h.task.bind Frame.waits

/-! ## Starting -/

/-- A plugin whose package is there gets a process. -/
def launches (h : Host) (st : Desired) (p : PluginState) (pkg : Package) : Bool :=
  acceptable pkg.signature st.allowUnsigned && h.fence && (h.held p.id).isNone

/-- The plugin that gets a process in a step of `reconcile`. -/
def starts (h : Host) : Action → Option PluginId
  | .resume =>
      match h.task with
      | some (.next st (p :: _)) =>
          if p.capsError.isNone && (h.installed p).any (h.launches st p) then some p.id else none
      | some (.stopping _ p _ waits (.start _ _)) =>
          -- neither the boundary nor the signature is looked at again
          if h.gone waits && (h.held p.id).isNone then some p.id else none
      | _ => none
  | .downloaded o =>
      match h.task with
      | some (.download st p _) =>
          match o.checked p st with
          | .ok pkg => if h.launches st p pkg then some p.id else none
          | .error _ => none
      | _ => none
  | _ => none

/-! ## Effects -/

/-- Neither the processes nor their owners have changed. -/
structure SameProcs (h h' : Host) : Prop where
  held : ∀ id, h'.held id = h.held id
  procs : h'.procs = h.procs
  next : h'.nextProc = h.nextProc

/-- The process of a plugin, if it has one, has been told to end. -/
structure Stopped (h h' : Host) (id : PluginId) : Prop where
  held : ∀ j, h'.held j = if j = id then none else h.held j
  procs : h'.procs = match h.held id with
    | some n => (h.updateProc n fun q => { q with wanted := false, timer := false }).procs
    | none => h.procs
  next : h'.nextProc = h.nextProc

/-- A plugin without a process has got one. -/
structure Started (h h' : Host) (spec : RunSpec) (pkg : Package) : Prop where
  none : h.held spec.id = none
  held : ∀ j, h'.held j = if j = spec.id then some h.nextProc else h.held j
  procs : ∃ ref, h'.procs = h.procs.set h.nextProc ⟨spec, pkg, ref, true, true, false⟩
  next : h'.nextProc = h.nextProc + 1

/-- What a step does to the processes; the indices are the plugin that gets a process and the
process that is told to end. -/
inductive Effect (h h' : Host) : Option PluginId → Option Nat → Prop
  | quiet (hsame : SameProcs h h') : Effect h h' none none
  | stop (id : PluginId) (hstop : Stopped h h' id) : Effect h h' none (h.held id)
  | start (spec : RunSpec) (pkg : Package) (hstart : Started h h' spec pkg) :
      Effect h h' (some spec.id) none

/-- The plugin a call is busy with has an entry, and is the one that will be started. -/
def FrameOk (h : Host) : Frame → Prop
  | .download _ p _ => (h.plugins.get p.id).isSome = true
  | .stopping _ p _ _ after => (h.plugins.get p.id).isSome = true ∧
      ∀ spec pkg, after = .start spec pkg → spec.id = p.id
  | _ => True

/-- A step of a call of `reconcile`. -/
structure TaskStep (h h' : Host) (begun : Option PluginId) : Prop where
  effect : Effect h h' begun h'.taskWaits
  frame : ∀ f, h'.task = some f → h'.FrameOk f
  restarts : h'.restarts = h.restarts
  fence : h'.fence = h.fence

theorem updateProc_procs (h : Host) (n : Nat) (f : Proc → Proc) :
    (h.updateProc n f).procs = match h.procs.get n with
      | some q => h.procs.set n (f q)
      | none => h.procs := by
  unfold updateProc
  cases h.procs.get n with
  | none =>
      rfl
  | some q =>
      rfl

namespace SameProcs

variable {h h' h'' : Host}

theorem refl (h : Host) : SameProcs h h := ⟨fun _ => rfl, rfl, rfl⟩

theorem trans (h1 : SameProcs h h') (h2 : SameProcs h' h'') : SameProcs h h'' :=
  ⟨fun id => (h2.held id).trans (h1.held id), h2.procs.trans h1.procs, h2.next.trans h1.next⟩

theorem of_eq (hplugins : h'.plugins = h.plugins) (hprocs : h'.procs = h.procs)
    (hnext : h'.nextProc = h.nextProc) : SameProcs h h' :=
  ⟨fun id => by simp only [Host.held, hplugins], hprocs, hnext⟩

theorem update (h : Host) (id : PluginId) {f : Entry → Entry} (hf : ∀ e, (f e).proc = e.proc) :
    SameProcs h (h.update id f) :=
  ⟨held_update h id hf, by simp, by simp⟩

theorem entered (h : Host) (id : PluginId) : SameProcs h (h.entered id) := by
  have hentry : SameProcs h (h.entry id) := by
    refine ⟨held_entry h id, ?_, ?_⟩
    · unfold entry
      split <;> rfl
    · unfold entry
      split <;> rfl
  exact hentry.trans (SameProcs.update (h.entry id) id fun _ => rfl)

theorem await (hsame : SameProcs h h') (f : Frame) : SameProcs h { h' with task := some f } :=
  hsame.trans (.of_eq rfl rfl rfl)

/-- What happens after a change that leaves the processes alone. -/
theorem effect {b : Option PluginId} {w : Option Nat} (hsame : SameProcs h h')
    (he : Effect h' h'' b w) : Effect h h'' b w := by
  cases he with
  | quiet hsame' =>
      exact .quiet (hsame.trans hsame')
  | stop id hstop =>
      rw [hsame.held id]
      refine .stop id ⟨?_, ?_, hstop.next.trans hsame.next⟩
      · intro j
        rw [hstop.held, hsame.held]
      · rw [hstop.procs, hsame.held]
        simp only [updateProc_procs, hsame.procs]
  | start spec pkg hstart =>
      refine .start spec pkg ⟨?_, ?_, ?_, ?_⟩
      · rw [← hsame.held, hstart.none]
      · intro j
        rw [hstart.held, hsame.held, hsame.next]
      · rw [← hsame.procs, ← hsame.next]
        exact hstart.procs
      · rw [hstart.next, hsame.next]

/-- A step after a change that leaves the processes and the rest of the host alone. -/
theorem taskStep {b : Option PluginId} (hsame : SameProcs h h') (hrestarts : h'.restarts = h.restarts)
    (hfence : h'.fence = h.fence) (hs : TaskStep h' h'' b) : TaskStep h h'' b :=
  ⟨hsame.effect hs.effect, hs.frame, hs.restarts.trans hrestarts, hs.fence.trans hfence⟩

end SameProcs

/-- What has happened before a change that leaves the processes alone. -/
theorem Effect.trans {h h' h'' : Host} {b : Option PluginId} {w : Option Nat} (he : Effect h h' b w)
    (hsame : SameProcs h' h'') : Effect h h'' b w := by
  cases he with
  | quiet hsame' =>
      exact .quiet (hsame'.trans hsame)
  | stop id hstop =>
      exact .stop id ⟨fun j => (hsame.held j).trans (hstop.held j), hsame.procs.trans hstop.procs,
        hsame.next.trans hstop.next⟩
  | start spec pkg hstart =>
      refine .start spec pkg ⟨hstart.none, fun j => (hsame.held j).trans (hstart.held j), ?_,
        hsame.next.trans hstart.next⟩
      rw [hsame.procs]
      exact hstart.procs

section Restarts

variable (h : Host) (id : PluginId)

@[simp] theorem update_restarts (f : Entry → Entry) : (h.update id f).restarts = h.restarts := by
  unfold update
  split <;> rfl

@[simp] theorem updateProc_restarts (n : Nat) (f : Proc → Proc) :
    (h.updateProc n f).restarts = h.restarts := by
  unfold updateProc
  split <;> rfl

@[simp] theorem updateProc_fence (n : Nat) (f : Proc → Proc) :
    (h.updateProc n f).fence = h.fence := by
  unfold updateProc
  split <;> rfl

@[simp] theorem stopProcess_restarts : (h.stopProcess id).1.restarts = h.restarts := by
  unfold stopProcess
  split
  · rfl
  · simp

@[simp] theorem stopProcess_fence : (h.stopProcess id).1.fence = h.fence := by
  unfold stopProcess
  split
  · rfl
  · simp

@[simp] theorem stopProcess_snd : (h.stopProcess id).2 = h.held id := by
  unfold stopProcess
  split
  · rename_i hnone
    exact hnone.symm
  · rename_i n hn
    exact hn.symm

theorem stopProcess_stopped : Stopped h (h.stopProcess id).1 id := by
  refine ⟨held_stopProcess h id, ?_, (calm_stopProcess h id).next⟩
  unfold stopProcess
  cases h.held id with
  | none =>
      rfl
  | some n =>
      simp only [updateProc_procs, update_procs]

theorem known_update {f : Entry → Entry} {j : PluginId} (hj : (h.plugins.get j).isSome = true) :
    ((h.update id f).plugins.get j).isSome = true := by
  unfold update
  split
  · simp only [OrderedMap.get_set]
    split
    · rfl
    · exact hj
  · exact hj

theorem known_updateProc (n : Nat) (f : Proc → Proc) {j : PluginId}
    (hj : (h.plugins.get j).isSome = true) :
    ((h.updateProc n f).plugins.get j).isSome = true := by
  unfold updateProc
  split
  · exact hj
  · exact hj

theorem known_stopProcess {j : PluginId} (hj : (h.plugins.get j).isSome = true) :
    ((h.stopProcess id).1.plugins.get j).isSome = true := by
  unfold stopProcess
  split
  · exact hj
  · exact known_updateProc _ _ _ (known_update h id hj)

end Restarts

/-! ## `ensurePlugin` -/

section Ensure

variable {h : Host} {st : Desired} {p : PluginState} {rest : List PluginState}

theorem stopThen_step (hknown : (h.plugins.get p.id).isSome = true) {after : After}
    (hafter : ∀ spec pkg, after = .start spec pkg → spec.id = p.id) :
    TaskStep h (h.stopThen st p rest after) none := by
  refine ⟨?_, ?_, stopProcess_restarts h p.id, stopProcess_fence h p.id⟩
  · have hstop := stopProcess_stopped h p.id
    have hwaits : (h.stopThen st p rest after).taskWaits = h.held p.id := stopProcess_snd h p.id
    rw [hwaits]
    exact .stop p.id ⟨hstop.held, hstop.procs, hstop.next⟩
  · intro f hf
    cases hf
    exact ⟨known_stopProcess h p.id hknown, hafter⟩

/-- A step that leaves the processes alone and waits for none. -/
theorem quiet_step {h' : Host} (hsame : SameProcs h h') (hwaits : h'.taskWaits = none)
    (hframe : ∀ f, h'.task = some f → h'.FrameOk f) (hrestarts : h'.restarts = h.restarts)
    (hfence : h'.fence = h.fence) : TaskStep h h' none :=
  ⟨hwaits ▸ .quiet hsame, hframe, hrestarts, hfence⟩

theorem startIfNone_step {spec : RunSpec} (pkg : Package)
    (hknown : (h.plugins.get p.id).isSome = true) (hid : spec.id = p.id) :
    TaskStep h { h.startIfNone spec pkg with task := some (.next st rest) }
      (if (h.held p.id).isNone then some p.id else none) := by
  have hsame : SameProcs h (h.update spec.id fun e => { e with spec := some spec }) :=
    .update h spec.id fun _ => rfl
  have hframe : ∀ (h' : Host) f, { h' with task := some (.next st rest) }.task = some f →
      { h' with task := some (.next st rest) }.FrameOk f := by
    intro h' f hf
    cases hf
    trivial
  have hheld' := hsame.held spec.id
  cases hheld : h.held p.id with
  | some n =>
      -- a process is held: only its specification is kept
      have hkeep : h.startIfNone spec pkg =
          h.update spec.id fun e => { e with spec := some spec } := by
        refine if_neg ?_
        rw [hheld', hid, hheld]
        exact Option.some_ne_none n
      rw [hkeep]
      simp only [Option.isNone_some, Bool.false_eq_true, if_false]
      exact quiet_step (hsame.await _) rfl (hframe _) (update_restarts ..)
        (update_fence ..)
  | none =>
      -- none is held: one is started
      have hstart : h.startIfNone spec pkg =
          (h.update spec.id fun e => { e with spec := some spec }).startProcess spec pkg := by
        refine if_pos ?_
        rw [hheld', hid, hheld]
      rw [hstart]
      simp only [if_true, Option.isNone_none]
      refine ⟨?_, hframe _, ?_, ?_⟩
      · rw [← hid]
        refine .start spec pkg ⟨by rw [hid, hheld], ?_, ?_, ?_⟩
        · intro j
          have hget : (h.plugins.get spec.id).isSome = true := by rw [hid, hknown]
          rcases Option.isSome_iff_exists.1 hget with ⟨e, he⟩
          simp only [held, startProcess, update, he, OrderedMap.get_set_self, OrderedMap.get_set]
          split
          · rfl
          · rfl
        · refine ⟨(h.update spec.id fun e => { e with spec := some spec }).refOf spec.id, ?_⟩
          simp only [startProcess, update_procs, update_nextProc]
        · simp [startProcess]
      · simp [startProcess]
      · simp [startProcess]

theorem launch_step (pkg : Package) (hknown : (h.plugins.get p.id).isSome = true) :
    TaskStep h (h.launch st p rest pkg) (if h.launches st p pkg then some p.id else none) := by
  unfold launch launches
  split
  · rename_i hacc
    -- a package without a good signature is denied
    have hacc' : acceptable pkg.signature st.allowUnsigned = false := by simpa using hacc
    simp only [hacc', Bool.false_and, Bool.false_eq_true, if_false]
    refine stopThen_step hknown ?_
    intro spec pkg' hafter
    cases hafter
  · rename_i hacc
    have hacc' : acceptable pkg.signature st.allowUnsigned = true := by simpa using hacc
    simp only
    have hsame : SameProcs h (h.update p.id fun e =>
        { e with version := some p.version, sha256 := some p.sha256 }) :=
      .update h p.id fun _ => rfl
    have hknown' := known_update h p.id
      (f := fun e => { e with version := some p.version, sha256 := some p.sha256 }) hknown
    refine hsame.taskStep (update_restarts ..) (update_fence ..) ?_
    split
    · rename_i hfence
      -- the fence is down, and the plugin is stopped
      have hfence' : h.fence = false := by simpa using hfence
      simp only [hfence', Bool.and_false, Bool.false_and, Bool.false_eq_true, if_false]
      refine stopThen_step hknown' ?_
      intro spec pkg' hafter
      cases hafter
    · rename_i hfence
      have hfence' : h.fence = true := by simpa using hfence
      split
      · rename_i hstop
        -- a held process of another version is stopped first
        have hheld : (h.held p.id).isSome = true := by
          simp only [hsame.held, Bool.and_eq_true] at hstop
          exact hstop.2
        have hnone : (h.held p.id).isNone = false := by
          rw [← Option.not_isSome, hheld]
          rfl
        simp only [hnone, Bool.and_false, Bool.false_eq_true, if_false]
        refine stopThen_step hknown' ?_
        intro spec pkg' hafter
        cases hafter
        rfl
      · simp only [hacc', hfence', Bool.true_and]
        rw [← hsame.held]
        exact startIfNone_step pkg hknown' rfl

theorem downloadFailed_step {code : String} (hknown : (h.plugins.get p.id).isSome = true) :
    TaskStep h (h.downloadFailed st p rest code) none := by
  have hsame : SameProcs h (h.update p.id fun e =>
      { e with version := some p.version, sha256 := some p.sha256 }) :=
    .update h p.id fun _ => rfl
  unfold downloadFailed
  simp only
  split
  · refine quiet_step ?_ rfl ?_ (by simp) (by simp)
    · refine SameProcs.await (hsame.trans (.update _ p.id ?_)) _
      exact fun _ => rfl
    · intro f hf
      cases hf
      trivial
  · refine hsame.taskStep (update_restarts ..) (update_fence ..) ?_
    refine stopThen_step (known_update _ _ hknown) ?_
    intro spec pkg hafter
    cases hafter

theorem launches_same {h' : Host} (hsame : SameProcs h h') (hfence : h'.fence = h.fence)
    (pkg : Package) : h'.launches st p pkg = h.launches st p pkg := by
  rw [launches, launches, hsame.held, hfence]

theorem downloaded_step {o : Outcome} (hknown : (h.plugins.get p.id).isSome = true) :
    TaskStep h (h.downloaded st p rest o) (match o.checked p st with
      | .ok pkg => if h.launches st p pkg then some p.id else none
      | .error _ => none) := by
  unfold downloaded
  cases o.checked p st with
  | error code =>
      exact downloadFailed_step hknown
  | ok pkg =>
      simp only
      have hstore : SameProcs h { h with store := h.store.set (p.id, p.version) pkg } :=
        .of_eq rfl rfl rfl
      have hsame := hstore.trans (.update _ p.id (f := fun e => { e with retryAt := none })
        fun _ => rfl)
      rw [← launches_same hsame (by simp)]
      exact hsame.taskStep (by simp) (by simp) (launch_step pkg (known_update _ _ hknown))

theorem ensurePlugin_step (h : Host) (st : Desired) (p : PluginState) (rest : List PluginState) :
    TaskStep h (h.ensurePlugin st p rest)
      (if p.capsError.isNone && (h.installed p).any (h.launches st p) then some p.id else none) := by
  have hsame := SameProcs.entered h p.id
  have hknown : ((h.entered p.id).plugins.get p.id).isSome = true := by
    rw [entered_get]
    rfl
  have hfence := entered_fence h p
  have hrestarts : (h.entered p.id).restarts = h.restarts := by
    simp only [entered, update_restarts, entry]
    split <;> rfl
  rw [ensurePlugin_eq]
  refine hsame.taskStep hrestarts hfence ?_
  cases hcaps : p.capsError with
  | some e =>
      simp only [Option.isSome_some, if_true, Option.isNone_some, Bool.false_and,
        Bool.false_eq_true, if_false]
      -- what the capabilities forbid is stopped
      refine stopThen_step hknown ?_
      intro spec pkg hafter
      cases hafter
  | none =>
      simp only [Option.isSome_none, Bool.false_eq_true, if_false, Option.isNone_none,
        Bool.true_and]
      rw [installed_entered]
      cases hinst : h.installed p with
      | some pkg =>
          simp only [Option.any_some, ← launches_same hsame hfence]
          -- the package is there
          exact launch_step pkg hknown
      | none =>
          simp only [Option.any_none, Bool.false_eq_true, if_false]
          split
          · -- it is not, and is asked for or given up
            refine quiet_step (.of_eq rfl rfl rfl) rfl ?_ rfl rfl
            intro f hf
            cases hf
            trivial
          · refine quiet_step (.of_eq rfl rfl rfl) rfl ?_ rfl rfl
            intro f hf
            cases hf
            exact hknown

theorem afterStop_step {after : After} (hknown : (h.plugins.get p.id).isSome = true)
    (hafter : ∀ spec pkg, after = .start spec pkg → spec.id = p.id) :
    TaskStep h (h.afterStop st p rest after) (match after with
      | .start _ _ => if (h.held p.id).isNone then some p.id else none
      | _ => none) := by
  have hframe : ∀ (h' : Host) f, { h' with task := some (.next st rest) }.task = some f →
      { h' with task := some (.next st rest) }.FrameOk f := by
    intro h' f hf
    cases hf
    trivial
  unfold afterStop
  cases after with
  | deny code =>
      refine quiet_step ?_ rfl (hframe _) (by simp) (by simp)
      refine SameProcs.await (.update h p.id ?_) _
      exact fun _ => rfl
  | fenceDown code spec =>
      refine quiet_step ?_ rfl (hframe _) (by simp) (by simp)
      refine SameProcs.await (.update h p.id ?_) _
      exact fun _ => rfl
  | start spec pkg =>
      exact startIfNone_step pkg hknown (hafter spec pkg rfl)

end Ensure

/-! ## `reconcile` -/

theorem stopUnwanted_step (st : Desired) (list : List PluginId) (h : Host) :
    TaskStep h (h.stopUnwanted st list) none := by
  induction list with
  | nil =>
      refine quiet_step (.of_eq rfl rfl rfl) rfl ?_ rfl rfl
      intro f hf
      cases hf
      trivial
  | cons id rest ih =>
      unfold stopUnwanted
      split
      · exact ih
      · -- the first that is not wanted is stopped, and the call waits for its exit
        have hsame : SameProcs h (h.update id fun e => { e with wanted := false }) :=
          .update h id fun _ => rfl
        refine hsame.taskStep (update_restarts ..) (update_fence ..) ?_
        have hstop := stopProcess_stopped (h.update id fun e => { e with wanted := false }) id
        refine ⟨?_, ?_, stopProcess_restarts _ id, stopProcess_fence _ id⟩
        · have heffect : Effect (h.update id fun e => { e with wanted := false })
              { ((h.update id fun e => { e with wanted := false }).stopProcess id).1 with
                task := some (.unwanted st id rest
                  ((h.update id fun e => { e with wanted := false }).stopProcess id).2) } none
              ((h.update id fun e => { e with wanted := false }).held id) :=
            .stop id ⟨hstop.held, hstop.procs, hstop.next⟩
          rw [← stopProcess_snd] at heffect
          exact heffect
        · intro f hf
          cases hf
          trivial

/-- Only entries without a process are dropped. -/
theorem finish_step (h : Host) (st : Desired) : TaskStep h (h.finish st) none := by
  refine quiet_step ⟨?_, rfl, rfl⟩ rfl ?_ rfl rfl
  · intro id
    unfold held finish
    simp only
    cases he : h.plugins.get id with
    | none =>
        cases hf : (h.plugins.filter (needed st)).get id with
        | none =>
            rfl
        | some e =>
            have hget := ((OrderedMap.get_filter _ _).1 hf).1
            rw [he] at hget
            cases hget
    | some e =>
        cases hf : (h.plugins.filter (needed st)).get id with
        | some e' =>
            have hget := ((OrderedMap.get_filter _ _).1 hf).1
            rw [he] at hget
            cases hget
            rfl
        | none =>
            -- a dropped entry has no process
            cases hproc : e.proc with
            | none =>
                exact hproc.symm
            | some n =>
                have hkept : (h.plugins.filter (needed st)).get id = some e := by
                  refine (OrderedMap.get_filter _ _).2 ⟨he, ?_⟩
                  simp [needed, hproc]
                rw [hkept] at hf
                cases hf
  · intro f hf
    cases hf
    trivial

theorem reconcile_step (h : Host) : TaskStep h h.reconcile none := by
  unfold reconcile
  simp only
  cases hd : h.desired with
  | none =>
      refine quiet_step (.of_eq rfl rfl rfl) rfl ?_ rfl rfl
      intro f hf
      cases hf
      trivial
  | some st =>
      simp only
      split
      · refine quiet_step (.of_eq rfl rfl rfl) rfl ?_ rfl rfl
        intro f hf
        cases hf
        trivial
      · have hsame : SameProcs h { h with desired := some st, steady := true, again := false } :=
          .of_eq rfl rfl rfl
        exact hsame.taskStep rfl rfl (stopUnwanted_step _ _ _)

/-- What a call that waits does when it goes on. -/
theorem resume_step {h h' : Host} (hframe : ∀ f, h.task = some f → h.FrameOk f)
    (hs : h.resume = some h') :
    TaskStep h h' (h.starts .resume) ∧ ∀ n, h.taskWaits = some n → h.gone (some n) = true := by
  unfold resume at hs
  split at hs
  · cases hs
  · rename_i st htask
    cases hs
    simp only [starts, taskWaits, htask]
    exact ⟨stopUnwanted_step _ _ h, fun n hn => by cases hn⟩
  · rename_i st id rest waits htask
    split at hs
    · -- the process that was waited for is gone
      rename_i hgone
      cases hs
      simp only [starts, taskWaits, htask]
      refine ⟨?_, ?_⟩
      · have hsame : SameProcs h (h.update id fun e => { e with denied := none }) :=
          .update h id fun _ => rfl
        exact hsame.taskStep (update_restarts ..) (update_fence ..) (stopUnwanted_step _ _ _)
      · intro n hn
        cases hn
        exact hgone
    · cases hs
  · rename_i st htask
    cases hs
    simp only [starts, taskWaits, htask]
    exact ⟨finish_step h st, fun n hn => by cases hn⟩
  · rename_i st p rest htask
    cases hs
    simp only [starts, taskWaits, htask]
    exact ⟨ensurePlugin_step h st p rest, fun n hn => by cases hn⟩
  · cases hs
  · rename_i st p rest waits after htask
    split at hs
    · rename_i hgone
      cases hs
      -- and what was to be done after the stop is done
      obtain ⟨hknown, hafter⟩ := hframe _ htask
      have hstep : TaskStep h (h.afterStop st p rest after) _ := afterStop_step hknown hafter
      simp only [starts, taskWaits, htask]
      refine ⟨?_, ?_⟩
      · cases after with
        | deny code =>
            exact hstep
        | fenceDown code spec =>
            exact hstep
        | start spec pkg =>
            simpa only [hgone, Bool.true_and] using hstep
      · intro n hn
        cases hn
        exact hgone
    · cases hs
  · rename_i st htask
    cases hs
    simp only [starts, taskWaits, htask]
    refine ⟨?_, fun n hn => by cases hn⟩
    split
    · exact reconcile_step h
    · refine quiet_step (.of_eq rfl rfl rfl) rfl ?_ rfl rfl
      intro f hf
      cases hf

theorem downloaded_taskStep {h h' : Host} {o : Outcome}
    (hframe : ∀ f, h.task = some f → h.FrameOk f) (hs : h.step (.downloaded o) = some h') :
    TaskStep h h' (h.starts (.downloaded o)) ∧ h.taskWaits = none := by
  simp only [step] at hs
  split at hs
  · rename_i st p rest htask
    cases hs
    simp only [starts, taskWaits, htask]
    exact ⟨downloaded_step (hframe _ htask), rfl⟩
  · cases hs

/-- A request changes nothing while a call is under way, else it begins one. -/
theorem requestReconcile_step (h : Host) :
    (h.requestReconcile = { h with again := true } ∧ h.task ≠ none) ∨
      (TaskStep h h.requestReconcile none ∧ h.task = none) := by
  unfold requestReconcile
  cases htask : h.task with
  | some f =>
      left
      exact ⟨if_pos rfl, Option.some_ne_none f⟩
  | none =>
      right
      exact ⟨reconcile_step h, rfl⟩

/-! ## Steps of the host -/

/-- The end of a process is awaited, by the call of `reconcile` or by a run of `onRpcOpen`. -/
def Awaited (h : Host) (n : Nat) : Prop :=
  h.taskWaits = some n ∨ ∃ t ∈ h.restarts, t.waits = some n

/-- A step that lets no process end and starts none again after a crash.  Whoever stops waiting for
a process does so because it has ended, and a call that starts a process waits for none. -/
structure Acts (h h' : Host) (begun : Option PluginId) : Prop where
  effect : ∃ w, Effect h h' begun w ∧ (∀ n, w = some n → h'.Awaited n) ∧
    ∀ n, h'.Awaited n → h.Awaited n ∨ w = some n
  ended : ∀ n, h.Awaited n → h'.Awaited n ∨ h.gone (some n) = true
  kept : begun ≠ none → ∀ n, h'.Awaited n ↔ ∃ t ∈ h.restarts, t.waits = some n
  frame : ∀ f, h'.task = some f → h'.FrameOk f

variable {h h' : Host}

theorem TaskStep.acts {b : Option PluginId} (hs : TaskStep h h' b)
    (hgone : ∀ n, h.taskWaits = some n → h.gone (some n) = true) : Acts h h' b := by
  refine ⟨⟨_, hs.effect, fun n => Or.inl, ?_⟩, ?_, ?_, hs.frame⟩
  · intro n hn
    rcases hn with htask | hrestart
    · exact Or.inr htask
    · rw [hs.restarts] at hrestart
      exact Or.inl (Or.inr hrestart)
  · intro n hn
    rcases hn with htask | hrestart
    · exact Or.inr (hgone n htask)
    · rw [← hs.restarts] at hrestart
      exact Or.inl (Or.inr hrestart)
  · intro hb n
    -- a step that starts a process does not wait for another
    have hwaits : h'.taskWaits = none := by
      have heffect := hs.effect
      cases hw : h'.taskWaits with
      | none =>
          rfl
      | some m =>
          rw [hw] at heffect
          cases b with
          | none =>
              exact absurd rfl hb
          | some id =>
              cases heffect
    rw [Awaited, hwaits, hs.restarts]
    simp

/-- Nothing happens to the processes. -/
theorem acts_idle (hsame : SameProcs h h') (htask : h'.task = h.task)
    (hrestarts : h'.restarts = h.restarts) (hframe : ∀ f, h'.task = some f → h'.FrameOk f) :
    Acts h h' none := by
  have hawaited : ∀ n, h'.Awaited n ↔ h.Awaited n := by
    intro n
    rw [Awaited, Awaited, taskWaits, taskWaits, htask, hrestarts]
  refine ⟨⟨none, .quiet hsame, fun n hn => (by cases hn), ?_⟩, ?_, ?_, hframe⟩
  · intro n hn
    exact Or.inl ((hawaited n).1 hn)
  · intro n hn
    exact Or.inl ((hawaited n).2 hn)
  · intro hb
    exact absurd rfl hb

theorem Acts.of_same {h₁ : Host} (hsame : SameProcs h h₁) (htask : h₁.task = h.task)
    (hrestarts : h₁.restarts = h.restarts) {b : Option PluginId} (ha : Acts h₁ h' b) :
    Acts h h' b := by
  have hawaited : ∀ n, h₁.Awaited n ↔ h.Awaited n := by
    intro n
    rw [Awaited, Awaited, taskWaits, taskWaits, htask, hrestarts]
  obtain ⟨w, heffect, hw, hw'⟩ := ha.effect
  refine ⟨⟨w, hsame.effect heffect, hw, ?_⟩, ?_, ?_, ha.frame⟩
  · intro n hn
    exact (hw' n hn).imp_left (hawaited n).1
  · intro n hn
    have hended := ha.ended n ((hawaited n).2 hn)
    simpa only [gone, hsame.procs] using hended
  · intro hb n
    rw [ha.kept hb n, hrestarts]

/-- The frames of a host stay in order as long as no entry is dropped. -/
theorem FrameOk.mono {f : Frame} (hknown : ∀ id, (h.plugins.get id).isSome = true →
    (h'.plugins.get id).isSome = true) (hf : h.FrameOk f) : h'.FrameOk f := by
  cases f with
  | download st p rest =>
      exact hknown p.id hf
  | stopping st p rest waits after =>
      exact ⟨hknown p.id hf.1, hf.2⟩
  | mqtt st =>
      trivial
  | unwanted st id rest waits =>
      trivial
  | next st rest =>
      trivial
  | returned st =>
      trivial

theorem requestReconcile_acts (hframe : ∀ f, h.task = some f → h.FrameOk f) :
    Acts h h.requestReconcile none := by
  rcases requestReconcile_step h with ⟨heq, _⟩ | ⟨hs, hidle⟩
  · rw [heq]
    exact acts_idle (.of_eq rfl rfl rfl) rfl rfl fun f hf =>
      (hframe f hf).mono fun _ hid => hid
  · refine hs.acts ?_
    intro n hn
    rw [taskWaits, hidle] at hn
    cases hn

theorem stopProcess_task (h : Host) (id : PluginId) : (h.stopProcess id).1.task = h.task := by
  unfold stopProcess update updateProc
  repeat' split
  all_goals rfl

/-- The runs of `onRpcOpen` that wait are replaced by `restarts`; the effect is that of a step which
leaves them alone. -/
theorem acts_restarts {h₁ : Host} {w : Option Nat} (heffect : Effect h h₁ none w)
    (htask : ∀ n, h₁.taskWaits = some n → h.taskWaits = some n ∨ w = some n)
    (htask' : ∀ n, h.taskWaits = some n → h₁.taskWaits = some n)
    (hframe : ∀ f, h₁.task = some f → h₁.FrameOk f) {keep new : List Restart}
    (hkeep : ∀ t, t ∈ keep → t ∈ h.restarts)
    (hgone : ∀ t, t ∈ h.restarts → t ∈ keep ∨ h.gone t.waits = true)
    (hnew : ∀ t ∈ new, t.waits = w)
    (hw : ∀ n, w = some n → h₁.taskWaits = some n ∨ ∃ t ∈ new, t.waits = some n) :
    Acts h { h₁ with restarts := keep ++ new } none := by
  have hsame : SameProcs h₁ { h₁ with restarts := keep ++ new } := .of_eq rfl rfl rfl
  refine ⟨⟨w, heffect.trans hsame, ?_, ?_⟩, ?_, fun hb => absurd rfl hb, ?_⟩
  · intro n hn
    rcases hw n hn with hwaits | ⟨t, ht, hwaits⟩
    · exact Or.inl hwaits
    · exact Or.inr ⟨t, List.mem_append.2 (Or.inr ht), hwaits⟩
  · rintro n (hwaits | ⟨t, ht, hwaits⟩)
    · exact (htask n hwaits).imp_left Or.inl
    · rcases List.mem_append.1 ht with ht | ht
      · exact Or.inl (Or.inr ⟨t, hkeep t ht, hwaits⟩)
      · exact Or.inr ((hnew t ht).symm.trans hwaits)
  · rintro n (hwaits | ⟨t, ht, hwaits⟩)
    · exact Or.inl (Or.inl (htask' n hwaits))
    · rcases hgone t ht with hk | hg
      · exact Or.inl (Or.inr ⟨t, List.mem_append.2 (Or.inl hk), hwaits⟩)
      · exact Or.inr (hwaits ▸ hg)
  · intro f hf
    exact (hframe f hf).mono fun _ hid => hid

/-- A run of `onRpcOpen` goes on with its list. -/
theorem stopRunning_acts (hframe : ∀ f, h.task = some f → h.FrameOk f)
    (list : List (PluginId × Nat)) {keep : List Restart}
    (hkeep : ∀ t, t ∈ keep → t ∈ h.restarts)
    (hgone : ∀ t, t ∈ h.restarts → t ∈ keep ∨ h.gone t.waits = true) :
    Acts h { (h.stopRunning list).1 with restarts := keep ++ (h.stopRunning list).2.toList } none := by
  cases list with
  | nil =>
      -- the run ends with a request
      rcases requestReconcile_step h with ⟨heq, _⟩ | ⟨hs, hidle⟩
      · have hsame : SameProcs h h.requestReconcile := by
          rw [heq]
          exact .of_eq rfl rfl rfl
        refine acts_restarts (.quiet hsame) ?_ ?_ ?_ hkeep hgone (by simp [stopRunning]) (by simp)
        · rw [heq]
          exact fun n => Or.inl
        · rw [heq]
          exact fun n hn => hn
        · rw [heq]
          exact fun f hf => (hframe f hf).mono fun _ hid => hid
      · refine acts_restarts hs.effect (fun n => Or.inr) ?_ hs.frame hkeep hgone
          (by simp [stopRunning]) fun n => Or.inl
        intro n hn
        rw [taskWaits, hidle] at hn
        cases hn
  | cons e rest =>
      cases hsame : (h.plugins.get e.1).any fun x => x.ref = e.2 with
      | true =>
          have heq : h.stopRunning (e :: rest) =
              ((h.stopProcess e.1).1, some ⟨(h.stopProcess e.1).2, rest⟩) := by
            simp [stopRunning, hsame]
          have htask := stopProcess_task h e.1
          rw [heq]
          refine acts_restarts (.stop e.1 (stopProcess_stopped h e.1)) ?_ ?_ ?_ hkeep hgone ?_ ?_
          · intro n hn
            rw [taskWaits, htask] at hn
            exact Or.inl hn
          · intro n hn
            rw [taskWaits, htask]
            exact hn
          · intro f hf
            rw [htask] at hf
            exact (hframe f hf).mono fun _ hid => known_stopProcess h e.1 hid
          · intro t ht
            obtain rfl : t = ⟨(h.stopProcess e.1).2, rest⟩ := by simpa using ht
            exact stopProcess_snd h e.1
          · intro n hn
            exact Or.inr ⟨_, List.mem_singleton.2 rfl, (stopProcess_snd h e.1).trans hn⟩
      | false =>
          have heq : h.stopRunning (e :: rest) = (h, some ⟨none, rest⟩) := by
            simp [stopRunning, hsame]
          rw [heq]
          refine acts_restarts (w := none) (.quiet (.refl h)) (fun n => Or.inl) (fun n hn => hn) hframe
            hkeep hgone ?_ (by simp)
          intro t ht
          obtain rfl : t = ⟨none, rest⟩ := by simpa using ht
          rfl

theorem stopRunning_restarts (h : Host) (list : List (PluginId × Nat)) :
    (h.stopRunning list).1.restarts = h.restarts := by
  cases list with
  | nil =>
      rcases requestReconcile_step h with ⟨heq, _⟩ | ⟨hs, _⟩
      · simp only [stopRunning, heq]
      · exact hs.restarts
  | cons e rest =>
      unfold stopRunning
      simp only
      split
      · exact stopProcess_restarts h e.1
      · rfl

/-- What a step can do to the processes: a child ends, a child is started again after a crash, or
the step is one of `Acts`. -/
theorem step_cases {a : Action} (hframe : ∀ f, h.task = some f → h.FrameOk f)
    (hs : h.step a = some h') :
    Acts h h' (h.starts a) ∨
      (∃ n q, a = .exit n ∧ h.procs.get n = some q ∧ q.child = true ∧
        h' = h.updateProc n fun q => { q with child := false, timer := q.wanted }) ∨
      ∃ n q, a = .restart n ∧ h.procs.get n = some q ∧ q.timer = true ∧
        h' = h.updateProc n h.respawn := by
  have hmono : ∀ h₁ : Host, h₁.plugins = h.plugins → ∀ f, h.task = some f → h₁.FrameOk f := by
    intro h₁ hplugins f hf
    exact (hframe f hf).mono fun id hid => by rw [hplugins, hid]
  cases a with
  | state st =>
      cases hs
      left
      have hsame : SameProcs h { h with desired := some st } := .of_eq rfl rfl rfl
      exact Acts.of_same hsame rfl rfl
        (requestReconcile_acts (hmono { h with desired := some st } rfl))
  | fenceChecked mode active was =>
      left
      have hsame : SameProcs h (h.checkFence mode active) := .of_eq rfl rfl rfl
      simp only [step, Option.some.injEq] at hs
      split at hs
      · rw [← hs]
        exact Acts.of_same hsame rfl rfl
          (requestReconcile_acts (hmono (h.checkFence mode active) rfl))
      · rw [← hs]
        exact acts_idle hsame rfl rfl (hmono _ rfl)
  | clock now =>
      cases hs
      left
      exact acts_idle (.of_eq rfl rfl rfl) rfl rfl (hmono _ rfl)
  | resume =>
      left
      obtain ⟨hstep, hgone⟩ := resume_step hframe hs
      exact hstep.acts hgone
  | downloaded o =>
      left
      obtain ⟨hstep, hwaits⟩ := downloaded_taskStep hframe hs
      refine hstep.acts ?_
      intro n hn
      rw [hwaits] at hn
      cases hn
  | rpcOpen =>
      left
      simp only [step] at hs
      split at hs
      · cases hs
        exact acts_idle (.refl h) rfl rfl hframe
      · cases hs
        simp only [stopRunning_restarts]
        exact stopRunning_acts hframe _ (fun _ ht => ht) fun _ => Or.inl
  | rpcResume i =>
      left
      simp only [step] at hs
      split at hs
      · cases hs
      · rename_i t ht
        split at hs
        · rename_i hg
          cases hs
          simp only [stopRunning_restarts]
          refine stopRunning_acts hframe _ (fun _ => List.mem_of_mem_eraseIdx) ?_
          intro t' ht'
          rcases List.mem_iff_getElem?.1 ht' with ⟨j, hj⟩
          by_cases hij : j = i
          · subst hij
            obtain rfl : t = t' := Option.some.inj (ht.symm.trans hj)
            exact Or.inr hg
          · exact Or.inl (List.mem_eraseIdx_iff_getElem?.2 ⟨j, hij, hj⟩)
        · cases hs
  | exit n =>
      simp only [step] at hs
      split at hs
      · rename_i q hq
        split at hs
        · rename_i hchild
          cases hs
          exact Or.inr (Or.inl ⟨n, q, rfl, hq, hchild, rfl⟩)
        · cases hs
      · cases hs
  | restart n =>
      simp only [step] at hs
      split at hs
      · rename_i q hq
        split at hs
        · rename_i htimer
          cases hs
          exact Or.inr (Or.inr ⟨n, q, rfl, hq, htimer, rfl⟩)
        · cases hs
      · cases hs
  | ready n =>
      left
      simp only [step] at hs
      split at hs
      · split at hs
        · cases hs
          exact acts_idle (.of_eq rfl rfl rfl) rfl rfl (hmono _ rfl)
        · cases hs
      · cases hs

/-! ## Numbers and timers -/

/-- Processes are numbered one after the other, and only one that has ended waits to be started
again. -/
structure Base (h : Host) : Prop where
  fresh : ∀ n q, h.procs.get n = some q → n < h.nextProc
  timer : ∀ n q, h.procs.get n = some q → q.timer = true → q.child = false
  frame : ∀ f, h.task = some f → h.FrameOk f

theorem start_base (store : OrderedMap (PluginId × Version) Package) (localMqtt : Bool) (now : Int) :
    Base (start store localMqtt now) := by
  refine ⟨?_, ?_, ?_⟩
  · intro n q hq
    cases hq
  · intro n q hq
    cases hq
  · intro f hf
    cases hf

/-- The processes after one of them has been changed. -/
theorem get_updateProc {n : Nat} {q : Proc} (f : Proc → Proc) (hq : h.procs.get n = some q) {m : Nat}
    {r : Proc} : (h.updateProc n f).procs.get m = some r ↔
      (m = n ∧ r = f q) ∨ (m ≠ n ∧ h.procs.get m = some r) := by
  rw [updateProc_procs, hq]
  simp only [OrderedMap.get_set]
  by_cases hm : m = n
  · simp [hm, eq_comm]
  · simp [hm]

theorem Effect.base {b : Option PluginId} {w : Option Nat} (hb : Base h) (he : Effect h h' b w)
    (hframe : ∀ f, h'.task = some f → h'.FrameOk f) : Base h' := by
  cases he with
  | quiet hsame =>
      refine ⟨?_, ?_, hframe⟩
      · intro n q hq
        rw [hsame.procs] at hq
        rw [hsame.next]
        exact hb.fresh n q hq
      · intro n q hq
        rw [hsame.procs] at hq
        exact hb.timer n q hq
  | stop id hstop =>
      -- what is told to end has its timer stopped
      have hold : ∀ n q, h'.procs.get n = some q → ∃ q₀, h.procs.get n = some q₀ ∧
          (q.timer = true → q₀.timer = true ∧ q.child = q₀.child) := by
        intro n q hq
        rw [hstop.procs] at hq
        split at hq
        · rename_i m _
          cases hm : h.procs.get m with
          | none =>
              rw [updateProc_procs, hm] at hq
              exact ⟨q, hq, fun ht => ⟨ht, rfl⟩⟩
          | some r =>
              rcases (get_updateProc _ hm).1 hq with ⟨rfl, rfl⟩ | ⟨_, hq⟩
              · exact ⟨r, hm, fun ht => by cases ht⟩
              · exact ⟨q, hq, fun ht => ⟨ht, rfl⟩⟩
        · exact ⟨q, hq, fun ht => ⟨ht, rfl⟩⟩
      refine ⟨?_, ?_, hframe⟩
      · intro n q hq
        rcases hold n q hq with ⟨q₀, hq₀, _⟩
        rw [hstop.next]
        exact hb.fresh n q₀ hq₀
      · intro n q hq htimer
        rcases hold n q hq with ⟨q₀, hq₀, htimer₀⟩
        rw [(htimer₀ htimer).2]
        exact hb.timer n q₀ hq₀ (htimer₀ htimer).1
  | start spec pkg hstart =>
      obtain ⟨ref, hprocs⟩ := hstart.procs
      refine ⟨?_, ?_, hframe⟩
      · intro n q hq
        rw [hprocs] at hq
        rw [hstart.next]
        rcases OrderedMap.get_set_cases hq with ⟨rfl, _⟩ | ⟨_, hq⟩
        · exact Nat.lt_succ_self _
        · exact Nat.lt_succ_of_lt (hb.fresh n q hq)
      · intro n q hq htimer
        rw [hprocs] at hq
        rcases OrderedMap.get_set_cases hq with ⟨_, rfl⟩ | ⟨_, hq⟩
        · cases htimer
        · exact hb.timer n q hq htimer

theorem updateProc_task (h : Host) (n : Nat) (f : Proc → Proc) :
    (h.updateProc n f).task = h.task := by
  unfold updateProc
  split <;> rfl

/-- A process ends or is started again. -/
theorem updateProc_base (hb : Base h) {n : Nat} {q : Proc} (hq : h.procs.get n = some q)
    {f : Proc → Proc} (hf : (f q).timer = true → (f q).child = false) : Base (h.updateProc n f) := by
  refine ⟨?_, ?_, ?_⟩
  · intro m r hr
    have hnext : (h.updateProc n f).nextProc = h.nextProc := by
      unfold updateProc
      split <;> rfl
    rw [hnext]
    rcases (get_updateProc f hq).1 hr with ⟨rfl, _⟩ | ⟨_, hr⟩
    · exact hb.fresh m q hq
    · exact hb.fresh m r hr
  · intro m r hr htimer
    rcases (get_updateProc f hq).1 hr with ⟨_, rfl⟩ | ⟨_, hr⟩
    · exact hf htimer
    · exact hb.timer m r hr htimer
  · intro fr hfr
    rw [updateProc_task] at hfr
    exact (hb.frame fr hfr).mono fun _ hid => known_updateProc h n f hid

theorem step_base (h : Host) (a : Action) (h' : Host) (hb : Base h) (hs : h.step a = some h') :
    Base h' := by
  rcases step_cases hb.frame hs with hacts | ⟨n, q, _, hq, _, rfl⟩ | ⟨n, q, _, hq, _, rfl⟩
  · obtain ⟨w, heffect, _⟩ := hacts.effect
    exact heffect.base hb hacts.frame
  · exact updateProc_base hb hq fun _ => rfl
  · exact updateProc_base hb hq fun ht => by cases ht

end Host

end Edge
end GateControl
