import GateControl.Edge.Host

/-!
# FailClosed — which processes are left when a call of `reconcile` returns

`Gate` is the promise of the edge host: once a call has returned for the desired state that is still
in force, and the boundary has not changed meanwhile, only wanted plugins have a process, and only
behind an active boundary and from packages that the state accepts.

`ensurePlugin` breaks it in two places.  When the package of the new version is not there and cannot
be loaded for the time being, the old process is left alone, whatever it was started from and even
without a boundary.  And a failed download already puts the new digest into the entry, so that a
later success of the same version takes the old process for the new one, whose folder now holds the
new package: the next crash lets it run.  `KeepsGate` says that no process is left alone that must
not go on, or must not be started again; it is all that is needed.
-/

namespace GateControl
namespace Edge

open Library

namespace Host

/-! ## The promise -/

/-- The process may run under the state. -/
def Sound (h : Host) (st : Desired) (n : Nat) : Prop :=
  h.fence = true ∧
    ∃ q, h.procs.get n = some q ∧ acceptable q.package.signature st.allowUnsigned = true

def Gate (h : Host) : Prop :=
  ∀ st, h.task = some (.returned st) → h.desired = st → h.steady = true →
    ∀ id n, h.held id = some n →
      ∃ st', st = some st' ∧ id ∈ Desired.ids st'.want ∧ h.Sound st' n

/-! ## The condition -/

/-- The process of a plugin, if it has one, was started from an acceptable package. -/
def HeldAcceptable (h : Host) (st : Desired) (id : PluginId) : Prop :=
  ∀ n q, h.held id = some n → h.procs.get n = some q →
    acceptable q.package.signature st.allowUnsigned = true

/-- What the folder holds, if anything, may run under the state. -/
def FolderAcceptable (h : Host) (st : Desired) (k : PluginId × Version) : Prop :=
  ∀ pkg, h.store.get k = some pkg → acceptable pkg.signature st.allowUnsigned = true

/-- The process of a plugin, if it has one, would be started again from an acceptable package. -/
def RestartAcceptable (h : Host) (st : Desired) (id : PluginId) : Prop :=
  ∀ n q, h.held id = some n → h.procs.get n = some q → h.FolderAcceptable st q.folder

/-- The old process may stay when the new package cannot be loaded. -/
def LeftRunningOk (h : Host) (st : Desired) (p : PluginState) : Prop :=
  (h.held p.id).isSome = true →
    h.fence = true ∧ h.HeldAcceptable st p.id ∧ h.RestartAcceptable st p.id

/-- The process of an entry that counts as unchanged may stay. -/
def LaunchOk (h : Host) (st : Desired) (p : PluginState) (pkg : Package) : Prop :=
  acceptable pkg.signature st.allowUnsigned = true → h.fence = true → h.changed p pkg = false →
    h.HeldAcceptable st p.id

def KeepsGate (h : Host) : Action → Prop
  | .resume => ∀ st p rest, h.task = some (.next st (p :: rest)) → p.capsError = none →
      match h.installed p with
      | some pkg => h.LaunchOk st p pkg
      | none => h.putOff p = true → h.LeftRunningOk st p
  | .downloaded o => ∀ st p rest, h.task = some (.download st p rest) →
      match o.checked p st with
      | .ok pkg => h.LaunchOk st p pkg
      | .error code => retryable code = true → h.LeftRunningOk st p
  | _ => True

/-! ## Steps that start no process -/

variable {h h' : Host} {st : Desired} {p : PluginState} {rest : List PluginState} {pkg : Package}
  {spec : RunSpec}

/-- The version that the entry of a plugin is for. -/
def specVersion (h : Host) (id : PluginId) : Option Version :=
  ((h.plugins.get id).bind Entry.spec).map RunSpec.version

/-- Processes are at most given up, or started again from their folder; nothing is unpacked, and a
boundary that counts as steady has not changed. -/
structure Calm (h h' : Host) : Prop where
  held : ∀ id n, h'.held id = some n → h.held id = some n
  version : ∀ id n, h'.held id = some n → h'.specVersion id = h.specVersion id
  package : ∀ n q, h.procs.get n = some q → ∃ q', h'.procs.get n = some q' ∧ q'.folder = q.folder ∧
    (q'.package = q.package ∨ h.store.get q.folder = some q'.package)
  old : ∀ n q', h'.procs.get n = some q' → ∃ q, h.procs.get n = some q
  next : h'.nextProc = h.nextProc
  store : ∀ k pkg, h'.store.get k = some pkg → h.store.get k = some pkg
  steady : h'.steady = true → h.steady = true ∧ h'.fence = h.fence

theorem Calm.trans {h'' : Host} (h1 : Calm h h') (h2 : Calm h' h'') : Calm h h'' := by
  constructor
  case held =>
    intro id n hn
    exact h1.held id n (h2.held id n hn)
  case version =>
    intro id n hn
    exact (h2.version id n hn).trans (h1.version id n (h2.held id n hn))
  case package =>
    intro n q hq
    rcases h1.package n q hq with ⟨q', hq', hfolder', hpkg'⟩
    rcases h2.package n q' hq' with ⟨q'', hq'', hfolder'', hpkg''⟩
    refine ⟨q'', hq'', hfolder''.trans hfolder', ?_⟩
    rcases hpkg'' with hkept | hfresh
    · rw [hkept]
      exact hpkg'
    · rw [hfolder'] at hfresh
      exact Or.inr (h1.store _ _ hfresh)
  case old =>
    intro n q'' hq''
    rcases h2.old n q'' hq'' with ⟨q', hq'⟩
    exact h1.old n q' hq'
  case next =>
    exact h2.next.trans h1.next
  case store =>
    intro k pkg hk
    exact h1.store k pkg (h2.store k pkg hk)
  case steady =>
    intro hs
    have hs2 := h2.steady hs
    have hs1 := h1.steady hs2.1
    exact ⟨hs1.1, hs2.2.trans hs1.2⟩

/-- The processes have not changed. -/
theorem Calm.of_procs (hheld : ∀ id n, h'.held id = some n → h.held id = some n)
    (hversion : ∀ id n, h'.held id = some n → h'.specVersion id = h.specVersion id)
    (hprocs : h'.procs = h.procs) (hnext : h'.nextProc = h.nextProc) (hstore : h'.store = h.store)
    (hsteady : h'.steady = true → h.steady = true ∧ h'.fence = h.fence) : Calm h h' := by
  refine ⟨hheld, hversion, ?_, ?_, hnext, fun k pkg hk => hstore ▸ hk, hsteady⟩
  · intro n q hq
    exact ⟨q, by rw [hprocs, hq], rfl, Or.inl rfl⟩
  · intro n q hq
    exact ⟨q, by rw [← hprocs, hq]⟩

/-- Neither the entries nor the processes have changed. -/
theorem Calm.of_eq (hplugins : h'.plugins = h.plugins) (hprocs : h'.procs = h.procs)
    (hnext : h'.nextProc = h.nextProc) (hstore : h'.store = h.store)
    (hsteady : h'.steady = true → h.steady = true ∧ h'.fence = h.fence) : Calm h h' := by
  refine .of_procs ?_ ?_ hprocs hnext hstore hsteady
  · intro id n hn
    simpa only [Host.held, hplugins] using hn
  · intro id n _
    rw [specVersion, hplugins]
    rfl

/-- Folders are deleted. -/
theorem calm_filter (h : Host) (keep : PluginId × Version → Package → Bool) :
    Calm h { h with store := h.store.filter keep } := by
  refine ⟨fun _ _ hn => hn, fun _ _ _ => rfl, fun n q hq => ⟨q, hq, rfl, Or.inl rfl⟩,
    fun n q hq => ⟨q, hq⟩, rfl, ?_, fun hs => ⟨hs, rfl⟩⟩
  intro k pkg hk
  exact ((OrderedMap.get_filter _ _).1 hk).1

section Update

variable (h : Host) (id : PluginId) (f : Entry → Entry)

@[simp] theorem update_procs : (h.update id f).procs = h.procs := by
  unfold update
  split <;> rfl

@[simp] theorem update_nextProc : (h.update id f).nextProc = h.nextProc := by
  unfold update
  split <;> rfl

@[simp] theorem update_steady : (h.update id f).steady = h.steady := by
  unfold update
  split <;> rfl

@[simp] theorem update_fence : (h.update id f).fence = h.fence := by
  unfold update
  split <;> rfl

@[simp] theorem update_desired : (h.update id f).desired = h.desired := by
  unfold update
  split <;> rfl

@[simp] theorem update_store : (h.update id f).store = h.store := by
  unfold update
  split <;> rfl

@[simp] theorem update_now : (h.update id f).now = h.now := by
  unfold update
  split <;> rfl

@[simp] theorem update_get : (h.update id f).plugins.get id = (h.plugins.get id).map f := by
  unfold update
  split
  · rename_i e he
    simp [he]
  · rename_i he
    simp [he]

end Update

theorem held_update (h : Host) (id : PluginId) {f : Entry → Entry}
    (hf : ∀ e, (f e).proc = e.proc) (j : PluginId) : (h.update id f).held j = h.held j := by
  unfold update
  split
  · rename_i e he
    simp only [held, OrderedMap.get_set]
    split
    · rename_i hj
      rw [hj, he, Option.bind_some, Option.bind_some, hf]
    · rfl
  · rfl

theorem specVersion_update_ne (h : Host) (f : Entry → Entry) {id j : PluginId} (hj : j ≠ id) :
    (h.update id f).specVersion j = h.specVersion j := by
  unfold update
  split
  · simp only [specVersion, OrderedMap.get_set, if_neg hj]
  · rfl

theorem specVersion_update (h : Host) (id : PluginId) {f : Entry → Entry}
    (hf : ∀ e, (f e).spec = e.spec) (j : PluginId) :
    (h.update id f).specVersion j = h.specVersion j := by
  by_cases hj : j = id
  · subst hj
    rw [specVersion, update_get, specVersion]
    cases h.plugins.get j with
    | none =>
        rfl
    | some e =>
        simp [hf]
  · exact specVersion_update_ne h f hj

/-- The process of an entry is left where it is, and so is the version it is for. -/
theorem calm_update_of_version (h : Host) (id : PluginId) {f : Entry → Entry}
    (hf : ∀ e, (f e).proc = e.proc)
    (hv : (h.held id).isSome = true → (h.update id f).specVersion id = h.specVersion id) :
    Calm h (h.update id f) := by
  refine .of_procs ?_ ?_ (by simp) (by simp) (by simp) fun hs => ⟨by simpa using hs, by simp⟩
  · intro j n hn
    rwa [held_update h id hf] at hn
  · intro j n hn
    rw [held_update h id hf] at hn
    by_cases hj : j = id
    · subst hj
      exact hv (by rw [hn]; rfl)
    · exact specVersion_update_ne h f hj

theorem calm_update (h : Host) (id : PluginId) {f : Entry → Entry}
    (hf : ∀ e, (f e).proc = e.proc ∧ (f e).spec = e.spec) : Calm h (h.update id f) :=
  calm_update_of_version h id (fun e => (hf e).1) fun _ =>
    specVersion_update h id (fun e => (hf e).2) id

theorem held_entry (h : Host) (id j : PluginId) : (h.entry id).held j = h.held j := by
  unfold entry
  split
  · rfl
  · rename_i hnone
    simp only [held, OrderedMap.get_set]
    split
    · rename_i hj
      rw [hj, hnone]
      rfl
    · rfl

theorem specVersion_entry (h : Host) (id j : PluginId) :
    (h.entry id).specVersion j = h.specVersion j := by
  unfold entry
  split
  · rfl
  · rename_i hnone
    simp only [specVersion, OrderedMap.get_set]
    split
    · rename_i hj
      rw [hj, hnone]
      rfl
    · rfl

theorem calm_entry (h : Host) (id : PluginId) : Calm h (h.entry id) := by
  -- a new entry has no process
  have hheld := held_entry h id
  have hversion := specVersion_entry h id
  unfold entry at hheld hversion ⊢
  split
  · exact .of_eq rfl rfl rfl rfl fun hs => ⟨hs, rfl⟩
  · rename_i hnone
    simp only [hnone] at hheld hversion
    exact .of_procs (fun j n hn => hheld j ▸ hn) (fun j _ _ => hversion j) rfl rfl rfl
      fun hs => ⟨hs, rfl⟩

theorem calm_updateProc (h : Host) (n : Nat) {f : Proc → Proc} (hf : ∀ q, (f q).folder = q.folder ∧
    ((f q).package = q.package ∨ h.store.get q.folder = some (f q).package)) :
    Calm h (h.updateProc n f) := by
  unfold updateProc
  split
  · rename_i q hq
    refine ⟨fun _ _ hn => hn, fun _ _ _ => rfl, ?_, ?_, rfl, fun _ _ hk => hk, fun hs => ⟨hs, rfl⟩⟩
    · intro m q' hq'
      by_cases hm : m = n
      · subst hm
        obtain rfl : q = q' := Option.some.inj (hq.symm.trans hq')
        exact ⟨f q, OrderedMap.get_set_self _ _ _, hf q⟩
      · exact ⟨q', (OrderedMap.get_set_ne _ hm _).trans hq', rfl, Or.inl rfl⟩
    · intro m q' hq'
      rcases OrderedMap.get_set_cases hq' with ⟨rfl, _⟩ | ⟨_, hold⟩
      · exact ⟨q, hq⟩
      · exact ⟨q', hold⟩
  · exact .of_eq rfl rfl rfl rfl fun hs => ⟨hs, rfl⟩

theorem folder_respawn (h : Host) (q : Proc) : (h.respawn q).folder = q.folder ∧
    ((h.respawn q).package = q.package ∨ h.store.get q.folder = some (h.respawn q).package) := by
  refine ⟨rfl, ?_⟩
  simp only [respawn]
  cases h.store.get q.folder with
  | none =>
      exact Or.inl rfl
  | some pkg =>
      exact Or.inr rfl

theorem held_updateProc (h : Host) (n : Nat) (f : Proc → Proc) (j : PluginId) :
    (h.updateProc n f).held j = h.held j := by
  unfold updateProc
  split <;> rfl

/-- A stopped plugin has no process any more. -/
theorem held_stopProcess (h : Host) (id j : PluginId) :
    (h.stopProcess id).1.held j = if j = id then none else h.held j := by
  unfold stopProcess
  split
  · rename_i hnone
    split
    · rename_i hj
      rw [hj, hnone]
    · rfl
  · rename_i n hn
    rcases Option.bind_eq_some_iff.1 hn with ⟨e, he, _⟩
    rw [held_updateProc]
    simp only [update, he, held, OrderedMap.get_set]
    split <;> rfl

theorem calm_stopProcess (h : Host) (id : PluginId) : Calm h (h.stopProcess id).1 := by
  have hheld : ∀ j n, (h.stopProcess id).1.held j = some n → h.held j = some n := by
    intro j n hn
    rw [held_stopProcess] at hn
    split at hn
    · cases hn
    · exact hn
  unfold stopProcess at hheld ⊢
  split
  · exact .of_eq rfl rfl rfl rfl fun hs => ⟨hs, rfl⟩
  · rename_i n hn
    simp only [hn, held_updateProc] at hheld
    -- first the entry gives the process up, then the process is told to end
    have hgiveUp : Calm h (h.update id fun e => { e with proc := none }) :=
      .of_procs hheld
        (fun j _ _ => specVersion_update h id (f := fun e => { e with proc := none }) (fun _ => rfl) j)
        (by simp) (by simp) (by simp) fun hs => ⟨by simpa using hs, by simp⟩
    exact hgiveUp.trans (calm_updateProc _ n fun _ => ⟨rfl, Or.inl rfl⟩)

/-! ## The invariant -/

/-- Every process of an entry exists and is of the version that the entry is for, and processes are
numbered one after the other. -/
structure Live (h : Host) : Prop where
  procs : ∀ id n, h.held id = some n →
    ∃ q v, h.procs.get n = some q ∧ q.folder = (id, v) ∧ h.specVersion id = some v
  fresh : ∀ n q, h.procs.get n = some q → n < h.nextProc

theorem Calm.live (hc : Calm h h') (hl : Live h) : Live h' := by
  constructor
  · intro id n hn
    rcases hl.procs id n (hc.held id n hn) with ⟨q, v, hq, hfolder, hv⟩
    rcases hc.package n q hq with ⟨q', hq', hfolder', _⟩
    exact ⟨q', v, hq', hfolder'.trans hfolder, (hc.version id n hn).trans hv⟩
  · intro n q' hq'
    rcases hc.old n q' hq' with ⟨q, hq⟩
    rw [hc.next]
    exact hl.fresh n q hq

/-- The process may run under the state, also after a crash. -/
def Kept (h : Host) (st : Desired) (n : Nat) : Prop :=
  h.fence = true ∧ ∃ q, h.procs.get n = some q ∧
    acceptable q.package.signature st.allowUnsigned = true ∧ h.FolderAcceptable st q.folder

/-- The plugins of `rest` are yet to be dealt with; the other processes are in order. -/
structure Settled (h : Host) (st : Desired) (rest : List PluginState) : Prop where
  wanted : ∀ p ∈ rest, p ∈ st.want
  held : ∀ id n, h.held id = some n → id ∈ Desired.ids st.want ∧
    (id ∈ Desired.ids rest ∨ (h.steady = true → h.Kept st n))

/-- A process that is about to be started is in order. -/
def AfterOk (h : Host) (st : Desired) (p : PluginState) : After → Prop
  | .start spec pkg => spec.id = p.id ∧ acceptable pkg.signature st.allowUnsigned = true ∧
      h.FolderAcceptable st (spec.id, spec.version) ∧ (h.steady = true → h.fence = true)
  | _ => True

/-- How far a call has come. -/
def OnTrack (h : Host) : Frame → Prop
  | .mqtt _ => True
  | .unwanted st _ rest _ => ∀ id n, h.held id = some n → id ∈ Desired.ids st.want ∨ id ∈ rest
  | .next st rest => h.Settled st rest
  | .download st p rest => h.Settled st (p :: rest)
  | .stopping st p rest _ after =>
      h.Settled st rest ∧ h.held p.id = none ∧ p ∈ st.want ∧ h.AfterOk st p after
  | .returned none => ∀ id, h.held id = none
  | .returned (some st) => h.Settled st []

/-- Without a desired state there is no process, and nothing to do. -/
structure Inv (h : Host) : Prop where
  live : Live h
  idle : h.desired = none →
    (∀ id, h.held id = none) ∧ (h.task = none ∨ h.task = some (.returned none))
  task : ∀ f, h.task = some f → h.OnTrack f

theorem Kept.sound {n : Nat} (hk : h.Kept st n) : h.Sound st n := by
  rcases hk with ⟨hfence, q, hq, hacc, _⟩
  exact ⟨hfence, q, hq, hacc⟩

theorem Calm.folder (hc : Calm h h') {k : PluginId × Version} (hk : h.FolderAcceptable st k) :
    h'.FolderAcceptable st k :=
  fun pkg hpkg => hk pkg (hc.store k pkg hpkg)

/-- What is in its folder is acceptable, so a process may be started again. -/
theorem Calm.kept (hc : Calm h h') {n : Nat} (hs : h.steady = true → h.Kept st n) :
    h'.steady = true → h'.Kept st n := by
  intro hsteady
  have hsame := hc.steady hsteady
  rcases hs hsame.1 with ⟨hfence, q, hq, hacc, hfolder⟩
  rcases hc.package n q hq with ⟨q', hq', heq, hpkg⟩
  refine ⟨hsame.2.trans hfence, q', hq', ?_, heq ▸ hc.folder hfolder⟩
  rcases hpkg with hpkg | hpkg
  · rw [hpkg, hacc]
  · -- it has been started again meanwhile
    exact hfolder _ hpkg

theorem Calm.settled (hc : Calm h h') (hs : h.Settled st rest) : h'.Settled st rest := by
  refine ⟨hs.wanted, ?_⟩
  intro id n hn
  have hold := hs.held id n (hc.held id n hn)
  exact ⟨hold.1, hold.2.imp (fun hrest => hrest) hc.kept⟩

theorem Calm.held_none (hc : Calm h h') {id : PluginId} (hnone : h.held id = none) :
    h'.held id = none := by
  cases hn : h'.held id with
  | none =>
      rfl
  | some n =>
      rw [hc.held id n hn] at hnone
      cases hnone

theorem Calm.afterOk (hc : Calm h h') {after : After} (ha : h.AfterOk st p after) :
    h'.AfterOk st p after := by
  cases after with
  | start spec pkg =>
      refine ⟨ha.1, ha.2.1, hc.folder ha.2.2.1, ?_⟩
      intro hsteady
      have hsame := hc.steady hsteady
      exact hsame.2.trans (ha.2.2.2 hsame.1)
  | deny code =>
      trivial
  | fenceDown code spec =>
      trivial

/-- A call comes no less far when something calm happens meanwhile. -/
theorem Calm.onTrack (hc : Calm h h') {f : Frame} (hf : h.OnTrack f) : h'.OnTrack f := by
  cases f with
  | mqtt st =>
      trivial
  | unwanted st id rest waits =>
      intro j n hn
      exact hf j n (hc.held j n hn)
  | next st rest =>
      exact hc.settled hf
  | download st p rest =>
      exact hc.settled hf
  | stopping st p rest waits after =>
      exact ⟨hc.settled hf.1, hc.held_none hf.2.1, hf.2.2.1, hc.afterOk hf.2.2.2⟩
  | returned st =>
      cases st with
      | none =>
          intro id
          exact hc.held_none (hf id)
      | some st =>
          exact hc.settled hf

/-- Something calm that leaves the call where it is. -/
theorem Calm.inv (hc : Calm h h') (hi : Inv h) (htask : h'.task = h.task)
    (hdesired : h'.desired = none → h.desired = none) : Inv h' := by
  refine ⟨hc.live hi.live, ?_, ?_⟩
  · intro hnone
    have hidle := hi.idle (hdesired hnone)
    exact ⟨fun id => hc.held_none (hidle.1 id), htask ▸ hidle.2⟩
  · intro f hf
    exact hc.onTrack (hi.task f (htask ▸ hf))

theorem Inv.same (hi : Inv h) (hplugins : h'.plugins = h.plugins) (hprocs : h'.procs = h.procs)
    (hnext : h'.nextProc = h.nextProc) (hstore : h'.store = h.store)
    (hsteady : h'.steady = true → h.steady = true ∧ h'.fence = h.fence) (htask : h'.task = h.task)
    (hdesired : h'.desired = none → h.desired = none) : Inv h' :=
  (Calm.of_eq hplugins hprocs hnext hstore hsteady).inv hi htask hdesired

/-! ## What a call does -/

/-- A call has gone on to its next wait. -/
structure Placed (h h' : Host) : Prop where
  live : Live h'
  desired : h'.desired = h.desired
  task : ∃ f, h'.task = some f ∧ h'.OnTrack f

theorem Placed.inv (hp : Placed h h') (hdesired : h.desired ≠ none) : Inv h' := by
  rcases hp.task with ⟨f, hf, htrack⟩
  refine ⟨hp.live, ?_, ?_⟩
  · intro hnone
    exact absurd (hp.desired.symm.trans hnone) hdesired
  · intro g hg
    exact Option.some.inj (hf.symm.trans hg) ▸ htrack

theorem Calm.placed (hc : Calm h h') (hl : Live h) (hdesired : h'.desired = h.desired) {f : Frame}
    (htask : h'.task = some f) (hf : h'.OnTrack f) : Placed h h' :=
  ⟨hc.live hl, hdesired, f, htask, hf⟩

theorem Placed.of_desired {h'' : Host} (hp : Placed h' h'') (hdesired : h'.desired = h.desired) :
    Placed h h'' :=
  ⟨hp.live, hp.desired.trans hdesired, hp.task⟩

/-- To give way changes nothing but the task. -/
theorem calm_await (h : Host) (f : Frame) : Calm h { h with task := some f } :=
  .of_eq rfl rfl rfl rfl fun hs => ⟨hs, rfl⟩

@[simp] theorem updateProc_desired (h : Host) (n : Nat) (f : Proc → Proc) :
    (h.updateProc n f).desired = h.desired := by
  unfold updateProc
  split <;> rfl

@[simp] theorem stopProcess_desired (h : Host) (id : PluginId) :
    (h.stopProcess id).1.desired = h.desired := by
  unfold stopProcess
  split
  · rfl
  · simp

@[simp] theorem entry_desired (h : Host) (id : PluginId) : (h.entry id).desired = h.desired := by
  unfold entry
  split <;> rfl

theorem stopThen_placed {after : After} (hl : Live h) (hset : h.Settled st (p :: rest))
    (hafter : h.AfterOk st p after) : Placed h (h.stopThen st p rest after) := by
  have hstop := calm_stopProcess h p.id
  have hcalm : Calm h (h.stopThen st p rest after) :=
    hstop.trans (calm_await _ _)
  have hheld : ∀ j, (h.stopThen st p rest after).held j = if j = p.id then none else h.held j :=
    held_stopProcess h p.id
  refine hcalm.placed hl (by simp [stopThen]) rfl ⟨?_, by rw [hheld, if_pos rfl],
    hset.wanted p List.mem_cons_self, hcalm.afterOk hafter⟩
  refine ⟨fun q hq => hset.wanted q (List.mem_cons_of_mem p hq), ?_⟩
  intro id n hn
  have hold := hset.held id n (hcalm.held id n hn)
  refine ⟨hold.1, ?_⟩
  rw [hheld] at hn
  split at hn
  · cases hn
  · rename_i hne
    refine hold.2.imp ?_ hcalm.kept
    intro hmem
    exact (List.mem_cons.1 hmem).resolve_left hne

theorem held_startProcess (pkg : Package) {id : PluginId} {n : Nat}
    (hn : (h.startProcess spec pkg).held id = some n) :
    (id = spec.id ∧ n = h.nextProc ∧ ∃ e, h.plugins.get spec.id = some e) ∨ h.held id = some n := by
  simp only [startProcess, held, update] at hn
  split at hn
  · rename_i e he
    simp only [OrderedMap.get_set] at hn
    split at hn
    · rename_i hid
      exact Or.inl ⟨hid, (Option.some.inj hn).symm, e, he⟩
    · exact Or.inr hn
  · exact Or.inr hn

theorem specVersion_startProcess (h : Host) (spec : RunSpec) (pkg : Package) (id : PluginId) :
    (h.startProcess spec pkg).specVersion id = h.specVersion id :=
  specVersion_update h spec.id (f := fun e => { e with proc := some h.nextProc }) (fun _ => rfl) id

/-- A plugin whose process may go on is settled. -/
theorem Settled.drop (hset : h.Settled st (p :: rest))
    (hok : ∀ n, h.held p.id = some n → h.steady = true → h.Kept st n) : h.Settled st rest := by
  refine ⟨fun q hq => hset.wanted q (List.mem_cons_of_mem p hq), ?_⟩
  intro id n hn
  refine ⟨(hset.held id n hn).1, ?_⟩
  by_cases hp : id = p.id
  · subst hp
    exact Or.inr (hok n hn)
  · refine (hset.held id n hn).2.imp ?_ fun hkept => hkept
    intro hmem
    exact (List.mem_cons.1 hmem).resolve_left hp

theorem leave_placed (hl : Live h) (hset : h.Settled st (p :: rest))
    (hok : ∀ n, h.held p.id = some n → h.steady = true → h.Kept st n) :
    Placed h { h with task := some (.next st rest) } :=
  (calm_await h _).placed hl rfl rfl ((calm_await h _).settled (hset.drop hok))

theorem startProcess_placed (hl : Live h) (hset : h.Settled st (p :: rest))
    (hnone : h.held p.id = none) (hid : spec.id = p.id)
    (hspec : ∀ e, h.plugins.get spec.id = some e → e.spec = some spec)
    (hacc : acceptable pkg.signature st.allowUnsigned = true)
    (hfolder : h.FolderAcceptable st (spec.id, spec.version))
    (hfence : h.steady = true → h.fence = true) :
    Placed h { h.startProcess spec pkg with task := some (.next st rest) } := by
  -- the plugin had no process, so the others are as they were
  have hold : h.Settled st rest := hset.drop fun n hn => by rw [hnone] at hn; cases hn
  have hversion := specVersion_startProcess h spec pkg
  have hprocs : ∀ n, n ≠ h.nextProc → (h.startProcess spec pkg).procs.get n = h.procs.get n :=
    fun n hn => OrderedMap.get_set_ne _ hn _
  have hnew : (h.startProcess spec pkg).procs.get h.nextProc =
      some ⟨spec, pkg, h.refOf spec.id, true, true, false⟩ := OrderedMap.get_set_self _ _ _
  refine ⟨⟨?_, ?_⟩, by simp [startProcess], _, rfl, hold.wanted, ?_⟩
  · intro id n hn
    -- the new process has a number that no other has
    rcases held_startProcess pkg hn with ⟨rfl, rfl, e, he⟩ | hn
    · refine ⟨_, spec.version, hnew, rfl, (hversion spec.id).trans ?_⟩
      rw [specVersion, he, Option.bind_some, hspec e he]
      rfl
    · rcases hl.procs id n hn with ⟨q, v, hq, hqfolder, hv⟩
      exact ⟨q, v, (hprocs n (Nat.ne_of_lt (hl.fresh n q hq))).trans hq, hqfolder,
        (hversion id).trans hv⟩
  · intro n q hq
    by_cases hn : n = h.nextProc
    · subst hn
      exact Nat.lt_succ_self _
    · exact Nat.lt_succ_of_lt (hl.fresh n q ((hprocs n hn).symm.trans hq))
  · intro id n hn
    have hsame : (h.startProcess spec pkg).steady = h.steady ∧
        (h.startProcess spec pkg).fence = h.fence ∧
        (h.startProcess spec pkg).store = h.store := by simp [startProcess]
    have hstore : ∀ {k}, h.FolderAcceptable st k →
        (h.startProcess spec pkg).FolderAcceptable st k := fun hk pkg' hpkg' =>
      hk pkg' (by rwa [hsame.2.2] at hpkg')
    rcases held_startProcess pkg hn with ⟨rfl, rfl, _⟩ | hn
    · refine ⟨?_, Or.inr fun hsteady => ⟨?_, _, hnew, hacc, hstore hfolder⟩⟩
      · rw [hid]
        exact List.mem_map_of_mem (hset.wanted p List.mem_cons_self)
      · exact hsame.2.1.trans (hfence (hsame.1.symm.trans hsteady))
    · refine ⟨(hold.held id n hn).1, (hold.held id n hn).2.imp (fun hmem => hmem) ?_⟩
      intro hkept hsteady
      rcases hkept (hsame.1.symm.trans hsteady) with ⟨hf, q, hq, hqacc, hqfolder⟩
      exact ⟨hsame.2.1.trans hf, q, (hprocs n (Nat.ne_of_lt (hl.fresh n q hq))).trans hq, hqacc,
        hstore hqfolder⟩

/-- What the condition looks at is the same as long as the processes are. -/
theorem HeldAcceptable.of_procs (hprocs : h'.procs = h.procs) {id : PluginId}
    (hheld : ∀ n, h'.held id = some n → h.held id = some n) (hok : h.HeldAcceptable st id) :
    h'.HeldAcceptable st id :=
  fun n q hn hq => hok n q (hheld n hn) (hprocs ▸ hq)

theorem LeftRunningOk.of_procs (hprocs : h'.procs = h.procs)
    (hheld : ∀ n, h'.held p.id = some n → h.held p.id = some n) (hstore : h'.store = h.store)
    (hfence : h'.fence = h.fence) (hok : h.LeftRunningOk st p) : h'.LeftRunningOk st p := by
  intro hsome
  rcases Option.isSome_iff_exists.1 hsome with ⟨n, hn⟩
  have hleft := hok (by rw [hheld n hn]; rfl)
  refine ⟨hfence.trans hleft.1, hleft.2.1.of_procs hprocs hheld, ?_⟩
  intro m q hm hq pkg hpkg
  exact hleft.2.2 m q (hheld m hm) (hprocs ▸ hq) pkg (hstore ▸ hpkg)

theorem LaunchOk.of_procs (hprocs : h'.procs = h.procs)
    (hheld : ∀ n, h'.held p.id = some n → h.held p.id = some n) (hfence : h'.fence = h.fence)
    (hchanged : h'.changed p pkg = false → h.changed p pkg = false) (hok : h.LaunchOk st p pkg) :
    h'.LaunchOk st p pkg := by
  intro hacc hf hunchanged
  exact (hok hacc (hfence.symm.trans hf) (hchanged hunchanged)).of_procs hprocs hheld

/-- A process that may stay is left alone. -/
theorem LeftRunningOk.placed (hok : h.LeftRunningOk st p) (hl : Live h)
    (hset : h.Settled st (p :: rest)) : Placed h { h with task := some (.next st rest) } := by
  refine leave_placed hl hset ?_
  intro n hn _
  have hleft := hok (by rw [hn]; rfl)
  rcases hl.procs _ n hn with ⟨q, _, hq, _⟩
  exact ⟨hleft.1, q, hq, hleft.2.1 n q hn hq, hleft.2.2 n q hn hq⟩

theorem startIfNone_placed (hl : Live h) (hset : h.Settled st (p :: rest)) (hid : spec.id = p.id)
    (hacc : acceptable pkg.signature st.allowUnsigned = true)
    (hfolder : h.FolderAcceptable st (spec.id, spec.version))
    (hfence : h.steady = true → h.fence = true) (hheld : h.HeldAcceptable st p.id)
    (hversion : (h.held p.id).isSome = true → h.specVersion p.id = some spec.version) :
    Placed h { h.startIfNone spec pkg with task := some (.next st rest) } := by
  have hget := update_get h spec.id fun e => { e with spec := some spec }
  have hcalm : Calm h (h.update spec.id fun e => { e with spec := some spec }) := by
    refine calm_update_of_version h spec.id (fun _ => rfl) fun hsome => ?_
    rcases Option.isSome_iff_exists.1 hsome with ⟨n, hn⟩
    rcases Option.bind_eq_some_iff.1 hn with ⟨e, he, _⟩
    rw [hid] at hsome ⊢
    rw [hversion hsome, specVersion, ← hid, hget, he]
    rfl
  have hprocs := update_procs h spec.id fun e => { e with spec := some spec }
  have hfence' : (h.update spec.id fun e => { e with spec := some spec }).steady = true →
      (h.update spec.id fun e => { e with spec := some spec }).fence = true := by
    simpa using hfence
  unfold startIfNone
  simp only
  split
  · rename_i hnone
    refine (startProcess_placed (hcalm.live hl) (hcalm.settled hset) (hid ▸ hnone) hid ?_ hacc
      (hcalm.folder hfolder) hfence').of_desired (by simp)
    intro e he
    rw [hget] at he
    rcases Option.map_eq_some_iff.1 he with ⟨_, _, rfl⟩
    rfl
  · refine (leave_placed (hcalm.live hl) (hcalm.settled hset) fun n hn hsteady => ?_).of_desired
      (by simp)
    -- the process that is kept is of this version, so its folder is the one that was looked at
    have hn' := hcalm.held _ n hn
    rcases hl.procs _ n hn' with ⟨q, v, hq, hqfolder, hv⟩
    rw [hversion (by rw [hn']; rfl), Option.some.injEq] at hv
    refine ⟨hfence' hsteady, q, hprocs ▸ hq, hheld n q hn' hq, hcalm.folder ?_⟩
    rw [hqfolder, ← hv, ← hid]
    exact hfolder

theorem specVersion_of_unchanged (hu : h.changed p pkg = false) :
    h.specVersion p.id = some p.version := by
  rw [changed] at hu
  rw [specVersion]
  cases he : h.plugins.get p.id with
  | none =>
      simp [he] at hu
  | some e =>
      cases hs : e.spec with
      | none =>
          simp [he, hs] at hu
      | some s =>
          simp only [he, hs, Option.all_some, Bool.or_eq_false_iff, decide_eq_false_iff_not,
            ne_eq, not_not] at hu
          rw [Option.bind_some, hs, Option.map_some, hu.1.1]

theorem launch_placed (hl : Live h) (hset : h.Settled st (p :: rest))
    (hinst : h.store.get (p.id, p.version) = some pkg) (hok : h.LaunchOk st p pkg) :
    Placed h (h.launch st p rest pkg) := by
  have hcalm := calm_update h p.id
    (f := fun e => { e with version := some p.version, sha256 := some p.sha256 }) fun _ => ⟨rfl, rfl⟩
  have hset' := hcalm.settled hset
  have hl' := hcalm.live hl
  unfold launch
  split
  · exact stopThen_placed hl hset trivial
  · rename_i hacc
    have hacc' : acceptable pkg.signature st.allowUnsigned = true := by simpa using hacc
    -- the folder of the wanted version holds the package that was looked at
    have hfolder : h.FolderAcceptable st (p.id, p.version) := by
      intro pkg' hpkg'
      rw [hinst] at hpkg'
      exact Option.some.inj hpkg' ▸ hacc'
    have hfolder' := hcalm.folder hfolder
    simp only
    split
    · refine Placed.of_desired (stopThen_placed hl' hset' ?_) (by simp)
      trivial
    · rename_i hfence
      have hfence' : h.fence = true := by simpa using hfence
      split
      · refine (stopThen_placed hl' hset' ?_).of_desired (by simp)
        exact ⟨rfl, hacc', hfolder', fun _ => by simpa using hfence'⟩
      · rename_i hkeep
        -- a process that is kept belongs to an unchanged entry
        have hunchanged : ∀ n, (h.update p.id fun e =>
            { e with version := some p.version, sha256 := some p.sha256 }).held p.id = some n →
            h.changed p pkg = false := by
          intro n hn
          rw [hn] at hkeep
          simpa using hkeep
        refine (startIfNone_placed hl' hset' rfl hacc' hfolder' (fun _ => by simpa using hfence')
          ?_ ?_).of_desired (by simp)
        · intro n q hn hq
          exact hok hacc' hfence' (hunchanged n hn) n q (hcalm.held _ n hn) (by simpa using hq)
        · intro hsome
          rcases Option.isSome_iff_exists.1 hsome with ⟨n, hn⟩
          exact (hcalm.version _ n hn).trans (specVersion_of_unchanged (hunchanged n hn))

theorem downloadFailed_placed {code : String} (hl : Live h) (hset : h.Settled st (p :: rest))
    (hok : retryable code = true → h.LeftRunningOk st p) :
    Placed h (h.downloadFailed st p rest code) := by
  have hcalm := calm_update h p.id
    (f := fun e => { e with version := some p.version, sha256 := some p.sha256 }) fun _ => ⟨rfl, rfl⟩
  unfold downloadFailed
  generalize hnew : (h.update p.id fun e =>
    { e with version := some p.version, sha256 := some p.sha256 }) = h₁ at hcalm
  have hfence : h₁.fence = h.fence := by simp [← hnew]
  have hprocs : h₁.procs = h.procs := by simp [← hnew]
  have hstore : h₁.store = h.store := by simp [← hnew]
  have hdesired : h₁.desired = h.desired := by simp [← hnew]
  simp only
  split
  · rename_i hretry
    have hcalm' := hcalm.trans (calm_update h₁ p.id
      (f := fun e => { e with retryAt := some (h₁.now + downloadRetryMs) }) fun _ => ⟨rfl, rfl⟩)
    have hleft := (hok hretry).of_procs ((update_procs _ _ _).trans hprocs) (hcalm'.held p.id)
      ((update_store _ _ _).trans hstore) ((update_fence _ _ _).trans hfence)
    exact (hleft.placed (hcalm'.live hl) (hcalm'.settled hset)).of_desired
      ((update_desired _ _ _).trans hdesired)
  · refine (stopThen_placed (hcalm.live hl) (hcalm.settled hset) ?_).of_desired hdesired
    trivial

theorem changed_update (h : Host) (p : PluginState) (pkg : Package) {f : Entry → Entry}
    (hf : ∀ e, (f e).spec = e.spec ∧ (f e).sha256 = e.sha256) :
    (h.update p.id f).changed p pkg = h.changed p pkg := by
  rw [changed, changed, update_get]
  cases h.plugins.get p.id with
  | none =>
      rfl
  | some e =>
      simp [(hf e).1, (hf e).2]

/-- To unpack a package touches no folder of another plugin. -/
theorem Settled.unpacked (hset : h.Settled st (p :: rest)) (hl : Live h) (pkg : Package) :
    Settled { h with store := h.store.set (p.id, p.version) pkg } st (p :: rest) := by
  refine ⟨hset.wanted, ?_⟩
  intro id n hn
  refine ⟨(hset.held id n hn).1, ?_⟩
  by_cases hp : id = p.id
  · exact Or.inl (hp ▸ List.mem_cons_self)
  · refine (hset.held id n hn).2.imp (fun hmem => hmem) fun hkept hsteady => ?_
    rcases hkept hsteady with ⟨hfence, q, hq, hacc, hfolder⟩
    rcases hl.procs id n hn with ⟨q', v, hq', hqfolder, _⟩
    obtain rfl : q = q' := Option.some.inj (hq.symm.trans hq')
    refine ⟨hfence, q, hq, hacc, fun pkg' hpkg' => hfolder pkg' ?_⟩
    have hne : q.folder ≠ (p.id, p.version) := by
      rw [hqfolder]
      exact fun heq => hp (congrArg Prod.fst heq)
    exact (OrderedMap.get_set_ne _ hne _).symm.trans hpkg'

theorem downloaded_placed {o : Outcome} (hl : Live h) (hset : h.Settled st (p :: rest))
    (hok : match o.checked p st with
      | .ok pkg => h.LaunchOk st p pkg
      | .error code => retryable code = true → h.LeftRunningOk st p) :
    Placed h (h.downloaded st p rest o) := by
  unfold downloaded
  cases ho : o.checked p st with
  | error code =>
      rw [ho] at hok
      exact downloadFailed_placed hl hset hok
  | ok pkg =>
      rw [ho] at hok
      have hset' := hset.unpacked hl pkg
      have hl' : Live { h with store := h.store.set (p.id, p.version) pkg } := ⟨hl.procs, hl.fresh⟩
      have hcalm := calm_update { h with store := h.store.set (p.id, p.version) pkg } p.id
        (f := fun e => { e with retryAt := none }) fun _ => ⟨rfl, rfl⟩
      have hsame := changed_update { h with store := h.store.set (p.id, p.version) pkg } p pkg
        (f := fun e => { e with retryAt := none }) fun _ => ⟨rfl, rfl⟩
      have hlaunch := hok.of_procs (update_procs _ _ _) (hcalm.held p.id) (update_fence _ _ _)
        fun hunchanged => hsame.symm.trans hunchanged
      refine (launch_placed (hcalm.live hl') (hcalm.settled hset') ?_ hlaunch).of_desired (by simp)
      rw [update_store]
      exact OrderedMap.get_set_self _ _ _

/-! ### The entry of a plugin that is dealt with -/

/-- The host after the first lines of `ensurePlugin`. -/
def entered (h : Host) (id : PluginId) : Host :=
  (h.entry id).update id fun e => { e with wanted := true, denied := none }

theorem ensurePlugin_eq (h : Host) (st : Desired) (p : PluginState) (rest : List PluginState) :
    h.ensurePlugin st p rest =
      if p.capsError.isSome then (h.entered p.id).stopThen st p rest (.deny "bad_caps")
      else
        match (h.entered p.id).installed p with
        | some pkg => (h.entered p.id).launch st p rest pkg
        | none =>
            if (h.entered p.id).putOff p then { h.entered p.id with task := some (.next st rest) }
            else { h.entered p.id with task := some (.download st p rest) } :=
  rfl

theorem calm_entered (h : Host) (id : PluginId) : Calm h (h.entered id) :=
  (calm_entry h id).trans (calm_update (h.entry id) id fun _ => ⟨rfl, rfl⟩)

section Entered

variable (h : Host) (p : PluginState)

@[simp] theorem entered_desired : (h.entered p.id).desired = h.desired := by
  simp [entered]

theorem entered_fence : (h.entered p.id).fence = h.fence := by
  simp only [entered, update_fence, entry]
  split <;> rfl

theorem entered_procs : (h.entered p.id).procs = h.procs := by
  simp only [entered, update_procs, entry]
  split <;> rfl

theorem entered_store : (h.entered p.id).store = h.store := by
  simp only [entered, update_store, entry]
  split <;> rfl

theorem installed_entered : (h.entered p.id).installed p = h.installed p := by
  rw [installed, entered_store, installed]

theorem entered_get : (h.entered p.id).plugins.get p.id =
    some (((h.plugins.get p.id).getD ⟨h.nextRef, none, none, none, none, false, none, none⟩) |>
      fun e => { e with wanted := true, denied := none }) := by
  rw [entered, update_get, entry]
  split
  · rename_i e he
    simp [he]
  · rename_i he
    simp [he]

theorem changed_of_entered (hu : (h.entered p.id).changed p pkg = false) :
    h.changed p pkg = false := by
  rw [changed, entered_get] at hu
  cases he : h.plugins.get p.id with
  | none =>
      -- a new entry would count as changed
      simp [he] at hu
  | some e =>
      simpa [changed, he] using hu

theorem putOff_of_entered (hput : (h.entered p.id).putOff p = true) : h.putOff p = true := by
  have hnow : (h.entered p.id).now = h.now := by
    simp only [entered, update_now, entry]
    split <;> rfl
  rw [putOff, entered_get, hnow] at hput
  cases he : h.plugins.get p.id with
  | none =>
      -- nothing has been tried for a new entry
      simp [he] at hput
  | some e =>
      simpa [putOff, he] using hput

end Entered

theorem ensurePlugin_placed (hl : Live h) (hset : h.Settled st (p :: rest))
    (hok : p.capsError = none → match h.installed p with
      | some pkg => h.LaunchOk st p pkg
      | none => h.putOff p = true → h.LeftRunningOk st p) :
    Placed h (h.ensurePlugin st p rest) := by
  have hcalm := calm_entered h p.id
  have hl' := hcalm.live hl
  have hset' := hcalm.settled hset
  have hfence := entered_fence h p
  rw [ensurePlugin_eq]
  split
  · refine (stopThen_placed hl' hset' ?_).of_desired (by simp)
    trivial
  · rename_i hcaps
    have hok' := hok (by simpa using hcaps)
    rw [installed_entered]
    cases hinst : h.installed p with
    | some pkg =>
        rw [hinst] at hok'
        have hlaunch := hok'.of_procs (entered_procs h p) (hcalm.held p.id) hfence
          (changed_of_entered h p)
        refine (launch_placed hl' hset' ?_ hlaunch).of_desired (by simp)
        rw [entered_store]
        exact (Option.filter_eq_some_iff.1 hinst).1
    | none =>
        rw [hinst] at hok'
        simp only
        split
        · rename_i hput
          have hleft := (hok' (putOff_of_entered h p hput)).of_procs (entered_procs h p)
            (hcalm.held p.id) (entered_store h p) hfence
          exact (hleft.placed hl' hset').of_desired (by simp)
        · exact (hcalm.trans (calm_await _ _)).placed hl (by simp) rfl
            ((calm_await _ _).settled hset')

theorem afterStop_placed {waits : Option Nat} {after : After} (hl : Live h)
    (htrack : h.OnTrack (.stopping st p rest waits after)) :
    Placed h (h.afterStop st p rest after) := by
  rcases htrack with ⟨hset, hnone, hwant, hafter⟩
  unfold afterStop
  cases after with
  | deny code =>
      have hcalm := calm_update h p.id (f := fun e => { e with denied := some code })
        fun _ => ⟨rfl, rfl⟩
      exact (hcalm.trans (calm_await _ _)).placed hl (by simp) rfl
        ((hcalm.trans (calm_await _ _)).settled hset)
  | fenceDown code spec =>
      have hcalm := calm_update_of_version h p.id
        (f := fun e => { e with denied := some code, spec := some spec }) (fun _ => rfl)
        fun hsome => by rw [hnone] at hsome; cases hsome
      exact (hcalm.trans (calm_await _ _)).placed hl (by simp) rfl
        ((hcalm.trans (calm_await _ _)).settled hset)
  | start spec pkg =>
      have hset' : h.Settled st (p :: rest) := by
        refine ⟨?_, ?_⟩
        · intro q hq
          rcases List.mem_cons.1 hq with rfl | hq
          · exact hwant
          · exact hset.wanted q hq
        · intro id n hn
          exact ⟨(hset.held id n hn).1,
            (hset.held id n hn).2.imp (List.mem_cons_of_mem p.id) fun hsound => hsound⟩
      refine startIfNone_placed hl hset' hafter.1 hafter.2.1 hafter.2.2.1 hafter.2.2.2 ?_ ?_
      · intro n q hn
        rw [hnone] at hn
        cases hn
      · intro hsome
        rw [hnone] at hsome
        cases hsome

theorem stopUnwanted_placed {list : List PluginId} (hl : Live h)
    (hheld : ∀ id n, h.held id = some n → id ∈ Desired.ids st.want ∨ id ∈ list) :
    Placed h (h.stopUnwanted st list) := by
  induction list with
  -- all plugins that are left are wanted, and all of them are still to be dealt with
  | nil =>
      have hcalm : Calm h (h.stopUnwanted st []) := by
        unfold stopUnwanted
        split
        · exact (calm_filter h fun k _ => decide (k.1 ∈ Desired.ids st.plugins)).trans
            (calm_await _ _)
        · exact calm_await h _
      refine hcalm.placed hl rfl rfl ⟨fun p hp => hp, ?_⟩
      intro id n hn
      have hwant := (hheld id n hn).resolve_right List.not_mem_nil
      exact ⟨hwant, Or.inl hwant⟩
  | cons id rest ih =>
      unfold stopUnwanted
      split
      · rename_i hid
        apply ih
        intro j n hn
        rcases hheld j n hn with hwant | hmem
        · exact Or.inl hwant
        · rcases List.mem_cons.1 hmem with rfl | hmem
          · exact Or.inl hid
          · exact Or.inr hmem
      · have hcalm := (calm_update h id (f := fun e => { e with wanted := false })
          fun _ => ⟨rfl, rfl⟩).trans (calm_stopProcess _ id)
        refine (hcalm.trans (calm_await _ _)).placed hl (by simp) rfl ?_
        intro j n hn
        have hold := hheld j n (hcalm.held j n hn)
        -- the plugin that is being stopped has let go of its process
        have hne : j ≠ id := by
          rintro rfl
          have hstopped := held_stopProcess (h.update j fun e => { e with wanted := false }) j j
          rw [if_pos rfl] at hstopped
          exact absurd (hstopped.symm.trans hn) (by simp)
        exact hold.imp (fun hwant => hwant) fun hmem => (List.mem_cons.1 hmem).resolve_left hne

theorem finish_placed (hl : Live h) (hset : h.Settled st []) : Placed h (h.finish st) := by
  -- an entry that has a process stays
  have hkept : ∀ id n, (h.finish st).held id = some n → ∃ e, e.proc = some n ∧
      (h.finish st).plugins.get id = some e ∧ h.plugins.get id = some e := by
    intro id n hn
    rcases Option.bind_eq_some_iff.1 hn with ⟨e, he, hproc⟩
    exact ⟨e, hproc, he, ((OrderedMap.get_filter _ _).1 he).1⟩
  have hcalm : Calm h (h.finish st) := by
    refine .of_procs ?_ ?_ rfl rfl rfl fun hs => ⟨hs, rfl⟩
    · intro id n hn
      rcases hkept id n hn with ⟨e, hproc, _, he⟩
      exact Option.bind_eq_some_iff.2 ⟨e, he, hproc⟩
    · intro id n hn
      rcases hkept id n hn with ⟨e, _, he', he⟩
      rw [specVersion, he', specVersion, he]
  exact hcalm.placed hl rfl rfl (hcalm.settled hset)

theorem mem_keys_of_held {id : PluginId} {n : Nat} (hn : h.held id = some n) :
    id ∈ h.plugins.keys := by
  rcases Option.bind_eq_some_iff.1 hn with ⟨e, he, _⟩
  exact (h.plugins.mem_keys_iff).2 ⟨e, he⟩

/-! ## Steps -/

theorem reconcile_inv (hl : Live h) (hidle : h.desired = none → ∀ id, h.held id = none) :
    Inv h.reconcile := by
  unfold reconcile
  simp only
  cases hd : h.desired with
  | none =>
      refine ⟨⟨hl.procs, hl.fresh⟩, fun _ => ⟨hidle hd, Or.inr rfl⟩, ?_⟩
      intro f hf
      cases hf
      exact hidle hd
  | some st =>
      simp only
      split
      · refine ⟨⟨hl.procs, hl.fresh⟩, ?_, ?_⟩
        · intro hnone
          cases hnone
        · intro f hf
          cases hf
          trivial
      · have hl' : Live { h with desired := some st, steady := true, again := false } :=
          ⟨hl.procs, hl.fresh⟩
        refine (stopUnwanted_placed hl' ?_).inv (Option.some_ne_none st)
        intro id n hn
        exact Or.inr (mem_keys_of_held hn)

theorem requestReconcile_inv (hi : Inv h) : Inv h.requestReconcile := by
  unfold requestReconcile
  split
  · exact hi.same rfl rfl rfl rfl (fun hs => ⟨hs, rfl⟩) rfl fun hnone => hnone
  · exact reconcile_inv hi.live fun hnone => (hi.idle hnone).1

/-- A call that is under way has a desired state. -/
theorem Inv.desired (hi : Inv h) {f : Frame} (hf : h.task = some f) (hne : f ≠ .returned none) :
    h.desired ≠ none := by
  intro hnone
  rcases (hi.idle hnone).2 with htask | htask
  · rw [hf] at htask
    cases htask
  · rw [hf] at htask
    exact hne (Option.some.inj htask)

theorem resume_inv (hi : Inv h) (hok : h.KeepsGate .resume) (hstep : h.resume = some h') :
    Inv h' := by
  unfold resume at hstep
  split at hstep
  · cases hstep
  · rename_i st htask
    cases hstep
    refine (stopUnwanted_placed hi.live ?_).inv (hi.desired htask (by simp))
    intro id n hn
    exact Or.inr (mem_keys_of_held hn)
  · rename_i st id rest waits htask
    split at hstep
    · cases hstep
      have hcalm := calm_update h id (f := fun e => { e with denied := none }) fun _ => ⟨rfl, rfl⟩
      refine ((stopUnwanted_placed (hcalm.live hi.live) ?_).of_desired (by simp)).inv
        (hi.desired htask (by simp))
      intro j n hn
      exact hi.task _ htask j n (hcalm.held j n hn)
    · cases hstep
  · rename_i st htask
    cases hstep
    exact (finish_placed hi.live (hi.task _ htask)).inv (hi.desired htask (by simp))
  · rename_i st p rest htask
    cases hstep
    exact (ensurePlugin_placed hi.live (hi.task _ htask) (hok st p rest htask)).inv
      (hi.desired htask (by simp))
  · cases hstep
  · rename_i st p rest waits after htask
    split at hstep
    · cases hstep
      exact (afterStop_placed hi.live (hi.task _ htask)).inv (hi.desired htask (by simp))
    · cases hstep
  · cases hstep
    split
    · exact reconcile_inv hi.live fun hnone => (hi.idle hnone).1
    · -- no call is under way any more
      refine ⟨⟨hi.live.procs, hi.live.fresh⟩, fun hnone => ⟨(hi.idle hnone).1, Or.inl rfl⟩, ?_⟩
      intro f hf
      cases hf

theorem stopRunning_inv (hi : Inv h) (list : List (PluginId × Nat)) :
    Inv (h.stopRunning list).1 := by
  cases list with
  | nil =>
      exact requestReconcile_inv hi
  | cons e rest =>
      -- a call of `reconcile` that is under way stays where it is
      have htask : ∀ id, (h.stopProcess id).1.task = h.task := by
        intro id
        unfold stopProcess update updateProc
        repeat' split
        all_goals rfl
      unfold stopRunning
      simp only
      split
      · exact (calm_stopProcess h e.1).inv hi (htask e.1) fun hnone => by simpa using hnone
      · exact hi

theorem updateProc_inv (hi : Inv h) (n : Nat) {f : Proc → Proc} (hf : ∀ q, (f q).folder = q.folder ∧
      ((f q).package = q.package ∨ h.store.get q.folder = some (f q).package)) :
    Inv (h.updateProc n f) := by
  have htask : (h.updateProc n f).task = h.task := by
    unfold updateProc
    split <;> rfl
  exact (calm_updateProc h n hf).inv hi htask fun hnone => by simpa using hnone

theorem step_inv (h : Host) (a : Action) (h' : Host) (hi : Inv h) (hok : h.KeepsGate a)
    (hstep : h.step a = some h') : Inv h' := by
  cases a with
  | state st =>
      cases hstep
      -- while nothing was desired, no call was under way that the new state could disturb
      refine requestReconcile_inv ⟨⟨hi.live.procs, hi.live.fresh⟩, ?_, ?_⟩
      · intro hnone
        cases hnone
      · intro f hf
        have hcalm : Calm h { h with desired := some st } :=
          .of_eq rfl rfl rfl rfl fun hs => ⟨hs, rfl⟩
        exact hcalm.onTrack (hi.task f hf)
  | fenceChecked mode active was =>
      have hchecked : Inv (h.checkFence mode active) := by
        refine hi.same rfl rfl rfl rfl ?_ rfl fun hnone => hnone
        intro hsteady
        -- the boundary only counts as steady if this check found it unchanged
        simp only [checkFence, Bool.and_eq_true, decide_eq_true_eq] at hsteady
        exact ⟨hsteady.1, hsteady.2⟩
      simp only [step, Option.some.injEq] at hstep
      split at hstep
      · exact hstep ▸ requestReconcile_inv hchecked
      · exact hstep ▸ hchecked
  | clock now =>
      cases hstep
      exact hi.same rfl rfl rfl rfl (fun hs => ⟨hs, rfl⟩) rfl fun hnone => hnone
  | resume =>
      exact resume_inv hi hok hstep
  | downloaded o =>
      simp only [step] at hstep
      split at hstep
      · rename_i st p rest htask
        cases hstep
        exact (downloaded_placed hi.live (hi.task _ htask) (hok st p rest htask)).inv
          (hi.desired htask (by simp))
      · cases hstep
  | rpcOpen =>
      simp only [step] at hstep
      split at hstep
      · cases hstep
        exact hi
      · cases hstep
        exact (stopRunning_inv hi _).same rfl rfl rfl rfl (fun hs => ⟨hs, rfl⟩) rfl fun hnone => hnone
  | rpcResume i =>
      simp only [step] at hstep
      split at hstep
      · cases hstep
      · split at hstep
        · cases hstep
          exact (stopRunning_inv hi _).same rfl rfl rfl rfl (fun hs => ⟨hs, rfl⟩) rfl
            fun hnone => hnone
        · cases hstep
  | exit n =>
      simp only [step] at hstep
      split at hstep
      · split at hstep
        · cases hstep
          exact updateProc_inv hi n fun _ => ⟨rfl, Or.inl rfl⟩
        · cases hstep
      · cases hstep
  | restart n =>
      simp only [step] at hstep
      split at hstep
      · split at hstep
        · cases hstep
          -- the new child runs what the folder holds, which `Kept` has looked at
          exact updateProc_inv hi n h.folder_respawn
        · cases hstep
      · cases hstep
  | ready n =>
      simp only [step] at hstep
      split at hstep
      · split at hstep
        · cases hstep
          exact (calm_filter h _).inv hi rfl fun hnone => hnone
        · cases hstep
      · cases hstep

theorem Inv.gate (hi : Inv h) : Gate h := by
  intro st htask hdesired hsteady id n hn
  cases st with
  | none =>
      have hnone := hi.task _ htask id
      rw [hn] at hnone
      cases hnone
  | some st =>
      have hheld := (hi.task _ htask : h.Settled st []).held id n hn
      refine ⟨st, rfl, hheld.1, ?_⟩
      exact hheld.2.elim (fun hmem => absurd hmem List.not_mem_nil) fun hkept => (hkept hsteady).sound

theorem start_inv (store : OrderedMap (PluginId × Version) Package) (localMqtt : Bool) (now : Int) :
    Inv (start store localMqtt now) := by
  refine ⟨⟨?_, ?_⟩, fun _ => ⟨fun _ => rfl, Or.inl rfl⟩, ?_⟩
  · intro id n hn
    cases hn
  · intro n q hq
    cases hq
  · intro f hf
    cases hf

theorem fail_closed (store : OrderedMap (PluginId × Version) Package) (localMqtt : Bool) (now : Int)
    (as : List Action) (hok : Admits step KeepsGate (start store localMqtt now) as) :
    Throughout step Gate (start store localMqtt now) as :=
  throughout_of_admits step_inv (fun _ hi => hi.gate) (start_inv store localMqtt now) hok

/-- A state that wants one version of a plugin. -/
def wantDemo (version : Version) (sha256 : Sha) (allowUnsigned : Bool) : Desired where
  edgeEnabled := true
  allowUnsigned := allowUnsigned
  plugins := [⟨"demo", version, sha256, none, none, true⟩]
  nodup := List.nodup_singleton _

def demoContent (sha256 : Sha) (signature : Signature) : Outcome :=
  .content ⟨sha256, some signature, .ok ("edge/main.js", 64)⟩

/-- The boundary is active, and a plugin is wanted, loaded and started. -/
def firstStart (signature : Signature) (allowUnsigned : Bool) : List Action :=
  [.fenceChecked .fence true false, .resume, .state (wantDemo "1.0.0" "aa" allowUnsigned), .resume,
    .downloaded (demoContent "aa" signature), .resume]

theorem fail_closed_first_start :
    (exec step (start .empty false 0) (firstStart .trusted false)).any (fun t =>
        t.task = some (.returned (some (wantDemo "1.0.0" "aa" false))) && t.steady &&
          t.held "demo" = some 0) = true ∧
      Throughout step Gate (start .empty false 0) (firstStart .trusted false) := by
  refine ⟨by decide +kernel, fail_closed .empty false 0 _ ?_⟩
  refine ⟨trivial, fun h1 e1 => ⟨?_, fun h2 e2 => ⟨trivial, fun h3 e3 => ⟨?_, fun h4 e4 => ⟨?_,
    fun h5 e5 => ⟨?_, fun _ _ => trivial⟩⟩⟩⟩⟩⟩
  · cases e1
    intro st p rest htask
    cases htask
  · cases e1
    cases e2
    cases e3
    intro st p rest htask _ hput
    cases htask
    cases hput
  · cases e1
    cases e2
    cases e3
    cases e4
    intro st p rest htask
    cases htask
    -- a plugin that has never been started counts as changed
    intro _ _ hchanged
    cases hchanged
  · cases e1
    cases e2
    cases e3
    cases e4
    cases e5
    intro st p rest htask
    cases htask

/-- An unsigned plugin runs; then unsigned plugins are forbidden and an update is wanted whose
download fails, and at last the boundary is lost.  The old process survives both calls. -/
theorem unsigned_process_survives :
    ∃ t, exec step (start .empty false 0)
        (firstStart .none true ++
          [.resume, .state (wantDemo "1.1.0" "bb" false), .resume,
            .downloaded (.error "download_failed"), .resume, .resume,
            .fenceChecked .fence false true, .resume, .resume]) = some t ∧
      t.task = some (.returned t.desired) ∧ t.steady = true ∧ t.fence = false ∧
      (∃ n q, t.held "demo" = some n ∧ t.procs.get n = some q ∧ q.child = true ∧
        q.package.signature = .none) ∧
      t.desired.map Desired.allowUnsigned = some false ∧ ¬ Gate t := by
  have hrun : (exec step (start .empty false 0)
      (firstStart .none true ++
        [.resume, .state (wantDemo "1.1.0" "bb" false), .resume,
          .downloaded (.error "download_failed"), .resume, .resume,
          .fenceChecked .fence false true, .resume, .resume])).any (fun t =>
      t.task = some (.returned t.desired) && t.steady && !t.fence && t.held "demo" = some 0 &&
        ((t.procs.get 0).any fun q => q.child && q.package.signature = .none) &&
        t.desired.map Desired.allowUnsigned = some false) = true := by
    decide +kernel
  rcases (Option.any_eq_true ..).1 hrun with ⟨t, ht, hbad⟩
  simp only [Bool.and_eq_true, decide_eq_true_eq, Bool.not_eq_true', Option.any_eq_true] at hbad
  rcases hbad with ⟨⟨⟨⟨⟨htask, hsteady⟩, hfence⟩, hheld⟩, q, hq, hchild, hsig⟩, hallow⟩
  refine ⟨t, ht, htask, hsteady, hfence, ⟨0, q, hheld, hq, hchild, hsig⟩, hallow, ?_⟩
  intro hgate
  rcases hgate _ htask rfl hsteady _ 0 hheld with ⟨st, _, _, hsound⟩
  rw [hsound.1] at hfence
  cases hfence

end Host

end Edge
end GateControl
