import GateControl.Cache.Sync

/-!
# Running — when the home cache says that it is running

A call of `apply` that has completed has opened the store, if the settings before it make it do so,
and started the server.  It opens the store if the cache was off or its path has changed; whether
the last attempt failed makes no difference.

A call that repeats the path after a failed attempt therefore reports a cache that runs without a
store.  In sequences without such a call the report is true.
-/

namespace GateControl
namespace Cache
namespace Sync

open Library

/-- A call of `apply` with its circumstances: what `open` would find, and whether a certificate can
be made. -/
structure ApplyCall where
  cfg : Config
  found : Option Found
  makes : Bool

namespace HomeCache

/-- The cache after the call has returned. -/
def applied (s : HomeCache) (c : ApplyCall) : HomeCache :=
  let t := HomeCache.apply s c.cfg c.makes
  match t.opening with
  | none => t
  | some portChanged => t.opened portChanged c.found c.makes

/-- The call tries to open the store. -/
def Opens (s : HomeCache) (c : ApplyCall) : Prop := (HomeCache.apply s c.cfg c.makes).opening ≠ none

/-- A cache that says it is running has the store and the server of its settings. -/
def Truthful (s : HomeCache) : Prop :=
  s.state = .running →
    s.store.isSome = true ∧ s.dir = s.cfg.path ∧ s.server = some s.cfg.port

/-- The call keeps the path of a cache that is on but has no store. -/
def Repeats (s : HomeCache) (c : ApplyCall) : Prop :=
  c.cfg.enabled = true ∧ s.cfg.enabled = true ∧ s.cfg.path = c.cfg.path ∧ s.store = none

instance (s : HomeCache) (c : ApplyCall) : Decidable (Opens s c) :=
  inferInstanceAs (Decidable (_ ≠ _))

instance (s : HomeCache) : Decidable (Truthful s) := inferInstanceAs (Decidable (_ → _))

variable {s : HomeCache} {c : ApplyCall}

/-! ## What a call does -/

/-- The server is the one of the settings, and it has a certificate; a cache that is off has neither
server nor store. -/
structure Served (s : HomeCache) : Prop where
  opening : s.opening = none
  server : ∀ port ∈ s.server, port = s.cfg.port ∧ s.tls = true ∧ s.cfg.enabled = true
  dir : s.store.isSome = true → s.dir = s.cfg.path
  off : s.cfg.enabled = false → s.store = none

theorem new_served (free : Option Int) : (new free).Served where
  opening := rfl
  server := fun _ h => by cases h
  dir := fun h => by cases h
  off := fun _ => rfl

/-- The settings are replaced. -/
def withCfg (s : HomeCache) (cfg : Config) : HomeCache :=
  { s with cfg := cfg, pass := s.pass.map fun p => { p with steady := p.steady && cfg = s.cfg } }

theorem apply_off {cfg : Config} {makes : Bool} (hoff : cfg.enabled = false) :
    HomeCache.apply s cfg makes =
      { (if s.cfg.enabled then (s.withCfg cfg).shutdown else s.withCfg cfg) with
        state := if cfg.requested then .refused cfg.problem else .off } := by
  unfold HomeCache.apply
  rw [hoff]
  exact if_neg Bool.false_ne_true

/-- The cache was off, or its path is another one. -/
def Moved (s : HomeCache) (cfg : Config) : Prop :=
  s.cfg.enabled = true → s.cfg.path ≠ cfg.path

instance (s : HomeCache) (cfg : Config) : Decidable (Moved s cfg) :=
  inferInstanceAs (Decidable (_ → _))

theorem moved_iff {cfg : Config} :
    (!s.cfg.enabled || decide (s.cfg.path ≠ cfg.path)) = true ↔ Moved s cfg := by
  cases hprev : s.cfg.enabled <;> simp [Moved, hprev]

theorem apply_moved {cfg : Config} {makes : Bool} (hon : cfg.enabled = true)
    (hmoved : Moved s cfg) :
    HomeCache.apply s cfg makes =
      { (s.withCfg cfg).withStore none with
        opening := some (decide (s.cfg.port ≠ cfg.port)) } := by
  unfold HomeCache.apply
  simp only
  rw [if_pos hon, if_pos (moved_iff.2 hmoved), withCfg]

theorem apply_kept {cfg : Config} {makes : Bool} (hon : cfg.enabled = true)
    (hmoved : ¬ Moved s cfg) :
    HomeCache.apply s cfg makes =
      (s.withCfg cfg).serve (decide (s.cfg.port ≠ cfg.port)) makes := by
  unfold HomeCache.apply
  simp only
  rw [if_pos hon, if_neg (mt moved_iff.1 hmoved), withCfg]

/-- `serve` gives the cache the server of its settings, if there is a certificate. -/
theorem serve_cases (s : HomeCache) (portChanged makes : Bool) :
    (s.serve portChanged makes =
        { s with
          tls := true
          server := if s.server.isNone || portChanged then some s.cfg.port else s.server
          state := .running
          error := none }) ∨
      (s.tls = false ∧
        s.serve portChanged makes = { s with state := .error, error := some .tls }) := by
  unfold serve
  split
  · exact Or.inl rfl
  · next hno =>
      refine Or.inr ⟨?_, rfl⟩
      cases htls : s.tls with
      | false => rfl
      | true => simp [htls] at hno

theorem opening_serve (portChanged makes : Bool) :
    (s.serve portChanged makes).opening = s.opening := by
  rcases serve_cases s portChanged makes with heq | ⟨_, heq⟩
  · rw [heq]
  · rw [heq]

/-- Only a call that finds the cache off, or at another path, opens the store. -/
theorem opens_iff (h : s.Served) : Opens s c ↔ c.cfg.enabled = true ∧ Moved s c.cfg := by
  unfold Opens
  cases hon : c.cfg.enabled with
  | false =>
      have hnone : (HomeCache.apply s c.cfg c.makes).opening = none := by
        rw [apply_off hon]
        split
        · exact h.opening
        · exact h.opening
      simp [hnone]
  | true =>
      by_cases hmoved : Moved s c.cfg
      · simp [apply_moved hon hmoved, hmoved]
      · have hnone : (HomeCache.apply s c.cfg c.makes).opening = none := by
          rw [apply_kept hon hmoved, opening_serve]
          exact h.opening
        simp [hnone, hmoved]

/-- The end of a call leaves a cache that is served, and a cache that runs with the server of its
settings. -/
theorem served_serve (u : HomeCache) (portChanged makes : Bool) (hopening : u.opening = none)
    (hon : u.cfg.enabled = true) (hdir : u.store.isSome = true → u.dir = u.cfg.path)
    (hserver : ∀ port ∈ u.server, u.tls = true ∧ (portChanged = false → port = u.cfg.port)) :
    (u.serve portChanged makes).Served ∧
      ((u.serve portChanged makes).state = .running →
        (u.serve portChanged makes).server = some u.cfg.port) := by
  have hoff : u.cfg.enabled = false → u.store = none := fun h => by
    rw [hon] at h
    cases h
  rcases serve_cases u portChanged makes with heq | ⟨htls, heq⟩
  · -- a server that is kept listens on a port that has not changed
    have hport : (if u.server.isNone || portChanged then some u.cfg.port else u.server) =
        some u.cfg.port := by
      cases hs : u.server with
      | none => rfl
      | some port =>
          cases hchanged : portChanged with
          | true => rfl
          | false => exact congrArg some ((hserver port hs).2 hchanged)
    rw [heq, hport]
    refine ⟨⟨hopening, ?_, hdir, hoff⟩, fun _ => rfl⟩
    intro port hp
    cases hp
    exact ⟨rfl, rfl, hon⟩
  · -- without a certificate there is no server
    have hnone : u.server = none := by
      cases hs : u.server with
      | none => rfl
      | some port =>
          have hyes := (hserver port hs).1
          rw [htls] at hyes
          cases hyes
    rw [heq]
    refine ⟨⟨hopening, ?_, hdir, hoff⟩, fun hrun => by cases hrun⟩
    intro port hp
    rw [Option.mem_def, hnone] at hp
    cases hp

theorem cfg_serve (u : HomeCache) (portChanged makes : Bool) :
    (u.serve portChanged makes).cfg = u.cfg ∧ (u.serve portChanged makes).dir = u.dir := by
  rcases serve_cases u portChanged makes with heq | ⟨_, heq⟩
  · rw [heq]
    exact ⟨rfl, rfl⟩
  · rw [heq]
    exact ⟨rfl, rfl⟩

/-! ## The three kinds of calls -/

/-- A call that switches the cache off. -/
theorem applied_off (h : s.Served) (hoff : c.cfg.enabled = false) :
    (s.applied c).Served ∧ (s.applied c).cfg = c.cfg := by
  have hopening : (HomeCache.apply s c.cfg c.makes).opening = none := by
    by_contra hopens
    have hon := ((opens_iff h).1 hopens).1
    rw [hoff] at hon
    cases hon
  have heq : s.applied c = HomeCache.apply s c.cfg c.makes := by
    rw [applied, hopening]
  rw [heq, apply_off hoff]
  cases hprev : s.cfg.enabled with
  | true =>
      exact ⟨⟨h.opening, fun _ hp => (by cases hp), fun hs => (by cases hs), fun _ => rfl⟩, rfl⟩
  | false =>
      -- it was off already, so nothing is shut down
      have hstore : s.store = none := h.off hprev
      refine ⟨⟨h.opening, ?_, ?_, fun _ => hstore⟩, rfl⟩
      · intro port hp
        have hon := (h.server port hp).2.2
        rw [hprev] at hon
        cases hon
      · intro hs
        change s.store.isSome = true at hs
        rw [hstore] at hs
        cases hs

/-- A call that opens the store, and fails to or not. -/
theorem applied_moved (h : s.Served) (hon : c.cfg.enabled = true) (hmoved : Moved s c.cfg) :
    (s.applied c).Served ∧ (s.applied c).Truthful ∧ (s.applied c).cfg = c.cfg ∧
      ((s.applied c).store = none ↔ c.found = none) := by
  let portChanged := decide (s.cfg.port ≠ c.cfg.port)
  let t : HomeCache := { (s.withCfg c.cfg).withStore none with opening := some portChanged }
  have heq : s.applied c = t.opened portChanged c.found c.makes := by
    rw [applied, apply_moved hon hmoved]
  rw [heq]
  cases hfound : c.found with
  | none =>
      -- the store does not open, and nothing is claimed to run
      refine ⟨⟨rfl, fun _ hp => (by cases hp), fun hs => (by cases hs), fun _ => rfl⟩,
        fun hrun => (by cases hrun), rfl, iff_of_true rfl rfl⟩
  | some f =>
      -- `serve` is called on a cache with an open store
      let u : HomeCache :=
        { t.withStore (some (.opened f.1)) with
          opening := none
          dir := t.cfg.path
          needFull := true }
      have hu : t.opened portChanged (some f) c.makes = u.serve portChanged c.makes := rfl
      have hserver : ∀ port ∈ u.server,
          u.tls = true ∧ (portChanged = false → port = u.cfg.port) := by
        intro port hp
        have hserved := h.server port hp
        refine ⟨hserved.2.1, fun hsame => hserved.1.trans ?_⟩
        exact not_not.1 (of_decide_eq_false hsame)
      obtain ⟨hserved, hrun⟩ := served_serve u portChanged c.makes rfl hon (fun _ => rfl) hserver
      obtain ⟨hcfg, hdir⟩ := cfg_serve u portChanged c.makes
      have hstore : (u.serve portChanged c.makes).store = some (.opened f.1) := store_serve ..
      rw [hu]
      refine ⟨hserved, fun hstate => ⟨?_, ?_, ?_⟩, hcfg, ?_⟩
      · rw [hstore]
        rfl
      · rw [hdir, hcfg]
        rfl
      · rw [hrun hstate, hcfg]
      · rw [hstore]
        exact iff_of_false (fun h => by cases h) fun h => by cases h

/-- A call that keeps the path. -/
theorem applied_kept (h : s.Served) (hon : c.cfg.enabled = true) (hmoved : ¬ Moved s c.cfg) :
    (s.applied c).Served ∧ (s.store ≠ none → (s.applied c).Truthful) ∧ (s.applied c).cfg = c.cfg ∧
      (s.applied c).store = s.store := by
  let portChanged := decide (s.cfg.port ≠ c.cfg.port)
  let u := s.withCfg c.cfg
  have hkeep : s.cfg.enabled = true ∧ s.cfg.path = c.cfg.path := by
    simpa [Moved] using hmoved
  have hopening : (u.serve portChanged c.makes).opening = none := by
    rw [opening_serve]
    exact h.opening
  -- `serve` is called at once, with or without a store
  have heq : s.applied c = u.serve portChanged c.makes := by
    rw [applied, apply_kept hon hmoved, hopening]
  have hserver : ∀ port ∈ u.server, u.tls = true ∧ (portChanged = false → port = u.cfg.port) := by
    intro port hp
    have hserved := h.server port hp
    refine ⟨hserved.2.1, fun hsame => hserved.1.trans ?_⟩
    exact not_not.1 (of_decide_eq_false hsame)
  have hdir' : u.store.isSome = true → u.dir = u.cfg.path := fun hs => (h.dir hs).trans hkeep.2
  obtain ⟨hserved, hrun⟩ := served_serve u portChanged c.makes h.opening hon hdir' hserver
  obtain ⟨hcfg, hdir⟩ := cfg_serve u portChanged c.makes
  have hstore : (u.serve portChanged c.makes).store = s.store := store_serve ..
  rw [heq]
  refine ⟨hserved, fun hsome hstate => ?_, hcfg, hstore⟩
  have hthere : s.store.isSome = true := Option.isSome_iff_ne_none.2 hsome
  refine ⟨by rw [hstore]; exact hthere, ?_, ?_⟩
  · rw [hdir, hcfg]
    exact hdir' hthere
  · rw [hrun hstate, hcfg]

end HomeCache

/-! ## Sequences of calls -/

/-- A cache with the paths whose last attempt at opening the store has failed; they are only there
to be talked about. -/
structure Watched where
  cache : HomeCache
  failed : List String

namespace Watched

open Sync.HomeCache

def new (free : Option Int) : Watched := ⟨.new free, []⟩

def step (w : Watched) (c : ApplyCall) : Option Watched :=
  some
    { cache := w.cache.applied c
      failed :=
        if Opens w.cache c then
          if c.found.isNone then c.cfg.path :: w.failed
          else w.failed.filter fun path => path ≠ c.cfg.path
        else w.failed }

/-- What the cache says after the call is true, and the call has tried to open the store if the last
attempt at its path has failed. -/
def Reports (w : Watched) (c : ApplyCall) : Prop :=
  c.cfg.enabled = true →
    (w.cache.applied c).Truthful ∧ (c.cfg.path ∈ w.failed → Opens w.cache c)

/-- The path of the settings has failed if and only if there is no store. -/
structure Tracked (w : Watched) : Prop where
  served : w.cache.Served
  failed : w.cache.cfg.enabled = true → (w.cache.cfg.path ∈ w.failed ↔ w.cache.store = none)

/-- Every sequence of calls is possible. -/
theorem exec_total (w : Watched) (calls : List ApplyCall) : ∃ w', exec step w calls = some w' := by
  induction calls generalizing w with
  | nil => exact ⟨w, rfl⟩
  | cons c calls ih => exact ih _

theorem new_tracked (free : Option Int) : (new free).Tracked :=
  ⟨new_served free, fun h => by cases h⟩

theorem Tracked.step {w w' : Watched} {c : ApplyCall} (h : w.Tracked)
    (hs : w.step c = some w') : w'.Tracked := by
  cases hs
  cases hon : c.cfg.enabled with
  | false =>
      obtain ⟨hserved, hcfg⟩ := applied_off h.served hon
      refine ⟨hserved, fun habs => ?_⟩
      rw [hcfg, hon] at habs
      cases habs
  | true =>
      by_cases hmoved : Moved w.cache c.cfg
      · obtain ⟨hserved, _, hcfg, hstore⟩ := applied_moved h.served hon hmoved
        refine ⟨hserved, fun _ => ?_⟩
        rw [hcfg, if_pos ((opens_iff h.served).2 ⟨hon, hmoved⟩), hstore]
        cases hfound : c.found with
        | none => simp
        | some f => simp
      · -- same path, same store: what has failed there has not been tried again
        obtain ⟨hserved, _, hcfg, hstore⟩ := applied_kept h.served hon hmoved
        have hkeep : w.cache.cfg.enabled = true ∧ w.cache.cfg.path = c.cfg.path := by
          simpa [Moved] using hmoved
        have hno : ¬ Opens w.cache c := fun hopens => hmoved ((opens_iff h.served).1 hopens).2
        refine ⟨hserved, fun _ => ?_⟩
        rw [hcfg, if_neg hno, hstore, ← hkeep.2]
        exact h.failed hkeep.1

/-- A call reports the truth, and retries, unless it keeps the path of a cache without a store. -/
theorem reports_iff {w : Watched} {c : ApplyCall} (h : w.Tracked) :
    w.Reports c ↔ ¬ Repeats w.cache c := by
  unfold Reports Repeats
  cases hon : c.cfg.enabled with
  | false => simp
  | true =>
      by_cases hmoved : Moved w.cache c.cfg
      · obtain ⟨_, htruth, _, _⟩ := applied_moved h.served hon hmoved
        have hopens := (opens_iff h.served).2 ⟨hon, hmoved⟩
        exact iff_of_true (fun _ => ⟨htruth, fun _ => hopens⟩)
          fun hrep => hmoved hrep.2.1 hrep.2.2.1
      · obtain ⟨_, htruth, _, _⟩ := applied_kept h.served hon hmoved
        have hkeep : w.cache.cfg.enabled = true ∧ w.cache.cfg.path = c.cfg.path := by
          simpa [Moved] using hmoved
        have hno : ¬ Opens w.cache c := fun hopens => hmoved ((opens_iff h.served).1 hopens).2
        have hfailed := h.failed hkeep.1
        rw [hkeep.2] at hfailed
        constructor
        · -- the path has failed, so the call would have to open the store
          rintro hreports ⟨_, _, _, hnone⟩
          exact hno ((hreports rfl).2 (hfailed.2 hnone))
        · intro hrep _
          have hsome : w.cache.store ≠ none := fun hnone => hrep ⟨rfl, hkeep.1, hkeep.2, hnone⟩
          exact ⟨htruth hsome, fun hmem => absurd (hfailed.1 hmem) hsome⟩

/-- The calls of a sequence report the truth, and retry, if and only if none of them keeps the path
of a cache that is on but has no store. -/
theorem running_true (free : Option Int) (calls : List ApplyCall) :
    Admits step Reports (new free) calls ↔
      Admits step (fun w c => ¬ Repeats w.cache c) (new free) calls := by
  obtain ⟨w, hw⟩ := exec_total (new free) calls
  have hiff : ∀ v c v', Tracked v → step v c = some v' →
      (Reports v c ↔ ¬ Repeats v.cache c) := fun _ _ _ hv _ => reports_iff hv
  exact admits_congr hiff (fun _ _ _ hv hs => hv.step hs) (new_tracked free) hw

/-- The same settings come twice, and the directory cannot be written to. -/
def unwritable : ApplyCall where
  cfg := ⟨true, true, none, "/srv/cache", 1000, [], 8444⟩
  found := none
  makes := true

/-- The second call does not try again, and says that the cache is running. -/
theorem runs_without_store :
    ¬ Admits step Reports (new none) [unwritable, unwritable] ∧
      (exec step (new none) [unwritable, unwritable]).any
        (fun w => w.cache.state = .running && w.cache.store.isNone) = true := by
  refine ⟨fun h => ?_, by decide +kernel⟩
  have hsecond : ¬ (((HomeCache.new none).applied unwritable).applied unwritable).Truthful := by
    decide +kernel
  exact hsecond ((h.2 _ rfl).1 rfl).1

end Watched

end Sync
end Cache
end GateControl
