import Mathlib.Algebra.Order.Ring.Rat
import GateControl.Cache.Room
import GateControl.Library.Transition

/-!
# Sync — fetching what the server wants to be in the home cache

A pass of `sync` asks the server for the wanted blobs, goes through them by priority and fetches
what is missing, as far as there is room for it below the limit or room can be made for it.  Other
blobs go first for that, then wanted ones of lower priority.

Everything else happens between the awaited steps of a pass: blobs are handed out, the settings
change, and other programs write on the disk.
-/

namespace GateControl
namespace Cache
namespace Sync

open Library

/-- A blob that the server wants to be there. -/
structure Want where
  sha256 : Sha
  size : Nat
  kind : String
  priority : ℚ
  deriving DecidableEq

/-- What is to be left free on the disk. -/
def reserveBytes : Int := 512 * 1024 * 1024

/-- Why the cache is off although it is asked for. -/
inductive Problem
  | pathNotAllowed
  | noSecret
  deriving DecidableEq

/-- `features.cache`; `kinds` are the kinds of blobs that are switched on. -/
structure Config where
  enabled : Bool
  requested : Bool
  problem : Option Problem
  path : String
  maxBytes : Nat
  kinds : List String
  port : Nat
  deriving DecidableEq

inductive Mode
  | off
  | refused (problem : Option Problem)
  | pathUnwritable
  | error
  | running
  deriving DecidableEq

inductive Fault
  | pathUnwritable
  | tls
  deriving DecidableEq

inductive Stage
  | asking
  | between
  | downloading (w : Want)
  deriving DecidableEq

/-- A pass of `sync` with what it still has to visit.  It is `attached` as long as the store that it
began with is that of the cache, and `steady` as long as the settings are also those that it began
with.  `fetchedAny` is whether there is something in `fetched`. -/
structure Pass where
  stage : Stage
  attached : Bool
  steady : Bool
  want : List Want
  rest : List Want
  fetched : List Sha
  failures : Nat
  deriving DecidableEq

/-- `dir` is the directory that the store was opened on, `opening` a call of `apply` that waits for
that and whether the port is another one for it, and `free` what is free on the disk, unless nobody
can tell. -/
structure HomeCache where
  cfg : Config
  state : Mode
  error : Option Fault
  store : Option BlobStore
  dir : String
  tls : Bool
  server : Option Nat
  needFull : Bool
  opening : Option Bool
  pass : Option Pass
  free : Option Int
  deriving DecidableEq

/-- What `open` may find in a directory. -/
abbrev Found := { items : OrderedMap Sha Item // ∀ it ∈ items.values, 0 ≤ it.size }

/-! ## What is wanted -/

/-- The wanted blobs of the kinds that are switched on, by falling priority. -/
def wanted (cfg : Config) (all : List Want) : List Want :=
  (all.filter (·.kind ∈ cfg.kinds)).insertionSort fun a b => b.priority ≤ a.priority

def prio (want : List Want) : OrderedMap Sha ℚ :=
  .ofList (want.map fun w => (w.sha256, w.priority))

/-- What goes first to make room for a blob: what is not wanted, then what is wanted less. -/
def rank (want : List Want) (w : Want) (sha : Sha) (_ : Item) : Option ℚ :=
  match (prio want).get sha with
  | none => some (-(10 ^ 15))
  | some p => if p < w.priority then some p else none

namespace HomeCache

def new (free : Option Int) : HomeCache where
  cfg := ⟨false, false, none, "", 0, [], 0⟩
  state := .off
  error := none
  store := none
  dir := ""
  tls := false
  server := none
  needFull := true
  opening := none
  pass := none
  free := free

variable (s : HomeCache)

def freeBytes : Option Int := if s.store.isSome then s.free else none

def usedBytes : Int := (s.store.map BlobStore.usedBytes).getD 0

/-- The limit of the settings, but never more than the disk has to give. -/
def effectiveMax : Int :=
  match s.freeBytes with
  | none => s.cfg.maxBytes
  | some free => max 0 (min s.cfg.maxBytes (s.usedBytes + free - reserveBytes))

/-! ### Settings -/

/-- The store of the cache is another one. -/
def withStore (store : Option BlobStore) : HomeCache :=
  { s with
    store := store
    pass := s.pass.map fun p => { p with attached := false, steady := false } }

def shutdown : HomeCache := { s.withStore none with server := none }

/-- The end of `apply`; `makes` says whether a certificate can be made. -/
def serve (portChanged makes : Bool) : HomeCache :=
  if s.tls || makes then
    { s with
      tls := true
      server := if s.server.isNone || portChanged then some s.cfg.port else s.server
      state := .running
      error := none }
  else { s with state := .error, error := some .tls }

def apply (cfg : Config) (makes : Bool) : HomeCache :=
  let prev := s.cfg
  let t : HomeCache :=
    { s with
      cfg := cfg
      pass := s.pass.map fun p => { p with steady := p.steady && cfg = prev } }
  if cfg.enabled then
    let portChanged := decide (prev.port ≠ cfg.port)
    if !prev.enabled || prev.path ≠ cfg.path then
      { t.withStore none with opening := some portChanged }
    else t.serve portChanged makes
  else
    { (if prev.enabled then t.shutdown else t) with
      state := if cfg.requested then .refused cfg.problem else .off }

/-- `open` has succeeded or failed. -/
def opened (portChanged : Bool) (found : Option Found) (makes : Bool) : HomeCache :=
  match found with
  | none =>
      { s with
        opening := none
        state := .pathUnwritable
        error := some .pathUnwritable
        server := none }
  | some f =>
      serve { s.withStore (some (.opened f.1)) with
        opening := none
        dir := s.cfg.path
        needFull := true } portChanged makes

/-! ### A pass -/

/-- The blobs change, and with them what is free on the disk. -/
def put (b b' : BlobStore) : HomeCache :=
  { s with
    store := some b'
    free := s.free.map (· + b.usedBytes - b'.usedBytes) }

def setPass (p : Pass) : HomeCache := { s with pass := some p }

def begin : HomeCache :=
  if s.pass.isNone && s.cfg.enabled && s.store.isSome then
    s.setPass ⟨.asking, true, true, [], [], [], 0⟩
  else s

/-- What is evicted for a wanted blob that is to be fetched. -/
def evicts (p : Pass) (b : BlobStore) (w : Want) : Option (List Sha) :=
  if b.items.has w.sha256 then none
  else if s.effectiveMax < w.size then none
  else b.victims w.size s.effectiveMax (rank p.want w)

/-- One blob is visited, up to its download. -/
def visit (p : Pass) (w : Want) (rest : List Want) : HomeCache :=
  match s.store with
  | none => { s with pass := none }
  | some b =>
      if p.attached && s.cfg.enabled then
        match s.evicts p b w with
        | none => s.setPass { p with rest := rest }
        | some vs =>
            (s.put b (b.removeAll vs)).setPass { p with stage := .downloading w, rest := rest }
      else { s with pass := none }

inductive Download
  | fetched (now : Int)
  | failed
  | aborted
  deriving DecidableEq

/-- A download has ended; the third that fails ends the pass. -/
def downloaded (p : Pass) (w : Want) : Download → HomeCache
  | .fetched now =>
      let t := match s.store with
        | some b => if p.attached then s.put b (b.commit now w.sha256 w.size (some w.kind)) else s
        | none => s
      t.setPass { p with stage := .between, fetched := w.sha256 :: p.fetched }
  | .failed =>
      if p.failures + 1 ≥ 3 then { s with pass := none }
      else s.setPass { p with stage := .between, failures := p.failures + 1 }
  | .aborted => { s with pass := none }

/-! ### Steps -/

inductive Action
  | apply (cfg : Config) (makes : Bool)
  | opened (found : Option Found) (makes : Bool)
  | stop
  | touch (now : Int) (sha : Sha)
  | space (free : Option Int)
  | sync
  | answered (all : Option (List Want))
  | visit
  | downloaded (r : Download)
  | finish
  deriving DecidableEq

/-- Calls of `apply` come one after the other.  A pass ends with `finish` when it has visited
everything. -/
def step : Action → Option HomeCache
  | .apply cfg makes => if s.opening.isNone then some (s.apply cfg makes) else none
  | .opened found makes => s.opening.map fun portChanged => s.opened portChanged found makes
  | .stop => some (if s.cfg.enabled then s.shutdown else s)
  | .touch now sha => some { s with store := s.store.map (·.touch now sha) }
  | .space free => some { s with free := free }
  | .sync => some s.begin
  | .answered all =>
      s.pass.bind fun p =>
        match p.stage, all with
        | .asking, some all =>
            some (s.setPass { p with
              stage := .between
              want := wanted s.cfg all
              rest := wanted s.cfg all })
        | .asking, none => some { s with pass := none }
        | .between, _ | .downloading _, _ => none
  | .visit =>
      s.pass.bind fun p =>
        match p.stage, p.rest with
        | .between, w :: rest => some (s.visit p w rest)
        | .between, [] | .asking, _ | .downloading _, _ => none
  | .downloaded r =>
      s.pass.bind fun p =>
        match p.stage with
        | .downloading w => some (s.downloaded p w r)
        | .asking | .between => none
  | .finish =>
      s.pass.bind fun p =>
        match p.stage, p.rest with
        | .between, [] => some { s with pass := none }
        | .between, _ :: _ | .asking, _ | .downloading _, _ => none

/-! ### What the steps of a pass do -/

variable {s} {t : HomeCache} {p : Pass} {w : Want}

theorem step_answered {all : Option (List Want)} (hs : s.step (.answered all) = some t) :
    ∃ p, s.pass = some p ∧ p.stage = .asking ∧
      ((all = none ∧ t = { s with pass := none }) ∨
        ∃ ws, all = some ws ∧ t = s.setPass { p with
          stage := .between
          want := wanted s.cfg ws
          rest := wanted s.cfg ws }) := by
  rcases Option.bind_eq_some_iff.1 hs with ⟨p, hp, hrest⟩
  split at hrest
  · next ws hstage =>
      cases hrest
      exact ⟨p, hp, hstage, Or.inr ⟨ws, rfl, rfl⟩⟩
  · next hstage =>
      cases hrest
      exact ⟨p, hp, hstage, Or.inl ⟨rfl, rfl⟩⟩
  · cases hrest
  · cases hrest

/-- A visit ends the pass, passes over the blob, or makes room for it. -/
theorem step_visit (hs : s.step .visit = some t) :
    ∃ p w rest, s.pass = some p ∧ p.stage = .between ∧ p.rest = w :: rest ∧
      (t = { s with pass := none } ∨
        ∃ b, s.store = some b ∧ p.attached = true ∧
          ((s.evicts p b w = none ∧ t = s.setPass { p with rest := rest }) ∨
            ∃ vs, s.evicts p b w = some vs ∧ t = (s.put b (b.removeAll vs)).setPass
              { p with stage := .downloading w, rest := rest })) := by
  rcases Option.bind_eq_some_iff.1 hs with ⟨p, hp, hmatch⟩
  split at hmatch
  · next w rest hstage hrest =>
      cases hmatch
      refine ⟨p, w, rest, hp, hstage, hrest, ?_⟩
      unfold HomeCache.visit
      split
      · exact Or.inl rfl
      · next b hb =>
          split
          · next hgo =>
              refine Or.inr ⟨b, hb, (Bool.and_eq_true_iff.1 hgo).1, ?_⟩
              split
              · next hnone => exact Or.inl ⟨hnone, rfl⟩
              · next vs hvs => exact Or.inr ⟨vs, hvs, rfl⟩
          · exact Or.inl rfl
  · cases hmatch
  · cases hmatch
  · cases hmatch

/-- The end of a download changes the store if it has succeeded and the store is still the one that
the pass began with. -/
theorem step_downloaded {r : Download} (hs : s.step (.downloaded r) = some t) :
    ∃ p w, s.pass = some p ∧ p.stage = .downloading w ∧
      ((∃ now b, r = .fetched now ∧ s.store = some b ∧ p.attached = true ∧
          t = (s.put b (b.commit now w.sha256 w.size (some w.kind))).setPass
            { p with stage := .between, fetched := w.sha256 :: p.fetched }) ∨
        ((∃ now, r = .fetched now) ∧ (p.attached = true → s.store = none) ∧
          t = s.setPass { p with stage := .between, fetched := w.sha256 :: p.fetched }) ∨
        ((∀ now, r ≠ .fetched now) ∧ (t = { s with pass := none } ∨
          t = s.setPass { p with stage := .between, failures := p.failures + 1 }))) := by
  rcases Option.bind_eq_some_iff.1 hs with ⟨p, hp, hmatch⟩
  split at hmatch
  · next w hstage =>
      cases hmatch
      refine ⟨p, w, hp, hstage, ?_⟩
      cases r with
      | fetched now =>
          unfold HomeCache.downloaded
          simp only
          split
          · next b hb =>
              split
              · next hatt => exact Or.inl ⟨now, b, rfl, hb, hatt, rfl⟩
              · next hatt => exact Or.inr (Or.inl ⟨⟨now, rfl⟩, fun h => absurd h hatt, rfl⟩)
          · next hnone => exact Or.inr (Or.inl ⟨⟨now, rfl⟩, fun _ => hnone, rfl⟩)
      | failed =>
          unfold HomeCache.downloaded
          simp only
          refine Or.inr (Or.inr ⟨fun _ h => (by cases h), ?_⟩)
          split
          · exact Or.inl rfl
          · exact Or.inr rfl
      | aborted => exact Or.inr (Or.inr ⟨fun _ h => (by cases h), Or.inl rfl⟩)
  · cases hmatch
  · cases hmatch

theorem step_finish (hs : s.step .finish = some t) :
    ∃ p, s.pass = some p ∧ p.stage = .between ∧ p.rest = [] ∧ t = { s with pass := none } := by
  rcases Option.bind_eq_some_iff.1 hs with ⟨p, hp, hmatch⟩
  split at hmatch
  · next hstage hrest =>
      cases hmatch
      exact ⟨p, hp, hstage, hrest, rfl⟩
  · cases hmatch
  · cases hmatch
  · cases hmatch

theorem evicts_eq_some {b : BlobStore} {vs : List Sha} (h : s.evicts p b w = some vs) :
    w.sha256 ∉ b.items.keys ∧ b.victims w.size s.effectiveMax (rank p.want w) = some vs := by
  unfold evicts at h
  split at h
  · cases h
  · next hnew =>
      split at h
      · cases h
      · exact ⟨fun hmem => hnew (b.items.has_iff.2 hmem), h⟩

/-! ### Reachable states -/

/-- The bytes of the store are accounted for. -/
def Counted (s : HomeCache) : Prop := ∀ b ∈ s.store, b.Accounted

theorem store_serve (portChanged makes : Bool) : (s.serve portChanged makes).store = s.store := by
  unfold serve
  split
  · rfl
  · rfl

theorem counted_apply {cfg : Config} {makes : Bool} (h : s.Counted) :
    (s.apply cfg makes).Counted := by
  unfold HomeCache.apply
  simp only
  split
  · split
    · intro b hb
      cases hb
    · intro b hb
      rw [store_serve] at hb
      exact h b hb
  · split
    · intro b hb
      cases hb
    · exact h

theorem counted_opened {portChanged makes : Bool} {found : Option Found} (h : s.Counted) :
    (s.opened portChanged found makes).Counted := by
  cases found with
  | none =>
      exact h
  | some f =>
      intro b hb
      unfold HomeCache.opened at hb
      rw [store_serve] at hb
      cases hb
      exact ⟨rfl, f.2⟩

theorem Counted.step {a : Action} (h : s.Counted) (hs : s.step a = some t) : t.Counted := by
  cases a with
  | apply cfg makes =>
      simp only [HomeCache.step] at hs
      split at hs
      · cases hs
        exact counted_apply h
      · cases hs
  | opened found makes =>
      rcases Option.map_eq_some_iff.1 hs with ⟨portChanged, _, rfl⟩
      exact counted_opened h
  | stop =>
      cases hs
      split
      · intro b hb
        cases hb
      · exact h
  | touch now sha =>
      cases hs
      intro b hb
      rcases Option.map_eq_some_iff.1 hb with ⟨b', hb', rfl⟩
      exact (h b' hb').touch
  | space free =>
      cases hs
      exact h
  | sync =>
      cases hs
      unfold begin
      split
      · exact h
      · exact h
  | answered all =>
      rcases step_answered hs with ⟨p, _, _, ⟨_, rfl⟩ | ⟨ws, _, rfl⟩⟩
      · exact h
      · exact h
  | visit =>
      rcases step_visit hs with ⟨p, w, rest, _, _, _, rfl | ⟨b, hb, _, ⟨_, rfl⟩ | ⟨vs, _, rfl⟩⟩⟩
      · exact h
      · exact h
      · intro b' hb'
        cases hb'
        exact (h b hb).removeAll vs
  | downloaded r =>
      rcases step_downloaded hs with
        ⟨p, w, _, _, ⟨now, b, _, hb, _, rfl⟩ | ⟨_, _, rfl⟩ | ⟨_, rfl | rfl⟩⟩
      · intro b' hb'
        cases hb'
        exact (h b hb).commit (Int.natCast_nonneg w.size)
      · exact h
      · exact h
      · exact h
  | finish =>
      rcases step_finish hs with ⟨p, _, _, _, rfl⟩
      exact h

end HomeCache

end Sync
end Cache
end GateControl
