import GateControl.Cache.Eviction

/-!
# Limit — whether a pass brings the store below its limit

A pass makes room for blobs that it is going to fetch and for nothing else.  Where the limit has
been lowered below what the store takes, or the disk has become full, it depends on the wanted blobs
whether the store is within its limit afterwards (`Ample`).
-/

namespace GateControl
namespace Cache
namespace Sync

open Library

namespace HomeCache

variable {s t : HomeCache} {p : Pass} {b b' : BlobStore} {w : Want}

/-! ## The limit -/

theorem effectiveMax_le (s : HomeCache) : s.effectiveMax ≤ s.cfg.maxBytes := by
  unfold effectiveMax
  split
  · exact le_rfl
  · exact max_le (Int.natCast_nonneg _) (min_le_left _ _)

/-- What the blobs take and what is free on the disk are together the same. -/
theorem effectiveMax_put (hb : s.store = some b) : (s.put b b').effectiveMax = s.effectiveMax := by
  unfold effectiveMax freeBytes usedBytes put
  rw [hb]
  cases s.free with
  | none => rfl
  | some free =>
      have hsum : b'.usedBytes + (free + b.usedBytes - b'.usedBytes) = b.usedBytes + free := by
        omega
      simp [hsum]

theorem effectiveMax_touch {now : Int} {sha : Sha} :
    effectiveMax { s with store := s.store.map (·.touch now sha) } = s.effectiveMax := by
  unfold effectiveMax freeBytes usedBytes
  cases s.store with
  | none => rfl
  | some b => simp [BlobStore.usedBytes_touch]

/-! ## The condition -/

/-- A pass whose settings have not changed will leave the store within its limit: the store is
within it, or one of the blobs that are still to be visited is missing and fits next to what is
protected from it. -/
def Ample (s : HomeCache) : Prop :=
  ∀ p ∈ s.pass, p.steady = true → ∀ b ∈ s.store,
    match p.stage with
    | .asking => True
    | .between => b.usedBytes ≤ s.effectiveMax ∨ ∃ w ∈ p.rest, w.sha256 ∉ b.items.keys ∧
        b.protectedBytes (rank p.want w) + w.size ≤ s.effectiveMax
    | .downloading w => b.usedBytes + w.size ≤ s.effectiveMax

instance : Decidable s.Ample := by
  have : ∀ (p : Pass) (b : BlobStore), Decidable (match p.stage with
      | .asking => True
      | .between => b.usedBytes ≤ s.effectiveMax ∨ ∃ w ∈ p.rest, w.sha256 ∉ b.items.keys ∧
          b.protectedBytes (rank p.want w) + w.size ≤ s.effectiveMax
      | .downloading w => b.usedBytes + w.size ≤ s.effectiveMax) := by
    intro p b
    cases p.stage with
    | asking => exact inferInstanceAs (Decidable True)
    | between => exact inferInstanceAs (Decidable (_ ∨ _))
    | downloading w => exact inferInstanceAs (Decidable (_ ≤ _))
  exact inferInstanceAs (Decidable (∀ p ∈ s.pass, p.steady = true → ∀ b ∈ s.store, _))

/-- A pass begins to visit only where that is so, and it stays so when the space on the disk
changes. -/
def Roomy (s : HomeCache) : Action → Prop
  | .answered ws => ∀ t ∈ s.step (.answered ws), t.Ample
  | .space free => ∀ t ∈ s.step (.space free), t.Ample
  | _ => True

instance (a : Action) : Decidable (s.Roomy a) :=
  match a with
  | .answered ws => inferInstanceAs (Decidable (∀ t ∈ s.step (.answered ws), t.Ample))
  | .space free => inferInstanceAs (Decidable (∀ t ∈ s.step (.space free), t.Ample))
  | .apply .. | .opened .. | .stop | .touch .. | .sync | .visit | .downloaded _ | .finish =>
      .isTrue trivial

/-- A pass that has run to its end with unchanged settings leaves the store within its limit. -/
def Kept (s : HomeCache) (a : Action) : Prop :=
  a = .finish → ∀ t, s.step a = some t → ∀ p ∈ s.pass, p.steady = true → ∀ b ∈ t.store,
    b.usedBytes ≤ t.effectiveMax ∧ b.usedBytes ≤ t.cfg.maxBytes

/-! ## Steps -/

structure Within (s : HomeCache) : Prop where
  counted : s.Counted
  attached : ∀ p ∈ s.pass, p.steady = true → p.attached = true
  ample : s.Ample

/-- Where no pass is steady, there is nothing to show. -/
theorem within_of_unsteady (hcounted : s.Counted) (h : ∀ p ∈ s.pass, p.steady = false) :
    s.Within := by
  refine ⟨hcounted, fun p hp hsteady => ?_, fun p hp hsteady => ?_⟩
  · rw [h p hp] at hsteady
    cases hsteady
  · rw [h p hp] at hsteady
    cases hsteady

theorem new_within (free : Option Int) : (new free).Within :=
  within_of_unsteady (fun _ hb => (by cases hb)) fun _ hp => (by cases hp)

/-- Nothing differs that concerns a pass. -/
structure Unmoved (t s : HomeCache) : Prop where
  pass : t.pass = s.pass
  store : t.store = s.store
  free : t.free = s.free
  cfg : t.cfg = s.cfg

theorem unmoved_serve {portChanged makes : Bool} : (s.serve portChanged makes).Unmoved s := by
  unfold serve
  split
  · exact ⟨rfl, rfl, rfl, rfl⟩
  · exact ⟨rfl, rfl, rfl, rfl⟩

theorem Within.of_unmoved (h : s.Within) (hsame : t.Unmoved s) : t.Within := by
  obtain ⟨hpass, hstore, hfree, hcfg⟩ := hsame
  cases s
  cases t
  cases hpass
  cases hstore
  cases hfree
  cases hcfg
  exact ⟨h.counted, h.attached, h.ample⟩

theorem unsteady_withStore (store : Option BlobStore) :
    ∀ p ∈ (s.withStore store).pass, p.steady = false := by
  intro p hp
  rcases Option.map_eq_some_iff.1 hp with ⟨q, _, rfl⟩
  rfl

/-- A pass stays steady if the settings are applied that there are already, and then nothing that
concerns it changes. -/
theorem Within.apply (h : s.Within) (cfg : Config) (makes : Bool) : (s.apply cfg makes).Within := by
  have hcounted : (s.apply cfg makes).Counted := counted_apply h.counted
  by_cases hcfg : cfg = s.cfg
  · subst hcfg
    have hpass : s.pass.map (fun p => { p with steady := p.steady && decide True }) = s.pass := by
      simp
    have hsame : (s.apply s.cfg makes).Unmoved s := by
      unfold HomeCache.apply
      simp only
      rw [hpass]
      split
      · next henabled =>
          rw [if_neg (by simp [henabled])]
          exact unmoved_serve
      · exact ⟨rfl, rfl, rfl, rfl⟩
    exact h.of_unmoved hsame
  · refine within_of_unsteady hcounted ?_
    have hmap : ∀ p ∈ s.pass.map fun p => { p with steady := p.steady && decide (cfg = s.cfg) },
        p.steady = false := by
      intro p hp
      rcases Option.map_eq_some_iff.1 hp with ⟨q, _, rfl⟩
      simp [hcfg]
    unfold HomeCache.apply
    simp only
    split
    · split
      · exact unsteady_withStore none
      · rw [unmoved_serve.pass]
        exact hmap
    · split
      · exact unsteady_withStore none
      · exact hmap

theorem Within.visit (h : s.Within) (hs : s.step .visit = some t) : t.Within := by
  have hcounted : t.Counted := h.counted.step hs
  rcases step_visit hs with ⟨p, w, rest, hp, hstage, hrest, rfl | ⟨b, hb, hatt, hcase⟩⟩
  · exact within_of_unsteady hcounted fun _ hp => (by cases hp)
  · rcases hcase with ⟨hnone, rfl⟩ | ⟨vs, hvs, rfl⟩
    · refine ⟨hcounted, fun q hq _ => ?_, fun q hq hsteady b' hb' => ?_⟩
      · cases hq
        exact hatt
      · cases hq
        cases hb.symm.trans hb'
        have hample := h.ample p hp hsteady b hb
        rw [hstage, hrest] at hample
        rw [hstage]
        refine hample.imp_right fun ⟨u, hu, hmissing, hfits⟩ => ?_
        rcases List.mem_cons.1 hu with rfl | hlater
        · -- what is passed over does not fit
          rcases settled_of_evicts (h.counted b hb) hnone with hmem | hlt
          · exact absurd hmem hmissing
          · exact absurd hfits (not_le.2 hlt)
        · exact ⟨u, hlater, hmissing, hfits⟩
    · refine ⟨hcounted, fun q hq _ => ?_, fun q hq hsteady b' hb' => ?_⟩
      · cases hq
        exact hatt
      · cases hq
        cases hb'
        change _ ≤ (s.put b (b.removeAll vs)).effectiveMax
        rw [effectiveMax_put hb]
        exact BlobStore.victims_room (evicts_eq_some hvs).2

theorem Within.downloaded (h : s.Within) {r : Download} (hs : s.step (.downloaded r) = some t) :
    t.Within := by
  have hcounted : t.Counted := h.counted.step hs
  rcases step_downloaded hs with
    ⟨p, w, hp, hstage, ⟨now, b, _, hb, hatt, rfl⟩ | ⟨_, hnone, rfl⟩ | ⟨_, rfl | rfl⟩⟩
  · refine ⟨hcounted, fun q hq _ => ?_, fun q hq hsteady b' hb' => ?_⟩
    · cases hq
      exact hatt
    · cases hq
      cases hb'
      have hroom := h.ample p hp hsteady b hb
      rw [hstage] at hroom
      refine Or.inl ?_
      change _ ≤ (s.put b _).effectiveMax
      rw [effectiveMax_put hb]
      exact (BlobStore.usedBytes_commit_le (h.counted b hb)).trans hroom
  · refine ⟨hcounted, fun q hq hsteady => ?_, fun q hq hsteady b hb => ?_⟩
    · cases hq
      exact h.attached p hp hsteady
    · cases hq
      have hno := hnone (h.attached p hp hsteady)
      cases hno.symm.trans hb
  · exact within_of_unsteady hcounted fun _ hp => (by cases hp)
  · refine ⟨hcounted, fun q hq hsteady => ?_, fun q hq hsteady b hb => ?_⟩
    · cases hq
      exact h.attached p hp hsteady
    · cases hq
      have hroom := h.ample p hp hsteady b hb
      rw [hstage] at hroom
      refine Or.inl (le_trans ?_ hroom)
      exact le_add_of_nonneg_right (Int.natCast_nonneg w.size)

theorem Within.step {a : Action} (h : s.Within) (hok : s.Roomy a) (hs : s.step a = some t) :
    t.Within := by
  have hcounted : t.Counted := h.counted.step hs
  cases a with
  | apply cfg makes =>
      simp only [HomeCache.step] at hs
      split at hs
      · cases hs
        exact h.apply cfg makes
      · cases hs
  | opened found makes =>
      rcases Option.map_eq_some_iff.1 hs with ⟨portChanged, _, rfl⟩
      cases found with
      | none =>
          exact ⟨hcounted, h.attached, h.ample⟩
      | some f =>
          refine within_of_unsteady hcounted ?_
          unfold HomeCache.opened
          rw [unmoved_serve.pass]
          exact unsteady_withStore (some (.opened f.1))
  | stop =>
      cases hs
      split
      · exact within_of_unsteady (fun _ hb => (by cases hb)) (unsteady_withStore none)
      · exact h
  | touch now sha =>
      cases hs
      refine ⟨hcounted, h.attached, fun p hp hsteady b' hb' => ?_⟩
      rcases Option.map_eq_some_iff.1 hb' with ⟨b, hb, rfl⟩
      have hample := h.ample p hp hsteady b hb
      rw [effectiveMax_touch, BlobStore.usedBytes_touch]
      simp only [protectedBytes_touch, BlobStore.mem_keys_touch]
      exact hample
  | space free =>
      cases hs
      exact ⟨hcounted, h.attached, hok _ rfl⟩
  | sync =>
      cases hs
      unfold begin at hcounted ⊢
      split
      · refine ⟨h.counted, fun p hp _ => ?_, fun p hp _ b _ => ?_⟩
        · cases hp
          rfl
        · cases hp
          trivial
      · exact h
  | answered ws =>
      refine ⟨hcounted, ?_, hok t hs⟩
      rcases step_answered hs with ⟨p, hp, _, ⟨_, rfl⟩ | ⟨ws, _, rfl⟩⟩
      · exact fun p hp => (by cases hp)
      · intro q hq hsteady
        cases hq
        exact h.attached p hp hsteady
  | visit => exact h.visit hs
  | downloaded r => exact h.downloaded hs
  | finish =>
      rcases step_finish hs with ⟨p, _, _, _, rfl⟩
      exact within_of_unsteady hcounted fun _ hp => (by cases hp)

theorem Within.kept {a : Action} (h : s.Within) : s.Kept a := by
  rintro rfl t hs p hp hsteady b hb
  rcases step_finish hs with ⟨q, hq, hstage, hrest, rfl⟩
  cases hp.symm.trans hq
  have hused : b.usedBytes ≤ s.effectiveMax := by
    have hample := h.ample p hp hsteady b hb
    rw [hstage, hrest] at hample
    refine hample.resolve_right ?_
    rintro ⟨w, hw, _⟩
    cases hw
  exact ⟨hused, hused.trans s.effectiveMax_le⟩

/-! ## Runs -/

/-- In a run whose passes begin to visit only where there will be room, each pass that comes to its
end with unchanged settings leaves the store within its limit. -/
theorem limit_kept {free : Option Int} {as : List Action}
    (h : Admits step Roomy (new free) as) : Admits step Kept (new free) as :=
  admits_of_admits (fun _ _ _ h hok hs => h.step hok hs) (fun _ _ h _ => h.kept) (new_within free) h

/-- The limit is lowered below what the store takes, and a pass finds a blob missing that fits next
to those that it is not wanted more than; meanwhile the same settings are applied again. -/
def lowered : List Action :=
  [.apply (cacheOf (1000 * mib)) true, .opened (some onDisk) true,
    .apply (cacheOf (650 * mib)) true, .sync,
    .answered (some [⟨named 'b', 300 * mib, "photos", 1⟩, ⟨named 'c', 200 * mib, "drive", 5⟩]),
    .visit, .touch 300 (named 'b'), .apply (cacheOf (650 * mib)) true, .downloaded (.fetched 400),
    .visit, .finish]

theorem limit_kept_lowered : Admits step Kept (new (some (4000 * mib))) lowered :=
  limit_kept (by decide +kernel)

/-- The limit is lowered below what the store takes, and nothing is missing that is wanted. -/
def complete : List Action :=
  [.apply (cacheOf (1000 * mib)) true, .opened (some onDisk) true,
    .apply (cacheOf (500 * mib)) true, .sync,
    .answered (some [⟨named 'a', 400 * mib, "drive", 1⟩, ⟨named 'b', 300 * mib, "photos", 1⟩]),
    .visit, .visit]

theorem limit_exceeded :
    ∃ s t p b, exec step (new (some (4000 * mib))) complete = some s ∧ s.step .finish = some t ∧
      s.pass = some p ∧ p.steady = true ∧ t.store = some b ∧ t.cfg.maxBytes = 500 * mib ∧
      b.usedBytes = 700 * mib := by
  have htest : (exec step (new (some (4000 * mib))) complete).any (fun s => (s.step .finish).any
      fun t => s.pass.any (·.steady) && t.store.any fun (b : BlobStore) =>
        decide (t.cfg.maxBytes = 500 * mib) && decide (b.usedBytes = 700 * mib)) = true := by
    decide +kernel
  rcases (Option.any_eq_true ..).1 htest with ⟨s, hs, hfinish⟩
  rcases (Option.any_eq_true ..).1 hfinish with ⟨t, ht, hrest⟩
  obtain ⟨hpass, hstore⟩ := Bool.and_eq_true_iff.1 hrest
  rcases (Option.any_eq_true ..).1 hpass with ⟨p, hp, hsteady⟩
  rcases (Option.any_eq_true ..).1 hstore with ⟨b, hb, hbytes⟩
  obtain ⟨hmax, hused⟩ := Bool.and_eq_true_iff.1 hbytes
  exact ⟨s, t, p, b, hs, ht, hp, hsteady, hb, of_decide_eq_true hmax, of_decide_eq_true hused⟩

end HomeCache

end Sync
end Cache
end GateControl
