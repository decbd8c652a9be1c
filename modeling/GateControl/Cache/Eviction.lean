import GateControl.Cache.Sync

/-!
# Eviction — what goes to make room, and that it comes to rest

A pass visits the wanted blobs by falling priority, and what it evicts for one of them is wanted
less or not at all.  So what it has visited stays there, and what did not fit next to the blobs of
its own and of higher priority fits less and less (`Settled`).  The next pass finds nothing to do.
-/

namespace GateControl
namespace Cache
namespace Sync

open Library

variable {want all : List Want} {u w : Want} {b : BlobStore} {L : Int}

/-! ## Priorities -/

/-- Wanted blobs come once each, so that each has its own priority. -/
theorem get_prio (hdistinct : (want.map Want.sha256).Nodup) (hu : u ∈ want) :
    (prio want).get u.sha256 = some u.priority := by
  have hkeys : ((want.map fun w => (w.sha256, w.priority)).map Prod.fst).Nodup := by
    rw [List.map_map]
    exact hdistinct
  have hfind : OrderedMap.find u.sha256 (want.map fun w => (w.sha256, w.priority)) =
      some u.priority :=
    (OrderedMap.find_eq_some_iff hkeys).2 (List.mem_map.2 ⟨u, hu, rfl⟩)
  rw [prio, OrderedMap.ofList, OrderedMap.get_foldl_set hkeys, hfind]
  rfl

theorem wanted_nodup (cfg : Config) (hdistinct : (all.map Want.sha256).Nodup) :
    ((wanted cfg all).map Want.sha256).Nodup := by
  rw [wanted, ((List.perm_insertionSort _ _).map _).nodup_iff]
  exact hdistinct.sublist (List.filter_sublist.map _)

/-- The wanted blobs come by falling priority. -/
theorem wanted_sorted (cfg : Config) (all : List Want) :
    (wanted cfg all).Pairwise fun a b => b.priority ≤ a.priority := by
  have : Std.Total fun a b : Want => b.priority ≤ a.priority := ⟨fun _ _ => le_total _ _⟩
  have : IsTrans Want fun a b => b.priority ≤ a.priority := ⟨fun _ _ _ hab hbc => hbc.trans hab⟩
  exact List.pairwise_insertionSort _ _

/-- What may go for a blob is not wanted or wanted less. -/
theorem rank_eq_some_iff {sha : Sha} {it : Item} :
    (rank want w sha it).isSome = true ↔ ∀ p ∈ (prio want).get sha, p < w.priority := by
  unfold rank
  cases (prio want).get sha with
  | none => simp
  | some p =>
      by_cases hp : p < w.priority
      · simp [hp]
      · simp [hp]

/-- What may go for a blob may go for one that is wanted more. -/
theorem rank_mono (hle : w.priority ≤ u.priority) {sha : Sha} {it : Item}
    (h : (rank want w sha it).isSome = true) : (rank want u sha it).isSome = true := by
  rw [rank_eq_some_iff] at h ⊢
  exact fun p hp => (h p hp).trans_le hle

/-! ## Visited blobs -/

/-- A wanted blob is there, or it does not fit next to what is protected from it. -/
def Settled (L : Int) (want : List Want) (b : BlobStore) (w : Want) : Prop :=
  w.sha256 ∈ b.items.keys ∨ L < b.protectedBytes (rank want w) + w.size

/-- The rank of a blob does not depend on when it was used. -/
theorem protectedBytes_touch {now : Int} {sha : Sha} :
    (b.touch now sha).protectedBytes (rank want w) = b.protectedBytes (rank want w) :=
  BlobStore.sumBy_touch fun k n => if (rank want w k ⟨0, none, 0, 0⟩).isNone then n else 0

theorem Settled.touch {now : Int} {sha : Sha} (h : Settled L want b w) :
    Settled L want (b.touch now sha) w := by
  refine h.imp BlobStore.mem_keys_touch.2 fun hlt => ?_
  rwa [protectedBytes_touch]

/-- Making room for a blob does not unsettle one that is wanted as much. -/
theorem Settled.removeAll {bytes limit : Int} {vs : List Sha} (h : Settled L want b u)
    (hu : (prio want).get u.sha256 = some u.priority) (hle : w.priority ≤ u.priority)
    (hv : b.victims bytes limit (rank want w) = some vs) :
    Settled L want (b.removeAll vs) u := by
  refine h.imp (fun hmem => ?_) fun hlt => ?_
  · have hnot : u.sha256 ∉ vs := by
      intro hin
      rcases BlobStore.mem_victims hv hin with ⟨it, r, _, hr⟩
      have hlow := rank_eq_some_iff.1 (Option.isSome_iff_exists.2 ⟨r, hr⟩) u.priority hu
      exact absurd hle (not_le.2 hlow)
    rcases b.items.mem_keys_iff.1 hmem with ⟨it, hit⟩
    refine (OrderedMap.mem_keys_iff _).2 ⟨it, ?_⟩
    rw [BlobStore.get_removeAll, if_neg hnot, hit]
  · rw [BlobStore.protectedBytes_removeAll]
    · exact hlt
    · intro x hx it hit
      rcases BlobStore.mem_victims hv hx with ⟨it', r, hit', hr⟩
      obtain rfl : it' = it := Option.some.inj (hit'.symm.trans hit)
      exact rank_mono hle (Option.isSome_iff_exists.2 ⟨r, hr⟩)

theorem Settled.commit {now : Int} {kind : Option String} (h : Settled L want b u)
    (hnew : w.sha256 ∉ b.items.keys) :
    Settled L want (b.commit now w.sha256 w.size kind) u := by
  refine h.imp (fun hmem => (b.mem_items_commit).2 (Or.inr hmem)) fun hlt => ?_
  have hget : b.items.get w.sha256 = none := by
    cases hv : b.items.get w.sha256 with
    | none => rfl
    | some v => exact absurd (b.items.mem_keys_iff.2 ⟨v, hv⟩) hnew
  have hset := b.items.sumBy_set (fun sha it => if (rank want u sha it).isNone then it.size else 0)
    w.sha256 ⟨w.size, kind, now, 0⟩
  rw [hget] at hset
  have hgrow : b.protectedBytes (rank want u) ≤
      (b.commit now w.sha256 w.size kind).protectedBytes (rank want u) := by
    refine le_of_le_of_eq (le_add_of_nonneg_right ?_) (hset.symm.trans (add_zero _))
    split
    · exact Int.natCast_nonneg w.size
    · exact le_rfl
  omega

namespace HomeCache

variable {s t : HomeCache} {p : Pass}

/-! ## A visit -/

/-- What is passed over is settled. -/
theorem settled_of_evicts (hb : b.Accounted) (h : s.evicts p b w = none) :
    Settled s.effectiveMax p.want b w := by
  unfold evicts at h
  split at h
  · next hhas => exact Or.inl (b.items.has_iff.1 hhas)
  · split at h
    · next hlarge =>
        have hnonneg : 0 ≤ b.protectedBytes (rank p.want w) := BlobStore.protectedBytes_nonneg hb
        exact Or.inr (by omega)
    · refine Or.inr (not_le.1 fun hle => ?_)
      have hsome : (b.victims w.size s.effectiveMax (rank p.want w)).isSome = true :=
        (BlobStore.victims_isSome hb).2 hle
      rw [h] at hsome
      cases hsome

/-- What is settled is passed over. -/
theorem evicts_of_settled (hb : b.Accounted) (h : Settled s.effectiveMax p.want b w) :
    s.evicts p b w = none := by
  cases hvs : s.evicts p b w with
  | none => rfl
  | some vs =>
      obtain ⟨hnew, hv⟩ := evicts_eq_some hvs
      have hroom := (BlobStore.victims_isSome hb).1 (Option.isSome_iff_exists.2 ⟨vs, hv⟩)
      rcases h with hmem | hlt
      · exact absurd hmem hnew
      · omega

/-! ## Calm runs -/

/-- The settings stay, each visit finds the limit `L`, and the server answers with the same wanted
blobs each time and with each blob that is asked for. -/
def Calm (L : Int) (all : List Want) (s : HomeCache) : Action → Prop
  | .apply .. | .opened .. | .stop => False
  | .touch .. | .space _ | .sync | .finish => True
  | .answered ws => ws = some all
  | .visit => s.effectiveMax = L
  | .downloaded (.fetched _) => True
  | .downloaded .failed | .downloaded .aborted => False

instance (a : Action) : Decidable (s.Calm L all a) :=
  match a with
  | .apply .. | .opened .. | .stop => .isFalse id
  | .touch .. | .space _ | .sync | .finish => .isTrue trivial
  | .answered ws => inferInstanceAs (Decidable (ws = some all))
  | .visit => inferInstanceAs (Decidable (s.effectiveMax = L))
  | .downloaded (.fetched _) => .isTrue trivial
  | .downloaded .failed | .downloaded .aborted => .isFalse id

/-- The blob may be evicted now: it has not been fetched in this pass, and if it is wanted, it is
wanted less than the blob that is visited. -/
def MayGo (s : HomeCache) (x : Sha) : Prop :=
  ∃ p w, s.pass = some p ∧ p.rest.head? = some w ∧ x ∉ p.fetched ∧
    ∀ u ∈ p.want, u.sha256 = x → u.priority < w.priority

/-- A step evicts only what may go, and a blob that is fetched leaves the store within the limit. -/
def Sparing (L : Int) (s : HomeCache) (a : Action) : Prop :=
  ∀ t, s.step a = some t → ∀ b ∈ s.store, ∀ b' ∈ t.store,
    (∀ x ∈ b.items.keys, x ∉ b'.items.keys → s.MayGo x) ∧
      (∀ now, a = .downloaded (.fetched now) → b'.usedBytes ≤ L)

/-- A step begins no download, and the blobs that are there stay the same. -/
def Still (s : HomeCache) (a : Action) : Prop :=
  ∀ t, s.step a = some t → (∀ p ∈ t.pass, ∀ w, p.stage ≠ .downloading w) ∧
    ∀ b ∈ s.store, ∀ b' ∈ t.store, ∀ x, x ∈ b'.items.keys ↔ x ∈ b.items.keys

/-- How far the pass is: what it has visited is settled, what it has fetched it has visited, and
there is room for what it is downloading. -/
def Progress (L : Int) (want : List Want) (b : BlobStore) (p : Pass) : Prop :=
  match p.stage with
  | .asking => p.fetched = []
  | .between => p.want = want ∧ ∃ visited, want = visited ++ p.rest ∧
      (∀ u ∈ visited, Settled L want b u) ∧ ∀ x ∈ p.fetched, ∃ u ∈ visited, u.sha256 = x
  | .downloading w => p.want = want ∧ ∃ visited, want = visited ++ w :: p.rest ∧
      (∀ u ∈ visited, Settled L want b u) ∧ (∀ x ∈ p.fetched, ∃ u ∈ visited, u.sha256 = x) ∧
      w.sha256 ∉ b.items.keys ∧ b.usedBytes + w.size ≤ L

/-- The invariant of calm runs. -/
structure Working (L : Int) (all : List Want) (s : HomeCache) : Prop where
  counted : s.Counted
  attached : ∀ p ∈ s.pass, p.attached = true ∧ s.store.isSome = true
  progress : ∀ p ∈ s.pass, ∀ b ∈ s.store, Progress L (wanted s.cfg all) b p

/-- The invariant of calm runs in which a pass has come to its end. -/
structure Rested (L : Int) (all : List Want) (s : HomeCache) : Prop where
  counted : s.Counted
  settled : ∀ b ∈ s.store, ∀ w ∈ wanted s.cfg all, Settled L (wanted s.cfg all) b w
  pass : ∀ p ∈ s.pass, p.stage = .asking ∨
    (p.stage = .between ∧ p.want = wanted s.cfg all ∧ ∀ w ∈ p.rest, w ∈ wanted s.cfg all)

theorem Progress.touch {now : Int} {sha : Sha} (h : Progress L want b p) :
    Progress L want (b.touch now sha) p := by
  unfold Progress at h ⊢
  cases hstage : p.stage with
  | asking =>
      rwa [hstage] at h
  | between =>
      rw [hstage] at h
      obtain ⟨hwant, visited, hsplit, hsettled, hfetched⟩ := h
      exact ⟨hwant, visited, hsplit, fun u hu => (hsettled u hu).touch, hfetched⟩
  | downloading w =>
      rw [hstage] at h
      obtain ⟨hwant, visited, hsplit, hsettled, hfetched, hnew, hroom⟩ := h
      refine ⟨hwant, visited, hsplit, fun u hu => (hsettled u hu).touch, hfetched, ?_, ?_⟩
      · exact fun hmem => hnew (BlobStore.mem_keys_touch.1 hmem)
      · rwa [BlobStore.usedBytes_touch]

theorem Working.visit (hdistinct : (all.map Want.sha256).Nodup) (h : Working L all s)
    (hlimit : s.effectiveMax = L) (hs : s.step .visit = some t) : Working L all t := by
  have hcounted : t.Counted := h.counted.step hs
  rcases step_visit hs with ⟨p, w, rest, hp, hstage, hrest, rfl | ⟨b, hb, hatt, hcase⟩⟩
  · exact ⟨hcounted, fun p hp => (by cases hp), fun p hp => (by cases hp)⟩
  · have hprog := h.progress p hp b hb
    rw [Progress, hstage] at hprog
    obtain ⟨hwant, visited, hsplit, hsettled, hfetched⟩ := hprog
    rw [hrest] at hsplit
    have hsome : s.store.isSome = true := (h.attached p hp).2
    rcases hcase with ⟨hnone, rfl⟩ | ⟨vs, hvs, rfl⟩
    · refine ⟨hcounted, fun q hq => ?_, fun q hq b' hb' => ?_⟩
      · cases hq
        exact ⟨hatt, hsome⟩
      · cases hq
        cases hb.symm.trans hb'
        rw [Progress, hstage]
        refine ⟨hwant, visited ++ [w], ?_, fun u hu => ?_, fun x hx => ?_⟩
        · rw [List.append_assoc]
          exact hsplit
        · rcases List.mem_append.1 hu with hold | hnew
          · exact hsettled u hold
          · -- there is no room, even with all victims gone
            have hlast := settled_of_evicts (h.counted b hb) hnone
            rw [hlimit, hwant] at hlast
            rw [List.mem_singleton.1 hnew]
            exact hlast
        · rcases hfetched x hx with ⟨u, hu, rfl⟩
          exact ⟨u, List.mem_append_left _ hu, rfl⟩
    · -- the victims go, and the download begins
      obtain ⟨hnew, hv⟩ := evicts_eq_some hvs
      rw [hwant, hlimit] at hv
      refine ⟨hcounted, fun q hq => ?_, fun q hq b' hb' => ?_⟩
      · cases hq
        exact ⟨hatt, rfl⟩
      · cases hq
        cases hb'
        refine ⟨hwant, visited, hsplit, fun u hu => ?_, hfetched, fun hmem => ?_,
          BlobStore.victims_room hv⟩
        · -- what has been visited is wanted as much as what is visited now
          have hmem : u ∈ wanted s.cfg all := hsplit ▸ List.mem_append_left _ hu
          have hsorted := wanted_sorted s.cfg all
          rw [hsplit] at hsorted
          have hle : w.priority ≤ u.priority :=
            (List.pairwise_append.1 hsorted).2.2 u hu w List.mem_cons_self
          exact (hsettled u hu).removeAll (get_prio (wanted_nodup s.cfg hdistinct) hmem) hle hv
        · rcases (OrderedMap.mem_keys_iff _).1 hmem with ⟨it, hit⟩
          rw [BlobStore.get_removeAll] at hit
          split at hit
          · cases hit
          · exact hnew (b.items.mem_keys_iff.2 ⟨it, hit⟩)

theorem Working.fetched (h : Working L all s) {now : Int}
    (hs : s.step (.downloaded (.fetched now)) = some t) : Working L all t := by
  have hcounted : t.Counted := h.counted.step hs
  rcases step_downloaded hs with
    ⟨p, w, hp, hstage, ⟨now, b, _, hb, hatt, rfl⟩ | ⟨_, hnone, rfl⟩ | ⟨hno, _⟩⟩
  · have hprog := h.progress p hp b hb
    rw [Progress, hstage] at hprog
    obtain ⟨hwant, visited, hsplit, hsettled, hfetched, hnew, hroom⟩ := hprog
    refine ⟨hcounted, fun q hq => ?_, fun q hq b' hb' => ?_⟩
    · cases hq
      exact ⟨hatt, rfl⟩
    · cases hq
      cases hb'
      refine ⟨hwant, visited ++ [w], ?_, fun u hu => ?_, fun x hx => ?_⟩
      · rw [List.append_assoc]
        exact hsplit
      · -- the new blob is settled, and the others have lost nothing
        rcases List.mem_append.1 hu with hold | hlast
        · exact (hsettled u hold).commit hnew
        · rw [List.mem_singleton.1 hlast]
          exact Or.inl (b.mem_items_commit.2 (Or.inl rfl))
      · rcases List.mem_cons.1 hx with rfl | hold
        · exact ⟨w, List.mem_append_right _ (List.mem_singleton_self w), rfl⟩
        · rcases hfetched x hold with ⟨u, hu, rfl⟩
          exact ⟨u, List.mem_append_left _ hu, rfl⟩
  · -- the store is there while a pass is attached to it
    have hsome := h.attached p hp
    rw [hnone hsome.1] at hsome
    exact absurd hsome.2 Bool.false_ne_true
  · exact absurd rfl (hno now)

theorem Working.step (hdistinct : (all.map Want.sha256).Nodup) {a : Action} (h : Working L all s)
    (hok : s.Calm L all a) (hs : s.step a = some t) : Working L all t := by
  have hcounted : t.Counted := h.counted.step hs
  cases a with
  | apply => cases hok
  | opened => cases hok
  | stop => cases hok
  | touch now sha =>
      cases hs
      refine ⟨hcounted, fun p hp => ?_, fun p hp b' hb' => ?_⟩
      · refine ⟨(h.attached p hp).1, ?_⟩
        rw [Option.isSome_map]
        exact (h.attached p hp).2
      · rcases Option.map_eq_some_iff.1 hb' with ⟨b, hb, rfl⟩
        exact (h.progress p hp b hb).touch
  | space free =>
      cases hs
      exact ⟨hcounted, h.attached, h.progress⟩
  | sync =>
      cases hs
      unfold begin at hcounted ⊢
      split
      · next hbegin =>
          refine ⟨h.counted, fun p hp => ?_, fun p hp b hb => ?_⟩
          · cases hp
            exact ⟨rfl, (Bool.and_eq_true_iff.1 hbegin).2⟩
          · cases hp
            rfl
      · exact h
  | answered ws =>
      cases hok
      rcases step_answered hs with ⟨p, hp, hstage, ⟨hnone, _⟩ | ⟨ws, hws, rfl⟩⟩
      · cases hnone
      · cases hws
        refine ⟨hcounted, fun q hq => ?_, fun q hq b hb => ?_⟩
        · cases hq
          exact h.attached p hp
        · cases hq
          have hprog := h.progress p hp b hb
          rw [Progress, hstage] at hprog
          refine ⟨rfl, [], rfl, fun u hu => (by cases hu), fun x hx => ?_⟩
          rw [hprog] at hx
          cases hx
  | visit =>
      exact h.visit hdistinct hok hs
  | downloaded r =>
      cases r with
      | fetched now => exact h.fetched hs
      | failed => cases hok
      | aborted => cases hok
  | finish =>
      rcases step_finish hs with ⟨p, _, _, _, rfl⟩
      exact ⟨hcounted, fun p hp => (by cases hp), fun p hp => (by cases hp)⟩

/-- Blobs come and go with visits and downloads only. -/
theorem keys_of_calm {a : Action} (hok : s.Calm L all a) (hs : s.step a = some t)
    (hvisit : a ≠ .visit) (hdown : ∀ r, a ≠ .downloaded r) :
    ∀ b ∈ s.store, ∀ b' ∈ t.store, ∀ x, x ∈ b'.items.keys ↔ x ∈ b.items.keys := by
  -- the other steps leave the store alone
  have hsame : t.store = s.store →
      ∀ b ∈ s.store, ∀ b' ∈ t.store, ∀ x, x ∈ b'.items.keys ↔ x ∈ b.items.keys := by
    intro hstore b hb b' hb' x
    rw [hstore] at hb'
    cases hb.symm.trans hb'
    exact Iff.rfl
  cases a with
  | apply => cases hok
  | opened => cases hok
  | stop => cases hok
  | touch now sha =>
      cases hs
      intro b hb b' hb' x
      rcases Option.map_eq_some_iff.1 hb' with ⟨b₀, hb₀, rfl⟩
      cases hb.symm.trans hb₀
      exact BlobStore.mem_keys_touch
  | space free =>
      cases hs
      exact hsame rfl
  | sync =>
      cases hs
      apply hsame
      unfold begin
      split
      · rfl
      · rfl
  | answered ws =>
      rcases step_answered hs with ⟨p, _, _, ⟨_, rfl⟩ | ⟨ws, _, rfl⟩⟩
      · exact hsame rfl
      · exact hsame rfl
  | visit => exact absurd rfl hvisit
  | downloaded r => exact absurd rfl (hdown r)
  | finish =>
      rcases step_finish hs with ⟨p, _, _, _, rfl⟩
      exact hsame rfl

/-- What a visit evicts may go. -/
theorem Working.mayGo (hdistinct : (all.map Want.sha256).Nodup) (h : Working L all s)
    (hs : s.step .visit = some t) {b' : BlobStore} (hb : s.store = some b) (hb' : t.store = some b')
    {x : Sha} (hx : x ∈ b.items.keys) (hx' : x ∉ b'.items.keys) : s.MayGo x := by
  have hkept : t.store ≠ s.store := by
    intro hstore
    rw [hb', hb] at hstore
    cases hstore
    exact hx' hx
  rcases step_visit hs with ⟨p, w, rest, hp, hstage, hrest, rfl | ⟨b₀, hb₀, _, hcase⟩⟩
  · exact absurd rfl hkept
  · cases hb.symm.trans hb₀
    rcases hcase with ⟨_, rfl⟩ | ⟨vs, hvs, rfl⟩
    · exact absurd rfl hkept
    · cases hb'
      have hin : x ∈ vs := by
        by_contra hnot
        rcases b.items.mem_keys_iff.1 hx with ⟨it, hit⟩
        refine hx' ((OrderedMap.mem_keys_iff _).2 ⟨it, ?_⟩)
        rw [BlobStore.get_removeAll, if_neg hnot, hit]
      have hprog := h.progress p hp b hb
      rw [Progress, hstage] at hprog
      obtain ⟨hwant, visited, hsplit, _, hfetched⟩ := hprog
      have hless : ∀ u ∈ p.want, u.sha256 = x → u.priority < w.priority := by
        rintro u hu rfl
        rcases BlobStore.mem_victims (evicts_eq_some hvs).2 hin with ⟨it, r, _, hr⟩
        have hlow := rank_eq_some_iff.1 (Option.isSome_iff_exists.2 ⟨r, hr⟩)
        have hnodup : (p.want.map Want.sha256).Nodup := hwant ▸ wanted_nodup s.cfg hdistinct
        exact hlow u.priority (get_prio hnodup hu)
      refine ⟨p, w, hp, by rw [hrest, List.head?_cons], fun hx => ?_, hless⟩
      -- what has been fetched has been visited, and so is wanted as much
      rcases hfetched x hx with ⟨u, hu, hux⟩
      have hsorted := wanted_sorted s.cfg all
      rw [hsplit, hrest] at hsorted
      have hle : w.priority ≤ u.priority :=
        (List.pairwise_append.1 hsorted).2.2 u hu w List.mem_cons_self
      have hmem : u ∈ p.want := by
        rw [hwant, hsplit]
        exact List.mem_append_left _ hu
      exact absurd (hless u hmem hux) (not_lt.2 hle)

theorem Working.sparing (hdistinct : (all.map Want.sha256).Nodup) {a : Action}
    (h : Working L all s) (hok : s.Calm L all a) : s.Sparing L a := by
  intro t hs b hb b' hb'
  by_cases hvisit : a = .visit
  · subst hvisit
    exact ⟨fun x hx hx' => h.mayGo hdistinct hs hb hb' hx hx', fun _ h => (by cases h)⟩
  · by_cases hdown : ∃ r, a = .downloaded r
    · rcases hdown with ⟨r, rfl⟩
      rcases step_downloaded hs with
        ⟨p, w, hp, hstage, ⟨now, b₀, _, hb₀, _, rfl⟩ | ⟨_, hnone, _⟩ | ⟨hno, _⟩⟩
      · cases hb.symm.trans hb₀
        cases hb'
        have hprog := h.progress p hp b hb
        rw [Progress, hstage] at hprog
        obtain ⟨_, _, _, _, _, hnew, hroom⟩ := hprog
        refine ⟨fun x hx hx' => absurd (b.mem_items_commit.2 (Or.inr hx)) hx', fun _ _ => ?_⟩
        rwa [BlobStore.usedBytes_commit hnew]
      · rw [hnone (h.attached p hp).1] at hb
        cases hb
      · cases r with
        | fetched now => exact absurd rfl (hno now)
        | failed => cases hok
        | aborted => cases hok
    · have hkeys := keys_of_calm hok hs hvisit (fun r hr => hdown ⟨r, hr⟩) b hb b' hb'
      exact ⟨fun x hx hx' => absurd ((hkeys x).2 hx) hx', fun now h => absurd ⟨_, h⟩ hdown⟩

/-! ### After a pass -/

theorem Working.rested (h : Working L all s) (hs : s.step .finish = some t) : Rested L all t := by
  rcases step_finish hs with ⟨p, hp, hstage, hrest, rfl⟩
  refine ⟨h.counted, fun b hb w hw => ?_, fun p hp => (by cases hp)⟩
  have hprog := h.progress p hp b hb
  rw [Progress, hstage] at hprog
  obtain ⟨_, visited, hsplit, hsettled, _⟩ := hprog
  rw [hrest, List.append_nil] at hsplit
  exact hsettled w (hsplit ▸ hw)

/-- In a calm run a visit after the end of a pass passes over its blob. -/
theorem Rested.visit (h : Rested L all s) (hlimit : s.effectiveMax = L)
    (hs : s.step .visit = some t) : t = { s with pass := none } ∨
      ∃ p w rest, s.pass = some p ∧ p.rest = w :: rest ∧ p.stage = .between ∧
        t = s.setPass { p with rest := rest } := by
  rcases step_visit hs with ⟨p, w, rest, hp, hstage, hrest, rfl | ⟨b, hb, _, hcase⟩⟩
  · exact Or.inl rfl
  · refine Or.inr ⟨p, w, rest, hp, hrest, hstage, ?_⟩
    rcases hcase with ⟨_, rfl⟩ | ⟨vs, hvs, _⟩
    · rfl
    · rcases h.pass p hp with hasking | ⟨_, hwant, hmem⟩
      · rw [hasking] at hstage
        cases hstage
      · have hsettled := h.settled b hb w (hmem w (hrest ▸ List.mem_cons_self))
        rw [← hwant, ← hlimit] at hsettled
        rw [evicts_of_settled (h.counted b hb) hsettled] at hvs
        cases hvs

theorem Rested.step {a : Action} (h : Rested L all s) (hok : s.Calm L all a)
    (hs : s.step a = some t) : Rested L all t := by
  have hcounted : t.Counted := h.counted.step hs
  cases a with
  | apply => cases hok
  | opened => cases hok
  | stop => cases hok
  | touch now sha =>
      cases hs
      refine ⟨hcounted, fun b' hb' w hw => ?_, h.pass⟩
      rcases Option.map_eq_some_iff.1 hb' with ⟨b, hb, rfl⟩
      exact (h.settled b hb w hw).touch
  | space free =>
      cases hs
      exact ⟨hcounted, h.settled, h.pass⟩
  | sync =>
      cases hs
      unfold begin at hcounted ⊢
      split
      · refine ⟨h.counted, h.settled, fun p hp => ?_⟩
        cases hp
        exact Or.inl rfl
      · exact h
  | answered ws =>
      cases hok
      rcases step_answered hs with ⟨p, _, _, ⟨hnone, _⟩ | ⟨ws, hws, rfl⟩⟩
      · cases hnone
      · cases hws
        refine ⟨hcounted, h.settled, fun q hq => ?_⟩
        cases hq
        exact Or.inr ⟨rfl, rfl, fun _ hw => hw⟩
  | visit =>
      -- all wishes are settled, so a visit downloads nothing
      rcases h.visit hok hs with rfl | ⟨p, w, rest, hp, hrest, hstage, rfl⟩
      · exact ⟨hcounted, h.settled, fun p hp => (by cases hp)⟩
      · refine ⟨hcounted, h.settled, fun q hq => ?_⟩
        cases hq
        rcases h.pass p hp with hasking | ⟨_, hwant, hmem⟩
        · rw [hasking] at hstage
          cases hstage
        · exact Or.inr ⟨hstage, hwant, fun u hu => hmem u (hrest ▸ List.mem_cons_of_mem w hu)⟩
  | downloaded r =>
      rcases step_downloaded hs with ⟨p, w, hp, hstage, _⟩
      rcases h.pass p hp with hasking | ⟨hbetween, _⟩
      · rw [hasking] at hstage
        cases hstage
      · rw [hbetween] at hstage
        cases hstage
  | finish =>
      rcases step_finish hs with ⟨p, _, _, _, rfl⟩
      exact ⟨hcounted, h.settled, fun p hp => (by cases hp)⟩

theorem Rested.still {a : Action} (h : Rested L all s) (hok : s.Calm L all a) : s.Still a := by
  intro t hs
  have hstage : ∀ q ∈ t.pass, ∀ w, q.stage ≠ .downloading w := by
    intro q hq w hdown
    rcases (h.step hok hs).pass q hq with hasking | ⟨hbetween, _⟩
    · rw [hasking] at hdown
      cases hdown
    · rw [hbetween] at hdown
      cases hdown
  refine ⟨hstage, ?_⟩
  by_cases hvisit : a = .visit
  · subst hvisit
    have hstore : t.store = s.store := by
      rcases h.visit hok hs with rfl | ⟨p, w, rest, _, _, _, rfl⟩
      · rfl
      · rfl
    intro b hb b' hb' x
    rw [hstore] at hb'
    cases hb.symm.trans hb'
    exact Iff.rfl
  · refine keys_of_calm hok hs hvisit fun r hr => ?_
    -- nothing is being downloaded
    subst hr
    rcases step_downloaded hs with ⟨p, w, hp, hdown, _⟩
    rcases h.pass p hp with hasking | ⟨hbetween, _⟩
    · rw [hasking] at hdown
      cases hdown
    · rw [hbetween] at hdown
      cases hdown

/-! ## Runs -/

/-- In a calm run of passes a step evicts only what has not been fetched in the same pass and what
is wanted less than the blob that is visited, if at all, and a blob that is fetched leaves the store
within the limit; and after the end of a pass nothing is downloaded or evicted any more. -/
theorem eviction_settles {free : Option Int} {as : List Action}
    (hs : exec step (new free) as = some s) (hidle : s.pass = none) (L : Int) {all : List Want}
    (hdistinct : (all.map Want.sha256).Nodup) {bs : List Action}
    (hcalm : Admits step (Calm L all) s bs) :
    Admits step (Sparing L) s bs ∧
      ∀ cs ds u, bs = cs ++ .finish :: ds → exec step s (cs ++ [.finish]) = some u →
        Admits step Still u ds := by
  have hcounted : s.Counted :=
    exec_invariant (fun _ _ _ h hs => h.step hs) (fun _ hb => (by cases hb)) hs
  have hworking : Working L all s := by
    refine ⟨hcounted, fun p hp => ?_, fun p hp => ?_⟩
    · rw [hidle] at hp
      cases hp
    · rw [hidle] at hp
      cases hp
  refine ⟨admits_of_admits (fun _ _ _ h hok hs => h.step hdistinct hok hs)
    (fun _ _ h hok => h.sparing hdistinct hok) hworking hcalm, ?_⟩
  rintro cs ds u rfl hu
  rcases exec_append.1 hu with ⟨v, hv, hfinish⟩
  rcases exec_cons.1 hfinish with ⟨u', hu', hend⟩
  cases hend
  obtain ⟨hbefore, hafter⟩ := hcalm.append hv
  have hv' : Working L all v :=
    (throughout_of_admits (fun _ _ _ h hok hs => h.step hdistinct hok hs) (fun _ h => h) hworking
      hbefore).last hv
  exact admits_of_admits (fun _ _ _ h hok hs => h.step hok hs) (fun _ _ h hok => h.still hok)
    (hv'.rested hu') (hafter.2 u hu')

def mib : Nat := 1024 * 1024

def named (c : Char) : Sha := String.ofList (List.replicate 64 c)

def cacheOf (maxBytes : Nat) : Config :=
  ⟨true, true, none, "/cache", maxBytes, ["drive", "photos"], 8443⟩

def onDisk : Found :=
  ⟨.ofList [(named 'a', ⟨400 * mib, some "drive", 100, 0⟩),
    (named 'b', ⟨300 * mib, some "photos", 200, 0⟩)], by decide +kernel⟩

/-- One of the blobs on the disk is not wanted, and one of the wanted blobs never fits. -/
def wantList : List Want :=
  [⟨named 'b', 300 * mib, "photos", 1⟩, ⟨named 'c', 600 * mib, "drive", 5⟩,
    ⟨named 'd', 900 * mib, "drive", 3⟩, ⟨named 'e', 100 * mib, "vault", 9⟩]

/-- A cache that has been switched on, with room enough on the disk. -/
def ready (maxBytes : Nat) : Option HomeCache :=
  exec step (new (some (4000 * mib))) [.apply (cacheOf maxBytes) true, .opened (some onDisk) true]

def onePass : List Action :=
  [.sync, .answered (some wantList), .visit, .touch 300 (named 'b'), .downloaded (.fetched 400),
    .visit, .visit]

def nextPass : List Action :=
  [.sync, .answered (some wantList), .visit, .visit, .visit, .finish]

theorem eviction_settles_ready :
    ∃ s, ready (1000 * mib) = some s ∧
      Admits step (Sparing (1000 * mib)) s (onePass ++ .finish :: nextPass) ∧
      ∃ u, exec step s (onePass ++ [.finish]) = some u ∧ Admits step Still u nextPass := by
  have htest : (ready (1000 * mib)).any (fun s => decide (s.pass = none) &&
      decide (Admits step (Calm (1000 * mib) wantList) s (onePass ++ .finish :: nextPass)) &&
      (exec step s (onePass ++ [.finish])).isSome) = true := by
    decide +kernel
  rcases (Option.any_eq_true ..).1 htest with ⟨s, hs, htest'⟩
  obtain ⟨hbegin, hsome⟩ := Bool.and_eq_true_iff.1 htest'
  obtain ⟨hidle, hcalm⟩ := Bool.and_eq_true_iff.1 hbegin
  rcases Option.isSome_iff_exists.1 hsome with ⟨u, hu⟩
  obtain ⟨hsparing, hstill⟩ := eviction_settles hs (of_decide_eq_true hidle) (1000 * mib)
    (by decide +kernel) (of_decide_eq_true hcalm)
  exact ⟨s, hs, hsparing, u, hu, hstill onePass nextPass u rfl hu⟩

end HomeCache

end Sync
end Cache
end GateControl
