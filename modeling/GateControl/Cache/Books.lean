import Mathlib.Algebra.Order.Ring.Rat
import GateControl.Cache.Room

/-!
# Books — the blob store under any calls

The calls of a store that has been opened, one after the other: `commit`, `remove`, `touch`,
`makeRoom` and `clear`.  The file of a blob may turn out not to be deletable; then the call that
wanted it gone ends there, and the blob is out of the index.

The two counters and the two sets of changes agree with the index after each call, and `makeRoom`
removes no more than it must.
-/

namespace GateControl
namespace Cache

open Library

namespace BlobStore

/-- Remove blobs up to one whose file cannot be deleted; whether there was none. -/
def removeEach (fails : Sha → Bool) : BlobStore → List Sha → BlobStore × Bool
  | b, [] => (b, true)
  | b, sha :: shas =>
      -- the index is changed before the file is deleted
      if fails sha then (b.remove sha, false) else removeEach fails (b.remove sha) shas

/-- `makeRoom` with what it returns, unless it throws. -/
def makeRoomOn {ρ : Type*} [LinearOrder ρ] (fails : Sha → Bool) (b : BlobStore) (bytes limit : Int)
    (rank : Sha → Item → Option ρ) : BlobStore × Option Bool :=
  match b.victims bytes limit rank with
  | none => (b, some false)
  | some vs =>
      let r := removeEach fails b vs
      (r.1, if r.2 then some true else none)

/-- `clear`; unfinished downloads are not part of the index. -/
def clear (fails : Sha → Bool) (b : BlobStore) : BlobStore := (removeEach fails b b.items.keys).1

/-- A call; `renamed` says whether the finished download could be renamed. -/
inductive Call (ρ : Type*)
  | commit (now : Int) (sha : Sha) (size : Nat) (kind : Option String) (renamed : Bool)
  | remove (sha : Sha)
  | touch (now : Int) (sha : Sha)
  | makeRoom (fails : Sha → Bool) (bytes limit : Int) (rank : Sha → Item → Option ρ)
  | clear (fails : Sha → Bool)

section

variable {ρ : Type*} [LinearOrder ρ] {b : BlobStore}

def call (b : BlobStore) : Call ρ → BlobStore
  | .commit now sha size kind renamed =>
      if renamed then BlobStore.commit b now sha size kind else b
  | .remove sha => BlobStore.remove b sha
  | .touch now sha => BlobStore.touch b now sha
  | .makeRoom fails bytes limit rank => (makeRoomOn fails b bytes limit rank).1
  | .clear fails => BlobStore.clear fails b

/-! ## The counters and the changes -/

/-- The index is accounted for, and the recorded changes agree with it. -/
structure Kept (b : BlobStore) : Prop where
  accounted : b.Accounted
  consistent : b.Consistent

theorem consistent_touch {now : Int} {sha : Sha} (h : b.Consistent) :
    (BlobStore.touch b now sha).Consistent := by
  have hsets : (BlobStore.touch b now sha).added = b.added ∧
      (BlobStore.touch b now sha).removed = b.removed := by
    unfold BlobStore.touch
    split
    · exact ⟨rfl, rfl⟩
    · exact ⟨rfl, rfl⟩
  constructor
  · intro x hx
    rw [hsets.1] at hx
    exact mem_keys_touch.2 (h.added_mem x hx)
  · intro x hx
    rw [hsets.2] at hx
    exact fun hmem => h.removed_not_mem x hx (mem_keys_touch.1 hmem)

/-- What is removed before a file cannot be deleted is a beginning of what was to be removed. -/
theorem removeEach_eq (fails : Sha → Bool) (b : BlobStore) (shas : List Sha) :
    ∃ k, (removeEach fails b shas).1 = b.removeAll (shas.take k) ∧
      ((removeEach fails b shas).2 = true → k = shas.length) := by
  induction shas generalizing b with
  | nil =>
      exact ⟨0, rfl, fun _ => rfl⟩
  | cons sha shas ih =>
      unfold removeEach
      split
      · exact ⟨1, rfl, fun h => (by cases h)⟩
      · obtain ⟨k, hk, hall⟩ := ih (BlobStore.remove b sha)
        exact ⟨k + 1, hk, fun h => congrArg (· + 1) (hall h)⟩

theorem removeEach_of_never {fails : Sha → Bool} (h : ∀ x, fails x = false) (b : BlobStore)
    (shas : List Sha) : (removeEach fails b shas).2 = true := by
  induction shas generalizing b with
  | nil =>
      rfl
  | cons sha shas ih =>
      rw [removeEach, h sha, if_neg Bool.false_ne_true]
      exact ih _

theorem Kept.removeAll (h : b.Kept) (shas : List Sha) : (b.removeAll shas).Kept := by
  induction shas generalizing b with
  | nil =>
      exact h
  | cons sha shas ih =>
      exact ih ⟨h.accounted.remove, h.consistent.remove⟩

theorem Kept.removeEach (h : b.Kept) (fails : Sha → Bool) (shas : List Sha) :
    (removeEach fails b shas).1.Kept := by
  obtain ⟨k, hk, _⟩ := removeEach_eq fails b shas
  rw [hk]
  exact h.removeAll _

theorem Kept.call (h : b.Kept) (c : Call ρ) : (b.call c).Kept := by
  cases c with
  | commit now sha size kind renamed =>
      simp only [BlobStore.call]
      split
      · exact ⟨h.accounted.commit (Int.natCast_nonneg size), h.consistent.commit⟩
      · exact h
  | remove sha =>
      exact ⟨h.accounted.remove, h.consistent.remove⟩
  | touch now sha =>
      exact ⟨h.accounted.touch, consistent_touch h.consistent⟩
  | makeRoom fails bytes limit rank =>
      simp only [BlobStore.call, makeRoomOn]
      split
      · exact h
      · exact h.removeEach fails _
  | clear fails =>
      exact h.removeEach fails _

theorem opened_kept {found : OrderedMap Sha Item} (hsize : ∀ it ∈ found.values, 0 ≤ it.size) :
    (opened found).Kept :=
  ⟨⟨rfl, hsize⟩, opened_consistent found⟩

theorem run_kept {found : OrderedMap Sha Item} (hsize : ∀ it ∈ found.values, 0 ≤ it.size)
    (calls : List (Call ρ)) : (calls.foldl call (opened found)).Kept := by
  have hrun : ∀ b : BlobStore, b.Kept → (calls.foldl call b).Kept := by
    induction calls with
    | nil =>
        exact fun b h => h
    | cons c calls ih =>
        exact fun b h => ih (b.call c) (h.call c)
  exact hrun _ (opened_kept hsize)

/-! ## Making room -/

variable {rank : Sha → Item → Option ρ} {bytes limit : Int} {fails : Sha → Bool}

/-- The blobs are in the store and may go. -/
def MayGo (b : BlobStore) (rank : Sha → Item → Option ρ) (shas : List Sha) : Prop :=
  ∀ x ∈ shas, ∃ it r, b.items.get x = some it ∧ rank x it = some r

/-- Room can be made by removing blobs that may go. -/
def CanFit (b : BlobStore) (bytes limit : Int) (rank : Sha → Item → Option ρ) : Prop :=
  ∃ shas, b.MayGo rank shas ∧ (b.removeAll shas).usedBytes + bytes ≤ limit

theorem victims_isSome_iff (h : b.Accounted) :
    (b.victims bytes limit rank).isSome = true ↔ b.CanFit bytes limit rank := by
  constructor
  · intro hsome
    obtain ⟨vs, hvs⟩ := Option.isSome_iff_exists.1 hsome
    exact ⟨vs, fun x hx => mem_victims hvs hx, victims_room hvs⟩
  · rintro ⟨shas, hmay, hroom⟩
    rw [victims_isSome h]
    -- the protected blobs are still there after that
    have hsame : (b.removeAll shas).protectedBytes rank = b.protectedBytes rank := by
      refine protectedBytes_removeAll fun x hx it hget => ?_
      obtain ⟨it', r, hget', hr⟩ := hmay x hx
      obtain rfl : it = it' := Option.some.inj (hget.symm.trans hget')
      rw [hr]
      rfl
    have hle : (b.removeAll shas).protectedBytes rank ≤ (b.removeAll shas).usedBytes :=
      protectedBytes_le (h.removeAll shas)
    omega

/-- The candidates stand in the order of their ranks, and then of their last use. -/
theorem candidates_sorted (b : BlobStore) (rank : Sha → Item → Option ρ) :
    (b.candidates rank).Pairwise fun a c => a.r < c.r ∨ (a.r = c.r ∧ a.used ≤ c.used) := by
  have hiff : ∀ a c : Candidate ρ,
      a.goesBefore c = true ↔ a.r < c.r ∨ (a.r = c.r ∧ a.used ≤ c.used) := by
    intro a c
    simp [Candidate.goesBefore]
  -- the sort needs a comparison that is total and transitive
  have htotal : Std.Total fun a c : Candidate ρ => a.goesBefore c = true := by
    refine ⟨fun a c => ?_⟩
    rw [hiff, hiff]
    rcases lt_trichotomy a.r c.r with hlt | heq | hgt
    · exact Or.inl (Or.inl hlt)
    · exact (le_total a.used c.used).imp (fun h => Or.inr ⟨heq, h⟩) fun h => Or.inr ⟨heq.symm, h⟩
    · exact Or.inr (Or.inl hgt)
  have htrans : IsTrans (Candidate ρ) fun a c => a.goesBefore c = true := by
    refine ⟨fun a c d hac hcd => ?_⟩
    rw [hiff] at hac hcd ⊢
    rcases hac with hlt | ⟨heq, hle⟩
    · rcases hcd with hlt' | ⟨heq', _⟩
      · exact Or.inl (hlt.trans hlt')
      · exact Or.inl (heq' ▸ hlt)
    · rcases hcd with hlt' | ⟨heq', hle'⟩
      · exact Or.inl (heq ▸ hlt')
      · exact Or.inr ⟨heq.trans heq', hle.trans hle'⟩
  exact (List.pairwise_insertionSort _ _).imp fun h => (hiff _ _).1 h

/-- The store without the first `k` candidates. -/
def withoutFirst (b : BlobStore) (rank : Sha → Item → Option ρ) (k : Nat) : BlobStore :=
  b.removeAll (((b.candidates rank).take k).map Candidate.sha)

theorem usedBytes_withoutFirst (b : BlobStore) (rank : Sha → Item → Option ρ) (k : Nat) :
    (b.withoutFirst rank k).usedBytes + (((b.candidates rank).take k).map Candidate.size).sum =
      b.usedBytes := by
  have hsub := List.take_sublist k (b.candidates rank)
  refine usedBytes_removeAll (candidates_nodup.sublist (hsub.map Candidate.sha)) fun c hc => ?_
  obtain ⟨it, r, hget, _, hcand⟩ := mem_candidates.1 (hsub.subset hc)
  rw [hget, candidate_size hcand]
  rfl

/-- The victims are the shortest beginning of the candidates that makes room. -/
theorem victims_eq_take {vs : List Sha} (hv : b.victims bytes limit rank = some vs) :
    ∃ k, vs = ((b.candidates rank).take k).map Candidate.sha ∧
      ∀ j < k, limit < (b.withoutFirst rank j).usedBytes + bytes := by
  unfold victims at hv
  split at hv
  · -- there is room already
    cases hv
    exact ⟨0, rfl, fun _ hj => absurd hj (Nat.not_lt_zero _)⟩
  · simp only at hv
    split at hv
    · cases hv
    · cases hv
      have htake : ∃ k, gather Candidate.size bytes (limit - b.usedBytes) (b.candidates rank) =
            (b.candidates rank).take k ∧
          ∀ j < k, ¬ bytes ≤
            limit - b.usedBytes + (((b.candidates rank).take j).map Candidate.size).sum :=
        gather_take _ _
      obtain ⟨k, hk, hmin⟩ := htake
      refine ⟨k, by rw [hk], fun j hj => ?_⟩
      have hused := usedBytes_withoutFirst b rank j
      have hshort := hmin j hj
      omega

/-- `makeRoom` returns `false` exactly if there cannot be room, and changes nothing then. -/
theorem makeRoomOn_false (h : b.Accounted) :
    ((makeRoomOn fails b bytes limit rank).2 = some false ↔ ¬ b.CanFit bytes limit rank) ∧
      ((makeRoomOn fails b bytes limit rank).2 = some false →
        (makeRoomOn fails b bytes limit rank).1 = b) := by
  rw [← victims_isSome_iff h]
  unfold makeRoomOn
  split
  · next hnone => simp [hnone]
  · next vs hvs =>
      simp only [hvs, Option.isSome_some, not_true_eq_false, iff_false]
      split
      · exact ⟨fun heq => (by cases heq), fun heq => (by cases heq)⟩
      · exact ⟨fun heq => (by cases heq), fun heq => (by cases heq)⟩

theorem makeRoomOn_true (h : b.Accounted) (hnever : ∀ x, fails x = false) :
    (makeRoomOn fails b bytes limit rank).2 = some true ↔ b.CanFit bytes limit rank := by
  rw [← victims_isSome_iff h]
  unfold makeRoomOn
  split
  · next hnone => simp [hnone]
  · next vs hvs => simp [hvs, removeEach_of_never hnever]

/-- After `true` the shortest beginning of the candidates that makes room is gone. -/
theorem makeRoomOn_removed (h : (makeRoomOn fails b bytes limit rank).2 = some true) :
    ∃ k, (makeRoomOn fails b bytes limit rank).1 = b.withoutFirst rank k ∧
      (b.withoutFirst rank k).usedBytes + bytes ≤ limit ∧
      ∀ j < k, limit < (b.withoutFirst rank j).usedBytes + bytes := by
  unfold makeRoomOn at h ⊢
  split at h
  · cases h
  · next vs hvs =>
      obtain ⟨k, hk, hmin⟩ := victims_eq_take hvs
      obtain ⟨n, hn, hall⟩ := removeEach_eq fails b vs
      -- it has returned, so every file was deleted
      have hdone : (removeEach fails b vs).2 = true := by
        by_contra hnot
        simp only [hnot] at h
        cases h
      rw [hall hdone, List.take_length] at hn
      have heq : b.removeAll vs = b.withoutFirst rank k := by rw [hk, withoutFirst]
      exact ⟨k, hn.trans heq, heq ▸ victims_room hvs, hmin⟩

/-- A blob without a rank stays, whatever `makeRoom` comes to. -/
theorem get_makeRoomOn {x : Sha} {it : Item} (hget : b.items.get x = some it)
    (hrank : rank x it = none) :
    (makeRoomOn fails b bytes limit rank).1.items.get x = some it := by
  unfold makeRoomOn
  split
  · exact hget
  · next vs hvs =>
      obtain ⟨k, hk, _⟩ := removeEach_eq fails b vs
      have hnot : x ∉ vs.take k := by
        intro hmem
        obtain ⟨it', r, hget', hr⟩ := mem_victims hvs (List.mem_of_mem_take hmem)
        obtain rfl : it = it' := Option.some.inj (hget.symm.trans hget')
        rw [hrank] at hr
        cases hr
      change (removeEach fails b vs).1.items.get x = _
      rw [hk, get_removeAll, if_neg hnot, hget]

/-- The books of a store hold after any calls, and its next `makeRoom` removes exactly as much as it
must, in the order of the ranks. -/
theorem books_kept (found : OrderedMap Sha Item) (hsize : ∀ it ∈ found.values, 0 ≤ it.size)
    (calls : List (Call ρ)) :
    let b := calls.foldl call (opened found)
    b.usedBytes = b.items.sumOf Item.size ∧
      (∀ x ∈ OrderedMap.keys b.added, x ∉ OrderedMap.keys b.removed) ∧
      (∀ x ∈ OrderedMap.keys b.added, x ∈ b.items.keys) ∧
      (∀ x ∈ OrderedMap.keys b.removed, x ∉ b.items.keys) ∧
      ∀ (fails : Sha → Bool) (bytes limit : Int) (rank : Sha → Item → Option ρ),
        let r := makeRoomOn fails b bytes limit rank
        ((∀ x, fails x = false) → (r.2 = some true ↔ b.CanFit bytes limit rank)) ∧
          (r.2 = some false ↔ ¬ b.CanFit bytes limit rank) ∧
          (r.2 = some false → r.1 = b) ∧
          (r.2 = some true →
            ∃ k, r.1 = b.withoutFirst rank k ∧
              (b.withoutFirst rank k).usedBytes + bytes ≤ limit ∧
              ∀ j < k, limit < (b.withoutFirst rank j).usedBytes + bytes) ∧
          ((b.candidates rank).Pairwise fun a c => a.r < c.r ∨ (a.r = c.r ∧ a.used ≤ c.used)) ∧
          ((b.candidates rank).map Candidate.sha).Nodup ∧
          (∀ x, x ∈ (b.candidates rank).map Candidate.sha ↔ b.MayGo rank [x]) ∧
          ∀ x it, b.items.get x = some it → rank x it = none → r.1.items.get x = some it := by
  intro b
  have hb : b.Kept := run_kept hsize calls
  refine ⟨hb.accounted.used, fun x => hb.consistent.disjoint, hb.consistent.added_mem,
    hb.consistent.removed_not_mem, ?_⟩
  intro fails bytes limit rank r
  have hno : (r.2 = some false ↔ ¬ b.CanFit bytes limit rank) ∧ (r.2 = some false → r.1 = b) :=
    makeRoomOn_false hb.accounted
  obtain ⟨hfalse, hsame⟩ := hno
  refine ⟨fun hnever => makeRoomOn_true hb.accounted hnever, hfalse, hsame, makeRoomOn_removed,
    candidates_sorted b rank, candidates_nodup, ?_, fun x it => get_makeRoomOn⟩
  -- the candidates are the blobs with a rank
  intro x
  constructor
  · intro hx y hy
    obtain ⟨c, hc, rfl⟩ := List.mem_map.1 hx
    obtain ⟨it, rk, hget, hr, _⟩ := mem_candidates.1 hc
    exact ⟨it, rk, List.mem_singleton.1 hy ▸ hget, List.mem_singleton.1 hy ▸ hr⟩
  · intro hmay
    obtain ⟨it, rk, hget, hr⟩ := hmay x (List.mem_singleton_self x)
    have hcand : ∃ c, candidate rank (x, it) = some c := by
      rw [candidate, hr]
      exact ⟨_, rfl⟩
    obtain ⟨c, hc⟩ := hcand
    have hsha := candidate_sha hc
    refine List.mem_map.2 ⟨c, mem_candidates.2 ⟨it, rk, ?_, ?_, ?_⟩, hsha⟩
    · rw [hsha]
      exact hget
    · rw [hsha]
      exact hr
    · rw [hsha]
      exact hc

end

/-- A blob that was found, and one that is fetched and handed out. -/
def twoBlobs : List (Call ℚ) :=
  [.commit 20 "bb" 6 none true, .touch 30 "bb",
    .makeRoom (fun _ => false) 5 12 fun _ _ => some 0]

theorem books_kept_twoBlobs :
    let b := twoBlobs.foldl call (opened (OrderedMap.empty.set "aa" ⟨4, none, 10, 0⟩))
    b.items.keys = ["bb"] ∧ b.usedBytes = b.items.sumOf Item.size :=
  ⟨by decide +kernel,
    (books_kept (OrderedMap.empty.set "aa" ⟨4, none, 10, 0⟩) (by decide) twoBlobs).1⟩

end BlobStore

end Cache
end GateControl
