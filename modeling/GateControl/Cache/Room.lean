import Mathlib.Algebra.Order.Group.Int
import Mathlib.Data.List.Sort
import GateControl.Cache.Store
import GateControl.Library.Gather

/-!
# Room — making room in the blob store

`makeRoom` removes blobs until a new one fits below a limit.  Which blobs may go and in what order
is up to its caller, who gives each of them a rank or protects it; among blobs of the same rank, the
one that has not been used for longest goes first.
-/

namespace GateControl
namespace Cache

open Library

namespace BlobStore

/-- A blob has been handed out. -/
def touch (b : BlobStore) (now : Int) (sha : Sha) : BlobStore :=
  match b.items.get sha with
  | none => b
  | some e => { b with items := b.items.set sha { e with lastUsedAt := now } }

def removeAll (b : BlobStore) (shas : List Sha) : BlobStore := shas.foldl remove b

/-- A blob that may be removed. -/
structure Candidate (ρ : Type*) where
  sha : Sha
  r : ρ
  used : Int
  size : Int

section

variable {ρ : Type*}

def Candidate.goesBefore [LinearOrder ρ] (a c : Candidate ρ) : Bool :=
  a.r < c.r || (a.r = c.r && a.used ≤ c.used)

def candidate (rank : Sha → Item → Option ρ) (e : Sha × Item) : Option (Candidate ρ) :=
  (rank e.1 e.2).map fun r =>
    ⟨e.1, r, if e.2.lastUsedAt ≠ 0 then e.2.lastUsedAt else e.2.storedAt, e.2.size⟩

def candidates [LinearOrder ρ] (b : BlobStore) (rank : Sha → Item → Option ρ) :
    List (Candidate ρ) :=
  (b.items.entries.filterMap (candidate rank)).insertionSort fun a c => a.goesBefore c

/-- The blobs that `makeRoom` removes; `none` if there cannot be room enough. -/
def victims [LinearOrder ρ] (b : BlobStore) (bytes limit : Int) (rank : Sha → Item → Option ρ) :
    Option (List Sha) :=
  if b.usedBytes + bytes ≤ limit then some []
  else
    let vs := gather Candidate.size bytes (limit - b.usedBytes) (b.candidates rank)
    if limit - b.usedBytes + (vs.map Candidate.size).sum < bytes then none
    else some (vs.map Candidate.sha)

def makeRoom [LinearOrder ρ] (b : BlobStore) (bytes limit : Int) (rank : Sha → Item → Option ρ) :
    Option BlobStore :=
  (b.victims bytes limit rank).map b.removeAll

/-- How much the protected blobs take. -/
def protectedBytes (b : BlobStore) (rank : Sha → Item → Option ρ) : Int :=
  b.items.sumBy fun sha it => if (rank sha it).isNone then it.size else 0

end

/-- The bytes are those of the blobs, and no blob has less than none. -/
structure Accounted (b : BlobStore) : Prop where
  used : b.usedBytes = b.items.sumOf Item.size
  nonneg : ∀ it ∈ b.items.values, 0 ≤ it.size

variable {b : BlobStore} {now : Int} {sha x : Sha} {size : Int} {kind : Option String}

/-! ## Removals -/

theorem items_remove : (b.remove sha).items = b.items.delete sha := by
  by_cases hm : b.items.has sha = true
  · rcases Option.isSome_iff_exists.1 hm with ⟨v, hv⟩
    simp [remove, unsetItem, hm, hv]
  · have hnot : sha ∉ b.items.keys := fun h => hm (b.items.has_iff.2 h)
    rw [remove_of_not_mem b hnot, OrderedMap.delete_of_not_mem hnot]

theorem usedBytes_remove :
    (b.remove sha).usedBytes + ((b.items.get sha).map Item.size).getD 0 = b.usedBytes := by
  cases hv : b.items.get sha with
  | none =>
      simp [remove, OrderedMap.has, hv]
  | some v =>
      simp [remove, unsetItem, OrderedMap.has, hv]

theorem get_removeAll {shas : List Sha} :
    (b.removeAll shas).items.get x = if x ∈ shas then none else b.items.get x := by
  induction shas generalizing b with
  | nil =>
      rfl
  | cons sha shas ih =>
      change ((b.remove sha).removeAll shas).items.get x = _
      rw [ih, items_remove, OrderedMap.get_delete]
      by_cases hx : x = sha
      · simp [hx]
      · simp [hx]

theorem Accounted.remove (h : b.Accounted) : (b.remove sha).Accounted := by
  constructor
  · have hused : (b.remove sha).usedBytes + ((b.items.get sha).map Item.size).getD 0 =
        b.usedBytes := usedBytes_remove
    have hsum := b.items.sumOf_delete Item.size sha
    rw [items_remove]
    rw [h.used] at hused
    omega
  · rw [items_remove]
    exact fun it hit => h.nonneg it (OrderedMap.mem_values_delete hit)

theorem Accounted.removeAll (h : b.Accounted) (shas : List Sha) : (b.removeAll shas).Accounted := by
  induction shas generalizing b with
  | nil =>
      exact h
  | cons sha shas ih =>
      exact ih h.remove

/-! ## Commits and touches -/

theorem usedBytes_commit (hnew : sha ∉ b.items.keys) :
    (b.commit now sha size kind).usedBytes = b.usedBytes + size := by
  have hget : b.items.get sha = none := by
    cases hv : b.items.get sha with
    | none => rfl
    | some v => exact absurd (b.items.mem_keys_iff.2 ⟨v, hv⟩) hnew
  simp [commit, setItem, hget]

theorem usedBytes_commit_le (h : b.Accounted) :
    (b.commit now sha size kind).usedBytes ≤ b.usedBytes + size := by
  cases hv : b.items.get sha with
  | none => simp [commit, setItem, hv]
  | some v =>
      have hnonneg := h.nonneg v (b.items.mem_values_iff.2 ⟨sha, hv⟩)
      simp only [commit, setItem, hv]
      omega

theorem Accounted.commit (h : b.Accounted) (hsize : 0 ≤ size) :
    (b.commit now sha size kind).Accounted := by
  constructor
  · have hsum := b.items.sumOf_set Item.size sha ⟨size, kind, now, 0⟩
    cases hv : b.items.get sha with
    | none =>
        rw [hv] at hsum
        simp only [BlobStore.commit, setItem, hv, h.used]
        change _ + 0 = _ + size at hsum
        omega
    | some v =>
        rw [hv] at hsum
        simp only [BlobStore.commit, setItem, hv, h.used]
        change _ + v.size = _ + size at hsum
        omega
  · intro it hit
    rcases OrderedMap.mem_values_set hit with rfl | hold
    · exact hsize
    · exact h.nonneg it hold

/-- Handing a blob out changes nothing but the time. -/
theorem get_touch (x : Sha) :
    ((b.touch now sha).items.get x).map Item.size = (b.items.get x).map Item.size := by
  unfold touch
  cases hv : b.items.get sha with
  | none => rfl
  | some v =>
      simp only
      rw [OrderedMap.get_set]
      split
      · next hx =>
          rw [hx, hv]
          rfl
      · rfl

theorem mem_keys_touch : x ∈ (b.touch now sha).items.keys ↔ x ∈ b.items.keys := by
  have hsize : ((b.touch now sha).items.get x).map Item.size = (b.items.get x).map Item.size :=
    get_touch x
  rw [OrderedMap.mem_keys_iff, OrderedMap.mem_keys_iff, ← Option.isSome_iff_exists,
    ← Option.isSome_iff_exists, ← Option.isSome_map (f := Item.size), hsize, Option.isSome_map]

theorem usedBytes_touch : (b.touch now sha).usedBytes = b.usedBytes := by
  unfold touch
  cases b.items.get sha with
  | none => rfl
  | some v => rfl

theorem sumBy_touch (g : Sha → Int → Int) :
    (b.touch now sha).items.sumBy (fun k it => g k it.size) =
      b.items.sumBy fun k it => g k it.size := by
  unfold touch
  cases hv : b.items.get sha with
  | none => rfl
  | some v =>
      have hset := b.items.sumBy_set (fun k it => g k it.size) sha { v with lastUsedAt := now }
      rw [hv] at hset
      exact add_right_cancel hset

theorem Accounted.touch (h : b.Accounted) : (b.touch now sha).Accounted := by
  constructor
  · rw [usedBytes_touch, h.used, OrderedMap.sumOf_eq_sumBy, OrderedMap.sumOf_eq_sumBy]
    exact (sumBy_touch fun _ n => n).symm
  · intro it hit
    rcases (OrderedMap.mem_values_iff _).1 hit with ⟨k, hk⟩
    have hmap : ((b.touch now sha).items.get k).map Item.size = (b.items.get k).map Item.size :=
      get_touch k
    rw [hk] at hmap
    rcases Option.map_eq_some_iff.1 hmap.symm with ⟨old, hold, hsize⟩
    rw [← hsize]
    exact h.nonneg old (b.items.mem_values_iff.2 ⟨k, hold⟩)

/-! ## Making room -/

section

variable {ρ : Type*} {rank : Sha → Item → Option ρ} {bytes limit : Int}
  {vs : List Sha}

theorem candidate_size {it : Item} {c : Candidate ρ} (h : candidate rank (sha, it) = some c) :
    c.size = it.size := by
  rcases Option.map_eq_some_iff.1 h with ⟨r, _, rfl⟩
  rfl

theorem candidate_sha {e : Sha × Item} {c : Candidate ρ} (h : candidate rank e = some c) :
    c.sha = e.1 := by
  rcases Option.map_eq_some_iff.1 h with ⟨r, _, rfl⟩
  rfl

theorem protectedBytes_nonneg (h : b.Accounted) : 0 ≤ b.protectedBytes rank := by
  refine List.sum_nonneg fun n hn => ?_
  rcases List.mem_map.1 hn with ⟨e, he, rfl⟩
  simp only
  split
  · exact h.nonneg e.2 (List.mem_map_of_mem he)
  · exact le_rfl

/-- Removing candidates gives back what they take. -/
theorem usedBytes_removeAll {cs : List (Candidate ρ)} (hn : (cs.map Candidate.sha).Nodup)
    (hget : ∀ c ∈ cs, (b.items.get c.sha).map Item.size = some c.size) :
    (b.removeAll (cs.map Candidate.sha)).usedBytes + (cs.map Candidate.size).sum =
      b.usedBytes := by
  induction cs generalizing b with
  | nil => exact add_zero _
  | cons c cs ih =>
      obtain ⟨hnot, hn'⟩ := List.nodup_cons.1 hn
      have hone : (b.remove c.sha).usedBytes + ((b.items.get c.sha).map Item.size).getD 0 =
          b.usedBytes := usedBytes_remove
      rw [hget c List.mem_cons_self, Option.getD_some] at hone
      have hrest : ∀ d ∈ cs, ((b.remove c.sha).items.get d.sha).map Item.size = some d.size := by
        intro d hd
        have hne : d.sha ≠ c.sha := fun heq => hnot (heq ▸ List.mem_map_of_mem hd)
        rw [items_remove, OrderedMap.get_delete, if_neg hne]
        exact hget d (List.mem_cons_of_mem c hd)
      have hih := ih hn' hrest
      change ((b.remove c.sha).removeAll (cs.map Candidate.sha)).usedBytes + _ = _
      rw [List.map_cons, List.sum_cons]
      omega

/-- Removing blobs that may go leaves what the protected ones take. -/
theorem protectedBytes_removeAll {shas : List Sha}
    (h : ∀ x ∈ shas, ∀ it, b.items.get x = some it → (rank x it).isSome = true) :
    (b.removeAll shas).protectedBytes rank = b.protectedBytes rank := by
  induction shas generalizing b with
  | nil => rfl
  | cons sha shas ih =>
      change ((b.remove sha).removeAll shas).protectedBytes rank = _
      have hone : (b.remove sha).protectedBytes rank = b.protectedBytes rank := by
        have hdelete := b.items.sumBy_delete
          (fun sha it => if (rank sha it).isNone then it.size else 0) sha
        rw [protectedBytes, items_remove, protectedBytes, ← hdelete]
        cases hv : b.items.get sha with
        | none => exact (add_zero _).symm
        | some v =>
            rcases Option.isSome_iff_exists.1 (h sha List.mem_cons_self v hv) with ⟨r, hr⟩
            simp [hr]
      rw [ih, hone]
      intro x hx it hget
      rw [items_remove] at hget
      exact h x (List.mem_cons_of_mem sha hx) it (OrderedMap.get_delete_cases hget).2

variable [LinearOrder ρ]

theorem mem_candidates {c : Candidate ρ} : c ∈ b.candidates rank ↔
    ∃ it r, b.items.get c.sha = some it ∧ rank c.sha it = some r ∧
      candidate rank (c.sha, it) = some c := by
  rw [candidates, List.mem_insertionSort, List.mem_filterMap]
  constructor
  · rintro ⟨⟨sha, it⟩, he, hc⟩
    rcases Option.map_eq_some_iff.1 hc with ⟨r, hr, rfl⟩
    exact ⟨it, r, b.items.get_eq_some_iff.2 he, hr, hc⟩
  · rintro ⟨it, r, hget, _, hc⟩
    exact ⟨(c.sha, it), b.items.get_eq_some_iff.1 hget, hc⟩

/-- The blobs that may go and those that are protected are all the blobs. -/
theorem sum_candidates : ((b.candidates rank).map Candidate.size).sum + b.protectedBytes rank =
    b.items.sumOf Item.size := by
  have hperm := ((List.perm_insertionSort (fun a c => a.goesBefore c = true)
    (b.items.entries.filterMap (candidate rank))).map Candidate.size).sum_eq
  rw [candidates, hperm, protectedBytes, OrderedMap.sumOf_eq_sumBy, OrderedMap.sumBy,
    OrderedMap.sumBy]
  induction b.items.entries with
  | nil => rfl
  | cons e es ih =>
      cases hr : rank e.1 e.2 with
      | none =>
          have hc : candidate rank e = none := by rw [candidate, hr, Option.map_none]
          simp only [List.filterMap_cons, hc, List.map_cons, List.sum_cons, hr, Option.isNone_none,
            if_true]
          omega
      | some r =>
          have hc : ∃ c, candidate rank e = some c ∧ c.size = e.2.size :=
            ⟨_, by rw [candidate, hr, Option.map_some], rfl⟩
          rcases hc with ⟨c, hc, hsize⟩
          simp only [List.filterMap_cons, hc, List.map_cons, List.sum_cons, hr, Option.isNone_some,
            Bool.false_eq_true, if_false]
          omega

theorem candidates_nonneg (h : b.Accounted) : ∀ c ∈ b.candidates rank, 0 ≤ c.size := by
  intro c hc
  rcases mem_candidates.1 hc with ⟨it, r, hget, _, hcand⟩
  rw [candidate_size hcand]
  exact h.nonneg it (b.items.mem_values_iff.2 ⟨c.sha, hget⟩)

theorem protectedBytes_le (h : b.Accounted) : b.protectedBytes rank ≤ b.usedBytes := by
  have hsum : ((b.candidates rank).map Candidate.size).sum + b.protectedBytes rank =
      b.items.sumOf Item.size := sum_candidates
  have hnonneg : 0 ≤ ((b.candidates rank).map Candidate.size).sum := by
    refine List.sum_nonneg fun n hn => ?_
    rcases List.mem_map.1 hn with ⟨c, hc, rfl⟩
    exact candidates_nonneg h c hc
  rw [h.used]
  omega

/-- There can be room exactly if there is room next to the protected blobs. -/
theorem victims_isSome (h : b.Accounted) :
    (b.victims bytes limit rank).isSome = true ↔ b.protectedBytes rank + bytes ≤ limit := by
  have hle : b.protectedBytes rank ≤ b.usedBytes := protectedBytes_le h
  have hsum : ((b.candidates rank).map Candidate.size).sum + b.protectedBytes rank =
      b.items.sumOf Item.size := sum_candidates
  rw [← h.used] at hsum
  unfold victims
  split
  · exact iff_of_true rfl (by omega)
  · have henough : bytes ≤ limit - b.usedBytes + ((gather Candidate.size bytes
          (limit - b.usedBytes) (b.candidates rank)).map Candidate.size).sum ↔
        bytes ≤ limit - b.usedBytes + ((b.candidates rank).map Candidate.size).sum :=
      gather_enough_iff _ (candidates_nonneg h)
    simp only
    split
    · next hlt =>
        refine iff_of_false Bool.false_ne_true ?_
        have hno := mt henough.2 (not_le.2 hlt)
        omega
    · next hnlt =>
        refine iff_of_true rfl ?_
        have hall := henough.1 (not_lt.1 hnlt)
        omega

/-- The victims are some of the candidates, and they make room. -/
theorem victims_spec (hv : b.victims bytes limit rank = some vs) :
    ∃ cs : List (Candidate ρ), vs = cs.map Candidate.sha ∧ cs.Sublist (b.candidates rank) ∧
      b.usedBytes + bytes ≤ limit + (cs.map Candidate.size).sum := by
  unfold victims at hv
  split at hv
  · cases hv
    exact ⟨[], rfl, List.nil_sublist _, by simpa⟩
  · simp only at hv
    split at hv
    · cases hv
    · next hnlt =>
        cases hv
        exact ⟨_, rfl, (gather_front _ _).sublist, by omega⟩

theorem candidates_nodup : ((b.candidates rank).map Candidate.sha).Nodup := by
  have hperm := (List.perm_insertionSort (fun a c => a.goesBefore c = true)
    (b.items.entries.filterMap (candidate rank))).map Candidate.sha
  rw [candidates, hperm.nodup_iff]
  have hsub : ∀ es : List (Sha × Item),
      ((es.filterMap (candidate rank)).map Candidate.sha).Sublist (es.map Prod.fst) := by
    intro es
    induction es with
    | nil => exact List.Sublist.refl _
    | cons e es ih =>
        cases hc : candidate rank e with
        | none =>
            rw [List.filterMap_cons, hc]
            exact ih.cons _
        | some c =>
            rw [List.filterMap_cons, hc, List.map_cons, List.map_cons, candidate_sha hc]
            exact ih.cons_cons _
  exact b.items.nodup.sublist (hsub _)

/-- A victim is in the store and may go. -/
theorem mem_victims (hv : b.victims bytes limit rank = some vs) (hx : x ∈ vs) :
    ∃ it r, b.items.get x = some it ∧ rank x it = some r := by
  rcases victims_spec hv with ⟨cs, rfl, hsub, _⟩
  rcases List.mem_map.1 hx with ⟨c, hc, rfl⟩
  rcases mem_candidates.1 (hsub.subset hc) with ⟨it, r, hget, hr, _⟩
  exact ⟨it, r, hget, hr⟩

/-- Without the victims there is room. -/
theorem victims_room (hv : b.victims bytes limit rank = some vs) :
    (b.removeAll vs).usedBytes + bytes ≤ limit := by
  rcases victims_spec hv with ⟨cs, rfl, hsub, hle⟩
  have hgone : (b.removeAll (cs.map Candidate.sha)).usedBytes + (cs.map Candidate.size).sum =
      b.usedBytes := by
    refine usedBytes_removeAll (candidates_nodup.sublist (hsub.map Candidate.sha)) fun c hc => ?_
    rcases mem_candidates.1 (hsub.subset hc) with ⟨it, r, hget, _, hcand⟩
    rw [hget, candidate_size hcand]
    rfl
  omega

end

end BlobStore

end Cache
end GateControl
