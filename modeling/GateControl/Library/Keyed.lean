import Mathlib.Algebra.GroupWithZero.Nat
import Mathlib.Data.List.Nodup

/-!
# Keyed — lists whose entries have keys

An entry of a list is put behind the others, replaced, or taken out.  When it is replaced by one
with the same key, or taken out, the entries with other keys stay; where the keys are distinct, the
entry at the place is the only one with its key.
-/

namespace GateControl
namespace Library

universe u v

variable {α : Type u} {κ : Type v} {f : α → κ} {as : List α} {i : Nat} {a b q : α}

/-! ## Places -/

/-- What stands in a list that has grown by one entry. -/
theorem getElem?_concat_iff :
    (as ++ [a])[i]? = some b ↔ as[i]? = some b ∨ (i = as.length ∧ a = b) := by
  rcases Nat.lt_trichotomy i as.length with hlt | rfl | hlt
  · rw [List.getElem?_append_left hlt]
    exact ⟨.inl, fun h => h.resolve_right fun h => Nat.ne_of_lt hlt h.1⟩
  · simp
  · rw [List.getElem?_eq_none (by simp; omega), List.getElem?_eq_none (Nat.le_of_lt hlt)]
    constructor
    · intro h
      cases h
    · rintro (h | ⟨rfl, _⟩)
      · cases h
      · exact absurd hlt (Nat.lt_irrefl _)

/-- What stands in a list one entry of which has been replaced. -/
theorem getElem?_set_cases {k : Nat} (h : (as.set i a)[k]? = some b) :
    (k = i ∧ b = a) ∨ (k ≠ i ∧ as[k]? = some b) := by
  by_cases hk : k = i
  · subst hk
    have hlt : k < (as.set k a).length := (List.getElem?_eq_some_iff.1 h).1
    rw [List.length_set] at hlt
    rw [List.getElem?_set_self hlt] at h
    exact Or.inl ⟨rfl, (Option.some.inj h).symm⟩
  · rw [List.getElem?_set_ne (Ne.symm hk)] at h
    exact Or.inr ⟨hk, h⟩

/-! ## Keys -/

theorem map_key_set (ha : as[i]? = some a) (hb : f b = f a) :
    (as.set i b).map f = as.map f := by
  rw [List.map_set, hb]
  apply List.ext_getElem?
  intro k
  rw [List.getElem?_set]
  split
  · next hk =>
      subst hk
      obtain ⟨hlt, hget⟩ := List.getElem?_eq_some_iff.1 ha
      simp [hlt, hget]
  · rfl

theorem mem_set_of_key_ne (ha : as[i]? = some a) (hb : f b = f a) (hq : f q ≠ f a) :
    q ∈ as.set i b ↔ q ∈ as := by
  constructor
  · intro hmem
    rcases List.mem_or_eq_of_mem_set hmem with hmem | rfl
    · exact hmem
    · exact absurd hb hq
  · intro hmem
    rcases List.mem_iff_getElem?.1 hmem with ⟨k, hk⟩
    refine List.mem_iff_getElem?.2 ⟨k, ?_⟩
    rw [List.getElem?_set_ne]
    · exact hk
    · rintro rfl
      rw [ha] at hk
      exact hq (congrArg f (Option.some.inj hk)).symm

theorem mem_eraseIdx_of_key_ne (ha : as[i]? = some a) (hq : f q ≠ f a) :
    q ∈ as.eraseIdx i ↔ q ∈ as := by
  constructor
  · exact List.mem_of_mem_eraseIdx
  · intro hmem
    rcases List.mem_iff_getElem?.1 hmem with ⟨k, hk⟩
    refine List.mem_eraseIdx_iff_getElem?.2 ⟨k, ?_, hk⟩
    rintro rfl
    rw [ha] at hk
    exact hq (congrArg f (Option.some.inj hk)).symm

/-- Two places with one key are the same place. -/
theorem index_eq_of_key (hd : (as.map f).Nodup) (ha : as[i]? = some a) {k : Nat}
    (hq : as[k]? = some q) (hkey : f q = f a) : i = k := by
  have hi : (as.map f)[i]? = some (f a) := by rw [List.getElem?_map, ha]; rfl
  have hk : (as.map f)[k]? = some (f a) := by
    rw [List.getElem?_map, hq]
    exact congrArg some hkey
  exact (List.getElem?_inj (List.getElem?_eq_some_iff.1 hi).1 hd).1 (hi.trans hk.symm)

theorem eq_of_mem_set_of_key (hd : (as.map f).Nodup) (ha : as[i]? = some a)
    (hmem : q ∈ as.set i b) (hkey : f q = f a) : q = b := by
  rcases List.mem_iff_getElem?.1 hmem with ⟨k, hk⟩
  rw [List.getElem?_set] at hk
  split at hk
  · split at hk
    · exact (Option.some.inj hk).symm
    · cases hk
  · next hne => exact absurd (index_eq_of_key hd ha hk hkey) hne

/-- Where an entry is replaced, the new one is counted instead. -/
theorem countP_replace (p : α → Bool) (ha : as[i]? = some a) (b : α) :
    (as.set i b).countP p + (if p a then 1 else 0) = as.countP p + if p b then 1 else 0 := by
  induction as generalizing i with
  | nil =>
      cases ha
  | cons q as ih =>
      cases i with
      | zero =>
          cases ha
          rw [List.set_cons_zero, List.countP_cons, List.countP_cons]
          omega
      | succ i =>
          have hrest := ih (i := i) ha
          rw [List.set_cons_succ, List.countP_cons, List.countP_cons]
          omega

theorem sum_replace (g : α → Nat) (ha : as[i]? = some a) (b : α) :
    ((as.set i b).map g).sum + g a = (as.map g).sum + g b := by
  induction as generalizing i with
  | nil =>
      cases ha
  | cons q as ih =>
      cases i with
      | zero =>
          cases ha
          rw [List.set_cons_zero, List.map_cons, List.map_cons, List.sum_cons, List.sum_cons]
          omega
      | succ i =>
          have hrest := ih (i := i) ha
          rw [List.set_cons_succ, List.map_cons, List.map_cons, List.sum_cons, List.sum_cons]
          omega

theorem map_modify_of {g : α → α} (ha : as[i]? = some a) :
    (as.modify i g).map f = (as.map f).set i (f (g a)) := by
  apply List.ext_getElem?
  intro k
  rw [List.getElem?_map, List.getElem?_set, List.length_map]
  by_cases hk : i = k
  · subst hk
    rw [List.getElem?_modify_eq, if_pos rfl, if_pos (List.getElem?_eq_some_iff.1 ha).1, ha]
    rfl
  · rw [List.getElem?_modify_ne g as hk, if_neg hk, List.getElem?_map]

theorem key_ne_of_mem_eraseIdx (hd : (as.map f).Nodup) (ha : as[i]? = some a)
    (hmem : q ∈ as.eraseIdx i) : f q ≠ f a := by
  intro hkey
  rcases List.mem_eraseIdx_iff_getElem?.1 hmem with ⟨k, hne, hk⟩
  exact hne (index_eq_of_key hd ha hk hkey).symm

end Library
end GateControl
