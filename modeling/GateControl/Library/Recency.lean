import GateControl.Library.OrderedMap

/-!
# Recency — keys in the order of their last use

A history of uses orders the keys that occur in it by their last use.  A row of keys that is kept in
this order stays in it when a key is used and put to the end, and when keys are taken out; what
stands at its front was not used for the longest time.  A map puts a key to the end when its entry
is deleted and set again.
-/

namespace GateControl
namespace Library

universe u

variable {κ : Type u}

/-- The last use of `a` comes before a use of `b`. -/
def UsedBefore (uses : List κ) (a b : κ) : Prop :=
  ∃ pre post, uses = pre ++ a :: post ∧ a ∉ post ∧ b ∈ post

/-- Keys that were used, in the order of their last uses. -/
structure InOrder (uses keys : List κ) : Prop where
  used : ∀ k ∈ keys, k ∈ uses
  sorted : keys.Pairwise (UsedBefore uses)

variable {uses keys : List κ} {a b k : κ}

theorem UsedBefore.use (h : UsedBefore uses a b) (hne : a ≠ k) : UsedBefore (uses ++ [k]) a b := by
  obtain ⟨pre, post, rfl, ha, hb⟩ := h
  refine ⟨pre, post ++ [k], by simp, ?_, List.mem_append_left _ hb⟩
  simp [ha, hne]

/-- The key that is used comes behind all others. -/
theorem usedBefore_last (ha : a ∈ uses) (hne : a ≠ k) : UsedBefore (uses ++ [k]) a k := by
  induction uses with
  | nil =>
      cases ha
  | cons x uses ih =>
      by_cases hmem : a ∈ uses
      · obtain ⟨pre, post, heq, hnot, hk⟩ := ih hmem
        exact ⟨x :: pre, post, by rw [List.cons_append, heq, List.cons_append], hnot, hk⟩
      · -- the first one is the only use
        obtain rfl : a = x := (List.mem_cons.1 ha).resolve_right hmem
        refine ⟨[], uses ++ [k], rfl, ?_, by simp⟩
        simp [hmem, hne]

namespace InOrder

theorem nil (uses : List κ) : InOrder uses [] := ⟨by simp, .nil⟩

theorem sublist (h : InOrder uses keys) {keys' : List κ} (hsub : keys'.Sublist keys) :
    InOrder uses keys' :=
  ⟨fun k hk => h.used k (hsub.subset hk), h.sorted.sublist hsub⟩

/-- A key that is used goes to the end. -/
theorem use (h : InOrder uses keys) (hk : k ∉ keys) : InOrder (uses ++ [k]) (keys ++ [k]) := by
  have hne : ∀ a ∈ keys, a ≠ k := fun a ha heq => hk (heq ▸ ha)
  refine ⟨?_, ?_⟩
  · intro a ha
    rcases List.mem_append.1 ha with ha | ha
    · exact List.mem_append_left _ (h.used a ha)
    · exact List.mem_append_right _ ha
  · rw [List.pairwise_append]
    refine ⟨h.sorted.imp_of_mem fun ha _ hab => hab.use (hne _ ha), List.pairwise_singleton _ _, ?_⟩
    intro a ha b hb
    rw [List.mem_singleton.1 hb]
    exact usedBefore_last (h.used a ha) (hne a ha)

end InOrder

/-! ## An entry that is put to the end -/

namespace OrderedMap

variable {β M : Type*} [DecidableEq κ] {m : OrderedMap κ β} {v : β}

theorem entries_moved (m : OrderedMap κ β) (k : κ) (v : β) :
    ((m.delete k).set k v).entries = (m.entries.filter fun e => e.1 ≠ k) ++ [(k, v)] := by
  refine put_of_not_mem v ?_
  rw [← keys, mem_keys_delete]
  exact fun hmem => hmem.1 rfl

variable (h : m.get k = some v)

include h

theorem get_moved (j : κ) : ((m.delete k).set k v).get j = m.get j := by
  rw [get_set, get_delete]
  by_cases hj : j = k
  · rw [if_pos hj, hj, h]
  · rw [if_neg hj, if_neg hj]

theorem perm_moved : ((m.delete k).set k v).entries.Perm m.entries := by
  refine (List.perm_ext_iff_of_nodup (.of_map _ (nodup _)) (.of_map _ (nodup _))).2 fun x => ?_
  obtain ⟨j, w⟩ := x
  rw [← get_eq_some_iff, ← get_eq_some_iff, get_moved h]

theorem size_moved : ((m.delete k).set k v).size = m.size :=
  (perm_moved h).length_eq

theorem sumOf_moved [AddCommMonoid M] (f : β → M) : ((m.delete k).set k v).sumOf f = m.sumOf f :=
  (((perm_moved h).map Prod.snd).map f).sum_eq

end OrderedMap

end Library
end GateControl
