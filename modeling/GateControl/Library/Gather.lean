import Mathlib.Algebra.Order.BigOperators.Group.List

/-!
# Gather — taking from a list until there is enough

A list of things that are each worth something is gone through from the front, and the things are
taken until their worth, together with what there is already, reaches what is needed.
-/

namespace GateControl
namespace Library

variable {α M : Type*} [AddCommMonoid M] [LinearOrder M]

/-- Take from the front until `need` is reached; `n` is there already. -/
def gather (worth : α → M) (need : M) : M → List α → List α
  | _, [] => []
  | n, a :: as => if need ≤ n then [] else a :: gather worth need (n + worth a) as

variable {worth : α → M} {need : M}

theorem gather_front (n : M) (as : List α) : gather worth need n as <+: as := by
  induction as generalizing n with
  | nil =>
      exact List.prefix_rfl
  | cons a as ih =>
      rw [gather]
      split
      · exact List.nil_prefix
      · exact (List.prefix_cons_inj a).2 (ih _)

/-- There is enough in the end, or everything has been taken. -/
theorem gather_enough (n : M) (as : List α) :
    need ≤ n + ((gather worth need n as).map worth).sum ∨ gather worth need n as = as := by
  induction as generalizing n with
  | nil =>
      exact Or.inr rfl
  | cons a as ih =>
      rw [gather]
      split
      · next hle =>
          refine Or.inl ?_
          rwa [List.map_nil, List.sum_nil, add_zero]
      · rcases ih (n + worth a) with henough | hall
        · refine Or.inl ?_
          rwa [List.map_cons, List.sum_cons, ← add_assoc]
        · exact Or.inr (congrArg (a :: ·) hall)

/-- What is taken is a beginning of the list, and no shorter one is enough. -/
theorem gather_take (n : M) (as : List α) :
    ∃ k, gather worth need n as = as.take k ∧
      ∀ j < k, ¬ need ≤ n + ((as.take j).map worth).sum := by
  induction as generalizing n with
  | nil =>
      exact ⟨0, rfl, fun _ hj => absurd hj (Nat.not_lt_zero _)⟩
  | cons a as ih =>
      rw [gather]
      split
      · exact ⟨0, rfl, fun _ hj => absurd hj (Nat.not_lt_zero _)⟩
      · next hno =>
          obtain ⟨k, hk, hmin⟩ := ih (n + worth a)
          refine ⟨k + 1, by rw [hk, List.take_succ_cons], ?_⟩
          intro j hj
          cases j with
          | zero =>
              rwa [List.take_zero, List.map_nil, List.sum_nil, add_zero]
          | succ j =>
              rw [List.take_succ_cons, List.map_cons, List.sum_cons, ← add_assoc]
              exact hmin j (Nat.lt_of_succ_lt_succ hj)

/-- Taking until there is enough succeeds exactly where taking everything would. -/
theorem gather_enough_iff [IsOrderedAddMonoid M] (n : M) {as : List α}
    (h : ∀ a ∈ as, 0 ≤ worth a) :
    need ≤ n + ((gather worth need n as).map worth).sum ↔ need ≤ n + (as.map worth).sum := by
  constructor
  · intro hle
    rcases gather_front n as with ⟨rest, hrest⟩
    have hnonneg : 0 ≤ (rest.map worth).sum := by
      refine List.sum_nonneg fun x hx => ?_
      rcases List.mem_map.1 hx with ⟨a, ha, rfl⟩
      exact h a (hrest ▸ List.mem_append_right _ ha)
    calc
      need ≤ n + ((gather worth need n as).map worth).sum := hle
      _ ≤ n + ((gather worth need n as).map worth).sum + (rest.map worth).sum :=
          le_add_of_nonneg_right hnonneg
      _ = n + (as.map worth).sum := by
          rw [add_assoc, ← List.sum_append, ← List.map_append, hrest]
  · intro hle
    rcases gather_enough n as with henough | hall
    · exact henough
    · rwa [hall]

end Library
end GateControl
