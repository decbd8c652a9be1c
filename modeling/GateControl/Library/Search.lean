import Mathlib.Data.List.Basic

/-!
# Search — the first occurrence of a pattern

`cut pattern s` is what `indexOf` is mostly used for: the part of a list in front of the first
occurrence of a pattern, and the part behind it.
-/

namespace GateControl
namespace Library

variable {α : Type*} [DecidableEq α]

/-- What stands in front of the first occurrence of a pattern, and behind it. -/
def cut (pattern : List α) : List α → Option (List α × List α)
  | [] => if pattern = [] then some ([], []) else none
  | c :: s =>
      if pattern.isPrefixOf (c :: s) then some ([], (c :: s).drop pattern.length)
      else (cut pattern s).map fun t => (c :: t.1, t.2)

/-- Nothing is lost. -/
theorem eq_of_cut {pattern s before behind : List α} (h : cut pattern s = some (before, behind)) :
    s = before ++ (pattern ++ behind) := by
  induction s generalizing before with
  | nil =>
      rw [cut] at h
      split at h
      · rename_i hnil
        cases h
        rw [hnil]
        rfl
      · exact absurd h nofun
  | cons c s ih =>
      rw [cut] at h
      split at h
      · rename_i hpre
        obtain ⟨t, ht⟩ := List.isPrefixOf_iff_prefix.1 hpre
        cases h
        rw [← ht, List.drop_left]
        rfl
      · obtain ⟨⟨front, rest⟩, hcut, heq⟩ := Option.map_eq_some_iff.1 h
        cases heq
        rw [ih hcut]
        rfl

/-- A pattern of one element is found where it stands for the first time. -/
theorem cut_singleton {c : α} {before : List α} (h : c ∉ before) (behind : List α) :
    cut [c] (before ++ c :: behind) = some (before, behind) := by
  induction before with
  | nil =>
      rw [List.nil_append, cut, if_pos (by simp)]
      rfl
  | cons d before ih =>
      have hne : c ≠ d := fun heq => h (heq ▸ List.mem_cons_self)
      rw [List.cons_append, cut, if_neg (by simp [hne]),
        ih fun hmem => h (List.mem_cons_of_mem d hmem)]
      rfl

theorem cut_singleton_eq_none {c : α} {s : List α} (h : c ∉ s) : cut [c] s = none := by
  cases hcut : cut [c] s with
  | none => rfl
  | some t =>
      refine absurd ?_ h
      rw [eq_of_cut hcut]
      exact List.mem_append_right _ List.mem_cons_self

theorem length_of_cut {pattern s before behind : List α}
    (h : cut pattern s = some (before, behind)) :
    s.length = before.length + pattern.length + behind.length := by
  rw [eq_of_cut h, List.length_append, List.length_append, Nat.add_assoc]

end Library
end GateControl
