import Mathlib.Data.List.Basic

/-!
# RuleChain — rules of which the first that applies decides

A packet filter goes through its rules in order; the first that applies to a packet gives the
verdict, and if none does there is a default.
-/

namespace GateControl
namespace Library

universe u v w

structure Rule (π : Type u) (ν : Type v) where
  applies : π → Bool
  verdict : ν

namespace RuleChain

variable {π : Type u} {ν : Type v}

def firstMatch : List (Rule π ν) → ν → π → ν
  | [], default, _ => default
  | r :: rest, default, p => if r.applies p then r.verdict else firstMatch rest default p

theorem firstMatch_cons (r : Rule π ν) (rest : List (Rule π ν)) (default : ν) (p : π) :
    firstMatch (r :: rest) default p =
      if r.applies p then r.verdict else firstMatch rest default p := rfl

/-- A rule for each of several things does what one rule for all of them does. -/
theorem firstMatch_map {α : Type w} (f : α → π → Bool) (verdict : ν) (xs : List α)
    (rest : List (Rule π ν)) (default : ν) (p : π) :
    firstMatch (xs.map (fun x => ⟨f x, verdict⟩) ++ rest) default p =
      if xs.any (fun x => f x p) then verdict else firstMatch rest default p := by
  induction xs with
  | nil =>
      rfl
  | cons x xs ih =>
      rw [List.map_cons, List.cons_append, firstMatch_cons, ih, List.any_cons]
      cases hx : f x p with
      | true =>
          simp [hx]
      | false =>
          simp [hx]

/-- One rule for a set, which is left out if the set is empty. -/
theorem firstMatch_set {α : Type w} (f : α → π → Bool) (g : π → Bool) (verdict : ν) (xs : List α)
    (rest : List (Rule π ν)) (default : ν) (p : π) :
    firstMatch ((if xs ≠ [] then [⟨fun p => xs.any (fun x => f x p) && g p, verdict⟩] else []) ++
        rest) default p =
      if xs.any (fun x => f x p) && g p then verdict else firstMatch rest default p := by
  cases xs with
  | nil =>
      rfl
  | cons x xs =>
      rw [if_pos (List.cons_ne_nil x xs)]
      rfl

end RuleChain

end Library
end GateControl
