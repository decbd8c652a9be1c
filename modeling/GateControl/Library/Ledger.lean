import Mathlib.Data.List.Basic

/-!
# Ledger — what became of the things in a queue

Things enter a queue at its end and leave it at its front.  The ledger has those that have left,
each with its fate, and those that have not, in the order in which they have entered.
-/

namespace GateControl
namespace Library

universe u v

structure Ledger (α : Type u) (φ : Type v) where
  settled : List (α × φ)
  pending : List α

namespace Ledger

variable {α : Type u} {φ : Type v}

def empty : Ledger α φ := ⟨[], []⟩

variable (l : Ledger α φ)

/-- All that have ever entered. -/
def history : List α := l.settled.map Prod.fst ++ l.pending

/-- These enter the queue. -/
def record (as : List α) : Ledger α φ := { l with pending := l.pending ++ as }

/-- The first `k` leave it. -/
def settle (k : Nat) (f : φ) : Ledger α φ where
  settled := l.settled ++ (l.pending.take k).map (·, f)
  pending := l.pending.drop k

@[simp] theorem pending_record (as : List α) : (l.record as).pending = l.pending ++ as := rfl

@[simp] theorem pending_settle (k : Nat) (f : φ) : (l.settle k f).pending = l.pending.drop k := rfl

theorem history_record (as : List α) : (l.record as).history = l.history ++ as :=
  (List.append_assoc _ _ _).symm

/-- Who leaves has entered. -/
theorem history_settle (k : Nat) (f : φ) : (l.settle k f).history = l.history := by
  have hfst : ((l.pending.take k).map (·, f)).map Prod.fst = l.pending.take k := by
    rw [List.map_map]
    exact List.map_id _
  rw [history, settle, List.map_append, hfst, List.append_assoc, List.take_append_drop]
  rfl

variable [DecidableEq φ]

/-- Those that have left in this way. -/
def those (f : φ) : List α := (l.settled.filter (·.2 = f)).map Prod.fst

@[simp] theorem those_record (as : List α) (f : φ) : (l.record as).those f = l.those f := rfl

theorem those_settle (k : Nat) (f : φ) : (l.settle k f).those f = l.those f ++ l.pending.take k := by
  have hall : ((l.pending.take k).map (·, f)).filter (·.2 = f) = (l.pending.take k).map (·, f) := by
    rw [List.filter_eq_self]
    intro x hx
    obtain ⟨a, -, rfl⟩ := List.mem_map.1 hx
    exact decide_eq_true rfl
  rw [those, settle, List.filter_append, hall, List.map_append, List.map_map]
  exact congrArg _ (List.map_id _)

theorem those_settle_ne {f g : φ} (hne : f ≠ g) (k : Nat) :
    (l.settle k f).those g = l.those g := by
  have hnone : ((l.pending.take k).map (·, f)).filter (·.2 = g) = [] := by
    rw [List.filter_eq_nil_iff]
    intro x hx
    obtain ⟨a, -, rfl⟩ := List.mem_map.1 hx
    simpa using hne
  rw [those, settle, List.filter_append, hnone, List.append_nil]
  rfl

end Ledger

end Library
end GateControl
