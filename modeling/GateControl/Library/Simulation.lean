/-!
# Simulation — operations that answer, and what they are to do

A component takes operations one after the other and answers each of them.  What it is for is said
by a relation on simpler states: what an operation may answer, and what it may change.  If every
operation does, from related states, something that is allowed there, then every run of the
component is one that is allowed (`answers_allowed`).
-/

namespace GateControl
namespace Library

universe u v w x

variable {σ : Type u} {μ : Type v} {α : Type w} {ρ : Type x}

/-- The answers to a list of operations, and the state after them. -/
def answers (step : σ → α → ρ × σ) : σ → List α → List ρ × σ
  | s, [] => ([], s)
  | s, a :: as =>
      let r := step s a
      let rest := answers step r.2 as
      (r.1 :: rest.1, rest.2)

/-- Operations with answers that are allowed one after the other. -/
inductive Trace (spec : μ → α → ρ → μ → Prop) : μ → List (α × ρ) → μ → Prop
  | nil (m : μ) : Trace spec m [] m
  | cons {m m' m'' : μ} {a : α} {r : ρ} {rest : List (α × ρ)} (h : spec m a r m')
      (hrest : Trace spec m' rest m'') : Trace spec m ((a, r) :: rest) m''

/-- What an operation does is allowed, and the states stay related. -/
def Simulates (step : σ → α → ρ × σ) (spec : μ → α → ρ → μ → Prop) (R : σ → μ → Prop) : Prop :=
  ∀ s m a, R s m → ∃ m', spec m a (step s a).1 m' ∧ R (step s a).2 m'

theorem answers_allowed {step : σ → α → ρ × σ} {spec : μ → α → ρ → μ → Prop} {R : σ → μ → Prop}
    (h : Simulates step spec R) (as : List α) {s : σ} {m : μ} (hR : R s m) :
    ∃ m', Trace spec m (as.zip (answers step s as).1) m' ∧ R (answers step s as).2 m' := by
  induction as generalizing s m with
  | nil =>
      exact ⟨m, .nil m, hR⟩
  | cons a as ih =>
      obtain ⟨m', hspec, hR'⟩ := h s m a hR
      obtain ⟨m'', hrest, hR''⟩ := ih hR'
      exact ⟨m'', .cons hspec hrest, hR''⟩

end Library
end GateControl
