import Mathlib.Data.List.Basic

/-!
# Keeps — what a computation with a state and failures keeps

`Keeps I x` says that the computation `x`, where it does not fail, leads from states that satisfy
`I` to such states.  The rules follow the way computations are built, so that a property of the
state is checked at the operations that change it and nowhere else.  `Raises f n x` says that it
raises the measure `f` of the state by at most `n`.
-/

namespace GateControl
namespace Library

universe u

variable {σ ε α β : Type u}

/-- From a state with `I`, the computation ends in one or fails. -/
def Keeps (I : σ → Prop) (x : StateT σ (Except ε) α) : Prop :=
  ∀ s a s', I s → x s = .ok (a, s') → I s'

namespace Keeps

variable {I : σ → Prop}

theorem pure (a : α) : Keeps I (pure a : StateT σ (Except ε) α) := by
  intro s b s' hs h
  cases h
  exact hs

theorem bind {x : StateT σ (Except ε) α} {f : α → StateT σ (Except ε) β} (hx : Keeps I x)
    (hf : ∀ a, Keeps I (f a)) : Keeps I (x >>= f) := by
  intro s b s' hs h
  cases hr : x s with
  | error e =>
      simp only [Bind.bind, StateT.bind, hr] at h
      cases h
  | ok r =>
      simp only [Bind.bind, StateT.bind, hr] at h
      exact hf r.1 r.2 b s' (hx s r.1 r.2 hs hr) h

theorem modify {f : σ → σ} (hf : ∀ s, I s → I (f s)) :
    Keeps I (modify f : StateT σ (Except ε) PUnit) := by
  intro s a s' hs h
  cases h
  exact hf s hs

theorem ite {c : Prop} [Decidable c] {x y : StateT σ (Except ε) α} (hx : Keeps I x)
    (hy : Keeps I y) : Keeps I (if c then x else y) := by
  split
  · exact hx
  · exact hy

theorem foldlM {f : β → α → StateT σ (Except ε) β} (hf : ∀ b a, Keeps I (f b a)) (as : List α)
    (b : β) : Keeps I (as.foldlM f b) := by
  induction as generalizing b with
  | nil =>
      exact pure b
  | cons a as ih =>
      rw [List.foldlM_cons]
      exact bind (hf b a) ih

end Keeps

/-- Where it does not fail, the computation raises the measure by at most `n`. -/
def Raises (f : σ → Nat) (n : Nat) (x : StateT σ (Except ε) α) : Prop :=
  ∀ s a s', x s = .ok (a, s') → f s' ≤ f s + n

namespace Raises

variable {f : σ → Nat} {n m : Nat}

theorem mono {x : StateT σ (Except ε) α} (hx : Raises f n x) (h : n ≤ m) : Raises f m x :=
  fun s a s' hr => Nat.le_trans (hx s a s' hr) (Nat.add_le_add_left h _)

theorem pure (a : α) : Raises f n (pure a : StateT σ (Except ε) α) := by
  intro s b s' h
  cases h
  exact Nat.le_add_right _ _

theorem bind {x : StateT σ (Except ε) α} {g : α → StateT σ (Except ε) β} (hx : Raises f n x)
    (hg : ∀ a, Raises f m (g a)) : Raises f (n + m) (x >>= g) := by
  intro s b s' h
  cases hr : x s with
  | error e =>
      simp only [Bind.bind, StateT.bind, hr] at h
      cases h
  | ok r =>
      simp only [Bind.bind, StateT.bind, hr] at h
      have hfirst := hx s r.1 r.2 hr
      have hrest := hg r.1 r.2 b s' h
      omega

theorem modify {g : σ → σ} (hg : ∀ s, f (g s) = f s) :
    Raises f n (modify g : StateT σ (Except ε) PUnit) := by
  intro s a s' h
  cases h
  exact Nat.le_trans (Nat.le_of_eq (hg s)) (Nat.le_add_right _ _)

theorem ite {c : Prop} [Decidable c] {x y : StateT σ (Except ε) α} (hx : c → Raises f n x)
    (hy : ¬ c → Raises f n y) : Raises f n (if c then x else y) := by
  split
  · exact hx ‹_›
  · exact hy ‹_›

end Raises

end Library
end GateControl
