import Mathlib.Data.List.Basic

/-!
# Transition — runs of a labelled, partial step function

A system is a step function `step : σ → α → Option σ`: every choice of the environment (an
answer, a failure, a point in time) is part of the action `α`, so that a run is determined by its
list of actions and can be executed.  `none` means that the action is not possible in that state.

* `exec step s as` runs a list of actions;
* `Admits step ok s as` says that each action of the run is allowed by `ok` in the state in which
  it is taken (an assumption about the environment, or a condition on the states passed);
* `checkRun` is the test that goes with it;
* `Throughout step P s as` says that `P` holds in every state the run passes;
* `exec_invariant` is the induction over runs for an invariant that every step preserves;
  `throughout_of_admits` and `admits_of_throughout` characterise the runs that keep a property by
  their steps;
* `exec_countdown` counts down along a run;
* `exec_unique` says where runs that leave nothing to choose end.
-/

namespace GateControl
namespace Library

universe u v

variable {σ : Type u} {α : Type v}

/-- Execute a list of actions; `none` as soon as one of them is not enabled. -/
def exec (step : σ → α → Option σ) : σ → List α → Option σ
  | s, [] => some s
  | s, a :: as => (step s a).bind fun s' => exec step s' as

/-- Every action of the run satisfies `ok` in the state in which it is taken. -/
def Admits (step : σ → α → Option σ) (ok : σ → α → Prop) : σ → List α → Prop
  | _, [] => True
  | s, a :: as => ok s a ∧ ∀ s', step s a = some s' → Admits step ok s' as

/-- The same as a test that can be run. -/
def checkRun (step : σ → α → Option σ) (test : σ → α → Bool) : σ → List α → Bool
  | _, [] => true
  | s, a :: as => test s a && (step s a).all fun s' => checkRun step test s' as

/-- `P` holds in every state the run passes, the first and the last included. -/
def Throughout (step : σ → α → Option σ) (P : σ → Prop) : σ → List α → Prop
  | s, [] => P s
  | s, a :: as => P s ∧ ∀ s', step s a = some s' → Throughout step P s' as

variable {step : σ → α → Option σ} {ok : σ → α → Prop}

theorem exec_cons {s t : σ} {a : α} {as : List α} :
    exec step s (a :: as) = some t ↔ ∃ s', step s a = some s' ∧ exec step s' as = some t := by
  simp [exec, Option.bind_eq_some_iff]

theorem exec_append {s t : σ} {as bs : List α} :
    exec step s (as ++ bs) = some t ↔ ∃ s', exec step s as = some s' ∧ exec step s' bs = some t := by
  induction as generalizing s with
  | nil =>
      simp [exec]
  | cons a as ih =>
      constructor
      · intro h
        rcases exec_cons.1 h with ⟨u, hu, h'⟩
        rcases ih.1 h' with ⟨s', hs', ht⟩
        exact ⟨s', exec_cons.2 ⟨u, hu, hs'⟩, ht⟩
      · rintro ⟨s', hs', ht⟩
        rcases exec_cons.1 hs' with ⟨u, hu, h'⟩
        exact exec_cons.2 ⟨u, hu, ih.2 ⟨s', h', ht⟩⟩

/-- Where at most one action of a kind is possible in each state, the runs of such actions that go
on until none is possible end in the same state. -/
theorem exec_unique {A : α → Prop}
    (hone : ∀ s a b, A a → A b → (step s a).isSome = true → (step s b).isSome = true → a = b)
    {as bs : List α} {s t t' : σ} (has : ∀ a ∈ as, A a) (hbs : ∀ b ∈ bs, A b)
    (ht : exec step s as = some t) (ht' : exec step s bs = some t')
    (hend : ∀ a, A a → step t a = none) (hend' : ∀ a, A a → step t' a = none) : t = t' := by
  induction as generalizing s bs with
  | nil =>
      cases ht
      cases bs with
      | nil =>
          cases ht'
          rfl
      | cons b bs =>
          rcases exec_cons.1 ht' with ⟨s', hs', _⟩
          rw [hend b (hbs b List.mem_cons_self)] at hs'
          cases hs'
  | cons a as ih =>
      rcases exec_cons.1 ht with ⟨s', hs', hrest⟩
      cases bs with
      | nil =>
          cases ht'
          rw [hend' a (has a List.mem_cons_self)] at hs'
          cases hs'
      | cons b bs =>
          rcases exec_cons.1 ht' with ⟨s'', hs'', hrest'⟩
          obtain rfl : a = b := hone s a b (has a List.mem_cons_self) (hbs b List.mem_cons_self)
            (by rw [hs']; rfl) (by rw [hs'']; rfl)
          obtain rfl : s' = s'' := Option.some.inj (hs'.symm.trans hs'')
          exact ih (fun c hc => has c (List.mem_cons_of_mem a hc))
            (fun c hc => hbs c (List.mem_cons_of_mem a hc)) hrest hrest'

theorem admits_of_checkRun {test : σ → α → Bool} (htest : ∀ s a, test s a = true → ok s a)
    {as : List α} {s : σ} (h : checkRun step test s as = true) : Admits step ok s as := by
  induction as generalizing s with
  | nil =>
      trivial
  | cons a as ih =>
      obtain ⟨ha, has⟩ := Bool.and_eq_true_iff.1 h
      refine ⟨htest s a ha, ?_⟩
      intro s' hs'
      rw [hs'] at has
      exact ih has

/-- Induction over runs: what every step preserves, a run preserves. -/
theorem exec_invariant {Inv : σ → Prop}
    (hstep : ∀ s a s', Inv s → step s a = some s' → Inv s')
    {as : List α} {s t : σ} (hs : Inv s) (ht : exec step s as = some t) : Inv t := by
  induction as generalizing s with
  | nil =>
      cases ht
      exact hs
  | cons a as ih =>
      rcases exec_cons.1 ht with ⟨s', hs', ht'⟩
      exact ih (hstep s a s' hs hs') ht'

/-- Actions that count use up a measure that all the others leave alone. -/
theorem exec_countdown {P : Nat → σ → Prop} {A : α → Prop} {counts : α → Bool}
    (hcounts : ∀ k s a s', A a → counts a = true → P k s → step s a = some s' → P (k - 1) s')
    (hkeeps : ∀ k s a s', A a → counts a = false → P k s → step s a = some s' → P k s')
    {as : List α} {k : Nat} {s t : σ} (has : ∀ a ∈ as, A a) (hs : P k s)
    (ht : exec step s as = some t) : P (k - as.countP counts) t := by
  induction as generalizing s k with
  | nil =>
      cases ht
      exact hs
  | cons a as ih =>
      obtain ⟨s', hs', ht'⟩ := exec_cons.1 ht
      have ha := has a List.mem_cons_self
      have hrest : ∀ b ∈ as, A b := fun b hb => has b (List.mem_cons_of_mem a hb)
      cases hc : counts a with
      | true =>
          have h := ih hrest (hcounts k s a s' ha hc hs hs') ht'
          rw [List.countP_cons_of_pos hc, Nat.add_comm, ← Nat.sub_sub]
          exact h
      | false =>
          have h := ih hrest (hkeeps k s a s' ha hc hs hs') ht'
          rw [List.countP_cons_of_neg (by rw [hc]; decide)]
          exact h

theorem Throughout.head {P : σ → Prop} {s : σ} {as : List α} (h : Throughout step P s as) :
    P s := by
  cases as with
  | nil =>
      exact h
  | cons a as =>
      exact h.1

theorem Throughout.last {P : σ → Prop} {s t : σ} {as : List α} (h : Throughout step P s as)
    (ht : exec step s as = some t) : P t := by
  induction as generalizing s with
  | nil =>
      cases ht
      exact h
  | cons a as ih =>
      rcases exec_cons.1 ht with ⟨s', hs', ht'⟩
      exact ih (h.2 s' hs') ht'

/-- A conditional invariant that implies `P` keeps `P` throughout an allowed run. -/
theorem throughout_of_admits {Inv P : σ → Prop}
    (hstep : ∀ s a s', Inv s → ok s a → step s a = some s' → Inv s') (himp : ∀ s, Inv s → P s) :
    ∀ {as : List α} {s : σ}, Inv s → Admits step ok s as → Throughout step P s as := by
  intro as
  induction as with
  | nil =>
      intro s hs _
      exact himp s hs
  | cons a as ih =>
      intro s hs hok
      exact ⟨himp s hs, fun s' hs' => ih (hstep s a s' hs hok.1 hs') (hok.2 s' hs')⟩

/-- What is allowed under a conditional invariant satisfies every other condition that follows. -/
theorem admits_of_admits {Inv : σ → Prop} {ok' : σ → α → Prop}
    (hstep : ∀ s a s', Inv s → ok s a → step s a = some s' → Inv s')
    (himp : ∀ s a, Inv s → ok s a → ok' s a) :
    ∀ {as : List α} {s : σ}, Inv s → Admits step ok s as → Admits step ok' s as := by
  intro as
  induction as with
  | nil =>
      intro s _ _
      trivial
  | cons a as ih =>
      intro s hs hok
      exact ⟨himp s a hs hok.1, fun s' hs' => ih (hstep s a s' hs hok.1 hs') (hok.2 s' hs')⟩

theorem Admits.append {s t : σ} {as bs : List α} (h : Admits step ok s (as ++ bs))
    (ht : exec step s as = some t) : Admits step ok s as ∧ Admits step ok t bs := by
  induction as generalizing s with
  | nil =>
      cases ht
      exact ⟨trivial, h⟩
  | cons a as ih =>
      rcases exec_cons.1 ht with ⟨s', hs', ht'⟩
      obtain ⟨has, hbs⟩ := ih (h.2 s' hs') ht'
      refine ⟨⟨h.1, fun s'' hs'' => ?_⟩, hbs⟩
      obtain rfl : s' = s'' := Option.some.inj (hs'.symm.trans hs'')
      exact has

/-- Where, under an unconditional invariant, a step that reaches `P` must have been allowed, a run
that keeps `P` throughout is an allowed run. -/
theorem admits_of_throughout {Inv P : σ → Prop}
    (hstep : ∀ s a s', Inv s → step s a = some s' → Inv s')
    (hback : ∀ s a s', Inv s → step s a = some s' → P s' → ok s a) :
    ∀ {as : List α} {s t : σ}, Inv s → exec step s as = some t → Throughout step P s as →
      Admits step ok s as := by
  intro as
  induction as with
  | nil =>
      intro s t _ _ _
      trivial
  | cons a as ih =>
      intro s t hs ht hP
      rcases exec_cons.1 ht with ⟨s', hs', ht'⟩
      refine ⟨hback s a s' hs hs' (hP.2 s' hs').head, ?_⟩
      intro s'' hs''
      -- the step function is deterministic, so this is the state the run continues from
      have heq : s' = s'' := Option.some.inj (hs'.symm.trans hs'')
      exact heq ▸ ih (hstep s a s' hs hs') ht' (hP.2 s' hs')

/-- The same where an action that cannot be taken is allowed. -/
theorem admits_of_after {Inv P : σ → Prop}
    (hstep : ∀ s a s', Inv s → step s a = some s' → Inv s')
    (hback : ∀ s a, Inv s → (∀ s', step s a = some s' → P s') → ok s a) :
    ∀ {as : List α} {s : σ}, Inv s → Throughout step P s as → Admits step ok s as := by
  intro as
  induction as with
  | nil =>
      intro s _ _
      trivial
  | cons a as ih =>
      intro s hs hP
      refine ⟨hback s a hs fun s' hs' => (hP.2 s' hs').head, fun s' hs' => ?_⟩
      exact ih (hstep s a s' hs hs') (hP.2 s' hs')

instance Admits.decidable [∀ s a, Decidable (ok s a)] :
    ∀ (s : σ) (as : List α), Decidable (Admits step ok s as)
  | _, [] => isTrue trivial
  | s, a :: as =>
    match h : step s a with
    | none => decidable_of_iff (ok s a) (by simp [Admits, h])
    | some s' =>
        have := Admits.decidable s' as
        decidable_of_iff (ok s a ∧ Admits step ok s' as) (by simp [Admits, h])

theorem admits_true (s : σ) (as : List α) : Admits step (fun _ _ => True) s as := by
  induction as generalizing s with
  | nil =>
      trivial
  | cons a as ih =>
      exact ⟨trivial, fun s' _ => ih s'⟩

/-- Two conditions that agree on every possible step of an invariant state admit the same runs. -/
theorem admits_congr {Inv : σ → Prop} {ok' : σ → α → Prop}
    (hiff : ∀ s a s', Inv s → step s a = some s' → (ok s a ↔ ok' s a))
    (hstep : ∀ s a s', Inv s → step s a = some s' → Inv s') {as : List α} {s t : σ} (hs : Inv s)
    (ht : exec step s as = some t) : Admits step ok s as ↔ Admits step ok' s as := by
  induction as generalizing s with
  | nil =>
      exact Iff.rfl
  | cons a as ih =>
      rcases exec_cons.1 ht with ⟨s', hs', ht'⟩
      refine and_congr (hiff s a s' hs hs') ?_
      have hrest := ih (hstep s a s' hs hs') ht'
      constructor
      · intro h s'' hs''
        obtain rfl : s' = s'' := Option.some.inj (hs'.symm.trans hs'')
        exact hrest.1 (h s' hs'')
      · intro h s'' hs''
        obtain rfl : s' = s'' := Option.some.inj (hs'.symm.trans hs'')
        exact hrest.2 (h s' hs'')

end Library
end GateControl
