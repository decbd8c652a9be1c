import GateControl.Proxy.Orderly

/-!
# Sequential — calls of `setRoutes` one after the other

If each call has ended before the next begins, the calls are in order whatever the host and the
clients do.
-/

namespace GateControl
namespace Proxy

open Library

/-- The route a call has given to the host, with the server it has found for it. -/
def Call.found {ι ρ : Type} (c : Call ι ρ) : Option (ρ × Option Nat) :=
  match c.pc with
  | .binding r old _ => some (r, old)
  | .bound r old _ _ => some (r, old)
  | _ => none

namespace Manager

variable {ι ρ : Type}

/-- A call is made only when there is no other. -/
def Sequential (s : Manager ι ρ) : Action ρ → Prop
  | .call _ => s.calls = []
  | _ => True

instance (s : Manager ι ρ) (a : Action ρ) : Decidable (s.Sequential a) :=
  match a with
  | .call _ => inferInstanceAs (Decidable (_ = []))
  | .run _ => .isTrue trivial
  | .bind _ _ => .isTrue trivial
  | .connect _ => .isTrue trivial
  | .disconnect _ => .isTrue trivial
  | .expire _ => .isTrue trivial

variable [DecidableEq ι] {K : Kind ι ρ} {s s' : Manager ι ρ} {a : Action ρ}

variable (K) in
structure Single (s : Manager ι ρ) : Prop where
  single : s.calls.length ≤ 1
  table : ∀ c ∈ s.calls, c.table = s.table
  found : ∀ c ∈ s.calls, ∀ e, c.found = some e →
    (s.listeners.get (K.id e.1)).map Listener.server = e.2

namespace Single

theorem start : (start : Manager ι ρ).Single K where
  single := Nat.zero_le 1
  table := fun _ h => by cases h
  found := fun _ h => by cases h

/-- The only call goes on, with what it has found. -/
theorem goOn (h : s.Single K) {c : Call ι ρ} {ds : List (Call ι ρ)}
    (hr : Replaces s.calls s'.calls c ds) (ht : s'.table = s.table) (hlength : ds.length ≤ 1)
    (hds : ∀ d ∈ ds, d.table = c.table ∧ ∀ e, d.found = some e →
      (s'.listeners.get (K.id e.1)).map Listener.server = e.2) : s'.Single K := by
  obtain ⟨before, after, hcalls, hcalls'⟩ := hr
  have hsingle := h.single
  rw [hcalls, List.length_append, List.length_cons] at hsingle
  obtain rfl : before = [] := List.length_eq_zero_iff.1 (by omega)
  obtain rfl : after = [] := List.length_eq_zero_iff.1 (by omega)
  simp only [List.nil_append, List.append_nil] at hcalls hcalls'
  refine ⟨hcalls' ▸ hlength, ?_, ?_⟩
  · intro d hd
    rw [hcalls'] at hd
    rw [(hds d hd).1, ht]
    exact h.table c (by rw [hcalls]; exact List.mem_singleton_self c)
  · intro d hd
    rw [hcalls'] at hd
    exact (hds d hd).2

theorem step (h : s.Single K) (ht : Transition K s a s') (hok : Sequential s a) : s'.Single K := by
  cases ht with
  | call table =>
      have hnil : s.calls = [] := hok
      refine ⟨by simp [hnil], ?_, ?_⟩
      · intro c hc
        simp only [hnil, List.nil_append, List.mem_singleton] at hc
        rw [hc]
      · intro c hc e he
        simp only [hnil, List.nil_append, List.mem_singleton] at hc
        rw [hc] at he
        cases he
  | close hc hl => exact h.goOn (.of_set hc _) rfl (Nat.le_refl 1) (by simp [Call.found])
  | apply hc hl => exact h.goOn (.of_set hc _) rfl (Nat.le_refl 1) (by simp [Call.found])
  | removed hc hsv hclients =>
      exact h.goOn (.of_set hc _) rfl (Nat.le_refl 1) (by simp [Call.found])
  | finish hc => exact h.goOn (.of_eraseIdx hc) rfl (Nat.zero_le 1) (by simp)
  | new hc hl =>
      exact h.goOn (.of_set hc _) rfl (Nat.le_refl 1) (by simp [Call.found, Manager.goOn, hl])
  | unchanged hc hl hsv hchange =>
      exact h.goOn (.of_set hc _) rfl (Nat.le_refl 1) (by simp [Call.found])
  | inPlace hc hl hsv hchange =>
      exact h.goOn (.of_set hc _) rfl (Nat.le_refl 1) (by simp [Call.found])
  | rebind hc hl hsv hchange =>
      exact h.goOn (.of_set hc _) rfl (Nat.le_refl 1) (by simp [Call.found, Manager.goOn, hl])
  | listening hc hport =>
      have hfound := h.found _ (List.mem_of_getElem? hc) _ rfl
      exact h.goOn (.of_set hc _) rfl (Nat.le_refl 1)
        (by simpa [Call.found, listening, Manager.goOn] using hfound)
  | refused hc => exact h.goOn (.of_set hc _) rfl (Nat.le_refl 1) (by simp [Call.found])
  | register hc hsv => exact h.goOn (.of_set hc _) rfl (Nat.le_refl 1) (by simp [Call.found])
  | connect hsv hacc => exact ⟨h.single, h.table, h.found⟩
  | disconnect hsv hclients => exact ⟨h.single, h.table, h.found⟩
  | expire hn => exact ⟨h.single, h.table, h.found⟩

/-- A single call is in nobody's way. -/
theorem orderly (h : s.Single K) (hok : Sequential s a) : Orderly K s a := by
  cases a with
  | call table =>
      have hnil : s.calls = [] := hok
      constructor
      · intro c hc
        rw [hnil] at hc
        cases hc
      · intro id hid
        rw [closings, hnil] at hid
        cases hid
  | run i =>
      cases hc : s.calls[i]? with
      | none => simp [Orderly, callAt, hc]
      | some c =>
          obtain ⟨table, pc⟩ := c
          have hmem := List.mem_of_getElem? hc
          simp only [Orderly, callAt_eq hc]
          constructor
          · intro t ht e he
            cases pc with
            | removing =>
                obtain rfl : table = t := Option.some.inj ht
                obtain rfl : table = s.table := h.table _ hmem
                exact (nextRemoval_some he).2
            | _ => cases ht
          · intro e he
            cases pc with
            | bound r old n rest =>
                obtain rfl : (r, old) = e := Option.some.inj he
                exact h.found _ hmem _ rfl
            | _ => cases he
  | _ => trivial

end Single

end Manager

end Proxy
end GateControl
