import Mathlib.Data.List.Count
import Mathlib.Data.List.Nodup

/-!
# Reconcile — bringing a list of entries into line with the wanted ones

The entries can be asked for, appended and removed one occurrence at a time, and nobody tells how
often an entry is there.  Whoever keeps a record of the entries that it has put in can bring them
into line: it puts in what is missing and takes out what is recorded and not wanted.  That works as
long as each entry is there once at most and only if it is recorded (`Owned`).
-/

namespace GateControl
namespace Library

universe u

variable {α : Type u} [DecidableEq α]

/-- Put an entry in unless it is there. -/
def ensure (rules : List α) (k : α) : List α := if k ∈ rules then rules else rules ++ [k]

def ensureAll (rules ks : List α) : List α := ks.foldl ensure rules

def deleteAll (rules ks : List α) : List α := ks.foldl List.erase rules

/-- Every entry is there once at most, and only if it is recorded. -/
def Owned (rules known : List α) : Prop := rules.Nodup ∧ ∀ k ∈ rules, k ∈ known

theorem count_ensure (rules : List α) (k j : α) :
    (ensure rules k).count j = if j = k then max 1 (rules.count j) else rules.count j := by
  unfold ensure
  split
  · next hmem =>
      split
      · next heq =>
          subst heq
          exact (Nat.max_eq_right (List.count_pos_iff.2 hmem)).symm
      · rfl
  · next hmem =>
      rw [List.count_append]
      split
      · next heq =>
          subst heq
          rw [List.count_eq_zero.2 hmem]
          simp
      · next hne => simp [Ne.symm hne]

theorem count_ensureAll (rules ks : List α) (j : α) :
    (ensureAll rules ks).count j = if j ∈ ks then max 1 (rules.count j) else rules.count j := by
  induction ks generalizing rules with
  | nil =>
      rfl
  | cons k ks ih =>
      rw [ensureAll, List.foldl_cons]
      change (ensureAll (ensure rules k) ks).count j = _
      rw [ih, count_ensure]
      by_cases hk : j = k
      · subst hk
        simp only [if_true, List.mem_cons, true_or, ← Nat.max_assoc, Nat.max_self, ite_self]
      · simp [hk]

theorem count_deleteAll {ks : List α} (hn : ks.Nodup) (rules : List α) (j : α) :
    (deleteAll rules ks).count j = if j ∈ ks then rules.count j - 1 else rules.count j := by
  induction ks generalizing rules with
  | nil =>
      rfl
  | cons k ks ih =>
      obtain ⟨hk, hn'⟩ := List.nodup_cons.1 hn
      rw [deleteAll, List.foldl_cons]
      change (deleteAll (rules.erase k) ks).count j = _
      rw [ih hn', List.count_erase]
      by_cases hj : j = k
      · subst hj
        simp [hk]
      · simp [hj, Ne.symm hj]

theorem Owned.count_le {rules known : List α} (h : Owned rules known) (k : α) :
    rules.count k ≤ if k ∈ known then 1 else 0 := by
  split
  · exact List.nodup_iff_count_le_one.1 h.1 k
  · next hno => exact Nat.le_of_eq (List.count_eq_zero.2 fun hmem => hno (h.2 k hmem))

/-- Taking out everything that is recorded leaves nothing. -/
theorem count_deleteAll_known {rules known : List α} (h : Owned rules known) (hn : known.Nodup)
    (k : α) : (deleteAll rules known).count k = 0 := by
  have hle := h.count_le k
  rw [count_deleteAll hn]
  by_cases hk : k ∈ known
  · simp only [hk, if_true] at hle ⊢
    omega
  · simp only [hk, if_false] at hle ⊢
    omega

/-- Where what is recorded is what is wanted, putting in what is missing is enough. -/
theorem count_ensureAll_known {rules known wanted : List α} (h : Owned rules known)
    (hsame : ∀ k, k ∈ known ↔ k ∈ wanted) (k : α) :
    (ensureAll rules known).count k = if k ∈ wanted then 1 else 0 := by
  have hle := h.count_le k
  rw [count_ensureAll]
  by_cases hk : k ∈ known
  · simp only [hk, (hsame k).1 hk, if_true] at hle ⊢
    omega
  · simp only [hk, mt (hsame k).2 hk, if_false] at hle ⊢
    omega

/-- Putting in what is not recorded, taking out what is not wanted and putting in what is missing
leaves exactly what is wanted, once each. -/
theorem count_reconcile {rules known wanted : List α} (h : Owned rules known) (hn : known.Nodup)
    (k : α) :
    (ensureAll (deleteAll (ensureAll rules (wanted.filter (· ∉ known)))
        (known.filter (· ∉ wanted))) wanted).count k = if k ∈ wanted then 1 else 0 := by
  have hle := h.count_le k
  rw [count_ensureAll, count_deleteAll (hn.filter _), count_ensureAll]
  simp only [List.mem_filter, decide_not, Bool.not_eq_eq_eq_not, Bool.not_true,
    decide_eq_false_iff_not]
  by_cases hk : k ∈ known
  · by_cases hw : k ∈ wanted
    · simp only [hk, hw, if_true, not_true_eq_false, and_false, if_false] at hle ⊢
      omega
    · simp only [hk, hw, if_true, not_true_eq_false, not_false_eq_true, and_false, and_true,
        if_false] at hle ⊢
      omega
  · by_cases hw : k ∈ wanted
    · simp only [hk, hw, if_false, not_false_eq_true, and_true, false_and, if_true] at hle ⊢
      omega
    · simp only [hk, hw, if_false, not_false_eq_true, false_and] at hle ⊢
      omega

end Library
end GateControl
