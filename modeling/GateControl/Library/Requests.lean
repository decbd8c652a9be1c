import Mathlib.Data.List.Nodup
import Mathlib.Data.List.Perm.Basic

/-!
# Requests — calls that wait for an answer under a number

A caller gives each of its calls the next number and remembers those that wait.  An answer names a
number: it settles the call that waits under it, and does nothing when none does.  Numbers are never
given out twice, so what is remembered and what has been settled are the calls that were made, each
of them once (`Books`).

`receive` takes the first message of one connection out of those on the way over several.
-/

namespace GateControl
namespace Library

universe u v

/-- `made` and `settled` are there to be talked about: the calls with their numbers, and what each
of those that no longer wait has been settled with. -/
structure Requests (ρ : Type u) (α : Type v) where
  next : Nat
  made : List (Nat × ρ)
  pending : List Nat
  settled : List (Nat × α)

namespace Requests

variable {ρ : Type u} {α : Type v}

def new : Requests ρ α := ⟨0, [], [], []⟩

variable (s : Requests ρ α)

/-- The number of the next call. -/
def fresh : Nat := s.next + 1

/-- A number that no call gets. -/
def skip : Requests ρ α := { s with next := s.fresh }

def make (r : ρ) : Requests ρ α :=
  { s with
    next := s.fresh
    made := s.made ++ [(s.fresh, r)]
    pending := s.pending ++ [s.fresh] }

/-- An answer for a number. -/
def settle (n : Nat) (a : α) : Requests ρ α :=
  if n ∈ s.pending then
    { s with pending := s.pending.erase n, settled := s.settled ++ [(n, a)] }
  else s

def settleAll (a : α) : Requests ρ α :=
  { s with pending := [], settled := s.settled ++ s.pending.map (·, a) }

/-- Each call waits or has been settled once, and numbers are given out upwards. -/
structure Books : Prop where
  fresh : ∀ c ∈ s.made, c.1 ≤ s.next
  distinct : (s.made.map Prod.fst).Nodup
  accounted : (s.pending ++ s.settled.map Prod.fst).Perm (s.made.map Prod.fst)

variable {s}

theorem new_books : (new : Requests ρ α).Books where
  fresh := fun _ h => by cases h
  distinct := List.nodup_nil
  accounted := List.Perm.refl _

theorem Books.fresh_not_mem (h : s.Books) : s.fresh ∉ s.made.map Prod.fst := by
  intro hmem
  obtain ⟨c, hc, heq⟩ := List.mem_map.1 hmem
  have hle := h.fresh c hc
  rw [heq] at hle
  exact Nat.not_succ_le_self _ hle

theorem Books.ne_fresh (h : s.Books) {c : Nat × ρ} (hc : c ∈ s.made) : c.1 ≠ s.fresh :=
  fun heq => h.fresh_not_mem (heq ▸ List.mem_map_of_mem hc)

theorem Books.made_of_pending (h : s.Books) {n : Nat} (hn : n ∈ s.pending) :
    ∃ r, (n, r) ∈ s.made := by
  obtain ⟨⟨_, r⟩, hr, rfl⟩ := List.mem_map.1 (h.accounted.subset (List.mem_append_left _ hn))
  exact ⟨r, hr⟩

theorem Books.made_of_settled (h : s.Books) {n : Nat} {a : α} (hn : (n, a) ∈ s.settled) :
    ∃ r, (n, r) ∈ s.made := by
  have hmem := h.accounted.subset (List.mem_append_right _ (List.mem_map_of_mem (f := Prod.fst) hn))
  obtain ⟨⟨_, r⟩, hr, rfl⟩ := List.mem_map.1 hmem
  exact ⟨r, hr⟩

/-- The call that has a number is the only one. -/
theorem Books.made_unique (h : s.Books) {n : Nat} {r r' : ρ} (hr : (n, r) ∈ s.made)
    (hr' : (n, r') ∈ s.made) : r = r' :=
  congrArg Prod.snd (List.inj_on_of_nodup_map h.distinct hr hr' rfl)

/-- A call that waits has not been settled, and any other has been settled once. -/
theorem Books.once (h : s.Books) {n : Nat} {r : ρ} (hr : (n, r) ∈ s.made) :
    (s.settled.map Prod.fst).count n = if n ∈ s.pending then 0 else 1 := by
  have hone : (s.made.map Prod.fst).count n = 1 :=
    List.count_eq_one_of_mem h.distinct (List.mem_map_of_mem (f := Prod.fst) hr)
  have hboth := h.accounted.count_eq n
  rw [List.count_append, hone] at hboth
  have hnodup : s.pending.Nodup :=
    ((h.accounted.nodup_iff).2 h.distinct).of_append_left
  by_cases hn : n ∈ s.pending
  · rw [List.count_eq_one_of_mem hnodup hn] at hboth
    rw [if_pos hn]
    omega
  · rw [List.count_eq_zero_of_not_mem hn] at hboth
    rw [if_neg hn]
    omega

theorem Books.skip (h : s.Books) : s.skip.Books where
  fresh := fun c hc => Nat.le_succ_of_le (h.fresh c hc)
  distinct := h.distinct
  accounted := h.accounted

theorem Books.make (h : s.Books) (r : ρ) : (s.make r).Books where
  fresh := by
    intro c hc
    rcases List.mem_append.1 hc with hold | hnew
    · exact Nat.le_succ_of_le (h.fresh c hold)
    · obtain rfl := List.mem_singleton.1 hnew
      exact Nat.le_refl _
  distinct := by
    rw [Requests.make, List.map_append]
    exact List.nodup_append.2 ⟨h.distinct, List.nodup_singleton _, by
      intro n hn m hm heq
      obtain rfl := List.mem_singleton.1 hm
      subst heq
      exact h.fresh_not_mem hn⟩
  accounted := by
    have hmove : (s.pending ++ [s.fresh] ++ s.settled.map Prod.fst).Perm
        (s.pending ++ s.settled.map Prod.fst ++ [s.fresh]) := by
      rw [List.append_assoc, List.append_assoc]
      exact List.Perm.append_left _ List.perm_append_comm
    rw [Requests.make, List.map_append]
    exact hmove.trans (h.accounted.append_right _)

theorem Books.settle (h : s.Books) (n : Nat) (a : α) : (s.settle n a).Books := by
  unfold Requests.settle
  split
  · next hn =>
      refine ⟨h.fresh, h.distinct, ?_⟩
      -- the number goes from the one side to the other
      have hback : (s.pending.erase n ++ (s.settled.map Prod.fst ++ [n])).Perm
          (s.pending ++ s.settled.map Prod.fst) := by
        rw [← List.append_assoc]
        exact (List.perm_append_singleton n _).trans
          ((List.perm_cons_erase hn).symm.append_right _)
      rw [List.map_append]
      exact hback.trans h.accounted
  · exact h

theorem Books.settleAll (h : s.Books) (a : α) : (s.settleAll a).Books where
  fresh := h.fresh
  distinct := h.distinct
  accounted := by
    have hfst : (s.pending.map (·, a)).map Prod.fst = s.pending := by
      rw [List.map_map]
      exact List.map_id _
    rw [Requests.settleAll, List.map_append, hfst, List.nil_append]
    exact List.perm_append_comm.trans h.accounted

@[simp] theorem made_settle (n : Nat) (a : α) : (s.settle n a).made = s.made := by
  unfold settle
  split <;> rfl

@[simp] theorem next_settle (n : Nat) (a : α) : (s.settle n a).next = s.next := by
  unfold settle
  split <;> rfl

/-- What has been settled after an answer was settled before, or waited for it. -/
theorem mem_settled_settle {n m : Nat} {a b : α} (h : (m, b) ∈ (s.settle n a).settled) :
    (m, b) ∈ s.settled ∨ (m = n ∧ b = a ∧ n ∈ s.pending) := by
  unfold settle at h
  split at h
  · next hn =>
      rcases List.mem_append.1 h with hold | hnew
      · exact Or.inl hold
      · cases List.mem_singleton.1 hnew
        exact Or.inr ⟨rfl, rfl, hn⟩
  · exact Or.inl h

theorem mem_settled_settleAll {m : Nat} {a b : α} (h : (m, b) ∈ (s.settleAll a).settled) :
    (m, b) ∈ s.settled ∨ (b = a ∧ m ∈ s.pending) := by
  rcases List.mem_append.1 h with hold | hnew
  · exact Or.inl hold
  · obtain ⟨n, hn, heq⟩ := List.mem_map.1 hnew
    cases heq
    exact Or.inr ⟨rfl, hn⟩

theorem pending_settle_subset (n : Nat) (a : α) : (s.settle n a).pending ⊆ s.pending := by
  unfold settle
  split
  · exact List.erase_subset
  · exact List.Subset.refl _

theorem length_pending_settle (n : Nat) (a : α) :
    (s.settle n a).pending.length ≤ s.pending.length := by
  unfold settle
  split
  · exact List.length_erase_le
  · exact Nat.le_refl _

/-- A call that is settled at once leaves those that wait as they are. -/
theorem pending_settle_make {r : ρ} {a : α} (h : s.fresh ∉ s.pending) :
    ((s.make r).settle s.fresh a).pending = s.pending := by
  have hmem : s.fresh ∈ (s.make r).pending :=
    List.mem_append_right _ (List.mem_singleton_self _)
  unfold settle
  rw [if_pos hmem]
  change (s.pending ++ [s.fresh]).erase s.fresh = s.pending
  rw [List.erase_append_right _ h, List.erase_cons_head, List.append_nil]

end Requests

/-! ## Messages on the way -/

section Wires

variable {μ : Type u}

/-- The first message on a connection, and what is then on the way. -/
def receive (k : Nat) : List (Nat × μ) → Option (μ × List (Nat × μ))
  | [] => none
  | m :: ms => if m.1 = k then some (m.2, ms) else (receive k ms).map fun r => (r.1, m :: r.2)

variable {k : Nat} {m : μ} {ms rest : List (Nat × μ)}

theorem receive_perm (h : receive k ms = some (m, rest)) : ms.Perm ((k, m) :: rest) := by
  induction ms generalizing m rest with
  | nil =>
      cases h
  | cons n ms ih =>
      rw [receive] at h
      split at h
      · next hk =>
          cases h
          subst hk
          exact List.Perm.refl _
      · obtain ⟨⟨m', rest'⟩, hrest, heq⟩ := Option.map_eq_some_iff.1 h
        cases heq
        exact ((ih hrest).cons n).trans (List.Perm.swap (k, m') n rest')

theorem receive_mem (h : receive k ms = some (m, rest)) : (k, m) ∈ ms :=
  (receive_perm h).symm.subset List.mem_cons_self

theorem receive_subset (h : receive k ms = some (m, rest)) : rest ⊆ ms :=
  fun _ hn => (receive_perm h).symm.subset (List.mem_cons_of_mem _ hn)

end Wires

end Library
end GateControl
