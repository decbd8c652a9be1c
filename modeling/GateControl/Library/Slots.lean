import Mathlib.Data.List.Pairwise
import Mathlib.Data.Nat.Notation

/-!
# Slots — a counter of slots that are passed on

A client takes a slot while there are free ones, else it waits in a queue of limited room, else it
is refused.  A slot that is given back goes straight to the client that waits in front, and the
counter stays as it is; only where nobody waits it goes down.  A client that waits can withdraw.

* `Fits limit room n s` says that the counter is the number `n` of the clients that have a slot, and
  that clients wait only while all slots are taken;
* `Ordered served s` says that the clients got their slots in order of arrival, and that those who
  wait came after them, in order; `served` lists the clients in the order in which they got a slot.
-/

namespace GateControl
namespace Library

universe u

/-- The number of slots that are taken, and the clients that wait for one. -/
structure Slots (ι : Type u) where
  active : Nat
  waiting : List ι

/-- What a client gets when it asks for a slot. -/
inductive Place
  | slot
  | queue
  | full
  deriving DecidableEq, Repr

namespace Slots

variable {ι : Type u} {limit room n : Nat} {s : Slots ι} {i : ι}

def new : Slots ι := ⟨0, []⟩

def take (limit room : Nat) (s : Slots ι) (i : ι) : Place × Slots ι :=
  if s.active < limit then (.slot, { s with active := s.active + 1 })
  else if room ≤ s.waiting.length then (.full, s)
  else (.queue, { s with waiting := s.waiting ++ [i] })

/-- Give a slot back; and the client that it is passed to. -/
def release (s : Slots ι) : Option ι × Slots ι :=
  match s.waiting with
  | [] => (none, { s with active := s.active - 1 })
  | i :: is => (some i, { s with waiting := is })

def withdraw [DecidableEq ι] (s : Slots ι) (i : ι) : Slots ι :=
  { s with waiting := s.waiting.erase i }

theorem take_cases (limit room : Nat) (s : Slots ι) (i : ι) :
    (s.active < limit ∧ s.take limit room i = (.slot, { s with active := s.active + 1 })) ∨
      (limit ≤ s.active ∧ room ≤ s.waiting.length ∧ s.take limit room i = (.full, s)) ∨
      (limit ≤ s.active ∧ s.waiting.length < room ∧
        s.take limit room i = (.queue, { s with waiting := s.waiting ++ [i] })) := by
  rw [take]
  by_cases hfree : s.active < limit
  · exact .inl ⟨hfree, if_pos hfree⟩
  · rw [if_neg hfree]
    have hle := Nat.le_of_not_lt hfree
    by_cases hfull : room ≤ s.waiting.length
    · exact .inr (.inl ⟨hle, hfull, if_pos hfull⟩)
    · exact .inr (.inr ⟨hle, Nat.lt_of_not_le hfull, if_neg hfull⟩)

theorem release_cases (s : Slots ι) :
    (s.waiting = [] ∧ s.release = (none, { s with active := s.active - 1 })) ∨
      ∃ i is, s.waiting = i :: is ∧ s.release = (some i, { s with waiting := is }) := by
  rw [release]
  cases hwaiting : s.waiting with
  | nil =>
      exact .inl ⟨rfl, rfl⟩
  | cons i is =>
      exact .inr ⟨i, is, rfl, rfl⟩

/-! ## The counter -/

/-- `n` clients have a slot. -/
structure Fits (limit room n : Nat) (s : Slots ι) : Prop where
  count : s.active = n
  within : s.active ≤ limit
  /-- Clients wait only while all slots are taken. -/
  taken : s.waiting ≠ [] → s.active = limit
  short : s.waiting.length ≤ room

theorem new_fits (limit room : Nat) : Fits limit room 0 (new : Slots ι) where
  count := rfl
  within := Nat.zero_le _
  taken h := absurd rfl h
  short := Nat.zero_le _

/-- A slot is free only when nobody waits. -/
theorem Fits.nobody (h : Fits limit room n s) (hfree : s.active < limit) : s.waiting = [] := by
  by_contra hne
  exact Nat.lt_irrefl _ (h.taken hne ▸ hfree)

theorem Fits.slot (h : Fits limit room n s) (hfree : s.active < limit) :
    Fits limit room (n + 1) { s with active := s.active + 1 } where
  count := congrArg (· + 1) h.count
  within := hfree
  taken hne := absurd (h.nobody hfree) hne
  short := h.short

theorem Fits.queue (h : Fits limit room n s) (htaken : limit ≤ s.active)
    (hroom : s.waiting.length < room) :
    Fits limit room n { s with waiting := s.waiting ++ [i] } where
  count := h.count
  within := h.within
  taken _ := Nat.le_antisymm h.within htaken
  short := by
    rw [List.length_append]
    exact hroom

/-- The last one gives its slot back. -/
theorem Fits.free (h : Fits limit room (n + 1) s) (hnobody : s.waiting = []) :
    Fits limit room n { s with active := s.active - 1 } where
  count := by
    rw [h.count]
    rfl
  within := Nat.le_trans (Nat.sub_le _ _) h.within
  taken hne := absurd hnobody hne
  short := h.short

/-- A slot is passed on: as many clients as before have one. -/
theorem Fits.pass (h : Fits limit room n s) {is : List ι} (hwaiting : s.waiting = i :: is) :
    Fits limit room n { s with waiting := is } where
  count := h.count
  within := h.within
  taken _ := h.taken (by simp [hwaiting])
  short := by
    have hshort := h.short
    rw [hwaiting] at hshort
    exact Nat.le_of_succ_le hshort

theorem Fits.withdraw [DecidableEq ι] (h : Fits limit room n s) (i : ι) :
    Fits limit room n (s.withdraw i) where
  count := h.count
  within := h.within
  taken hne := h.taken fun hnobody => hne (by rw [Slots.withdraw, hnobody]; rfl)
  short := Nat.le_trans (List.erase_sublist).length_le h.short

/-- Nobody is refused before all slots are taken and the queue is full. -/
theorem Fits.full (h : Fits limit room n s) (htaken : limit ≤ s.active)
    (hroom : room ≤ s.waiting.length) : s.active = limit ∧ s.waiting.length = room :=
  ⟨Nat.le_antisymm h.within htaken, Nat.le_antisymm h.short hroom⟩

/-! ## The order -/

/-- The clients of `served` and those that wait, in order of arrival. -/
def Ordered [LT ι] (served : List ι) (s : Slots ι) : Prop :=
  (served ++ s.waiting).Pairwise (· < ·)

section Order

variable [LT ι] {served : List ι}

theorem new_ordered : Ordered [] (new : Slots ι) := .nil

/-- A client that comes last and waits is behind all others. -/
theorem Ordered.queue (h : Ordered served s) (hlast : ∀ j ∈ served ++ s.waiting, j < i) :
    Ordered served { s with waiting := s.waiting ++ [i] } := by
  rw [Ordered, ← List.append_assoc]
  refine List.pairwise_append.2 ⟨h, List.pairwise_singleton _ _, fun j hj k hk => ?_⟩
  rw [List.mem_singleton.1 hk]
  exact hlast j hj

/-- A client that takes a free slot overtakes nobody. -/
theorem Ordered.slot (h : Ordered served s) (hnobody : s.waiting = [])
    (hlast : ∀ j ∈ served ++ s.waiting, j < i) :
    Ordered (served ++ [i]) { s with active := s.active + 1 } := by
  have hqueue := h.queue hlast
  rw [Ordered, hnobody, List.nil_append] at hqueue
  rwa [Ordered, hnobody, List.append_nil]

/-- The slot is passed to the one in front. -/
theorem Ordered.pass (h : Ordered served s) {is : List ι} (hwaiting : s.waiting = i :: is) :
    Ordered (served ++ [i]) { s with waiting := is } := by
  rw [Ordered, List.append_assoc, List.singleton_append, ← hwaiting]
  exact h

theorem Ordered.withdraw [DecidableEq ι] (h : Ordered served s) (i : ι) :
    Ordered served (s.withdraw i) :=
  List.Pairwise.sublist (List.Sublist.append_left List.erase_sublist served) h

end Order

end Slots

end Library
end GateControl
