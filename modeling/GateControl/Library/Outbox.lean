import Mathlib.Data.List.Nodup

/-!
# Outbox — a buffer of things that are to be delivered

What is put into an outbox gets the number of things put in before it, so that two equal ones can be
told apart.  Things leave it when the oldest fall out and when a delivery is acknowledged; which
ones an acknowledgement removes is up to the program (`gone`), and it may be others than those
delivered.

`Tracked` holds of every outbox.  `Complete` says that nothing is missing: everything is still in
the outbox, has been delivered or has fallen out.  An acknowledgement keeps it if and only if it
removes nothing but what has been sent (`Complete.acknowledge`, `mem_sent_of_complete`).
-/

namespace GateControl
namespace Library

universe u

/-- `history` is all that has been put in, `delivered` and `dropped` are the numbers of what has
been delivered and of what has fallen out. -/
structure Outbox (α : Type u) where
  items : List (Nat × α)
  history : List α
  delivered : List Nat
  dropped : List Nat

namespace Outbox

variable {α : Type u}

def empty : Outbox α := ⟨[], [], [], []⟩

variable (b : Outbox α)

def numbers : List Nat := b.items.map Prod.fst

def push (a : α) : Outbox α :=
  { b with items := b.items ++ [(b.history.length, a)], history := b.history ++ [a] }

/-- The oldest `k` fall out. -/
def shift (k : Nat) : Outbox α :=
  { b with
    items := b.items.drop k
    dropped := b.dropped ++ (b.items.take k).map Prod.fst }

/-- The oldest fall out until `max` are left. -/
def trim (max : Nat) : Outbox α :=
  if b.items.length > max then b.shift (b.items.length - max) else b

/-- What was sent has been delivered, and `gone` is removed. -/
def acknowledge (sent : List (Nat × α)) (gone : Nat × α → Bool) : Outbox α :=
  { b with
    items := b.items.filter fun x => !gone x
    delivered := b.delivered ++ sent.map Prod.fst }

def ofList (as : List α) : Outbox α := as.foldl push empty

/-- The numbers are those of the history, and nothing that has left is still there. -/
structure Tracked : Prop where
  nodup : b.numbers.Nodup
  known : ∀ x ∈ b.items, b.history[x.1]? = some x.2
  delivered : ∀ n ∈ b.delivered, n < b.history.length ∧ n ∉ b.numbers
  dropped : ∀ n ∈ b.dropped, n < b.history.length ∧ n ∉ b.numbers

/-- Everything is still there, has been delivered or has fallen out. -/
def Complete : Prop :=
  ∀ n < b.history.length, n ∈ b.numbers ∨ n ∈ b.delivered ∨ n ∈ b.dropped

/-- These were once put in. -/
def Holds (sent : List (Nat × α)) : Prop := ∀ x ∈ sent, b.history[x.1]? = some x.2

instance : Decidable b.Complete :=
  inferInstanceAs (Decidable (∀ n < b.history.length, _ ∨ _ ∨ _))

variable {b} {sent : List (Nat × α)} {gone : Nat × α → Bool}

theorem lt_of_getElem? {n : Nat} {a : α} (h : b.history[n]? = some a) : n < b.history.length :=
  (List.getElem?_eq_some_iff.1 h).1

/-- The number determines what was put in. -/
theorem eq_of_fst {x y : Nat × α} (hx : b.history[x.1]? = some x.2)
    (hy : b.history[y.1]? = some y.2) (h : x.1 = y.1) : x = y := by
  rw [h, hy] at hx
  exact Prod.ext h (Option.some.inj hx).symm

theorem tracked_empty : (empty : Outbox α).Tracked where
  nodup := List.nodup_nil
  known := fun _ hx => by cases hx
  delivered := fun _ hn => by cases hn
  dropped := fun _ hn => by cases hn

theorem complete_empty : (empty : Outbox α).Complete := fun _ hn => by cases hn

theorem Tracked.holds (h : b.Tracked) : b.Holds b.items := h.known

theorem Holds.push (h : b.Holds sent) (a : α) : (b.push a).Holds sent := by
  intro x hx
  have hold := h x hx
  exact (List.getElem?_append_left (lt_of_getElem? hold)).trans hold

theorem Holds.take (h : b.Holds sent) (k : Nat) : b.Holds (sent.take k) :=
  fun x hx => h x (List.mem_of_mem_take hx)

theorem holds_congr {c : Outbox α} (heq : c.history = b.history) (h : b.Holds sent) :
    c.Holds sent := by
  intro x hx
  rw [heq]
  exact h x hx

@[simp] theorem numbers_push (a : α) : (b.push a).numbers = b.numbers ++ [b.history.length] := by
  simp [push, numbers]

theorem history_trim (max : Nat) : (b.trim max).history = b.history := by
  unfold trim
  split <;> rfl

/-- What is in the outbox has a number that has been given out. -/
theorem Tracked.lt (h : b.Tracked) {n : Nat} (hn : n ∈ b.numbers) : n < b.history.length := by
  rcases List.mem_map.1 hn with ⟨x, hx, rfl⟩
  exact lt_of_getElem? (h.known x hx)

theorem Tracked.push (h : b.Tracked) (a : α) : (b.push a).Tracked := by
  have hgone : ∀ n, n < b.history.length ∧ n ∉ b.numbers →
      n < (b.push a).history.length ∧ n ∉ (b.push a).numbers := by
    rintro n ⟨hlt, hnot⟩
    have hlen : (b.push a).history.length = b.history.length + 1 := by simp [Outbox.push]
    refine ⟨by omega, ?_⟩
    rw [numbers_push, List.mem_append, List.mem_singleton]
    rintro (hmem | heq)
    · exact hnot hmem
    · omega
  refine ⟨?_, ?_, fun n hn => hgone n (h.delivered n hn), fun n hn => hgone n (h.dropped n hn)⟩
  · rw [numbers_push]
    refine List.nodup_append.2 ⟨h.nodup, List.nodup_singleton _, ?_⟩
    intro n hn m hm heq
    have hlt := h.lt hn
    rw [List.mem_singleton] at hm
    omega
  · intro x hx
    rcases List.mem_append.1 hx with hold | hnew
    · exact h.holds.push a x hold
    · obtain rfl := List.mem_singleton.1 hnew
      simp [Outbox.push]

theorem Complete.push (h : b.Complete) (a : α) : (b.push a).Complete := by
  intro n hn
  rw [numbers_push, List.mem_append, List.mem_singleton]
  have hlen : (b.push a).history.length = b.history.length + 1 := by simp [Outbox.push]
  by_cases hlast : n = b.history.length
  · exact .inl (.inr hlast)
  · rcases h n (by omega) with hmem | hrest
    · exact .inl (.inl hmem)
    · exact .inr hrest

theorem numbers_shift (k : Nat) :
    b.numbers = (b.items.take k).map Prod.fst ++ (b.shift k).numbers := by
  calc
    b.numbers = (b.items.take k ++ b.items.drop k).map Prod.fst := by
          rw [List.take_append_drop, numbers]
    _ = (b.items.take k).map Prod.fst ++ (b.shift k).numbers := by
          rw [List.map_append, numbers, shift]

theorem Tracked.shift (h : b.Tracked) (k : Nat) : (b.shift k).Tracked := by
  have hnodup := h.nodup
  rw [numbers_shift k, List.nodup_append] at hnodup
  have hstay : ∀ n, n < b.history.length ∧ n ∉ b.numbers →
      n < (b.shift k).history.length ∧ n ∉ (b.shift k).numbers := by
    rintro n ⟨hlt, hnot⟩
    refine ⟨hlt, fun hmem => hnot ?_⟩
    rw [numbers_shift k]
    exact List.mem_append_right _ hmem
  refine ⟨hnodup.2.1, fun x hx => h.known x (List.mem_of_mem_drop hx),
    fun n hn => hstay n (h.delivered n hn), ?_⟩
  intro n hn
  rcases List.mem_append.1 hn with hold | hnew
  · exact hstay n (h.dropped n hold)
  · refine ⟨h.lt ?_, fun hmem => hnodup.2.2 n hnew n hmem rfl⟩
    rw [numbers_shift k]
    exact List.mem_append_left _ hnew

theorem Complete.shift (h : b.Complete) (k : Nat) : (b.shift k).Complete := by
  intro n hn
  rcases h n hn with hmem | hdelivered | hdropped
  · rw [numbers_shift k, List.mem_append] at hmem
    rcases hmem with hnew | hstay
    · exact .inr (.inr (List.mem_append_right _ hnew))
    · exact .inl hstay
  · exact .inr (.inl hdelivered)
  · exact .inr (.inr (List.mem_append_left _ hdropped))

theorem Tracked.trim (h : b.Tracked) (max : Nat) : (b.trim max).Tracked := by
  unfold Outbox.trim
  split
  · exact h.shift _
  · exact h

theorem Complete.trim (h : b.Complete) (max : Nat) : (b.trim max).Complete := by
  unfold Outbox.trim
  split
  · exact h.shift _
  · exact h

/-- What has been sent is removed, whatever else is. -/
theorem Tracked.acknowledge (h : b.Tracked) (hsent : b.Holds sent)
    (hgone : ∀ x ∈ b.items, x ∈ sent → gone x = true) : (b.acknowledge sent gone).Tracked := by
  have hsub : (b.acknowledge sent gone).numbers.Sublist b.numbers := List.filter_sublist.map _
  refine ⟨h.nodup.sublist hsub, fun x hx => h.known x (List.mem_of_mem_filter hx), ?_,
    fun n hn => ⟨(h.dropped n hn).1, fun hmem => (h.dropped n hn).2 (hsub.subset hmem)⟩⟩
  intro n hn
  rcases List.mem_append.1 hn with hold | hnew
  · exact ⟨(h.delivered n hold).1, fun hmem => (h.delivered n hold).2 (hsub.subset hmem)⟩
  · rcases List.mem_map.1 hnew with ⟨x, hx, rfl⟩
    refine ⟨lt_of_getElem? (hsent x hx), fun hmem => ?_⟩
    rcases List.mem_map.1 hmem with ⟨y, hy, hxy⟩
    obtain ⟨hy, hstays⟩ := List.mem_filter.1 hy
    have heq : y = x := eq_of_fst (h.known y hy) (hsent x hx) hxy
    rw [hgone y hy (heq ▸ hx)] at hstays
    cases hstays

/-- An acknowledgement that removes nothing but what has been sent loses nothing. -/
theorem Complete.acknowledge (h : b.Complete)
    (hgone : ∀ x ∈ b.items, gone x = true → x.1 ∈ sent.map Prod.fst) :
    (b.acknowledge sent gone).Complete := by
  intro n hn
  rcases h n hn with hmem | hdelivered | hdropped
  · rcases List.mem_map.1 hmem with ⟨x, hx, rfl⟩
    cases hx' : gone x with
    | true => exact .inr (.inl (List.mem_append_right _ (hgone x hx hx')))
    | false =>
        exact .inl (List.mem_map_of_mem (List.mem_filter.2 ⟨hx, by rw [hx']; rfl⟩))
  · exact .inr (.inl (List.mem_append_left _ hdelivered))
  · exact .inr (.inr hdropped)

/-- An acknowledgement that loses nothing has removed nothing but what has been sent. -/
theorem mem_sent_of_complete (h : b.Tracked) (hafter : (b.acknowledge sent gone).Complete)
    {x : Nat × α} (hx : x ∈ b.items) (hgone : gone x = true) : x.1 ∈ sent.map Prod.fst := by
  have hmem : x.1 ∈ b.numbers := List.mem_map_of_mem hx
  rcases hafter x.1 (h.lt hmem) with hstays | hdelivered | hdropped
  · rcases List.mem_map.1 hstays with ⟨y, hy, hxy⟩
    obtain ⟨hy, hkeep⟩ := List.mem_filter.1 hy
    have heq : y = x := eq_of_fst (h.known y hy) (h.known x hx) hxy
    rw [heq, hgone] at hkeep
    cases hkeep
  · rcases List.mem_append.1 hdelivered with hold | hnew
    · exact absurd hmem (h.delivered _ hold).2
    · exact hnew
  · exact absurd hmem (h.dropped _ hdropped).2

theorem ofList_spec (as : List α) : (ofList as).Tracked ∧ (ofList as).Complete := by
  have hfold : ∀ b : Outbox α, b.Tracked ∧ b.Complete →
      (as.foldl push b).Tracked ∧ (as.foldl push b).Complete := by
    induction as with
    | nil =>
        exact fun _ h => h
    | cons a as ih =>
        exact fun b h => ih (b.push a) ⟨h.1.push a, h.2.push a⟩
  exact hfold empty ⟨tracked_empty, complete_empty⟩

end Outbox

end Library
end GateControl
