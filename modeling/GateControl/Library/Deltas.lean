import GateControl.Library.OrderedMap

/-!
# Deltas — a table that is kept in step by reports of changes

A report carries the records of all items, or of those whose tag is not the one that is remembered
from an earlier report.  As long as every remembered tag is that of an item whose record stands in
the table (`Known`), such a report leaves a record with the right tag for every item.
-/

namespace GateControl
namespace Library
namespace Deltas

variable {κ δ τ ρ β : Type*} [DecidableEq κ]

/-- A table after a report; a full one replaces what the table held. -/
def update (key : δ → κ) (f : δ → β) (full : Bool) (table : OrderedMap κ β) (items : List δ) :
    OrderedMap κ β :=
  items.foldl (fun table d => table.set (key d) (f d)) (if full then .empty else table)

/-- What is to be reported of the items. -/
def pending [DecidableEq τ] (key : δ → κ) (tag : δ → τ) (full : Bool) (sent : OrderedMap κ τ)
    (items : List δ) : List δ :=
  if full then items else items.filter fun d => sent.get (key d) ≠ some (tag d)

/-- Every remembered tag is that of an item whose record stands in the table. -/
def Known (tag : δ → τ) (record : δ → ρ) (sent : OrderedMap κ τ) (table : OrderedMap κ ρ) : Prop :=
  ∀ k t, sent.get k = some t → ∃ d, tag d = t ∧ table.get k = some (record d)

variable {key : δ → κ} {tag : δ → τ} {record : δ → ρ} {full : Bool} {items : List δ}

section Update

variable {f : δ → β} {table : OrderedMap κ β}

theorem get_foldl_of_not_mem {k : κ} (h : k ∉ items.map key) :
    (items.foldl (fun table d => table.set (key d) (f d)) table).get k = table.get k := by
  induction items generalizing table with
  | nil =>
      rfl
  | cons d items ih =>
      rw [List.map_cons, List.mem_cons, not_or] at h
      rw [List.foldl_cons, ih h.2, OrderedMap.get_set_ne _ h.1]

theorem get_update_of_not_mem {k : κ} (h : k ∉ items.map key) :
    (update key f full table items).get k = if full then none else table.get k := by
  rw [update, get_foldl_of_not_mem h]
  cases full with
  | true =>
      rfl
  | false =>
      rfl

theorem get_update_of_mem (hn : (items.map key).Nodup) {d : δ} (hd : d ∈ items) :
    (update key f full table items).get (key d) = some (f d) := by
  unfold update
  generalize (if full then .empty else table) = table
  induction items generalizing table with
  | nil =>
      cases hd
  | cons e items ih =>
      have hn' := List.nodup_cons.1 hn
      rw [List.foldl_cons]
      rcases List.mem_cons.1 hd with rfl | hmem
      · -- no later record has its key
        rw [get_foldl_of_not_mem hn'.1, OrderedMap.get_set_self]
      · exact ih hn'.2 hmem _

end Update

variable {sent : OrderedMap κ τ} {table : OrderedMap κ ρ}

/-- What is remembered after a report is known, if what was remembered before was, or if the report
was full. -/
theorem Known.update (hn : (items.map key).Nodup) (h : full = false → Known tag record sent table) :
    Known tag record (update key tag full sent items) (update key record full table items) := by
  intro k t ht
  by_cases hk : k ∈ items.map key
  · obtain ⟨d, hd, rfl⟩ := List.mem_map.1 hk
    rw [get_update_of_mem hn hd] at ht
    exact ⟨d, Option.some.inj ht, get_update_of_mem hn hd⟩
  · rw [get_update_of_not_mem hk] at ht ⊢
    cases full with
    | true =>
        cases ht
    | false =>
        exact h rfl k t ht

variable [DecidableEq τ]

theorem nodup_pending (hn : (items.map key).Nodup) :
    ((pending key tag full sent items).map key).Nodup := by
  unfold pending
  split
  · exact hn
  · exact hn.sublist (List.filter_sublist.map key)

/-- After a report the table has a record with the right tag for every item. -/
theorem exists_record (hn : (items.map key).Nodup) (h : full = false → Known tag record sent table)
    {d : δ} (hd : d ∈ items) : ∃ e, tag e = tag d ∧
      (update key record full table (pending key tag full sent items)).get (key d) =
        some (record e) := by
  by_cases hmem : d ∈ pending key tag full sent items
  · exact ⟨d, rfl, get_update_of_mem (nodup_pending hn) hmem⟩
  · cases full with
    | true =>
        exact absurd hd hmem
    | false =>
        have hsub : ∀ e ∈ pending key tag false sent items, e ∈ items :=
          fun e he => List.mem_of_mem_filter he
        -- nothing else with its key is reported
        have hkey : key d ∉ (pending key tag false sent items).map key := by
          intro hmap
          obtain ⟨e, he, hsame⟩ := List.mem_map.1 hmap
          obtain rfl := List.inj_on_of_nodup_map hn (hsub e he) hd hsame
          exact hmem he
        have htag : sent.get (key d) = some (tag d) := by
          by_contra hne
          exact hmem (List.mem_filter.2 ⟨hd, decide_eq_true hne⟩)
        rw [get_update_of_not_mem hkey]
        exact h rfl (key d) (tag d) htag

end Deltas
end Library
end GateControl
