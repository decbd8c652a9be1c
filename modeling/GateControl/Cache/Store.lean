import Mathlib.Data.Int.Notation
import GateControl.Library.OrderedMap

/-!
# Store — the blob store of the home cache

`BlobStore` keeps an index of the blobs on disk (`items`) and the changes to it that have not been
reported to the server yet (`added`, `removed`).  The operations below are the synchronous parts of
the source's asynchronous methods: `commit` after the finished download has been renamed, `remove`
before the file is deleted.
-/

namespace GateControl
namespace Cache

open Library

/-- A lower-case hexadecimal sha256, the name of a blob. -/
abbrev Sha := String

structure Item where
  size : Int
  kind : Option String
  storedAt : Int
  lastUsedAt : Int
  deriving DecidableEq

structure BlobStore where
  items : OrderedMap Sha Item
  usedBytes : Int
  added : OrderedSet Sha
  removed : OrderedSet Sha
  deriving DecidableEq

namespace BlobStore

/-- A store as `open` leaves it: the index of the blobs found, no change recorded. -/
def opened (items : OrderedMap Sha Item) : BlobStore where
  items := items
  usedBytes := (items.values.map Item.size).sum
  added := .empty
  removed := .empty

/-- `_set`: enter a blob into the index. -/
def setItem (b : BlobStore) (sha : Sha) (v : Item) : BlobStore :=
  let old := match b.items.get sha with
    | some o => o.size
    | none => 0
  { b with items := b.items.set sha v, usedBytes := b.usedBytes - old + v.size }

/-- `_unset`: take a blob out of the index. -/
def unsetItem (b : BlobStore) (sha : Sha) : BlobStore :=
  match b.items.get sha with
  | none => b
  | some old => { b with items := b.items.delete sha, usedBytes := b.usedBytes - old.size }

/-- Take over a finished download. -/
def commit (b : BlobStore) (now : Int) (sha : Sha) (size : Int) (kind : Option String) :
    BlobStore :=
  let b := b.setItem sha { size := size, kind := kind, storedAt := now, lastUsedAt := 0 }
  -- a blob that comes back before its removal was reported is an addition only
  { b with added := OrderedSet.add b.added sha, removed := b.removed.delete sha }

def remove (b : BlobStore) (sha : Sha) : BlobStore :=
  if b.items.has sha then
    let b := b.unsetItem sha
    { b with removed := OrderedSet.add b.removed sha, added := b.added.delete sha }
  else b

/-! ## What is in the index and in the change sets -/

variable (b : BlobStore) {now : Int} {sha x : Sha} {size : Int} {kind : Option String}

theorem mem_items_commit :
    x ∈ (b.commit now sha size kind).items.keys ↔ x = sha ∨ x ∈ b.items.keys :=
  OrderedMap.mem_keys_set b.items

theorem mem_added_commit :
    x ∈ OrderedMap.keys (b.commit now sha size kind).added ↔
      x = sha ∨ x ∈ OrderedMap.keys b.added :=
  OrderedSet.mem_keys_add b.added

theorem mem_removed_commit :
    x ∈ OrderedMap.keys (b.commit now sha size kind).removed ↔
      x ≠ sha ∧ x ∈ OrderedMap.keys b.removed :=
  OrderedMap.mem_keys_delete b.removed

/-- What `remove` does to a blob of the index. -/
theorem remove_of_mem (h : sha ∈ b.items.keys) :
    (x ∈ (b.remove sha).items.keys ↔ x ≠ sha ∧ x ∈ b.items.keys) ∧
      (x ∈ OrderedMap.keys (b.remove sha).removed ↔ x = sha ∨ x ∈ OrderedMap.keys b.removed) ∧
      (x ∈ OrderedMap.keys (b.remove sha).added ↔ x ≠ sha ∧ x ∈ OrderedMap.keys b.added) := by
  -- in the index, so `_unset` finds an entry and the three parts can be read off
  rcases b.items.mem_keys_iff.1 h with ⟨v, hv⟩
  have hhas : b.items.has sha = true := b.items.has_iff.2 h
  have hremove : b.remove sha =
      { items := b.items.delete sha
        usedBytes := b.usedBytes - v.size
        added := b.added.delete sha
        removed := OrderedSet.add b.removed sha } := by
    simp [remove, unsetItem, hhas, hv]
  rw [hremove]
  exact ⟨b.items.mem_keys_delete, OrderedSet.mem_keys_add b.removed,
    OrderedMap.mem_keys_delete b.added⟩

theorem remove_of_not_mem (h : sha ∉ b.items.keys) : b.remove sha = b := by
  have hhas : ¬ b.items.has sha = true := fun hh => h (b.items.has_iff.1 hh)
  simp [remove, hhas]

/-- The change sets agree with the index: what is recorded as added is there, what is recorded as
removed is not. -/
structure Consistent : Prop where
  added_mem : ∀ x ∈ OrderedMap.keys b.added, x ∈ b.items.keys
  removed_not_mem : ∀ x ∈ OrderedMap.keys b.removed, x ∉ b.items.keys

variable {b}

/-- Without recorded changes there is nothing to agree with. -/
theorem consistent_of_empty (hadded : b.added = .empty) (hremoved : b.removed = .empty) :
    b.Consistent := by
  constructor
  · intro x hx
    rw [hadded] at hx
    exact absurd hx (OrderedMap.not_mem_keys_empty x)
  · intro x hx
    rw [hremoved] at hx
    exact absurd hx (OrderedMap.not_mem_keys_empty x)

theorem opened_consistent (items : OrderedMap Sha Item) : (opened items).Consistent :=
  consistent_of_empty rfl rfl

theorem Consistent.disjoint (h : b.Consistent) {x : Sha} (ha : x ∈ OrderedMap.keys b.added) :
    x ∉ OrderedMap.keys b.removed :=
  fun hr => h.removed_not_mem x hr (h.added_mem x ha)

theorem Consistent.commit (h : b.Consistent) : (b.commit now sha size kind).Consistent := by
  constructor
  · intro x hx
    rw [mem_added_commit] at hx
    rw [mem_items_commit]
    exact hx.imp_right (h.added_mem x)
  · intro x hx
    rw [mem_removed_commit] at hx
    rw [mem_items_commit, not_or]
    exact ⟨hx.1, h.removed_not_mem x hx.2⟩

theorem Consistent.remove (h : b.Consistent) : (b.remove sha).Consistent := by
  by_cases hm : sha ∈ b.items.keys
  · constructor
    · intro x hx
      rw [(remove_of_mem b hm).2.2] at hx
      rw [(remove_of_mem b hm).1]
      exact ⟨hx.1, h.added_mem x hx.2⟩
    · intro x hx
      rw [(remove_of_mem b hm).2.1] at hx
      rw [(remove_of_mem b hm).1]
      rintro ⟨hne, hmem⟩
      rcases hx with heq | hr
      · exact hne heq
      · exact h.removed_not_mem x hr hmem
  · rw [remove_of_not_mem b hm]
    exact h

end BlobStore

end Cache
end GateControl
