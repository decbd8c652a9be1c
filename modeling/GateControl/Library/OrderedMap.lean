import Mathlib.Algebra.BigOperators.Group.List.Basic
import Mathlib.Data.List.Nodup
import Mathlib.Tactic.Abel

/-!
# OrderedMap — maps that remember insertion order

The map type of scripting languages: keys are distinct, iteration follows the order of first
insertion, replacing the value of a present key keeps its place, a deleted and re-inserted key goes
to the end.  The distinctness of the keys is a field, so every map of this type has it.
-/

namespace GateControl
namespace Library

/-- What is taken out of a list is missing from its sum. -/
theorem sum_eraseIdx {α M : Type*} [AddCommMonoid M] (f : α → M) {as : List α} {i : Nat} {a : α}
    (h : as[i]? = some a) : ((as.eraseIdx i).map f).sum + f a = (as.map f).sum := by
  induction as generalizing i with
  | nil =>
      simp at h
  | cons b as ih =>
      cases i with
      | zero =>
          obtain rfl : b = a := by simpa using h
          simp [add_comm]
      | succ i =>
          have hrest := ih (by simpa using h)
          simp only [List.eraseIdx_cons_succ, List.map_cons, List.sum_cons]
          rw [add_assoc, hrest]

/-- An insertion-ordered finite map. -/
structure OrderedMap (κ : Type*) (β : Type*) where
  entries : List (κ × β)
  nodup : (entries.map Prod.fst).Nodup

namespace OrderedMap

variable {κ β : Type*}

instance [DecidableEq κ] [DecidableEq β] : DecidableEq (OrderedMap κ β) := fun a b =>
  decidable_of_iff (a.entries = b.entries) <| by
    cases a
    cases b
    simp

instance [Repr κ] [Repr β] : Repr (OrderedMap κ β) :=
  ⟨fun m n => reprPrec m.entries n⟩

def empty : OrderedMap κ β := ⟨[], List.nodup_nil⟩

instance : Inhabited (OrderedMap κ β) := ⟨empty⟩

theorem eq_of_entries {m n : OrderedMap κ β} (h : m.entries = n.entries) : m = n := by
  cases m
  cases n
  cases h
  rfl

def keys (m : OrderedMap κ β) : List κ := m.entries.map Prod.fst

@[simp] theorem keys_empty : (empty : OrderedMap κ β).keys = [] := rfl

def values (m : OrderedMap κ β) : List β := m.entries.map Prod.snd

def size (m : OrderedMap κ β) : Nat := m.entries.length

theorem length_keys (m : OrderedMap κ β) : m.keys.length = m.size := List.length_map ..

variable [DecidableEq κ]

/-- Look a key up in a list of pairs. -/
def find (k : κ) : List (κ × β) → Option β
  | [] => none
  | e :: es => if e.1 = k then some e.2 else find k es

def get (m : OrderedMap κ β) (k : κ) : Option β := find k m.entries

def has (m : OrderedMap κ β) (k : κ) : Bool := (m.get k).isSome

/-- Replace the value of `k` in place, or append a new pair. -/
def put (k : κ) (v : β) : List (κ × β) → List (κ × β)
  | [] => [(k, v)]
  | e :: es => if e.1 = k then (k, v) :: es else e :: put k v es

theorem map_fst_put (k : κ) (v : β) (es : List (κ × β)) :
    (put k v es).map Prod.fst =
      if k ∈ es.map Prod.fst then es.map Prod.fst else es.map Prod.fst ++ [k] := by
  induction es with
  | nil =>
      simp [put]
  | cons e es ih =>
      by_cases h : e.1 = k
      · simp [put, h]
      · have h' : k ≠ e.1 := fun heq => h heq.symm
        by_cases hm : k ∈ es.map Prod.fst
        · simp only [put, h, if_false, List.map_cons, ih, hm, if_true, List.mem_cons, or_true]
        · simp only [put, h, if_false, List.map_cons, ih, hm, List.mem_cons, h', or_self,
            List.cons_append]

theorem put_of_not_mem {k : κ} (v : β) {es : List (κ × β)} (h : k ∉ es.map Prod.fst) :
    put k v es = es ++ [(k, v)] := by
  induction es with
  | nil =>
      rfl
  | cons e es ih =>
      simp only [List.map_cons, List.mem_cons, not_or] at h
      rw [put, if_neg (Ne.symm h.1), ih h.2, List.cons_append]

/-- Pairs of distinct keys are put one behind the other. -/
theorem foldl_put_of_nodup {es fs : List (κ × β)} (h : ((es ++ fs).map Prod.fst).Nodup) :
    fs.foldl (fun es f => put f.1 f.2 es) es = es ++ fs := by
  induction fs generalizing es with
  | nil =>
      rw [List.foldl_nil, List.append_nil]
  | cons f fs ih =>
      have hnot : f.1 ∉ es.map Prod.fst := by
        intro hm
        rw [List.map_append, List.nodup_append] at h
        exact h.2.2 f.1 hm f.1 (by simp) rfl
      have hsplit : es ++ f :: fs = es ++ [f] ++ fs := by simp
      rw [hsplit] at h ⊢
      rw [List.foldl_cons, put_of_not_mem f.2 hnot]
      exact ih h

def set (m : OrderedMap κ β) (k : κ) (v : β) : OrderedMap κ β where
  entries := put k v m.entries
  nodup := by
    rw [map_fst_put]
    split
    · exact m.nodup
    · rename_i h
      exact List.nodup_append.2 ⟨m.nodup, List.nodup_singleton k, by
        intro a ha b hb hab
        rw [List.mem_singleton] at hb
        exact h (hb ▸ hab ▸ ha)⟩

def delete (m : OrderedMap κ β) (k : κ) : OrderedMap κ β where
  entries := m.entries.filter fun e => e.1 ≠ k
  nodup := m.nodup.sublist (List.filter_sublist.map Prod.fst)

/-- Keep the pairs that satisfy a test. -/
def filter (m : OrderedMap κ β) (p : κ → β → Bool) : OrderedMap κ β where
  entries := m.entries.filter fun e => p e.1 e.2
  nodup := m.nodup.sublist (List.filter_sublist.map Prod.fst)

/-- New values under the same keys. -/
def mapValues {γ : Type*} (f : κ → β → γ) (m : OrderedMap κ β) : OrderedMap κ γ where
  entries := m.entries.map fun e => (e.1, f e.1 e.2)
  nodup := by
    rw [List.map_map]
    exact m.nodup

/-- Insert the keys that are not there yet. -/
def addMissing (ks : List κ) (f : κ → β) (m : OrderedMap κ β) : OrderedMap κ β :=
  ks.foldl (fun m k => if m.has k then m else m.set k (f k)) m

/-- Insert pairs one after the other. -/
def ofList (es : List (κ × β)) : OrderedMap κ β :=
  es.foldl (fun m e => m.set e.1 e.2) empty

/-! ## Lookups -/

variable {m : OrderedMap κ β} {k j : κ} {v w : β} {es : List (κ × β)}

@[simp] theorem get_empty (k : κ) : (empty : OrderedMap κ β).get k = none := rfl

theorem find_put_self (k : κ) (v : β) (es : List (κ × β)) : find k (put k v es) = some v := by
  induction es with
  | nil =>
      simp [put, find]
  | cons e es ih =>
      by_cases h : e.1 = k
      · simp [put, find, h]
      · simp [put, find, h, ih]

theorem find_put_ne (hne : j ≠ k) (v : β) (es : List (κ × β)) :
    find j (put k v es) = find j es := by
  induction es with
  | nil =>
      simp [put, find, hne.symm]
  | cons e es ih =>
      by_cases h : e.1 = k
      · simp [put, find, h, hne.symm]
      · simp [put, find, h, ih]

@[simp] theorem get_set_self (m : OrderedMap κ β) (k : κ) (v : β) :
    (m.set k v).get k = some v :=
  find_put_self k v m.entries

theorem get_set_ne (m : OrderedMap κ β) (hne : j ≠ k) (v : β) : (m.set k v).get j = m.get j :=
  find_put_ne hne v m.entries

theorem get_set (m : OrderedMap κ β) (k j : κ) (v : β) :
    (m.set k v).get j = if j = k then some v else m.get j := by
  by_cases h : j = k
  · subst h
    simp
  · simp [h, get_set_ne m h v]

/-- A value that is found after `set` is the new one or was there before. -/
theorem put_put (k : κ) (v w : β) (es : List (κ × β)) : put k w (put k v es) = put k w es := by
  induction es with
  | nil =>
      simp [put]
  | cons e es ih =>
      by_cases h : e.1 = k <;> simp [put, h, ih]

theorem set_set (m : OrderedMap κ β) (k : κ) (v w : β) : (m.set k v).set k w = m.set k w :=
  eq_of_entries (put_put k v w m.entries)

theorem get_set_cases (h : (m.set k v).get j = some w) :
    (j = k ∧ w = v) ∨ (j ≠ k ∧ m.get j = some w) := by
  by_cases hj : j = k
  · subst hj
    rw [get_set_self] at h
    exact Or.inl ⟨rfl, (Option.some.inj h).symm⟩
  · rw [get_set_ne m hj] at h
    exact Or.inr ⟨hj, h⟩

theorem find_filter_ne (hne : j ≠ k) (es : List (κ × β)) :
    find j (es.filter fun e => e.1 ≠ k) = find j es := by
  induction es with
  | nil =>
      rfl
  | cons e es ih =>
      by_cases h : e.1 = k
      · have hj : e.1 ≠ j := fun heq => hne (heq.symm.trans h)
        simp only [ne_eq, h, not_true_eq_false, decide_false, Bool.false_eq_true,
          not_false_eq_true, List.filter_cons_of_neg]
        simpa [find, hj] using ih
      · simp only [ne_eq, h, not_false_eq_true, decide_true, List.filter_cons_of_pos, find]
        split
        · rfl
        · exact ih

theorem find_filter_self (k : κ) (es : List (κ × β)) :
    find k (es.filter fun e => e.1 ≠ k) = none := by
  induction es with
  | nil =>
      rfl
  | cons e es ih =>
      by_cases h : e.1 = k
      · simpa [h] using ih
      · simpa [h, find] using ih

theorem get_delete (m : OrderedMap κ β) (k j : κ) :
    (m.delete k).get j = if j = k then none else m.get j := by
  by_cases h : j = k
  · subst h
    simpa [get, delete] using find_filter_self j m.entries
  · simpa [h, get, delete] using find_filter_ne h m.entries

theorem delete_of_not_mem (h : k ∉ m.keys) : m.delete k = m := by
  refine eq_of_entries (List.filter_eq_self.2 fun e he => ?_)
  have hne : e.1 ≠ k := fun heq => h (heq ▸ List.mem_map_of_mem he)
  exact decide_eq_true hne

/-- A value that is found after `delete` was there before, under another key. -/
theorem get_delete_cases (h : (m.delete k).get j = some v) : j ≠ k ∧ m.get j = some v := by
  rw [get_delete] at h
  split at h
  · cases h
  · rename_i hne
    exact ⟨hne, h⟩

theorem find_eq_some_iff (hn : (es.map Prod.fst).Nodup) : find k es = some v ↔ (k, v) ∈ es := by
  induction es with
  | nil =>
      simp [find]
  | cons e es ih =>
      have hn' := List.nodup_cons.1 hn
      by_cases h : e.1 = k
      · have hnot : ∀ w, (k, w) ∉ es := fun w hw => hn'.1 (List.mem_map.2 ⟨(k, w), hw, h.symm⟩)
        simp only [find, h, if_true, List.mem_cons, hnot v, or_false]
        constructor
        · intro heq
          exact Prod.ext h.symm (Option.some.inj heq).symm
        · intro heq
          rw [← heq]
      · have hne : (k, v) ≠ e := fun heq => h (heq ▸ rfl)
        simp only [find, h, if_false, List.mem_cons, hne, false_or]
        exact ih hn'.2

theorem get_eq_some_iff (m : OrderedMap κ β) : m.get k = some v ↔ (k, v) ∈ m.entries :=
  find_eq_some_iff m.nodup

theorem mem_keys_iff (m : OrderedMap κ β) : k ∈ m.keys ↔ ∃ v, m.get k = some v := by
  constructor
  · intro h
    rcases List.mem_map.1 h with ⟨e, he, rfl⟩
    exact ⟨e.2, m.get_eq_some_iff.2 he⟩
  · rintro ⟨v, hv⟩
    exact List.mem_map.2 ⟨(k, v), m.get_eq_some_iff.1 hv, rfl⟩

theorem keys_set (m : OrderedMap κ β) (k : κ) (v : β) :
    (m.set k v).keys = if k ∈ m.keys then m.keys else m.keys ++ [k] :=
  map_fst_put k v m.entries

/-- Where each value says what its key is, the values give the keys. -/
theorem map_values_eq_keys {f : β → κ} (h : ∀ k v, m.get k = some v → f v = k) :
    m.values.map f = m.keys := by
  rw [values, List.map_map]
  exact List.map_congr_left fun e he => h e.1 e.2 (m.get_eq_some_iff.2 he)

theorem mem_keys_set (m : OrderedMap κ β) : j ∈ (m.set k v).keys ↔ j = k ∨ j ∈ m.keys := by
  simp only [mem_keys_iff, get_set]
  by_cases h : j = k
  · simp [h]
  · simp [h]

theorem mem_keys_delete (m : OrderedMap κ β) : j ∈ (m.delete k).keys ↔ j ≠ k ∧ j ∈ m.keys := by
  simp only [mem_keys_iff, get_delete]
  by_cases h : j = k
  · simp [h]
  · simp [h]

omit [DecidableEq κ] in
theorem not_mem_keys_empty (k : κ) : k ∉ (empty : OrderedMap κ β).keys := by
  intro h
  cases h

theorem has_iff (m : OrderedMap κ β) : m.has k = true ↔ k ∈ m.keys := by
  rw [mem_keys_iff, has, Option.isSome_iff_exists]

theorem get_filter (m : OrderedMap κ β) (p : κ → β → Bool) :
    (m.filter p).get k = some v ↔ m.get k = some v ∧ p k v = true := by
  simp only [get_eq_some_iff, filter, List.mem_filter]

theorem find_eq_none_of_not_mem (h : k ∉ es.map Prod.fst) : find k es = none := by
  induction es with
  | nil =>
      rfl
  | cons e es ih =>
      simp only [List.map_cons, List.mem_cons, not_or] at h
      simp [find, Ne.symm h.1, ih h.2]

theorem find_map_self (f : κ → β) (k : κ) (ks : List κ) :
    find k (ks.map fun k => (k, f k)) = if k ∈ ks then some (f k) else none := by
  induction ks with
  | nil =>
      rfl
  | cons j ks ih =>
      by_cases h : j = k
      · simp [find, h]
      · simp [find, h, ih, Ne.symm h]

theorem mem_keys_foldl_set (es : List (κ × β)) (m : OrderedMap κ β) :
    k ∈ (es.foldl (fun m e => m.set e.1 e.2) m).keys ↔ k ∈ m.keys ∨ ∃ e ∈ es, e.1 = k := by
  induction es generalizing m with
  | nil =>
      simp
  | cons e es ih =>
      rw [List.foldl_cons, ih, mem_keys_set]
      simp only [List.mem_cons, exists_eq_or_imp, eq_comm (a := k)]
      grind

theorem mem_keys_ofList (es : List (κ × β)) : k ∈ (ofList es).keys ↔ ∃ e ∈ es, e.1 = k := by
  rw [ofList, mem_keys_foldl_set]
  exact ⟨fun h => h.resolve_left (not_mem_keys_empty k), Or.inr⟩

/-- Inserting pairs with different keys. -/
theorem get_foldl_set (hn : (es.map Prod.fst).Nodup) (m : OrderedMap κ β) (k : κ) :
    (es.foldl (fun m e => m.set e.1 e.2) m).get k = (find k es).or (m.get k) := by
  induction es generalizing m with
  | nil =>
      rfl
  | cons e es ih =>
      have hn' := List.nodup_cons.1 hn
      rw [List.foldl_cons, ih hn'.2]
      by_cases h : e.1 = k
      · subst h
        simp [find, find_eq_none_of_not_mem hn'.1]
      · simp [find, h, get_set_ne m (Ne.symm h)]

theorem find_map {γ : Type*} (f : β → γ) (k : κ) (es : List (κ × β)) :
    find k (es.map fun e => (e.1, f e.2)) = (find k es).map f := by
  induction es with
  | nil =>
      rfl
  | cons e es ih =>
      by_cases h : e.1 = k
      · simp [find, h]
      · simp [find, h, ih]

theorem get_mapValues {γ : Type*} (f : κ → β → γ) (m : OrderedMap κ β) (k : κ) :
    (m.mapValues f).get k = (m.get k).map (f k) := by
  rw [get, get, mapValues]
  dsimp only
  induction m.entries with
  | nil =>
      rfl
  | cons e es ih =>
      by_cases h : e.1 = k
      · subst h
        simp [find]
      · simp [find, h, ih]

theorem get_addMissing (ks : List κ) (f : κ → β) (m : OrderedMap κ β) (k : κ) :
    (m.addMissing ks f).get k = (m.get k).or (if k ∈ ks then some (f k) else none) := by
  induction ks generalizing m with
  | nil =>
      simp [addMissing]
  | cons j ks ih =>
      have hcons : m.addMissing (j :: ks) f =
          (if m.has j then m else m.set j (f j)).addMissing ks f := rfl
      rw [hcons, ih]
      by_cases hjk : j = k
      · subst hjk
        cases hget : m.get j with
        | some v => simp [has, hget]
        | none => simp [has, hget]
      · have hstep : (if m.has j then m else m.set j (f j)).get k = m.get k := by
          split
          · rfl
          · exact get_set_ne m (Ne.symm hjk) _
        rw [hstep]
        simp [Ne.symm hjk]

/-- What a walk over the entries yields for one key is what its value yields. -/
theorem filter_filterMap_entries {γ : Type*} {f : κ → β → Option γ} {key : γ → κ}
    (hkey : ∀ k v c, f k v = some c → key c = k) (m : OrderedMap κ β) (k : κ) :
    (m.entries.filterMap fun e => f e.1 e.2).filter (key · = k) = ((m.get k).bind (f k)).toList := by
  have hnone : ∀ es : List (κ × β), k ∉ es.map Prod.fst →
      (es.filterMap fun e => f e.1 e.2).filter (key · = k) = [] := by
    intro es hes
    rw [List.filter_eq_nil_iff]
    intro c hc
    obtain ⟨e, he, hfe⟩ := List.mem_filterMap.1 hc
    rw [decide_eq_true_eq, hkey _ _ _ hfe]
    exact fun heq => hes (heq ▸ List.mem_map_of_mem he)
  have hall : ∀ es : List (κ × β), (es.map Prod.fst).Nodup →
      (es.filterMap fun e => f e.1 e.2).filter (key · = k) =
        ((find k es).bind (f k)).toList := by
    intro es hn
    induction es with
    | nil =>
        rfl
    | cons e es ih =>
        have hn' := List.nodup_cons.1 hn
        by_cases hk : e.1 = k
        · subst hk
          cases hf : f e.1 e.2 with
          | none => simp [find, hf, hnone es hn'.1]
          | some c => simp [find, hf, hkey _ _ _ hf, hnone es hn'.1]
        · cases hf : f e.1 e.2 with
          | none => simp [find, hk, hf, ih hn'.2]
          | some c => simp [find, hk, hf, hkey _ _ _ hf, ih hn'.2]
  exact hall m.entries m.nodup

/-- The map that gives each of the keys its value under a function. -/
theorem get_ofList_keys {ks : List κ} (hn : ks.Nodup) (f : κ → β) (k : κ) :
    (ofList (ks.map fun k => (k, f k))).get k = if k ∈ ks then some (f k) else none := by
  have hkeys : ((ks.map fun k => (k, f k)).map Prod.fst).Nodup := by
    simpa [Function.comp_def] using hn
  rw [ofList, get_foldl_set hkeys, find_map_self, get_empty, Option.or_none]

/-- A map made of the same entries in another order. -/
theorem get_ofList_perm (h : es.Perm m.entries) (k : κ) : (ofList es).get k = m.get k := by
  have hn : (es.map Prod.fst).Nodup := (h.map Prod.fst).nodup_iff.2 m.nodup
  rw [ofList, get_foldl_set hn, get_empty, Option.or_none]
  refine Option.ext fun v => ?_
  rw [find_eq_some_iff hn, get_eq_some_iff]
  exact h.mem_iff

/-- The map whose values are all sent through a function. -/
theorem get_ofList_map {γ : Type*} (m : OrderedMap κ β) (f : β → γ) (k : κ) :
    (ofList (m.entries.map fun e => (e.1, f e.2))).get k = (m.get k).map f := by
  have hn : ((m.entries.map fun e => (e.1, f e.2)).map Prod.fst).Nodup := by
    rw [List.map_map]
    exact m.nodup
  rw [ofList, get_foldl_set hn, find_map, get_empty, Option.or_none, get]

/-- What a map that is made of a list holds is in the list. -/
theorem mem_of_get_ofList (h : (ofList es).get k = some v) : (k, v) ∈ es := by
  have hfold : ∀ (es : List (κ × β)) (m : OrderedMap κ β),
      (es.foldl (fun m e => m.set e.1 e.2) m).get k = some v → m.get k = some v ∨ (k, v) ∈ es := by
    intro es
    induction es with
    | nil =>
        exact fun m hm => Or.inl hm
    | cons e es ih =>
        intro m hm
        rcases ih (m.set e.1 e.2) hm with hset | hmem
        · rcases get_set_cases hset with ⟨rfl, rfl⟩ | ⟨_, hold⟩
          · exact Or.inr List.mem_cons_self
          · exact Or.inl hold
        · exact Or.inr (List.mem_cons_of_mem _ hmem)
  rcases hfold es empty h with hempty | hmem
  · cases hempty
  · exact hmem

/-! ## Values -/

theorem mem_values_iff (m : OrderedMap κ β) : v ∈ m.values ↔ ∃ k, m.get k = some v := by
  constructor
  · intro h
    rcases List.mem_map.1 h with ⟨e, he, rfl⟩
    exact ⟨e.1, m.get_eq_some_iff.2 he⟩
  · rintro ⟨k, hk⟩
    exact List.mem_map.2 ⟨(k, v), m.get_eq_some_iff.1 hk, rfl⟩

theorem mem_values_set (h : w ∈ (m.set k v).values) : w = v ∨ w ∈ m.values := by
  rcases (mem_values_iff _).1 h with ⟨j, hj⟩
  rcases get_set_cases hj with ⟨_, rfl⟩ | ⟨_, hold⟩
  · exact Or.inl rfl
  · exact Or.inr (m.mem_values_iff.2 ⟨j, hold⟩)

theorem mem_values_delete (h : w ∈ (m.delete k).values) : w ∈ m.values := by
  rcases (mem_values_iff _).1 h with ⟨j, hj⟩
  exact m.mem_values_iff.2 ⟨j, (get_delete_cases hj).2⟩

theorem mem_values_filter {q : β → Bool} :
    v ∈ (m.filter fun _ w => q w).values ↔ v ∈ m.values ∧ q v = true := by
  simp only [mem_values_iff, get_filter, exists_and_right]

/-! ## Sizes and sums -/

theorem length_put_le (k : κ) (v : β) (es : List (κ × β)) :
    (put k v es).length ≤ es.length + 1 := by
  induction es with
  | nil =>
      simp [put]
  | cons e es ih =>
      by_cases h : e.1 = k
      · simp [put, h]
      · simpa [put, h] using ih

theorem size_set_le (m : OrderedMap κ β) (k : κ) (v : β) : (m.set k v).size ≤ m.size + 1 :=
  length_put_le k v m.entries

theorem length_put_of_find (v : β) (h : find k es = some w) : (put k v es).length = es.length := by
  induction es with
  | nil =>
      cases h
  | cons e es ih =>
      by_cases hk : e.1 = k
      · simp [put, hk]
      · simpa [put, hk] using ih (by simpa [find, hk] using h)

/-- Replacing a value does not add an entry. -/
theorem size_set_of_get (h : m.get k = some w) (v : β) : (m.set k v).size = m.size :=
  length_put_of_find v h

theorem size_foldl_set_le (es : List (κ × β)) (m : OrderedMap κ β) :
    (es.foldl (fun m e => m.set e.1 e.2) m).size ≤ m.size + es.length := by
  induction es generalizing m with
  | nil =>
      exact Nat.le_refl _
  | cons e es ih =>
      have hset := m.size_set_le e.1 e.2
      have hrest := ih (m.set e.1 e.2)
      simp only [List.foldl_cons, List.length_cons]
      omega

theorem size_ofList_le (es : List (κ × β)) : (ofList es).size ≤ es.length := by
  simpa [ofList, empty, size] using size_foldl_set_le es empty

variable {M : Type*} [AddCommMonoid M]

/-- The sum of a quantity over the entries. -/
def sumBy (g : κ → β → M) (m : OrderedMap κ β) : M := (m.entries.map fun e => g e.1 e.2).sum

/-- The sum of a quantity over the values. -/
def sumOf (f : β → M) (m : OrderedMap κ β) : M := (m.values.map f).sum

omit [DecidableEq κ] in
@[simp] theorem sumOf_empty (f : β → M) : (empty : OrderedMap κ β).sumOf f = 0 := rfl

omit [DecidableEq κ] in
theorem sumOf_eq_sumBy (f : β → M) (m : OrderedMap κ β) : m.sumOf f = m.sumBy fun _ => f := by
  rw [sumOf, values, List.map_map]
  rfl

theorem sum_put (g : κ → β → M) (k : κ) (v : β) (es : List (κ × β)) :
    ((put k v es).map fun e => g e.1 e.2).sum + ((find k es).map (g k)).getD 0 =
      (es.map fun e => g e.1 e.2).sum + g k v := by
  induction es with
  | nil =>
      simp [put, find]
  | cons e es ih =>
      by_cases h : e.1 = k
      · simp only [put, find, h, if_true, List.map_cons, List.sum_cons, Option.map_some,
          Option.getD_some]
        abel
      · simp only [put, find, h, if_false, List.map_cons, List.sum_cons]
        rw [add_assoc, ih, add_assoc]

/-- The new entry counts instead of the old one. -/
theorem sumBy_set (g : κ → β → M) (m : OrderedMap κ β) (k : κ) (v : β) :
    (m.set k v).sumBy g + ((m.get k).map (g k)).getD 0 = m.sumBy g + g k v :=
  sum_put g k v m.entries

/-- The new value counts instead of the old one. -/
theorem sumOf_set (f : β → M) (m : OrderedMap κ β) (k : κ) (v : β) :
    (m.set k v).sumOf f + ((m.get k).map f).getD 0 = m.sumOf f + f v := by
  rw [sumOf_eq_sumBy, sumOf_eq_sumBy]
  exact m.sumBy_set (fun _ => f) k v

theorem sum_filter_ne (g : κ → β → M) (k : κ) (hn : (es.map Prod.fst).Nodup) :
    ((es.filter fun e => e.1 ≠ k).map fun e => g e.1 e.2).sum + ((find k es).map (g k)).getD 0 =
      (es.map fun e => g e.1 e.2).sum := by
  induction es with
  | nil =>
      simp [find]
  | cons e es ih =>
      have hn' := List.nodup_cons.1 hn
      have hrest := ih hn'.2
      by_cases h : e.1 = k
      · -- the key comes once, so no other entry goes
        rw [find_eq_none_of_not_mem (h ▸ hn'.1)] at hrest
        simp only [find, h, if_true, Option.map_some, Option.getD_some, List.map_cons,
          List.sum_cons, ne_eq, not_true_eq_false, decide_false, Bool.false_eq_true,
          not_false_eq_true, List.filter_cons_of_neg]
        rw [← hrest, Option.map_none, Option.getD_none, add_zero, add_comm]
      · simp only [find, h, if_false, ne_eq, not_false_eq_true, decide_true,
          List.filter_cons_of_pos, List.map_cons, List.sum_cons]
        rw [add_assoc, ← hrest]

/-- A deleted entry no longer counts. -/
theorem sumBy_delete (g : κ → β → M) (m : OrderedMap κ β) (k : κ) :
    (m.delete k).sumBy g + ((m.get k).map (g k)).getD 0 = m.sumBy g :=
  sum_filter_ne g k m.nodup

/-- A deleted value no longer counts. -/
theorem sumOf_delete (f : β → M) (m : OrderedMap κ β) (k : κ) :
    (m.delete k).sumOf f + ((m.get k).map f).getD 0 = m.sumOf f := by
  rw [sumOf_eq_sumBy, sumOf_eq_sumBy]
  exact m.sumBy_delete (fun _ => f) k

omit [DecidableEq κ] in
/-- A map falls into the entries that satisfy a test and those that do not. -/
theorem sumOf_filter (f : β → M) (m : OrderedMap κ β) (q : κ → β → Bool) :
    (m.filter q).sumOf f + (m.filter fun k v => !q k v).sumOf f = m.sumOf f := by
  simp only [sumOf, values, filter]
  induction m.entries with
  | nil =>
      simp
  | cons e es ih =>
      cases hq : q e.1 e.2 with
      | true =>
          simp only [List.filter_cons, hq, if_true, Bool.not_true, Bool.false_eq_true, if_false,
            List.map_cons, List.sum_cons]
          rw [add_assoc, ih]
      | false =>
          simp only [List.filter_cons, hq, if_true, Bool.not_false, Bool.false_eq_true, if_false,
            List.map_cons, List.sum_cons]
          rw [add_left_comm, ih]

end OrderedMap

/-- An insertion-ordered set. -/
abbrev OrderedSet (κ : Type*) := OrderedMap κ Unit

namespace OrderedSet

variable {κ : Type*} [DecidableEq κ]

def add (m : OrderedSet κ) (k : κ) : OrderedSet κ := OrderedMap.set m k ()

/-- Remove several elements. -/
def deleteAll (m : OrderedSet κ) (ks : List κ) : OrderedSet κ :=
  ks.foldl (fun m k => OrderedMap.delete m k) m

theorem mem_keys_add (m : OrderedSet κ) {k j : κ} :
    j ∈ OrderedMap.keys (add m k) ↔ j = k ∨ j ∈ OrderedMap.keys m :=
  OrderedMap.mem_keys_set m

theorem mem_keys_deleteAll (m : OrderedSet κ) (ks : List κ) {j : κ} :
    j ∈ OrderedMap.keys (deleteAll m ks) ↔ j ∉ ks ∧ j ∈ OrderedMap.keys m := by
  induction ks generalizing m with
  | nil =>
      simp [deleteAll]
  | cons k ks ih =>
      rw [deleteAll, List.foldl_cons]
      change j ∈ OrderedMap.keys (deleteAll (OrderedMap.delete m k) ks) ↔ _
      rw [ih, OrderedMap.mem_keys_delete, List.mem_cons, not_or, and_left_comm, and_assoc]

end OrderedSet

end Library
end GateControl
