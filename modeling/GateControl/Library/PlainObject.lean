import GateControl.Library.OrderedMap
import GateControl.Library.Text

/-!
# PlainObject — lists filed under names in an object of the script language

An object `{}` that is used as a table of arrays has more than its own entries: a name that it does
not have itself is looked up in its prototype.  That is the prototype of all objects, or an array if
one was assigned to `__proto__`.  Where the prototype has something under the name, the idiom
`(o[name] = o[name] || []).push(v)` calls a method that is not there.
-/

namespace GateControl
namespace Library

/-- What every object inherits, `__proto__` apart. -/
def objectPrototype : List Text :=
  ["constructor", "hasOwnProperty", "isPrototypeOf", "propertyIsEnumerable", "toLocaleString",
    "toString", "valueOf", "__defineGetter__", "__defineSetter__", "__lookupGetter__",
    "__lookupSetter__"].map String.toList

/-- What every array inherits besides. -/
def arrayPrototype : List Text :=
  ["at", "concat", "copyWithin", "entries", "every", "fill", "filter", "find", "findIndex",
    "findLast", "findLastIndex", "flat", "flatMap", "forEach", "includes", "indexOf", "join", "keys",
    "lastIndexOf", "map", "pop", "push", "reduce", "reduceRight", "reverse", "shift", "slice", "some",
    "sort", "splice", "toReversed", "toSorted", "toSpliced", "unshift", "values", "with"].map
    String.toList

def protoName : Text := "__proto__".toList

/-- The names under which an object finds something that it does not have itself. -/
def inheritedNames : List Text := protoName :: objectPrototype

/-- The entries are in the order in which they were made, where the script language puts names that
are numbers first. -/
structure PlainObject (β : Type*) where
  own : OrderedMap Text (List β)
  proto : Option (List β)

namespace PlainObject

variable {β : Type*}

/-- `{}` -/
def empty : PlainObject β := ⟨OrderedMap.empty, none⟩

/-- What is found under a name: an array, something else that counts as true, or nothing that
does. -/
inductive Found (β : Type*) where
  | array (vs : List β)
  | other
  | falsy

/-- The element that an array has under a name. -/
def elementAt (vs : List β) (name : Text) : Option β :=
  (vs.zipIdx.find? fun e => decimal e.2 = name).map Prod.fst

section Lookup

variable (truthy : β → Bool) (o : PlainObject β) (name : Text)

/-- Look a name up that the object does not have itself. -/
def inherited : Bool :=
  match o.proto with
  | none => name ∈ objectPrototype
  | some vs =>
      if name = "length".toList then !vs.isEmpty
      else
        match elementAt vs name with
        | some v => truthy v
        | none => name ∈ arrayPrototype ∨ name ∈ objectPrototype

/-- `o[name]` -/
def get : Found β :=
  if name = protoName then
    match o.proto with
    | some vs => .array vs
    | none => .other
  else
    match o.own.get name with
    | some vs => .array vs
    | none => if o.inherited truthy name then .other else .falsy

/-- `o[name] = vs` -/
def assign (vs : List β) : PlainObject β :=
  if name = protoName then { o with proto := some vs } else { o with own := o.own.set name vs }

/-- `o[name].push(v)`; `none` if that is not an array. -/
def push (v : β) : Option (PlainObject β) :=
  match o.get truthy name with
  | .array vs => some (o.assign name (vs ++ [v]))
  | _ => none

/-- `(o[name] = o[name] || []).push(v)` -/
def append (v : β) : Option (PlainObject β) :=
  match o.get truthy name with
  | .array vs => some (o.assign name (vs ++ [v]))
  | .falsy => some (o.assign name [v])
  | .other => none

/-- The name is not the object's own, and what the object inherits under it counts as true. -/
def Inherits : Prop :=
  if name = protoName then o.proto = none
  else o.own.get name = none ∧ o.inherited truthy name = true

instance : Decidable (o.Inherits truthy name) :=
  if h : name = protoName then
    decidable_of_iff (o.proto.isNone = true) (by rw [Inherits, if_pos h, Option.isNone_iff_eq_none])
  else
    decidable_of_iff ((o.own.get name).isNone = true ∧ o.inherited truthy name = true)
      (by rw [Inherits, if_neg h, Option.isNone_iff_eq_none])

end Lookup

/-- All values that the object holds. -/
def values (o : PlainObject β) : List β := o.own.values.flatten ++ o.proto.getD []

section Facts

variable {truthy : β → Bool} {o o' : PlainObject β} {name : Text}

theorem get_eq_other_iff : o.get truthy name = .other ↔ o.Inherits truthy name := by
  rw [get, Inherits]
  by_cases hname : name = protoName
  · rw [if_pos hname, if_pos hname]
    cases o.proto <;> simp
  · rw [if_neg hname, if_neg hname]
    cases o.own.get name with
    | none =>
        cases o.inherited truthy name <;> simp
    | some vs =>
        simp

/-- The idiom fails exactly for inherited names. -/
theorem append_eq_none_iff {v : β} : o.append truthy name v = none ↔ o.Inherits truthy name := by
  rw [← get_eq_other_iff, append]
  cases o.get truthy name <;> simp

theorem mem_values {w : β} :
    w ∈ o.values ↔ (∃ k vs, o.own.get k = some vs ∧ w ∈ vs) ∨ ∃ vs, o.proto = some vs ∧ w ∈ vs := by
  have hown : w ∈ o.own.values.flatten ↔ ∃ k vs, o.own.get k = some vs ∧ w ∈ vs := by
    rw [List.mem_flatten]
    constructor
    · rintro ⟨vs, hvs, hw⟩
      obtain ⟨e, he, rfl⟩ := List.mem_map.1 hvs
      exact ⟨e.1, e.2, o.own.get_eq_some_iff.2 he, hw⟩
    · rintro ⟨k, vs, hk, hw⟩
      exact ⟨vs, List.mem_map.2 ⟨(k, vs), o.own.get_eq_some_iff.1 hk, rfl⟩, hw⟩
  rw [values, List.mem_append, hown]
  cases o.proto with
  | none =>
      simp
  | some vs =>
      simp

theorem mem_values_assign {vs : List β} {w : β} (hw : w ∈ (o.assign name vs).values) :
    w ∈ vs ∨ w ∈ o.values := by
  rw [assign] at hw
  split at hw
  · rcases mem_values.1 hw with hown | ⟨vs', hproto, hw⟩
    · exact Or.inr (mem_values.2 (Or.inl hown))
    · obtain rfl : vs = vs' := Option.some.inj hproto
      exact Or.inl hw
  · rcases mem_values.1 hw with ⟨k, vs', hk, hin⟩ | hproto
    · rcases OrderedMap.get_set_cases hk with ⟨rfl, rfl⟩ | ⟨-, hold⟩
      · exact Or.inl hin
      · exact Or.inr (mem_values.2 (Or.inl ⟨k, vs', hold, hin⟩))
    · exact Or.inr (mem_values.2 (Or.inr hproto))

theorem mem_values_of_get {vs : List β} (h : o.get truthy name = .array vs) {w : β} (hw : w ∈ vs) :
    w ∈ o.values := by
  rw [get] at h
  split at h
  · cases hproto : o.proto with
    | none =>
        simp [hproto] at h
    | some vs' =>
        rw [hproto] at h
        obtain rfl : vs' = vs := by simpa using h
        exact mem_values.2 (Or.inr ⟨vs', hproto, hw⟩)
  · cases hown : o.own.get name with
    | none =>
        simp only [hown] at h
        split at h <;> cases h
    | some vs' =>
        rw [hown] at h
        obtain rfl : vs' = vs := by simpa using h
        exact mem_values.2 (Or.inl ⟨name, vs', hown, hw⟩)

@[simp] theorem get_assign_self (vs : List β) :
    (o.assign name vs).get truthy name = .array vs := by
  rw [get, assign]
  split
  · rfl
  · rw [OrderedMap.get_set_self]

/-- What a push leaves under the name. -/
theorem eq_assign_of_push {v : β} (h : o.push truthy name v = some o') :
    ∃ vs, (∀ w ∈ vs, w ∈ o.values) ∧ o' = o.assign name (vs ++ [v]) := by
  rw [push] at h
  split at h
  · next vs hget =>
      exact ⟨vs, fun w hw => mem_values_of_get hget hw, (Option.some.inj h).symm⟩
  · cases h

theorem eq_assign_of_append {v : β} (h : o.append truthy name v = some o') :
    ∃ vs, (∀ w ∈ vs, w ∈ o.values) ∧ o' = o.assign name (vs ++ [v]) := by
  rw [append] at h
  split at h
  · next vs hget =>
      exact ⟨vs, fun w hw => mem_values_of_get hget hw, (Option.some.inj h).symm⟩
  · exact ⟨[], by simp, (Option.some.inj h).symm⟩
  · cases h

/-- Only the new value is added. -/
theorem mem_values_assign_append {vs : List β} {v w : β} (hvs : ∀ w ∈ vs, w ∈ o.values)
    (hw : w ∈ (o.assign name (vs ++ [v])).values) : w = v ∨ w ∈ o.values := by
  rcases mem_values_assign hw with hmem | hold
  · rcases List.mem_append.1 hmem with hmem | hmem
    · exact Or.inr (hvs w hmem)
    · exact Or.inl (List.mem_singleton.1 hmem)
  · exact Or.inr hold

end Facts

end PlainObject

end Library
end GateControl
