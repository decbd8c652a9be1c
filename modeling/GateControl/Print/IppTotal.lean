import Mathlib.Logic.Function.Basic
import GateControl.Print.Ipp

/-!
# IppTotal — what the decoder makes of any bytes

The decoder comes to an end, reads only inside the buffer and nests collections at most eight deep.
It fails with an error of its own, except where a collection or a member of a collection has a name
that the object at hand inherits: then it calls a method that is not there.
-/

namespace GateControl
namespace Print
namespace Ipp

open Library

/-! ## What an item does -/

variable {buf : Bytes} {g : Group} {item : Item}

/-- Everything that an item can do to the state. -/
inductive Effect (s : State) : Item → State → Prop where
  | group (tag : UInt8) :
      Effect s (.group tag)
        { s with done := s.groups, group := some ⟨tag, PlainObject.empty⟩, last := none }
  | restack {item : Item} (stack : List Frame)
      (hstack : stack.map Frame.obj <:+ s.stack.map Frame.obj) :
      Effect s item { s with stack := stack }
  | member {tag : UInt8} {nl : Nat} {name : Text} {raw : Bytes} {top : Frame} {rest : List Frame}
      {obj : PlainObject Value} (key : Text) (vs : List Value) (hstack : s.stack = top :: rest)
      (hobj : s.heap[top.obj]? = some obj) (hvs : ∀ w ∈ vs, w ∈ obj.values) :
      Effect s (.attr tag nl name raw)
        { s with heap := s.heap.set top.obj (obj.assign key (vs ++ [readValue tag raw])) }
  | value {tag : UInt8} {nl : Nat} {name : Text} {raw : Bytes} {g : Group} (key : Text)
      (vs : List Value) (hgroup : s.group = some g) (hvs : ∀ w ∈ vs, w ∈ g.attrs.values) :
      Effect s (.attr tag nl name raw)
        { s with
          last := some key
          group := some { g with attrs := g.attrs.assign key (vs ++ [readValue tag raw]) } }
  | beginMember {item : Item} {top : Frame} {rest : List Frame} {obj : PlainObject Value}
      (key : Text) (vs : List Value) (hlen : s.stack.length < 8) (hstack : s.stack = top :: rest)
      (hobj : (s.heap ++ [PlainObject.empty])[top.obj]? = some obj)
      (hvs : ∀ w ∈ vs, w ∈ obj.values) :
      Effect s item (State.pushFrame s.heap.length
        { s with
          heap := (s.heap ++ [PlainObject.empty]).set top.obj
            (obj.assign key (vs ++ [Value.collection s.heap.length])) })
  | beginValue {item : Item} {g : Group} (key : Text) (vs : List Value) (hstack : s.stack = [])
      (hgroup : s.group = some g) (hvs : ∀ w ∈ vs, w ∈ g.attrs.values) :
      Effect s item (State.pushFrame s.heap.length
        { s with
          heap := s.heap ++ [PlainObject.empty]
          last := some key
          group := some
            { g with attrs := g.attrs.assign key (vs ++ [Value.collection s.heap.length]) } })
  | beginLoose {item : Item} (hlen : s.stack.length < 8) :
      Effect s item
        (State.pushFrame s.heap.length { s with heap := s.heap ++ [PlainObject.empty] })

section Effects

variable {s s' : State}

theorem appendMember_eq_ok {ref : Nat} {member : Text} {v : Value}
    (h : s.appendMember ref member v = .ok s') :
    s' = s ∧ s.heap[ref]? = none ∨ ∃ obj vs, s.heap[ref]? = some obj ∧ (∀ w ∈ vs, w ∈ obj.values) ∧
      s' = { s with heap := s.heap.set ref (obj.assign member (vs ++ [v])) } := by
  rw [State.appendMember] at h
  split at h
  · next hnone =>
      exact Or.inl ⟨(Except.ok.inj h).symm, hnone⟩
  · next obj hobj =>
      split at h
      · cases h
      · next obj' happend =>
          obtain ⟨vs, hvs, rfl⟩ := PlainObject.eq_assign_of_append happend
          exact Or.inr ⟨obj, vs, hobj, hvs, (Except.ok.inj h).symm⟩

theorem map_eq_ok {ε α β : Type*} {f : α → β} {r : Except ε α} {b : β} (h : r.map f = .ok b) :
    ∃ a, r = .ok a ∧ b = f a := by
  cases r with
  | error e =>
      cases h
  | ok a =>
      exact ⟨a, rfl, (Except.ok.inj h).symm⟩

theorem setAttrs_eq_ok {attrs : Option (PlainObject Value)} (h : s.setAttrs g attrs = .ok s') :
    ∃ o, attrs = some o ∧ s' = { s with group := some { g with attrs := o } } := by
  cases attrs with
  | none =>
      cases h
  | some o =>
      exact ⟨o, rfl, (Except.ok.inj h).symm⟩

theorem effect_of_beginCollection {nl : Nat} {name : Text} (hgroup : s.group = some g)
    (h : s.beginCollection g nl name = .ok s') : Effect s item s' := by
  rw [State.beginCollection] at h
  split at h
  · cases h
  · next hlen =>
    simp only at h
    split at h
    · next top rest hstack =>
        split at h
        · cases h
        · split at h
          · cases h
          · split at h
            · cases h
            · -- the new object becomes a member of the open one
              obtain ⟨s₁, hs₁, rfl⟩ := map_eq_ok h
              rcases appendMember_eq_ok hs₁ with ⟨rfl, -⟩ | ⟨obj, vs, hobj, hvs, rfl⟩
              · exact .beginLoose (by omega)
              · exact .beginMember _ vs (by omega) hstack hobj hvs
    · next hstack =>
        split at h
        · -- a value of the group, with the name or behind the last one
          obtain ⟨s₁, hs₁, rfl⟩ := map_eq_ok h
          obtain ⟨o, happend, rfl⟩ := setAttrs_eq_ok hs₁
          obtain ⟨vs, hvs, rfl⟩ := PlainObject.eq_assign_of_append happend
          exact .beginValue name vs hstack hgroup hvs
        · split at h
          · next last hlast =>
              obtain ⟨s₁, hs₁, rfl⟩ := map_eq_ok h
              obtain ⟨o, hpush, rfl⟩ := setAttrs_eq_ok hs₁
              obtain ⟨vs, hvs, rfl⟩ := PlainObject.eq_assign_of_push hpush
              have heffect : Effect s item _ := .beginValue last vs hstack hgroup hvs
              rwa [← hlast] at heffect
          · obtain rfl := Except.ok.inj h
            exact .beginLoose (by omega)

theorem effect_of_receive (h : s.receive item = .ok s') : Effect s item s' := by
  cases item with
  | group tag =>
      obtain rfl := Except.ok.inj h
      exact .group tag
  | attr tag nl name raw =>
      rw [State.receive] at h
      split at h
      · cases h
      · next g hgroup =>
        split at h
        · exact effect_of_beginCollection hgroup h
        · split at h
          · -- a collection is closed
            obtain rfl := Except.ok.inj h
            refine .restack s.stack.tail ?_
            rw [List.map_tail]
            exact List.tail_suffix _
          · split at h
            · next top rest hstack =>
                -- a member of the open collection: its name, or a value
                rw [State.memberValue] at h
                split at h
                · obtain rfl := Except.ok.inj h
                  refine .restack _ ?_
                  rw [hstack]
                  exact List.suffix_rfl
                · split at h
                  · obtain rfl := Except.ok.inj h
                    exact .restack s.stack List.suffix_rfl
                  · split at h
                    · obtain rfl := Except.ok.inj h
                      exact .restack s.stack List.suffix_rfl
                    · rcases appendMember_eq_ok h with ⟨rfl, -⟩ | ⟨obj, vs, hobj, hvs, rfl⟩
                      · exact .restack s'.stack List.suffix_rfl
                      · exact .member _ vs hstack hobj hvs
            · -- a value of the group
              rw [State.groupValue] at h
              split at h
              · obtain rfl := Except.ok.inj h
                exact .value name [] hgroup (by simp)
              · split at h
                · next last hlast =>
                    obtain ⟨o, hpush, rfl⟩ := setAttrs_eq_ok h
                    obtain ⟨vs, hvs, rfl⟩ := PlainObject.eq_assign_of_push hpush
                    have heffect : Effect s (.attr tag nl name raw) _ := .value last vs hgroup hvs
                    rwa [← hlast] at heffect
                · obtain rfl := Except.ok.inj h
                  exact .restack s.stack List.suffix_rfl

end Effects

/-! ## Runs -/

/-- What every item keeps holds when the loop has come to its end. -/
theorem decodeFrom_invariant {P : State → Prop}
    (hstep : ∀ o tag item o' s s', P s → buf[o]? = some tag → readItem buf o tag = .ok (item, o') →
      s.receive item = .ok s' → P s') (o : Nat) (s : State) (hs : P s) {body : Body}
    (h : decodeFrom buf o s = .ok body) : P body.state := by
  rw [decodeFrom] at h
  split at h
  · next hlt =>
      split at h
      · obtain rfl := Except.ok.inj h
        exact hs
      · split at h
        · cases h
        · next item o' hitem =>
            split at h
            · cases h
            · next s' hreceive =>
                have hless := readItem_lt hitem
                exact decodeFrom_invariant hstep o' s'
                  (hstep o buf[o] item o' s s' hs (List.getElem?_eq_getElem hlt) hitem hreceive) h
  · obtain rfl := Except.ok.inj h
    exact hs
termination_by buf.length - o

theorem readCounted_slice {o o' : Nat} {bs : Bytes} (h : readCounted buf o = .ok (bs, o')) :
    ∃ a b, a ≤ b ∧ b ≤ buf.length ∧ bs = slice buf a b := by
  rw [readCounted] at h
  split at h
  · cases h
  · next n _ =>
      split at h
      · cases h
      · obtain ⟨rfl, -⟩ := Prod.mk.inj (Except.ok.inj h)
        exact ⟨o + 2, o + 2 + n, by omega, by omega, rfl⟩

/-- The value of an attribute is a part of the buffer. -/
theorem readItem_slice {o o' : Nat} {tag tag' : UInt8} {nl : Nat} {name : Text} {raw : Bytes}
    (h : readItem buf o tag = .ok (.attr tag' nl name raw, o')) :
    tag' = tag ∧ ∃ a b, a ≤ b ∧ b ≤ buf.length ∧ raw = slice buf a b := by
  rw [readItem] at h
  split at h
  · cases h
  · cases hname : readCounted buf (o + 1) with
    | error e =>
        simp [hname, bind, Except.bind] at h
    | ok r =>
        cases hraw : readCounted buf r.2 with
        | error e =>
            simp [hname, hraw, bind, Except.bind] at h
        | ok r' =>
            simp only [hname, hraw, bind, Except.bind, pure, Except.pure, Except.ok.injEq,
              Prod.mk.injEq, Item.attr.injEq] at h
            obtain ⟨⟨rfl, -, -, rfl⟩, -⟩ := h
            exact ⟨rfl, readCounted_slice hraw⟩

/-! ## Values come from the buffer -/

/-- The value was read from a part of the buffer, or it is a collection. -/
def ReadFrom (buf : Bytes) (v : Value) : Prop :=
  (∃ r, v = .collection r) ∨
    ∃ tag a b, tag ∈ buf ∧ a ≤ b ∧ b ≤ buf.length ∧ v = readValue tag (slice buf a b)

/-- All objects: those of the groups, and the collections. -/
def State.objects (s : State) : List (PlainObject Value) := s.groups.map Group.attrs ++ s.heap

section Objects

variable {s s' : State}

theorem mem_objects_setGroup {attrs o : PlainObject Value} (ho : o ∈ s'.objects)
    (hgroup : s.group = some g) (hdone : s'.done = s.done)
    (hheap : s'.heap = s.heap ∨ s'.heap = s.heap ++ [PlainObject.empty])
    (hs' : s'.group = some { g with attrs := attrs }) :
    o = attrs ∨ o = PlainObject.empty ∨ o ∈ s.objects := by
  simp only [State.objects, State.groups, hs', hdone, hgroup, Option.toList_some, List.map_append,
    List.map_cons, List.map_nil, List.mem_append, List.mem_singleton] at ho ⊢
  rcases ho with (ho | rfl) | ho
  · exact Or.inr (Or.inr (Or.inl (Or.inl ho)))
  · exact Or.inl rfl
  · rcases hheap with hheap | hheap
    · exact Or.inr (Or.inr (Or.inr (hheap ▸ ho)))
    · rw [hheap, List.mem_append, List.mem_singleton] at ho
      rcases ho with ho | rfl
      · exact Or.inr (Or.inr (Or.inr ho))
      · exact Or.inr (Or.inl rfl)

/-- An item adds at most one value, its own or a new collection. -/
theorem values_of_effect (h : Effect s item s') {o : PlainObject Value} (ho : o ∈ s'.objects)
    {v : Value} (hv : v ∈ o.values) :
    (∃ o ∈ s.objects, v ∈ o.values) ∨ (∃ r, v = .collection r) ∨
      ∃ tag nl name raw, item = .attr tag nl name raw ∧ v = readValue tag raw := by
  -- an empty object has no values
  have hempty : v ∉ (PlainObject.empty : PlainObject Value).values := List.not_mem_nil
  cases h with
  | group tag =>
      have hobjects : ∀ o ∈ (s.groups ++ [Group.mk tag PlainObject.empty]).map Group.attrs ++ s.heap,
          o = PlainObject.empty ∨ o ∈ s.objects := by
        intro o ho
        rw [List.map_append, List.mem_append, List.mem_append] at ho
        rcases ho with (ho | ho) | ho
        · exact Or.inr (List.mem_append_left _ ho)
        · exact Or.inl (List.mem_singleton.1 ho)
        · exact Or.inr (List.mem_append_right _ ho)
      rcases hobjects o ho with rfl | ho
      · exact absurd hv hempty
      · exact Or.inl ⟨o, ho, hv⟩
  | restack stack =>
      exact Or.inl ⟨o, ho, hv⟩
  | @member tag nl name raw top rest obj key vs hstack hobj hvs =>
      rcases List.mem_append.1 ho with ho | ho
      · exact Or.inl ⟨o, List.mem_append_left _ ho, hv⟩
      · rcases List.mem_or_eq_of_mem_set ho with ho | rfl
        · exact Or.inl ⟨o, List.mem_append_right _ ho, hv⟩
        · rcases PlainObject.mem_values_assign_append hvs hv with rfl | hold
          · exact Or.inr (Or.inr ⟨tag, nl, name, raw, rfl, rfl⟩)
          · exact Or.inl ⟨obj, List.mem_append_right _ (List.mem_of_getElem? hobj), hold⟩
  | @value tag nl name raw g key vs hgroup hvs =>
      -- the object that is written has the new value beside its old ones
      rcases mem_objects_setGroup ho hgroup rfl (Or.inl rfl) rfl with rfl | rfl | ho
      · rcases PlainObject.mem_values_assign_append hvs hv with rfl | hold
        · exact Or.inr (Or.inr ⟨tag, nl, name, raw, rfl, rfl⟩)
        · exact Or.inl ⟨g.attrs, by simp [State.objects, State.groups, hgroup], hold⟩
      · exact absurd hv hempty
      · exact Or.inl ⟨o, ho, hv⟩
  | @beginMember _ top rest obj key vs hlen hstack hobj hvs =>
      rcases List.mem_append.1 ho with ho | ho
      · exact Or.inl ⟨o, List.mem_append_left _ ho, hv⟩
      · rcases List.mem_or_eq_of_mem_set ho with ho | rfl
        · rcases List.mem_append.1 ho with ho | ho
          · exact Or.inl ⟨o, List.mem_append_right _ ho, hv⟩
          · rw [List.mem_singleton.1 ho] at hv
            exact absurd hv hempty
        · rcases PlainObject.mem_values_assign_append hvs hv with rfl | hold
          · exact Or.inr (Or.inl ⟨_, rfl⟩)
          · rcases List.mem_append.1 (List.mem_of_getElem? hobj) with hobj | hobj
            · exact Or.inl ⟨obj, List.mem_append_right _ hobj, hold⟩
            · rw [List.mem_singleton.1 hobj] at hold
              exact absurd hold List.not_mem_nil
  | @beginValue _ g key vs hstack hgroup hvs =>
      rcases mem_objects_setGroup ho hgroup rfl (Or.inr rfl) rfl with rfl | rfl | ho
      · rcases PlainObject.mem_values_assign_append hvs hv with rfl | hold
        · exact Or.inr (Or.inl ⟨_, rfl⟩)
        · exact Or.inl ⟨g.attrs, by simp [State.objects, State.groups, hgroup], hold⟩
      · exact absurd hv hempty
      · exact Or.inl ⟨o, ho, hv⟩
  | beginLoose hlen =>
      rcases List.mem_append.1 ho with ho | ho
      · exact Or.inl ⟨o, List.mem_append_left _ ho, hv⟩
      · rcases List.mem_append.1 ho with ho | ho
        · exact Or.inl ⟨o, List.mem_append_right _ ho, hv⟩
        · rw [List.mem_singleton.1 ho] at hv
          exact absurd hv hempty

theorem readFrom_of_decodeFrom {o : Nat} {body : Body}
    (h : decodeFrom buf o State.start = .ok body) :
    ∀ obj ∈ body.state.objects, ∀ v ∈ obj.values, ReadFrom buf v := by
  refine decodeFrom_invariant (P := fun s => ∀ obj ∈ s.objects, ∀ v ∈ obj.values, ReadFrom buf v)
    ?_ o State.start ?_ h
  · intro o tag item o' s s' hs htag hitem hreceive obj hobj v hv
    rcases values_of_effect (effect_of_receive hreceive) hobj hv with ⟨old, hold, hv⟩ | hcoll |
      ⟨tag', nl, name, raw, rfl, rfl⟩
    · exact hs old hold v hv
    · exact Or.inl hcoll
    · obtain ⟨rfl, a, b, hab, hb, rfl⟩ := readItem_slice hitem
      exact Or.inr ⟨tag', a, b, List.mem_of_getElem? htag, hab, hb, rfl⟩
  · intro obj hobj
    cases hobj

end Objects

/-! ## Nesting -/

/-- Collections are nested at most as deep below the value. -/
def NestsAtMost (heap : List (PlainObject Value)) : Nat → Value → Prop
  | 0, v => ∀ r, v ≠ .collection r
  | d + 1, v => ∀ r, v = .collection r → ∀ obj, heap[r]? = some obj →
      ∀ w ∈ obj.values, NestsAtMost heap d w

/-- The objects that are open, from the top on, have the levels down to one. -/
def OpenAt (level : Nat → Nat) (n : Nat) : List Nat → Prop
  | [] => True
  | r :: rs => r < n ∧ level r = rs.length + 1 ∧ OpenAt level n rs

theorem OpenAt.of_suffix {level : Nat → Nat} {n : Nat} {rs rs' : List Nat} (h : OpenAt level n rs)
    (hsuffix : rs' <:+ rs) : OpenAt level n rs' := by
  induction rs with
  | nil =>
      rw [List.suffix_nil.1 hsuffix]
      trivial
  | cons r rs ih =>
      rcases List.suffix_cons_iff.1 hsuffix with rfl | hrest
      · exact h
      · exact ih h.2.2 hrest

/-- Every collection has a level, that of the collection it is in and one more. -/
structure Nested (s : State) (level : Nat → Nat) : Prop where
  opened : OpenAt level s.heap.length (s.stack.map Frame.obj)
  bound : ∀ r < s.heap.length, level r ≤ 8
  first : ∀ g ∈ s.groups, ∀ r, Value.collection r ∈ g.attrs.values → r < s.heap.length ∧ level r = 1
  inner : ∀ p obj, s.heap[p]? = some obj → ∀ r, Value.collection r ∈ obj.values →
    r < s.heap.length ∧ level r = level p + 1

section Nesting

variable {s s' : State} {level : Nat → Nat}

theorem readValue_ne_collection (tag : UInt8) (raw : Bytes) (r : Nat) :
    readValue tag raw ≠ .collection r := by
  unfold readValue intOrNull Option.elim
  repeat' split
  all_goals simp

/-- A level for the object that is made next. -/
theorem OpenAt.update {n k : Nat} {rs : List Nat} (h : OpenAt level n rs) :
    OpenAt (Function.update level n k) (n + 1) rs := by
  induction rs with
  | nil =>
      trivial
  | cons r rs ih =>
      refine ⟨Nat.lt_succ_of_lt h.1, ?_, ih h.2.2⟩
      rw [Function.update_of_ne (Nat.ne_of_lt h.1), h.2.1]

/-- The groups do not know the new object yet, and neither do the other objects. -/
theorem Nested.begin (h : Nested s level) (hlen : s.stack.length < 8) :
    Nested (State.pushFrame s.heap.length { s with heap := s.heap ++ [PlainObject.empty] })
      (Function.update level s.heap.length (s.stack.length + 1)) := by
  have hold : ∀ r, r < s.heap.length →
      Function.update level s.heap.length (s.stack.length + 1) r = level r :=
    fun r hr => Function.update_of_ne (Nat.ne_of_lt hr) _ _
  refine ⟨?_, ?_, ?_, ?_⟩
  · simp only [State.pushFrame, List.map_cons, List.length_append, List.length_singleton]
    refine ⟨Nat.lt_succ_self _, ?_, h.opened.update⟩
    rw [Function.update_self, List.length_map]
  · intro r hr
    simp only [State.pushFrame, List.length_append, List.length_singleton] at hr
    rcases Nat.lt_succ_iff_lt_or_eq.1 hr with hlt | rfl
    · rw [hold r hlt]
      exact h.bound r hlt
    · rw [Function.update_self]
      omega
  · intro g hg r hr
    obtain ⟨hlt, hlevel⟩ := h.first g hg r hr
    refine ⟨?_, (hold r hlt).trans hlevel⟩
    simp only [State.pushFrame, List.length_append, List.length_singleton]
    omega
  · intro p obj hobj r hr
    simp only [State.pushFrame] at hobj
    have hmem : s.heap[p]? = some obj := by
      rcases Nat.lt_trichotomy p s.heap.length with hlt | rfl | hgt
      · rwa [List.getElem?_append_left hlt] at hobj
      · -- the new object is empty
        rw [List.getElem?_append_right (Nat.le_refl _), Nat.sub_self] at hobj
        obtain rfl : PlainObject.empty = obj := by simpa using hobj
        cases hr
      · rw [List.getElem?_eq_none (by simp; omega)] at hobj
        cases hobj
    obtain ⟨hlt, hlevel⟩ := h.inner p obj hmem r hr
    refine ⟨?_, ?_⟩
    · simp only [State.pushFrame, List.length_append, List.length_singleton]
      omega
    · rw [hold r hlt, hold p (List.getElem?_eq_some_iff.1 hmem).1, hlevel]

/-- Something is added to an open object. -/
theorem Nested.set (h : Nested s level) {p : Nat} {obj obj' : PlainObject Value}
    (hobj : s.heap[p]? = some obj)
    (hvalues : ∀ r, Value.collection r ∈ obj'.values →
      Value.collection r ∈ obj.values ∨ r < s.heap.length ∧ level r = level p + 1) :
    Nested { s with heap := s.heap.set p obj' } level := by
  refine ⟨?_, ?_, ?_, ?_⟩
  · rw [List.length_set]
    exact h.opened
  · rw [List.length_set]
    exact h.bound
  · rw [List.length_set]
    exact h.first
  · intro q other hother r hr
    simp only [List.length_set]
    by_cases hq : p = q
    · subst hq
      rw [List.getElem?_set_self (List.getElem?_eq_some_iff.1 hobj).1] at hother
      obtain rfl := Option.some.inj hother
      rcases hvalues r hr with hold | hnew
      · exact h.inner p obj hobj r hold
      · exact hnew
    · rw [List.getElem?_set_ne hq] at hother
      exact h.inner q other hother r hr

/-- Something is added to the attributes of the group. -/
theorem Nested.setGroup (h : Nested s level) {attrs : PlainObject Value} (hgroup : s.group = some g)
    (hvalues : ∀ r, Value.collection r ∈ attrs.values →
      Value.collection r ∈ g.attrs.values ∨ r < s.heap.length ∧ level r = 1) (last : Option Text) :
    Nested { s with last := last, group := some { g with attrs := attrs } } level := by
  refine ⟨h.opened, h.bound, ?_, h.inner⟩
  intro g' hg' r hr
  rcases List.mem_append.1 hg' with hg' | hg'
  · exact h.first g' (List.mem_append_left _ hg') r hr
  · obtain rfl := List.mem_singleton.1 hg'
    rcases hvalues r hr with hold | hnew
    · exact h.first g (List.mem_append_right _ (by simp [hgroup])) r hold
    · exact hnew

theorem nested_of_effect (hs : Nested s level) (h : Effect s item s') :
    ∃ level', Nested s' level' := by
  cases h with
  | group tag =>
      refine ⟨level, hs.opened, hs.bound, ?_, hs.inner⟩
      intro g hg r hr
      rcases List.mem_append.1 hg with hg | hg
      · exact hs.first g hg r hr
      · obtain rfl := List.mem_singleton.1 hg
        cases hr
  | restack stack hstack =>
      exact ⟨level, hs.opened.of_suffix hstack, hs.bound, hs.first, hs.inner⟩
  | @member tag nl name raw top rest obj key vs hstack hobj hvs =>
      refine ⟨level, hs.set hobj ?_⟩
      intro r hr
      -- a value that was read is no collection
      rcases PlainObject.mem_values_assign_append hvs hr with heq | hold
      · exact absurd heq.symm (readValue_ne_collection tag raw r)
      · exact Or.inl hold
  | @value tag nl name raw g key vs hgroup hvs =>
      refine ⟨level, hs.setGroup hgroup ?_ _⟩
      intro r hr
      rcases PlainObject.mem_values_assign_append hvs hr with heq | hold
      · exact absurd heq.symm (readValue_ne_collection tag raw r)
      · exact Or.inl hold
  | @beginMember _ top rest obj key vs hlen hstack hobj hvs =>
      have hopened := hs.opened
      rw [hstack, List.map_cons] at hopened
      refine ⟨_, (hs.begin hlen).set hobj ?_⟩
      intro r hr
      rcases PlainObject.mem_values_assign_append hvs hr with heq | hold
      · -- the new object is one level below the one that was on top
        obtain rfl := Value.collection.inj heq
        refine Or.inr ⟨?_, ?_⟩
        · simp [State.pushFrame]
        · rw [Function.update_self, Function.update_of_ne (Nat.ne_of_lt hopened.1), hopened.2.1,
            hstack, List.length_cons, List.length_map]
      · exact Or.inl hold
  | @beginValue _ g key vs hstack hgroup hvs =>
      refine ⟨_, (hs.begin (by rw [hstack]; decide)).setGroup hgroup ?_ _⟩
      intro r hr
      rcases PlainObject.mem_values_assign_append hvs hr with heq | hold
      · obtain rfl := Value.collection.inj heq
        refine Or.inr ⟨?_, ?_⟩
        · simp [State.pushFrame]
        · rw [Function.update_self, hstack]
          rfl
      · exact Or.inl hold
  | beginLoose hlen =>
      exact ⟨_, hs.begin hlen⟩

theorem nested_start : Nested State.start fun _ => 0 :=
  ⟨trivial, fun _ hr => absurd hr (Nat.not_lt_zero _), fun _ hg => absurd hg List.not_mem_nil,
    fun _ _ hobj => by cases hobj⟩

/-- Below a collection of level `k`, nothing is deeper than the ninth level. -/
theorem Nested.nestsAtMost (h : Nested s level) {d p : Nat} (hp : p < s.heap.length)
    (hd : 9 ≤ level p + d) : NestsAtMost s.heap d (.collection p) := by
  induction d generalizing p with
  | zero =>
      have hle := h.bound p hp
      omega
  | succ d ih =>
      intro r hr obj hobj w hw
      obtain rfl := Value.collection.inj hr
      have hinner := h.inner p obj hobj
      cases w with
      | collection q =>
          obtain ⟨hq, hlevel⟩ := hinner q hw
          exact ih hq (by omega)
      | _ =>
          cases d <;> intro r hr <;> cases hr

theorem nestsAtMost_of_decodeFrom {o : Nat} {body : Body}
    (h : decodeFrom buf o State.start = .ok body) :
    ∀ g ∈ body.state.groups, ∀ v ∈ g.attrs.values, NestsAtMost body.state.heap 8 v := by
  obtain ⟨level, hnested⟩ := decodeFrom_invariant (P := fun s => ∃ level, Nested s level)
    (fun _ _ _ _ _ _ hs _ _ hreceive => nested_of_effect hs.choose_spec (effect_of_receive hreceive))
    o State.start ⟨_, nested_start⟩ h
  intro g hg v hv
  cases v with
  | collection r =>
      obtain ⟨hr, hlevel⟩ := hnested.first g hg r hv
      exact hnested.nestsAtMost hr (by omega)
  | _ =>
      intro r hr
      cases hr

end Nesting

/-! ## Where a name is inherited -/

namespace State

variable (s : State)

/-- The object and the member that a value in an open collection is filed under. -/
def memberPlace (top : Frame) : Option (PlainObject Value × Text) :=
  match top.member with
  | none => none
  | some member => if member = [] then none else (s.heap[top.obj]?).map fun obj => (obj, member)

/-- The object and the name to which `(o[name] = o[name] || []).push(v)` is applied, if an item gets
so far. -/
def filing : Item → Option (PlainObject Value × Text)
  | .group _ => none
  | .attr tag nl name _ =>
      match s.group with
      | none => none
      | some g =>
          if tag = Tag.begCollection then
            if 8 ≤ s.stack.length then none
            else
              match s.stack with
              | [] => if nl ≠ 0 then some (g.attrs, name) else none
              | top :: _ => if nl ≠ 0 then none else s.memberPlace top
          else if tag = Tag.endCollection then none
          else
            match s.stack with
            | [] => none
            | top :: _ => if tag = Tag.memberAttrName then none else s.memberPlace top

/-- The object that the item is filed in inherits nothing under its name. -/
def Harmless (item : Item) : Prop :=
  ∀ p ∈ s.filing item, ¬ p.1.Inherits Value.truthy p.2

instance (item : Item) : Decidable (s.Harmless item) :=
  match h : s.filing item with
  | none => isTrue fun p hp => by simp [h] at hp
  | some p => decidable_of_iff (¬ p.1.Inherits Value.truthy p.2) (by simp [Harmless, h])

/-- The last name has an array, and the open collections are in the heap. -/
structure Filed : Prop where
  last : ∀ g last, s.group = some g → s.last = some last →
    ∃ vs, g.attrs.get Value.truthy last = .array vs
  opened : ∀ f ∈ s.stack, f.obj < s.heap.length

end State

section Failures

variable {s s' : State}

theorem appendMember_error_iff {ref : Nat} {member : Text} {v : Value} :
    s.appendMember ref member v = .error .typeError ↔
      ∃ obj, s.heap[ref]? = some obj ∧ obj.Inherits Value.truthy member := by
  rw [State.appendMember]
  cases hobj : s.heap[ref]? with
  | none =>
      simp
  | some obj =>
      simp only [Option.some.injEq, exists_eq_left']
      rw [← PlainObject.append_eq_none_iff (v := v)]
      cases obj.append Value.truthy member v <;> simp

theorem setAttrs_error_iff {attrs : Option (PlainObject Value)} :
    s.setAttrs g attrs = .error .typeError ↔ attrs = none := by
  cases attrs <;> simp [State.setAttrs]

theorem map_error_iff {ε α β : Type*} {f : α → β} {r : Except ε α} {e : ε} :
    r.map f = .error e ↔ r = .error e := by
  cases r <;> simp [Except.map]

theorem push_ne_none {last : Text} {v : Value} (hs : s.Filed) (hgroup : s.group = some g)
    (hlast : s.last = some last) : g.attrs.push Value.truthy last v ≠ none := by
  obtain ⟨vs, hvs⟩ := hs.last g last hgroup hlast
  simp [PlainObject.push, hvs]

/-- A member is filed in an object of the heap. -/
theorem memberPlace_iff {top : Frame} {member : Text} (hmember : top.member = some member)
    (hne : member ≠ []) {P : PlainObject Value × Text → Prop} :
    (∃ p ∈ s.memberPlace top, P p) ↔ ∃ obj, s.heap[top.obj]? = some obj ∧ P (obj, member) := by
  rw [State.memberPlace, hmember]
  simp only [if_neg hne]
  cases s.heap[top.obj]? <;> simp

theorem not_harmless_iff :
    ¬ s.Harmless item ↔ ∃ p ∈ s.filing item, p.1.Inherits Value.truthy p.2 := by
  simp [State.Harmless]

theorem beginCollection_error_iff (hs : s.Filed) (hgroup : s.group = some g) {nl : Nat} {name raw} :
    s.beginCollection g nl name = .error .typeError ↔
      ¬ s.Harmless (.attr Tag.begCollection nl name raw) := by
  have hfiling : s.filing (.attr Tag.begCollection nl name raw) =
      if 8 ≤ s.stack.length then none
      else
        match s.stack with
        | [] => if nl ≠ 0 then some (g.attrs, name) else none
        | top :: _ => if nl ≠ 0 then none else s.memberPlace top := by
    simp only [State.filing, hgroup, if_true]
  rw [not_harmless_iff, hfiling, State.beginCollection]
  split
  · simp [badResponse]
  · cases hstack : s.stack with
    | nil =>
        simp only
        split
        · simp only [map_error_iff, setAttrs_error_iff, PlainObject.append_eq_none_iff,
            Option.mem_some_iff, exists_eq_left']
        · cases hlast : s.last with
          | none =>
              simp
          | some last =>
              simp [map_error_iff, setAttrs_error_iff, push_ne_none hs hgroup hlast]
    | cons top rest =>
        simp only
        split
        · simp [badResponse]
        · cases hmember : top.member with
          | none =>
              simp [badResponse, State.memberPlace, hmember]
          | some member =>
              simp only
              split
              · next hempty =>
                  simp [badResponse, State.memberPlace, hmember, hempty]
              · next hne =>
                  -- the new object is behind the open one
                  have hlt : top.obj < s.heap.length := hs.opened top (by simp [hstack])
                  rw [map_error_iff, appendMember_error_iff, memberPlace_iff hmember hne]
                  simp only [List.getElem?_append_left hlt]

/-- An item makes the decoder call a missing method exactly where a name is inherited. -/
theorem receive_error_iff (hs : s.Filed) (item : Item) :
    s.receive item = .error .typeError ↔ ¬ s.Harmless item := by
  cases item with
  | group tag =>
      simp [State.receive, State.Harmless, State.filing]
  | attr tag nl name raw =>
      rw [State.receive]
      cases hgroup : s.group with
      | none =>
          simp [badResponse, State.Harmless, State.filing, hgroup]
      | some g =>
          simp only
          by_cases hbeg : tag = Tag.begCollection
          · rw [if_pos hbeg, hbeg]
            -- a collection begins
            exact beginCollection_error_iff hs hgroup
          · by_cases hend : tag = Tag.endCollection
            · simp [if_neg hbeg, if_pos hend, State.Harmless, State.filing, hgroup]
            · rw [if_neg hbeg, if_neg hend, not_harmless_iff]
              cases hstack : s.stack with
              | nil =>
                  -- a value of the group: it fails where the name is inherited
                  simp only [State.filing, hgroup, if_neg hbeg, if_neg hend, hstack,
                    State.groupValue]
                  split
                  · simp
                  · cases hlast : s.last with
                    | none =>
                        simp
                    | some last =>
                        simp [setAttrs_error_iff, push_ne_none hs hgroup hlast]
              | cons top rest =>
                  -- a value of the open collection
                  simp only [State.filing, hgroup, if_neg hbeg, if_neg hend, hstack,
                    State.memberValue]
                  split
                  · simp
                  · cases hmember : top.member with
                    | none =>
                        simp [State.memberPlace, hmember]
                    | some member =>
                        simp only
                        split
                        · next hempty =>
                            simp [State.memberPlace, hmember, hempty]
                        · next hne =>
                            rw [appendMember_error_iff, memberPlace_iff hmember hne]

theorem filed_of_effect (hs : s.Filed) (h : Effect s item s') : s'.Filed := by
  cases h with
  | group tag =>
      exact ⟨fun g last _ hlast => absurd hlast nofun, hs.opened⟩
  | restack stack hstack =>
      -- the stack only gets shorter
      refine ⟨hs.last, ?_⟩
      intro f hf
      have hmem : f.obj ∈ s.stack.map Frame.obj := hstack.subset (List.mem_map_of_mem hf)
      obtain ⟨f', hf', heq⟩ := List.mem_map.1 hmem
      exact heq ▸ hs.opened f' hf'
  | member key vs hstack hobj hvs =>
      refine ⟨hs.last, ?_⟩
      simp only [List.length_set]
      exact hs.opened
  | value key vs hgroup hvs =>
      refine ⟨?_, hs.opened⟩
      intro g' last hg' hlast
      obtain rfl := Option.some.inj hg'
      obtain rfl := Option.some.inj hlast
      -- the name that was written last has its values
      exact ⟨_, PlainObject.get_assign_self _⟩
  | beginMember key vs hlen hstack hobj hvs =>
      refine ⟨hs.last, ?_⟩
      intro f hf
      simp only [State.pushFrame, List.length_set, List.length_append, List.length_singleton]
      rcases List.mem_cons.1 hf with rfl | hf
      · exact Nat.lt_succ_self _
      · exact Nat.lt_succ_of_lt (hs.opened f hf)
  | beginValue key vs hstack hgroup hvs =>
      refine ⟨?_, ?_⟩
      · intro g' last hg' hlast
        obtain rfl := Option.some.inj hg'
        obtain rfl := Option.some.inj hlast
        exact ⟨_, PlainObject.get_assign_self _⟩
      · intro f hf
        simp only [State.pushFrame, List.length_append, List.length_singleton]
        rcases List.mem_cons.1 hf with rfl | hf
        · exact Nat.lt_succ_self _
        · exact Nat.lt_succ_of_lt (hs.opened f hf)
  | beginLoose hlen =>
      refine ⟨hs.last, ?_⟩
      intro f hf
      simp only [State.pushFrame, List.length_append, List.length_singleton]
      rcases List.mem_cons.1 hf with rfl | hf
      · exact Nat.lt_succ_self _
      · exact Nat.lt_succ_of_lt (hs.opened f hf)

end Failures

/-! ## Any buffer -/

/-- The items of a message, up to its end or to where it is cut off. -/
def items (buf : Bytes) (o : Nat) : List Item :=
  if hlt : o < buf.length then
    if buf[o] = groupEnd then []
    else
      match hitem : readItem buf o buf[o] with
      | .error _ => []
      | .ok (item, o') => item :: items buf o'
  else []
termination_by buf.length - o
decreasing_by
  have := readItem_lt hitem
  omega

theorem decodeFrom_eq {o : Nat} {s : State} (hlt : o < buf.length) (hne : buf[o] ≠ groupEnd) :
    decodeFrom buf o s =
      (readItem buf o buf[o]).bind fun p => (s.receive p.1).bind (decodeFrom buf p.2) := by
  rw [decodeFrom, dif_pos hlt, if_neg hne]
  split
  · next e he =>
      rw [he]
      rfl
  · next item o' hitem =>
      rw [hitem]
      simp only [Except.bind]
      split <;> rename_i h <;> rw [h]

theorem items_eq {o : Nat} (hlt : o < buf.length) (hne : buf[o] ≠ groupEnd) :
    items buf o = match readItem buf o buf[o] with
      | .error _ => []
      | .ok p => p.1 :: items buf p.2 := by
  rw [items, dif_pos hlt, if_neg hne]
  split
  · next e he =>
      rw [he]
  · next item o' hitem =>
      rw [hitem]

/-- Every item that the decoder gets to is harmless in the state it finds. -/
def HarmlessRun (s : State) : List Item → Prop
  | [] => True
  | item :: rest => s.Harmless item ∧ ∀ s', s.receive item = .ok s' → HarmlessRun s' rest

theorem readCounted_error {o : Nat} {e : Failure} (h : readCounted buf o = .error e) :
    e = badResponse "truncated IPP response" := by
  rw [readCounted] at h
  split at h
  · exact (Except.error.inj h).symm
  · split at h
    · exact (Except.error.inj h).symm
    · cases h

theorem readItem_error {o : Nat} {tag : UInt8} {e : Failure} (h : readItem buf o tag = .error e) :
    e = badResponse "truncated IPP response" := by
  rw [readItem] at h
  split at h
  · cases h
  · cases hname : readCounted buf (o + 1) with
    | error e' =>
        simp only [hname, bind, Except.bind] at h
        exact (Except.error.inj h) ▸ readCounted_error hname
    | ok r =>
        cases hraw : readCounted buf r.2 with
        | error e' =>
            simp only [hname, hraw, bind, Except.bind] at h
            exact (Except.error.inj h) ▸ readCounted_error hraw
        | ok r' =>
            simp [hname, hraw, bind, Except.bind, pure, Except.pure] at h

/-- The loop calls a missing method exactly in a run that is not harmless. -/
theorem decodeFrom_error_iff (buf : Bytes) (o : Nat) {s : State} (hs : s.Filed) :
    decodeFrom buf o s = .error .typeError ↔ ¬ HarmlessRun s (items buf o) := by
  by_cases hlt : o < buf.length
  · by_cases hend : buf[o] = groupEnd
    · rw [decodeFrom, items, dif_pos hlt, dif_pos hlt, if_pos hend, if_pos hend]
      simp [HarmlessRun]
    · rw [decodeFrom_eq hlt hend, items_eq hlt hend]
      cases hitem : readItem buf o buf[o] with
      | error e =>
          -- the message is cut off
          simp [readItem_error hitem, badResponse, HarmlessRun, Except.bind]
      | ok p =>
          have hless : o < p.2 := readItem_lt hitem
          have hreceive := receive_error_iff hs p.1
          simp only [Except.bind, HarmlessRun]
          cases hr : s.receive p.1 with
          | error e =>
              rw [hr] at hreceive
              simpa using hreceive
          | ok s' =>
              have hharmless : s.Harmless p.1 := by
                rw [hr] at hreceive
                simpa using hreceive
              have hrest := decodeFrom_error_iff buf p.2 (filed_of_effect hs (effect_of_receive hr))
              simp [hharmless, hrest]
  · rw [decodeFrom, items, dif_neg hlt, dif_neg hlt]
    simp [HarmlessRun]
termination_by buf.length - o

theorem filed_start : State.start.Filed :=
  ⟨fun _ _ hgroup => absurd hgroup nofun, fun _ hf => absurd hf List.not_mem_nil⟩

/-- The result was read from the buffer, and its collections nest at most eight deep. -/
structure Response.Sound (res : Response) (buf : Bytes) : Prop where
  read : ∀ obj ∈ res.groups.map Group.attrs ++ res.heap, ∀ v ∈ obj.values, ReadFrom buf v
  data : ∀ data ∈ res.data, ∃ a, a ≤ buf.length ∧ data = slice buf a buf.length
  nested : ∀ g ∈ res.groups, ∀ v ∈ g.attrs.values, NestsAtMost res.heap 8 v

/-- There is a sound result, or an error of the module. -/
def Answered (buf : Bytes) : Prop :=
  (∃ res, decodeResponse buf = .ok res ∧ res.Sound buf) ∨
    ∃ code message, decodeResponse buf = .error (.ippError code message)

theorem data_of_decodeFrom (o : Nat) (s : State) {body : Body} (h : decodeFrom buf o s = .ok body) :
    ∀ data ∈ body.data, ∃ a, a ≤ buf.length ∧ data = slice buf a buf.length := by
  rw [decodeFrom] at h
  split at h
  · split at h
    · obtain rfl := Except.ok.inj h
      intro data hdata
      exact ⟨o + 1, by omega, (Option.mem_some_iff.1 hdata).symm⟩
    · split at h
      · cases h
      · next item o' hitem =>
          split at h
          · cases h
          · next s' hreceive =>
              have hless := readItem_lt hitem
              exact data_of_decodeFrom o' s' h
  · obtain rfl := Except.ok.inj h
    intro data hdata
    cases hdata
termination_by buf.length - o

theorem decodeResponse_of_short (h : ¬ 8 < buf.length) :
    decodeResponse buf = .error (badResponse "short IPP response") := by
  rw [decodeResponse, List.getElem?_eq_none (i := 8) (by omega)]
  split
  · next heq =>
      cases heq
  · rfl

theorem decodeResponse_of_long (h : 8 < buf.length) :
    ∃ version status requestId, decodeResponse buf = (decodeFrom buf 8 State.start).map
      fun body => ⟨version, status, requestId, body.state.groups, body.state.heap, body.data⟩ := by
  have hget : ∀ i, i ≤ 8 → ∃ b, buf[i]? = some b :=
    fun i hi => ⟨_, List.getElem?_eq_getElem (by omega)⟩
  obtain ⟨b0, h0⟩ := hget 0 (by omega)
  obtain ⟨b1, h1⟩ := hget 1 (by omega)
  obtain ⟨b2, h2⟩ := hget 2 (by omega)
  obtain ⟨b3, h3⟩ := hget 3 (by omega)
  obtain ⟨b4, h4⟩ := hget 4 (by omega)
  obtain ⟨b5, h5⟩ := hget 5 (by omega)
  obtain ⟨b6, h6⟩ := hget 6 (by omega)
  obtain ⟨b7, h7⟩ := hget 7 (by omega)
  obtain ⟨b8, h8⟩ := hget 8 (by omega)
  refine ⟨toString b0.toNat ++ "." ++ toString b1.toNat, b2.toNat * 256 + b3.toNat,
    (b4.toNat * 256 + b5.toNat) * 65536 + (b6.toNat * 256 + b7.toNat), ?_⟩
  rw [decodeResponse]
  simp only [h0, h1, readUInt16BE, readUInt32BE, h2, h3, h4, h5, h6, h7, h8, Option.bind_eq_bind,
    Option.bind_some, Option.pure_def]
  cases decodeFrom buf 8 State.start <;> rfl

/-- Errors are those of the module, or a missing method. -/
theorem answered_of_error {e : Failure} (h : decodeResponse buf = .error e) :
    Answered buf ↔ e ≠ .typeError := by
  cases e with
  | ippError code message =>
      exact ⟨fun _ => by simp, fun _ => Or.inr ⟨code, message, h⟩⟩
  | typeError =>
      refine ⟨?_, fun hne => absurd rfl hne⟩
      rintro (⟨res, hres, -⟩ | ⟨code, message, hres⟩)
      · rw [h] at hres
        cases hres
      · rw [h] at hres
        cases hres

/-- For any bytes there is a sound result or an error of the module, exactly where no item finds its
name inherited. -/
theorem answered_iff (buf : Bytes) : Answered buf ↔ HarmlessRun State.start (items buf 8) := by
  by_cases hlen : 8 < buf.length
  · obtain ⟨version, status, requestId, hdecode⟩ := decodeResponse_of_long hlen
    have hrun := decodeFrom_error_iff buf 8 filed_start
    cases hbody : decodeFrom buf 8 State.start with
    | error e =>
        rw [hbody] at hdecode hrun
        rw [answered_of_error hdecode, ne_eq, ← not_iff_not, not_not, ← hrun, Except.error.injEq]
    | ok body =>
        rw [hbody] at hdecode hrun
        have hharmless : HarmlessRun State.start (items buf 8) := by
          simpa using hrun
        refine ⟨fun _ => hharmless, fun _ => Or.inl ⟨_, hdecode, ?_⟩⟩
        exact ⟨readFrom_of_decodeFrom hbody, data_of_decodeFrom 8 _ hbody,
          nestsAtMost_of_decodeFrom hbody⟩
  · have hempty : items buf 8 = [] := by
      rw [items, dif_neg hlen]
    rw [answered_of_error (decodeResponse_of_short hlen), hempty]
    simp [badResponse, HarmlessRun]

/-- A printer whose answer has a collection under the name `constructor`. -/
def inheritedName : Bytes :=
  [2, 0, 0, 0, 0, 0, 0, 1, 4, 0x34, 0, 11] ++ utf8Bytes "constructor".toList ++ [0, 0]

theorem not_answered_inheritedName :
    decodeResponse inheritedName = .error .typeError ∧ ¬ ∀ buf, Answered buf := by
  have hfirst : items inheritedName 8 = .group 4 :: items inheritedName 9 := by
    rw [items_eq (by decide) (by decide)]
    rfl
  have hsecond : items inheritedName 9 =
      .attr Tag.begCollection 11 "constructor".toList [] :: items inheritedName 25 := by
    rw [items_eq (by decide) (by decide)]
    rfl
  have hbody : decodeFrom inheritedName 8 State.start = .error .typeError := by
    rw [decodeFrom_error_iff inheritedName 8 filed_start, hfirst, hsecond]
    intro hrun
    exact absurd (hrun.2 _ rfl).1 (by decide)
  have hdecode : decodeResponse inheritedName = .error .typeError := by
    obtain ⟨version, status, requestId, heq⟩ :=
      decodeResponse_of_long (show 8 < inheritedName.length by decide)
    rw [heq, hbody]
    rfl
  exact ⟨hdecode, fun hall => (answered_of_error hdecode).1 (hall inheritedName) rfl⟩

end Ipp
end Print
end GateControl
