import Mathlib.Data.List.Lex
import Mathlib.Data.List.Sort
import GateControl.Library.JsonText

/-!
# JsonOrder — JSON values up to the order of their keys

`Same` compares values where the order of the keys of an object does not count, at any depth.
`canon` sorts the keys everywhere; for JSON values `same_iff_canon_eq` makes it a normal form.
-/

namespace GateControl
namespace Library

/-- The JSON values whose numbers have a JSON text of their own: no `undefined`, no number but
finite ones other than `-0`, and objects of distinct keys. -/
inductive IsJson : JsValue → Prop
  | null : IsJson .null
  | bool (b : Bool) : IsJson (.bool b)
  | num (d : Double) : IsJson (.num (.finite d))
  | str (s : Units) : IsJson (.str s)
  | arr {items : List JsValue} (h : ∀ v ∈ items, IsJson v) : IsJson (.arr items)
  | obj {fields : List (Units × JsValue)} (hn : (fields.map Prod.fst).Nodup)
      (h : ∀ k v, (k, v) ∈ fields → IsJson v) : IsJson (.obj fields)

/-- Equality up to the order of keys: arrays have the same items in the same order, objects the same
keys, and the same value under each of them. -/
inductive Same : JsValue → JsValue → Prop
  | undefined : Same .undefined .undefined
  | null : Same .null .null
  | bool (b : Bool) : Same (.bool b) (.bool b)
  | num (x : JsNumber) : Same (.num x) (.num x)
  | str (s : Units) : Same (.str s) (.str s)
  | arr {vs ws : List JsValue} (hlen : vs.length = ws.length)
      (h : ∀ v w, (v, w) ∈ vs.zip ws → Same v w) : Same (.arr vs) (.arr ws)
  | obj {fs gs : List (Units × JsValue)}
      (hkeys : ∀ k, k ∈ fs.map Prod.fst ↔ k ∈ gs.map Prod.fst)
      (h : ∀ k v w, (k, v) ∈ fs → (k, w) ∈ gs → Same v w) : Same (.obj fs) (.obj gs)

/-! ## The normal form -/

/-- The fields in the order of their keys, compared by code units. -/
def sortFields {α : Type} (fields : List (Units × α)) : List (Units × α) :=
  fields.insertionSort fun f g => f.1 ≤ g.1

mutual

/-- The value with the keys of every object sorted. -/
def canon : JsValue → JsValue
  | .undefined => .undefined
  | .null => .null
  | .bool b => .bool b
  | .num x => .num x
  | .str s => .str s
  | .arr items => .arr (canonItems items)
  | .obj fields => .obj (sortFields (canonFields fields))

def canonItems : List JsValue → List JsValue
  | [] => []
  | v :: vs => canon v :: canonItems vs

def canonFields : List (Units × JsValue) → List (Units × JsValue)
  | [] => []
  | (k, v) :: fs => (k, canon v) :: canonFields fs

end

theorem canonItems_eq (vs : List JsValue) : canonItems vs = vs.map canon := by
  induction vs with
  | nil =>
      rfl
  | cons v vs ih =>
      rw [canonItems, ih, List.map_cons]

theorem canonFields_eq (fs : List (Units × JsValue)) :
    canonFields fs = fs.map fun f => (f.1, canon f.2) := by
  induction fs with
  | nil =>
      rfl
  | cons f fs ih =>
      rw [canonFields, ih, List.map_cons]

theorem keys_canonFields (fs : List (Units × JsValue)) :
    (canonFields fs).map Prod.fst = fs.map Prod.fst := by
  simp [canonFields_eq]

theorem mem_canonFields {fs : List (Units × JsValue)} {k : Units} {v : JsValue} :
    (k, v) ∈ canonFields fs ↔ ∃ w, (k, w) ∈ fs ∧ canon w = v := by
  rw [canonFields_eq, List.mem_map]
  constructor
  · rintro ⟨⟨k', w⟩, hmem, heq⟩
    cases heq
    exact ⟨w, hmem, rfl⟩
  · rintro ⟨w, hmem, rfl⟩
    exact ⟨(k, w), hmem, rfl⟩

theorem sortFields_perm {α : Type} (fs : List (Units × α)) : (sortFields fs).Perm fs :=
  List.perm_insertionSort _ fs

/-- A key has one value. -/
theorem eq_of_mem_of_nodup {α : Type} {fs : List (Units × α)} (hn : (fs.map Prod.fst).Nodup)
    {k : Units} {v w : α} (hv : (k, v) ∈ fs) (hw : (k, w) ∈ fs) : v = w := by
  have hinj := List.inj_on_of_nodup_map hn hv hw rfl
  cases hinj
  rfl

/-- Sorting forgets the order of distinct keys. -/
theorem sortFields_eq_of_perm {α : Type} {fs gs : List (Units × α)} (hn : (fs.map Prod.fst).Nodup)
    (hperm : fs.Perm gs) : sortFields fs = sortFields gs := by
  have hsorted : ∀ hs : List (Units × α), (sortFields hs).Pairwise fun f g => f.1 ≤ g.1 :=
    fun hs => List.pairwise_insertionSort _ hs
  have hall : (sortFields fs).Perm (sortFields gs) :=
    (sortFields_perm fs).trans (hperm.trans (sortFields_perm gs).symm)
  -- two fields that may stand in either order have one key, and so are one field
  apply List.Perm.eq_of_pairwise _ (hsorted fs) (hsorted gs) hall
  rintro ⟨k, v⟩ ⟨j, w⟩ hf hg hle hge
  have hkey : k = j := le_antisymm hle hge
  subst hkey
  have hv : (k, v) ∈ fs := (sortFields_perm fs).mem_iff.1 hf
  have hw : (k, w) ∈ fs := hperm.mem_iff.2 ((sortFields_perm gs).mem_iff.1 hg)
  rw [eq_of_mem_of_nodup hn hv hw]

/-- Only the keys count for the order. -/
theorem sortFields_map {α β : Type} (g : α → β) (fs : List (Units × α)) :
    sortFields (fs.map fun f => (f.1, g f.2)) = (sortFields fs).map fun f => (f.1, g f.2) :=
  (List.map_insertionSort (fun e f : Units × α => e.1 ≤ f.1) (fun e f : Units × β => e.1 ≤ f.1)
    (fun f => (f.1, g f.2)) fs fun _ _ _ _ => Iff.rfl).symm

theorem perm_of_sortFields_eq {α : Type} {fs gs : List (Units × α)}
    (h : sortFields fs = sortFields gs) : fs.Perm gs :=
  (sortFields_perm fs).symm.trans (h ▸ sortFields_perm gs)

/-! ## Equality and the normal form -/

theorem map_eq_map_iff_zip {α β γ : Type} {f : α → γ} {g : β → γ} {as : List α} {bs : List β} :
    as.map f = bs.map g ↔ as.length = bs.length ∧ ∀ a b, (a, b) ∈ as.zip bs → f a = g b := by
  rw [← List.forall₂_eq_eq_eq, List.forall₂_map_left_iff, List.forall₂_map_right_iff,
    List.forall₂_iff_zip]

theorem perm_canonFields {fs gs : List (Units × JsValue)} (hf : (fs.map Prod.fst).Nodup)
    (hg : (gs.map Prod.fst).Nodup) (h : ∀ k v, (k, v) ∈ canonFields fs ↔ (k, v) ∈ canonFields gs) :
    (canonFields fs).Perm (canonFields gs) := by
  have hf' : (canonFields fs).Nodup := .of_map Prod.fst (by rwa [keys_canonFields])
  have hg' : (canonFields gs).Nodup := .of_map Prod.fst (by rwa [keys_canonFields])
  rw [List.perm_ext_iff_of_nodup hf' hg']
  rintro ⟨k, v⟩
  exact h k v

theorem exists_mem_of_key {α : Type} {fs : List (Units × α)} {k : Units}
    (h : k ∈ fs.map Prod.fst) : ∃ v, (k, v) ∈ fs := by
  rcases List.mem_map.1 h with ⟨⟨j, v⟩, hmem, rfl⟩
  exact ⟨v, hmem⟩

theorem canon_eq_of_same {v w : JsValue} (hv : IsJson v) (hw : IsJson w) (h : Same v w) :
    canon v = canon w := by
  induction hv generalizing w with
  | null =>
      cases h
      rfl
  | bool b =>
      cases h
      rfl
  | num d =>
      cases h
      rfl
  | str s =>
      cases h
      rfl
  | @arr vs hvs ih =>
      cases h with
      | @arr _ ws hlen hitems =>
          cases hw with
          | arr hws =>
              rw [canon, canon, canonItems_eq, canonItems_eq, map_eq_map_iff_zip.2]
              refine ⟨hlen, fun v w hmem => ?_⟩
              have hmem' := List.of_mem_zip hmem
              exact ih v hmem'.1 (hws w hmem'.2) (hitems v w hmem)
  | @obj fs hn hfs ih =>
      cases h with
      | @obj _ gs hkeys hfields =>
          cases hw with
          | obj hn' hgs =>
              -- the values under a key are the same, so the sorted fields agree
              have hval : ∀ k v w, (k, v) ∈ fs → (k, w) ∈ gs → canon v = canon w :=
                fun k v w hv hw => ih k v hv (hgs k w hw) (hfields k v w hv hw)
              rw [canon, canon, sortFields_eq_of_perm (by rwa [keys_canonFields])]
              apply perm_canonFields hn hn'
              intro k c
              rw [mem_canonFields, mem_canonFields]
              constructor
              · rintro ⟨v, hmem, rfl⟩
                rcases exists_mem_of_key ((hkeys k).1 (List.mem_map_of_mem hmem)) with ⟨w, hw⟩
                exact ⟨w, hw, (hval k v w hmem hw).symm⟩
              · rintro ⟨w, hmem, rfl⟩
                rcases exists_mem_of_key ((hkeys k).2 (List.mem_map_of_mem hmem)) with ⟨v, hv⟩
                exact ⟨v, hv, hval k v w hv hmem⟩

theorem same_of_canon_eq {v w : JsValue} (hv : IsJson v) (hw : IsJson w) (h : canon v = canon w) :
    Same v w := by
  induction hv generalizing w with
  | null =>
      cases hw <;> cases h
      exact .null
  | bool b =>
      cases hw <;> cases h
      exact .bool b
  | num d =>
      cases hw <;> cases h
      exact .num _
  | str s =>
      cases hw <;> cases h
      exact .str s
  | @arr vs hvs ih =>
      cases hw with
      | @arr ws hws =>
          rw [canon, canon, JsValue.arr.injEq, canonItems_eq, canonItems_eq,
            map_eq_map_iff_zip] at h
          refine .arr h.1 fun v w hmem => ?_
          have hmem' := List.of_mem_zip hmem
          exact ih v hmem'.1 (hws w hmem'.2) (h.2 v w hmem)
      | _ =>
          cases h
  | @obj fs hn hfs ih =>
      cases hw with
      | @obj gs hn' hgs =>
          rw [canon, canon, JsValue.obj.injEq] at h
          have hperm := perm_of_sortFields_eq h
          refine .obj ?_ ?_
          · intro k
            rw [← keys_canonFields fs, ← keys_canonFields gs]
            exact (hperm.map Prod.fst).mem_iff
          · intro k v w hv hw
            -- the sorted field stands on the other side as well
            have hmem : (k, canon v) ∈ canonFields gs :=
              hperm.mem_iff.1 (mem_canonFields.2 ⟨v, hv, rfl⟩)
            rcases mem_canonFields.1 hmem with ⟨w', hw', heq⟩
            have hww : w' = w := eq_of_mem_of_nodup hn' hw' hw
            subst hww
            exact ih k v hv (hgs k w' hw') heq.symm
      | _ =>
          cases h

/-- The normal form is a normal form. -/
theorem same_iff_canon_eq {v w : JsValue} (hv : IsJson v) (hw : IsJson w) :
    Same v w ↔ canon v = canon w :=
  ⟨canon_eq_of_same hv hw, same_of_canon_eq hv hw⟩

/-- A value is the same as its normal form. -/
theorem canon_same {v : JsValue} (hv : IsJson v) : Same (canon v) v := by
  induction hv with
  | null =>
      exact .null
  | bool b =>
      exact .bool b
  | num d =>
      exact .num _
  | str s =>
      exact .str s
  | @arr vs hvs ih =>
      rw [canon, canonItems_eq]
      refine .arr (List.length_map ..) fun c v hmem => ?_
      rw [List.zip_map_left, List.mem_map] at hmem
      rcases hmem with ⟨⟨u, w⟩, hmem, heq⟩
      cases heq
      -- an array is compared with itself
      have huw : u = w := by
        rw [List.zip_eq_zipWith, List.zipWith_self, List.mem_map] at hmem
        rcases hmem with ⟨x, -, heq⟩
        cases heq
        rfl
      subst huw
      exact ih u (List.of_mem_zip hmem).1
  | @obj fs hn hfs ih =>
      rw [canon]
      refine .obj ?_ ?_
      · intro k
        rw [← keys_canonFields fs]
        exact ((sortFields_perm _).map Prod.fst).mem_iff
      · intro k c v hc hv
        rcases mem_canonFields.1 ((sortFields_perm _).mem_iff.1 hc) with ⟨u, hu, rfl⟩
        have huv : u = v := eq_of_mem_of_nodup hn hu hv
        subst huv
        exact ih k u hu

end Library
end GateControl
