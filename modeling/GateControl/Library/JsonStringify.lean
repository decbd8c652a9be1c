import GateControl.Library.JsonOrder
import GateControl.Library.JsonRoundTrip

/-!
# JsonStringify — `JSON.stringify`

`reread` is what the text of a value is read back as.  Numbers that have no JSON text become `null`,
as does `undefined` in an array, and fields that are `undefined` are left out.  A JSON value is read
back as it was, and of values with one text the same is read.
-/

namespace GateControl
namespace Library
namespace JsonText

def nullText : Units := units "null".toList

mutual

/-- Nothing for `undefined`. -/
def stringify : JsValue → Option Units
  | .undefined => none
  | .null => some nullText
  | .bool b => some (units (if b then "true" else "false").toList)
  | .num x => some (stringifyNumber x)
  | .str s => some (quote s)
  | .arr items => some (arrayText (stringifyItems items))
  | .obj fields => some (objectText (stringifyFields fields))

def stringifyItems : List JsValue → List Units
  | [] => []
  | v :: vs => (stringify v).getD nullText :: stringifyItems vs

def stringifyFields : List (Units × JsValue) → List (Units × Units)
  | [] => []
  | (k, v) :: fs =>
      match stringify v with
      | none => stringifyFields fs
      | some t => (k, t) :: stringifyFields fs

end

def rereadNumber : JsNumber → JsValue
  | .finite d => .num (.finite d)
  | .negZero => .num (.finite Double.zero)
  | .infinity _ | .nan => .null

mutual

/-- What is read back; `undefined` as in an array. -/
def reread : JsValue → JsValue
  | .undefined => .null
  | .null => .null
  | .bool b => .bool b
  | .num x => rereadNumber x
  | .str s => .str s
  | .arr items => .arr (rereadItems items)
  | .obj fields => .obj (fieldsOf (rereadFields fields))

def rereadItems : List JsValue → List JsValue
  | [] => []
  | v :: vs => reread v :: rereadItems vs

def rereadFields : List (Units × JsValue) → List (Units × JsValue)
  | [] => []
  | (k, v) :: fs =>
      match stringify v with
      | none => rereadFields fs
      | some _ => (k, reread v) :: rereadFields fs

end

theorem readAs_numberText (x : JsNumber) : ReadAs (stringifyNumber x) (rereadNumber x) := by
  cases x with
  | finite d =>
      exact readAs_number d
  | negZero =>
      have htext : stringifyNumber .negZero = stringifyNumber (.finite Double.zero) := by
        simp [stringifyNumber, doubleText, Double.zero]
      rw [htext]
      exact readAs_number Double.zero
  | infinity negative =>
      exact readAs_null
  | nan =>
      exact readAs_null

mutual

theorem readAs_stringify : ∀ v, ReadAs ((stringify v).getD nullText) (reread v)
  | .undefined => readAs_null
  | .null => readAs_null
  | .bool b => readAs_bool b
  | .num x => readAs_numberText x
  | .str s => readAs_quote s
  | .arr items => readAs_array (readAs_items items)
  | .obj fields => readAs_fields (readAs_stringifyFields fields)

theorem readAs_items : ∀ vs, List.Forall₂ ReadAs (stringifyItems vs) (rereadItems vs)
  | [] => .nil
  | v :: vs => .cons (readAs_stringify v) (readAs_items vs)

theorem readAs_stringifyFields :
    ∀ fs, List.Forall₂ FieldReadAs (stringifyFields fs) (rereadFields fs)
  | [] => .nil
  | (k, v) :: fs => by
      have hread := readAs_stringify v
      rw [stringifyFields, rereadFields]
      cases htext : stringify v with
      | none =>
          exact readAs_stringifyFields fs
      | some t =>
          rw [htext] at hread
          exact .cons ⟨rfl, hread⟩ (readAs_stringifyFields fs)

end

/-- A text is read as one value. -/
theorem ReadAs.unique {t : Units} {v w : JsValue} (hv : ReadAs t v) (hw : ReadAs t w) : v = w :=
  Option.some.inj ((parse_of_readAs hv).symm.trans (parse_of_readAs hw))

/-- `JSON.parse` of a text that `JSON.stringify` has made. -/
theorem parse_stringify {v : JsValue} {t : Units} (h : stringify v = some t) :
    parse t = some (reread v) := by
  have hread := readAs_stringify v
  rw [h] at hread
  exact parse_of_readAs hread

/-- Of values with one text the same is read. -/
theorem reread_eq_of_stringify {v w : JsValue} (h : stringify v = stringify w) :
    reread v = reread w := by
  have hread := readAs_stringify v
  rw [h] at hread
  exact hread.unique (readAs_stringify w)

theorem rereadItems_eq (vs : List JsValue) : rereadItems vs = vs.map reread := by
  induction vs with
  | nil =>
      rfl
  | cons v vs ih =>
      rw [rereadItems, ih, List.map_cons]

theorem reread_arr (vs : List JsValue) : reread (.arr vs) = .arr (vs.map reread) := by
  rw [reread, rereadItems_eq]

theorem exists_stringify {v : JsValue} (h : v ≠ .undefined) : ∃ t, stringify v = some t := by
  cases v with
  | undefined =>
      exact absurd rfl h
  | _ =>
      exact ⟨_, rfl⟩

theorem rereadFields_eq {fs : List (Units × JsValue)} (h : ∀ f ∈ fs, f.2 ≠ .undefined) :
    rereadFields fs = fs.map fun f => (f.1, reread f.2) := by
  induction fs with
  | nil =>
      rfl
  | cons f fs ih =>
      obtain ⟨k, v⟩ := f
      obtain ⟨t, ht⟩ := exists_stringify (h _ List.mem_cons_self)
      rw [rereadFields, ht, ih fun g hg => h g (List.mem_cons_of_mem _ hg)]
      rfl

/-- An object is read back field by field. -/
theorem reread_obj {fs : List (Units × JsValue)} (hn : (fs.map Prod.fst).Nodup)
    (h : ∀ f ∈ fs, f.2 ≠ .undefined) :
    reread (.obj fs) = .obj (fs.map fun f => (f.1, reread f.2)) := by
  have hkeys : ((fs.map fun f => (f.1, reread f.2)).map Prod.fst).Nodup := by
    rwa [List.map_map]
  rw [reread, rereadFields_eq h, fieldsOf_of_nodup hkeys]

theorem ne_undefined_of_isJson {v : JsValue} (h : IsJson v) : v ≠ .undefined := by
  rintro rfl
  cases h

/-- A JSON value is read back as it was. -/
theorem reread_of_isJson {v : JsValue} (h : IsJson v) : reread v = v := by
  induction h with
  | null =>
      rfl
  | bool b =>
      rfl
  | num d =>
      rfl
  | str s =>
      rfl
  | @arr items hitems ih =>
      rw [reread_arr, List.map_congr_left ih, List.map_id']
  | @obj fields hn hfields ih =>
      have hsame : ∀ f ∈ fields, (f.1, reread f.2) = f := fun f hf => by rw [ih f.1 f.2 hf]
      have hdefined : ∀ f ∈ fields, f.2 ≠ .undefined := fun f hf =>
        ne_undefined_of_isJson (hfields f.1 f.2 hf)
      rw [reread_obj hn hdefined, List.map_congr_left hsame, List.map_id']

theorem entries_ofList (fs : List (Units × JsValue)) :
    (OrderedMap.ofList fs).entries = fieldsOf fs := by
  have hfold : ∀ (fs : List (Units × JsValue)) (m : OrderedMap Units JsValue),
      (fs.foldl (fun m e => m.set e.1 e.2) m).entries =
        fs.foldl (fun es e => OrderedMap.put e.1 e.2 es) m.entries := by
    intro fs
    induction fs with
    | nil =>
        intro m
        rfl
    | cons f fs ih =>
        exact fun m => ih (m.set f.1 f.2)
  exact hfold fs .empty

/-- The fields of an object are among the pairs it is made from, and their keys are distinct. -/
theorem isJson_fieldsOf {fs : List (Units × JsValue)} (h : ∀ f ∈ fs, IsJson f.2) :
    IsJson (.obj (fieldsOf fs)) := by
  rw [← entries_ofList]
  refine .obj (OrderedMap.nodup _) fun k v hkv => ?_
  exact h (k, v) (OrderedMap.mem_of_get_ofList ((OrderedMap.get_eq_some_iff _).2 hkv))

mutual

/-- What is read back is JSON. -/
theorem isJson_reread : ∀ v, IsJson (reread v)
  | .undefined => .null
  | .null => .null
  | .bool b => .bool b
  | .num (.finite d) => .num d
  | .num .negZero => .num Double.zero
  | .num (.infinity _) => .null
  | .num .nan => .null
  | .str s => .str s
  | .arr items => .arr (isJson_rereadItems items)
  | .obj fields => isJson_fieldsOf (isJson_rereadFields fields)

theorem isJson_rereadItems : ∀ vs, ∀ v ∈ rereadItems vs, IsJson v
  | [], _, hv => (List.not_mem_nil hv).elim
  | v :: vs, w, hw => by
      rcases List.mem_cons.1 hw with rfl | hold
      · exact isJson_reread v
      · exact isJson_rereadItems vs w hold

theorem isJson_rereadFields : ∀ fs, ∀ f ∈ rereadFields fs, IsJson f.2
  | [], _, hf => (List.not_mem_nil hf).elim
  | (k, v) :: fs, f, hf => by
      rw [rereadFields] at hf
      split at hf
      · exact isJson_rereadFields fs f hf
      · rcases List.mem_cons.1 hf with rfl | hold
        · exact isJson_reread v
        · exact isJson_rereadFields fs f hold

end

/-- Reading back once more changes nothing. -/
theorem reread_reread (v : JsValue) : reread (reread v) = reread v :=
  reread_of_isJson (isJson_reread v)

end JsonText

end Library
end GateControl
