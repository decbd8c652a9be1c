import GateControl.Library.JsonOrder
import GateControl.Library.JsonRoundTrip

/-!
# StableJson — the hash of the configuration

The gateway and the server hash the switched features through a JSON text with sorted keys.  The
text determines the value up to the order of keys, and does not depend on that order, so neither
does the hash.
-/

namespace GateControl
namespace Features

open Library
open JsonText

/-! ## `stableJson` -/

/-- `Object.keys(v).sort()`. -/
def sortKeys (keys : List Units) : List Units := keys.insertionSort (· ≤ ·)

/-- The part of a key; none where the value is `undefined`. -/
def partOf (texts : List (Units × Option Units)) (k : Units) : Option (Units × Units) :=
  (OrderedMap.find k texts).bind fun text => text.map fun t => (k, t)

mutual

/-- Nothing for `undefined`. -/
def stableJson : JsValue → Option Units
  | .undefined => none
  | .null => some (units "null".toList)
  | .bool b => some (units (if b then "true" else "false").toList)
  | .num x => some (stringifyNumber x)
  | .str s => some (quote s)
  | .arr items => some (arrayText (itemTexts items))
  | .obj fields =>
      some (objectText ((sortKeys (fields.map Prod.fst)).filterMap (partOf (valueTexts fields))))

def itemTexts : List JsValue → List Units
  | [] => []
  | v :: vs => (stableJson v).getD (units "null".toList) :: itemTexts vs

/-- Each key with the text of its value. -/
def valueTexts : List (Units × JsValue) → List (Units × Option Units)
  | [] => []
  | (k, v) :: fs => (k, stableJson v) :: valueTexts fs

end

theorem itemTexts_eq (vs : List JsValue) :
    itemTexts vs = vs.map fun v => (stableJson v).getD (units "null".toList) := by
  induction vs with
  | nil =>
      rfl
  | cons v vs ih =>
      rw [itemTexts, ih, List.map_cons]

theorem valueTexts_eq (fs : List (Units × JsValue)) :
    valueTexts fs = fs.map fun f => (f.1, stableJson f.2) := by
  induction fs with
  | nil =>
      rfl
  | cons f fs ih =>
      rw [valueTexts, ih, List.map_cons]

theorem keys_valueTexts (fs : List (Units × JsValue)) :
    (valueTexts fs).map Prod.fst = fs.map Prod.fst := by
  rw [valueTexts_eq, List.map_map]
  rfl

theorem sortKeys_keys (fs : List (Units × JsValue)) :
    sortKeys (fs.map Prod.fst) = (sortFields fs).map Prod.fst :=
  (List.map_insertionSort (fun f g : Units × JsValue => f.1 ≤ g.1) (· ≤ ·) Prod.fst fs
    fun _ _ _ _ => Iff.rfl).symm

/-- The parts of an object are those of its sorted fields. -/
theorem parts_eq {fs : List (Units × JsValue)} (hn : (fs.map Prod.fst).Nodup)
    (hsome : ∀ k v, (k, v) ∈ fs → ∃ t, stableJson v = some t) :
    (sortKeys (fs.map Prod.fst)).filterMap (partOf (valueTexts fs)) =
      (sortFields fs).map fun f => (f.1, (stableJson f.2).getD []) := by
  rw [sortKeys_keys, List.filterMap_map]
  have hpart : ∀ f ∈ sortFields fs,
      (partOf (valueTexts fs) ∘ Prod.fst) f = some (f.1, (stableJson f.2).getD []) := by
    rintro ⟨k, v⟩ hf
    have hmem : (k, v) ∈ fs := (sortFields_perm fs).mem_iff.1 hf
    -- keys are distinct, so the text found under a key is that of its own value
    have hfind : OrderedMap.find k (valueTexts fs) = some (stableJson v) := by
      rw [OrderedMap.find_eq_some_iff (by rwa [keys_valueTexts]), valueTexts_eq]
      exact List.mem_map_of_mem hmem
    rcases hsome k v hmem with ⟨t, ht⟩
    simp [partOf, hfind, ht]
  rw [List.filterMap_congr hpart, List.filterMap_eq_map']

/-- The text of a JSON value is read as the value with sorted keys. -/
theorem exists_stableJson {v : JsValue} (h : IsJson v) :
    ∃ t, stableJson v = some t ∧ ReadAs t (canon v) := by
  induction h with
  | null =>
      exact ⟨_, rfl, readAs_null⟩
  | bool b =>
      exact ⟨_, rfl, readAs_bool b⟩
  | num d =>
      exact ⟨_, rfl, readAs_number d⟩
  | str s =>
      exact ⟨_, rfl, readAs_quote s⟩
  | @arr vs hvs ih =>
      refine ⟨_, rfl, ?_⟩
      rw [canon, canonItems_eq, itemTexts_eq]
      apply readAs_array
      rw [List.forall₂_map_left_iff, List.forall₂_map_right_iff, List.forall₂_same]
      intro v hv
      rcases ih v hv with ⟨t, ht, hread⟩
      rwa [ht]
  | @obj fs hn hfs ih =>
      have hsome : ∀ k v, (k, v) ∈ fs → ∃ t, stableJson v = some t := by
        intro k v hmem
        rcases ih k v hmem with ⟨t, ht, -⟩
        exact ⟨t, ht⟩
      refine ⟨_, rfl, ?_⟩
      rw [canon, parts_eq hn hsome]
      -- each field is read as the field with the sorted value
      apply readAs_object
      · rw [canonFields_eq, sortFields_map, List.forall₂_map_left_iff, List.forall₂_map_right_iff,
          List.forall₂_same]
        rintro ⟨k, v⟩ hf
        rcases ih k v ((sortFields_perm fs).mem_iff.1 hf) with ⟨t, ht, hread⟩
        refine ⟨rfl, ?_⟩
        rwa [ht]
      · rw [((sortFields_perm _).map Prod.fst).nodup_iff, keys_canonFields]
        exact hn

/-- Reading the text gives the value back, up to the order of keys. -/
theorem parse_stableJson {v : JsValue} (h : IsJson v) :
    ∃ t, stableJson v = some t ∧ parse t = some (canon v) := by
  rcases exists_stableJson h with ⟨t, ht, hread⟩
  exact ⟨t, ht, parse_of_readAs hread⟩

theorem canon_eq_of_stableJson_eq {v w : JsValue} (hv : IsJson v) (hw : IsJson w)
    (h : stableJson v = stableJson w) : canon v = canon w := by
  rcases parse_stableJson hv with ⟨t, ht, hread⟩
  rcases parse_stableJson hw with ⟨u, hu, hread'⟩
  have htu : t = u := by
    rw [ht, hu] at h
    exact Option.some.inj h
  subst htu
  exact Option.some.inj (hread.symm.trans hread')

/-- Sorting the keys beforehand changes nothing. -/
theorem stableJson_canon {v : JsValue} (h : IsJson v) : stableJson (canon v) = stableJson v := by
  induction h with
  | null =>
      rfl
  | bool b =>
      rfl
  | num d =>
      rfl
  | str s =>
      rfl
  | @arr vs hvs ih =>
      have hitems : (vs.map canon).map (fun v => (stableJson v).getD (units "null".toList)) =
          vs.map fun v => (stableJson v).getD (units "null".toList) := by
        rw [List.map_map, List.map_inj_left]
        intro v hv
        rw [Function.comp_apply, ih v hv]
      rw [canon, stableJson, stableJson, canonItems_eq, itemTexts_eq, itemTexts_eq, hitems]
  | @obj fs hn hfs ih =>
      have hsome : ∀ k v, (k, v) ∈ fs → ∃ t, stableJson v = some t := by
        intro k v hmem
        rcases exists_stableJson (hfs k v hmem) with ⟨t, ht, -⟩
        exact ⟨t, ht⟩
      have hn' : ((sortFields (canonFields fs)).map Prod.fst).Nodup := by
        rw [((sortFields_perm _).map Prod.fst).nodup_iff, keys_canonFields]
        exact hn
      have hsome' : ∀ k v, (k, v) ∈ sortFields (canonFields fs) → ∃ t, stableJson v = some t := by
        intro k v hmem
        rcases mem_canonFields.1 ((sortFields_perm _).mem_iff.1 hmem) with ⟨w, hw, rfl⟩
        rw [ih k w hw]
        exact hsome k w hw
      -- sorting again changes nothing
      have hsort : sortFields (sortFields (canonFields fs)) =
          (sortFields fs).map fun f => (f.1, canon f.2) := by
        rw [sortFields_eq_of_perm hn' (sortFields_perm _), canonFields_eq, sortFields_map]
      rw [canon, stableJson, stableJson, parts_eq hn hsome, parts_eq hn' hsome', hsort,
        List.map_map]
      congr 2
      rw [List.map_inj_left]
      rintro ⟨k, v⟩ hf
      rw [Function.comp_apply, ih k v ((sortFields_perm fs).mem_iff.1 hf)]

theorem stableJson_eq_of_same {v w : JsValue} (hv : IsJson v) (hw : IsJson w) (h : Same v w) :
    stableJson v = stableJson w := by
  calc stableJson v = stableJson (canon v) := (stableJson_canon hv).symm
    _ = stableJson (canon w) := by rw [canon_eq_of_same hv hw h]
    _ = stableJson w := stableJson_canon hw

/-! ## `configHash` -/

section ConfigHash

-- the hash of the library, and the SHA-256 digest of a text in hexadecimal
variable (libComputeHash : List (Units × JsValue) → Units) (sha256hex : Units → Units)

def featuresKey : Units := units "features".toList

def featuresOf (cfgBody : List (Units × JsValue)) : JsValue :=
  (OrderedMap.find featuresKey cfgBody).getD .undefined

/-- The body without `features`. -/
def restOf (cfgBody : List (Units × JsValue)) : List (Units × JsValue) :=
  cfgBody.filter fun f => f.1 ≠ featuresKey

/-- The hash of a configuration; a missing body has no fields. -/
def configHash (cfgBody : List (Units × JsValue)) : Units :=
  let libHash := libComputeHash (restOf cfgBody)
  match stableJson (featuresOf cfgBody) with
  | none => libHash
  | some text => units "sha256:".toList ++ sha256hex (libHash ++ unit '\n' :: text)

/-- Features that the server sends, or none. -/
def IsFeatures (v : JsValue) : Prop := v = .undefined ∨ IsJson v

theorem stableJson_features {v w : JsValue} (hv : IsFeatures v) (hw : IsFeatures w) (h : Same v w) :
    stableJson v = stableJson w := by
  rcases hv with rfl | hv
  · cases h
    rfl
  · rcases hw with rfl | hw
    · cases h
      rfl
    · exact stableJson_eq_of_same hv hw h

/-- The text of a JSON value is read back as the value, two values have one text exactly when they
are the same up to the order of keys, and the hash depends on nothing else of the features. -/
theorem stableJson_canonical :
    (∀ v, IsJson v → ∃ t v', stableJson v = some t ∧ parse t = some v' ∧ Same v' v) ∧
      (∀ v w, IsJson v → IsJson w → (stableJson v = stableJson w ↔ Same v w)) ∧
      ∀ cfg cfg' : List (Units × JsValue), IsFeatures (featuresOf cfg) →
        IsFeatures (featuresOf cfg') → Same (featuresOf cfg) (featuresOf cfg') →
        libComputeHash (restOf cfg) = libComputeHash (restOf cfg') →
        configHash libComputeHash sha256hex cfg = configHash libComputeHash sha256hex cfg' := by
  refine ⟨fun v hv => ?_, fun v w hv hw => ⟨?_, stableJson_eq_of_same hv hw⟩, ?_⟩
  · rcases parse_stableJson hv with ⟨t, ht, hread⟩
    exact ⟨t, canon v, ht, hread, canon_same hv⟩
  · intro h
    exact same_of_canon_eq hv hw (canon_eq_of_stableJson_eq hv hw h)
  · intro cfg cfg' hf hf' hsame hlib
    rw [configHash, configHash, stableJson_features hf hf' hsame, hlib]

end ConfigHash

/-- Two orders of the keys of one object. -/
theorem stableJson_canonical_reordered :
    stableJson (.obj [(units ['b'], .null), (units ['a'], .arr [.bool true])]) =
      stableJson (.obj [(units ['a'], .arr [.bool true]), (units ['b'], .null)]) := by
  have harr : IsJson (.arr [.bool true]) := by
    refine .arr fun v hv => ?_
    rw [List.mem_singleton.1 hv]
    exact .bool true
  have hv : IsJson (.obj [(units ['b'], .null), (units ['a'], .arr [.bool true])]) := by
    refine .obj (by decide) fun k v hmem => ?_
    simp only [List.mem_cons, Prod.mk.injEq, List.not_mem_nil, or_false] at hmem
    rcases hmem with ⟨-, rfl⟩ | ⟨-, rfl⟩
    · exact .null
    · exact harr
  have hw : IsJson (.obj [(units ['a'], .arr [.bool true]), (units ['b'], .null)]) := by
    refine .obj (by decide) fun k v hmem => ?_
    simp only [List.mem_cons, Prod.mk.injEq, List.not_mem_nil, or_false] at hmem
    rcases hmem with ⟨-, rfl⟩ | ⟨-, rfl⟩
    · exact harr
    · exact .null
  have hcanon : canon (.obj [(units ['b'], .null), (units ['a'], .arr [.bool true])]) =
      canon (.obj [(units ['a'], .arr [.bool true]), (units ['b'], .null)]) := by
    rfl
  exact ((stableJson_canonical (fun _ => []) id).2.1 _ _ hv hw).2 (same_of_canon_eq hv hw hcanon)

example :
    (parse (units "\x7b \"b\": 1, \"a\": \x7b \"d\": [3, 1], \"c\": null \x7d \x7d".toList)).bind
        stableJson =
      some (units "\x7b\"a\":\x7b\"c\":null,\"d\":[3,1]\x7d,\"b\":1\x7d".toList) := by
  decide +kernel

end Features
end GateControl
