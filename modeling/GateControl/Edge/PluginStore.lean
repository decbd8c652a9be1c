import GateControl.Library.JsonStringify
import GateControl.Library.Simulation

/-!
# PluginStore — what a plugin has stored

The store of a plugin is a JSON object in one file.  `PluginStore` reads it once, keeps the object,
and writes it anew for every change: to a file beside it, which then takes its place.  Any of the
writing may fail, and the host may end at any moment, also in the middle of a write.

Files hold texts; the texts written have no half of a surrogate pair by itself, so that writing them
as UTF-8 and reading them gives them back.  Values come and go as JSON, so what a plugin gets is
what the text of a value is read back as.
-/

namespace GateControl
namespace Edge

open Library JsonText

namespace PluginStore

/-! ## The store -/

def storeBytes : Nat := 1024 * 1024

def isKeyUnit (c : CodeUnit) : Bool :=
  (unit 'A' ≤ c && c ≤ unit 'Z') || (unit 'a' ≤ c && c ≤ unit 'z') ||
    (unit '0' ≤ c && c ≤ unit '9') || c ∈ units "._:-".toList

/-- `PluginStore.key`; nothing where it throws. -/
def keyOf : JsValue → Option Units
  | .str s => if s ≠ [] ∧ s.length ≤ 128 ∧ s.all isKeyUnit = true then some s else none
  | _ => none

/-- `Buffer.byteLength` as UTF-8. -/
def byteLength : Units → Nat
  | [] => 0
  | [c] => if c.val < 0x80 then 1 else if c.val < 0x800 then 2 else 3
  | c :: d :: s =>
      if c.val < 0x80 then 1 + byteLength (d :: s)
      else if c.val < 0x800 then 2 + byteLength (d :: s)
      else if isLead c && isTrail d then 4 + byteLength s
      else 3 + byteLength (d :: s)

abbrev Fields := OrderedMap Units JsValue

/-- What `load` makes of the file. -/
def contents (file : Option Units) : Fields :=
  match file.bind parse with
  | some (.obj fields) => .ofList fields
  | _ => .empty

def body (fields : Fields) : Units := (stringify (.obj fields.entries)).getD nullText

/-- How far a write gets.  Where the file beside is not written to its end, something of it may be
left. -/
inductive Write
  | whole
  | noFolder
  | noFile (left : Option Units)
  | noRename
  /-- The host ends before the file has been replaced. -/
  | cutBefore (left : Option Units)
  | cutAfter

inductive StoreError
  | badKey
  | tooLarge
  | failed

inductive Result
  | value (v : JsValue)
  | done
  | threw (e : StoreError)
  /-- The host has ended; nobody gets an answer. -/
  | ended

inductive Action
  | get (k : JsValue)
  | set (k v : JsValue) (w : Write)
  | delete (k : JsValue) (w : Write)
  /-- The host ends, and is started again. -/
  | restart

structure Store where
  file : Option Units
  tmp : Option Units
  data : Option Fields

namespace Store

variable (s : Store)

def fields : Fields := s.data.getD (contents s.file)

def load : Store := { s with data := some s.fields }

def write (next : Fields) (w : Write) : Result × Store :=
  let text := body next
  if storeBytes < byteLength text then (.threw .tooLarge, s)
  else
    match w with
    | .whole => (.done, ⟨some text, none, some next⟩)
    | .noFolder => (.threw .failed, s)
    | .noFile left => (.threw .failed, { s with tmp := left })
    | .noRename => (.threw .failed, { s with tmp := some text })
    | .cutBefore left => (.ended, { s with tmp := left, data := none })
    | .cutAfter => (.ended, ⟨some text, none, none⟩)

def delete (key : Units) (w : Write) : Result × Store :=
  if s.fields.has key then s.load.write (s.fields.delete key) w else (.done, s.load)

def set (key : Units) (v : JsValue) (w : Write) : Result × Store :=
  match v with
  | .undefined => s.delete key w
  | v => s.load.write (s.fields.set key v) w

def step : Action → Result × Store
  | .get k =>
      match keyOf k with
      | some key => (.value (((s.fields.get key).map reread).getD .null), s.load)
      | none => (.threw .badKey, s.load)
  | .set k v w =>
      match keyOf k with
      | some key => s.set key v w
      | none => (.threw .badKey, s)
  | .delete k w =>
      match keyOf k with
      | some key => s.delete key w
      | none => (.threw .badKey, s)
  | .restart => (.ended, { s with data := none })

end Store

/-! ## What it is for -/

/-- A value for some of the keys. -/
abbrev Map := Units → Option JsValue

def viewOf (fields : Fields) : Map := fun key => (fields.get key).map reread

def Map.put (m : Map) (key : Units) (v : Option JsValue) : Map :=
  fun key' => if key' = key then v else m key'

def Action.key? : Action → Option JsValue
  | .get k => some k
  | .set k _ _ => some k
  | .delete k _ => some k
  | .restart => none

/-- The operation that is to give a key this value, or none. -/
inductive Writes : Action → Units → Option JsValue → Write → Prop
  | set {k v : JsValue} {key : Units} {w : Write} (hk : keyOf k = some key) (hv : v ≠ .undefined) :
      Writes (.set k v w) key (some (reread v)) w
  | unset {k : JsValue} {key : Units} {w : Write} (hk : keyOf k = some key) :
      Writes (.set k .undefined w) key none w
  | delete {k : JsValue} {key : Units} {w : Write} (hk : keyOf k = some key) :
      Writes (.delete k w) key none w

def Write.Fails (w : Write) : Prop := w = .noFolder ∨ w = .noRename ∨ ∃ left, w = .noFile left

/-- What an operation may answer, and what is stored then.  A write that fails changes nothing, one
that is cut off is made or not. -/
inductive Allowed (m : Map) : Action → Result → Map → Prop
  | got {k : JsValue} {key : Units} (hk : keyOf k = some key) :
      Allowed m (.get k) (.value ((m key).getD .null)) m
  | badKey {a : Action} {k : JsValue} (ha : a.key? = some k) (hk : keyOf k = none) :
      Allowed m a (.threw .badKey) m
  | done {a : Action} {key : Units} {v : Option JsValue} {w : Write} (ha : Writes a key v w) :
      Allowed m a .done (m.put key v)
  | tooLarge {a : Action} {key : Units} {v : Option JsValue} {w : Write} {fields : Fields}
      (ha : Writes a key v w) (hview : viewOf fields = m.put key v)
      (hlarge : storeBytes < byteLength (body fields)) : Allowed m a (.threw .tooLarge) m
  | failed {a : Action} {key : Units} {v : Option JsValue} {w : Write} (ha : Writes a key v w)
      (hw : w.Fails) : Allowed m a (.threw .failed) m
  | lost {a : Action} {key : Units} {v : Option JsValue} {left : Option Units}
      (ha : Writes a key v (.cutBefore left)) : Allowed m a .ended m
  | kept {a : Action} {key : Units} {v : Option JsValue} (ha : Writes a key v .cutAfter) :
      Allowed m a .ended (m.put key v)
  | restarted : Allowed m .restart .ended m

/-! ## Reading the file -/

/-- There is no `undefined` among the values. -/
def Defined (fields : Fields) : Prop := ∀ key v, fields.get key = some v → v ≠ .undefined

theorem readValue_ne_undefined {n : ℕ} {s rest : Units} {v : JsValue}
    (h : readValue n s = some (v, rest)) : v ≠ .undefined := by
  rintro rfl
  cases n with
  | zero =>
      cases h
  | succ n =>
      rw [readValue] at h
      split at h
      · cases h
      · split_ifs at h
        all_goals simp [Option.map_eq_some_iff, readWord] at h

theorem readFields_ne_undefined {n : ℕ} {s rest : Units} {fs : List (Units × JsValue)}
    (h : readFields n s = some (fs, rest)) : ∀ f ∈ fs, f.2 ≠ .undefined := by
  induction n generalizing s fs rest with
  | zero =>
      cases h
  | succ n ih =>
      simp only [readFields, Option.bind_eq_bind, Option.bind_eq_some_iff] at h
      obtain ⟨s₁, _, ⟨k, s₂⟩, _, s₃, _, ⟨v, s₄⟩, hv, hmore⟩ := h
      have hne := readValue_ne_undefined hv
      simp only [readMore] at hmore
      split at hmore
      · obtain ⟨⟨fs', rest'⟩, hfs, heq⟩ := Option.map_eq_some_iff.1 hmore
        cases heq
        intro f hf
        rcases List.mem_cons.1 hf with rfl | hf
        · exact hne
        · exact ih hfs f hf
      · obtain ⟨rest', _, heq⟩ := Option.map_eq_some_iff.1 hmore
        cases heq
        intro f hf
        obtain rfl := List.mem_singleton.1 hf
        exact hne

theorem fields_ne_undefined {t : Units} {fs : List (Units × JsValue)}
    (h : parse t = some (.obj fs)) : ∀ f ∈ fs, f.2 ≠ .undefined := by
  unfold parse at h
  split at h
  · cases h
  · next v rest hread =>
      obtain ⟨_, hv⟩ := Option.ite_none_right_eq_some.1 h
      cases hv
      rw [readValue] at hread
      split at hread
      · cases hread
      · split_ifs at hread
        all_goals simp only [Option.map_eq_some_iff, readWord, Option.ite_none_right_eq_some,
          Option.some.injEq, Prod.mk.injEq, JsValue.obj.injEq, reduceCtorEq, false_and, and_false,
          exists_false] at hread
        obtain ⟨⟨pairs, rest'⟩, hpairs, heq, _⟩ := hread
        have hne : ∀ f ∈ pairs, f.2 ≠ .undefined := by
          unfold readClosed at hpairs
          split at hpairs
          · cases hpairs
            exact fun f hf => (List.not_mem_nil hf).elim
          · exact readFields_ne_undefined hpairs
        intro f hf
        rw [← heq, ← entries_ofList] at hf
        exact hne _ (OrderedMap.mem_of_get_ofList ((OrderedMap.get_eq_some_iff _).2 hf))

theorem defined_contents (file : Option Units) : Defined (contents file) := by
  intro key v hv
  unfold contents at hv
  split at hv
  · next fs hparse =>
      obtain ⟨t, _, ht⟩ := Option.bind_eq_some_iff.1 hparse
      exact fields_ne_undefined ht _ (OrderedMap.mem_of_get_ofList hv)
  · cases hv

/-- What has been written is read again. -/
theorem viewOf_contents_body {fields : Fields} (h : Defined fields) :
    viewOf (contents (some (body fields))) = viewOf fields := by
  have hdef : ∀ f ∈ fields.entries, f.2 ≠ .undefined :=
    fun f hf => h f.1 f.2 (fields.get_eq_some_iff.2 hf)
  have hparse : parse (body fields) =
      some (.obj (fields.entries.map fun f => (f.1, reread f.2))) := by
    rw [← reread_obj fields.nodup hdef]
    exact parse_stringify rfl
  funext key
  have hget : (contents (some (body fields))).get key = (fields.get key).map reread := by
    unfold contents
    rw [Option.bind_some, hparse]
    exact OrderedMap.get_ofList_map fields reread key
  rw [viewOf, hget, Option.map_map, viewOf]
  congr 1
  exact funext reread_reread

/-! ## Every operation -/

/-- The file holds the map, and so does the object that is kept; a file that the store has written
is within its bound. -/
structure Related (file : Option Units) (s : Store) (m : Map) : Prop where
  stored : viewOf (contents s.file) = m
  kept : ∀ fields, s.data = some fields → viewOf fields = m ∧ Defined fields
  bounded : s.file = file ∨ ∀ t ∈ s.file, byteLength t ≤ storeBytes

variable {file : Option Units} {s : Store} {m : Map} {key : Units} {next : Fields} {w : Write}
  {a : Action} {v : Option JsValue}

theorem Related.fields (h : Related file s m) : viewOf s.fields = m ∧ Defined s.fields := by
  unfold Store.fields
  cases hdata : s.data with
  | none => exact ⟨h.stored, defined_contents s.file⟩
  | some fields => exact h.kept fields hdata

theorem Related.load (h : Related file s m) : Related file s.load m := by
  refine ⟨h.stored, fun fields hfields => ?_, h.bounded⟩
  cases hfields
  exact h.fields

/-- The host ends, or something is left beside the file. -/
theorem Related.forget (h : Related file s m) (left : Option Units) :
    Related file { s with tmp := left, data := none } m := by
  refine ⟨h.stored, fun fields hfields => ?_, h.bounded⟩
  cases hfields

/-- A new object takes the place of the old one, or nothing changes. -/
theorem Related.write (h : Related file s m) (ha : Writes a key v w)
    (hview : viewOf next = m.put key v) (hdef : Defined next) :
    ∃ m', Allowed m a (s.write next w).1 m' ∧ Related file (s.write next w).2 m' := by
  unfold Store.write
  by_cases hlarge : storeBytes < byteLength (body next)
  · simp only [if_pos hlarge]
    exact ⟨m, .tooLarge ha hview hlarge, h⟩
  · simp only [if_neg hlarge]
    have hstored : viewOf (contents (some (body next))) = m.put key v :=
      (viewOf_contents_body hdef).trans hview
    have hbounded : ∀ t ∈ some (body next), byteLength t ≤ storeBytes := by
      intro t ht
      cases ht
      exact Nat.le_of_not_lt hlarge
    cases w with
    | whole =>
        refine ⟨m.put key v, .done ha, hstored, fun fields hfields => ?_, Or.inr hbounded⟩
        cases hfields
        exact ⟨hview, hdef⟩
    | noFolder =>
        exact ⟨m, .failed ha (Or.inl rfl), h⟩
    | noFile left =>
        exact ⟨m, .failed ha (Or.inr (Or.inr ⟨left, rfl⟩)), h.stored, h.kept, h.bounded⟩
    | noRename =>
        exact ⟨m, .failed ha (Or.inr (Or.inl rfl)), h.stored, h.kept, h.bounded⟩
    | cutBefore left =>
        exact ⟨m, .lost ha, h.forget left⟩
    | cutAfter =>
        refine ⟨m.put key v, .kept ha, hstored, fun fields hfields => ?_, Or.inr hbounded⟩
        cases hfields

theorem viewOf_delete (fields : Fields) (key : Units) :
    viewOf (fields.delete key) = (viewOf fields).put key none := by
  funext key'
  simp only [viewOf, OrderedMap.get_delete, Map.put]
  split
  · rfl
  · rfl

theorem viewOf_set (fields : Fields) (key : Units) (v : JsValue) :
    viewOf (fields.set key v) = (viewOf fields).put key (some (reread v)) := by
  funext key'
  simp only [viewOf, OrderedMap.get_set, Map.put]
  split
  · rfl
  · rfl

theorem Related.delete (h : Related file s m) (ha : Writes a key none w) :
    ∃ m', Allowed m a (s.delete key w).1 m' ∧ Related file (s.delete key w).2 m' := by
  obtain ⟨hview, hdef⟩ := h.fields
  unfold Store.delete
  by_cases hhas : s.fields.has key = true
  · rw [if_pos hhas]
    refine h.load.write ha ((viewOf_delete s.fields key).trans (by rw [hview])) ?_
    exact fun key' v hv => hdef key' v (OrderedMap.get_delete_cases hv).2
  · rw [if_neg hhas]
    -- there is nothing to delete
    have hnone : m key = none := by
      rw [← hview, viewOf, Option.map_eq_none_iff]
      simpa [OrderedMap.has] using hhas
    have hsame : m.put key none = m := by
      funext key'
      unfold Map.put
      split
      · next heq => rw [heq, hnone]
      · rfl
    refine ⟨m.put key none, .done ha, ?_⟩
    rw [hsame]
    exact h.load

theorem Related.set (h : Related file s m) {k v : JsValue} (hk : keyOf k = some key) :
    ∃ m', Allowed m (.set k v w) (s.set key v w).1 m' ∧ Related file (s.set key v w).2 m' := by
  obtain ⟨hview, hdef⟩ := h.fields
  unfold Store.set
  split
  · exact h.delete (.unset hk)
  · next hv =>
      refine h.load.write (.set hk hv) ((viewOf_set s.fields key v).trans (by rw [hview])) ?_
      intro key' v' hv'
      rcases OrderedMap.get_set_cases hv' with ⟨_, rfl⟩ | ⟨_, hold⟩
      · exact hv
      · exact hdef key' v' hold

theorem simulates (file : Option Units) : Simulates Store.step Allowed (Related file) := by
  intro s m a h
  cases a with
  | get k =>
      cases hk : keyOf k with
      | none =>
          simp only [Store.step, hk]
          exact ⟨m, .badKey rfl hk, h.load⟩
      | some key =>
          simp only [Store.step, hk]
          have hget : (s.fields.get key).map reread = m key := congrFun h.fields.1 key
          rw [hget]
          exact ⟨m, .got hk, h.load⟩
  | set k v w =>
      cases hk : keyOf k with
      | none =>
          simp only [Store.step, hk]
          exact ⟨m, .badKey rfl hk, h⟩
      | some key =>
          simp only [Store.step, hk]
          exact h.set hk
  | delete k w =>
      cases hk : keyOf k with
      | none =>
          simp only [Store.step, hk]
          exact ⟨m, .badKey rfl hk, h⟩
      | some key =>
          simp only [Store.step, hk]
          exact h.delete (.delete hk)
  | restart =>
      exact ⟨m, .restarted, h.forget s.tmp⟩

/-- Over every run, whatever the file held and wherever a write fails or is cut off: the answers
are those of a map that each completed change is made to, and a file once written is within the
bound. -/
theorem stored_map (file : Option Units) (as : List Action) :
    ∃ m, Trace Allowed (viewOf (contents file))
      (as.zip (answers Store.step ⟨file, none, none⟩ as).1) m ∧
      viewOf (contents (answers Store.step ⟨file, none, none⟩ as).2.file) = m ∧
      ((answers Store.step ⟨file, none, none⟩ as).2.file = file ∨
        ∀ t ∈ (answers Store.step ⟨file, none, none⟩ as).2.file, byteLength t ≤ storeBytes) := by
  have hstart : Related file ⟨file, none, none⟩ (viewOf (contents file)) := by
    refine ⟨rfl, fun fields hfields => ?_, Or.inl rfl⟩
    cases hfields
  obtain ⟨m, htrace, h⟩ := answers_allowed (simulates file) as hstart
  exact ⟨m, htrace, h.stored, h.bounded⟩

end PluginStore
end Edge
end GateControl
