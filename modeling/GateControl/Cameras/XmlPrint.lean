import GateControl.Cameras.Xml

/-!
# XmlPrint — documents that are read as they were meant

How a tree is printed: any prefixes on its names, declarations of namespaces among its attributes,
and the characters of markup as entities.  An element without text and children may be one tag.  The
reader gives the tree back.
-/

namespace GateControl
namespace Cameras
namespace Xml

open Library

/-! ## Printing -/

/-- `[A-Za-z_][A-Za-z0-9_.-]*` -/
def isName (name : Units) : Bool :=
  name.head?.any isNameStart && name.all fun c => isNameUnit c && c ≠ unit ':'

def escapeUnit (c : CodeUnit) : Units :=
  match entities.find? (·.2 = c) with
  | some e => unit '&' :: (e.1 ++ [unit ';'])
  | none => [c]

def escape (s : Units) : Units := s.flatMap escapeUnit

/-- A name, behind its prefix if it has one. -/
def qualified (pre : Option Units) (name : Units) : Units :=
  match pre with
  | none => name
  | some p => p ++ unit ':' :: name

def isQuote (q : CodeUnit) : Bool := q = unit '"' || q = unit '\''

/-- An attribute, and what is printed behind it. -/
def attrText (key : Units) (q : CodeUnit) (value rest : Units) : Units :=
  unit ' ' :: (key ++ unit '=' :: q :: (escape value ++ q :: rest))

/-- The attributes in their order, with declarations of namespaces anywhere among them. -/
inductive PrintsAttrs : List (Units × Units) → Units → Prop
  | nil : PrintsAttrs [] []
  | attr {pre : Option Units} {key : Units} {q : CodeUnit} {value : Units}
      {es : List (Units × Units)} {s : Units} :
      (∀ p ∈ pre, isName p = true ∧ p ≠ xmlnsName) → isQuote q = true → PrintsAttrs es s →
        PrintsAttrs ((key, value) :: es) (attrText (qualified pre key) q value s)
  | declaration {space : Option Units} {q : CodeUnit} {value : Units}
      {es : List (Units × Units)} {s : Units} :
      (∀ n ∈ space, isName n = true) → isQuote q = true → PrintsAttrs es s →
        PrintsAttrs es (attrText (space.elim xmlnsName (qualified (some xmlnsName))) q value s)

mutual

inductive Prints : Node → Units → Prop
  | element {e : Element} {ts : List Node} {pre : Option Units} {attrs body : Units} :
      (∀ p ∈ pre, isName p = true) → PrintsAttrs e.attrs.entries attrs → PrintsAll ts body →
        Prints (.node e ts)
          (unit '<' :: (qualified pre e.name ++ attrs ++ unit '>' :: (escape e.text ++
            (body ++ unit '<' :: unit '/' :: (qualified pre e.name ++ [unit '>'])))))
  | empty {e : Element} {pre : Option Units} {attrs : Units} :
      (∀ p ∈ pre, isName p = true) → PrintsAttrs e.attrs.entries attrs → e.text = [] →
        Prints (.node e []) (unit '<' :: (qualified pre e.name ++ attrs ++ [unit '/', unit '>']))

inductive PrintsAll : List Node → Units → Prop
  | nil : PrintsAll [] []
  | cons {t : Node} {ts : List Node} {s s' : Units} :
      Prints t s → PrintsAll ts s' → PrintsAll (t :: ts) (s ++ s')

end

theorem exists_printsAttrs (es : List (Units × Units)) : ∃ s, PrintsAttrs es s := by
  induction es with
  | nil => exact ⟨[], .nil⟩
  | cons e es ih =>
      obtain ⟨s, hs⟩ := ih
      have hnone : ∀ p ∈ (none : Option Units), isName p = true ∧ p ≠ xmlnsName :=
        fun _ h => absurd h (Option.not_mem_none _)
      exact ⟨_, .attr hnone (show isQuote (unit '"') = true by decide) hs⟩

mutual

/-- Each tree can be printed. -/
theorem exists_prints : ∀ t : Node, ∃ s, Prints t s
  | .node e ts => by
      obtain ⟨attrs, hattrs⟩ := exists_printsAttrs e.attrs.entries
      obtain ⟨body, hbody⟩ := exists_printsAll ts
      have hnone : ∀ p ∈ (none : Option Units), isName p = true :=
        fun _ h => absurd h (Option.not_mem_none _)
      exact ⟨_, .element hnone hattrs hbody⟩

theorem exists_printsAll : ∀ ts : List Node, ∃ s, PrintsAll ts s
  | [] => ⟨[], .nil⟩
  | t :: ts => by
      obtain ⟨s, hs⟩ := exists_prints t
      obtain ⟨s', hs'⟩ := exists_printsAll ts
      exact ⟨s ++ s', .cons hs hs'⟩

end

/-- An element with names that can be printed. -/
structure Named (e : Element) : Prop where
  name : isName e.name = true
  keys : ∀ key ∈ e.attrs.keys, isName key = true ∧ key ≠ xmlnsName ∧ key ≠ protoKey

/-! ## Names -/

theorem name_bounds {c : CodeUnit} (h : isNameUnit c = true) : c.val ≤ 122 := by
  have hZ : (unit 'Z').val = 90 := rfl
  have hz : (unit 'z').val = 122 := rfl
  have h9 : (unit '9').val = 57 := rfl
  have hunderscore : (unit '_').val = 95 := rfl
  have hdot : (unit '.').val = 46 := rfl
  have hcolon : (unit ':').val = 58 := rfl
  have hdash : (unit '-').val = 45 := rfl
  simp only [isNameUnit, isNameStart, JsonText.isDigitUnit, Bool.or_eq_true, Bool.and_eq_true,
    decide_eq_true_eq, Fin.le_def, Fin.ext_iff] at h
  omega

theorem isSpaceUnit_of_isNameUnit {c : CodeUnit} (h : isNameUnit c = true) :
    isSpaceUnit c = false := by
  have hall : ∀ n < 128, isNameUnit (Fin.ofNat 65536 n) = true →
      isSpaceUnit (Fin.ofNat 65536 n) = false := by
    decide
  have hc : Fin.ofNat 65536 c.val = c := Fin.ofNat_val_eq_self c
  have hbound := name_bounds h
  rw [← hc] at h ⊢
  exact hall c.val (by omega) h

theorem ne_of_isNameUnit {c d : CodeUnit} (h : isNameUnit c = true) (hd : isNameUnit d = false) :
    c ≠ d := by
  rintro rfl
  rw [h] at hd
  cases hd

/-- A name as it stands in a tag, with or without a prefix. -/
structure IsKey (key : Units) : Prop where
  start : key.head?.any isNameStart = true
  units : ∀ c ∈ key, isNameUnit c = true

section Names

variable {name key rest : Units} {pre : Option Units}

theorem isKey_of_isName (h : isName name = true) : IsKey name := by
  obtain ⟨hstart, hall⟩ := Bool.and_eq_true_iff.1 h
  refine ⟨hstart, fun c hc => ?_⟩
  exact (Bool.and_eq_true_iff.1 (List.all_eq_true.1 hall c hc)).1

theorem colon_not_mem (h : isName name = true) : unit ':' ∉ name := by
  intro hmem
  have hcolon := List.all_eq_true.1 (Bool.and_eq_true_iff.1 h).2 _ hmem
  exact absurd hcolon (by decide)

theorem IsKey.not_mem (h : IsKey key) {d : CodeUnit} (hd : isNameUnit d = false) : d ∉ key :=
  fun hmem => ne_of_isNameUnit (h.units d hmem) hd rfl

theorem isKey_qualified (hpre : ∀ p ∈ pre, isName p = true) (hname : isName name = true) :
    IsKey (qualified pre name) := by
  cases pre with
  | none => exact isKey_of_isName hname
  | some p =>
      have hp := isKey_of_isName (hpre p rfl)
      refine ⟨?_, fun c hc => ?_⟩
      · obtain ⟨c, hc, hstart⟩ := (Option.any_eq_true _ _).1 hp.start
        rw [qualified, List.head?_append, hc]
        exact hstart
      · obtain hc | hc := List.mem_append.1 hc
        · exact hp.units c hc
        · obtain rfl | hc := List.mem_cons.1 hc
          · decide
          · exact (isKey_of_isName hname).units c hc

theorem localName_qualified (hpre : ∀ p ∈ pre, isName p = true) (hname : isName name = true) :
    localName (qualified pre name) = name := by
  cases pre with
  | none => rw [qualified, localName, cut_singleton_eq_none (colon_not_mem hname)]
  | some p => rw [qualified, localName, cut_singleton (colon_not_mem (hpre p rfl))]

theorem IsKey.readName (h : IsKey key) (hrest : ∀ c ∈ rest.head?, isNameUnit c = false) :
    readName (key ++ rest) = some (key, rest) := by
  have hstart : (key ++ rest).head?.any isNameStart = true := by
    obtain ⟨c, hc, hstart⟩ := (Option.any_eq_true _ _).1 h.start
    rw [List.head?_append, hc]
    exact hstart
  rw [Xml.readName, if_pos hstart, List.takeWhile_append_of_pos h.units,
    List.dropWhile_append_of_pos h.units]
  cases rest with
  | nil => rw [List.takeWhile_nil, List.dropWhile_nil, List.append_nil]
  | cons c rest =>
      rw [List.takeWhile_cons_of_neg, List.dropWhile_cons_of_neg, List.append_nil]
      · simp [hrest c rfl]
      · simp [hrest c rfl]

theorem IsKey.trim (h : IsKey key) : trimUnits key = key := by
  have hspace : ∀ s : Units, (∀ c ∈ s, isNameUnit c = true) → s.dropWhile isSpaceUnit = s := by
    intro s hs
    cases s with
    | nil => rfl
    | cons c s =>
        rw [List.dropWhile_cons_of_neg]
        simp [isSpaceUnit_of_isNameUnit (hs c List.mem_cons_self)]
  rw [trimUnits, hspace key h.units, hspace, List.reverse_reverse]
  exact fun c hc => h.units c (List.mem_reverse.1 hc)

end Names

/-! ## Escaped text -/

theorem readRun_append {least most : Nat} {kind : CodeUnit → Bool} {run : Units}
    (hkind : ∀ c ∈ run, kind c = true) (hend : kind (unit ';') = false)
    (hlength : least ≤ run.length ∧ run.length ≤ most) (rest : Units) :
    readRun least most kind (run ++ unit ';' :: rest) = some (run, rest) := by
  have hstop : ¬ kind (unit ';') = true := by
    rw [hend]
    exact Bool.false_ne_true
  rw [readRun, List.takeWhile_append_of_pos hkind, List.dropWhile_append_of_pos hkind,
    List.takeWhile_cons_of_neg hstop, List.dropWhile_cons_of_neg hstop, List.append_nil]
  exact if_pos ⟨hlength.1, hlength.2, rfl⟩

/-- The five entities are read. -/
theorem readReference_entity {e : Units × CodeUnit} (he : e ∈ entities) (rest : Units) :
    readReference (e.1 ++ unit ';' :: rest) = some ([e.2], rest) := by
  have hlower : ∀ e ∈ entities, e.1.all isLowerUnit = true ∧
      (2 ≤ e.1.length ∧ e.1.length ≤ 4) ∧ e.1.head? ≠ some (unit '#') ∧
      OrderedMap.find e.1 entities = some e.2 := by
    decide +kernel
  obtain ⟨hkind, hlength, hhead, hfind⟩ := hlower e he
  have hx : units "#x".toList = [unit '#', unit 'x'] := by
    decide
  have hnum : units "#".toList = [unit '#'] := by
    decide
  have hnumber : ∀ w : Units, (unit '#' :: w).isPrefixOf (e.1 ++ unit ';' :: rest) = false := by
    intro w
    cases hname : e.1 with
    | nil => rfl
    | cons c name =>
        have hc : unit '#' ≠ c := by
          rintro rfl
          exact hhead (by rw [hname]; rfl)
        rw [List.cons_append, List.isPrefixOf_cons_cons, beq_false_of_ne hc, Bool.false_and]
  rw [readReference, hx, hnum, if_neg (ne_true_of_eq_false (hnumber [unit 'x'])),
    if_neg (ne_true_of_eq_false (hnumber [])),
    readRun_append (List.all_eq_true.1 hkind) rfl hlength, Option.map_some, hfind]

theorem decode_of_ne {c : CodeUnit} (hc : c ≠ unit '&') (s : Units) :
    decode (c :: s) = c :: decode s := by
  rw [decode, if_neg hc]

theorem decode_reference {s t rest : Units} (h : readReference s = some (t, rest)) :
    decode (unit '&' :: s) = t ++ decode rest := by
  rw [decode, if_pos rfl]
  split
  · rename_i hnone
    rw [h] at hnone
    cases hnone
  · rename_i hsome
    rw [h] at hsome
    cases hsome
    rfl

/-- A code unit is an entity or itself. -/
theorem escapeUnit_cases (c : CodeUnit) :
    (∃ e ∈ entities, e.2 = c ∧ escapeUnit c = unit '&' :: (e.1 ++ [unit ';'])) ∨
      ((∀ e ∈ entities, e.2 ≠ c) ∧ escapeUnit c = [c]) := by
  rw [escapeUnit]
  cases h : entities.find? (·.2 = c) with
  | some e =>
      have he : e.2 = c := by
        simpa using List.find?_some h
      exact .inl ⟨e, List.mem_of_find?_eq_some h, he, rfl⟩
  | none =>
      refine .inr ⟨fun e he heq => ?_, rfl⟩
      exact List.find?_eq_none.1 h e he (decide_eq_true heq)

theorem decode_escape (s : Units) : decode (escape s) = s := by
  induction s with
  | nil =>
      rw [escape, List.flatMap_nil, decode]
  | cons c s ih =>
      have hcons : escape (c :: s) = escapeUnit c ++ escape s := rfl
      rw [hcons]
      obtain ⟨e, he, rfl, heq⟩ | ⟨hne, heq⟩ := escapeUnit_cases c
      · have hread := readReference_entity he (escape s)
        rw [heq, List.cons_append, List.append_assoc, List.singleton_append,
          decode_reference hread, ih, List.singleton_append]
      · have hc : c ≠ unit '&' := fun hamp => hne (units "amp".toList, unit '&') (by decide) hamp.symm
        rw [heq, List.singleton_append, decode_of_ne hc, ih]

/-- No mark is left in an escaped text: it is none of the letters of an entity. -/
theorem not_mem_escape {d : CodeUnit} (hd : ∃ e ∈ entities, e.2 = d)
    (hletter : ∀ e ∈ entities, d ∉ unit '&' :: (e.1 ++ [unit ';'])) (s : Units) :
    d ∉ escape s := by
  obtain ⟨e', he', hd'⟩ := hd
  intro hmem
  obtain ⟨c, -, hmem⟩ := List.mem_flatMap.1 hmem
  obtain ⟨e, he, -, heq⟩ | ⟨hne, heq⟩ := escapeUnit_cases c
  · rw [heq] at hmem
    exact hletter e he hmem
  · rw [heq, List.mem_singleton] at hmem
    exact hne e' he' (hd'.trans hmem)

theorem lt_not_mem_escape (s : Units) : unit '<' ∉ escape s :=
  not_mem_escape (by decide) (by decide) s

theorem gt_not_mem_escape (s : Units) : unit '>' ∉ escape s :=
  not_mem_escape (by decide) (by decide) s

theorem quote_not_mem_escape {q : CodeUnit} (hq : isQuote q = true) (s : Units) :
    q ∉ escape s := by
  obtain h | h := Bool.or_eq_true_iff.1 hq
  · obtain rfl := of_decide_eq_true h
    exact not_mem_escape (by decide) (by decide) s
  · obtain rfl := of_decide_eq_true h
    exact not_mem_escape (by decide) (by decide) s

end Xml
end Cameras
end GateControl
