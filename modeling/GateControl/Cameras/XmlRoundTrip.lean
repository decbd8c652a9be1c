import GateControl.Cameras.XmlPrint

/-!
# XmlRoundTrip — what is printed is read

Tag by tag: the attributes of a printed tag come back with their values, a start tag opens its
element, and the end tag finds this element on top of the stack.  So a printed element moves the
reader from the text in front of it to the text behind it, with one child more.
-/

namespace GateControl
namespace Cameras
namespace Xml

open Library

/-! ## Attributes -/

section Attributes

variable {key value rest attrs : Units} {q : CodeUnit} {pre : Option Units}
  {es : List (Units × Units)}

theorem readValue_quoted (hq : isQuote q = true) :
    readValue (unit '=' :: q :: (escape value ++ q :: rest)) = some (escape value, rest) := by
  have hspace : isSpaceUnit q = false ∧ (q = unit '"' ∨ q = unit '\'') := by
    obtain h | h := Bool.or_eq_true_iff.1 hq
    · obtain rfl := of_decide_eq_true h
      exact ⟨by decide, .inl rfl⟩
    · obtain rfl := of_decide_eq_true h
      exact ⟨by decide, .inr rfl⟩
  have hequal : ¬ isSpaceUnit (unit '=') = true := by
    decide
  rw [readValue, List.dropWhile_cons_of_neg hequal]
  change (if unit '=' = unit '=' then _ else none) = _
  rw [if_pos rfl, List.dropWhile_cons_of_neg (ne_true_of_eq_false hspace.1)]
  change (if q = unit '"' ∨ q = unit '\'' then _ else none) = _
  rw [if_pos hspace.2, cut_singleton (quote_not_mem_escape hq value)]

theorem readAttr_key (hkey : IsKey key) (hq : isQuote q = true) :
    readAttr (key ++ unit '=' :: q :: (escape value ++ q :: rest)) =
      some ((key, escape value), rest) := by
  have hname : readName (key ++ unit '=' :: q :: (escape value ++ q :: rest)) =
      some (key, unit '=' :: q :: (escape value ++ q :: rest)) := by
    refine hkey.readName fun c hc => ?_
    obtain rfl := Option.some.inj hc
    decide
  rw [readAttr, hname, Option.bind_some, readValue_quoted hq, Option.map_some]

theorem readAttrs_of_some {s : Units} {a : Units × Units} (h : readAttr s = some (a, rest)) :
    readAttrs s = a :: readAttrs rest := by
  cases s with
  | nil => cases h
  | cons c s =>
      rw [readAttrs]
      split
      · rename_i hnone
        rw [h] at hnone
        cases hnone
      · rename_i hsome
        rw [h] at hsome
        cases hsome
        rfl

theorem readAttrs_of_none {c : CodeUnit} {s : Units} (h : readAttr (c :: s) = none) :
    readAttrs (c :: s) = readAttrs s := by
  rw [readAttrs]
  split
  · rfl
  · rename_i hsome
    rw [h] at hsome
    cases hsome

theorem readAttrs_attrText (hkey : IsKey key) (hq : isQuote q = true) :
    readAttrs (attrText key q value rest) = (key, escape value) :: readAttrs rest := by
  have hstart : isNameStart (unit ' ') = false := by
    decide
  have hblank : ∀ s, readAttr (unit ' ' :: s) = none := by
    intro s
    rw [readAttr, readName, List.head?_cons, Option.any_some, hstart, if_neg Bool.false_ne_true,
      Option.bind_none]
  rw [attrText, readAttrs_of_none (hblank _), readAttrs_of_some (readAttr_key hkey hq)]

theorem isKey_declaration {space : Option Units} (h : ∀ n ∈ space, isName n = true) :
    IsKey (space.elim xmlnsName (qualified (some xmlnsName))) := by
  have hxmlns : isName xmlnsName = true := by
    decide
  cases space with
  | none => exact isKey_of_isName hxmlns
  | some n =>
      have hpre : ∀ p ∈ some xmlnsName, isName p = true := by
        intro p hp
        obtain rfl := Option.some.inj hp
        exact hxmlns
      exact isKey_qualified hpre (h n rfl)

theorem isDeclaration_declaration (space : Option Units) :
    isDeclaration (space.elim xmlnsName (qualified (some xmlnsName))) = true := by
  cases space with
  | none => decide
  | some n =>
      have hprefix : xmlnsName ++ [unit ':'] <+: qualified (some xmlnsName) n :=
        ⟨n, by rw [qualified, List.append_assoc, List.singleton_append]⟩
      exact Bool.or_eq_true_iff.2 (.inr (List.isPrefixOf_iff_prefix.2 hprefix))

/-- Other names are attributes, whatever their prefix is. -/
theorem isDeclaration_qualified (hpre : ∀ p ∈ pre, isName p = true ∧ p ≠ xmlnsName)
    (hkey : isName key = true) (hne : key ≠ xmlnsName) :
    isDeclaration (qualified pre key) = false := by
  refine Bool.or_eq_false_iff.2 ⟨decide_eq_false ?_, Bool.eq_false_iff.2 fun hprefix => ?_⟩
  · cases pre with
    | none => exact hne
    | some p =>
        intro heq
        have hcolon : unit ':' ∈ xmlnsName := by
          rw [← heq]
          exact List.mem_append_right _ List.mem_cons_self
        exact absurd hcolon (by decide)
  · obtain ⟨t, ht⟩ := List.isPrefixOf_iff_prefix.1 hprefix
    rw [List.append_assoc, List.singleton_append] at ht
    cases pre with
    | none =>
        refine colon_not_mem hkey ?_
        rw [show key = xmlnsName ++ unit ':' :: t from ht.symm]
        exact List.mem_append_right _ List.mem_cons_self
    | some p =>
        -- both are cut at their first colon
        have hcut := cut_singleton (colon_not_mem (hpre p rfl).1) key
        rw [show p ++ unit ':' :: key = xmlnsName ++ unit ':' :: t from ht.symm,
          cut_singleton (by decide)] at hcut
        cases hcut
        exact (hpre _ rfl).2 rfl

theorem setAttr_qualified (hpre : ∀ p ∈ pre, isName p = true ∧ p ≠ xmlnsName)
    (hkey : isName key = true ∧ key ≠ xmlnsName ∧ key ≠ protoKey) (m : OrderedMap Units Units) :
    setAttr m (qualified pre key, escape value) = m.set key value := by
  have hlocal := localName_qualified (fun p hp => (hpre p hp).1) hkey.1
  rw [setAttr, isDeclaration_qualified hpre hkey.1 hkey.2.1, if_neg Bool.false_ne_true, hlocal,
    if_neg hkey.2.2, decode_escape]

/-- The attributes of a tag are put one behind the other. -/
theorem PrintsAttrs.entries_foldl (h : PrintsAttrs es attrs)
    (hkeys : ∀ e ∈ es, isName e.1 = true ∧ e.1 ≠ xmlnsName ∧ e.1 ≠ protoKey)
    (m : OrderedMap Units Units) :
    ((readAttrs attrs).foldl setAttr m).entries =
      es.foldl (fun fs e => OrderedMap.put e.1 e.2 fs) m.entries := by
  induction h generalizing m with
  | nil =>
      rw [readAttrs]
      rfl
  | attr hpre hq _ ih =>
      have hkey := hkeys _ List.mem_cons_self
      have hread := isKey_qualified (fun p hp => (hpre p hp).1) hkey.1
      rw [readAttrs_attrText hread hq, List.foldl_cons, setAttr_qualified hpre hkey,
        ih fun e he => hkeys e (List.mem_cons_of_mem _ he)]
      rfl
  | declaration hspace hq _ ih =>
      rw [readAttrs_attrText (isKey_declaration hspace) hq, List.foldl_cons, setAttr,
        if_pos (isDeclaration_declaration _), ih hkeys]

theorem PrintsAttrs.foldl_setAttr {m : OrderedMap Units Units} (h : PrintsAttrs m.entries attrs)
    (hkeys : ∀ key ∈ m.keys, isName key = true ∧ key ≠ xmlnsName ∧ key ≠ protoKey) :
    (readAttrs attrs).foldl setAttr .empty = m := by
  apply OrderedMap.eq_of_entries
  rw [h.entries_foldl fun e he => hkeys _ (List.mem_map_of_mem he)]
  exact OrderedMap.foldl_put_of_nodup m.nodup

/-- Attributes begin with a blank, and end with a quote. -/
theorem PrintsAttrs.spec (h : PrintsAttrs es attrs)
    (hkeys : ∀ e ∈ es, isName e.1 = true) :
    (∀ c ∈ attrs.head?, isNameUnit c = false) ∧ unit '>' ∉ attrs ∧
      ∀ front : Units, front.getLast? ≠ some (unit '/') →
        (front ++ attrs).getLast? ≠ some (unit '/') := by
  have hattr : ∀ {key value rest : Units} {q : CodeUnit}, IsKey key → isQuote q = true →
      (unit '>' ∉ rest ∧ ∀ front : Units, front.getLast? ≠ some (unit '/') →
        (front ++ rest).getLast? ≠ some (unit '/')) →
      (∀ c ∈ (attrText key q value rest).head?, isNameUnit c = false) ∧
        unit '>' ∉ attrText key q value rest ∧
        ∀ front : Units, front.getLast? ≠ some (unit '/') →
          (front ++ attrText key q value rest).getLast? ≠ some (unit '/') := by
    intro key value rest q hkey hq ⟨hgt, hlast⟩
    have hquote : unit '>' ≠ q ∧ q ≠ unit '/' := by
      obtain h | h := Bool.or_eq_true_iff.1 hq
      · obtain rfl := of_decide_eq_true h
        exact ⟨by decide, by decide⟩
      · obtain rfl := of_decide_eq_true h
        exact ⟨by decide, by decide⟩
    refine ⟨fun c hc => ?_, fun hmem => ?_, fun front _ => ?_⟩
    · obtain rfl := Option.some.inj hc
      decide
    · simp only [attrText, List.mem_cons, List.mem_append] at hmem
      obtain h | h | h | h | h | h | h := hmem
      · exact absurd h (by decide)
      · exact hkey.not_mem (by decide) h
      · exact absurd h (by decide)
      · exact hquote.1 h
      · exact gt_not_mem_escape value h
      · exact hquote.1 h
      · exact hgt h
    · -- the closing quote is in front of what follows
      have hsplit : front ++ attrText key q value rest =
          front ++ (unit ' ' :: (key ++ unit '=' :: q :: escape value)) ++ [q] ++ rest := by
        simp [attrText]
      rw [hsplit]
      refine hlast _ ?_
      rw [List.getLast?_concat]
      exact fun heq => hquote.2 (Option.some.inj heq)
  induction h with
  | nil =>
      exact ⟨fun _ h => absurd h (Option.not_mem_none _), List.not_mem_nil, fun front h => by rwa [List.append_nil]⟩
  | attr hpre hq _ ih =>
      have hkey := isKey_qualified (fun p hp => (hpre p hp).1) (hkeys _ List.mem_cons_self)
      exact hattr hkey hq (ih fun e he => hkeys e (List.mem_cons_of_mem _ he)).2
  | declaration hspace hq _ ih => exact hattr (isKey_declaration hspace) hq (ih hkeys).2

end Attributes

/-! ## Tags -/

section Tags

variable {e : Element} {pre : Option Units} {attrs rest : Units}

/-- An element as its start tag leaves it. -/
def Element.bare (e : Element) : Element := { e with text := [] }

theorem Named.entry (he : Named e) : ∀ a ∈ e.attrs.entries,
    isName a.1 = true ∧ a.1 ≠ xmlnsName ∧ a.1 ≠ protoKey :=
  fun _ ha => he.keys _ (List.mem_map_of_mem ha)

/-- A tag with its slash at the end, if it has one. -/
theorem tagOf_tag (he : Named e) (hpre : ∀ p ∈ pre, isName p = true)
    (hattrs : PrintsAttrs e.attrs.entries attrs) :
    tagOf (qualified pre e.name ++ attrs) = .ok (.startTag e.bare false) ∧
      tagOf (qualified pre e.name ++ attrs ++ [unit '/']) = .ok (.startTag e.bare true) := by
  have hkey := isKey_qualified hpre he.name
  obtain ⟨hhead, -, hlast⟩ := hattrs.spec fun a ha => (he.entry a ha).1
  have hread := hkey.readName hhead
  have hfold := hattrs.foldl_setAttr he.keys
  have hlocal := localName_qualified hpre he.name
  obtain ⟨c, hc, hstart⟩ := (Option.any_eq_true _ _).1 hkey.start
  have hslash : ∀ s : Units, (qualified pre e.name ++ s).head? ≠ some (unit '/') := by
    intro s heq
    rw [List.head?_append, hc] at heq
    obtain rfl := Option.some.inj heq
    exact absurd hstart (by decide)
  have hend : (qualified pre e.name ++ attrs).getLast? ≠ some (unit '/') := by
    refine hlast _ fun heq => ?_
    exact hkey.not_mem (by decide) (List.mem_of_getLast? heq)
  constructor
  · rw [tagOf, if_neg (hslash _)]
    simp only [decide_eq_false hend, Bool.false_eq_true, if_false, hread, hfold, hlocal]
    rfl
  · rw [List.append_assoc, tagOf, if_neg (hslash _), ← List.append_assoc]
    simp only [List.getLast?_concat, decide_true, if_true, List.dropLast_concat, hread, hfold,
      hlocal]
    rfl

theorem tagOf_endTag (he : Named e) (hpre : ∀ p ∈ pre, isName p = true) :
    tagOf (unit '/' :: qualified pre e.name) = .ok (.endTag e.name) := by
  have hkey := isKey_qualified hpre he.name
  rw [tagOf, List.head?_cons, if_pos rfl, List.tail_cons, hkey.trim,
    localName_qualified hpre he.name]

/-- What neither begins with `!` nor with `?` is a tag. -/
theorem readMarkup_tag {c : CodeUnit} {raw : Units} (hbang : c ≠ unit '!') (hquestion : c ≠ unit '?')
    (hgt : unit '>' ∉ c :: raw) :
    readMarkup (c :: raw ++ unit '>' :: rest) = (tagOf (c :: raw)).map fun m => (m, rest) := by
  have hstarts : ∀ (d : CodeUnit) (w : Units), c ≠ d →
      (d :: w).isPrefixOf (c :: raw ++ unit '>' :: rest) = false := by
    intro d w hne
    rw [List.cons_append, List.isPrefixOf_cons_cons, beq_false_of_ne hne.symm, Bool.false_and]
  have hcomment : startsWith "!--" (c :: raw ++ unit '>' :: rest) = false := hstarts _ _ hbang
  have hcdata : startsWith "![CDATA[" (c :: raw ++ unit '>' :: rest) = false := hstarts _ _ hbang
  have hdtd : startsWith "!" (c :: raw ++ unit '>' :: rest) = false := hstarts _ _ hbang
  have hdecl : startsWith "?" (c :: raw ++ unit '>' :: rest) = false := hstarts _ _ hquestion
  have hcut : cut (units ">".toList) (c :: raw ++ unit '>' :: rest) = some (c :: raw, rest) :=
    cut_singleton hgt rest
  rw [readMarkup, hcomment, hcdata, hdtd, hdecl, if_neg Bool.false_ne_true,
    if_neg Bool.false_ne_true, if_neg Bool.false_ne_true, if_neg Bool.false_ne_true, readUpTo, hcut]
  rfl

end Tags

/-- A key is not empty, and begins neither with `!` nor with `?`. -/
theorem IsKey.front {key : Units} (h : IsKey key) :
    ∃ c k, key = c :: k ∧ c ≠ unit '!' ∧ c ≠ unit '?' := by
  cases key with
  | nil => exact Bool.noConfusion h.start
  | cons c k =>
      have hc := h.units c List.mem_cons_self
      exact ⟨c, k, rfl, ne_of_isNameUnit hc (by decide), ne_of_isNameUnit hc (by decide)⟩

/-! ## Turns of the reader -/

namespace Reader

variable {r : Reader} {e : Element} {pre : Option Units} {attrs rest : Units}

theorem addText_nil (r : Reader) : r.addText [] = r := by
  obtain ⟨⟨⟨e, ts⟩, around⟩, nodes⟩ := r
  simp only [addText, OpenTree.relabel, RoseTree.relabel, List.append_nil]

theorem run_eq {s : Units} (hs : s ≠ []) :
    r.run s = (r.step s).bind fun next => next.1.run next.2 := by
  rw [run, dif_neg hs]
  split
  · rename_i hstep
    simp only [hstep, Except.bind]
  · rename_i hstep
    simp only [hstep, Except.bind]

/-- Markup with no text in front of it. -/
theorem step_markup {s : Units} {m : Markup} (h : readMarkup s = .ok (m, rest)) :
    r.step (unit '<' :: s) = (r.apply m).map fun r => (r, rest) := by
  have hcut : cut [unit '<'] (unit '<' :: s) = some ([], s) := cut_singleton List.not_mem_nil s
  rw [step, hcut]
  simp only [h, Except.bind, decode, addText_nil]

/-- Text in front of markup belongs to the innermost element. -/
theorem run_escape (t s : Units) :
    r.run (escape t ++ unit '<' :: s) = (r.addText t).run (unit '<' :: s) := by
  have hcut : cut [unit '<'] (unit '<' :: s) = some ([], s) := cut_singleton List.not_mem_nil s
  have hstep : r.step (escape t ++ unit '<' :: s) = (r.addText t).step (unit '<' :: s) := by
    rw [step, step, cut_singleton (lt_not_mem_escape t), hcut]
    simp only [decode_escape, decode, addText_nil]
  rw [run_eq (List.append_ne_nil_of_right_ne_nil _ (List.cons_ne_nil _ _)),
    run_eq (List.cons_ne_nil _ _), hstep]

/-- A tag without `!` and `?` at its front is taken as a whole. -/
theorem run_tag {c : CodeUnit} {raw : Units} {m : Markup} {r' : Reader} (hbang : c ≠ unit '!')
    (hquestion : c ≠ unit '?') (hgt : unit '>' ∉ c :: raw) (htag : tagOf (c :: raw) = .ok m)
    (happly : r.apply m = .ok r') :
    r.run (unit '<' :: (c :: raw ++ unit '>' :: rest)) = r'.run rest := by
  have hmarkup : readMarkup (c :: raw ++ unit '>' :: rest) = .ok (m, rest) := by
    rw [readMarkup_tag hbang hquestion hgt, htag]
    rfl
  rw [run_eq (List.cons_ne_nil _ _), step_markup hmarkup, happly]
  rfl

/-- A start tag is read, and its element is the innermost. -/
theorem run_startTag (he : Named e) (hpre : ∀ p ∈ pre, isName p = true)
    (hattrs : PrintsAttrs e.attrs.entries attrs) (hnodes : r.nodes + 1 ≤ maxNodes)
    (hdepth : r.stackLength ≤ maxDepth) :
    r.run (unit '<' :: (qualified pre e.name ++ attrs ++ unit '>' :: rest)) =
      run ⟨r.opened.enter (.node e.bare []), r.nodes + 1⟩ rest := by
  have hkey := isKey_qualified hpre he.name
  obtain ⟨c, k, hfront, hbang, hquestion⟩ := hkey.front
  have hgt : unit '>' ∉ qualified pre e.name ++ attrs := by
    rw [List.mem_append, not_or]
    exact ⟨hkey.not_mem (by decide), (hattrs.spec fun a ha => (he.entry a ha).1).2.1⟩
  have htag := (tagOf_tag he hpre hattrs).1
  have happly : r.apply (.startTag e.bare false) =
      .ok ⟨r.opened.enter (.node e.bare []), r.nodes + 1⟩ := by
    rw [apply, if_neg (Nat.not_lt.2 hnodes), if_neg Bool.false_ne_true,
      if_neg (Nat.not_lt.2 hdepth)]
  rw [hfront, List.cons_append] at hgt htag ⊢
  exact run_tag hbang hquestion hgt htag happly

/-- A tag that closes itself leaves a child. -/
theorem run_emptyTag (he : Named e) (hpre : ∀ p ∈ pre, isName p = true)
    (hattrs : PrintsAttrs e.attrs.entries attrs) (hnodes : r.nodes + 1 ≤ maxNodes) :
    r.run (unit '<' :: (qualified pre e.name ++ attrs ++ [unit '/'] ++ unit '>' :: rest)) =
      run ⟨r.opened.add (.node e.bare []), r.nodes + 1⟩ rest := by
  have hkey := isKey_qualified hpre he.name
  obtain ⟨c, k, hfront, hbang, hquestion⟩ := hkey.front
  have hgt : unit '>' ∉ qualified pre e.name ++ attrs ++ [unit '/'] := by
    rw [List.mem_append, List.mem_append, not_or, not_or]
    exact ⟨⟨hkey.not_mem (by decide), (hattrs.spec fun a ha => (he.entry a ha).1).2.1⟩, by decide⟩
  have htag := (tagOf_tag he hpre hattrs).2
  have happly : r.apply (.startTag e.bare true) =
      .ok ⟨r.opened.add (.node e.bare []), r.nodes + 1⟩ := by
    rw [apply, if_neg (Nat.not_lt.2 hnodes), if_pos rfl]
  rw [hfront, List.cons_append, List.cons_append] at hgt htag ⊢
  exact run_tag hbang hquestion hgt htag happly

/-- The end tag of the innermost element closes it and no other. -/
theorem run_endTag {o : OpenTree Element} {n : Nat} {ts : List Node} (he : Named e)
    (hpre : ∀ p ∈ pre, isName p = true) :
    run ⟨o.enter (.node e ts), n⟩
        (unit '<' :: unit '/' :: (qualified pre e.name ++ unit '>' :: rest)) =
      run ⟨o.add (.node e ts), n⟩ rest := by
  have hkey := isKey_qualified hpre he.name
  have hgt : unit '>' ∉ unit '/' :: qualified pre e.name := by
    rw [List.mem_cons, not_or]
    exact ⟨by decide, hkey.not_mem (by decide)⟩
  have hleave : (o.enter (.node e ts)).leave (fun f => decide (f.name = e.name)) =
      o.add (.node e ts) := OpenTree.leave_enter (decide_eq_true (p := e.name = e.name) rfl) o
  have happly : apply ⟨o.enter (.node e ts), n⟩ (.endTag e.name) = .ok ⟨o.add (.node e ts), n⟩ :=
    congrArg (fun o => Except.ok (⟨o, n⟩ : Reader)) hleave
  exact run_tag (by decide) (by decide) hgt (tagOf_endTag he hpre) happly

end Reader

/-! ## Documents -/

theorem Prints.front {t : Node} {s : Units} (h : Prints t s) : ∃ x, s = unit '<' :: x := by
  cases h with
  | element => exact ⟨_, rfl⟩
  | empty => exact ⟨_, rfl⟩

/-- Behind the text of an element stands a `<`. -/
theorem PrintsAll.front {ts : List Node} {s : Units} (h : PrintsAll ts s) (rest : Units) :
    ∃ x, s ++ unit '<' :: rest = unit '<' :: x := by
  cases h with
  | nil => exact ⟨rest, rfl⟩
  | cons ht _ =>
      obtain ⟨x, rfl⟩ := ht.front
      exact ⟨_, rfl⟩

open RoseTree (sizes heights EveryOf)

mutual

/-- The reader goes from the front of a printed element to its end. -/
theorem Prints.run {t : Node} {s : Units} (h : Prints t s) (hnamed : t.Every Named) (r : Reader)
    (hdepth : r.opened.level + t.height ≤ maxDepth) (hnodes : r.nodes + t.size ≤ maxNodes)
    (rest : Units) : r.run (s ++ rest) = Reader.run ⟨r.opened.add t, r.nodes + t.size⟩ rest := by
  cases h with
  | @element e ts pre attrs body hpre hattrs hbody =>
      obtain ⟨he, hts⟩ := hnamed
      rw [RoseTree.height] at hdepth
      rw [RoseTree.size] at hnodes ⊢
      have hlevel : r.stackLength ≤ maxDepth := by
        rw [Reader.stackLength]
        omega
      obtain ⟨x, hx⟩ := hbody.front (unit '/' :: (qualified pre e.name ++ unit '>' :: rest))
      calc r.run (unit '<' :: (qualified pre e.name ++ attrs ++ unit '>' :: (escape e.text ++
              (body ++ unit '<' :: unit '/' :: (qualified pre e.name ++ [unit '>'])))) ++ rest)
        _ = r.run (unit '<' :: (qualified pre e.name ++ attrs ++ unit '>' :: (escape e.text ++
              (body ++ unit '<' :: unit '/' :: (qualified pre e.name ++ unit '>' :: rest))))) := by
            simp
        -- the start tag
        _ = Reader.run ⟨r.opened.enter (.node e.bare []), r.nodes + 1⟩ (escape e.text ++
              (body ++ unit '<' :: unit '/' :: (qualified pre e.name ++ unit '>' :: rest))) :=
            Reader.run_startTag he hpre hattrs (by omega) hlevel
        -- the text
        _ = Reader.run ⟨r.opened.enter (.node e []), r.nodes + 1⟩
              (body ++ unit '<' :: unit '/' :: (qualified pre e.name ++ unit '>' :: rest)) := by
            rw [hx, Reader.run_escape]
            rfl
        -- the children
        _ = Reader.run ⟨r.opened.enter (.node e ts), r.nodes + 1 + sizes ts⟩
              (unit '<' :: unit '/' :: (qualified pre e.name ++ unit '>' :: rest)) :=
            hbody.run hts r.opened e [] (r.nodes + 1) (by omega) (by omega) _
        -- the end tag
        _ = Reader.run ⟨r.opened.add (.node e ts), r.nodes + 1 + sizes ts⟩ rest :=
            Reader.run_endTag he hpre
        _ = Reader.run ⟨r.opened.add (.node e ts), r.nodes + (sizes ts + 1)⟩ rest := by
            rw [Nat.add_comm (sizes ts), Nat.add_assoc]
  | @empty e pre attrs hpre hattrs htext =>
      have hbare : e.bare = e := by
        rw [Element.bare, ← htext]
      calc r.run (unit '<' :: (qualified pre e.name ++ attrs ++ [unit '/', unit '>']) ++ rest)
        _ = r.run (unit '<' ::
              (qualified pre e.name ++ attrs ++ [unit '/'] ++ unit '>' :: rest)) := by
            simp
        _ = Reader.run ⟨r.opened.add (.node e.bare []), r.nodes + 1⟩ rest :=
            Reader.run_emptyTag hnamed.1 hpre hattrs hnodes
        _ = Reader.run ⟨r.opened.add (.node e []), r.nodes + 1⟩ rest := by
            rw [hbare]

/-- Children come one after the other. -/
theorem PrintsAll.run {ts : List Node} {s : Units} (h : PrintsAll ts s) (hnamed : EveryOf Named ts)
    (o : OpenTree Element) (e : Element) (us : List Node) (n : Nat)
    (hdepth : o.level + 1 + heights ts ≤ maxDepth) (hnodes : n + sizes ts ≤ maxNodes)
    (rest : Units) :
    Reader.run ⟨o.enter (.node e us), n⟩ (s ++ rest) =
      Reader.run ⟨o.enter (.node e (us ++ ts)), n + sizes ts⟩ rest := by
  cases h with
  | nil =>
      rw [List.nil_append, List.append_nil]
      rfl
  | @cons t ts s s' ht hts =>
      obtain ⟨hnamed, hnameds⟩ := hnamed
      rw [heights] at hdepth
      rw [sizes] at hnodes ⊢
      have hlevel : (o.enter (.node e us)).level + t.height ≤ maxDepth := by
        rw [OpenTree.level_enter]
        omega
      have hsize : n + t.size ≤ maxNodes := by
        omega
      have hfirst := ht.run hnamed ⟨o.enter (.node e us), n⟩ hlevel hsize (s' ++ rest)
      have hrest := hts.run hnameds o e (us ++ [t]) (n + t.size) (by omega) (by omega) rest
      rw [List.append_assoc, hfirst, ← Nat.add_assoc, List.append_cons]
      exact hrest

end

/-- The root of a document. -/
def rootElement : Element := ⟨units "#root".toList, .empty, []⟩

theorem parse_prints {t : Node} {s : Units} (h : Prints t s) (hnamed : t.Every Named)
    (hdepth : t.height ≤ maxDepth) (hnodes : t.size ≤ maxNodes) :
    parse s = .ok (.node rootElement [t]) := by
  have hrun := h.run hnamed Reader.start (by rwa [Reader.start, OpenTree.level, List.length_nil,
    Nat.zero_add]) (by rwa [Reader.start, Nat.zero_add]) []
  rw [List.append_nil] at hrun
  rw [parse, hrun, Reader.run, dif_pos rfl]
  rfl

end Xml
end Cameras
end GateControl
