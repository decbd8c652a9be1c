import GateControl.Cameras.ChallengeCuts

/-!
# ChallengeRoundTrip — printed challenges are read as they were meant

A part that is a printed challenge gives its scheme and its parameters.  Where a value is cut, each
part is still the beginning of a challenge for the reader, so that it finds more challenges than
were printed.  A `Digest` challenge is found in any case, and where there is one, `Basic` is no
answer.
-/

namespace GateControl
namespace Cameras

open Library

/-! ## Values and parameters -/

theorem special_not_lineEnd {c : Char} (h : c = '\\' ∨ c = '"') : isLineEnd c = false := by
  rcases h with rfl | rfl
  · decide
  · decide

theorem readQuoted_escapeValue (v rest : Text) :
    readQuoted false (escapeValue v ++ '"' :: rest) = some (escapeValue v, rest) := by
  induction v with
  | nil =>
      rfl
  | cons c v ih =>
      rw [escapeValue_cons]
      split
      · -- the backslash, and what it stands in front of
        rename_i hspecial
        change readQuoted false ('\\' :: c :: (escapeValue v ++ '"' :: rest)) = _
        rw [readQuoted, if_neg Bool.noConfusion, if_neg (by decide)]
        change (readQuoted true (c :: (escapeValue v ++ '"' :: rest))).map _ = _
        rw [readQuoted, if_pos rfl, special_not_lineEnd hspecial, if_neg Bool.noConfusion, ih]
        rfl
      · rename_i hspecial
        rw [not_or] at hspecial
        rw [List.append_assoc, List.singleton_append, readQuoted, if_neg Bool.noConfusion,
          if_neg hspecial.2, decide_eq_false hspecial.1, ih]
        rfl

theorem unescapeValue_escapeValue (v : Text) : unescapeValue false (escapeValue v) = v := by
  induction v with
  | nil =>
      rfl
  | cons c v ih =>
      rw [escapeValue_cons]
      split
      · rename_i hspecial
        change unescapeValue true (c :: escapeValue v) = _
        rw [unescapeValue, if_pos rfl, special_not_lineEnd hspecial, if_neg Bool.noConfusion, ih]
      · rename_i hspecial
        rw [not_or] at hspecial
        rw [List.singleton_append, unescapeValue, if_neg Bool.noConfusion, if_neg hspecial.1, ih]

/-- A printed parameter is read with its value. -/
theorem readParam_printParam {p : Text × Text} (hp : ∀ c ∈ p.1, isLowerName c = true)
    (rest : Text) : readParam (printParam p ++ rest) = some (p, rest) := by
  have hname : ∀ c ∈ p.1, isParamChar c = true := fun c hc => isParamChar_lowerName (hp c hc)
  have hequal : ¬isParamChar '=' = true := by decide
  have htext : printParam p ++ rest = p.1 ++ '=' :: '"' :: (escapeValue p.2 ++ '"' :: rest) := by
    rw [printParam, List.append_assoc]
    change p.1 ++ '=' :: '"' :: ((escapeValue p.2 ++ ['"']) ++ rest) = _
    rw [List.append_assoc, List.singleton_append]
  have hdrop : (p.1 ++ '=' :: '"' :: (escapeValue p.2 ++ '"' :: rest)).dropWhile isParamChar =
      '=' :: '"' :: (escapeValue p.2 ++ '"' :: rest) := by
    rw [List.dropWhile_append_of_pos hname, List.dropWhile_cons_of_neg hequal]
  have htake : (p.1 ++ '=' :: '"' :: (escapeValue p.2 ++ '"' :: rest)).takeWhile isParamChar =
      p.1 := by
    rw [List.takeWhile_append_of_pos hname, List.takeWhile_cons_of_neg hequal, List.append_nil]
  have hspace : ∀ c, c = '=' ∨ c = '"' → ¬isTrimmed c = true := by
    rintro c (rfl | rfl)
    · decide
    · decide
  rw [htext, readParam, hdrop, htake, List.dropWhile_cons_of_neg (hspace '=' (.inl rfl))]
  rw [if_pos (by rfl), List.tail_cons, List.dropWhile_cons_of_neg (hspace '"' (.inr rfl))]
  rw [readValue, if_pos rfl, readQuoted_escapeValue]
  simp only [unescapeValue_escapeValue]

theorem printParam_ne_nil (p : Text × Text) : 0 < (printParam p).length := by
  rw [printParam, List.length_append]
  exact Nat.lt_add_left _ (Nat.succ_pos _)

/-- The printed parameters are read one after the other. -/
theorem paramsFrom_printed {ps : List (Text × Text)}
    (hps : ∀ p ∈ ps, p.1 ≠ [] ∧ ∀ c ∈ p.1, isLowerName c = true) :
    ∀ {n : Nat}, (commaJoin (ps.map printParam)).length ≤ n →
      paramsFrom n (commaJoin (ps.map printParam)) = ps := by
  induction ps with
  | nil =>
      intro n _
      cases n with
      | zero =>
          rfl
      | succ n =>
          rfl
  | cons p ps ih =>
      intro n hn
      obtain ⟨hne, hp⟩ := hps p List.mem_cons_self
      have hrest := fun {n : Nat} => ih (fun q hq => hps q (List.mem_cons_of_mem p hq)) (n := n)
      have hpos := printParam_ne_nil p
      -- the first step of the reader, for whatever follows the parameter
      have hfirst : ∀ (n : Nat) (rest : Text),
          paramsFrom (n + 1) (printParam p ++ rest) = p :: paramsFrom n rest := by
        intro n rest
        obtain ⟨c, name, hcons⟩ := List.exists_cons_of_ne_nil hne
        have htext : ∃ t, printParam p ++ rest = c :: t := by
          rw [printParam, hcons]
          exact ⟨_, rfl⟩
        obtain ⟨t, ht⟩ := htext
        have hread := readParam_printParam hp rest
        have hc : isParamChar c = true :=
          isParamChar_lowerName (hp c (hcons ▸ List.mem_cons_self))
        rw [ht] at hread ⊢
        rw [paramsFrom, if_pos hc, hread]
      cases ps with
      | nil =>
          rw [List.map_cons, List.map_nil, commaJoin] at hn ⊢
          obtain ⟨m, rfl⟩ : ∃ m, n = m + 1 := Nat.exists_eq_succ_of_ne_zero (by omega)
          rw [← List.append_nil (printParam p), hfirst]
          cases m with
          | zero =>
              rfl
          | succ m =>
              rfl
      | cons q ps =>
          rw [List.map_cons, List.map_cons, commaJoin, List.length_append, List.length_cons,
            List.length_cons] at hn
          obtain ⟨m, rfl⟩ : ∃ m, n = m + 3 := ⟨n - 3, by omega⟩
          rw [List.map_cons, List.map_cons, commaJoin, hfirst]
          rw [paramsFrom, if_neg (by decide), paramsFrom, if_neg (by decide)]
          exact congrArg (p :: ·) (hrest (by rw [List.map_cons]; omega))

/-- Parameters with distinct names are set as they are. -/
theorem foldl_setParam {ps : List (Text × Text)} (hnodup : (ps.map Prod.fst).Nodup)
    (hps : ∀ p ∈ ps, (∀ c ∈ p.1, isLowerName c = true) ∧ p.1 ≠ protoName) :
    ps.foldl setParam .empty = ⟨ps, hnodup⟩ := by
  have hset : ∀ (m : OrderedMap Text Text), ∀ p ∈ ps, setParam m p = m.set p.1 p.2 := by
    intro m p hp
    obtain ⟨hname, hproto⟩ := hps p hp
    have hlower : p.1.map asciiLower = p.1 := by
      rw [List.map_congr_left fun c hc => asciiLower_lowerName (hname c hc), List.map_id']
    rw [setParam, hlower, if_neg hproto]
  have hentries : ∀ (qs : List (Text × Text)) (m : OrderedMap Text Text),
      (qs.foldl (fun m p => m.set p.1 p.2) m).entries =
        qs.foldl (fun es p => OrderedMap.put p.1 p.2 es) m.entries := by
    intro qs
    induction qs with
    | nil =>
        intro m
        rfl
    | cons q qs ih =>
        intro m
        exact ih _
  rw [List.foldl_ext _ _ _ hset]
  refine OrderedMap.eq_of_entries ?_
  have hput : ps.foldl (fun es p => OrderedMap.put p.1 p.2 es) [] = [] ++ ps :=
    OrderedMap.foldl_put_of_nodup hnodup
  rw [hentries]
  exact hput

/-! ## One part -/

theorem trim_append {x : Text} (hhead : ∀ c ∈ x.head?, isTrimmed c = false)
    (hlast : ∀ c ∈ x.getLast?, isTrimmed c = false) (hx : x ≠ []) (t : Text) :
    trim (x ++ t) = x ++ (t.reverse.dropWhile isTrimmed).reverse := by
  have hstart : ∀ c ∈ (x ++ t).head?, isTrimmed c = false := by
    rw [List.head?_append_of_ne_nil _ hx]
    exact hhead
  have hend : x.reverse.dropWhile isTrimmed = x.reverse := by
    refine dropWhile_eq_self ?_
    rw [List.head?_reverse]
    exact hlast
  rw [trim, dropWhile_eq_self hstart, List.reverse_append, List.dropWhile_append, hend]
  split
  · rename_i hempty
    rw [List.isEmpty_iff.1 hempty, List.reverse_reverse, List.reverse_nil, List.append_nil]
  · rw [List.reverse_append, List.reverse_reverse]

theorem word_ne_nil (scheme : Scheme) : scheme.word ≠ [] := by
  cases scheme with
  | digest =>
      decide
  | basic =>
      decide

theorem word_isWordChar (scheme : Scheme) : ∀ c ∈ scheme.word, isWordChar c = true := by
  cases scheme with
  | digest =>
      exact List.forall_iff_forall_mem.1 (by decide)
  | basic =>
      exact List.forall_iff_forall_mem.1 (by decide)

theorem wordChar_not_trimmed {c : Char} (h : isWordChar c = true) : isTrimmed c = false := by
  have hnat : ∀ a b : Char, a ≤ b ↔ a.toNat ≤ b.toNat := fun a b => Iff.rfl
  have hrange : 48 ≤ c.toNat ∧ c.toNat ≤ 122 := by
    simp only [isWordChar, Bool.or_eq_true, Bool.and_eq_true, decide_eq_true_eq, beq_iff_eq, hnat,
      Char.reduceToNat] at h
    rcases h with ((h | h) | h) | rfl
    · omega
    · omega
    · omega
    · decide
  simp only [isTrimmed, Bool.or_eq_false_iff, Bool.and_eq_false_iff, beq_eq_false_iff_ne, ne_eq,
    decide_eq_false_iff_not]
  omega

theorem word_ends (scheme : Scheme) :
    (∀ c ∈ scheme.word.head?, isTrimmed c = false) ∧
      ∀ c ∈ scheme.word.getLast?, isTrimmed c = false := by
  refine ⟨fun c hc => wordChar_not_trimmed ?_, fun c hc => wordChar_not_trimmed ?_⟩
  · exact word_isWordChar scheme c (List.mem_of_mem_head? hc)
  · exact word_isWordChar scheme c (List.mem_of_mem_getLast? hc)

/-- A part that begins with the word of a scheme has this scheme, whatever follows the space. -/
theorem parseChallenge_word (scheme : Scheme) (t : Text) :
    ∃ c, parseChallenge (scheme.word ++ ' ' :: t) = some c ∧
      c.scheme = scheme.word.map asciiLower := by
  have htrim : trim (scheme.word ++ ' ' :: t) =
      scheme.word ++ ((' ' :: t).reverse.dropWhile isTrimmed).reverse :=
    trim_append (word_ends scheme).1 (word_ends scheme).2 (word_ne_nil scheme) _
  -- what is left behind the word is nothing, or begins with the space
  have hrest : (((' ' :: t).reverse.dropWhile isTrimmed).reverse).takeWhile isWordChar = [] := by
    obtain ⟨u, hu⟩ := List.dropWhile_suffix isTrimmed (l := (' ' :: t).reverse)
    have hbegin := congrArg List.reverse hu
    rw [List.reverse_append, List.reverse_reverse] at hbegin
    generalize ((' ' :: t).reverse.dropWhile isTrimmed).reverse = r at hbegin ⊢
    cases r with
    | nil =>
        rfl
    | cons c r =>
        rw [List.cons_append, List.cons.injEq] at hbegin
        rw [hbegin.1]
        exact List.takeWhile_cons_of_neg (by decide)
  have htake : (trim (scheme.word ++ ' ' :: t)).takeWhile isWordChar = scheme.word := by
    rw [htrim, List.takeWhile_append_of_pos (word_isWordChar scheme), hrest, List.append_nil]
  rw [parseChallenge, htake, if_neg (word_ne_nil scheme)]
  exact ⟨_, rfl, rfl⟩

theorem getLast_printed {ps : List (Text × Text)} (hps : ps ≠ []) :
    (commaJoin (ps.map printParam)).getLast? = some '"' := by
  have hparam : ∀ (p : Text × Text), (printParam p).getLast? = some '"' := by
    intro p
    have htext : printParam p = (p.1 ++ '=' :: '"' :: escapeValue p.2) ++ ['"'] := by
      rw [printParam, List.append_assoc]
      rfl
    rw [htext, List.getLast?_concat]
  induction ps with
  | nil =>
      exact absurd rfl hps
  | cons p ps ih =>
      cases ps with
      | nil =>
          exact hparam p
      | cons q ps =>
          have hrest := ih (List.cons_ne_nil q ps)
          rw [List.map_cons, List.map_cons, commaJoin, List.getLast?_append, List.getLast?_cons,
            List.getLast?_cons]
          rw [List.map_cons] at hrest
          rw [hrest]
          rfl

/-- The text of a challenge is read as the challenge. -/
theorem parseChallenge_print (o : Offer) : parseChallenge o.print = some o.challenge := by
  have hword : ∀ c ∈ o.scheme.word, isWordChar c = true := word_isWordChar o.scheme
  have hne : o.scheme.word ≠ [] := word_ne_nil o.scheme
  have hspace : ¬isWordChar ' ' = true := by decide
  have htrim : trim o.print = o.print := by
    refine trim_eq_self ?_ ?_
    · rw [Offer.print, List.head?_append_of_ne_nil _ hne]
      exact (word_ends o.scheme).1
    · rw [Offer.print, List.getLast?_append, List.getLast?_cons, getLast_printed o.nonempty]
      rintro c hc
      obtain rfl : '"' = c := Option.some.inj hc
      decide
  have htake : o.print.takeWhile isWordChar = o.scheme.word := by
    rw [Offer.print, List.takeWhile_append_of_pos hword, List.takeWhile_cons_of_neg hspace,
      List.append_nil]
  -- a name begins behind the space, so no more than the space is skipped
  have hdrop : (o.print.dropWhile isWordChar).dropWhile isTrimmed =
      commaJoin (o.params.map printParam) := by
    rw [Offer.print, List.dropWhile_append_of_pos hword, List.dropWhile_cons_of_neg hspace,
      List.dropWhile_cons_of_pos (by decide)]
    obtain ⟨p, ps, hparams⟩ := List.exists_cons_of_ne_nil o.nonempty
    obtain ⟨hname, hlower, -⟩ := o.names p (hparams ▸ List.mem_cons_self)
    obtain ⟨c, name, hcons⟩ := List.exists_cons_of_ne_nil hname
    have hc : isTrimmed c = false := lowerName_not_trimmed (hlower c (hcons ▸ List.mem_cons_self))
    have htext : ∃ t, commaJoin (o.params.map printParam) = c :: t := by
      rw [hparams]
      cases ps with
      | nil =>
          rw [List.map_cons, List.map_nil, commaJoin, printParam, hcons]
          exact ⟨_, rfl⟩
      | cons q ps =>
          rw [List.map_cons, List.map_cons, commaJoin, printParam, hcons]
          exact ⟨_, rfl⟩
    obtain ⟨t, ht⟩ := htext
    rw [ht, List.dropWhile_cons_of_neg (ne_true_of_eq_false hc)]
  have hparams : paramsOf (commaJoin (o.params.map printParam)) = o.params :=
    paramsFrom_printed (fun p hp => ⟨(o.names p hp).1, (o.names p hp).2.1⟩) (Nat.le_refl _)
  have hfold : o.params.foldl setParam .empty = ⟨o.params, o.nodup⟩ :=
    foldl_setParam o.nodup fun p hp => (o.names p hp).2
  rw [parseChallenge, htrim, htake, if_neg hne, hdrop, hparams, hfold]
  rfl

/-! ## Every part begins a challenge -/

/-- The part begins with a letter of a word, so that a challenge is read from it. -/
def Begins (part : Text) : Prop := part.head?.any isWordChar = true

theorem Begins.parsed {part : Text} (h : Begins part) : (parseChallenge part).isSome = true := by
  cases part with
  | nil =>
      cases h
  | cons c t =>
      have hc : isWordChar c = true := h
      have hspace : isTrimmed c = false := wordChar_not_trimmed hc
      have htrim : trim (c :: t) = c :: (t.reverse.dropWhile isTrimmed).reverse :=
        trim_append (x := [c]) (by simpa using hspace) (by simpa using hspace)
          (List.cons_ne_nil c []) t
      rw [parseChallenge, htrim, List.takeWhile_cons_of_pos hc, if_neg (List.cons_ne_nil _ _)]
      rfl

/-- What opens a challenge begins with a letter. -/
theorem wordChar_of_opensChallenge {c : Char} {s : Text} (h : opensChallenge (c :: s) = true) :
    isWordChar c = true := by
  have hlower : asciiLower c = 'd' ∨ asciiLower c = 'b' := by
    rw [opensChallenge, Bool.or_eq_true] at h
    rcases h with h | h
    · exact .inl (beq_iff_eq.1 (Bool.and_eq_true_iff.1 h).1)
    · exact .inr (beq_iff_eq.1 (Bool.and_eq_true_iff.1 h).1)
  by_cases hcapital : 'A' ≤ c ∧ c ≤ 'Z'
  · simp [isWordChar, hcapital]
  · rw [asciiLower, if_neg hcapital] at hlower
    rcases hlower with rfl | rfl
    · decide
    · decide

theorem mem_prepend {x part : Text} {ps : List Text} (h : part ∈ prepend x ps) :
    (∃ p, part = x ++ p) ∨ part ∈ ps.tail := by
  cases ps with
  | nil =>
      exact .inl ⟨[], by simpa [prepend] using h⟩
  | cons p ps =>
      rcases List.mem_cons.1 h with rfl | hmem
      · exact .inl ⟨p, rfl⟩
      · exact .inr hmem

theorem tail_prepend (x : Text) (ps : List Text) : (prepend x ps).tail = ps.tail := by
  cases ps with
  | nil =>
      rfl
  | cons p ps =>
      rfl

/-- The parts behind the first begin a challenge; so does the first if it is the start of one, or
the white space behind a comma was still to be skipped. -/
theorem begins_parts (s : Text) :
    (∀ skip, ∀ part ∈ (splitFrom skip s).tail, Begins part) ∧
      (opensChallenge (s.dropWhile isTrimmed) = true → ∀ part ∈ splitFrom true s, Begins part) := by
  induction s with
  | nil =>
      refine ⟨fun skip part hpart => ?_, fun hopens => ?_⟩
      · cases hpart
      · cases hopens
  | cons c s ih =>
      obtain ⟨htail, hfirst⟩ := ih
      refine ⟨?_, ?_⟩
      · intro skip part hpart
        rw [splitFrom] at hpart
        split at hpart
        · exact htail true part hpart
        · split at hpart
          · rename_i hbreak
            rw [breaks, Bool.and_eq_true] at hbreak
            exact hfirst hbreak.2 part hpart
          · rw [tail_prepend] at hpart
            exact htail false part hpart
      · intro hopens part hpart
        rw [splitFrom, Bool.true_and] at hpart
        split at hpart
        · rename_i hspace
          rw [List.dropWhile_cons_of_pos hspace] at hopens
          exact hfirst hopens part hpart
        · rename_i hspace
          rw [List.dropWhile_cons_of_neg hspace] at hopens
          have hc := wordChar_of_opensChallenge hopens
          have hcomma : c ≠ ',' := by
            rintro rfl
            exact absurd hc (by decide)
          rw [breaks_of_ne hcomma, if_neg Bool.noConfusion] at hpart
          rcases mem_prepend hpart with ⟨p, rfl⟩ | hmem
          · exact hc
          · exact htail false part hmem

/-! ## Headers -/

theorem printOffers_begins (o : Offer) (os : List Offer) :
    ∃ t, printOffers (o :: os) = o.scheme.word ++ ' ' :: t := by
  rw [printOffers_cons, Offer.print, List.append_assoc]
  exact ⟨_, rfl⟩

/-- A printed header gives a challenge for each part. -/
theorem length_challengesOf (os : List Offer) :
    (challengesOf (printOffers os)).length =
      os.length + (os.map fun o => risk o.params).sum := by
  cases os with
  | nil =>
      rfl
  | cons o os =>
      obtain ⟨t, ht⟩ := printOffers_begins o os
      obtain ⟨c, w, hword⟩ := List.exists_cons_of_ne_nil (word_ne_nil o.scheme)
      have hc : isWordChar c = true := word_isWordChar o.scheme c (hword ▸ List.mem_cons_self)
      have hbegins : ∀ part ∈ splitFrom false (printOffers (o :: os)), Begins part := by
        intro part hpart
        have hcomma : c ≠ ',' := by
          rintro rfl
          exact absurd hc (by decide)
        rw [ht, hword, List.cons_append, splitFrom, Bool.false_and, if_neg Bool.noConfusion,
          breaks_of_ne hcomma, if_neg Bool.noConfusion] at hpart
        rcases mem_prepend hpart with ⟨p, rfl⟩ | hmem
        · exact hc
        · exact (begins_parts _).1 false part hmem
      calc (challengesOf (printOffers (o :: os))).length
          = (splitFrom false (printOffers (o :: os))).length :=
            List.filterMap_length_eq_length.2 fun part hpart => (hbegins part hpart).parsed
        _ = breakCount (printOffers (o :: os)) + 1 := length_splitFrom false _
        _ = _ := breakCount_printOffers (List.cons_ne_nil o os)

theorem challengesOf_printOffers {os : List Offer} (hrisk : ∀ o ∈ os, risk o.params = 0) :
    challengesOf (printOffers os) = os.map Offer.challenge := by
  cases os with
  | nil =>
      rfl
  | cons o os =>
      rw [challengesOf, splitFrom_printOffers (List.cons_ne_nil o os) hrisk, List.filterMap_map]
      rw [← List.filterMap_eq_map]
      exact congrArg (fun f => List.filterMap f (o :: os)) (funext parseChallenge_print)

/-- The parts behind a comma at which a text is cut are parts of the whole. -/
theorem mem_splitFrom_of_breaks {c : Char} {t part : Text} (hbreak : breaks (c :: t) = true)
    (h : part ∈ splitFrom true t) (skip : Bool) (x : Text) :
    part ∈ (splitFrom skip (x ++ c :: t)).tail := by
  induction x generalizing skip with
  | nil =>
      have hspace : isTrimmed c = false := by
        rw [comma_of_breaks hbreak]
        decide
      rw [List.nil_append, splitFrom, hspace, Bool.and_false, if_neg Bool.noConfusion,
        if_pos hbreak]
      exact h
  | cons a x ih =>
      rw [List.cons_append, splitFrom]
      split
      · exact ih true
      · split
        · exact List.mem_of_mem_tail (ih true)
        · rw [tail_prepend]
          exact ih false

/-- Of each printed challenge at least the scheme is found. -/
theorem scheme_found {os : List Offer} {o : Offer} (ho : o ∈ os) :
    ∃ c ∈ challengesOf (printOffers os), c.scheme = o.scheme.word.map asciiLower := by
  have hpart : ∃ p, o.scheme.word ++ ' ' :: p ∈ splitFrom false (printOffers os) := by
    induction os with
    | nil =>
        cases ho
    | cons o' os ih =>
        rcases List.mem_cons.1 ho with rfl | ho
        · -- the word and the space have no comma, so they are the start of the first part
          obtain ⟨t, ht⟩ := printOffers_begins o os
          have hplain : ∀ c ∈ o.scheme.word ++ [' '], c ≠ ',' := by
            cases o.scheme with
            | digest =>
                exact List.forall_iff_forall_mem.1 (by decide)
            | basic =>
                exact List.forall_iff_forall_mem.1 (by decide)
          have hsplit := splitFrom_append (breakCount_plain hplain t)
          rw [List.append_assoc, List.singleton_append, ← ht] at hsplit
          rw [hsplit]
          cases hparts : splitFrom false t with
          | nil =>
              exact absurd hparts (splitFrom_ne_nil false t)
          | cons p ps =>
              refine ⟨p, ?_⟩
              rw [prepend, List.append_assoc]
              exact List.mem_cons_self
        · -- the header is cut in front of the others
          obtain ⟨p, hp⟩ := ih ho
          obtain ⟨o₁, os, rfl⟩ := List.exists_cons_of_ne_nil (List.ne_nil_of_mem ho)
          obtain ⟨t, ht⟩ := exists_print o₁ os
          rw [ht, ← splitFrom_skip_print] at hp
          refine ⟨p, ?_⟩
          rw [printOffers_cons, if_neg (List.cons_ne_nil o₁ os), ht]
          exact List.mem_of_mem_tail (mem_splitFrom_of_breaks (breaks_print o₁ t) hp false o'.print)
  obtain ⟨p, hp⟩ := hpart
  obtain ⟨c, hparse, hscheme⟩ := parseChallenge_word o.scheme p
  exact ⟨c, List.mem_filterMap.2 ⟨_, hp, hparse⟩, hscheme⟩

/-- Challenges in one header, or in several that each have some of them. -/
inductive Printed (os : List Offer) : Header → Prop
  | one : Printed os (.one (printOffers os))
  | many (gs : List (List Offer)) (h : gs.flatten = os) : Printed os (.many (gs.map printOffers))

theorem challenges_one (h : Text) : challenges (.one h) = challengesOf h := by
  cases h with
  | nil =>
      rfl
  | cons c h =>
      exact List.append_nil _

theorem challenges_many (gs : List (List Offer)) :
    challenges (.many (gs.map printOffers)) = gs.flatMap fun g => challengesOf (printOffers g) :=
  List.flatMap_map printOffers challengesOf gs

section Header

variable {os : List Offer} {header : Header}

theorem Printed.length_challenges (h : Printed os header) :
    (challenges header).length = os.length + (os.map fun o => risk o.params).sum := by
  cases h with
  | one =>
      rw [challenges_one, length_challengesOf]
  | many gs h =>
      subst h
      rw [challenges_many]
      induction gs with
      | nil =>
          rfl
      | cons g gs ih =>
          rw [List.flatMap_cons, List.length_append, ih, length_challengesOf, List.flatten_cons,
            List.length_append, List.map_append, List.sum_append]
          omega

theorem Printed.challenges_eq (h : Printed os header) (hrisk : ∀ o ∈ os, risk o.params = 0) :
    challenges header = os.map Offer.challenge := by
  cases h with
  | one =>
      rw [challenges_one, challengesOf_printOffers hrisk]
  | many gs h =>
      subst h
      rw [challenges_many]
      induction gs with
      | nil =>
          rfl
      | cons g gs ih =>
          rw [List.flatten_cons] at hrisk
          rw [List.flatMap_cons, List.flatten_cons, List.map_append,
            challengesOf_printOffers fun o ho => hrisk o (List.mem_append_left _ ho),
            ih fun o ho => hrisk o (List.mem_append_right g ho)]

theorem Printed.scheme_found (h : Printed os header) {o : Offer} (ho : o ∈ os) :
    ∃ c ∈ challenges header, c.scheme = o.scheme.word.map asciiLower := by
  cases h with
  | one =>
      rw [challenges_one]
      exact Cameras.scheme_found ho
  | many gs h =>
      subst h
      obtain ⟨g, hg, ho⟩ := List.mem_flatten.1 ho
      obtain ⟨c, hc, hscheme⟩ := Cameras.scheme_found ho
      rw [challenges_many]
      exact ⟨c, List.mem_flatMap.2 ⟨g, hg, hc⟩, hscheme⟩

end Header

/-! ## Answers -/

section Answer

variable (hash : Hash → Bytes → Text) (cnonce : Text)

theorem digestAuth_begins {c : Challenge} {l : Login} {h : Text}
    (hauth : digestAuth hash cnonce c l = .ok (some h)) : ∃ r, h = "Digest ".toList ++ r := by
  unfold digestAuth at hauth
  dsimp only at hauth
  split at hauth
  · cases hauth
  · cases hauth
  · split at hauth
    · cases hauth
    · split at hauth
      · cases hauth
      · exact ⟨_, (Option.some.inj (Except.ok.inj hauth)).symm⟩

theorem firstDigest_begins {l : Login} {h : Text} {cs : List Challenge}
    (hauth : firstDigest hash cnonce l cs = .ok (some h)) : ∃ r, h = "Digest ".toList ++ r := by
  induction cs with
  | nil =>
      cases hauth
  | cons c cs ih =>
      rw [firstDigest] at hauth
      split at hauth
      · cases hauth
      · rename_i h' hdigest
        obtain rfl : h' = h := Option.some.inj (Except.ok.inj hauth)
        exact digestAuth_begins hash cnonce hdigest
      · exact ih hauth

/-- Where a challenge asks for `Digest`, the answer does not have the password in the clear. -/
theorem authFor_begins {header : Header} {l : Login} {allowBasic : Bool} {h : Text}
    (hdigest : ∃ c ∈ challenges header, c.scheme = "digest".toList)
    (hauth : authFor hash cnonce header l allowBasic = .ok (some h)) :
    ∃ r, h = "Digest ".toList ++ r := by
  obtain ⟨c, hc, hscheme⟩ := hdigest
  have hsome :
      ((challenges header).filter fun c => c.scheme = "digest".toList).isEmpty = false := by
    rw [List.isEmpty_eq_false_iff]
    exact List.ne_nil_of_mem (List.mem_filter.2 ⟨hc, decide_eq_true hscheme⟩)
  unfold authFor at hauth
  dsimp only at hauth
  split at hauth
  · cases hauth
  · split at hauth
    · cases hauth
    · rename_i h' hfirst
      obtain rfl : h' = h := Option.some.inj (Except.ok.inj hauth)
      exact firstDigest_begins hash cnonce hfirst
    · rw [hsome, Bool.and_false, Bool.false_and, if_neg Bool.noConfusion] at hauth
      cases hauth

end Answer

/-! ## The round trip -/

/-- No comma of the value has, behind white space, `Digest` or `Basic` and white space. -/
def Uncut (v : Text) : Prop :=
  ∀ x y, v = x ++ ',' :: y → opensChallenge (y.dropWhile isTrimmed) = false

theorem breakCount_eq_zero_iff (v : Text) : breakCount v = 0 ↔ Uncut v := by
  induction v with
  | nil =>
      refine ⟨fun _ x y h => ?_, fun _ => rfl⟩
      exact absurd h.symm (List.append_ne_nil_of_right_ne_nil x (List.cons_ne_nil _ _))
  | cons c v ih =>
      rw [breakCount, Nat.add_eq_zero_iff, ih]
      constructor
      · rintro ⟨hbreak, hrest⟩ x y h
        cases x with
        | nil =>
            rw [List.nil_append, List.cons.injEq] at h
            obtain ⟨rfl, rfl⟩ := h
            refine Bool.eq_false_iff.2 fun hopens => ?_
            rw [breaks, hopens] at hbreak
            exact absurd hbreak (by decide)
        | cons a x =>
            rw [List.cons_append, List.cons.injEq] at h
            exact hrest x y h.2
      · intro h
        refine ⟨if_neg fun hbreak => ?_, fun x y hv => h (c :: x) y (by rw [hv, List.cons_append])⟩
        obtain rfl := comma_of_breaks hbreak
        rw [breaks, h [] v rfl, Bool.and_false] at hbreak
        cases hbreak

theorem risk_eq_zero_iff (ps : List (Text × Text)) : risk ps = 0 ↔ ∀ p ∈ ps, Uncut p.2 := by
  rw [risk, List.sum_eq_zero_iff_forall_eq_nat, List.forall_mem_map]
  exact forall₂_congr fun p _ => breakCount_eq_zero_iff p.2

/-- Printed challenges are read as they were meant exactly if no value would be cut; and `Basic`
does not answer where one of them is a `Digest` challenge. -/
theorem challenges_read_iff {os : List Offer} {header : Header} (h : Printed os header) :
    (challenges header = os.map Offer.challenge ↔ ∀ o ∈ os, ∀ p ∈ o.params, Uncut p.2) ∧
      ((∃ o ∈ os, o.scheme = .digest) → ∀ hash cnonce login allowBasic answer,
        authFor hash cnonce header login allowBasic = .ok (some answer) →
          ¬"Basic ".toList <+: answer) := by
  have hrisk : (∀ o ∈ os, risk o.params = 0) ↔ ∀ o ∈ os, ∀ p ∈ o.params, Uncut p.2 :=
    forall₂_congr fun o _ => risk_eq_zero_iff o.params
  refine ⟨⟨fun hread => hrisk.1 ?_, fun huncut => h.challenges_eq (hrisk.2 huncut)⟩, ?_⟩
  · -- a cut value gives a challenge too many
    have hlength := h.length_challenges
    rw [hread, List.length_map, Nat.left_eq_add, List.sum_eq_zero_iff_forall_eq_nat,
      List.forall_mem_map] at hlength
    exact hlength
  · rintro ⟨o, ho, hscheme⟩ hash cnonce login allowBasic answer hauth hbasic
    obtain ⟨c, hc, hword⟩ := h.scheme_found ho
    rw [hscheme] at hword
    obtain ⟨r, rfl⟩ := authFor_begins hash cnonce ⟨c, hc, hword⟩ hauth
    obtain ⟨t, ht⟩ := hbasic
    cases (List.cons.inj ht).1

/-- The challenge of a camera that is called `name`. -/
def namedOffer (scheme : Scheme) (name : String) : Offer where
  scheme
  params := [("realm".toList, name.toList), ("nonce".toList, "n1".toList)]
  nonempty := List.cons_ne_nil _ _
  names p hp := by
    have hrealm : "realm".toList.all isLowerName = true := by decide
    have hnonce : "nonce".toList.all isLowerName = true := by decide
    rcases List.mem_pair.1 hp with rfl | rfl
    · exact ⟨List.cons_ne_nil _ _, List.all_eq_true.1 hrealm, ne_of_beq_false rfl⟩
    · exact ⟨List.cons_ne_nil _ _, List.all_eq_true.1 hnonce, ne_of_beq_false rfl⟩
  nodup := by
    change ["realm".toList, "nonce".toList].Nodup
    decide

theorem challenges_read_twoHeaders :
    challenges (.many ([[namedOffer .digest "Hall, 2"], [namedOffer .basic "2"]].map printOffers)) =
      [namedOffer .digest "Hall, 2", namedOffer .basic "2"].map Offer.challenge := by
  have hcount : ∀ o ∈ [namedOffer .digest "Hall, 2", namedOffer .basic "2"],
      ∀ p ∈ o.params, breakCount p.2 = 0 := by
    decide
  have hread :=
    challenges_read_iff (.many [[namedOffer .digest "Hall, 2"], [namedOffer .basic "2"]] rfl)
  exact hread.1.2 fun o ho p hp => (breakCount_eq_zero_iff p.2).1 (hcount o ho p hp)

/-- The name of a room with a comma and the word `Basic` makes two challenges of one. -/
theorem challenge_cut :
    printOffers [namedOffer .digest "Hall, Basic entry"] =
        "Digest realm=\"Hall, Basic entry\", nonce=\"n1\"".toList ∧
      ¬challenges (.one (printOffers [namedOffer .digest "Hall, Basic entry"])) =
        [namedOffer .digest "Hall, Basic entry"].map Offer.challenge := by
  refine ⟨by decide, fun h => ?_⟩
  have hlength := congrArg List.length h
  revert hlength
  decide

end Cameras
end GateControl
