import GateControl.Cameras.Challenges

/-!
# ChallengeCuts — where a printed header is cut

The number of parts of a text is one more than the number of commas at which it is cut, and a text
in which no such comma lies is the start of one part.  Printed challenges are cut between each
other; the commas between parameters are none at which a header is cut, and those inside a value are
if the value itself has `Digest` or `Basic` and white space behind the comma.
-/

namespace GateControl
namespace Cameras

open Library

/-! ## Printing -/

inductive Scheme
  | digest
  | basic
  deriving DecidableEq, Repr

def Scheme.word : Scheme → Text
  | .digest => "Digest".toList
  | .basic => "Basic".toList

/-- `[a-z0-9_-]` -/
def isLowerName (c : Char) : Bool :=
  ('a' ≤ c && c ≤ 'z') || ('0' ≤ c && c ≤ '9') || c == '_' || c == '-'

/-- A challenge as a camera means it. -/
structure Offer where
  scheme : Scheme
  params : List (Text × Text)
  nonempty : params ≠ []
  names : ∀ p ∈ params, p.1 ≠ [] ∧ (∀ c ∈ p.1, isLowerName c = true) ∧ p.1 ≠ protoName
  nodup : (params.map Prod.fst).Nodup

/-- The backslashes and the quotes of a value get a backslash. -/
def escapeValue (v : Text) : Text :=
  v.flatMap fun c => if c = '\\' ∨ c = '"' then ['\\', c] else [c]

def printParam (p : Text × Text) : Text := p.1 ++ '=' :: '"' :: (escapeValue p.2 ++ ['"'])

def commaJoin : List Text → Text
  | [] => []
  | [t] => t
  | t :: u :: ts => t ++ ',' :: ' ' :: commaJoin (u :: ts)

def Offer.print (o : Offer) : Text := o.scheme.word ++ ' ' :: commaJoin (o.params.map printParam)

def printOffers (os : List Offer) : Text := commaJoin (os.map Offer.print)

/-- What is read from a printed challenge. -/
def Offer.challenge (o : Offer) : Challenge :=
  ⟨o.scheme.word.map asciiLower, ⟨o.params, o.nodup⟩⟩

/-! ## Counting the cuts -/

def breakCount : Text → Nat
  | [] => 0
  | c :: s => (if breaks (c :: s) then 1 else 0) + breakCount s

theorem length_prepend {x : Text} {ps : List Text} (h : ps ≠ []) :
    (prepend x ps).length = ps.length := by
  cases ps with
  | nil =>
      exact absurd rfl h
  | cons p ps =>
      rfl

theorem splitFrom_ne_nil (skip : Bool) (s : Text) : splitFrom skip s ≠ [] := by
  induction s generalizing skip with
  | nil =>
      rw [splitFrom]
      exact List.cons_ne_nil _ _
  | cons c s ih =>
      rw [splitFrom]
      split
      · exact ih true
      · split
        · exact List.cons_ne_nil _ _
        · cases hparts : splitFrom false s with
          | nil =>
              exact absurd hparts (ih false)
          | cons p ps =>
              exact List.cons_ne_nil _ _

theorem comma_of_breaks {c : Char} {s : Text} (h : breaks (c :: s) = true) : c = ',' := by
  rw [breaks, Bool.and_eq_true, beq_iff_eq] at h
  exact h.1

theorem breaks_of_ne {c : Char} (hc : c ≠ ',') (s : Text) : breaks (c :: s) = false :=
  Bool.eq_false_iff.2 fun h => hc (comma_of_breaks h)

/-- One part more than commas at which the text is cut. -/
theorem length_splitFrom (skip : Bool) (s : Text) :
    (splitFrom skip s).length = breakCount s + 1 := by
  induction s generalizing skip with
  | nil =>
      rfl
  | cons c s ih =>
      rw [splitFrom, breakCount]
      split
      · rename_i hspace
        have hne : c ≠ ',' := by
          rintro rfl
          rw [Bool.and_eq_true] at hspace
          exact absurd hspace.2 (by decide)
        rw [ih true, breaks_of_ne hne, if_neg Bool.noConfusion, Nat.zero_add]
      · split
        · rw [List.length_cons, ih true]
          omega
        · rw [length_prepend (splitFrom_ne_nil false s), ih false, Nat.zero_add]

/-! ## Behind the comma -/

theorem opensWord_append {w s : Text} (t : Text) (h : opensWord w s = true) :
    opensWord w (s ++ t) = true := by
  induction w generalizing s with
  | nil =>
      cases s with
      | nil =>
          cases h
      | cons c s =>
          exact h
  | cons x w ih =>
      cases s with
      | nil =>
          cases h
      | cons c s =>
          rw [opensWord, Bool.and_eq_true] at h
          rw [List.cons_append, opensWord, Bool.and_eq_true]
          exact ⟨h.1, ih h.2⟩

/-- What is no space and no letter of the word does not help to open a challenge. -/
theorem opensWord_stop {w : Text} {q : Char} (hspace : isTrimmed q = false)
    (hw : ∀ x ∈ w, asciiLower q ≠ x) (s t : Text) :
    opensWord w (s ++ q :: t) = opensWord w s := by
  induction w generalizing s with
  | nil =>
      cases s with
      | nil =>
          exact hspace
      | cons c s =>
          rfl
  | cons x w ih =>
      have hne := hw x List.mem_cons_self
      have hrest := ih fun y hy => hw y (List.mem_cons_of_mem x hy)
      cases s with
      | nil =>
          rw [List.nil_append, opensWord, opensWord, beq_eq_false_iff_ne.2 hne, Bool.false_and]
      | cons c s =>
          rw [List.cons_append, opensWord, opensWord, hrest s]

theorem opensChallenge_stop {q : Char} (hspace : isTrimmed q = false)
    (hdigest : ∀ x ∈ "digest".toList, asciiLower q ≠ x)
    (hbasic : ∀ x ∈ "basic".toList, asciiLower q ≠ x) (s t : Text) :
    opensChallenge (s ++ q :: t) = opensChallenge s := by
  rw [opensChallenge, opensWord_stop hspace hdigest, opensWord_stop hspace hbasic]
  rfl

theorem dropWhile_stop {q : Char} (hspace : isTrimmed q = false) (s t : Text) :
    (s ++ q :: t).dropWhile isTrimmed = s.dropWhile isTrimmed ++ q :: t := by
  induction s with
  | nil =>
      exact List.dropWhile_cons_of_neg (ne_true_of_eq_false hspace)
  | cons c s ih =>
      rw [List.cons_append, List.dropWhile_cons, List.dropWhile_cons]
      split
      · exact ih
      · rfl

/-- A quote ends what a comma before it can open. -/
theorem breaks_quote (c : Char) (s t : Text) :
    breaks (c :: (s ++ '"' :: t)) = breaks (c :: s) := by
  have hspace : isTrimmed '"' = false := by decide
  rw [breaks, breaks, dropWhile_stop hspace,
    opensChallenge_stop hspace (List.forall_iff_forall_mem.1 (by decide))
      (List.forall_iff_forall_mem.1 (by decide))]

theorem breaks_append {c : Char} {s : Text} (t : Text) (h : breaks (c :: s) = true) :
    breaks (c :: (s ++ t)) = true := by
  rw [breaks, Bool.and_eq_true] at h ⊢
  refine ⟨h.1, ?_⟩
  have hopens := h.2
  -- what opens a challenge is not only white space, so the white space ends before it
  have hdrop : (s ++ t).dropWhile isTrimmed = s.dropWhile isTrimmed ++ t := by
    rw [List.dropWhile_append]
    split
    · rename_i hempty
      rw [List.isEmpty_iff.1 hempty] at hopens
      cases hopens
    · rfl
  rw [hdrop]
  rw [opensChallenge, Bool.or_eq_true] at hopens ⊢
  exact hopens.imp (opensWord_append t) (opensWord_append t)

theorem breakCount_le_append (s t : Text) : breakCount s + breakCount t ≤ breakCount (s ++ t) := by
  induction s with
  | nil =>
      exact Nat.le_of_eq (Nat.zero_add _)
  | cons c s ih =>
      rw [List.cons_append, breakCount, breakCount]
      by_cases hbreak : breaks (c :: s) = true
      · rw [if_pos hbreak, if_pos (breaks_append t hbreak)]
        omega
      · rw [if_neg hbreak]
        omega

/-- A text that is not cut is the start of one part. -/
theorem splitFrom_append {s t : Text} (h : breakCount (s ++ t) = breakCount t) :
    splitFrom false (s ++ t) = prepend s (splitFrom false t) := by
  induction s with
  | nil =>
      cases hparts : splitFrom false t with
      | nil =>
          exact absurd hparts (splitFrom_ne_nil false t)
      | cons p ps =>
          rw [List.nil_append, hparts]
          rfl
  | cons c s ih =>
      have hle := breakCount_le_append s t
      rw [List.cons_append, breakCount] at h
      have hbreak : ¬breaks (c :: (s ++ t)) = true := by
        intro hbreak
        rw [if_pos hbreak] at h
        omega
      rw [if_neg hbreak, Nat.zero_add] at h
      rw [List.cons_append, splitFrom, Bool.false_and, if_neg Bool.noConfusion, if_neg hbreak, ih h]
      cases splitFrom false t with
      | nil =>
          rfl
      | cons p ps =>
          rfl

/-! ## Values -/

theorem escapeValue_cons (c : Char) (v : Text) :
    escapeValue (c :: v) = (if c = '\\' ∨ c = '"' then ['\\', c] else [c]) ++ escapeValue v := rfl

theorem special_cases {c : Char} (h : c = '\\' ∨ c = '"') :
    isTrimmed c = false ∧ c ≠ ',' ∧ asciiLower c = c := by
  rcases h with rfl | rfl
  · decide
  · decide

theorem opensWord_escapeValue {w : Text} (hw : ∀ x ∈ w, x ≠ '\\' ∧ x ≠ '"') (v : Text) :
    opensWord w (escapeValue v) = opensWord w v := by
  induction w generalizing v with
  | nil =>
      cases v with
      | nil =>
          rfl
      | cons c v =>
          rw [escapeValue_cons]
          split
          · rename_i hspecial
            exact (special_cases hspecial).1.symm
          · rfl
  | cons x w ih =>
      have hx := hw x List.mem_cons_self
      have hrest := ih fun y hy => hw y (List.mem_cons_of_mem x hy)
      cases v with
      | nil =>
          rfl
      | cons c v =>
          rw [escapeValue_cons]
          split
          · -- neither the backslash nor what it stands in front of is a letter of the word
            rename_i hspecial
            have hbackslash : asciiLower '\\' ≠ x := fun heq => hx.1 heq.symm
            have hc : asciiLower c ≠ x := by
              rw [(special_cases hspecial).2.2]
              rintro rfl
              exact hspecial.elim hx.1 hx.2
            rw [List.cons_append, opensWord, opensWord, beq_eq_false_iff_ne.2 hbackslash,
              beq_eq_false_iff_ne.2 hc, Bool.false_and, Bool.false_and]
          · rw [List.singleton_append, opensWord, opensWord, hrest v]

theorem dropWhile_escapeValue (v : Text) :
    (escapeValue v).dropWhile isTrimmed = escapeValue (v.dropWhile isTrimmed) := by
  induction v with
  | nil =>
      rfl
  | cons c v ih =>
      rw [escapeValue_cons]
      split
      · rename_i hspecial
        have hbackslash : isTrimmed '\\' = false := by decide
        rw [List.dropWhile_cons_of_neg (ne_true_of_eq_false (special_cases hspecial).1),
          escapeValue_cons, if_pos hspecial]
        exact List.dropWhile_cons_of_neg (ne_true_of_eq_false hbackslash)
      · rename_i hspecial
        rw [List.singleton_append, List.dropWhile_cons, List.dropWhile_cons]
        split
        · exact ih
        · rw [escapeValue_cons, if_neg hspecial]
          rfl

theorem breaks_escapeValue (c : Char) (v : Text) :
    breaks (c :: escapeValue v) = breaks (c :: v) := by
  have hletters : ∀ x ∈ "digest".toList ++ "basic".toList, x ≠ '\\' ∧ x ≠ '"' :=
    List.forall_iff_forall_mem.1 (by decide)
  rw [breaks, breaks, dropWhile_escapeValue, opensChallenge, opensChallenge,
    opensWord_escapeValue fun x hx => hletters x (List.mem_append_left _ hx),
    opensWord_escapeValue fun x hx => hletters x (List.mem_append_right _ hx)]

theorem breakCount_of_ne {c : Char} (hc : c ≠ ',') (s : Text) :
    breakCount (c :: s) = breakCount s := by
  rw [breakCount, breaks_of_ne hc, if_neg Bool.noConfusion, Nat.zero_add]

theorem breakCount_plain {x : Text} (hx : ∀ c ∈ x, c ≠ ',') (t : Text) :
    breakCount (x ++ t) = breakCount t := by
  induction x with
  | nil =>
      rfl
  | cons c x ih =>
      rw [List.cons_append, breakCount_of_ne (hx c List.mem_cons_self)]
      exact ih fun d hd => hx d (List.mem_cons_of_mem c hd)

/-- Between its quotes a value is cut as often as by itself. -/
theorem breakCount_escapeValue (v t : Text) :
    breakCount (escapeValue v ++ '"' :: t) = breakCount v + breakCount t := by
  induction v with
  | nil =>
      rw [breakCount, Nat.zero_add]
      exact breakCount_of_ne (by decide) t
  | cons c v ih =>
      rw [escapeValue_cons]
      split
      · rename_i hspecial
        have hc := (special_cases hspecial).2.1
        rw [List.append_assoc]
        change breakCount ('\\' :: c :: (escapeValue v ++ '"' :: t)) = _
        rw [breakCount_of_ne (by decide), breakCount_of_ne hc, breakCount_of_ne hc, ih]
      · rw [List.append_assoc, List.singleton_append, breakCount, breakCount, breaks_quote,
          breaks_escapeValue, ih, Nat.add_assoc]

/-! ## Names -/

theorem lowerName_cases {c : Char} (h : isLowerName c = true) :
    ('a' ≤ c ∧ c ≤ 'z') ∨ ('0' ≤ c ∧ c ≤ '9') ∨ c = '_' ∨ c = '-' := by
  simp only [isLowerName, Bool.or_eq_true, Bool.and_eq_true, decide_eq_true_eq, beq_iff_eq] at h
  grind

theorem lowerName_toNat {c : Char} (h : isLowerName c = true) :
    45 ≤ c.toNat ∧ c.toNat ≤ 122 ∧ ¬('A' ≤ c ∧ c ≤ 'Z') := by
  have hnat : ∀ a b : Char, a ≤ b ↔ a.toNat ≤ b.toNat := fun a b => Iff.rfl
  simp only [hnat]
  rcases lowerName_cases h with ⟨h1, h2⟩ | ⟨h1, h2⟩ | rfl | rfl
  · rw [hnat] at h1 h2
    simp only [Char.reduceToNat] at h1 h2 ⊢
    omega
  · rw [hnat] at h1 h2
    simp only [Char.reduceToNat] at h1 h2 ⊢
    omega
  · decide
  · decide

theorem lowerName_not_trimmed {c : Char} (h : isLowerName c = true) : isTrimmed c = false := by
  have hc := lowerName_toNat h
  simp only [isTrimmed, Bool.or_eq_false_iff, Bool.and_eq_false_iff, beq_eq_false_iff_ne, ne_eq,
    decide_eq_false_iff_not]
  omega

theorem lowerName_ne_comma {c : Char} (h : isLowerName c = true) : c ≠ ',' := by
  rintro rfl
  exact absurd h (by decide)

theorem asciiLower_lowerName {c : Char} (h : isLowerName c = true) : asciiLower c = c := by
  rw [asciiLower, if_neg (lowerName_toNat h).2.2]

theorem isParamChar_lowerName {c : Char} (h : isLowerName c = true) : isParamChar c = true := by
  simp only [isParamChar, isWordChar, Bool.or_eq_true, Bool.and_eq_true, decide_eq_true_eq,
    beq_iff_eq]
  have hcases := lowerName_cases h
  grind

/-- Without white space no challenge is opened. -/
theorem opensWord_name {w n : Text} (hn : ∀ c ∈ n, isTrimmed c = false) :
    opensWord w n = false := by
  induction w generalizing n with
  | nil =>
      cases n with
      | nil =>
          rfl
      | cons c n =>
          exact hn c List.mem_cons_self
  | cons x w ih =>
      cases n with
      | nil =>
          rfl
      | cons c n =>
          rw [opensWord, ih fun d hd => hn d (List.mem_cons_of_mem c hd), Bool.and_false]

/-- The header is not cut in front of a parameter. -/
theorem not_breaks_param {n : Text} (hn : ∀ c ∈ n, isLowerName c = true) (t : Text) :
    breaks (',' :: ' ' :: (n ++ '=' :: t)) = false := by
  have hspace : isTrimmed '=' = false := by decide
  have hname : ∀ c ∈ n, isTrimmed c = false := fun c hc => lowerName_not_trimmed (hn c hc)
  have hdrop : (' ' :: (n ++ '=' :: t)).dropWhile isTrimmed = n ++ '=' :: t := by
    rw [List.dropWhile_cons_of_pos (by decide), dropWhile_stop hspace]
    cases n with
    | nil =>
        rfl
    | cons c n =>
        rw [List.dropWhile_cons_of_neg (ne_true_of_eq_false (hname c List.mem_cons_self))]
  rw [breaks, hdrop, opensChallenge_stop hspace (List.forall_iff_forall_mem.1 (by decide))
    (List.forall_iff_forall_mem.1 (by decide)), opensChallenge, opensWord_name hname,
    opensWord_name hname]
  rfl

/-! ## Challenges -/

theorem breakCount_printParam {p : Text × Text} (hp : ∀ c ∈ p.1, isLowerName c = true) (t : Text) :
    breakCount (printParam p ++ t) = breakCount p.2 + breakCount t := by
  rw [printParam, List.append_assoc, breakCount_plain fun c hc => lowerName_ne_comma (hp c hc)]
  change breakCount ('=' :: '"' :: ((escapeValue p.2 ++ ['"']) ++ t)) = _
  rw [breakCount_of_ne (by decide), breakCount_of_ne (by decide), List.append_assoc,
    List.singleton_append, breakCount_escapeValue]

/-- How often the values of parameters would be cut. -/
def risk (ps : List (Text × Text)) : Nat := (ps.map fun p => breakCount p.2).sum

theorem breakCount_params {ps : List (Text × Text)}
    (hps : ∀ p ∈ ps, ∀ c ∈ p.1, isLowerName c = true) (t : Text) :
    breakCount (commaJoin (ps.map printParam) ++ t) = risk ps + breakCount t := by
  induction ps with
  | nil =>
      exact (Nat.zero_add _).symm
  | cons p ps ih =>
      have hp := hps p List.mem_cons_self
      have hrest := ih fun q hq => hps q (List.mem_cons_of_mem p hq)
      have hrisk : risk (p :: ps) = breakCount p.2 + risk ps := List.sum_cons
      rw [hrisk, Nat.add_assoc, ← hrest]
      cases ps with
      | nil =>
          exact breakCount_printParam hp t
      | cons q ps =>
          have hq := hps q (List.mem_cons_of_mem p List.mem_cons_self)
          have hbreak : ∀ u, breaks (',' :: ' ' :: (printParam q ++ u)) = false := by
            intro u
            rw [printParam, List.append_assoc]
            exact not_breaks_param hq _
          have hjoin : ∃ u, commaJoin ((q :: ps).map printParam) ++ t = printParam q ++ u := by
            cases ps with
            | nil =>
                exact ⟨t, rfl⟩
            | cons r ps =>
                exact ⟨_, List.append_assoc _ _ _⟩
          obtain ⟨u, hu⟩ := hjoin
          have hsplit : commaJoin ((p :: q :: ps).map printParam) ++ t =
              printParam p ++ ',' :: ' ' :: (commaJoin ((q :: ps).map printParam) ++ t) := by
            rw [List.map_cons, List.map_cons, commaJoin, List.append_assoc]
            rfl
          rw [hsplit, breakCount_printParam hp, breakCount, hu, hbreak u, if_neg Bool.noConfusion,
            Nat.zero_add, breakCount_of_ne (by decide)]

theorem breakCount_print (o : Offer) (t : Text) :
    breakCount (o.print ++ t) = risk o.params + breakCount t := by
  have hword : ∀ c ∈ o.scheme.word ++ [' '], c ≠ ',' := by
    cases o.scheme with
    | digest =>
        exact List.forall_iff_forall_mem.1 (by decide)
    | basic =>
        exact List.forall_iff_forall_mem.1 (by decide)
  have hprint : o.print ++ t =
      (o.scheme.word ++ [' ']) ++ (commaJoin (o.params.map printParam) ++ t) := by
    rw [Offer.print, List.append_assoc, List.append_assoc]
    rfl
  rw [hprint, breakCount_plain hword, breakCount_params fun p hp => (o.names p hp).2.1]

/-- The header is cut in front of a challenge. -/
theorem breaks_print (o : Offer) (t : Text) : breaks (',' :: ' ' :: (o.print ++ t)) = true := by
  rw [Offer.print, List.append_assoc]
  cases o.scheme with
  | digest =>
      rfl
  | basic =>
      rfl

theorem splitFrom_skip_print (o : Offer) (t : Text) :
    splitFrom true (' ' :: (o.print ++ t)) = splitFrom false (o.print ++ t) := by
  rw [Offer.print, List.append_assoc]
  cases o.scheme with
  | digest =>
      rfl
  | basic =>
      rfl

theorem printOffers_cons (o : Offer) (os : List Offer) :
    printOffers (o :: os) =
      o.print ++ if os = [] then [] else ',' :: ' ' :: printOffers os := by
  cases os with
  | nil =>
      exact (List.append_nil _).symm
  | cons o' os =>
      rfl

theorem exists_print (o : Offer) (os : List Offer) : ∃ t, printOffers (o :: os) = o.print ++ t :=
  ⟨_, printOffers_cons o os⟩

/-- A header is cut once between two challenges, and where the values would be. -/
theorem breakCount_printOffers {os : List Offer} (hos : os ≠ []) :
    breakCount (printOffers os) + 1 = os.length + (os.map fun o => risk o.params).sum := by
  induction os with
  | nil =>
      exact absurd rfl hos
  | cons o os ih =>
      rw [printOffers_cons, breakCount_print, List.length_cons, List.map_cons, List.sum_cons]
      cases os with
      | nil =>
          rw [if_pos rfl]
          simp [breakCount, Nat.add_comm]
      | cons o' os =>
          have hrest := ih (List.cons_ne_nil o' os)
          obtain ⟨t, ht⟩ := exists_print o' os
          rw [if_neg (List.cons_ne_nil o' os), breakCount, ht, breaks_print, if_pos rfl,
            breakCount_of_ne (by decide), ← ht]
          omega

/-- Where no value would be cut, the parts are the challenges as they were printed. -/
theorem splitFrom_printOffers {os : List Offer} (hos : os ≠ [])
    (hrisk : ∀ o ∈ os, risk o.params = 0) :
    splitFrom false (printOffers os) = os.map Offer.print := by
  induction os with
  | nil =>
      exact absurd rfl hos
  | cons o os ih =>
      have ho := hrisk o List.mem_cons_self
      rw [printOffers_cons, splitFrom_append (by rw [breakCount_print, ho, Nat.zero_add])]
      cases os with
      | nil =>
          rw [if_pos rfl]
          simp [splitFrom, prepend]
      | cons o' os =>
          have hrest := ih (List.cons_ne_nil o' os) fun q hq => hrisk q (List.mem_cons_of_mem o hq)
          obtain ⟨t, ht⟩ := exists_print o' os
          rw [ht] at hrest
          rw [if_neg (List.cons_ne_nil o' os), ht, splitFrom, Bool.false_and,
            if_neg Bool.noConfusion, if_pos (breaks_print o' t), splitFrom_skip_print, hrest]
          simp [prepend]

end Cameras
end GateControl
