import GateControl.Dns.Policy

/-!
# Patterns — what a set of patterns matches

A set of patterns is looked up through the end pieces of a name; `PatternMatches` says the same
without the set.  The patterns of a configuration were cleaned when it was checked and are cleaned
again when the policy is compiled.  The second pass drops nothing but domains of more than 253
characters: the length is checked before a name is brought into its ASCII form.
-/

namespace GateControl
namespace Dns

open Library

/-! ## End pieces -/

theorem mem_tails_iff {d name : Text} : d ∈ tails name ↔ ('.' :: d) <:+ name := by
  induction name with
  | nil =>
      simp [tails]
  | cons c rest ih =>
      rw [List.suffix_cons_iff, ← ih]
      by_cases hc : c = '.'
      · simp [tails, hc]
      · simp [tails, hc, Ne.symm hc]

/-! ## Characters of names -/

def isNameChar (c : Char) : Bool := c == '.' || isLabelChar c

theorem nameChar_cases {c : Char} (h : isNameChar c = true) :
    c = '.' ∨ ('a' ≤ c ∧ c ≤ 'z') ∨ ('0' ≤ c ∧ c ≤ '9') ∨ c = '_' ∨ c = '-' := by
  simp only [isNameChar, isLabelChar, isLabelEdge, Bool.or_eq_true, Bool.and_eq_true, beq_iff_eq,
    decide_eq_true_eq] at h
  grind

/-- The characters of names are between 45 and 122, without capital letters. -/
theorem nameChar_toNat {c : Char} (h : isNameChar c = true) :
    45 ≤ c.toNat ∧ c.toNat ≤ 122 ∧ ¬('A' ≤ c ∧ c ≤ 'Z') := by
  have hnat : ∀ a b : Char, a ≤ b ↔ a.toNat ≤ b.toNat := fun a b => Iff.rfl
  simp only [hnat]
  rcases nameChar_cases h with rfl | ⟨h1, h2⟩ | ⟨h1, h2⟩ | rfl | rfl
  · decide
  · rw [hnat] at h1 h2
    simp only [Char.reduceToNat] at h1 h2 ⊢
    omega
  · rw [hnat] at h1 h2
    simp only [Char.reduceToNat] at h1 h2 ⊢
    omega
  · decide
  · decide

theorem nameChar_ascii {c : Char} (h : isNameChar c = true) : isAscii c = true := by
  have hc := nameChar_toNat h
  simp only [isAscii, decide_eq_true_eq]
  omega

theorem nameChar_lower {c : Char} (h : isNameChar c = true) : asciiLower c = c := by
  rw [asciiLower, if_neg (nameChar_toNat h).2.2]

theorem nameChar_not_trimmed {c : Char} (h : isNameChar c = true) : isTrimmed c = false := by
  have hc := nameChar_toNat h
  simp only [isTrimmed, Bool.or_eq_false_iff, Bool.and_eq_false_iff, beq_eq_false_iff_ne, ne_eq,
    decide_eq_false_iff_not]
  omega

theorem nameChar_ne_star {c : Char} (h : isNameChar c = true) : c ≠ '*' := by
  rintro rfl
  exact absurd h (by decide)

/-! ## Cleaned names -/

theorem labelOk_chars {l : Text} (h : labelOk l = true) : ∀ c ∈ l, isLabelChar c = true := by
  cases l with
  | nil =>
      simp
  | cons c rest =>
      simp only [labelOk, Bool.and_eq_true] at h
      have hc : isLabelChar c = true := by simp [isLabelChar, h.1]
      intro d hd
      rcases List.mem_cons.1 hd with rfl | hd
      · exact hc
      · -- the inner characters, then the last one
        have hne : rest ≠ [] := List.ne_nil_of_mem hd
        have hlast := List.getLast?_eq_some_getLast hne
        rw [hlast] at h
        simp only [Bool.and_eq_true, List.all_eq_true] at h
        rw [← List.dropLast_append_getLast hne] at hd
        rcases List.mem_append.1 hd with hd | hd
        · exact h.2.1.2 d hd
        · rw [List.mem_singleton.1 hd]
          simp [isLabelChar, h.2.2]

/-- A name that passes the checks is a row of labels. -/
structure CleanName (d : Text) : Prop where
  checked : checkLabels d false = some d
  chars : ∀ c ∈ d, isNameChar c = true
  nonempty : d ≠ []
  noFinalDot : d.getLast? ≠ some '.'

theorem cleanName_of_checkLabels {s d : Text} (h : checkLabels s false = some d) : CleanName d := by
  have hs := h
  unfold checkLabels at hs
  split at hs
  · cases hs
  · rename_i hip
    simp only at hs
    split at hs
    · cases hs
    · split at hs
      · rename_i hlabels
        obtain rfl : s = d := Option.some.inj hs
        rw [List.all_eq_true] at hlabels
        refine ⟨h, ?_, ?_, ?_⟩
        · intro c hc
          rcases mem_splitOn '.' hc with rfl | ⟨l, hl, hcl⟩
          · rfl
          · simp [isNameChar, labelOk_chars (hlabels l hl) c hcl]
        · rintro rfl
          exact hip rfl
        · intro hlast
          -- an empty label would stand behind the last dot
          have hsplit : s = s.dropLast ++ '.' :: [] := by
            have hne : s ≠ [] := by
              rintro rfl
              cases hlast
            rw [List.getLast?_eq_some_getLast hne, Option.some.injEq] at hlast
            rw [← hlast, List.dropLast_append_getLast hne]
          have hempty : ([] : Text) ∈ s.splitOn '.' := by
            rw [hsplit, List.splitOn_append_cons_self]
            simp
          exact absurd (hlabels [] hempty) (by decide)
      · cases hs

theorem cleanName_of_cleanDomain {host : UnicodeHost} {raw d : Text}
    (h : cleanDomain host raw false = some d) : CleanName d := by
  simp only [cleanDomain] at h
  -- the name in lower case, without a final dot
  generalize (if (lowerCase host (trim raw)).getLast? = some '.' then
    (lowerCase host (trim raw)).dropLast else lowerCase host (trim raw)) = s at h
  split at h
  · cases h
  · split at h
    · exact cleanName_of_checkLabels h
    · split at h
      · cases h
      · exact cleanName_of_checkLabels h

theorem jsLength_of_ascii {s : Text} (h : ∀ c ∈ s, isAscii c = true) : jsLength s = s.length := by
  have hunits : codeUnits s = s.map Char.val := by
    unfold codeUnits
    rw [List.map_eq_flatMap]
    apply List.flatMap_congr
    intro c hc
    have hlt : c.toNat < 0x80 := by simpa [isAscii] using h c hc
    rw [if_pos (by omega)]
  rw [jsLength, hunits, List.length_map]

theorem CleanName.lowerCase_eq {host : UnicodeHost} {d : Text} (hd : CleanName d) :
    lowerCase host d = d := by
  -- a cleaned name is ASCII, so the host is not asked
  rw [lowerCase, if_pos (List.all_eq_true.2 fun c hc => nameChar_ascii (hd.chars c hc))]
  conv_rhs => rw [← List.map_id d]
  exact List.map_congr_left fun c hc => nameChar_lower (hd.chars c hc)

theorem CleanName.trim_eq {d : Text} (hd : CleanName d) : trim d = d := by
  apply trim_eq_self
  · intro c hc
    exact nameChar_not_trimmed (hd.chars c (List.mem_of_mem_head? hc))
  · intro c hc
    exact nameChar_not_trimmed (hd.chars c (List.mem_of_getLast? hc))

/-- Cleaning a cleaned name only checks its length. -/
theorem CleanName.cleanDomain_eq {host : UnicodeHost} {d : Text} (hd : CleanName d) :
    cleanDomain host d false = if d.length ≤ 253 then some d else none := by
  have hascii : ∀ c ∈ d, isAscii c = true := fun c hc => nameChar_ascii (hd.chars c hc)
  simp only [cleanDomain, hd.trim_eq, hd.lowerCase_eq, hd.noFinalDot, if_false, hd.nonempty, false_or,
    jsLength_of_ascii hascii]
  by_cases hlen : d.length ≤ 253
  · rw [if_neg (by omega), if_pos (List.all_eq_true.2 hascii), if_pos hlen, hd.checked]
  · rw [if_pos (by omega), if_neg hlen]

/-! ## Cleaned patterns -/

/-- The domain of a pattern. -/
def patternDomain (p : Text) : Text := if isWild p then p.drop 2 else p

/-- A pattern `d` matches `d` and all names below it, `*.d` the names below `d` only. -/
def PatternMatches (p name : Text) : Prop :=
  if isWild p then ('.' :: patternDomain p) <:+ name
  else name = p ∨ ('.' :: p) <:+ name

theorem CleanName.not_wild {d : Text} (hd : CleanName d) : isWild d = false := by
  cases d with
  | nil =>
      exact absurd rfl hd.nonempty
  | cons c d =>
      have hc := nameChar_ne_star (hd.chars c List.mem_cons_self)
      simp [isWild, List.isPrefixOf, hc.symm]

/-- A pattern in the form that cleaning gives it. -/
def NormalPattern (host : UnicodeHost) (p : Text) : Prop :=
  ∃ raw, cleanPatternText host raw = some p

theorem cleanPatternText_cases {host : UnicodeHost} {raw p : Text}
    (h : cleanPatternText host raw = some p) : CleanName (patternDomain p) ∧
      (isWild p = true ∧ p = '*' :: '.' :: patternDomain p ∨ isWild p = false ∧ p = patternDomain p) := by
  simp only [cleanPatternText] at h
  split at h
  · rcases Option.map_eq_some_iff.1 h with ⟨d, hd, rfl⟩
    refine ⟨?_, Or.inl ⟨rfl, rfl⟩⟩
    exact cleanName_of_cleanDomain hd
  · have hd := cleanName_of_cleanDomain h
    have hdom : patternDomain p = p := by rw [patternDomain, hd.not_wild]; rfl
    rw [hdom]
    exact ⟨hd, Or.inr ⟨hd.not_wild, rfl⟩⟩

/-- Cleaning a cleaned pattern only checks the length of its domain. -/
theorem NormalPattern.clean_eq {host : UnicodeHost} {p : Text} (hp : NormalPattern host p) :
    cleanPatternText host p = if (patternDomain p).length ≤ 253 then some p else none := by
  rcases hp with ⟨raw, hraw⟩
  rcases cleanPatternText_cases hraw with ⟨hd, ⟨hwild, heq⟩ | ⟨hwild, heq⟩⟩
  · have htrim : trim p = p := by
      apply trim_eq_self
      · intro c hc
        rw [heq] at hc
        cases hc
        decide
      · intro c hc
        rw [heq, List.getLast?_cons_cons, List.getLast?_cons] at hc
        have hmem : c ∈ patternDomain p := by
          cases hl : (patternDomain p).getLast? with
          | none =>
              exact absurd (List.getLast?_eq_none_iff.1 hl) hd.nonempty
          | some e =>
              simp only [hl, Option.getD_some, Option.mem_some_iff] at hc
              exact hc ▸ List.mem_of_getLast? hl
        exact nameChar_not_trimmed (hd.chars c hmem)
    -- behind the star the domain is cleaned on its own
    have hdrop : p.drop 2 = patternDomain p := by rw [patternDomain, hwild]; rfl
    simp only [cleanPatternText, htrim, hwild, if_true, hdrop, hd.cleanDomain_eq]
    split
    · simp [← heq]
    · rfl
  · rw [← heq] at hd ⊢
    simp only [cleanPatternText, hd.trim_eq, hwild, Bool.false_eq_true, if_false]
    exact hd.cleanDomain_eq

/-! ## Sets of patterns -/

namespace PatternSet

theorem matchesName_iff (ps : PatternSet) (name : Text) :
    ps.matchesName name = true ↔ name ∈ OrderedMap.keys ps.incl ∨
      ∃ d, ('.' :: d) <:+ name ∧
        (d ∈ OrderedMap.keys ps.incl ∨ d ∈ OrderedMap.keys ps.sub) := by
  unfold matchesName
  split
  · -- an empty set is not searched
    rename_i hzero
    have hincl : OrderedMap.keys ps.incl = [] := by
      rw [OrderedMap.keys, List.map_eq_nil_iff, ← List.length_eq_zero_iff]
      exact (Nat.add_eq_zero_iff.1 hzero).1
    have hsub : OrderedMap.keys ps.sub = [] := by
      rw [OrderedMap.keys, List.map_eq_nil_iff, ← List.length_eq_zero_iff]
      exact (Nat.add_eq_zero_iff.1 hzero).2
    simp [hincl, hsub]
  · simp [OrderedMap.has_iff, List.any_eq_true, mem_tails_iff]

theorem cleanDomain_trim (host : UnicodeHost) (p : Text) :
    cleanDomain host (trim p) false = cleanDomain host p false := by
  simp only [cleanDomain, trim_trim]

/-- Adding a pattern adds what its normal form matches. -/
theorem matchesName_add {host : UnicodeHost} (ps : PatternSet) (p name : Text) :
    (ps.add host p).matchesName name = true ↔ ps.matchesName name = true ∨
      ∃ q, cleanPatternText host p = some q ∧ PatternMatches q name := by
  by_cases hwild : isWild (trim p) = true
  · cases hd : cleanDomain host ((trim p).drop 2) false with
    | none =>
        simp [add, cleanPatternText, hwild, hd]
    | some d =>
        have hq : patternDomain ('*' :: '.' :: d) = d := rfl
        have hw : isWild ('*' :: '.' :: d) = true := rfl
        simp only [add, cleanPatternText, hwild, if_true, hd, Option.map_some, Option.some.injEq,
          exists_eq_left', PatternMatches, hw, hq, matchesName_iff, OrderedSet.mem_keys_add]
        constructor
        · rintro (hname | ⟨e, he, hincl | rfl | hsub⟩)
          · exact Or.inl (Or.inl hname)
          · exact Or.inl (Or.inr ⟨e, he, Or.inl hincl⟩)
          · exact Or.inr he
          · exact Or.inl (Or.inr ⟨e, he, Or.inr hsub⟩)
        · rintro ((hname | ⟨e, he, hincl | hsub⟩) | he)
          · exact Or.inl hname
          · exact Or.inr ⟨e, he, Or.inl hincl⟩
          · exact Or.inr ⟨e, he, Or.inr (Or.inr hsub)⟩
          · exact Or.inr ⟨d, he, Or.inr (Or.inl rfl)⟩
  · cases hd : cleanDomain host p false with
    | none =>
        simp [add, cleanPatternText, hwild, cleanDomain_trim, hd]
    | some d =>
        -- a cleaned name cannot begin with a star
        have hw : isWild d = false := (cleanName_of_cleanDomain hd).not_wild
        simp only [add, cleanPatternText, hwild, Bool.false_eq_true, if_false, cleanDomain_trim, hd,
          Option.some.injEq, exists_eq_left', PatternMatches, hw, matchesName_iff,
          OrderedSet.mem_keys_add]
        constructor
        · rintro ((rfl | hname) | ⟨e, he, (rfl | hincl) | hsub⟩)
          · exact Or.inr (Or.inl rfl)
          · exact Or.inl (Or.inl hname)
          · exact Or.inr (Or.inr he)
          · exact Or.inl (Or.inr ⟨e, he, Or.inl hincl⟩)
          · exact Or.inl (Or.inr ⟨e, he, Or.inr hsub⟩)
        · rintro ((hname | ⟨e, he, hincl | hsub⟩) | rfl | he)
          · exact Or.inl (Or.inr hname)
          · exact Or.inr ⟨e, he, Or.inl (Or.inr hincl)⟩
          · exact Or.inr ⟨e, he, Or.inr hsub⟩
          · exact Or.inl (Or.inl rfl)
          · exact Or.inr ⟨d, he, Or.inl (Or.inl rfl)⟩

/-- A set matches what the normal form of one of its patterns matches. -/
theorem matchesName_new (host : UnicodeHost) (patterns : List Text) (name : Text) :
    (new host patterns).matchesName name = true ↔
      ∃ p ∈ patterns, ∃ q, cleanPatternText host p = some q ∧ PatternMatches q name := by
  have hfold : ∀ (patterns : List Text) (ps : PatternSet),
      (patterns.foldl (add host) ps).matchesName name = true ↔ ps.matchesName name = true ∨
        ∃ p ∈ patterns, ∃ q, cleanPatternText host p = some q ∧ PatternMatches q name := by
    intro patterns
    induction patterns with
    | nil =>
        simp
    | cons p patterns ih =>
        intro ps
        rw [List.foldl_cons, ih, matchesName_add, or_assoc]
        simp
  have hempty : empty.matchesName name = false := rfl
  rw [new, hfold, hempty]
  simp

/-- A set of cleaned patterns matches what one of them matches, as long as it is not too long. -/
theorem matchesName_new_normal {host : UnicodeHost} {patterns : List Text}
    (hnormal : ∀ p ∈ patterns, NormalPattern host p) (name : Text) :
    (new host patterns).matchesName name = true ↔
      ∃ p ∈ patterns, (patternDomain p).length ≤ 253 ∧ PatternMatches p name := by
  rw [matchesName_new]
  constructor
  · rintro ⟨p, hp, q, hq, hmatch⟩
    rw [(hnormal p hp).clean_eq] at hq
    split at hq
    · rename_i hlen
      cases hq
      exact ⟨p, hp, hlen, hmatch⟩
    · cases hq
  · rintro ⟨p, hp, hlen, hmatch⟩
    exact ⟨p, hp, p, by rw [(hnormal p hp).clean_eq, if_pos hlen], hmatch⟩

end PatternSet

end Dns
end GateControl
