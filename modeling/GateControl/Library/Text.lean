import Mathlib.Data.List.Basic

/-!
# Text — strings as lists of characters

The operations of scripting-language strings that depend on Unicode: length in UTF-16 code units,
trimming, lower-casing of ASCII.
-/

namespace GateControl
namespace Library

abbrev Text := List Char

instance : LawfulBEq Text := inferInstance

def isAscii (c : Char) : Bool := c.toNat < 0x80

/-- The UTF-16 code units of a text. -/
def codeUnits (s : Text) : List UInt32 :=
  s.flatMap fun c =>
    if c.toNat < 0x10000 then [c.val]
    else [0xd800 + (c.val - 0x10000) / 0x400, 0xdc00 + (c.val - 0x10000) % 0x400]

/-- The length of a text as JavaScript counts it. -/
def jsLength (s : Text) : Nat := (codeUnits s).length

/-- White space and line terminators, as `trim` removes them. -/
def isTrimmed (c : Char) : Bool :=
  let n := c.toNat
  (0x09 ≤ n && n ≤ 0x0d) || n == 0x20 || n == 0xa0 || n == 0x1680 ||
    (0x2000 ≤ n && n ≤ 0x200a) || n == 0x2028 || n == 0x2029 || n == 0x202f || n == 0x205f ||
    n == 0x3000 || n == 0xfeff

def trim (s : Text) : Text := ((s.dropWhile isTrimmed).reverse.dropWhile isTrimmed).reverse

theorem dropWhile_eq_self {p : Char → Bool} {s : Text} (h : ∀ c ∈ s.head?, p c = false) :
    s.dropWhile p = s := by
  cases s with
  | nil =>
      rfl
  | cons c cs =>
      rw [List.dropWhile_cons_of_neg]
      simp [h c rfl]

theorem head?_dropWhile (p : Char → Bool) (s : Text) : ∀ c ∈ (s.dropWhile p).head?, p c = false := by
  intro c hc
  have hne : s.dropWhile p ≠ [] := by
    intro hnil
    simp [hnil] at hc
  have hhead := List.head_dropWhile_not p hne
  rw [List.head?_eq_some_head hne, Option.mem_some_iff] at hc
  rwa [hc] at hhead

/-- A text that does not start or end with white space is trimmed. -/
theorem trim_eq_self {s : Text} (hhead : ∀ c ∈ s.head?, isTrimmed c = false)
    (hlast : ∀ c ∈ s.getLast?, isTrimmed c = false) : trim s = s := by
  rw [trim, dropWhile_eq_self hhead, dropWhile_eq_self, List.reverse_reverse]
  simpa using hlast

theorem trim_trim (s : Text) : trim (trim s) = trim s := by
  apply trim_eq_self
  · intro c hc
    -- what is left starts with what the first pass left at the start
    have hpre : trim s <+: s.dropWhile isTrimmed := by
      rw [← List.reverse_suffix, trim, List.reverse_reverse]
      exact List.dropWhile_suffix isTrimmed
    rcases hpre with ⟨t, ht⟩
    apply head?_dropWhile isTrimmed s c
    rw [← ht, List.head?_append, Option.mem_def.1 hc]
    rfl
  · intro c hc
    rw [trim, List.getLast?_reverse] at hc
    exact head?_dropWhile isTrimmed _ c hc

def asciiLower (c : Char) : Char :=
  if 'A' ≤ c ∧ c ≤ 'Z' then Char.ofNat (c.toNat + 32) else c

/-- A number in decimal. -/
def decimal (n : Nat) : Text := Nat.toDigits 10 n

theorem decimal_injective {m n : Nat} (h : decimal m = decimal n) : m = n := by
  have hval := congrArg (fun ds => Nat.ofDigitChars 10 ds 0) h
  simpa [decimal] using hval

theorem isDigit_of_mem_decimal {n : Nat} {c : Char} (h : c ∈ decimal n) : c.isDigit = true :=
  Nat.isDigit_of_mem_toDigits (by decide) (by decide) h

/-- A digit is the one of its value. -/
theorem digitChar_eq {c : Char} (h : c.isDigit = true) :
    c.toNat - '0'.toNat < 10 ∧ Nat.digitChar (c.toNat - '0'.toNat) = c := by
  have hall : ∀ n : Fin 10, Nat.digitChar n = Char.ofNat (48 + n) := by decide
  simp only [Char.isDigit, Bool.and_eq_true, decide_eq_true_eq] at h
  have hlow : 48 ≤ c.toNat := h.1
  have hhigh : c.toNat ≤ 57 := h.2
  have hzero : '0'.toNat = 48 := rfl
  have hlt : c.toNat - 48 < 10 := by omega
  rw [hzero]
  refine ⟨hlt, ?_⟩
  rw [hall ⟨_, hlt⟩, Nat.add_sub_cancel' hlow, Char.ofNat_toNat]

/-- A text is read off up to the first separator. -/
theorem append_cons_injective {c : Char} {a b x y : Text} (ha : c ∉ a) (hb : c ∉ b)
    (h : a ++ c :: x = b ++ c :: y) : a = b ∧ x = y := by
  induction a generalizing b with
  | nil =>
      cases b with
      | nil =>
          exact ⟨rfl, List.tail_eq_of_cons_eq h⟩
      | cons d b =>
          exact absurd (List.head_eq_of_cons_eq h) fun heq => hb (heq ▸ List.mem_cons_self)
  | cons d a ih =>
      cases b with
      | nil =>
          exact absurd (List.head_eq_of_cons_eq h) fun heq => ha (heq ▸ List.mem_cons_self)
      | cons e b =>
          have hde : d = e := List.head_eq_of_cons_eq h
          have hrest := ih (fun hm => ha (List.mem_cons_of_mem d hm))
            (fun hm => hb (List.mem_cons_of_mem e hm)) (List.tail_eq_of_cons_eq h)
          exact ⟨by rw [hde, hrest.1], hrest.2⟩

theorem not_mem_decimal {n : Nat} {c : Char} (hc : c.isDigit = false) : c ∉ decimal n := by
  intro h
  simp [isDigit_of_mem_decimal h] at hc

/-! ## Pieces -/

/-- The separator is in none of the pieces. -/
theorem not_mem_of_mem_splitOn (sep : Char) (s : Text) : ∀ l ∈ s.splitOn sep, sep ∉ l := by
  induction s with
  | nil =>
      simp
  | cons c s ih =>
      rw [List.splitOn_cons_eq_if_modifyHead]
      by_cases hc : c = sep
      · simpa [hc] using ih
      · have hc' : sep ≠ c := fun h => hc h.symm
        cases hs : s.splitOn sep with
        | nil =>
            exact absurd hs (List.splitOn_ne_nil sep s)
        | cons l ls =>
            rw [hs] at ih
            simpa [hc, hc'] using ih

/-- A character of a text is the separator, or in one of the pieces. -/
theorem mem_splitOn (sep : Char) {c : Char} {s : Text} (h : c ∈ s) :
    c = sep ∨ ∃ l ∈ s.splitOn sep, c ∈ l := by
  induction s with
  | nil =>
      cases h
  | cons x s ih =>
      rw [List.splitOn_cons_eq_if_modifyHead]
      by_cases hx : x = sep
      · rcases List.mem_cons.1 h with rfl | h
        · exact Or.inl hx
        · refine (ih h).imp (fun heq => heq) ?_
          rintro ⟨l, hl, hc⟩
          exact ⟨l, by simp [hx, hl], hc⟩
      · -- the character joins the first piece
        cases hs : s.splitOn sep with
        | nil =>
            exact absurd hs (List.splitOn_ne_nil sep s)
        | cons l ls =>
            simp only [beq_iff_eq, hx, if_false, List.modifyHead_cons, List.mem_cons,
              exists_eq_or_imp]
            rcases List.mem_cons.1 h with rfl | h
            · exact Or.inr (Or.inl (Or.inl rfl))
            · rcases ih h with heq | ⟨m, hm, hc⟩
              · exact Or.inl heq
              · rw [hs] at hm
                rcases List.mem_cons.1 hm with rfl | hm
                · exact Or.inr (Or.inl (Or.inr hc))
                · exact Or.inr (Or.inr ⟨m, hm, hc⟩)

end Library
end GateControl
