import GateControl.Library.JsonText

/-!
# JsonRoundTrip — what is written is read back

`readNumber_stringify` and `readString_quote` say that the reader finds a number or a string where
its text stands, whatever follows it; behind a number no digit, point or exponent may follow.
-/

namespace GateControl
namespace Library

/-! ## Code units -/

theorem unit_val {c : Char} (h : c.toNat < 65536) : (unit c).val = c.toNat :=
  Nat.mod_eq_of_lt h

theorem toNat_of_isDigit {c : Char} (h : c.isDigit = true) : 48 ≤ c.toNat ∧ c.toNat ≤ 57 := by
  simpa [Char.isDigit, UInt32.le_iff_toNat_le] using h

@[simp] theorem units_append (s t : Text) : units (s ++ t) = units s ++ units t :=
  List.map_append

@[simp] theorem units_cons (c : Char) (t : Text) : units (c :: t) = unit c :: units t := rfl

@[simp] theorem units_nil : units [] = [] := rfl

@[simp] theorem length_units (t : Text) : (units t).length = t.length := List.length_map ..

/-- A number that is not zero has no zero in front. -/
theorem head?_decimal {n : ℕ} (hn : 0 < n) : (decimal n).head? ≠ some '0' := by
  induction n using Nat.strongRecOn with
  | ind n ih =>
      rw [decimal, Nat.toDigits_eq_if (by norm_num)]
      split_ifs with hlt
      · intro hzero
        have hval : n.digitChar = '0' := by simpa using hzero
        have hnat := congrArg Char.toNat hval
        rw [Nat.toNat_digitChar_of_lt_ten hlt] at hnat
        change 48 + n = 48 at hnat
        omega
      · have hrest := ih (n / 10) (by omega) (by omega)
        rwa [List.head?_append_of_ne_nil _ Nat.toDigits_ne_nil]

namespace JsonText

/-! ## Digits -/

variable {rest : Units} {c : Char}

theorem isDigitUnit_unit (h : c.isDigit = true) : isDigitUnit (unit c) = true := by
  have hc := toNat_of_isDigit h
  have hval := unit_val (c := c) (by omega)
  have hzero : (unit '0').val = 48 := by decide
  have hnine : (unit '9').val = 57 := by decide
  simp only [isDigitUnit, Bool.and_eq_true, decide_eq_true_eq, Fin.le_def]
  omega

/-- No digit follows. -/
def StopsDigits (rest : Units) : Prop := ∀ c ∈ rest.head?, isDigitUnit c = false

theorem stopsDigits_cons {c : CodeUnit} (h : isDigitUnit c = false) : StopsDigits (c :: rest) := by
  intro d hd
  cases hd
  exact h

/-- Digits in front of something else are read as they are. -/
theorem readDigits_append {t : Text} (hne : t ≠ []) (hdigits : ∀ c ∈ t, c.isDigit = true)
    (hrest : StopsDigits rest) : readDigits (units t ++ rest) = some (units t, rest) := by
  have hall : ∀ c ∈ units t, isDigitUnit c = true := by
    intro c hc
    rcases List.mem_map.1 hc with ⟨d, hd, rfl⟩
    exact isDigitUnit_unit (hdigits d hd)
  -- the digits end where the rest begins
  have htake : rest.takeWhile isDigitUnit = [] := by
    cases rest with
    | nil =>
        rfl
    | cons c rest =>
        simp [hrest c rfl]
  have hdrop : rest.dropWhile isDigitUnit = rest := by
    cases rest with
    | nil =>
        rfl
    | cons c rest =>
        simp [hrest c rfl]
  have hunits : units t ≠ [] := by simpa [units] using hne
  rw [readDigits, List.takeWhile_append_of_pos hall, List.dropWhile_append_of_pos hall, htake,
    hdrop, List.append_nil, if_neg hunits]

theorem digitsNumber_units {t : Text} (h : ∀ c ∈ t, c.isDigit = true) :
    digitsNumber (units t) = Nat.ofDigitChars 10 t 0 := by
  have hfold : ∀ n, (units t).foldl (fun n c => 10 * n + (c.val - '0'.toNat)) n =
      Nat.ofDigitChars 10 t n := by
    induction t with
    | nil =>
        intro n
        simp
    | cons c t ih =>
        intro n
        have hc := toNat_of_isDigit (h c List.mem_cons_self)
        rw [units_cons, List.foldl_cons, ih (fun d hd => h d (List.mem_cons_of_mem c hd)),
          Nat.ofDigitChars_cons, unit_val (by omega)]
  exact hfold 0

/-! ## Numerals -/

/-- What may follow a number: no digit, point or exponent. -/
def EndsNumber (rest : Units) : Prop :=
  ∀ c ∈ rest.head?, isDigitUnit c = false ∧ c ≠ unit '.' ∧ c ≠ unit 'e' ∧ c ≠ unit 'E'

theorem EndsNumber.stopsDigits (h : EndsNumber rest) : StopsDigits rest :=
  fun c hc => (h c hc).1

theorem readFraction_of_ends (h : ∀ c ∈ rest.head?, c ≠ unit '.') :
    readFraction rest = some ([], rest) := by
  cases rest with
  | nil =>
      rfl
  | cons c rest =>
      rw [readFraction, if_neg (h c rfl)]

theorem readExponent_of_ends (h : EndsNumber rest) : readExponent rest = some (0, rest) := by
  cases rest with
  | nil =>
      rfl
  | cons c rest =>
      have hc := h c rfl
      rw [readExponent, if_neg (by simp [hc.2.2.1, hc.2.2.2])]

/-- The text of an exponent. -/
def exponentText : Option ℤ → Text
  | none => []
  | some x => 'e' :: (if x < 0 then '-' else '+') :: decimal x.natAbs

theorem numeral_eq (whole fraction : Text) (exponent : Option ℤ) :
    numeral whole fraction exponent =
      whole ++ (if fraction = [] then [] else '.' :: fraction) ++ exponentText exponent := by
  cases exponent <;> rfl

theorem readExponent_exponentText (h : EndsNumber rest) (x : Option ℤ) :
    readExponent (units (exponentText x) ++ rest) = some (x.getD 0, rest) := by
  cases x with
  | none =>
      exact readExponent_of_ends h
  | some x =>
      have hread := readDigits_append (t := decimal x.natAbs) Nat.toDigits_ne_nil
        (fun c hc => isDigit_of_mem_decimal hc) h.stopsDigits
      have hvalue : digitsNumber (units (decimal x.natAbs)) = x.natAbs := by
        rw [digitsNumber_units fun c hc => isDigit_of_mem_decimal hc]
        exact Nat.ofDigitChars_ten_toDigits
      simp only [exponentText, units_cons, List.cons_append, readExponent]
      by_cases hx : x < 0
      · simp [hx, readSigned, hread, hvalue, abs_of_neg hx]
      · have hplus : unit '+' ≠ unit '-' := by decide
        simp [hx, readSigned, hplus, hread, hvalue, abs_of_nonneg (not_lt.1 hx)]

theorem stopsDigits_exponentText (h : EndsNumber rest) (x : Option ℤ) :
    StopsDigits (units (exponentText x) ++ rest) := by
  cases x with
  | none =>
      exact h.stopsDigits
  | some x =>
      exact stopsDigits_cons (by decide)

theorem readFraction_numeral {fraction : Text} (hdigits : ∀ c ∈ fraction, c.isDigit = true)
    (h : EndsNumber rest) (x : Option ℤ) :
    readFraction (units (if fraction = [] then [] else '.' :: fraction) ++
        (units (exponentText x) ++ rest)) =
      some (units fraction, units (exponentText x) ++ rest) := by
  by_cases hnil : fraction = []
  · -- no point is written, and none is found
    rw [if_pos hnil, hnil, units_nil, List.nil_append]
    apply readFraction_of_ends
    cases x with
    | none =>
        intro c hc
        exact (h c hc).2.1
    | some x =>
        intro c hc
        cases hc
        decide
  · rw [if_neg hnil, units_cons, List.cons_append, readFraction, if_pos rfl]
    exact readDigits_append hnil hdigits (stopsDigits_exponentText h x)

/-- The digits before the point: one or more, with no zero in front of others. -/
def IsWhole (t : Text) : Prop :=
  t ≠ [] ∧ (∀ c ∈ t, c.isDigit = true) ∧ (t.head? = some '0' → t.length = 1)

theorem head?_units_zero {t : Text} (hdigits : ∀ c ∈ t, c.isDigit = true)
    (h : (units t).head? = some (unit '0')) : t.head? = some '0' := by
  cases t with
  | nil =>
      simp at h
  | cons c t =>
      have hc := toNat_of_isDigit (hdigits c List.mem_cons_self)
      have hval : (unit c).val = (unit '0').val := by
        simp only [units_cons, List.head?_cons, Option.some.injEq] at h
        rw [h]
      rw [unit_val (by omega), unit_val (by decide)] at hval
      rw [List.head?_cons, Char.toNat_inj.1 hval]

theorem readWhole_append {t : Text} (h : IsWhole t) (hrest : StopsDigits rest) :
    readWhole (units t ++ rest) = some (units t, rest) := by
  have hread := readDigits_append h.1 h.2.1 hrest
  have hzero : ¬((units t).head? = some (unit '0') ∧ (units t).length ≠ 1) := by
    rintro ⟨hhead, hlen⟩
    rw [length_units] at hlen
    exact hlen (h.2.2 (head?_units_zero h.2.1 hhead))
  simp only [readWhole, hread, Option.bind_eq_bind, Option.bind_some, if_neg hzero]

/-- The value of a numeral. -/
def numeralValue (whole fraction : Text) (exponent : Option ℤ) : ℚ :=
  Nat.ofDigitChars 10 (whole ++ fraction) 0 * 10 ^ (exponent.getD 0 - fraction.length)

theorem readMagnitude_numeral {whole fraction : Text} (hwhole : IsWhole whole)
    (hdigits : ∀ c ∈ fraction, c.isDigit = true) (h : EndsNumber rest) (x : Option ℤ) :
    readMagnitude (units (numeral whole fraction x) ++ rest) =
      some (numeralValue whole fraction x, rest) := by
  have hstop : StopsDigits (units (if fraction = [] then [] else '.' :: fraction) ++
      (units (exponentText x) ++ rest)) := by
    by_cases hnil : fraction = []
    · rw [if_pos hnil, units_nil, List.nil_append]
      exact stopsDigits_exponentText h x
    · rw [if_neg hnil]
      exact stopsDigits_cons (by decide)
  have hall : ∀ c ∈ whole ++ fraction, c.isDigit = true := by
    intro c hc
    rcases List.mem_append.1 hc with hc | hc
    · exact hwhole.2.1 c hc
    · exact hdigits c hc
  have hvalue : digitsNumber (units whole ++ units fraction) =
      Nat.ofDigitChars 10 (whole ++ fraction) 0 := by
    rw [← units_append, digitsNumber_units hall]
  rw [numeral_eq, units_append, units_append, List.append_assoc, List.append_assoc]
  simp only [readMagnitude, readWhole_append hwhole hstop, readFraction_numeral hdigits h x,
    readExponent_exponentText h x, Option.bind_eq_bind, Option.bind_some, hvalue, length_units,
    numeralValue]

/-! ## Doubles -/

theorem isWhole_take {s m : ℕ} (hs : 0 < s) (hm : 0 < m) : IsWhole ((decimal s).take m) := by
  refine ⟨?_, fun c hc => isDigit_of_mem_decimal (List.mem_of_mem_take hc), ?_⟩
  · simp [List.take_eq_nil_iff, hm.ne', decimal]
  · intro hzero
    rw [List.head?_take, if_neg hm.ne'] at hzero
    exact absurd hzero (head?_decimal hs)

theorem isDigit_of_mem_zeros {n : ℕ} (h : c ∈ List.replicate n '0') : c.isDigit = true := by
  rw [List.eq_of_mem_replicate h]
  rfl

theorem isWhole_append_zeros {s n : ℕ} (hs : 0 < s) :
    IsWhole (decimal s ++ List.replicate n '0') := by
  refine ⟨by simp [decimal], ?_, ?_⟩
  · intro c hc
    rcases List.mem_append.1 hc with hc | hc
    · exact isDigit_of_mem_decimal hc
    · exact isDigit_of_mem_zeros hc
  · intro hzero
    have hne : decimal s ≠ [] := Nat.toDigits_ne_nil
    rw [List.head?_append_of_ne_nil _ hne] at hzero
    exact absurd hzero (head?_decimal hs)

theorem ofDigitChars_decimal (n : ℕ) : Nat.ofDigitChars 10 (decimal n) 0 = n :=
  Nat.ofDigitChars_ten_toDigits

/-- The digits that are split at a place still have the value of the whole. -/
theorem numeralValue_split {s m : ℕ} {p : ℤ} {x : Option ℤ}
    (hx : x.getD 0 = p + ((decimal s).length - m : ℕ)) :
    numeralValue ((decimal s).take m) ((decimal s).drop m) x = s * 10 ^ p := by
  rw [numeralValue, List.take_append_drop, ofDigitChars_decimal, List.length_drop, hx,
    add_sub_cancel_right]

/-- Every format is a numeral of the right value. -/
theorem decimalText_eq {s : ℕ} (hs : 0 < s) (p : ℤ) :
    ∃ whole fraction x, decimalText s p = numeral whole fraction x ∧ IsWhole whole ∧
      (∀ c ∈ fraction, c.isDigit = true) ∧ numeralValue whole fraction x = s * 10 ^ p := by
  have hlen : 0 < (decimal s).length := Nat.length_toDigits_pos
  have hdrop : ∀ m, ∀ c ∈ (decimal s).drop m, c.isDigit = true :=
    fun m c hc => isDigit_of_mem_decimal (List.mem_of_mem_drop hc)
  simp only [decimalText]
  split_ifs with hzeros hpoint hleading
  · -- zeros up to the point
    refine ⟨_, _, _, rfl, isWhole_append_zeros hs, by simp, ?_⟩
    have hp : p + (decimal s).length - (decimal s).length = p := by ring
    rw [numeralValue, List.append_nil, Nat.ofDigitChars_append, Nat.ofDigitChars_replicate_zero,
      ofDigitChars_decimal, hp]
    push_cast
    rw [← zpow_natCast, Int.toNat_of_nonneg (by omega)]
    simp [mul_comm]
  · -- the point among the digits
    refine ⟨_, _, _, rfl, isWhole_take hs (by omega), hdrop _, ?_⟩
    apply numeralValue_split
    simp only [Option.getD_none]
    omega
  · -- zeros behind the point
    refine ⟨_, _, _, rfl, ⟨by simp, by simp, by simp⟩, ?_, ?_⟩
    · intro c hc
      rcases List.mem_append.1 hc with hc | hc
      · exact isDigit_of_mem_zeros hc
      · exact isDigit_of_mem_decimal hc
    · have hexp : (0 : ℤ) - ((-(p + (decimal s).length)).toNat + (decimal s).length : ℕ) = p := by
        push_cast
        omega
      rw [numeralValue, List.singleton_append, Nat.ofDigitChars_cons, Nat.ofDigitChars_append,
        Nat.ofDigitChars_replicate_zero, List.length_append, List.length_replicate,
        Option.getD_none, hexp]
      simp [ofDigitChars_decimal]
  · -- an exponent
    refine ⟨_, _, _, rfl, isWhole_take hs one_pos, hdrop _, ?_⟩
    apply numeralValue_split
    rw [Option.getD_some]
    omega

theorem readMagnitude_decimalText {s : ℕ} (hs : 0 < s) (p : ℤ) (h : EndsNumber rest) :
    readMagnitude (units (decimalText s p) ++ rest) = some (decimalValue (s, p), rest) := by
  rcases decimalText_eq hs p with ⟨whole, fraction, x, htext, hwhole, hdigits, hvalue⟩
  rw [htext, readMagnitude_numeral hwhole hdigits h x, hvalue]
  rfl

/-- A numeral starts with a digit. -/
theorem exists_decimalText {s : ℕ} (hs : 0 < s) (p : ℤ) :
    ∃ c t, decimalText s p = c :: t ∧ c.isDigit = true := by
  rcases decimalText_eq hs p with ⟨whole, fraction, x, htext, hwhole, -, -⟩
  cases whole with
  | nil =>
      exact absurd rfl hwhole.1
  | cons c whole =>
      exact ⟨c, _, htext, hwhole.2.1 c List.mem_cons_self⟩

theorem isDigitUnit_ne_minus {c : CodeUnit} (h : isDigitUnit c = true) : c ≠ unit '-' := by
  intro heq
  rw [heq] at h
  exact absurd h (by decide)

theorem toDouble?_shortest {d : Double} (hpos : 0 < d.val) :
    toDouble? (decimalValue (shortest d.val)) = some d := by
  apply toDouble?_of_nearest
  · exact mul_pos (by exact_mod_cast shortest_pos hpos) (zpow_pos (by norm_num) _)
  · exact nearest_shortest hpos

/-- A double is read from its text. -/
theorem readNumber_stringify (d : Double) (h : EndsNumber rest) :
    readNumber (stringifyNumber (.finite d) ++ rest) = some (.finite d, rest) := by
  rw [stringifyNumber, doubleText]
  split_ifs with hzero hneg
  · -- zero is written as one digit, which is no shortest decimal
    have hd : Double.zero = d := by
      cases d
      simp only [Double.zero, Double.mk.injEq]
      exact hzero.symm
    have hwhole : IsWhole ['0'] := ⟨by simp, by simp, by simp⟩
    have hread := readMagnitude_numeral hwhole (List.forall_mem_nil _) h none
    have htext : numeral ['0'] [] none = ['0'] := rfl
    have hvalue : numeralValue ['0'] [] none = 0 := by
      simp [numeralValue, Nat.ofDigitChars_cons]
    have hminus : unit '0' ≠ unit '-' := by decide
    rw [htext, hvalue] at hread
    rw [units_cons, units_nil, List.singleton_append] at hread ⊢
    rw [readNumber, if_neg hminus, hread]
    simp [toNumber, toDouble?, hd]
  · -- behind the sign stands the text of the opposite
    have hpos : 0 < d.neg.val := by
      rw [Double.val_neg]
      linarith
    rw [units_cons, List.cons_append, readNumber, if_pos rfl, ← Double.val_neg,
      readMagnitude_decimalText (shortest_pos hpos) _ h, Option.map_some]
    have hne : d.neg.val ≠ 0 := hpos.ne'
    have hround := toDouble?_shortest hpos
    simp only [toNumber, hround, hne, Bool.not_true, Bool.false_eq_true, if_false, Double.neg_neg]
  · have hpos : 0 < d.val := lt_of_le_of_ne (not_lt.1 hneg) fun heq => hzero heq.symm
    have hread := readMagnitude_decimalText (shortest_pos hpos) (shortest d.val).2 h
    rcases exists_decimalText (shortest_pos hpos) (shortest d.val).2 with ⟨c, t, htext, hc⟩
    have hminus := isDigitUnit_ne_minus (isDigitUnit_unit hc)
    rw [htext] at hread ⊢
    rw [units_cons, List.cons_append] at hread ⊢
    rw [readNumber, if_neg hminus, hread, Option.map_some]
    simp [toNumber, toDouble?_shortest hpos]

/-- What a number's text starts with. -/
theorem exists_stringifyNumber (d : Double) :
    ∃ c t, stringifyNumber (.finite d) = c :: t ∧ (isDigitUnit c = true ∨ c = unit '-') := by
  rw [stringifyNumber, doubleText]
  split_ifs with hzero hneg
  · exact ⟨_, _, rfl, Or.inl (by decide)⟩
  · exact ⟨_, _, rfl, Or.inr rfl⟩
  · have hpos : 0 < d.val := lt_of_le_of_ne (not_lt.1 hneg) fun heq => hzero heq.symm
    rcases exists_decimalText (shortest_pos hpos) (shortest d.val).2 with ⟨c, t, htext, hc⟩
    exact ⟨unit c, units t, by rw [htext, units_cons], Or.inl (isDigitUnit_unit hc)⟩

/-! ## Strings -/

theorem hexValue?_hexUnit {n : ℕ} (h : n < 16) : hexValue? (hexUnit n) = some n := by
  have hall : ∀ n : Fin 16, hexValue? (hexUnit n) = some n.val := by decide
  exact hall ⟨n, h⟩

theorem readHex_hexEscape (c : CodeUnit) :
    readHex (hexUnit (c.val / 4096)) (hexUnit (c.val / 256 % 16)) (hexUnit (c.val / 16 % 16))
      (hexUnit (c.val % 16)) = some c := by
  have hc := c.isLt
  have hvalue : c.val / 4096 * 4096 + c.val / 256 % 16 * 256 + c.val / 16 % 16 * 16 + c.val % 16 =
      c.val := by omega
  simp only [readHex, hexValue?_hexUnit (show c.val / 4096 < 16 by omega),
    hexValue?_hexUnit (Nat.mod_lt _ (by norm_num : 16 > 0)), Option.bind_eq_bind, Option.bind_some,
    hvalue, Fin.ofNat_val_eq_self]

/-- Each letter of an escape stands for the code unit that is escaped by it. -/
theorem unescape_escapes : ∀ e ∈ escapes, unescape e.2 = some e.1 ∧ e.2 ≠ unit 'u' := by
  have hall : escapes.all (fun e => unescape e.2 = some e.1 ∧ e.2 ≠ unit 'u') = true := by decide
  intro e he
  exact of_decide_eq_true (List.all_eq_true.1 hall e he)

theorem readString_plain {c : CodeUnit} (hquote : c ≠ unit '"') (hescape : c ≠ unit '\\')
    (hlow : ¬c.val < 0x20) (s : Units) : readString (c :: s) = (readString s).map (push c) := by
  conv_lhs => rw [readString.eq_def]
  simp only [if_neg hquote, if_neg hlow, if_pos hescape]

theorem readString_close (s : Units) : readString (unit '"' :: s) = some ([], s) := by
  rw [readString.eq_def]
  exact if_pos rfl

theorem readString_letter {e c : CodeUnit} (hletter : unescape e = some c) (hu : e ≠ unit 'u')
    (s : Units) : readString (unit '\\' :: e :: s) = (readString s).map (push c) := by
  conv_lhs => rw [readString.eq_def]
  dsimp only
  rw [if_neg (by decide), if_neg (by decide), if_neg (by decide), if_pos hu, hletter,
    Option.bind_some]

theorem readString_hexEscape (c : CodeUnit) (s : Units) :
    readString (hexEscape c ++ s) = (readString s).map (push c) := by
  simp only [hexEscape, List.cons_append, List.nil_append]
  conv_lhs => rw [readString.eq_def]
  dsimp only
  rw [if_neg (by decide), if_neg (by decide), if_neg (by decide), if_neg (by decide),
    readHex_hexEscape, Option.bind_some]

/-- An escaped code unit is read back. -/
theorem readString_escapeUnit (c : CodeUnit) (s : Units) :
    readString (escapeUnit c ++ s) = (readString s).map (push c) := by
  unfold escapeUnit
  -- by a letter, by four digits, or not at all
  cases hfind : OrderedMap.find c escapes with
  | some e =>
      have hmem : (c, e) ∈ escapes := (OrderedMap.find_eq_some_iff (by decide)).1 hfind
      have hread := unescape_escapes _ hmem
      exact readString_letter hread.1 hread.2 s
  | none =>
      dsimp only
      split_ifs with hhex
      · exact readString_hexEscape c s
      · have hquote : c ≠ unit '"' := by
          rintro rfl
          exact absurd hfind (by decide)
        have hescape : c ≠ unit '\\' := by
          rintro rfl
          exact absurd hfind (by decide)
        have hlow : ¬c.val < 0x20 := by
          intro hlow
          simp [hlow] at hhex
        exact readString_plain hquote hescape hlow s

/-- A half of a surrogate pair needs no escape. -/
theorem readString_surrogate {c : CodeUnit} (h : 0xd800 ≤ c.val) (s : Units) :
    readString (c :: s) = (readString s).map (push c) := by
  have hquote : (unit '"').val = 34 := by decide
  have hescape : (unit '\\').val = 92 := by decide
  apply readString_plain
  · rintro rfl
    omega
  · rintro rfl
    omega
  · omega

/-- A string is read up to the quote that closes it. -/
theorem readString_escapeUnits (s rest : Units) :
    readString (escapeUnits s ++ unit '"' :: rest) = some (s, rest) := by
  induction s using escapeUnits.induct with
  | case1 =>
      exact readString_close rest
  | case2 c =>
      rw [escapeUnits, readString_escapeUnit, readString_close]
      rfl
  | case3 c d s hpair ih =>
      -- a pair is written as it is
      have hc : isLead c = true ∧ isTrail d = true := by simpa using hpair
      have hlead : 0xd800 ≤ c.val := by
        have := hc.1
        simp only [isLead, Bool.and_eq_true, decide_eq_true_eq] at this
        exact this.1
      have htrail : 0xd800 ≤ d.val := by
        have := hc.2
        simp only [isTrail, Bool.and_eq_true, decide_eq_true_eq] at this
        omega
      rw [escapeUnits, if_pos hpair, List.cons_append, List.cons_append, readString_surrogate hlead,
        readString_surrogate htrail, ih]
      rfl
  | case4 c d s hpair ih =>
      rw [escapeUnits, if_neg hpair, List.append_assoc, readString_escapeUnit, ih]
      rfl

/-- A string is read from its text. -/
theorem readString_quote (s rest : Units) :
    ∃ t, quote s ++ rest = unit '"' :: t ∧ readString t = some (s, rest) := by
  refine ⟨escapeUnits s ++ unit '"' :: rest, ?_, readString_escapeUnits s rest⟩
  simp [quote]

/-! ## Values -/

theorem readUnit_self (h : isWhite (unit c) = false) (s : Units) :
    readUnit c (unit c :: s) = some s := by
  simp [readUnit, skipWhite, h]

theorem readUnit_ne {d : CodeUnit} (hwhite : isWhite d = false) (hne : d ≠ unit c) (s : Units) :
    readUnit c (d :: s) = none := by
  simp [readUnit, skipWhite, hwhite, hne]

theorem endsNumber_cons {c : CodeUnit} (h : isDigitUnit c = false ∧ c ≠ unit '.' ∧ c ≠ unit 'e' ∧
    c ≠ unit 'E') (s : Units) : EndsNumber (c :: s) := by
  intro d hd
  cases hd
  exact h

/-- A text from which a value is read wherever the text stands; `reads` has fuel for all of it. -/
structure ReadAs (t : Units) (v : JsValue) : Prop where
  starts : ∃ c s, t = c :: s ∧ isWhite c = false ∧ c ≠ unit ']'
  reads : ∀ n rest, EndsNumber rest → 2 * (t ++ rest).length < n →
    readValue n (t ++ rest) = some (v, rest)

theorem parse_of_readAs {t : Units} {v : JsValue} (h : ReadAs t v) : parse t = some v := by
  have hends : EndsNumber [] := fun c hc => by cases hc
  have hread := h.reads (2 * t.length + 1) [] hends (by simp)
  rw [List.append_nil] at hread
  simp [parse, hread, skipWhite]

/-- There is fuel for a first step. -/
theorem ReadAs.of_succ {t : Units} {v : JsValue}
    (hstarts : ∃ c s, t = c :: s ∧ isWhite c = false ∧ c ≠ unit ']')
    (hreads : ∀ n rest, EndsNumber rest → 2 * (t ++ rest).length < n + 1 →
      readValue (n + 1) (t ++ rest) = some (v, rest)) : ReadAs t v where
  starts := hstarts
  reads n rest hends hn := by
    obtain ⟨n, rfl⟩ := Nat.exists_eq_succ_of_ne_zero (Nat.ne_zero_of_lt hn)
    exact hreads n rest hends hn

theorem readAs_null : ReadAs (units "null".toList) .null :=
  .of_succ ⟨_, _, rfl, by decide, by decide⟩ fun _ _ _ _ => rfl

theorem readAs_bool (b : Bool) :
    ReadAs (units (if b then "true" else "false").toList) (.bool b) := by
  cases b with
  | false =>
      exact .of_succ ⟨_, _, rfl, by decide, by decide⟩ fun _ _ _ _ => rfl
  | true =>
      exact .of_succ ⟨_, _, rfl, by decide, by decide⟩ fun _ _ _ _ => rfl

theorem readAs_quote (s : Units) : ReadAs (quote s) (.str s) := by
  refine .of_succ ⟨_, _, rfl, by decide, by decide⟩ fun n rest _ _ => ?_
  rcases readString_quote s rest with ⟨t, ht, hread⟩
  have hwhite : isWhite (unit '"') = false := by decide
  rw [ht, readValue]
  simp [skipWhite, hwhite, hread]

/-- What a number starts with starts nothing else. -/
theorem numberStart {c : CodeUnit} (h : isDigitUnit c = true ∨ c = unit '-') :
    isWhite c = false ∧ c ∉ [']', '"', '[', '\x7b', 'n', 't', 'f'].map unit := by
  rcases h with h | rfl
  · have hnone : ([0x09, 0x0a, 0x0d, 0x20] ++ [']', '"', '[', '\x7b', 'n', 't', 'f'].map unit).all
        (fun d => !isDigitUnit d) = true := by decide
    have hnot : c ∉ [0x09, 0x0a, 0x0d, 0x20] ++
        [']', '"', '[', '\x7b', 'n', 't', 'f'].map unit := by
      intro hm
      have hc := List.all_eq_true.1 hnone c hm
      rw [h] at hc
      cases hc
    rw [List.mem_append, not_or] at hnot
    refine ⟨?_, hnot.2⟩
    simpa [isWhite, and_assoc] using hnot.1
  · exact ⟨by decide, by decide⟩

theorem readAs_number (d : Double) : ReadAs (stringifyNumber (.finite d)) (.num (.finite d)) := by
  rcases exists_stringifyNumber d with ⟨c, t, htext, hc⟩
  have hstart := numberStart hc
  simp only [List.map_cons, List.map_nil, List.mem_cons, not_or, List.not_mem_nil] at hstart
  rcases hstart with ⟨hwhite, hclose, hquote, harr, hobj, hn, ht, hf, -⟩
  refine .of_succ ⟨c, t, htext, hwhite, hclose⟩ fun n rest hrest _ => ?_
  have hread := readNumber_stringify d hrest
  rw [htext, List.cons_append] at hread ⊢
  rw [readValue]
  simp [skipWhite, hwhite, hquote, harr, hobj, hn, ht, hf, hread]

/-! ## Arrays -/

theorem commaJoin_cons {t : Units} {ts : List Units} (hne : ts ≠ []) :
    commaJoin (t :: ts) = t ++ unit ',' :: commaJoin ts := by
  cases ts with
  | nil =>
      exact absurd rfl hne
  | cons u ts =>
      rfl

theorem readMore_comma {α : Type} {read : Units → Option (List α × Units)} {a : α} {s : Units} :
    readMore c read a (unit ',' :: s) = (read s).map fun t => (a :: t.1, t.2) := by
  have hcomma : readUnit ',' (unit ',' :: s) = some s := readUnit_self (by decide) s
  rw [readMore, hcomma]

theorem readMore_close {α : Type} {read : Units → Option (List α × Units)} {a : α} {s : Units}
    (hwhite : isWhite (unit c) = false) (hne : unit c ≠ unit ',') :
    readMore c read a (unit c :: s) = some ([a], s) := by
  rw [readMore, readUnit_ne hwhite hne, readUnit_self hwhite]
  rfl

theorem readClosed_nil {α : Type} {read : Units → Option (List α × Units)} {s : Units}
    (hwhite : isWhite (unit c) = false) : readClosed c read (unit c :: s) = some ([], s) := by
  rw [readClosed, readUnit_self hwhite]

theorem readClosed_of_ne {α : Type} {read : Units → Option (List α × Units)} {d : CodeUnit}
    {s : Units} (hwhite : isWhite d = false) (hne : d ≠ unit c) :
    readClosed c read (d :: s) = read (d :: s) := by
  rw [readClosed, readUnit_ne hwhite hne]

theorem endsNumber_comma (s : Units) : EndsNumber (unit ',' :: s) := endsNumber_cons (by decide) s

/-- A text is read as one part of a list, up to the comma or the closing unit behind it. -/
def ReadsPart {α : Type} (c : Char) (read : ℕ → Units → Option (List α × Units)) (t : Units)
    (a : α) : Prop :=
  ∀ n rest, EndsNumber rest → 2 * (t ++ rest).length < n →
    read (n + 1) (t ++ rest) = readMore c (read n) a rest

/-- Parts joined by commas are read up to the closing unit. -/
theorem read_commaJoin {α : Type} {read : ℕ → Units → Option (List α × Units)}
    (hwhite : isWhite (unit c) = false) (hcomma : unit c ≠ unit ',')
    (hends : ∀ s, EndsNumber (unit c :: s)) {ts : List Units} {as : List α}
    (h : List.Forall₂ (ReadsPart c read) ts as) (hne : ts ≠ []) :
    ∀ n rest, 2 * (commaJoin ts ++ unit c :: rest).length + 1 < n →
      read n (commaJoin ts ++ unit c :: rest) = some (as, rest) := by
  induction h with
  | nil =>
      exact absurd rfl hne
  | @cons t a ts as hread htail ih =>
      intro n rest hn
      obtain ⟨n, rfl⟩ := Nat.exists_eq_succ_of_ne_zero (Nat.ne_zero_of_lt hn)
      cases htail with
      | nil =>
          rw [commaJoin] at hn ⊢
          rw [hread n (unit c :: rest) (hends rest) (by omega)]
          exact readMore_close hwhite hcomma
      | @cons u b ts as _ _ =>
          -- the part ends at its comma, and the others are read from behind it
          rw [commaJoin_cons (List.cons_ne_nil u ts), List.append_assoc, List.cons_append] at hn ⊢
          have hrest := ih (List.cons_ne_nil u ts) n rest (by
            simp only [List.length_append, List.length_cons] at hn ⊢
            omega)
          rw [hread n _ (endsNumber_comma _) (by omega), readMore_comma, hrest, Option.map_some]

theorem readsPart_item {t : Units} {v : JsValue} (h : ReadAs t v) :
    ReadsPart ']' readItems t v := by
  intro n rest hends hn
  rw [readItems, h.reads n rest hends hn, Option.bind_eq_bind, Option.bind_some]

theorem readValue_array (n : ℕ) (s : Units) : readValue (n + 1) (unit '[' :: s) =
    (readClosed ']' (readItems n) s).map fun t => (.arr t.1, t.2) := by
  have hwhite : isWhite (unit '[') = false := by decide
  have hquote : unit '[' ≠ unit '"' := by decide
  rw [readValue]
  simp only [skipWhite, hwhite, hquote, List.dropWhile_cons, Bool.false_eq_true, if_false, if_true]

theorem readAs_array {ts : List Units} {vs : List JsValue} (h : List.Forall₂ ReadAs ts vs) :
    ReadAs (arrayText ts) (.arr vs) := by
  refine .of_succ ⟨_, _, rfl, by decide, by decide⟩ fun n rest _ hn => ?_
  have htext : arrayText ts ++ rest = unit '[' :: (commaJoin ts ++ unit ']' :: rest) := by
    simp [arrayText]
  rw [htext] at hn ⊢
  rw [readValue_array]
  cases h with
  | nil =>
      rw [commaJoin, List.nil_append, readClosed_nil (by decide), Option.map_some]
  | @cons t v ts vs hread htail =>
      -- an item does not start with the closing bracket
      have hopen : readClosed ']' (readItems n) (commaJoin (t :: ts) ++ unit ']' :: rest) =
          readItems n (commaJoin (t :: ts) ++ unit ']' :: rest) := by
        rcases hread.starts with ⟨c, s, rfl, hwhite, hclose⟩
        cases ts with
        | nil =>
            exact readClosed_of_ne hwhite hclose
        | cons u ts =>
            exact readClosed_of_ne hwhite hclose
      have hparts : List.Forall₂ (ReadsPart ']' readItems) (t :: ts) (v :: vs) :=
        (List.Forall₂.cons hread htail).imp fun _ _ => readsPart_item
      have hitems := read_commaJoin (by decide) (by decide) (endsNumber_cons (by decide)) hparts
        (List.cons_ne_nil t ts) n rest (by
          simp only [List.length_cons] at hn
          omega)
      rw [hopen, hitems, Option.map_some]

/-! ## Objects -/

/-- A text stands for a field: the key as it is, and the value. -/
def FieldReadAs (t : Units × Units) (f : Units × JsValue) : Prop := t.1 = f.1 ∧ ReadAs t.2 f.2

/-- One field is read, up to the comma or the brace behind it. -/
theorem readsPart_field {t : Units × Units} {f : Units × JsValue} (h : FieldReadAs t f) :
    ReadsPart '\x7d' readFields (fieldText t) f := by
  intro n rest hends hn
  rcases readString_quote t.1 (unit ':' :: t.2 ++ rest) with ⟨s, hs, hkey⟩
  have htext : fieldText t ++ rest = unit '"' :: s := by
    rw [← hs, fieldText, List.append_assoc]
  have hopen : readUnit '"' (unit '"' :: s) = some s := readUnit_self (by decide) s
  have hcolon : readUnit ':' (unit ':' :: (t.2 ++ rest)) = some (t.2 ++ rest) :=
    readUnit_self (by decide) _
  have hvalue := h.2.reads n rest hends (by
    simp only [fieldText, List.length_append, List.length_cons] at hn ⊢
    omega)
  rw [htext, readFields, hopen]
  simp only [Option.bind_eq_bind, Option.bind_some, hkey, List.cons_append, hcolon, hvalue, h.1]

theorem readValue_object (n : ℕ) (s : Units) : readValue (n + 1) (unit '\x7b' :: s) =
    (readClosed '\x7d' (readFields n) s).map fun t => (.obj (fieldsOf t.1), t.2) := by
  have hwhite : isWhite (unit '\x7b') = false := by decide
  have hquote : unit '\x7b' ≠ unit '"' := by decide
  have harr : unit '\x7b' ≠ unit '[' := by decide
  rw [readValue]
  simp only [skipWhite, hwhite, hquote, harr, List.dropWhile_cons, Bool.false_eq_true, if_false,
    if_true]

theorem readAs_fields {ts : List (Units × Units)} {fs : List (Units × JsValue)}
    (h : List.Forall₂ FieldReadAs ts fs) : ReadAs (objectText ts) (.obj (fieldsOf fs)) := by
  refine .of_succ ⟨_, _, rfl, by decide, by decide⟩ fun n rest _ hfuel => ?_
  have htext : objectText ts ++ rest =
      unit '\x7b' :: (commaJoin (ts.map fieldText) ++ unit '\x7d' :: rest) := by
    simp [objectText]
  rw [htext] at hfuel ⊢
  rw [readValue_object]
  cases h with
  | nil =>
      rw [List.map_nil, commaJoin, List.nil_append, readClosed_nil (by decide), Option.map_some]
  | @cons t f ts fs hread htail =>
      -- a field starts with a quote
      have hopen : readClosed '\x7d' (readFields n)
            (commaJoin ((t :: ts).map fieldText) ++ unit '\x7d' :: rest) =
          readFields n (commaJoin ((t :: ts).map fieldText) ++ unit '\x7d' :: rest) := by
        have hquote : isWhite (unit '"') = false ∧ unit '"' ≠ unit '\x7d' := by decide
        cases ts with
        | nil =>
            exact readClosed_of_ne hquote.1 hquote.2
        | cons u ts =>
            exact readClosed_of_ne hquote.1 hquote.2
      have hparts : List.Forall₂ (ReadsPart '\x7d' readFields) ((t :: ts).map fieldText) (f :: fs) :=
        List.forall₂_map_left_iff.2 ((List.Forall₂.cons hread htail).imp fun _ _ => readsPart_field)
      have hread' := read_commaJoin (by decide) (by decide) (endsNumber_cons (by decide)) hparts
        (by simp) n rest (by
          simp only [List.length_cons] at hfuel
          omega)
      rw [hopen, hread', Option.map_some]

theorem fieldsOf_of_nodup {fs : List (Units × JsValue)} (h : (fs.map Prod.fst).Nodup) :
    fieldsOf fs = fs :=
  @OrderedMap.foldl_put_of_nodup _ _ _ [] fs h

/-- The text of an object of distinct keys. -/
theorem readAs_object {ts : List (Units × Units)} {fs : List (Units × JsValue)}
    (h : List.Forall₂ FieldReadAs ts fs) (hn : (fs.map Prod.fst).Nodup) :
    ReadAs (objectText ts) (.obj fs) := by
  have hread := readAs_fields h
  rwa [fieldsOf_of_nodup hn] at hread

end JsonText

end Library
end GateControl
