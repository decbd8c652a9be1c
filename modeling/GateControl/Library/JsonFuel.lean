import GateControl.Library.JsonText

/-!
# JsonFuel — the reader has fuel for every text

Each step of the reader leaves a shorter text, so twice the length is fuel enough: more of it reads
the same value, and a text is refused only where it is not JSON.
-/

namespace GateControl
namespace Library
namespace JsonText

/-- What is left is shorter than the text. -/
def Shrinks {α : Type} (r : Option (α × Units)) (s : Units) : Prop :=
  ∀ x ∈ r, x.2.length < s.length

/-- What is left is not longer than the text. -/
def Stays {α : Type} (r : Option (α × Units)) (s : Units) : Prop :=
  ∀ x ∈ r, x.2.length ≤ s.length

theorem Shrinks.map {α β : Type} {r : Option (α × Units)} {s : Units} (h : Shrinks r s)
    {f : α × Units → β × Units} (hf : ∀ x, (f x).2 = x.2) : Shrinks (r.map f) s := by
  intro y hy
  rcases Option.mem_map.1 hy with ⟨x, hx, rfl⟩
  rw [hf]
  exact h x hx

theorem Stays.map {α β : Type} {r : Option (α × Units)} {s : Units} (h : Stays r s)
    {f : α × Units → β × Units} (hf : ∀ x, (f x).2 = x.2) : Stays (r.map f) s := by
  intro y hy
  rcases Option.mem_map.1 hy with ⟨x, hx, rfl⟩
  rw [hf]
  exact h x hx

theorem Shrinks.stays {α : Type} {r : Option (α × Units)} {s : Units} (h : Shrinks r s) :
    Stays r s :=
  fun x hx => (h x hx).le

theorem Shrinks.trans {α : Type} {r : Option (α × Units)} {s t : Units} (h : Shrinks r s)
    (hst : s.length ≤ t.length) : Shrinks r t :=
  fun x hx => (h x hx).trans_le hst

theorem Stays.cons {α : Type} {r : Option (α × Units)} {s : Units} (h : Stays r s) (c : CodeUnit) :
    Shrinks r (c :: s) :=
  fun x hx => Nat.lt_succ_of_le (h x hx)

theorem shrinks_none {α : Type} (s : Units) : Shrinks (none : Option (α × Units)) s :=
  fun _ hx => by cases hx

theorem stays_some {α : Type} (a : α) (s : Units) : Stays (some (a, s)) s := by
  intro x hx
  cases hx
  exact le_rfl

/-! ## Numbers and strings -/

theorem shrinks_readDigits (s : Units) : Shrinks (readDigits s) s := by
  intro x hx
  unfold readDigits at hx
  split_ifs at hx with hnone
  · cases hx
  · cases hx
    have hsum : (s.takeWhile isDigitUnit).length + (s.dropWhile isDigitUnit).length = s.length := by
      rw [← List.length_append, List.takeWhile_append_dropWhile]
    have hpos := List.length_pos_iff.2 hnone
    change (s.dropWhile isDigitUnit).length < s.length
    omega

theorem shrinks_readWhole (s : Units) : Shrinks (readWhole s) s := by
  intro x hx
  rcases Option.mem_bind_iff.1 hx with ⟨y, hy, hyx⟩
  dsimp only at hyx
  split_ifs at hyx
  · cases hyx
  · cases hyx
    exact shrinks_readDigits s y hy

theorem stays_readFraction (s : Units) : Stays (readFraction s) s := by
  cases s with
  | nil =>
      exact stays_some _ _
  | cons c s =>
      rw [readFraction]
      split_ifs
      · exact ((shrinks_readDigits s).stays.cons c).stays
      · exact stays_some _ _

theorem stays_readExponent (s : Units) : Stays (readExponent s) s := by
  cases s with
  | nil =>
      exact stays_some _ _
  | cons c s =>
      rw [readExponent]
      split_ifs
      · cases s with
        | nil =>
            exact (shrinks_none _).stays
        | cons d s =>
            have hrest : Shrinks (readDigits s) (c :: d :: s) :=
              ((shrinks_readDigits s).stays.cons d).stays.cons c
            apply Shrinks.stays
            rw [readSigned]
            split_ifs
            · exact hrest.map fun _ => rfl
            · exact hrest.map fun _ => rfl
            · exact Shrinks.map ((shrinks_readDigits (d :: s)).stays.cons c) fun _ => rfl
      · exact stays_some _ _

theorem shrinks_readMagnitude (s : Units) : Shrinks (readMagnitude s) s := by
  intro x hx
  rcases Option.mem_bind_iff.1 hx with ⟨w, hw, hx⟩
  rcases Option.mem_bind_iff.1 hx with ⟨f, hf, hx⟩
  rcases Option.mem_bind_iff.1 hx with ⟨e, he, hx⟩
  cases hx
  calc e.2.length ≤ f.2.length := stays_readExponent f.2 e he
    _ ≤ w.2.length := stays_readFraction w.2 f hf
    _ < s.length := shrinks_readWhole s w hw

theorem shrinks_readNumber (s : Units) : Shrinks (readNumber s) s := by
  cases s with
  | nil =>
      exact shrinks_none _
  | cons c s =>
      rw [readNumber]
      split_ifs
      · exact Shrinks.map ((shrinks_readMagnitude s).stays.cons c) fun _ => rfl
      · exact (shrinks_readMagnitude (c :: s)).map fun _ => rfl

theorem shrinks_readString (s : Units) : Shrinks (readString s) s := by
  -- the letter behind a backslash, or its four digits, are left out as well
  have hpush : ∀ {s t : Units} (x : CodeUnit), Shrinks (readString s) s → s.length ≤ t.length →
      Shrinks ((readString s).map (push x)) t := by
    intro s t x h hle
    exact Shrinks.map (h.trans hle) fun _ => rfl
  have hbind : ∀ {s t : Units} (y : Option CodeUnit), Shrinks (readString s) s →
      s.length ≤ t.length → Shrinks (y.bind fun x => (readString s).map (push x)) t := by
    intro s t y h hle
    cases y with
    | none =>
        exact shrinks_none _
    | some x =>
        exact hpush x h hle
  induction s using readString.induct with
  | case1 =>
      exact shrinks_none _
  | case2 s =>
      rw [readString.eq_def]
      exact (stays_some _ s).cons _
  | case3 c s hquote hlow =>
      rw [readString.eq_def]
      simp only [if_neg hquote, if_pos hlow]
      exact shrinks_none _
  | case4 c s hquote hlow hescape ih =>
      rw [readString.eq_def]
      simp only [if_neg hquote, if_neg hlow, if_pos hescape]
      exact hpush c ih (Nat.le_succ _)
  | case5 c hquote hlow hescape =>
      rw [readString.eq_def]
      simp only [if_neg hquote, if_neg hlow, if_neg hescape]
      exact shrinks_none _
  | case6 c hquote hlow hescape e s hu ih =>
      rw [readString.eq_def]
      simp only [if_neg hquote, if_neg hlow, if_neg hescape, if_pos hu]
      exact hbind _ ih (by simp only [List.length_cons]; omega)
  | case7 c hquote hlow hescape e hu a b x d s ih =>
      rw [readString.eq_def]
      simp only [if_neg hquote, if_neg hlow, if_neg hescape, if_neg hu]
      exact hbind _ ih (by simp only [List.length_cons]; omega)
  | case8 c hquote hlow hescape e s hu hshort =>
      rw [readString.eq_def]
      simp only [if_neg hquote, if_neg hlow, if_neg hescape, if_neg hu]
      exact shrinks_none _

/-! ## Values -/

theorem length_skipWhite_le (s : Units) : (skipWhite s).length ≤ s.length :=
  (List.dropWhile_suffix isWhite).length_le

theorem length_readUnit {c : Char} {s t : Units} (h : readUnit c s = some t) :
    t.length < s.length := by
  have hle := length_skipWhite_le s
  unfold readUnit at h
  split at h
  · cases h
  · rename_i d u hd
    split_ifs at h
    cases h
    rw [hd, List.length_cons] at hle
    omega

theorem stays_readWord (w : String) (v : JsValue) (s : Units) : Stays (readWord w v s) s := by
  intro x hx
  unfold readWord at hx
  split_ifs at hx
  · cases hx
    exact (List.drop_sublist _ s).length_le
  · cases hx

/-- Behind an element comes a comma with more of them, or what closes them. -/
theorem length_readMore {α : Type} {read : Units → Option (List α × Units)} {a : α} {c : Char}
    {s : Units} (hread : ∀ t, Shrinks (read t) t) {x : List α × Units}
    (hx : x ∈ readMore c read a s) : x.2.length < s.length := by
  unfold readMore at hx
  split at hx
  · rename_i t ht
    rcases Option.mem_map.1 hx with ⟨y, hy, rfl⟩
    exact (hread t y hy).trans (length_readUnit ht)
  · rcases Option.mem_map.1 hx with ⟨t, ht, rfl⟩
    exact length_readUnit ht

theorem stays_readClosed {α : Type} {read : Units → Option (List α × Units)} {c : Char} {s : Units}
    (hread : Shrinks (read s) s) : Stays (readClosed c read s) s := by
  intro x hx
  unfold readClosed at hx
  split at hx
  · rename_i t ht
    cases hx
    exact (length_readUnit ht).le
  · exact (hread x hx).le

/-- What follows a value, items or fields is shorter than the text they were read from. -/
theorem shrinks_read (n : ℕ) : (∀ s, Shrinks (readValue n s) s) ∧ (∀ s, Shrinks (readItems n s) s) ∧
    ∀ s, Shrinks (readFields n s) s := by
  induction n with
  | zero =>
      exact ⟨shrinks_none, shrinks_none, shrinks_none⟩
  | succ n ih =>
      rcases ih with ⟨ihv, ihi, ihf⟩
      refine ⟨fun s => ?_, fun s => ?_, fun s => ?_⟩
      · have hle := length_skipWhite_le s
        rw [readValue]
        split
        · exact shrinks_none _
        · rename_i c t hct
          rw [hct] at hle
          -- every value starts with `c`, and is read from what follows it or from there on
          have htrans : ∀ {r : Option (JsValue × Units)}, Stays r t → Shrinks r s :=
            fun h => (h.cons c).trans hle
          split_ifs
          · apply htrans
            exact Stays.map (shrinks_readString t).stays fun _ => rfl
          · apply htrans
            exact Stays.map (stays_readClosed (ihi t)) fun _ => rfl
          · apply htrans
            exact Stays.map (stays_readClosed (ihf t)) fun _ => rfl
          · exact htrans (stays_readWord _ _ t)
          · exact htrans (stays_readWord _ _ t)
          · exact htrans (stays_readWord _ _ t)
          · exact Shrinks.map ((shrinks_readNumber (c :: t)).trans hle) fun _ => rfl
      · rw [readItems]
        intro x hx
        rcases Option.mem_bind_iff.1 hx with ⟨y, hy, hyx⟩
        exact (length_readMore ihi hyx).trans (ihv s y hy)
      · rw [readFields]
        intro x hx
        rcases Option.mem_bind_iff.1 hx with ⟨t, ht, hx⟩
        rcases Option.mem_bind_iff.1 hx with ⟨k, hk, hx⟩
        rcases Option.mem_bind_iff.1 hx with ⟨u, hu, hx⟩
        rcases Option.mem_bind_iff.1 hx with ⟨y, hy, hyx⟩
        calc x.2.length < y.2.length := length_readMore ihf hyx
          _ < u.length := ihv u y hy
          _ < k.2.length := length_readUnit hu
          _ < t.length := shrinks_readString t k hk
          _ < s.length := length_readUnit ht

/-! ## Fuel -/

theorem readClosed_congr {α : Type} {read read' : Units → Option (List α × Units)} (c : Char)
    {s : Units} (h : read s = read' s) : readClosed c read s = readClosed c read' s := by
  unfold readClosed
  rw [h]

theorem readMore_congr {α : Type} {read read' : Units → Option (List α × Units)} (c : Char) (a : α)
    {s : Units} (h : ∀ t, t.length < s.length → read t = read' t) :
    readMore c read a s = readMore c read' a s := by
  cases hcomma : readUnit ',' s with
  | none =>
      simp only [readMore, hcomma]
  | some t =>
      simp only [readMore, hcomma, h t (length_readUnit hcomma)]

/-- Fuel beyond twice the length changes nothing. -/
theorem read_fuel (n : ℕ) :
    (∀ s, 2 * s.length < n → readValue (n + 1) s = readValue n s) ∧
      (∀ s, 2 * s.length + 1 < n → readItems (n + 1) s = readItems n s) ∧
      ∀ s, 2 * s.length + 1 < n → readFields (n + 1) s = readFields n s := by
  -- each call leaves a shorter text, so that the fuel for it lasts as well
  induction n with
  | zero =>
      refine ⟨?_, ?_, ?_⟩ <;> intro s hs <;> omega
  | succ n ih =>
      rcases ih with ⟨ihv, ihi, ihf⟩
      refine ⟨fun s hs => ?_, fun s hs => ?_, fun s hs => ?_⟩
      · have hle := length_skipWhite_le s
        rw [readValue, readValue]
        cases hct : skipWhite s with
        | nil =>
            rfl
        | cons c t =>
            rw [hct, List.length_cons] at hle
            have hitems := readClosed_congr ']' (ihi t (by omega))
            have hfields := readClosed_congr '\x7d' (ihf t (by omega))
            simp only [hitems, hfields]
      · rw [readItems, readItems, ihv s (by omega)]
        apply Option.bind_congr
        intro x hx
        have hlt := (shrinks_read n).1 s x hx
        exact readMore_congr _ _ fun t ht => ihi t (by omega)
      · rw [readFields, readFields]
        apply Option.bind_congr
        intro t ht
        apply Option.bind_congr
        intro k hk
        apply Option.bind_congr
        intro u hu
        have hut : u.length < s.length := by
          calc u.length
              < k.2.length := length_readUnit hu
            _ < t.length := shrinks_readString t k hk
            _ < s.length := length_readUnit ht
        rw [ihv u (by omega)]
        apply Option.bind_congr
        intro x hx
        have hlt := (shrinks_read n).1 u x hx
        exact readMore_congr _ _ fun t ht => ihf t (by omega)

/-- The reader has fuel for every text. -/
theorem readValue_fuel {n : ℕ} {s : Units} (h : 2 * s.length < n) :
    readValue n s = readValue (2 * s.length + 1) s := by
  induction n, h using Nat.le_induction with
  | base =>
      rfl
  | succ n hn ih =>
      rw [(read_fuel n).1 s hn, ih]

end JsonText
end Library
end GateControl
