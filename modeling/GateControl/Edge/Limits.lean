import Mathlib.Data.List.Induction
import Mathlib.Data.NNRat.Floor
import GateControl.Library.Utf8Pieces

/-!
# Limits — a line of the log, cut to a number of bytes

`truncateUtf8` keeps as much of a text as fits, without cutting a character in two: from the end of
the bytes it steps back over continuation bytes, and the first byte of the last character tells
whether all of it is there.
-/

namespace GateControl
namespace Edge
namespace Limits

open Library Utf8State

/-! ## Cutting bytes -/

/-- The loop over the last bytes; `n` is `i + 1`, and `back` counts the bytes stepped over. -/
def walkBack (buf : Bytes) : Nat → Nat → Nat × Nat
  | 0, back => (0, back)
  | i + 1, back =>
      if back < 4 ∧ (buf[i]?.getD 0) &&& 0xc0 = 0x80 then walkBack buf i (back + 1)
      else (i + 1, back)

/-- The length that the first byte of a character announces. -/
def need (lead : UInt8) : Nat :=
  if lead ≥ 0xf0 then 4 else if lead ≥ 0xe0 then 3 else if lead ≥ 0xc0 then 2 else 1

/-- Cut off an incomplete character at the end. -/
def cutIncomplete (buf : Bytes) : Bytes :=
  match walkBack buf buf.length 0 with
  | (0, _) => buf
  | (i + 1, back) => if need (buf[i]?.getD 0) ≠ back + 1 then buf.take i else buf

def truncateUtf8 (s : Text) (max : ℚ≥0) : Text :=
  if (utf8Bytes s).length ≤ max then s
  -- `subarray` drops the fraction of a limit
  else utf8 (cutIncomplete ((utf8Bytes s).take ⌊max⌋₊))

/-! ## The end of the bytes -/

theorem and_eq_iff (b : UInt8) : b &&& 0xc0 = 0x80 ↔ isContinuation b := by
  have hmask : ∀ n : Fin 256, n.val &&& 0xc0 = 0x80 ↔ 0x80 ≤ n.val ∧ n.val ≤ 0xbf := by
    decide +kernel
  rw [← UInt8.toNat_inj, UInt8.toNat_and]
  exact hmask ⟨b.toNat, b.toNat_lt⟩

/-- From the last of at most four continuation bytes the loop gets to the byte before them. -/
theorem walkBack_char {front tail : Bytes} {first : UInt8} (hfirst : ¬ isContinuation first)
    (htail : ∀ b ∈ tail, isContinuation b) (rest : Bytes) (back : Nat)
    (hback : back + tail.length ≤ 4) :
    walkBack (front ++ first :: (tail ++ rest)) (front.length + 1 + tail.length) back =
      (front.length + 1, back + tail.length) := by
  induction tail using List.reverseRecOn generalizing rest back with
  | nil =>
      have hget : (front ++ first :: ([] ++ rest))[front.length]? = some first := by simp
      rw [List.length_nil, Nat.add_zero, walkBack, hget, Option.getD_some,
        if_neg fun h => hfirst ((and_eq_iff first).1 h.2)]
      rfl
  | append_singleton tail b ih =>
      have hb : isContinuation b := htail b (by simp)
      have hget : (front ++ first :: (tail ++ [b] ++ rest))[front.length + 1 + tail.length]? =
          some b := by
        have hsplit : front ++ first :: (tail ++ [b] ++ rest) =
            (front ++ first :: tail) ++ b :: rest := by simp
        have hindex : front.length + 1 + tail.length = (front ++ first :: tail).length := by
          simp only [List.length_append, List.length_cons]
          omega
        rw [hsplit, hindex, List.getElem?_append_right (Nat.le_refl _), Nat.sub_self]
        rfl
      have hstep : front.length + 1 + (tail ++ [b]).length = front.length + 1 + tail.length + 1 := by
        rw [List.length_append, List.length_singleton]
        rfl
      rw [List.length_append, List.length_singleton] at hback
      have hrest := ih (fun b hb => htail b (by simp [hb])) (b :: rest) (back + 1) (by omega)
      rw [hstep, walkBack, hget, Option.getD_some, if_pos ⟨by omega, (and_eq_iff b).2 hb⟩,
        List.append_assoc, List.singleton_append, hrest, List.length_append, List.length_singleton]
      congr 1
      omega

/-- What is cut off is the beginning of a character that is not whole. -/
theorem cutIncomplete_char {front tail : Bytes} {first : UInt8} (hfirst : ¬ isContinuation first)
    (htail : ∀ b ∈ tail, isContinuation b) (hlength : tail.length ≤ 4) :
    cutIncomplete (front ++ first :: tail) =
      if need first ≠ tail.length + 1 then front else front ++ first :: tail := by
  have hwalk := @walkBack_char front tail first hfirst htail [] 0 (by omega)
  have hindex : (front ++ first :: tail).length = front.length + 1 + tail.length := by
    simp only [List.length_append, List.length_cons]
    omega
  rw [List.append_nil, ← hindex, Nat.zero_add] at hwalk
  have hget : (front ++ first :: tail)[front.length]? = some first := by simp
  rw [cutIncomplete, hwalk]
  simp only [hget, Option.getD_some, List.take_left]

/-! ## Characters -/

theorem need_eq (b : UInt8) : need b =
    if 0xf0 ≤ b.toNat then 4 else if 0xe0 ≤ b.toNat then 3 else if 0xc0 ≤ b.toNat then 2 else 1 := rfl

/-- A first byte with which the decoder waits for more: `need` announces as many. -/
theorem need_of_begin {b : UInt8} {u : Utf8State} (h : begin b.toNat = (u, [])) :
    ¬ isContinuation b ∧ need b = u.needed + 1 ∧ u.needed ≤ 3 := by
  constructor
  · intro hb
    rw [begin_continuation hb] at h
    cases (Prod.mk.inj h).2
  · rw [need_eq]
    unfold begin at h
    split at h
    · cases (Prod.mk.inj h).2
    · split at h
      · obtain ⟨rfl, -⟩ := Prod.mk.inj h
        rw [if_neg (by omega), if_neg (by omega), if_pos (by omega)]
        exact ⟨rfl, by simp⟩
      · split at h
        · obtain ⟨rfl, -⟩ := Prod.mk.inj h
          rw [if_neg (by omega), if_pos (by omega)]
          exact ⟨rfl, by simp⟩
        · split at h
          · obtain ⟨rfl, -⟩ := Prod.mk.inj h
            rw [if_pos (by omega)]
            exact ⟨rfl, by simp⟩
          · cases (Prod.mk.inj h).2

/-- The first byte of a character tells how many follow, and these are continuation bytes. -/
theorem utf8EncodeChar_eq (c : Char) : ∃ first tail, String.utf8EncodeChar c = first :: tail ∧
    ¬ isContinuation first ∧ (∀ b ∈ tail, isContinuation b) ∧ need first = tail.length + 1 ∧
    tail.length ≤ 3 := by
  cases hc : isAscii c with
  | true =>
      have hlow : c.val.toUInt8.toNat ≤ 0x7f := by
        simp only [isAscii, decide_eq_true_eq, Char.toNat] at hc
        rw [UInt32.toNat_toUInt8]
        omega
      refine ⟨c.val.toUInt8, [], utf8EncodeChar_of_ascii hc, fun h => ?_, by simp, ?_,
        Nat.zero_le 3⟩
      · have hge := h.1
        omega
      · rw [need_eq, if_neg (by omega), if_neg (by omega), if_neg (by omega)]
        rfl
  | false =>
      obtain ⟨l⟩ := longChar_of_not_ascii hc
      rcases need_of_begin l.begins with ⟨hfirst, hneed, hle⟩
      rw [l.needed] at hneed hle
      exact ⟨l.first, l.tail, l.bytes_eq, hfirst, l.continuation, hneed, hle⟩

/-- Whole characters stay. -/
theorem cutIncomplete_utf8Bytes (t : Text) : cutIncomplete (utf8Bytes t) = utf8Bytes t := by
  induction t using List.reverseRecOn with
  | nil =>
      rfl
  | append_singleton t c =>
      rcases utf8EncodeChar_eq c with ⟨first, tail, heq, hfirst, htail, hneed, hle⟩
      have hbytes : utf8Bytes (t ++ [c]) = utf8Bytes t ++ first :: tail := by
        rw [utf8Bytes_append, utf8Bytes_cons, heq, utf8Bytes_nil, List.append_nil]
      rw [hbytes, cutIncomplete_char hfirst htail (by omega), if_neg (not_not.2 hneed)]

/-- The beginning of a character goes. -/
theorem cutIncomplete_cut (t : Text) {c : Char} {pre post : Bytes} (h : Cut c pre post) :
    cutIncomplete (utf8Bytes t ++ pre) = utf8Bytes t := by
  rcases utf8EncodeChar_eq c with ⟨first, tail, heq, hfirst, htail, hneed, hle⟩
  cases pre with
  | nil =>
      exact absurd rfl h.pre_ne
  | cons b bs =>
      have hbytes := h.bytes_eq.trans heq
      rw [List.cons_append] at hbytes
      obtain ⟨rfl, rfl⟩ := List.cons.inj hbytes
      have hpost := List.length_pos_of_ne_nil h.post_ne
      rw [List.length_append] at hneed hle
      have hbs : ∀ b ∈ bs, isContinuation b := fun b hb => htail b (List.mem_append_left post hb)
      rw [cutIncomplete_char hfirst hbs (by omega), if_pos (by omega)]

/-! ## The longest beginning that fits -/

/-- A beginning of a text, of whole characters, that fits and that contains every one that fits. -/
structure LongestFit (s : Text) (max : ℚ≥0) (t : Text) : Prop where
  beginning : t <+: s
  fits : (utf8Bytes t).length ≤ max
  longest : ∀ u, u <+: s → (utf8Bytes u).length ≤ max → u <+: t

theorem length_utf8Bytes_mono {t u : Text} (h : t <+: u) :
    (utf8Bytes t).length ≤ (utf8Bytes u).length := by
  obtain ⟨more, rfl⟩ := h
  rw [utf8Bytes_append, List.length_append]
  exact Nat.le_add_right _ _

theorem length_utf8Bytes_append_char (t : Text) (c : Char) :
    (utf8Bytes (t ++ [c])).length = (utf8Bytes t).length + (String.utf8EncodeChar c).length := by
  rw [utf8Bytes_append, List.length_append, utf8Bytes_cons, utf8Bytes_nil, List.append_nil]

/-- A beginning is the longest when the next character does not fit. -/
theorem longestFit_of_next {a b : Text} {c : Char} {max : ℚ≥0} (hfits : (utf8Bytes a).length ≤ max)
    (hnext : max < (utf8Bytes (a ++ [c])).length) : LongestFit (a ++ c :: b) max a := by
  refine ⟨List.prefix_append a (c :: b), hfits, fun u hu hle => ?_⟩
  rcases List.prefix_or_prefix_of_prefix hu (List.prefix_append a (c :: b)) with h | ⟨more, rfl⟩
  · exact h
  · cases more with
    | nil =>
        simp
    | cons d more =>
        -- then it contains that character
        have hd := (List.prefix_append_right_inj a).1 hu
        obtain rfl : d = c := (List.cons_prefix_cons.1 hd).1
        have hlonger : a ++ [d] <+: a ++ d :: more :=
          (List.prefix_append_right_inj a).2 (List.cons_prefix_cons.2 ⟨rfl, List.nil_prefix⟩)
        have hle' : ((utf8Bytes (a ++ [d])).length : ℚ≥0) ≤ max :=
          (Nat.cast_le.2 (length_utf8Bytes_mono hlonger)).trans hle
        exact absurd hnext (not_lt.2 hle')

/-- The text is cut behind the last character that fits. -/
theorem truncateUtf8_longest (s : Text) (max : ℚ≥0) : LongestFit s max (truncateUtf8 s max) := by
  unfold truncateUtf8
  split
  · rename_i hfits
    exact ⟨List.prefix_refl s, hfits, fun u hu _ => hu⟩
  · rename_i hlong
    have hlt : ⌊max⌋₊ < (utf8Bytes s).length := (Nat.floor_lt zero_le).2 (not_le.1 hlong)
    have hfloor : (⌊max⌋₊ : ℚ≥0) ≤ max := Nat.floor_le zero_le
    have htaken : ((utf8Bytes s).take ⌊max⌋₊).length = ⌊max⌋₊ := List.length_take_of_le hlt.le
    rcases pieces_cases (List.take_append_drop ⌊max⌋₊ (utf8Bytes s)) with
      ⟨a, b, rfl, htake, hdrop⟩ | ⟨a, c, b, pre, post, rfl, hcut, htake, hdrop⟩
    · -- the limit is the end of a character
      rw [htake, cutIncomplete_utf8Bytes, utf8_utf8Bytes]
      rw [htake] at htaken
      cases b with
      | nil =>
          rw [List.append_nil, htaken] at hlt
          exact absurd hlt (lt_irrefl _)
      | cons c b =>
          rcases utf8EncodeChar_eq c with ⟨first, tail, heq, _⟩
          refine longestFit_of_next (htaken ▸ hfloor) ((Nat.floor_lt zero_le).1 ?_)
          rw [length_utf8Bytes_append_char, heq, htaken, List.length_cons]
          omega
    · -- it is inside a character
      have hpre := List.length_pos_of_ne_nil hcut.pre_ne
      have hpost := List.length_pos_of_ne_nil hcut.post_ne
      rw [htake, cutIncomplete_cut a hcut, utf8_utf8Bytes]
      rw [htake, List.length_append] at htaken
      have hbefore : (utf8Bytes a).length ≤ ⌊max⌋₊ := by omega
      refine longestFit_of_next ((Nat.cast_le.2 hbefore).trans hfloor)
        ((Nat.floor_lt zero_le).1 ?_)
      rw [length_utf8Bytes_append_char, ← hcut.bytes_eq, List.length_append]
      omega

end Limits
end Edge
end GateControl
