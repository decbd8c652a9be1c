import GateControl.Library.Utf8

/-!
# Utf8Pieces — UTF-8 that is decoded piece by piece

A text comes as bytes in several pieces, and each piece is decoded alone.  A piece that ends inside
a character spoils it: what was there is replaced, and each byte that follows as well.  So a text is
read as it was written if and only if no piece ends inside a character, and is longer otherwise.

* `Wording t t'` says that `t'` is `t` with some characters replaced by two or more;
* `decoded_wording` says that pieces of the bytes of a text are read as such a wording;
* `decoded_of_endsWhole` and `decoded_spoilt` say when it is the text itself.
-/

namespace GateControl
namespace Library

open Utf8State

/-! ## The bytes of one character -/

/-- A byte that can only stand inside a character. -/
def isContinuation (b : UInt8) : Prop := 0x80 ≤ b.toNat ∧ b.toNat ≤ 0xbf

/-- The bytes of a character that is not ASCII: the first tells how many follow. -/
structure LongChar (c : Char) where
  first : UInt8
  tail : Bytes
  bytes_eq : String.utf8EncodeChar c = first :: tail
  state : Utf8State
  begins : begin first.toNat = (state, [])
  needed : state.needed = tail.length
  pos : 0 < tail.length
  second : ∀ b ∈ tail.head?, state.lower ≤ b.toNat ∧ b.toNat ≤ state.upper
  continuation : ∀ b ∈ tail, isContinuation b

theorem utf8EncodeChar_of_ascii {c : Char} (h : isAscii c = true) :
    String.utf8EncodeChar c = [c.val.toUInt8] := by
  have hc : c.val.toNat ≤ 0x7f := by
    simp only [isAscii, decide_eq_true_eq, Char.toNat] at h
    omega
  rw [String.utf8EncodeChar, if_pos hc]
  rfl

private theorem toNat_small {n : Nat} (h : n < 256) : (UInt8.ofNat n).toNat = n :=
  UInt8.toNat_ofNat_of_lt' h

private theorem isContinuation_ofNat (n : Nat) : isContinuation (UInt8.ofNat (n % 64 + 128)) := by
  rw [isContinuation, toNat_small (by omega)]
  omega

theorem longChar_of_two {c : Char} (hlarge : ¬c.toNat ≤ 0x7f) (h2 : c.toNat ≤ 0x7ff) :
    Nonempty (LongChar c) := by
  have hval : c.val.toNat = c.toNat := rfl
  generalize c.toNat = v at hval hlarge h2
  refine ⟨⟨UInt8.ofNat (v / 64 % 32 + 192), [UInt8.ofNat (v % 64 + 128)], ?_,
    ⟨1, 0x80, 0xbf, v / 64 % 32 + 192 - 192⟩, ?_, rfl, by simp, ?_, ?_⟩⟩
  · rw [String.utf8EncodeChar]
    simp only [hval]
    rw [if_neg hlarge, if_pos h2]
  · rw [toNat_small (by omega), begin, if_neg (by omega), if_pos (by omega)]
  · intro b hb
    obtain rfl := Option.some.inj hb
    exact isContinuation_ofNat v
  · intro b hb
    obtain rfl := List.mem_singleton.1 hb
    exact isContinuation_ofNat v

/-- The first of three bytes restricts the second one, where the character would be short or a
surrogate. -/
theorem longChar_of_three {c : Char} (h2 : ¬c.toNat ≤ 0x7ff) (h3 : c.toNat ≤ 0xffff) :
    Nonempty (LongChar c) := by
  have hvalid := toNat_valid c
  have hval : c.val.toNat = c.toNat := rfl
  generalize c.toNat = v at hvalid hval h2 h3
  refine ⟨⟨UInt8.ofNat (v / 4096 % 16 + 224),
    [UInt8.ofNat (v / 64 % 64 + 128), UInt8.ofNat (v % 64 + 128)], ?_,
    ⟨2, if v / 4096 % 16 + 224 = 0xe0 then 0xa0 else 0x80,
      if v / 4096 % 16 + 224 = 0xed then 0x9f else 0xbf, v / 4096 % 16 + 224 - 224⟩,
    ?_, rfl, by simp, ?_, ?_⟩⟩
  · rw [String.utf8EncodeChar]
    simp only [hval]
    rw [if_neg (by omega), if_neg h2, if_pos h3]
  · rw [toNat_small (by omega), begin, if_neg (by omega), if_neg (by omega), if_pos (by omega)]
  · intro b hb
    obtain rfl := Option.some.inj hb
    rw [toNat_small (by omega)]
    simp only
    constructor <;> split <;> omega
  · intro b hb
    simp only [List.mem_cons, List.not_mem_nil, or_false] at hb
    rcases hb with rfl | rfl
    · exact isContinuation_ofNat (v / 64)
    · exact isContinuation_ofNat v

/-- So does the first of four, where the character would be short or beyond the last one. -/
theorem longChar_of_four {c : Char} (h3 : ¬c.toNat ≤ 0xffff) : Nonempty (LongChar c) := by
  have hvalid := toNat_valid c
  have hval : c.val.toNat = c.toNat := rfl
  generalize c.toNat = v at hvalid hval h3
  refine ⟨⟨UInt8.ofNat (v / 262144 % 8 + 240),
    [UInt8.ofNat (v / 4096 % 64 + 128), UInt8.ofNat (v / 64 % 64 + 128),
      UInt8.ofNat (v % 64 + 128)], ?_,
    ⟨3, if v / 262144 % 8 + 240 = 0xf0 then 0x90 else 0x80,
      if v / 262144 % 8 + 240 = 0xf4 then 0x8f else 0xbf, v / 262144 % 8 + 240 - 240⟩,
    ?_, rfl, by simp, ?_, ?_⟩⟩
  · rw [String.utf8EncodeChar]
    simp only [hval]
    rw [if_neg (by omega), if_neg (by omega), if_neg h3]
  · rw [toNat_small (by omega), begin, if_neg (by omega), if_neg (by omega),
      if_neg (by omega), if_pos (by omega)]
  · intro b hb
    obtain rfl := Option.some.inj hb
    rw [toNat_small (by omega)]
    simp only
    constructor <;> split <;> omega
  · intro b hb
    simp only [List.mem_cons, List.not_mem_nil, or_false] at hb
    rcases hb with rfl | rfl | rfl
    · exact isContinuation_ofNat (v / 4096)
    · exact isContinuation_ofNat (v / 64)
    · exact isContinuation_ofNat v

/-- A character is ASCII, or its first byte tells how many follow. -/
theorem longChar_of_not_ascii {c : Char} (h : isAscii c = false) : Nonempty (LongChar c) := by
  have hlarge : ¬c.toNat ≤ 0x7f := by
    simp only [isAscii, decide_eq_false_iff_not] at h
    omega
  by_cases h2 : c.toNat ≤ 0x7ff
  · exact longChar_of_two hlarge h2
  · by_cases h3 : c.toNat ≤ 0xffff
    · exact longChar_of_three h2 h3
    · exact longChar_of_four h3

/-! ## Parts of a character -/

theorem begin_continuation {b : UInt8} (h : isContinuation b) :
    begin b.toNat = (idle, [replacement]) := by
  obtain ⟨hlow, hhigh⟩ := h
  rw [begin, if_neg (by omega), if_neg (by omega), if_neg (by omega), if_neg (by omega)]

/-- Without their first byte, the other bytes of a character are replaced one by one. -/
theorem decode_continuations {bs : Bytes} (h : ∀ b ∈ bs, isContinuation b) (more : Bytes) :
    idle.decode (bs ++ more) = List.replicate bs.length replacement ++ idle.decode more := by
  induction bs with
  | nil =>
      rfl
  | cons b bs ih =>
      have hrest := ih fun b hb => h b (List.mem_cons_of_mem _ hb)
      rw [List.cons_append, decode_cons, feed_idle, begin_continuation (h b List.mem_cons_self),
        hrest]
      rfl

/-- A decoder that still waits for bytes at the end of its piece. -/
theorem decode_waiting {u : Utf8State} {bs : Bytes} (hneeded : bs.length < u.needed)
    (hsecond : ∀ b ∈ bs.head?, u.lower ≤ b.toNat ∧ b.toNat ≤ u.upper)
    (hcont : ∀ b ∈ bs, isContinuation b) : u.decode bs = [replacement] := by
  induction bs generalizing u with
  | nil =>
      rw [decode, if_neg (by simp at hneeded; omega)]
  | cons b bs ih =>
      rw [List.length_cons] at hneeded
      obtain ⟨hlower, hupper⟩ := hsecond b rfl
      rw [decode_cons, feed_more (by omega) hlower hupper]
      refine ih (by simp only; omega) ?_ fun b hb => hcont b (List.mem_cons_of_mem _ hb)
      intro b' hb'
      exact hcont b' (List.mem_cons_of_mem _ (List.mem_of_mem_head? hb'))

/-- A part of the bytes of a character that begins and ends inside it. -/
structure Cut (c : Char) (pre post : Bytes) : Prop where
  bytes_eq : pre ++ post = String.utf8EncodeChar c
  pre_ne : pre ≠ []
  post_ne : post ≠ []

namespace Cut

variable {c : Char} {pre post : Bytes} (h : Cut c pre post)

include h

theorem not_ascii : isAscii c = false := by
  cases hc : isAscii c with
  | false =>
      rfl
  | true =>
      have hlength := congrArg List.length (h.bytes_eq.trans (utf8EncodeChar_of_ascii hc))
      have hpre := List.length_pos_of_ne_nil h.pre_ne
      have hpost := List.length_pos_of_ne_nil h.post_ne
      rw [List.length_append, List.length_singleton] at hlength
      omega

/-- The beginning of a character is replaced as one, and what follows are continuation bytes. -/
theorem read : utf8 pre = [replacement] ∧ ∀ b ∈ post, isContinuation b := by
  obtain ⟨l⟩ := longChar_of_not_ascii h.not_ascii
  cases hpre : pre with
  | nil =>
      exact absurd hpre h.pre_ne
  | cons b bs =>
      have heq := h.bytes_eq.trans l.bytes_eq
      rw [hpre, List.cons_append] at heq
      obtain ⟨rfl, htail⟩ := List.cons.inj heq
      have hcont : ∀ b ∈ bs ++ post, isContinuation b := by
        rw [htail]
        exact l.continuation
      refine ⟨?_, fun b hb => hcont b (List.mem_append_right _ hb)⟩
      rw [utf8, decode_cons, feed_idle, l.begins, List.nil_append]
      refine decode_waiting ?_ ?_ fun b hb => hcont b (List.mem_append_left _ hb)
      · have hpost := List.length_pos_of_ne_nil h.post_ne
        rw [l.needed, ← htail, List.length_append]
        omega
      · intro b hb
        apply l.second
        rw [← htail, List.head?_append, Option.mem_def.1 hb]
        rfl

end Cut

/-! ## The beginning of a text -/

@[simp] theorem utf8Bytes_nil : utf8Bytes [] = [] := rfl

theorem utf8Bytes_cons (c : Char) (t : Text) :
    utf8Bytes (c :: t) = String.utf8EncodeChar c ++ utf8Bytes t := rfl

theorem utf8Bytes_append (s t : Text) : utf8Bytes (s ++ t) = utf8Bytes s ++ utf8Bytes t :=
  List.flatMap_append

theorem utf8Bytes_eq_nil {t : Text} (h : utf8Bytes t = []) : t = [] := by
  rw [← utf8_utf8Bytes t, h]
  rfl

theorem decode_utf8Bytes (t : Text) (more : Bytes) :
    utf8 (utf8Bytes t ++ more) = t ++ utf8 more := by
  induction t with
  | nil =>
      rfl
  | cons c t ih =>
      rw [utf8Bytes_cons, List.append_assoc, utf8, decode_utf8EncodeChar]
      exact congrArg (c :: ·) ih

/-- What follows a text in the bytes of a text is the bytes of a text. -/
theorem utf8Bytes_of_append {s t : Text} {more : Bytes} (h : utf8Bytes s ++ more = utf8Bytes t) :
    t = s ++ utf8 more ∧ more = utf8Bytes (utf8 more) := by
  have ht : t = s ++ utf8 more := by
    rw [← decode_utf8Bytes, h, utf8_utf8Bytes]
  refine ⟨ht, ?_⟩
  have hbytes := h
  rw [ht, utf8Bytes_append] at hbytes
  exact List.append_cancel_left hbytes

/-- The bytes of a text, in two pieces: the first ends behind a character or inside one. -/
theorem pieces_cases {t : Text} {x rest : Bytes} (h : x ++ rest = utf8Bytes t) :
    (∃ a b, t = a ++ b ∧ x = utf8Bytes a ∧ rest = utf8Bytes b) ∨
      ∃ a c b pre post, t = a ++ c :: b ∧ Cut c pre post ∧ x = utf8Bytes a ++ pre ∧
        rest = post ++ utf8Bytes b := by
  induction t generalizing x with
  | nil =>
      obtain ⟨rfl, rfl⟩ := List.append_eq_nil_iff.1 h
      exact Or.inl ⟨[], [], rfl, rfl, rfl⟩
  | cons c t ih =>
      rw [utf8Bytes_cons] at h
      rcases List.append_eq_append_iff.1 h with ⟨post, hpost, rfl⟩ | ⟨y, rfl, hy⟩
      · -- the first piece is a part of the first character
        by_cases hx : x = []
        · subst hx
          refine Or.inl ⟨[], c :: t, rfl, rfl, ?_⟩
          rw [utf8Bytes_cons, hpost, List.nil_append]
        · by_cases hp : post = []
          · subst hp
            rw [List.append_nil] at hpost
            refine Or.inl ⟨[c], t, rfl, ?_, rfl⟩
            rw [utf8Bytes_cons, hpost, utf8Bytes_nil, List.append_nil]
          · exact Or.inr ⟨[], c, t, x, post, rfl, ⟨hpost.symm, hx, hp⟩, rfl, rfl⟩
      · -- it goes on behind the first character
        rcases ih hy.symm with ⟨a, b, rfl, rfl, rfl⟩ | ⟨a, d, b, pre, post, rfl, hcut, rfl, rfl⟩
        · exact Or.inl ⟨c :: a, b, rfl, rfl, rfl⟩
        · refine Or.inr ⟨c :: a, d, b, pre, post, rfl, hcut, ?_, rfl⟩
          rw [utf8Bytes_cons, List.append_assoc]

/-! ## Wordings -/

/-- The second text is the first one with some of its characters replaced by two or more. -/
inductive Wording : Text → Text → Prop
  | nil : Wording [] []
  | keep {t t' : Text} (c : Char) : Wording t t' → Wording (c :: t) (c :: t')
  | replace {t t' : Text} (c : Char) (n : Nat) : isAscii c = false → Wording t t' →
      Wording (c :: t) (List.replicate (n + 2) replacement ++ t')

namespace Wording

variable {s s' t t' u : Text}

theorem refl (t : Text) : Wording t t := by
  induction t with
  | nil =>
      exact nil
  | cons c t ih =>
      exact keep c ih

theorem append (hs : Wording s s') (ht : Wording t t') : Wording (s ++ t) (s' ++ t') := by
  induction hs with
  | nil =>
      exact ht
  | keep c _ ih =>
      exact keep c ih
  | replace c n hc _ ih =>
      rw [List.append_assoc]
      exact replace c n hc ih

theorem length_le (h : Wording t t') : t.length ≤ t'.length := by
  induction h with
  | nil =>
      exact Nat.le_refl _
  | keep c _ ih =>
      exact Nat.succ_le_succ ih
  | replace c n _ _ ih =>
      rw [List.length_cons, List.length_append, List.length_replicate]
      omega

theorem split (h : Wording u t') : ∀ s t, u = s ++ t →
    ∃ s₁ t₁, t' = s₁ ++ t₁ ∧ Wording s s₁ ∧ Wording t t₁ := by
  induction h with
  | nil =>
      intro s t hu
      obtain ⟨rfl, rfl⟩ := List.append_eq_nil_iff.1 hu.symm
      exact ⟨[], [], rfl, nil, nil⟩
  | @keep v v' c hv ih =>
      intro s t hu
      cases s with
      | nil =>
          exact ⟨[], c :: v', rfl, nil, (List.nil_append t) ▸ hu ▸ keep c hv⟩
      | cons d s =>
          obtain ⟨rfl, rfl⟩ := List.cons.inj hu
          obtain ⟨s₁, t₁, rfl, hs, ht⟩ := ih s t rfl
          exact ⟨c :: s₁, t₁, rfl, keep c hs, ht⟩
  | @replace v v' c n hc hv ih =>
      intro s t hu
      cases s with
      | nil =>
          exact ⟨[], _, rfl, nil, (List.nil_append t) ▸ hu ▸ replace c n hc hv⟩
      | cons d s =>
          obtain ⟨rfl, rfl⟩ := List.cons.inj hu
          obtain ⟨s₁, t₁, rfl, hs, ht⟩ := ih s t rfl
          exact ⟨List.replicate (n + 2) replacement ++ s₁, t₁, (List.append_assoc ..).symm,
            replace c n hc hs, ht⟩

/-- An ASCII character stays. -/
theorem of_ascii_cons {c : Char} (hc : isAscii c = true) (h : Wording (c :: t) t') :
    ∃ t₁, t' = c :: t₁ ∧ Wording t t₁ := by
  cases h with
  | keep _ ht =>
      exact ⟨_, rfl, ht⟩
  | replace _ n hn _ =>
      rw [hc] at hn
      cases hn

/-- No ASCII character comes in. -/
theorem mem_of_ascii {c : Char} (hc : isAscii c = true) (h : Wording t t') (hm : c ∈ t') :
    c ∈ t := by
  induction h with
  | nil =>
      exact hm
  | keep d _ ih =>
      rcases List.mem_cons.1 hm with rfl | hm
      · exact List.mem_cons_self
      · exact List.mem_cons_of_mem _ (ih hm)
  | replace d n _ _ ih =>
      rcases List.mem_append.1 hm with hm | hm
      · rw [List.eq_of_mem_replicate hm] at hc
        exact absurd hc (by decide)
      · exact List.mem_cons_of_mem _ (ih hm)

end Wording

/-! ## Pieces -/

/-- The bytes of a text, behind the rest of a character whose beginning is gone. -/
theorem decoded_wording {pieces : List Bytes} {rest : Bytes} {t : Text}
    (hrest : ∀ b ∈ rest, isContinuation b) (h : pieces.flatten = rest ++ utf8Bytes t) :
    ∃ t', Wording t t' ∧ pieces.flatMap utf8 = List.replicate rest.length replacement ++ t' := by
  induction pieces generalizing rest t with
  | nil =>
      obtain ⟨rfl, ht⟩ := List.append_eq_nil_iff.1 h.symm
      rw [utf8Bytes_eq_nil ht]
      exact ⟨[], .nil, rfl⟩
  | cons x ps ih =>
      rw [List.flatten_cons] at h
      rcases List.append_eq_append_iff.1 h with ⟨more, rfl, hps⟩ | ⟨y, rfl, hy⟩
      · -- the piece ends before the rest of the character does
        obtain ⟨t', ht', hread⟩ := ih (fun b hb => hrest b (List.mem_append_right _ hb)) hps
        refine ⟨t', ht', ?_⟩
        have hx : utf8 x = List.replicate x.length replacement := by
          have hread := decode_continuations (fun b hb => hrest b (List.mem_append_left more hb)) []
          rw [List.append_nil] at hread
          exact hread.trans (List.append_nil _)
        rw [List.flatMap_cons, hread, hx, List.length_append, List.replicate_add, List.append_assoc]
      · -- the rest of the character is replaced byte by byte
        have hx : utf8 (rest ++ y) = List.replicate rest.length replacement ++ utf8 y :=
          decode_continuations hrest y
        rcases pieces_cases hy.symm with ⟨a, b, rfl, rfl, hps⟩ |
          ⟨a, c, b, pre, post, rfl, hcut, rfl, hps⟩
        · -- the piece ends behind a character
          have hnone : ∀ b ∈ ([] : Bytes), isContinuation b := by simp
          obtain ⟨t', ht', hread⟩ := ih hnone hps
          refine ⟨a ++ t', (Wording.refl a).append ht', ?_⟩
          rw [List.flatMap_cons, hread, hx, utf8_utf8Bytes, List.append_assoc]
          rfl
        · -- the piece ends inside a character
          obtain ⟨hpre, hpost⟩ := hcut.read
          obtain ⟨t', ht', hread⟩ := ih hpost hps
          obtain ⟨n, hn⟩ := Nat.exists_eq_add_of_lt (List.length_pos_of_ne_nil hcut.post_ne)
          refine ⟨a ++ (List.replicate (n + 2) replacement ++ t'),
            (Wording.refl a).append (.replace c n hcut.not_ascii ht'), ?_⟩
          rw [List.flatMap_cons, hread, hx, decode_utf8Bytes, hpre, List.replicate_succ,
            show post.length = n + 1 by omega]
          simp

/-- Each piece that ends in the first part of a text ends behind a character of it. -/
def EndsWhole (sent : Text) (pieces : List Bytes) : Prop :=
  ∀ k, (pieces.take k).flatten.length ≤ (utf8Bytes sent).length →
    ∃ t, (pieces.take k).flatten = utf8Bytes t

theorem endsWhole_cons {a sent : Text} {ps : List Bytes} :
    EndsWhole (a ++ sent) (utf8Bytes a :: ps) ↔ EndsWhole sent ps := by
  constructor
  · intro h k hk
    obtain ⟨t, ht⟩ := h (k + 1) (by
      rw [List.take_succ_cons, List.flatten_cons, utf8Bytes_append, List.length_append,
        List.length_append]
      omega)
    rw [List.take_succ_cons, List.flatten_cons] at ht
    exact ⟨_, (utf8Bytes_of_append ht).2⟩
  · intro h k hk
    cases k with
    | zero =>
        exact ⟨[], rfl⟩
    | succ k =>
        rw [List.take_succ_cons, List.flatten_cons, utf8Bytes_append, List.length_append,
          List.length_append] at hk
        obtain ⟨t, ht⟩ := h k (by omega)
        refine ⟨a ++ t, ?_⟩
        rw [List.take_succ_cons, List.flatten_cons, ht, utf8Bytes_append]

/-- A first piece that goes beyond the first part of the text. -/
theorem endsWhole_of_long {sent : Text} {x : Bytes} {ps : List Bytes}
    (h : (utf8Bytes sent).length < x.length) : EndsWhole sent (x :: ps) := by
  intro k hk
  cases k with
  | zero =>
      exact ⟨[], rfl⟩
  | succ k =>
      rw [List.take_succ_cons, List.flatten_cons, List.length_append] at hk
      omega

/-- Where no piece ends inside a character, the text is read as it was written. -/
theorem decoded_of_endsWhole {pieces : List Bytes} {sent rest : Text}
    (h : pieces.flatten = utf8Bytes (sent ++ rest)) (hwhole : EndsWhole sent pieces) :
    ∃ more, pieces.flatMap utf8 = sent ++ more := by
  induction pieces generalizing sent with
  | nil =>
      have hnil := List.append_eq_nil_iff.1 (utf8Bytes_eq_nil h.symm)
      exact ⟨[], by rw [hnil.1]; rfl⟩
  | cons x ps ih =>
      rw [List.flatten_cons] at h
      by_cases hlong : (utf8Bytes sent).length < x.length
      · -- the piece goes on behind the first part
        rw [utf8Bytes_append] at h
        obtain ⟨y, rfl⟩ : utf8Bytes sent <+: x :=
          List.prefix_of_prefix_length_le ⟨_, rfl⟩ ⟨_, h⟩ (Nat.le_of_lt hlong)
        refine ⟨utf8 y ++ ps.flatMap utf8, ?_⟩
        rw [List.flatMap_cons, decode_utf8Bytes, List.append_assoc]
      · obtain ⟨a, ha⟩ := hwhole 1 (by simpa using Nat.le_of_not_lt hlong)
        obtain rfl : x = utf8Bytes a := by simpa using ha
        -- the piece is a part of the first part
        obtain ⟨hsplit, hps⟩ := utf8Bytes_of_append h
        rcases List.append_eq_append_iff.1 hsplit with ⟨v, rfl, hv⟩ | ⟨sent', rfl, hsent⟩
        · have hv' : v = [] := by
            apply utf8Bytes_eq_nil
            apply List.eq_nil_of_length_eq_zero
            rw [utf8Bytes_append, List.length_append] at hlong
            omega
          rw [hv', List.append_nil]
          refine ⟨ps.flatMap utf8, ?_⟩
          rw [List.flatMap_cons, utf8_utf8Bytes]
        · rw [hsent] at hps
          obtain ⟨more, hmore⟩ := ih hps (endsWhole_cons.1 hwhole)
          refine ⟨more, ?_⟩
          rw [List.flatMap_cons, utf8_utf8Bytes, hmore, List.append_assoc]

/-- A piece that ends inside a character, but not behind the bytes of `sent`, ends inside a
character of `sent`. -/
theorem split_behind {sent rest a b : Text} {c : Char} {pre : Bytes}
    (hsplit : sent ++ rest = a ++ c :: b) (hpre : 0 < pre.length)
    (hshort : ¬(utf8Bytes sent).length < (utf8Bytes a ++ pre).length) :
    ∃ sent₁, sent = a ++ c :: sent₁ ∧ b = sent₁ ++ rest := by
  rw [List.length_append] at hshort
  rcases List.append_eq_append_iff.1 hsplit with ⟨v, rfl, hv⟩ | ⟨v, rfl, hv⟩
  · rw [utf8Bytes_append, List.length_append] at hshort
    omega
  · cases v with
    | nil =>
        rw [List.append_nil] at hshort
        omega
    | cons d v =>
        obtain ⟨rfl, rfl⟩ := List.cons.inj hv
        exact ⟨v, rfl, rfl⟩

/-- Where a piece ends inside a character, the text that is read is longer. -/
theorem decoded_spoilt {pieces : List Bytes} {sent rest : Text}
    (h : pieces.flatten = utf8Bytes (sent ++ rest)) (hwhole : ¬EndsWhole sent pieces) :
    ∃ sent' rest', Wording sent sent' ∧ sent.length < sent'.length ∧
      pieces.flatMap utf8 = sent' ++ rest' := by
  induction pieces generalizing sent with
  | nil =>
      exact absurd (fun k _ => ⟨[], by simp⟩) hwhole
  | cons x ps ih =>
      rw [List.flatten_cons] at h
      have hshort : ¬(utf8Bytes sent).length < x.length := fun hlt => hwhole (endsWhole_of_long hlt)
      rcases pieces_cases h with ⟨a, b, hsplit, rfl, hps⟩ | ⟨a, c, b, pre, post, hsplit, hcut, rfl, hps⟩
      · rcases List.append_eq_append_iff.1 hsplit with ⟨v, rfl, rfl⟩ | ⟨sent₁, rfl, rfl⟩
        · -- nothing of the first part is left
          have hv : v = [] := by
            apply utf8Bytes_eq_nil
            apply List.eq_nil_of_length_eq_zero
            rw [utf8Bytes_append, List.length_append] at hshort
            omega
          subst hv
          rw [List.append_nil] at hwhole
          have hwhole' : ¬EndsWhole [] ps := by
            intro hps
            apply hwhole
            have hall := endsWhole_cons (a := sent).2 hps
            rwa [List.append_nil] at hall
          have hps' : ps.flatten = utf8Bytes ([] ++ b) := hps
          obtain ⟨sent', rest', hnil, hlt, _⟩ := ih hps' hwhole'
          cases hnil
          cases hlt
        · -- the piece ends behind a character of the first part, so a later one is to blame
          obtain ⟨sent', rest', hword, hlt, hread⟩ :=
            ih hps fun hps => hwhole (endsWhole_cons.2 hps)
          refine ⟨a ++ sent', rest', (Wording.refl a).append hword, ?_, ?_⟩
          · rw [List.length_append, List.length_append]
            omega
          · rw [List.flatMap_cons, utf8_utf8Bytes, hread, List.append_assoc]
      · -- a character is cut, and it is one of the first part
        have hpre := List.length_pos_of_ne_nil hcut.pre_ne
        obtain ⟨sent₁, rfl, rfl⟩ := split_behind hsplit hpre hshort
        obtain ⟨hread, hpost⟩ := hcut.read
        obtain ⟨t', ht', hread'⟩ := decoded_wording hpost hps
        obtain ⟨u, rest', rfl, hu, _⟩ := ht'.split _ _ rfl
        obtain ⟨n, hn⟩ := Nat.exists_eq_add_of_lt (List.length_pos_of_ne_nil hcut.post_ne)
        refine ⟨a ++ (List.replicate (n + 2) replacement ++ u), rest',
          (Wording.refl a).append (.replace c n hcut.not_ascii hu), ?_, ?_⟩
        · have hle := hu.length_le
          rw [List.length_append, List.length_append, List.length_append, List.length_replicate,
            List.length_cons]
          omega
        · rw [List.flatMap_cons, decode_utf8Bytes, hread, hread', show post.length = n + 1 by omega,
            List.replicate_succ (n := n + 1)]
          simp

end Library
end GateControl
