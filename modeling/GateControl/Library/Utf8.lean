import GateControl.Library.Bytes

/-!
# Utf8 — text as bytes and back

What is written as UTF-8 is read back as it was.
-/

namespace GateControl
namespace Library

/-- `Buffer.from(s, 'utf8')` -/
def utf8Bytes (s : Text) : Bytes := s.flatMap String.utf8EncodeChar

namespace Utf8State

theorem feed_idle (b : Nat) : idle.feed b = begin b := rfl

/-- The decoder is in the middle of a character and gets the byte it waits for. -/
theorem feed_more {u : Utf8State} {b : Nat} (hneeded : 1 < u.needed) (hlower : u.lower ≤ b)
    (hupper : b ≤ u.upper) :
    u.feed b = (⟨u.needed - 1, 0x80, 0xbf, u.codePoint * 64 + (b - 0x80)⟩, []) := by
  rw [feed, if_neg (by omega), if_pos ⟨hlower, hupper⟩]
  simp only
  rw [if_neg (by omega)]

theorem feed_last {u : Utf8State} {b : Nat} (hneeded : u.needed = 1) (hlower : u.lower ≤ b)
    (hupper : b ≤ u.upper) :
    u.feed b = (idle, [Char.ofNat (u.codePoint * 64 + (b - 0x80))]) := by
  rw [feed, if_neg (by omega), if_pos ⟨hlower, hupper⟩]
  simp only
  rw [if_pos hneeded]

theorem decode_cons (u : Utf8State) (b : UInt8) (bs : Bytes) :
    u.decode (b :: bs) = (u.feed b.toNat).2 ++ (u.feed b.toNat).1.decode bs := rfl

end Utf8State

open Utf8State

private theorem toNat_ofNat {n : Nat} (h : n < 256) : (UInt8.ofNat n).toNat = n :=
  UInt8.toNat_ofNat_of_lt' h

/-- Code points are those below the surrogates and those above. -/
theorem toNat_valid (c : Char) : c.toNat < 0xd800 ∨ 0xdfff < c.toNat ∧ c.toNat < 0x110000 := c.valid

/-- The bytes of one character. -/
theorem decode_utf8EncodeChar (c : Char) (rest : Bytes) :
    idle.decode (String.utf8EncodeChar c ++ rest) = c :: idle.decode rest := by
  have hvalid := toNat_valid c
  have hback : Char.ofNat c.toNat = c := Char.ofNat_toNat c
  have hval : c.val.toNat = c.toNat := rfl
  generalize hv : c.toNat = v at hvalid hback hval
  unfold String.utf8EncodeChar
  simp only [hval]
  split
  · -- one byte
    rename_i h1
    simp only [List.cons_append, List.nil_append, decode_cons, feed_idle]
    have hfirst : begin (UInt8.ofNat v).toNat = (idle, [c]) := by
      rw [toNat_ofNat (n := v) (by omega), begin, if_pos h1, hback]
    rw [hfirst]
    rfl
  · rename_i h1
    split
    · -- two bytes
      rename_i h2
      simp only [List.cons_append, List.nil_append, decode_cons, feed_idle]
      have hfirst : begin (v / 64 % 32 + 192) = (⟨1, 0x80, 0xbf, v / 64⟩, []) := by
        have heq : v / 64 % 32 + 192 - 192 = v / 64 := by omega
        rw [begin, if_neg (by omega), if_pos (by omega), heq]
      rw [toNat_ofNat (by omega), toNat_ofNat (by omega), hfirst]
      simp only
      rw [feed_last rfl (by simp only; omega) (by simp only; omega)]
      simp only [List.nil_append, List.cons_append]
      rw [show v / 64 * 64 + (v % 64 + 128 - 128) = v by omega, hback]
    · rename_i h2
      split
      · -- three bytes
        rename_i h3
        simp only [List.cons_append, List.nil_append, decode_cons, feed_idle]
        have hfirst : begin (v / 4096 % 16 + 224) =
            (⟨2, if v / 4096 = 0 then 0xa0 else 0x80, if v / 4096 = 13 then 0x9f else 0xbf,
              v / 4096⟩, []) := by
          rw [begin, if_neg (by omega), if_neg (by omega), if_pos (by omega)]
          have heq : v / 4096 % 16 + 224 - 224 = v / 4096 := by omega
          have hlow : (v / 4096 % 16 + 224 = 224) = (v / 4096 = 0) := by
            apply propext
            omega
          have hhigh : (v / 4096 % 16 + 224 = 237) = (v / 4096 = 13) := by
            apply propext
            omega
          simp only [heq, hlow, hhigh]
        rw [toNat_ofNat (by omega), toNat_ofNat (by omega), toNat_ofNat (by omega), hfirst]
        simp only
        rw [feed_more (by simp only; omega)
          (by
            simp only
            split <;> omega)
          (by
            simp only
            split <;> omega)]
        simp only
        rw [feed_last rfl (by simp only; omega) (by simp only; omega)]
        simp only [List.nil_append, List.cons_append]
        rw [show (v / 4096 * 64 + (v / 64 % 64 + 128 - 128)) * 64 + (v % 64 + 128 - 128) = v by omega,
          hback]
      · -- four bytes
        rename_i h3
        simp only [List.cons_append, List.nil_append, decode_cons, feed_idle]
        have hfirst : begin (v / 262144 % 8 + 240) =
            (⟨3, if v / 262144 = 0 then 0x90 else 0x80, if v / 262144 = 4 then 0x8f else 0xbf,
              v / 262144⟩, []) := by
          rw [begin, if_neg (by omega), if_neg (by omega), if_neg (by omega), if_pos (by omega)]
          have heq : v / 262144 % 8 + 240 - 240 = v / 262144 := by omega
          have hlow : (v / 262144 % 8 + 240 = 240) = (v / 262144 = 0) := by
            apply propext
            omega
          have hhigh : (v / 262144 % 8 + 240 = 244) = (v / 262144 = 4) := by
            apply propext
            omega
          simp only [heq, hlow, hhigh]
        rw [toNat_ofNat (by omega), toNat_ofNat (by omega), toNat_ofNat (by omega),
          toNat_ofNat (by omega), hfirst]
        simp only
        rw [feed_more (by simp only; omega)
          (by
            simp only
            split <;> omega)
          (by
            simp only
            split <;> omega)]
        simp only
        rw [feed_more (by simp only; omega) (by simp only; omega) (by simp only; omega)]
        simp only
        rw [feed_last rfl (by simp only; omega) (by simp only; omega)]
        simp only [List.nil_append, List.cons_append]
        rw [show ((v / 262144 * 64 + (v / 4096 % 64 + 128 - 128)) * 64 + (v / 64 % 64 + 128 - 128)) * 64 +
          (v % 64 + 128 - 128) = v by omega, hback]

/-- Text is read back as it was written. -/
theorem utf8_utf8Bytes (s : Text) : utf8 (utf8Bytes s) = s := by
  induction s with
  | nil =>
      rfl
  | cons c s ih =>
      rw [utf8, utf8Bytes, List.flatMap_cons, decode_utf8EncodeChar]
      exact congrArg (c :: ·) ih

/-- Text that is written as the same bytes is the same. -/
theorem utf8Bytes_inj {s t : Text} (h : utf8Bytes s = utf8Bytes t) : s = t := by
  rw [← utf8_utf8Bytes s, h, utf8_utf8Bytes]

theorem utf8Bytes_of_ascii {s : Text} (h : ∀ c ∈ s, isAscii c) :
    utf8Bytes s = s.map fun c => c.val.toUInt8 := by
  induction s with
  | nil =>
      rfl
  | cons c s ih =>
      have hc : c.val.toNat ≤ 0x7f := by
        have := h c List.mem_cons_self
        simp only [isAscii, decide_eq_true_eq, Char.toNat] at this
        omega
      rw [utf8Bytes, List.flatMap_cons, String.utf8EncodeChar, if_pos hc, List.map_cons]
      exact congrArg₂ _ rfl (ih fun c hc => h c (List.mem_cons_of_mem _ hc))

theorem length_utf8Bytes_of_ascii {s : Text} (h : ∀ c ∈ s, isAscii c) :
    (utf8Bytes s).length = s.length := by
  rw [utf8Bytes_of_ascii h, List.length_map]

end Library
end GateControl
