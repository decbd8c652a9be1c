import Mathlib.Algebra.GroupWithZero.Nat
import Mathlib.Data.List.Basic
import GateControl.Library.Text

/-!
# Bytes — byte buffers

Buffers as lists of bytes: ranges, decoding to text, and big-endian numbers.  Reading outside the
buffer gives `none`, where the buffers of the host throw.
-/

namespace GateControl
namespace Library

abbrev Bytes := List UInt8

/-- A function that may fail has a result for each element. -/
theorem mapM_eq_some {α β : Type*} {f : α → Option β} {xs : List α} {ys : List β} :
    xs.mapM f = some ys ↔ xs.map f = ys.map some := by
  induction xs generalizing ys with
  | nil =>
      cases ys with
      | nil =>
          simp
      | cons y ys =>
          simp
  | cons x xs ih =>
      simp only [List.mapM_cons, Option.bind_eq_bind, Option.pure_def, Option.bind_eq_some_iff,
        Option.some.injEq, ih]
      cases ys with
      | nil =>
          simp
      | cons y ys =>
          constructor
          · rintro ⟨y', hy, ys', hys, heq⟩
            obtain ⟨rfl, rfl⟩ := List.cons.inj heq
            rw [List.map_cons, hy, hys, List.map_cons]
          · intro h
            obtain ⟨hy, hys⟩ := List.cons.inj h
            exact ⟨y, hy, ys, hys, rfl⟩

theorem exists_mapM {α β : Type*} {f : α → Option β} {xs : List α}
    (h : ∀ x ∈ xs, ∃ y, f x = some y) : ∃ ys, xs.mapM f = some ys := by
  induction xs with
  | nil =>
      exact ⟨[], rfl⟩
  | cons x xs ih =>
      obtain ⟨y, hy⟩ := h x List.mem_cons_self
      obtain ⟨ys, hys⟩ := ih fun x hx => h x (List.mem_cons_of_mem _ hx)
      refine ⟨y :: ys, mapM_eq_some.2 ?_⟩
      rw [List.map_cons, hy, mapM_eq_some.1 hys, List.map_cons]

theorem mem_of_mapM {α β : Type*} {f : α → Option β} {xs : List α} {ys : List β}
    (h : xs.mapM f = some ys) {x : α} (hx : x ∈ xs) : ∃ y ∈ ys, f x = some y := by
  have hmem : f x ∈ ys.map some := mapM_eq_some.1 h ▸ List.mem_map_of_mem hx
  obtain ⟨y, hy, heq⟩ := List.mem_map.1 hmem
  exact ⟨y, hy, heq.symm⟩

/-- What the results measure together is what the elements say about them. -/
theorem sum_of_mapM {α β : Type*} {f : α → Option β} {size : β → Nat} {g : α → Nat}
    (hsize : ∀ x y, f x = some y → size y = g x) {xs : List α} {ys : List β}
    (h : xs.mapM f = some ys) : (ys.map size).sum = (xs.map g).sum := by
  rw [mapM_eq_some] at h
  induction xs generalizing ys with
  | nil =>
      obtain rfl : ys = [] := by simpa using h.symm
      rfl
  | cons x xs ih =>
      cases ys with
      | nil =>
          cases h
      | cons y ys =>
          obtain ⟨hy, hys⟩ := List.cons.inj h
          rw [List.map_cons, List.sum_cons, List.map_cons, List.sum_cons, hsize x y hy, ih hys]

/-! ## Ranges -/

/-- `buf.subarray(s, e)` -/
def slice (buf : Bytes) (s e : Nat) : Bytes := (buf.take e).drop s

theorem length_slice {buf : Bytes} {s e : Nat} (he : e ≤ buf.length) :
    (slice buf s e).length = e - s := by
  simp [slice, Nat.min_eq_left he]

theorem getElem?_slice (buf : Bytes) {s e k : Nat} (hk : s + k < e) :
    (slice buf s e)[k]? = buf[s + k]? := by
  simp [slice, List.getElem?_drop, hk]

theorem slice_append (buf : Bytes) {s m e : Nat} (hsm : s ≤ m) (hme : m ≤ e) :
    slice buf s m ++ slice buf m e = slice buf s e := by
  apply List.ext_getElem?
  intro k
  simp only [slice, List.getElem?_append, List.getElem?_drop, List.getElem?_take,
    List.length_drop, List.length_take]
  grind

/-! ## Decoding -/

def latin1 (bs : Bytes) : Text := bs.map fun b => Char.ofNat b.toNat

/-- The decoder of UTF-8 between two bytes: the continuation bytes still needed, the bounds of the
next one and the code point so far. -/
structure Utf8State where
  needed : Nat
  lower : Nat
  upper : Nat
  codePoint : Nat

namespace Utf8State

def idle : Utf8State := ⟨0, 0x80, 0xbf, 0⟩

def replacement : Char := Char.ofNat 0xfffd

/-- A byte that begins a character. -/
def begin (b : Nat) : Utf8State × Text :=
  if b ≤ 0x7f then (idle, [Char.ofNat b])
  else if 0xc2 ≤ b ∧ b ≤ 0xdf then (⟨1, 0x80, 0xbf, b - 0xc0⟩, [])
  else if 0xe0 ≤ b ∧ b ≤ 0xef then
    (⟨2, if b = 0xe0 then 0xa0 else 0x80, if b = 0xed then 0x9f else 0xbf, b - 0xe0⟩, [])
  else if 0xf0 ≤ b ∧ b ≤ 0xf4 then
    (⟨3, if b = 0xf0 then 0x90 else 0x80, if b = 0xf4 then 0x8f else 0xbf, b - 0xf0⟩, [])
  else (idle, [replacement])

def feed (u : Utf8State) (b : Nat) : Utf8State × Text :=
  if u.needed = 0 then begin b
  else if u.lower ≤ b ∧ b ≤ u.upper then
    let codePoint := u.codePoint * 64 + (b - 0x80)
    if u.needed = 1 then (idle, [Char.ofNat codePoint])
    else (⟨u.needed - 1, 0x80, 0xbf, codePoint⟩, [])
  else
    -- the truncated character is replaced, the byte is read again as a first byte
    let r := begin b
    (r.1, replacement :: r.2)

def decode (u : Utf8State) : Bytes → Text
  | [] => if u.needed = 0 then [] else [replacement]
  | b :: rest =>
      let r := u.feed b.toNat
      r.2 ++ decode r.1 rest

end Utf8State

/-- `toString('utf8')`: malformed sequences become U+FFFD. -/
def utf8 (bs : Bytes) : Text := Utf8State.idle.decode bs

/-- `Buffer.from(s, 'ascii')`: the low byte of each code unit. -/
def asciiBytes (s : Text) : Bytes := (codeUnits s).map fun u => u.toUInt8

theorem utf8_of_ascii {bs : Bytes} (h : ∀ b ∈ bs, b.toNat < 0x80) : utf8 bs = latin1 bs := by
  induction bs with
  | nil =>
      rfl
  | cons b bs ih =>
      have hb : b.toNat ≤ 0x7f := by
        have := h b List.mem_cons_self
        omega
      have hfeed : Utf8State.idle.feed b.toNat = (Utf8State.idle, [Char.ofNat b.toNat]) := by
        rw [Utf8State.feed, if_pos (show Utf8State.idle.needed = 0 from rfl), Utf8State.begin,
          if_pos hb]
      have hrest := ih fun b hb => h b (List.mem_cons_of_mem _ hb)
      simp only [utf8] at hrest
      simp only [utf8, Utf8State.decode, hfeed, hrest]
      rfl

theorem codeUnits_of_ascii {s : Text} (h : ∀ c ∈ s, isAscii c) : codeUnits s = s.map Char.val := by
  induction s with
  | nil =>
      rfl
  | cons c s ih =>
      have hc : c.toNat < 0x10000 := by
        have := h c List.mem_cons_self
        simp only [isAscii, decide_eq_true_eq] at this
        omega
      have hrest := ih fun c hc => h c (List.mem_cons_of_mem _ hc)
      simp only [codeUnits] at hrest ⊢
      rw [List.flatMap_cons, hrest, if_pos hc]
      rfl

theorem length_asciiBytes_eq (s : Text) : (asciiBytes s).length = jsLength s := by
  simp [asciiBytes, jsLength]

theorem length_asciiBytes {s : Text} (h : ∀ c ∈ s, isAscii c) : (asciiBytes s).length = s.length := by
  simp [asciiBytes, codeUnits_of_ascii h]

theorem latin1_asciiBytes {s : Text} (h : ∀ c ∈ s, isAscii c) : latin1 (asciiBytes s) = s := by
  rw [latin1, asciiBytes, codeUnits_of_ascii h, List.map_map, List.map_map]
  conv_rhs => rw [← List.map_id s]
  apply List.map_congr_left
  intro c hc
  have hsmall := h c hc
  simp only [isAscii, decide_eq_true_eq, Char.toNat] at hsmall
  have hval : c.val.toUInt8.toNat = c.toNat := by
    rw [UInt32.toNat_toUInt8, Nat.mod_eq_of_lt (by omega)]
    rfl
  show Char.ofNat c.val.toUInt8.toNat = c
  rw [hval, Char.ofNat_toNat]

theorem asciiBytes_ascii {s : Text} (h : ∀ c ∈ s, isAscii c) : ∀ b ∈ asciiBytes s, b.toNat < 0x80 := by
  intro b hb
  rw [asciiBytes, codeUnits_of_ascii h, List.map_map] at hb
  obtain ⟨c, hc, rfl⟩ := List.mem_map.1 hb
  have hsmall := h c hc
  simp only [isAscii, decide_eq_true_eq, Char.toNat] at hsmall
  simp only [Function.comp_apply, UInt32.toNat_toUInt8]
  omega

/-- ASCII text is read back as it was written. -/
theorem utf8_asciiBytes {s : Text} (h : ∀ c ∈ s, isAscii c) : utf8 (asciiBytes s) = s := by
  rw [utf8_of_ascii (asciiBytes_ascii h), latin1_asciiBytes h]

/-! ## Numbers -/

def readUInt16BE (buf : Bytes) (i : Nat) : Option Nat := do
  let a ← buf[i]?
  let b ← buf[i + 1]?
  pure (a.toNat * 256 + b.toNat)

def readUInt32BE (buf : Bytes) (i : Nat) : Option Nat := do
  let hi ← readUInt16BE buf i
  let lo ← readUInt16BE buf (i + 2)
  pure (hi * 65536 + lo)

/-- Overwrite the bytes from `i` on; the buffer keeps its length. -/
def writeBytes (buf : Bytes) (i : Nat) : Bytes → Bytes
  | [] => buf
  | b :: bs => writeBytes (buf.set i b) (i + 1) bs

/-- The two bytes of a number, the high one first. -/
def uint16BE (n : Nat) : Bytes := [UInt8.ofNat (n / 256), UInt8.ofNat n]

def uint32BE (n : Nat) : Bytes := uint16BE (n / 65536) ++ uint16BE n

def writeUInt16BE (buf : Bytes) (n i : Nat) : Bytes := writeBytes buf i (uint16BE n)

def writeUInt32BE (buf : Bytes) (n i : Nat) : Bytes := writeBytes buf i (uint32BE n)

/-! ## Writing and reading back -/

@[simp] theorem length_writeBytes (buf : Bytes) (i : Nat) (bs : Bytes) :
    (writeBytes buf i bs).length = buf.length := by
  induction bs generalizing buf i with
  | nil =>
      rfl
  | cons b bs ih =>
      simp [writeBytes, ih]

/-- A byte outside the written range is unchanged. -/
theorem getElem?_writeBytes_of_outside (buf : Bytes) {i j : Nat} {bs : Bytes}
    (h : j < i ∨ i + bs.length ≤ j) : (writeBytes buf i bs)[j]? = buf[j]? := by
  induction bs generalizing buf i with
  | nil =>
      rfl
  | cons b bs ih =>
      simp only [List.length_cons] at h
      have hne : i ≠ j := by omega
      rw [writeBytes, ih (buf.set i b) (by omega), List.getElem?_set_ne hne]

theorem getElem?_writeBytes_of_inside (buf : Bytes) {i k : Nat} {bs : Bytes} (hk : k < bs.length)
    (hlen : i + bs.length ≤ buf.length) : (writeBytes buf i bs)[i + k]? = bs[k]? := by
  induction bs generalizing buf i k with
  | nil =>
      simp at hk
  | cons b bs ih =>
      simp only [List.length_cons] at hk hlen
      cases k with
      | zero =>
          have hout : (writeBytes (buf.set i b) (i + 1) bs)[i]? = (buf.set i b)[i]? :=
            getElem?_writeBytes_of_outside _ (by omega)
          simp only [writeBytes, Nat.add_zero, hout]
          rw [List.getElem?_set_self (by omega)]
          rfl
      | succ k =>
          have hrest := ih (buf.set i b) (i := i + 1) (k := k) (by omega) (by simp; omega)
          simpa [writeBytes, Nat.add_assoc, Nat.add_comm 1 k] using hrest

theorem slice_writeBytes (buf : Bytes) {i : Nat} {bs : Bytes} (h : i + bs.length ≤ buf.length) :
    slice (writeBytes buf i bs) i (i + bs.length) = bs := by
  apply List.ext_getElem?
  intro k
  by_cases hk : k < bs.length
  · rw [getElem?_slice _ (by omega)]
    exact getElem?_writeBytes_of_inside buf hk h
  · have hlen : (slice (writeBytes buf i bs) i (i + bs.length)).length = bs.length := by
      rw [length_slice (by simpa using h)]
      omega
    rw [List.getElem?_eq_none (by omega), List.getElem?_eq_none (by omega)]

/-- A range only depends on its bytes. -/
theorem slice_congr {a b : Bytes} {s e : Nat} (h : ∀ j, s ≤ j → j < e → a[j]? = b[j]?) :
    slice a s e = slice b s e := by
  apply List.ext_getElem?
  intro k
  simp only [slice, List.getElem?_drop, List.getElem?_take]
  split
  · exact h (s + k) (by omega) (by omega)
  · rfl

/-- A number only depends on its four bytes. -/
theorem readUInt32BE_congr {a b : Bytes} {i : Nat}
    (h : ∀ j, i ≤ j → j < i + 4 → a[j]? = b[j]?) : readUInt32BE a i = readUInt32BE b i := by
  simp only [readUInt32BE, readUInt16BE]
  rw [h i (by omega) (by omega), h (i + 1) (by omega) (by omega), h (i + 2) (by omega) (by omega),
    h (i + 2 + 1) (by omega) (by omega)]

theorem readUInt32BE_bounds {buf : Bytes} {i n : Nat} (h : readUInt32BE buf i = some n) :
    i + 4 ≤ buf.length ∧ n < 4294967296 := by
  simp only [readUInt32BE, readUInt16BE, Option.bind_eq_bind, Option.bind_eq_some_iff,
    Option.pure_def, Option.some.injEq] at h
  rcases h with ⟨hi, ⟨a, ha, b, hb, rfl⟩, lo, ⟨c, hc, d, hd, rfl⟩, rfl⟩
  have hlen := (List.getElem?_eq_some_iff.1 hd).1
  have := a.toNat_lt
  have := b.toNat_lt
  have := c.toNat_lt
  have := d.toNat_lt
  omega

theorem readUInt32BE_writeUInt32BE (buf : Bytes) {i n : Nat} (hi : i + 4 ≤ buf.length)
    (hn : n < 4294967296) : readUInt32BE (writeUInt32BE buf n i) i = some n := by
  have hget : ∀ k, k < 4 → (writeUInt32BE buf n i)[i + k]? = (uint32BE n)[k]? := by
    intro k hk
    exact getElem?_writeBytes_of_inside buf (by simpa [uint32BE, uint16BE] using hk)
      (by simpa [uint32BE, uint16BE] using hi)
  have h0 := hget 0 (by omega)
  have h1 := hget 1 (by omega)
  have h2 := hget 2 (by omega)
  have h3 := hget 3 (by omega)
  simp only [Nat.add_zero, uint32BE, uint16BE, List.cons_append, List.nil_append,
    List.getElem?_cons_zero, List.getElem?_cons_succ] at h0 h1 h2 h3
  simp only [readUInt32BE, readUInt16BE, h0, h1, Nat.add_assoc, h2, h3, Option.bind_eq_bind,
    Option.bind_some, Option.pure_def, Option.some.injEq, UInt8.toNat_ofNat']
  omega

/-! ## Bytes in their place -/

@[simp] theorem length_uint16BE (n : Nat) : (uint16BE n).length = 2 := rfl

@[simp] theorem length_uint32BE (n : Nat) : (uint32BE n).length = 4 := rfl

/-- Only the low sixteen bits are written. -/
theorem uint16BE_mod (n : Nat) : uint16BE n = uint16BE (n % 65536) := by
  have hhi : UInt8.ofNat (n / 256) = UInt8.ofNat (n % 65536 / 256) := by
    apply UInt8.toNat_inj.1
    simp only [UInt8.toNat_ofNat']
    omega
  have hlo : UInt8.ofNat n = UInt8.ofNat (n % 65536) := by
    apply UInt8.toNat_inj.1
    simp only [UInt8.toNat_ofNat']
    omega
  rw [uint16BE, uint16BE, hhi, hlo]

/-- The bytes `bs` stand in the buffer at `pos`. -/
def BytesAt (buf : Bytes) (pos : Nat) (bs : Bytes) : Prop :=
  ∃ pre post, buf = pre ++ bs ++ post ∧ pre.length = pos

namespace BytesAt

variable {buf a b : Bytes} {pos : Nat}

theorem whole (buf : Bytes) : BytesAt buf 0 buf := ⟨[], [], by simp, rfl⟩

theorem left (h : BytesAt buf pos (a ++ b)) : BytesAt buf pos a := by
  rcases h with ⟨pre, post, rfl, hpos⟩
  exact ⟨pre, b ++ post, by simp, hpos⟩

theorem right (h : BytesAt buf pos (a ++ b)) : BytesAt buf (pos + a.length) b := by
  rcases h with ⟨pre, post, rfl, rfl⟩
  exact ⟨pre ++ a, post, by simp, by simp⟩

/-- Of a row of parts, what is before one of them, the part, and what is behind it. -/
theorem row {as bs : List Bytes} {c : Bytes} (h : BytesAt buf pos (as ++ c :: bs).flatten) :
    BytesAt buf pos as.flatten ∧ BytesAt buf (pos + as.flatten.length) c ∧
      BytesAt buf (pos + as.flatten.length + c.length) bs.flatten := by
  rw [List.flatten_append, List.flatten_cons] at h
  exact ⟨h.left, h.right.left, h.right.right⟩

theorem length_le (h : BytesAt buf pos a) : pos + a.length ≤ buf.length := by
  rcases h with ⟨pre, post, rfl, rfl⟩
  simp only [List.length_append]
  omega

theorem getElem? (h : BytesAt buf pos a) {k : Nat} (hk : k < a.length) : buf[pos + k]? = a[k]? := by
  rcases h with ⟨pre, post, rfl, rfl⟩
  rw [List.append_assoc, List.getElem?_append_right (Nat.le_add_right _ _), Nat.add_sub_cancel_left,
    List.getElem?_append_left hk]

theorem head {x : UInt8} (h : BytesAt buf pos (x :: a)) : buf[pos]? = some x :=
  h.getElem? (k := 0) (by simp)

theorem tail {x : UInt8} (h : BytesAt buf pos (x :: a)) : BytesAt buf (pos + 1) a :=
  h.right (a := [x])

theorem slice_eq (h : BytesAt buf pos a) : slice buf pos (pos + a.length) = a := by
  rcases h with ⟨pre, post, rfl, rfl⟩
  simp [slice, List.take_append]

/-- A range is in its place. -/
theorem of_slice {e : Nat} (hse : pos ≤ e) (he : e ≤ buf.length) :
    BytesAt buf pos (slice buf pos e) := by
  refine ⟨buf.take pos, buf.drop e, ?_, by simp; omega⟩
  have hsplit : buf.take pos ++ slice buf pos e = buf.take e := by
    have htake : (buf.take e).take pos = buf.take pos := by
      rw [List.take_take, Nat.min_eq_left hse]
    rw [slice, ← htake, List.take_append_drop]
  rw [hsplit, List.take_append_drop]

theorem of_getElem? {x : UInt8} (h : buf[pos]? = some x) : BytesAt buf pos [x] := by
  obtain ⟨hlt, rfl⟩ := List.getElem?_eq_some_iff.1 h
  refine ⟨buf.take pos, buf.drop (pos + 1), ?_, by simp; omega⟩
  rw [List.append_assoc, List.singleton_append, List.getElem_cons_drop, List.take_append_drop]

/-- Bytes behind each other. -/
theorem append (ha : BytesAt buf pos a) (hb : BytesAt buf (pos + a.length) b) :
    BytesAt buf pos (a ++ b) := by
  rcases ha with ⟨pre, post, hbuf, hpre⟩
  rcases hb with ⟨pre', post', hbuf', hpre'⟩
  have hlen : (pre ++ a).length = pre'.length := by
    rw [List.length_append, hpre, hpre']
  have hsplit : pre ++ a ++ post = pre' ++ (b ++ post') := by
    rw [← hbuf, hbuf', List.append_assoc]
  obtain ⟨rfl, -⟩ := List.append_inj hsplit hlen
  exact ⟨pre, post', by rw [hbuf', ← List.append_assoc pre], hpre⟩

theorem readUInt16BE (h : BytesAt buf pos a) {n : Nat} (ha : a = uint16BE n) (hn : n < 65536) :
    readUInt16BE buf pos = some n := by
  subst ha
  have h0 := h.getElem? (k := 0) (by simp)
  have h1 := h.getElem? (k := 1) (by simp)
  simp only [uint16BE, Nat.add_zero, List.getElem?_cons_zero, List.getElem?_cons_succ] at h0 h1
  simp only [Library.readUInt16BE, h0, h1, Option.bind_eq_bind, Option.bind_some, Option.pure_def,
    Option.some.injEq, UInt8.toNat_ofNat']
  omega

/-- A number that was read stands there. -/
theorem of_readUInt16BE {n : Nat} (h : Library.readUInt16BE buf pos = some n) :
    n < 65536 ∧ BytesAt buf pos (uint16BE n) := by
  simp only [Library.readUInt16BE, Option.bind_eq_bind, Option.bind_eq_some_iff, Option.pure_def,
    Option.some.injEq] at h
  obtain ⟨x, hx, y, hy, rfl⟩ := h
  have := x.toNat_lt
  have := y.toNat_lt
  have hhi : UInt8.ofNat ((x.toNat * 256 + y.toNat) / 256) = x := by
    apply UInt8.toNat_inj.1
    rw [UInt8.toNat_ofNat']
    omega
  have hlo : UInt8.ofNat (x.toNat * 256 + y.toNat) = y := by
    apply UInt8.toNat_inj.1
    rw [UInt8.toNat_ofNat']
    omega
  refine ⟨by omega, ?_⟩
  rw [uint16BE, hhi, hlo]
  exact (of_getElem? hx).append (of_getElem? hy)

theorem readUInt32BE {n : Nat} (h : BytesAt buf pos (uint32BE n)) (hn : n < 4294967296) :
    readUInt32BE buf pos = some n := by
  have hhi := h.left.readUInt16BE rfl (by omega)
  have hlo : Library.readUInt16BE buf (pos + 2) = some (n % 65536) :=
    h.right.readUInt16BE (uint16BE_mod n) (by omega)
  simp only [Library.readUInt32BE, hhi, hlo, Option.bind_eq_bind, Option.bind_some,
    Option.pure_def, Option.some.injEq]
  omega

end BytesAt

/-- What is read inside of bytes that stand in a buffer. -/
theorem BytesAt.readUInt32BE_add {buf a : Bytes} {pos : Nat} (h : BytesAt buf pos a) {k : Nat}
    (hk : k + 4 ≤ a.length) : Library.readUInt32BE buf (pos + k) = Library.readUInt32BE a k := by
  simp only [Library.readUInt32BE, Library.readUInt16BE, Nat.add_assoc]
  rw [h.getElem? (k := k) (by omega), h.getElem? (k := k + 1) (by omega),
    h.getElem? (k := k + 2) (by omega), h.getElem? (k := k + (2 + 1)) (by omega)]

/-! ## Long numbers -/

def readUInt64BE (buf : Bytes) (i : Nat) : Option Nat := do
  let hi ← readUInt32BE buf i
  let lo ← readUInt32BE buf (i + 4)
  pure (hi * 4294967296 + lo)

def uint64BE (n : Nat) : Bytes := uint32BE (n / 4294967296) ++ uint32BE n

@[simp] theorem length_uint64BE (n : Nat) : (uint64BE n).length = 8 := rfl

theorem readUInt64BE_bounds {buf : Bytes} {i n : Nat} (h : readUInt64BE buf i = some n) :
    i + 8 ≤ buf.length ∧ n < 18446744073709551616 := by
  simp only [readUInt64BE, Option.bind_eq_bind, Option.bind_eq_some_iff, Option.pure_def,
    Option.some.injEq] at h
  obtain ⟨hi, hhi, lo, hlo, rfl⟩ := h
  have := readUInt32BE_bounds hhi
  have := readUInt32BE_bounds hlo
  omega

theorem BytesAt.readUInt64BE_add {buf a : Bytes} {pos : Nat} (h : BytesAt buf pos a) {k : Nat}
    (hk : k + 8 ≤ a.length) : Library.readUInt64BE buf (pos + k) = Library.readUInt64BE a k := by
  rw [Library.readUInt64BE, Library.readUInt64BE, h.readUInt32BE_add (by omega), Nat.add_assoc,
    h.readUInt32BE_add (by omega)]

/-- Only the low thirty-two bits are written. -/
theorem uint32BE_mod (n : Nat) : uint32BE n = uint32BE (n % 4294967296) := by
  have hhi : uint16BE (n / 65536) = uint16BE (n % 4294967296 / 65536) := by
    rw [uint16BE_mod, uint16BE_mod (n % 4294967296 / 65536)]
    congr 1
    omega
  have hlo : uint16BE n = uint16BE (n % 4294967296) := by
    rw [uint16BE_mod, uint16BE_mod (n % 4294967296)]
    congr 1
    omega
  rw [uint32BE, uint32BE, hhi, hlo]

theorem BytesAt.readUInt64BE {buf : Bytes} {pos n : Nat} (h : BytesAt buf pos (uint64BE n))
    (hn : n < 18446744073709551616) : readUInt64BE buf pos = some n := by
  have hhi := BytesAt.readUInt32BE h.left (by omega)
  have hlo : Library.readUInt32BE buf (pos + 4) = some (n % 4294967296) := by
    refine BytesAt.readUInt32BE ?_ (by omega)
    rw [← uint32BE_mod]
    exact h.right
  simp only [Library.readUInt64BE, hhi, hlo, Option.bind_eq_bind, Option.bind_some,
    Option.pure_def, Option.some.injEq]
  omega

/-! ## Signed numbers -/

/-- `writeInt32BE`, for a number that fits -/
def int32BE (n : Int) : Bytes := uint32BE (n % 4294967296).toNat

def readInt32BE (buf : Bytes) (i : Nat) : Option Int :=
  (readUInt32BE buf i).map fun n : Nat => if n < 2147483648 then (n : Int) else (n : Int) - 4294967296

@[simp] theorem length_int32BE (n : Int) : (int32BE n).length = 4 := rfl

theorem BytesAt.readInt32BE {buf : Bytes} {pos : Nat} {n : Int} (h : BytesAt buf pos (int32BE n))
    (hlo : -2147483648 ≤ n) (hhi : n < 2147483648) : readInt32BE buf pos = some n := by
  have hread := BytesAt.readUInt32BE h (by omega)
  rw [Library.readInt32BE, hread, Option.map_some, Option.some.injEq]
  split <;> omega

end Library
end GateControl
