import GateControl.Library.Bytes

/-!
# Reading — functions that read a buffer and can give up

A function that takes a message apart returns a value, gives up, or throws; an exception is caught
on the way out.  A read behind the end of the buffer is kept apart from these, whatever the language
makes of it: that it does not happen is what is to be shown.

`Does x o` says that `x` reads inside the buffer and returns what the option has.  It is put
together along `bind`, so a reader is compared with its plain counterpart statement by statement.
-/

namespace GateControl
namespace Library

/-- How a reader ends when it has no value. -/
inductive Stop
  | thrown (message : String)
  /-- It has returned `null`. -/
  | null
  /-- It has asked for a byte that the buffer does not have. -/
  | outside
  deriving DecidableEq

abbrev Reading := Except Stop

namespace Reading

variable {α β : Type}

/-- A read of the buffer. -/
def ofRead : Option α → Reading α
  | some a => .ok a
  | none => .error .outside

def byteAt (buf : Bytes) (i : Nat) : Reading UInt8 := ofRead buf[i]?

def uint16At (buf : Bytes) (i : Nat) : Reading Nat := ofRead (readUInt16BE buf i)

def uint32At (buf : Bytes) (i : Nat) : Reading Nat := ofRead (readUInt32BE buf i)

def throw (message : String) : Reading α := .error (.thrown message)

def null : Reading α := .error .null

/-- `try { … } catch (_e) { return null; }` around a body that can return `null` itself. -/
def orNull : Reading α → Reading (Option α)
  | .ok a => .ok (some a)
  | .error .outside => .error .outside
  | .error _ => .ok none

theorem bind_eq_ok {x : Reading α} {f : α → Reading β} {b : β} :
    x >>= f = .ok b ↔ ∃ a, x = .ok a ∧ f a = .ok b := by
  cases x with
  | ok a => exact ⟨fun h => ⟨a, rfl, h⟩, fun ⟨a', ha, h⟩ => Except.ok.inj ha ▸ h⟩
  | error e => exact ⟨fun h => (by cases h), fun ⟨_, ha, _⟩ => (by cases ha)⟩

/-! ## Readers and plain functions -/

/-- The reader stays inside the buffer and returns what the option has. -/
def Does : Reading α → Option α → Prop
  | .ok a, o => o = some a
  | .error .outside, _ => False
  | .error _, o => o = none

namespace Does

theorem ok (a : α) : Does (.ok a) (some a) := rfl

theorem pure (a : α) : Does (Pure.pure a : Reading α) (some a) := rfl

theorem throw (message : String) : Does (Reading.throw message : Reading α) none := rfl

theorem null : Does (Reading.null : Reading α) none := rfl

theorem of_some {o : Option α} {a : α} (h : o = some a) : Does (ofRead o) o := by
  subst h
  rfl

theorem bind {x : Reading α} {o : Option α} {f : α → Reading β} {g : α → Option β}
    (hx : Does x o) (hf : ∀ a, o = some a → Does (f a) (g a)) : Does (x >>= f) (o >>= g) := by
  match x, hx with
  | .ok a, hx =>
      obtain rfl : o = some a := hx
      exact hf a rfl
  | .error (.thrown _), hx =>
      obtain rfl : o = none := hx
      exact rfl
  | .error .null, hx =>
      obtain rfl : o = none := hx
      exact rfl

theorem ite {c : Prop} [Decidable c] {x y : Reading α} {o p : Option α}
    (hx : c → Does x o) (hy : ¬ c → Does y p) :
    Does (if c then x else y) (if c then o else p) := by
  by_cases hc : c
  · rw [if_pos hc, if_pos hc]
    exact hx hc
  · rw [if_neg hc, if_neg hc]
    exact hy hc

theorem map {x : Reading α} {o : Option α} (hx : Does x o) (f : α → β) :
    Does (f <$> x) (o.map f) := by
  match x, hx with
  | .ok a, hx =>
      obtain rfl : o = some a := hx
      exact rfl
  | .error (.thrown _), hx =>
      obtain rfl : o = none := hx
      exact rfl
  | .error .null, hx =>
      obtain rfl : o = none := hx
      exact rfl

theorem eq_some {x : Reading α} {o : Option α} {a : α} (hx : Does x o) (h : x = .ok a) :
    o = some a := by
  subst h
  exact hx

theorem eq_ok {x : Reading α} {a : α} (hx : Does x (some a)) : x = .ok a := by
  match x, hx with
  | .ok b, hx =>
      obtain rfl : a = b := Option.some.inj hx
      rfl
  | .error (.thrown _), hx => cases hx
  | .error .null, hx => cases hx

/-- Around the whole function exceptions become `null`, and nothing else is left. -/
theorem orNull {x : Reading α} {o : Option α} (hx : Does x o) : x.orNull = .ok o := by
  match x, hx with
  | .ok a, hx =>
      obtain rfl : o = some a := hx
      exact rfl
  | .error (.thrown _), hx =>
      obtain rfl : o = none := hx
      exact rfl
  | .error .null, hx =>
      obtain rfl : o = none := hx
      exact rfl

end Does

/-! ## Readers alone -/

/-- The reader stays inside the buffer. -/
def Inside (x : Reading α) : Prop := x ≠ .error .outside

theorem Does.inside {x : Reading α} {o : Option α} (hx : Does x o) : Inside x := by
  rintro rfl
  exact hx

namespace Inside

theorem bind {x : Reading α} {f : α → Reading β} (hx : Inside x)
    (hf : ∀ a, x = .ok a → Inside (f a)) : Inside (x >>= f) := by
  match x, hx with
  | .ok a, _ => exact hf a rfl
  | .error e, hx => exact fun h => hx (congrArg Except.error (Except.error.inj h))

theorem ite {c : Prop} [Decidable c] {x y : Reading α} (hx : c → Inside x) (hy : ¬ c → Inside y) :
    Inside (if c then x else y) := by
  by_cases hc : c
  · rw [if_pos hc]
    exact hx hc
  · rw [if_neg hc]
    exact hy hc

theorem orNull {x : Reading α} (hx : Inside x) : ∃ o, x.orNull = .ok o := by
  match x, hx with
  | .ok a, _ => exact ⟨some a, rfl⟩
  | .error (.thrown _), _ => exact ⟨none, rfl⟩
  | .error .null, _ => exact ⟨none, rfl⟩
  | .error .outside, hx => exact absurd rfl hx

end Inside

/-! ## Reads in range -/

variable {buf : Bytes} {i : Nat}

theorem byteAt_does (h : i < buf.length) : Does (byteAt buf i) buf[i]? :=
  Does.of_some (List.getElem?_eq_getElem h)

theorem readUInt16BE_isSome (h : i + 2 ≤ buf.length) : ∃ n, readUInt16BE buf i = some n := by
  have hlow : i + 1 < buf.length := h
  exact ⟨_, by rw [readUInt16BE, List.getElem?_eq_getElem (by omega : i < buf.length),
    List.getElem?_eq_getElem hlow]; rfl⟩

theorem uint16At_does (h : i + 2 ≤ buf.length) : Does (uint16At buf i) (readUInt16BE buf i) := by
  obtain ⟨n, hn⟩ := readUInt16BE_isSome h
  exact Does.of_some hn

theorem uint32At_does (h : i + 4 ≤ buf.length) : Does (uint32At buf i) (readUInt32BE buf i) := by
  obtain ⟨hi, hhi⟩ := @readUInt16BE_isSome buf i (by omega)
  obtain ⟨lo, hlo⟩ := @readUInt16BE_isSome buf (i + 2) (by omega)
  have hn : readUInt32BE buf i = some (hi * 65536 + lo) := by
    rw [readUInt32BE, hhi, Option.bind_eq_bind, Option.bind_some, hlo]
    rfl
  exact Does.of_some hn

end Reading

end Library
end GateControl
