import Mathlib.Data.List.Basic

/-!
# Framing — items in a stream that comes in pieces

A reader keeps what it has not understood yet, appends each new piece to it, and takes items off the
front for as long as there is one.  If it knows each item by its encoding, and waits for the rest of
an encoding that is incomplete, then the items come out as they were written, however the stream has
been cut (`feed_items`).
-/

namespace GateControl
namespace Library

universe u v w

/-- What stands at the front of a buffer. -/
inductive Front (α : Type u) (β : Type v) (ε : Type w)
  | wait
  | error (e : ε)
  | item (p : β) (rest : List α)

namespace Framing

variable {α : Type u} {β : Type v} {ε : Type w}

section Drain

variable (front : List α → Front α β ε)

/-- Take items off the front; `fuel` bounds their number. -/
def drain : Nat → List α → Except ε (List β × List α)
  | 0, buf => .ok ([], buf)
  | fuel + 1, buf =>
      match front buf with
      | .wait => .ok ([], buf)
      | .error e => .error e
      | .item p rest => (drain fuel rest).map fun r => (p :: r.1, r.2)

/-- One more piece of the stream. -/
def push (buf piece : List α) : Except ε (List β × List α) :=
  drain front (buf ++ piece).length (buf ++ piece)

/-- Pieces one after the other, with all that comes out. -/
def feed (buf : List α) : List (List α) → Except ε (List β × List α)
  | [] => .ok ([], buf)
  | piece :: pieces => do
      let first ← push front buf piece
      let more ← feed first.2 pieces
      return (first.1 ++ more.1, more.2)

end Drain

/-- Each item is at least one element of the stream. -/
def Shortens (front : List α → Front α β ε) : Prop :=
  ∀ buf p rest, front buf = .item p rest → rest.length < buf.length

/-- The loop does not end for want of fuel. -/
theorem drain_waits {front : List α → Front α β ε} (hshort : Shortens front)
    (hnothing : front [] = .wait) {fuel : Nat} {buf buf' : List α} {ps : List β}
    (hfuel : buf.length ≤ fuel) (h : drain front fuel buf = .ok (ps, buf')) :
    front buf' = .wait := by
  induction fuel generalizing buf ps with
  | zero =>
      obtain rfl := List.length_eq_zero_iff.1 (Nat.le_zero.1 hfuel)
      cases h
      exact hnothing
  | succ fuel ih =>
      simp only [drain] at h
      cases hfront : front buf with
      | wait =>
          rw [hfront] at h
          cases h
          exact hfront
      | error e =>
          rw [hfront] at h
          cases h
      | item p rest =>
          rw [hfront] at h
          simp only at h
          have hless := hshort buf p rest hfront
          cases hdrain : drain front fuel rest with
          | error e =>
              rw [hdrain] at h
              cases h
          | ok r =>
              rw [hdrain] at h
              cases h
              exact ih (by omega) hdrain

/-- The reader recognises these encodings of the valid items. -/
structure Reads (front : List α → Front α β ε) (encode : β → List α) (valid : β → Prop) : Prop where
  whole : ∀ p, valid p → ∀ more, front (encode p ++ more) = .item p more
  part : ∀ p, valid p → ∀ buf, buf <+: encode p → buf ≠ encode p → front buf = .wait
  nothing : front [] = .wait

variable {front : List α → Front α β ε} {encode : β → List α} {valid : β → Prop}

theorem Reads.encode_ne_nil (h : Reads front encode valid) {p : β} (hp : valid p) :
    encode p ≠ [] := by
  intro hnil
  have hitem := h.whole p hp []
  rw [hnil, List.append_nil, h.nothing] at hitem
  cases hitem

/-- What has come of a sequence of items: some are taken off, and the reader waits for the rest. -/
theorem drain_items (h : Reads front encode valid) {ps : List β} (hps : ∀ p ∈ ps, valid p)
    {fuel : Nat} {buf rest : List α} (hfuel : buf.length ≤ fuel)
    (hbuf : buf ++ rest = ps.flatMap encode) :
    ∃ done left buf', ps = done ++ left ∧ drain front fuel buf = .ok (done, buf') ∧
      buf' ++ rest = left.flatMap encode ∧ front buf' = .wait := by
  induction ps generalizing buf fuel with
  | nil =>
      obtain ⟨rfl, rfl⟩ := List.append_eq_nil_iff.1 hbuf
      refine ⟨[], [], [], rfl, ?_, rfl, h.nothing⟩
      cases fuel with
      | zero =>
          rfl
      | succ fuel =>
          simp only [drain, h.nothing]
  | cons p ps ih =>
      have hp := hps p List.mem_cons_self
      rw [List.flatMap_cons] at hbuf
      rcases List.append_eq_append_iff.1 hbuf with ⟨t, hcut, _⟩ | ⟨t, hmore, hrest⟩
      · by_cases hwhole : buf = encode p
        · -- exactly the first item
          have hne := List.length_pos_of_ne_nil (h.encode_ne_nil hp)
          have hrest : [] ++ rest = ps.flatMap encode := by
            rw [hwhole] at hbuf
            exact List.append_cancel_left hbuf
          cases fuel with
          | zero =>
              rw [hwhole] at hfuel
              omega
          | succ fuel =>
              obtain ⟨done, left, buf', hsplit, hdrain, hleft, hwait⟩ :=
                ih (fun q hq => hps q (List.mem_cons_of_mem p hq)) (Nat.zero_le fuel) hrest
              refine ⟨p :: done, left, buf', by rw [hsplit]; rfl, ?_, hleft, hwait⟩
              have hfront := h.whole p hp []
              rw [List.append_nil] at hfront
              simp only [drain, hwhole, hfront, hdrain]
              rfl
        · -- the first item is not complete
          have hwait := h.part p hp buf ⟨t, hcut.symm⟩ hwhole
          refine ⟨[], p :: ps, buf, rfl, ?_, by rw [hbuf, List.flatMap_cons], hwait⟩
          cases fuel with
          | zero =>
              rfl
          | succ fuel =>
              simp only [drain, hwait]
      · -- more than the first item
        have hne := List.length_pos_of_ne_nil (h.encode_ne_nil hp)
        have hlength := congrArg List.length hmore
        rw [List.length_append] at hlength
        cases fuel with
        | zero =>
            omega
        | succ fuel =>
            obtain ⟨done, left, buf', hsplit, hdrain, hleft, hwait⟩ :=
              ih (fun q hq => hps q (List.mem_cons_of_mem p hq))
                (show t.length ≤ fuel by omega) hrest.symm
            refine ⟨p :: done, left, buf', by rw [hsplit]; rfl, ?_, hleft, hwait⟩
            simp only [drain, hmore, h.whole p hp t, hdrain]
            rfl

/-- However the encodings of some items are cut into pieces, these items come out. -/
theorem feed_items (h : Reads front encode valid) {pieces : List (List α)} {ps : List β}
    (hps : ∀ p ∈ ps, valid p) {buf : List α} (hwait : front buf = .wait)
    (hall : buf ++ pieces.flatten = ps.flatMap encode) : feed front buf pieces = .ok (ps, []) := by
  induction pieces generalizing ps buf with
  | nil =>
      rw [List.flatten_nil, List.append_nil] at hall
      cases ps with
      | nil =>
          rw [hall]
          rfl
      | cons p ps =>
          -- nothing more will come, and yet there is an item
          rw [hall, List.flatMap_cons, h.whole p (hps p List.mem_cons_self)] at hwait
          cases hwait
  | cons piece pieces ih =>
      rw [List.flatten_cons, ← List.append_assoc] at hall
      obtain ⟨done, left, buf', rfl, hdrain, hleft, hwait'⟩ :=
        drain_items h hps (Nat.le_refl _) hall
      have hrest := ih (fun p hp => hps p (List.mem_append_right done hp)) hwait' hleft
      have hpush : push front buf piece = .ok (done, buf') := hdrain
      rw [feed, hpush]
      show (feed front buf' pieces >>= _) = _
      rw [hrest]
      rfl

end Framing

end Library
end GateControl
