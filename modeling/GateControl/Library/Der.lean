import Mathlib.Data.Nat.Digits.Lemmas
import GateControl.Library.Bytes

/-!
# Der — values as DER writes them

A value is a tag, the length of its content, and the content: bytes, or values one after the other.
A length is written as short as it can be.  What has been written is read back (`read_encode`), as
long as the length itself fits into the 126 bytes that DER has for it.

Numbers and object identifiers stand with the highest digit first; an arc of an identifier has seven
bits in each byte, and all bytes but its last one are marked.
-/

namespace GateControl
namespace Library
namespace Der

/-! ## Digits -/

/-- The digits of a number, the highest one first. -/
def bigEndian (base n : Nat) : List Nat := (Nat.digits base n).reverse

def ofBigEndian (base : Nat) (ds : List Nat) : Nat := ds.foldl (fun n d => n * base + d) 0

theorem ofBigEndian_bigEndian (base n : Nat) : ofBigEndian base (bigEndian base n) = n := by
  have hstep : (fun (d n : Nat) => n * base + d) = fun d n => d + base * n := by
    funext d n
    rw [Nat.mul_comm, Nat.add_comm]
  calc ofBigEndian base (bigEndian base n)
      = (Nat.digits base n).foldr (fun d n => n * base + d) 0 := List.foldl_reverse
    _ = Nat.ofDigits base (Nat.digits base n) := by
        rw [Nat.ofDigits_eq_foldr, hstep]
        rfl
    _ = n := Nat.ofDigits_digits base n

theorem lt_of_mem_bigEndian {base n d : Nat} (hbase : 1 < base) (h : d ∈ bigEndian base n) :
    d < base :=
  Nat.digits_lt_base hbase (List.mem_reverse.1 h)

theorem length_bigEndian (base n : Nat) :
    (bigEndian base n).length = (Nat.digits base n).length := List.length_reverse

theorem bigEndian_ne_nil {base n : Nat} (hn : n ≠ 0) : bigEndian base n ≠ [] := by
  rw [bigEndian, Ne, List.reverse_eq_nil_iff]
  exact Nat.digits_ne_nil_iff_ne_zero.2 hn

/-- There is no zero before the first digit that counts. -/
theorem head?_bigEndian (base n : Nat) : (bigEndian base n).head? ≠ some 0 := by
  intro h
  by_cases hn : n = 0
  · rw [hn, bigEndian, Nat.digits_zero] at h
    cases h
  · have hne := Nat.digits_ne_nil_iff_ne_zero (b := base).2 hn
    rw [bigEndian, List.head?_reverse, List.getLast?_eq_some_getLast hne] at h
    exact Nat.getLast_digit_ne_zero base hn (Option.some.inj h)

theorem foldl_bounds {base : Nat} {ds : List Nat} (hds : ∀ d ∈ ds, d < base) (n : Nat) :
    n * base ^ ds.length ≤ ds.foldl (fun n d => n * base + d) n ∧
      ds.foldl (fun n d => n * base + d) n < (n + 1) * base ^ ds.length := by
  induction ds generalizing n with
  | nil =>
      simp
  | cons d ds ih =>
      have hd := hds d List.mem_cons_self
      obtain ⟨hlow, hhigh⟩ := ih (fun x hx => hds x (List.mem_cons_of_mem _ hx)) (n * base + d)
      rw [List.foldl_cons, List.length_cons, Nat.pow_succ']
      constructor
      · calc n * (base * base ^ ds.length)
            = n * base * base ^ ds.length := (Nat.mul_assoc _ _ _).symm
          _ ≤ (n * base + d) * base ^ ds.length := Nat.mul_le_mul_right _ (Nat.le_add_right _ _)
          _ ≤ _ := hlow
      · calc ds.foldl (fun n d => n * base + d) (n * base + d)
            < (n * base + d + 1) * base ^ ds.length := hhigh
          _ ≤ ((n + 1) * base) * base ^ ds.length := by
              refine Nat.mul_le_mul_right _ ?_
              rw [Nat.succ_mul]
              omega
          _ = (n + 1) * (base * base ^ ds.length) := Nat.mul_assoc _ _ _

/-- The first digit says how large a number is. -/
theorem ofBigEndian_cons_bounds {base d : Nat} {ds : List Nat} (hds : ∀ d ∈ ds, d < base) :
    d * base ^ ds.length ≤ ofBigEndian base (d :: ds) ∧
      ofBigEndian base (d :: ds) < (d + 1) * base ^ ds.length := by
  have h := foldl_bounds hds (0 * base + d)
  rw [Nat.zero_mul, Nat.zero_add] at h
  rw [ofBigEndian, List.foldl_cons, Nat.zero_mul, Nat.zero_add]
  exact h

theorem toNat_map_ofNat {ds : List Nat} (h : ∀ d ∈ ds, d < 256) :
    (ds.map UInt8.ofNat).map UInt8.toNat = ds := by
  rw [List.map_map]
  calc ds.map (UInt8.toNat ∘ UInt8.ofNat)
      = ds.map id := List.map_congr_left fun d hd => by
        rw [Function.comp_apply, UInt8.toNat_ofNat', Nat.mod_eq_of_lt (h d hd), id]
    _ = ds := List.map_id ds

/-! ## Lengths -/

theorem or_eq_add {n : Nat} (hn : n < 0x80) : 0x80 ||| n = 0x80 + n :=
  (Nat.two_pow_add_eq_or_of_lt (i := 7) hn 1).symm

def lengthBytes (n : Nat) : Bytes :=
  if n < 0x80 then [UInt8.ofNat n]
  else UInt8.ofNat (0x80 ||| (bigEndian 256 n).length) :: (bigEndian 256 n).map UInt8.ofNat

/-- The lengths that can be written. -/
def Fits (n : Nat) : Prop := n < 256 ^ 126

instance (n : Nat) : Decidable (Fits n) := inferInstanceAs (Decidable (_ < _))

/-- A length and what follows it; none where it could be shorter. -/
def readLength : Bytes → Option (Nat × Bytes)
  | [] => none
  | b :: s =>
      if b.toNat < 0x80 then some (b.toNat, s)
      else
        let ds := (s.take (b.toNat - 0x80)).map UInt8.toNat
        let n := ofBigEndian 256 ds
        if b ≠ 0xff ∧ ds.length = b.toNat - 0x80 ∧ ds.head? ≠ some 0 ∧ 0x80 ≤ n then
          some (n, s.drop (b.toNat - 0x80))
        else none

theorem readLength_lengthBytes {n : Nat} (hn : Fits n) (s : Bytes) :
    readLength (lengthBytes n ++ s) = some (n, s) := by
  unfold lengthBytes
  by_cases hshort : n < 0x80
  · rw [if_pos hshort]
    have hbyte : (UInt8.ofNat n).toNat = n := by
      rw [UInt8.toNat_ofNat']
      omega
    rw [List.singleton_append, readLength, hbyte, if_pos hshort]
  · rw [if_neg hshort]
    have hds : ∀ d ∈ bigEndian 256 n, d < 256 := fun d => lt_of_mem_bigEndian (by decide)
    have hlength : (bigEndian 256 n).length ≤ 126 := by
      rw [length_bigEndian]
      exact (Nat.digits_length_le_iff (by decide) n).2 hn
    have hbyte : (UInt8.ofNat (0x80 ||| (bigEndian 256 n).length)).toNat =
        0x80 + (bigEndian 256 n).length := by
      rw [or_eq_add (by omega), UInt8.toNat_ofNat']
      omega
    have hlong : ¬0x80 + (bigEndian 256 n).length < 0x80 := by omega
    have hnot : UInt8.ofNat (0x80 ||| (bigEndian 256 n).length) ≠ 0xff := by
      intro h
      rw [h] at hbyte
      have : (0xff : UInt8).toNat = 255 := rfl
      omega
    rw [List.cons_append, readLength, hbyte, if_neg hlong, Nat.add_sub_cancel_left]
    have htake : ((bigEndian 256 n).map UInt8.ofNat ++ s).take (bigEndian 256 n).length =
        (bigEndian 256 n).map UInt8.ofNat := List.take_left' (List.length_map _)
    have hdrop : ((bigEndian 256 n).map UInt8.ofNat ++ s).drop (bigEndian 256 n).length = s :=
      List.drop_left' (List.length_map _)
    simp only [htake, hdrop, toNat_map_ofNat hds, ofBigEndian_bigEndian]
    rw [if_pos ⟨hnot, trivial, head?_bigEndian 256 n, Nat.le_of_not_lt hshort⟩]

/-! ## Values -/

/-- The class of a tag and its number. -/
structure Tag where
  cls : Fin 4
  number : Fin 31
deriving DecidableEq

def Tag.byte (tag : Tag) (items : Bool) : UInt8 :=
  UInt8.ofNat (64 * tag.cls.val + (if items then 32 else 0) + tag.number.val)

def readTag (b : UInt8) : Option (Bool × Tag) :=
  if h : b.toNat % 32 < 31 then
    some (b.toNat / 32 % 2 = 1, ⟨⟨b.toNat / 64, by have := b.toNat_lt; omega⟩, ⟨b.toNat % 32, h⟩⟩)
  else none

theorem readTag_byte (tag : Tag) (items : Bool) : readTag (tag.byte items) = some (items, tag) := by
  obtain ⟨⟨c, hc⟩, ⟨n, hn⟩⟩ := tag
  have hbyte : (Tag.byte ⟨⟨c, hc⟩, ⟨n, hn⟩⟩ items).toNat =
      64 * c + (if items then 32 else 0) + n := by
    rw [Tag.byte, UInt8.toNat_ofNat']
    cases items <;> simp <;> omega
  have hnumber : (64 * c + (if items then 32 else 0) + n) % 32 = n := by
    cases items <;> simp <;> omega
  have hcls : (64 * c + (if items then 32 else 0) + n) / 64 = c := by
    cases items <;> simp <;> omega
  have hitems : decide ((64 * c + (if items then 32 else 0) + n) / 32 % 2 = 1) = items := by
    cases items <;> simp <;> omega
  simp only [readTag, hbyte, hnumber, hcls, hitems, dif_pos hn]

inductive Value
  | bytes (tag : Tag) (content : Bytes)
  | items (tag : Tag) (vs : List Value)

def tlv (b : UInt8) (content : Bytes) : Bytes := b :: (lengthBytes content.length ++ content)

mutual

def Value.encode : Value → Bytes
  | .bytes tag content => tlv (tag.byte false) content
  | .items tag vs => tlv (tag.byte true) (encodeAll vs)

def encodeAll : List Value → Bytes
  | [] => []
  | v :: vs => v.encode ++ encodeAll vs

end

/-- Values until the end; the number bounds how deep and how many they are. -/
def readAll : Nat → Bytes → Option (List Value)
  | _, [] => some []
  | 0, _ :: _ => none
  | k + 1, b :: s =>
      (readTag b).bind fun (items, tag) =>
        (readLength s).bind fun (n, s) =>
          if n ≤ s.length then
            (if items then (readAll k (s.take n)).map (Value.items tag)
              else some (.bytes tag (s.take n))).bind fun v =>
                (readAll k (s.drop n)).map (v :: ·)
          else none

/-- One value and nothing else. -/
def read (s : Bytes) : Option Value :=
  match readAll s.length s with
  | some [v] => some v
  | _ => none

theorem readAll_tlv {k : Nat} {tag : Tag} {items : Bool} {content s : Bytes}
    (hfits : Fits content.length) :
    readAll (k + 1) (tlv (tag.byte items) content ++ s) =
      (if items then (readAll k content).map (Value.items tag)
        else some (.bytes tag content)).bind fun v => (readAll k s).map (v :: ·) := by
  have hroom : content.length ≤ (content ++ s).length := by
    rw [List.length_append]
    exact Nat.le_add_right _ _
  rw [tlv, List.cons_append, readAll, readTag_byte, Option.bind_some, List.append_assoc]
  simp only [readLength_lengthBytes hfits, Option.bind_some, if_pos hroom, List.take_left,
    List.drop_left]

theorem length_lt_tlv (b : UInt8) (content : Bytes) : content.length < (tlv b content).length := by
  rw [tlv, List.length_cons, List.length_append]
  omega

/-- The bytes have room for the values: each one takes at least its tag. -/
theorem readAll_encodeAll {k : Nat} {vs : List Value} (hk : (encodeAll vs).length ≤ k)
    (hfits : Fits (encodeAll vs).length) : readAll k (encodeAll vs) = some vs := by
  induction k generalizing vs with
  | zero =>
      cases vs with
      | nil =>
          rfl
      | cons v vs =>
          cases v <;> cases hk
  | succ k ih =>
      cases vs with
      | nil =>
          rfl
      | cons v vs =>
          rw [encodeAll, List.length_append] at hk hfits
          have hrest : readAll k (encodeAll vs) = some vs := by
            refine ih ?_ ?_
            · cases v <;> (rw [Value.encode, tlv, List.length_cons] at hk; omega)
            · exact Nat.lt_of_le_of_lt (Nat.le_add_left _ _) hfits
          cases v with
          | bytes tag content =>
              rw [Value.encode] at hk hfits
              have hlength := length_lt_tlv (tag.byte false) content
              rw [encodeAll, Value.encode, readAll_tlv (Nat.lt_trans (by omega) hfits), hrest]
              rfl
          | items tag items =>
              rw [Value.encode] at hk hfits
              have hlength := length_lt_tlv (tag.byte true) (encodeAll items)
              have hitems : Fits (encodeAll items).length := Nat.lt_trans (by omega) hfits
              rw [encodeAll, Value.encode, readAll_tlv hitems, hrest, if_pos rfl,
                ih (by omega) hitems]
              rfl

/-- A part takes less room than the whole. -/
theorem length_encode_of_mem {tag : Tag} {v : Value} {vs : List Value} (hv : v ∈ vs) :
    v.encode.length ≤ (Value.items tag vs).encode.length := by
  have hall : v.encode.length ≤ (encodeAll vs).length := by
    induction vs with
    | nil =>
        cases hv
    | cons w vs ih =>
        rw [encodeAll, List.length_append]
        rcases List.mem_cons.1 hv with rfl | hv
        · exact Nat.le_add_right _ _
        · exact Nat.le_add_left_of_le (ih hv)
  rw [Value.encode]
  exact Nat.le_trans hall (Nat.le_of_lt (length_lt_tlv _ _))

theorem length_encode_bytes (tag : Tag) (content : Bytes) :
    content.length ≤ (Value.bytes tag content).encode.length := by
  rw [Value.encode]
  exact Nat.le_of_lt (length_lt_tlv _ _)

theorem read_encode {v : Value} (hfits : Fits v.encode.length) : read v.encode = some v := by
  have hall : encodeAll [v] = v.encode := by
    rw [encodeAll, encodeAll, List.append_nil]
  rw [read, ← hall, readAll_encodeAll (Nat.le_refl _) (hall ▸ hfits)]

/-! ## Numbers and object identifiers -/

/-- An INTEGER; none where a byte could be left out. -/
def readInt : Bytes → Option Int
  | [] => none
  | b :: s =>
      let n := ofBigEndian 256 ((b :: s).map UInt8.toNat)
      if (b = 0 ∧ s.head?.any (·.toNat < 0x80)) ∨ (b = 0xff ∧ s.head?.any (0x80 ≤ ·.toNat)) then
        none
      else if b.toNat < 0x80 then some n
      else some (n - 256 ^ (s.length + 1))

theorem readInt_of_pos {b : UInt8} {s : Bytes} (hpos : 0 < b.toNat) (hb : b.toNat < 0x80) :
    readInt (b :: s) = some (ofBigEndian 256 ((b :: s).map UInt8.toNat) : Int) := by
  have hzero : b ≠ 0 := by
    rintro rfl
    exact absurd hpos (by decide)
  have hff : b ≠ 0xff := by
    rintro rfl
    exact absurd hb (by decide)
  rw [readInt, if_neg (by simp [hzero, hff]), if_pos hb]

/-- The bytes of an arc: all but the last one are marked. -/
def marked : List Nat → Bytes
  | [] => []
  | [d] => [UInt8.ofNat d]
  | d :: e :: ds => UInt8.ofNat (0x80 ||| d) :: marked (e :: ds)

def arcDigits (n : Nat) : List Nat := if n = 0 then [0] else bigEndian 128 n

/-- The arcs that stand one after the other; the number of the one that is being read. -/
def readArcs : Option Nat → Bytes → Option (List Nat)
  | none, [] => some []
  | some _, [] => none
  | arc, b :: s =>
      if b.toNat < 0x80 then (readArcs none s).map ((arc.getD 0 * 128 + b.toNat) :: ·)
      else if arc = none ∧ b = 0x80 then none
      else readArcs (some (arc.getD 0 * 128 + (b.toNat - 0x80))) s

/-- An OBJECT IDENTIFIER; its first number stands for two arcs. -/
def readOid (content : Bytes) : Option (List Nat) :=
  match readArcs none content with
  | some (n :: ns) => some (min (n / 40) 2 :: (n - 40 * min (n / 40) 2) :: ns)
  | _ => none

theorem readArcs_marked {ds : List Nat} (hds : ∀ d ∈ ds, d < 128) (hne : ds ≠ []) {arc : Option Nat}
    (hhead : arc = none → ds.head? = some 0 → ds = [0]) (s : Bytes) :
    readArcs arc (marked ds ++ s) =
      (readArcs none s).map (ds.foldl (fun n d => n * 128 + d) (arc.getD 0) :: ·) := by
  induction ds generalizing arc with
  | nil =>
      exact absurd rfl hne
  | cons d ds ih =>
      have hd := hds d List.mem_cons_self
      cases ds with
      | nil =>
          have hbyte : (UInt8.ofNat d).toNat = d := by
            rw [UInt8.toNat_ofNat']
            omega
          cases arc <;> rw [marked, List.singleton_append, readArcs, hbyte, if_pos hd] <;> rfl
      | cons e ds =>
          have hbyte : (UInt8.ofNat (0x80 ||| d)).toNat = 0x80 + d := by
            rw [or_eq_add hd, UInt8.toNat_ofNat']
            omega
          have hmark : ¬0x80 + d < 0x80 := by omega
          have hmore : ¬(arc = none ∧ UInt8.ofNat (0x80 ||| d) = 0x80) := by
            rintro ⟨harc, hzero⟩
            rw [hzero] at hbyte
            have hd0 : d = 0 := by
              have : (0x80 : UInt8).toNat = 0x80 := rfl
              omega
            cases hhead harc (by rw [hd0]; rfl)
          have hfirst : some (arc.getD 0 * 128 + d) = none → (e :: ds).head? = some 0 →
              e :: ds = [0] := by
            intro h
            cases h
          have hrest := ih (fun x hx => hds x (List.mem_cons_of_mem _ hx)) (List.cons_ne_nil e ds)
            hfirst
          cases arc <;>
            rw [marked, List.cons_append, readArcs, hbyte, if_neg hmark, if_neg hmore,
              Nat.add_sub_cancel_left] <;> exact hrest

theorem readArcs_arcDigits (n : Nat) (s : Bytes) :
    readArcs none (marked (arcDigits n) ++ s) = (readArcs none s).map (n :: ·) := by
  unfold arcDigits
  by_cases hn : n = 0
  · rw [if_pos hn, readArcs_marked (by decide) (by decide) (fun _ _ => rfl), hn]
    rfl
  · rw [if_neg hn, readArcs_marked (fun d => lt_of_mem_bigEndian (by decide)) (bigEndian_ne_nil hn)
      (fun _ h => absurd h (head?_bigEndian 128 n))]
    have hvalue := ofBigEndian_bigEndian 128 n
    rw [ofBigEndian] at hvalue
    rw [Option.getD_none, hvalue]

end Der
end Library
end GateControl
