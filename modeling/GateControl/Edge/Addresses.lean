import Mathlib.Data.List.TakeWhile
import GateControl.Edge.LanGuard

/-!
# Addresses — addresses as text, and the networks a filter is given

`net.isIPv6` and the reading of an address or of a network written as `address/length`.  An address
with a zone is one to `net.isIPv6`, but no filter can read it; a text that cannot be read stands for
no address.
-/

namespace GateControl
namespace Edge

open Library

/-! ## IPv6 -/

def isHexDigit (c : Char) : Bool := c.isDigit || ('a' ≤ c && c ≤ 'f') || ('A' ≤ c && c ≤ 'F')

def hexDigitValue (c : Char) : Nat :=
  if c.isDigit then c.toNat - '0'.toNat
  else if 'a' ≤ c then c.toNat - 'a'.toNat + 10
  else c.toNat - 'A'.toNat + 10

/-- One to four hexadecimal digits. -/
def isHexGroup (s : Text) : Bool := s ≠ [] && s.length ≤ 4 && s.all isHexDigit

def hexValue (s : Text) : Nat := s.foldl (fun n c => 16 * n + hexDigitValue c) 0

/-- The groups of sixteen bits; the last piece may be an IPv4 address, which makes two. -/
def hexGroups (dotted : Bool) : List Text → Option (List Nat)
  | [] => some []
  | s :: rest =>
      if isHexGroup s then (hexGroups dotted rest).map (hexValue s :: ·)
      else if dotted && rest.isEmpty && isIPv4 s then
        some [(ipToInt s).toNat / 65536, (ipToInt s).toNat % 65536]
      else none

def partGroups (dotted : Bool) (s : Text) : Option (List Nat) :=
  if s = [] then some [] else hexGroups dotted (s.splitOn ':')

/-- The text before the first `::` and the text behind it. -/
def splitGap : Text → Option (Text × Text)
  | [] => none
  | c :: s =>
      if c = ':' ∧ s.head? = some ':' then some ([], s.tail)
      else (splitGap s).map fun r => (c :: r.1, r.2)

/-- The eight groups of an address; a gap stands for at least one. -/
def ipv6Groups (s : Text) : Option (List Nat) :=
  match splitGap s with
  | none => (partGroups true s).filter fun g => g.length = 8
  | some (l, r) =>
      match partGroups false l, partGroups true r with
      | some a, some b =>
          if a.length + b.length ≤ 7 then
            some (a ++ List.replicate (8 - a.length - b.length) 0 ++ b)
          else none
      | _, _ => none

def isZoneChar (c : Char) : Bool := c.isAlphanum || c == '-' || c == '.' || c == ':'

/-- `net.isIPv6` -/
def isIPv6 (s : Text) : Bool :=
  let zone := s.dropWhile fun c => c ≠ '%'
  (ipv6Groups (s.takeWhile fun c => c ≠ '%')).isSome &&
    (zone = [] || (2 ≤ zone.length && zone.tail.all isZoneChar))

/-- `net.isIP`, as a truth value -/
def isIP (s : Text) : Bool := isIPv4 s || isIPv6 s

/-! ## Reading addresses and networks -/

def readIPv4 (s : Text) : Option (BitVec 32) := if isIPv4 s then some (ipToInt s) else none

def readIPv6 (s : Text) : Option (BitVec 128) :=
  (ipv6Groups s).map fun g => g.foldl (fun a n => (a <<< 16) + BitVec.ofNat 128 n) 0

section Network

variable {w : Nat} (read : Text → Option (BitVec w))

/-- The first `n` bits are the same. -/
def samePrefix (n : Nat) (a x : BitVec w) : Bool := a >>> (w - n) = x >>> (w - n)

/-- Whether the address lies in what the text stands for: one address, or a network. -/
def inNet (t : Text) (x : BitVec w) : Bool :=
  match t.splitOn '/' with
  | [a] => read a = some x
  | [a, n] =>
      isOctetText n && digitsValue n ≤ w &&
        (read a).any fun a => samePrefix (digitsValue n) a x
  | _ => false

end Network

/-! ## The characters of an address -/

theorem char_of_isHexGroup {s : Text} (h : isHexGroup s = true) {c : Char} (hc : c ∈ s) :
    isHexDigit c = true := by
  simp only [isHexGroup, Bool.and_eq_true, List.all_eq_true] at h
  exact h.2 c hc

theorem char_of_isIPv4 {s : Text} (h : isIPv4 s = true) {c : Char} (hc : c ∈ s) :
    c.isDigit = true ∨ c = '.' := by
  simp only [isIPv4, Bool.and_eq_true, List.all_eq_true] at h
  rcases mem_splitOn '.' hc with hdot | ⟨o, ho, hco⟩
  · exact .inr hdot
  · have hoctet := h.2 o ho
    simp only [isOctet, isOctetText, Bool.and_eq_true, List.all_eq_true] at hoctet
    exact .inl (hoctet.1.1.2 c hco)

/-- The characters an address may have. -/
def isAddressChar (c : Char) : Bool := isHexDigit c || c == '.' || c == ':'

theorem isAddressChar_of_isHexDigit {c : Char} (h : isHexDigit c = true) :
    isAddressChar c = true := by
  simp [isAddressChar, h]

theorem isAddressChar_of_isIPv4 {s : Text} (h : isIPv4 s = true) {c : Char} (hc : c ∈ s) :
    isAddressChar c = true := by
  rcases char_of_isIPv4 h hc with hdigit | rfl
  · simp [isAddressChar, isHexDigit, hdigit]
  · rfl

theorem char_of_hexGroups {dotted : Bool} {pieces : List Text} {g : List Nat}
    (h : hexGroups dotted pieces = some g) : ∀ s ∈ pieces, ∀ c ∈ s, isAddressChar c = true := by
  induction pieces generalizing g with
  | nil =>
      intro s hs
      cases hs
  | cons t rest ih =>
      unfold hexGroups at h
      intro s hs c hc
      split at h
      · rename_i hgroup
        obtain ⟨g', hrest, _⟩ := Option.map_eq_some_iff.1 h
        rcases List.mem_cons.1 hs with rfl | hs
        · exact isAddressChar_of_isHexDigit (char_of_isHexGroup hgroup hc)
        · exact ih hrest s hs c hc
      · split at h
        · rename_i hdotted
          simp only [Bool.and_eq_true, List.isEmpty_iff] at hdotted
          rcases List.mem_cons.1 hs with rfl | hs
          · exact isAddressChar_of_isIPv4 hdotted.2 hc
          · rw [hdotted.1.2] at hs
            cases hs
        · cases h

theorem char_of_partGroups {dotted : Bool} {s : Text} {g : List Nat}
    (h : partGroups dotted s = some g) : ∀ c ∈ s, isAddressChar c = true := by
  unfold partGroups at h
  intro c hc
  split at h
  · rename_i hnil
    rw [hnil] at hc
    cases hc
  · rcases mem_splitOn ':' hc with rfl | ⟨t, ht, hct⟩
    · rfl
    · exact char_of_hexGroups h t ht c hct

theorem splitGap_eq {s l r : Text} (h : splitGap s = some (l, r)) : s = l ++ ':' :: ':' :: r := by
  induction s generalizing l with
  | nil =>
      cases h
  | cons c s ih =>
      unfold splitGap at h
      split at h
      · rename_i hgap
        obtain ⟨rfl, hnext⟩ := hgap
        cases s with
        | nil =>
            cases hnext
        | cons d s =>
            cases hnext
            cases h
            rfl
      · obtain ⟨⟨l', r'⟩, hrest, heq⟩ := Option.map_eq_some_iff.1 h
        cases heq
        rw [ih hrest]
        rfl

theorem char_of_ipv6Groups {s : Text} {g : List Nat} (h : ipv6Groups s = some g) :
    ∀ c ∈ s, isAddressChar c = true := by
  unfold ipv6Groups at h
  split at h
  · exact char_of_partGroups (Option.filter_eq_some_iff.1 h).1
  · rename_i l r hsplit
    split at h
    · rename_i a b ha hb
      rw [splitGap_eq hsplit]
      intro c hc
      rcases List.mem_append.1 hc with hl | hr
      · exact char_of_partGroups ha c hl
      · rcases List.mem_cons.1 hr with rfl | hr
        · rfl
        · rcases List.mem_cons.1 hr with rfl | hr
          · rfl
          · exact char_of_partGroups hb c hr
    · cases h

/-! ## Hosts -/

theorem slash_of_isIPv4 {s : Text} (h : isIPv4 s = true) : '/' ∉ s := fun hc =>
  absurd (isAddressChar_of_isIPv4 h hc) (by decide)

theorem slash_of_isIPv6 {s : Text} (h : isIPv6 s = true) : '/' ∉ s := by
  simp only [isIPv6, Bool.and_eq_true, Bool.or_eq_true, decide_eq_true_eq, Option.isSome_iff_exists,
    List.all_eq_true] at h
  obtain ⟨⟨g, hg⟩, hzone⟩ := h
  intro hc
  rw [← List.takeWhile_append_dropWhile (p := fun c => c ≠ '%') (l := s)] at hc
  rcases List.mem_append.1 hc with haddr | hrest
  · exact absurd (char_of_ipv6Groups hg '/' haddr) (by decide)
  · rcases hzone with hnil | ⟨_, hall⟩
    · rw [hnil] at hrest
      cases hrest
    · cases hdrop : s.dropWhile fun c => decide (c ≠ '%') with
      | nil =>
          rw [hdrop] at hrest
          cases hrest
      | cons d zone =>
          rw [hdrop] at hrest hall
          have hhead := head?_dropWhile (fun c => c ≠ '%') s d (by rw [hdrop]; rfl)
          rcases List.mem_cons.1 hrest with rfl | hin
          · simp at hhead
          · exact absurd (hall '/' hin) (by decide)

/-- What a filter can read is an IPv6 address to `net.isIPv6` too. -/
theorem isIPv6_of_readIPv6 {s : Text} {x : BitVec 128} (h : readIPv6 s = some x) :
    isIPv6 s = true := by
  obtain ⟨g, hg, _⟩ := Option.map_eq_some_iff.1 h
  have hchars : ∀ c ∈ s, decide (c ≠ '%') = true := by
    intro c hc
    have hok := char_of_ipv6Groups hg c hc
    simp only [decide_eq_true_eq]
    rintro rfl
    exact absurd hok (by decide)
  have htake : s.takeWhile (fun c => decide (c ≠ '%')) = s := List.takeWhile_eq_self_iff.2 hchars
  have hdrop : s.dropWhile (fun c => decide (c ≠ '%')) = [] := List.dropWhile_eq_nil_iff.2 hchars
  simp only [isIPv6, htake, hdrop, hg]
  rfl

section Host

variable {w : Nat} (read : Text → Option (BitVec w))

/-- An address alone, and the same with the full length, stand for that address. -/
theorem inNet_host {a : Text} (ha : '/' ∉ a) (x : BitVec w) :
    inNet read a x = decide (read a = some x) := by
  have hsplit : a.splitOn '/' = [a] := List.splitOn_eq_singleton ha
  rw [inNet, hsplit]

theorem inNet_length {a : Text} (ha : '/' ∉ a) {n : Text} (hn : '/' ∉ n)
    (hdigits : isOctetText n = true) (hw : digitsValue n = w) (x : BitVec w) :
    inNet read (a ++ '/' :: n) x = decide (read a = some x) := by
  have hsplit : (a ++ '/' :: n).splitOn '/' = [a, n] := by
    rw [List.splitOn_append_cons_self, List.splitOn_eq_singleton ha, List.splitOn_eq_singleton hn]
    rfl
  rw [inNet, hsplit]
  simp only [hdigits, hw, Nat.le_refl, decide_true, Bool.and_self, Bool.true_and]
  cases read a with
  | none =>
      rfl
  | some b =>
      simp [samePrefix]

end Host

end Edge
end GateControl
