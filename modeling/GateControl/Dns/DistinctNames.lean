import Mathlib.Data.Nat.Bitwise
import Mathlib.Data.Nat.ModEq
import Mathlib.Data.List.Nodup
import GateControl.Dns.ListSize

/-!
# DistinctNames — names whose hashes differ

A list has as many entries as its names have different hashes.  The upper part of a hash is made of
the low bits of `h1`, and a byte of ASCII touches seven of these bits before the multiplication,
which keeps numbers apart.  So names of stems that differ above these seven bits (`key`) have
different hashes, whatever byte of ASCII and whatever ending follow (`nodup_hashes`).
-/

namespace GateControl
namespace Dns

open Library

namespace HashState

def feedAll (h : HashState) (bs : Bytes) : HashState := bs.foldl (fun h c => h.feed c.toUInt32) h

/-- The bits of `h1` that become part of the number. -/
def low (h : HashState) : Nat := h.h1.toNat % 2 ^ 21

/-- Those of them that a byte of ASCII does not touch. -/
def key (h : HashState) : Nat := h.low / 2 ^ 7

theorem feedAll_append (h : HashState) (as bs : Bytes) :
    h.feedAll (as ++ bs) = (h.feedAll as).feedAll bs :=
  List.foldl_append

theorem finish_div (h : HashState) : h.finish / 4294967296 = h.low := by
  have hmask : (h.h1 &&& 0x1fffff).toNat = h.low := by
    rw [UInt32.toNat_and]
    exact Nat.and_two_pow_sub_one_eq_mod h.h1.toNat 21
  have hdiv : ∀ x : UInt32, (h.low * 4294967296 + x.toNat) / 4294967296 = h.low := by
    intro x
    calc (h.low * 4294967296 + x.toNat) / 4294967296
        = (x.toNat + h.low * 4294967296) / 4294967296 := by rw [Nat.add_comm]
      _ = x.toNat / 4294967296 + h.low := Nat.add_mul_div_right _ _ (by decide)
      _ = h.low := by rw [Nat.div_eq_of_lt (UInt32.toNat_lt x), Nat.zero_add]
  simp only [finish, hmask]
  exact hdiv _

theorem low_feed (h : HashState) (c : UInt32) :
    (h.feed c).low = (h.low ^^^ c.toNat % 2 ^ 21) * 403 % 2 ^ 21 := by
  have hmul : ((h.h1 ^^^ c) * 0x01000193).toNat = (h.h1.toNat ^^^ c.toNat) * 16777619 % 2 ^ 32 := by
    rw [UInt32.toNat_mul, UInt32.toNat_xor]
    rfl
  calc (h.feed c).low
      = (h.h1.toNat ^^^ c.toNat) * 16777619 % 2 ^ 32 % 2 ^ 21 := by rw [low, feed, hmul]
    _ = (h.h1.toNat ^^^ c.toNat) * 16777619 % 2 ^ 21 :=
        Nat.mod_mod_of_dvd _ (Nat.pow_dvd_pow 2 (by decide))
    _ = (h.h1.toNat ^^^ c.toNat) % 2 ^ 21 * 403 % 2 ^ 21 := Nat.mul_mod _ _ _
    _ = (h.low ^^^ c.toNat % 2 ^ 21) * 403 % 2 ^ 21 := by rw [Nat.xor_mod_two_pow, low]

/-- The multiplication keeps numbers apart. -/
theorem xor_eq_of_low_feed {h h' : HashState} {c c' : UInt32}
    (heq : (h.feed c).low = (h'.feed c').low) :
    h.low ^^^ c.toNat % 2 ^ 21 = h'.low ^^^ c'.toNat % 2 ^ 21 := by
  have hlt : ∀ (h : HashState) (c : UInt32), h.low ^^^ c.toNat % 2 ^ 21 < 2 ^ 21 := fun h c =>
    Nat.xor_lt_two_pow (Nat.mod_lt _ (Nat.two_pow_pos 21)) (Nat.mod_lt _ (Nat.two_pow_pos 21))
  rw [low_feed, low_feed] at heq
  have hmod := Nat.ModEq.cancel_right_of_coprime (by decide) (show _ ≡ _ [MOD 2 ^ 21] from heq)
  rwa [Nat.ModEq, Nat.mod_eq_of_lt (hlt h c), Nat.mod_eq_of_lt (hlt h' c')] at hmod

/-- Equal endings do not bring different states together. -/
theorem low_of_low_feedAll {h h' : HashState} {bs : Bytes}
    (heq : (h.feedAll bs).low = (h'.feedAll bs).low) : h.low = h'.low := by
  induction bs generalizing h h' with
  | nil =>
      exact heq
  | cons b bs ih =>
      exact Nat.xor_left_injective (xor_eq_of_low_feed (ih heq))

theorem key_eq_of_xor {h h' : HashState} {c c' : Nat} (hc : c < 2 ^ 7) (hc' : c' < 2 ^ 7)
    (heq : h.low ^^^ c = h'.low ^^^ c') : h.key = h'.key := by
  have hdiv : (h.low ^^^ c) / 2 ^ 7 = (h'.low ^^^ c') / 2 ^ 7 := by rw [heq]
  rw [Nat.xor_div_two_pow, Nat.xor_div_two_pow, Nat.div_eq_of_lt hc, Nat.div_eq_of_lt hc',
    Nat.xor_zero, Nat.xor_zero] at hdiv
  exact hdiv

end HashState

/-- The hash of a stem with one more byte and an ending. -/
def nameHash (ending stem : Bytes) (c : UInt8) : Nat :=
  (HashState.start.feedAll (stem ++ [c] ++ ending)).finish

def stemKey (stem : Bytes) : Nat := (HashState.start.feedAll stem).key

section Hashes

variable {ending stem stem' : Bytes} {c c' : UInt8}

theorem xor_eq_of_nameHash (heq : nameHash ending stem c = nameHash ending stem' c')
    (hc : c.toNat < 2 ^ 7) (hc' : c'.toNat < 2 ^ 7) :
    (HashState.start.feedAll stem).low ^^^ c.toNat =
      (HashState.start.feedAll stem').low ^^^ c'.toNat := by
  have hlow : (HashState.start.feedAll (stem ++ [c] ++ ending)).low =
      (HashState.start.feedAll (stem' ++ [c'] ++ ending)).low := by
    rw [← HashState.finish_div, ← HashState.finish_div]
    exact congrArg (· / 4294967296) heq
  rw [HashState.feedAll_append, HashState.feedAll_append _ _ ending] at hlow
  have hfeed := HashState.low_of_low_feedAll hlow
  rw [HashState.feedAll_append, HashState.feedAll_append _ stem'] at hfeed
  have hxor := HashState.xor_eq_of_low_feed hfeed
  rw [UInt8.toNat_toUInt32, UInt8.toNat_toUInt32, Nat.mod_eq_of_lt (by omega),
    Nat.mod_eq_of_lt (by omega)] at hxor
  exact hxor

/-- Stems with different keys and different last bytes of ASCII give different hashes. -/
theorem nodup_hashes {stems : List Bytes} {lasts : List UInt8}
    (hstems : (stems.map stemKey).Nodup) (hlasts : lasts.Nodup)
    (hascii : ∀ c ∈ lasts, c.toNat < 2 ^ 7) :
    (stems.flatMap fun stem => lasts.map (nameHash ending stem)).Nodup := by
  refine List.nodup_flatMap.2 ⟨?_, ?_⟩
  · intro stem _
    refine hlasts.map_on ?_
    intro c hc c' hc' heq
    have hxor := xor_eq_of_nameHash heq (hascii c hc) (hascii c' hc')
    exact UInt8.toNat_inj.1 (Nat.xor_right_injective hxor)
  · refine (List.pairwise_map.1 hstems).imp ?_
    intro stem stem' hne
    change List.Disjoint _ _
    rw [List.disjoint_left]
    intro x hx hx'
    rcases List.mem_map.1 hx with ⟨c, hc, rfl⟩
    rcases List.mem_map.1 hx' with ⟨c', hc', heq⟩
    have hxor := xor_eq_of_nameHash heq (hascii c' hc') (hascii c hc)
    exact hne (HashState.key_eq_of_xor (hascii c' hc') (hascii c hc) hxor).symm

end Hashes

/-! ## Choosing stems -/

/-- Keep the elements whose key has not come before; `seen` has a bit for every key that has. -/
def keepFresh {α : Type} (key : α → Nat) : Nat → List α → List α
  | _, [] => []
  | seen, a :: as =>
      if seen.testBit (key a) then keepFresh key seen as
      else a :: keepFresh key (seen ||| 1 <<< key a) as

section Fresh

variable {α : Type} {key : α → Nat} {seen : Nat} {as : List α} {a : α}

theorem mem_of_mem_keepFresh (h : a ∈ keepFresh key seen as) : a ∈ as := by
  induction as generalizing seen with
  | nil =>
      exact h
  | cons b as ih =>
      unfold keepFresh at h
      split at h
      · exact List.mem_cons_of_mem b (ih h)
      · rcases List.mem_cons.1 h with rfl | h
        · exact List.mem_cons_self
        · exact List.mem_cons_of_mem b (ih h)

theorem testBit_of_mem_keepFresh (h : a ∈ keepFresh key seen as) :
    seen.testBit (key a) = false := by
  induction as generalizing seen with
  | nil =>
      cases h
  | cons b as ih =>
      unfold keepFresh at h
      split at h
      · exact ih h
      · rename_i hb
        rcases List.mem_cons.1 h with rfl | h
        · exact Bool.eq_false_iff.2 hb
        · have hor := ih h
          rw [Nat.testBit_or, Bool.or_eq_false_iff] at hor
          exact hor.1

theorem nodup_keepFresh (key : α → Nat) (seen : Nat) (as : List α) :
    ((keepFresh key seen as).map key).Nodup := by
  induction as generalizing seen with
  | nil =>
      exact List.nodup_nil
  | cons a as ih =>
      unfold keepFresh
      split
      · exact ih seen
      · rw [List.map_cons, List.nodup_cons]
        refine ⟨?_, ih _⟩
        intro hmem
        rcases List.mem_map.1 hmem with ⟨b, hb, heq⟩
        -- the bit of the key has been set before `b` was kept
        have hbit := testBit_of_mem_keepFresh hb
        rw [Nat.testBit_or, heq, Nat.testBit_shiftLeft] at hbit
        simp at hbit

end Fresh

/-! ## Names of two labels -/

theorem DomainScan.feed_alnum (d : DomainScan) {c : UInt8} (hc : isAlnum c = true)
    (hlen : d.labelLen < 63) :
    d.feed c = .ok ⟨d.hash.feed c.toUInt32, d.labelLen + 1, d.dots, c, d.alpha || c > 0x39⟩ := by
  have hascii : ¬ c ≥ 0x80 := by
    intro h
    simp only [isAlnum, Bool.or_eq_true, Bool.and_eq_true, decide_eq_true_eq,
      UInt8.le_iff_toNat_le] at hc h
    simp at hc h
    omega
  have hlower : (0x41 ≤ c && c ≤ 0x5a) = false := by
    simp only [isAlnum, Bool.or_eq_true, Bool.and_eq_true, decide_eq_true_eq,
      UInt8.le_iff_toNat_le] at hc
    rw [Bool.and_eq_false_iff, decide_eq_false_iff_not, decide_eq_false_iff_not,
      UInt8.le_iff_toNat_le, UInt8.le_iff_toNat_le]
    simp at hc ⊢
    omega
  have hdot : c ≠ 0x2e := by
    rintro rfl
    cases hc
  have hshort : ¬ d.labelLen + 1 > 63 := by omega
  simp [feed, hascii, hlower, hdot, hc, hshort]

theorem DomainScan.feed_dot (d : DomainScan) (hlen : d.labelLen ≠ 0) (hprev : d.prev ≠ 0x2d) :
    d.feed 0x2e = .ok ⟨d.hash.feed (0x2e : UInt8).toUInt32, 0, d.dots + 1, 0x2e, d.alpha⟩ := by
  simp [feed, hlen, hprev]

/-- The scan after letters and digits. -/
def DomainScan.feedLabel (d : DomainScan) (label : Bytes) : DomainScan :=
  ⟨d.hash.feedAll label, d.labelLen + label.length, d.dots, label.getLast?.getD d.prev,
    d.alpha || label.any (· > 0x39)⟩

theorem scanDomain_label (buf label : Bytes) {i : Nat} {d : DomainScan}
    (halnum : ∀ c ∈ label, isAlnum c = true)
    (hget : ∀ k, k < label.length → buf[i + k]? = label[k]?) (hlen : d.labelLen + label.length ≤ 63)
    (n : Nat) :
    scanDomain buf (label.length + n) i d =
      scanDomain buf n (i + label.length) (d.feedLabel label) := by
  induction label generalizing i d with
  | nil =>
      simp [DomainScan.feedLabel, HashState.feedAll]
  | cons c label ih =>
      rw [List.length_cons] at hlen
      have hc : buf[i]? = some c := hget 0 (Nat.succ_pos _)
      have hfeed := d.feed_alnum (halnum c List.mem_cons_self) (by omega)
      have hrest : ∀ k, k < label.length → buf[i + 1 + k]? = label[k]? := by
        intro k hk
        have hnext := hget (k + 1) (Nat.succ_lt_succ hk)
        rwa [← Nat.add_assoc, Nat.add_right_comm, List.getElem?_cons_succ] at hnext
      have hstep : scanDomain buf (label.length + n + 1) i d = scanDomain buf (label.length + n) (i + 1)
          ⟨d.hash.feed c.toUInt32, d.labelLen + 1, d.dots, c, d.alpha || c > 0x39⟩ := by
        simp only [scanDomain, hc, hfeed]
      rw [List.length_cons, Nat.add_right_comm, hstep,
        ih (fun x hx => halnum x (List.mem_cons_of_mem c hx)) hrest (by dsimp only; omega)]
      simp [DomainScan.feedLabel, HashState.feedAll, List.getLast?_cons, Bool.or_assoc,
        Nat.add_comm, Nat.add_left_comm]

section Names

variable {a b : Bytes}

theorem plainLine_twoLabels (ha : ∀ c ∈ a, isAlnum c = true) (hb : ∀ c ∈ b, isAlnum c = true)
    (hpos : a ≠ []) (hlen : a.length + b.length < maxLine) : PlainLine (a ++ 0x2e :: b) := by
  refine ⟨?_, ?_, ?_⟩
  · intro c hc
    simp only [List.mem_append, List.mem_cons] at hc
    rcases hc with hc | rfl | hc
    · exact Or.inl (ha c hc)
    · exact Or.inr rfl
    · exact Or.inl (hb c hc)
  · cases a with
    | nil =>
        exact absurd rfl hpos
    | cons c a =>
        intro hdot
        obtain rfl : c = 0x2e := Option.some.inj hdot
        exact absurd (ha _ List.mem_cons_self) (by decide)
  · rw [List.length_append, List.length_cons]
    omega

theorem last_ne {x d : UInt8} (ha : ∀ c ∈ a, isAlnum c = true) (hx : isAlnum x = false)
    (hd : a = [] → d ≠ x) : a.getLast?.getD d ≠ x := by
  cases hlast : a.getLast? with
  | none =>
      exact hd (List.getLast?_eq_none_iff.1 hlast)
  | some c =>
      rintro rfl
      have halnum := ha _ (List.mem_of_getLast? hlast)
      rw [Option.getD_some] at hx
      exact absurd (hx.symm.trans halnum) (by decide)

/-- Both labels and the dot between them are scanned. -/
theorem scanDomain_twoLabels (ha : ∀ c ∈ a, isAlnum c = true) (hb : ∀ c ∈ b, isAlnum c = true)
    (hpos : a ≠ []) (ha63 : a.length ≤ 63) (hb63 : b.length ≤ 63) :
    scanDomain (a ++ 0x2e :: b) (a.length + (b.length + 1)) 0 .start =
      .ok ⟨HashState.start.feedAll (a ++ 0x2e :: b), b.length, 1, b.getLast?.getD 0x2e,
        a.any (· > 0x39) || b.any (· > 0x39)⟩ := by
  have hlen : a.length ≠ 0 := fun h => hpos (List.length_eq_zero_iff.1 h)
  have hfirst := scanDomain_label (a ++ 0x2e :: b) a (i := 0) (d := .start) ha
    (fun k hk => by rw [Nat.zero_add, List.getElem?_append_left hk])
    (by simpa [DomainScan.start] using ha63) (b.length + 1)
  have hdot : (a ++ 0x2e :: b)[0 + a.length]? = some 0x2e := by simp
  have hfeed := (DomainScan.start.feedLabel a).feed_dot
    (by simpa [DomainScan.feedLabel, DomainScan.start] using hlen)
    (last_ne ha (by decide) fun h => absurd h hpos)
  have hbehind : ∀ k, k < b.length → (a ++ 0x2e :: b)[0 + a.length + 1 + k]? = b[k]? := by
    intro k _
    have hk : 0 + a.length + 1 + k - a.length = k + 1 := by omega
    rw [List.getElem?_append_right (by omega), hk, List.getElem?_cons_succ]
  have hsecond := scanDomain_label (a ++ 0x2e :: b) b (i := 0 + a.length + 1)
    (d := ⟨(DomainScan.start.feedLabel a).hash.feed (0x2e : UInt8).toUInt32, 0,
      (DomainScan.start.feedLabel a).dots + 1, 0x2e, (DomainScan.start.feedLabel a).alpha⟩) hb
    hbehind (by simpa using hb63) 0
  rw [hfirst, scanDomain, hdot]
  simp only [hfeed]
  rw [Nat.add_zero] at hsecond
  rw [hsecond]
  simp [scanDomain, DomainScan.feedLabel, DomainScan.start, HashState.feedAll]

/-- Two labels of letters and digits, the second with a letter, are a name. -/
theorem hashDomainBytes_twoLabels (ha : ∀ c ∈ a, isAlnum c = true) (hb : ∀ c ∈ b, isAlnum c = true)
    (hpos : a ≠ []) (ha63 : a.length ≤ 63) (hb63 : b.length ≤ 63)
    (hletter : b.any (· > 0x39) = true) (hthree : 3 ≤ a.length + (b.length + 1)) :
    hashDomainBytes (a ++ 0x2e :: b) 0 (a ++ 0x2e :: b).length =
      .ok (HashState.start.feedAll (a ++ 0x2e :: b)).finish := by
  have hbne : b ≠ [] := by
    rintro rfl
    cases hletter
  have htotal : (a ++ 0x2e :: b).length = a.length + (b.length + 1) := by
    rw [List.length_append, List.length_cons]
  have hlast : ¬ ((a ++ 0x2e :: b).length > 0 ∧
      (a ++ 0x2e :: b)[(a ++ 0x2e :: b).length - 1]? = some 0x2e) := by
    rintro ⟨_, hdot⟩
    rw [← List.getLast?_eq_getElem?, List.getLast?_append, List.getLast?_cons] at hdot
    exact last_ne hb (by decide) (fun h => absurd h hbne) (Option.some.inj hdot)
  have hlen : ¬ (a.length + (b.length + 1) < 3 ∨ a.length + (b.length + 1) > 253) := by omega
  have hhyphen : b.getLast?.getD 0x2e ≠ 0x2d := last_ne hb (by decide) fun h => absurd h hbne
  unfold hashDomainBytes
  rw [if_neg hlast]
  dsimp only
  rw [Nat.sub_zero, htotal, if_neg hlen, scanDomain_twoLabels ha hb hpos ha63 hb63]
  simp [hletter, hbne, hhyphen]

end Names

/-! ## Many names -/

/-- The letters and digits. -/
def alnums : List UInt8 :=
  [0x61, 0x62, 0x63, 0x64, 0x65, 0x66, 0x67, 0x68, 0x69, 0x6a, 0x6b, 0x6c, 0x6d, 0x6e, 0x6f, 0x70,
    0x71, 0x72, 0x73, 0x74, 0x75, 0x76, 0x77, 0x78, 0x79, 0x7a, 0x30, 0x31, 0x32, 0x33, 0x34, 0x35,
    0x36, 0x37, 0x38, 0x39]

theorem isAlnum_of_mem {c : UInt8} (hc : c ∈ alnums) : isAlnum c = true := by
  have hall : alnums.all isAlnum = true := by decide
  exact List.all_eq_true.1 hall c hc

/-- `.xx` -/
def ending : Bytes := [0x2e, 0x78, 0x78]

/-- The names of the stems, one for each further letter or digit, with their hashes. -/
def namesOf (stems : List Bytes) : List (Bytes × Nat) :=
  stems.flatMap fun stem => alnums.map fun c => (stem ++ [c] ++ ending, nameHash ending stem c)

theorem length_namesOf (stems : List Bytes) : (namesOf stems).length = 36 * stems.length := by
  induction stems with
  | nil =>
      rfl
  | cons stem stems ih =>
      have hcons : namesOf (stem :: stems) =
        (alnums.map fun c => (stem ++ [c] ++ ending, nameHash ending stem c)) ++ namesOf stems := rfl
      rw [hcons, List.length_append, List.length_map, ih, List.length_cons, Nat.mul_succ,
        Nat.add_comm]
      rfl

theorem nodup_namesOf {stems : List Bytes} (hstems : (stems.map stemKey).Nodup) :
    ((namesOf stems).map Prod.snd).Nodup := by
  have hall : alnums.all (fun c => c.toNat < 2 ^ 7) = true := by decide
  have hascii : ∀ c ∈ alnums, c.toNat < 2 ^ 7 := fun c hc => by
    simpa using List.all_eq_true.1 hall c hc
  have halnums : alnums.Nodup := by decide
  have hnodup : (stems.flatMap fun stem => alnums.map (nameHash ending stem)).Nodup :=
    nodup_hashes hstems halnums hascii
  simpa [namesOf, List.map_flatMap, Function.comp_def] using hnodup

theorem entryLine_namesOf {stems : List Bytes}
    (hstems : ∀ stem ∈ stems, stem.length < 63 ∧ ∀ c ∈ stem, isAlnum c = true)
    (host : UnicodeHost) : ∀ e ∈ namesOf stems, EntryLine host e.1 e.2 := by
  intro e he
  simp only [namesOf, List.mem_flatMap, List.mem_map] at he
  rcases he with ⟨stem, hstem, d, hd, rfl⟩
  rcases hstems stem hstem with ⟨hlen, halnum⟩
  have hlabel : ∀ c ∈ stem ++ [d], isAlnum c = true := by
    intro c hc
    rcases List.mem_append.1 hc with hc | hc
    · exact halnum c hc
    · rw [List.mem_singleton.1 hc]
      exact isAlnum_of_mem hd
  have hxx : ∀ c ∈ [0x78, 0x78], isAlnum c = true := fun c hc =>
    List.all_eq_true.1 (show [0x78, 0x78].all isAlnum = true by decide) c hc
  have hone : (stem ++ [d]).length = stem.length + 1 := List.length_append
  have hne : stem ++ [d] ≠ [] := List.append_ne_nil_of_right_ne_nil stem (List.cons_ne_nil d [])
  have hshort : (stem ++ [d]).length + 2 < maxLine := by
    rw [hone, maxLine]
    omega
  have hplain := plainLine_twoLabels hlabel hxx hne hshort
  refine hplain.entryLine (hashDomainBytes_twoLabels hlabel hxx hne (by omega) (by decide)
    (by decide) ?_) host
  rw [hone]
  exact Nat.le_add_left 3 (stem.length + 1)

end Dns
end GateControl
