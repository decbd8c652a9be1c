import GateControl.Edge.Addresses

/-!
# Allowlist — the sources an egress route lets in

`ipInAllowlist` compares the address of a client with each entry under a mask.  It reads entries that
are no networks as some network, such as `192.168.1.0/0.0.0.255` as `192.168.1.0/0`, and passes over
others.  `ipInAllowlist_iff` says that it looks for a network that the address of the client lies in,
where each entry is a network or is passed over.
-/

namespace GateControl
namespace Proxy

open Library Edge

/-- The prefix of an IPv4 address that a socket reports as an IPv6 address. -/
def mappedPrefix : Text := "::ffff:".toList

def normalizeIp (addr : Option Text) : Option Text :=
  addr.map fun s => if mappedPrefix.isPrefixOf s then s.drop mappedPrefix.length else s

def ipv4ToInt (ip : Option Text) : Option (BitVec 32) :=
  match ipv4 (ip.getD []) with
  | some [a, b, c, d] =>
      some (BitVec.ofNat 32 a <<< 24 ||| BitVec.ofNat 32 b <<< 16 ||| BitVec.ofNat 32 c <<< 8 |||
        BitVec.ofNat 32 d)
  | _ => none

/-- `parseInt(s, 10)`: the digits that a text starts with, after white space and a sign. -/
def parseInt (s : Text) : Option Int :=
  let number (sign : Int) (u : Text) : Option Int :=
    let digits := u.takeWhile Char.isDigit
    if digits = [] then none else some (sign * digitsValue digits)
  match s.dropWhile isTrimmed with
  | '-' :: u => number (-1) u
  | '+' :: u => number 1 u
  | u => number 1 u

/-- The base and the length of an entry; what follows a second slash is not looked at. -/
def readEntry (cidr : Text) : Option (BitVec 32 × Nat) :=
  let parts := cidr.splitOn '/'
  let length : Option Int :=
    match parts.tail.head? with
    | none => some 32
    | some n => parseInt n
  match ipv4ToInt parts.head?, length with
  | some base, some n => if 0 ≤ n ∧ n ≤ 32 then some (base, n.toNat) else none
  | _, _ => none

def ipInAllowlist (remoteAddr : Option Text) (allowedCidrs : List Text) : Bool :=
  match ipv4ToInt (normalizeIp remoteAddr) with
  | none => false
  | some ip =>
      allowedCidrs.any fun cidr =>
        match readEntry cidr with
        | none => false
        | some (base, n) =>
            let mask : BitVec 32 := if n = 0 then 0 else BitVec.allOnes 32 <<< (32 - n)
            ip &&& mask = base &&& mask

/-! ## Comparing under a mask -/

theorem and_mask_eq_iff {w : Nat} (x y : BitVec w) (k : Nat) :
    x &&& (BitVec.allOnes w <<< k) = y &&& (BitVec.allOnes w <<< k) ↔ x >>> k = y >>> k := by
  constructor
  · intro h
    ext i hi
    have hbit := congrArg (fun z : BitVec w => z.getLsbD (k + i)) h
    by_cases hk : k + i < w
    · simpa [hk] using hbit
    · simp [BitVec.getLsbD_of_ge, Nat.le_of_not_lt hk]
  · intro h
    ext i hi
    have hbit := congrArg (fun z : BitVec w => z.getLsbD (i - k)) h
    by_cases hk : i < k
    · simp [hk]
    · have heq : k + (i - k) = i := by omega
      simpa [hk, heq, hi] using hbit

/-- The mask leaves the first `n` bits. -/
theorem mask_eq_iff (ip base : BitVec 32) (n : Nat) :
    (ip &&& (if n = 0 then 0 else BitVec.allOnes 32 <<< (32 - n)) =
      base &&& (if n = 0 then 0 else BitVec.allOnes 32 <<< (32 - n))) ↔
        samePrefix n base ip = true := by
  by_cases hn : n = 0
  · subst hn
    simp [samePrefix, BitVec.ushiftRight_eq_zero]
  · rw [if_neg hn, and_mask_eq_iff, samePrefix, decide_eq_true_eq]
    exact eq_comm

/-- An entry is read in such a way that the address belongs to it. -/
def Reads (ip : BitVec 32) (cidr : Text) : Prop :=
  ∃ base n, readEntry cidr = some (base, n) ∧ samePrefix n base ip = true

theorem ipInAllowlist_iff_reads (remoteAddr : Option Text) (allowedCidrs : List Text) :
    ipInAllowlist remoteAddr allowedCidrs = true ↔
      ∃ ip, ipv4ToInt (normalizeIp remoteAddr) = some ip ∧ ∃ cidr ∈ allowedCidrs, Reads ip cidr := by
  unfold ipInAllowlist Reads
  cases ipv4ToInt (normalizeIp remoteAddr) with
  | none => simp
  | some ip =>
      simp only [List.any_eq_true, Option.some.injEq, exists_eq_left']
      apply exists_congr
      intro cidr
      apply and_congr_right
      intro _
      cases readEntry cidr with
      | none => simp
      | some e =>
          obtain ⟨base, n⟩ := e
          simp only [decide_eq_true_eq, mask_eq_iff]
          simp

/-! ## Addresses -/

/-- Octets follow each other without a carry. -/
theorem shift_add (m o : BitVec 32) (ho : o.toNat < 256) : m <<< 8 + o = m <<< 8 ||| o := by
  apply BitVec.add_eq_or_of_and_eq_zero
  ext i hi
  by_cases h : i < 8
  · simp [h]
  · have hbit : o.toNat.testBit i = false := by
      apply Nat.testBit_lt_two_pow
      calc
        o.toNat < 2 ^ 8 := ho
        _ ≤ 2 ^ i := Nat.pow_le_pow_right (by decide) (Nat.le_of_not_lt h)
    simp [← BitVec.getLsbD_eq_getElem, BitVec.getLsbD, hbit]

theorem toNat_octet {n : Nat} (h : n ≤ 255) : (BitVec.ofNat 32 n).toNat < 256 := by
  rw [BitVec.toNat_ofNat]
  exact Nat.lt_of_le_of_lt (Nat.mod_le _ _) (Nat.lt_succ_of_le h)

/-- An IPv4 address is read as usual. -/
theorem ipv4ToInt_of_isIPv4 {s : Text} (h : isIPv4 s = true) :
    ipv4ToInt (some s) = some (ipToInt s) := by
  simp only [isIPv4, Bool.and_eq_true, decide_eq_true_eq, List.all_eq_true] at h
  obtain ⟨hlength, hall⟩ := h
  have hoctets : ∀ o ∈ s.splitOn '.', isOctetText o = true ∧ digitsValue o ≤ 255 := by
    intro o ho
    have hoctet := hall o ho
    simp only [isOctet, Bool.and_eq_true, decide_eq_true_eq] at hoctet
    exact ⟨hoctet.1.1, hoctet.1.2⟩
  obtain ⟨a, b, c, d, hparts⟩ := List.length_eq_four.1 hlength
  rw [hparts] at hoctets
  have hread : ipv4 s = some [digitsValue a, digitsValue b, digitsValue c, digitsValue d] := by
    simp [ipv4, hparts, hoctets]
  have hvalue : ∀ o ∈ [a, b, c, d], (BitVec.ofNat 32 (digitsValue o)).toNat < 256 :=
    fun o ho => toNat_octet (hoctets o ho).2
  have hmod : ∀ o ∈ [a, b, c, d], digitsValue o % 256 = digitsValue o :=
    fun o ho => Nat.mod_eq_of_lt (Nat.lt_succ_of_le (hoctets o ho).2)
  simp only [List.mem_cons, List.not_mem_nil, or_false, forall_eq_or_imp, forall_eq]
    at hvalue hmod
  simp only [ipv4ToInt, Option.getD_some, hread, ipToInt, hparts, List.foldl_cons,
    List.foldl_nil]
  rw [hmod.1, hmod.2.1, hmod.2.2.1, hmod.2.2.2]
  rw [shift_add _ _ hvalue.1, shift_add _ _ hvalue.2.1, shift_add _ _ hvalue.2.2.1,
    shift_add _ _ hvalue.2.2.2]
  simp only [BitVec.ofNat_eq_ofNat, BitVec.zero_shiftLeft, BitVec.zero_or,
    BitVec.shiftLeft_or_distrib, ← BitVec.shiftLeft_add, Nat.reduceAdd]

theorem isTrimmed_of_isDigit {c : Char} (h : c.isDigit = true) : isTrimmed c = false := by
  simp only [Char.isDigit, Bool.and_eq_true, decide_eq_true_eq] at h
  have hlow : 48 ≤ c.toNat := h.1
  have hhigh : c.toNat ≤ 57 := h.2
  simp only [isTrimmed, Bool.or_eq_false_iff, Bool.and_eq_false_iff, decide_eq_false_iff_not,
    beq_eq_false_iff_ne]
  omega

theorem parseInt_digits {s : Text} (h : isOctetText s = true) :
    parseInt s = some (digitsValue s : Int) := by
  simp only [isOctetText, Bool.and_eq_true, decide_eq_true_eq, List.all_eq_true] at h
  obtain ⟨⟨hne, _⟩, hdigits⟩ := h
  have hdrop : s.dropWhile isTrimmed = s := by
    apply dropWhile_eq_self
    intro c hc
    exact isTrimmed_of_isDigit (hdigits c (List.mem_of_mem_head? hc))
  have htake : s.takeWhile Char.isDigit = s := List.takeWhile_eq_self_iff.2 hdigits
  unfold parseInt
  simp only [hdrop]
  split
  · exact absurd (hdigits '-' (List.mem_cons_self ..)) (by decide)
  · exact absurd (hdigits '+' (List.mem_cons_self ..)) (by decide)
  · rw [htake, if_neg hne, Int.one_mul]

/-- What a socket gives as the address of its peer, and the IPv4 address that this is. -/
inductive PeerAddress : Option Text → Option (BitVec 32) → Prop
  | closed : PeerAddress none none
  | ipv4 {s : Text} (h : isIPv4 s = true) : PeerAddress (some s) (some (ipToInt s))
  | mapped {s : Text} (h : isIPv4 s = true) :
      PeerAddress (some (mappedPrefix ++ s)) (some (ipToInt s))
  /-- An IPv6 address in which no IPv4 address is mapped. -/
  | ipv6 {s : Text} (hcolon : ':' ∈ s) (hnot : ∀ v, s = mappedPrefix ++ v → '.' ∉ v) :
      PeerAddress (some s) none

theorem isPrefixOf_mapped {s : Text} :
    mappedPrefix.isPrefixOf s = true ↔ ∃ v, s = mappedPrefix ++ v := by
  rw [List.isPrefixOf_iff_prefix]
  exact ⟨fun ⟨v, h⟩ => ⟨v, h.symm⟩, fun ⟨v, h⟩ => ⟨v, h.symm⟩⟩

theorem normalizeIp_mapped (v : Text) : normalizeIp (some (mappedPrefix ++ v)) = some v := by
  rw [normalizeIp, Option.map_some, if_pos (isPrefixOf_mapped.2 ⟨v, rfl⟩), List.drop_left]

theorem normalizeIp_plain {s : Text} (h : ∀ v, s ≠ mappedPrefix ++ v) :
    normalizeIp (some s) = some s := by
  rw [normalizeIp, Option.map_some, if_neg]
  intro hprefix
  rcases isPrefixOf_mapped.1 hprefix with ⟨v, hv⟩
  exact h v hv

/-- Four numbers have three points between them, and nothing but digits. -/
theorem ipv4ToInt_eq_none {s : Text} (h : ':' ∈ s ∨ '.' ∉ s) : ipv4ToInt (some s) = none := by
  have hnone : ipv4 s = none := by
    rw [ipv4, if_neg]
    simp only [Bool.and_eq_true, decide_eq_true_eq, List.all_eq_true, not_and]
    intro hlength hall
    rcases h with hcolon | hdot
    · rcases mem_splitOn '.' hcolon with hc | ⟨o, ho, hco⟩
      · cases hc
      · have hoctet := hall o ho
        simp only [isOctetText, Bool.and_eq_true, List.all_eq_true] at hoctet
        exact absurd (hoctet.2 ':' hco) (by decide)
    · rw [List.splitOn_eq_singleton hdot] at hlength
      cases hlength
  simp [ipv4ToInt, hnone]

/-- The address of a peer is read as what it is. -/
theorem PeerAddress.read {src : Option Text} {ip : Option (BitVec 32)} (h : PeerAddress src ip) :
    ipv4ToInt (normalizeIp src) = ip := by
  cases h with
  | closed => rfl
  | @ipv4 s h =>
      rw [normalizeIp_plain, ipv4ToInt_of_isIPv4 h]
      rintro v rfl
      rcases char_of_isIPv4 h (List.mem_append_left v (by decide : ':' ∈ mappedPrefix)) with hc | hc
      · exact absurd hc (by decide)
      · exact absurd hc (by decide)
  | mapped h => rw [normalizeIp_mapped, ipv4ToInt_of_isIPv4 h]
  | @ipv6 s hcolon hnot =>
      by_cases hmapped : ∃ v, s = mappedPrefix ++ v
      · rcases hmapped with ⟨v, rfl⟩
        rw [normalizeIp_mapped, ipv4ToInt_eq_none (Or.inr (hnot v rfl))]
      · rw [normalizeIp_plain fun v hv => hmapped ⟨v, hv⟩, ipv4ToInt_eq_none (Or.inl hcolon)]

/-! ## Entries -/

/-- The entry is an address, or a network in its usual form. -/
def isNetwork (cidr : Text) : Bool :=
  match cidr.splitOn '/' with
  | [a] => isIPv4 a
  | [a, n] => isIPv4 a && (isOctetText n && digitsValue n ≤ 32)
  | _ => false

/-- The entry is a network, or it is passed over. -/
def Plain (cidr : Text) : Prop := isNetwork cidr = true ∨ readEntry cidr = none

instance (cidr : Text) : Decidable (Plain cidr) := inferInstanceAs (Decidable (_ ∨ _))

/-- A network is read as what it is. -/
theorem reads_of_isNetwork {cidr : Text} (h : isNetwork cidr = true) (ip : BitVec 32) :
    readEntry cidr ≠ none ∧ (Reads ip cidr ↔ inNet readIPv4 cidr ip = true) := by
  unfold isNetwork at h
  unfold Reads readEntry inNet
  split at h
  · rename_i a ha
    simp [ha, ipv4ToInt_of_isIPv4 h, readIPv4, h, samePrefix]
  · rename_i a n han
    simp only [Bool.and_eq_true, decide_eq_true_eq] at h
    obtain ⟨ha, hn, hlength⟩ := h
    have hrange : (0 : Int) ≤ digitsValue n ∧ (digitsValue n : Int) ≤ 32 := by omega
    simp [han, ipv4ToInt_of_isIPv4 ha, parseInt_digits hn, hrange, readIPv4, ha, hn, hlength]
  · cases h

/-- What is no network has no address in it. -/
theorem isNetwork_of_inNet {cidr : Text} {ip : BitVec 32} (h : inNet readIPv4 cidr ip = true) :
    isNetwork cidr = true := by
  have hread : ∀ {a : Text}, readIPv4 a ≠ none → isIPv4 a = true := by
    intro a ha
    by_contra hnot
    exact ha (by simp [readIPv4, hnot])
  unfold inNet at h
  split at h
  · rename_i a ha
    simp [isNetwork, ha, hread (a := a) (by simp [of_decide_eq_true h])]
  · rename_i a n han
    simp only [Bool.and_eq_true, Option.any_eq_true] at h
    obtain ⟨hn, base, hbase, _⟩ := h
    simp [isNetwork, han, hread (a := a) (by simp [hbase]), hn]
  · cases h

theorem Plain.reads_iff {cidr : Text} (h : Plain cidr) (ip : BitVec 32) :
    Reads ip cidr ↔ inNet readIPv4 cidr ip = true := by
  rcases h with hnetwork | hnone
  · exact (reads_of_isNetwork hnetwork ip).2
  · constructor
    · rintro ⟨base, n, hread, _⟩
      rw [hnone] at hread
      cases hread
    · intro hin
      exact absurd hnone (reads_of_isNetwork (isNetwork_of_inNet hin) ip).1

/-- The peer is let in when its address lies in one of the networks. -/
theorem ipInAllowlist_iff {src : Option Text} {ip : Option (BitVec 32)} (hsrc : PeerAddress src ip)
    {allowedCidrs : List Text} (hplain : ∀ cidr ∈ allowedCidrs, Plain cidr) :
    ipInAllowlist src allowedCidrs = true ↔
      ∃ cidr ∈ allowedCidrs, ip.any (inNet readIPv4 cidr) = true := by
  rw [ipInAllowlist_iff_reads, hsrc.read]
  cases ip with
  | none => simp
  | some x =>
      simp only [Option.some.injEq, exists_eq_left', Option.any_some]
      exact exists_congr fun cidr => and_congr_right fun hmem => (hplain cidr hmem).reads_iff x

end Proxy
end GateControl
