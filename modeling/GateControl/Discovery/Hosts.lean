import Mathlib.Data.List.Induction
import GateControl.Edge.PrivateTargets
import GateControl.Proxy.Allowlist

/-!
# Hosts — the addresses of a subnet

The guard, the allowlist and the sweep each have their own arithmetic for networks: a mask shifted
to the right and negated, one shifted to the left, and sums of 32 bits.  All three speak of the same
blocks: the addresses that agree before the last `32 - p` bits.
-/

namespace GateControl
namespace Discovery

open Library Blocks Edge Lan Proxy

/-! ## The sweep -/

/-- `_intToIp` -/
def intToIp (n : BitVec 32) : Text :=
  List.intercalate ['.'] ([(n >>> 24) &&& 255, (n >>> 16) &&& 255, (n >>> 8) &&& 255, n &&& 255].map
    fun o => decimal o.toNat)

/-- The hosts of a subnet that is written with a length in digits; without a length there are
none. -/
def hostsInSubnet (cidr : Text) : List Text :=
  match cidr.splitOn '/' with
  | network :: prefixStr :: _ =>
      let base := ipToInt network
      let count := 2 ^ (32 - digitsValue prefixStr)
      -- from 1 up to `count - 2`
      (List.range' 1 (count - 2)).map fun i => intToIp (base + BitVec.ofNat 32 i)
  | _ => []

/-! ## Addresses and numbers -/

/-- The number that an address stands for. -/
def addressValue (s : Text) : Nat := (octets s).foldl (fun n o => 256 * n + o) 0

theorem toNat_ipToInt {s : Text} (h : isIPv4 s = true) : (ipToInt s).toNat = addressValue s := by
  rw [addressValue, octets_of_isIPv4 h]
  have hlt := (ipToInt s).isLt
  simp only [quadOctets, List.foldl_cons, List.foldl_nil]
  omega

/-- An address as it is written. -/
def dotted (w : Nat) : Text := List.intercalate ['.'] ((quadOctets w).map decimal)

theorem isIPv4_dotted {w : Nat} (hw : w < 2 ^ 32) : isIPv4 (dotted w) = true := by
  have hall : ∀ o : Fin 256, isOctet (decimal o) = true := by decide +kernel
  rw [isIPv4, dotted, splitOn_intercalate _ (by simp [quadOctets])]
  simp only [quadOctets, List.map_cons, List.map_nil, List.length_cons, List.length_nil,
    List.all_cons, List.all_nil, Bool.and_true, Bool.and_eq_true, decide_eq_true_eq, true_and]
  exact ⟨hall ⟨_, by omega⟩, hall ⟨_, by omega⟩, hall ⟨_, by omega⟩, hall ⟨_, by omega⟩⟩

theorem toNat_ipToInt_dotted {w : Nat} (hw : w < 2 ^ 32) : (ipToInt (dotted w)).toNat = w :=
  ipToInt_written hw

theorem addressValue_dotted {w : Nat} (hw : w < 2 ^ 32) : addressValue (dotted w) = w := by
  rw [← toNat_ipToInt (isIPv4_dotted hw), toNat_ipToInt_dotted hw]

theorem intToIp_eq (n : BitVec 32) : intToIp n = dotted n.toNat := by
  have hlt := n.isLt
  have hmask : ∀ x : BitVec 32, (x &&& 255).toNat = x.toNat % 256 := by
    intro x
    rw [BitVec.toNat_and]
    exact Nat.and_two_pow_sub_one_eq_mod x.toNat 8
  have hfirst : n.toNat / 2 ^ 24 % 256 = n.toNat / 2 ^ 24 := by omega
  simp only [intToIp, dotted, quadOctets, List.map_cons, List.map_nil, hmask,
    BitVec.toNat_ushiftRight, Nat.shiftRight_eq_div_pow, hfirst]

/-! ## An address is written in one way -/

/-- Digits without a leading zero are those of their value. -/
theorem decimal_digitsValue {s : Text} (hne : s ≠ []) (hdigits : ∀ c ∈ s, c.isDigit = true)
    (hzero : s.head? ≠ some '0') : 0 < digitsValue s ∧ decimal (digitsValue s) = s := by
  induction s using List.reverseRecOn with
  | nil =>
      exact absurd rfl hne
  | append_singleton s c ih =>
      obtain ⟨hlt, hchar⟩ := digitChar_eq (hdigits c (by simp))
      have hvalue : digitsValue (s ++ [c]) = 10 * digitsValue s + (c.toNat - '0'.toNat) := by
        rw [digitsValue, List.foldl_append]
        rfl
      rw [hvalue]
      cases s with
      | nil =>
          have hpos : c.toNat - '0'.toNat ≠ 0 := by
            intro hnull
            rw [hnull] at hchar
            exact hzero (congrArg some hchar.symm)
          have hempty : digitsValue [] = 0 := rfl
          rw [hempty, Nat.mul_zero, Nat.zero_add, decimal, Nat.toDigits_of_lt_base hlt, hchar]
          exact ⟨Nat.pos_of_ne_zero hpos, rfl⟩
      | cons d s =>
          obtain ⟨hpos, hrest⟩ := ih (by simp) (fun c hc => hdigits c (List.mem_append_left _ hc))
            hzero
          refine ⟨by omega, ?_⟩
          rw [decimal, ← Nat.toDigits_append_toDigits (by decide) hpos hlt,
            Nat.toDigits_of_lt_base hlt, hchar]
          exact congrArg (· ++ [c]) hrest

theorem decimal_of_isOctet {o : Text} (h : isOctet o = true) : decimal (digitsValue o) = o := by
  simp only [isOctet, isOctetText, Bool.and_eq_true, decide_eq_true_eq, List.all_eq_true,
    Bool.or_eq_true] at h
  obtain ⟨⟨⟨⟨hne, _⟩, hdigits⟩, _⟩, hzero⟩ := h
  by_cases hhead : o.head? = some '0'
  · -- a leading zero is the only digit
    have hone := hzero.resolve_right (not_not.2 hhead)
    obtain ⟨c, rfl⟩ := List.length_eq_one_iff.1 hone
    obtain rfl : c = '0' := Option.some.inj hhead
    rfl
  · exact (decimal_digitsValue hne hdigits hhead).2

theorem eq_dotted {s : Text} (h : isIPv4 s = true) : s = dotted (addressValue s) := by
  have hoctets := octets_of_isIPv4 h
  rw [toNat_ipToInt h] at hoctets
  simp only [isIPv4, Bool.and_eq_true, decide_eq_true_eq, List.all_eq_true] at h
  have hparts : (octets s).map decimal = s.splitOn '.' := by
    rw [octets, List.map_map]
    exact (List.map_congr_left fun o ho => decimal_of_isOctet (h.2 o ho)).trans (List.map_id _)
  rw [dotted, ← hoctets, hparts, List.intercalate_splitOn]

theorem addressValue_lt {s : Text} (h : isIPv4 s = true) : addressValue s < 2 ^ 32 :=
  toNat_ipToInt h ▸ (ipToInt s).isLt

/-! ## Blocks -/

/-- The addresses agree before the last `32 - p` bits. -/
def SameBlock (p : Nat) (a n : Text) : Prop :=
  addressValue a / 2 ^ (32 - p) = addressValue n / 2 ^ (32 - p)

instance (p : Nat) (a n : Text) : Decidable (SameBlock p a n) :=
  inferInstanceAs (Decidable (_ = _))

theorem ipInCidr_iff_sameBlock {a n : Text} {p : Nat} (ha : isIPv4 a = true) (hn : isIPv4 n = true)
    (hp : p ≤ 32) : ipInCidr a n p = true ↔ SameBlock p a n := by
  rcases Nat.eq_zero_or_pos p with rfl | hpos
  · -- everything is one block
    have hzero : ∀ {s : Text}, isIPv4 s = true → addressValue s / 2 ^ (32 - 0) = 0 :=
      fun hs => Nat.div_eq_of_lt (addressValue_lt hs)
    rw [SameBlock, hzero ha, hzero hn]
    exact iff_of_true rfl rfl
  · rw [ipInCidr_iff hpos hp, toNat_ipToInt ha, toNat_ipToInt hn]
    rfl

theorem isOctetText_decimal {p : Nat} (hp : p ≤ 32) : isOctetText (decimal p) = true := by
  have hall : ∀ p : Fin 33, isOctetText (decimal p) = true := by decide +kernel
  exact hall ⟨p, Nat.lt_succ_of_le hp⟩

theorem splitOn_network {n : Text} {p : Nat} (hn : isIPv4 n = true) (hp : p ≤ 32) :
    (n ++ '/' :: decimal p).splitOn '/' = [n, decimal p] := by
  have hdigits := isOctetText_decimal hp
  have hslash : '/' ∉ decimal p := by
    intro hmem
    simp only [isOctetText, Bool.and_eq_true, List.all_eq_true] at hdigits
    exact absurd (hdigits.2 '/' hmem) (by decide)
  rw [List.splitOn_append_cons_self, List.splitOn_eq_singleton (slash_of_isIPv4 hn),
    List.splitOn_eq_singleton hslash]
  rfl

theorem ipInAllowlist_iff_sameBlock {a n : Text} {p : Nat} (ha : isIPv4 a = true)
    (hn : isIPv4 n = true) (hp : p ≤ 32) :
    ipInAllowlist (some a) [n ++ '/' :: decimal p] = true ↔ SameBlock p a n := by
  have hnetwork : isNetwork (n ++ '/' :: decimal p) = true := by
    simp [isNetwork, splitOn_network hn hp, hn, isOctetText_decimal hp, digitsValue_decimal, hp]
  have hin : inNet readIPv4 (n ++ '/' :: decimal p) (ipToInt a) =
      samePrefix p (ipToInt n) (ipToInt a) := by
    simp [inNet, splitOn_network hn hp, hn, isOctetText_decimal hp, digitsValue_decimal, hp, readIPv4]
  rw [ipInAllowlist_iff (.ipv4 ha) (List.forall_mem_singleton.2 (Or.inl hnetwork))]
  simp only [List.mem_singleton, exists_eq_left, Option.any_some]
  rw [hin, samePrefix, decide_eq_true_eq, ← BitVec.toNat_inj, BitVec.toNat_ushiftRight,
    BitVec.toNat_ushiftRight, Nat.shiftRight_eq_div_pow, Nat.shiftRight_eq_div_pow,
    toNat_ipToInt ha, toNat_ipToInt hn]
  exact eq_comm

/-! ## The hosts of a network -/

section Network

variable {w p : Nat}

/-- The hosts are those behind the first address of the network and before the last. -/
theorem hostsInSubnet_written (hw : w < 2 ^ 32) (hblock : 2 ^ (32 - p) ∣ w) :
    hostsInSubnet (written w p) = (List.range' 1 (2 ^ (32 - p) - 2)).map fun i => dotted (w + i) := by
  have hroom := add_pow_le (Nat.sub_le 32 p) hblock hw
  rw [hostsInSubnet, splitOn_written]
  simp only [digitsValue_decimal]
  refine List.map_congr_left fun i hi => ?_
  have hi := List.mem_range'_1.1 hi
  have hsmall : i < 2 ^ 32 := by omega
  have hsum : w + i < 2 ^ 32 := by omega
  rw [intToIp_eq, BitVec.toNat_add, ipToInt_written hw, BitVec.toNat_ofNat,
    Nat.mod_eq_of_lt hsmall, Nat.mod_eq_of_lt hsum]

theorem mem_hostsInSubnet_written (hw : w < 2 ^ 32) (hblock : 2 ^ (32 - p) ∣ w) {a : Text} :
    a ∈ hostsInSubnet (written w p) ↔
      isIPv4 a = true ∧ w < addressValue a ∧ addressValue a < w + 2 ^ (32 - p) - 1 := by
  have hroom := add_pow_le (Nat.sub_le 32 p) hblock hw
  rw [hostsInSubnet_written hw hblock, List.mem_map]
  constructor
  · rintro ⟨i, hi, rfl⟩
    have hi := List.mem_range'_1.1 hi
    have hsum : w + i < 2 ^ 32 := by omega
    rw [addressValue_dotted hsum]
    exact ⟨isIPv4_dotted hsum, by omega, by omega⟩
  · rintro ⟨ha, hlow, hhigh⟩
    refine ⟨addressValue a - w, List.mem_range'_1.2 ⟨by omega, by omega⟩, ?_⟩
    rw [Nat.add_sub_cancel' hlow.le]
    exact (eq_dotted ha).symm

theorem hostsInSubnet_written_increasing (hw : w < 2 ^ 32) (hblock : 2 ^ (32 - p) ∣ w) :
    (hostsInSubnet (written w p)).Pairwise fun a b => addressValue a < addressValue b := by
  have hroom := add_pow_le (Nat.sub_le 32 p) hblock hw
  rw [hostsInSubnet_written hw hblock, List.pairwise_map]
  refine List.Pairwise.imp_of_mem (fun {i j} hi hj hlt => ?_) List.pairwise_lt_range'
  have hi := List.mem_range'_1.1 hi
  have hj := List.mem_range'_1.1 hj
  rw [addressValue_dotted (by omega), addressValue_dotted (by omega)]
  omega

end Network

/-! ## All of them together -/

/-- The first address of the block. -/
def firstOf (n : Text) (p : Nat) : Nat := addressValue n / 2 ^ (32 - p) * 2 ^ (32 - p)

def lastOf (n : Text) (p : Nat) : Nat := firstOf n p + 2 ^ (32 - p) - 1

/-- The addresses of a network but for the first and the last, from the lowest to the highest. -/
structure HostsOf (n : Text) (p : Nat) (hosts : List Text) : Prop where
  increasing : hosts.Pairwise fun a b => addressValue a < addressValue b
  mem_iff : ∀ a, a ∈ hosts ↔ isIPv4 a = true ∧ ipInCidr a n p = true ∧
    addressValue a ≠ firstOf n p ∧ addressValue a ≠ lastOf n p

theorem hostsOf_written {w p : Nat} (hw : w < 2 ^ 32) (hp : p ≤ 32) (hblock : 2 ^ (32 - p) ∣ w) :
    HostsOf (dotted w) p (hostsInSubnet (written w p)) := by
  refine ⟨hostsInSubnet_written_increasing hw hblock, fun a => ?_⟩
  rw [mem_hostsInSubnet_written hw hblock]
  refine and_congr_right fun ha => ?_
  have hfirst : firstOf (dotted w) p = w := by
    rw [firstOf, addressValue_dotted hw, Nat.div_mul_cancel hblock]
  rw [ipInCidr_iff_sameBlock ha (isIPv4_dotted hw) hp, SameBlock, addressValue_dotted hw,
    div_eq_iff hblock, lastOf, hfirst]
  have hpos := Nat.two_pow_pos (32 - p)
  omega

/-- The addresses of LAN interfaces come with masks of leading ones. -/
def ContiguousMasks (ifaces : Interfaces) : Prop :=
  ∀ i ∈ ifaces, isPhysicalLan i.1 = true → ∀ addr ∈ i.2, addr.family = .ipv4 →
    addr.internal = false → ∀ a m, given addr.address = some a → given addr.netmask = some m →
      ∃ p, Reads addr a m p

theorem entryOf_spec {iface : Text} {addr : Address} {e : Lan.Entry}
    (h : entryOf iface addr = some e) : addr.family = .ipv4 ∧ addr.internal = false ∧
      ∃ a m, given addr.address = some a ∧ given addr.netmask = some m := by
  unfold entryOf at h
  split at h
  · cases h
  · rename_i hcounts
    rw [Bool.or_eq_true, not_or] at hcounts
    split at h
    · rename_i m a hm ha
      exact ⟨by simpa using hcounts.1, by simpa using hcounts.2, a, m, ha, hm⟩
    · cases h

/-- A subnet is the network of an address. -/
theorem cidr_of_mem_lanSubnets {gw : Option Text} {ifaces : Interfaces} {s : LanSubnet}
    (h : ContiguousMasks ifaces) (hs : s ∈ lanSubnets gw ifaces) :
    ∃ a p, 0 < p ∧ p < 32 ∧ s.cidr = written (networkNumber a p) p := by
  rcases mem_cidrs_lanSubnets.1 (List.mem_map_of_mem hs) with
    ⟨i, hi, hlan, addr, haddr, e, he, hcidr⟩
  obtain ⟨hfamily, hexternal, a, m, ha, hm⟩ := entryOf_spec he
  obtain ⟨p, hreads⟩ := h i hi hlan addr haddr hfamily hexternal a m ha hm
  rw [entryOf_eq hreads hfamily hexternal] at he
  split at he
  · cases he
  · rename_i hp
    cases he
    rw [not_or, not_le] at hp
    exact ⟨a, p, Nat.pos_of_ne_zero hp.1, hp.2, hcidr.symm.trans (written_networkNumber hreads)⟩

/-- The guard, the allowlist and the sweep agree on what a network is. -/
theorem networks_agree :
    (∀ (a n : Text) (p : Nat), isIPv4 a = true → isIPv4 n = true → p ≤ 32 →
      (ipInCidr a n p = true ↔ SameBlock p a n) ∧
        (ipInAllowlist (some a) [n ++ '/' :: decimal p] = true ↔ SameBlock p a n)) ∧
      ∀ (gw : Option Text) (ifaces : Interfaces), ContiguousMasks ifaces →
        ∀ s ∈ lanSubnets gw ifaces, ∃ n p, isIPv4 n = true ∧ 1 ≤ p ∧ p ≤ 31 ∧
          s.cidr = n ++ '/' :: decimal p ∧ HostsOf n p (hostsInSubnet s.cidr) := by
  constructor
  · intro a n p ha hn hp
    exact ⟨ipInCidr_iff_sameBlock ha hn hp, ipInAllowlist_iff_sameBlock ha hn hp⟩
  · intro gw ifaces h s hs
    obtain ⟨a, p, hpos, hp, hcidr⟩ := cidr_of_mem_lanSubnets h hs
    have hw := networkNumber_lt a p
    refine ⟨dotted (networkNumber a p), p, isIPv4_dotted hw, hpos, Nat.le_of_lt_succ hp, hcidr, ?_⟩
    rw [hcidr]
    exact hostsOf_written hw hp.le (pow_dvd_floorTo (Nat.le_refl _) _)

theorem contiguousMasks_of_wellFormed {ifaces : Interfaces} (h : WellFormed ifaces) :
    ContiguousMasks ifaces := by
  intro i hi _ addr haddr hfamily _ a m ha hm
  obtain ⟨a', m', p, hreads⟩ := h i hi addr haddr hfamily
  obtain rfl : a' = a := by
    have hsome := (Option.filter_eq_some_iff.1 ha).1
    exact Option.some.inj (hreads.address.symm.trans hsome)
  obtain rfl : m' = m := by
    have hsome := (Option.filter_eq_some_iff.1 hm).1
    exact Option.some.inj (hreads.netmask.symm.trans hsome)
  exact ⟨p, hreads⟩

/-- The gateway `192.168.1.20/24`. -/
theorem networks_agree_home :
    ipInAllowlist (some "192.168.1.5".toList) ["192.168.1.0".toList ++ '/' :: decimal 24] = true ∧
      ∃ n p, "192.168.1.0/24".toList = n ++ '/' :: decimal p ∧
        HostsOf n p (hostsInSubnet "192.168.1.0/24".toList) := by
  have hmasks : ContiguousMasks (oneAddress "192.168.1.20" "255.255.255.0") :=
    contiguousMasks_of_wellFormed
      (wellFormed_oneAddress (p := 24) (by decide) (by decide) (by decide) (by decide +kernel))
  constructor
  · refine ((networks_agree.1 _ _ 24 ?_ ?_ ?_).2).2 ?_ <;> decide +kernel
  · obtain ⟨n, p, -, -, -, hcidr, hhosts⟩ := networks_agree.2 none _ hmasks
      ⟨"eth0".toList, "192.168.1.0/24".toList, true⟩ (by decide +kernel)
    exact ⟨n, p, hcidr, hhosts⟩

end Discovery
end GateControl
