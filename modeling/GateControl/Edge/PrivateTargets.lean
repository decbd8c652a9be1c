import GateControl.Edge.Interfaces
import GateControl.Library.Blocks

/-!
# PrivateTargets — whether the guard lets only private addresses pass

`isPrivateNet` looks at the first two octets of a network address, but what the guard lets pass is
decided by the length of the mask.  `private_targets` names the networks whose address looks private
and that reach beyond the private ranges: `10.0.0.0/7` and `192.168.0.0` with 13 to 15 bits.
-/

namespace GateControl
namespace Edge
namespace Lan

open Library
open Blocks

/-! ## Addresses as numbers -/

/-- The number of four octets. -/
def quad (a b c d : Nat) : Nat := 2 ^ 8 * (2 ^ 8 * (2 ^ 8 * a + b) + c) + d

/-- The octets of a number. -/
def quadOctets (x : Nat) : List Nat := [x / 2 ^ 24, x / 2 ^ 16 % 256, x / 2 ^ 8 % 256, x % 256]

theorem quadOctets_quad {a b c d : Nat} (hb : b < 2 ^ 8) (hc : c < 2 ^ 8) (hd : d < 2 ^ 8) :
    quadOctets (quad a b c d) = [a, b, c, d] := by
  simp only [quadOctets, quad, List.cons.injEq, and_true]
  omega

theorem ipToInt_of_octets {s : Text} {a b c d : Nat} (h : octets s = [a, b, c, d]) (ha : a < 2 ^ 8)
    (hb : b < 2 ^ 8) (hc : c < 2 ^ 8) (hd : d < 2 ^ 8) : (ipToInt s).toNat = quad a b c d := by
  have hfold : ipToInt s = (octets s).foldl
      (fun (x : BitVec 32) o => (x <<< 8) + BitVec.ofNat 32 (o % 256)) 0 := by
    rw [octets, List.foldl_map]
    rfl
  rw [hfold, h]
  simp only [List.foldl_cons, List.foldl_nil, BitVec.toNat_add, BitVec.toNat_shiftLeft,
    BitVec.toNat_ofNat, Nat.shiftLeft_eq, quad]
  omega

/-- An address is four octets, and they are those of its number. -/
theorem octets_of_isIPv4 {s : Text} (h : isIPv4 s = true) :
    octets s = quadOctets (ipToInt s).toNat := by
  simp only [isIPv4, Bool.and_eq_true, decide_eq_true_eq, List.all_eq_true] at h
  obtain ⟨o₁, o₂, o₃, o₄, hparts⟩ : ∃ o₁ o₂ o₃ o₄, s.splitOn '.' = [o₁, o₂, o₃, o₄] :=
    List.length_eq_four.1 h.1
  have hsmall : ∀ o ∈ s.splitOn '.', digitsValue o < 2 ^ 8 := by
    intro o ho
    have hoctet := h.2 o ho
    simp only [isOctet, Bool.and_eq_true, decide_eq_true_eq] at hoctet
    exact Nat.lt_succ_of_le hoctet.1.2
  have hoctets : octets s =
      [digitsValue o₁, digitsValue o₂, digitsValue o₃, digitsValue o₄] := by
    rw [octets, hparts]
    rfl
  rw [hparts] at hsmall
  simp only [List.forall_mem_cons, List.not_mem_nil, false_implies, implies_true, and_true]
    at hsmall
  obtain ⟨h₁, h₂, h₃, h₄⟩ := hsmall
  rw [ipToInt_of_octets hoctets h₁ h₂ h₃ h₄, quadOctets_quad h₂ h₃ h₄, hoctets]

/-! ## Numbers as text -/

theorem digitsValue_decimal (n : Nat) : digitsValue (decimal n) = n :=
  Nat.ofDigitChars_toDigits (by decide) (by decide)

theorem splitOn_intercalate (ns : List Nat) (h : ns ≠ []) :
    (List.intercalate ['.'] (ns.map decimal)).splitOn '.' = ns.map decimal := by
  refine List.splitOn_intercalate '.' (fun t ht => ?_) (by simpa using h)
  rcases List.mem_map.1 ht with ⟨n, _, rfl⟩
  exact not_mem_decimal (by decide)

theorem octets_intercalate (ns : List Nat) (h : ns ≠ []) :
    octets (List.intercalate ['.'] (ns.map decimal)) = ns := by
  have hid : digitsValue ∘ decimal = id := funext digitsValue_decimal
  rw [octets, splitOn_intercalate ns h, List.map_map, hid, List.map_id]

theorem slash_not_mem (ns : List Nat) (h : ns ≠ []) :
    '/' ∉ List.intercalate ['.'] (ns.map decimal) := by
  intro hmem
  rcases mem_splitOn '.' hmem with hc | ⟨t, ht, hc⟩
  · cases hc
  · rw [splitOn_intercalate ns h] at ht
    rcases List.mem_map.1 ht with ⟨n, _, rfl⟩
    exact not_mem_decimal (by decide) hc

/-! ## Masks -/

/-- `p` leading ones. -/
def prefixMask (p : Nat) : BitVec 32 := ~~~(BitVec.allOnes 32 >>> p)

theorem toNat_prefixMask {p : Nat} (hp : p ≤ 32) : (prefixMask p).toNat = mask 32 (32 - p) := by
  have hall : ∀ p : Fin 33, (prefixMask p).toNat = mask 32 (32 - p) := by decide +kernel
  exact hall ⟨p, Nat.lt_succ_of_le hp⟩

theorem ones_of_mask {p : Nat} (hp : p ≤ 32) :
    (quadOctets (mask 32 (32 - p))).foldl (fun bits o => bits + (Nat.toDigits 2 o).count '1') 0 =
      p := by
  have hall : ∀ p : Fin 33, (quadOctets (mask 32 (32 - p))).foldl
      (fun bits o => bits + (Nat.toDigits 2 o).count '1') 0 = p := by
    decide +kernel
  exact hall ⟨p, Nat.lt_succ_of_le hp⟩

theorem ipInCidr_iff {ip network : Text} {p : Nat} (h0 : 0 < p) (hp : p ≤ 32) :
    ipInCidr ip network p = true ↔
      (ipToInt ip).toNat / 2 ^ (32 - p) = (ipToInt network).toNat / 2 ^ (32 - p) := by
  have hmask : (if p ≥ 32 then BitVec.allOnes 32 else ~~~(BitVec.allOnes 32 >>> p)) =
      prefixMask p := by
    split
    · rename_i hge
      obtain rfl : p = 32 := Nat.le_antisymm hp hge
      decide +kernel
    · rfl
  unfold ipInCidr
  rw [if_neg h0.ne', decide_eq_true_eq, hmask, ← BitVec.toNat_inj, BitVec.toNat_and,
    BitVec.toNat_and, toNat_prefixMask hp,
    and_mask_eq_iff (Nat.sub_le ..) (ipToInt ip).isLt (ipToInt network).isLt]

/-! ## The network of an address -/

theorem quadOctets_and (x y : Nat) :
    quadOctets (x &&& y) =
      (quadOctets x).zipIdx.map fun o => o.1 &&& (quadOctets y).getD o.2 0 := by
  have hpiece : ∀ k, (x &&& y) / 2 ^ k % 256 = (x / 2 ^ k % 256) &&& (y / 2 ^ k % 256) := by
    intro k
    rw [Nat.and_div_two_pow]
    exact Nat.and_mod_two_pow (n := 8)
  have hlast : (x &&& y) % 256 = (x % 256) &&& (y % 256) := Nat.and_mod_two_pow (n := 8)
  rw [quadOctets, Nat.and_div_two_pow, hpiece 16, hpiece 8, hlast]
  rfl

/-- The network address is that of the number whose last bits are cleared. -/
theorem networkAddress_eq {a m : Text} {p : Nat} (ha : isIPv4 a = true) (hm : isIPv4 m = true)
    (hp : p ≤ 32) (hmask : ipToInt m = prefixMask p) :
    networkAddress a m = List.intercalate ['.']
      ((quadOctets (floorTo (32 - p) (ipToInt a).toNat)).map decimal) := by
  have hmo : octets m = quadOctets (mask 32 (32 - p)) := by
    rw [octets_of_isIPv4 hm, hmask, toNat_prefixMask hp]
  have hand := and_mask (Nat.sub_le 32 p) (ipToInt a).isLt
  calc networkAddress a m
      = List.intercalate ['.'] ((quadOctets ((ipToInt a).toNat &&& mask 32 (32 - p))).map
          decimal) := by
        rw [networkAddress, octets_of_isIPv4 ha, hmo, quadOctets_and, List.map_map]
        rfl
    _ = List.intercalate ['.'] ((quadOctets (floorTo (32 - p) (ipToInt a).toNat)).map
          decimal) := by rw [hand]

/-- An address that counts, with its mask of `p` ones. -/
structure Reads (addr : Address) (a m : Text) (p : Nat) : Prop where
  address : addr.address = some a
  netmask : addr.netmask = some m
  ipv4 : isIPv4 a = true
  maskIpv4 : isIPv4 m = true
  length : p ≤ 32
  contiguous : ipToInt m = prefixMask p

theorem ne_nil_of_isIPv4 {s : Text} (h : isIPv4 s = true) : s ≠ [] := by
  rintro rfl
  cases h

/-- What is listed for an address. -/
theorem entryOf_eq {iface : Text} {addr : Address} {a m : Text} {p : Nat} (h : Reads addr a m p)
    (hfamily : addr.family = .ipv4) (hexternal : addr.internal = false) :
    entryOf iface addr = if p = 0 ∨ 32 ≤ p then none
      else some ⟨iface, networkAddress a m, p, networkAddress a m ++ '/' :: decimal p⟩ := by
  have hbits : netmaskToPrefix m = p := by
    rw [netmaskToPrefix, octets_of_isIPv4 h.maskIpv4, h.contiguous, toNat_prefixMask h.length,
      ones_of_mask h.length]
  have hm : given addr.netmask = some m := by
    rw [given, h.netmask]
    simp [ne_nil_of_isIPv4 h.maskIpv4]
  have ha : given addr.address = some a := by
    rw [given, h.address]
    simp [ne_nil_of_isIPv4 h.ipv4]
  simp [entryOf, hfamily, hexternal, hm, ha, hbits]

/-! ## What is listed -/

/-- The network number looks private. -/
def LooksPrivate (w : Nat) : Prop :=
  w / 2 ^ 24 = 10 ∨ (w / 2 ^ 24 = 172 ∧ 16 ≤ w / 2 ^ 16 % 256 ∧ w / 2 ^ 16 % 256 ≤ 31) ∨
    (w / 2 ^ 24 = 192 ∧ w / 2 ^ 16 % 256 = 168)

section Network

variable {w p : Nat}

/-- A network as it is written. -/
def written (w p : Nat) : Text :=
  List.intercalate ['.'] ((quadOctets w).map decimal) ++ '/' :: decimal p

theorem splitOn_written (w p : Nat) :
    (written w p).splitOn '/' =
      [List.intercalate ['.'] ((quadOctets w).map decimal), decimal p] := by
  have hnet := slash_not_mem (quadOctets w) (by simp [quadOctets])
  have hp : '/' ∉ decimal p := not_mem_decimal (by decide)
  rw [written, List.splitOn_append_cons_self, List.splitOn_eq_singleton hnet,
    List.splitOn_eq_singleton hp]
  rfl

theorem isPrivateNet_written (w p : Nat) : isPrivateNet (written w p) = true ↔ LooksPrivate w := by
  have hoctets : octets (((written w p).splitOn '/').headD []) = quadOctets w := by
    rw [splitOn_written]
    exact octets_intercalate _ (by simp [quadOctets])
  rw [isPrivateNet, hoctets]
  simp [quadOctets, LooksPrivate, and_assoc, or_assoc]

theorem subnetOf_written (w p : Nat) : subnetOf (written w p) =
    ⟨List.intercalate ['.'] ((quadOctets w).map decimal), p⟩ := by
  simp only [subnetOf, splitOn_written, digitsValue_decimal]

theorem ipToInt_written (hw : w < 2 ^ 32) :
    (ipToInt (List.intercalate ['.'] ((quadOctets w).map decimal))).toNat = w := by
  have hoctets := octets_intercalate (quadOctets w) (by simp [quadOctets])
  rw [ipToInt_of_octets hoctets (by omega) (by omega) (by omega) (by omega), quad]
  omega

end Network

/-! ## From the network to its hosts -/

/-- The networks that look private and reach beyond the private ranges, by the number of an address
and its mask: `10.0.0.0/7` and `192.168.0.0` with 13 to 15 bits. -/
def Wide (x p : Nat) : Prop :=
  (p = 7 ∧ x / 2 ^ 25 = 5) ∨
    (13 ≤ p ∧ p ≤ 15 ∧ x / 2 ^ (32 - p) = (192 * 2 ^ 24 + 168 * 2 ^ 16) / 2 ^ (32 - p))

/-- `10.0.0.0/8`, `172.16.0.0/12` or `192.168.0.0/16`. -/
def InPrivate (x : Nat) : Prop :=
  x / 2 ^ 24 = 10 ∨ x / 2 ^ 20 = 172 * 16 + 1 ∨ x / 2 ^ 16 = 192 * 256 + 168

/-- Under a network that looks private and is not one of these, every host is private. -/
theorem inPrivate_of_looksPrivate {x y p : Nat} (hsame : y / 2 ^ (32 - p) = x / 2 ^ (32 - p))
    (hlooks : LooksPrivate (floorTo (32 - p) x)) (hwide : ¬ Wide x p) : InPrivate y := by
  have hw : floorTo (32 - p) x / 2 ^ (32 - p) = x / 2 ^ (32 - p) := floorTo_div ..
  have hshort : ∀ j, 32 - p ≤ j → y / 2 ^ j = floorTo (32 - p) x / 2 ^ j :=
    fun j hj => div_eq_of_div_eq hj (hsame.trans hw.symm)
  have hdvd : ∀ j, j ≤ 32 - p → 2 ^ j ∣ floorTo (32 - p) x := fun j hj => pow_dvd_floorTo hj x
  have hseven : ¬ (p = 7 ∧ floorTo (32 - p) x / 2 ^ 25 = 5) := by
    rintro ⟨rfl, hx⟩
    exact hwide (Or.inl ⟨rfl, hw.symm.trans hx⟩)
  have hmiddle : ¬ (13 ≤ p ∧ p ≤ 15 ∧ floorTo (32 - p) x = 192 * 2 ^ 24 + 168 * 2 ^ 16) := by
    rintro ⟨hlow, hhigh, hx⟩
    exact hwide (Or.inr ⟨hlow, hhigh, by rw [← hw, hx]⟩)
  -- the rest is about the network number `w`, case by case in the length of the mask
  clear hwide hsame hw
  generalize floorTo (32 - p) x = w at *
  unfold LooksPrivate at hlooks
  unfold InPrivate
  rcases Nat.lt_or_ge 15 p with hp | hp
  · -- the first two octets are those of the network
    clear hseven hmiddle
    have h16 := hshort 16 (by omega)
    omega
  · rcases Nat.lt_or_ge 11 p with hp' | hp'
    · -- the first twelve bits are; `192.168` is not a network of twelve
      clear hseven
      have h20 := hshort 20 (by omega)
      have h16 := hdvd 16 (by omega)
      rcases Nat.lt_or_ge 12 p with hp'' | hp''
      · omega
      · have h20' := hdvd 20 (by omega)
        omega
    · rcases Nat.lt_or_ge 7 p with hp'' | hp''
      · -- the first octet is, and the second one is a multiple of 32
        clear hseven hmiddle
        have h24 := hshort 24 (by omega)
        have h21 := hdvd 21 (by omega)
        omega
      · -- the second octet is zero, so the first is 10, which is no multiple of 4
        clear hmiddle
        have h25 := hdvd 25 (by omega)
        rcases Nat.lt_or_ge 6 p with hseven' | hsix
        · omega
        · have h26 := hdvd 26 (by omega)
          omega

theorem looksPrivate_of_wide {x p : Nat} (h : Wide x p) : LooksPrivate (floorTo (32 - p) x) := by
  unfold LooksPrivate floorTo
  rcases h with ⟨rfl, hx⟩ | ⟨hlow, hhigh, hx⟩
  · -- the first seven bits of 10
    omega
  · -- 168 is a multiple of 8
    have hdvd : 2 ^ (32 - p) ∣ 192 * 2 ^ 24 + 168 * 2 ^ 16 :=
      (Nat.pow_dvd_pow 2 (by omega : 32 - p ≤ 19)).trans (by decide)
    rw [hx, Nat.div_mul_cancel hdvd]
    decide

/-- A host outside of the private ranges in such a network. -/
def stranger (p : Nat) : Text := if p = 7 then "11.0.0.1".toList else "192.169.0.1".toList

theorem stranger_spec (p : Nat) : isIPv4 (stranger p) = true ∧ isMulticast (stranger p) = false ∧
    (octets (stranger p)).getLast? = some 1 ∧ ¬ InPrivate (ipToInt (stranger p)).toNat := by
  unfold stranger InPrivate
  split
  · decide +kernel
  · decide +kernel

theorem stranger_inside {x p : Nat} (h : Wide x p) :
    (ipToInt (stranger p)).toNat / 2 ^ (32 - p) = x / 2 ^ (32 - p) := by
  rcases h with ⟨rfl, hx⟩ | ⟨hlow, hhigh, hx⟩
  · exact Eq.trans (by decide +kernel) hx.symm
  · rw [hx, stranger, if_neg (by omega)]
    -- the two differ in the sixteenth bit only
    have hbase : (ipToInt "192.169.0.1".toList).toNat / 2 ^ 17 =
        (192 * 2 ^ 24 + 168 * 2 ^ 16) / 2 ^ 17 := by
      decide +kernel
    exact div_eq_of_div_eq (by omega) hbase

/-! ## What the guard lets pass -/

/-- The host lies in one of the private ranges. -/
def isPrivateHost (host : Text) : Bool :=
  ipInCidr host "10.0.0.0".toList 8 || ipInCidr host "172.16.0.0".toList 12 ||
    ipInCidr host "192.168.0.0".toList 16

theorem isPrivateHost_iff (host : Text) :
    isPrivateHost host = true ↔ InPrivate (ipToInt host).toNat := by
  have h10 : (ipToInt "10.0.0.0".toList).toNat / 2 ^ 24 = 10 := by decide +kernel
  have h172 : (ipToInt "172.16.0.0".toList).toNat / 2 ^ 20 = 172 * 16 + 1 := by decide +kernel
  have h192 : (ipToInt "192.168.0.0".toList).toNat / 2 ^ 16 = 192 * 256 + 168 := by decide +kernel
  rw [isPrivateHost, Bool.or_eq_true, Bool.or_eq_true, ipInCidr_iff (by decide) (by decide),
    ipInCidr_iff (by decide) (by decide), ipInCidr_iff (by decide) (by decide), h10, h172, h192,
    or_assoc]
  rfl

/-- An address `a` of a LAN interface, with a mask of `p` ones. -/
def Counts (ifaces : Interfaces) (a : Text) (p : Nat) : Prop :=
  ∃ i ∈ ifaces, isPhysicalLan i.1 = true ∧ ∃ addr ∈ i.2, addr.family = .ipv4 ∧
    addr.internal = false ∧ ∃ m, Reads addr a m p

/-- IPv4 addresses come with a contiguous mask. -/
def WellFormed (ifaces : Interfaces) : Prop :=
  ∀ i ∈ ifaces, ∀ addr ∈ i.2, addr.family = .ipv4 → ∃ a m p, Reads addr a m p

def networkNumber (a : Text) (p : Nat) : Nat := floorTo (32 - p) (ipToInt a).toNat

theorem written_networkNumber {addr : Address} {a m : Text} {p : Nat} (h : Reads addr a m p) :
    networkAddress a m ++ '/' :: decimal p = written (networkNumber a p) p := by
  rw [networkAddress_eq h.ipv4 h.maskIpv4 h.length h.contiguous]
  rfl

/-- What is listed is a network of an address that counts. -/
theorem mem_privateLanCidrs_iff {gw : Option Text} {ifaces : Interfaces} (h : WellFormed ifaces)
    {c : Text} : c ∈ privateLanCidrs gw ifaces ↔ ∃ a p, Counts ifaces a p ∧ 0 < p ∧ p < 32 ∧
      LooksPrivate (networkNumber a p) ∧ c = written (networkNumber a p) p := by
  rw [mem_privateLanCidrs]
  constructor
  · rintro ⟨hprivate, i, hi, hlan, addr, haddr, e, he, rfl⟩
    have hcounts : addr.family = .ipv4 ∧ addr.internal = false := by
      by_contra hno
      have hskip : (addr.family ≠ .ipv4 || addr.internal) = true := by
        by_cases hf : addr.family = .ipv4
        · simpa [hf] using hno
        · simp [hf]
      rw [entryOf, if_pos hskip] at he
      cases he
    obtain ⟨a, m, p, hreads⟩ := h i hi addr haddr hcounts.1
    rw [entryOf_eq hreads hcounts.1 hcounts.2] at he
    split at he
    · cases he
    · rename_i hp
      cases he
      rw [written_networkNumber hreads] at hprivate ⊢
      refine ⟨a, p, ⟨i, hi, hlan, addr, haddr, hcounts.1, hcounts.2, m, hreads⟩, ?_, ?_,
        (isPrivateNet_written _ _).1 hprivate, rfl⟩
      · exact Nat.pos_of_ne_zero fun h0 => hp (Or.inl h0)
      · exact Nat.lt_of_not_le fun h32 => hp (Or.inr h32)
  · rintro ⟨a, p, ⟨i, hi, hlan, addr, haddr, hfamily, hexternal, m, hreads⟩, h0, hp, hlooks, rfl⟩
    refine ⟨(isPrivateNet_written _ _).2 hlooks, i, hi, hlan, addr, haddr,
      ⟨i.1, networkAddress a m, p, networkAddress a m ++ '/' :: decimal p⟩, ?_,
      written_networkNumber hreads⟩
    rw [entryOf_eq hreads hfamily hexternal, if_neg]
    rintro (rfl | h32)
    · exact Nat.lt_irrefl 0 h0
    · exact Nat.not_le.2 hp h32

theorem networkNumber_lt (a : Text) (p : Nat) : networkNumber a p < 2 ^ 32 :=
  (Nat.div_mul_le_self ..).trans_lt (ipToInt a).isLt

/-- A listed network holds the hosts that share its leading bits. -/
theorem ipInCidr_listed {host a : Text} {p : Nat} (h0 : 0 < p) (hp : p < 32) :
    ipInCidr host (subnetOf (written (networkNumber a p) p)).network
        (subnetOf (written (networkNumber a p) p)).bits = true ↔
      (ipToInt host).toNat / 2 ^ (32 - p) = (ipToInt a).toNat / 2 ^ (32 - p) := by
  rw [subnetOf_written, ipInCidr_iff h0 hp.le, ipToInt_written (networkNumber_lt a p),
    networkNumber, floorTo_div]

/-- The last octet of a network address is a multiple of 4. -/
theorem not_networkAddress {host : Text} (hlast : (octets host).getLast? = some 1) (a : Text)
    (p : Nat) : isNetworkAddress host (subnetOf (written (networkNumber a p) p)) = false := by
  rw [← Bool.not_eq_true, subnetOf_written, isNetworkAddress, Bool.and_eq_true]
  rintro ⟨hsame, hp⟩
  have hsame : octets host = quadOctets (networkNumber a p) :=
    (of_decide_eq_true hsame).trans (octets_intercalate _ (by simp [quadOctets]))
  have hp : p < 31 := of_decide_eq_true hp
  have hone : networkNumber a p % 256 = 1 := by
    rw [hsame] at hlast
    exact Option.some.inj hlast
  have hfour : 2 ^ 2 ∣ networkNumber a p := pow_dvd_floorTo (by omega) _
  omega

/-- What the guard lets pass is private if and only if no interface has an address whose network is
`10.0.0.0/7`, or `192.168.0.0` with 13 to 15 bits. -/
theorem private_targets (gw : Option Text) (ifaces : Interfaces) (h : WellFormed ifaces) :
    (∀ (print : Json → String) (tunnelIp : Option Text) (serverAddrs : List Text)
      (multicast : List String) (host : Text),
      (privateGuard gw ifaces tunnelIp serverAddrs).check print (some (.str host)) multicast =
        .ok host → isMulticast host = false → isPrivateHost host = true) ↔
      ∀ a p, Counts ifaces a p → ¬ Wide (ipToInt a).toNat p := by
  constructor
  · intro hall a p hcounts hwide
    have hp : 0 < p ∧ p < 32 := by
      rcases hwide with ⟨rfl, _⟩ | ⟨hlow, hhigh, _⟩
      · exact ⟨by decide, by decide⟩
      · exact ⟨Nat.lt_of_lt_of_le (by decide) hlow, Nat.lt_of_le_of_lt hhigh (by decide)⟩
    -- a public address lies in the network, and the guard lets it pass
    obtain ⟨hip, hmulti, hlast, hpublic⟩ := stranger_spec p
    have hmem : written (networkNumber a p) p ∈ privateLanCidrs gw ifaces :=
      (mem_privateLanCidrs_iff h).2
        ⟨a, p, hcounts, hp.1, hp.2, looksPrivate_of_wide hwide, rfl⟩
    have hpass : (privateGuard gw ifaces none []).check (fun _ => "")
        (some (.str (stranger p))) [] = .ok (stranger p) := by
      refine LanGuard.check_ok _ hip hmulti rfl (by simp [privateGuard]) ?_ ?_
      · exact ⟨_, List.mem_map_of_mem hmem, (ipInCidr_listed hp.1 hp.2).2 (stranger_inside hwide)⟩
      · intro n hn
        obtain ⟨c, hc, rfl⟩ := List.mem_map.1 hn
        obtain ⟨b, q, _, _, _, _, rfl⟩ := (mem_privateLanCidrs_iff h).1 hc
        exact not_networkAddress hlast b q
    exact hpublic ((isPrivateHost_iff _).1 (hall _ none [] [] _ hpass hmulti))
  · intro hno print tunnelIp serverAddrs multicast host hcheck hmulti
    rcases (LanGuard.check_spec print hcheck).2 with hlan | ⟨hm, _⟩
    · -- the host is in a listed network, and that one is not wide
      obtain ⟨n, hn, hin⟩ := hlan.subnet
      obtain ⟨c, hc, rfl⟩ := List.mem_map.1 hn
      obtain ⟨a, p, hcounts, h0, hp, hlooks, rfl⟩ := (mem_privateLanCidrs_iff h).1 hc
      rw [ipInCidr_listed h0 hp] at hin
      exact (isPrivateHost_iff host).2 (inPrivate_of_looksPrivate hin hlooks (hno a p hcounts))
    · rw [hmulti] at hm
      cases hm

/-! ## Two gateways -/

/-- A host with one LAN address. -/
def oneAddress (address netmask : String) : Interfaces :=
  [("eth0".toList, [⟨.ipv4, false, some address.toList, some netmask.toList⟩])]

theorem wellFormed_oneAddress {address netmask : String} {p : Nat}
    (ha : isIPv4 address.toList = true) (hm : isIPv4 netmask.toList = true) (hp : p ≤ 32)
    (hmask : ipToInt netmask.toList = prefixMask p) : WellFormed (oneAddress address netmask) := by
  intro i hi addr haddr _
  rw [List.mem_singleton.1 hi] at haddr
  rw [List.mem_singleton.1 haddr]
  exact ⟨_, _, p, rfl, rfl, ha, hm, hp, hmask⟩

/-- A network of 24 bits is not wide, so what passes is private. -/
theorem private_targets_home :
    (privateGuard none (oneAddress "192.168.1.20" "255.255.255.0") none []).check (fun _ => "")
        (some (.str "192.168.1.5".toList)) [] = .ok "192.168.1.5".toList ∧
      isPrivateHost "192.168.1.5".toList = true := by
  have hwell : WellFormed (oneAddress "192.168.1.20" "255.255.255.0") :=
    wellFormed_oneAddress (p := 24) (by decide) (by decide) (by decide) (by decide +kernel)
  have hpass : (privateGuard none (oneAddress "192.168.1.20" "255.255.255.0") none []).check
      (fun _ => "") (some (.str "192.168.1.5".toList)) [] = .ok "192.168.1.5".toList := by
    decide +kernel
  refine ⟨hpass, (private_targets none _ hwell).2 ?_ _ none [] [] _ hpass (by decide)⟩
  rintro a p ⟨i, hi, _, addr, haddr, _, _, m, hreads⟩ hwide
  rw [List.mem_singleton.1 hi] at haddr
  rw [List.mem_singleton.1 haddr] at hreads
  obtain rfl : "255.255.255.0".toList = m := Option.some.inj hreads.netmask
  -- a mask of fewer than 16 ones is another one
  have hlong : ∀ q : Fin 16, prefixMask q ≠ ipToInt "255.255.255.0".toList := by decide +kernel
  have hshort : p < 16 := by
    rcases hwide with ⟨rfl, _⟩ | ⟨_, hp, _⟩
    · decide
    · exact Nat.lt_succ_of_le hp
  exact hlong ⟨p, hshort⟩ hreads.contiguous.symm

/-- An address with a mask of seven ones makes public addresses targets. -/
theorem public_target :
    WellFormed (oneAddress "10.0.0.5" "254.0.0.0") ∧
      privateLanCidrs none (oneAddress "10.0.0.5" "254.0.0.0") = ["10.0.0.0/7".toList] ∧
      (privateGuard none (oneAddress "10.0.0.5" "254.0.0.0") none []).check (fun _ => "")
        (some (.str "11.0.0.1".toList)) [] = .ok "11.0.0.1".toList ∧
      isMulticast "11.0.0.1".toList = false ∧ isPrivateHost "11.0.0.1".toList = false := by
  refine ⟨?_, ?_, ?_, by decide, by decide +kernel⟩
  · exact wellFormed_oneAddress (p := 7) (by decide) (by decide) (by decide) (by decide +kernel)
  · decide +kernel
  · decide +kernel

end Lan
end Edge
end GateControl
