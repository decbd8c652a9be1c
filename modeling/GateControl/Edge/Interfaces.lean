import GateControl.Edge.LanGuard

/-!
# Interfaces — the LAN of the gateway

`lanSubnets` lists the subnets of the physical interfaces, and `privateLanCidrs` those among them
whose network address looks private.  `privateGuard` is the guard that `makeLanGuard` makes of them.
-/

namespace GateControl
namespace Edge
namespace Lan

open Library

/-! ## The interfaces of the host -/

inductive Family
  | ipv4
  | ipv6
  deriving DecidableEq

/-- An entry of `os.networkInterfaces()`. -/
structure Address where
  family : Family
  internal : Bool
  address : Option Text
  netmask : Option Text
  deriving DecidableEq

/-- The interfaces by their names. -/
abbrev Interfaces := List (Text × List Address)

/-- Loopback, the tunnel, containers and other overlays. -/
def overlays : List String :=
  ["wg", "gatecontrol0", "docker", "br-", "veth", "tailscale", "zt", "nebula"]

def isPhysicalLan (name : Text) : Bool :=
  name ≠ "lo".toList && !overlays.any fun o => o.toList.isPrefixOf name

/-- `s.split('.').map(Number)` -/
def octets (s : Text) : List Nat := (s.splitOn '.').map digitsValue

/-- The ones of a mask. -/
def netmaskToPrefix (netmask : Text) : Nat :=
  (octets netmask).foldl (fun bits o => bits + (Nat.toDigits 2 o).count '1') 0

def networkAddress (ip netmask : Text) : Text :=
  let mP := octets netmask
  -- octets are small enough for `&` to be that of natural numbers
  List.intercalate ['.'] ((octets ip).zipIdx.map fun o => decimal (o.1 &&& mP.getD o.2 0))

/-! ## Subnets -/

structure Entry where
  iface : Text
  network : Text
  bits : Nat
  cidr : Text
  deriving DecidableEq

/-- A text that is there and not empty. -/
def given (s : Option Text) : Option Text := s.filter fun t => t ≠ []

/-- The network of an address, if it is one of a LAN. -/
def entryOf (iface : Text) (addr : Address) : Option Entry :=
  if addr.family ≠ .ipv4 || addr.internal then none
  else
    match given addr.netmask, given addr.address with
    | some netmask, some address =>
        let bits := netmaskToPrefix netmask
        if bits = 0 || 32 ≤ bits then none
        else
          let network := networkAddress address netmask
          some ⟨iface, network, bits, network ++ '/' :: decimal bits⟩
    | _, _ => none

/-- `entries` names the networks seen so far. -/
def addAddress (iface : Text) (entries : List Entry) (addr : Address) : List Entry :=
  match entryOf iface addr with
  | none => entries
  | some e => if entries.any fun x => x.cidr = e.cidr then entries else entries ++ [e]

def addInterface (entries : List Entry) (i : Text × List Address) : List Entry :=
  if isPhysicalLan i.1 then i.2.foldl (addAddress i.1) entries else entries

def lanEntries (ifaces : Interfaces) : List Entry := ifaces.foldl addInterface []

structure LanSubnet where
  iface : Text
  cidr : Text
  primary : Bool
  deriving DecidableEq

/-- The subnet of the default route is the primary one, or else the first. -/
def lanSubnets (defaultGwIp : Option Text) (ifaces : Interfaces) : List LanSubnet :=
  let entries := lanEntries ifaces
  let primaryIdx := ((given defaultGwIp).bind fun ip =>
    entries.findIdx? fun e => ipInCidr ip e.network e.bits).getD 0
  entries.zipIdx.map fun e => ⟨e.1.iface, e.1.cidr, e.2 = primaryIdx⟩

/-- The network address of a subnet as it is written lies in 10/8, 172.16/12 or 192.168/16. -/
def isPrivateNet (cidr : Text) : Bool :=
  match octets ((cidr.splitOn '/').headD []) with
  | a :: b :: _ => a = 10 || (a = 172 && 16 ≤ b && b ≤ 31) || (a = 192 && b = 168)
  | [a] => a = 10
  | [] => false

def privateLanCidrs (defaultGwIp : Option Text) (ifaces : Interfaces) : List Text :=
  ((lanSubnets defaultGwIp ifaces).map LanSubnet.cidr).filter isPrivateNet

/-- A subnet as the guard reads it. -/
def subnetOf (cidr : Text) : Subnet :=
  match cidr.splitOn '/' with
  | n :: p :: _ => ⟨n, digitsValue p⟩
  | [n] => ⟨n, 0⟩
  | [] => ⟨[], 0⟩

/-- `makeLanGuard` over the subnets of the gateway itself. -/
def privateGuard (defaultGwIp : Option Text) (ifaces : Interfaces) (tunnelIp : Option Text)
    (serverAddrs : List Text) : LanGuard where
  subnets := (privateLanCidrs defaultGwIp ifaces).map subnetOf
  tunnelIp := tunnelIp
  serverAddrs := serverAddrs

/-! ## The list of subnets -/

theorem mem_cidrs_addAddress {iface : Text} {entries : List Entry} {addr : Address} {c : Text} :
    c ∈ (addAddress iface entries addr).map Entry.cidr ↔
      c ∈ entries.map Entry.cidr ∨ ∃ e, entryOf iface addr = some e ∧ e.cidr = c := by
  unfold addAddress
  split
  · rename_i hnone
    simp [hnone]
  · rename_i e he
    split
    · -- a network that is listed already is not listed again
      rename_i hseen
      rcases List.any_eq_true.1 hseen with ⟨x, hx, hxe⟩
      have hmem : e.cidr ∈ entries.map Entry.cidr :=
        List.mem_map.2 ⟨x, hx, of_decide_eq_true hxe⟩
      simp only [he, Option.some.injEq, exists_eq_left']
      refine ⟨Or.inl, ?_⟩
      rintro (hc | rfl)
      · exact hc
      · exact hmem
    · simp [he, eq_comm]

theorem mem_cidrs_foldl_addAddress {iface : Text} {c : Text} (addrs : List Address) :
    ∀ entries : List Entry, c ∈ (addrs.foldl (addAddress iface) entries).map Entry.cidr ↔
      c ∈ entries.map Entry.cidr ∨
        ∃ addr ∈ addrs, ∃ e, entryOf iface addr = some e ∧ e.cidr = c := by
  induction addrs with
  | nil =>
      simp
  | cons addr addrs ih =>
      intro entries
      rw [List.foldl_cons, ih, mem_cidrs_addAddress, List.exists_mem_cons_iff, or_assoc]

theorem mem_cidrs_foldl_addInterface {c : Text} (ifaces : Interfaces) :
    ∀ entries : List Entry, c ∈ (ifaces.foldl addInterface entries).map Entry.cidr ↔
      c ∈ entries.map Entry.cidr ∨ ∃ i ∈ ifaces, isPhysicalLan i.1 = true ∧
        ∃ addr ∈ i.2, ∃ e, entryOf i.1 addr = some e ∧ e.cidr = c := by
  induction ifaces with
  | nil =>
      simp
  | cons i ifaces ih =>
      intro entries
      rw [List.foldl_cons, ih, List.exists_mem_cons_iff, ← or_assoc]
      refine or_congr_left ?_
      unfold addInterface
      split
      · rename_i hlan
        simp [mem_cidrs_foldl_addAddress, hlan]
      · rename_i hlan
        simp [hlan]

/-- The subnets are listed as they were found; one of them is marked. -/
theorem map_cidr_lanSubnets (gw : Option Text) (ifaces : Interfaces) :
    (lanSubnets gw ifaces).map LanSubnet.cidr = (lanEntries ifaces).map Entry.cidr := by
  have hcidr : (lanSubnets gw ifaces).map LanSubnet.cidr =
      (lanEntries ifaces).zipIdx.map fun e => e.1.cidr := by
    rw [lanSubnets, List.map_map]
    rfl
  -- which subnet is the primary one does not matter here
  calc
    (lanSubnets gw ifaces).map LanSubnet.cidr
        = ((lanEntries ifaces).zipIdx.map Prod.fst).map Entry.cidr := by
          rw [hcidr, List.map_map]
          rfl
    _ = (lanEntries ifaces).map Entry.cidr := by rw [List.zipIdx_map_fst]

theorem mem_cidrs_lanSubnets {gw : Option Text} {ifaces : Interfaces} {c : Text} :
    c ∈ (lanSubnets gw ifaces).map LanSubnet.cidr ↔ ∃ i ∈ ifaces,
      isPhysicalLan i.1 = true ∧ ∃ addr ∈ i.2, ∃ e, entryOf i.1 addr = some e ∧ e.cidr = c := by
  rw [map_cidr_lanSubnets, lanEntries, mem_cidrs_foldl_addInterface]
  simp

/-- The subnets are those of the physical interfaces, each once. -/
theorem mem_privateLanCidrs {gw : Option Text} {ifaces : Interfaces} {c : Text} :
    c ∈ privateLanCidrs gw ifaces ↔ isPrivateNet c = true ∧ ∃ i ∈ ifaces,
      isPhysicalLan i.1 = true ∧ ∃ addr ∈ i.2, ∃ e, entryOf i.1 addr = some e ∧ e.cidr = c := by
  rw [privateLanCidrs, List.mem_filter, mem_cidrs_lanSubnets, and_comm]

end Lan
end Edge
end GateControl
