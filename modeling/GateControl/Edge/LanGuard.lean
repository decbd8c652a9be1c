import GateControl.Edge.Caps

/-!
# LanGuard — the targets of edge plugins

`makeLanGuard` lets a plugin reach IPv4 addresses of the LAN and nothing else: not the tunnel, not
the server, no host name.  Groups pass if the caller allows them.  `check_spec` says what a target
that passes is.
-/

namespace GateControl
namespace Edge

open Library

/-- A refused target. -/
structure DeniedError where
  message : String
  deriving DecidableEq

def DeniedError.code : String := "denied"

structure Subnet where
  network : Text
  bits : Nat
  deriving DecidableEq

/-- What the guard sees at a call: its subnets, the tunnel address and the server's addresses. -/
structure LanGuard where
  subnets : List Subnet
  tunnelIp : Option Text
  serverAddrs : List Text
  deriving DecidableEq

/-- A number up to 255 without leading zeros. -/
def isOctet (s : Text) : Bool :=
  isOctetText s && digitsValue s ≤ 255 && (s.length = 1 || s.head? ≠ some '0')

/-- `net.isIPv4`. -/
def isIPv4 (s : Text) : Bool :=
  let parts := s.splitOn '.'
  parts.length = 4 && parts.all isOctet

/-- `_ipToInt`: the octets from left to right, modulo `2 ^ 32`. -/
def ipToInt (s : Text) : BitVec 32 :=
  (s.splitOn '.').foldl (fun a o => (a <<< 8) + BitVec.ofNat 32 (digitsValue o % 256)) 0

/-- `ipInCidr`; `bits` is the length of the mask. -/
def ipInCidr (ip network : Text) (bits : Nat) : Bool :=
  if bits = 0 then true
  else
    let mask : BitVec 32 :=
      if bits ≥ 32 then BitVec.allOnes 32 else ~~~(BitVec.allOnes 32 >>> bits)
    ipToInt ip &&& mask = ipToInt network &&& mask

def isMulticast (ip : Text) : Bool :=
  ((ip.splitOn '.').head?.map digitsValue).any fun a => 224 ≤ a && a ≤ 239

/-- The address of the network itself. -/
def isNetworkAddress (host : Text) (s : Subnet) : Bool :=
  (host.splitOn '.').map digitsValue = (s.network.splitOn '.').map digitsValue && s.bits < 31

namespace LanGuard

variable (print : Json → String)

/-- `check`: a target that passes is returned. -/
def check (g : LanGuard) (host : Option Json) (multicast : List String) : Except DeniedError Text :=
  match host with
  | some (.str s) =>
      if !isIPv4 s then
        .error ⟨"target must be an IPv4 address in the LAN (got " ++
          String.ofList (s.take 64) ++ ")"⟩
      else if isMulticast s then
        if String.ofList s ∈ multicast then .ok s
        else .error ⟨"multicast group " ++ String.ofList s ++ " not approved"⟩
      else if g.tunnelIp.any fun t => t ≠ [] && s = t then
        .error ⟨"the tunnel address is not a LAN target"⟩
      else if s ∈ g.serverAddrs then .error ⟨"the server is not a LAN target"⟩
      else
        match g.subnets.find? fun n => ipInCidr s n.network n.bits with
        | none => .error ⟨String.ofList s ++ " is not in a LAN subnet of this gateway"⟩
        | some hit =>
            if isNetworkAddress s hit then .error ⟨"network address is not a target"⟩ else .ok s
  | some v =>
      .error ⟨"target must be an IPv4 address in the LAN (got " ++
        String.ofList ((print v).toList.take 64) ++ ")"⟩
  | none => .error ⟨"target must be an IPv4 address in the LAN (got undefined)"⟩

def allowed (g : LanGuard) (host : Text) : Bool := (g.check print (some (.str host)) []).toBool

/-- A unicast target in the LAN. -/
structure LanTarget (g : LanGuard) (host : Text) : Prop where
  ipv4 : isIPv4 host = true
  unicast : isMulticast host = false
  tunnel : g.tunnelIp ≠ some host
  server : host ∉ g.serverAddrs
  subnet : ∃ n ∈ g.subnets, ipInCidr host n.network n.bits = true

/-- What passes is a target of the LAN or one of the groups. -/
theorem check_spec {g : LanGuard} {host : Option Json} {multicast : List String} {s : Text}
    (h : g.check print host multicast = .ok s) :
    host = some (.str s) ∧
      (g.LanTarget s ∨ (isMulticast s = true ∧ String.ofList s ∈ multicast)) := by
  unfold check at h
  split at h
  · rename_i t
    split at h
    · cases h
    · rename_i hip
      have hip' : isIPv4 t = true := by simpa using hip
      split at h
      · rename_i hmulti
        split at h
        · rename_i hmem
          cases h
          exact ⟨rfl, Or.inr ⟨hmulti, hmem⟩⟩
        · cases h
      · rename_i hmulti
        split at h
        · cases h
        · rename_i htunnel
          split at h
          · cases h
          · rename_i hserver
            split at h
            · cases h
            · rename_i hit hfind
              split at h
              · cases h
              · cases h
                refine ⟨rfl, Or.inl ⟨hip', by simpa using hmulti, ?_, hserver, ?_⟩⟩
                · intro htip
                  -- the empty text is no address
                  have hne : s ≠ [] := by
                    rintro rfl
                    cases hip'
                  rw [htip] at htunnel
                  simp [hne] at htunnel
                · exact ⟨hit, List.mem_of_find?_eq_some hfind, by
                    simpa using List.find?_some hfind⟩
  · cases h
  · cases h

/-- A unicast address in one of the subnets passes, unless it is that of a subnet itself. -/
theorem check_ok {g : LanGuard} {host : Text} (hip : isIPv4 host = true)
    (hmulti : isMulticast host = false) (htunnel : g.tunnelIp = none)
    (hserver : host ∉ g.serverAddrs)
    (hsubnet : ∃ n ∈ g.subnets, ipInCidr host n.network n.bits = true)
    (hnet : ∀ n ∈ g.subnets, isNetworkAddress host n = false) :
    g.check print (some (.str host)) [] = .ok host := by
  rcases Option.isSome_iff_exists.1 (List.find?_isSome.2 hsubnet) with ⟨hit, hfind⟩
  have hnot := hnet hit (List.mem_of_find?_eq_some hfind)
  simp [check, hip, hmulti, htunnel, hserver, hfind, hnot]

end LanGuard

/-- `checkPort`. -/
def checkPort (print : Json → String) (port : Option Json) : Except DeniedError Nat :=
  match port.bind Json.int? with
  | some n =>
      if n < 1 || n > 65535 then .error ⟨"invalid port " ++ (port.map print).getD "undefined"⟩
      else .ok n.toNat
  | none => .error ⟨"invalid port " ++ (port.map print).getD "undefined"⟩

end Edge
end GateControl
