import GateControl.Library.Json
import GateControl.Edge.Topics

/-!
# Caps — the capabilities of edge plugins

A manifest asks for capabilities, and the server approves some of them.  `validateCaps` checks
either list, `intersectCaps` gives what is in force.  What the intersection allows, both sides allow:
`intersectCaps_right` is what the gateway relies on, because the left side is a claim of the edge
container.
-/

namespace GateControl
namespace Edge

open Library

/-! ## Checked capabilities -/

structure UdpCaps where
  ports : List Nat
  multicast : List String
  deriving DecidableEq

/-- Checked capabilities; a field is missing where the capability is not asked for. -/
structure Caps where
  udp : Option UdpCaps := none
  mdns : Option (List String) := none
  /-- `tcp.lan` -/
  tcp : Option Bool := none
  /-- `http.lan` -/
  http : Option Bool := none
  /-- `mqtt.topics` -/
  mqtt : Option (List String) := none
  serial : Option (List String) := none
  deriving DecidableEq

structure ManifestError where
  code : String
  message : String
  deriving DecidableEq

def badCaps {α : Type} (message : String) : Except ManifestError α := .error ⟨"bad_caps", message⟩

def capKeys : List String := ["udp", "mdns", "tcp", "http", "mqtt", "serial"]

def serialNames : List String := ["zigbee"]

def mdnsGroup : String := "224.0.0.251"

/-- `/^\d{1,3}$/`. -/
def isOctetText (s : Text) : Bool := s ≠ [] && s.length ≤ 3 && s.all Char.isDigit

/-- The value of a text of digits. -/
def digitsValue (s : Text) : Nat := s.foldl (fun n c => 10 * n + (c.toNat - '0'.toNat)) 0

/-- The octets of a dotted address. -/
def ipv4 (s : Text) : Option (List Nat) :=
  let parts := s.splitOn '.'
  if parts.length = 4 && parts.all isOctetText then
    let octets := parts.map digitsValue
    if octets.all (· ≤ 255) then some octets else none
  else none

/-- Multicast without the local control groups, mDNS apart. -/
def multicastAllowed (g : Text) : Bool :=
  match ipv4 g with
  | some [a, b, c, _] =>
      if a < 224 || a > 239 then false
      else if a = 224 && b = 0 && c = 0 then g = mdnsGroup.toList
      else true
  | _ => false

def isLowerAlnum (c : Char) : Bool := ('a' ≤ c && c ≤ 'z') || ('0' ≤ c && c ≤ '9')

/-- `/^_[a-z0-9](?:[a-z0-9-]{0,61}[a-z0-9])?\._(?:tcp|udp)$/`. -/
def isMdnsService (s : Text) : Bool :=
  match s.splitOn '.' with
  | [name, proto] =>
      (proto = "_tcp".toList || proto = "_udp".toList) &&
        match name with
        | '_' :: label =>
            label ≠ [] && label.length ≤ 63 && label.all (fun c => isLowerAlnum c || c = '-') &&
              (label.head?.any isLowerAlnum) && (label.getLast?.any isLowerAlnum)
        | _ => false
  | _ => false

/-! ## `validateCaps` -/

section Validate

-- `print` is the text that JavaScript makes of a value in a message
variable (print : Json → String) (place : String)

def validatePort (p : Json) : Except ManifestError Nat :=
  match p.int? with
  | some n =>
      if n < 1024 || n > 65535 then
        badCaps (place ++ ".udp.ports: " ++ print p ++ " (1024–65535)")
      else if n = 5353 then badCaps (place ++ ".udp.ports: 5353 only through \"mdns\"")
      else .ok n.toNat
  | none => badCaps (place ++ ".udp.ports: " ++ print p ++ " (1024–65535)")

def validateGroup (g : Json) : Except ManifestError String :=
  match g with
  | .str s =>
      if multicastAllowed s then .ok (String.ofList s)
      else badCaps (place ++ ".udp.multicast: " ++ print g ++ " not allowed")
  | _ => badCaps (place ++ ".udp.multicast: " ++ print g ++ " not allowed")

/-- A list of bounded length whose elements pass a check, without repetitions. -/
def validateList {α : Type} [DecidableEq α] (limit : Nat) (j : Json) (message : String)
    (check : Json → Except ManifestError α) : Except ManifestError (List α) :=
  match j with
  | .arr items =>
      if items.length > limit then badCaps message
      else (items.mapM check).map List.eraseDups
  | _ => badCaps message

def validateUdp (u : Json) : Except ManifestError UdpCaps :=
  if !u.isObj then badCaps (place ++ ".udp must be an object")
  else do
    let ports ← validateList 16 ((u.get? "ports").getD (.arr []))
      (place ++ ".udp.ports: list of at most 16 ports") (validatePort print place)
    let groups ← validateList 16 ((u.get? "multicast").getD (.arr []))
      (place ++ ".udp.multicast: list of at most 16 groups") (validateGroup print place)
    return ⟨ports, groups⟩

/-- A text that passes a test. -/
def validateText (test : Text → Bool) (what : String) (j : Json) : Except ManifestError String :=
  match j with
  | .str s => if test s then .ok (String.ofList s) else badCaps (place ++ what ++ print j)
  | _ => badCaps (place ++ what ++ print j)

def validateMdns (m : Json) : Except ManifestError (List String) :=
  validateList 16 ((m.get? "services").getD .null)
    (place ++ ".mdns.services: list of at most 16 services")
    (validateText print place isMdnsService ".mdns.services: ")

/-- `{ "lan": true|false }`. -/
def validateLan (what : String) (j : Json) : Except ManifestError Bool :=
  match j.get? "lan" with
  | some (.bool b) =>
      if j.fields.any fun f => f.1 ≠ "lan".toList then
        badCaps (place ++ what ++ " must be \x7b \"lan\": true|false \x7d")
      else .ok b
  | _ => badCaps (place ++ what ++ " must be \x7b \"lan\": true|false \x7d")

def validateHttp (h : Json) : Except ManifestError Bool :=
  if (h.get? "selfSigned").isSome then
    badCaps (place ++ ".http.selfSigned is no longer supported — pin self-signed certificates " ++
      "with pinSha256 (gc.lan.tlsFingerprint)")
  else validateLan place ".http" h

def validateMqtt (m : Json) : Except ManifestError (List String) :=
  validateList 16 ((m.get? "topics").getD .null)
    (place ++ ".mqtt.topics: list of at most 16 topics")
    (validateText print place (fun t => Topics.validPluginFilter (String.ofList t))
      ".mqtt.topics: ")

def validateSerialName (s : Json) : Except ManifestError String :=
  match s with
  | .str t =>
      if String.ofList t ∈ serialNames then .ok (String.ofList t)
      else badCaps (place ++ ".serial: unknown device \"" ++ print s ++ "\"")
  | _ => badCaps (place ++ ".serial: unknown device \"" ++ print s ++ "\"")

def validateSerial (s : Json) : Except ManifestError (List String) :=
  validateList 4 s (place ++ ".serial: list of device names") (validateSerialName print place)

/-- Check a capability that is there. -/
def validateIf {α : Type} (j : Option Json) (check : Json → Except ManifestError α) :
    Except ManifestError (Option α) :=
  match j with
  | none => .ok none
  | some v => (check v).map some

def validateCaps (caps : Option Json) : Except ManifestError Caps :=
  match caps with
  | none => .ok {}
  | some .null => .ok {}
  | some (.obj fields) =>
      match fields.find? fun f => String.ofList f.1 ∉ capKeys with
      | some f => badCaps (place ++ ": unknown capability \"" ++ String.ofList f.1 ++ "\"")
      | none => do
          let c := Json.obj fields
          let udp ← validateIf (c.get? "udp") (validateUdp print place)
          let mdns ← validateIf (c.get? "mdns") (validateMdns print place)
          let tcp ← validateIf (c.get? "tcp") (validateLan place ".tcp")
          let http ← validateIf (c.get? "http") (validateHttp place)
          let mqtt ← validateIf (c.get? "mqtt") (validateMqtt print place)
          let serial ← validateIf (c.get? "serial") (validateSerial print place)
          return ⟨udp, mdns, tcp, http, mqtt, serial⟩
  | some _ => badCaps (place ++ " must be an object")

end Validate

/-! ## `intersectCaps` -/

/-- The elements of the first list that are in the second one. -/
def common {α : Type} [DecidableEq α] (m a : List α) : List α := m.filter fun x => x ∈ a

/-- Both sides have the capability: intersect. -/
def both {α : Type} (m a : Option α) (f : α → α → α) : Option α :=
  m.bind fun x => a.map fun y => f x y

def intersectCaps (m a : Caps) : Caps where
  udp := both m.udp a.udp fun x y => ⟨common x.ports y.ports, common x.multicast y.multicast⟩
  mdns := both m.mdns a.mdns common
  tcp := both m.tcp a.tcp (· && ·)
  http := both m.http a.http (· && ·)
  mqtt := both m.mqtt a.mqtt common
  serial := both m.serial a.serial common

/-- Capabilities that allow no more than others. -/
structure Caps.Within (c a : Caps) : Prop where
  udp : ∀ u, c.udp = some u → ∃ v, a.udp = some v ∧ (∀ p ∈ u.ports, p ∈ v.ports) ∧
    ∀ g ∈ u.multicast, g ∈ v.multicast
  mdns : ∀ s, c.mdns = some s → ∃ t, a.mdns = some t ∧ ∀ x ∈ s, x ∈ t
  tcp : c.tcp = some true → a.tcp = some true
  http : c.http = some true → a.http = some true
  mqtt : ∀ s, c.mqtt = some s → ∃ t, a.mqtt = some t ∧ ∀ x ∈ s, x ∈ t
  serial : ∀ s, c.serial = some s → ∃ t, a.serial = some t ∧ ∀ x ∈ s, x ∈ t

theorem both_eq_some {α : Type} {m a : Option α} {f : α → α → α} {z : α}
    (h : both m a f = some z) : ∃ x y, m = some x ∧ a = some y ∧ z = f x y := by
  rcases Option.bind_eq_some_iff.1 h with ⟨x, hx, hz⟩
  rcases Option.map_eq_some_iff.1 hz with ⟨y, hy, hzy⟩
  exact ⟨x, y, hx, hy, hzy.symm⟩

theorem mem_common {α : Type} [DecidableEq α] {m a : List α} {x : α} :
    x ∈ common m a ↔ x ∈ m ∧ x ∈ a := by
  simp [common]

/-- Whatever is claimed, the result is within what was approved. -/
theorem intersectCaps_right (m a : Caps) : (intersectCaps m a).Within a := by
  have hlist : ∀ {α : Type} [DecidableEq α] {x y : Option (List α)} {s : List α},
      both x y common = some s → ∃ t, y = some t ∧ ∀ z ∈ s, z ∈ t := by
    intro α _ x y s hs
    rcases both_eq_some hs with ⟨u, v, _, hv, rfl⟩
    exact ⟨v, hv, fun z hz => (mem_common.1 hz).2⟩
  have hlan : ∀ {x y : Option Bool}, both x y (· && ·) = some true → y = some true := by
    intro x y hxy
    rcases both_eq_some hxy with ⟨u, v, _, hv, htrue⟩
    rw [hv, (Bool.and_eq_true_iff.1 htrue.symm).2]
  refine ⟨?_, fun s => hlist, hlan, hlan, fun s => hlist, fun s => hlist⟩
  intro u hu
  rcases both_eq_some hu with ⟨x, y, _, hy, rfl⟩
  exact ⟨y, hy, fun p hp => (mem_common.1 hp).2, fun g hg => (mem_common.1 hg).2⟩

end Edge
end GateControl
