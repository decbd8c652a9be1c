import GateControl.Dns.Config
import GateControl.Library.JsonDecode
import GateControl.Library.JsonStringify

/-!
# Devices — the table of the network watch

What the watch knows of each device of the LAN, filed under its MAC address: how the table is read
from the state file, and what a sweep, names, open ports and age change in it.  `wire` is what the
server is told of a device, `sig` the text by which it is told apart from what it was.
-/

namespace GateControl
namespace Netwatch

open Library
open JsonText

/-! ## Numbers -/

/-- The value of a number that is finite. -/
def value : JsNumber → ℚ
  | .finite d => d.val
  | _ => 0

/-- `n`, as a number. -/
def number (n : ℕ) : JsNumber := toNumber false n

/-- `x - y`; of the two zeros it gives the positive one. -/
def minus : JsNumber → JsNumber → JsNumber
  | .nan, _ | _, .nan => .nan
  | .infinity s, .infinity t => if s = t then .nan else .infinity s
  | .infinity s, _ => .infinity s
  | _, .infinity t => .infinity !t
  | x, y =>
      let q := value x - value y
      if q < 0 then toNumber true (-q) else toNumber false q

/-- `x < y` -/
def less : JsNumber → JsNumber → Bool
  | .nan, _ | _, .nan => false
  | .infinity s, y => s && y ≠ .infinity true
  | _, .infinity t => !t
  | x, y => value x < value y

/-- `x >= y` -/
def atLeast (x y : JsNumber) : Bool := x ≠ .nan && y ≠ .nan && !less x y

def truthy : JsNumber → Bool
  | .finite d => d.val ≠ 0
  | .infinity _ => true
  | .negZero | .nan => false

/-- `x || null` -/
def numberOrNull (x : JsNumber) : Option JsNumber := if truthy x then some x else none

/-! ## Limits -/

def fullEveryMs : ℕ := 30 * 60000

def namesRefreshMs : ℕ := 6 * 3600000

def forgetAfterMs : ℕ := 30 * 24 * 3600000

def maxDevices : ℕ := 1024

def maxPorts : ℕ := 64

/-! ## Devices -/

structure Device where
  mac : Units
  ip : Units
  vendor : Option Units
  hostname : Option Units
  nameSource : Option Units
  randomMac : Bool
  online : Bool
  firstSeen : JsNumber
  lastSeen : JsNumber
  ports : Option (List JsValue)
  namesAt : Option JsNumber

/-- A text, or `null`. -/
def textValue : Option Units → JsValue
  | none => .null
  | some s => .str s

def portsValue : Option (List JsValue) → JsValue
  | none => .null
  | some ports => .arr ports

def key (k : String) : Units := units k.toList

/-- The field of an object; `undefined` where there is none. -/
def fieldOf (v : JsValue) (k : String) : JsValue :=
  match v with
  | .obj fields => (OrderedMap.find (key k) fields).getD .undefined
  | _ => .undefined

def wire (d : Device) : JsValue :=
  .obj [(key "mac", .str d.mac), (key "ip", .str d.ip), (key "vendor", textValue d.vendor),
    (key "hostname", textValue d.hostname), (key "nameSource", textValue d.nameSource),
    (key "randomMac", .bool d.randomMac), (key "online", .bool d.online),
    (key "firstSeen", .num d.firstSeen), (key "lastSeen", .num d.lastSeen),
    (key "ports", portsValue d.ports)]

/-- What `sig` writes down. -/
def sigItems (d : Device) : List JsValue :=
  [.str d.ip, textValue d.vendor, textValue d.hostname, textValue d.nameSource, .bool d.randomMac,
    .bool d.online, .num d.firstSeen, portsValue d.ports]

def sig (d : Device) : Option Units := stringify (.arr (sigItems d))

abbrev Devices := OrderedMap Units Device

/-- Change a device, if there is one. -/
def modify (devices : Devices) (mac : Units) (f : Device → Device) : Devices :=
  match devices.get mac with
  | none => devices
  | some d => devices.set mac (f d)

/-! ## The state file -/

structure Host extends Dns.UnicodeHost where
  /-- `Number(v)` -/
  toNumber : JsValue → JsNumber
  /-- The vendor of a MAC address. -/
  lookup : Units → Option Units

/-- An octet of an address. -/
def octet : JsNumber → Option ℤ
  | .finite d => if d.val.den = 1 ∧ 0 ≤ d.val.num ∧ d.val.num ≤ 255 then some d.val.num else none
  | .negZero => some 0
  | .infinity _ | .nan => none

def isPrivateIpv4 (host : Host) (ip : Units) : Bool :=
  match (ip.splitOn (unit '.')).map fun p => octet (host.toNumber (.str p)) with
  | [some a, some b, some _, some _] =>
      a = 10 || (a = 172 && 16 ≤ b && b ≤ 31) || (a = 192 && b = 168)
  | _ => false

/-- The digits in front, as a hexadecimal number. -/
def hexNumber (s : Units) : ℕ :=
  ((s.map hexValue?).takeWhile Option.isSome).foldl (fun n x => 16 * n + x.getD 0) 0

/-- Of a MAC address, which starts with two hexadecimal digits. -/
def isRandomMac (mac : Units) : Bool := (hexNumber (mac.take 2)).testBit 1

/-- A text of the state file. -/
def storedText : JsValue → Option Units
  | .str s => some s
  | _ => none

/-- `Number(v) || now` -/
def storedTime (host : Host) (now : JsNumber) (v : JsValue) : JsNumber :=
  (numberOrNull (host.toNumber v)).getD now

def loadDevice (host : Host) (now : JsNumber) (devices : Devices) (d : JsValue) : Devices :=
  let mac := (Dns.normalizeMac host.toUnicodeHost (fieldOf d "mac").toJson).map units
  match mac, fieldOf d "ip" with
  | some mac, .str ip =>
      if !isPrivateIpv4 host ip then devices
      else
        devices.set mac
          { mac := mac
            ip := ip
            vendor := storedText (fieldOf d "vendor")
            hostname := storedText (fieldOf d "hostname")
            nameSource := storedText (fieldOf d "nameSource")
            randomMac := isRandomMac mac
            online := false
            firstSeen := storedTime host now (fieldOf d "firstSeen")
            lastSeen := storedTime host now (fieldOf d "lastSeen")
            ports :=
              match fieldOf d "ports" with
              | .arr ports => some (ports.take maxPorts)
              | _ => none
            namesAt := numberOrNull (host.toNumber (fieldOf d "namesAt")) }
  | _, _ => devices

/-! ## A sweep -/

/-- A device that was found, and the name it gave itself. -/
structure Found where
  ip : Units
  name : Option Units

/-- What the sweep of a subnet has found: the MAC addresses and the names, by IP address. -/
structure Sweep where
  online : OrderedMap Units Units
  names : OrderedMap Units Units

/-- A text that is there and not empty. -/
def orNone (s : Option Units) : Option Units := s.filter fun t => t ≠ []

def addFound (found : OrderedMap Units Found) (sweep : Sweep) : OrderedMap Units Found :=
  sweep.online.entries.foldl
    (fun found e =>
      if found.has e.2 then found else found.set e.2 ⟨e.1, orNone (sweep.names.get e.1)⟩)
    found

/-- A device that has not been seen before. -/
def newDevice (host : Host) (now : JsNumber) (mac ip : Units) : Device :=
  { mac := mac
    ip := ip
    vendor := host.lookup mac
    hostname := none
    nameSource := none
    randomMac := isRandomMac mac
    online := true
    firstSeen := now
    lastSeen := now
    ports := none
    namesAt := none }

def seen (now : JsNumber) (f : Found) (d : Device) : Device :=
  let d := { d with ip := f.ip, online := true, lastSeen := now }
  match f.name with
  | none => d
  | some name =>
      { d with hostname := some name, nameSource := some (key "mdns"), namesAt := some now }

def markFound (host : Host) (now : JsNumber) (found : OrderedMap Units Found) (devices : Devices) :
    Devices :=
  let devices := found.entries.foldl
    (fun devices e =>
      devices.set e.1 (seen now e.2 ((devices.get e.1).getD (newDevice host now e.1 e.2.ip))))
    devices
  devices.mapValues fun _ d => if found.has d.mac then d else { d with online := false }

/-! ## Names -/

/-- A device whose name is asked for, and the address to ask. -/
structure Need where
  mac : Units
  ip : Units

/-- Whether the name of a device is known well enough. -/
def named (now : JsNumber) (d : Device) : Bool :=
  (orNone d.hostname).isSome &&
    -- only mDNS replaces a name from mDNS
    (d.nameSource = some (key "mdns") ||
      d.namesAt.any fun at' => truthy at' && less (minus now at') (number namesRefreshMs))

def needs (now : JsNumber) (found : OrderedMap Units Found) (devices : Devices) : List Need :=
  found.entries.filterMap fun e =>
    if e.2.name.isSome || (devices.get e.1).any (named now) then none else some ⟨e.1, e.2.ip⟩

def setName (devices : Devices) (mac : Units) (name : Option Units) (source : String) : Devices :=
  modify devices mac fun d => { d with hostname := name, nameSource := some (key source) }

/-- The names from NetBIOS by IP address, and those from the DNS of the others in their order. -/
def applyNames (now : JsNumber) (need : List Need) (nb : OrderedMap Units Units)
    (rdns : List (Option Units)) (devices : Devices) : Devices :=
  let rest := need.filter fun x => !nb.has x.ip
  let devices := (rest.zip rdns).foldl
    (fun devices e =>
      match orNone e.2 with
      | none => devices
      | some name => setName devices e.1.mac (some name) "dns")
    devices
  need.foldl
    (fun devices x =>
      let devices :=
        if nb.has x.ip then setName devices x.mac (nb.get x.ip) "netbios" else devices
      modify devices x.mac fun d => { d with namesAt := some now })
    devices

/-! ## Ports -/

/-- The devices whose ports are scanned. -/
def targets (portsAll nightly : Bool) (devices : Devices) : List Device :=
  devices.values.filter fun d => d.online && (portsAll || nightly || d.ports.isNone)

def applyPorts (macs : List Units) (res : OrderedMap Units (List JsValue)) (devices : Devices) :
    Devices :=
  macs.foldl
    (fun devices mac =>
      modify devices mac fun d =>
        match res.get d.ip with
        | none => d
        | some ports => { d with ports := some (ports.take maxPorts) })
    devices

/-! ## Age -/

/-- The later seen first. -/
def laterSeen (a b : Device) : Bool := !less (number 0) (minus b.lastSeen a.lastSeen)

def prune (now : JsNumber) (devices : Devices) : Devices :=
  let devices := devices.filter fun _ d => !less (number forgetAfterMs) (minus now d.lastSeen)
  if devices.size ≤ maxDevices then devices
  else
    let keep := (devices.values.mergeSort laterSeen).take maxDevices
    .ofList (keep.map fun d => (d.mac, d))

/-! ## The keys of the table -/

/-- Each device is filed under its own address. -/
def Filed (devices : Devices) : Prop := ∀ mac d, devices.get mac = some d → d.mac = mac

section Filed

variable {devices : Devices} {host : Host} {now : JsNumber}

theorem Filed.set (h : Filed devices) {mac : Units} {d : Device} (hd : d.mac = mac) :
    Filed (devices.set mac d) := by
  intro k e he
  rcases OrderedMap.get_set_cases he with ⟨rfl, rfl⟩ | ⟨_, hold⟩
  · exact hd
  · exact h k e hold

theorem Filed.modify (h : Filed devices) (mac : Units) {f : Device → Device}
    (hf : ∀ d, (f d).mac = d.mac) : Filed (modify devices mac f) := by
  unfold Netwatch.modify
  split
  · exact h
  · rename_i d hd
    exact h.set ((hf d).trans (h mac d hd))

/-- The addresses of the devices are distinct. -/
theorem Filed.nodup (h : Filed devices) : (devices.values.map Device.mac).Nodup := by
  rw [OrderedMap.map_values_eq_keys h]
  exact devices.nodup

theorem loadDevice_filed (h : Filed devices) (d : JsValue) :
    Filed (loadDevice host now devices d) := by
  unfold loadDevice
  simp only
  split
  · split
    · exact h
    · exact h.set rfl
  · exact h

theorem seen_mac (f : Found) (d : Device) : (seen now f d).mac = d.mac := by
  unfold seen
  split <;> rfl

theorem markFound_filed (h : Filed devices) (found : OrderedMap Units Found) :
    Filed (markFound host now found devices) := by
  unfold markFound
  simp only
  have hmarked : Filed (found.entries.foldl
      (fun devices e =>
        devices.set e.1 (seen now e.2 ((devices.get e.1).getD (newDevice host now e.1 e.2.ip))))
      devices) := by
    refine List.foldlRecOn _ _ h fun devices hfiled e _ => hfiled.set ?_
    rw [seen_mac]
    cases hget : devices.get e.1 with
    | none =>
        rfl
    | some d =>
        exact hfiled e.1 d hget
  intro mac d hd
  rw [OrderedMap.get_mapValues] at hd
  obtain ⟨e, he, rfl⟩ := Option.map_eq_some_iff.1 hd
  split
  · exact hmarked mac e he
  · exact hmarked mac e he

theorem setName_filed (h : Filed devices) (mac : Units) (name : Option Units) (source : String) :
    Filed (setName devices mac name source) :=
  h.modify mac fun _ => rfl

theorem applyNames_filed (h : Filed devices) (need : List Need) (nb : OrderedMap Units Units)
    (rdns : List (Option Units)) : Filed (applyNames now need nb rdns devices) := by
  unfold applyNames
  simp only
  refine List.foldlRecOn _ _ ?_ fun devices hfiled x _ => ?_
  · refine List.foldlRecOn _ _ h fun devices hfiled e _ => ?_
    split
    · exact hfiled
    · exact setName_filed hfiled _ _ _
  · refine Filed.modify ?_ x.mac fun _ => rfl
    split
    · exact setName_filed hfiled _ _ _
    · exact hfiled

theorem applyPorts_filed (h : Filed devices) (macs : List Units)
    (res : OrderedMap Units (List JsValue)) : Filed (applyPorts macs res devices) := by
  refine List.foldlRecOn _ _ h fun devices hfiled mac _ => hfiled.modify mac fun d => ?_
  split <;> rfl

theorem prune_filed (h : Filed devices) : Filed (prune now devices) := by
  have hyoung : Filed (devices.filter fun _ d =>
      !less (number forgetAfterMs) (minus now d.lastSeen)) :=
    fun mac d hd => h mac d (devices.get_filter _ |>.1 hd).1
  unfold prune
  simp only
  split
  · exact hyoung
  · intro mac d hd
    obtain ⟨e, _, heq⟩ := List.mem_map.1 (OrderedMap.mem_of_get_ofList hd)
    obtain ⟨hmac, rfl⟩ := Prod.mk.inj heq
    exact hmac

end Filed

end Netwatch
end GateControl
