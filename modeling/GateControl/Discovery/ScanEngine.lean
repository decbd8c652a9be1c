import Mathlib.Data.List.Infix
import GateControl.Library.OrderedMap
import GateControl.Library.Text

/-!
# ScanEngine — what a scan of the LAN finds

`runScan` asks the sources for each subnet and merges their hits into one record for each address.
Passive hits count when they belong to a chosen category, or to none.
-/

namespace GateControl
namespace Discovery

open Library

/-! ## Categories -/

/-- What gives a service away: open ports, its type in mDNS, words in what SSDP announces. -/
structure Category where
  key : Text
  ports : List Nat
  mdns : List Text
  ssdp : List Text

def category (key : String) (ports : List Nat) (mdns ssdp : List String) : Category :=
  ⟨key.toList, ports, mdns.map String.toList, ssdp.map String.toList⟩

def categories : List Category :=
  [category "web" [80, 443, 8080, 8443, 8000, 8081, 3000, 5000] ["_http._tcp", "_https._tcp"] [],
    category "media" [32400, 8096, 8200] ["_googlecast._tcp", "_airplay._tcp"]
      ["MediaServer", "MediaRenderer"],
    category "remote_access" [22, 3389, 5900] ["_ssh._tcp", "_rfb._tcp"] [],
    category "file_sharing" [445, 139, 548, 2049, 21] ["_smb._tcp", "_afpovertcp._tcp"] [],
    category "printers" [9100, 631, 515] ["_ipp._tcp", "_pdl-datastream._tcp"] ["Printer"],
    category "databases" [5432, 3306, 6379, 27017] [] [],
    category "iot" [1883, 5683, 8123] ["_hap._tcp", "_matter._tcp", "_hue._tcp"]
      ["Belkin", "WeMo"]]

structure Resolved where
  ports : List Nat
  activeKeys : List Text

/-- The selected categories, or all but these. -/
def resolveCategories (exclude : Bool) (selectedKeys : List Text) : Resolved :=
  let active := categories.filter fun c =>
    if exclude then c.key ∉ selectedKeys else c.key ∈ selectedKeys
  { ports := (active.flatMap Category.ports).eraseDups.mergeSort (· ≤ ·)
    activeKeys := active.map Category.key }

/-- A hit passes when one of its categories is active, or when it has none. -/
def passivePasses (mdnsType ssdpServer : Option Text) (resolved : Resolved) : Bool :=
  let matched := categories.filter fun c =>
    mdnsType.any (· ∈ c.mdns) || ssdpServer.any fun s => c.ssdp.any fun p => decide (p <:+: s)
  matched.isEmpty || matched.any fun c => c.key ∈ resolved.activeKeys

/-! ## Hits -/

structure MdnsHit where
  ip : Text
  host : Option Text
  port : Nat
  mdnsType : Option Text

structure SsdpHit where
  host : Text
  port : Nat
  st : Option Text
  server : Option Text

structure OpenPort where
  ip : Text
  port : Nat

/-- What the sources have found in a subnet. -/
structure SubnetHits where
  mdns : List MdnsHit
  ssdp : List SsdpHit
  swept : List OpenPort

/-! ## Devices -/

inductive Source
  | mdns
  | ssdp
  | tcp
  deriving DecidableEq

structure PortEntry where
  port : Nat
  source : Source
  serviceHint : Option Text
  deriving DecidableEq

structure Device where
  ip : Text
  hostname : Option Text
  mac : Option Text
  ports : List PortEntry
  sources : List Source
  deriving DecidableEq

/-- A text that is there and not empty. -/
def orNull (s : Option Text) : Option Text := s.filter fun t => t ≠ []

/-- `_add`, and what is done with the record. -/
def add (byIp : OrderedMap Text Device) (ip : Text) (f : Device → Device) :
    OrderedMap Text Device :=
  byIp.set ip (f ((byIp.get ip).getD ⟨ip, none, none, [], []⟩))

/-- `_addPort` -/
def addPort (dev : Device) (port : Nat) (source : Source) (hint : Option Text) : Device :=
  { dev with
    ports :=
      if dev.ports.any fun p => p.port = port && p.source = source then dev.ports
      else dev.ports ++ [⟨port, source, orNull hint⟩]
    sources := if source ∈ dev.sources then dev.sources else dev.sources ++ [source] }

def addMdns (resolved : Resolved) (byIp : OrderedMap Text Device) (h : MdnsHit) :
    OrderedMap Text Device :=
  if !passivePasses h.mdnsType none resolved then byIp
  else
    add byIp h.ip fun d =>
      let d := { d with hostname := (orNull d.hostname).or (orNull h.host) }
      if h.port = 0 then d else addPort d h.port .mdns h.mdnsType

def addSsdp (resolved : Resolved) (byIp : OrderedMap Text Device) (h : SsdpHit) :
    OrderedMap Text Device :=
  if !passivePasses none h.server resolved then byIp
  else
    add byIp h.host fun d =>
      if h.port = 0 then d else addPort d h.port .ssdp ((orNull h.st).or h.server)

def addSwept (byIp : OrderedMap Text Device) (o : OpenPort) : OrderedMap Text Device :=
  add byIp o.ip fun d => addPort d o.port .tcp none

/-- The hits of one subnet; ports are swept in an active scan only. -/
def addSubnet (activeScan : Bool) (resolved : Resolved) (byIp : OrderedMap Text Device)
    (hits : SubnetHits) : OrderedMap Text Device :=
  let byIp := hits.mdns.foldl (addMdns resolved) byIp
  let byIp := hits.ssdp.foldl (addSsdp resolved) byIp
  if activeScan && !resolved.ports.isEmpty then hits.swept.foldl addSwept byIp else byIp

/-- `runScan`, for what the sources have found: the devices of its batch. -/
def runScan (activeScan exclude : Bool) (selectedKeys : List Text) (hits : List SubnetHits)
    (arp : OrderedMap Text Text) : List Device :=
  let resolved := resolveCategories exclude selectedKeys
  let byIp := hits.foldl (addSubnet activeScan resolved) .empty
  byIp.values.map fun d => { d with mac := orNull (arp.get d.ip) }

/-! ## What the records say -/

/-- No port is listed twice for a source, and the sources are those of the ports. -/
structure Device.Ok (d : Device) : Prop where
  ports : (d.ports.map fun p => (p.port, p.source)).Nodup
  sources : d.sources.Nodup
  seen : ∀ p ∈ d.ports, p.source ∈ d.sources

theorem addPort_ok {d : Device} (h : d.Ok) (port : Nat) (source : Source) (hint : Option Text) :
    (addPort d port source hint).Ok := by
  have hsources : source ∈ (addPort d port source hint).sources := by
    simp only [addPort]
    split
    · assumption
    · exact List.mem_append_right _ List.mem_cons_self
  have hkept : ∀ s ∈ d.sources, s ∈ (addPort d port source hint).sources := by
    intro s hs
    simp only [addPort]
    split
    · exact hs
    · exact List.mem_append_left _ hs
  constructor
  case ports =>
    simp only [addPort]
    split
    · exact h.ports
    · rename_i hnew
      rw [List.map_append, List.nodup_append]
      refine ⟨h.ports, List.nodup_singleton _, fun x hx y hy hxy => ?_⟩
      obtain ⟨p, hp, rfl⟩ := List.mem_map.1 hx
      obtain rfl := List.mem_singleton.1 hy
      obtain ⟨hport, hsource⟩ := Prod.mk.inj hxy
      exact hnew (List.any_eq_true.2 ⟨p, hp, by simp [hport, hsource]⟩)
  case sources =>
    simp only [addPort]
    split
    · exact h.sources
    · rename_i hnew
      rw [List.nodup_append]
      exact ⟨h.sources, List.nodup_singleton _, fun x hx y hy hxy =>
        hnew (List.mem_singleton.1 hy ▸ hxy ▸ hx)⟩
  case seen =>
    intro p hp
    simp only [addPort] at hp
    split at hp
    · exact hkept _ (h.seen p hp)
    · rcases List.mem_append.1 hp with hp | hp
      · exact hkept _ (h.seen p hp)
      · obtain rfl := List.mem_singleton.1 hp
        exact hsources

/-- The records are filed under their addresses. -/
def Filed (byIp : OrderedMap Text Device) : Prop :=
  ∀ ip d, byIp.get ip = some d → d.ip = ip ∧ d.Ok

theorem add_filed {byIp : OrderedMap Text Device} (h : Filed byIp) (ip : Text)
    {f : Device → Device} (hf : ∀ d, d.Ok → (f d).ip = d.ip ∧ (f d).Ok) :
    Filed (add byIp ip f) := by
  intro k d hd
  rcases OrderedMap.get_set_cases hd with ⟨rfl, rfl⟩ | ⟨_, hold⟩
  · cases hget : byIp.get k with
    | none => exact hf _ ⟨List.nodup_nil, List.nodup_nil, by simp⟩
    | some d =>
        obtain ⟨hip, hok⟩ := h k d hget
        exact ⟨(hf d hok).1.trans hip, (hf d hok).2⟩
  · exact h k d hold

theorem addMdns_filed {resolved : Resolved} {byIp : OrderedMap Text Device} (h : Filed byIp)
    (hit : MdnsHit) : Filed (addMdns resolved byIp hit) := by
  unfold addMdns
  split
  · exact h
  · refine add_filed h hit.ip fun d hd => ?_
    -- the name changes nothing here
    have hnamed : Device.Ok { d with hostname := (orNull d.hostname).or (orNull hit.host) } :=
      ⟨hd.ports, hd.sources, hd.seen⟩
    simp only
    split
    · exact ⟨rfl, hnamed⟩
    · exact ⟨rfl, addPort_ok hnamed _ _ _⟩

theorem addSsdp_filed {resolved : Resolved} {byIp : OrderedMap Text Device} (h : Filed byIp)
    (hit : SsdpHit) : Filed (addSsdp resolved byIp hit) := by
  unfold addSsdp
  split
  · exact h
  · refine add_filed h hit.host fun d hd => ?_
    split
    · exact ⟨rfl, hd⟩
    · exact ⟨rfl, addPort_ok hd _ _ _⟩

theorem addSwept_filed {byIp : OrderedMap Text Device} (h : Filed byIp) (o : OpenPort) :
    Filed (addSwept byIp o) :=
  add_filed h o.ip fun _ hd => ⟨rfl, addPort_ok hd _ _ _⟩

theorem addSubnet_filed {activeScan : Bool} {resolved : Resolved} {byIp : OrderedMap Text Device}
    (h : Filed byIp) (hits : SubnetHits) : Filed (addSubnet activeScan resolved byIp hits) := by
  have hmdns : Filed (hits.mdns.foldl (addMdns resolved) byIp) :=
    List.foldlRecOn _ _ h fun _ h hit _ => addMdns_filed h hit
  have hssdp : Filed (hits.ssdp.foldl (addSsdp resolved)
      (hits.mdns.foldl (addMdns resolved) byIp)) :=
    List.foldlRecOn _ _ hmdns fun _ h hit _ => addSsdp_filed h hit
  unfold addSubnet
  simp only
  split
  · exact List.foldlRecOn _ _ hssdp fun _ h o _ => addSwept_filed h o
  · exact hssdp

/-- The batch of a scan has one record for each address. -/
theorem runScan_ok (activeScan exclude : Bool) (selectedKeys : List Text) (hits : List SubnetHits)
    (arp : OrderedMap Text Text) :
    ((runScan activeScan exclude selectedKeys hits arp).map Device.ip).Nodup ∧
      ∀ d ∈ runScan activeScan exclude selectedKeys hits arp, d.Ok := by
  have hfiled : Filed (hits.foldl
      (addSubnet activeScan (resolveCategories exclude selectedKeys)) .empty) :=
    List.foldlRecOn _ _ (fun _ _ h => by cases h) fun _ h subnet _ => addSubnet_filed h subnet
  unfold runScan
  simp only
  generalize hits.foldl (addSubnet activeScan (resolveCategories exclude selectedKeys))
    .empty = byIp at hfiled
  constructor
  · have hips : (byIp.values.map fun d => { d with mac := orNull (arp.get d.ip) }).map Device.ip =
        byIp.keys := by
      rw [List.map_map]
      exact OrderedMap.map_values_eq_keys fun ip d hd => (hfiled ip d hd).1
    rw [hips]
    exact byIp.nodup
  · intro d hd
    obtain ⟨d, hmem, rfl⟩ := List.mem_map.1 hd
    obtain ⟨ip, hget⟩ := (OrderedMap.mem_values_iff _).1 hmem
    have hok := (hfiled ip d hget).2
    exact ⟨hok.ports, hok.sources, hok.seen⟩

end Discovery
end GateControl
