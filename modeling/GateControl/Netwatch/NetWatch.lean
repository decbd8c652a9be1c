import GateControl.Library.Deltas
import GateControl.Library.Transition
import GateControl.Netwatch.Devices

/-!
# NetWatch — the reports of the network watch

A run of the watch sweeps the LAN, asks for names, scans ports and reports to the server: all
devices or those that differ from what was sent, by the texts that `sig` made of them.  A post that
is answered with a failure may have been applied all the same, and the next report is then full.

An action runs from one `await` to the next, and the settings may change at every one.
-/

namespace GateControl
namespace Netwatch

open Library
open JsonText

/-- Where a run waits. -/
inductive Phase
  | idle
  | sweeping (now : JsNumber) (portsAll : Bool) (found : OrderedMap Units Found)
  | naming (now : JsNumber) (portsAll : Bool) (need : List Need)
  | scanning (now : JsNumber) (macs : List Units) (nightly : Bool)
  | reporting (scanAt : JsNumber) (full : Bool) (devs : List Device)

def Phase.isIdle : Phase → Bool
  | .idle => true
  | _ => false

structure NetWatch where
  enabled : Bool
  portscan : Bool
  devices : Devices
  /-- What `sig` made of each device when it was sent. -/
  sent : OrderedMap Units (Option Units)
  forceFull : Bool
  lastFullAt : Option JsNumber
  lastPortscanAt : Option JsNumber
  nextPortscanAt : Option JsNumber
  loaded : Bool
  /-- The state file, as it is when it is read. -/
  stored : JsValue
  phase : Phase

namespace NetWatch

def new (stored : JsValue) : NetWatch :=
  ⟨false, false, .empty, .empty, true, none, none, none, false, stored, .idle⟩

section Steps

variable (host : Host)

/-- `_load` -/
def load (now : JsNumber) (w : NetWatch) : NetWatch :=
  if w.loaded then w
  else
    match fieldOf w.stored "devices" with
    | .arr ds =>
        { w with
          loaded := true
          devices := (ds.take maxDevices).foldl (loadDevice host now) w.devices
          lastPortscanAt := numberOrNull (host.toNumber (fieldOf w.stored "lastPortscanAt"))
          nextPortscanAt := numberOrNull (host.toNumber (fieldOf w.stored "nextPortscanAt")) }
    | _ => { w with loaded := true }

/-- `apply`; `night` is the time of the next nightly scan of ports. -/
def apply (enabled portscan : Bool) (now night : JsNumber) (w : NetWatch) : NetWatch :=
  let was := w.enabled
  let w := { w with enabled := enabled, portscan := portscan }
  let w := if enabled && !was then { w.load host now with forceFull := true } else w
  if w.portscan && !w.nextPortscanAt.any truthy then { w with nextPortscanAt := some night } else w

/-- `_report`, up to the answer. -/
def startReport (now : JsNumber) (w : NetWatch) : NetWatch :=
  let w := { w with devices := prune now w.devices }
  let full := w.forceFull || w.lastFullAt.all fun last =>
    atLeast (minus now last) (number fullEveryMs)
  let devs := Deltas.pending Device.mac sig full w.sent w.devices.values
  { w with phase := .reporting now full devs }

/-- `_ports`, up to the answer. -/
def startPorts (now : JsNumber) (portsAll : Bool) (w : NetWatch) : NetWatch :=
  if !w.portscan then w.startReport now
  else
    let nightly := w.nextPortscanAt.any fun next => atLeast now next
    let ds := targets portsAll nightly w.devices
    if ds.isEmpty && !nightly then w.startReport now
    else { w with phase := .scanning now (ds.map Device.mac) nightly }

def run (portsAll : Bool) (now : JsNumber) (w : NetWatch) : NetWatch :=
  if !w.enabled || !w.phase.isIdle then w
  else { w.load host now with phase := .sweeping now portsAll .empty }

/-- All subnets are swept: the devices are marked, and names are asked for. -/
def startNames (now : JsNumber) (portsAll : Bool) (found : OrderedMap Units Found) (w : NetWatch) :
    NetWatch :=
  let w := { w with devices := markFound host now found w.devices }
  match needs now found w.devices with
  | [] => w.startPorts now portsAll
  | need => { w with phase := .naming now portsAll need }

end Steps

/-- `replan`, after a change of the time zone. -/
def replan (night : JsNumber) (w : NetWatch) : NetWatch :=
  if w.portscan then { w with nextPortscanAt := some night } else w

def scanned (now : JsNumber) (macs : List Units) (nightly : Bool)
    (res : OrderedMap Units (List JsValue)) (night : JsNumber) (w : NetWatch) : NetWatch :=
  let w := { w with devices := applyPorts macs res w.devices }
  let w :=
    if nightly then { w with lastPortscanAt := some now, nextPortscanAt := some night } else w
  w.startReport now

/-- The end of `_report`. -/
def reported (scanAt : JsNumber) (full : Bool) (devs : List Device) (w : NetWatch) : NetWatch :=
  let w := if full then { w with lastFullAt := some scanAt, forceFull := false } else w
  { w with sent := Deltas.update Device.mac sig full w.sent devs, phase := .idle }

end NetWatch

/-! ## The server -/

/-- The body of a report. -/
def report (scanAt : JsNumber) (full : Bool) (devs : List Device) : JsValue :=
  .obj [(key "scanAt", .num scanAt), (key "full", .bool full),
    (key "devices", .arr (devs.map wire))]

/-- Records by MAC address. -/
abbrev Table := OrderedMap Units JsValue

def putRecord (table : Table) (r : JsValue) : Table :=
  match fieldOf r "mac" with
  | .str mac => table.set mac r
  | _ => table

/-- A report with `full` replaces the table, another one updates it. -/
def receive (table : Table) (body : JsValue) : Table :=
  match fieldOf body "full", fieldOf body "devices" with
  | .bool full, .arr records => records.foldl putRecord (if full then .empty else table)
  | _, _ => table

/-- The report is sent as a JSON text. -/
def deliver (table : Table) (body : JsValue) : Table :=
  match (stringify body).bind parse with
  | none => table
  | some body => receive table body

/-- A record of the server says the same of a device as the watch, as far as numbers have a JSON
text. -/
def Agrees (r : JsValue) (d : Device) : Prop :=
  fieldOf r "ip" = .str d.ip ∧ fieldOf r "vendor" = textValue d.vendor ∧
    fieldOf r "hostname" = textValue d.hostname ∧ fieldOf r "nameSource" = textValue d.nameSource ∧
    fieldOf r "randomMac" = .bool d.randomMac ∧ fieldOf r "online" = .bool d.online ∧
    fieldOf r "firstSeen" = reread (.num d.firstSeen) ∧
    fieldOf r "ports" = reread (portsValue d.ports)

/-! ## The whole -/

structure System where
  watch : NetWatch
  table : Table

inductive Answer
  | ok
  | failed (applied : Bool)

inductive Action
  | apply (enabled portscan : Bool) (now night : JsNumber)
  | replan (night : JsNumber)
  | run (portsAll : Bool) (now : JsNumber)
  | swept (sweep : Sweep)
  | sweepsDone
  | named (nb : OrderedMap Units Units) (rdns : List (Option Units))
  | scanned (res : OrderedMap Units (List JsValue)) (night : JsNumber)
  /-- A part of the run throws. -/
  | fail
  | answered (answer : Answer)

namespace System

def init (stored : JsValue) (table : Table) : System := ⟨.new stored, table⟩

/-- The watch after an action, the server staying as it is. -/
def setWatch (s : System) (w : NetWatch) : System := { s with watch := w }

def step (host : Host) (s : System) : Action → Option System
  | .apply enabled portscan now night =>
      some (s.setWatch (s.watch.apply host enabled portscan now night))
  | .replan night => some (s.setWatch (s.watch.replan night))
  | .run portsAll now => some (s.setWatch (s.watch.run host portsAll now))
  | .swept sweep =>
      match s.watch.phase with
      | .sweeping now portsAll found =>
          some (s.setWatch { s.watch with phase := .sweeping now portsAll (addFound found sweep) })
      | _ => none
  | .sweepsDone =>
      match s.watch.phase with
      | .sweeping now portsAll found =>
          some (s.setWatch (s.watch.startNames host now portsAll found))
      | _ => none
  | .named nb rdns =>
      match s.watch.phase with
      | .naming now portsAll need =>
          let devices := applyNames now need nb rdns s.watch.devices
          some (s.setWatch ({ s.watch with devices := devices }.startPorts now portsAll))
      | _ => none
  | .scanned res night =>
      match s.watch.phase with
      | .scanning now macs nightly => some (s.setWatch (s.watch.scanned now macs nightly res night))
      | _ => none
  | .fail =>
      match s.watch.phase with
      | .sweeping .. | .naming .. | .scanning .. =>
          some (s.setWatch { s.watch with phase := .idle })
      | _ => none
  | .answered answer =>
      match s.watch.phase with
      | .reporting scanAt full devs =>
          let table := deliver s.table (report scanAt full devs)
          match answer with
          | .ok => some ⟨s.watch.reported scanAt full devs, table⟩
          | .failed applied =>
              some ⟨{ s.watch with forceFull := true, phase := .idle },
                if applied then table else s.table⟩
      | _ => none

end System

/-! ## What arrives -/

/-- The record of a device, as the server has it. -/
def record (d : Device) : JsValue := reread (wire d)

theorem reread_textValue (s : Option Units) : reread (textValue s) = textValue s := by
  cases s <;> rfl

theorem textValue_ne (s : Option Units) : textValue s ≠ .undefined := by
  cases s <;> simp [textValue]

theorem portsValue_ne (ports : Option (List JsValue)) : portsValue ports ≠ .undefined := by
  cases ports <;> simp [portsValue]

theorem record_eq (d : Device) :
    record d = .obj [(key "mac", .str d.mac), (key "ip", .str d.ip),
      (key "vendor", textValue d.vendor), (key "hostname", textValue d.hostname),
      (key "nameSource", textValue d.nameSource), (key "randomMac", .bool d.randomMac),
      (key "online", .bool d.online), (key "firstSeen", reread (.num d.firstSeen)),
      (key "lastSeen", reread (.num d.lastSeen)), (key "ports", reread (portsValue d.ports))] := by
  have hkeys : (["mac", "ip", "vendor", "hostname", "nameSource", "randomMac", "online",
    "firstSeen", "lastSeen", "ports"].map key).Nodup := by decide
  refine (reread_obj ?_ ?_).trans ?_
  · exact hkeys
  · simp [textValue_ne, portsValue_ne]
  · simp only [List.map_cons, List.map_nil, reread_textValue]
    rfl

theorem fieldOf_record_mac (d : Device) : fieldOf (record d) "mac" = .str d.mac := by
  rw [record_eq]
  rfl

/-- The record of a device that has the same text as another one agrees with that one. -/
theorem agrees_of_sig {d e : Device} (h : sig e = sig d) : Agrees (record e) d := by
  have hitems : (sigItems e).map reread = (sigItems d).map reread := by
    have hread := reread_eq_of_stringify h
    rw [reread_arr, reread_arr] at hread
    exact JsValue.arr.inj hread
  simp only [sigItems, List.map_cons, List.map_nil, List.cons.injEq, and_true,
    reread_textValue] at hitems
  obtain ⟨hip, hvendor, hhostname, hsource, hrandom, honline, hfirst, hports⟩ := hitems
  rw [record_eq]
  exact ⟨hip, hvendor, hhostname, hsource, hrandom, honline, hfirst, hports⟩

/-- The server does with a report what the watch remembers of it. -/
theorem deliver_report (table : Table) (scanAt : JsNumber) (full : Bool) (devs : List Device) :
    deliver table (report scanAt full devs) =
      Deltas.update Device.mac record full table devs := by
  have hkeys : (["scanAt", "full", "devices"].map key).Nodup := by decide
  have hbody : reread (report scanAt full devs) = .obj [(key "scanAt", reread (.num scanAt)),
      (key "full", .bool full), (key "devices", .arr (devs.map record))] := by
    refine (reread_obj ?_ ?_).trans ?_
    · exact hkeys
    · simp
    · simp only [List.map_cons, List.map_nil, reread_arr, List.map_map]
      rfl
  have hdefined : report scanAt full devs ≠ .undefined := by simp [report]
  obtain ⟨t, ht⟩ := exists_stringify hdefined
  have hput : ∀ table d, putRecord table (record d) = table.set d.mac (record d) := by
    intro table d
    rw [putRecord, fieldOf_record_mac]
  rw [deliver, ht, Option.bind_some, parse_stringify ht, hbody]
  simp only
  have hfull : fieldOf (.obj [(key "scanAt", reread (.num scanAt)), (key "full", .bool full),
      (key "devices", .arr (devs.map record))]) "full" = .bool full := rfl
  have hdevices : fieldOf (.obj [(key "scanAt", reread (.num scanAt)), (key "full", .bool full),
      (key "devices", .arr (devs.map record))]) "devices" = .arr (devs.map record) := rfl
  rw [receive, hfull, hdevices]
  simp only [List.foldl_map, hput]
  rfl

/-! ## The server in step -/

/-- The next report is full, or what is remembered is what the server has. -/
def InStep (w : NetWatch) (table : Table) : Prop :=
  w.forceFull = true ∨ w.lastFullAt = none ∨ Deltas.Known sig record w.sent table

/-- What a run has of the watch whenever it goes on. -/
structure Ready (w : NetWatch) (table : Table) : Prop where
  filed : Filed w.devices
  inStep : InStep w table
  loaded : w.loaded = true

structure Sound (w : NetWatch) (table : Table) : Prop where
  filed : Filed w.devices
  inStep : InStep w table
  loaded : w.phase ≠ .idle → w.loaded = true
  reporting : ∀ scanAt full devs, w.phase = .reporting scanAt full devs →
    devs = Deltas.pending Device.mac sig full w.sent w.devices.values ∧
      (full = false → Deltas.Known sig record w.sent table)

section Steps

variable {host : Host} {w : NetWatch} {table : Table} {now : JsNumber}

theorem Sound.ready (h : Sound w table) (hphase : w.phase ≠ .idle) : Ready w table :=
  ⟨h.filed, h.inStep, h.loaded hphase⟩

theorem Ready.sound (h : Ready w table)
    (hphase : ∀ scanAt full devs, w.phase ≠ .reporting scanAt full devs) : Sound w table :=
  ⟨h.filed, h.inStep, fun _ => h.loaded, fun scanAt full devs heq =>
    absurd heq (hphase scanAt full devs)⟩

theorem load_of_loaded (h : w.loaded = true) : w.load host now = w := if_pos h

/-- The table of devices is all that is loaded, and the times of the scans of ports. -/
theorem load_spec (h : Filed w.devices) (hstep : InStep w table) :
    Ready (w.load host now) table ∧ (w.load host now).phase = w.phase := by
  unfold NetWatch.load
  split
  · rename_i hloaded
    exact ⟨⟨h, hstep, hloaded⟩, rfl⟩
  · split
    · rename_i ds _
      have hfiled : Filed ((ds.take maxDevices).foldl (loadDevice host now) w.devices) :=
        List.foldlRecOn _ _ h fun devices hfiled d _ => loadDevice_filed hfiled d
      exact ⟨⟨hfiled, hstep, rfl⟩, rfl⟩
    · exact ⟨⟨h, hstep, rfl⟩, rfl⟩

theorem Ready.startReport (h : Ready w table) : Sound (w.startReport now) table where
  filed := prune_filed h.filed
  inStep := h.inStep
  loaded _ := h.loaded
  reporting scanAt full devs heq := by
    injection heq with _ hfull hdevs
    rw [hfull] at hdevs
    refine ⟨hdevs.symm, fun hdelta => ?_⟩
    -- the report is full where the watch is not in step
    rw [hdelta] at hfull
    obtain ⟨hnot, hearlier⟩ := Bool.or_eq_false_iff.1 hfull
    rcases h.inStep with hforce | hnever | hknown
    · exact absurd (hforce.symm.trans hnot) (by decide)
    · simp [hnever] at hearlier
    · exact hknown

theorem Ready.startPorts (h : Ready w table) (portsAll : Bool) :
    Sound (w.startPorts now portsAll) table := by
  unfold NetWatch.startPorts
  split
  · exact h.startReport
  · simp only
    split
    · exact h.startReport
    · exact Ready.sound ⟨h.filed, h.inStep, h.loaded⟩ fun _ _ _ => by simp

theorem Ready.startNames (h : Ready w table) (portsAll : Bool) (found : OrderedMap Units Found) :
    Sound (w.startNames host now portsAll found) table := by
  have hmarked : Ready { w with devices := markFound host now found w.devices } table :=
    ⟨markFound_filed h.filed found, h.inStep, h.loaded⟩
  unfold NetWatch.startNames
  simp only
  split
  · exact hmarked.startPorts portsAll
  · exact Ready.sound ⟨hmarked.filed, hmarked.inStep, hmarked.loaded⟩ fun _ _ _ => by simp

theorem Ready.scanned (h : Ready w table) (macs : List Units) (nightly : Bool)
    (res : OrderedMap Units (List JsValue)) (night : JsNumber) :
    Sound (w.scanned now macs nightly res night) table := by
  unfold NetWatch.scanned
  simp only
  split
  · exact Ready.startReport ⟨applyPorts_filed h.filed macs res, h.inStep, h.loaded⟩
  · exact Ready.startReport ⟨applyPorts_filed h.filed macs res, h.inStep, h.loaded⟩

theorem Sound.run (h : Sound w table) (portsAll : Bool) :
    Sound (w.run host portsAll now) table := by
  unfold NetWatch.run
  split
  · exact h
  · obtain ⟨hready, _⟩ := @load_spec host w table now h.filed h.inStep
    exact Ready.sound ⟨hready.filed, hready.inStep, hready.loaded⟩ fun _ _ _ => by simp

/-- Settings may change while a report is under way: it stands, and the next one is full. -/
theorem Sound.apply (h : Sound w table) (enabled portscan : Bool) (night : JsNumber) :
    Sound (w.apply host enabled portscan now night) table := by
  have hset : Sound { w with enabled := enabled, portscan := portscan } table :=
    ⟨h.filed, h.inStep, h.loaded, h.reporting⟩
  generalize hw : { w with enabled := enabled, portscan := portscan } = v at hset
  have hforced : Sound { v.load host now with forceFull := true } table := by
    obtain ⟨hready, hphase⟩ := @load_spec host v table now hset.filed hset.inStep
    refine ⟨hready.filed, Or.inl rfl, fun _ => hready.loaded, fun scanAt full devs heq => ?_⟩
    have hbusy : v.phase = .reporting scanAt full devs := hphase ▸ heq
    -- nothing is loaded while a run is under way
    rw [load_of_loaded (hset.loaded (by simp [hbusy]))]
    exact hset.reporting scanAt full devs hbusy
  unfold NetWatch.apply
  simp only [hw]
  split <;> split
  · exact ⟨hforced.filed, hforced.inStep, hforced.loaded, hforced.reporting⟩
  · exact hforced
  · exact ⟨hset.filed, hset.inStep, hset.loaded, hset.reporting⟩
  · exact hset

theorem Sound.replan (h : Sound w table) (night : JsNumber) : Sound (w.replan night) table := by
  unfold NetWatch.replan
  split
  · exact ⟨h.filed, h.inStep, h.loaded, h.reporting⟩
  · exact h

/-- A report that succeeds leaves the watch in step. -/
theorem Sound.reported (h : Sound w table) {scanAt : JsNumber} {full : Bool} {devs : List Device}
    (hphase : w.phase = .reporting scanAt full devs) :
    Sound (w.reported scanAt full devs) (Deltas.update Device.mac record full table devs) := by
  obtain ⟨rfl, hknown⟩ := h.reporting scanAt full devs hphase
  have hn : ((Deltas.pending Device.mac sig full w.sent w.devices.values).map Device.mac).Nodup :=
    Deltas.nodup_pending h.filed.nodup
  have hsent := Deltas.Known.update hn hknown
  unfold NetWatch.reported
  cases full with
  | true =>
      exact ⟨h.filed, Or.inr (Or.inr hsent), fun hidle => absurd rfl hidle, fun _ _ _ heq => by
        cases heq⟩
  | false =>
      exact ⟨h.filed, Or.inr (Or.inr hsent), fun hidle => absurd rfl hidle, fun _ _ _ heq => by
        cases heq⟩

end Steps

theorem init_sound (stored : JsValue) (table : Table) : Sound (.new stored) table where
  filed mac d hd := by cases hd
  inStep := Or.inl rfl
  loaded hidle := absurd rfl hidle
  reporting _ _ _ heq := by cases heq

theorem Sound.step {host : Host} {s s' : System} {a : Action} (h : Sound s.watch s.table)
    (hstep : s.step host a = some s') : Sound s'.watch s'.table := by
  cases a with
  | apply enabled portscan now night =>
      obtain rfl := Option.some.inj hstep
      exact h.apply enabled portscan night
  | replan night =>
      obtain rfl := Option.some.inj hstep
      exact h.replan night
  | run portsAll now =>
      obtain rfl := Option.some.inj hstep
      exact h.run portsAll
  | swept sweep =>
      simp only [System.step] at hstep
      split at hstep
      · rename_i hphase
        obtain rfl := Option.some.inj hstep
        have hready := h.ready (by simp [hphase])
        exact Ready.sound ⟨hready.filed, hready.inStep, hready.loaded⟩ fun _ _ _ => by
          simp [System.setWatch]
      · cases hstep
  | sweepsDone =>
      simp only [System.step] at hstep
      split at hstep
      · rename_i now portsAll found hphase
        obtain rfl := Option.some.inj hstep
        exact (h.ready (by simp [hphase])).startNames portsAll found
      · cases hstep
  | named nb rdns =>
      simp only [System.step] at hstep
      split at hstep
      · rename_i now portsAll need hphase
        obtain rfl := Option.some.inj hstep
        have hready := h.ready (by simp [hphase])
        have hnamed : Ready { s.watch with
            devices := applyNames now need nb rdns s.watch.devices } s.table :=
          ⟨applyNames_filed hready.filed need nb rdns, hready.inStep, hready.loaded⟩
        exact hnamed.startPorts portsAll
      · cases hstep
  | scanned res night =>
      simp only [System.step] at hstep
      split at hstep
      · rename_i now macs nightly hphase
        obtain rfl := Option.some.inj hstep
        exact (h.ready (by simp [hphase])).scanned macs nightly res night
      · cases hstep
  | fail =>
      simp only [System.step] at hstep
      split at hstep
      case h_4 => cases hstep
      all_goals
        obtain rfl := Option.some.inj hstep
        exact ⟨h.filed, h.inStep, fun hidle => absurd rfl hidle, fun _ _ _ heq => by cases heq⟩
  | answered answer =>
      simp only [System.step] at hstep
      split at hstep
      · rename_i scanAt full devs hphase
        rw [deliver_report] at hstep
        cases answer with
        | ok =>
            obtain rfl := Option.some.inj hstep
            exact h.reported hphase
        | failed applied =>
            -- whatever the server has done, the next report is full
            obtain rfl := Option.some.inj hstep
            exact ⟨h.filed, Or.inl rfl, fun hidle => absurd rfl hidle, fun _ _ _ heq => by
              cases heq⟩
      · cases hstep

/-- After each report that succeeds the server has, for every device of the watch, a record that
agrees with it. -/
theorem reports_agree (host : Host) (stored : JsValue) (table : Table) (as : List Action)
    (s s' : System) (hrun : exec (System.step host) (.init stored table) as = some s)
    (hstep : s.step host (.answered .ok) = some s') :
    ∀ mac d, s'.watch.devices.get mac = some d →
      d.mac = mac ∧ ∃ r, s'.table.get mac = some r ∧ Agrees r d ∧
        (IsJson (.num d.firstSeen) → fieldOf r "firstSeen" = .num d.firstSeen) ∧
        (IsJson (portsValue d.ports) → fieldOf r "ports" = portsValue d.ports) := by
  have hinv : ∀ s a s', Sound s.watch s.table → System.step host s a = some s' →
      Sound s'.watch s'.table := fun s a s' h => h.step
  have hs : Sound s.watch s.table := exec_invariant hinv (init_sound stored table) hrun
  intro mac d hd
  simp only [System.step] at hstep
  split at hstep
  · rename_i scanAt full devs hphase
    obtain ⟨hdevs, hknown⟩ := hs.reporting scanAt full devs hphase
    obtain rfl := Option.some.inj hstep
    have hget : s.watch.devices.get mac = some d := by
      cases full <;> exact hd
    have hmem : d ∈ s.watch.devices.values := s.watch.devices.mem_values_iff.2 ⟨mac, hget⟩
    obtain ⟨e, hsig, hrecord⟩ := Deltas.exists_record hs.filed.nodup hknown hmem
    have hmac : d.mac = mac := hs.filed mac d hget
    rw [hmac, ← hdevs] at hrecord
    have hagrees := agrees_of_sig hsig
    refine ⟨hmac, record e, by rwa [deliver_report], hagrees, fun hjson => ?_, fun hjson => ?_⟩
    · rw [← reread_of_isJson hjson]
      exact hagrees.2.2.2.2.2.2.1
    · rw [← reread_of_isJson hjson]
      exact hagrees.2.2.2.2.2.2.2
  · cases hstep

/-- A sweep finds these addresses with their devices and names. -/
def finds (ds : List (String × String × String)) : List Action :=
  [.swept ⟨.ofList (ds.map fun d => (key d.1, key d.2.1)),
    .ofList (ds.map fun d => (key d.1, key d.2.2))⟩, .sweepsDone]

/-- The report of a device counts as failed although it was applied, and is repeated in full; then a
second device is reported alone. -/
def deltaRun : List Action :=
  let tv := ("10.0.0.5", "02:00:00:00:00:01", "tv")
  [.apply true false (number 1) (number 9), .run false (number 2)] ++ finds [tv] ++
    [.answered (.failed true), .run false (number 3)] ++ finds [tv] ++
    [.answered .ok, .run false (number 4)] ++
      finds [tv, ("10.0.0.6", "02:00:00:00:00:02", "pc")]

/-- What is being posted is one device, and no full report. -/
def postsOne (s : System) : Bool :=
  match s.watch.phase with
  | .reporting _ full devs => !full && devs.length = 1
  | _ => false

theorem reports_agree_first :
    ∃ s s', exec (System.step ⟨.ascii, fun _ => .nan, fun _ => none⟩) (.init .null .empty) deltaRun =
        some s ∧
      postsOne s = true ∧ s.step ⟨.ascii, fun _ => .nan, fun _ => none⟩ (.answered .ok) = some s' ∧
      s'.watch.devices.keys = [key "02:00:00:00:00:01", key "02:00:00:00:00:02"] ∧
      ∀ mac d, s'.watch.devices.get mac = some d → d.mac = mac ∧
        ∃ r, s'.table.get mac = some r ∧ Agrees r d ∧
          (IsJson (.num d.firstSeen) → fieldOf r "firstSeen" = .num d.firstSeen) ∧
          (IsJson (portsValue d.ports) → fieldOf r "ports" = portsValue d.ports) := by
  have hrun : (exec (System.step ⟨.ascii, fun _ => .nan, fun _ => none⟩) (.init .null .empty)
      deltaRun).any (fun s => postsOne s &&
        (s.step ⟨.ascii, fun _ => .nan, fun _ => none⟩ (.answered .ok)).any fun s' =>
          s'.watch.devices.keys = [key "02:00:00:00:00:01", key "02:00:00:00:00:02"]) = true := by
    decide +kernel
  obtain ⟨s, hs, h⟩ := (Option.any_eq_true ..).1 hrun
  obtain ⟨hposts, h⟩ := Bool.and_eq_true_iff.1 h
  obtain ⟨s', hs', hkeys⟩ := (Option.any_eq_true ..).1 h
  exact ⟨s, s', hs, hposts, hs', of_decide_eq_true hkeys, reports_agree _ _ _ _ s s' hs hs'⟩

end Netwatch
end GateControl
