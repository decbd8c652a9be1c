import GateControl.Library.Keyed
import GateControl.Print.Devices

/-!
# Busy — one job or scan per device

A run and a scan take the id of their device into `busy` at their start and take out, at their end,
the id that the device has by then.  A search can give a device another id in between: a device that
was known by its address gets the id of its UUID.  `one_use_per_device` is about the runs in which
no merge renames a device in use.
-/

namespace GateControl
namespace Print

open Library

namespace Devices

variable {digest : Text → Text} {s s' : Devices}

/-- The id that an object has. -/
def idOf (s : Devices) (r : Nat) : Option Text := s.objects[r]?.map Device.id

/-- The ids of the devices in use. -/
def held (s : Devices) : List (Option Text) := s.uses.map fun u => s.idOf u.device

/-- At most one job or scan is in progress on an object, and without any nothing is busy. -/
def SingleUse (s : Devices) : Prop :=
  (s.uses.map Use.device).Nodup ∧ (s.uses = [] → s.busy.keys = [])

instance (s : Devices) : Decidable s.SingleUse := inferInstanceAs (Decidable (_ ∧ (_ → _)))

/-! ## The condition -/

/-- A merge gives a device in use no other id. -/
def KeepsId (digest : Text → Text) (s : Devices) (f : Found) : Prop :=
  ∀ k ∈ s.known digest f,
    k.2.id ≠ deviceId digest f.uuid f.ip → k.1 ∉ s.uses.map Use.device

instance (f : Found) : Decidable (KeepsId digest s f) :=
  inferInstanceAs (Decidable (∀ _ ∈ _, _ → _))

/-- No step gives a device in use another id. -/
def KeepsIds (digest : Text → Text) (s : Devices) : Action → Prop
  | .browsed services now =>
      Admits (fun s f => some (merge digest s now f)) (KeepsId digest) s
        (mergeDevices s.isAllowed services)
  | .probed i answer =>
      ∀ p ∈ s.probes[i]?, ∀ f ∈ answer.bind (probeManual p.1), KeepsId digest s f
  | _ => True

instance (a : Action) : Decidable (KeepsIds digest s a) :=
  match a with
  | .browsed _ _ => inferInstanceAs (Decidable (Admits _ _ _ _))
  | .probed _ _ => inferInstanceAs (Decidable (∀ _ ∈ _, ∀ _ ∈ _, _))
  | .apply .. | .subnets _ | .restart | .search _ | .sweep | .searched _ | .seen .. | .pinned ..
  | .run _ | .requestScan .. | .finish _ | .persist _ => inferInstanceAs (Decidable True)

/-! ## The invariant -/

/-- The table has every object under the id that it has. -/
def Named (s : Devices) : Prop :=
  ∀ id r, s.devices.get id = some r → s.idOf r = some id

/-- `busy` has the ids of the devices in use, and these are different. -/
structure Locked (s : Devices) : Prop where
  named : s.Named
  present : ∀ u ∈ s.uses, u.device < s.objects.length
  nodup : s.held.Nodup
  busy : ∀ id, id ∈ s.busy.keys ↔ some id ∈ s.held

theorem Locked.singleUse (h : s.Locked) : s.SingleUse := by
  constructor
  · -- objects with different ids are different
    have hmap : s.held = (s.uses.map Use.device).map s.idOf := by
      rw [held, List.map_map]
      rfl
    exact List.Nodup.of_map _ (hmap ▸ h.nodup)
  · intro hnone
    apply List.eq_nil_iff_forall_not_mem.2
    intro id hid
    have hheld := (h.busy id).1 hid
    rw [held, hnone] at hheld
    cases hheld

theorem new_locked (subnets : List Edge.Subnet) : (new subnets).Locked :=
  ⟨fun _ _ hget => (by cases hget), fun _ hu => (by cases hu), List.nodup_nil, fun id =>
    ⟨fun hid => (by cases hid), fun hid => (by cases hid)⟩⟩

/-- A step that starts and ends nothing, and leaves the objects in use their ids. -/
structure SameUses (s s' : Devices) : Prop where
  uses : s'.uses = s.uses
  busy : s'.busy = s.busy
  objects : s.objects.length ≤ s'.objects.length
  ids : ∀ r ∈ s.uses.map Use.device, r < s.objects.length → s'.idOf r = s.idOf r

theorem SameUses.of_ids (hu : s'.uses = s.uses) (hb : s'.busy = s.busy)
    (hid : s'.objects.map Device.id = s.objects.map Device.id) : SameUses s s' := by
  refine ⟨hu, hb, ?_, fun r _ _ => ?_⟩
  · apply Nat.le_of_eq
    calc s.objects.length = (s.objects.map Device.id).length := (List.length_map ..).symm
      _ = (s'.objects.map Device.id).length := by rw [hid]
      _ = s'.objects.length := List.length_map ..
  · rw [idOf, idOf, ← List.getElem?_map, hid, List.getElem?_map]

theorem Locked.of_same (h : s.Locked) (hs : SameUses s s') (hn : s'.Named) : s'.Locked := by
  have hheld : s'.held = s.held := by
    rw [held, held, hs.uses]
    apply List.map_congr_left
    intro u hu
    exact hs.ids _ (List.mem_map_of_mem hu) (h.present u hu)
  refine ⟨hn, fun u hu => ?_, ?_, fun id => ?_⟩
  · rw [hs.uses] at hu
    exact Nat.lt_of_lt_of_le (h.present u hu) hs.objects
  · rw [hheld]
    exact h.nodup
  · rw [hs.busy, hheld]
    exact h.busy id

/-- Of a step that leaves the ids and takes nothing into the table. -/
theorem Named.of_ids (h : s.Named) (hid : s'.objects.map Device.id = s.objects.map Device.id)
    (htab : ∀ id r, s'.devices.get id = some r → s.devices.get id = some r) : s'.Named := by
  intro id r hget
  have hold := h id r (htab id r hget)
  rw [idOf, ← List.getElem?_map, ← hid] at hold
  rw [idOf, ← List.getElem?_map]
  exact hold

/-- An object changes and keeps its id. -/
theorem Locked.of_set (h : s.Locked) {r : Nat} {d e : Device} (hd : s.objects[r]? = some d)
    (he : e.id = d.id) : Locked { s with objects := s.objects.set r e } := by
  have hid : (s.objects.set r e).map Device.id = s.objects.map Device.id := map_key_set hd he
  exact h.of_same (.of_ids rfl rfl hid) (h.named.of_ids hid fun _ _ hget => hget)

/-! ## Merges -/

theorem idOf_append {r : Nat} (d : Device) (hr : r < s.objects.length)
    (hs : s'.objects = s.objects ++ [d]) : s'.idOf r = s.idOf r := by
  rw [idOf, idOf, hs, List.getElem?_append_left hr]

theorem lt_of_idOf {r : Nat} {id : Text} (h : s.idOf r = some id) : r < s.objects.length := by
  rcases Option.map_eq_some_iff.1 h with ⟨_, hd, _⟩
  exact (List.getElem?_eq_some_iff.1 hd).1

/-- A new object comes into the table under its id. -/
theorem Locked.of_append (h : s.Locked) (d : Device) :
    Locked { s with
      objects := s.objects ++ [d]
      devices := s.devices.set d.id s.objects.length } := by
  refine h.of_same ⟨rfl, rfl, ?_, fun r _ hr => idOf_append d hr rfl⟩ ?_
  · simp
  · intro id r hget
    rcases OrderedMap.get_set_cases hget with ⟨rfl, rfl⟩ | ⟨_, hold⟩
    · simp [idOf]
    · have hid := h.named id r hold
      exact (idOf_append d (lt_of_idOf hid) rfl).trans hid

/-- What is found after an id has been taken out, unless it is the new one. -/
theorem get_unless_renamed {m : OrderedMap Text Nat} {old new id : Text} {r : Nat}
    (h : (if old = new then m else m.delete old).get id = some r) :
    m.get id = some r ∧ (id = old → old = new) := by
  split at h
  · next heq =>
      exact ⟨h, fun _ => heq⟩
  · obtain ⟨hne, hget⟩ := OrderedMap.get_delete_cases h
    exact ⟨hget, fun heq => absurd heq hne⟩

theorem Locked.merge (h : s.Locked) {now : Int} {f : Found} (hok : KeepsId digest s f) :
    Locked (merge digest s now f) := by
  unfold Devices.merge
  cases hk : s.known digest f with
  | none =>
      exact h.of_append ⟨deviceId digest f.uuid f.ip, f.uuid, f.ip, f.ipp, f.escl, now⟩
  | some k =>
      obtain ⟨r, old⟩ := k
      have hobj := (mem_of_known hk).2
      have hlt : r < s.objects.length := (List.getElem?_eq_some_iff.1 hobj).1
      have hold : s.idOf r = some old.id := by rw [idOf, hobj, Option.map_some]
      refine h.of_same ⟨rfl, rfl, ?_, ?_⟩ ?_
      · simp
      · intro q hq _
        by_cases hqr : q = r
        · -- the device that is merged: in use, so that it keeps its id
          subst hqr
          have hsame : old.id = deviceId digest f.uuid f.ip := by
            by_contra hne
            exact hok _ hk hne hq
          rw [hold, hsame]
          simp [idOf, hlt]
        · simp [idOf, List.getElem?_set_ne (Ne.symm hqr)]
      · intro id q hget
        rcases OrderedMap.get_set_cases hget with ⟨rfl, rfl⟩ | ⟨hne, hrest⟩
        · simp [idOf, hlt]
        · obtain ⟨hthere, hgo⟩ := get_unless_renamed hrest
          have hid := h.named id q hthere
          have hqr : q ≠ r := by
            rintro rfl
            -- the entry of the old id has been taken out
            have hidold : id = old.id := Option.some.inj (hid.symm.trans hold)
            exact hne (hidold.trans (hgo hidold))
          rw [idOf, List.getElem?_set_ne (Ne.symm hqr)]
          exact hid

/-! ## Steps -/

theorem Locked.persist (h : s.Locked) (written : Bool) : (s.persist written).Locked := by
  unfold Devices.persist
  split
  · exact ⟨h.named, h.present, h.nodup, h.busy⟩
  · exact h

theorem Locked.restore (h : s.Locked) : s.restore.Locked := by
  unfold Devices.restore
  generalize s.stored.take maxDevices = ds
  induction ds generalizing s with
  | nil =>
      exact h
  | cons d ds ih =>
      rw [List.foldl_cons]
      apply ih
      unfold restoreDevice
      split
      · exact h.of_append d
      · exact h

theorem Locked.apply (h : s.Locked) (enabled : Bool) (manual : List Text) (written : Bool) :
    (s.apply enabled manual written).Locked := by
  have hcfg : Locked { s with enabled := enabled, manual := manual } :=
    ⟨h.named, h.present, h.nodup, h.busy⟩
  unfold Devices.apply
  dsimp only
  split
  · split
    · exact hcfg
    · exact hcfg.restore
  · split
    · have hp := hcfg.persist written
      exact ⟨hp.named, hp.present, hp.nodup, hp.busy⟩
    · exact hcfg

theorem Locked.dropPins (h : s.Locked) (id : Text) : (s.dropPins id).Locked := by
  unfold Devices.dropPins
  split
  · exact h
  · next r d hlook => exact h.of_set (lookup_eq_some.1 hlook).2 rfl

theorem Locked.sweep (h : s.Locked) (now : Int) : (s.sweep now).Locked :=
  h.of_same (.of_ids rfl rfl rfl)
    (h.named.of_ids rfl fun _ _ hget => ((OrderedMap.get_filter _ _).1 hget).1)

/-- A job or a scan goes ahead on a device whose id is not busy. -/
theorem Locked.begin (h : s.Locked) {r : Nat} {d : Device} (hd : s.objects[r]? = some d)
    (hfree : d.id ∉ s.busy.keys) (ep : Endpoint) (scan : Option Text) :
    (s.begin r d ep scan).Locked := by
  have hid : s.idOf r = some d.id := by rw [idOf, hd, Option.map_some]
  have hheld : (s.begin r d ep scan).held = s.held ++ [some d.id] := by
    calc (s.begin r d ep scan).held
        = (s.uses ++ [Use.mk r scan]).map (fun u => s.idOf u.device) := rfl
      _ = s.held ++ [s.idOf r] := by rw [List.map_append]; rfl
      _ = s.held ++ [some d.id] := by rw [hid]
  refine ⟨h.named, fun u hu => ?_, ?_, fun id => ?_⟩
  · rcases List.mem_append.1 hu with hold | hnew
    · exact h.present u hold
    · rw [List.mem_singleton.1 hnew]
      exact lt_of_idOf hid
  · rw [hheld]
    apply List.nodup_append.2
    refine ⟨h.nodup, List.nodup_singleton _, fun a ha b hb hab => ?_⟩
    rw [List.mem_singleton.1 hb] at hab
    exact hfree ((h.busy d.id).2 (hab ▸ ha))
  · rw [hheld, List.mem_append, List.mem_singleton, ← h.busy id, Option.some.injEq]
    exact (OrderedSet.mem_keys_add s.busy).trans Or.comm

theorem Locked.run (h : s.Locked) {deviceId : Text} (hs : s.run deviceId = some s') :
    s'.Locked := by
  unfold Devices.run at hs
  split at hs
  · cases hs
  · next hbusy =>
      split at hs
      · cases hs
      · next r d hlook =>
          obtain ⟨hget, hd⟩ := lookup_eq_some.1 hlook
          split at hs
          · cases hs
          · split at hs
            · cases hs
              -- the table has the device under its own id
              have hid : d.id = deviceId := by
                have hnamed := h.named _ _ hget
                rw [idOf, hd] at hnamed
                exact Option.some.inj hnamed
              refine h.begin hd (fun hmem => hbusy ?_) _ _
              rw [← hid]
              exact (OrderedMap.has_iff _).2 hmem
            · cases hs

theorem Locked.requestScan (h : s.Locked) (scanId deviceId : Text) :
    (s.requestScan scanId deviceId).2.Locked := by
  unfold Devices.requestScan
  split
  · split
    · exact h
    · next r d hlook =>
        split
        · exact h
        · next ep _ =>
          split
          · split
            · exact h
            · next hbusy =>
                have hfree : d.id ∉ s.busy.keys := fun hmem => hbusy <| by
                  rw [(OrderedMap.has_iff _).2 hmem, Bool.true_or]
                have hb := h.begin (lookup_eq_some.1 hlook).2 hfree ep (some scanId)
                exact ⟨hb.named, hb.present, hb.nodup, hb.busy⟩
          · exact h
  · exact h

/-- The end of a job or a scan takes out the id that it has taken in. -/
theorem Locked.finish (h : s.Locked) {i : Nat} {u : Use} (hu : s.uses[i]? = some u) :
    (s.finish i u).Locked := by
  have hpresent := h.present u (List.mem_of_getElem? hu)
  have hd : s.objects[u.device]? = some s.objects[u.device] := List.getElem?_eq_getElem hpresent
  have hat : s.held[i]? = some (some s.objects[u.device].id) := by
    rw [held, List.getElem?_map, hu, Option.map_some, idOf, hd, Option.map_some]
  have hheld : (s.finish i u).held = s.held.eraseIdx i := (List.eraseIdx_map ..).symm
  refine ⟨h.named, fun v hv => h.present v (List.mem_of_mem_eraseIdx hv), ?_, fun id => ?_⟩
  · rw [hheld]
    exact h.nodup.sublist (List.eraseIdx_sublist ..)
  · have hbusy : (s.finish i u).busy = s.busy.delete s.objects[u.device].id := by
      rw [Devices.finish, hd]
      rfl
    rw [hbusy, hheld, OrderedMap.mem_keys_delete, h.busy]
    constructor
    · rintro ⟨hne, hmem⟩
      apply (mem_eraseIdx_of_key_ne (f := fun k => k) hat fun heq => ?_).2 hmem
      exact hne (Option.some.inj heq)
    · intro hmem
      have hnodup : (s.held.map fun k => k).Nodup := (List.map_id' s.held).symm ▸ h.nodup
      have hne := key_ne_of_mem_eraseIdx hnodup hat hmem
      exact ⟨fun heq => hne (congrArg some heq), List.mem_of_mem_eraseIdx hmem⟩

theorem Locked.step (h : s.Locked) {a : Action} (hok : KeepsIds digest s a)
    (hs : s.step digest a = some s') : s'.Locked := by
  cases a with
  | apply enabled manual written =>
      cases hs
      exact h.apply enabled manual written
  | subnets subnets =>
      cases hs
      exact ⟨h.named, h.present, h.nodup, h.busy⟩
  | restart =>
      cases hs
      exact new_locked s.subnets |>.of_same ⟨rfl, rfl, Nat.le_refl _, fun _ _ _ => rfl⟩
        fun id r hget => by cases hget
  | search retrust =>
      simp only [Devices.step] at hs
      split at hs
      · cases hs
        cases retrust with
        | none => exact ⟨h.named, h.present, h.nodup, h.busy⟩
        | some id =>
            have hd := h.dropPins id
            exact ⟨hd.named, hd.present, hd.nodup, hd.busy⟩
      · cases hs
  | browsed services now =>
      simp only [Devices.step] at hs
      split at hs
      · cases hs
        have hm := mergeAll_of_admits
          (fun s f (hi : Locked s) (hk : KeepsId digest s f) => hi.merge hk) h hok
        exact ⟨hm.named, hm.present, hm.nodup, hm.busy⟩
      · cases hs
  | probed i answer =>
      rcases Option.map_eq_some_iff.1 hs with ⟨p, hp, rfl⟩
      have hpr : (s.probed digest p.1 p.2 answer).Locked := by
        unfold Devices.probed
        split
        · exact h
        · next f hf => exact h.merge (hok p hp f hf)
      exact ⟨hpr.named, hpr.present, hpr.nodup, hpr.busy⟩
  | sweep =>
      rcases Option.bind_eq_some_iff.1 hs with ⟨_, _, hnow⟩
      rcases Option.map_eq_some_iff.1 hnow with ⟨now, _, rfl⟩
      exact h.sweep now
  | searched written =>
      simp only [Devices.step] at hs
      split at hs
      · cases hs
        have hp := h.persist written
        exact ⟨hp.named, hp.present, hp.nodup, hp.busy⟩
      · cases hs
  | seen r now =>
      rcases Option.map_eq_some_iff.1 hs with ⟨d, hd, rfl⟩
      exact h.of_set hd rfl
  | pinned r kind pin =>
      rcases Option.map_eq_some_iff.1 hs with ⟨d, hd, rfl⟩
      cases kind with
      | printer => exact h.of_set hd rfl
      | scanner => exact h.of_set hd rfl
  | run deviceId =>
      exact h.run hs
  | requestScan scanId deviceId =>
      cases hs
      exact h.requestScan scanId deviceId
  | finish i =>
      rcases Option.map_eq_some_iff.1 hs with ⟨u, hu, rfl⟩
      exact h.finish hu
  | persist written =>
      cases hs
      exact h.persist written

/-! ## Runs -/

/-- In a run that gives no device in use another id, at most one job or scan is in progress on a
device, and nothing stays busy. -/
theorem one_use_per_device (subnets : List Edge.Subnet) (as : List Action)
    (h : Admits (step digest) (KeepsIds digest) (new subnets) as) :
    Throughout (step digest) SingleUse (new subnets) as :=
  throughout_of_admits (fun _ _ _ hi hok hs => Locked.step hi hok hs) (fun _ hi => hi.singleUse)
    (new_locked subnets) h

/-- A scanner at an address, with a UUID or without. -/
def scannerAt (ip uuid : String) : Service :=
  ⟨.scanner, .http, ip.toList, [ip.toList], 80, "eSCL".toList, uuid.toList⟩

def printerAt (ip uuid : String) : Service :=
  ⟨.printer, .ipp, ip.toList, [ip.toList], 631, "ipp/print".toList, uuid.toList⟩

def officeUuid : String := "f0d80000-0000-1000-8000-0000c0a8010a"

def officeLan : List Edge.Subnet := [⟨"192.168.1.0".toList, 24⟩]

/-- The id of the printer in the office, known by its address. -/
def byAddress : Text := deviceId (fun _ => "c0a8010a".toList) none []

def byUuid : Text := deviceId (fun _ => []) (normUuid officeUuid.toList) []

/-- The device gets its UUID before it is used, and the feature is switched off and on in between. -/
def renamedBefore : List Action :=
  [.apply true [] true, .search none, .browsed [scannerAt "192.168.1.10" ""] 1000, .sweep,
    .searched true, .search none,
    .browsed [scannerAt "192.168.1.10" officeUuid, printerAt "192.168.1.10" officeUuid] 2000,
    .sweep, .searched true, .requestScan "scan-1".toList byUuid,
    .apply false [] true, .apply true [] true, .finish 0, .run byUuid, .search none,
    .browsed [printerAt "192.168.1.10" officeUuid] 3000, .sweep, .searched false, .finish 0]

theorem one_use_per_device_renamed_before :
    Throughout (step fun _ => "c0a8010a".toList) SingleUse (new officeLan) renamedBefore :=
  one_use_per_device officeLan renamedBefore (by decide +kernel)

/-- The device gets its UUID during a scan. -/
def renamedDuring : List Action :=
  [.apply true [] true, .search none, .browsed [scannerAt "192.168.1.10" ""] 1000, .sweep,
    .searched true, .requestScan "scan-1".toList byAddress, .search none,
    .browsed [scannerAt "192.168.1.10" officeUuid] 2000,
    .requestScan "scan-2".toList byUuid]

/-- Two scans are in progress on one device; when both have ended, its old id stays busy. -/
theorem two_uses_of_a_device :
    (∃ s, exec (step fun _ => "c0a8010a".toList) (new officeLan) renamedDuring = some s ∧
      ¬ (s.uses.map Use.device).Nodup) ∧
    ∃ s, exec (step fun _ => "c0a8010a".toList) (new officeLan)
        (renamedDuring ++ [.finish 0, .finish 0]) = some s ∧
      s.uses = [] ∧ s.busy.keys ≠ [] := by
  have htwo : (exec (step fun _ => "c0a8010a".toList) (new officeLan) renamedDuring).any
      (fun s => decide (¬ (s.uses.map Use.device).Nodup)) = true := by
    decide +kernel
  have hbusy : (exec (step fun _ => "c0a8010a".toList) (new officeLan)
      (renamedDuring ++ [.finish 0, .finish 0])).any
      (fun s => decide (s.uses = [] ∧ s.busy.keys ≠ [])) = true := by
    decide +kernel
  rcases (Option.any_eq_true ..).1 htwo with ⟨s, hs, hsbad⟩
  rcases (Option.any_eq_true ..).1 hbusy with ⟨t, ht, htbad⟩
  exact ⟨⟨s, hs, of_decide_eq_true hsbad⟩, t, ht, of_decide_eq_true htbad⟩

end Devices

end Print
end GateControl
