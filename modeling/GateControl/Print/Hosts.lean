import GateControl.Library.Keyed
import GateControl.Print.Devices

/-!
# Hosts — where jobs and scans connect to

Before a job or a scan goes ahead, the address of its device is checked; it connects to the host of
an endpoint.  A search takes for a service the first address that is allowed, so that the endpoints
it makes up are allowed when it makes them up (`mergeDevices_contained`).  Later the allowed
addresses change, and a merge carries endpoints over from earlier searches.  `hosts_allowed` is
about the runs in which neither separates an allowed address from its endpoints.
-/

namespace GateControl
namespace Print

open Library
open Edge (Subnet)

/-! ## What a search makes up -/

/-- With the address of a device, the hosts of its endpoints are allowed. -/
def Contained (isAllowed : Text → Bool) (ip : Text) (endpoints : List Endpoint) : Prop :=
  isAllowed ip = true → ∀ ep ∈ endpoints, isAllowed ep.host = true

instance (isAllowed : Text → Bool) (ip : Text) (endpoints : List Endpoint) :
    Decidable (Contained isAllowed ip endpoints) :=
  inferInstanceAs (Decidable (_ → ∀ _ ∈ _, _))

variable {isAllowed : Text → Bool}

theorem mem_endpoints_of_better {old : Option Endpoint} {ep x : Endpoint}
    (h : x ∈ better old ep) : x = ep ∨ x ∈ old := by
  unfold better at h
  split at h
  · exact Or.inl (Option.some.inj h).symm
  · split at h
    · exact Or.inl (Option.some.inj h).symm
    · exact Or.inr h

theorem mem_endpoints {d : Device} {ep : Endpoint} :
    ep ∈ d.endpoints ↔ ep ∈ d.ipp ∨ ep ∈ d.escl := by
  simp [Device.endpoints]

theorem Found.mem_endpoints {f : Found} {ep : Endpoint} :
    ep ∈ f.endpoints ↔ ep ∈ f.ipp ∨ ep ∈ f.escl := by
  simp [Found.endpoints]

/-- A service adds an endpoint at its own address only. -/
theorem Found.announce_contained {d : Found} (h : Contained isAllowed d.ip d.endpoints)
    (s : Service) (uuid : Option Text) {ip : Text} (hip : isAllowed ip = true) :
    Contained isAllowed (d.announce s uuid ip).ip (d.announce s uuid ip).endpoints := by
  intro hd ep hep
  have hdip : isAllowed d.ip = true := by
    unfold Found.announce at hd
    cases hk : s.kind with
    | printer => simpa only [hk] using hd
    | scanner => simpa only [hk] using hd
  have hnew : ep = ⟨s.scheme, ip, s.port, s.path, none⟩ ∨ ep ∈ d.endpoints := by
    rw [Found.mem_endpoints] at hep ⊢
    unfold Found.announce at hep
    cases hk : s.kind with
    | printer =>
        simp only [hk] at hep
        rcases hep with hipp | hescl
        · exact (mem_endpoints_of_better hipp).imp_right Or.inl
        · exact Or.inr (Or.inr hescl)
    | scanner =>
        simp only [hk] at hep
        rcases hep with hipp | hescl
        · exact Or.inr (Or.inl hipp)
        · exact (mem_endpoints_of_better hescl).imp_right Or.inr
  rcases hnew with rfl | hold
  · exact hip
  · exact h hdip ep hold

/-- Every device made up so far is contained. -/
def Merging.Contained (isAllowed : Text → Bool) (m : Merging) : Prop :=
  ∀ f ∈ m.devices, Print.Contained isAllowed f.ip f.endpoints

theorem Merging.place_contained {m m' : Merging} {uuid : Option Text} {ip : Text} {i : Nat}
    (h : m.Contained isAllowed) (hp : m.place uuid ip = some (m', i)) :
    m'.Contained isAllowed := by
  unfold Merging.place at hp
  dsimp only at hp
  split at hp
  · cases hp
    exact h
  · split at hp
    · cases hp
      exact h
    · split at hp
      · cases hp
      · cases hp
        -- a new device has no endpoints yet
        intro f hf
        rcases List.mem_append.1 hf with hold | hnew
        · exact h f hold
        · rw [List.mem_singleton.1 hnew]
          intro _ ep hep
          cases hep

theorem Merging.add_contained {m : Merging} (h : m.Contained isAllowed) (s : Service) :
    (m.add isAllowed s).Contained isAllowed := by
  unfold Merging.add
  split
  · exact h
  · next ip hfind =>
      dsimp only
      split
      · exact h
      · next m' i hplace =>
          have hip : isAllowed ip = true := by simpa using List.find?_some hfind
          have hm := Merging.place_contained h hplace
          intro f hf
          rcases List.mem_iff_getElem?.1 hf with ⟨k, hk⟩
          rw [List.getElem?_modify] at hk
          rcases Option.map_eq_some_iff.1 hk with ⟨d, hd, rfl⟩
          have hd' := hm d (List.mem_of_getElem? hd)
          split
          · exact Found.announce_contained hd' s _ hip
          · exact hd'

theorem mergeDevices_contained (isAllowed : Text → Bool) (services : List Service) :
    ∀ f ∈ mergeDevices isAllowed services, Contained isAllowed f.ip f.endpoints := by
  have hfold : ∀ (services : List Service) (m : Merging), m.Contained isAllowed →
      (services.foldl (Merging.add isAllowed) m).Contained isAllowed := by
    intro services
    induction services with
    | nil =>
        exact fun _ h => h
    | cons s services ih =>
        exact fun m h => ih _ (Merging.add_contained h s)
  apply hfold
  intro f hf
  cases hf

/-- A manual address has its endpoints at itself. -/
theorem probeManual_contained {ip : Text} {p : Probe} {f : Found} (h : probeManual ip p = some f) :
    Contained isAllowed f.ip f.endpoints := by
  unfold probeManual at h
  dsimp only at h
  split at h
  · cases h
  · cases h
    intro hip ep hep
    rw [Found.mem_endpoints] at hep
    rcases hep with hipp | hescl
    · rcases Option.map_eq_some_iff.1 hipp with ⟨x, _, rfl⟩
      cases x with
      | inl => exact hip
      | inr => exact hip
    · rcases Option.map_eq_some_iff.1 hescl with ⟨x, _, rfl⟩
      cases x with
      | none => exact hip
      | some => exact hip

namespace Devices

variable {digest : Text → Text} {s s' : Devices}

/-- The devices of the table. -/
def listed (s : Devices) : List Device := s.devices.values.filterMap fun r => s.objects[r]?

theorem mem_listed {d : Device} :
    d ∈ s.listed ↔ ∃ r ∈ s.devices.values, s.objects[r]? = some d := by
  rw [listed, List.mem_filterMap]

/-! ## The condition -/

/-- An endpoint that is carried over to an allowed address is itself at an allowed one. -/
def CarriesAllowed (digest : Text → Text) (s : Devices) (f : Found) : Prop :=
  ∀ k ∈ s.known digest f, s.isAllowed f.ip = true →
    (f.ipp = none → ∀ ep ∈ k.2.ipp, s.isAllowed ep.host = true) ∧
      (f.escl = none → ∀ ep ∈ k.2.escl, s.isAllowed ep.host = true)

instance (f : Found) : Decidable (CarriesAllowed digest s f) :=
  inferInstanceAs (Decidable (∀ _ ∈ _, _ → _ ∧ _))

/-- Neither a change of the allowed addresses nor a merge separates an allowed address from its
endpoints.  A change may also switch the feature on and bring back the devices stored. -/
def Together (digest : Text → Text) (s : Devices) : Action → Prop
  | .apply enabled manual _ =>
      (∀ d ∈ s.listed, Contained (allows manual s.subnets) d.ip d.endpoints) ∧
        (enabled = true → s.enabled = false →
          ∀ d ∈ s.stored.take maxDevices, Contained (allows manual s.subnets) d.ip d.endpoints)
  | .subnets subnets => ∀ d ∈ s.listed, Contained (allows s.manual subnets) d.ip d.endpoints
  | .browsed services now =>
      Admits (fun s f => some (merge digest s now f)) (CarriesAllowed digest) s
        (mergeDevices s.isAllowed services)
  | .probed i answer =>
      ∀ p ∈ s.probes[i]?, ∀ f ∈ answer.bind (probeManual p.1), CarriesAllowed digest s f
  | _ => True

instance (a : Action) : Decidable (Together digest s a) :=
  match a with
  | .apply .. => inferInstanceAs (Decidable ((∀ _ ∈ _, _) ∧ (_ → _ → ∀ _ ∈ _, _)))
  | .subnets _ => inferInstanceAs (Decidable (∀ _ ∈ _, _))
  | .browsed _ _ => inferInstanceAs (Decidable (Admits _ _ _ _))
  | .probed _ _ => inferInstanceAs (Decidable (∀ _ ∈ _, ∀ _ ∈ _, _))
  | .restart | .search _ | .sweep | .searched _ | .seen .. | .pinned ..
  | .run _ | .requestScan .. | .finish _ | .persist _ => inferInstanceAs (Decidable True)

/-! ## The invariant -/

variable {r : Nat} {d e : Device} {objects : List Device}

/-- The devices of the table are contained, and no host was used that was not allowed. -/
structure Inside (s : Devices) : Prop where
  contained : ∀ d ∈ s.listed, Contained s.isAllowed d.ip d.endpoints
  outside : s.outside = []

theorem new_inside (subnets : List Subnet) : (new subnets).Inside :=
  ⟨fun _ hd => (by cases hd), rfl⟩

/-- Of a step that keeps the settings: what is new in the table is contained. -/
theorem Inside.of_listed (h : s.Inside) (hm : s'.manual = s.manual) (hn : s'.subnets = s.subnets)
    (ho : s'.outside = s.outside)
    (hl : ∀ d ∈ s'.listed, d ∈ s.listed ∨ Contained s.isAllowed d.ip d.endpoints) : s'.Inside := by
  have hallowed : s'.isAllowed = s.isAllowed := by
    funext ip
    rw [isAllowed, isAllowed, hm, hn]
  refine ⟨fun d hd => ?_, ho.trans h.outside⟩
  rw [hallowed]
  rcases hl d hd with hold | hnew
  · exact h.contained d hold
  · exact hnew

theorem Inside.same (h : s.Inside) (hm : s'.manual = s.manual) (hn : s'.subnets = s.subnets)
    (ho : s'.outside = s.outside) (hd : s'.devices = s.devices) (hobj : s'.objects = s.objects) :
    s'.Inside := by
  apply h.of_listed hm hn ho
  intro d hmem
  rw [listed, hd, hobj] at hmem
  exact Or.inl hmem

/-- Where one object is put into the table, the others stay contained. -/
theorem Inside.put (h : s.Inside) {devices : OrderedMap Text Nat}
    (hv : ∀ k ∈ devices.values, k = r ∨ k ∈ s.devices.values)
    (ho : ∀ k x, k ≠ r → objects[k]? = some x → s.objects[k]? = some x)
    (hnew : ∀ x, r ∈ devices.values → objects[r]? = some x →
      Contained s.isAllowed x.ip x.endpoints) :
    Inside { s with objects := objects, devices := devices } := by
  have hl : ∀ x ∈ listed { s with objects := objects, devices := devices },
      x ∈ s.listed ∨ Contained s.isAllowed x.ip x.endpoints := by
    intro x hx
    rcases mem_listed.1 hx with ⟨k, hk, hkx⟩
    by_cases hkr : k = r
    · subst hkr
      exact Or.inr (hnew x hk hkx)
    · exact Or.inl (mem_listed.2 ⟨k, (hv k hk).resolve_left hkr, ho k x hkr hkx⟩)
  exact h.of_listed rfl rfl rfl hl

theorem getElem?_of_set {k : Nat} {x : Device} (hne : k ≠ r) (h : (objects.set r e)[k]? = some x) :
    objects[k]? = some x :=
  ((getElem?_set_cases h).resolve_left fun hat => hne hat.1).2

theorem getElem?_of_append {k : Nat} {x : Device} (hne : k ≠ objects.length)
    (h : (objects ++ [e])[k]? = some x) : objects[k]? = some x :=
  (getElem?_concat_iff.1 h).resolve_right fun hat => hne hat.1

theorem eq_of_getElem?_set {x : Device} (hd : objects[r]? = some d)
    (h : (objects.set r e)[r]? = some x) : x = e := by
  rw [List.getElem?_set_self (List.getElem?_eq_some_iff.1 hd).1] at h
  exact (Option.some.inj h).symm

theorem eq_of_getElem?_append {x : Device} (h : (objects ++ [e])[objects.length]? = some x) :
    x = e := by
  rw [List.getElem?_concat_length] at h
  exact (Option.some.inj h).symm

/-- An object changes, but not its address and its hosts. -/
theorem Inside.of_set (h : s.Inside) (hd : s.objects[r]? = some d) (hip : e.ip = d.ip)
    (hhost : ∀ ep ∈ e.endpoints, ∃ x ∈ d.endpoints, x.host = ep.host) :
    Inside { s with objects := s.objects.set r e } := by
  refine h.put (fun k hk => Or.inr hk) (fun _ _ hne => getElem?_of_set hne) ?_
  intro x hr hx hallowed ep hep
  rw [eq_of_getElem?_set hd hx] at hallowed hep
  rcases hhost ep hep with ⟨y, hy, hyep⟩
  rw [hip] at hallowed
  rw [← hyep]
  exact h.contained d (mem_listed.2 ⟨r, hr, hd⟩) hallowed y hy

/-- A new object comes into the table. -/
theorem Inside.of_append (h : s.Inside) (id : Text) (hd : Contained s.isAllowed d.ip d.endpoints) :
    Inside { s with
      objects := s.objects ++ [d]
      devices := s.devices.set id s.objects.length } := by
  refine h.put (fun k hk => OrderedMap.mem_values_set hk)
    (fun _ _ hne => getElem?_of_append hne) ?_
  intro x _ hx
  rw [eq_of_getElem?_append hx]
  exact hd

/-! ## Merges -/

/-- An endpoint after a merge is the one found, or the one there was if none has been found. -/
theorem host_of_keepPin {fresh prev : Option Endpoint} {ep : Endpoint}
    (h : keepPin fresh prev = some ep) :
    (∃ x ∈ fresh, x.host = ep.host) ∨ (fresh = none ∧ ep ∈ prev) := by
  unfold keepPin at h
  split at h
  · exact Or.inr ⟨rfl, h⟩
  · cases h
    exact Or.inl ⟨_, rfl, rfl⟩
  · split at h
    · cases h
      exact Or.inl ⟨_, rfl, rfl⟩
    · cases h
      exact Or.inl ⟨_, rfl, rfl⟩

/-- So it is at an allowed host if what is carried over is. -/
theorem allowed_of_keepPin {fresh prev : Option Endpoint} {ep : Endpoint}
    (hfresh : ∀ x ∈ fresh, isAllowed x.host = true)
    (hprev : fresh = none → ∀ x ∈ prev, isAllowed x.host = true)
    (h : ep ∈ keepPin fresh prev) : isAllowed ep.host = true := by
  rcases host_of_keepPin h with ⟨x, hx, heq⟩ | ⟨hnone, hold⟩
  · rw [← heq]
    exact hfresh x hx
  · exact hprev hnone ep hold

theorem Inside.merge (h : s.Inside) {now : Int} {f : Found}
    (hf : Contained s.isAllowed f.ip f.endpoints) (hok : CarriesAllowed digest s f) :
    Inside (merge digest s now f) := by
  unfold Devices.merge
  cases hk : s.known digest f with
  | none =>
      exact h.of_append _ hf
  | some k =>
      obtain ⟨r, old⟩ := k
      have hobj := (mem_of_known hk).2
      refine h.put (r := r) (fun k hk => ?_) (fun _ _ hne => getElem?_of_set hne) ?_
      · rcases OrderedMap.mem_values_set hk with heq | hin
        · exact Or.inl heq
        · split at hin
          · exact Or.inr hin
          · exact Or.inr (OrderedMap.mem_values_delete hin)
      · intro x _ hx
        rw [eq_of_getElem?_set hobj hx]
        intro hallowed ep hep
        have hfound := hf hallowed
        have hcarried := hok _ hk hallowed
        rcases mem_endpoints.1 hep with hipp | hescl
        · exact allowed_of_keepPin (fun x hx => hfound x (Found.mem_endpoints.2 (Or.inl hx)))
            hcarried.1 hipp
        · exact allowed_of_keepPin (fun x hx => hfound x (Found.mem_endpoints.2 (Or.inr hx)))
            hcarried.2 hescl

theorem merge_isAllowed (now : Int) (f : Found) :
    (merge digest s now f).isAllowed = s.isAllowed := by
  unfold Devices.merge
  cases s.known digest f with
  | none => rfl
  | some k => rfl

theorem Inside.mergeAll {now : Int} {fs : List Found} {s : Devices} (h : s.Inside)
    (hfs : ∀ f ∈ fs, Contained s.isAllowed f.ip f.endpoints)
    (hok : Admits (fun s f => some (Devices.merge digest s now f)) (CarriesAllowed digest) s fs) :
    (s.mergeAll digest now fs).Inside := by
  induction fs generalizing s with
  | nil =>
      exact h
  | cons f fs ih =>
      apply ih (h.merge (hfs f List.mem_cons_self) hok.1) _ (hok.2 _ rfl)
      intro g hg
      rw [merge_isAllowed]
      exact hfs g (List.mem_cons_of_mem f hg)

/-! ## Steps -/

theorem Inside.persist (h : s.Inside) (written : Bool) : (s.persist written).Inside := by
  unfold Devices.persist
  split
  · exact h.same rfl rfl rfl rfl rfl
  · exact h

theorem Inside.restore (h : s.Inside)
    (hd : ∀ d ∈ s.stored.take maxDevices, Contained s.isAllowed d.ip d.endpoints) :
    s.restore.Inside := by
  unfold Devices.restore
  revert hd
  generalize s.stored.take maxDevices = ds
  intro hd
  induction ds generalizing s with
  | nil =>
      exact h
  | cons d ds ih =>
      have hone : (s.restoreDevice d).Inside ∧ (s.restoreDevice d).isAllowed = s.isAllowed := by
        unfold restoreDevice
        split
        · exact ⟨h.of_append _ (hd d List.mem_cons_self), rfl⟩
        · exact ⟨h, rfl⟩
      rw [List.foldl_cons]
      apply ih hone.1
      rw [hone.2]
      exact fun e he => hd e (List.mem_cons_of_mem d he)

theorem Inside.apply (h : s.Inside) {enabled : Bool} {manual : List Text} {written : Bool}
    (hok : Together digest s (.apply enabled manual written)) :
    (s.apply enabled manual written).Inside := by
  have hcfg : Inside { s with enabled := enabled, manual := manual } := ⟨hok.1, h.outside⟩
  unfold Devices.apply
  dsimp only
  split
  · next hon =>
      split
      · exact hcfg
      · next hoff => exact hcfg.restore (hok.2 hon (Bool.eq_false_iff.2 hoff))
  · split
    · exact (hcfg.persist written).same rfl rfl rfl rfl rfl
    · exact hcfg

theorem Inside.dropPins (h : s.Inside) (id : Text) : (s.dropPins id).Inside := by
  unfold Devices.dropPins
  split
  · exact h
  · next r d hlook =>
      refine h.of_set (lookup_eq_some.1 hlook).2 rfl fun ep hep => ?_
      rcases mem_endpoints.1 hep with hipp | hescl
      · rcases Option.map_eq_some_iff.1 hipp with ⟨x, hx, rfl⟩
        exact ⟨x, mem_endpoints.2 (Or.inl hx), rfl⟩
      · rcases Option.map_eq_some_iff.1 hescl with ⟨x, hx, rfl⟩
        exact ⟨x, mem_endpoints.2 (Or.inr hx), rfl⟩

theorem learnPin_host (pin : Text) (ep : Endpoint) : (learnPin pin ep).host = ep.host := by
  unfold learnPin
  split
  · rfl
  · rfl

theorem Inside.pinned (h : s.Inside) (hd : s.objects[r]? = some d) (kind : Kind) (pin : Text) :
    Inside { s with objects := s.objects.set r (pinned kind pin d) } := by
  cases kind with
  | printer =>
      refine h.of_set hd rfl fun ep hep => ?_
      rcases mem_endpoints.1 hep with hipp | hescl
      · rcases Option.map_eq_some_iff.1 hipp with ⟨x, hx, rfl⟩
        exact ⟨x, mem_endpoints.2 (Or.inl hx), (learnPin_host pin x).symm⟩
      · exact ⟨ep, mem_endpoints.2 (Or.inr hescl), rfl⟩
  | scanner =>
      refine h.of_set hd rfl fun ep hep => ?_
      rcases mem_endpoints.1 hep with hipp | hescl
      · exact ⟨ep, mem_endpoints.2 (Or.inl hipp), rfl⟩
      · rcases Option.map_eq_some_iff.1 hescl with ⟨x, hx, rfl⟩
        exact ⟨x, mem_endpoints.2 (Or.inr hx), (learnPin_host pin x).symm⟩

theorem Inside.sweep (h : s.Inside) (now : Int) : (s.sweep now).Inside := by
  have hl : ∀ d ∈ (s.sweep now).listed, d ∈ s.listed := by
    intro d hd
    rcases mem_listed.1 hd with ⟨r, hr, hobj⟩
    rcases (OrderedMap.mem_values_iff _).1 hr with ⟨id, hget⟩
    have hold := ((OrderedMap.get_filter _ _).1 hget).1
    exact mem_listed.2 ⟨r, (OrderedMap.mem_values_iff _).2 ⟨id, hold⟩, hobj⟩
  exact h.of_listed rfl rfl rfl fun d hd => Or.inl (hl d hd)

/-- What goes ahead on an allowed device uses an allowed host. -/
theorem Inside.begin (h : s.Inside) {id : Text} (hlook : s.lookup id = some (r, d))
    (hip : s.isAllowed d.ip = true) {ep : Endpoint} (hep : ep ∈ d.endpoints) (scan : Option Text) :
    (s.begin r d ep scan).Inside := by
  obtain ⟨hget, hobj⟩ := lookup_eq_some.1 hlook
  have hd : d ∈ s.listed := mem_listed.2 ⟨r, (OrderedMap.mem_values_iff _).2 ⟨id, hget⟩, hobj⟩
  have hhost : s.isAllowed ep.host = true := h.contained d hd hip ep hep
  refine h.same rfl rfl ?_ rfl rfl
  rw [Devices.begin, if_pos hhost]

theorem Inside.run (h : s.Inside) {deviceId : Text} (hs : s.run deviceId = some s') :
    s'.Inside := by
  unfold Devices.run at hs
  split at hs
  · cases hs
  · split at hs
    · cases hs
    · next r d hlook =>
        split at hs
        · cases hs
        · next ep hipp =>
            split at hs
            · next hip =>
                cases hs
                exact h.begin hlook hip (mem_endpoints.2 (Or.inl hipp)) none
            · cases hs

theorem Inside.requestScan (h : s.Inside) (scanId deviceId : Text) :
    (s.requestScan scanId deviceId).2.Inside := by
  unfold Devices.requestScan
  split
  · split
    · exact h
    · next r d hlook =>
        split
        · exact h
        · next ep hescl =>
            split
            · next hip =>
                split
                · exact h
                · have hb := h.begin hlook hip (mem_endpoints.2 (Or.inr hescl)) (some scanId)
                  exact hb.same rfl rfl rfl rfl rfl
            · exact h
  · exact h

theorem Inside.step (h : s.Inside) {a : Action} (hok : Together digest s a)
    (hs : s.step digest a = some s') : s'.Inside := by
  cases a with
  | apply enabled manual written =>
      cases hs
      exact h.apply hok
  | subnets subnets =>
      cases hs
      exact ⟨hok, h.outside⟩
  | restart =>
      cases hs
      exact ⟨fun _ hd => (by cases hd), h.outside⟩
  | search retrust =>
      simp only [Devices.step] at hs
      split at hs
      · cases hs
        cases retrust with
        | none => exact h.same rfl rfl rfl rfl rfl
        | some id => exact (h.dropPins id).same rfl rfl rfl rfl rfl
      · cases hs
  | browsed services now =>
      simp only [Devices.step] at hs
      split at hs
      · cases hs
        exact (h.mergeAll (mergeDevices_contained _ services) hok).same rfl rfl rfl rfl rfl
      · cases hs
  | probed i answer =>
      rcases Option.map_eq_some_iff.1 hs with ⟨p, hp, rfl⟩
      have hpr : (s.probed digest p.1 p.2 answer).Inside := by
        unfold Devices.probed
        split
        · exact h
        · next f hf =>
            rcases Option.bind_eq_some_iff.1 hf with ⟨_, _, hprobe⟩
            exact h.merge (probeManual_contained hprobe) (hok p hp f hf)
      exact hpr.same rfl rfl rfl rfl rfl
  | sweep =>
      rcases Option.bind_eq_some_iff.1 hs with ⟨_, _, hnow⟩
      rcases Option.map_eq_some_iff.1 hnow with ⟨now, _, rfl⟩
      exact h.sweep now
  | searched written =>
      simp only [Devices.step] at hs
      split at hs
      · cases hs
        exact (h.persist written).same rfl rfl rfl rfl rfl
      · cases hs
  | seen r now =>
      rcases Option.map_eq_some_iff.1 hs with ⟨d, hd, rfl⟩
      exact h.of_set hd rfl fun ep hep => ⟨ep, hep, rfl⟩
  | pinned r kind pin =>
      rcases Option.map_eq_some_iff.1 hs with ⟨d, hd, rfl⟩
      exact h.pinned hd kind pin
  | run deviceId =>
      exact h.run hs
  | requestScan scanId deviceId =>
      cases hs
      exact h.requestScan scanId deviceId
  | finish i =>
      rcases Option.map_eq_some_iff.1 hs with ⟨u, _, rfl⟩
      exact h.same rfl rfl rfl rfl rfl
  | persist written =>
      cases hs
      exact h.persist written

/-! ## Runs -/

/-- In a run that separates no allowed address from its endpoints, every job and every scan that
goes ahead connects to an allowed host. -/
theorem hosts_allowed (subnets : List Subnet) (as : List Action)
    (h : Admits (step digest) (Together digest) (new subnets) as) :
    Throughout (step digest) (fun s => s.outside = []) (new subnets) as :=
  throughout_of_admits (fun _ _ _ hi hok hs => Inside.step hi hok hs) (fun _ hi => hi.outside)
    (new_inside subnets) h

/-- A device that offers a service at each of two addresses. -/
def twoAddresses : List Service :=
  [⟨.printer, .ipp, "192.168.1.10".toList, [], 631, "ipp/print".toList,
      "urn:uuid:F0D80000-0000-1000-8000-0000C0A8010A".toList⟩,
    ⟨.scanner, .http, "192.168.2.10".toList, ["169.254.7.7".toList, "192.168.2.10".toList], 80,
      "eSCL".toList, "f0d80000-0000-1000-8000-0000c0a8010a".toList⟩]

/-- The same device with both services at one. -/
def oneAddress : List Service :=
  twoAddresses.map fun s => { s with ip := "192.168.1.10".toList, ips := [] }

def firstLan : Subnet := ⟨"192.168.1.0".toList, 24⟩

def secondLan : Subnet := ⟨"192.168.2.0".toList, 24⟩

def twoAddressesId : Text := "u:f0d800000000100080000000c0a8010a".toList

/-- The scanner has moved to the address of the printer before the subnet of its old one goes. -/
def movedBefore : List Action :=
  [.apply true ["10.0.0.5".toList] true, .search none, .browsed twoAddresses 1000,
    .probed 0 (some ⟨some (.inl ⟨0, by decide⟩), none, []⟩), .sweep, .searched true,
    .requestScan "scan-1".toList twoAddressesId, .finish 0, .search none,
    .browsed oneAddress 2000, .probed 0 none, .sweep, .searched true, .subnets [firstLan],
    .requestScan "scan-2".toList twoAddressesId, .apply false [] true, .finish 0,
    .apply true [] true, .run twoAddressesId]

theorem hosts_allowed_moved_before :
    Throughout (step id) (fun s => s.outside = []) (new [firstLan, secondLan]) movedBefore :=
  hosts_allowed [firstLan, secondLan] movedBefore (by decide +kernel)

/-- The subnet of the scanner goes, and the address of the printer stays allowed. -/
def separated : List Action :=
  [.apply true [] true, .search none, .browsed twoAddresses 1000, .sweep, .searched true,
    .subnets [firstLan], .requestScan "scan-1".toList twoAddressesId]

theorem host_not_allowed :
    ∃ s, exec (step id) (new [firstLan, secondLan]) separated = some s ∧ s.outside ≠ [] := by
  have hrun : (exec (step id) (new [firstLan, secondLan]) separated).any
      (fun s => decide (s.outside ≠ [])) = true := by
    decide +kernel
  rcases (Option.any_eq_true ..).1 hrun with ⟨s, hs, hbad⟩
  exact ⟨s, hs, of_decide_eq_true hbad⟩

end Devices

end Print
end GateControl
