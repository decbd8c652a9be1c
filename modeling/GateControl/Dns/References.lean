import GateControl.Dns.FilterDecision
import GateControl.Dns.Lists

/-!
# References — what the checked configuration refers to exists

Profiles name lists, schedules name categories, and the default profile is one of the profiles; the
lists that `setWanted` works on are found through these names.

Categories are looked up in a set, lists in a plain object.  The object has its own entries and,
like every object, inherited members: a profile that names one of these keeps the name.
-/

namespace GateControl
namespace Dns

open Library

/-! ## Lists without repetitions -/

theorem eraseDups_of_nodup {α : Type*} [BEq α] [LawfulBEq α] {as : List α} (h : as.Nodup) :
    as.eraseDups = as := by
  induction as with
  | nil =>
      rfl
  | cons a as ih =>
      rcases List.nodup_cons.1 h with ⟨hnot, hrest⟩
      have hfilter : (as.filter fun b => !b == a) = as :=
        List.filter_eq_self.2 fun b hb => by
          have hne : b ≠ a := fun heq => hnot (heq ▸ hb)
          simpa using hne
      rw [List.eraseDups_cons, hfilter, ih hrest]

/-- A repeated item leaves no trace. -/
theorem eraseDups_append_cons {α : Type*} [BEq α] [LawfulBEq α] {as : List α} {a : α}
    (h : a ∈ as) (bs : List α) : (as ++ a :: bs).eraseDups = (as ++ bs).eraseDups := by
  have hremove : (a :: bs).removeAll as = bs.removeAll as := by
    rw [List.cons_removeAll, List.contains_iff_mem.2 h]
    rfl
  rw [List.eraseDups_append, hremove, List.eraseDups_append]

theorem eraseDups_keys {κ β : Type*} [BEq κ] [LawfulBEq κ] (m : OrderedMap κ β) :
    m.keys.eraseDups = m.keys :=
  eraseDups_of_nodup m.nodup

theorem eraseDups_map {α β : Type*} [BEq α] [LawfulBEq α] [BEq β] [LawfulBEq β] {f : α → β}
    (hf : Function.Injective f) (as : List α) : (as.map f).eraseDups = as.eraseDups.map f := by
  induction hn : as.length using Nat.strong_induction_on generalizing as with
  | _ n ih =>
      subst hn
      cases as with
      | nil =>
          rfl
      | cons a as =>
          have hsame : (fun b => !b == f a) ∘ f = fun b => !b == a := by
            funext b
            simp [hf.beq_eq]
          -- what is left after the first item is no longer than the rest
          have hlt : (as.filter fun b => !b == a).length < (a :: as).length :=
            Nat.lt_succ_of_le (List.length_filter_le _ _)
          rw [List.map_cons, List.eraseDups_cons, List.eraseDups_cons, List.map_cons,
            List.filter_map, hsame, ih _ hlt _ rfl]

/-! ## A configuration closed under its references -/

/-- The serialised form of an address that the host reads as an https one. -/
def IsHttpsUrl (host : ConfigHost) (url : Text) : Prop :=
  ∃ u x, host.parseUrl u = some x ∧ x.protocol = "https:".toList ∧ url = x.href

/-- What `setWanted` works on, for the catalog and the ids that `apply` hands to it. -/
def workedOn (cfg : DnsConfig) : List Text :=
  (cfg.profiles.flatMap ProfileCfg.lists).eraseDups.filter fun id =>
    -- `catalog[id]` is a lookup in the same object
    cfg.lists.has id || id ∈ inheritedNames

/-- Whatever the manager is doing, these are the lists it works on from then on. -/
theorem used_takeCatalog {host : UnicodeHost} (s : ListManager host) (cfg : DnsConfig)
    {catalog : OrderedMap ListId CatalogEntry}
    (hcatalog : ∀ id : Text, catalog.has (String.ofList id) = cfg.lists.has id) :
    (s.takeCatalog catalog ((cfg.profiles.flatMap ProfileCfg.lists).map String.ofList)).used =
      (workedOn cfg).map String.ofList := by
  have hfound : ListManager.found catalog ∘ String.ofList =
      fun id => cfg.lists.has id || id ∈ inheritedNames := by
    funext id
    simp [ListManager.found, ListManager.isInherited, hcatalog]
  rw [workedOn, ListManager.takeCatalog]
  dsimp only
  rw [eraseDups_map (fun _ _ h => String.ofList_injective h), List.filter_map, hfound]

structure Closed (host : ConfigHost) (cfg : DnsConfig) : Prop where
  lists : ∀ p ∈ cfg.profiles, ∀ l ∈ p.lists, ∃ c, cfg.lists.get l = some c ∧ IsHttpsUrl host c.url
  categories : ∀ p ∈ cfg.profiles, ∀ s ∈ p.schedules, ∀ c ∈ s.categories, c ∈ cfg.categories.keys
  ids : (cfg.profiles.map ProfileCfg.id).Nodup
  defaultProfile : (∃ p ∈ cfg.profiles, cfg.defaultProfile = some p.id) ∨
    (cfg.profiles = [] ∧ cfg.defaultProfile = none)
  listCount : cfg.lists.size ≤ 32
  profileCount : cfg.profiles.length ≤ 32
  scheduleCount : ∀ p ∈ cfg.profiles, p.schedules.length ≤ 16
  macCount : (cfg.profiles.map fun p => p.macs.length).sum ≤ 2048
  workedOn : ∀ id ∈ workedOn cfg, listIdOk id ∧ ∃ c, cfg.lists.get id = some c ∧
    IsHttpsUrl host c.url

/-! ## What the input names -/

/-- The ids of the valid ones among these lists. -/
def validIds (host : ConfigHost) (es : List (Text × Json)) : List Text :=
  (es.filter fun e => listIdOk e.1 && (normalizeList host e.2).isSome).map Prod.fst

/-- The ids of the lists that are taken over. -/
def acceptedIds (host : ConfigHost) (d : Json) : List Text :=
  (validIds host ((d.field "lists").fields.take (maxLists * 2))).eraseDups.take maxLists

/-- The names among the lists of a profile. -/
def namedLists (p : Json) : List Text :=
  ((p.field "lists").items.take maxLists).filterMap Json.str?

/-- An item is taken for a profile: it has an id, and no item before it has the same. -/
structure Taken (host : ConfigHost) (ps : List Json) (p : Json) (id : Text) : Prop where
  hasId : profileId host (p.field "id") = some id
  idOk : profileIdOk id
  first : ∃ before after, ps = before ++ p :: after ∧
    ∀ q ∈ before, profileId host (q.field "id") ≠ some id

/-- No profile names a member of every object, other than as the id of a list. -/
def NamesNoMember (host : ConfigHost) (d : Json) : Prop :=
  ∀ p id, Taken host ((d.field "profiles").items.take maxProfiles) p id →
    ∀ l ∈ namedLists p, l ∈ inheritedNames → l ∈ acceptedIds host d

/-! ## Lists -/

section Lists

variable {host : ConfigHost}

theorem httpsUrl_isHttpsUrl {v : Json} {url : Text} (h : httpsUrl host v = some url) :
    IsHttpsUrl host url := by
  rcases Option.bind_eq_some_iff.1 h with ⟨u, _, hu⟩
  split at hu
  · cases hu
  · rcases Option.bind_eq_some_iff.1 hu with ⟨x, hx, hres⟩
    split at hres
    · rename_i hok
      exact ⟨u, x, hx, hok.1, (Option.some.inj hres).symm⟩
    · cases hres

theorem normalizeList_url {l : Json} {c : ListCfg} (h : normalizeList host l = some c) :
    IsHttpsUrl host c.url := by
  unfold normalizeList at h
  split at h
  · rename_i url format hurl _
    cases h
    exact httpsUrl_isHttpsUrl hurl
  · cases h

/-- A list that is accepted has a valid id and an https address. -/
def ListOk (host : ConfigHost) (lists : OrderedMap Text ListCfg) : Prop :=
  ∀ id c, lists.get id = some c → listIdOk id ∧ IsHttpsUrl host c.url

theorem normalizeLists_ok {es : List (Text × Json)} {m : OrderedMap Text ListCfg}
    (hm : ListOk host m) : ListOk host (normalizeLists host es m) := by
  induction es generalizing m with
  | nil =>
      exact hm
  | cons e es ih =>
      simp only [normalizeLists]
      split
      · exact hm
      · split
        · rename_i c hc
          split
          · rename_i hid
            refine ih fun id c' hget => ?_
            rcases OrderedMap.get_set_cases hget with ⟨rfl, rfl⟩ | ⟨_, hold⟩
            · exact ⟨hid, normalizeList_url hc⟩
            · exact hm id c' hold
          · exact ih hm
        · exact ih hm

/-- The keys are those of the lists before and the valid ids, up to the limit. -/
theorem keys_normalizeLists {es : List (Text × Json)} {m : OrderedMap Text ListCfg}
    (hm : m.size ≤ maxLists) :
    (normalizeLists host es m).keys = (m.keys ++ validIds host es).eraseDups.take maxLists := by
  induction es generalizing m with
  | nil =>
      rw [normalizeLists, validIds, List.filter_nil, List.map_nil, List.append_nil,
        eraseDups_keys, List.take_of_length_le (m.length_keys ▸ hm)]
  | cons e es ih =>
      obtain ⟨id, l⟩ := e
      simp only [normalizeLists]
      split
      · -- as many lists as there may be
        rename_i hlimit
        have hlength : m.keys.length = maxLists := m.length_keys.trans (le_antisymm hm hlimit)
        rw [List.eraseDups_append, eraseDups_keys, ← hlength, List.take_left]
      · rename_i hlimit
        split
        · rename_i c hl
          split
          · rename_i hid
            have hvalid : validIds host ((id, l) :: es) = id :: validIds host es := by
              simp [validIds, hl, hid]
            have hset : (m.set id c).size ≤ maxLists := by
              have hle := m.size_set_le id c
              omega
            rw [ih hset, hvalid, OrderedMap.keys_set]
            split
            · rename_i hmem
              rw [eraseDups_append_cons hmem]
            · rw [List.append_assoc, List.singleton_append]
          · rename_i hid
            simpa [validIds, hid] using ih hm
        · rename_i hl
          simpa [validIds, hl] using ih hm

/-- The lists of a configuration are the accepted ones. -/
theorem mem_keys_lists {d : Json} {id : Text} :
    id ∈ (normalizeDns host d).lists.keys ↔ id ∈ acceptedIds host d := by
  have hkeys := @keys_normalizeLists host ((d.field "lists").fields.take (maxLists * 2)) .empty
    (Nat.zero_le _)
  rw [OrderedMap.keys_empty, List.nil_append] at hkeys
  rw [acceptedIds, ← hkeys]
  rfl

end Lists

/-! ## Profiles -/

section Profiles

variable {host : ConfigHost} {lists : OrderedMap Text ListCfg} {catKeys : List Text}

theorem normalizeSchedule_categories {host : UnicodeHost} {j : Json} {s : Schedule}
    (h : normalizeSchedule host catKeys j = some s) : ∀ c ∈ s.categories, c ∈ catKeys := by
  simp only [normalizeSchedule] at h
  split at h
  · split at h
    · cases h
    · cases h
      intro c hc
      simpa using (List.mem_filter.1 (List.mem_eraseDups.1 hc)).2
  · cases h

theorem length_distinctUpTo_le (f : Json → Option Text) (v : Json) (max : Nat) :
    (distinctUpTo f v max).length ≤ max :=
  List.length_take_le ..

theorem mem_lists_normalizeProfile {budget : Nat} {id : Text} {p : Json} {l : Text} :
    l ∈ (normalizeProfile host lists catKeys budget id p).lists ↔
      l ∈ namedLists p ∧ (l ∈ lists.keys ∨ l ∈ inheritedNames) := by
  rw [← OrderedMap.has_iff]
  simp [normalizeProfile, namedLists]

theorem length_normalizeProfiles_le {ps : List Json} {seen : List Text} {budget : Nat} :
    (normalizeProfiles host lists catKeys ps seen budget).length ≤ ps.length := by
  induction ps generalizing seen budget with
  | nil =>
      exact le_refl 0
  | cons p ps ih =>
      simp only [normalizeProfiles]
      split
      · exact ih.trans (Nat.le_succ _)
      · split
        · exact Nat.succ_le_succ ih
        · exact ih.trans (Nat.le_succ _)

/-- Every profile takes its devices out of what those before it have left. -/
theorem macCount_normalizeProfiles_le {ps : List Json} {seen : List Text} {budget : Nat} :
    ((normalizeProfiles host lists catKeys ps seen budget).map fun p => p.macs.length).sum ≤
      budget := by
  induction ps generalizing seen budget with
  | nil =>
      exact Nat.zero_le budget
  | cons p ps ih =>
      simp only [normalizeProfiles]
      split
      · exact ih
      · rename_i id _
        split
        · have hown : (normalizeProfile host lists catKeys budget id p).macs.length ≤ budget :=
            (length_distinctUpTo_le ..).trans (min_le_right macsPerProfile budget)
          have hrest := @ih (id :: seen)
            (budget - (normalizeProfile host lists catKeys budget id p).macs.length)
          rw [List.map_cons, List.sum_cons]
          omega
        · exact ih

theorem Taken.cons {p q : Json} {ps : List Json} {id : Text} (h : Taken host ps p id)
    (hq : profileId host (q.field "id") ≠ some id) : Taken host (q :: ps) p id := by
  rcases h.first with ⟨before, after, rfl, hbefore⟩
  exact ⟨h.hasId, h.idOk, q :: before, after, rfl, List.forall_mem_cons.2 ⟨hq, hbefore⟩⟩

/-- A profile comes from an item that is taken. -/
theorem taken_of_mem {ps : List Json} {seen : List Text} {budget : Nat} {prof : ProfileCfg}
    (h : prof ∈ normalizeProfiles host lists catKeys ps seen budget) :
    ∃ p id left, Taken host ps p id ∧ id ∉ seen ∧
      prof = normalizeProfile host lists catKeys left id p := by
  induction ps generalizing seen budget with
  | nil =>
      cases h
  | cons q ps ih =>
      simp only [normalizeProfiles] at h
      cases hq : profileId host (q.field "id") with
      | none =>
          rw [hq] at h
          rcases ih h with ⟨p, id, left, htaken, hseen, heq⟩
          exact ⟨p, id, left, htaken.cons (by simp [hq]), hseen, heq⟩
      | some id =>
          simp only [hq] at h
          split at h
          · rename_i hid
            rcases List.mem_cons.1 h with rfl | h
            · exact ⟨q, id, budget, ⟨hq, hid.1, [], ps, rfl, by simp⟩, hid.2, rfl⟩
            · rcases ih h with ⟨p, id', left, htaken, hseen, heq⟩
              rw [List.mem_cons, not_or] at hseen
              rcases hseen with ⟨hne, hseen⟩
              exact ⟨p, id', left, htaken.cons (by simpa [hq] using Ne.symm hne), hseen, heq⟩
          · rename_i hid
            rcases ih h with ⟨p, id', left, htaken, hseen, heq⟩
            have hne : id ≠ id' := fun heq => hid ⟨heq ▸ htaken.idOk, heq ▸ hseen⟩
            exact ⟨p, id', left, htaken.cons (by simpa [hq] using hne), hseen, heq⟩

/-- Every item that is taken becomes a profile. -/
theorem Taken.mem {p : Json} {id : Text} {ps : List Json} (h : Taken host ps p id)
    {seen : List Text} (hseen : id ∉ seen) (budget : Nat) :
    ∃ left, normalizeProfile host lists catKeys left id p ∈
      normalizeProfiles host lists catKeys ps seen budget := by
  rcases h.first with ⟨before, after, rfl, hbefore⟩
  have hid := h.hasId
  have hok := h.idOk
  clear h
  induction before generalizing seen budget with
  | nil =>
      refine ⟨budget, ?_⟩
      simp [normalizeProfiles, hid, hok, hseen]
  | cons q before ih =>
      rcases List.forall_mem_cons.1 hbefore with ⟨hq, hbefore⟩
      simp only [List.cons_append, normalizeProfiles]
      split
      · exact ih hseen budget hbefore
      · rename_i id' hq'
        have hne : id ≠ id' := fun heq => hq (heq ▸ hq')
        split
        · rcases ih (List.not_mem_cons_of_ne_of_not_mem hne hseen) _ hbefore with ⟨left, hmem⟩
          exact ⟨left, List.mem_cons_of_mem _ hmem⟩
        · exact ih hseen budget hbefore

end Profiles

/-! ## The whole configuration -/

section Configuration

variable {host : ConfigHost} {d : Json}

theorem lists_ok : ListOk host (normalizeDns host d).lists :=
  normalizeLists_ok fun id c h => by cases h

theorem profile_taken {prof : ProfileCfg} (h : prof ∈ (normalizeDns host d).profiles) :
    ∃ p id left, Taken host ((d.field "profiles").items.take maxProfiles) p id ∧
      prof = normalizeProfile host (normalizeDns host d).lists (normalizeDns host d).categories.keys
        left id p := by
  rcases taken_of_mem h with ⟨p, id, left, htaken, _, heq⟩
  exact ⟨p, id, left, htaken, heq⟩

/-- Every list that a profile names exists, unless it is a member of every object. -/
theorem namesNoMember_iff : NamesNoMember host d ↔
    ∀ prof ∈ (normalizeDns host d).profiles, ∀ l ∈ prof.lists, l ∈ (normalizeDns host d).lists.keys := by
  constructor
  · intro hnames prof hprof l hl
    rcases profile_taken hprof with ⟨p, id, left, htaken, rfl⟩
    rcases mem_lists_normalizeProfile.1 hl with ⟨hnamed, hkey | hmember⟩
    · exact hkey
    · exact mem_keys_lists.2 (hnames p id htaken l hnamed hmember)
  · intro hclosed p id htaken l hnamed hmember
    rcases htaken.mem (List.not_mem_nil (a := id)) macsTotal with ⟨left, hmem⟩
    exact mem_keys_lists.1
      (hclosed _ hmem l (mem_lists_normalizeProfile.2 ⟨hnamed, Or.inr hmember⟩))

theorem defaultProfile_exists (cfg : DnsConfig) (hcfg : cfg = normalizeDns host d) :
    (∃ p ∈ cfg.profiles, cfg.defaultProfile = some p.id) ∨
      (cfg.profiles = [] ∧ cfg.defaultProfile = none) := by
  have hdefault : cfg.defaultProfile =
      if cfg.profiles.any fun p => some p.id = defaultId host (d.field "defaultProfile") then
        defaultId host (d.field "defaultProfile")
      else cfg.profiles.head?.map ProfileCfg.id := by
    rw [hcfg]
    rfl
  rw [hdefault]
  split
  · rename_i hany
    rcases List.any_eq_true.1 hany with ⟨p, hp, heq⟩
    exact Or.inl ⟨p, hp, (of_decide_eq_true heq).symm⟩
  · cases hprofiles : cfg.profiles with
    | nil =>
        exact Or.inr ⟨rfl, rfl⟩
    | cons p ps =>
        exact Or.inl ⟨p, List.mem_cons_self, rfl⟩

/-- The configuration is closed under its references exactly when no profile names, as a list, what
every object has. -/
theorem normalizeDns_closed (host : ConfigHost) (d : Json) :
    Closed host (normalizeDns host d) ↔ NamesNoMember host d := by
  rw [namesNoMember_iff]
  constructor
  · intro hclosed prof hprof l hl
    rcases hclosed.lists prof hprof l hl with ⟨c, hc, _⟩
    exact (OrderedMap.mem_keys_iff _).2 ⟨c, hc⟩
  · intro hkeys
    have hentry : ∀ prof ∈ (normalizeDns host d).profiles, ∀ l ∈ prof.lists, listIdOk l ∧
        ∃ c, (normalizeDns host d).lists.get l = some c ∧ IsHttpsUrl host c.url := by
      intro prof hprof l hl
      rcases (OrderedMap.mem_keys_iff _).1 (hkeys prof hprof l hl) with ⟨c, hc⟩
      exact ⟨(lists_ok l c hc).1, c, hc, (lists_ok l c hc).2⟩
    constructor
    case lists =>
      exact fun prof hprof l hl => (hentry prof hprof l hl).2
    case categories =>
      intro prof hprof s hs
      rcases profile_taken hprof with ⟨p, id, left, _, rfl⟩
      rcases List.mem_filterMap.1 hs with ⟨j, _, hj⟩
      exact normalizeSchedule_categories hj
    case ids =>
      exact (normalizeDns_normal host d).ids
    case defaultProfile =>
      exact defaultProfile_exists _ rfl
    case listCount =>
      have hkeys := @keys_normalizeLists host ((d.field "lists").fields.take (maxLists * 2)) .empty
        (Nat.zero_le _)
      have hlength := congrArg List.length hkeys
      rw [OrderedMap.length_keys] at hlength
      exact hlength.le.trans (List.length_take_le ..)
    case profileCount =>
      exact length_normalizeProfiles_le.trans (List.length_take_le ..)
    case scheduleCount =>
      intro prof hprof
      rcases profile_taken hprof with ⟨p, id, left, _, rfl⟩
      exact (List.length_filterMap_le ..).trans (List.length_take_le ..)
    case macCount =>
      exact macCount_normalizeProfiles_le
    case workedOn =>
      intro id hid
      rcases List.mem_flatMap.1 (List.mem_eraseDups.1 (List.mem_filter.1 hid).1) with
        ⟨prof, hprof, hl⟩
      exact hentry prof hprof id hl

/-- A configuration with one profile, that names `constructor` as its list. -/
def constructorConfig : Json :=
  .obj [("profiles".toList, .arr [.obj [("id".toList, .str "kids".toList),
    ("lists".toList, .arr [.str "constructor".toList])]])]

/-- The name is kept, no list has it, and `setWanted` works on it. -/
theorem constructor_kept :
    ¬ Closed umlautHost (normalizeDns umlautHost constructorConfig) ∧
      (normalizeDns umlautHost constructorConfig).lists.keys = [] ∧
      workedOn (normalizeDns umlautHost constructorConfig) = ["constructor".toList] := by
  have hworked : workedOn (normalizeDns umlautHost constructorConfig) = ["constructor".toList] := by
    decide +kernel
  refine ⟨fun hclosed => ?_, by decide +kernel, hworked⟩
  rcases (hclosed.workedOn "constructor".toList (hworked ▸ List.mem_cons_self)).2 with ⟨c, hc, _⟩
  have hnone : (normalizeDns umlautHost constructorConfig).lists.get "constructor".toList = none := by
    decide +kernel
  rw [hnone] at hc
  cases hc

end Configuration

end Dns
end GateControl
