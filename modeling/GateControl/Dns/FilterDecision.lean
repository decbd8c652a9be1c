import GateControl.Dns.Patterns

/-!
# FilterDecision — when a name is blocked

`Blocked` says which names a configuration blocks, in terms of the configuration itself: its
patterns, the first profile with the device, the pauses and extensions that are running, the time
rules in force and the loaded lists.  The compiled policy decides accordingly.  Two consequences are
about pairs of configurations: what is added to the exceptions never blocks a name, what is added to
the restrictions never frees one.
-/

namespace GateControl
namespace Dns

open Library

/-! ## What the configuration says -/

/-- One of the patterns matches; a domain of more than 253 characters does not count. -/
def Matched (patterns : List Text) (name : Text) : Prop :=
  ∃ p ∈ patterns, (patternDomain p).length ≤ 253 ∧ PatternMatches p name

/-- The normal form of one of the additional patterns matches. -/
def ExtraAllowed (host : UnicodeHost) (sur : Surroundings) (name : Text) : Prop :=
  ∃ p ∈ sur.extraAllow, ∃ q, cleanPatternText host p = some q ∧ PatternMatches q name

/-- The device has an entry that is not over; times up to 1970 do not count. -/
def Running (entries : List Pause) (mac : Option Text) (now : ℚ) : Prop :=
  ∃ m, mac = some m ∧ ∃ e ∈ entries, m ∈ e.macs ∧ now < e.untilMs ∧ 0 < e.untilMs

/-- The first profile that names the device, or the default profile. -/
def profileOf (cfg : DnsConfig) (mac : Option Text) : Option ProfileCfg :=
  match mac.bind fun m => cfg.profiles.find? fun p => m ∈ p.macs with
  | some p => some p
  | none => cfg.defaultProfile.bind fun id => cfg.profiles.find? fun p => p.id = id

/-- A time rule in force blocks the name. -/
def ScheduleBlocks (cfg : DnsConfig) (date : LocalTime) (p : ProfileCfg) (name : Text) : Prop :=
  ∃ s ∈ p.schedules, scheduleActive s.days s.fromMin s.toMin date = true ∧
    ¬ Matched s.allowAlways name ∧
    (s.block = .all ∨ ∃ c ∈ s.categories, ∃ ps, cfg.categories.get c = some ps ∧ Matched ps name)

/-- A loaded list of the profile blocks the name. -/
def ListBlocks (sur : Surroundings) (p : ProfileCfg) (name : Text) : Prop :=
  ∃ id ∈ p.lists, ∃ l, sur.lists.get id = some l ∧ l.matchesName name = true

section Spec

variable (host : UnicodeHost) (cfg : DnsConfig) (sur : Surroundings) (localTime : ℚ → LocalTime)
variable (name : Text) (mac : Option Text) (now : ℚ)

/-- No exception is made for the name. -/
structure NotExempt : Prop where
  notLocal : (Policy.new host cfg sur).isLocal name = false
  alwaysAllow : ¬ Matched cfg.alwaysAllow name
  extraAllow : ¬ ExtraAllowed host sur name
  allow : ∀ p, profileOf cfg mac = some p → ¬ Matched p.allow name

/-- Something stands against the name. -/
def Restricted : Prop :=
  Running cfg.pauses mac now ∨
    ∃ p, profileOf cfg mac = some p ∧
      (Matched p.deny name ∨
        (¬ Running cfg.extensions mac now ∧ ScheduleBlocks cfg (localTime now) p name) ∨
        ListBlocks sur p name)

def Blocked : Prop :=
  name = canary ∨
    (NotExempt host cfg sur name mac ∧ Restricted cfg sur localTime name mac now)

end Spec

/-! ## What the checked configuration guarantees -/

/-- Patterns are in normal form, and profiles have different ids. -/
structure Normal (host : UnicodeHost) (cfg : DnsConfig) : Prop where
  alwaysAllow : ∀ p ∈ cfg.alwaysAllow, NormalPattern host p
  allow : ∀ prof ∈ cfg.profiles, ∀ p ∈ prof.allow, NormalPattern host p
  deny : ∀ prof ∈ cfg.profiles, ∀ p ∈ prof.deny, NormalPattern host p
  allowAlways : ∀ prof ∈ cfg.profiles, ∀ s ∈ prof.schedules, ∀ p ∈ s.allowAlways,
    NormalPattern host p
  categories : ∀ c ps, cfg.categories.get c = some ps → ∀ p ∈ ps, NormalPattern host p
  ids : (cfg.profiles.map ProfileCfg.id).Nodup

theorem patterns_normal {host : UnicodeHost} {v : Json} {max : Nat} :
    ∀ p ∈ patterns host v max, NormalPattern host p := by
  intro p hp
  have hclean := List.mem_eraseDups.1 (List.mem_of_mem_take hp)
  rcases List.mem_filterMap.1 hclean with ⟨j, _, hj⟩
  rcases Option.bind_eq_some_iff.1 hj with ⟨raw, _, hraw⟩
  exact ⟨raw, hraw⟩

theorem normalizeSchedule_normal {host : UnicodeHost} {catKeys : List Text} {j : Json} {s : Schedule}
    (h : normalizeSchedule host catKeys j = some s) : ∀ p ∈ s.allowAlways, NormalPattern host p := by
  simp only [normalizeSchedule] at h
  split at h
  · split at h
    · cases h
    · cases h
      exact patterns_normal
  · cases h

theorem normalizeCategories_normal {host : UnicodeHost} {v : Json} {c : Text} {ps : List Text}
    (h : (normalizeCategories host v).get c = some ps) : ∀ p ∈ ps, NormalPattern host p := by
  unfold normalizeCategories at h
  have hfold : ∀ (es : List (Text × Json)) (m : OrderedMap Text (List Text)),
      (∀ c ps, m.get c = some ps → ∀ p ∈ ps, NormalPattern host p) →
      ∀ c ps, (es.foldl (fun m e => if keyOk e.1 then
        m.set e.1 (patterns host e.2 maxCategoryDomains) else m) m).get c = some ps →
        ∀ p ∈ ps, NormalPattern host p := by
    intro es
    induction es with
    | nil =>
        intro m hm
        exact hm
    | cons e es ih =>
        intro m hm
        rw [List.foldl_cons]
        apply ih
        intro c ps hc
        split at hc
        · rcases OrderedMap.get_set_cases hc with ⟨_, rfl⟩ | ⟨_, hold⟩
          · exact patterns_normal
          · exact hm c ps hold
        · exact hm c ps hc
  exact hfold _ _ (fun c ps hc => by cases hc) c ps h

/-- A profile that is kept has an id that was not seen before and comes out of
`normalizeProfile`. -/
theorem normalizeProfiles_cases {host : ConfigHost} {lists : OrderedMap Text ListCfg}
    {catKeys : List Text} {ps : List Json} {seen : List Text} {budget : Nat} :
    ((normalizeProfiles host lists catKeys ps seen budget).map ProfileCfg.id).Nodup ∧
      ∀ prof ∈ normalizeProfiles host lists catKeys ps seen budget, prof.id ∉ seen ∧
        ∃ budget id p, prof = normalizeProfile host lists catKeys budget id p := by
  induction ps generalizing seen budget with
  | nil =>
      simp [normalizeProfiles]
  | cons p ps ih =>
      simp only [normalizeProfiles]
      split
      · exact ih
      · rename_i id _
        split
        · rename_i hid
          have hrest := @ih (id :: seen)
            (budget - (normalizeProfile host lists catKeys budget id p).macs.length)
          constructor
          · refine List.nodup_cons.2 ⟨?_, hrest.1⟩
            intro hmem
            rcases List.mem_map.1 hmem with ⟨prof, hprof, heq⟩
            exact (hrest.2 prof hprof).1 (heq ▸ List.mem_cons_self)
          · intro prof hprof
            rcases List.mem_cons.1 hprof with rfl | hprof
            · exact ⟨hid.2, budget, id, p, rfl⟩
            · have hcase := hrest.2 prof hprof
              exact ⟨fun hmem => hcase.1 (List.mem_cons_of_mem id hmem), hcase.2⟩
        · exact ih

theorem normalizeDns_normal (host : ConfigHost) (d : Json) :
    Normal host.toUnicodeHost (normalizeDns host d) := by
  have hprofile : ∀ prof ∈ (normalizeDns host d).profiles,
      ∃ lists catKeys budget id p, prof = normalizeProfile host lists catKeys budget id p := by
    intro prof hprof
    rcases (normalizeProfiles_cases.2 prof hprof).2 with ⟨budget, id, p, heq⟩
    exact ⟨_, _, budget, id, p, heq⟩
  constructor
  case alwaysAllow =>
    exact patterns_normal
  case allow =>
    intro prof hprof
    rcases hprofile prof hprof with ⟨lists, catKeys, budget, id, p, rfl⟩
    exact patterns_normal
  case deny =>
    intro prof hprof
    rcases hprofile prof hprof with ⟨lists, catKeys, budget, id, p, rfl⟩
    exact patterns_normal
  case allowAlways =>
    intro prof hprof s hs
    rcases hprofile prof hprof with ⟨lists, catKeys, budget, id, p, rfl⟩
    rcases List.mem_filterMap.1 hs with ⟨j, _, hj⟩
    exact normalizeSchedule_normal hj
  case categories =>
    intro c ps h
    exact normalizeCategories_normal h
  case ids =>
    exact normalizeProfiles_cases.1

/-! ## Pauses -/

/-- No entry of the map is below 0. -/
def Nonneg (m : OrderedMap Text ℚ) : Prop := ∀ k u, m.get k = some u → 0 ≤ u

/-- The entry of a device in the map is running. -/
def RunningAt (m : OrderedMap Text ℚ) (mac : Text) (now : ℚ) : Prop :=
  ∃ u, m.get mac = some u ∧ u ≠ 0 ∧ now < u

/-- Keeping the latest of two times, and 0, keeps what is running. -/
theorem runningAt_set {m : OrderedMap Text ℚ} (hm : Nonneg m) (k mac : Text) (t now : ℚ) :
    Nonneg (m.set k (max ((m.get k).getD 0) t)) ∧
      (RunningAt (m.set k (max ((m.get k).getD 0) t)) mac now ↔
        RunningAt m mac now ∨ (mac = k ∧ now < t ∧ 0 < t)) := by
  have hold : 0 ≤ (m.get k).getD 0 := by
    cases h : m.get k with
    | none =>
        simp
    | some u =>
        simpa using hm k u h
  constructor
  · intro j u hu
    rcases OrderedMap.get_set_cases hu with ⟨_, rfl⟩ | ⟨_, hu⟩
    · exact le_max_of_le_left hold
    · exact hm j u hu
  · -- only the entry of `k` changes, to the later of the two times
    by_cases hk : mac = k
    · subst hk
      simp only [RunningAt, OrderedMap.get_set_self, Option.some.injEq, exists_eq_left', true_and]
      cases h : m.get mac with
      | none =>
          simp only [Option.getD_none, reduceCtorEq, false_and, exists_false, false_or]
          constructor
          · rintro ⟨hne, hlt⟩
            -- a time before 1970 leaves the entry 0, which counts as none
            rcases max_cases (0 : ℚ) t with ⟨hmax, _⟩ | ⟨hmax, hpos⟩
            · exact absurd hmax hne
            · exact ⟨hmax ▸ hlt, hpos⟩
          · rintro ⟨hlt, hpos⟩
            rw [max_eq_right hpos.le]
            exact ⟨hpos.ne', hlt⟩
      | some u =>
          have hu : 0 ≤ u := hm mac u h
          simp only [Option.getD_some, Option.some.injEq, exists_eq_left']
          constructor
          · rintro ⟨hne, hlt⟩
            rcases max_cases u t with ⟨hmax, _⟩ | ⟨hmax, hut⟩
            · exact Or.inl ⟨hmax ▸ hne, hmax ▸ hlt⟩
            · exact Or.inr ⟨hmax ▸ hlt, lt_of_le_of_lt hu hut⟩
          · rintro (⟨hne, hlt⟩ | ⟨hlt, hpos⟩)
            · have hmax : 0 < max u t :=
                calc 0 < u := lt_of_le_of_ne hu hne.symm
                  _ ≤ max u t := le_max_left u t
              exact ⟨hmax.ne', lt_of_lt_of_le hlt (le_max_left u t)⟩
            · have hmax : 0 < max u t :=
                calc 0 < t := hpos
                  _ ≤ max u t := le_max_right u t
              exact ⟨hmax.ne', lt_of_lt_of_le hlt (le_max_right u t)⟩
    · simp [RunningAt, OrderedMap.get_set_ne _ hk, hk]

theorem runningAt_macs (macs : List Text) (t now : ℚ) (mac : Text) (m : OrderedMap Text ℚ)
    (hm : Nonneg m) :
    Nonneg (macs.foldl (fun m mac => m.set mac (max ((m.get mac).getD 0) t)) m) ∧
      (RunningAt (macs.foldl (fun m mac => m.set mac (max ((m.get mac).getD 0) t)) m) mac now ↔
        RunningAt m mac now ∨ (mac ∈ macs ∧ now < t ∧ 0 < t)) := by
  induction macs generalizing m with
  | nil =>
      simpa using hm
  | cons k macs ih =>
      have hset := runningAt_set hm k mac t now
      have hrest := ih _ hset.1
      refine ⟨hrest.1, ?_⟩
      rw [List.foldl_cons, hrest.2, hset.2, List.mem_cons]
      grind

theorem runningAt_untilMap (entries : List Pause) (now : ℚ) (mac : Text) :
    RunningAt (untilMap entries) mac now ↔
      ∃ e ∈ entries, mac ∈ e.macs ∧ now < e.untilMs ∧ 0 < e.untilMs := by
  have hfold : ∀ (entries : List Pause) (m : OrderedMap Text ℚ), Nonneg m →
      (RunningAt (entries.foldl (fun m e => e.macs.foldl
        (fun m mac => m.set mac (max ((m.get mac).getD 0) e.untilMs)) m) m) mac now ↔
        RunningAt m mac now ∨ ∃ e ∈ entries, mac ∈ e.macs ∧ now < e.untilMs ∧ 0 < e.untilMs) := by
    intro entries
    induction entries with
    | nil =>
        simp
    | cons e entries ih =>
        intro m hm
        have hmacs := runningAt_macs e.macs e.untilMs now mac m hm
        rw [List.foldl_cons, ih _ hmacs.1, hmacs.2, or_assoc]
        simp
  have hempty : ¬ RunningAt .empty mac now := by
    rintro ⟨u, hu, _⟩
    cases hu
  rw [untilMap, hfold entries .empty (fun k u hu => by cases hu), or_iff_right hempty]

theorem running_untilMap (entries : List Pause) (mac : Option Text) (now : ℚ) :
    (Policy.running (untilMap entries) mac now).isSome = true ↔ Running entries mac now := by
  cases mac with
  | none =>
      simp [Policy.running, Running]
  | some m =>
      have hrun : (Policy.running (untilMap entries) (some m) now).isSome = true ↔
          RunningAt (untilMap entries) m now := by
        simp only [Policy.running, Option.bind_some, RunningAt]
        cases (untilMap entries).get m with
        | none =>
            simp
        | some u =>
            simp only [Option.bind_some, Option.some.injEq, exists_eq_left']
            split
            · rename_i hu
              simpa using hu
            · rename_i hu
              simpa using hu
      rw [hrun, runningAt_untilMap]
      simp [Running]

/-! ## Profiles -/

namespace Policy

theorem get_addMacs (m : OrderedMap Text CompiledProfile) (prof : CompiledProfile) (macs : List Text)
    (mac : Text) :
    (addMacs m prof macs).get mac = (m.get mac).or (if mac ∈ macs then some prof else none) := by
  unfold addMacs
  induction macs generalizing m with
  | nil =>
      simp
  | cons k macs ih =>
      -- an earlier profile has the device already, or this one takes it
      rw [List.foldl_cons, ih]
      by_cases hk : mac = k
      · subst hk
        cases h : m.get mac with
        | none =>
            simp [OrderedMap.has, h]
        | some q =>
            simp [OrderedMap.has, h]
      · split
        · simp [hk]
        · simp [OrderedMap.get_set_ne _ hk, hk]

/-- A device has the first profile that names it. -/
theorem get_byMac (host : UnicodeHost) (profiles : List ProfileCfg) (mac : Text) :
    (profiles.foldl (fun m p => addMacs m (compileProfile host p) p.macs) .empty).get mac =
      (profiles.find? fun p => mac ∈ p.macs).map (compileProfile host) := by
  have hfold : ∀ (profiles : List ProfileCfg) (m : OrderedMap Text CompiledProfile),
      (profiles.foldl (fun m p => addMacs m (compileProfile host p) p.macs) m).get mac =
        (m.get mac).or ((profiles.find? fun p => mac ∈ p.macs).map (compileProfile host)) := by
    intro profiles
    induction profiles with
    | nil =>
        simp
    | cons p profiles ih =>
        intro m
        rw [List.foldl_cons, ih, get_addMacs]
        by_cases hp : mac ∈ p.macs
        · simp [hp]
        · simp [hp]
  simpa using hfold profiles .empty

theorem get_profiles (host : UnicodeHost) {profiles : List ProfileCfg}
    (hids : (profiles.map ProfileCfg.id).Nodup) (id : Text) :
    (profiles.foldl (fun m p => m.set p.id (compileProfile host p)) OrderedMap.empty).get id =
      (profiles.find? fun p => p.id = id).map (compileProfile host) := by
  -- the ids are different, so setting them one after the other looks up as the list does
  have hmap : profiles.foldl (fun m p => m.set p.id (compileProfile host p)) OrderedMap.empty =
      (profiles.map fun p => (p.id, compileProfile host p)).foldl (fun m e => m.set e.1 e.2)
        OrderedMap.empty := by
    rw [List.foldl_map]
  have hfind : ∀ profiles : List ProfileCfg,
      OrderedMap.find id (profiles.map fun p => (p.id, compileProfile host p)) =
        (profiles.find? fun p => p.id = id).map (compileProfile host) := by
    intro profiles
    induction profiles with
    | nil =>
        rfl
    | cons p profiles ih =>
        by_cases hp : p.id = id
        · simp [OrderedMap.find, hp]
        · simp [OrderedMap.find, hp, ih]
  have hn : ((profiles.map fun p => (p.id, compileProfile host p)).map Prod.fst).Nodup := by
    rw [List.map_map]
    exact hids
  rw [hmap, OrderedMap.get_foldl_set hn, hfind, OrderedMap.get_empty, Option.or_none]

theorem profileFor_new {host : UnicodeHost} {cfg : DnsConfig} (hcfg : Normal host cfg)
    (sur : Surroundings) (mac : Option Text) :
    (new host cfg sur).profileFor mac = (profileOf cfg mac).map (compileProfile host) := by
  have hmac : mac.bind (new host cfg sur).byMac.get =
      (mac.bind fun m => cfg.profiles.find? fun p => m ∈ p.macs).map (compileProfile host) := by
    cases mac with
    | none =>
        rfl
    | some m =>
        exact get_byMac host cfg.profiles m
  have hdefault : (new host cfg sur).defaultProfile =
      (cfg.defaultProfile.bind fun id => cfg.profiles.find? fun p => p.id = id).map
        (compileProfile host) := by
    cases hd : cfg.defaultProfile with
    | none =>
        simp [new, hd]
    | some id =>
        simp only [new, hd, Option.bind_some]
        exact get_profiles host hcfg.ids id
  unfold profileFor profileOf
  rw [hmac, hdefault]
  cases mac.bind fun m => cfg.profiles.find? fun p => m ∈ p.macs with
  | none =>
      rfl
  | some p =>
      rfl

/-! ## The rules of the compiled policy -/

section Rules

variable (policy : Policy) (localTime : ℚ → LocalTime) (name : Text) (mac : Option Text) (now : ℚ)

/-- A compiled time rule blocks the name. -/
def ruleBlocks (date : LocalTime) (s : CompiledSchedule) : Prop :=
  scheduleActive s.schedule.days s.schedule.fromMin s.schedule.toMin date = true ∧
    s.allowSet.matchesName name = false ∧
    (s.schedule.block = .all ∨ (policy.blockedCategory s name).isSome = true)

theorem scheduleBlock_isSome (date : LocalTime) (schedules : List CompiledSchedule) :
    (policy.scheduleBlock date name schedules).isSome = true ↔
      ∃ s ∈ schedules, policy.ruleBlocks name date s := by
  induction schedules with
  | nil =>
      simp [scheduleBlock]
  | cons s rest ih =>
      simp only [scheduleBlock, List.mem_cons, exists_eq_or_imp, ← ih]
      split
      · rename_i hskip
        -- the rule is not in force, or makes an exception
        have hno : ¬ policy.ruleBlocks name date s := by
          rintro ⟨hactive, hallow, _⟩
          simp [hactive, hallow] at hskip
        simp [hno]
      · rename_i hskip
        simp only [Bool.or_eq_true, Bool.not_eq_true', not_or, Bool.not_eq_false,
          Bool.not_eq_true] at hskip
        split
        · rename_i hall
          simp [ruleBlocks, hskip, hall]
        · rename_i hall
          split
          · rename_i c hc
            simp [ruleBlocks, hskip, hc]
          · rename_i hc
            simp [ruleBlocks, hall, hc]

theorem decideProfile_block (p : CompiledProfile) (safe : Option Text) :
    (policy.decideProfile localTime p name mac now safe).action = .block ↔
      p.denySet.matchesName name = true ∨
        (¬ (policy.extendedUntil mac now).isSome = true ∧
          ∃ s ∈ p.schedules, policy.ruleBlocks name (localTime now) s) ∨
        (policy.blockingList p.lists name).isSome = true := by
  have hschedule : (if p.schedules ≠ [] ∧ policy.extendedUntil mac now = none then
      policy.scheduleBlock (localTime now) name p.schedules else none).isSome = true ↔
      ¬ (policy.extendedUntil mac now).isSome = true ∧
        ∃ s ∈ p.schedules, policy.ruleBlocks name (localTime now) s := by
    rw [← scheduleBlock_isSome]
    cases hs : p.schedules with
    | nil =>
        simp [scheduleBlock]
    | cons s rest =>
        cases he : policy.extendedUntil mac now with
        | none =>
            simp
        | some u =>
            simp
  rw [← hschedule]
  unfold decideProfile
  split
  · rename_i hdeny
    simp [hdeny]
  · rename_i hdeny
    simp only
    -- the time rules come before the lists; which of them blocks does not matter here
    generalize (if p.schedules ≠ [] ∧ policy.extendedUntil mac now = none then
      policy.scheduleBlock (localTime now) name p.schedules else none) = schedule
    cases schedule with
    | some c =>
        cases c with
        | none =>
            simp
        | some c =>
            simp
    | none =>
        cases hlist : policy.blockingList p.lists name with
        | none =>
            simp [hdeny]
        | some id =>
            simp

theorem decide_block : (policy.decide localTime name mac now).action = .block ↔
    name = canary ∨
      ((policy.isLocal name = false ∧ policy.alwaysAllow.matchesName name = false ∧
        ∀ p, policy.profileFor mac = some p → p.allowSet.matchesName name = false) ∧
      ((policy.pausedUntil mac now).isSome = true ∨
        ∃ p, policy.profileFor mac = some p ∧
          (p.denySet.matchesName name = true ∨
            (¬ (policy.extendedUntil mac now).isSome = true ∧
              ∃ s ∈ p.schedules, policy.ruleBlocks name (localTime now) s) ∨
            (policy.blockingList p.lists name).isSome = true))) := by
  -- in the order of the source: canary, local names, exceptions, pause, profile
  unfold decide
  simp only
  split
  · rename_i hcanary
    simp [hcanary]
  · rename_i hcanary
    split
    · rename_i hlocal
      simp [hcanary, hlocal]
    · rename_i hlocal
      split
      · rename_i halways
        simp [hcanary, halways]
      · rename_i halways
        cases hp : policy.profileFor mac with
        | none =>
            simp only [Option.any_none, Bool.false_eq_true, if_false]
            split
            · rename_i hpaused
              simp [hlocal, halways, hpaused]
            · rename_i hpaused
              simp [hcanary, hpaused]
        | some p =>
            simp only [Option.any_some, Option.some.injEq, forall_eq', exists_eq_left']
            split
            · rename_i hallow
              simp [hcanary, hallow]
            · rename_i hallow
              split
              · rename_i hpaused
                simp [hlocal, halways, hallow, hpaused]
              · rename_i hpaused
                rw [decideProfile_block]
                simp [hcanary, hlocal, halways, hallow, hpaused]

end Rules

/-! ## The compiled policy and the configuration -/

theorem matchesName_eq_false {host : UnicodeHost} {patterns : List Text} {name : Text}
    (hnormal : ∀ p ∈ patterns, NormalPattern host p) :
    (PatternSet.new host patterns).matchesName name = false ↔ ¬ Matched patterns name := by
  rw [← Bool.not_eq_true, PatternSet.matchesName_new_normal hnormal, Matched]

theorem alwaysAllow_new {host : UnicodeHost} {cfg : DnsConfig} (hcfg : Normal host cfg)
    (sur : Surroundings) (name : Text) :
    (new host cfg sur).alwaysAllow.matchesName name = false ↔
      ¬ Matched cfg.alwaysAllow name ∧ ¬ ExtraAllowed host sur name := by
  -- the server's host has not been through `cleanPattern`, so its part stays in raw form
  have hconf := PatternSet.matchesName_new_normal hcfg.alwaysAllow name
  rw [PatternSet.matchesName_new] at hconf
  rw [← Bool.not_eq_true, new, PatternSet.matchesName_new, ← not_or, Matched, ExtraAllowed, ← hconf]
  simp only [List.mem_append, or_and_right, exists_or]

theorem category_new {host : UnicodeHost} {cfg : DnsConfig} (hcfg : Normal host cfg)
    (sur : Surroundings) (s : CompiledSchedule) (name : Text) :
    ((new host cfg sur).blockedCategory s name).isSome = true ↔
      ∃ c ∈ s.schedule.categories, ∃ ps, cfg.categories.get c = some ps ∧ Matched ps name := by
  simp only [blockedCategory, List.find?_isSome, Option.any_eq_true, new,
    OrderedMap.get_ofList_map, Option.map_eq_some_iff]
  constructor
  · rintro ⟨c, hc, set, ⟨ps, hps, rfl⟩, hmatch⟩
    exact ⟨c, hc, ps, hps,
      (PatternSet.matchesName_new_normal (hcfg.categories c ps hps) name).1 hmatch⟩
  · rintro ⟨c, hc, ps, hps, hmatch⟩
    exact ⟨c, hc, _, ⟨ps, hps, rfl⟩,
      (PatternSet.matchesName_new_normal (hcfg.categories c ps hps) name).2 hmatch⟩

theorem schedules_new {host : UnicodeHost} {cfg : DnsConfig} (hcfg : Normal host cfg)
    (sur : Surroundings) (date : LocalTime) {p : ProfileCfg} (hp : p ∈ cfg.profiles) (name : Text) :
    (∃ s ∈ (compileProfile host p).schedules, (new host cfg sur).ruleBlocks name date s) ↔
      ScheduleBlocks cfg date p name := by
  have hrule : ∀ s ∈ p.schedules,
      ((new host cfg sur).ruleBlocks name date (compileSchedule host s) ↔
        scheduleActive s.days s.fromMin s.toMin date = true ∧ ¬ Matched s.allowAlways name ∧
          (s.block = .all ∨
            ∃ c ∈ s.categories, ∃ ps, cfg.categories.get c = some ps ∧ Matched ps name)) := by
    intro s hs
    rw [ruleBlocks, category_new hcfg]
    simp only [compileSchedule, matchesName_eq_false (hcfg.allowAlways p hp s hs)]
  simp only [compileProfile, List.mem_map, exists_exists_and_eq_and, ScheduleBlocks]
  constructor
  · rintro ⟨s, hs, hblocks⟩
    exact ⟨s, hs, (hrule s hs).1 hblocks⟩
  · rintro ⟨s, hs, hblocks⟩
    exact ⟨s, hs, (hrule s hs).2 hblocks⟩

theorem lists_new (host : UnicodeHost) (cfg : DnsConfig) (sur : Surroundings) (p : ProfileCfg)
    (name : Text) :
    ((new host cfg sur).blockingList p.lists name).isSome = true ↔ ListBlocks sur p name := by
  simp only [blockingList, List.find?_isSome, Option.any_eq_true, ListBlocks]
  exact Iff.rfl

end Policy

theorem profileOf_mem {cfg : DnsConfig} {mac : Option Text} {p : ProfileCfg}
    (h : profileOf cfg mac = some p) : p ∈ cfg.profiles := by
  unfold profileOf at h
  split at h
  · rename_i q hq
    cases h
    rcases Option.bind_eq_some_iff.1 hq with ⟨m, _, hm⟩
    exact List.mem_of_find?_eq_some hm
  · rcases Option.bind_eq_some_iff.1 h with ⟨id, _, hid⟩
    exact List.mem_of_find?_eq_some hid

/-- The compiled policy blocks what the configuration blocks. -/
theorem decide_new {host : UnicodeHost} {cfg : DnsConfig} (hcfg : Normal host cfg)
    (sur : Surroundings) (localTime : ℚ → LocalTime) (name : Text) (mac : Option Text) (now : ℚ) :
    ((Policy.new host cfg sur).decide localTime name mac now).action = .block ↔
      Blocked host cfg sur localTime name mac now := by
  rw [Policy.decide_block, Policy.profileFor_new hcfg, Policy.alwaysAllow_new hcfg]
  have hpaused : ((Policy.new host cfg sur).pausedUntil mac now).isSome = true ↔
      Running cfg.pauses mac now := running_untilMap cfg.pauses mac now
  have hextended : ((Policy.new host cfg sur).extendedUntil mac now).isSome = true ↔
      Running cfg.extensions mac now := running_untilMap cfg.extensions mac now
  rw [hpaused, hextended, Blocked]
  -- what is left are the exceptions and the rules of the profile
  refine or_congr Iff.rfl (and_congr ?_ (or_congr Iff.rfl ?_))
  · constructor
    · rintro ⟨hlocal, ⟨halways, hextra⟩, hallow⟩
      refine ⟨hlocal, halways, hextra, ?_⟩
      intro p hp
      have hset := hallow (Policy.compileProfile host p) (by rw [hp]; rfl)
      exact (Policy.matchesName_eq_false (hcfg.allow p (profileOf_mem hp))).1 hset
    · rintro ⟨hlocal, halways, hextra, hallow⟩
      refine ⟨hlocal, ⟨halways, hextra⟩, ?_⟩
      intro q hq
      rcases Option.map_eq_some_iff.1 hq with ⟨p, hp, rfl⟩
      exact (Policy.matchesName_eq_false (hcfg.allow p (profileOf_mem hp))).2 (hallow p hp)
  · simp only [Option.map_eq_some_iff, exists_exists_and_eq_and]
    refine exists_congr fun p => and_congr_right fun hp => ?_
    have hmem := profileOf_mem hp
    rw [Policy.schedules_new hcfg sur (localTime now) hmem, Policy.compileProfile,
      PatternSet.matchesName_new_normal (hcfg.deny p hmem), Policy.lists_new, Matched]

/-! ## Two configurations -/

/-- The second profile makes more exceptions. -/
def MoreAllowed (p p' : ProfileCfg) : Prop := p' = { p with allow := p'.allow } ∧ p.allow ⊆ p'.allow

/-- The second configuration differs by added exceptions only. -/
structure Relaxed (cfg cfg' : DnsConfig) : Prop where
  rest : cfg' = { cfg with
    alwaysAllow := cfg'.alwaysAllow, profiles := cfg'.profiles, extensions := cfg'.extensions }
  alwaysAllow : cfg.alwaysAllow ⊆ cfg'.alwaysAllow
  profiles : List.Forall₂ MoreAllowed cfg.profiles cfg'.profiles
  extensions : cfg.extensions ⊆ cfg'.extensions

/-- The second profile has more restrictions. -/
def MoreDenied (p p' : ProfileCfg) : Prop :=
  p' = { p with deny := p'.deny, schedules := p'.schedules, lists := p'.lists } ∧
    p.deny ⊆ p'.deny ∧ p.schedules ⊆ p'.schedules ∧ p.lists ⊆ p'.lists

/-- The second configuration differs by added restrictions only. -/
structure Tightened (cfg cfg' : DnsConfig) : Prop where
  rest : cfg' = { cfg with profiles := cfg'.profiles, pauses := cfg'.pauses }
  profiles : List.Forall₂ MoreDenied cfg.profiles cfg'.profiles
  pauses : cfg.pauses ⊆ cfg'.pauses

theorem find?_forall₂ {α : Type*} {R : α → α → Prop} {f : α → Bool} (hf : ∀ a b, R a b → f a = f b)
    {l l' : List α} (h : List.Forall₂ R l l') : Option.Rel R (l.find? f) (l'.find? f) := by
  induction h with
  | nil =>
      exact .none
  | cons hab _ ih =>
      simp only [List.find?_cons, hf _ _ hab]
      split
      · exact .some hab
      · exact ih

theorem exists_of_rel_some {α : Type*} {R : α → α → Prop} {a : α} {o : Option α}
    (h : Option.Rel R (some a) o) : ∃ b, o = some b ∧ R a b := by
  cases h with
  | some hab =>
      exact ⟨_, rfl, hab⟩

theorem exists_of_some_rel {α : Type*} {R : α → α → Prop} {o : Option α} {b : α}
    (h : Option.Rel R o (some b)) : ∃ a, o = some a ∧ R a b := by
  cases h with
  | some hab =>
      exact ⟨_, rfl, hab⟩

/-- A device has the corresponding profile, as long as ids and devices stay the same. -/
theorem profileOf_forall₂ {R : ProfileCfg → ProfileCfg → Prop}
    (hR : ∀ p p', R p p' → p'.id = p.id ∧ p'.macs = p.macs) {cfg cfg' : DnsConfig}
    (hdefault : cfg'.defaultProfile = cfg.defaultProfile)
    (hprofiles : List.Forall₂ R cfg.profiles cfg'.profiles) (mac : Option Text) :
    Option.Rel R (profileOf cfg mac) (profileOf cfg' mac) := by
  have hmac : Option.Rel R (mac.bind fun m => cfg.profiles.find? fun p => m ∈ p.macs)
      (mac.bind fun m => cfg'.profiles.find? fun p => m ∈ p.macs) := by
    cases mac with
    | none =>
        exact .none
    | some m =>
        refine find?_forall₂ ?_ hprofiles
        intro p p' hpp
        rw [(hR p p' hpp).2]
  have hid : Option.Rel R
      (cfg.defaultProfile.bind fun id => cfg.profiles.find? fun p => p.id = id)
      (cfg.defaultProfile.bind fun id => cfg'.profiles.find? fun p => p.id = id) := by
    cases cfg.defaultProfile with
    | none =>
        exact .none
    | some id =>
        refine find?_forall₂ ?_ hprofiles
        intro p p' hpp
        rw [(hR p p' hpp).1]
  unfold profileOf
  rw [hdefault]
  revert hmac
  generalize (mac.bind fun m => cfg.profiles.find? fun p => m ∈ p.macs) = found
  generalize (mac.bind fun m => cfg'.profiles.find? fun p => m ∈ p.macs) = found'
  intro hmac
  cases hmac with
  | some h =>
      exact .some h
  | none =>
      exact hid

theorem Matched.mono {ps ps' : List Text} (h : ps ⊆ ps') {name : Text} (hm : Matched ps name) :
    Matched ps' name := by
  rcases hm with ⟨p, hp, hrest⟩
  exact ⟨p, h hp, hrest⟩

theorem Running.mono {es es' : List Pause} (h : es ⊆ es') {mac : Option Text} {now : ℚ}
    (hr : Running es mac now) : Running es' mac now := by
  rcases hr with ⟨m, hm, e, he, hrest⟩
  exact ⟨m, hm, e, h he, hrest⟩

section Pairs

variable {host : UnicodeHost} {cfg cfg' : DnsConfig} {sur : Surroundings} {localTime : ℚ → LocalTime}
variable {name : Text} {mac : Option Text} {now : ℚ}

/-- What is still blocked with more exceptions was blocked without them. -/
theorem Relaxed.blocked (h : Relaxed cfg cfg') (hb : Blocked host cfg' sur localTime name mac now) :
    Blocked host cfg sur localTime name mac now := by
  have hdefault : cfg'.defaultProfile = cfg.defaultProfile := by rw [h.rest]
  have hpauses : cfg'.pauses = cfg.pauses := by rw [h.rest]
  have hcategories : cfg'.categories = cfg.categories := by rw [h.rest]
  have hprofile := profileOf_forall₂ (R := MoreAllowed)
    (fun p p' hpp => by rw [hpp.1]; exact ⟨rfl, rfl⟩) hdefault h.profiles mac
  refine hb.imp (fun hcanary => hcanary) ?_
  rintro ⟨hexempt, hrestricted⟩
  refine ⟨⟨hexempt.notLocal, fun hm => hexempt.alwaysAllow (hm.mono h.alwaysAllow),
    hexempt.extraAllow, ?_⟩, ?_⟩
  · intro p hp hm
    rw [hp] at hprofile
    rcases exists_of_rel_some hprofile with ⟨p', hp', hpp⟩
    -- an exception of the first profile is one of the second
    exact hexempt.allow p' hp' (hm.mono hpp.2)
  · rcases hrestricted with hpaused | ⟨p', hp', hrules⟩
    · exact Or.inl (hpauses ▸ hpaused)
    · rw [hp'] at hprofile
      rcases exists_of_some_rel hprofile with ⟨p, hp, hpp⟩
      -- apart from its exceptions, the profile is the same
      refine Or.inr ⟨p, hp, ?_⟩
      rw [hpp.1] at hrules
      rcases hrules with hdeny | ⟨hext, hschedule⟩ | hlist
      · exact Or.inl hdeny
      · refine Or.inr (Or.inl ⟨fun hr => hext (hr.mono h.extensions), ?_⟩)
        simpa only [ScheduleBlocks, hcategories] using hschedule
      · exact Or.inr (Or.inr hlist)

/-- What is blocked stays blocked with more restrictions. -/
theorem Tightened.blocked (h : Tightened cfg cfg') (hb : Blocked host cfg sur localTime name mac now) :
    Blocked host cfg' sur localTime name mac now := by
  have hdefault : cfg'.defaultProfile = cfg.defaultProfile := by rw [h.rest]
  have halways : cfg'.alwaysAllow = cfg.alwaysAllow := by rw [h.rest]
  have hextensions : cfg'.extensions = cfg.extensions := by rw [h.rest]
  have hcategories : cfg'.categories = cfg.categories := by rw [h.rest]
  have hprofile := profileOf_forall₂ (R := MoreDenied)
    (fun p p' hpp => by rw [hpp.1]; exact ⟨rfl, rfl⟩) hdefault h.profiles mac
  refine hb.imp (fun hcanary => hcanary) ?_
  rintro ⟨hexempt, hrestricted⟩
  refine ⟨⟨hexempt.notLocal, halways ▸ hexempt.alwaysAllow, hexempt.extraAllow, ?_⟩, ?_⟩
  · intro p' hp' hm
    rw [hp'] at hprofile
    rcases exists_of_some_rel hprofile with ⟨p, hp, hpp⟩
    rw [hpp.1] at hm
    exact hexempt.allow p hp hm
  · rcases hrestricted with hpaused | ⟨p, hp, hrules⟩
    · exact Or.inl (hpaused.mono h.pauses)
    · rw [hp] at hprofile
      rcases exists_of_rel_some hprofile with ⟨p', hp', hpp⟩
      refine Or.inr ⟨p', hp', ?_⟩
      rcases hrules with hdeny | ⟨hext, s, hs, hrule⟩ | ⟨id, hid, hlist⟩
      · exact Or.inl (hdeny.mono hpp.2.1)
      · refine Or.inr (Or.inl ⟨hextensions ▸ hext, s, hpp.2.2.1 hs, ?_⟩)
        simpa only [hcategories] using hrule
      · exact Or.inr (Or.inr ⟨id, hpp.2.2.2 hid, hlist⟩)

end Pairs

theorem Policy.Verdict.allow_iff {v : Policy.Verdict} : v = .allow ↔ ¬ v = .block := by
  cases v with
  | allow =>
      simp
  | block =>
      simp

/-- The decision of the filter on a name, for whatever configuration the server sent; more
exceptions never block a name, more restrictions never free one. -/
theorem filter_decision (host : ConfigHost) (d : Json) (sur : Surroundings)
    (localTime : ℚ → LocalTime) (name : Text) (mac : Option Text) (now : ℚ) :
    (((Policy.new host.toUnicodeHost (normalizeDns host d) sur).decide localTime name mac
        now).action = .block ↔
      Blocked host.toUnicodeHost (normalizeDns host d) sur localTime name mac now) ∧
    (∀ d', Relaxed (normalizeDns host d) (normalizeDns host d') →
      ((Policy.new host.toUnicodeHost (normalizeDns host d) sur).decide localTime name mac
        now).action = .allow →
      ((Policy.new host.toUnicodeHost (normalizeDns host d') sur).decide localTime name mac
        now).action = .allow) ∧
    ∀ d', Tightened (normalizeDns host d) (normalizeDns host d') →
      ((Policy.new host.toUnicodeHost (normalizeDns host d) sur).decide localTime name mac
        now).action = .block →
      ((Policy.new host.toUnicodeHost (normalizeDns host d') sur).decide localTime name mac
        now).action = .block := by
  have hdecide := fun j => decide_new (normalizeDns_normal host j) sur localTime name mac now
  refine ⟨hdecide d, ?_, ?_⟩
  · intro d' hrelaxed
    rw [Policy.Verdict.allow_iff, Policy.Verdict.allow_iff, hdecide, hdecide]
    exact fun hnot hb => hnot (hrelaxed.blocked hb)
  · intro d' htightened
    rw [hdecide, hdecide]
    exact htightened.blocked

/-- A host that knows the ASCII form of one letter beyond ASCII. -/
def umlautHost : ConfigHost where
  toLowerCase := fun s => s
  domainToASCII := fun s => s.flatMap fun c => if c = 'ü' then "xn--tda".toList else [c]
  numberText := fun q => decimal q.num.toNat
  toMs := fun q => q * 1000
  dateParse := fun _ => none
  parseUrl := fun _ => none

def nothingLoaded : Surroundings := ⟨.empty, [], []⟩

/-- A configuration with one profile that blocks `ads.example`, and these exceptions. -/
def adsConfig (alwaysAllow : List Json) : Json :=
  .obj [("alwaysAllow".toList, .arr alwaysAllow),
    ("profiles".toList, .arr [.obj [("id".toList, .num 1),
      ("deny".toList, .arr [.str "ads.example".toList])]])]

theorem filter_decision_more_exceptions :
    Relaxed (normalizeDns umlautHost (adsConfig []))
        (normalizeDns umlautHost (adsConfig [.str "*.ads.example".toList])) ∧
      ((Policy.new umlautHost.toUnicodeHost (normalizeDns umlautHost (adsConfig [])) nothingLoaded).decide
        (fun _ => ⟨1, 0⟩) "ads.example".toList none 0).action = .block ∧
      ((Policy.new umlautHost.toUnicodeHost
          (normalizeDns umlautHost (adsConfig [.str "*.ads.example".toList])) nothingLoaded).decide
        (fun _ => ⟨1, 0⟩) "b.example".toList none 0).action = .allow := by
  have hprofiles : (normalizeDns umlautHost (adsConfig [.str "*.ads.example".toList])).profiles =
      (normalizeDns umlautHost (adsConfig [])).profiles := by
    decide +kernel
  have hrelaxed : Relaxed (normalizeDns umlautHost (adsConfig []))
      (normalizeDns umlautHost (adsConfig [.str "*.ads.example".toList])) := by
    refine ⟨by decide +kernel, by decide +kernel, ?_, by decide +kernel⟩
    rw [hprofiles]
    exact List.forall₂_same.2 fun p _ => ⟨rfl, List.Subset.refl _⟩
  refine ⟨hrelaxed, by decide +kernel, ?_⟩
  exact (filter_decision umlautHost (adsConfig []) nothingLoaded (fun _ => ⟨1, 0⟩)
    "b.example".toList none 0).2.1 _ hrelaxed (by decide +kernel)

/-- The letter `ü` 32 times, as labels: 63 characters, and 255 in ASCII form. -/
def longName (label : String) : Text := ['.'].intercalate (List.replicate 32 label.toList)

/-- A name that is always allowed is blocked: in its ASCII form it is too long for a pattern. -/
theorem long_pattern_ignored :
    longName "xn--tda" ∈ (normalizeDns umlautHost
        (.obj [("alwaysAllow".toList, .arr [.str (longName "ü")]),
          ("pauses".toList, .arr [.obj [("macs".toList, .arr [.str "aabbccddeeff".toList]),
            ("until".toList, .num 2000000000)]])])).alwaysAllow ∧
      PatternMatches (longName "xn--tda") (longName "xn--tda") ∧ longName "xn--tda" ≠ canary ∧
      ((Policy.new umlautHost.toUnicodeHost (normalizeDns umlautHost
        (.obj [("alwaysAllow".toList, .arr [.str (longName "ü")]),
          ("pauses".toList, .arr [.obj [("macs".toList, .arr [.str "aabbccddeeff".toList]),
            ("until".toList, .num 2000000000)]])])) nothingLoaded).decide (fun _ => ⟨1, 0⟩)
        (longName "xn--tda") (some "aa:bb:cc:dd:ee:ff".toList) 1700000000000).action = .block := by
  refine ⟨by decide +kernel, Or.inl rfl, by decide +kernel, by decide +kernel⟩

end Dns
end GateControl
