import GateControl.Library.Text
import Mathlib.Algebra.GroupWithZero.Nat
import Mathlib.Data.List.Basic
import Mathlib.Data.String.Basic
import Mathlib.Tactic.SplitIfs

/-!
# Topics — MQTT topic filters of edge plugins

The edge host confines a plugin to the topics that were approved for it.  Two functions decide
that, level by level: `matchesTopic` (does a topic match a filter?) and `covers` (can a filter
deliver only what another one delivers?).  This module embeds both together with the checks on
filters and topics, and relates them:

* `matchesTopic_of_covers`: what a covered filter delivers, the covering filter delivers;
* `separate_spec`: where `covers` says no, some level list tells the filters apart;
* `covers_iff_delivers`: on plugin filters `covers` decides inclusion of the delivered topics,
  with a single pair of filters as the exception if the empty topic does not count.
-/

namespace GateControl
namespace Edge
namespace Topics

/-- One level of a filter or topic, the text between two slashes. -/
abbrev Level := List Char

def maxLen : Nat := 256

/-- `f.split('/')`. -/
def levels (f : String) : List Level := f.toList.splitOn '/'

/-- The topic with the given levels. -/
def ofLevels (ls : List Level) : String := String.ofList (['/'].intercalate ls)

/-- Length in UTF-16 code units, as the source counts it. -/
def utf16Length (f : String) : Nat :=
  (f.toList.map fun c => if c.toNat < 0x10000 then 1 else 2).sum

def startsWith (f : String) (c : Char) : Bool := f.toList.head? == some c

/-- `/[\0\r\n]/`. -/
def isControl (c : Char) : Bool := c.toNat == 0 || c == '\r' || c == '\n'

/-- The loop of `validFilter` over the levels. -/
def levelsValid : List Level → Bool
  | [] => true
  | l :: ls =>
      -- `#` stands last, and `#` and `+` on their own
      if l = ['#'] then ls.isEmpty
      else if l = ['+'] then levelsValid ls
      else if l.contains '#' || l.contains '+' then false
      else levelsValid ls

def validFilter (f : String) : Bool :=
  !f.toList.isEmpty && utf16Length f ≤ maxLen && !f.toList.any isControl &&
    levelsValid (levels f)

def validTopic (t : String) : Bool :=
  !t.toList.isEmpty && utf16Length t ≤ maxLen &&
    !t.toList.any fun c => isControl c || c == '#' || c == '+'

/-- Plugins may not start a filter with a wildcard or ask for `$` topics. -/
def validPluginFilter (f : String) : Bool :=
  validFilter f && !startsWith f '#' && !startsWith f '+' && !startsWith f '$'

/-- The loop of `matches` over the levels of filter and topic. -/
def matchLevels : List Level → List Level → Bool
  | [], t => t.isEmpty
  | f :: fs, t =>
      -- also when the topic has ended: `a/#` matches `a`
      if f = ['#'] then true
      else
        match t with
        | [] => false
        | x :: ts => if f ≠ ['+'] ∧ f ≠ x then false else matchLevels fs ts

/-- Does `topic` match `filter`?  Filters that start with a wildcard never match `$` topics. -/
def matchesTopic (filter topic : String) : Bool :=
  if startsWith topic '$' ∧
      ((levels filter).head? = some ['#'] ∨ (levels filter).head? = some ['+']) then false
  else matchLevels (levels filter) (levels topic)

/-- The loop of `covers` over the levels of both filters. -/
def coverLevels : List Level → List Level → Bool
  | [], n => n.isEmpty
  | o :: os, n =>
      if o = ['#'] then true
      else
        match n with
        | [] => false
        | x :: ns =>
            -- only `#` covers `#`
            if x = ['#'] then false
            else if o = ['+'] then coverLevels os ns
            else if x = ['+'] ∨ x ≠ o then false
            else coverLevels os ns

/-- Does `outer` cover everything that `inner` can deliver? -/
def covers (outer inner : String) : Bool := coverLevels (levels outer) (levels inner)

/-! ## Levels and texts -/

/-- A level a topic can have: no slash and no wildcard. -/
def Plain (l : Level) : Prop := '/' ∉ l ∧ '#' ∉ l ∧ '+' ∉ l

/-- A text without wildcards. -/
def IsTopic (t : String) : Prop := '#' ∉ t.toList ∧ '+' ∉ t.toList

theorem levels_ofLevels {ls : List Level} (hne : ls ≠ []) (hp : ∀ l ∈ ls, '/' ∉ l) :
    levels (ofLevels ls) = ls := by
  simpa [levels, ofLevels] using List.splitOn_intercalate '/' hp hne

theorem ofLevels_levels (f : String) : ofLevels (levels f) = f := by
  rw [ofLevels, levels, List.intercalate_splitOn, String.ofList_toList]

theorem mem_ofLevels {c : Char} (hc : c ≠ '/') :
    ∀ ls : List Level, c ∈ (ofLevels ls).toList → ∃ l ∈ ls, c ∈ l := by
  intro ls
  induction ls with
  | nil =>
      simp [ofLevels]
  | cons l ls ih =>
      intro h
      cases ls with
      | nil =>
          refine ⟨l, by simp, ?_⟩
          simpa [ofLevels] using h
      | cons l' ls' =>
          have h' : c ∈ l ∨ c ∈ (ofLevels (l' :: ls')).toList := by
            simpa [ofLevels, List.intercalate, hc] using h
          rcases h' with hl | hrest
          · exact ⟨l, by simp, hl⟩
          · rcases ih hrest with ⟨k, hk, hck⟩
            exact ⟨k, List.mem_cons_of_mem _ hk, hck⟩

theorem isTopic_ofLevels {ls : List Level} (hp : ∀ l ∈ ls, Plain l) : IsTopic (ofLevels ls) := by
  constructor
  · intro h
    rcases mem_ofLevels (by decide) ls h with ⟨l, hl, hc⟩
    exact (hp l hl).2.1 hc
  · intro h
    rcases mem_ofLevels (by decide) ls h with ⟨l, hl, hc⟩
    exact (hp l hl).2.2 hc

/-- A level of a valid filter that is not a wildcard is plain. -/
theorem plain_of_levelsValid {ls : List Level} (hv : levelsValid ls = true)
    (hs : ∀ l ∈ ls, '/' ∉ l) {l : Level} (hl : l ∈ ls) (hh : l ≠ ['#']) (hp : l ≠ ['+']) :
    Plain l := by
  induction ls with
  | nil =>
      cases hl
  | cons k ks ih =>
      by_cases hk : k = ['#']
      · -- `#` is the last level, so the level looked for is this one
        have hks : ks = [] := by simpa [levelsValid, hk] using hv
        subst hks
        exact absurd (List.mem_singleton.1 hl ▸ hk) hh
      · have hks : levelsValid ks = true ∧ (k ≠ ['+'] → '#' ∉ k ∧ '+' ∉ k) := by
          by_cases hkp : k = ['+']
          · exact ⟨by simpa [levelsValid, hkp] using hv, fun h => absurd hkp h⟩
          · simp only [levelsValid, hk, hkp, if_false, List.contains_eq_mem,
              Bool.or_eq_true, decide_eq_true_eq] at hv
            by_cases hw : '#' ∈ k ∨ '+' ∈ k
            · simp [hw] at hv
            · have hw' := not_or.1 hw
              exact ⟨by simpa [hw] using hv, fun _ => hw'⟩
        rcases List.mem_cons.1 hl with rfl | hmem
        · exact ⟨hs l (by simp), hks.2 hp⟩
        · exact ih hks.1 (fun l' hl' => hs l' (List.mem_cons_of_mem _ hl')) hmem

/-! ## Covering filters deliver what covered filters deliver -/

theorem matchLevels_of_coverLevels :
    ∀ {o n t : List Level}, coverLevels o n = true → matchLevels n t = true →
      matchLevels o t = true := by
  intro o
  induction o with
  | nil =>
      intro n t hc hm
      have hn : n = [] := by simpa [coverLevels] using hc
      simpa [hn, matchLevels] using hm
  | cons a os ih =>
      intro n t hc hm
      by_cases ha : a = ['#']
      · simp [matchLevels, ha]
      · cases n with
        | nil =>
            simp [coverLevels, ha] at hc
        | cons b ns =>
            by_cases hb : b = ['#']
            · simp [coverLevels, ha, hb] at hc
            · cases t with
              | nil =>
                  simp [matchLevels, hb] at hm
              | cons x ts =>
                  -- level by level; the inner filter accepts the level `x` of the topic
                  simp only [matchLevels, hb, if_false] at hm
                  split at hm
                  · cases hm
                  · rename_i hx
                    simp only [coverLevels, ha, hb, if_false] at hc
                    by_cases hap : a = ['+']
                    · have hrest : coverLevels os ns = true := by simpa [hap] using hc
                      simpa [matchLevels, ha, hap] using ih hrest hm
                    · simp only [hap, if_false] at hc
                      split at hc
                      · cases hc
                      · rename_i hba
                        -- neither filter has a wildcard here, so the topic's level is `a`
                        have hbp : b ≠ ['+'] := fun h => hba (Or.inl h)
                        have hab : b = a := by
                          by_contra h
                          exact hba (Or.inr h)
                        have hxa : a = x := by
                          by_contra h
                          exact hx ⟨hbp, hab ▸ h⟩
                        subst hxa
                        simpa [matchLevels, ha, hap] using ih hc hm

/-! ## A topic that tells two filters apart -/

/-- The level of a topic that a filter level accepts. -/
def fill (l : Level) : Level := if l = ['#'] ∨ l = ['+'] then ['x'] else l

/-- A topic, given by its levels, that matches a filter. -/
def sample (n : List Level) : List Level := n.map fill

/-- Levels that the second filter accepts and the first one, if it does not cover it, rejects. -/
def separate : List Level → List Level → List Level
  | [], n => sample n
  | _ :: _, [] => []
  | a :: os, b :: ns =>
      if b = ['#'] then []
      else if a = ['+'] then fill b :: separate os ns
      else if b = ['+'] then (a ++ ['x']) :: sample ns
      else if b ≠ a then b :: sample ns
      else b :: separate os ns

theorem matchLevels_sample (n : List Level) : matchLevels n (sample n) = true := by
  induction n with
  | nil =>
      rfl
  | cons b ns ih =>
      by_cases hb : b = ['#']
      · simp [matchLevels, hb]
      · by_cases hp : b = ['+']
        · simpa [matchLevels, sample, hp] using ih
        · simpa [matchLevels, sample, hb, hp, fill] using ih

theorem matchLevels_fill_cons {b : Level} {ns ts : List Level} (h : matchLevels ns ts = true) :
    matchLevels (b :: ns) (fill b :: ts) = true := by
  by_cases hb : b = ['#']
  · simp [matchLevels, hb]
  · by_cases hp : b = ['+']
    · simpa [matchLevels, hp] using h
    · simpa [matchLevels, hb, hp, fill] using h

theorem separate_spec :
    ∀ {o n : List Level}, coverLevels o n = false →
      matchLevels n (separate o n) = true ∧ matchLevels o (separate o n) = false := by
  intro o
  induction o with
  | nil =>
      intro n hc
      cases n with
      | nil =>
          simp [coverLevels] at hc
      | cons b ns =>
          exact ⟨matchLevels_sample (b :: ns), by simp [separate, sample, matchLevels]⟩
  | cons a os ih =>
      intro n hc
      have ha : a ≠ ['#'] := by
        intro ha
        simp [coverLevels, ha] at hc
      cases n with
      | nil =>
          exact ⟨rfl, by simp [separate, matchLevels, ha]⟩
      | cons b ns =>
          by_cases hb : b = ['#']
          · -- the parent level of `b` is delivered by the inner filter only
            exact ⟨by simp [matchLevels, hb], by simp [separate, matchLevels, hb, ha]⟩
          · by_cases hap : a = ['+']
            · have hrest : coverLevels os ns = false := by simpa [coverLevels, ha, hb, hap] using hc
              rcases ih hrest with ⟨hn, ho⟩
              refine ⟨?_, ?_⟩
              · simpa [separate, hb, hap] using matchLevels_fill_cons hn
              · simpa [separate, matchLevels, hb, ha, hap] using ho
            · by_cases hbp : b = ['+']
              · -- `+` against a text: any other text will do
                refine ⟨?_, ?_⟩
                · simpa [separate, matchLevels, hb, hap, hbp] using matchLevels_sample ns
                · simp [separate, matchLevels, ha, hap, hbp]
              · by_cases hba : b = a
                · subst hba
                  have hrest : coverLevels os ns = false := by
                    simpa [coverLevels, hb, hbp] using hc
                  rcases ih hrest with ⟨hn, ho⟩
                  refine ⟨?_, ?_⟩
                  · simpa [separate, matchLevels, hb, hbp] using hn
                  · simpa [separate, matchLevels, hb, hbp] using ho
                · have hab : a ≠ b := fun h => hba h.symm
                  refine ⟨?_, ?_⟩
                  · simpa [separate, matchLevels, hb, hap, hbp, hba] using matchLevels_sample ns
                  · simp [separate, matchLevels, hb, ha, hap, hbp, hba, hab]

theorem eq_hash_of_separate_eq_nil {a b : Level} {os ns : List Level}
    (h : separate (a :: os) (b :: ns) = []) : b = ['#'] := by
  by_contra hb
  simp only [separate, hb, if_false] at h
  split_ifs at h

theorem plain_x : Plain ['x'] := by
  refine ⟨?_, ?_, ?_⟩ <;> decide

theorem plain_append_x {l : Level} (hl : Plain l) : Plain (l ++ ['x']) := by
  rcases hl with ⟨h1, h2, h3⟩
  refine ⟨?_, ?_, ?_⟩
  · simpa using h1
  · simpa using h2
  · simpa using h3

/-- What the levels of a valid filter are: wildcards or plain text. -/
def LevelOk (l : Level) : Prop := l = ['#'] ∨ l = ['+'] ∨ Plain l

theorem LevelOk.plain {l : Level} (hl : LevelOk l) (hh : l ≠ ['#']) (hp : l ≠ ['+']) : Plain l := by
  rcases hl with h | h | h
  · exact absurd h hh
  · exact absurd h hp
  · exact h

theorem plain_fill {l : Level} (hl : LevelOk l) : Plain (fill l) := by
  rcases hl with rfl | rfl | hl
  · exact plain_x
  · exact plain_x
  · rw [fill]
    split
    · exact plain_x
    · exact hl

theorem plain_sample {n : List Level} (hn : ∀ l ∈ n, LevelOk l) : ∀ l ∈ sample n, Plain l := by
  intro l hl
  rcases List.mem_map.1 hl with ⟨k, hk, rfl⟩
  exact plain_fill (hn k hk)

theorem plain_separate :
    ∀ {o n : List Level}, (∀ l ∈ o, LevelOk l) → (∀ l ∈ n, LevelOk l) →
      coverLevels o n = false → ∀ l ∈ separate o n, Plain l := by
  intro o
  induction o with
  | nil =>
      intro n _ hn _
      exact plain_sample hn
  | cons a os ih =>
      intro n ho hn hc
      have ha : a ≠ ['#'] := by
        intro ha
        simp [coverLevels, ha] at hc
      cases n with
      | nil =>
          simp [separate]
      | cons b ns =>
          have hos : ∀ l ∈ os, LevelOk l := fun l hl => ho l (List.mem_cons_of_mem _ hl)
          have hns : ∀ l ∈ ns, LevelOk l := fun l hl => hn l (List.mem_cons_of_mem _ hl)
          have hbok : LevelOk b := hn b (by simp)
          by_cases hb : b = ['#']
          · simp [separate, hb]
          · by_cases hap : a = ['+']
            · have hrest : coverLevels os ns = false := by simpa [coverLevels, hb, hap] using hc
              simpa [separate, hb, hap] using And.intro (plain_fill hbok) (ih hos hns hrest)
            · by_cases hbp : b = ['+']
              · have haPlain : Plain a := (ho a (by simp)).plain ha hap
                simpa [separate, hap, hbp] using
                  And.intro (plain_append_x haPlain) (plain_sample hns)
              · have hbPlain : Plain b := hbok.plain hb hbp
                by_cases hba : b = a
                · subst hba
                  have hrest : coverLevels os ns = false := by
                    simpa [coverLevels, hb, hbp] using hc
                  simpa [separate, hb, hbp] using And.intro hbPlain (ih hos hns hrest)
                · simpa [separate, hb, hap, hbp, hba] using
                    And.intro hbPlain (plain_sample hns)

/-! ## Plugin filters -/

/-- The facts about a plugin filter that the two decisions rest on. -/
structure PluginLevels (f : String) where
  first : Level
  rest : List Level
  eq : levels f = first :: rest
  firstPlain : Plain first
  ok : ∀ l ∈ first :: rest, LevelOk l
  valid : levelsValid (first :: rest) = true
  nonempty : first :: rest ≠ [[]]

theorem head_of_splitOn {xs : List Char} {c : Char} {k : List Char} {ls : List Level}
    (h : xs.splitOn '/' = (c :: k) :: ls) : xs.head? = some c := by
  cases xs with
  | nil =>
      simp at h
  | cons d ds =>
      rw [List.splitOn_cons_eq_if_modifyHead] at h
      by_cases hd : d = '/'
      · simp [hd] at h
      · cases hds : ds.splitOn '/' with
        | nil =>
            exact absurd hds (List.splitOn_ne_nil '/' ds)
        | cons l ls' =>
            have hcons : d = c ∧ l = k ∧ ls' = ls := by
              simpa [hds, hd, and_assoc] using h
            simp [hcons.1]

theorem pluginLevels {f : String} (hf : validPluginFilter f = true) : Nonempty (PluginLevels f) := by
  simp only [validPluginFilter, validFilter, Bool.and_eq_true, Bool.not_eq_true'] at hf
  rcases hf with ⟨⟨⟨⟨⟨⟨hne, _⟩, _⟩, hv⟩, hh⟩, hp⟩, _⟩
  have hs : ∀ l ∈ levels f, '/' ∉ l := Library.not_mem_of_mem_splitOn '/' f.toList
  cases hl : levels f with
  | nil =>
      exact absurd hl (List.splitOn_ne_nil '/' f.toList)
  | cons a as =>
      rw [hl] at hv hs
      have hnh : ∀ l ∈ a :: as, LevelOk l := by
        intro l hmem
        by_cases h1 : l = ['#']
        · exact Or.inl h1
        · by_cases h2 : l = ['+']
          · exact Or.inr (Or.inl h2)
          · exact Or.inr (Or.inr (plain_of_levelsValid hv hs hmem h1 h2))
      have hnotHash : a ≠ ['#'] := by
        rintro rfl
        have := head_of_splitOn hl
        simp [startsWith, this] at hh
      have hnotPlus : a ≠ ['+'] := by
        rintro rfl
        have := head_of_splitOn hl
        simp [startsWith, this] at hp
      refine ⟨⟨a, as, hl, plain_of_levelsValid hv hs (by simp) hnotHash hnotPlus, hnh, hv, ?_⟩⟩
      intro hnil
      have hback := ofLevels_levels f
      rw [hl, hnil] at hback
      rw [← hback] at hne
      simp [ofLevels] at hne

theorem Plain.ne_hash {l : Level} (h : Plain l) : l ≠ ['#'] := by
  rintro rfl
  exact h.2.1 (by simp)

theorem Plain.ne_plus {l : Level} (h : Plain l) : l ≠ ['+'] := by
  rintro rfl
  exact h.2.2 (by simp)

/-- On a plugin filter the rule for `$` topics never applies. -/
theorem matchesTopic_plugin {f : String} (hf : validPluginFilter f = true) (t : String) :
    matchesTopic f t = matchLevels (levels f) (levels t) := by
  rcases pluginLevels hf with ⟨pl⟩
  simp [matchesTopic, pl.eq, pl.firstPlain.ne_hash, pl.firstPlain.ne_plus]

/-- What a covered plugin filter delivers, the covering one delivers too. -/
theorem matchesTopic_of_covers {outer inner : String} (ho : validPluginFilter outer = true)
    (hc : covers outer inner = true) {t : String} (hm : matchesTopic inner t = true) :
    matchesTopic outer t = true := by
  rw [matchesTopic_plugin ho]
  have hm' : matchLevels (levels inner) (levels t) = true := by
    rw [matchesTopic] at hm
    split at hm
    · cases hm
    · exact hm
  exact matchLevels_of_coverLevels hc hm'

/-! ## `covers` decides inclusion -/

/-- Every non-empty topic that `inner` delivers is delivered by `outer`. -/
def Delivers (outer inner : String) : Prop :=
  ∀ topic, topic ≠ "" → IsTopic topic →
    matchesTopic inner topic = true → matchesTopic outer topic = true

/-- A level list other than that of the empty text gives a topic that tells the filters apart. -/
theorem not_delivers_of_levels {outer inner : String} (ho : validPluginFilter outer = true)
    (hi : validPluginFilter inner = true) {t : List Level} (hne : t ≠ []) (hne' : t ≠ [[]])
    (hp : ∀ l ∈ t, Plain l) (hin : matchLevels (levels inner) t = true)
    (hout : matchLevels (levels outer) t = false) : ¬ Delivers outer inner := by
  intro h
  have hl : levels (ofLevels t) = t := levels_ofLevels hne fun l hl => (hp l hl).1
  have hempty : ofLevels t ≠ "" := by
    intro h0
    rw [h0] at hl
    exact hne' (by simpa [levels] using hl.symm)
  have hm := h (ofLevels t) hempty (isTopic_ofLevels hp)
    (by rw [matchesTopic_plugin hi, hl]; exact hin)
  rw [matchesTopic_plugin ho, hl, hout] at hm
  cases hm

/-- Below a first empty level, `#` delivers more than any other level list but `+/#` does. -/
theorem not_delivers_root {outer inner : String} (ho : validPluginFilter outer = true)
    (hi : validPluginFilter inner = true) {c : Level} {os : List Level}
    (hlo : levels outer = [] :: c :: os) (hli : levels inner = [[], ['#']])
    (hc : LevelOk c) (hch : c ≠ ['#']) (hexc : ¬ (c = ['+'] ∧ os.head? = some ['#'])) :
    ¬ Delivers outer inner := by
  have hnil : Plain [] := by simp [Plain]
  by_cases hcp : c = ['+']
  · cases os with
    | nil =>
        -- `/+` ends too early
        refine not_delivers_of_levels ho hi (t := [[], ['x'], ['x']]) (by simp) (by simp) ?_ ?_ ?_
        · simpa using And.intro hnil plain_x
        · simp [hli, matchLevels]
        · simp [hlo, hcp, matchLevels]
    | cons d ds =>
        have hd : d ≠ ['#'] := fun h => hexc ⟨hcp, by simp [h]⟩
        -- `/+/d` needs a third level
        refine not_delivers_of_levels ho hi (t := [[], ['x']]) (by simp) (by simp) ?_ ?_ ?_
        · simpa using And.intro hnil plain_x
        · simp [hli, matchLevels]
        · simp [hlo, hcp, matchLevels, hd]
  · have hcPlain : Plain c := hc.plain hch hcp
    refine not_delivers_of_levels ho hi (t := [[], c ++ ['x']]) (by simp) (by simp) ?_ ?_ ?_
    · simpa using And.intro hnil (plain_append_x hcPlain)
    · simp [hli, matchLevels]
    · simp [hlo, matchLevels, hch, hcp]

theorem levelsValid_of_cons {l : Level} {ls : List Level} (h : levelsValid (l :: ls) = true)
    (hne : l ≠ ['#']) : levelsValid ls = true := by
  by_cases hp : l = ['+']
  · simpa [levelsValid, hp] using h
  · simp only [levelsValid, hne, hp, if_false] at h
    split at h
    · cases h
    · exact h

theorem eq_of_levels {f : String} {ls : List Level} (h : levels f = ls) : f = ofLevels ls := by
  rw [← h, ofLevels_levels]

/-- Where the empty topic is the only one that is found, both filters start with an empty level:
the inner one is `/#`, and the outer one has a second level that is not `#`. -/
theorem levels_of_separate_empty {outer inner : String} (po : PluginLevels outer)
    (pi : PluginLevels inner) (hc : coverLevels (po.first :: po.rest) (pi.first :: pi.rest) = false)
    (hbad : separate (levels outer) (levels inner) = [[]]) :
    ∃ c os, levels outer = [] :: c :: os ∧ levels inner = [[], ['#']] ∧ LevelOk c ∧ c ≠ ['#'] ∧
      levelsValid (c :: os) = true := by
  have hb := pi.firstPlain
  rw [po.eq, pi.eq] at hbad
  -- with different first levels the inner filter would be the empty text
  have heq : pi.first = po.first := by
    by_contra hne
    have hns : pi.first = [] ∧ pi.rest = [] := by
      simpa [separate, sample, hb.ne_hash, hb.ne_plus, po.firstPlain.ne_plus, hne] using hbad
    exact pi.nonempty (by rw [hns.1, hns.2])
  have hsep : pi.first = [] ∧ separate po.rest pi.rest = [] := by
    simpa [separate, po.firstPlain.ne_hash, po.firstPlain.ne_plus, heq] using hbad
  have hcr : coverLevels po.rest pi.rest = false := by
    simpa [coverLevels, hb.ne_hash, hb.ne_plus, po.firstPlain.ne_plus, heq,
      po.firstPlain.ne_hash] using hc
  have hpiRest : pi.rest ≠ [] := fun h => pi.nonempty (by rw [hsep.1, h])
  cases hor : po.rest with
  | nil =>
      rw [hor] at hsep
      exact absurd (List.map_eq_nil_iff.1 hsep.2) hpiRest
  | cons c os =>
      cases hir : pi.rest with
      | nil =>
          exact absurd hir hpiRest
      | cons d ds =>
          rw [hor, hir] at hsep hcr
          -- only `#` accepts that nothing follows
          have hd : d = ['#'] := eq_hash_of_separate_eq_nil hsep.2
          have hds : ds = [] := by
            have hv := levelsValid_of_cons pi.valid hb.ne_hash
            rw [hir] at hv
            simpa [levelsValid, hd] using hv
          refine ⟨c, os, ?_, ?_, po.ok c (by simp [hor]), ?_, ?_⟩
          · rw [po.eq, ← heq, hsep.1, hor]
          · rw [pi.eq, hsep.1, hir, hd, hds]
          · rintro rfl
            simp [coverLevels] at hcr
          · have hv := levelsValid_of_cons po.valid po.firstPlain.ne_hash
            rwa [hor] at hv

/-- Where `covers` says no, a non-empty topic tells the filters apart, one pair excepted. -/
theorem not_delivers_of_not_covers {outer inner : String} (ho : validPluginFilter outer = true)
    (hi : validPluginFilter inner = true) (hc : covers outer inner = false)
    (hexc : ¬ (outer = "/+/#" ∧ inner = "/#")) : ¬ Delivers outer inner := by
  rcases pluginLevels ho with ⟨po⟩
  rcases pluginLevels hi with ⟨pi⟩
  have hc' : coverLevels (po.first :: po.rest) (pi.first :: pi.rest) = false := by
    simpa [covers, po.eq, pi.eq] using hc
  by_cases hbad : separate (levels outer) (levels inner) = [[]]
  · obtain ⟨c, os, hlo, hli, hok, hch, hv⟩ := levels_of_separate_empty po pi hc' hbad
    refine not_delivers_root ho hi hlo hli hok hch ?_
    rintro ⟨rfl, hos⟩
    cases os with
    | nil =>
        simp at hos
    | cons e es =>
        have he : e = ['#'] := by simpa using hos
        have hes : es = [] := by
          simpa [levelsValid, he] using hv
        refine hexc ⟨?_, ?_⟩
        · rw [eq_of_levels hlo, he, hes]
          decide
        · rw [eq_of_levels hli]
          decide
  · have hspec := separate_spec hc'
    have hplain := plain_separate po.ok pi.ok hc'
    rw [← po.eq, ← pi.eq] at hspec hplain
    refine not_delivers_of_levels ho hi ?_ hbad hplain hspec.1 hspec.2
    intro hnil
    have hmatch := hspec.1
    rw [hnil, pi.eq] at hmatch
    simp [matchLevels, pi.firstPlain.ne_hash] at hmatch

/-- The one pair of plugin filters on which `covers` is stricter than inclusion: `/#` delivers,
apart from the empty topic, nothing that `/+/#` does not deliver. -/
theorem delivers_root_pair : Delivers "/+/#" "/#" := by
  intro topic hne _ hm
  have hm' : matchLevels [[], ['#']] (levels topic) = true := by
    rw [matchesTopic_plugin (by decide)] at hm
    exact hm
  rw [matchesTopic_plugin (by decide)]
  cases hl : levels topic with
  | nil =>
      exact absurd hl (List.splitOn_ne_nil '/' topic.toList)
  | cons a as =>
      rw [hl] at hm'
      have ha : a = [] := by
        by_contra h
        have h' : ([] : Level) ≠ a := fun h0 => h h0.symm
        simp [matchLevels, h'] at hm'
      cases as with
      -- the level list of the empty topic
      | nil =>
          have hback := ofLevels_levels topic
          rw [hl, ha] at hback
          exact absurd hback.symm hne
      | cons b bs =>
          change matchLevels [[], ['+'], ['#']] (a :: b :: bs) = true
          simp [matchLevels, ha]

/-- On plugin filters `covers` decides inclusion of the delivered topics, one pair excepted. -/
theorem covers_iff_delivers {outer inner : String} (ho : validPluginFilter outer = true)
    (hi : validPluginFilter inner = true) :
    (covers outer inner = true ↔ Delivers outer inner) ↔ ¬ (outer = "/+/#" ∧ inner = "/#") := by
  constructor
  · rintro h ⟨rfl, rfl⟩
    have hcov := h.2 delivers_root_pair
    exact absurd hcov (by decide)
  · intro hexc
    constructor
    · intro hc topic _ _ hm
      exact matchesTopic_of_covers ho hc hm
    · intro hd
      by_contra hc
      exact not_delivers_of_not_covers ho hi (by simpa using hc) hexc hd

end Topics
end Edge
end GateControl
