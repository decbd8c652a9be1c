import GateControl.Cache.Downloads

/-!
# Resumes — what interrupted downloads have left is not lost

If the server sends what a blob is, every `.part` file is a beginning of it, however often its
download was broken off and continued, and no finished download fails the comparison of its hash.
A part that is deleted under a running download is the one exception: the answer that comes is then
appended to nothing.
-/

namespace GateControl
namespace Cache

open Library

namespace Downloads

def Stage.total : Stage → Option Nat
  | .streaming n => some n
  | _ => none

/-- The download will write into its file. -/
def Fetch.writes (f : Fetch) : Bool :=
  match f.stage with
  | .requested _ => !f.aborted
  | .streaming _ => true
  | _ => false

namespace System

variable (hash : Bytes → Sha) (content : Sha → Bytes) (s : System)

/-- The server has a blob that it announces, knows its size, and sends what is at the place that it
has got to; nobody deletes the file of a download that goes on. -/
def Honest : Action → Prop
  | .starts sha size _ => hash (content sha) = sha ∧ size = (content sha).length
  | .chunk bs => ∀ f ∈ s.fetch, ∀ n ∈ f.stage.total, bs <+: (content f.sha).drop n
  | .partGone dir sha => ∀ f ∈ s.fetch, (f.dir, f.sha) = (dir, sha) → f.writes = false
  | _ => True

instance (a : Action) : Decidable (s.Honest hash content a) :=
  match a with
  | .starts sha size _ =>
      inferInstanceAs (Decidable (hash (content sha) = sha ∧ size = (content sha).length))
  | .chunk bs =>
      inferInstanceAs (Decidable (∀ f ∈ s.fetch, ∀ n ∈ f.stage.total,
        bs <+: (content f.sha).drop n))
  | .partGone dir sha =>
      inferInstanceAs (Decidable (∀ f ∈ s.fetch, (f.dir, f.sha) = (dir, sha) → f.writes = false))
  | .opens .. | .looks | .hashes .. | .opened | .openFails | .shutdown | .restart | .responds .. |
    .ended | .broken | .abort | .hashed | .commits .. | .remove .. | .unlinked .. => isTrue trivial

/-- Parts are beginnings of their blobs, and no finished download is thrown away. -/
structure Lossless : Prop where
  parts : ∀ k p, s.parts.get k = some p → p <+: content k.2
  finished : ∀ f c, s.fetch = some f → f.stage = .hashing c → hash c = f.sha

/-- What the file of a download is at each of its stages. -/
def AtStage (f : Fetch) : Stage → Prop
  | .requested n => f.aborted = false → n = 0 ∨
      ∃ p, s.parts.get (f.dir, f.sha) = some p ∧ p.length = n
  | .streaming n => ∃ p, s.parts.get (f.dir, f.sha) = some p ∧ p.length = n
  | .hashing c => c = content f.sha
  | .checked => True

structure Whole : Prop where
  parts : ∀ k p, s.parts.get k = some p → p <+: content k.2
  fetch : ∀ f, s.fetch = some f → (hash (content f.sha) = f.sha ∧ f.size = (content f.sha).length) ∧
    s.AtStage content f f.stage

variable {hash content s} {t : System}

theorem new_whole : new.Whole hash content where
  parts := fun _ _ h => (nomatch h)
  fetch := fun _ h => (nomatch h)

theorem Whole.lossless (h : s.Whole hash content) : s.Lossless hash content where
  parts := h.parts
  finished f c hf hstage := by
    obtain ⟨⟨hhash, _⟩, hat⟩ := h.fetch f hf
    rw [hstage] at hat
    rw [show c = content f.sha from hat]
    exact hhash

/-- No download, and no other parts. -/
theorem Whole.idle (h : s.Whole hash content) (hparts : ∀ k p, t.parts.get k = some p →
    s.parts.get k = some p) (hfetch : t.fetch = none) : t.Whole hash content where
  parts k p hp := h.parts k p (hparts k p hp)
  fetch f hf := by
    rw [hfetch] at hf
    cases hf

/-- The parts stay, and so does the download but for being attached. -/
theorem Whole.frame (h : s.Whole hash content) (hparts : t.parts = s.parts)
    (hfetch : ∀ f, t.fetch = some f → ∃ f', s.fetch = some f' ∧ f'.dir = f.dir ∧ f'.sha = f.sha ∧
      f'.size = f.size ∧ f'.stage = f.stage ∧ (f.aborted = false → f'.aborted = false)) :
    t.Whole hash content where
  parts := hparts ▸ h.parts
  fetch f hf := by
    obtain ⟨⟨dir, sha, size, kind, attached, aborted, stage⟩, hf', rfl, rfl, rfl, rfl, hab⟩ :=
      hfetch f hf
    obtain ⟨hsize, hat⟩ := h.fetch _ hf'
    refine ⟨hsize, ?_⟩
    cases hst : f.stage with
    | requested n =>
        simp only [hst] at hat
        intro haborted
        rw [hparts]
        exact hat (hab haborted)
    | streaming n =>
        simp only [hst] at hat
        obtain ⟨p, hp, hlen⟩ := hat
        exact ⟨p, by rw [hparts]; exact hp, hlen⟩
    | hashing c =>
        simp only [hst] at hat
        exact hat
    | checked =>
        trivial

theorem Whole.abort (h : s.Whole hash content) : s.abort.Whole hash content := by
  unfold System.abort
  split
  · exact h
  · next f hf =>
      split
      · exact h.idle (fun _ _ hp => hp) rfl
      · refine h.frame rfl fun f' hf' => ?_
        cases hf'
        exact ⟨f, hf, rfl, rfl, rfl, rfl, fun hfalse => (nomatch hfalse)⟩

theorem Whole.detach (h : s.Whole hash content) : s.detach.Whole hash content := by
  refine h.frame rfl fun f' hf' => ?_
  obtain ⟨f, hf, rfl⟩ := Option.map_eq_some_iff.1 hf'
  exact ⟨f, hf, rfl, rfl, rfl, rfl, fun ha => ha⟩

theorem Whole.same (h : s.Whole hash content) (hparts : t.parts = s.parts) (hfetch : t.fetch = s.fetch) :
    t.Whole hash content :=
  h.frame hparts fun f hf => ⟨f, hfetch ▸ hf, rfl, rfl, rfl, rfl, fun ha => ha⟩

theorem Whole.starts (h : s.Whole hash content) (dir : Dir) {sha : Sha} {size : Nat}
    (hsize : hash (content sha) = sha ∧ size = (content sha).length) (kind : Option String) :
    (s.starts dir sha size kind).Whole hash content := by
  -- a part is never too long
  have htrim : s.trimPart (dir, sha) size = s.parts := by
    unfold trimPart
    split
    · next p hp =>
        have hlen := (h.parts _ p hp).length_le
        exact if_neg (by simpa [hsize.2] using hlen)
    · rfl
  unfold System.starts
  dsimp only
  rw [htrim]
  split
  · next p hp =>
      split
      · refine ⟨h.parts, fun f hf => ?_⟩
        cases hf
        exact ⟨hsize, fun _ => Or.inr ⟨p, hp, rfl⟩⟩
      · next hlen =>
          refine ⟨h.parts, fun f hf => ?_⟩
          cases hf
          have hpre : p <+: content sha := h.parts _ p hp
          exact ⟨hsize, hpre.eq_of_length_le (hsize.2 ▸ Nat.le_of_not_lt hlen)⟩
  · split
    · refine ⟨h.parts, fun f hf => ?_⟩
      cases hf
      exact ⟨hsize, fun _ => Or.inl rfl⟩
    · exact h.idle (fun _ _ hp => hp) rfl

/-- Opening the file leaves a beginning of the blob in it, of the length that the answer starts
at. -/
theorem Whole.openPart (h : s.Whole hash content) {k : Dir × Sha} {start : Nat} :
    ∀ j p, (s.openPart k start).parts.get j = some p → p <+: content j.2 := by
  intro j p hp
  rcases OrderedMap.get_set_cases hp with ⟨rfl, rfl⟩ | ⟨_, hold⟩
  · split
    · exact List.nil_prefix
    · cases hq : s.parts.get j with
      | none => exact List.nil_prefix
      | some q => exact h.parts j q hq
  · exact h.parts j p hold

theorem Whole.responds (h : s.Whole hash content) {f : Fetch} {n : Nat} (hf : s.fetch = some f)
    (hstage : f.stage = .requested n) (a : Answer) : (s.responds f n a).Whole hash content := by
  obtain ⟨hsize, hat⟩ := h.fetch f hf
  rw [hstage] at hat
  unfold System.responds
  split
  · next start hstart =>
      split
      · exact h.idle (fun _ _ hp => hp) rfl
      · split
        · refine ⟨h.openPart, ?_⟩
          intro f' hf'
          cases hf'
        · next haborted =>
            have hlen : start = 0 ∨ start = n := by
              unfold answerStart at hstart
              split at hstart
              · split at hstart
                · exact Or.inr (Option.some.inj hstart).symm
                · cases hstart
              · exact Or.inl (Option.some.inj (Option.ite_none_right_eq_some.1 hstart).2).symm
            refine ⟨h.openPart, fun f' hf' => ?_⟩
            cases hf'
            refine ⟨hsize, _, OrderedMap.get_set_self .., ?_⟩
            by_cases hzero : start = 0
            · rw [if_pos hzero, hzero]
              rfl
            · rcases hlen with hlen | rfl
              · exact absurd hlen hzero
              · rcases hat (Bool.eq_false_iff.2 haborted) with hn | ⟨p, hp, hlen⟩
                · exact absurd hn hzero
                · rw [if_neg hzero, hp]
                  exact hlen
  · split
    · exact h.idle (fun _ _ hp => get_of_delete hp) rfl
    · exact h.idle (fun _ _ hp => hp) rfl

theorem Whole.chunk (h : s.Whole hash content) {f : Fetch} {n : Nat} (hf : s.fetch = some f)
    (hstage : f.stage = .streaming n) {bs : Bytes} (hbs : bs <+: (content f.sha).drop n) :
    (s.chunk f n bs).Whole hash content := by
  obtain ⟨hsize, hat⟩ := h.fetch f hf
  rw [hstage] at hat
  obtain ⟨p, hp, hlen⟩ := hat
  unfold System.chunk
  split
  · exact h.idle (fun _ _ hq => hq) rfl
  · simp only [System.append, hp]
    refine ⟨?_, fun f' hf' => ?_⟩
    · intro k q hq
      rcases OrderedMap.get_set_cases hq with ⟨rfl, rfl⟩ | ⟨_, hold⟩
      · -- the part is as long as what has come, so the bytes go on where it ends
        have hpre := h.parts _ p hp
        obtain ⟨rest, hrest⟩ := hpre
        have hdrop : (content f.sha).drop n = rest := by
          rw [← hrest, ← hlen, List.drop_left]
        rw [hdrop] at hbs
        change p ++ bs <+: content f.sha
        rw [← hrest]
        exact (List.prefix_append_right_inj p).2 hbs
      · exact h.parts k q hold
    · cases hf'
      refine ⟨hsize, _, OrderedMap.get_set_self .., ?_⟩
      rw [List.length_append, hlen]

theorem Whole.ended (h : s.Whole hash content) {f : Fetch} (hf : s.fetch = some f) :
    (s.ended f).Whole hash content := by
  obtain ⟨hsize, _⟩ := h.fetch f hf
  unfold System.ended
  split
  · next p hp =>
      split
      · next hlen =>
          refine ⟨h.parts, fun f' hf' => ?_⟩
          cases hf'
          exact ⟨hsize, (h.parts _ p hp).eq_of_length (hlen.trans hsize.2)⟩
      · exact h.idle (fun _ _ hq => hq) rfl
  · exact h.idle (fun _ _ hq => hq) rfl

theorem Whole.hashed (h : s.Whole hash content) {f : Fetch} {c : Bytes} (hf : s.fetch = some f) :
    (s.hashed hash f c).Whole hash content := by
  obtain ⟨hsize, _⟩ := h.fetch f hf
  unfold System.hashed
  split
  · refine ⟨h.parts, fun f' hf' => ?_⟩
    cases hf'
    exact ⟨hsize, trivial⟩
  · exact h.idle (fun _ _ hq => get_of_delete hq) rfl

theorem Whole.partGone (h : s.Whole hash content) {dir : Dir} {sha : Sha}
    (hok : s.Honest hash content (.partGone dir sha)) :
    ({ s with parts := s.parts.delete (dir, sha) } : System).Whole hash content := by
  refine ⟨fun k p hp => h.parts k p (get_of_delete hp), fun f hf => ?_⟩
  obtain ⟨hsize, hat⟩ := h.fetch f hf
  refine ⟨hsize, ?_⟩
  have hkeep : (f.dir, f.sha) ≠ (dir, sha) → ∀ p, s.parts.get (f.dir, f.sha) = some p →
      (s.parts.delete (dir, sha)).get (f.dir, f.sha) = some p := by
    intro hne p hp
    rw [OrderedMap.get_delete, if_neg hne]
    exact hp
  cases hst : f.stage with
  | requested n =>
      rw [hst] at hat
      intro haborted
      rcases hat haborted with hzero | ⟨p, hp, hlen⟩
      · exact Or.inl hzero
      · refine Or.inr ⟨p, hkeep (fun hkey => ?_) p hp, hlen⟩
        have hwrites := hok f hf hkey
        rw [Fetch.writes, hst] at hwrites
        simp only [haborted] at hwrites
        cases hwrites
  | streaming n =>
      rw [hst] at hat
      obtain ⟨p, hp, hlen⟩ := hat
      refine ⟨p, hkeep (fun hkey => ?_) p hp, hlen⟩
      have hwrites := hok f hf hkey
      rw [Fetch.writes, hst] at hwrites
      cases hwrites
  | hashing c =>
      rw [hst] at hat
      exact hat
  | checked =>
      trivial

theorem Whole.step (h : s.Whole hash content) {a : Action} (hok : s.Honest hash content a)
    (ht : s.step hash a = some t) : t.Whole hash content := by
  cases a with
  | opens dir index =>
      obtain ⟨_, ht⟩ := Option.ite_none_left_eq_some.1 ht
      cases ht
      exact h.abort.detach.same rfl rfl
  | looks =>
      obtain ⟨o, _, rfl⟩ := Option.map_eq_some_iff.1 ht
      unfold System.looks
      split
      · exact h
      · split
        · exact h.same rfl rfl
        · split
          · split <;> exact h.same rfl rfl
          · exact h.same rfl rfl
  | hashes now =>
      obtain ⟨o, _, rfl⟩ := Option.map_eq_some_iff.1 ht
      unfold System.hashes
      split
      · exact h
      · split
        · exact h.same rfl rfl
        · split <;> exact h.same rfl rfl
  | opened =>
      rw [System.step] at ht
      split at ht
      · cases ht
        exact h.same rfl rfl
      · cases ht
  | openFails =>
      obtain ⟨o, _, rfl⟩ := Option.map_eq_some_iff.1 ht
      exact h.same rfl rfl
  | shutdown =>
      cases ht
      exact h.abort.detach
  | restart =>
      cases ht
      exact h.idle (fun _ _ hp => hp) rfl
  | starts sha size kind =>
      rw [System.step] at ht
      split at ht
      · obtain ⟨_, ht⟩ := Option.ite_none_left_eq_some.1 ht
        cases ht
        exact h.starts _ hok _
      · cases ht
  | responds a =>
      rw [System.step] at ht
      split at ht
      · next hf =>
          cases ht
          exact h.responds hf rfl a
      · cases ht
  | chunk bs =>
      rw [System.step] at ht
      split at ht
      · next hf =>
          cases ht
          exact h.chunk hf rfl (hok _ hf _ rfl)
      · cases ht
  | ended =>
      rw [System.step] at ht
      split at ht
      · next hf =>
          cases ht
          exact h.ended hf
      · cases ht
  | broken =>
      obtain ⟨_, _, rfl⟩ := Option.map_eq_some_iff.1 ht
      exact h.idle (fun _ _ hp => hp) rfl
  | abort =>
      cases ht
      exact h.abort
  | hashed =>
      rw [System.step] at ht
      split at ht
      · next hf =>
          cases ht
          exact h.hashed hf
      · cases ht
  | commits now =>
      rw [System.step] at ht
      split at ht
      · cases ht
        unfold System.commits
        split
        · exact h.idle (fun _ _ hp => hp) rfl
        · exact h.idle (fun _ _ hp => get_of_delete hp) rfl
      · cases ht
  | remove sha =>
      cases ht
      exact h.same rfl rfl
  | unlinked dir sha =>
      cases ht
      exact h.same rfl rfl
  | partGone dir sha =>
      cases ht
      exact h.partGone hok

/-- In every run with an honest server nothing that has been downloaded turns out to be wrong. -/
theorem resumes_lossless (hash : Bytes → Sha) (content : Sha → Bytes) {as : List Action}
    (h : Admits (step hash) (Honest hash content) new as) :
    Throughout (step hash) (Lossless hash content) new as :=
  throughout_of_admits (fun _ _ _ hs hok ht => hs.step hok ht) (fun _ hs => hs.lossless) new_whole h

/-- A download that is broken off after its first byte and continued. -/
def resumedRun : List Action :=
  [.opens "d" .empty, .opened, .starts "ab" 2 none, .responds ⟨200, none, some 2⟩, .chunk [1],
    .broken, .starts "ab" 2 none, .responds ⟨206, some (1, 1, some 2), some 1⟩, .chunk [2], .ended,
    .hashed, .commits 0]

def twoBytes (c : Bytes) : Sha := if c = [1, 2] then "ab" else ""

theorem resumes_lossless_resumed :
    Throughout (step twoBytes) (Lossless twoBytes fun _ => [1, 2]) new resumedRun ∧
      ((exec (step twoBytes) new resumedRun).bind fun s => s.blobs.get ("d", "ab")) =
        some [1, 2] :=
  ⟨resumes_lossless twoBytes (fun _ => [1, 2]) (by decide), by decide⟩

end System
end Downloads
end Cache
end GateControl
