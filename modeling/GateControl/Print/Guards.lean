import GateControl.Library.Keyed
import GateControl.Print.Jobs

/-!
# Guards — what remembers a job that has been printed

A job that has been printed is guarded: as long as the server may list it, it is in the journal, or
the table has its final state, or a run is posting that.  Most steps keep this.  It is lost where
the final state is: at a restart and when the feature is switched off after the end of the job and
before the server has accepted it, when the post of a final state fails whose job the table does not
have any more, and when the list of the server is too long for the job to be read.
-/

namespace GateControl
namespace Print

open Library

namespace PrintService

variable {ι : Type} [DecidableEq ι] (s : PrintService ι)

/-- `printJob` has not been called for a job that the journal should still have. -/
def PrintedOnce : Prop := s.again = []

/-- The list that is on its way. -/
def onWay : List ι :=
  match s.poll with
  | .answering ids => ids
  | _ => []

/-- The journal has had the job since it was printed. -/
def Recorded (id : ι) : Prop := ∃ v, v ∈ s.stored.get id ∧ ∀ t ∈ s.printed.get id, t ≤ v.time

/-- The table has the final state of the job. -/
def Held (id : ι) : Prop := ∃ t, t ∈ s.jobs.get id ∧ t.final ≠ none

/-- The final state of the job is being posted. -/
def Ending (id : ι) : Prop := ∃ r ∈ s.runs, r.id = id ∧ r.awaits = .final

/-- No step forgets a printed job that the server may still list: it is in the journal at a restart;
it is there, or its final state is being posted, when the feature is switched off; it is there if
the list is too long; and a final state that the table does not have any more is accepted. -/
def Remembering : Action ι → Prop
  | .restart => ∀ id ∈ s.listed, s.Fresh id → s.Recorded id
  | .disable => s.enabled = true →
      ∀ id ∈ s.listed ++ s.onWay, s.Fresh id → s.Recorded id ∨ s.Ending id
  | .changed _ _ => ∀ id ∈ s.onWay, s.Fresh id → id ∈ s.onWay.take listMax ∨ s.Recorded id
  | .run i a => a = .posted false → ∀ r ∈ s.runs[i]?, r.awaits = .final → r.attached = false →
      s.Fresh r.id → r.id ∉ s.listed
  | _ => True

instance (id : ι) : Decidable (s.Recorded id) :=
  match h : s.stored.get id with
  | some v => decidable_of_iff (∀ t ∈ s.printed.get id, t ≤ v.time) (by simp [Recorded, h])
  | none => isFalse (by simp [Recorded, h])

instance (id : ι) : Decidable (s.Ending id) := inferInstanceAs (Decidable (∃ _ ∈ _, _))

instance (a : Action ι) : Decidable (s.Remembering a) :=
  match a with
  | .restart => inferInstanceAs (Decidable (∀ _ ∈ _, _))
  | .disable => inferInstanceAs (Decidable (_ → ∀ _ ∈ _, _))
  | .changed _ _ => inferInstanceAs (Decidable (∀ _ ∈ _, _))
  | .run _ _ => inferInstanceAs (Decidable (_ → ∀ _ ∈ _, _))
  | .submit _ => inferInstanceAs (Decidable True)
  | .withdraw _ => inferInstanceAs (Decidable True)
  | .accept _ => inferInstanceAs (Decidable True)
  | .list _ => inferInstanceAs (Decidable True)
  | .wait _ => inferInstanceAs (Decidable True)
  | .enable => inferInstanceAs (Decidable True)
  | .poll => inferInstanceAs (Decidable True)
  | .listFailed => inferInstanceAs (Decidable True)
  | .unchanged _ => inferInstanceAs (Decidable True)

/-! ## What holds in every state -/

/-- The ids that occur anywhere. -/
def mentioned : List ι :=
  s.listed ++ s.onWay ++ s.jobs.keys ++ s.runs.map Run.id ++ s.posted ++ s.accepted ++
    s.printed.keys

/-- As long as it matters, a printed job cannot be run again: the journal has it unless the table
has its final state; where the server may list it, it is remembered; and a run of it is past
`printJob`. -/
structure Guards (id : ι) : Prop where
  table : ∀ t ∈ s.jobs.get id, t.final = none → s.Recorded id
  listed : id ∈ s.listed ∨ id ∈ s.onWay → s.Recorded id ∨ s.Held id ∨ s.Ending id
  runs : ∀ r ∈ s.runs, r.id = id → r.awaits.isPrinted = true

/-- What the file has the table has. -/
def Restored : Prop := ∀ id v, s.stored.get id = some v → s.journal.get id = some v

structure Sound : Prop where
  quiet : s.PrintedOnce
  known : s.mentioned ⊆ s.used
  gone : ∀ id ∈ s.accepted, id ∉ s.listed
  complete : ∀ id ∈ s.printed.keys, id ∈ s.listed → ∀ ids, s.poll = .answering ids → id ∈ ids
  distinct : (s.runs.map Run.id).Nodup
  working : s.runs ≠ [] → s.poll = .working
  attached : ∀ r ∈ s.runs, r.attached = true →
    ∃ t, s.jobs.get r.id = some t ∧ (r.awaits = .final → t.final ≠ none)
  detached : ∀ r ∈ s.runs, r.attached = false → s.jobs.get r.id = none
  restored : s.enabled = true ∨ s.poll ≠ .idle → s.Restored
  guarded : ∀ id, s.Fresh id → s.Guards id

variable {s} {u w : PrintService ι} {id : ι}

/-- A change that concerns one job only. -/
structure Frame (s u : PrintService ι) (id : ι) : Prop where
  now : u.now = s.now
  enabled : u.enabled = s.enabled
  poll : u.poll = s.poll
  runs : u.runs = s.runs
  server : u.listed = s.listed ∧ u.used = s.used ∧ u.accepted = s.accepted
  posted : u.posted ⊆ id :: s.posted
  printed : ∀ j, j ≠ id → u.printed.get j = s.printed.get j
  jobs : ∀ j, j ≠ id → u.jobs.get j = s.jobs.get j
  restored : s.Restored → u.Restored
  recorded : s.Restored → ∀ j, j ≠ id → s.Fresh j → s.Recorded j → u.Recorded j

theorem fresh_congr {j : ι} (hnow : u.now = s.now)
    (hprinted : u.printed.get j = s.printed.get j) : u.Fresh j ↔ s.Fresh j := by
  simp only [Fresh, hnow, hprinted]

theorem recorded_congr {j : ι} (hstored : u.stored = s.stored)
    (hprinted : u.printed.get j = s.printed.get j) : u.Recorded j ↔ s.Recorded j := by
  simp only [Recorded, hstored, hprinted]

theorem Frame.fresh (h : Frame s u id) {j : ι} (hj : j ≠ id) : u.Fresh j ↔ s.Fresh j :=
  fresh_congr h.now (h.printed j hj)

theorem Frame.refl (s : PrintService ι) (id : ι) : Frame s s id :=
  ⟨rfl, rfl, rfl, rfl, ⟨rfl, rfl, rfl⟩, fun _ h => List.mem_cons_of_mem _ h, fun _ _ => rfl,
    fun _ _ => rfl, fun h => h, fun _ _ _ _ h => h⟩

theorem Frame.trans (h : Frame s u id) (k : Frame u w id) : Frame s w id where
  now := k.now.trans h.now
  enabled := k.enabled.trans h.enabled
  poll := k.poll.trans h.poll
  runs := k.runs.trans h.runs
  server := ⟨k.server.1.trans h.server.1, k.server.2.1.trans h.server.2.1,
    k.server.2.2.trans h.server.2.2⟩
  posted := by
    intro j hj
    rcases List.mem_cons.1 (k.posted hj) with rfl | hu
    · exact List.mem_cons_self
    · exact h.posted hu
  printed := fun j hj => (k.printed j hj).trans (h.printed j hj)
  jobs := fun j hj => (k.jobs j hj).trans (h.jobs j hj)
  restored := fun hr => k.restored (h.restored hr)
  recorded := fun hr j hj hfresh hrec =>
    k.recorded (h.restored hr) j hj ((h.fresh hj).2 hfresh) (h.recorded hr j hj hfresh hrec)

/-- A change of the table. -/
theorem Frame.modifyTask (s : PrintService ι) (id : ι) (attached : Bool) (f : Task → Task) :
    Frame s (s.modifyTask id attached f) id where
  now := rfl
  enabled := rfl
  poll := rfl
  runs := rfl
  server := ⟨rfl, rfl, rfl⟩
  posted := fun _ h => List.mem_cons_of_mem _ h
  printed := fun _ _ => rfl
  jobs := by
    intro j hj
    simp only [PrintService.modifyTask]
    cases s.jobs.get id with
    | none => rfl
    | some t =>
        cases attached with
        | true => exact OrderedMap.get_set_ne _ hj _
        | false => rfl
  restored := fun h => h
  recorded := fun _ _ _ _ h => h

/-- Writing the journal keeps the entries of printed jobs. -/
theorem recorded_store (hr : s.Restored) {journal : OrderedMap ι JournalEntry} {j : ι}
    (hj : journal.get j = s.journal.get j) (hfresh : s.Fresh j) (hrec : s.Recorded j) :
    Recorded { s with journal := journal }.persist j := by
  obtain ⟨v, hv, htime⟩ := hrec
  obtain ⟨t, ht, hnow⟩ := hfresh
  -- the entry is not older than the print, so that it is not pruned
  have hold : ¬ v.time + journalMs < s.now :=
    Nat.not_lt.2 (Nat.le_trans hnow (Nat.add_le_add_right (htime t ht) _))
  exact ⟨v, (OrderedMap.get_filter _ _).2 ⟨hj.trans (hr j v hv), by simp [hold]⟩, htime⟩

theorem Frame.store (s : PrintService ι) (id : ι) {journal : OrderedMap ι JournalEntry}
    (hj : ∀ j, j ≠ id → journal.get j = s.journal.get j) :
    Frame s { s with journal := journal }.persist id where
  now := rfl
  enabled := rfl
  poll := rfl
  runs := rfl
  server := ⟨rfl, rfl, rfl⟩
  posted := fun _ h => List.mem_cons_of_mem _ h
  printed := fun _ _ => rfl
  jobs := fun _ _ => rfl
  restored := fun _ _ _ h => h
  recorded := fun hr j hne hfresh hrec => recorded_store hr (hj j hne) hfresh hrec

theorem Frame.enter (s : PrintService ι) (id : ι) (ippJobId : Option Nat) :
    Frame s (s.enter id ippJobId) id :=
  .store s id fun _ hj => OrderedMap.get_set_ne _ hj _

theorem Frame.finish (s : PrintService ι) (id : ι) (attached : Bool) (final : Final) :
    Frame s (s.finish id attached final) id := by
  have hstore := (Frame.modifyTask s id attached fun t => { t with final := some final }).trans
    (.store _ id fun j hj => by rw [OrderedMap.get_delete, if_neg hj])
  exact { hstore with posted := List.cons_subset_cons _ (List.Subset.refl _) }

theorem Frame.wait (s : PrintService ι) (id : ι) (attached : Bool) :
    Frame s (s.wait id attached) id :=
  .modifyTask s id attached _

theorem Frame.call (s : PrintService ι) (id : ι) : Frame s (s.call id) id :=
  { Frame.refl s id with }

theorem recorded_enter (s : PrintService ι) (id : ι) (ippJobId : Option Nat)
    (h : ∀ t ∈ s.printed.get id, t ≤ s.now) : (s.enter id ippJobId).Recorded id := by
  refine ⟨⟨s.now, ippJobId⟩, ?_, h⟩
  refine (OrderedMap.get_filter _ _).2 ⟨OrderedMap.get_set_self _ _ _, ?_⟩
  have hold : ¬ s.now + journalMs < s.now := Nat.not_lt.2 (Nat.le_add_right _ _)
  simp [hold]

theorem call_quiet (h : s.PrintedOnce) (hfresh : ¬ s.Fresh id) : (s.call id).PrintedOnce := by
  simp only [PrintedOnce, call, if_neg hfresh]
  exact h

/-! ## One job takes a step -/

/-- The other jobs stay guarded, wherever the run of this one goes. -/
theorem Guards.frame {j : ι} (h : s.Guards j) (hf : Frame s u id) (hj : j ≠ id)
    (hr : s.Restored) (hfresh : s.Fresh j) {rs : List (Run ι)} {p : Poll ι}
    (hrs : ∀ r, r.id = j → (r ∈ rs ↔ r ∈ s.runs))
    (hp : ∀ ids, p = .answering ids → s.poll = .answering ids) :
    Guards { u with runs := rs, poll := p } j where
  table := by
    intro t ht hnone
    exact hf.recorded hr j hj hfresh (h.table t ((hf.jobs j hj).symm.trans ht) hnone)
  listed := by
    intro hl
    have hold : j ∈ s.listed ∨ j ∈ s.onWay := by
      rcases hl with hl | hl
      · exact .inl (hf.server.1 ▸ hl)
      · right
        cases p with
        | answering ids =>
            rw [onWay, hp ids rfl]
            exact hl
        | _ => cases hl
    rcases h.listed hold with hrec | ⟨t, ht, hne⟩ | ⟨r, hmem, hid, hat⟩
    · exact .inl (hf.recorded hr j hj hfresh hrec)
    · exact .inr (.inl ⟨t, (hf.jobs j hj).trans ht, hne⟩)
    · exact .inr (.inr ⟨r, (hrs r hid).2 hmem, hid, hat⟩)
  runs := fun r hmem hid => h.runs r ((hrs r hid).1 hmem) hid

/-- What the runs of a job find in the table. -/
def Owns (s : PrintService ι) (r : Run ι) : Prop :=
  (r.attached = true → ∃ t, s.jobs.get r.id = some t ∧ (r.awaits = .final → t.final ≠ none)) ∧
    (r.attached = false → s.jobs.get r.id = none)

omit [DecidableEq ι] in
theorem mem_mentioned {j : ι} : j ∈ s.mentioned ↔ j ∈ s.listed ∨ j ∈ s.onWay ∨ j ∈ s.jobs.keys ∨
    j ∈ s.runs.map Run.id ∨ j ∈ s.posted ∨ j ∈ s.accepted ∨ j ∈ s.printed.keys := by
  simp only [mentioned, List.mem_append]
  grind

theorem keys_congr {κ β : Type} [DecidableEq κ] {m n : OrderedMap κ β} {k : κ}
    (h : m.get k = n.get k) (hk : k ∈ m.keys) : k ∈ n.keys := by
  rw [OrderedMap.mem_keys_iff] at hk ⊢
  rwa [h] at hk

theorem Sound.no_runs (h : s.Sound) (hpoll : s.poll ≠ .working) : s.runs = [] := by
  by_contra hne
  exact hpoll (h.working hne)

theorem Sound.restored_of_poll (h : s.Sound) (hpoll : s.poll ≠ .idle) : s.Restored :=
  h.restored (.inr hpoll)

/-- While the runs of a poll are in progress, a step that concerns one job keeps the invariant. -/
theorem Sound.frame (h : s.Sound) (hf : Frame s u id) (hpoll : s.poll = .working)
    (hid : id ∈ s.used) (hquiet : u.PrintedOnce) {rs : List (Run ι)} {p : Poll ι}
    (hp : p = .working ∨ p = .idle ∧ rs = [])
    (hrs : ∀ r, r.id ≠ id → (r ∈ rs ↔ r ∈ s.runs)) (hdistinct : (rs.map Run.id).Nodup)
    (howns : ∀ r ∈ rs, r.id = id → u.Owns r)
    (hguard : u.Fresh id → Guards { u with runs := rs, poll := p } id) :
    Sound { u with runs := rs, poll := p } := by
  have hnone : ∀ ids, p ≠ .answering ids := by
    rintro ids rfl
    rcases hp with hp | ⟨hp, _⟩ <;> cases hp
  have hrestored : s.Restored := h.restored_of_poll (by rw [hpoll]; exact fun hw => by cases hw)
  have howns' : ∀ r ∈ rs, Owns { u with runs := rs, poll := p } r := by
    intro r hr
    by_cases hrid : r.id = id
    · exact howns r hr hrid
    · have hold := (hrs r hrid).1 hr
      have hjobs := hf.jobs r.id hrid
      exact ⟨fun hatt => hjobs ▸ h.attached r hold hatt,
        fun hdet => hjobs.trans (h.detached r hold hdet)⟩
  refine
    { quiet := hquiet
      known := ?_
      gone := ?_
      complete := fun _ _ _ ids hids => absurd hids (hnone ids)
      distinct := hdistinct
      working := ?_
      attached := fun r hr => (howns' r hr).1
      detached := fun r hr => (howns' r hr).2
      restored := fun _ => hf.restored hrestored
      guarded := ?_ }
  · intro j hj
    refine hf.server.2.1 ▸ ?_
    by_cases hne : j = id
    · exact hne ▸ hid
    · apply h.known
      rw [mem_mentioned] at hj ⊢
      rcases hj with hj | hj | hj | hj | hj | hj | hj
      · exact .inl (hf.server.1 ▸ hj)
      · exfalso
        cases p with
        | answering ids => exact hnone ids rfl
        | _ => cases hj
      · exact .inr (.inr (.inl (keys_congr (hf.jobs j hne) hj)))
      · rcases List.mem_map.1 hj with ⟨r, hr, rfl⟩
        exact .inr (.inr (.inr (.inl (List.mem_map_of_mem ((hrs r hne).1 hr)))))
      · rcases List.mem_cons.1 (hf.posted hj) with rfl | hj
        · exact absurd rfl hne
        · exact .inr (.inr (.inr (.inr (.inl hj))))
      · exact .inr (.inr (.inr (.inr (.inr (.inl (hf.server.2.2 ▸ hj))))))
      · exact .inr (.inr (.inr (.inr (.inr (.inr (keys_congr (hf.printed j hne) hj))))))
  · intro j hj
    show j ∉ u.listed
    rw [hf.server.1]
    exact h.gone j (hf.server.2.2 ▸ hj)
  · intro hne
    rcases hp with hp | ⟨_, hnil⟩
    · exact hp
    · exact absurd hnil hne
  · intro j hfresh
    by_cases hj : j = id
    · subst hj
      exact hguard hfresh
    · have hold : s.Fresh j := (hf.fresh hj).1 hfresh
      refine (h.guarded j hold).frame hf hj hrestored hold ?_ ?_
      · intro r hr
        exact hrs r (hr ▸ hj)
      · intro ids hids
        exact absurd hids (hnone ids)

/-! ## The steps of a run -/

section Run

variable {i : Nat} {r : Run ι}

/-- The run is one of those of the poll, and its id is the server's. -/
theorem Sound.run (h : s.Sound) (hr : s.runs[i]? = some r) :
    s.poll = .working ∧ r.id ∈ s.used ∧ r ∈ s.runs := by
  have hmem := List.mem_of_getElem? hr
  refine ⟨h.working (List.ne_nil_of_mem hmem), h.known (mem_mentioned.2 ?_), hmem⟩
  exact .inr (.inr (.inr (.inl (List.mem_map_of_mem hmem))))

/-- The run goes on. -/
theorem Sound.goto (h : s.Sound) (hr : s.runs[i]? = some r) (hf : Frame s u r.id)
    (hquiet : u.PrintedOnce) (awaits : Awaited)
    (howns : u.Owns { r with awaits := awaits })
    (hguard : u.Fresh r.id → (u.goto i r awaits).Guards r.id) : (u.goto i r awaits).Sound := by
  obtain ⟨hpoll, hid, _⟩ := h.run hr
  have hrs : ∀ q : Run ι, q.id ≠ r.id →
      (q ∈ s.runs.set i { r with awaits := awaits } ↔ q ∈ s.runs) :=
    fun q hq => mem_set_of_key_ne (f := Run.id) hr rfl hq
  have hdistinct : ((s.runs.set i { r with awaits := awaits }).map Run.id).Nodup := by
    rw [map_key_set (f := Run.id) (b := { r with awaits := awaits }) hr rfl]
    exact h.distinct
  have hmine : ∀ q ∈ s.runs.set i { r with awaits := awaits }, q.id = r.id → u.Owns q := by
    intro q hq hqid
    exact (eq_of_mem_set_of_key h.distinct hr hq hqid) ▸ howns
  have hsame : u.goto i r awaits =
      { u with runs := s.runs.set i { r with awaits := awaits }, poll := u.poll } := by
    rw [PrintService.goto, hf.runs]
  rw [hsame] at hguard ⊢
  exact h.frame hf hpoll hid hquiet (.inl (hf.poll.trans hpoll)) hrs hdistinct hmine hguard

/-- The run ends. -/
theorem Sound.leave (h : s.Sound) (hr : s.runs[i]? = some r) (hf : Frame s u r.id)
    (hquiet : u.PrintedOnce) (hguard : u.Fresh r.id → (u.leave i).Guards r.id) :
    (u.leave i).Sound := by
  obtain ⟨hpoll, hid, _⟩ := h.run hr
  have hrs : ∀ q : Run ι, q.id ≠ r.id → (q ∈ s.runs.eraseIdx i ↔ q ∈ s.runs) :=
    fun q hq => mem_eraseIdx_of_key_ne (f := Run.id) hr hq
  have hdistinct : ((s.runs.eraseIdx i).map Run.id).Nodup :=
    h.distinct.sublist ((List.eraseIdx_sublist _ _).map _)
  have hmine : ∀ q ∈ s.runs.eraseIdx i, q.id = r.id → u.Owns q :=
    fun q hq hqid => absurd hqid (key_ne_of_mem_eraseIdx h.distinct hr hq)
  have hsame : u.leave i =
      { u with
        runs := s.runs.eraseIdx i
        poll := if s.runs.eraseIdx i = [] then .idle else u.poll } := by
    rw [PrintService.leave, settle, hf.runs]
  rw [hsame] at hguard ⊢
  refine h.frame hf hpoll hid hquiet ?_ hrs hdistinct hmine hguard
  by_cases hnil : s.runs.eraseIdx i = []
  · exact .inr ⟨if_pos hnil, hnil⟩
  · left
    rw [if_neg hnil]
    exact hf.poll.trans hpoll

/-- A run that has not got to the end of `printJob` is not one of a printed job. -/
theorem Sound.not_fresh (h : s.Sound) (hr : s.runs[i]? = some r)
    (hawaits : r.awaits.isPrinted = false) : ¬ s.Fresh r.id := by
  intro hfresh
  have hprinted := (h.guarded r.id hfresh).runs r (List.mem_of_getElem? hr) rfl
  rw [hawaits] at hprinted
  cases hprinted

theorem Sound.owns (h : s.Sound) (hr : s.runs[i]? = some r) : s.Owns r :=
  ⟨h.attached r (List.mem_of_getElem? hr), h.detached r (List.mem_of_getElem? hr)⟩

/-- Wherever the run goes but to the end, it has its task. -/
theorem Owns.of_ne_final {awaits : Awaited} (h : s.Owns r) (hne : awaits ≠ .final) :
    s.Owns { r with awaits := awaits } := by
  refine ⟨fun hatt => ?_, h.2⟩
  obtain ⟨t, ht, _⟩ := h.1 hatt
  exact ⟨t, ht, fun hfinal => absurd hfinal hne⟩

theorem owns_congr (hjobs : u.jobs.get r.id = s.jobs.get r.id) (h : s.Owns r) : u.Owns r := by
  simp only [Owns, hjobs]
  exact h

theorem get_modifyTask (s : PrintService ι) (id : ι) (attached : Bool) (f : Task → Task) :
    (s.modifyTask id attached f).jobs.get id =
      if attached then (s.jobs.get id).map f else s.jobs.get id := by
  simp only [modifyTask]
  cases ht : s.jobs.get id with
  | none => simp [ht]
  | some t =>
      cases attached with
      | true => simp
      | false => simp [ht]

/-- The run of a job that has not been printed goes on before the end of `printJob`. -/
theorem Sound.goto_early (h : s.Sound) (hr : s.runs[i]? = some r)
    (hnew : r.awaits.isPrinted = false) {awaits : Awaited} (hne : awaits ≠ .final) :
    (s.goto i r awaits).Sound :=
  h.goto hr (.refl s r.id) h.quiet awaits ((h.owns hr).of_ne_final hne)
    fun hfresh => absurd hfresh (h.not_fresh hr hnew)

theorem Sound.waitRun (h : s.Sound) (hr : s.runs[i]? = some r)
    (hnew : r.awaits.isPrinted = false) : (s.waitRun i r).Sound := by
  have howns : (s.wait r.id r.attached).Owns { r with awaits := .waiting } := by
    have hold := h.owns hr
    have hget := get_modifyTask s r.id r.attached fun t => { t with nextTryAt := s.now + retryMs }
    constructor
    · intro hatt
      obtain ⟨t, ht, _⟩ := hold.1 hatt
      refine ⟨{ t with nextTryAt := s.now + retryMs }, ?_, fun hfinal => by cases hfinal⟩
      rw [if_pos hatt, ht] at hget
      exact hget
    · intro hdet
      rw [if_neg (ne_true_of_eq_false hdet), hold.2 hdet] at hget
      exact hget
  exact h.goto hr (.wait s r.id r.attached) h.quiet .waiting howns
    fun hfresh => absurd hfresh (h.not_fresh hr hnew)

/-- At its end a job leaves the journal, and the table has its final state. -/
theorem Sound.finishRun (h : s.Sound) (hr : s.runs[i]? = some r) (final : Final) :
    (s.finishRun i r final).Sound := by
  have hold := h.owns hr
  have hget : (s.finish r.id r.attached final).jobs.get r.id =
      if r.attached then (s.jobs.get r.id).map (fun t => { t with final := some final })
      else s.jobs.get r.id := get_modifyTask s r.id r.attached _
  have howns : (s.finish r.id r.attached final).Owns { r with awaits := .final } := by
    constructor
    · intro hatt
      obtain ⟨t, ht, _⟩ := hold.1 hatt
      rw [if_pos hatt, ht] at hget
      exact ⟨_, hget, fun _ => Option.some_ne_none _⟩
    · intro hdet
      rw [if_neg (ne_true_of_eq_false hdet), hold.2 hdet] at hget
      exact hget
  have hmem : { r with awaits := .final } ∈ s.runs.set i { r with awaits := .final } :=
    List.mem_set (List.getElem?_eq_some_iff.1 hr).1 _
  refine h.goto hr (.finish s r.id r.attached final) h.quiet .final howns fun _ => ⟨?_, ?_, ?_⟩
  · intro t ht hnone
    cases hatt : r.attached with
    | true =>
        obtain ⟨t', ht', hne⟩ := howns.1 hatt
        obtain rfl : t' = t := Option.some.inj (ht'.symm.trans ht)
        exact absurd hnone (hne rfl)
    | false =>
        have hgone := howns.2 hatt
        have hsome : some t = none := (Option.mem_def.1 ht).symm.trans hgone
        cases hsome
  · intro _
    exact .inr (.inr ⟨_, hmem, rfl, rfl⟩)
  · intro q hq hid
    have heq := eq_of_mem_set_of_key (f := Run.id) h.distinct hr hq hid
    rw [heq]
    rfl

/-- The last part has been printed: the journal gets the job. -/
theorem Sound.handOver (h : s.Sound) (hr : s.runs[i]? = some r) (hf : Frame s u r.id)
    (hquiet : u.PrintedOnce) (howns : u.Owns r) (ippJobId : Option Nat)
    (hprinted : u.Fresh r.id → ∀ t ∈ u.printed.get r.id, t ≤ u.now) :
    ((u.enter r.id ippJobId).goto i r (.printing ippJobId)).Sound := by
  have howns' : (u.enter r.id ippJobId).Owns { r with awaits := .printing ippJobId } :=
    owns_congr rfl (howns.of_ne_final Awaited.noConfusion)
  refine h.goto hr (hf.trans (.enter u r.id ippJobId)) hquiet (.printing ippJobId) howns' ?_
  intro hfresh
  have hrec : (u.enter r.id ippJobId).Recorded r.id :=
    recorded_enter u r.id ippJobId (hprinted hfresh)
  refine ⟨fun _ _ _ => hrec, fun _ => .inl hrec, ?_⟩
  intro q hq hid
  have hq' : q ∈ s.runs.set i { r with awaits := .printing ippJobId } := hf.runs ▸ hq
  rw [eq_of_mem_set_of_key (f := Run.id) h.distinct hr hq' hid]
  rfl

/-- The next part goes to the printer, or there is none left. -/
theorem Sound.sendParts (h : s.Sound) (hr : s.runs[i]? = some r) (hf : Frame s u r.id)
    (hquiet : u.PrintedOnce) (howns : u.Owns r) (plan again : Bool) {part parts : Nat}
    (ippJobId : Option Nat) (hmore : part < parts → ¬ u.Fresh r.id)
    (hprinted : u.Fresh r.id → ∀ t ∈ u.printed.get r.id, t ≤ u.now) :
    (u.sendParts i r plan again part parts ippJobId).Sound := by
  unfold PrintService.sendParts
  split
  · next hlt =>
      refine h.goto hr (hf.trans (.call u r.id)) (call_quiet hquiet (hmore hlt)) _ ?_ ?_
      · exact owns_congr rfl (howns.of_ne_final Awaited.noConfusion)
      · exact fun hfresh => absurd hfresh (hmore hlt)
  · exact h.handOver hr hf hquiet howns ippJobId hprinted

theorem Frame.setPrinted (s : PrintService ι) (id : ι) :
    Frame s { s with printed := s.printed.set id s.now } id :=
  { Frame.refl s id with
    printed := fun _ hj => OrderedMap.get_set_ne _ hj _
    recorded := by
      rintro _ j hj _ ⟨v, hv, htime⟩
      refine ⟨v, hv, fun t ht => htime t ?_⟩
      exact (OrderedMap.get_set_ne s.printed hj s.now).symm.trans ht }

theorem Sound.answerPart (h : s.Sound) (hr : s.runs[i]? = some r)
    (hnew : r.awaits.isPrinted = false) (plan again : Bool) (part parts code : Nat)
    (ippJobId : Option Nat) (other : Bool) :
    (s.answerPart i r plan again part parts code ippJobId other).Sound := by
  have hnot := h.not_fresh hr hnew
  unfold PrintService.answerPart
  split
  · exact h.waitRun hr hnew
  · split
    · split
      · exact h.goto_early hr hnew Awaited.noConfusion
      · exact h.finishRun hr _
    · split
      · exact h.finishRun hr _
      · -- the printer has taken the part
        by_cases hone : part = 0 ∧ parts = 1
        · obtain ⟨rfl, rfl⟩ := hone
          simp only [and_self, if_true, Nat.lt_irrefl, and_false, if_false]
          refine h.sendParts hr (.setPrinted s r.id) h.quiet (h.owns hr) plan again ippJobId ?_ ?_
          · exact fun hlt => absurd hlt (Nat.lt_irrefl 1)
          · intro _ t ht
            have hnow : t = s.now := by
              rw [show PrintService.printed _ = s.printed.set r.id s.now from rfl,
                OrderedMap.get_set_self] at ht
              exact (Option.some.inj ht).symm
            exact Nat.le_of_eq hnow
        · simp only [if_neg hone]
          split
          · exact h.sendParts hr (.enter s r.id ippJobId) h.quiet (h.owns hr) plan again ippJobId
              (fun _ => hnot) fun hfresh => absurd hfresh hnot
          · exact h.sendParts hr (.refl s r.id) h.quiet (h.owns hr) plan again ippJobId
              (fun _ => hnot) fun hfresh => absurd hfresh hnot

omit [DecidableEq ι] in
/-- No list is on its way while runs are in progress. -/
theorem onWay_leave (hpoll : s.poll = .working) : (s.leave i).onWay = [] := by
  simp only [leave, settle, onWay, hpoll]
  split
  · next hids =>
      split at hids <;> cases hids
  · rfl

/-- The server has accepted the final state, or the table still has it. -/
theorem Sound.finalPosted (h : s.Sound) (hr : s.runs[i]? = some r) (hfinal : r.awaits = .final)
    {ok : Bool} (haccepted : ok = true → r.id ∈ s.accepted)
    (hkept : ok = false → r.attached = false → s.Fresh r.id → r.id ∉ s.listed) :
    (s.finalPosted i r ok).Sound := by
  have hpoll := (h.run hr).1
  have hruns : ∀ q ∈ s.runs.eraseIdx i, q.id = r.id → q.awaits.isPrinted = true :=
    fun q hq hid => absurd hid (key_ne_of_mem_eraseIdx h.distinct hr hq)
  cases ok with
  | true =>
      show (PrintService.leave { s with jobs := s.jobs.delete r.id, etag := none } i).Sound
      have hf : Frame s { s with jobs := s.jobs.delete r.id, etag := none } r.id :=
        { Frame.refl s r.id with
          jobs := fun j hj => by rw [OrderedMap.get_delete, if_neg hj] }
      refine h.leave hr hf h.quiet fun _ => ⟨?_, ?_, hruns⟩
      · intro t ht
        have hsome : (s.jobs.delete r.id).get r.id = some t := ht
        rw [OrderedMap.get_delete, if_pos rfl] at hsome
        cases hsome
      · rintro (hlisted | hway)
        · exact absurd hlisted (h.gone r.id (haccepted rfl))
        · rw [onWay_leave (s := { s with jobs := s.jobs.delete r.id, etag := none }) hpoll] at hway
          cases hway
  | false =>
      show ((s.modifyTask r.id r.attached fun t =>
        { t with nextTryAt := s.now + resendMs }).leave i).Sound
      have hget := get_modifyTask s r.id r.attached
        fun t => { t with nextTryAt := s.now + resendMs }
      refine h.leave hr (.modifyTask s r.id r.attached _) h.quiet fun hfresh => ⟨?_, ?_, hruns⟩
      · intro t ht hnone
        by_cases hatt : r.attached = true
        · obtain ⟨t', ht', hne⟩ := h.attached r (List.mem_of_getElem? hr) hatt
          rw [if_pos hatt, ht'] at hget
          obtain rfl := Option.some.inj (hget.symm.trans ht)
          exact absurd hnone (hne hfinal)
        · have hdet := h.detached r (List.mem_of_getElem? hr) (Bool.eq_false_iff.2 hatt)
          rw [if_neg hatt, hdet] at hget
          have hsome : none = some t := hget.symm.trans ht
          cases hsome
      · rintro (hlisted | hway)
        · by_cases hatt : r.attached = true
          · obtain ⟨t', ht', hne⟩ := h.attached r (List.mem_of_getElem? hr) hatt
            rw [if_pos hatt, ht'] at hget
            exact .inr (.inl ⟨{ t' with nextTryAt := s.now + resendMs }, hget, hne hfinal⟩)
          · exact absurd hlisted (hkept rfl (Bool.eq_false_iff.2 hatt) hfresh)
        · rw [onWay_leave (s := s.modifyTask _ _ _) hpoll] at hway
          cases hway

/-- The run of a job that has not been printed ends without it. -/
theorem Sound.leave_early (h : s.Sound) (hr : s.runs[i]? = some r)
    (hnew : r.awaits.isPrinted = false) (hf : Frame s u r.id) (hquiet : u.PrintedOnce)
    (hprinted : u.printed = s.printed) : (u.leave i).Sound := by
  refine h.leave hr hf hquiet fun hfresh => ?_
  exact absurd ((fresh_congr hf.now (congrArg (fun m => m.get r.id) hprinted)).1 hfresh)
    (h.not_fresh hr hnew)

/-- A run that watches the printer is still one of a printed job. -/
theorem Sound.goto_watch (h : s.Sound) (hr : s.runs[i]? = some r) {n : Option Nat}
    (hat : r.awaits = .printing n) : (s.goto i r .watch).Sound := by
  refine h.goto hr (.refl s r.id) h.quiet .watch
    ((h.owns hr).of_ne_final Awaited.noConfusion) fun hfresh => ?_
  have hg := h.guarded r.id hfresh
  refine ⟨hg.table, fun hl => ?_, ?_⟩
  · rcases hg.listed hl with hrec | hheld | ⟨q, hq, hid, hfinal⟩
    · exact .inl hrec
    · exact .inr (.inl hheld)
    · have hmem := List.mem_of_getElem? hr
      obtain rfl := List.inj_on_of_nodup_map h.distinct hq hmem hid
      rw [hat] at hfinal
      cases hfinal
  · intro q hq hid
    rw [eq_of_mem_set_of_key (f := Run.id) h.distinct hr hq hid]
    rfl

/-- Whatever a run is told. -/
theorem Sound.answer (h : s.Sound) (hr : s.runs[i]? = some r) {a : Answer}
    (hok : a = .posted false → r.awaits = .final → r.attached = false →
      s.Fresh r.id → r.id ∉ s.listed) {s' : PrintService ι}
    (hs : s.answer i r r.awaits a = some s') : s'.Sound := by
  cases hat : r.awaits with
  | file =>
      have hnew : r.awaits.isPrinted = false := by rw [hat]; rfl
      rw [hat] at hs
      cases a <;> cases hs
      · exact h.goto_early hr hnew Awaited.noConfusion
      · have hf : Frame s { s with jobs := s.jobs.delete r.id } r.id :=
          { Frame.refl s r.id with
            jobs := fun j hj => by rw [OrderedMap.get_delete, if_neg hj] }
        exact h.leave_early hr hnew hf h.quiet rfl
      · exact h.waitRun hr hnew
  | attributes =>
      have hnew : r.awaits.isPrinted = false := by rw [hat]; rfl
      rw [hat] at hs
      cases a with
      | accepting way =>
          cases way <;> cases hs
          · exact h.goto_early hr hnew Awaited.noConfusion
          · exact h.goto_early hr hnew Awaited.noConfusion
          · exact h.finishRun hr _
      | notAccepting =>
          cases hs
          exact h.waitRun hr hnew
      | _ => cases hs
  | waiting =>
      have hnew : r.awaits.isPrinted = false := by rw [hat]; rfl
      rw [hat] at hs
      cases a <;> cases hs
      exact h.leave_early hr hnew (.refl s r.id) h.quiet rfl
  | converting again =>
      have hnew : r.awaits.isPrinted = false := by rw [hat]; rfl
      rw [hat] at hs
      cases a <;> cases hs
      exact h.goto_early hr hnew Awaited.noConfusion
  | conversion again =>
      have hnew : r.awaits.isPrinted = false := by rw [hat]; rfl
      rw [hat] at hs
      cases a with
      | converted parts =>
          cases again with
          | true =>
              cases hs
              exact h.sendParts hr (.refl s r.id) h.quiet (h.owns hr) true true none
                (fun _ => h.not_fresh hr hnew) fun hfresh => absurd hfresh (h.not_fresh hr hnew)
          | false =>
              cases hs
              exact h.goto_early hr hnew Awaited.noConfusion
      | notConverted e =>
          cases hs
          exact h.finishRun hr _
      | _ => cases hs
  | sending plan parts =>
      have hnew : r.awaits.isPrinted = false := by rw [hat]; rfl
      rw [hat] at hs
      cases a <;> cases hs
      exact h.sendParts hr (.refl s r.id) h.quiet (h.owns hr) plan false none
        (fun _ => h.not_fresh hr hnew) fun hfresh => absurd hfresh (h.not_fresh hr hnew)
  | print plan again part parts =>
      have hnew : r.awaits.isPrinted = false := by rw [hat]; rfl
      rw [hat] at hs
      cases a with
      | status code ippJobId other =>
          cases hs
          exact h.answerPart hr hnew plan again part parts code ippJobId other
      | unreachable =>
          simp only [PrintService.answer] at hs
          split at hs <;> cases hs
          · exact h.finishRun hr _
          · exact h.waitRun hr hnew
      | _ => cases hs
  | printing ippJobId =>
      rw [hat] at hs
      cases a with
      | posted ok =>
          cases ippJobId with
          | some n =>
              cases hs
              exact h.goto_watch hr hat
          | none =>
              cases hs
              exact h.finishRun hr _
      | _ => cases hs
  | watch =>
      rw [hat] at hs
      cases a <;> cases hs
      exact h.finishRun hr _
  | final =>
      rw [hat] at hs
      cases a with
      | posted ok =>
          simp only [PrintService.answer] at hs
          split at hs
          · next haccepted =>
              cases hs
              exact h.finalPosted hr hat haccepted fun hfail hdet hfresh =>
                hok (congrArg Answer.posted hfail) hat hdet hfresh
          · cases hs
      | _ => cases hs

end Run

end PrintService

end Print
end GateControl
