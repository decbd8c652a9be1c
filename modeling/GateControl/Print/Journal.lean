import GateControl.Print.Guards

/-!
# Journal — no job is printed twice

A poll starts the jobs that are neither in the journal nor have their final state; none of them has
been printed.  So a job is not printed twice in a run in which no step forgets one that has been
printed.
-/

namespace GateControl
namespace Print

open Library

namespace PrintService

variable {ι : Type} [DecidableEq ι] {s u : PrintService ι} {id : ι}

/-! ## The steps of a poll -/

section Poll

variable {rs : List (Run ι)}

/-- A run begins. -/
theorem Sound.addRun (h : s.Sound) (hf : Frame s u id) (hpoll : s.poll = .working)
    (hid : id ∈ s.used) (hnew : ∀ r ∈ s.runs, r.id ≠ id) (hquiet : u.PrintedOnce)
    {awaits : Awaited} (howns : u.Owns ⟨id, true, awaits⟩)
    (hguard : u.Fresh id → (u.addRun id awaits).Guards id) : (u.addRun id awaits).Sound := by
  have hrs : ∀ q : Run ι, q.id ≠ id → (q ∈ s.runs ++ [⟨id, true, awaits⟩] ↔ q ∈ s.runs) := by
    intro q hq
    rw [List.mem_append, List.mem_singleton, or_iff_left]
    rintro rfl
    exact hq rfl
  have hmine : ∀ q ∈ s.runs ++ [⟨id, true, awaits⟩], q.id = id → u.Owns q := by
    intro q hq hqid
    rcases List.mem_append.1 hq with hold | hlast
    · exact absurd hqid (hnew q hold)
    · obtain rfl := List.mem_singleton.1 hlast
      exact howns
  have hdistinct : ((s.runs ++ [Run.mk id true awaits]).map Run.id).Nodup := by
    rw [List.map_append]
    refine List.nodup_append.2 ⟨h.distinct, List.nodup_singleton _, ?_⟩
    intro j hj k hk heq
    rcases List.mem_map.1 hj with ⟨r, hr, rfl⟩
    exact hnew r hr (heq.trans (List.mem_singleton.1 hk))
  have hsame : u.addRun id awaits =
      { u with runs := s.runs ++ [⟨id, true, awaits⟩], poll := u.poll } := by
    rw [PrintService.addRun, hf.runs]
  rw [hsame] at hguard ⊢
  exact h.frame hf hpoll hid hquiet (.inl (hf.poll.trans hpoll)) hrs hdistinct hmine hguard

omit [DecidableEq ι] in
/-- The run that begins is the only one of its job. -/
theorem addRun_printed (hruns : u.runs = s.runs) (hnew : ∀ r ∈ s.runs, r.id ≠ id) {awaits : Awaited}
    (hprinted : awaits.isPrinted = true) :
    ∀ r ∈ (u.addRun id awaits).runs, r.id = id → r.awaits.isPrinted = true := by
  intro r hr hid
  rcases List.mem_append.1 hr with hold | hlast
  · exact absurd hid (hnew r (hruns ▸ hold))
  · rw [List.mem_singleton.1 hlast]
    exact hprinted

theorem Sound.startFinished (h : s.Sound) (hpoll : s.poll = .working) (hid : id ∈ s.used)
    (hnew : ∀ r ∈ s.runs, r.id ≠ id) {t : Task} (ht : s.jobs.get id = some t) (final : Final) :
    ((s.finish id true final).addRun id .final).Sound := by
  have hget : (s.finish id true final).jobs.get id = some { t with final := some final } := by
    have hmodify := get_modifyTask s id true fun t => { t with final := some final }
    rw [if_pos rfl, ht] at hmodify
    exact hmodify
  have hf := Frame.finish s id true final
  refine h.addRun hf hpoll hid hnew h.quiet ⟨fun _ => ⟨_, hget, fun _ => Option.some_ne_none _⟩,
    fun hdet => by cases hdet⟩ fun _ => ⟨?_, ?_, addRun_printed hf.runs hnew rfl⟩
  · intro t' ht' hnone
    obtain rfl := Option.some.inj (hget.symm.trans ht')
    cases hnone
  · exact fun _ => .inr (.inl ⟨_, hget, Option.some_ne_none _⟩)

/-- A job that is neither in the journal nor has its final state has not been printed. -/
theorem Sound.unprinted (h : s.Sound) (hpoll : s.poll = .working) {t : Task}
    (ht : s.jobs.get id = some t) (hnone : t.final = none) (hjournal : s.journal.get id = none) :
    ¬ s.Fresh id := by
  intro hfresh
  obtain ⟨v, hv, _⟩ := (h.guarded id hfresh).table t ht hnone
  have hsome := h.restored_of_poll (by rw [hpoll]; exact fun hw => by cases hw) id v hv
  rw [hjournal] at hsome
  cases hsome

theorem Sound.startRun (h : s.Sound) (hpoll : s.poll = .working) (hid : id ∈ s.used)
    (hnew : ∀ r ∈ s.runs, r.id ≠ id) {t : Task} (ht : s.jobs.get id = some t)
    (hnone : t.final = none) (start : Start) : (s.startRun id start).Sound := by
  unfold PrintService.startRun
  split
  · exact h.startFinished hpoll hid hnew ht _
  · next hjournal =>
      have hnot := h.unprinted hpoll ht hnone hjournal
      cases start with
      | busy => exact h
      | notFound =>
          have hget := get_modifyTask s id true fun t => { t with nextTryAt := s.now + retryMs }
          rw [if_pos rfl, ht] at hget
          exact h.addRun (.wait s id true) hpoll hid hnew h.quiet
            ⟨fun _ => ⟨_, hget, fun hfinal => by cases hfinal⟩, fun hdet => by cases hdet⟩
            fun hfresh => absurd hfresh hnot
      | notAPrinter => exact h.startFinished hpoll hid hnew ht _
      | notAllowed => exact h.startFinished hpoll hid hnew ht _
      | unsupported => exact h.startFinished hpoll hid hnew ht _
      | go loaded =>
          refine h.addRun (.refl s id) hpoll hid hnew h.quiet
            ⟨fun _ => ⟨t, ht, ?_⟩, fun hdet => by cases hdet⟩ fun hfresh => absurd hfresh hnot
          intro hfinal
          cases loaded <;> cases hfinal

theorem Sound.startTask (h : s.Sound) (hpoll : s.poll = .working) (hid : id ∈ s.used)
    (hnew : ∀ r ∈ s.runs, r.id ≠ id) (start : ι → Start) :
    (PrintService.startTask start s id).Sound := by
  unfold PrintService.startTask
  split
  · next t ht =>
      split
      · exact h
      · split
        · next hsome =>
            have hne : t.final ≠ none := Option.isSome_iff_ne_none.1 hsome
            have hf : Frame s { s with posted := id :: s.posted } id :=
              { Frame.refl s id with posted := List.Subset.refl _ }
            refine h.addRun hf hpoll hid hnew h.quiet
              ⟨fun _ => ⟨t, ht, fun _ => hne⟩, fun hdet => by cases hdet⟩ fun hfresh =>
                ⟨(h.guarded id hfresh).table, fun _ => .inr (.inl ⟨t, ht, hne⟩),
                  addRun_printed rfl hnew rfl⟩
        · next hsome =>
            have hnone : t.final = none := Option.not_isSome_iff_eq_none.1 hsome
            split
            · exact h
            · exact h.startRun hpoll hid hnew ht hnone _
  · exact h

/-- What a task that is started leaves as it is. -/
theorem startTask_frame (start : ι → Start) (s : PrintService ι) (id : ι) :
    (startTask start s id).poll = s.poll ∧ (startTask start s id).used = s.used ∧
      ∀ r ∈ (startTask start s id).runs, r ∈ s.runs ∨ r.id = id := by
  -- a run is only added, whatever it awaits
  have hadd : ∀ (u : PrintService ι) awaits, u.runs = s.runs →
      ∀ r ∈ (u.addRun id awaits).runs, r ∈ s.runs ∨ r.id = id := by
    intro u awaits hu r hr
    rcases List.mem_append.1 hr with hold | hlast
    · exact .inl (hu ▸ hold)
    · rw [List.mem_singleton.1 hlast]
      exact .inr rfl
  have hsame : ∀ r ∈ s.runs, r ∈ s.runs ∨ r.id = id := fun r hr => .inl hr
  unfold startTask
  split
  · split
    · exact ⟨rfl, rfl, hsame⟩
    · split
      · exact ⟨rfl, rfl, hadd _ _ rfl⟩
      · split
        · exact ⟨rfl, rfl, hsame⟩
        · unfold startRun
          split
          · exact ⟨rfl, rfl, hadd _ _ rfl⟩
          · split
            · exact ⟨rfl, rfl, hsame⟩
            · exact ⟨rfl, rfl, hadd _ _ rfl⟩
            · exact ⟨rfl, rfl, hadd _ _ rfl⟩
            · exact ⟨rfl, rfl, hadd _ _ rfl⟩
            · exact ⟨rfl, rfl, hadd _ _ rfl⟩
            · exact ⟨rfl, rfl, hadd _ _ rfl⟩
  · exact ⟨rfl, rfl, hsame⟩

/-- The tasks are started one after another, each once. -/
theorem Sound.foldl_startTask (start : ι → Start) :
    ∀ (ids : List ι) (s : PrintService ι), s.Sound → s.poll = .working → ids ⊆ s.used →
      ids.Nodup → (∀ id ∈ ids, ∀ r ∈ s.runs, r.id ≠ id) →
        (ids.foldl (PrintService.startTask start) s).Sound ∧
          (ids.foldl (PrintService.startTask start) s).poll = .working
  | [], _, h, hpoll, _, _, _ => ⟨h, hpoll⟩
  | id :: ids, s, h, hpoll, hused, hnodup, hnew => by
      obtain ⟨hpoll', hused', hruns⟩ := startTask_frame start s id
      obtain ⟨hid, hids⟩ := List.nodup_cons.1 hnodup
      refine Sound.foldl_startTask start ids _
        (h.startTask hpoll (hused List.mem_cons_self) (hnew id List.mem_cons_self) start)
        (hpoll'.trans hpoll) ?_ hids ?_
      · exact hused' ▸ fun j hj => hused (List.mem_cons_of_mem _ hj)
      · intro j hj r hr heq
        rcases hruns r hr with hold | hnow
        · exact hnew j (List.mem_cons_of_mem _ hj) r hold heq
        · exact hid (hnow.symm.trans heq ▸ hj)

/-- A poll goes on without runs. -/
theorem Sound.setPoll (h : s.Sound) (hruns : s.runs = []) {p : Poll ι} (etag : Option Text)
    (hp : ∀ ids, p ≠ .answering ids) (hr : p = .idle ∨ s.Restored) :
    Sound { s with poll := p, etag := etag } := by
  -- no list is on its way
  have hway : onWay { s with poll := p, etag := etag } = [] := by
    cases p with
    | answering ids => exact absurd rfl (hp ids)
    | _ => rfl
  refine { h with
    known := ?_
    complete := fun _ _ _ ids hids => absurd hids (hp ids)
    working := fun hne => absurd hruns hne
    restored := ?_
    guarded := ?_ }
  · intro j hj
    apply h.known
    rw [mem_mentioned] at hj ⊢
    rw [hway] at hj
    rcases hj with hj | hj | hj
    · exact .inl hj
    · cases hj
    · exact .inr (.inr hj)
  · rintro (henabled | hne)
    · exact h.restored (.inl henabled)
    · rcases hr with hidle | hr
      · exact absurd hidle hne
      · exact hr
  · intro j hfresh
    have hg := h.guarded j hfresh
    refine ⟨hg.table, ?_, hg.runs⟩
    rintro (hl | hl)
    · exact hg.listed (.inl hl)
    · rw [hway] at hl
      cases hl

theorem Sound.settle (h : s.Sound) : s.settle.Sound := by
  by_cases hnil : s.runs = []
  · rw [PrintService.settle, if_pos hnil]
    exact h.setPoll hnil s.etag (fun _ hids => by cases hids) (.inl rfl)
  · rw [PrintService.settle, if_neg hnil]
    exact h

theorem Sound.dispatch (h : Sound { s with poll := .working }) (hruns : s.runs = [])
    (start : ι → Start) : (s.dispatch start).Sound := by
  refine (Sound.foldl_startTask start s.jobs.keys _ h rfl ?_ s.jobs.nodup ?_).1.settle
  · intro j hj
    exact h.known (mem_mentioned.2 (.inr (.inr (.inl hj))))
  · intro j _ r hr
    have hnil : r ∈ ([] : List (Run ι)) := hruns ▸ hr
    cases hnil

/-- After a list the table has the jobs in it, those that it had as they were. -/
theorem get_merge (ids : List ι) (etag : Option Text) (j : ι) :
    (s.merge ids etag).jobs.get j =
      if j ∈ ids then some ((s.jobs.get j).getD ⟨0, none⟩) else none := by
  -- a job that is new to the table gets an entry, the others keep theirs
  have hfold : ∀ (ids : List ι) (m : OrderedMap ι Task),
      (ids.foldl (fun m id => if m.has id then m else m.set id ⟨0, none⟩) m).get j =
        if j ∈ ids then some ((m.get j).getD ⟨0, none⟩) else m.get j := by
    intro ids
    induction ids with
    | nil =>
        intro m
        rfl
    | cons id ids ih =>
        intro m
        rw [List.foldl_cons, ih]
        by_cases hj : j = id
        · subst hj
          by_cases hhas : m.has j
          · obtain ⟨t, ht⟩ := Option.isSome_iff_exists.1 hhas
            simp [hhas, ht]
          · have hnone : m.get j = none := Option.not_isSome_iff_eq_none.1 hhas
            simp [hhas, hnone]
        · have hget : (if m.has id then m else m.set id ⟨0, none⟩).get j = m.get j := by
            split
            · rfl
            · exact OrderedMap.get_set_ne m hj _
          simp [hget, hj]
  -- what is not in the list any more has left the table
  have hkept : ∀ t, (s.jobs.filter fun id _ => decide (id ∈ ids)).get j = some t ↔
      s.jobs.get j = some t ∧ j ∈ ids := by
    intro t
    rw [OrderedMap.get_filter, decide_eq_true_iff]
  rw [merge, hfold]
  by_cases hj : j ∈ ids
  · have heq : (s.jobs.filter fun id _ => decide (id ∈ ids)).get j = s.jobs.get j := by
      apply Option.ext
      intro t
      rw [hkept t, and_iff_left hj]
    rw [if_pos hj, if_pos hj, heq]
  · rw [if_neg hj, if_neg hj]
    apply Option.eq_none_iff_forall_ne_some.2
    intro t ht
    exact hj ((hkept t).1 ht).2

/-- A printed job that is on the list goes on being guarded. -/
theorem Sound.merge_guards (h : s.Sound) {ids : List ι} (hpoll : s.poll = .answering ids)
    (hruns : s.runs = []) (etag : Option Text) {j : ι} (hfresh : s.Fresh j)
    (hok : j ∈ ids → j ∈ ids.take listMax ∨ s.Recorded j) :
    Guards { s.merge (ids.take listMax) etag with poll := .working } j := by
  have hway : s.onWay = ids := by rw [onWay, hpoll]
  have hidle : ∀ r, r ∉ s.runs := by
    intro r hr
    rw [hruns] at hr
    cases hr
  have hnone : ¬ s.Ending j := by
    rintro ⟨r, hr, _⟩
    exact hidle r hr
  have hsub : ids.take listMax ⊆ s.onWay := hway ▸ List.take_subset _ _
  have hg := h.guarded j hfresh
  refine ⟨?_, ?_, ?_⟩
  · intro t ht hfinal
    have hget : (s.merge (ids.take listMax) etag).jobs.get j = some t := ht
    rw [get_merge] at hget
    split at hget
    · next hmem =>
        cases hold : s.jobs.get j with
        | some t' =>
            rw [hold] at hget
            obtain rfl := Option.some.inj hget
            exact hg.table t' hold hfinal
        | none =>
            -- a new task: the job is still in the journal
            rcases hg.listed (.inr (hsub hmem)) with hrec | ⟨t', ht', _⟩ | hending
            · exact hrec
            · rw [hold] at ht'
              cases ht'
            · exact absurd hending hnone
    · cases hget
  · rintro (hl | hl)
    · have hkey : j ∈ s.printed.keys := by
        obtain ⟨t, ht, _⟩ := hfresh
        exact (OrderedMap.mem_keys_iff _).2 ⟨t, ht⟩
      have hmem : j ∈ ids := h.complete j hkey hl ids hpoll
      rcases hok hmem with htaken | hrec
      · rcases hg.listed (.inl hl) with hrec | ⟨t, ht, hne⟩ | hending
        · exact .inl hrec
        · refine .inr (.inl ⟨t, ?_, hne⟩)
          show (s.merge (ids.take listMax) etag).jobs.get j = some t
          rw [get_merge, if_pos htaken, Option.mem_def.1 ht]
          rfl
        · exact absurd hending hnone
      · exact .inl hrec
    · cases hl
  · exact fun r hr => absurd hr (hidle r)

/-- A list that leaves out no job that matters. -/
theorem Sound.merge (h : s.Sound) {ids : List ι} (hpoll : s.poll = .answering ids)
    (etag : Option Text)
    (hok : ∀ id ∈ ids, s.Fresh id → id ∈ ids.take listMax ∨ s.Recorded id) :
    Sound { s.merge (ids.take listMax) etag with poll := .working } := by
  have hwaits : s.poll ≠ .working := by
    rw [hpoll]
    exact fun hw => by cases hw
  have hruns := h.no_runs hwaits
  have hidle : ∀ r, r ∉ s.runs := by
    intro r hr
    rw [hruns] at hr
    cases hr
  refine
    { quiet := h.quiet
      known := ?_
      gone := h.gone
      complete := fun _ _ _ _ hids => by cases hids
      distinct := h.distinct
      working := fun _ => rfl
      attached := fun r hr => absurd hr (hidle r)
      detached := fun r hr => absurd hr (hidle r)
      restored := fun _ => h.restored_of_poll (by rw [hpoll]; exact fun hw => by cases hw)
      guarded := fun j hfresh =>
        h.merge_guards hpoll hruns etag hfresh fun hmem => hok j hmem hfresh }
  intro j hj
  apply h.known
  rw [mem_mentioned] at hj ⊢
  rcases hj with hj | hj | hj | hj
  · exact .inl hj
  · cases hj
  · obtain ⟨t, ht⟩ := (OrderedMap.mem_keys_iff _).1 hj
    have hget : (s.merge (ids.take listMax) etag).jobs.get j = some t := ht
    rw [get_merge] at hget
    split at hget
    · next hmem =>
        -- the jobs of the list were on the way
        have hway : s.onWay = ids := by rw [onWay, hpoll]
        exact .inr (.inl (hway ▸ List.take_subset _ _ hmem))
    · cases hget
  · exact .inr (.inr (.inr hj))

end Poll

/-! ## Whole runs -/

/-- The server takes a job off its list, or nobody does anything: what is guarded stays guarded. -/
theorem Guards.mono {j : ι} (h : s.Guards j) (hjobs : u.jobs = s.jobs)
    (hstored : u.stored = s.stored) (hprinted : u.printed = s.printed) (hruns : u.runs = s.runs)
    (hlisted : j ∈ u.listed ∨ j ∈ u.onWay → j ∈ s.listed ∨ j ∈ s.onWay) : u.Guards j := by
  have hrec : u.Recorded j ↔ s.Recorded j :=
    recorded_congr hstored (congrArg (fun m => m.get j) hprinted)
  refine ⟨?_, ?_, ?_⟩
  · intro t ht hnone
    exact hrec.2 (h.table t (hjobs ▸ ht) hnone)
  · intro hl
    rcases h.listed (hlisted hl) with hr | ⟨t, ht, hne⟩ | ⟨r, hr, hid, hfinal⟩
    · exact .inl (hrec.2 hr)
    · exact .inr (.inl ⟨t, hjobs ▸ ht, hne⟩)
    · exact .inr (.inr ⟨r, hruns ▸ hr, hid, hfinal⟩)
  · exact fun r hr => h.runs r (hruns ▸ hr)

theorem new_sound : (new : PrintService ι).Sound where
  quiet := rfl
  known := fun _ hj => by cases hj
  gone := fun _ hj => by cases hj
  complete := fun _ hj => by cases hj
  distinct := List.nodup_nil
  working := fun hne => absurd rfl hne
  attached := fun _ hr => by cases hr
  detached := fun _ hr => by cases hr
  restored := fun _ _ _ hv => by cases hv
  guarded := by
    rintro j ⟨t, ht, _⟩
    cases ht

theorem Sound.submit (h : s.Sound) (hid : id ∉ s.used) :
    Sound { s with listed := s.listed ++ [id], used := id :: s.used } := by
  -- the id is new to the server and to the service
  have hold : ∀ j ∈ s.mentioned, j ≠ id := by
    rintro j hj rfl
    exact hid (h.known hj)
  refine { h with known := ?_, gone := ?_, complete := ?_, guarded := ?_ }
  · intro j hj
    rw [mem_mentioned] at hj
    rcases hj with hj | hj
    · rcases List.mem_append.1 hj with hj | hj
      · exact List.mem_cons_of_mem _ (h.known (mem_mentioned.2 (.inl hj)))
      · exact List.mem_cons.2 (.inl (List.mem_singleton.1 hj))
    · exact List.mem_cons_of_mem _ (h.known (mem_mentioned.2 (.inr hj)))
  · intro j hj hl
    rcases List.mem_append.1 hl with hl | hl
    · exact h.gone j hj hl
    · exact hold j (by simp [mentioned, hj]) (List.mem_singleton.1 hl)
  · intro j hj hl ids hids
    rcases List.mem_append.1 hl with hl | hl
    · exact h.complete j hj hl ids hids
    · exact absurd (List.mem_singleton.1 hl) (hold j (by simp [mentioned, hj]))
  · intro j hfresh
    have hkey : j ∈ s.printed.keys := by
      obtain ⟨t, ht, _⟩ := hfresh
      exact (OrderedMap.mem_keys_iff _).2 ⟨t, ht⟩
    refine (h.guarded j hfresh).mono rfl rfl rfl rfl ?_
    rintro (hl | hl)
    · rcases List.mem_append.1 hl with hl | hl
      · exact .inl hl
      · exact absurd (List.mem_singleton.1 hl) (hold j (by simp [mentioned, hkey]))
    · exact .inr hl

/-- The server takes a job off its list; it may have accepted its final state. -/
theorem Sound.unlist (h : s.Sound) (id : ι) {accepted : List ι}
    (hsub : ∀ j ∈ accepted, j = id ∧ j ∈ s.posted ∨ j ∈ s.accepted) :
    Sound { s with listed := s.listed.filter fun x => x ≠ id, accepted := accepted } := by
  -- the list only gets shorter
  have hless : ∀ j, j ∈ s.listed.filter (fun x => x ≠ id) → j ∈ s.listed ∧ j ≠ id := by
    intro j hj
    obtain ⟨hmem, hne⟩ := List.mem_filter.1 hj
    exact ⟨hmem, of_decide_eq_true hne⟩
  refine { h with known := ?_, gone := ?_, complete := ?_, guarded := ?_ }
  · intro j hj
    apply h.known
    rw [mem_mentioned] at hj ⊢
    rcases hj with hj | hj | hj | hj | hj | hj | hj
    · exact .inl (hless j hj).1
    · exact .inr (.inl hj)
    · exact .inr (.inr (.inl hj))
    · exact .inr (.inr (.inr (.inl hj)))
    · exact .inr (.inr (.inr (.inr (.inl hj))))
    · rcases hsub j hj with ⟨_, hposted⟩ | hold
      · exact .inr (.inr (.inr (.inr (.inl hposted))))
      · exact .inr (.inr (.inr (.inr (.inr (.inl hold)))))
    · exact .inr (.inr (.inr (.inr (.inr (.inr hj)))))
  · intro j hj hl
    rcases hsub j hj with ⟨hid, _⟩ | hold
    · exact (hless j hl).2 hid
    · exact h.gone j hold (hless j hl).1
  · exact fun j hj hl => h.complete j hj (hless j hl).1
  · intro j hfresh
    exact (h.guarded j hfresh).mono rfl rfl rfl rfl (Or.imp_left fun hl => (hless j hl).1)

theorem Sound.list (h : s.Sound) (hpoll : s.poll = .asking) {ids : List ι} (hsub : ids ⊆ s.listed)
    (hall : s.listed ⊆ ids) : Sound { s with poll := .answering ids } := by
  have hruns := h.no_runs (by rw [hpoll]; exact fun hw => by cases hw)
  refine { h with known := ?_, complete := ?_, working := fun hne => absurd hruns hne,
                  restored := ?_, guarded := ?_ }
  · intro j hj
    apply h.known
    rw [mem_mentioned] at hj ⊢
    rcases hj with hj | hj | hj
    · exact .inl hj
    · exact .inl (hsub hj)
    · exact .inr (.inr hj)
  · rintro j _ hl ids' hids
    cases hids
    exact hall hl
  · exact fun _ => h.restored_of_poll (by rw [hpoll]; exact fun hw => by cases hw)
  · intro j hfresh
    refine (h.guarded j hfresh).mono rfl rfl rfl rfl ?_
    rintro (hl | hl)
    · exact .inl hl
    · exact .inl (hsub hl)

theorem Sound.wait (h : s.Sound) (ms : Nat) : Sound { s with now := s.now + ms } := by
  refine { h with guarded := ?_ }
  rintro j ⟨t, ht, hnow⟩
  have hfresh : s.Fresh j := ⟨t, ht, Nat.le_trans (Nat.le_add_right _ _) hnow⟩
  exact (h.guarded j hfresh).mono rfl rfl rfl rfl id

/-- The journal is read again. -/
theorem Sound.restore (h : s.Sound) : Sound { s.restore with enabled := true } := by
  refine { h with restored := ?_, guarded := ?_ }
  · intro _ j v hv
    have hget : s.restore.journal.get j = (s.stored.get j).or (s.journal.get j) :=
      OrderedMap.get_foldl_set s.stored.nodup s.journal j
    rw [show s.stored.get j = some v from hv] at hget
    exact hget
  · exact fun j hfresh => (h.guarded j hfresh).mono rfl rfl rfl rfl id

/-- The table is emptied: the journal or a post remembers what was printed. -/
theorem Sound.shutdown (h : s.Sound) (henabled : s.enabled = true)
    (hok : ∀ id ∈ s.listed ++ s.onWay, s.Fresh id → s.Recorded id ∨ s.Ending id) :
    s.shutdown.Sound := by
  -- the runs go on, without the table
  have hids : s.shutdown.runs.map Run.id = s.runs.map Run.id := by
    simp [PrintService.shutdown, Function.comp_def]
  have hruns : ∀ r ∈ s.shutdown.runs, ∃ q ∈ s.runs, r = { q with attached := false } := by
    intro r hr
    rcases List.mem_map.1 hr with ⟨q, hq, rfl⟩
    exact ⟨q, hq, rfl⟩
  refine
    { quiet := h.quiet
      known := ?_
      gone := h.gone
      complete := h.complete
      distinct := hids ▸ h.distinct
      working := fun hne => h.working fun hnil => hne (List.map_eq_nil_iff.2 hnil)
      attached := ?_
      detached := fun _ _ _ => rfl
      restored := fun _ _ _ hv => hv
      guarded := ?_ }
  · intro j hj
    apply h.known
    rw [mem_mentioned] at hj ⊢
    rcases hj with hj | hj | hj | hj | hj
    · exact .inl hj
    · exact .inr (.inl hj)
    · cases hj
    · exact .inr (.inr (.inr (.inl (hids ▸ hj))))
    · exact .inr (.inr (.inr (.inr hj)))
  · intro r hr hatt
    obtain ⟨q, _, rfl⟩ := hruns r hr
    cases hatt
  · intro j (hfresh : s.Fresh j)
    refine ⟨fun t ht => (by cases ht), ?_, ?_⟩
    · intro hl
      have hmem : j ∈ s.listed ++ s.onWay := List.mem_append.2 hl
      -- it is in the journal, or a run is about to post its final state
      rcases hok j hmem hfresh with hrec | ⟨r, hr, hid, hfinal⟩
      · exact .inl (recorded_store (h.restored (.inl henabled)) rfl hfresh hrec)
      · exact .inr (.inr ⟨{ r with attached := false }, List.mem_map_of_mem hr, hid, hfinal⟩)
    · intro r hr hid
      obtain ⟨q, hq, rfl⟩ := hruns r hr
      exact (h.guarded j hfresh).runs q hq hid

/-- A restart leaves the file: it has what was printed. -/
theorem Sound.restarted (h : s.Sound) (hok : ∀ id ∈ s.listed, s.Fresh id → s.Recorded id) :
    s.restarted.Sound := by
  refine
    { quiet := h.quiet
      known := ?_
      gone := h.gone
      complete := fun _ _ _ _ hids => by cases hids
      distinct := List.nodup_nil
      working := fun hne => absurd rfl hne
      attached := fun _ hr => by cases hr
      detached := fun _ hr => by cases hr
      restored := ?_
      guarded := ?_ }
  · intro j hj
    apply h.known
    rw [mem_mentioned] at hj ⊢
    rcases hj with hj | hj | hj | hj | hj
    · exact .inl hj
    · cases hj
    · cases hj
    · cases hj
    · exact .inr (.inr (.inr (.inr hj)))
  · rintro (henabled | hne)
    · -- a service that was just started is not enabled
      cases henabled
    · exact absurd rfl hne
  · intro j hfresh
    refine ⟨fun t ht => (by cases ht), ?_, fun r hr => (by cases hr)⟩
    rintro (hl | hl)
    · -- what is still listed was recorded
      exact .inl (hok j hl hfresh)
    · cases hl

theorem Sound.step (h : s.Sound) {a : Action ι} {s' : PrintService ι} (hok : s.Remembering a)
    (hs : s.step a = some s') : s'.Sound := by
  cases a with
  | submit id =>
      simp only [PrintService.step, Option.ite_none_left_eq_some] at hs
      obtain ⟨hid, hs⟩ := hs
      cases hs
      exact h.submit hid
  | withdraw id =>
      cases hs
      exact h.unlist id fun j hj => .inr hj
  | accept id =>
      simp only [PrintService.step, Option.ite_none_right_eq_some] at hs
      obtain ⟨hposted, hs⟩ := hs
      cases hs
      refine h.unlist id ?_
      intro j hj
      rcases List.mem_cons.1 hj with rfl | hj
      · exact .inl ⟨rfl, hposted⟩
      · exact .inr hj
  | list ids =>
      simp only [PrintService.step] at hs
      split at hs
      · -- a list comes only while one is asked for
        next hpoll =>
          simp only [Option.ite_none_right_eq_some] at hs
          obtain ⟨⟨hsub, hall⟩, hs⟩ := hs
          cases hs
          exact h.list hpoll hsub hall
      · cases hs
  | wait ms =>
      cases hs
      exact h.wait ms
  | enable =>
      simp only [PrintService.step] at hs
      split at hs <;> cases hs
      · exact h
      · exact h.restore
  | disable =>
      simp only [PrintService.step] at hs
      split at hs <;> cases hs
      · next henabled => exact h.shutdown henabled (hok henabled)
      · exact h
  | restart =>
      cases hs
      exact h.restarted hok
  | poll =>
      simp only [PrintService.step] at hs
      split at hs
      · next hpoll =>
          -- a poll begins only when no run is under way
          have hruns := h.no_runs (by rw [hpoll]; exact fun hw => by cases hw)
          split at hs <;> cases hs
          · next henabled =>
              exact h.setPoll hruns s.etag (fun _ hids => by cases hids)
                (.inr (h.restored (.inl henabled)))
          · exact h
      · cases hs
        exact h
  | listFailed =>
      simp only [PrintService.step] at hs
      split at hs
      · next hpoll =>
          cases hs
          exact h.setPoll (h.no_runs (by rw [hpoll]; exact fun hw => by cases hw)) none
            (fun _ hids => by cases hids) (.inl rfl)
      · next hpoll =>
          cases hs
          exact h.setPoll (h.no_runs (by rw [hpoll]; exact fun hw => by cases hw)) none
            (fun _ hids => by cases hids) (.inl rfl)
      · cases hs
  | unchanged start =>
      simp only [PrintService.step] at hs
      split at hs
      · next hpoll =>
          have hruns := h.no_runs (by rw [hpoll]; exact fun hw => by cases hw)
          simp only [Option.ite_none_right_eq_some] at hs
          obtain ⟨_, hs⟩ := hs
          cases hs
          refine Sound.dispatch ?_ hruns start
          exact h.setPoll hruns s.etag (fun _ hids => by cases hids)
            (.inr (h.restored_of_poll (by rw [hpoll]; exact fun hw => by cases hw)))
      · cases hs
  | changed etag start =>
      simp only [PrintService.step] at hs
      split at hs
      · next ids hpoll =>
          have hruns := h.no_runs (by rw [hpoll]; exact fun hw => by cases hw)
          have hway : s.onWay = ids := by rw [onWay, hpoll]
          cases hs
          exact Sound.dispatch (h.merge hpoll etag (hway ▸ hok)) hruns start
      · cases hs
  | run i a =>
      simp only [PrintService.step] at hs
      split at hs
      · next r hr =>
          exact h.answer hr (fun ha hfinal hdet hfresh => hok ha r hr hfinal hdet hfresh) hs
      · cases hs

/-- No job is printed twice in a run in which no step forgets one that has been printed. -/
theorem jobs_printed_once (as : List (Action ι)) (hok : Admits step Remembering new as) :
    Throughout step PrintedOnce (new : PrintService ι) as :=
  throughout_of_admits (fun _ _ _ hi hok hs => Sound.step hi hok hs) (fun _ hi => hi.quiet)
    new_sound hok

/-- A poll that finds the printer of every job. -/
def polls (ids : List Nat) : List (Action Nat) :=
  [.poll, .list ids, .changed none fun _ => .go false]

/-- A run that prints in one part. -/
def prints : List (Action Nat) :=
  [.run 0 .loaded, .run 0 (.accepting .asIs), .run 0 (.posted true),
    .run 0 (.status 0 (some 42) false)]

/-- The process restarts while the printer is at work; the second process reports the job. -/
def restartedEarly : List (Action Nat) :=
  [.submit 1, .enable] ++ polls [1] ++ prints ++ [.run 0 (.posted true), .restart, .enable] ++
    polls [1] ++ [.run 0 (.posted false), .wait resendMs] ++ polls [1] ++
      [.accept 1, .run 0 (.posted true)] ++ polls []

theorem jobs_printed_once_restarted :
    (exec step new restartedEarly).isSome = true ∧
      Throughout step PrintedOnce new restartedEarly :=
  ⟨by decide +kernel, jobs_printed_once restartedEarly
    (admits_of_checkRun (fun _ _ h => of_decide_eq_true h)
      (show checkRun step (fun s a => decide (s.Remembering a)) new restartedEarly = true by
        decide +kernel))⟩

/-- The printer has finished, the server does not take the final state, and the process restarts. -/
def restartedLate : List (Action Nat) :=
  [.submit 1, .enable] ++ polls [1] ++ prints ++
    [.run 0 (.posted true), .run 0 (.ended (.done (some 42) false)), .run 0 (.posted false),
      .restart, .enable] ++ polls [1] ++ prints

theorem job_printed_twice :
    ∃ s, exec step new restartedLate = some s ∧ ¬ s.PrintedOnce := by
  have hrun : (exec step new restartedLate).any (fun s => decide (s.again = [1])) = true := by
    decide +kernel
  rcases (Option.any_eq_true ..).1 hrun with ⟨s, hs, hagain⟩
  refine ⟨s, hs, fun honce => ?_⟩
  have hone : s.again = [1] := of_decide_eq_true hagain
  rw [PrintedOnce, hone] at honce
  cases honce

end PrintService

end Print
end GateControl
