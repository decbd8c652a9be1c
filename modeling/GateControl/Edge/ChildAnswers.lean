import GateControl.Edge.ChildCalls

/-!
# ChildAnswers — calls to a plugin over the processes it has had

Whatever the plugin sends, a call waits or is settled once, it waits for the process that is there,
and a plugin has one process at a time.  A plugin that does not send messages itself answers each
call with what its own handler came to.
-/

namespace GateControl
namespace Edge

open Library

namespace ChildCalls

open GatewayRpc (Outcome)

namespace System

variable (s : System)

/-! ## What is asked of a run -/

/-- A plugin that is to run has a process or the timer of the next one, and no other process. -/
structure Supervised : Prop where
  wanted : s.wanted = true → (s.child.isSome = true ↔ s.restart = false)
  unwanted : s.wanted = false → s.restart = false
  alone : ∀ k, s.alive k = true → s.child = some k
  newest : ∀ k, s.child = some k → k + 1 = s.procs.length

structure Correct : Prop where
  once : ∀ n c, (n, c) ∈ s.calls.calls.made →
    (s.calls.calls.settled.map Prod.fst).count n = if n ∈ s.calls.calls.pending then 0 else 1
  /-- A call is carried out at most once, by the process that was there. -/
  carriedOut : s.calls.jobIds.Nodup
  made : ∀ j ∈ s.calls.jobs, (j.id, j.req) ∈ s.calls.calls.made ∧ j.req.proc = j.wire
  answered : s.forged = false → ∀ n c r, (n, c) ∈ s.calls.calls.made →
    (n, .replied r) ∈ s.calls.calls.settled →
    ∃ j ∈ s.calls.jobs, j.id = n ∧ j.req = c ∧ j.answer = some r
  unsent : s.forged = false → ∀ n, (n, .failed .unsent) ∈ s.calls.calls.settled →
    n ∉ s.calls.jobIds
  waiting : ∀ n ∈ s.calls.calls.pending, ∃ c, (n, c) ∈ s.calls.calls.made ∧ s.child = some c.proc
  load : s.calls.calls.pending.length ≤ openCallsPerPlugin
  told : ∀ n a e, (n, a) ∈ s.calls.calls.settled → a.told = .error e →
    e.code.length ≤ 32 ∧ e.message.length ≤ 500
  supervised : s.Supervised

/-! ## What holds in every run -/

structure Sound : Prop where
  placed : s.calls.Placed
  honest : s.forged = false → s.calls.Honest Settlement.verdict
  sent : ∀ m ∈ s.calls.up, m.2.2.proc = m.1
  jobs : ∀ j ∈ s.calls.jobs, j.req.proc = j.wire
  waiting : ∀ n ∈ s.calls.calls.pending, ∃ c, (n, c) ∈ s.calls.calls.made ∧ s.child = some c.proc
  load : s.calls.calls.pending.length ≤ openCallsPerPlugin

variable {s} {t : System} {k i n : Nat} {p p' : Process} {o : Outcome}

theorem told_error {a : Settlement} {e : CallError} (h : a.told = .error e) :
    e.code.length ≤ 32 ∧ e.message.length ≤ 500 := by
  cases a with
  | failed why =>
      cases h
      cases why <;> decide
  | replied r =>
      cases r with
      | result v =>
          cases h
      | error code message =>
          cases h
          constructor
          · change ((code.map (List.take 32)).getD edgeError).length ≤ 32
            cases code with
            | none => decide
            | some code => exact List.length_take_le ..
          · change (if message = [] then _ else message.take 500).length ≤ 500
            split
            · decide
            · exact List.length_take_le ..

/-! ## Processes -/

theorem alive_iff : s.alive k = true ↔ ∃ p, s.procs[k]? = some p ∧ p.alive = true := by
  unfold alive proc
  cases s.procs[k]? with
  | none => simp
  | some p => simp

/-- A process is replaced by what it becomes, and none comes back to life. -/
theorem Supervised.setProc (h : s.Supervised) (hp : s.proc k = some p)
    (halive : p'.alive = true → p.alive = true) : (s.setProc k p').Supervised := by
  refine ⟨h.wanted, h.unwanted, fun k' hk' => h.alone k' ?_, fun k' hk' => ?_⟩
  · obtain ⟨q, hq, hlive⟩ := alive_iff.1 hk'
    rcases getElem?_set_cases hq with ⟨rfl, rfl⟩ | ⟨_, hold⟩
    · exact alive_iff.2 ⟨p, hp, halive hlive⟩
    · exact alive_iff.2 ⟨q, hold, hlive⟩
  · exact (h.newest k' hk').trans List.length_set.symm

theorem Supervised.modify (h : s.Supervised) (k : Nat) {f : Process → Process}
    (hf : ∀ p, (f p).alive = p.alive) :
    ({ s with procs := s.procs.modify k f } : System).Supervised := by
  refine ⟨h.wanted, h.unwanted, fun k' hk' => h.alone k' ?_, fun k' hk' => ?_⟩
  · obtain ⟨q, hq, hlive⟩ := alive_iff.1 hk'
    change (s.procs.modify k f)[k']? = some q at hq
    rw [List.getElem?_modify] at hq
    obtain ⟨p, hp, rfl⟩ := Option.map_eq_some_iff.1 hq
    refine alive_iff.2 ⟨p, hp, ?_⟩
    by_cases hk : k = k'
    · rw [if_pos hk] at hlive
      exact (hf p).symm.trans hlive
    · rw [if_neg hk] at hlive
      exact hlive
  · exact (h.newest k' hk').trans (List.length_modify ..).symm

theorem Supervised.dead (h : s.Supervised) (hnone : s.child = none) (k : Nat) :
    s.alive k = false := by
  by_contra hk
  have hchild := h.alone k (Bool.of_not_eq_false hk)
  rw [hnone] at hchild
  cases hchild

/-- The current process has ended, and no other is left. -/
theorem supervised_onExit (hunwanted : s.wanted = false → s.restart = false)
    (hdead : ∀ k, s.alive k = false) : s.onExit.Supervised := by
  have halone : ∀ {c}, ∀ k, s.alive k = true → c = some k := by
    intro c k hk
    rw [hdead k] at hk
    cases hk
  unfold System.onExit
  by_cases hw : s.wanted = true
  · rw [if_pos hw]
    refine ⟨fun _ => ⟨fun hc => (nomatch hc), fun hr => (nomatch hr)⟩, fun hn => ?_, halone,
      fun _ hc => (nomatch hc)⟩
    exact absurd (hw.symm.trans hn) Bool.true_eq_false.mp
  · rw [if_neg hw]
    exact ⟨fun hn => absurd hn hw, hunwanted, halone, fun _ hc => (nomatch hc)⟩

/-- Without a process or a timer, one is started or the timer is set. -/
theorem supervised_spawn (hrestart : s.restart = false) (hnone : s.child = none)
    (hdead : ∀ k, s.alive k = false) (forks : Bool) : (s.spawn forks).Supervised := by
  unfold System.spawn
  rw [hnone]
  cases forks with
  | false =>
      exact supervised_onExit (fun _ => hrestart) hdead
  | true =>
      refine ⟨fun _ => ⟨fun _ => hrestart, fun _ => rfl⟩, fun _ => hrestart, fun k hk => ?_,
        fun k hk => ?_⟩
      · obtain ⟨q, hq, hlive⟩ := alive_iff.1 hk
        rcases getElem?_concat_iff.1 hq with hold | ⟨rfl, _⟩
        · have hk' := alive_iff.2 ⟨q, hold, hlive⟩
          rw [hdead k] at hk'
          cases hk'
        · rfl
      · cases hk
        change s.procs.length + 1 = (s.procs ++ [Process.new]).length
        rw [List.length_append]
        rfl

/-! ## Calls -/

/-- A step that touches neither the calls nor which process is there. -/
theorem Sound.of_frame (h : s.Sound) (hcalls : t.calls = s.calls) (hforged : t.forged = s.forged)
    (hchild : t.child = s.child) : t.Sound := by
  refine ⟨hcalls ▸ h.placed, ?_, hcalls ▸ h.sent, hcalls ▸ h.jobs, ?_, hcalls ▸ h.load⟩
  · rw [hforged, hcalls]
    exact h.honest
  · rw [hcalls, hchild]
    exact h.waiting

/-- The calls go on, and no new one waits. -/
theorem Sound.of_calls (h : s.Sound) {calls : Exchange Call Reply Settlement}
    (hplaced : calls.Placed) (hhonest : s.forged = false → calls.Honest Settlement.verdict)
    (hsent : ∀ m ∈ calls.up, m.2.2.proc = m.1) (hjobs : ∀ j ∈ calls.jobs, j.req.proc = j.wire)
    (hmade : s.calls.calls.made ⊆ calls.calls.made)
    (hpending : calls.calls.pending ⊆ s.calls.calls.pending)
    (hload : calls.calls.pending.length ≤ s.calls.calls.pending.length) :
    ({ s with calls := calls } : System).Sound := by
  refine ⟨hplaced, hhonest, hsent, hjobs, fun n hn => ?_, Nat.le_trans hload h.load⟩
  obtain ⟨c, hc, hchild⟩ := h.waiting n (hpending hn)
  exact ⟨c, hmade hc, hchild⟩

theorem Sound.settle (h : s.Sound) (n : Nat) {a : Settlement}
    (ha : s.forged = false → s.calls.Justified n a.verdict) :
    ({ s with calls := s.calls.settle n a } : System).Sound := by
  refine h.of_calls (h.placed.settle n a) (fun hf => (h.honest hf).settle n (ha hf)) h.sent h.jobs
    ?_ (Requests.pending_settle_subset n a) (Requests.length_pending_settle n a)
  change _ ⊆ (s.calls.calls.settle n a).made
  rw [Requests.made_settle]
  exact List.Subset.refl _

theorem Sound.onExit (h : s.Sound) : s.onExit.Sound := by
  have hall : ({ s with child := none, calls := s.calls.settleAll (.failed .ended) } :
      System).Sound :=
    ⟨h.placed.settleAll _, fun hf => (h.honest hf).settleAll rfl, h.sent, h.jobs,
      fun _ hn => (nomatch hn), Nat.zero_le _⟩
  unfold System.onExit
  split
  · exact hall.of_frame rfl rfl rfl
  · exact hall.of_frame rfl rfl rfl

theorem Sound.spawn (h : s.Sound) (hnone : s.child = none) (forks : Bool) :
    (s.spawn forks).Sound := by
  have hidle : ∀ n ∈ s.calls.calls.pending, ∃ c, (n, c) ∈ s.calls.calls.made ∧
      some s.procs.length = some c.proc := by
    intro n hn
    obtain ⟨c, _, hchild⟩ := h.waiting n hn
    rw [hnone] at hchild
    cases hchild
  unfold System.spawn
  rw [hnone]
  cases forks with
  | false => exact h.onExit
  | true => exact ⟨h.placed, h.honest, h.sent, h.jobs, hidle, h.load⟩

theorem Sound.call (h : s.Sound) (method : Text) (params : Json) :
    (s.call method params).Sound := by
  unfold System.call
  split
  · next k hchild =>
      split
      · exact h
      · next hidle =>
          have hroom : s.calls.calls.pending.length < openCallsPerPlugin :=
            Nat.lt_of_not_le fun hfull => hidle (Or.inr hfull)
          split
          · refine ⟨h.placed.send _ _, fun hf => (h.honest hf).send h.placed _ _, ?_, h.jobs, ?_,
              ?_⟩
            · intro m hm
              rcases List.mem_append.1 hm with hold | hnew
              · exact h.sent m hold
              · obtain rfl := List.mem_singleton.1 hnew
                rfl
            · intro n hn
              rcases List.mem_append.1 hn with hold | hnew
              · obtain ⟨c, hc, hcur⟩ := h.waiting n hold
                exact ⟨c, List.mem_append_left _ hc, hcur⟩
              · obtain rfl := List.mem_singleton.1 hnew
                exact ⟨_, List.mem_append_right _ (List.mem_singleton_self _), hchild⟩
            · change (s.calls.calls.pending ++ [s.calls.calls.fresh]).length ≤ _
              rw [List.length_append]
              exact hroom
          · -- the number is settled as soon as it has been given out
            have hfresh : s.calls.calls.fresh ∉ s.calls.calls.pending := by
              intro hm
              obtain ⟨c, hc⟩ := h.placed.books.made_of_pending hm
              exact h.placed.books.ne_fresh hc rfl
            have hsame : (s.calls.decline ⟨k, method, params⟩ (.failed .unsent)).calls.pending =
                s.calls.calls.pending := Requests.pending_settle_make hfresh
            refine h.of_calls (h.placed.decline _ _)
              (fun hf => (h.honest hf).decline h.placed _ rfl) h.sent h.jobs ?_ ?_ ?_
            · change _ ⊆ ((s.calls.calls.make _).settle _ _).made
              rw [Requests.made_settle]
              exact List.subset_append_left _ _
            · rw [hsame]
              exact List.Subset.refl _
            · rw [hsame]
  · exact h

/-! ## Jobs -/

theorem Sound.called (h : s.Sound) (hs : s.called k p = some t) : t.Sound := by
  obtain ⟨⟨j, calls⟩, hr, rfl⟩ := Option.map_eq_some_iff.1 hs
  have hplaced := h.placed.accept hr
  have hhonest := fun hf => (h.honest hf).accept hr
  obtain ⟨rest, hrecv, hwire, hans, rfl⟩ := Exchange.accept_spec hr
  have hsent : ∀ m ∈ rest, m.2.2.proc = m.1 := fun m hm => h.sent m (receive_subset hrecv hm)
  have hjobs : ∀ q ∈ s.calls.jobs ++ [j], q.req.proc = q.wire := by
    intro q hq
    rcases List.mem_append.1 hq with hold | hnew
    · exact h.jobs q hold
    · obtain rfl := List.mem_singleton.1 hnew
      exact (h.sent _ (receive_mem hrecv)).trans hwire.symm
  simp only
  split
  · next b hb =>
      refine h.of_calls (hplaced.push ..) (fun hf => (hhonest hf).push _ ?_) hsent hjobs
        (List.Subset.refl _) (List.Subset.refl _) (Nat.le_refl _)
      exact ⟨j, List.mem_append_right _ (List.mem_singleton_self _), rfl, hb⟩
  · exact h.of_calls hplaced hhonest hsent hjobs (List.Subset.refl _) (List.Subset.refl _)
      (Nat.le_refl _)

theorem Sound.returned (h : s.Sound) (hs : s.returned i o = some t) : t.Sound := by
  obtain ⟨⟨j, calls⟩, hr, rfl⟩ := Option.map_eq_some_iff.1 hs
  have hplaced := h.placed.finish hr
  have hhonest := fun hf => (h.honest hf).finish hr
  have hmem := Exchange.mem_jobs_finish hr
  obtain ⟨j', hj', _, rfl, rfl⟩ := Exchange.finish_spec hr
  refine h.of_calls (hplaced.push ..) (fun hf => (hhonest hf).push _ ⟨_, hmem, rfl, rfl⟩) h.sent ?_
    (List.Subset.refl _) (List.Subset.refl _) (Nat.le_refl _)
  intro q hq
  rcases List.mem_or_eq_of_mem_set hq with hold | rfl
  · exact h.jobs q hold
  · exact h.jobs j' (List.mem_of_getElem? hj')

theorem Sound.answered (h : s.Sound) {calls : Exchange Call Reply Settlement}
    (hs : s.calls.deliver k .replied = some calls) :
    ({ s with calls := calls } : System).Sound := by
  have hplaced := h.placed.deliver hs
  have hhonest := fun hf => (h.honest hf).deliver (fun _ _ _ => rfl) hs
  obtain ⟨m, _, rfl⟩ := Option.map_eq_some_iff.1 hs
  refine h.of_calls hplaced hhonest h.sent h.jobs ?_ (Requests.pending_settle_subset ..)
    (Requests.length_pending_settle ..)
  change _ ⊆ (s.calls.calls.settle _ _).made
  rw [Requests.made_settle]
  exact List.Subset.refl _

theorem Sound.forge (h : s.Sound) (k : Nat) (p : Process) (m : Message) :
    (s.forge k p m).Sound := by
  cases m with
  | result n r =>
      exact ⟨h.placed.push .., fun hf => (nomatch hf), h.sent, h.jobs, h.waiting, h.load⟩
  | host n c =>
      exact ⟨h.placed, fun hf => (nomatch hf), h.sent, h.jobs, h.waiting, h.load⟩

/-! ## Runs -/

/-- The process and the timer stay as they are. -/
theorem Supervised.of_frame (h : s.Supervised) (hwanted : t.wanted = s.wanted)
    (hrestart : t.restart = s.restart) (hchild : t.child = s.child) (hprocs : t.procs = s.procs) :
    t.Supervised := by
  refine ⟨?_, ?_, fun k hk => ?_, fun k hk => ?_⟩
  · rw [hwanted, hrestart, hchild]
    exact h.wanted
  · rw [hwanted, hrestart]
    exact h.unwanted
  · rw [hchild]
    refine h.alone k ?_
    rw [alive_iff, ← hprocs, ← alive_iff]
    exact hk
  · rw [hprocs]
    exact h.newest k (hchild ▸ hk)

theorem Supervised.reply (h : s.Supervised) (n : Nat) (b : GcReply) :
    (s.reply n b).Supervised := by
  unfold System.reply
  split
  · exact h.modify _ fun _ => rfl
  · exact h

theorem Sound.reply (h : s.Sound) (n : Nat) (b : GcReply) : (s.reply n b).Sound := by
  unfold System.reply
  split
  · exact h.of_frame rfl rfl rfl
  · exact h

theorem start_step (h : s.Sound) (hv : s.Supervised) (forks : Bool) :
    (s.start forks).Sound ∧ (s.start forks).Supervised := by
  have hsound : ({ s with wanted := true } : System).Sound := h.of_frame rfl rfl rfl
  unfold System.start
  by_cases hthere : (s.child.isSome || s.restart) = true
  · simp only [hthere, if_true]
    refine ⟨hsound, fun _ => ?_, fun hn => (nomatch hn), hv.alone, hv.newest⟩
    cases hw : s.wanted with
    | true =>
        exact hv.wanted hw
    | false =>
        -- an unwanted process that has not ended yet
        have hrestart := hv.unwanted hw
        rw [hrestart, Bool.or_false] at hthere
        exact iff_of_true hthere hrestart
  · obtain ⟨hnone, hrestart⟩ : s.child = none ∧ s.restart = false := by simpa using hthere
    have hsup : (({ s with wanted := true } : System).spawn forks).Supervised := by
      apply supervised_spawn
      · exact hrestart
      · exact hnone
      · exact hv.dead hnone
    simp only [if_neg hthere]
    exact ⟨hsound.spawn hnone forks, hsup⟩

theorem stop_step (h : s.Sound) (hv : s.Supervised) : s.stop.Sound ∧ s.stop.Supervised :=
  ⟨h.of_frame rfl rfl rfl, fun hw => (nomatch hw), fun _ => rfl, hv.alone, hv.newest⟩

theorem restart_step (h : s.Sound) (hv : s.Supervised) (hrestart : s.restart = true)
    (forks : Bool) :
    (if s.wanted then ({ s with restart := false } : System).spawn forks
      else { s with restart := false }).Sound ∧
    (if s.wanted then ({ s with restart := false } : System).spawn forks
      else { s with restart := false }).Supervised := by
  have hwanted : s.wanted = true := by
    by_contra hw
    have hnone := hv.unwanted (Bool.of_not_eq_true hw)
    rw [hrestart] at hnone
    cases hnone
  have hnone : s.child = none := by
    have hiff := hv.wanted hwanted
    rw [hrestart] at hiff
    simpa using hiff
  have hsound : ({ s with restart := false } : System).Sound := h.of_frame rfl rfl rfl
  have hsup : (({ s with restart := false } : System).spawn forks).Supervised := by
    apply supervised_spawn
    · rfl
    · exact hnone
    · exact hv.dead hnone
  rw [if_pos hwanted]
  exact ⟨hsound.spawn hnone forks, hsup⟩

theorem exited_step (h : s.Sound) (hv : s.Supervised) (hdead : s.alive k = false) :
    (if s.child = some k then s.onExit else s).Sound ∧
    (if s.child = some k then s.onExit else s).Supervised := by
  split
  · next hchild =>
      refine ⟨h.onExit, supervised_onExit hv.unwanted fun k' => ?_⟩
      by_contra hk
      have hlive := Bool.of_not_eq_false hk
      cases hchild.symm.trans (hv.alone k' hlive)
      rw [hdead] at hlive
      cases hlive
  · exact ⟨h, hv⟩

theorem asked_step (h : s.Sound) (hv : s.Supervised) (hp : s.proc k = some p)
    (hs : s.asked k p = some t) : t.Sound ∧ t.Supervised := by
  obtain ⟨r, _, rfl⟩ := Option.map_eq_some_iff.1 hs
  have hsound : (s.setProc k { p with gc := r.2 }).Sound := h.of_frame rfl rfl rfl
  have hsup : (s.setProc k { p with gc := r.2 }).Supervised := hv.setProc hp id
  simp only
  split
  · exact ⟨hsound.reply .., hsup.reply ..⟩
  · exact ⟨hsound.of_frame rfl rfl rfl, hsup.of_frame rfl rfl rfl rfl⟩

theorem hooked_step (h : s.Sound) (hv : s.Supervised) (hp : s.proc k = some p)
    (hs : s.hooked k i p o = some t) : t.Sound ∧ t.Supervised := by
  obtain ⟨r, _, rfl⟩ := Option.map_eq_some_iff.1 hs
  have hsound : ({ s.setProc k { p with gc := r.2 } with hostCalls := s.hostCalls - 1 } :
      System).Sound := h.of_frame rfl rfl rfl
  have hset : (s.setProc k { p with gc := r.2 }).Supervised := hv.setProc hp id
  have hsup : ({ s.setProc k { p with gc := r.2 } with hostCalls := s.hostCalls - 1 } :
      System).Supervised := hset.of_frame rfl rfl rfl rfl
  exact ⟨hsound.reply .., hsup.reply ..⟩

theorem inside_spec {f : Process → Option System} (h : s.inside k f = some t) :
    ∃ p, s.proc k = some p ∧ f p = some t := by
  obtain ⟨p, hp, hf⟩ := Option.bind_eq_some_iff.1 h
  exact ⟨p, hp, (Option.ite_none_right_eq_some.1 hf).2⟩

/-- Something that a process does on its own side. -/
theorem setProc_step (h : s.Sound) (hv : s.Supervised) (hp : s.proc k = some p)
    (halive : p'.alive = true → p.alive = true) :
    (s.setProc k p').Sound ∧ (s.setProc k p').Supervised :=
  ⟨h.of_frame rfl rfl rfl, hv.setProc hp halive⟩

theorem step_sound {a : Action} (hinv : s.Sound ∧ s.Supervised) (ht : s.step a = some t) :
    t.Sound ∧ t.Supervised := by
  obtain ⟨h, hv⟩ := hinv
  cases a with
  | start forks =>
      cases ht
      exact start_step h hv forks
  | stop =>
      cases ht
      exact stop_step h hv
  | restart forks =>
      obtain ⟨hrestart, hs⟩ := Option.ite_none_right_eq_some.1 ht
      cases hs
      exact restart_step h hv hrestart forks
  | ready k =>
      obtain ⟨_, hs⟩ := Option.ite_none_right_eq_some.1 ht
      cases hs
      exact ⟨h.of_frame rfl rfl rfl, hv.of_frame rfl rfl rfl rfl⟩
  | died k =>
      obtain ⟨p, hp, hs⟩ := inside_spec ht
      cases hs
      exact setProc_step h hv hp fun hd => (nomatch hd)
  | disconnected k =>
      obtain ⟨p, hp, rfl⟩ := Option.map_eq_some_iff.1 ht
      exact setProc_step h hv hp id
  | exited k =>
      obtain ⟨hdead, hs⟩ := Option.ite_none_left_eq_some.1 ht
      cases hs
      exact exited_step h hv (Bool.of_not_eq_true hdead)
  | call method params =>
      cases ht
      refine ⟨h.call method params, ?_⟩
      unfold System.call
      split
      · split
        · exact hv
        · split
          · exact hv.of_frame rfl rfl rfl rfl
          · exact hv.of_frame rfl rfl rfl rfl
      · exact hv
  | timeout n =>
      obtain ⟨_, hs⟩ := Option.ite_none_right_eq_some.1 ht
      cases hs
      exact ⟨h.settle n fun _ => trivial, hv.of_frame rfl rfl rfl rfl⟩
  | ping =>
      cases ht
      refine ⟨h.of_calls h.placed.skip (fun hf => (h.honest hf).skip) h.sent h.jobs
        (List.Subset.refl _) (List.Subset.refl _) (Nat.le_refl _), hv.of_frame rfl rfl rfl rfl⟩
  | called k =>
      obtain ⟨p, hp, hs⟩ := inside_spec ht
      refine ⟨h.called hs, ?_⟩
      obtain ⟨r, _, rfl⟩ := Option.map_eq_some_iff.1 hs
      split
      · exact hv.of_frame rfl rfl rfl rfl
      · exact hv.of_frame rfl rfl rfl rfl
  | returned i o =>
      obtain ⟨j, _, hj⟩ := Option.bind_eq_some_iff.1 ht
      obtain ⟨_, hs⟩ := Option.ite_none_right_eq_some.1 hj
      refine ⟨h.returned hs, ?_⟩
      obtain ⟨r, _, rfl⟩ := Option.map_eq_some_iff.1 hs
      exact hv.of_frame rfl rfl rfl rfl
  | answered k =>
      obtain ⟨calls, hs, rfl⟩ := Option.map_eq_some_iff.1 ht
      exact ⟨h.answered hs, hv.of_frame rfl rfl rfl rfl⟩
  | handle k method =>
      obtain ⟨p, hp, hs⟩ := inside_spec ht
      cases hs
      exact setProc_step h hv hp id
  | gcCall k c =>
      obtain ⟨p, hp, hs⟩ := inside_spec ht
      cases hs
      exact setProc_step h hv hp id
  | gcTimeout k n =>
      obtain ⟨p, hp, hs⟩ := inside_spec ht
      cases hs
      exact setProc_step h hv hp id
  | asked k =>
      obtain ⟨p, hp, hs⟩ := Option.bind_eq_some_iff.1 ht
      exact asked_step h hv hp hs
  | hooked k i o =>
      obtain ⟨p, hp, hs⟩ := Option.bind_eq_some_iff.1 ht
      exact hooked_step h hv hp hs
  | gcAnswered k =>
      obtain ⟨p, hp, hs⟩ := inside_spec ht
      obtain ⟨gc, _, rfl⟩ := Option.map_eq_some_iff.1 hs
      exact setProc_step h hv hp id
  | forge k m =>
      obtain ⟨p, hp, hs⟩ := inside_spec ht
      cases hs
      refine ⟨h.forge k p m, ?_⟩
      cases m with
      | result n r => exact hv.of_frame rfl rfl rfl rfl
      | host n c =>
          have hset : (s.setProc k { p with
              gc := { p.gc with up := p.gc.up ++ [(k, n, c)] } }).Supervised := hv.setProc hp id
          exact hset.of_frame rfl rfl rfl rfl

theorem new_sound : new.Sound ∧ new.Supervised :=
  ⟨⟨Exchange.new_placed, fun _ => Exchange.new_honest, fun _ hm => (nomatch hm),
      fun _ hj => (nomatch hj), fun _ hn => (nomatch hn), Nat.zero_le _⟩,
    ⟨fun hw => (nomatch hw), fun _ => rfl, fun _ hk => (nomatch hk), fun _ hc => (nomatch hc)⟩⟩

theorem Sound.correct (h : s.Sound) (hv : s.Supervised) : s.Correct where
  once _ _ hc := h.placed.books.once hc
  carriedOut := h.placed.distinct.of_append_right
  made j hj := ⟨h.placed.jobs j hj, h.jobs j hj⟩
  answered hf n c r hc hr := (Exchange.served h.placed (h.honest hf) hc).answered _ _ hr rfl
  unsent hf n hn := by
    obtain ⟨c, hc⟩ := h.placed.books.made_of_settled hn
    exact (Exchange.served h.placed (h.honest hf) hc).unsent _ hn rfl
  waiting := h.waiting
  load := h.load
  told _ _ _ _ he := told_error he
  supervised := hv

/-- Over every run, whatever the plugin does and whenever its processes end. -/
theorem plugin_served {as : List Action} (h : exec step new as = some s) : s.Correct :=
  have hinv : s.Sound ∧ s.Supervised :=
    exec_invariant (fun _ _ _ hs ht => step_sound hs ht) new_sound h
  hinv.1.correct hinv.2

/-- A process ends before it has answered; the next one answers the same method. -/
def restartedRun (method : Text) (v : Json) : List Action :=
  [.start true, .handle 0 method, .ready 0, .call method .null, .called 0, .died 0, .exited 0,
    .restart true, .handle 1 method, .ready 1, .ping, .call method .null, .called 1,
    .returned 1 (.returned (some v)), .answered 1]

theorem plugin_served_restarted : ∃ s,
    exec step new (restartedRun "read".toList (.bool true)) = some s ∧
      s.calls.calls.settled = [(1, .failed .ended), (3, .replied (.result (some (.bool true))))] ∧
      s.Correct := by
  refine ⟨_, rfl, rfl, plugin_served (?_ : exec step new (restartedRun "read".toList
    (.bool true)) = some _)⟩
  rfl

end System
end ChildCalls
end Edge
end GateControl
