import GateControl.Edge.GatewayRpc

/-!
# RpcAnswers — every call gets the answer that is for it

The invariant has three parts: where each call stands (`Placed`), what is on the way back or has
been handed on (`Honest`), and what `inflight` counts (`Load`).
-/

namespace GateControl
namespace Edge

open Library

namespace GatewayRpc
namespace System

variable (size : Frame → Nat) (s : System)

/-! ## What holds in every run -/

def upIds : List Nat := s.up.map fun m => m.2.1

/-- The calls that are on the way to the gateway or have got there as a job. -/
def underway : List Nat := s.upIds ++ s.jobIds

/-- Each call stands in one place, under its own number. -/
structure Placed : Prop where
  books : s.host.calls.Books
  sent : ∀ m ∈ s.up, m.2 ∈ s.host.calls.made
  jobs : ∀ j ∈ s.gateway.jobs, (j.id, j.call) ∈ s.host.calls.made
  distinct : s.underway.Nodup
  refused : ∀ id ∈ s.gateway.refused, id ∉ s.underway ∧ id ∈ s.host.calls.made.map Prod.fst

/-- What a call may be settled with. -/
def Justified (id : Nat) : Settlement → Prop
  | .resolved v => s.Answered size id (.result v)
  | .rejected e => s.Answered size id (.error e)
  | .failed .unsent => id ∉ s.underway
  | .failed _ => True

/-- What is on the way back is what the gateway has given. -/
structure Honest : Prop where
  replies : ∀ m ∈ s.down, s.Answered size m.2.1 m.2.2
  settled : ∀ x ∈ s.host.calls.settled, s.Justified size x.1 x.2

structure Sound : Prop where
  placed : s.Placed
  honest : s.Honest size
  load : s.Load

variable {size s} {t : System} {id : Nat} {c : Call} {r : Reply}

/-! ## The jobs of the gateway -/

theorem mem_underway :
    id ∈ s.underway ↔ (∃ m ∈ s.up, m.2.1 = id) ∨ ∃ j ∈ s.gateway.jobs, j.id = id := by
  simp only [underway, upIds, jobIds, List.mem_append, List.mem_map]

/-- Jobs are added, and keep what they have come to. -/
theorem Gave.mono {jobs jobs' : List Job} {refused refused' : List Nat}
    (hrefused : refused ⊆ refused') (hnone : id ∈ refused → id ∉ jobs'.map Job.id)
    (hjobs : ∀ j ∈ jobs, ∀ o, j.outcome = some o →
      ∃ j' ∈ jobs', j'.id = j.id ∧ j'.call = j.call ∧ j'.outcome = some o)
    (h : Gave size jobs refused id c r) : Gave size jobs' refused' id c r := by
  cases h with
  | busy h _ =>
      exact .busy (hrefused h) (hnone h)
  | answer hj hid hc ho =>
      obtain ⟨j', hj', hid', hc', ho'⟩ := hjobs _ hj _ ho
      exact .answer hj' (hid'.trans hid) (hc'.trans hc) ho'
  | tooLarge hj hid hc ho hsize =>
      obtain ⟨j', hj', hid', hc', ho'⟩ := hjobs _ hj _ ho
      exact .tooLarge hj' (hid'.trans hid) (hc'.trans hc) ho' hsize

/-- The host hands the errors that the gateway gives on as they are. -/
theorem Gave.plain {jobs : List Job} {refused : List Nat} {e : RpcError}
    (h : Gave size jobs refused id c (.error e)) : e.Plain := by
  generalize hr : Reply.error e = r at h
  cases h with
  | busy _ _ =>
      cases hr
      exact plain_busy
  | tooLarge _ _ _ _ _ =>
      cases hr
      exact plain_resultTooLarge
  | @answer _ o _ _ _ _ =>
      cases o with
      | returned v =>
          cases hr
      | threw e =>
          cases hr
          exact plain_errorOf e

theorem Answered.of_frame (hmade : s.host.calls.made ⊆ t.host.calls.made)
    (hgave : ∀ {id c r}, Gave size s.gateway.jobs s.gateway.refused id c r →
      Gave size t.gateway.jobs t.gateway.refused id c r)
    (h : s.Answered size id r) : t.Answered size id r := by
  obtain ⟨c, hc, hr⟩ := h
  exact ⟨c, hmade hc, hgave hr⟩

/-- Nothing is taken back, and what is new is honest. -/
theorem Honest.of_frame (h : s.Honest size) (hbooks : s.host.calls.Books)
    (hmade : s.host.calls.made ⊆ t.host.calls.made)
    (hgave : ∀ {id c r}, Gave size s.gateway.jobs s.gateway.refused id c r →
      Gave size t.gateway.jobs t.gateway.refused id c r)
    (hunderway : ∀ id ∈ s.host.calls.made.map Prod.fst, id ∈ t.underway → id ∈ s.underway)
    (hdown : ∀ m ∈ t.down, m ∈ s.down ∨ t.Answered size m.2.1 m.2.2)
    (hsettled : ∀ x ∈ t.host.calls.settled,
      x ∈ s.host.calls.settled ∨ t.Justified size x.1 x.2) : t.Honest size where
  replies m hm := (hdown m hm).elim (fun hold => (h.replies m hold).of_frame hmade hgave) id
  settled x hx := by
    rcases hsettled x hx with hold | hnew
    · obtain ⟨id, a⟩ := x
      have hjust := h.settled _ hold
      obtain ⟨c, hc⟩ := hbooks.made_of_settled hold
      match a with
      | .resolved v => exact Answered.of_frame hmade hgave hjust
      | .rejected e => exact Answered.of_frame hmade hgave hjust
      | .failed .unsent =>
          exact fun hm => hjust (hunderway id (List.mem_map_of_mem (f := Prod.fst) hc) hm)
      | .failed .stopping => exact hjust
      | .failed .lost => exact hjust
      | .failed .timedOut => exact hjust
    · exact hnew

/-- A step that touches connections only. -/
theorem Sound.of_links (h : s.Sound size) (hcalls : t.host.calls = s.host.calls) (hup : t.up = s.up)
    (hdown : t.down = s.down) (hjobs : t.gateway.jobs = s.gateway.jobs)
    (hrefused : t.gateway.refused = s.gateway.refused)
    (hinflight : t.gateway.inflight = s.gateway.inflight) : t.Sound size := by
  have hunder : t.underway = s.underway := by
    rw [underway, upIds, jobIds, hup, hjobs]
    rfl
  refine ⟨⟨hcalls ▸ h.placed.books, ?_, ?_, hunder ▸ h.placed.distinct, ?_⟩, ?_, ?_⟩
  · rw [hup, hcalls]
    exact h.placed.sent
  · rw [hjobs, hcalls]
    exact h.placed.jobs
  · rw [hrefused, hunder, hcalls]
    exact h.placed.refused
  · refine h.honest.of_frame h.placed.books (by rw [hcalls]; exact List.Subset.refl _)
      (by rw [hjobs, hrefused]; exact id) (fun _ _ hm => hunder ▸ hm) ?_ ?_
    · rw [hdown]
      exact fun _ hm => Or.inl hm
    · rw [hcalls]
      exact fun _ hx => Or.inl hx
  · rw [Load, hinflight, hjobs]
    exact h.load

/-! ## The calls of the host -/

/-- Calls are settled, and none is made. -/
theorem Sound.settle (h : s.Sound size) {host : Host} {down : List (Nat × Nat × Reply)}
    (hbooks : host.calls.Books) (hmade : host.calls.made = s.host.calls.made) (hdown : down ⊆ s.down)
    (hsettled : ∀ x ∈ host.calls.settled,
      x ∈ s.host.calls.settled ∨ s.Justified size x.1 x.2) :
    ({ s with host := host, down := down } : System).Sound size := by
  have hsame : s.host.calls.made ⊆ host.calls.made := by rw [hmade]; exact List.Subset.refl _
  refine ⟨⟨hbooks, ?_, ?_, h.placed.distinct, ?_⟩, ?_, h.load⟩
  · exact fun m hm => hsame (h.placed.sent m hm)
  · exact fun j hj => hsame (h.placed.jobs j hj)
  · exact fun id hid => ⟨(h.placed.refused id hid).1, by
      change id ∈ host.calls.made.map Prod.fst
      rw [hmade]
      exact (h.placed.refused id hid).2⟩
  · refine h.honest.of_frame h.placed.books hsame id (fun _ _ hm => hm)
      (fun m hm => Or.inl (hdown hm)) ?_
    intro x hx
    rcases hsettled x hx with hold | hnew
    · exact Or.inl hold
    · right
      obtain ⟨id, a⟩ := x
      match a with
      | .resolved v => exact Answered.of_frame hsame (fun hg => hg) hnew
      | .rejected e => exact Answered.of_frame hsame (fun hg => hg) hnew
      | .failed .unsent => exact hnew
      | .failed .stopping => exact hnew
      | .failed .lost => exact hnew
      | .failed .timedOut => exact hnew

theorem Sound.failAll (h : s.Sound size) {host : Host} (why : Failure)
    (hwhy : ∀ id, s.Justified size id (.failed why))
    (hcalls : host.calls = s.host.calls.settleAll (.failed why)) :
    ({ s with host := host } : System).Sound size := by
  refine h.settle (hcalls ▸ h.placed.books.settleAll _) (by rw [hcalls]; rfl)
    (List.Subset.refl _) ?_
  rintro ⟨id, a⟩ hx
  rw [hcalls] at hx
  rcases Requests.mem_settled_settleAll hx with hold | ⟨rfl, _⟩
  · exact Or.inl hold
  · exact Or.inr (hwhy id)

theorem Sound.timeout (h : s.Sound size) (id : Nat) :
    ({ s with host := { s.host with
      calls := s.host.calls.settle id (.failed .timedOut) } } : System).Sound size := by
  refine h.settle (h.placed.books.settle _ _) (Requests.made_settle ..) (List.Subset.refl _) ?_
  rintro ⟨id', a⟩ hx
  rcases Requests.mem_settled_settle hx with hold | ⟨rfl, rfl, _⟩
  · exact Or.inl hold
  · exact Or.inr trivial

/-- An answer that is on the way settles its own call. -/
theorem Sound.onMessage (h : s.Sound size) {k : Nat} {rest : List (Nat × Nat × Reply)}
    (hr : receive k s.down = some ((id, r), rest)) :
    ({ s with down := rest, host := s.host.onMessage id r } : System).Sound size := by
  have hans : s.Answered size id r := h.honest.replies _ (receive_mem hr)
  cases r with
  | result v =>
      refine h.settle (h.placed.books.settle _ _) (Requests.made_settle ..) (receive_subset hr) ?_
      rintro ⟨id', a⟩ hx
      rcases Requests.mem_settled_settle hx with hold | ⟨rfl, rfl, _⟩
      · exact Or.inl hold
      · exact Or.inr hans
  | error e =>
      refine h.settle (h.placed.books.settle _ _) (Requests.made_settle ..) (receive_subset hr) ?_
      rintro ⟨id', a⟩ hx
      rcases Requests.mem_settled_settle hx with hold | ⟨rfl, rfl, _⟩
      · exact Or.inl hold
      · obtain ⟨c, hc, hgave⟩ := hans
        rw [rpcError_of_plain hgave.plain]
        exact Or.inr ⟨c, hc, hgave⟩

/-- A call gets a number that nothing has had, whether it is sent or not. -/
theorem Sound.call (h : s.Sound size) (c : Call) : (s.call size c).Sound size := by
  have hbooks := h.placed.books
  have hfresh : s.host.calls.fresh ∉ s.underway := by
    intro hm
    rcases mem_underway.1 hm with ⟨m, hm, heq⟩ | ⟨j, hj, heq⟩
    · exact hbooks.ne_fresh (h.placed.sent m hm) heq
    · exact hbooks.ne_fresh (h.placed.jobs j hj) heq
  have hmore : s.host.calls.made ⊆ (s.host.calls.make c).made := List.subset_append_left _ _
  have hmoreFst : ∀ id ∈ s.host.calls.made.map Prod.fst,
      id ∈ (s.host.calls.make c).made.map Prod.fst :=
    fun _ hid => List.map_subset _ hmore hid
  unfold System.call
  split
  · exact h
  · simp only
    split
    · next k _ =>
        have hunder : ∀ id', id' ∈ ({ s with up := s.up ++ [(k, s.host.calls.fresh, c)] } :
            System).underway ↔ id' = s.host.calls.fresh ∨ id' ∈ s.underway := by
          intro id'
          simp only [underway, upIds, jobIds, List.map_append, List.map_cons, List.map_nil,
            List.mem_append, List.mem_singleton]
          tauto
        refine ⟨⟨hbooks.make c, ?_, ?_, ?_, ?_⟩, ?_, h.load⟩
        · intro m hm
          rcases List.mem_append.1 hm with hold | hnew
          · exact hmore (h.placed.sent m hold)
          · obtain rfl := List.mem_singleton.1 hnew
            exact List.mem_append_right _ (List.mem_singleton_self _)
        · exact fun j hj => hmore (h.placed.jobs j hj)
        · have hperm : ({ s with up := s.up ++ [(k, s.host.calls.fresh, c)] } :
              System).underway.Perm (s.host.calls.fresh :: s.underway) := by
            simp only [underway, upIds, jobIds, List.map_append, List.map_cons, List.map_nil,
              List.append_assoc]
            exact List.perm_middle
          exact hperm.nodup_iff.2 (List.nodup_cons.2 ⟨hfresh, h.placed.distinct⟩)
        · intro id hid
          obtain ⟨hnot, hmade⟩ := h.placed.refused id hid
          refine ⟨fun hm => ?_, hmoreFst id hmade⟩
          rcases (hunder id).1 hm with rfl | hold
          · exact hbooks.fresh_not_mem hmade
          · exact hnot hold
        · refine h.honest.of_frame hbooks hmore id ?_ (fun _ hm => Or.inl hm) (fun _ hx => Or.inl hx)
          intro id hmade hm
          rcases (hunder id).1 hm with rfl | hold
          · exact absurd hmade hbooks.fresh_not_mem
          · exact hold
    · -- the call is settled at once
      refine ⟨⟨(hbooks.make c).settle _ _, ?_, ?_, h.placed.distinct, ?_⟩, ?_, h.load⟩
      · intro m hm
        rw [Requests.made_settle]
        exact hmore (h.placed.sent m hm)
      · intro j hj
        rw [Requests.made_settle]
        exact hmore (h.placed.jobs j hj)
      · intro id hid
        rw [Requests.made_settle]
        exact ⟨(h.placed.refused id hid).1, hmoreFst id (h.placed.refused id hid).2⟩
      · refine h.honest.of_frame hbooks (by rw [Requests.made_settle]; exact hmore) id
          (fun _ _ hm => hm) (fun _ hm => Or.inl hm) ?_
        rintro ⟨id, a⟩ hx
        rcases Requests.mem_settled_settle hx with hold | ⟨rfl, rfl, _⟩
        · exact Or.inl hold
        · exact Or.inr hfresh

/-! ## The gateway -/

theorem Sound.push (h : s.Sound size) {k : Nat} (hr : s.Answered size id r) :
    ({ s with down := s.down ++ [(k, id, r)] } : System).Sound size := by
  obtain ⟨⟨hbooks, hsent, hjobs, hdistinct, hrefused⟩, hhonest, hload⟩ := h
  refine ⟨⟨hbooks, hsent, hjobs, hdistinct, hrefused⟩, ?_, hload⟩
  refine hhonest.of_frame hbooks (List.Subset.refl _) (fun hg => hg) (fun _ _ hm => hm) ?_
    fun _ hx => Or.inl hx
  intro m hm
  rcases List.mem_append.1 hm with hold | hnew
  · exact Or.inl hold
  · obtain rfl := List.mem_singleton.1 hnew
    exact Or.inr hr

/-- An answer is sent as it is, or as the error that stands for a result that is too large, or not
at all. -/
theorem Sound.reply (h : s.Sound size) (k : Nat) (hr : s.Answered size id r)
    (hlarge : ∀ v, r = .result v → rpcMaxBytes < size (.result id r) →
      s.Answered size id (.error resultTooLarge)) : (s.reply size k id r).Sound size := by
  unfold System.reply
  split
  · exact h.push hr
  · next hfails =>
      split
      · next v =>
          split
          · next hsends =>
              have hopen : s.gatewayEnd k = some .opened :=
                of_decide_eq_true (Bool.and_eq_true_iff.1 hsends).1
              have hsize : rpcMaxBytes < size (.result id (.result v)) := by
                simpa [sends, hopen] using hfails
              exact h.push (hlarge v rfl hsize)
          · exact h
      · exact h

/-- A call that the gateway reads leaves the way, and gets a job or is refused. -/
theorem Sound.onRpc (h : s.Sound size) {k : Nat} {rest : List (Nat × Nat × Call)}
    (hr : receive k s.up = some ((id, c), rest)) :
    (({ s with up := rest } : System).onRpc size k id c).Sound size := by
  have hmade : (id, c) ∈ s.host.calls.made := h.placed.sent _ (receive_mem hr)
  -- the number stands at the front of what is underway, and nowhere else
  have hperm : s.underway.Perm (id :: ({ s with up := rest } : System).underway) :=
    ((receive_perm hr).map fun m => m.2.1).append_right _
  have hnodup := hperm.nodup_iff.1 h.placed.distinct
  obtain ⟨hnot, hrest⟩ := List.nodup_cons.1 hnodup
  have hsub : ∀ id' ∈ ({ s with up := rest } : System).underway, id' ∈ s.underway :=
    fun id' hid => hperm.symm.subset (List.mem_cons_of_mem _ hid)
  unfold System.onRpc
  split
  · -- too many calls
    have hjobs : id ∉ s.jobIds := fun hm => hnot (List.mem_append_right _ hm)
    apply Sound.reply
    · refine ⟨⟨h.placed.books, fun m hm => h.placed.sent m (receive_subset hr hm), h.placed.jobs,
        hrest, ?_⟩, ?_, h.load⟩
      · intro id' hid
        rcases List.mem_append.1 hid with hold | hnew
        · obtain ⟨hold, hin⟩ := h.placed.refused id' hold
          exact ⟨fun hm => hold (hsub id' hm), hin⟩
        · obtain rfl := List.mem_singleton.1 hnew
          exact ⟨hnot, List.mem_map_of_mem (f := Prod.fst) hmade⟩
      · refine h.honest.of_frame h.placed.books (List.Subset.refl _) ?_ (fun id' _ => hsub id')
          (fun _ hm => Or.inl hm) fun _ hx => Or.inl hx
        intro id' c' r' hgave
        refine hgave.mono (List.subset_append_left _ _) ?_ ?_
        · exact fun hid hm => (h.placed.refused id' hid).1 (List.mem_append_right _ hm)
        · exact fun j hj o ho => ⟨j, hj, rfl, rfl, ho⟩
    · exact ⟨c, hmade, .busy (List.mem_append_right _ (List.mem_singleton_self _)) hjobs⟩
    · intro v hv
      cases hv
  · next hload =>
      have hids : (s.gateway.jobs ++ [(⟨k, id, c, .running⟩ : Job)]).map Job.id =
          s.jobIds ++ [id] := by
        rw [List.map_append]
        rfl
      have hmove : (rest.map (fun m => m.2.1) ++ (s.jobIds ++ [id])).Perm s.underway := by
        rw [← List.append_assoc]
        exact (List.perm_append_singleton _ _).trans hperm.symm
      refine ⟨⟨h.placed.books, fun m hm => h.placed.sent m (receive_subset hr hm), ?_, ?_, ?_⟩, ?_,
        ?_⟩
      · intro j hj
        rcases List.mem_append.1 hj with hold | hnew
        · exact h.placed.jobs j hold
        · obtain rfl := List.mem_singleton.1 hnew
          exact hmade
      · change (rest.map (fun m => m.2.1) ++ List.map Job.id _).Nodup
        rw [hids]
        exact hmove.nodup_iff.2 h.placed.distinct
      · intro id' hid
        obtain ⟨hold, hin⟩ := h.placed.refused id' hid
        refine ⟨fun hm => hold (hmove.subset ?_), hin⟩
        rw [← hids]
        exact hm
      · refine h.honest.of_frame h.placed.books (List.Subset.refl _) ?_ ?_
          (fun _ hm => Or.inl hm) fun _ hx => Or.inl hx
        · intro id' c' r' hgave
          refine hgave.mono (List.Subset.refl _) ?_ ?_
          · intro hid hm
            refine (h.placed.refused id' hid).1 (hmove.subset (List.mem_append_right _ ?_))
            rw [← hids]
            exact hm
          · exact fun j hj o ho => ⟨j, List.mem_append_left _ hj, rfl, rfl, ho⟩
        · intro id' _ hm
          refine hmove.subset ?_
          rw [← hids]
          exact hm
      · obtain ⟨hcount, _⟩ := h.load
        have hlt : s.gateway.inflight < maxInflight := Nat.lt_of_not_le hload
        refine ⟨?_, hlt⟩
        change s.gateway.inflight + 1 = _
        rw [List.countP_append, hcount]
        rfl

/-- A job gets further: its number and its call stay, and what it has come to. -/
theorem Sound.setJob (h : s.Sound size) {i : Nat} {j j' : Job} {n : Nat}
    (hj : s.gateway.jobs[i]? = some j) (hid : j'.id = j.id) (hcall : j'.call = j.call)
    (hout : ∀ o, j.outcome = some o → j'.outcome = some o)
    (hload : n + (if j.counted then 1 else 0) =
      s.gateway.inflight + if j'.counted then 1 else 0)
    (hn : n ≤ maxInflight) :
    ({ s.setJob i j' with gateway := { (s.setJob i j').gateway with inflight := n } } :
      System).Sound size := by
  have hids : (s.gateway.jobs.set i j').map Job.id = s.jobIds := map_key_set hj hid
  have hunder : (s.setJob i j').underway = s.underway := by
    change s.upIds ++ (s.gateway.jobs.set i j').map Job.id = _
    rw [hids]
    rfl
  refine ⟨⟨h.placed.books, h.placed.sent, ?_, ?_, ?_⟩, ?_, ?_, hn⟩
  · intro q hq
    rcases List.mem_or_eq_of_mem_set hq with hold | rfl
    · exact h.placed.jobs q hold
    · rw [hid, hcall]
      exact h.placed.jobs j (List.mem_of_getElem? hj)
  · change (s.setJob i j').underway.Nodup
    rw [hunder]
    exact h.placed.distinct
  · intro id hid'
    change id ∉ (s.setJob i j').underway ∧ _
    rw [hunder]
    exact h.placed.refused id hid'
  · refine h.honest.of_frame h.placed.books (List.Subset.refl _) ?_ ?_ (fun _ hm => Or.inl hm)
      fun _ hx => Or.inl hx
    · intro id' c' r' hgave
      refine hgave.mono (List.Subset.refl _) ?_ ?_
      · intro hmem hm
        change id' ∈ (s.gateway.jobs.set i j').map Job.id at hm
        rw [hids] at hm
        exact (h.placed.refused id' hmem).1 (List.mem_append_right _ hm)
      · intro q hq o ho
        by_cases hkey : q.id = j.id
        · -- the numbers are distinct, so this is the job itself
          have hdistinct : s.jobIds.Nodup := h.placed.distinct.of_append_right
          have hq' : q = j :=
            List.inj_on_of_nodup_map hdistinct hq (List.mem_of_getElem? hj) hkey
          subst hq'
          refine ⟨j', ?_, hid, hcall, hout o ho⟩
          have hlt := (List.getElem?_eq_some_iff.1 hj).1
          exact List.mem_iff_getElem?.2 ⟨i, List.getElem?_set_self hlt⟩
        · exact ⟨q, (mem_set_of_key_ne hj hid hkey).2 hq, rfl, rfl, ho⟩
    · intro id' _ hm
      rw [← hunder]
      exact hm
  · have hcount := countP_replace Job.counted hj j'
    have hold := h.load.1
    change n = (s.gateway.jobs.set i j').countP Job.counted
    omega

/-! ## Connections -/

@[simp] theorem calls_scheduleRetry (h : Host) : h.scheduleRetry.calls = h.calls := by
  unfold Host.scheduleRetry
  split <;> rfl

theorem Sound.connect (h : s.Sound size) (dials : Bool) : (s.connect dials).Sound size := by
  unfold System.connect
  split
  · exact h
  · split
    · exact h.of_links rfl rfl rfl rfl rfl rfl
    · exact h.of_links (calls_scheduleRetry _) rfl rfl rfl rfl rfl

theorem Sound.start (h : s.Sound size) (dials : Bool) : (s.start dials).Sound size := by
  unfold System.start
  split
  · exact h
  · apply Sound.connect
    exact h.of_links rfl rfl rfl rfl rfl rfl

theorem Sound.stop (h : s.Sound size) : s.stop.Sound size := by
  have hfail : ({ s with host := ({ s.host with
      stopped := true, retry := false, ws := none, connected := false } : Host).failAll .stopping } :
      System).Sound size := h.failAll .stopping (fun _ => trivial) rfl
  unfold System.stop
  split
  · unfold System.terminate
    split
    · exact hfail
    · exact hfail.of_links rfl rfl rfl rfl rfl rfl
  · exact hfail

theorem Sound.hostClosed (h : s.Sound size) (k : Nat) : (s.hostClosed k).Sound size := by
  unfold System.hostClosed
  split
  · have hfail : ({ s with
        host := ({ s.host with ws := none, connected := false } : Host).failAll .lost } :
        System).Sound size := h.failAll .lost (fun _ => trivial) rfl
    exact hfail.of_links (calls_scheduleRetry _) rfl rfl rfl rfl rfl
  · exact (h.of_links rfl rfl rfl rfl rfl rfl : Sound size (s.setHost k .closed))

theorem Sound.opened (h : s.Sound size) (k : Nat) (ok : Bool) : (s.opened k ok).Sound size := by
  unfold System.opened
  split
  · exact h.of_links rfl rfl rfl rfl rfl rfl
  · exact h.of_links rfl rfl rfl rfl rfl rfl

theorem Sound.bindRpc (h : s.Sound size) (k : Nat) : (s.bindRpc k).Sound size := by
  unfold System.bindRpc
  split
  · exact h.of_links rfl rfl rfl rfl rfl rfl
  · exact h.of_links rfl rfl rfl rfl rfl rfl

theorem Sound.gatewayStop (h : s.Sound size) : s.gatewayStop.Sound size := by
  unfold System.gatewayStop
  split
  · exact h.of_links rfl rfl rfl rfl rfl rfl
  · exact h

/-! ## Runs -/

theorem Sound.finished (h : s.Sound size) {i : Nat} {o : Outcome}
    (ht : s.step size (.finished i o) = some t) : t.Sound size := by
  rw [step] at ht
  split at ht
  · next k id c hj =>
      cases ht
      have hmade : (id, c) ∈ s.host.calls.made := h.placed.jobs _ (List.mem_of_getElem? hj)
      have hmem : (⟨k, id, c, .replied o⟩ : Job) ∈ s.gateway.jobs.set i ⟨k, id, c, .replied o⟩ :=
        List.mem_iff_getElem?.2 ⟨i, List.getElem?_set_self (List.getElem?_eq_some_iff.1 hj).1⟩
      have hjob : (s.setJob i ⟨k, id, c, .replied o⟩).Sound size :=
        h.setJob hj rfl rfl (fun _ ho => by cases ho) rfl h.load.2
      refine hjob.reply k ⟨c, hmade, .answer hmem rfl rfl rfl⟩ ?_
      intro v hv hsize
      cases o with
      | returned w =>
          exact ⟨c, hmade, .tooLarge hmem rfl rfl rfl hsize⟩
      | threw e =>
          cases hv
  · cases ht

theorem Sound.freed (h : s.Sound size) {i : Nat} (ht : s.step size (.freed i) = some t) :
    t.Sound size := by
  rw [step] at ht
  split at ht
  · next k id c o hj =>
      cases ht
      have hpos : 0 < s.gateway.jobs.countP Job.counted :=
        List.countP_pos_iff.2 ⟨_, List.mem_of_getElem? hj, rfl⟩
      have hcount := h.load.1
      refine h.setJob hj rfl rfl (fun _ ho => ho) ?_ (Nat.le_trans (Nat.sub_le _ _) h.load.2)
      change s.gateway.inflight - 1 + 1 = s.gateway.inflight + 0
      omega
  · cases ht

theorem Sound.step (h : s.Sound size) {a : Action} (ht : s.step size a = some t) :
    t.Sound size := by
  cases a with
  | start dials =>
      cases ht
      exact h.start dials
  | stop =>
      cases ht
      exact h.stop
  | retryFires dials =>
      obtain ⟨_, ht⟩ := Option.ite_none_right_eq_some.1 ht
      cases ht
      apply Sound.connect
      exact h.of_links rfl rfl rfl rfl rfl rfl
  | opened k ok =>
      obtain ⟨_, ht⟩ := Option.ite_none_right_eq_some.1 ht
      cases ht
      exact h.opened k ok
  | accepted k =>
      obtain ⟨_, ht⟩ := Option.ite_none_right_eq_some.1 ht
      cases ht
      exact h.bindRpc k
  | hostClosing k =>
      obtain ⟨_, ht⟩ := Option.ite_none_right_eq_some.1 ht
      cases ht
      exact h.of_links rfl rfl rfl rfl rfl rfl
  | gatewayClosing k =>
      obtain ⟨_, ht⟩ := Option.ite_none_right_eq_some.1 ht
      cases ht
      exact h.of_links rfl rfl rfl rfl rfl rfl
  | hostClosed k =>
      obtain ⟨_, ht⟩ := Option.ite_none_right_eq_some.1 ht
      cases ht
      exact h.hostClosed k
  | gatewayClosed k =>
      obtain ⟨_, ht⟩ := Option.ite_none_right_eq_some.1 ht
      cases ht
      exact h.of_links rfl rfl rfl rfl rfl rfl
  | gatewayStop =>
      cases ht
      exact h.gatewayStop
  | call c =>
      cases ht
      exact h.call c
  | timeout id =>
      obtain ⟨_, ht⟩ := Option.ite_none_right_eq_some.1 ht
      cases ht
      exact h.timeout id
  | called k =>
      obtain ⟨_, ht⟩ := Option.ite_none_right_eq_some.1 ht
      obtain ⟨⟨⟨id, c⟩, rest⟩, hr, rfl⟩ := Option.map_eq_some_iff.1 ht
      exact h.onRpc hr
  | finished i o =>
      exact h.finished ht
  | freed i =>
      exact h.freed ht
  | answered k =>
      obtain ⟨_, ht⟩ := Option.ite_none_right_eq_some.1 ht
      obtain ⟨⟨⟨id, r⟩, rest⟩, hr, rfl⟩ := Option.map_eq_some_iff.1 ht
      exact h.onMessage hr

theorem new_sound : new.Sound size where
  placed := ⟨Requests.new_books, fun _ h => (nomatch h), fun _ h => (nomatch h), List.nodup_nil,
    fun _ h => (nomatch h)⟩
  honest := ⟨fun _ h => (nomatch h), fun _ h => (nomatch h)⟩
  load := ⟨rfl, Nat.zero_le _⟩

theorem Sound.correct (h : s.Sound size) : s.Correct size where
  served id c hc := by
    have hbooks := h.placed.books
    have hown : ∀ {r}, s.Answered size id r → Gave size s.gateway.jobs s.gateway.refused id c r := by
      rintro r ⟨c', hc', hgave⟩
      exact hbooks.made_unique hc hc' ▸ hgave
    have hdistinct : s.jobIds.Nodup := h.placed.distinct.of_append_right
    refine ⟨hbooks.once hc, List.nodup_iff_count_le_one.1 hdistinct id,
      fun v hv => hown (h.honest.settled _ hv), fun e he => hown (h.honest.settled _ he),
      fun hu hm => h.honest.settled _ hu (List.mem_append_right _ hm), ?_⟩
    intro a e ha he
    cases a with
    | resolved v =>
        cases he
    | rejected e' =>
        cases he
        exact (hown (h.honest.settled _ ha)).plain
    | failed why =>
        cases he
        cases why <;> exact plain_rpcError _
  made := h.placed.jobs
  load := h.load

/-- A call that is carried out and answered. -/
def answeredRun (c : Call) (v : Json) : List Action :=
  [.start true, .accepted 0, .opened 0 true, .call c, .called 0, .finished 0 (.returned (some v)),
    .answered 0, .freed 0]

/-- Over every run of the host, the gateway and their connections. -/
theorem call_served (size : Frame → Nat) {as : List Action} {s : System}
    (h : exec (step size) new as = some s) : s.Correct size :=
  (exec_invariant (fun _ _ _ hs ht => hs.step ht) new_sound h).correct

theorem call_served_answered : ∃ s,
    exec (step fun _ => 0) new (answeredRun ⟨[], [], .null, .null⟩ (.bool true)) = some s ∧
      s.host.calls.settled = [(1, .resolved (.bool true))] ∧ s.Correct fun _ => 0 := by
  refine ⟨_, rfl, rfl, call_served _ (?_ : exec _ new (answeredRun ⟨[], [], .null, .null⟩
    (.bool true)) = some _)⟩
  rfl

end System

end GatewayRpc
end Edge
end GateControl
