import GateControl.Library.Keyed
import GateControl.Library.Requests

/-!
# Exchange — calls that are carried out elsewhere

A caller sends its calls over wires; at the other end each becomes a job, and what the job comes to
goes back.  A message may stay on the way for ever, and the caller may give a call up at any time,
but numbers are never used again.  So a call is carried out at most once, and it is settled with an
answer only if that is what its own job came to (`Served`).

The parts of the invariant are where the calls stand (`Placed`) and what the answers are
(`Honest`); the first does not depend on what comes back.
-/

namespace GateControl
namespace Library

universe u v w

variable {ρ : Type u} {β : Type v} {α : Type w}

/-- A call at the other end. -/
structure Job (ρ : Type u) (β : Type v) where
  wire : Nat
  id : Nat
  req : ρ
  answer : Option β

/-- What a settlement stands for. -/
inductive Verdict (β : Type v)
  | answered (b : β)
  | givenUp
  | unsent

/-- `up` and `down` are the messages on the way, with their wire. -/
structure Exchange (ρ : Type u) (β : Type v) (α : Type w) where
  calls : Requests ρ α
  up : List (Nat × Nat × ρ)
  jobs : List (Job ρ β)
  down : List (Nat × Nat × β)

namespace Exchange

def new : Exchange ρ β α := ⟨.new, [], [], []⟩

variable (s : Exchange ρ β α)

def skip : Exchange ρ β α := { s with calls := s.calls.skip }

def send (k : Nat) (r : ρ) : Exchange ρ β α :=
  { s with calls := s.calls.make r, up := s.up ++ [(k, s.calls.fresh, r)] }

/-- A call that is settled instead of being sent. -/
def decline (r : ρ) (a : α) : Exchange ρ β α :=
  { s with calls := (s.calls.make r).settle s.calls.fresh a }

def settle (n : Nat) (a : α) : Exchange ρ β α := { s with calls := s.calls.settle n a }

def settleAll (a : α) : Exchange ρ β α := { s with calls := s.calls.settleAll a }

/-- The first call on a wire becomes a job; `answer` is for one that is answered at once. -/
def accept (k : Nat) (answer : ρ → Option β) : Option (Job ρ β × Exchange ρ β α) :=
  (receive k s.up).map fun m =>
    let j := ⟨k, m.1.1, m.1.2, answer m.1.2⟩
    (j, { s with up := m.2, jobs := s.jobs ++ [j] })

/-- A job comes to its end. -/
def finish (i : Nat) (b : β) : Option (Job ρ β × Exchange ρ β α) :=
  match s.jobs[i]? with
  | some ⟨k, n, r, none⟩ =>
      let j := ⟨k, n, r, some b⟩
      some (j, { s with jobs := s.jobs.set i j })
  | _ => none

def push (k n : Nat) (b : β) : Exchange ρ β α := { s with down := s.down ++ [(k, n, b)] }

/-- The first answer on a wire settles what waits for it. -/
def deliver (k : Nat) (settlement : β → α) : Option (Exchange ρ β α) :=
  (receive k s.down).map fun m =>
    { s with down := m.2, calls := s.calls.settle m.1.1 (settlement m.1.2) }

def jobIds : List Nat := s.jobs.map Job.id

/-- The jobs that have not come to an end. -/
def load : Nat := s.jobs.countP fun j => j.answer.isNone

/-! ## What holds in every run -/

def upIds : List Nat := s.up.map fun m => m.2.1

/-- The calls that are on the way or have become a job. -/
def underway : List Nat := s.upIds ++ s.jobIds

/-- Each call stands in one place, under its own number. -/
structure Placed : Prop where
  books : s.calls.Books
  sent : ∀ m ∈ s.up, m.2 ∈ s.calls.made
  jobs : ∀ j ∈ s.jobs, (j.id, j.req) ∈ s.calls.made
  distinct : s.underway.Nodup

/-- What the job of a call has come to. -/
def Given (n : Nat) (b : β) : Prop := ∃ j ∈ s.jobs, j.id = n ∧ j.answer = some b

/-- What is asked of a settlement. -/
def Justified (n : Nat) : Verdict β → Prop
  | .answered b => s.Given n b
  | .givenUp => True
  | .unsent => n ∉ s.underway

structure Honest (verdict : α → Verdict β) : Prop where
  replies : ∀ m ∈ s.down, s.Given m.2.1 m.2.2
  settled : ∀ x ∈ s.calls.settled, s.Justified x.1 (verdict x.2)

/-- A call waits or is settled once, it is carried out at most once, and the answer that it gets is
what its own job came to. -/
structure Served (verdict : α → Verdict β) (n : Nat) (r : ρ) : Prop where
  once : (s.calls.settled.map Prod.fst).count n = if n ∈ s.calls.pending then 0 else 1
  carriedOut : s.jobIds.count n ≤ 1
  answered : ∀ a b, (n, a) ∈ s.calls.settled → verdict a = .answered b →
    ∃ j ∈ s.jobs, j.id = n ∧ j.req = r ∧ j.answer = some b
  unsent : ∀ a, (n, a) ∈ s.calls.settled → verdict a = .unsent → n ∉ s.jobIds

variable {s} {t : Exchange ρ β α} {verdict : α → Verdict β} {n k i : Nat} {r : ρ} {a : α} {b : β}
  {j : Job ρ β}

theorem new_placed : (new : Exchange ρ β α).Placed :=
  ⟨Requests.new_books, fun _ h => (nomatch h), fun _ h => (nomatch h), List.nodup_nil⟩

theorem new_honest : (new : Exchange ρ β α).Honest verdict :=
  ⟨fun _ h => (nomatch h), fun _ h => (nomatch h)⟩

/-! ## The calls -/

theorem Placed.of_calls (h : s.Placed) {calls : Requests ρ α} (hbooks : calls.Books)
    (hmade : s.calls.made ⊆ calls.made) : ({ s with calls := calls } : Exchange ρ β α).Placed :=
  ⟨hbooks, fun m hm => hmade (h.sent m hm), fun j hj => hmade (h.jobs j hj), h.distinct⟩

theorem Placed.skip (h : s.Placed) : s.skip.Placed :=
  h.of_calls h.books.skip (List.Subset.refl _)

theorem Placed.settle (h : s.Placed) (n : Nat) (a : α) : (s.settle n a).Placed :=
  h.of_calls (h.books.settle n a) (by rw [Requests.made_settle]; exact List.Subset.refl _)

theorem Placed.settleAll (h : s.Placed) (a : α) : (s.settleAll a).Placed :=
  h.of_calls (h.books.settleAll a) (List.Subset.refl _)

theorem Placed.decline (h : s.Placed) (r : ρ) (a : α) : (s.decline r a).Placed := by
  refine h.of_calls ((h.books.make r).settle _ _) ?_
  rw [Requests.made_settle]
  exact List.subset_append_left _ _

/-- The next number has not been used for anything. -/
theorem Placed.fresh_not_mem (h : s.Placed) : s.calls.fresh ∉ s.underway := by
  intro hm
  rcases List.mem_append.1 hm with hup | hjob
  · obtain ⟨m, hm, heq⟩ := List.mem_map.1 hup
    exact h.books.ne_fresh (h.sent m hm) heq
  · obtain ⟨j, hj, heq⟩ := List.mem_map.1 hjob
    exact h.books.ne_fresh (h.jobs j hj) heq

theorem underway_send (k : Nat) (r : ρ) :
    (s.send k r).underway.Perm (s.calls.fresh :: s.underway) := by
  have hup : (s.send k r).upIds = s.upIds ++ [s.calls.fresh] := List.map_append
  rw [underway, hup, List.append_assoc]
  exact List.perm_middle

theorem Placed.send (h : s.Placed) (k : Nat) (r : ρ) : (s.send k r).Placed := by
  have hmore : s.calls.made ⊆ (s.calls.make r).made := List.subset_append_left _ _
  refine ⟨h.books.make r, ?_, fun j hj => hmore (h.jobs j hj), ?_⟩
  · intro m hm
    rcases List.mem_append.1 hm with hold | hnew
    · exact hmore (h.sent m hold)
    · obtain rfl := List.mem_singleton.1 hnew
      exact List.mem_append_right _ (List.mem_singleton_self _)
  · exact (underway_send k r).nodup_iff.2 (List.nodup_cons.2 ⟨h.fresh_not_mem, h.distinct⟩)

/-- Nothing that has been given is taken back. -/
theorem Honest.of_frame (h : s.Honest verdict)
    (hgiven : ∀ n b, s.Given n b → t.Given n b)
    (hunderway : ∀ x ∈ s.calls.settled, x.1 ∈ t.underway → x.1 ∈ s.underway)
    (hdown : ∀ m ∈ t.down, m ∈ s.down ∨ t.Given m.2.1 m.2.2)
    (hsettled : ∀ x ∈ t.calls.settled, x ∈ s.calls.settled ∨ t.Justified x.1 (verdict x.2)) :
    t.Honest verdict where
  replies m hm := (hdown m hm).elim (fun hold => hgiven _ _ (h.replies m hold)) id
  settled x hx := by
    rcases hsettled x hx with hold | hnew
    · have hjust := h.settled x hold
      generalize verdict x.2 = v at hjust
      cases v with
      | answered b =>
          exact hgiven _ _ hjust
      | givenUp =>
          trivial
      | unsent =>
          exact fun hm => hjust (hunderway x hold hm)
    · exact hnew

theorem Honest.of_calls (h : s.Honest verdict) {calls : Requests ρ α}
    (hsettled : ∀ x ∈ calls.settled, x ∈ s.calls.settled ∨ s.Justified x.1 (verdict x.2)) :
    ({ s with calls := calls } : Exchange ρ β α).Honest verdict := by
  refine h.of_frame (fun _ _ hg => hg) (fun _ _ hm => hm) (fun _ hm => Or.inl hm) ?_
  intro x hx
  refine (hsettled x hx).imp_right fun hjust => ?_
  generalize verdict x.2 = v at hjust
  cases v with
  | answered b => exact hjust
  | givenUp => trivial
  | unsent => exact hjust

theorem Honest.skip (h : s.Honest verdict) : s.skip.Honest verdict :=
  h.of_calls fun _ hx => Or.inl hx

theorem Honest.settle (h : s.Honest verdict) (n : Nat) (ha : s.Justified n (verdict a)) :
    (s.settle n a).Honest verdict := by
  refine h.of_calls ?_
  rintro ⟨m, a'⟩ hx
  rcases Requests.mem_settled_settle hx with hold | ⟨rfl, rfl, _⟩
  · exact Or.inl hold
  · exact Or.inr ha

theorem Honest.settleAll (h : s.Honest verdict) (ha : verdict a = .givenUp) :
    (s.settleAll a).Honest verdict := by
  refine h.of_calls ?_
  rintro ⟨m, a'⟩ hx
  rcases Requests.mem_settled_settleAll hx with hold | ⟨rfl, _⟩
  · exact Or.inl hold
  · right
    rw [ha]
    trivial

theorem Honest.decline (h : s.Honest verdict) (hp : s.Placed) (r : ρ) (ha : verdict a = .unsent) :
    (s.decline r a).Honest verdict := by
  refine h.of_calls ?_
  rintro ⟨m, a'⟩ hx
  rcases Requests.mem_settled_settle hx with hold | ⟨rfl, rfl, _⟩
  · exact Or.inl hold
  · right
    rw [ha]
    exact hp.fresh_not_mem

theorem Honest.send (h : s.Honest verdict) (hp : s.Placed) (k : Nat) (r : ρ) :
    (s.send k r).Honest verdict := by
  refine h.of_frame (fun _ _ hg => hg) ?_ (fun _ hm => Or.inl hm) fun _ hx => Or.inl hx
  rintro ⟨m, a⟩ hx hm
  rcases List.mem_cons.1 ((underway_send k r).subset hm) with heq | hold
  · obtain ⟨r', hr'⟩ := hp.books.made_of_settled hx
    exact absurd heq (hp.books.ne_fresh hr')
  · exact hold

/-! ## The jobs -/

theorem accept_spec {answer : ρ → Option β} (hs : s.accept k answer = some (j, t)) :
    ∃ rest, receive k s.up = some ((j.id, j.req), rest) ∧ j.wire = k ∧ j.answer = answer j.req ∧
      t = { s with up := rest, jobs := s.jobs ++ [j] } := by
  obtain ⟨⟨⟨n, r⟩, rest⟩, hr, heq⟩ := Option.map_eq_some_iff.1 hs
  cases heq
  exact ⟨rest, hr, rfl, rfl, rfl⟩

theorem underway_accept {answer : ρ → Option β} (hs : s.accept k answer = some (j, t)) :
    t.underway.Perm s.underway := by
  obtain ⟨rest, hr, _, _, rfl⟩ := accept_spec hs
  have hups : s.upIds.Perm (j.id :: rest.map fun m => m.2.1) :=
    (receive_perm hr).map fun m : Nat × Nat × ρ => m.2.1
  have hjobs : (s.jobs ++ [j]).map Job.id = s.jobIds ++ [j.id] := List.map_append
  change (rest.map (fun m => m.2.1) ++ (s.jobs ++ [j]).map Job.id).Perm _
  rw [hjobs, ← List.append_assoc]
  exact (List.perm_append_singleton _ _).trans (hups.symm.append_right s.jobIds)

theorem Placed.accept {answer : ρ → Option β} (h : s.Placed)
    (hs : s.accept k answer = some (j, t)) : t.Placed := by
  have hunder := underway_accept hs
  obtain ⟨rest, hr, _, _, rfl⟩ := accept_spec hs
  refine ⟨h.books, fun m hm => h.sent m (receive_subset hr hm), ?_,
    hunder.nodup_iff.2 h.distinct⟩
  intro q hq
  rcases List.mem_append.1 hq with hold | hnew
  · exact h.jobs q hold
  · obtain rfl := List.mem_singleton.1 hnew
    exact h.sent _ (receive_mem hr)

theorem Honest.accept {answer : ρ → Option β} (h : s.Honest verdict)
    (hs : s.accept k answer = some (j, t)) : t.Honest verdict := by
  have hunder := underway_accept hs
  obtain ⟨rest, hr, _, _, rfl⟩ := accept_spec hs
  refine h.of_frame ?_ (fun _ _ hm => hunder.subset hm) (fun _ hm => Or.inl hm) fun _ hx => Or.inl hx
  rintro n b ⟨q, hq, hgiven⟩
  exact ⟨q, List.mem_append_left _ hq, hgiven⟩

theorem finish_spec (hs : s.finish i b = some (j, t)) :
    ∃ j', s.jobs[i]? = some j' ∧ j'.answer = none ∧ j = { j' with answer := some b } ∧
      t = { s with jobs := s.jobs.set i j } := by
  unfold finish at hs
  split at hs
  · next k n r hj =>
      cases hs
      exact ⟨_, hj, rfl, rfl, rfl⟩
  · cases hs

theorem jobIds_finish (hs : s.finish i b = some (j, t)) : t.jobIds = s.jobIds := by
  obtain ⟨j', hj', _, rfl, rfl⟩ := finish_spec hs
  exact map_key_set hj' rfl

theorem mem_jobs_finish (hs : s.finish i b = some (j, t)) : j ∈ t.jobs := by
  obtain ⟨j', hj', _, rfl, rfl⟩ := finish_spec hs
  exact List.mem_iff_getElem?.2 ⟨i, List.getElem?_set_self (List.getElem?_eq_some_iff.1 hj').1⟩

theorem Placed.finish (h : s.Placed) (hs : s.finish i b = some (j, t)) : t.Placed := by
  have hids := jobIds_finish hs
  obtain ⟨j', hj', _, rfl, rfl⟩ := finish_spec hs
  refine ⟨h.books, h.sent, ?_, ?_⟩
  · intro q hq
    rcases List.mem_or_eq_of_mem_set hq with hold | rfl
    · exact h.jobs q hold
    · exact h.jobs j' (List.mem_of_getElem? hj')
  · change (s.upIds ++ jobIds _).Nodup
    rw [hids]
    exact h.distinct

/-- A job that has come to an end stays as it is. -/
theorem Honest.finish (h : s.Honest verdict) (hs : s.finish i b = some (j, t)) :
    t.Honest verdict := by
  have hids := jobIds_finish hs
  obtain ⟨j', hj', hnone, rfl, rfl⟩ := finish_spec hs
  refine h.of_frame ?_ ?_ (fun _ hm => Or.inl hm) fun _ hx => Or.inl hx
  · rintro n b' ⟨q, hq, hid, hans⟩
    refine ⟨q, ?_, hid, hans⟩
    obtain ⟨m, hm⟩ := List.mem_iff_getElem?.1 hq
    refine List.mem_iff_getElem?.2 ⟨m, ?_⟩
    rw [List.getElem?_set_ne]
    · exact hm
    · rintro rfl
      rw [hj'] at hm
      cases hm
      rw [hnone] at hans
      cases hans
  · intro x _ hm
    change x.1 ∈ s.upIds ++ jobIds _ at hm
    rw [hids] at hm
    exact hm

theorem load_accept {answer : ρ → Option β} (hs : s.accept k answer = some (j, t)) :
    t.load = s.load + if j.answer.isNone then 1 else 0 := by
  obtain ⟨rest, _, _, _, rfl⟩ := accept_spec hs
  change (s.jobs ++ [j]).countP _ = _
  rw [List.countP_append, List.countP_singleton]
  rfl

theorem load_finish (hs : s.finish i b = some (j, t)) : t.load + 1 = s.load := by
  obtain ⟨j', hj', hnone, rfl, rfl⟩ := finish_spec hs
  have hcount := countP_replace (fun j : Job ρ β => j.answer.isNone) hj' { j' with answer := some b }
  rw [hnone] at hcount
  exact hcount

/-! ## The way back -/

theorem Placed.push (h : s.Placed) (k n : Nat) (b : β) : (s.push k n b).Placed :=
  ⟨h.books, h.sent, h.jobs, h.distinct⟩

theorem Honest.push (h : s.Honest verdict) (k : Nat) (hb : s.Given n b) :
    (s.push k n b).Honest verdict := by
  refine h.of_frame (fun _ _ hg => hg) (fun _ _ hm => hm) ?_ fun _ hx => Or.inl hx
  intro m hm
  rcases List.mem_append.1 hm with hold | hnew
  · exact Or.inl hold
  · obtain rfl := List.mem_singleton.1 hnew
    exact Or.inr hb

theorem Placed.deliver {settlement : β → α} (h : s.Placed)
    (hs : s.deliver k settlement = some t) : t.Placed := by
  obtain ⟨m, _, rfl⟩ := Option.map_eq_some_iff.1 hs
  have hcalls := h.settle m.1.1 (settlement m.1.2)
  exact ⟨hcalls.books, hcalls.sent, hcalls.jobs, hcalls.distinct⟩

/-- What comes back is taken as what it is. -/
theorem Honest.deliver {settlement : β → α} (h : s.Honest verdict)
    (hverdict : ∀ n b, s.Given n b → verdict (settlement b) = .answered b)
    (hs : s.deliver k settlement = some t) : t.Honest verdict := by
  obtain ⟨⟨⟨n, b⟩, rest⟩, hr, rfl⟩ := Option.map_eq_some_iff.1 hs
  have hgiven : s.Given n b := h.replies _ (receive_mem hr)
  have hjust : s.Justified n (verdict (settlement b)) := by
    rw [hverdict n b hgiven]
    exact hgiven
  have hcalls := h.settle n hjust
  exact ⟨fun m hm => h.replies m (receive_subset hr hm), hcalls.settled⟩

/-! ## Runs -/

theorem served (hp : s.Placed) (hh : s.Honest verdict) (hr : (n, r) ∈ s.calls.made) :
    s.Served verdict n r := by
  have hdistinct : s.jobIds.Nodup := hp.distinct.of_append_right
  refine ⟨hp.books.once hr, List.nodup_iff_count_le_one.1 hdistinct n, ?_, ?_⟩
  · intro a b ha hb
    have hjust := hh.settled _ ha
    rw [hb] at hjust
    obtain ⟨j, hj, rfl, hans⟩ := hjust
    exact ⟨j, hj, rfl, hp.books.made_unique (hp.jobs j hj) hr, hans⟩
  · intro a ha hv hm
    have hjust := hh.settled _ ha
    rw [hv] at hjust
    exact hjust (List.mem_append_right _ hm)

end Exchange

end Library
end GateControl
