import GateControl.Library.Keyed
import GateControl.Ai.Ai

/-!
# AnswerSlots — the slot and the queue of the local AI

Of a call the books of the slots only need to know whether it waits, has a slot, or is over; `Books`
relates these marks to the counter, the queue and the order in which the slots were given.  An abort
or new settings leave the marks of the calls that have a slot, so that only three things happen to
the books: a call comes, a call that waits goes, and a call that has a slot ends.
-/

namespace GateControl
namespace Ai

open Library

inductive Mark
  | waits
  | holds
  /-- The call is over; whether it has had a slot. -/
  | gone (served : Bool)
  deriving DecidableEq, Repr

def Call.mark (c : Call) : Mark :=
  match c.phase with
  | .waiting => .waits
  | .granted | .running _ => .holds
  | .ended (.finished _) => .gone true
  | .ended (.refused _) | .ended .aborted => .gone false

/-- The books of the slots for calls with these marks. -/
structure Books (marks : List Mark) (served : List Nat) (slots : Slots Nat) : Prop where
  fits : slots.Fits maxActive maxWaiting (marks.count .holds)
  ordered : slots.Ordered served
  waiters : marks.count .waits = slots.waiting.length
  waits : ∀ i, i ∈ slots.waiting ↔ marks[i]? = some .waits
  serves : ∀ i, i ∈ served ↔ marks[i]? = some .holds ∨ marks[i]? = some (.gone true)

variable {marks : List Mark} {served : List Nat} {slots : Slots Nat} {i : Nat}

theorem count_replace {m : Mark} (hm : marks[i]? = some m) (m' k : Mark) :
    (marks.set i m').count k + (if m = k then 1 else 0) =
      marks.count k + if m' = k then 1 else 0 := by
  have h := countP_replace (· == k) hm m'
  simpa only [beq_iff_eq, List.count] using h

namespace Books

theorem lt (h : Books marks served slots) : ∀ j ∈ served ++ slots.waiting, j < marks.length := by
  intro j hj
  have hmark : ∃ m, marks[j]? = some m := by
    rcases List.mem_append.1 hj with hj | hj
    · rcases (h.serves j).1 hj with hj | hj
      · exact ⟨_, hj⟩
      · exact ⟨_, hj⟩
    · exact ⟨_, (h.waits j).1 hj⟩
  obtain ⟨m, hm⟩ := hmark
  exact (List.getElem?_eq_some_iff.1 hm).1

theorem start : Books [] [] .new where
  fits := Slots.new_fits _ _
  ordered := Slots.new_ordered
  waiters := rfl
  waits i := by simp [Slots.new]
  serves i := by simp

/-- A call is refused. -/
theorem refuse (h : Books marks served slots) : Books (marks ++ [.gone false]) served slots where
  fits := by
    rw [List.count_append]
    exact h.fits
  ordered := h.ordered
  waiters := by
    rw [List.count_append]
    exact h.waiters
  waits i := by simp [getElem?_concat_iff, h.waits i]
  serves i := by simp [getElem?_concat_iff, h.serves i]

/-- A call takes a free slot. -/
theorem slot (h : Books marks served slots) (hfree : slots.active < maxActive) :
    Books (marks ++ [.holds]) (served ++ [marks.length])
      { slots with active := slots.active + 1 } where
  fits := by
    rw [List.count_append]
    exact h.fits.slot hfree
  ordered := h.ordered.slot (h.fits.nobody hfree) h.lt
  waiters := by
    rw [List.count_append]
    exact h.waiters
  waits i := by simp [getElem?_concat_iff, h.waits i]
  serves i := by
    simp only [List.mem_append, List.mem_singleton, getElem?_concat_iff, h.serves i]
    simp [or_right_comm]

/-- A call waits. -/
theorem queue (h : Books marks served slots) (htaken : maxActive ≤ slots.active)
    (hroom : slots.waiting.length < maxWaiting) :
    Books (marks ++ [.waits]) served { slots with waiting := slots.waiting ++ [marks.length] } where
  fits := by
    rw [List.count_append]
    exact h.fits.queue htaken hroom
  ordered := h.ordered.queue h.lt
  waiters := by
    rw [List.count_append, List.length_append, h.waiters]
    rfl
  waits i := by
    simp only [List.mem_append, List.mem_singleton, getElem?_concat_iff, h.waits i]
    simp
  serves i := by simp [getElem?_concat_iff, h.serves i]

/-- A call that waits is aborted. -/
theorem withdraw (h : Books marks served slots) (hi : marks[i]? = some .waits) :
    Books (marks.set i (.gone false)) served (slots.withdraw i) where
  fits := by
    -- neither mark is a slot that is held, so the holders are as many as before
    have hcount := count_replace hi (.gone false) .holds
    rw [if_neg (by decide), if_neg (by decide)] at hcount
    rw [show (marks.set i (.gone false)).count .holds = marks.count .holds from hcount]
    exact h.fits.withdraw i
  ordered := h.ordered.withdraw i
  waiters := by
    have hcount := count_replace hi (.gone false) .waits
    have hmem : i ∈ slots.waiting := (h.waits i).2 hi
    have hlength := h.waiters
    rw [if_pos rfl, if_neg (by decide)] at hcount
    rw [Slots.withdraw, List.length_erase_of_mem hmem]
    omega
  waits k := by
    -- the numbers in the queue ascend, so the call is taken out altogether
    have hnodup : slots.waiting.Nodup :=
      (List.Pairwise.imp Nat.ne_of_lt h.ordered).sublist (List.sublist_append_right _ _)
    have hlt := (List.getElem?_eq_some_iff.1 hi).1
    rw [Slots.withdraw, hnodup.mem_erase_iff, h.waits k, List.getElem?_set]
    by_cases hk : i = k
    · subst hk
      simp [hlt]
    · simp [hk, Ne.symm hk]
  serves k := by
    rw [h.serves k, List.getElem?_set]
    by_cases hk : i = k
    · subst hk
      simp [hi]
    · rw [if_neg hk]

/-- A call that has a slot ends, and nobody waits for it. -/
theorem free (h : Books marks served slots) (hi : marks[i]? = some .holds)
    (hnobody : slots.waiting = []) :
    Books (marks.set i (.gone true)) served { slots with active := slots.active - 1 } where
  fits := by
    have hcount := count_replace hi (.gone true) .holds
    rw [if_pos rfl, if_neg (by decide)] at hcount
    -- one holder less, and the counter is lowered by one
    refine Slots.Fits.free ?_ hnobody
    rw [hcount]
    exact h.fits
  ordered := h.ordered
  waiters := by
    have hcount := count_replace hi (.gone true) .waits
    rw [if_neg (by decide), if_neg (by decide)] at hcount
    exact hcount.trans h.waiters
  waits k := by
    rw [h.waits k, List.getElem?_set]
    by_cases hk : i = k
    · subst hk
      simp [hi]
    · rw [if_neg hk]
  serves k := by
    have hlt := (List.getElem?_eq_some_iff.1 hi).1
    rw [h.serves k, List.getElem?_set]
    by_cases hk : i = k
    · subst hk
      rw [if_pos rfl, if_pos hlt, hi]
      simp
    · rw [if_neg hk]

/-- A call that has a slot ends, and the slot is passed to the call that waits in front. -/
theorem pass (h : Books marks served slots) (hi : marks[i]? = some .holds) {j : Nat}
    {js : List Nat} (hwaiting : slots.waiting = j :: js) :
    Books ((marks.set i (.gone true)).set j .holds) (served ++ [j])
      { slots with waiting := js } := by
  have hj : marks[j]? = some .waits := (h.waits j).1 (hwaiting ▸ List.mem_cons_self)
  have hne : i ≠ j := by
    rintro rfl
    rw [hi] at hj
    cases hj
  have hj' : (marks.set i (.gone true))[j]? = some .waits := by rw [List.getElem?_set_ne hne, hj]
  have hilt := (List.getElem?_eq_some_iff.1 hi).1
  have hjlt := (List.getElem?_eq_some_iff.1 hj).1
  have hnot : j ∉ js := by
    have hnodup := (List.Pairwise.imp Nat.ne_of_lt h.ordered).sublist
      (List.sublist_append_right served slots.waiting)
    rw [hwaiting] at hnodup
    exact (List.nodup_cons.1 hnodup).1
  -- what the two calls are now, and that nothing else has changed
  have hmark : ∀ k, ((marks.set i (.gone true)).set j .holds)[k]? =
      if j = k then some .holds else if i = k then some (.gone true) else marks[k]? := by
    intro k
    rw [List.getElem?_set, List.getElem?_set, List.length_set]
    simp only [hilt, hjlt, if_true]
  refine ⟨?_, h.ordered.pass hwaiting, ?_, fun k => ?_, fun k => ?_⟩
  · have hfirst := count_replace hi (.gone true) .holds
    have hsecond := count_replace hj' .holds .holds
    simp only [if_true, reduceCtorEq, if_false, Nat.add_zero] at hfirst hsecond
    rw [hsecond, hfirst]
    exact h.fits.pass hwaiting
  · have hfirst := count_replace hi (.gone true) .waits
    have hsecond := count_replace hj' .holds .waits
    have hlength := h.waiters
    simp only [if_true, reduceCtorEq, if_false, Nat.add_zero] at hfirst hsecond
    rw [hwaiting, List.length_cons] at hlength
    dsimp only
    omega
  · have hold := h.waits k
    rw [hwaiting, List.mem_cons] at hold
    rw [hmark k]
    by_cases hjk : j = k
    · subst hjk
      simp [hnot]
    · rw [if_neg hjk]
      by_cases hik : i = k
      · subst hik
        rw [hi] at hold
        simpa [Ne.symm hjk] using hold
      · simpa [hik, Ne.symm hjk] using hold
  · rw [hmark k, List.mem_append, List.mem_singleton, h.serves k]
    by_cases hjk : j = k
    · subst hjk
      simp
    · rw [if_neg hjk]
      by_cases hik : i = k
      · subst hik
        simp [hi]
      · simp [hik, Ne.symm hjk]

end Books

namespace AiService

/-- The books of the service are right. -/
def Booked (s : AiService) : Prop := Books (s.calls.map Call.mark) s.served s.toSlots

variable {s : AiService} {c : Call}

theorem start_booked : Booked start := Books.start

theorem mark_cancel (c : Call) : c.cancel.mark = c.mark := by
  cases hphase : c.phase <;> simp [Call.cancel, Call.mark, hphase]

theorem marks_map_cancel (calls : List Call) :
    (calls.map Call.cancel).map Call.mark = calls.map Call.mark := by
  rw [List.map_map]
  exact List.map_congr_left fun c _ => mark_cancel c

/-- A call is changed, and its mark is not. -/
theorem marks_modify {calls : List Call} {f : Call → Call} (hc : calls[i]? = some c)
    (hf : (f c).mark = c.mark) : (calls.modify i f).map Call.mark = calls.map Call.mark := by
  have hmark : (calls.map Call.mark)[i]? = some c.mark := by rw [List.getElem?_map, hc]; rfl
  obtain ⟨hlt, hget⟩ := List.getElem?_eq_some_iff.1 hmark
  rw [map_modify_of hc, hf, ← hget, List.set_getElem_self]

theorem Booked.apply (h : Booked s) (cfg : AiConfig) : Booked (s.apply cfg) := by
  rw [AiService.apply]
  split
  · exact h
  · rw [Booked]
    dsimp only
    split
    · exact h
    · rw [marks_map_cancel]
      exact h

theorem Booked.stop (h : Booked s) : Booked s.stop := by
  rw [Booked, AiService.stop, marks_map_cancel]
  exact h

/-- What `chat` does, by what `_slot` gives. -/
theorem chat_cases (s : AiService) (aborted : Bool) :
    (s.backend = none ∧ s.chat aborted =
        { s with calls := s.calls ++ [⟨none, aborted, .ended (.refused .disabled)⟩] }) ∨
      ∃ b, s.backend = some b ∧
        ((s.active < maxActive ∧ s.chat aborted =
            { s with
              active := s.active + 1
              calls := s.calls ++ [⟨some b, aborted, .granted⟩]
              served := s.served ++ [s.calls.length] }) ∨
          (maxActive ≤ s.active ∧ maxWaiting ≤ s.waiting.length ∧ s.chat aborted =
            { s with calls := s.calls ++ [⟨some b, aborted, .ended (.refused .busy)⟩] }) ∨
          (maxActive ≤ s.active ∧ s.waiting.length < maxWaiting ∧ s.chat aborted =
            { s with
              waiting := s.waiting ++ [s.calls.length]
              calls := s.calls ++ [⟨some b, aborted, .waiting⟩] })) := by
  rw [chat]
  cases hb : s.backend with
  | none =>
      exact .inl ⟨rfl, rfl⟩
  | some b =>
      refine .inr ⟨b, rfl, ?_⟩
      rcases s.toSlots.take_cases maxActive maxWaiting s.calls.length with
        ⟨hfree, htake⟩ | ⟨htaken, hfull, htake⟩ | ⟨htaken, hroom, htake⟩
      · exact .inl ⟨hfree, by simp only [slot, htake]⟩
      · exact .inr (.inl ⟨htaken, hfull, by simp only [slot, htake]⟩)
      · exact .inr (.inr ⟨htaken, hroom, by simp only [slot, htake]⟩)

theorem Booked.chat (h : Booked s) (aborted : Bool) : Booked (s.chat aborted) := by
  have hlength : (s.calls.map Call.mark).length = s.calls.length := List.length_map _
  rcases chat_cases s aborted with ⟨_, heq⟩ | ⟨b, _, ⟨hfree, heq⟩ | ⟨_, _, heq⟩ | ⟨htaken, hroom, heq⟩⟩
  · rw [heq, Booked, List.map_append]
    exact h.refuse
  · rw [heq, Booked, List.map_append, ← hlength]
    exact h.slot hfree
  · rw [heq, Booked, List.map_append]
    exact h.refuse
  · rw [heq, Booked, List.map_append, ← hlength]
    exact h.queue htaken hroom

theorem Booked.abort (h : Booked s) (hc : s.calls[i]? = some c) : Booked (s.abort i c) := by
  have hmark : (s.calls.map Call.mark)[i]? = some c.mark := by rw [List.getElem?_map, hc]; rfl
  rw [AiService.abort, Booked]
  cases hphase : c.phase with
  | waiting =>
      dsimp only
      rw [map_modify_of hc]
      rw [Call.mark, hphase] at hmark
      exact h.withdraw hmark
  | granted =>
      dsimp only
      rw [marks_modify hc rfl]
      exact h
  | running cancelled =>
      dsimp only
      rw [marks_modify hc (by simp only [Call.mark, hphase])]
      exact h
  | ended outcome =>
      dsimp only
      rw [marks_modify hc rfl]
      exact h

theorem Booked.finish (h : Booked s) (hc : s.calls[i]? = some c) (hmark : c.mark = .holds)
    (ok : Bool) : Booked (s.finish i ok) := by
  have hmark : (s.calls.map Call.mark)[i]? = some .holds := by
    rw [List.getElem?_map, hc, ← hmark]
    rfl
  have hgone : (s.calls.modify i fun c => { c with phase := .ended (.finished ok) }).map Call.mark =
      (s.calls.map Call.mark).set i (.gone true) := map_modify_of hc
  rw [AiService.finish]
  rcases s.toSlots.release_cases with ⟨hnobody, heq⟩ | ⟨j, js, hwaiting, heq⟩
  · rw [heq, Booked]
    dsimp only
    rw [hgone]
    exact h.free hmark hnobody
  · have hj : (s.calls.map Call.mark)[j]? = some .waits :=
      (h.waits j).1 (hwaiting ▸ List.mem_cons_self)
    have hne : i ≠ j := by
      rintro rfl
      rw [hmark] at hj
      cases hj
    obtain ⟨d, hd, _⟩ := Option.map_eq_some_iff.1 (List.getElem?_map ▸ hj)
    rw [heq, Booked]
    dsimp only
    rw [map_modify_of (a := d) (by rw [List.getElem?_modify_ne _ _ hne, hd]), hgone]
    exact h.pass hmark hwaiting

theorem step_booked (s : AiService) (a : Action) (s' : AiService) (h : Booked s)
    (hstep : step s a = some s') : Booked s' := by
  cases a with
  | apply cfg =>
      cases hstep
      exact h.apply cfg
  | stop =>
      cases hstep
      exact h.stop
  | tick reachable =>
      cases hstep
      exact h
  | chat aborted =>
      cases hstep
      exact h.chat aborted
  | abort i =>
      obtain ⟨c, hc, hrest⟩ := Option.bind_eq_some_iff.1 hstep
      split at hrest
      · cases hrest
      · cases hrest
        exact h.abort hc
  | use i throws =>
      obtain ⟨c, hc, hrest⟩ := Option.bind_eq_some_iff.1 hstep
      split at hrest
      · cases hrest
      · rename_i hphase
        have hmark : c.mark = .holds := by rw [Call.mark, not_not.1 hphase]
        split at hrest
        · cases hrest
          -- the backend throws at once: the call ends and gives its slot back
          exact h.finish hc hmark false
        · cases hrest
          -- the call goes on with its slot, which is no change for the books
          have hmarks := marks_modify (f := fun c => { c with phase := .running false }) hc hmark.symm
          rw [Booked]
          dsimp only
          rw [hmarks]
          exact h
  | settle i ok =>
      obtain ⟨c, hc, hrest⟩ := Option.bind_eq_some_iff.1 hstep
      split at hrest
      · rename_i hruns
        cases hrest
        refine h.finish hc ?_ ok
        rw [Call.runs] at hruns
        rw [Call.mark]
        cases hphase : c.phase <;> simp_all
      · cases hrest

theorem count_mark (calls : List Call) (m : Mark) :
    (calls.map Call.mark).count m = calls.countP fun c => c.mark = m := by
  rw [List.count, List.countP_map]
  exact List.countP_congr fun c _ => by simp

theorem mark_holds_iff (c : Call) : c.mark = .holds ↔ c.holds = true := by
  cases hphase : c.phase with
  | ended outcome =>
      cases outcome <;> simp [Call.mark, Call.holds, hphase]
  | _ =>
      simp [Call.mark, Call.holds, hphase]

theorem holds_of_runs {c : Call} (h : c.runs = true) : c.holds = true := by
  cases hphase : c.phase <;> simp_all [Call.runs, Call.holds]

theorem Booked.count_holds (h : Booked s) : s.calls.countP Call.holds = s.active := by
  have hcount := h.fits.count
  rw [count_mark] at hcount
  rw [hcount]
  exact List.countP_congr fun c _ => by simp [mark_holds_iff]

theorem Booked.count_waiting (h : Booked s) :
    s.calls.countP (fun c => c.phase = .waiting) = s.waiting.length := by
  have hcount := h.waiters
  rw [count_mark] at hcount
  rw [← hcount]
  refine List.countP_congr fun c _ => ?_
  cases hphase : c.phase with
  | ended outcome =>
      cases outcome <;> simp [Call.mark, hphase]
  | _ =>
      simp [Call.mark, hphase]

/-- The slot is taken by a call, and the queue is full of calls that wait. -/
def Busy (s : AiService) : Prop :=
  s.calls.countP Call.holds = maxActive ∧
    s.calls.countP (fun c => c.phase = .waiting) = maxWaiting

theorem Booked.busy (h : Booked s) (htaken : maxActive ≤ s.active)
    (hfull : maxWaiting ≤ s.waiting.length) : Busy s := by
  obtain ⟨hactive, hlength⟩ := h.fits.full htaken hfull
  exact ⟨h.count_holds.trans hactive, h.count_waiting.trans hlength⟩

/-- No call is refused as busy by `chat` while a slot or a place in the queue is free. -/
theorem Booked.busy_of_chat (h : Booked s) {aborted : Bool}
    (hchat : (s.chat aborted).calls = s.calls ++ [c]) (hc : c.phase = .ended (.refused .busy)) :
    Busy s := by
  have hlast : ∀ {d : Call}, s.calls ++ [d] = s.calls ++ [c] → d.phase = .ended (.refused .busy) := by
    intro d heq
    rw [List.append_cancel_left_eq, List.singleton_inj] at heq
    rw [heq, hc]
  rcases chat_cases s aborted with ⟨_, heq⟩ | ⟨b, _, ⟨_, heq⟩ | ⟨htaken, hfull, _⟩ | ⟨_, _, heq⟩⟩
  · rw [heq] at hchat
    cases hlast hchat
  · rw [heq] at hchat
    cases hlast hchat
  · exact h.busy htaken hfull
  · rw [heq] at hchat
    cases hlast hchat

theorem Booked.busy_of_canChat (h : Booked s) {managed : Bool}
    (hcan : s.canChat managed = some .busy) : Busy s := by
  simp only [canChat] at hcan
  split at hcan
  · cases hcan
  · split at hcan
    · cases hcan
    · split at hcan
      · rename_i hfull
        simp only [ge_iff_le, Bool.and_eq_true, decide_eq_true_eq] at hfull
        exact h.busy hfull.1 hfull.2
      · cases hcan

/-- When all calls are over, nothing is left of them in the counter and in the queue. -/
theorem Booked.none_left (h : Booked s) (hover : ∀ c ∈ s.calls, c.pending = false) :
    s.active = 0 ∧ s.waiting = [] := by
  have hactive : s.calls.countP Call.holds = 0 := by
    refine List.countP_eq_zero.2 fun c hc hholds => ?_
    have hgone := hover c hc
    cases hphase : c.phase <;> simp_all [Call.pending, Call.holds]
  have hwaiting : s.calls.countP (fun c => c.phase = .waiting) = 0 := by
    refine List.countP_eq_zero.2 fun c hc hwaits => ?_
    have hgone := hover c hc
    rw [Call.pending, of_decide_eq_true hwaits] at hgone
    cases hgone
  rw [h.count_holds] at hactive
  rw [h.count_waiting] at hwaiting
  exact ⟨hactive, List.length_eq_zero_iff.1 hwaiting⟩

/-- In every run at most `MAX_ACTIVE` backends answer and at most `MAX_WAITING` calls wait; the
calls get their slots in order of arrival, and those that wait are the later ones; a call is refused
as busy only when the slot is taken and the queue is full; and when no call is pending, no slot is
taken and nobody is in the queue. -/
theorem answer_slots {as : List Action} (hrun : exec step start as = some s) :
    (s.calls.countP Call.runs ≤ maxActive ∧
        s.calls.countP (fun c => c.phase = .waiting) ≤ maxWaiting) ∧
      ((s.served ++ s.waiting).Pairwise (· < ·) ∧
        (∀ i, i ∈ s.served ↔ ∃ c, s.calls[i]? = some c ∧ c.served = true) ∧
        ∀ i, i ∈ s.waiting ↔ ∃ c, s.calls[i]? = some c ∧ c.phase = .waiting) ∧
      ((∀ aborted c, (s.chat aborted).calls = s.calls ++ [c] →
          c.phase = .ended (.refused .busy) → Busy s) ∧
        ∀ managed, s.canChat managed = some .busy → Busy s) ∧
      ((∀ c ∈ s.calls, c.pending = false) → s.active = 0 ∧ s.waiting = []) := by
  have h : Booked s := exec_invariant step_booked start_booked hrun
  refine ⟨⟨?_, ?_⟩, ⟨h.ordered, fun i => ?_, fun i => ?_⟩,
    ⟨fun _ _ => h.busy_of_chat, fun _ => h.busy_of_canChat⟩, h.none_left⟩
  · calc s.calls.countP Call.runs
        ≤ s.calls.countP Call.holds := List.countP_mono_left fun c _ => holds_of_runs
      _ = s.active := h.count_holds
      _ ≤ maxActive := h.fits.within
  · rw [h.count_waiting]
    exact h.fits.short
  · -- the mark of a call says whether it was served
    rw [h.serves i, List.getElem?_map]
    cases s.calls[i]? with
    | none =>
        simp
    | some c =>
        cases hphase : c.phase with
        | ended outcome =>
            cases outcome <;> simp [Call.mark, Call.served, hphase]
        | _ =>
            simp [Call.mark, Call.served, hphase]
  · -- and whether it waits
    rw [h.waits i, List.getElem?_map]
    cases s.calls[i]? with
    | none =>
        simp
    | some c =>
        cases hphase : c.phase with
        | ended outcome =>
            cases outcome <;> simp [Call.mark, hphase]
        | _ =>
            simp [Call.mark, hphase]

/-- Three calls come; the second is aborted while it waits, and the third gets the slot. -/
theorem answer_slots_threeCalls :
    ∃ s, exec step start [.apply ⟨true, .service⟩, .chat false, .chat false, .chat false,
        .use 0 false, .abort 1, .settle 0 true] = some s ∧
      s.served = [0, 2] ∧ s.calls.countP Call.runs ≤ maxActive := by
  obtain ⟨s, hs, hserved⟩ : ∃ s, exec step start [.apply ⟨true, .service⟩, .chat false, .chat false,
      .chat false, .use 0 false, .abort 1, .settle 0 true] = some s ∧ s.served = [0, 2] :=
    ⟨_, rfl, by decide⟩
  exact ⟨s, hs, hserved, (answer_slots hs).1.1⟩

end AiService

end Ai
end GateControl
