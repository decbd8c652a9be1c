import GateControl.Library.Transition
import Mathlib.Data.List.Range

/-!
# EventQueue — the messages about camera events on their way to the server

`_queue` appends a message to `pending` and drops the oldest ones when there are more than
`maxPending`.  `_flush` posts the first messages and removes as many from the front of `pending`
when the post has succeeded.

When the queue overflows during a post, the front of `pending` is not what was posted any more, and
messages that nobody has seen are removed.  In runs where no post succeeds after that, none is lost.
-/

namespace GateControl
namespace Cameras

open Library

def maxPending : Nat := 200

def batchMax : Nat := 32

/-- The messages of a post.  `trimmed` counts the messages that have been dropped since it began. -/
structure Post (μ : Type) where
  batch : List (Nat × μ)
  trimmed : Nat

/-- Each message has the number of messages queued before it.  `flushing` is the post that is being
awaited.  `queued`, `delivered` and `dropped` record what has been queued, what was in a successful
post and what has fallen out; nothing reads them. -/
structure EventQueue (μ : Type) where
  reporter : Bool
  pending : List (Nat × μ)
  flushing : Option (Post μ)
  queued : List μ
  delivered : List Nat
  dropped : List Nat

namespace EventQueue

variable {μ : Type}

def new (reporter : Bool) : EventQueue μ := ⟨reporter, [], none, [], [], []⟩

variable (q : EventQueue μ)

/-- The numbers of the messages in the queue. -/
def numbers : List Nat := q.pending.map Prod.fst

/-- The loop of `_flush`, up to its next post. -/
def post : EventQueue μ :=
  if q.pending = [] then { q with flushing := none }
  else { q with flushing := some ⟨q.pending.take batchMax, 0⟩ }

def flush : EventQueue μ :=
  if q.reporter = false ∨ q.pending = [] ∨ q.flushing ≠ none then q else q.post

def push (m : μ) : EventQueue μ :=
  { q with pending := q.pending ++ [(q.queued.length, m)], queued := q.queued ++ [m] }

/-- The oldest messages fall out. -/
def drop (k : Nat) : EventQueue μ :=
  { q with
    pending := q.pending.drop k
    flushing := q.flushing.map fun p => { p with trimmed := p.trimmed + k }
    dropped := q.dropped ++ (q.pending.take k).map Prod.fst }

def trim : EventQueue μ :=
  if q.pending.length > maxPending then q.drop (q.pending.length - maxPending) else q

def queue (m : μ) : EventQueue μ := (q.push m).trim.flush

/-- The post has ended; `ok` is what `r.ok` says, and false where it throws. -/
def answered (p : Post μ) (ok : Bool) : EventQueue μ :=
  if ok then
    { q with
      pending := q.pending.drop p.batch.length
      delivered := q.delivered ++ p.batch.map Prod.fst }.post
  else { q with flushing := none }

inductive Action (μ : Type)
  | queue (m : μ)
  | flush
  | answered (ok : Bool)

def step : Action μ → Option (EventQueue μ)
  | .queue m => some (q.queue m)
  | .flush => some q.flush
  | .answered ok => q.flushing.map fun p => q.answered p ok

/-- Every message is waiting, was in a successful post or has fallen out, and what was delivered was
delivered in the order of the queue. -/
def Kept : Prop :=
  (∀ n < q.queued.length, n ∈ q.numbers ∨ n ∈ q.delivered ∨ n ∈ q.dropped) ∧
    q.delivered.Pairwise (· < ·)

/-- A post succeeds only if no message has fallen out since it began. -/
def Untrimmed : Action μ → Prop
  | .answered ok => ok = true → ∀ p ∈ q.flushing, p.trimmed = 0
  | _ => True

instance (a : Action μ) : Decidable (q.Untrimmed a) :=
  match a with
  | .answered _ => inferInstanceAs (Decidable (_ → ∀ _ ∈ _, _))
  | .queue _ => inferInstanceAs (Decidable True)
  | .flush => inferInstanceAs (Decidable True)

/-! ## What has been queued -/

theorem queued_post : q.post.queued = q.queued := by
  unfold post
  split
  · rfl
  · rfl

@[simp] theorem queued_flush : q.flush.queued = q.queued := by
  unfold flush
  split
  · rfl
  · exact q.queued_post

@[simp] theorem queued_queue (m : μ) : (q.queue m).queued = q.queued ++ [m] := by
  rw [queue, queued_flush, trim]
  split
  · rfl
  · rfl

theorem queued_answered (p : Post μ) (ok : Bool) : (q.answered p ok).queued = q.queued := by
  unfold answered
  split
  · exact queued_post _
  · rfl

/-! ## The numbers in the queue -/

/-- The queue holds the last messages; `front` is the number of the first of them. -/
structure Lined (front : Nat) : Prop where
  numbers : q.numbers = List.range' front q.pending.length
  queued : q.queued.length = front + q.pending.length
  delivered : ∀ n ∈ q.delivered, n < front
  dropped : ∀ n ∈ q.dropped, n < front
  ordered : q.delivered.Pairwise (· < ·)

/-- The messages of a post were the first ones of a queue that has since lost some at its front. -/
structure InFlight (front : Nat) (p : Post μ) : Prop where
  first : p.batch.map Prod.fst = List.range' (front - p.trimmed) p.batch.length
  trimmed : p.trimmed ≤ front
  pos : 0 < p.batch.length
  fits : p.batch.length ≤ q.pending.length
  short : p.batch.length ≤ batchMax
  full : p.trimmed ≠ 0 → q.pending.length = maxPending
  unseen : ∀ n ∈ q.delivered, n < front - p.trimmed

/-- What holds of the queue in every state of a run. -/
def Consistent : Prop :=
  q.pending.length ≤ maxPending ∧
    ∃ front, q.Lined front ∧ ∀ p ∈ q.flushing, q.InFlight front p

/-- No message is missing. -/
def Complete : Prop :=
  ∀ n < q.queued.length, n ∈ q.numbers ∨ n ∈ q.delivered ∨ n ∈ q.dropped

variable {q} {front : Nat} {p : Post μ}

theorem new_consistent (reporter : Bool) : (new reporter : EventQueue μ).Consistent := by
  refine ⟨Nat.zero_le _, 0, ⟨rfl, rfl, ?_, ?_, List.Pairwise.nil⟩, ?_⟩
  · intro n hn
    cases hn
  · intro n hn
    cases hn
  · intro p hp
    cases hp

theorem Lined.push (h : q.Lined front) (m : μ) : (q.push m).Lined front where
  numbers := by
    calc
      (q.push m).numbers = q.numbers ++ [q.queued.length] := by
            simp [EventQueue.push, EventQueue.numbers]
      _ = List.range' front (q.pending.length + 1) := by
            rw [h.numbers, h.queued, List.range'_1_concat]
      _ = List.range' front (q.push m).pending.length := by
            simp [EventQueue.push]
  queued := by
    have hlen := h.queued
    simp only [EventQueue.push, List.length_append, List.length_singleton]
    omega
  delivered := h.delivered
  dropped := h.dropped
  ordered := h.ordered

theorem Lined.drop (h : q.Lined front) {k : Nat} (hk : k ≤ q.pending.length) :
    (q.drop k).Lined (front + k) where
  numbers := by
    calc
      (q.drop k).numbers = q.numbers.drop k := by simp [EventQueue.drop, EventQueue.numbers]
      _ = List.range' (front + k) (q.pending.length - k) := by
            rw [h.numbers, List.drop_range', Nat.mul_one]
      _ = List.range' (front + k) (q.drop k).pending.length := by simp [EventQueue.drop]
  queued := by
    have hlen := h.queued
    simp only [EventQueue.drop, List.length_drop]
    omega
  delivered := fun n hn => Nat.lt_add_right k (h.delivered n hn)
  dropped := by
    intro n hn
    rcases List.mem_append.1 hn with hn | hn
    · exact Nat.lt_add_right k (h.dropped n hn)
    · have hmem : n ∈ q.numbers.take k := by
        rw [EventQueue.numbers, ← List.map_take]
        exact hn
      rw [h.numbers, List.take_range'_of_length_ge hk, List.mem_range'_1] at hmem
      exact hmem.2
  ordered := h.ordered

/-- A new message, and the oldest one if the queue is full. -/
theorem Consistent.trim (h : q.Consistent) (m : μ) : (q.push m).trim.Consistent := by
  obtain ⟨hmax, front, hlined, hflight⟩ := h
  have hlen : (q.push m).pending.length = q.pending.length + 1 := by simp [push]
  by_cases hfull : (q.push m).pending.length > maxPending
  · have hone : (q.push m).pending.length - maxPending = 1 := by omega
    rw [EventQueue.trim, if_pos hfull, hone]
    have hsame : ((q.push m).drop 1).pending.length = q.pending.length := by
      simp only [EventQueue.drop, List.length_drop]
      omega
    refine ⟨hsame ▸ hmax, front + 1, (hlined.push m).drop (by omega), ?_⟩
    intro p hp
    obtain ⟨r, hr, rfl⟩ := Option.map_eq_some_iff.1 hp
    have hin := hflight r hr
    have hback : front + 1 - (r.trimmed + 1) = front - r.trimmed := by omega
    refine ⟨?_, Nat.succ_le_succ hin.trimmed, hin.pos, hsame ▸ hin.fits, hin.short, ?_, ?_⟩
    · exact hback ▸ hin.first
    · intro _
      omega
    · exact hback ▸ hin.unseen
  · rw [EventQueue.trim, if_neg hfull]
    refine ⟨by omega, front, hlined.push m, ?_⟩
    intro p hp
    have hin := hflight p hp
    refine ⟨hin.first, hin.trimmed, hin.pos, ?_, hin.short, ?_, hin.unseen⟩
    · have hfits := hin.fits
      omega
    · intro hne
      have := hin.full hne
      omega

theorem Consistent.post (hmax : q.pending.length ≤ maxPending) (h : q.Lined front) :
    q.post.Consistent := by
  by_cases hnil : q.pending = []
  · rw [EventQueue.post, if_pos hnil]
    refine ⟨hmax, front, ⟨h.numbers, h.queued, h.delivered, h.dropped, h.ordered⟩, ?_⟩
    intro p hp
    cases hp
  · rw [EventQueue.post, if_neg hnil]
    refine ⟨hmax, front, ⟨h.numbers, h.queued, h.delivered, h.dropped, h.ordered⟩, ?_⟩
    intro p hp
    obtain rfl := Option.some.inj hp
    have hpos : 0 < q.pending.length := List.length_pos_of_ne_nil hnil
    have hlen : (q.pending.take batchMax).length = min batchMax q.pending.length :=
      List.length_take
    refine ⟨?_, Nat.zero_le _, ?_, ?_, ?_, fun hne => absurd rfl hne, h.delivered⟩
    · calc
        (q.pending.take batchMax).map Prod.fst = q.numbers.take batchMax := by
          rw [List.map_take, EventQueue.numbers]
        _ = (q.numbers.take (min batchMax q.pending.length)) := by
          rw [List.take_eq_take_min, EventQueue.numbers, List.length_map]
        _ = List.range' front (min batchMax q.pending.length) := by
          rw [h.numbers, List.take_range'_of_length_ge (Nat.min_le_right _ _)]
        _ = List.range' (front - 0) (q.pending.take batchMax).length := by rw [hlen, Nat.sub_zero]
    · show 0 < (q.pending.take batchMax).length
      rw [hlen]
      exact Nat.lt_min.2 ⟨by decide, hpos⟩
    · show (q.pending.take batchMax).length ≤ q.pending.length
      rw [hlen]
      exact Nat.min_le_right _ _
    · show (q.pending.take batchMax).length ≤ batchMax
      rw [hlen]
      exact Nat.min_le_left _ _

theorem Consistent.flush (h : q.Consistent) : q.flush.Consistent := by
  unfold EventQueue.flush
  split
  · exact h
  · obtain ⟨hmax, front, hlined, _⟩ := h
    exact .post hmax hlined

/-- The queue after a successful post, before the next one. -/
def accepted (q : EventQueue μ) (p : Post μ) : EventQueue μ :=
  { q with
    pending := q.pending.drop p.batch.length
    delivered := q.delivered ++ p.batch.map Prod.fst }

/-- A number is that of a message of the post. -/
theorem InFlight.mem_batch (h : q.InFlight front p) {n : Nat} :
    n ∈ p.batch.map Prod.fst ↔
      front - p.trimmed ≤ n ∧ n < front - p.trimmed + p.batch.length := by
  rw [h.first, List.mem_range'_1]

theorem InFlight.accepted (hp : q.InFlight front p) (h : q.Lined front) :
    (q.accepted p).Lined (front + p.batch.length) where
  numbers := by
    calc
      (q.accepted p).numbers = q.numbers.drop p.batch.length := by
            simp [EventQueue.accepted, EventQueue.numbers]
      _ = List.range' (front + p.batch.length) (q.pending.length - p.batch.length) := by
            rw [h.numbers, List.drop_range', Nat.mul_one]
      _ = List.range' (front + p.batch.length) (q.accepted p).pending.length := by
            simp [EventQueue.accepted]
  queued := by
    have hlen := h.queued
    have hfits := hp.fits
    simp only [EventQueue.accepted, List.length_drop]
    omega
  delivered := by
    intro n hn
    rcases List.mem_append.1 hn with hn | hn
    · exact Nat.lt_add_right _ (h.delivered n hn)
    · have hlt := (hp.mem_batch.1 hn).2
      omega
  dropped := fun n hn => Nat.lt_add_right _ (h.dropped n hn)
  ordered := by
    refine List.pairwise_append.2 ⟨h.ordered, ?_, ?_⟩
    · rw [hp.first]
      exact List.pairwise_lt_range'
    · intro n hn m hm
      exact Nat.lt_of_lt_of_le (hp.unseen n hn) (hp.mem_batch.1 hm).1

theorem Consistent.step (h : q.Consistent) {a : Action μ} {q' : EventQueue μ}
    (hs : q.step a = some q') : q'.Consistent := by
  cases a with
  | queue m =>
      cases hs
      exact (h.trim m).flush
  | flush =>
      cases hs
      exact h.flush
  | answered ok =>
      obtain ⟨p, hp, rfl⟩ := Option.map_eq_some_iff.1 hs
      obtain ⟨hmax, front, hlined, hflight⟩ := h
      cases ok with
      | true =>
          refine Consistent.post (q := q.accepted p) ?_ ((hflight p hp).accepted hlined)
          simp only [EventQueue.accepted, List.length_drop]
          omega
      | false =>
          refine ⟨hmax, front, ⟨hlined.numbers, hlined.queued, hlined.delivered, hlined.dropped,
            hlined.ordered⟩, ?_⟩
          intro r hr
          cases hr

/-! ## No message is missing -/

theorem Complete.drop (h : q.Complete) (k : Nat) : (q.drop k).Complete := by
  intro n hn
  rcases h n hn with hmem | hdelivered | hdropped
  · rw [numbers, ← List.take_append_drop k q.pending, List.map_append, List.mem_append] at hmem
    rcases hmem with htaken | hkept
    · exact .inr (.inr (List.mem_append_right _ htaken))
    · exact .inl hkept
  · exact .inr (.inl hdelivered)
  · exact .inr (.inr (List.mem_append_left _ hdropped))

theorem Complete.trim (h : q.Complete) (m : μ) : (q.push m).trim.Complete := by
  have hpush : (q.push m).Complete := by
    intro n hn
    by_cases hlast : n = q.queued.length
    · left
      simp [push, numbers, hlast]
    · have hlt : n < q.queued.length := by
        simp only [push, List.length_append, List.length_singleton] at hn
        omega
      rcases h n hlt with hmem | hrest
      · left
        simp only [push, numbers, List.map_append]
        exact List.mem_append_left _ hmem
      · exact .inr hrest
  unfold EventQueue.trim
  split
  · exact hpush.drop _
  · exact hpush

theorem Complete.post (h : q.Complete) : q.post.Complete := by
  unfold EventQueue.post
  split <;> exact h

theorem Complete.flush (h : q.Complete) : q.flush.Complete := by
  unfold EventQueue.flush
  split
  · exact h
  · exact h.post

/-- The messages that were posted are the first ones, so that no other is removed. -/
theorem Complete.accepted (h : q.Complete) (hlined : q.Lined front) (hp : q.InFlight front p)
    (hnone : p.trimmed = 0) : (q.accepted p).Complete := by
  intro n hn
  rcases h n hn with hmem | hdelivered | hdropped
  · rw [hlined.numbers, List.mem_range'_1] at hmem
    by_cases hbatch : n < front + p.batch.length
    · refine .inr (.inl (List.mem_append_right _ (hp.mem_batch.2 ?_)))
      omega
    · left
      rw [(hp.accepted hlined).numbers, List.mem_range'_1]
      have hfits := hp.fits
      simp only [EventQueue.accepted, List.length_drop]
      omega
  · exact .inr (.inl (List.mem_append_left _ hdelivered))
  · exact .inr (.inr hdropped)

/-- After the queue has lost messages at its front, the last of those removed was not posted. -/
theorem InFlight.trimmed_eq_zero (hp : q.InFlight front p) (hlined : q.Lined front)
    (h : (q.accepted p).Complete) : p.trimmed = 0 := by
  by_contra hne
  have hpos := hp.pos
  have htrimmed := hp.trimmed
  have hfits := hp.fits
  have hlen := hlined.queued
  rcases h (front + p.batch.length - 1) (by simp only [EventQueue.accepted]; omega) with
    hmem | hmem | hmem
  · rw [(hp.accepted hlined).numbers, List.mem_range'_1] at hmem
    omega
  · rcases List.mem_append.1 hmem with hold | hbatch
    · have := hlined.delivered _ hold
      omega
    · have := (hp.mem_batch.1 hbatch).2
      omega
  · have := hlined.dropped _ hmem
    omega

theorem Complete.step (h : q.Complete) (hc : q.Consistent) {a : Action μ} {q' : EventQueue μ}
    (hok : q.Untrimmed a) (hs : q.step a = some q') : q'.Complete := by
  cases a with
  | queue m =>
      cases hs
      exact (h.trim m).flush
  | flush =>
      cases hs
      exact h.flush
  | answered ok =>
      obtain ⟨p, hp, rfl⟩ := Option.map_eq_some_iff.1 hs
      obtain ⟨_, front, hlined, hflight⟩ := hc
      cases ok with
      | true => exact (h.accepted hlined (hflight p hp) (hok rfl p hp)).post
      | false => exact h

theorem untrimmed_of_complete (hc : q.Consistent) {a : Action μ} {q' : EventQueue μ}
    (hs : q.step a = some q') (h : q'.Complete) : q.Untrimmed a := by
  cases a with
  | queue m => trivial
  | flush => trivial
  | answered ok =>
      intro hok p hp
      obtain ⟨_, front, hlined, hflight⟩ := hc
      have heq : q' = (q.accepted p).post := by
        rw [step, Option.mem_def.1 hp] at hs
        subst hok
        exact (Option.some.inj hs).symm
      have haccepted : (q.accepted p).Complete := by
        rw [heq, EventQueue.post] at h
        split at h <;> exact h
      exact (hflight p hp).trimmed_eq_zero hlined haccepted

theorem Consistent.kept (hc : q.Consistent) (h : q.Complete) : q.Kept := by
  obtain ⟨_, _, hlined, _⟩ := hc
  exact ⟨h, hlined.ordered⟩

/-- The messages are kept in exactly the runs in which no post succeeds that saw the queue lose a
message at its front. -/
theorem messages_kept (reporter : Bool) (as : List (Action μ)) {q : EventQueue μ}
    (h : exec step (new reporter) as = some q) :
    Throughout step Kept (new reporter) as ↔ Admits step Untrimmed (new reporter) as := by
  constructor
  · exact admits_of_throughout (fun _ _ _ hi hs => Consistent.step hi hs)
      (fun _ _ _ hi hs hkept => untrimmed_of_complete hi hs hkept.1) (new_consistent reporter) h
  · have hstep : ∀ (q : EventQueue μ) a q', (q.Consistent ∧ q.Complete) → q.Untrimmed a →
        q.step a = some q' → q'.Consistent ∧ q'.Complete :=
      fun _ _ _ hi hok hs => ⟨hi.1.step hs, hi.2.step hi.1 hok hs⟩
    refine throughout_of_admits hstep (fun _ hi => hi.1.kept hi.2) ⟨new_consistent reporter, ?_⟩
    intro n hn
    cases hn

instance : Decidable q.Kept :=
  inferInstanceAs (Decidable ((∀ n < q.queued.length, _ ∨ _ ∨ _) ∧ _))

/-- The server fails once; what is queued meanwhile goes out in order. -/
def interrupted : List (Action Unit) :=
  [.queue (), .queue (), .answered false, .queue (), .queue (), .answered true, .flush]

theorem messages_kept_interrupted : Throughout step Kept (new true) interrupted := by
  have hrun : ∃ q, exec step (new true) interrupted = some q :=
    Option.isSome_iff_exists.1 (by decide)
  rcases hrun with ⟨q, hq⟩
  exact (messages_kept true interrupted hq).2
    (admits_of_checkRun (fun _ _ h => of_decide_eq_true h)
      (show checkRun step (fun q a => decide (q.Untrimmed a)) (new true) interrupted = true by
        decide))

/-- While the first message is posted, as many are queued as the queue holds. -/
def flooded : List (Action Unit) := List.replicate (maxPending + 1) (.queue ()) ++ [.answered true]

theorem message_lost : ∃ q, exec step (new true) flooded = some q ∧ ¬ q.Kept := by
  have hrun : (exec step (new true) flooded).any (fun q => decide (¬ q.Kept)) = true := by
    decide +kernel
  rcases (Option.any_eq_true ..).1 hrun with ⟨q, hq, hbad⟩
  exact ⟨q, hq, of_decide_eq_true hbad⟩

end EventQueue

end Cameras
end GateControl
