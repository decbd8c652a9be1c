import Mathlib.Algebra.Order.Ring.Rat
import Mathlib.Data.Nat.Cast.Order.Ring
import GateControl.Edge.Events

/-!
# EventBuffer — the books of the event buffer

`EventBuffer` is used by four methods, and each of them reads the clock for itself, which may have
been set back in between.  `History` is a buffer together with what its methods have returned so
far.

The numbers of the events grow whatever the clock does, because each is above the one before.  So
the buffer is sorted, and what an ack removes from its front is what it covers.
-/

namespace GateControl
namespace Edge

open Library

/-- Where a test holds of a beginning only, the rest is what fails it. -/
theorem dropWhile_eq_filter {α : Type*} {p : α → Bool} {as : List α}
    (h : as.Pairwise fun a b => p b = true → p a = true) :
    as.dropWhile p = as.filter (fun a => !p a) ∧ as.takeWhile p = as.filter p := by
  induction as with
  | nil =>
      exact ⟨rfl, rfl⟩
  | cons a as ih =>
      obtain ⟨hhead, htail⟩ := List.pairwise_cons.1 h
      cases ha : p a with
      | true =>
          have hrest := ih htail
          simp [ha, hrest]
      | false =>
          -- nothing behind it passes either
          have hno : ∀ b ∈ as, p b = false := fun b hb =>
            Bool.eq_false_iff.2 fun hp => by simp [hhead b hb hp] at ha
          have hall : as.filter (fun b => !p b) = as :=
            List.filter_eq_self.2 fun b hb => by simp [hno b hb]
          have hnone : as.filter p = [] :=
            List.filter_eq_nil_iff.2 fun b hb => by simp [hno b hb]
          simp [ha, hall, hnone]

namespace EventBuffer

/-- `new EventBuffer({ max, maxAgeMs })` -/
def ofLimits (max maxAgeMs : Nat) : EventBuffer := ⟨max, maxAgeMs, 0, [], 0, []⟩

variable (b : EventBuffer)

/-- `push` with the readings of the clock: for the number, for `ts`, and for pruning. -/
def pushAt (plugin : PluginId) (name : Text) (data : Json) (time : Text) (now ts cutoff : Nat) :
    EventBuffer × EventMsg :=
  let msg := b.message plugin name data time now
  -- the message is returned even if it falls out at once
  ((b.add msg ts).prune cutoff, msg)

/-- `ack` and what it returns; the argument may be no finite number. -/
def ackAt (seq : Option ℚ) : EventBuffer × Nat :=
  match seq with
  | none => (b, 0)
  | some q =>
      ({ b with items := b.items.dropWhile fun i => (i.seq : ℚ) ≤ q },
        (b.items.takeWhile fun i => (i.seq : ℚ) ≤ q).length)

/-- A call of one of the methods, with what the clock reads. -/
inductive Call
  | push (plugin : PluginId) (name : Text) (data : Json) (time : Text) (now ts cutoff : Nat)
  | ack (seq : Option ℚ)
  | prune (now : Nat)
  | pending (now : Nat)

/-- A buffer, the messages that `push` has returned, and the numbers that acks have removed;
`acknowledged` adds up what `ack` has returned. -/
structure History where
  buffer : EventBuffer
  pushed : List EventMsg
  acked : List Nat
  acknowledged : Nat

namespace History

def new (max maxAgeMs : Nat) : History := ⟨.ofLimits max maxAgeMs, [], [], 0⟩

def call (h : History) : Call → History
  | .push plugin name data time now ts cutoff =>
      let r := h.buffer.pushAt plugin name data time now ts cutoff
      { h with buffer := r.1, pushed := h.pushed ++ [r.2] }
  | .ack seq =>
      let r := h.buffer.ackAt seq
      { h with
        buffer := r.1
        acked := h.acked ++ h.buffer.seqs.take r.2
        acknowledged := h.acknowledged + r.2 }
  | .prune now => { h with buffer := h.buffer.prune now }
  | .pending now => { h with buffer := h.buffer.prune now }

/-- The messages that are neither acknowledged nor lost. -/
def unacknowledged (h : History) : List EventMsg :=
  h.pushed.filter fun m => m.seq ∉ h.acked ++ h.buffer.counted

/-- What has been pushed is gone, or it is in the buffer; what is gone came before. -/
structure Tracked (h : History) : Prop where
  increasing : (h.pushed.map EventMsg.seq).Pairwise (· < ·)
  le_lastSeq : ∀ m ∈ h.pushed, m.seq ≤ h.buffer.lastSeq
  split : ∃ gone, h.pushed = gone ++ h.buffer.items.map BufferItem.msg ∧
    (gone.map EventMsg.seq).Perm (h.acked ++ h.buffer.counted)
  lost : h.buffer.lost = h.buffer.counted.length
  acknowledged : h.acknowledged = h.acked.length

variable {h : History}

theorem seqs_eq (b : EventBuffer) : b.seqs = (b.items.map BufferItem.msg).map EventMsg.seq := by
  rw [seqs, List.map_map]
  exact List.map_congr_left fun i _ => i.seq_eq.symm

theorem new_tracked (max maxAgeMs : Nat) : (new max maxAgeMs).Tracked where
  increasing := List.Pairwise.nil
  le_lastSeq := fun _ hm => by cases hm
  split := ⟨[], rfl, List.Perm.refl _⟩
  lost := rfl
  acknowledged := rfl

/-- The sequence numbers in the buffer grow. -/
theorem Tracked.sorted (ht : h.Tracked) : h.buffer.seqs.Pairwise (· < ·) := by
  obtain ⟨gone, hpushed, _⟩ := ht.split
  have hinc := ht.increasing
  rw [hpushed, List.map_append, ← seqs_eq] at hinc
  exact (List.pairwise_append.1 hinc).2.1

/-- The first `k` events leave the buffer, for one reason or the other. -/
theorem Tracked.leave (ht : h.Tracked) {h' : History} (k : Nat) (hpushed : h'.pushed = h.pushed)
    (hlast : h'.buffer.lastSeq = h.buffer.lastSeq)
    (hitems : h'.buffer.items = h.buffer.items.drop k)
    (hgone : (h'.acked ++ h'.buffer.counted).Perm
      (h.acked ++ h.buffer.counted ++ h.buffer.seqs.take k))
    (hlost : h'.buffer.lost = h'.buffer.counted.length)
    (hacked : h'.acknowledged = h'.acked.length) : h'.Tracked := by
  obtain ⟨gone, hsplit, hperm⟩ := ht.split
  refine ⟨by rw [hpushed]; exact ht.increasing, by rw [hpushed, hlast]; exact ht.le_lastSeq,
    ⟨gone ++ (h.buffer.items.take k).map BufferItem.msg, ?_, ?_⟩, hlost, hacked⟩
  · calc
      h'.pushed = gone ++ h.buffer.items.map BufferItem.msg := hpushed.trans hsplit
      _ = gone ++ (h.buffer.items.take k ++ h.buffer.items.drop k).map BufferItem.msg := by
          rw [List.take_append_drop]
      _ = gone ++ (h.buffer.items.take k).map BufferItem.msg ++
            h'.buffer.items.map BufferItem.msg := by
          rw [List.map_append, List.append_assoc, hitems]
  · calc
      List.Perm ((gone ++ (h.buffer.items.take k).map BufferItem.msg).map EventMsg.seq)
          (gone.map EventMsg.seq ++ h.buffer.seqs.take k) := by
            rw [List.map_append, seqs_eq, List.map_take, List.map_take]
      List.Perm _ (h.acked ++ h.buffer.counted ++ h.buffer.seqs.take k) := hperm.append_right _
      List.Perm _ (h'.acked ++ h'.buffer.counted) := hgone.symm

/-- The first `k` events fall out. -/
theorem Tracked.shift (ht : h.Tracked) (k : Nat) :
    ({ h with buffer := h.buffer.shift k } : History).Tracked := by
  refine ht.leave k rfl rfl rfl ?_ (lost_shift ht.lost k) ht.acknowledged
  change List.Perm (h.acked ++ (h.buffer.counted ++ (h.buffer.items.take k).map BufferItem.seq)) _
  rw [List.map_take, List.append_assoc]
  exact List.Perm.refl _

theorem Tracked.prune (ht : h.Tracked) (now : Nat) :
    ({ h with buffer := h.buffer.prune now } : History).Tracked :=
  (ht.shift (h.buffer.items.takeWhile (h.buffer.expired now)).length).shift _

/-- An event that is added gets a number above all others. -/
theorem Tracked.add (ht : h.Tracked) (plugin : PluginId) (name : Text) (data : Json) (time : Text)
    (now ts : Nat) :
    let msg := h.buffer.message plugin name data time now
    ({ h with buffer := h.buffer.add msg ts, pushed := h.pushed ++ [msg] } : History).Tracked := by
  intro msg
  -- whatever the clock says
  have hlast : h.buffer.lastSeq < msg.seq := lastSeq_lt_nextSeq now
  obtain ⟨gone, hpushed, hperm⟩ := ht.split
  refine ⟨?_, ?_, ⟨gone, ?_, hperm⟩, ht.lost, ht.acknowledged⟩
  · rw [List.map_append, List.pairwise_append]
    refine ⟨ht.increasing, List.pairwise_singleton _ _, ?_⟩
    intro n hn m hm
    obtain ⟨m', hm', rfl⟩ := List.mem_map.1 hn
    rw [List.map_singleton, List.mem_singleton] at hm
    rw [hm]
    exact Nat.lt_of_le_of_lt (ht.le_lastSeq m' hm') hlast
  · intro m hm
    rcases List.mem_append.1 hm with hold | hnew
    · exact Nat.le_of_lt (Nat.lt_of_le_of_lt (ht.le_lastSeq m hold) hlast)
    · rw [List.mem_singleton.1 hnew]
      exact le_rfl
  · rw [hpushed, EventBuffer.add, List.map_append, List.append_assoc]
    rfl

/-- An ack removes what it covers. -/
theorem ackAt_items (hs : h.buffer.seqs.Pairwise (· < ·)) (q : ℚ) :
    (h.buffer.ackAt (some q)).1.items = h.buffer.items.filter (fun i => !decide ((i.seq : ℚ) ≤ q)) ∧
      (h.buffer.ackAt (some q)).2 =
        (h.buffer.items.filter fun i => decide ((i.seq : ℚ) ≤ q)).length := by
  -- the buffer is sorted, so what an ack covers stands in front
  have hdown : h.buffer.items.Pairwise fun i j =>
      decide ((j.seq : ℚ) ≤ q) = true → decide ((i.seq : ℚ) ≤ q) = true := by
    refine (List.pairwise_map.1 hs).imp ?_
    intro i j hij hle
    have hcast : (i.seq : ℚ) ≤ j.seq := Nat.cast_le.2 (Nat.le_of_lt hij)
    exact decide_eq_true (hcast.trans (of_decide_eq_true hle))
  obtain ⟨hdrop, htake⟩ := dropWhile_eq_filter hdown
  exact ⟨hdrop, congrArg List.length htake⟩

theorem Tracked.ack (ht : h.Tracked) (seq : Option ℚ) : (h.call (.ack seq)).Tracked := by
  cases seq with
  | none =>
      simpa [call, ackAt] using ht
  | some q =>
      let test := fun i : BufferItem => decide ((i.seq : ℚ) ≤ q)
      let k := (h.buffer.items.takeWhile test).length
      have hdrop : h.buffer.items.dropWhile test = h.buffer.items.drop k := by
        conv_rhs => rw [← List.takeWhile_append_dropWhile (p := test) (l := h.buffer.items)]
        exact (List.drop_left' rfl).symm
      -- the first `k` items go, and their numbers are recorded as acknowledged
      refine ht.leave k rfl rfl hdrop ?_ ht.lost ?_
      · change List.Perm (h.acked ++ h.buffer.seqs.take k ++ h.buffer.counted) _
        rw [List.append_assoc, List.append_assoc]
        exact List.perm_append_comm.append_left _
      · have hle : k ≤ h.buffer.seqs.length := by
          rw [seqs, List.length_map]
          exact (List.takeWhile_sublist _).length_le
        change h.acknowledged + k = (h.acked ++ h.buffer.seqs.take k).length
        rw [List.length_append, List.length_take_of_le hle, ht.acknowledged]

theorem Tracked.call (ht : h.Tracked) (c : Call) : (h.call c).Tracked := by
  cases c with
  | push plugin name data time now ts cutoff =>
      exact (ht.add plugin name data time now ts).prune cutoff
  | ack seq =>
      exact ht.ack seq
  | prune now =>
      exact ht.prune now
  | pending now =>
      exact ht.prune now

/-! ## What the buffer holds -/

/-- What is in the buffer is what has been pushed and is neither acknowledged nor lost. -/
theorem Tracked.items_eq (ht : h.Tracked) :
    h.buffer.items.map BufferItem.msg = h.unacknowledged := by
  obtain ⟨gone, hpushed, hperm⟩ := ht.split
  have hinc := ht.increasing
  rw [hpushed, List.map_append, List.pairwise_append] at hinc
  -- what is gone is acknowledged or counted as lost
  have hnone : gone.filter (fun m => m.seq ∉ h.acked ++ h.buffer.counted) = [] := by
    refine List.filter_eq_nil_iff.2 fun m hm => ?_
    have hmem := hperm.mem_iff.1 (List.mem_map_of_mem hm)
    exact fun hno => of_decide_eq_true hno hmem
  have hall : (h.buffer.items.map BufferItem.msg).filter
      (fun m => m.seq ∉ h.acked ++ h.buffer.counted) = h.buffer.items.map BufferItem.msg := by
    refine List.filter_eq_self.2 fun m hm => decide_eq_true ?_
    -- its number is above all those that are gone
    intro hgone
    have hlt := hinc.2.2 m.seq (hperm.mem_iff.2 hgone) m.seq (List.mem_map_of_mem hm)
    exact Nat.lt_irrefl _ hlt
  rw [unacknowledged, hpushed, List.filter_append, hnone, hall, List.nil_append]

theorem Tracked.length_eq (ht : h.Tracked) :
    h.pushed.length = h.acknowledged + h.buffer.lost + h.buffer.items.length := by
  obtain ⟨gone, hpushed, hperm⟩ := ht.split
  have hlen := hperm.length_eq
  rw [List.length_map, List.length_append, ← ht.acknowledged, ← ht.lost] at hlen
  rw [hpushed, List.length_append, List.length_map, hlen]

theorem length_prune (b : EventBuffer) (now : Nat) : (b.prune now).items.length ≤ b.max := by
  change ((b.pruneExpired now).items.drop ((b.pruneExpired now).items.length - b.max)).length ≤ _
  rw [List.length_drop]
  omega

theorem max_call (c : Call) : (h.call c).buffer.max = h.buffer.max := by
  cases c with
  | push plugin name data time now ts cutoff => rfl
  | ack seq =>
      cases seq with
      | none => rfl
      | some q => rfl
  | prune now => rfl
  | pending now => rfl

theorem length_call (c : Call) (hle : h.buffer.items.length ≤ h.buffer.max) :
    (h.call c).buffer.items.length ≤ h.buffer.max := by
  cases c with
  | push plugin name data time now ts cutoff => exact length_prune _ cutoff
  | ack seq =>
      cases seq with
      | none => exact hle
      | some q => exact (List.dropWhile_sublist _).length_le.trans hle
  | prune now => exact length_prune _ now
  | pending now => exact length_prune _ now

theorem run_tracked (max maxAgeMs : Nat) (calls : List Call) :
    let h := calls.foldl call (new max maxAgeMs)
    h.Tracked ∧ h.buffer.items.length ≤ max := by
  have hrun : ∀ h : History, h.Tracked → h.buffer.max = max → h.buffer.items.length ≤ max →
      (calls.foldl call h).Tracked ∧ (calls.foldl call h).buffer.items.length ≤ max := by
    induction calls with
    | nil =>
        intro h ht _ hle
        exact ⟨ht, hle⟩
    | cons c calls ih =>
        intro h ht hmax hle
        have hlen := length_call (h := h) c (by rw [hmax]; exact hle)
        exact ih (h.call c) (ht.call c) ((max_call c).trans hmax) (by rwa [hmax] at hlen)
  exact hrun (new max maxAgeMs) (new_tracked max maxAgeMs) rfl (Nat.zero_le max)

/-- After any calls, with any clock: the numbers have grown from push to push, the buffer is sorted
and not too long, an ack would remove what it covers, `pending` would return what is neither
acknowledged nor lost, in the order of the pushes, and every event is counted once. -/
theorem buffer_kept (max maxAgeMs : Nat) (calls : List Call) :
    let h := calls.foldl call (new max maxAgeMs)
    (h.pushed.map EventMsg.seq).Pairwise (· < ·) ∧
      h.buffer.seqs.Pairwise (· < ·) ∧
      h.buffer.items.length ≤ max ∧
      (∀ q : ℚ,
        (h.buffer.ackAt (some q)).1.items = h.buffer.items.filter (fun i => !decide (i.seq ≤ q)) ∧
          (h.buffer.ackAt (some q)).2 =
            (h.buffer.items.filter fun i => decide (i.seq ≤ q)).length) ∧
      (∀ now, h.buffer.pending now = (h.call (.pending now)).unacknowledged) ∧
      h.pushed.length = h.acknowledged + h.buffer.lost + h.buffer.items.length := by
  intro h
  obtain ⟨ht, hle⟩ := run_tracked max maxAgeMs calls
  refine ⟨ht.increasing, ht.sorted, hle, fun q => ackAt_items ht.sorted q, ?_, ht.length_eq⟩
  intro now
  exact (ht.call (.pending now)).items_eq

end History
end EventBuffer
end Edge
end GateControl
