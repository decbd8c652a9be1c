import GateControl.Edge.Host
import GateControl.Library.Json
import Mathlib.Data.List.TakeWhile

/-!
# Events — the events of the edge parts on their way to the server

An event gets a sequence number, goes into the buffer of its plugin and is sent at once if the channel
takes it.  The first state of a connection has everything sent again that is still buffered.  An `ack`
removes the events up to its number.

An ack may cover an event that was never sent: one that waits for the state of a new connection while
a later one is sent at once, or one that is too large for a frame.  Runs in which no event overtakes
another lose none.
-/

namespace GateControl
namespace Edge

open Library

def frameBytes : Nat := 64 * 1024

def eventBufferMax : Nat := 1000

def eventBufferMaxAgeMs : Nat := 60 * 60 * 1000

/-! ## The buffer of a plugin -/

/-- An `event` message; `time` is its field `at`. -/
structure EventMsg where
  plugin : PluginId
  name : Text
  data : Json
  time : Text
  seq : Nat

structure BufferItem where
  seq : Nat
  msg : EventMsg
  ts : Nat
  seq_eq : msg.seq = seq

/-- `counted` are the numbers of the events that `lost` counts; they are only there to be talked
about. -/
structure EventBuffer where
  max : Nat
  maxAgeMs : Nat
  lastSeq : Nat
  items : List BufferItem
  lost : Nat
  counted : List Nat

namespace EventBuffer

def new : EventBuffer := ⟨eventBufferMax, eventBufferMaxAgeMs, 0, [], 0, []⟩

variable (b : EventBuffer)

def nextSeq (now : Nat) : Nat := Nat.max (b.lastSeq + 1) now

/-- The numbers of the events in the buffer. -/
def seqs : List Nat := b.items.map BufferItem.seq

def expired (now : Nat) (i : BufferItem) : Bool := i.ts + b.maxAgeMs < now

/-- The first `k` events fall out and are counted. -/
def shift (k : Nat) : EventBuffer :=
  { b with
    items := b.items.drop k
    lost := b.lost + (b.items.take k).length
    counted := b.counted ++ (b.items.take k).map BufferItem.seq }

def pruneExpired (now : Nat) : EventBuffer := b.shift (b.items.takeWhile (b.expired now)).length

def prune (now : Nat) : EventBuffer :=
  (b.pruneExpired now).shift ((b.pruneExpired now).items.length - b.max)

/-- The message of the next event. -/
def message (plugin : PluginId) (name : Text) (data : Json) (time : Text) (now : Nat) : EventMsg :=
  ⟨plugin, name, data, time, b.nextSeq now⟩

def add (msg : EventMsg) (now : Nat) : EventBuffer :=
  { b with
    lastSeq := msg.seq
    items := b.items ++ [⟨msg.seq, msg, now, rfl⟩] }

def push (msg : EventMsg) (now : Nat) : EventBuffer := (b.add msg now).prune now

def ack (seq : Nat) : EventBuffer := { b with items := b.items.dropWhile fun i => i.seq ≤ seq }

/-- The messages that `pending` returns; it prunes the buffer first. -/
def pending (now : Nat) : List EventMsg := (b.prune now).items.map BufferItem.msg

variable {b}

theorem mem_seqs_shift {k n : Nat} (h : n ∈ b.seqs) : n ∈ (b.shift k).seqs ∨ n ∈ (b.shift k).counted := by
  have hsplit : b.seqs = (b.items.take k).map BufferItem.seq ++ (b.items.drop k).map BufferItem.seq := by
    rw [← List.map_append, List.take_append_drop]
    rfl
  rw [hsplit, List.mem_append] at h
  rcases h with h | h
  · exact .inr (List.mem_append_right _ h)
  · exact .inl h

theorem mem_counted_shift {k n : Nat} (h : n ∈ b.counted) : n ∈ (b.shift k).counted :=
  List.mem_append_left _ h

theorem lost_shift (h : b.lost = b.counted.length) (k : Nat) :
    (b.shift k).lost = (b.shift k).counted.length := by
  simp [shift, h]

/-- Pruning keeps an event or counts it. -/
theorem mem_seqs_prune (now : Nat) {n : Nat} (h : n ∈ b.seqs) :
    n ∈ (b.prune now).seqs ∨ n ∈ (b.prune now).counted := by
  rcases mem_seqs_shift (k := (b.items.takeWhile (b.expired now)).length) h with h | h
  · exact mem_seqs_shift h
  · exact .inr (mem_counted_shift h)

theorem mem_counted_prune {now n : Nat} (h : n ∈ b.counted) : n ∈ (b.prune now).counted :=
  mem_counted_shift (mem_counted_shift h)

theorem lost_prune (h : b.lost = b.counted.length) (now : Nat) :
    (b.prune now).lost = (b.prune now).counted.length :=
  lost_shift (lost_shift h _) _

theorem pruneExpired_items (now : Nat) :
    (b.pruneExpired now).items = b.items.dropWhile (b.expired now) := by
  have hsplit := List.takeWhile_append_dropWhile (p := b.expired now) (l := b.items)
  show b.items.drop _ = _
  conv_lhs => rw [← hsplit]
  rw [List.drop_left' (by rw [hsplit])]

/-- What pruning leaves is the end of what the age leaves. -/
theorem prune_items_sublist (now : Nat) :
    (b.prune now).items.Sublist (b.items.dropWhile (b.expired now)) := by
  rw [← pruneExpired_items]
  exact List.drop_sublist _ _

theorem prune_seqs_sublist (now : Nat) : (b.prune now).seqs.Sublist b.seqs :=
  ((prune_items_sublist now).trans (List.dropWhile_sublist _)).map _

theorem lastSeq_lt_nextSeq (now : Nat) : b.lastSeq < b.nextSeq now := Nat.le_max_left _ _

theorem seqs_add (msg : EventMsg) (now : Nat) : (b.add msg now).seqs = b.seqs ++ [msg.seq] := by
  simp [seqs, add]

/-- An event in the buffer after a push is the new one, or one that the age has left. -/
theorem mem_push {msg : EventMsg} {now : Nat} {i : BufferItem} (h : i ∈ (b.push msg now).items) :
    i ∈ b.items.dropWhile (b.expired now) ∨ i.seq = msg.seq := by
  have hleft := (prune_items_sublist now).subset h
  have hsame : (b.add msg now).expired now = b.expired now := rfl
  rw [hsame, show (b.add msg now).items = b.items ++ [⟨msg.seq, msg, now, rfl⟩] from rfl,
    List.dropWhile_append] at hleft
  split at hleft
  · have hnew := (List.dropWhile_sublist _).subset hleft
    exact .inr (congrArg BufferItem.seq (List.mem_singleton.1 hnew))
  · rcases List.mem_append.1 hleft with hold | hnew
    · exact .inl hold
    · exact .inr (congrArg BufferItem.seq (List.mem_singleton.1 hnew))

/-- A push keeps an event or counts it, the new one included. -/
theorem mem_seqs_push {msg : EventMsg} (now : Nat) {n : Nat} (h : n ∈ b.seqs ++ [msg.seq]) :
    n ∈ (b.push msg now).seqs ∨ n ∈ (b.push msg now).counted := by
  rw [← seqs_add msg now] at h
  exact mem_seqs_prune now h

theorem push_seqs_sublist (msg : EventMsg) (now : Nat) :
    (b.push msg now).seqs.Sublist (b.seqs ++ [msg.seq]) := by
  rw [← seqs_add msg now]
  exact prune_seqs_sublist now

/-- An ack keeps an event or covers it. -/
theorem mem_seqs_ack (seq : Nat) {n : Nat} (h : n ∈ b.seqs) : n ∈ (b.ack seq).seqs ∨ n ≤ seq := by
  have hsplit := List.takeWhile_append_dropWhile (p := fun i => decide (i.seq ≤ seq)) (l := b.items)
  rw [seqs, ← hsplit, List.map_append, List.mem_append] at h
  rcases h with h | h
  · rcases List.mem_map.1 h with ⟨i, hi, rfl⟩
    have hle := List.mem_takeWhile_imp (p := fun i : BufferItem => decide (i.seq ≤ seq)) hi
    exact .inr (of_decide_eq_true hle)
  · exact .inl h

theorem ack_items_sublist (seq : Nat) : (b.ack seq).items.Sublist b.items := List.dropWhile_sublist _

end EventBuffer

/-! ## The channel -/

/-- The states of a socket that is not closed. -/
inductive ReadyState
  | connecting
  | opened
  | closing
  deriving DecidableEq

structure Channel where
  ws : Option ReadyState
  connected : Bool
  deriving DecidableEq

/-- Whether a frame of this many bytes goes out. -/
def Channel.send (c : Channel) (size : Nat) : Bool :=
  c.connected && c.ws == some .opened && size ≤ frameBytes

/-! ## The host -/

/-- What the host keeps of a plugin for its events.  `pushed` are the numbers of all events so far,
`sent` those of the events the channel has taken; they are only there to be talked about. -/
structure EventEntry where
  id : PluginId
  buffer : EventBuffer
  pushed : List Nat
  sent : List Nat

namespace EventEntry

def new (id : PluginId) : EventEntry := ⟨id, .new, [], []⟩

/-- Every event is still in the buffer, or counted as lost, or it has been sent. -/
def Accounted (e : EventEntry) : Prop :=
  e.buffer.lost = e.buffer.counted.length ∧
    ∀ n ∈ e.pushed, n ∈ e.buffer.seqs ∨ n ∈ e.buffer.counted ∨ n ∈ e.sent

instance (e : EventEntry) : Decidable e.Accounted := inferInstanceAs (Decidable (_ ∧ _))

end EventEntry

/-- The entries of the plugins are objects that a process keeps hold of; `plugins` says which are in
use. -/
structure EventHost where
  entries : List EventEntry
  plugins : OrderedMap PluginId Nat
  channel : Channel
  stateSeen : Bool

namespace EventHost

def new : EventHost := ⟨[], .empty, ⟨none, false⟩, false⟩

inductive Action
  | connect
  | opened (protocolOk : Bool)
  /-- Either side ends the connection. -/
  | closing
  | closed
  /-- A state that passes its check. -/
  | state (now : Nat)
  | entry (id : PluginId)
  | drop (id : PluginId)
  /-- A process started with this entry emits an event. -/
  | event (ref : Nat) (name : Text) (data : Json) (time : Text) (now : Nat)
  | ack (id : PluginId) (seq : Nat)

section Step

-- the bytes of a message as a text
variable (frameSize : EventMsg → Nat)

def emit (c : Channel) (e : EventEntry) (name : Text) (data : Json) (time : Text) (now : Nat) :
    EventEntry :=
  let msg := e.buffer.message e.id name data time now
  { e with
    buffer := e.buffer.push msg now
    pushed := e.pushed ++ [msg.seq]
    sent := if c.send (frameSize msg) then e.sent ++ [msg.seq] else e.sent }

def resend (c : Channel) (e : EventEntry) (now : Nat) : EventEntry :=
  { e with
    buffer := e.buffer.prune now
    sent := e.sent ++
      (((e.buffer.pending now).filter fun msg => c.send (frameSize msg)).map EventMsg.seq) }

def resendEvents (h : EventHost) (now : Nat) : EventHost :=
  { h with
    entries := h.entries.mapIdx fun ref e =>
      if ref ∈ h.plugins.values then resend frameSize h.channel e now else e }

/-- The server has received this event of the plugin, from whichever entry. -/
def Received (h : EventHost) (id : PluginId) (seq : Nat) : Prop :=
  ∃ e ∈ h.entries, e.id = id ∧ seq ∈ e.sent

instance (h : EventHost) (id : PluginId) (seq : Nat) : Decidable (h.Received id seq) :=
  inferInstanceAs (Decidable (∃ e ∈ h.entries, _))

def step (h : EventHost) : Action → Option EventHost
  | .connect =>
      if h.channel.ws.isNone then some { h with channel := ⟨some .connecting, false⟩ } else none
  | .opened protocolOk =>
      if h.channel.ws = some .connecting then
        some { h with channel := if protocolOk then ⟨some .opened, true⟩ else ⟨some .closing, false⟩ }
      else none
  | .closing =>
      if h.channel.ws.isSome then
        some { h with channel := { h.channel with ws := some .closing } }
      else none
  | .closed =>
      if h.channel.ws.isSome then
        some { h with
          channel := ⟨none, false⟩
          stateSeen := if h.channel.connected then false else h.stateSeen }
      else none
  | .state now =>
      if h.channel.ws = some .opened ∨ h.channel.ws = some .closing then
        if h.stateSeen then some h
        else some ({ h with stateSeen := true }.resendEvents frameSize now)
      else none
  | .entry id =>
      if h.plugins.has id then some h
      else
        some { h with
          entries := h.entries ++ [.new id]
          plugins := h.plugins.set id h.entries.length }
  | .drop id => some { h with plugins := h.plugins.delete id }
  | .event ref name data time now =>
      if ref < h.entries.length then
        some { h with
          entries := h.entries.modify ref fun e => emit frameSize h.channel e name data time now }
      else none
  | .ack id seq =>
      if h.Received id seq then
        match h.plugins.get id with
        | some ref =>
            some { h with
              entries := h.entries.modify ref fun e => { e with buffer := e.buffer.ack seq } }
        | none => some h
      else none

/-! ## Runs in which no event overtakes another -/

/-- The events that are not too old have been sent. -/
def AllSent (e : EventEntry) (now : Nat) : Prop :=
  ∀ i ∈ e.buffer.items.dropWhile (e.buffer.expired now), i.seq ∈ e.sent

/-- When the buffer is sent again, what stands before an event that goes out goes out, too, unless it
has been sent already. -/
def SentInOrder (c : Channel) (e : EventEntry) (now : Nat) : Prop :=
  (e.buffer.items.dropWhile (e.buffer.expired now)).Pairwise fun i j =>
    c.send (frameSize j.msg) → i.seq ∈ e.sent ∨ c.send (frameSize i.msg)

/-- The number belongs to an event of this entry, or it lies below all that are buffered. -/
def OwnAck (e : EventEntry) (seq : Nat) : Prop := seq ∈ e.sent ∨ ∀ n ∈ e.buffer.seqs, seq < n

/-- An event goes out at once only after those before it, the first state of a connection leaves none
out, and an ack from the time of an earlier entry does not reach into the buffer. -/
def Undisturbed (h : EventHost) : Action → Prop
  | .state now =>
      h.stateSeen = false →
        ∀ ref ∈ h.plugins.values, ∀ e ∈ h.entries[ref]?, SentInOrder frameSize h.channel e now
  | .event ref name data time now =>
      ∀ e ∈ h.entries[ref]?,
        h.channel.send (frameSize (e.buffer.message e.id name data time now)) → AllSent e now
  | .ack id seq => ∀ ref ∈ h.plugins.get id, ∀ e ∈ h.entries[ref]?, OwnAck e seq
  | _ => True

instance (e : EventEntry) (now : Nat) : Decidable (AllSent e now) :=
  inferInstanceAs (Decidable (∀ _ ∈ _, _))

instance (c : Channel) (e : EventEntry) (now : Nat) : Decidable (SentInOrder frameSize c e now) :=
  inferInstanceAs (Decidable (List.Pairwise _ _))

instance (e : EventEntry) (seq : Nat) : Decidable (OwnAck e seq) :=
  inferInstanceAs (Decidable (_ ∨ _))

instance (h : EventHost) (a : Action) : Decidable (h.Undisturbed frameSize a) :=
  match a with
  | .state _ => inferInstanceAs (Decidable (_ → ∀ _ ∈ _, ∀ _ ∈ _, _))
  | .event .. => inferInstanceAs (Decidable (∀ _ ∈ _, _ → _))
  | .ack .. => inferInstanceAs (Decidable (∀ _ ∈ _, ∀ _ ∈ _, _))
  | .connect => .isTrue trivial
  | .opened _ => .isTrue trivial
  | .closing => .isTrue trivial
  | .closed => .isTrue trivial
  | .entry _ => .isTrue trivial
  | .drop _ => .isTrue trivial

/-- What holds of each entry in such a run. -/
structure InOrder (e : EventEntry) : Prop where
  increasing : e.buffer.seqs.Pairwise (· < ·)
  buffered_le : ∀ n ∈ e.buffer.seqs, n ≤ e.buffer.lastSeq
  sent_le : ∀ n ∈ e.sent, n ≤ e.buffer.lastSeq
  inOrder : ∀ n ∈ e.buffer.seqs, ∀ m ∈ e.sent, n ≤ m → n ∈ e.sent
  accounted : e.Accounted

def EntriesInOrder (h : EventHost) : Prop := ∀ e ∈ h.entries, InOrder e

variable {frameSize}

theorem new_inOrder (id : PluginId) : InOrder (.new id) := by
  refine ⟨.nil, ?_, ?_, ?_, rfl, ?_⟩
  all_goals
    intro n h
    cases h

theorem emit_inOrder {c : Channel} {e : EventEntry} {name : Text} {data : Json} {time : Text}
    {now : Nat} (hi : InOrder e)
    (hok : c.send (frameSize (e.buffer.message e.id name data time now)) → AllSent e now) :
    InOrder (emit frameSize c e name data time now) := by
  let msg := e.buffer.message e.id name data time now
  have hlast : e.buffer.lastSeq < msg.seq := EventBuffer.lastSeq_lt_nextSeq now
  have hsub := EventBuffer.push_seqs_sublist (b := e.buffer) msg now
  have hmem : ∀ n ∈ (e.buffer.push msg now).seqs, n ∈ e.buffer.seqs ∨ n = msg.seq := by
    intro n hn
    simpa using hsub.subset hn
  have hsent : (emit frameSize c e name data time now).sent =
      if c.send (frameSize msg) then e.sent ++ [msg.seq] else e.sent := rfl
  have hkeep : ∀ n ∈ e.sent, n ∈ (emit frameSize c e name data time now).sent := by
    intro n hn
    rw [hsent]
    split
    · exact List.mem_append_left _ hn
    · exact hn
  refine ⟨?_, ?_, ?_, ?_, EventBuffer.lost_prune (b := e.buffer.add msg now) hi.accounted.1 now, ?_⟩
  · refine List.Pairwise.sublist hsub (List.pairwise_append.2 ⟨hi.increasing, by simp, ?_⟩)
    intro n hn m hm
    rw [List.mem_singleton] at hm
    exact hm ▸ Nat.lt_of_le_of_lt (hi.buffered_le n hn) hlast
  · intro n hn
    rcases hmem n hn with hold | rfl
    · exact Nat.le_of_lt (Nat.lt_of_le_of_lt (hi.buffered_le n hold) hlast)
    · exact Nat.le_refl _
  · intro n hn
    rw [hsent] at hn
    have hcases : n ∈ e.sent ∨ n = msg.seq := by
      split at hn
      · simpa using hn
      · exact .inl hn
    rcases hcases with hold | rfl
    · exact Nat.le_of_lt (Nat.lt_of_le_of_lt (hi.sent_le n hold) hlast)
    · exact Nat.le_refl _
  · intro n hn m hm hle
    rw [hsent] at hm ⊢
    split at hm
    · rename_i hgo
      rw [if_pos hgo]
      rcases List.mem_map.1 hn with ⟨i, hin, rfl⟩
      -- the new event has gone out, so those before it have
      rcases EventBuffer.mem_push hin with hold | hnew
      · exact List.mem_append_left _ (hok hgo i hold)
      · exact List.mem_append_right _ (List.mem_singleton.2 hnew)
    · rename_i hstay
      rw [if_neg hstay]
      rcases hmem n hn with hold | rfl
      · exact hi.inOrder n hold m hm hle
      · exact absurd (Nat.lt_of_le_of_lt (hi.sent_le m hm) hlast) (Nat.not_lt.2 hle)
  · intro n hn
    rcases List.mem_append.1 hn with hold | hnew
    · rcases hi.accounted.2 n hold with h | h | h
      · rcases EventBuffer.mem_seqs_push now (List.mem_append_left [msg.seq] h) with h | h
        · exact .inl h
        · exact .inr (.inl h)
      · exact .inr (.inl (EventBuffer.mem_counted_prune (b := e.buffer.add msg now) h))
      · exact .inr (.inr (hkeep n h))
    · rcases EventBuffer.mem_seqs_push now (List.mem_append_right e.buffer.seqs hnew) with
        h | h
      · exact .inl h
      · exact .inr (.inl h)

/-- Pruning alone takes nothing from the order. -/
theorem resend_inOrder {c : Channel} {e : EventEntry} {now : Nat} (hi : InOrder e)
    (hok : SentInOrder frameSize c e now) : InOrder (resend frameSize c e now) := by
  have hsub := EventBuffer.prune_seqs_sublist (b := e.buffer) now
  have hwent : ∀ m, m ∈ (((e.buffer.pending now).filter fun msg =>
      c.send (frameSize msg)).map EventMsg.seq) ↔
        ∃ j ∈ (e.buffer.prune now).items, c.send (frameSize j.msg) ∧ j.seq = m := by
    intro m
    simp only [EventBuffer.pending, List.mem_map, List.mem_filter]
    constructor
    · rintro ⟨_, ⟨⟨j, hj, rfl⟩, hgo⟩, rfl⟩
      exact ⟨j, hj, hgo, j.seq_eq.symm⟩
    · rintro ⟨j, hj, hgo, rfl⟩
      exact ⟨j.msg, ⟨⟨j, hj, rfl⟩, hgo⟩, j.seq_eq⟩
  have hseqs : (e.buffer.prune now).seqs.Pairwise (· < ·) := hi.increasing.sublist hsub
  refine ⟨hseqs, fun n hn => hi.buffered_le n (hsub.subset hn), ?_, ?_,
    EventBuffer.lost_prune hi.accounted.1 now, ?_⟩
  · intro n hn
    rcases List.mem_append.1 hn with hold | hnew
    · exact hi.sent_le n hold
    · rcases (hwent n).1 hnew with ⟨j, hj, _, rfl⟩
      exact hi.buffered_le _ (hsub.subset (List.mem_map_of_mem hj))
  · intro n hn m hm hle
    rcases List.mem_append.1 hm with hold | hnew
    · exact List.mem_append_left _ (hi.inOrder n (hsub.subset hn) m hold hle)
    · rcases (hwent m).1 hnew with ⟨j, hj, hgo, rfl⟩
      rcases List.mem_map.1 hn with ⟨i, hin, rfl⟩
      have hboth := (List.pairwise_map.1 hseqs).and (hok.sublist (EventBuffer.prune_items_sublist now))
      rcases List.append_of_mem hj with ⟨before, after, hsplit⟩
      have hin' : i ∈ (e.buffer.prune now).items := hin
      rw [hsplit, List.pairwise_append, List.pairwise_cons] at hboth
      rw [hsplit, List.mem_append, List.mem_cons] at hin'
      rcases hin' with hbefore | rfl | hafter
      · -- an event before one that goes out has been sent, or it goes out
        rcases (hboth.2.2 i hbefore j List.mem_cons_self).2 hgo with hsent | hgo'
        · exact List.mem_append_left _ hsent
        · exact List.mem_append_right _ ((hwent _).2 ⟨i, hin, hgo', rfl⟩)
      · exact List.mem_append_right _ hnew
      · exact absurd (hboth.2.1.1 i hafter).1 (Nat.not_lt.2 hle)
  · intro n hn
    rcases hi.accounted.2 n hn with h | h | h
    · rcases EventBuffer.mem_seqs_prune now h with h | h
      · exact .inl h
      · exact .inr (.inl h)
    · exact .inr (.inl (EventBuffer.mem_counted_prune h))
    · exact .inr (.inr (List.mem_append_left _ h))

theorem ack_inOrder {e : EventEntry} {seq : Nat} (hi : InOrder e) (hok : OwnAck e seq) :
    InOrder { e with buffer := e.buffer.ack seq } := by
  have hsub : (e.buffer.ack seq).seqs.Sublist e.buffer.seqs :=
    (EventBuffer.ack_items_sublist seq).map _
  refine ⟨hi.increasing.sublist hsub, fun n hn => hi.buffered_le n (hsub.subset hn), hi.sent_le,
    fun n hn => hi.inOrder n (hsub.subset hn), hi.accounted.1, ?_⟩
  intro n hn
  rcases hi.accounted.2 n hn with h | h | h
  · rcases EventBuffer.mem_seqs_ack seq h with hkept | hle
    · exact .inl hkept
    · -- what the ack covers has been sent
      rcases hok with hsent | hbelow
      · exact .inr (.inr (hi.inOrder n h seq hsent hle))
      · exact absurd (hbelow n h) (Nat.not_lt.2 hle)
  · exact .inr (.inl h)
  · exact .inr (.inr h)

theorem forall_mem_modify {α : Type*} {P : α → Prop} {l : List α} {i : Nat} {f : α → α}
    (h : ∀ x ∈ l, P x) (hf : ∀ x ∈ l[i]?, P (f x)) : ∀ x ∈ l.modify i f, P x := by
  intro x hx
  rcases List.mem_iff_getElem?.1 hx with ⟨j, hj⟩
  rw [List.getElem?_modify] at hj
  rcases Option.map_eq_some_iff.1 hj with ⟨y, hy, rfl⟩
  split
  · rename_i hij
    exact hf y (hij ▸ hy)
  · exact h y (List.mem_of_getElem? hy)

theorem step_inOrder (h : EventHost) (a : Action) (h' : EventHost) (hi : h.EntriesInOrder)
    (hok : h.Undisturbed frameSize a) (hstep : step frameSize h a = some h') :
    h'.EntriesInOrder := by
  cases a with
  | connect =>
      simp only [step] at hstep
      split at hstep
      · cases hstep
        exact hi
      · cases hstep
  | opened protocolOk =>
      simp only [step] at hstep
      split at hstep
      · cases hstep
        exact hi
      · cases hstep
  | closing =>
      simp only [step] at hstep
      split at hstep
      · cases hstep
        exact hi
      · cases hstep
  | closed =>
      simp only [step] at hstep
      split at hstep
      · cases hstep
        exact hi
      · cases hstep
  | state now =>
      simp only [step] at hstep
      split at hstep
      · split at hstep
        · cases hstep
          exact hi
        · rename_i hfirst
          cases hstep
          intro e he
          rcases List.mem_mapIdx.1 he with ⟨ref, hlt, rfl⟩
          have hmem := List.getElem_mem hlt
          split
          · rename_i hused
            have hat := List.getElem?_eq_getElem hlt
            exact resend_inOrder (hi _ hmem) (hok (Bool.eq_false_iff.2 hfirst) ref hused _ hat)
          · exact hi _ hmem
      · cases hstep
  | entry id =>
      simp only [step] at hstep
      split at hstep
      · cases hstep
        exact hi
      · cases hstep
        intro e he
        rcases List.mem_append.1 he with hold | hnew
        · exact hi e hold
        · exact List.mem_singleton.1 hnew ▸ new_inOrder id
  | drop id =>
      cases hstep
      exact hi
  | event ref name data time now =>
      simp only [step] at hstep
      split at hstep
      · cases hstep
        refine forall_mem_modify hi ?_
        intro e he
        exact emit_inOrder (hi e (List.mem_of_getElem? he)) (hok e he)
      · cases hstep
  | ack id seq =>
      simp only [step] at hstep
      split at hstep
      · split at hstep
        · rename_i ref href
          cases hstep
          refine forall_mem_modify hi ?_
          intro e he
          exact ack_inOrder (hi e (List.mem_of_getElem? he)) (hok ref href e he)
        · cases hstep
          exact hi
      · cases hstep

variable (frameSize)

/-- In a run in which no event overtakes another, every event is buffered, counted or sent. -/
theorem events_accounted (as : List Action)
    (hok : Admits (step frameSize) (Undisturbed frameSize) new as) :
    Throughout (step frameSize) (fun h => ∀ e ∈ h.entries, e.Accounted) new as := by
  have hnew : EntriesInOrder new := by
    intro e he
    cases he
  exact throughout_of_admits step_inOrder (fun _ hi e he => (hi e he).accounted) hnew hok

end Step

/-- The size of a message with ASCII texts that need no escapes and no data. -/
def plainSize (msg : EventMsg) : Nat :=
  ("\x7b\"t\":\"event\",\"plugin\":\"\",\"name\":\"\",\"data\":null,\"at\":\"\",\"seq\":\x7d".toList ++
    msg.plugin.toList ++ msg.name ++ msg.time ++ decimal msg.seq).length

/-- The time of the first event, as text and as a number. -/
def nine : Text × Nat := ("2026-01-01T09:00:00.000Z".toList, 1767258000000)

def door (now : Nat) : Action := .event 0 "door".toList .null nine.1 now

/-- An event waits for the connection and its first state; another follows at once. -/
def waited : List Action :=
  [.entry "lights", door nine.2, .connect, .opened true, .state (nine.2 + 1), door (nine.2 + 2),
    .ack "lights" (nine.2 + 2)]

theorem events_accounted_waited :
    (exec (step plainSize) new waited).any (fun h => h.entries.all fun e => e.buffer.seqs.isEmpty) =
        true ∧
      Throughout (step plainSize) (fun h => ∀ e ∈ h.entries, e.Accounted) new waited := by
  refine ⟨by decide +kernel, events_accounted plainSize waited ?_⟩
  exact admits_of_checkRun (fun _ _ h => of_decide_eq_true h)
    (show checkRun (step plainSize) (fun h a => decide (h.Undisturbed plainSize a)) new waited = true by
      decide +kernel)

/-- The same, but the second event comes before the state. -/
def overtaken : List Action :=
  [.entry "lights", door nine.2, .connect, .opened true, door (nine.2 + 1),
    .ack "lights" (nine.2 + 1)]

/-- The first event is confirmed with the second, although it has never been sent. -/
theorem event_overtaken :
    ∃ h, exec (step plainSize) new overtaken = some h ∧ ¬ ∀ e ∈ h.entries, e.Accounted := by
  have hrun : (exec (step plainSize) new overtaken).any
      (fun h => decide (¬ ∀ e ∈ h.entries, e.Accounted)) = true := by
    decide +kernel
  rcases (Option.any_eq_true ..).1 hrun with ⟨h, hh, hlost⟩
  exact ⟨h, hh, of_decide_eq_true hlost⟩

end EventHost

end Edge
end GateControl
