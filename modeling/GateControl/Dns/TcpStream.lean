import GateControl.Library.Bytes
import GateControl.Library.Framing
import GateControl.Library.Keyed
import GateControl.Library.Transition

/-!
# TcpStream — one TCP connection of the DNS listener

A client sends its questions one behind the other, each behind its length in two bytes.  `_onTcp`
takes the complete ones off the front of what has come, asks for the answer of each, and writes the
answers as they come.  At most `maxTcpPipeline` questions may be open; a client that sends more, or
one that is too short, is cut off.  The client may close its side at once: the connection ends when
the last answer has been given.
-/

namespace GateControl
namespace Dns

open Library

namespace TcpStream

/-! ## Frames -/

def maxTcpPipeline : Nat := 32

/-- A message behind its length. -/
def frame (msg : Bytes) : Bytes := uint16BE msg.length ++ msg

/-- What stands at the front of the buffer. -/
def front (buf : Bytes) : Front UInt8 Bytes Unit :=
  match readUInt16BE buf 0 with
  | none => .wait
  | some len =>
      if len < 12 then .error ()
      else if buf.length < 2 + len then .wait
      else .item (slice buf 2 (2 + len)) (buf.drop (2 + len))

/-- What can be a message of a client. -/
def Sized (msg : Bytes) : Prop := 12 ≤ msg.length ∧ msg.length ≤ 65535

/-! ## The connection -/

/-- What comes of a question; the answer may be none. -/
inductive Outcome
  | answered (out : Option Bytes)
  | failed
  deriving DecidableEq

/-- `settled` says that the `finally` of the question has run. -/
structure Job where
  msg : Bytes
  outcome : Option Outcome
  settled : Bool
  deriving DecidableEq

/-- A call of `c.write`, with the question that it answers; `late` says that `c.end` had been called
before. -/
structure Write where
  job : Nat
  bytes : Bytes
  late : Bool
  deriving DecidableEq

/-- `received`, `written` and `ends` (the calls of `c.end`) are there to be talked about. -/
structure Conn where
  buf : Bytes
  pending : Nat
  ended : Bool
  destroyed : Bool
  jobs : List Job
  received : Bytes
  written : List Write
  ends : Nat
  deriving DecidableEq

inductive Action
  | data (chunk : Bytes)
  /-- The client closes its side. -/
  | ended
  /-- The handler of a question is done. -/
  | done (i : Nat) (o : Outcome)
  | settled (i : Nat)
  /-- The connection fails, or has been idle for too long. -/
  | destroyed

namespace Conn

def new : Conn := ⟨[], 0, false, false, [], [], [], 0⟩

variable (c : Conn)

def destroy : Conn := { c with destroyed := true }

def maybeEnd : Conn :=
  if c.ended && c.pending = 0 && !c.destroyed then { c with ends := c.ends + 1 } else c

/-- The loop over the buffer; `fuel` bounds its passes. -/
def loop : Nat → Conn → Conn
  | 0, c => c
  | fuel + 1, c =>
      match front c.buf with
      | .wait => c
      | .error _ => c.destroy
      | .item msg rest =>
          let c := { c with buf := rest, pending := c.pending + 1 }
          if c.pending > maxTcpPipeline then c.destroy
          else loop fuel { c with jobs := c.jobs ++ [⟨msg, none, false⟩] }

def onData (chunk : Bytes) : Conn :=
  let c := loop (c.buf ++ chunk).length
    { c with buf := c.buf ++ chunk, received := c.received ++ chunk }
  if c.buf.length > 65537 then c.destroy else c

/-- An answer is written behind its length; one that is too long for that makes the write fail. -/
def write (i : Nat) : Outcome → Conn
  | .answered (some out) =>
      if c.destroyed || 65535 < out.length then c
      else { c with written := c.written ++ [⟨i, frame out, 0 < c.ends⟩] }
  | _ => c

def step : Action → Option Conn
  | .data chunk => if c.destroyed || c.ended then none else some (c.onData chunk)
  | .ended =>
      if c.destroyed || c.ended then none else some ({ c with ended := true } : Conn).maybeEnd
  | .done i o =>
      match c.jobs[i]? with
      | some ⟨msg, none, settled⟩ =>
          some (({ c with jobs := c.jobs.set i ⟨msg, some o, settled⟩ } : Conn).write i o)
      | _ => none
  | .settled i =>
      match c.jobs[i]? with
      | some ⟨msg, some o, false⟩ =>
          some (({ c with
            jobs := c.jobs.set i ⟨msg, some o, true⟩, pending := c.pending - 1 } : Conn).maybeEnd)
      | _ => none
  | .destroyed => some c.destroy

/-! ## What is asked of a run -/

def frames : Bytes := c.jobs.flatMap fun j => frame j.msg

/-- A connection: its questions are those that have come, each is answered once, and it is closed
when the last one has been. -/
structure Served : Prop where
  /-- The questions are the complete messages that have come. -/
  whole : c.destroyed = false → c.received = c.frames ++ c.buf ∧ front c.buf = .wait
  /-- However they have been cut into pieces. -/
  asked : c.destroyed = false → ∀ msgs : List Bytes, (∀ msg ∈ msgs, Sized msg) →
    c.received = msgs.flatMap frame → c.jobs.map Job.msg = msgs ∧ c.buf = []
  sent : c.frames <+: c.received
  sized : ∀ j ∈ c.jobs, Sized j.msg
  load : c.destroyed = false →
    c.pending = c.jobs.countP (fun j => !j.settled) ∧ c.pending ≤ maxTcpPipeline
  once : (c.written.map Write.job).Nodup
  written : ∀ w ∈ c.written, w.late = false ∧ ∃ j out, c.jobs[w.job]? = some j ∧
    j.outcome = some (.answered (some out)) ∧ w.bytes = frame out ∧ out.length ≤ 65535
  answered : c.destroyed = false → ∀ i j out, c.jobs[i]? = some j →
    j.outcome = some (.answered (some out)) → out.length ≤ 65535 → i ∈ c.written.map Write.job
  ends : c.destroyed = false →
    c.ends = if c.ended = true ∧ ∀ j ∈ c.jobs, j.settled = true then 1 else 0

/-! ## Reading frames -/

theorem front_frame {msg : Bytes} (h : Sized msg) (more : Bytes) :
    front (frame msg ++ more) = .item msg more := by
  have hread : readUInt16BE (frame msg ++ more) 0 = some msg.length := by
    refine BytesAt.readUInt16BE (a := uint16BE msg.length) ?_ rfl (Nat.lt_succ_of_le h.2)
    exact ⟨[], msg ++ more, by simp [frame], rfl⟩
  unfold front
  rw [hread]
  simp only
  rw [if_neg (Nat.not_lt.2 h.1), if_neg (by simp [frame])]
  congr 1
  · simp [slice, frame, List.take_append]
  · simp [frame, List.drop_append]

theorem item_of_front {buf msg rest : Bytes} (h : front buf = .item msg rest) :
    buf = frame msg ++ rest ∧ Sized msg := by
  unfold front at h
  split at h
  · cases h
  · next len hread =>
      split at h
      · cases h
      · next hlow =>
          split at h
          · cases h
          · next hlen =>
              obtain ⟨hlt, pre, post, rfl, hpre⟩ := BytesAt.of_readUInt16BE hread
              obtain rfl := List.length_eq_zero_iff.1 hpre
              cases h
              rw [List.nil_append, List.length_append, length_uint16BE] at hlen
              have hmsg : slice ([] ++ uint16BE len ++ post) 2 (2 + len) = post.take len := by
                simp [slice, List.take_append]
              have hrest : ([] ++ uint16BE len ++ post).drop (2 + len) = post.drop len := by
                simp [List.drop_append]
              have hsize : (post.take len).length = len := by
                rw [List.length_take]
                omega
              rw [hmsg, hrest]
              refine ⟨?_, by rw [Sized, hsize]; omega⟩
              rw [frame, hsize, List.nil_append, List.append_assoc, List.take_append_drop]

theorem shortens_front : Framing.Shortens front := by
  intro buf msg rest h
  obtain ⟨rfl, _⟩ := item_of_front h
  rw [List.length_append, frame, List.length_append, length_uint16BE]
  omega

/-- What is read off a stream is what has been written to it. -/
theorem read_unique {msgs msgs' : List Bytes} {buf buf' : Bytes} (h : ∀ msg ∈ msgs, Sized msg)
    (h' : ∀ msg ∈ msgs', Sized msg) (hbuf : front buf = .wait) (hbuf' : front buf' = .wait)
    (heq : msgs.flatMap frame ++ buf = msgs'.flatMap frame ++ buf') :
    msgs = msgs' ∧ buf = buf' := by
  induction msgs generalizing msgs' with
  | nil =>
      cases msgs' with
      | nil =>
          exact ⟨rfl, heq⟩
      | cons msg' msgs' =>
          change buf = (frame msg' ++ msgs'.flatMap frame) ++ buf' at heq
          rw [heq, List.append_assoc, front_frame (h' msg' List.mem_cons_self)] at hbuf
          cases hbuf
  | cons msg msgs ih =>
      have hitem : front ((msg :: msgs).flatMap frame ++ buf) =
          .item msg (msgs.flatMap frame ++ buf) := by
        rw [List.flatMap_cons, List.append_assoc, front_frame (h msg List.mem_cons_self)]
      cases msgs' with
      | nil =>
          rw [heq] at hitem
          change front buf' = _ at hitem
          rw [hbuf'] at hitem
          cases hitem
      | cons msg' msgs' =>
          rw [heq, List.flatMap_cons, List.append_assoc,
            front_frame (h' msg' List.mem_cons_self)] at hitem
          injection hitem with hmsg hrest
          obtain ⟨rfl, hsame⟩ := ih (fun m hm => h m (List.mem_cons_of_mem msg hm))
            (fun m hm => h' m (List.mem_cons_of_mem msg' hm)) hrest.symm
          exact ⟨congrArg (· :: msgs) hmsg.symm, hsame⟩

/-! ## What holds in every run -/

structure Sound : Prop where
  stream : c.destroyed = false → c.received = c.frames ++ c.buf
  sent : c.frames <+: c.received
  sized : ∀ j ∈ c.jobs, Sized j.msg
  settled : ∀ j ∈ c.jobs, j.settled = true → j.outcome.isSome = true
  load : c.destroyed = false →
    c.pending = c.jobs.countP (fun j => !j.settled) ∧ c.pending ≤ maxTcpPipeline
  once : (c.written.map Write.job).Nodup
  written : ∀ w ∈ c.written, w.late = false ∧ ∃ j out, c.jobs[w.job]? = some j ∧
    j.outcome = some (.answered (some out)) ∧ w.bytes = frame out ∧ out.length ≤ 65535
  answered : c.destroyed = false → ∀ i j out, c.jobs[i]? = some j →
    j.outcome = some (.answered (some out)) → out.length ≤ 65535 → i ∈ c.written.map Write.job
  ends : c.destroyed = false → c.ends = if c.ended = true ∧ c.pending = 0 then 1 else 0

variable {c} {c' : Conn} {i : Nat} {o : Outcome}

theorem Sound.destroy (h : c.Sound) : c.destroy.Sound where
  stream := fun hd => (nomatch hd)
  sent := h.sent
  sized := h.sized
  settled := h.settled
  load := fun hd => (nomatch hd)
  once := h.once
  written := h.written
  answered := fun hd => (nomatch hd)
  ends := fun hd => (nomatch hd)

theorem mem_jobs_concat {j : Job} {msg : Bytes} (h : j ∈ c.jobs ++ [⟨msg, none, false⟩]) :
    j ∈ c.jobs ∨ j = ⟨msg, none, false⟩ :=
  (List.mem_append.1 h).imp_right List.mem_singleton.1

/-- A question is taken off the front of the buffer. -/
theorem Sound.take (h : c.Sound) (halive : c.destroyed = false) (hopen : c.ended = false)
    {msg rest : Bytes} (hfront : front c.buf = .item msg rest)
    (hroom : c.pending + 1 ≤ maxTcpPipeline) :
    ({ c with
        buf := rest
        pending := c.pending + 1
        jobs := c.jobs ++ [⟨msg, none, false⟩] } : Conn).Sound := by
  obtain ⟨hbuf, hsized⟩ := item_of_front hfront
  have hframes : (c.jobs ++ [(⟨msg, none, false⟩ : Job)]).flatMap (fun j => frame j.msg) =
      c.frames ++ frame msg := by
    rw [List.flatMap_append]
    exact congrArg _ (List.append_nil _)
  have hreceived : c.received = c.frames ++ frame msg ++ rest := by
    rw [h.stream halive, hbuf, List.append_assoc]
  refine ⟨fun _ => ?_, ?_, ?_, ?_, fun _ => ⟨?_, hroom⟩, h.once, ?_, fun _ => ?_, fun _ => ?_⟩
  · exact hreceived.trans (congrArg (· ++ rest) hframes.symm)
  · exact ⟨rest, (congrArg (· ++ rest) hframes).trans hreceived.symm⟩
  · intro j hj
    rcases mem_jobs_concat hj with hold | rfl
    · exact h.sized j hold
    · exact hsized
  · intro j hj
    rcases mem_jobs_concat hj with hold | rfl
    · exact h.settled j hold
    · exact fun hs => (nomatch hs)
  · change c.pending + 1 = _
    rw [List.countP_append, (h.load halive).1]
    rfl
  · intro w hw
    obtain ⟨hlate, j, out, hj, hrest⟩ := h.written w hw
    exact ⟨hlate, j, out, getElem?_concat_iff.2 (Or.inl hj), hrest⟩
  · intro i j out hj hout hlen
    rcases getElem?_concat_iff.1 hj with hold | ⟨_, rfl⟩
    · exact h.answered halive i j out hold hout hlen
    · cases hout
  · have hends := h.ends halive
    rw [hopen] at hends
    change c.ends = if c.ended = true ∧ _ then 1 else 0
    rw [hopen]
    simpa using hends

/-- The loop ends because the front waits, or the connection is cut off. -/
theorem loop_spec {fuel : Nat} (hfuel : c.buf.length ≤ fuel) (h : c.Sound)
    (halive : c.destroyed = false) (hopen : c.ended = false) :
    (loop fuel c).Sound ∧ ((loop fuel c).destroyed = false → front (loop fuel c).buf = .wait) := by
  induction fuel generalizing c with
  | zero =>
      refine ⟨h, fun _ => ?_⟩
      change front c.buf = .wait
      rw [List.length_eq_zero_iff.1 (Nat.le_zero.1 hfuel)]
      rfl
  | succ fuel ih =>
      rw [loop]
      cases hfront : front c.buf with
      | wait =>
          exact ⟨h, fun _ => hfront⟩
      | error e =>
          exact ⟨h.destroy, fun hd => (nomatch hd)⟩
      | item msg rest =>
          have hshort : rest.length < c.buf.length := shortens_front _ _ _ hfront
          by_cases hroom : c.pending + 1 > maxTcpPipeline
          · simp only [hroom, if_true]
            have hcut : ({ c with buf := rest, pending := c.pending + 1 } : Conn).destroy.Sound :=
              ⟨fun hd => (nomatch hd), h.sent, h.sized, h.settled, fun hd => (nomatch hd), h.once,
                h.written, fun hd => (nomatch hd), fun hd => (nomatch hd)⟩
            exact ⟨hcut, fun hd => (nomatch hd)⟩
          · simp only [hroom, if_false]
            exact ih (by change rest.length ≤ fuel; omega)
              (h.take halive hopen hfront (Nat.le_of_not_lt hroom)) halive hopen

/-- What stands in the buffer waits, unless the connection is cut off. -/
def Waits (c : Conn) : Prop := c.destroyed = false → front c.buf = .wait

theorem Sound.more (h : c.Sound) (chunk : Bytes) :
    ({ c with buf := c.buf ++ chunk, received := c.received ++ chunk } : Conn).Sound := by
  refine ⟨fun hd => ?_, h.sent.trans (List.prefix_append ..), h.sized, h.settled, h.load, h.once,
    h.written, h.answered, h.ends⟩
  change c.received ++ chunk = c.frames ++ (c.buf ++ chunk)
  rw [h.stream hd, List.append_assoc]

theorem Sound.onData (h : c.Sound) (halive : c.destroyed = false) (hopen : c.ended = false)
    (chunk : Bytes) : (c.onData chunk).Sound ∧ (c.onData chunk).Waits := by
  have hloop := loop_spec (Nat.le_refl (c.buf ++ chunk).length) (h.more chunk) halive hopen
  obtain ⟨hsound, hwaits⟩ := hloop
  unfold Conn.onData
  simp only
  split
  · exact ⟨hsound.destroy, fun hd => (nomatch hd)⟩
  · exact ⟨hsound, hwaits⟩

/-- `c.end` is called when it has not been called before. -/
theorem Sound.maybeEnd (h : ({ c with ended := false } : Conn).Sound) : c.maybeEnd.Sound := by
  have hzero : c.destroyed = false → c.ends = 0 := fun hd => by simpa using h.ends hd
  obtain ⟨hstream, hsent, hsized, hsettled, hload, honce, hwritten, hanswered, _⟩ := h
  unfold Conn.maybeEnd
  by_cases hend : (c.ended && c.pending = 0 && !c.destroyed) = true
  · rw [if_pos hend]
    refine ⟨hstream, hsent, hsized, hsettled, hload, honce, hwritten, hanswered, fun hd => ?_⟩
    have hboth : c.ended = true ∧ c.pending = 0 := by
      simpa using (Bool.and_eq_true_iff.1 hend).1
    change c.ends + 1 = if c.ended = true ∧ c.pending = 0 then 1 else 0
    rw [hzero hd, if_pos hboth]
  · rw [if_neg hend]
    refine ⟨hstream, hsent, hsized, hsettled, hload, honce, hwritten, hanswered, fun hd => ?_⟩
    rw [hzero hd, if_neg]
    rintro ⟨hended, hpending⟩
    change c.destroyed = false at hd
    exact hend (by simp [hended, hpending, hd])

theorem Sound.ended (h : c.Sound) (hopen : c.ended = false) :
    ({ c with ended := true } : Conn).maybeEnd.Sound := by
  apply Sound.maybeEnd
  obtain ⟨hstream, hsent, hsized, hsettled, hload, honce, hwritten, hanswered, hends⟩ := h
  refine ⟨hstream, hsent, hsized, hsettled, hload, honce, hwritten, hanswered, ?_⟩
  rw [hopen] at hends
  exact hends

/-- A question that is not settled keeps the connection open. -/
theorem Sound.ends_eq_zero (h : c.Sound) (halive : c.destroyed = false) {j : Job} (hj : j ∈ c.jobs)
    (hset : j.settled = false) : c.ends = 0 := by
  have hpos : 0 < c.jobs.countP fun j => !j.settled :=
    List.countP_pos_iff.2 ⟨j, hj, by rw [hset]; rfl⟩
  rw [h.ends halive, if_neg]
  rintro ⟨_, hzero⟩
  rw [(h.load halive).1] at hzero
  omega

/-- A question keeps its message. -/
theorem frames_set {j : Job} (hj : c.jobs[i]? = some j) (j' : Job) (hmsg : j'.msg = j.msg) :
    ({ c with jobs := c.jobs.set i j' } : Conn).frames = c.frames := by
  have hmsgs : (c.jobs.set i j').map Job.msg = c.jobs.map Job.msg := map_key_set hj hmsg
  have hflat : ∀ js : List Job,
      js.flatMap (fun j => frame j.msg) = (js.map Job.msg).flatMap frame :=
    fun js => (List.flatMap_map ..).symm
  rw [frames, frames, hflat, hflat, hmsgs]

theorem mem_set_cases {j' j'' : Job} (h : j'' ∈ c.jobs.set i j') : j'' ∈ c.jobs ∨ j'' = j' :=
  List.mem_or_eq_of_mem_set h

/-- A handler is done, and its answer is written if it can be. -/
theorem Sound.done (h : c.Sound) {msg : Bytes} {settled : Bool}
    (hj : c.jobs[i]? = some ⟨msg, none, settled⟩) (o : Outcome) :
    (({ c with jobs := c.jobs.set i ⟨msg, some o, settled⟩ } : Conn).write i o).Sound := by
  have hmem := List.mem_of_getElem? hj
  have hlt := (List.getElem?_eq_some_iff.1 hj).1
  have hunset : settled = false := by
    cases settled with
    | false => rfl
    | true => cases h.settled _ hmem rfl
  subst hunset
  -- no answer to it has been written yet
  have hnew : i ∉ c.written.map Write.job := by
    intro hin
    obtain ⟨w, hw, rfl⟩ := List.mem_map.1 hin
    obtain ⟨_, j, out, hj', hout, _⟩ := h.written w hw
    rw [hj] at hj'
    cases hj'
    cases hout
  have hframes := frames_set hj ⟨msg, some o, false⟩ rfl
  have hcount := countP_replace (fun j : Job => !j.settled) hj ⟨msg, some o, false⟩
  have hother : ∀ k j, (c.jobs.set i ⟨msg, some o, false⟩)[k]? = some j →
      (k = i ∧ j = ⟨msg, some o, false⟩) ∨ (k ≠ i ∧ c.jobs[k]? = some j) :=
    fun k j => getElem?_set_cases
  have hwrote : ∀ w ∈ c.written, w.late = false ∧ ∃ j out,
      (c.jobs.set i ⟨msg, some o, false⟩)[w.job]? = some j ∧
      j.outcome = some (.answered (some out)) ∧ w.bytes = frame out ∧ out.length ≤ 65535 := by
    intro w hw
    obtain ⟨hlate, j, out, hj', hrest⟩ := h.written w hw
    refine ⟨hlate, j, out, ?_, hrest⟩
    rw [List.getElem?_set_ne]
    · exact hj'
    · rintro rfl
      exact hnew (List.mem_map_of_mem hw)
  have hsized : ∀ j ∈ c.jobs.set i ⟨msg, some o, false⟩, Sized j.msg := by
    intro j hj'
    rcases mem_set_cases hj' with hold | rfl
    · exact h.sized j hold
    · exact h.sized ⟨msg, none, false⟩ hmem
  have hsettled : ∀ j ∈ c.jobs.set i ⟨msg, some o, false⟩, j.settled = true →
      j.outcome.isSome = true := by
    intro j hj'
    rcases mem_set_cases hj' with hold | rfl
    · exact h.settled j hold
    · exact fun hs => (nomatch hs)
  have hload : c.destroyed = false → c.pending =
      (c.jobs.set i ⟨msg, some o, false⟩).countP (fun j => !j.settled) ∧
        c.pending ≤ maxTcpPipeline := by
    intro hd
    refine ⟨?_, (h.load hd).2⟩
    rw [(h.load hd).1]
    simpa using hcount.symm
  -- whoever is answered after this step was so before, or is the one whose handler is done
  have hanswered : ∀ k j out, c.destroyed = false →
      (c.jobs.set i ⟨msg, some o, false⟩)[k]? = some j →
      j.outcome = some (.answered (some out)) → out.length ≤ 65535 →
      k ∈ c.written.map Write.job ∨ (k = i ∧ o = .answered (some out)) := by
    intro k j out hd hj' hout hlen
    rcases hother k j hj' with ⟨rfl, rfl⟩ | ⟨_, hold⟩
    · exact Or.inr ⟨rfl, Option.some.inj hout⟩
    · exact Or.inl (h.answered hd k j out hold hout hlen)
  have hquiet : (∀ out, c.destroyed = false → o = .answered (some out) → 65535 < out.length) →
      ({ c with jobs := c.jobs.set i ⟨msg, some o, false⟩ } : Conn).Sound := by
    intro hno
    refine ⟨fun hd => ?_, ?_, hsized, hsettled, hload, h.once, hwrote, ?_, h.ends⟩
    · rw [hframes]
      exact h.stream hd
    · rw [hframes]
      exact h.sent
    · intro hd k j out hj' hout hlen
      rcases hanswered k j out hd hj' hout hlen with hold | ⟨_, ho⟩
      · exact hold
      · exact absurd hlen (Nat.not_le.2 (hno out hd ho))
  unfold Conn.write
  split
  · next out =>
      by_cases hskip : (c.destroyed || 65535 < out.length) = true
      · rw [if_pos hskip]
        refine hquiet fun out' hd ho => ?_
        cases ho
        simpa [hd] using hskip
      · rw [if_neg hskip]
        obtain ⟨halive, hlen⟩ : c.destroyed = false ∧ out.length ≤ 65535 := by simpa using hskip
        have hintime : decide (0 < c.ends) = false :=
          decide_eq_false (Nat.not_lt.2 (Nat.le_of_eq (h.ends_eq_zero halive hmem rfl)))
        refine ⟨fun hd => ?_, ?_, hsized, hsettled, hload, ?_, ?_, ?_, h.ends⟩
        · exact (h.stream hd).trans (congrArg (· ++ c.buf) hframes.symm)
        · exact hframes.symm ▸ h.sent
        · change ((c.written ++ [(⟨i, frame out, decide (0 < c.ends)⟩ : Write)]).map
            Write.job).Nodup
          rw [List.map_append]
          exact List.nodup_append_comm.2 (List.nodup_cons.2 ⟨hnew, h.once⟩)
        · intro w hw
          rcases List.mem_append.1 hw with hold | hlast
          · exact hwrote w hold
          · obtain rfl := List.mem_singleton.1 hlast
            exact ⟨hintime, ⟨msg, some (.answered (some out)), false⟩, out,
              List.getElem?_set_self hlt, rfl, rfl, hlen⟩
        · intro hd k j out' hj' hout hlen'
          change k ∈ (c.written ++ [(⟨i, frame out, decide (0 < c.ends)⟩ : Write)]).map Write.job
          rw [List.map_append, List.mem_append]
          rcases hanswered k j out' hd hj' hout hlen' with hold | ⟨rfl, _⟩
          · exact Or.inl hold
          · exact Or.inr (List.mem_singleton.2 rfl)
  · next hother' =>
      exact hquiet fun out _ ho => absurd ho (hother' out)

/-- The `finally` of a question. -/
theorem Sound.settle (h : c.Sound) {msg : Bytes} {o : Outcome}
    (hj : c.jobs[i]? = some ⟨msg, some o, false⟩) :
    ({ c with
        jobs := c.jobs.set i ⟨msg, some o, true⟩
        pending := c.pending - 1 } : Conn).maybeEnd.Sound := by
  have hmem := List.mem_of_getElem? hj
  have hframes := frames_set hj ⟨msg, some o, true⟩ rfl
  have hcount := countP_replace (fun j : Job => !j.settled) hj ⟨msg, some o, true⟩
  have hsame : ∀ (k : Nat) (j : Job), (c.jobs.set i ⟨msg, some o, true⟩)[k]? = some j →
      ∃ j' : Job, c.jobs[k]? = some j' ∧ j'.outcome = j.outcome := by
    intro k j hk
    rcases getElem?_set_cases hk with ⟨rfl, rfl⟩ | ⟨_, hold⟩
    · exact ⟨_, hj, rfl⟩
    · exact ⟨j, hold, rfl⟩
  apply Sound.maybeEnd
  refine ⟨fun hd => ?_, ?_, ?_, ?_, fun hd => ⟨?_, ?_⟩, h.once, ?_, ?_, fun hd => ?_⟩
  · exact (h.stream hd).trans (congrArg (· ++ c.buf) hframes.symm)
  · exact hframes.symm ▸ h.sent
  · intro j hj'
    rcases mem_set_cases hj' with hold | rfl
    · exact h.sized j hold
    · exact h.sized ⟨msg, some o, false⟩ hmem
  · intro j hj'
    rcases mem_set_cases hj' with hold | rfl
    · exact h.settled j hold
    · exact fun _ => rfl
  · change c.pending - 1 = (c.jobs.set i ⟨msg, some o, true⟩).countP fun j => !j.settled
    have hload := (h.load hd).1
    simp only [Bool.not_false, Bool.not_true, if_true, Bool.false_eq_true, if_false] at hcount
    omega
  · exact Nat.le_trans (Nat.sub_le c.pending 1) (h.load hd).2
  · intro w hw
    obtain ⟨hlate, j, out, hj', hout, hrest⟩ := h.written w hw
    by_cases hi : w.job = i
    · rw [hi, hj] at hj'
      cases hj'
      refine ⟨hlate, ⟨msg, some o, true⟩, out, ?_, hout, hrest⟩
      rw [hi]
      exact List.getElem?_set_self (List.getElem?_eq_some_iff.1 hj).1
    · exact ⟨hlate, j, out, (List.getElem?_set_ne (Ne.symm hi)).trans hj', hout, hrest⟩
  · intro hd k j out hk hout hlen
    obtain ⟨j', hold, hsameout⟩ := hsame k j hk
    exact h.answered hd k j' out hold (hsameout.trans hout) hlen
  · have hzero := h.ends_eq_zero hd hmem rfl
    exact hzero.trans (if_neg fun hfalse => nomatch hfalse.1).symm

theorem waits_maybeEnd : c.maybeEnd.Waits ↔ c.Waits := by
  unfold Conn.maybeEnd
  split
  · exact Iff.rfl
  · exact Iff.rfl

theorem waits_write : (c.write i o).Waits ↔ c.Waits := by
  unfold Conn.write
  split
  · split
    · exact Iff.rfl
    · exact Iff.rfl
  · exact Iff.rfl

theorem Sound.step (h : c.Sound ∧ c.Waits) {a : Action} (hstep : c.step a = some c') :
    c'.Sound ∧ c'.Waits := by
  obtain ⟨hsound, hwaits⟩ := h
  cases a with
  | data chunk =>
      obtain ⟨hopen, hc⟩ := Option.ite_none_left_eq_some.1 hstep
      obtain ⟨halive, hended⟩ : c.destroyed = false ∧ c.ended = false := by simpa using hopen
      cases hc
      exact hsound.onData halive hended chunk
  | ended =>
      obtain ⟨hopen, hc⟩ := Option.ite_none_left_eq_some.1 hstep
      obtain ⟨halive, hended⟩ : c.destroyed = false ∧ c.ended = false := by simpa using hopen
      cases hc
      exact ⟨hsound.ended hended, waits_maybeEnd.2 hwaits⟩
  | done i o =>
      simp only [Conn.step] at hstep
      split at hstep
      · next msg settled hj =>
          cases hstep
          exact ⟨hsound.done hj o, waits_write.2 hwaits⟩
      · cases hstep
  | settled i =>
      simp only [Conn.step] at hstep
      split at hstep
      · next msg o hj =>
          cases hstep
          exact ⟨hsound.settle hj, waits_maybeEnd.2 hwaits⟩
      · cases hstep
  | destroyed =>
      cases hstep
      exact ⟨hsound.destroy, fun hd => nomatch hd⟩

theorem Sound.served (h : c.Sound) (hwaits : c.Waits) : c.Served := by
  refine ⟨fun hd => ⟨h.stream hd, hwaits hd⟩, fun hd msgs hmsgs hall => ?_, h.sent, h.sized,
    h.load, h.once, h.written, h.answered, fun hd => ?_⟩
  · have hflat : c.frames = (c.jobs.map Job.msg).flatMap frame := (List.flatMap_map ..).symm
    refine read_unique (fun m hm => ?_) hmsgs (hwaits hd) rfl ?_
    · obtain ⟨j, hj, rfl⟩ := List.mem_map.1 hm
      exact h.sized j hj
    · rw [← hflat, ← h.stream hd, hall, List.append_nil]
  · have hall : c.pending = 0 ↔ ∀ j ∈ c.jobs, j.settled = true := by
      rw [(h.load hd).1, List.countP_eq_zero]
      simp
    simp only [h.ends hd, hall]

theorem new_sound : new.Sound where
  stream := fun _ => rfl
  sent := List.prefix_rfl
  sized := fun _ hj => nomatch hj
  settled := fun _ hj => nomatch hj
  load := fun _ => ⟨rfl, Nat.zero_le _⟩
  once := List.nodup_nil
  written := fun _ hw => nomatch hw
  answered := fun _ _ _ _ hj => nomatch hj
  ends := fun _ => rfl

/-- Over every run of a connection, whatever is sent and in whatever order the handlers are done. -/
theorem onTcp_served {as : List Action} (h : exec step new as = some c) : c.Served :=
  have hrun : c.Sound ∧ c.Waits :=
    exec_invariant (fun _ _ _ hs ht => Sound.step hs ht) ⟨new_sound, fun _ => rfl⟩ h
  hrun.1.served hrun.2

def sampleQuery : Bytes := List.replicate 12 7

/-- Two questions in three pieces, of which the second is answered first. -/
def sampleRun : List Action :=
  [.data [0], .data ([12] ++ sampleQuery ++ [0, 12, 7]), .data (List.replicate 11 7), .ended,
    .done 1 (.answered (some [1])), .settled 1, .done 0 (.answered (some [2])), .settled 0]

theorem onTcp_served_sample : ∃ c, exec step new sampleRun = some c ∧
    c.written = [⟨1, [0, 1, 1], false⟩, ⟨0, [0, 1, 2], false⟩] ∧ c.ends = 1 ∧ c.Served := by
  refine ⟨_, rfl, rfl, rfl, onTcp_served (?_ : exec step new sampleRun = some _)⟩
  rfl

end Conn
end TcpStream
end Dns
end GateControl
