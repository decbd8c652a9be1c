import GateControl.Library.OrderedMap
import GateControl.Library.Text
import GateControl.Library.Transition

/-!
# Jobs — print jobs on their way from the server to the printer

A poll fetches the list of the server, brings the table of jobs into line with it and starts a run
for each job; it ends when all its runs have ended.  A run loads the file, asks the printer,
converts if need be, sends the parts, waits for the end and reports it.  `print-journal.json` has
the jobs that have been given to the printer, so that a job is not printed again after a restart.

The journal entry is removed when the end of the job is known, before the server has accepted it.
From then on only the table remembers the job, and the table does not survive a restart or the
feature being switched off.
-/

namespace GateControl
namespace Print

open Library

def retryMs : Nat := 2 * 60000

def resendMs : Nat := 30000

def journalMs : Nat := 2 * 86400000

/-- As many jobs of a list are read. -/
def listMax : Nat := 50

def retryStatus : List Nat := [0x0502, 0x0506, 0x0507]

def formatNotSupported : Nat := 0x040a

/-! ## The parts of the state -/

inductive JobError
  | notAPrinter
  | deviceNotAllowed
  | formatUnsupported
  | convertTooLarge
  | convertFailed
  | printerRejected
  | canceledAtPrinter
  | abortedAtPrinter
  deriving DecidableEq

/-- The final state of a job. -/
inductive Final
  | done (ippJobId : Option Nat) (unconfirmed : Bool)
  | failed (error : JobError)
  deriving DecidableEq

/-- An entry of the table; its `running` is left out, for no run is in progress when a poll looks at
the table. -/
structure Task where
  nextTryAt : Nat
  final : Option Final
  deriving DecidableEq

/-- An entry of the journal; `time` is its field `at`. -/
structure JournalEntry where
  time : Nat
  ippJobId : Option Nat
  deriving DecidableEq

/-- What a run is waiting for.  `again` is the second round, `plan` says that the file has been
converted. -/
inductive Awaited
  | file
  | attributes
  | waiting
  | converting (again : Bool)
  | conversion (again : Bool)
  | sending (plan : Bool) (parts : Nat)
  | print (plan again : Bool) (part parts : Nat)
  | printing (ippJobId : Option Nat)
  | watch
  | final
  deriving DecidableEq

/-- The printer has taken the last part. -/
def Awaited.isPrinted : Awaited → Bool
  | .printing _ => true
  | .watch => true
  | .final => true
  | _ => false

/-- A run of a job.  `attached` says that the entry of the table is still the one it has begun with.
-/
structure Run (ι : Type) where
  id : ι
  attached : Bool
  awaits : Awaited
  deriving DecidableEq

/-- A poll has asked the server for its list, the list is on its way, or its runs are in progress.
-/
inductive Poll (ι : Type)
  | idle
  | asking
  | answering (list : List ι)
  | working
  deriving DecidableEq

/-- What a run finds at its start, if the journal does not have the job. -/
inductive Start
  | busy
  | notFound
  | notAPrinter
  | notAllowed
  | unsupported
  | go (loaded : Bool)

/-- How a file gets to the printer. -/
inductive Way
  | asIs
  | plan
  | fail
  deriving DecidableEq

/-- What a run is told.  `plan` says whether the file could be converted instead. -/
inductive Answer
  | posted (ok : Bool)
  | loaded
  | notFound
  | notLoaded
  | accepting (way : Way)
  | notAccepting
  | converted (parts : Nat)
  | notConverted (error : JobError)
  | status (code : Nat) (ippJobId : Option Nat) (plan : Bool)
  | unreachable
  | ended (final : Final)
  deriving DecidableEq

/-- `stored` is the content of `print-journal.json`.  Of the server: `listed` are the jobs that it
lists, `used` the ids that it has given out, `posted` the jobs whose final state has been posted,
`accepted` those whose final state it has accepted.  `printed` has the time at which a job was
printed in one part, `again` are the jobs that `printJob` was called for while the journal should
still have had them; nothing reads these two. -/
structure PrintService (ι : Type) where
  now : Nat
  enabled : Bool
  jobs : OrderedMap ι Task
  journal : OrderedMap ι JournalEntry
  stored : OrderedMap ι JournalEntry
  etag : Option Text
  poll : Poll ι
  runs : List (Run ι)
  listed : List ι
  used : List ι
  posted : List ι
  accepted : List ι
  printed : OrderedMap ι Nat
  again : List ι

namespace PrintService

def new {ι : Type} : PrintService ι :=
  ⟨0, false, .empty, .empty, .empty, none, .idle, [], [], [], [], [], .empty, []⟩

variable {ι : Type} [DecidableEq ι] (s : PrintService ι)

/-! ## Journal and table -/

/-- Entries older than the retention time go, the others are written. -/
def persist : PrintService ι :=
  let journal := s.journal.filter fun _ v => !decide (v.time + journalMs < s.now)
  { s with journal := journal, stored := journal }

/-- `_restore` -/
def restore : PrintService ι :=
  { s with journal := s.stored.entries.foldl (fun m e => m.set e.1 e.2) s.journal }

/-- Change the entry that a run has begun with; it may have left the table. -/
def modifyTask (id : ι) (attached : Bool) (f : Task → Task) : PrintService ι :=
  { s with
    jobs :=
      match s.jobs.get id with
      | some t => if attached then s.jobs.set id (f t) else s.jobs
      | none => s.jobs }

/-- `journal.set` and `_persist` -/
def enter (id : ι) (ippJobId : Option Nat) : PrintService ι :=
  { s with journal := s.journal.set id ⟨s.now, ippJobId⟩ }.persist

/-- `_finish` up to its post: the journal entry goes whether or not the server accepts. -/
def finish (id : ι) (attached : Bool) (final : Final) : PrintService ι :=
  let s := s.modifyTask id attached fun t => { t with final := some final }
  let s := { s with journal := s.journal.delete id }.persist
  { s with posted := id :: s.posted }

/-- `_wait` up to its post -/
def wait (id : ι) (attached : Bool) : PrintService ι :=
  s.modifyTask id attached fun t => { t with nextTryAt := s.now + retryMs }

/-! ## A poll -/

def addRun (id : ι) (awaits : Awaited) : PrintService ι :=
  { s with runs := s.runs ++ [⟨id, true, awaits⟩] }

/-- `_run` up to where it waits. -/
def startRun (id : ι) (start : Start) : PrintService ι :=
  match s.journal.get id with
  | some v => (s.finish id true (.done v.ippJobId true)).addRun id .final
  | none =>
      match start with
      | .busy => s
      | .notFound => (s.wait id true).addRun id .waiting
      | .notAPrinter => (s.finish id true (.failed .notAPrinter)).addRun id .final
      | .notAllowed => (s.finish id true (.failed .deviceNotAllowed)).addRun id .final
      | .unsupported => (s.finish id true (.failed .formatUnsupported)).addRun id .final
      | .go loaded => s.addRun id (if loaded then .attributes else .file)

/-- A task that is due is sent its final state, or run unless its device is busy. -/
def startTask (start : ι → Start) (s : PrintService ι) (id : ι) : PrintService ι :=
  match s.jobs.get id with
  | some t =>
      if t.nextTryAt > s.now then s
      else if t.final.isSome then { s with posted := id :: s.posted }.addRun id .final
      else
        match start id with
        | .busy => s
        | start => s.startRun id start
  | none => s

/-- The poll ends with its last run. -/
def settle : PrintService ι := { s with poll := if s.runs = [] then .idle else s.poll }

/-- The end of `_pollJobs`: the runs of the tasks. -/
def dispatch (start : ι → Start) : PrintService ι :=
  ((s.jobs.keys).foldl (startTask start) { s with poll := .working }).settle

/-- The list of the server: jobs that it does not have go, new ones come. -/
def merge (ids : List ι) (etag : Option Text) : PrintService ι :=
  let kept := s.jobs.filter fun id _ => decide (id ∈ ids)
  { s with
    etag := etag
    jobs := ids.foldl (fun m id => if m.has id then m else m.set id ⟨0, none⟩) kept }

/-! ## The runs -/

/-- The run goes on at another place. -/
def goto (i : Nat) (r : Run ι) (awaits : Awaited) : PrintService ι :=
  { s with runs := s.runs.set i { r with awaits := awaits } }

/-- The run ends. -/
def leave (i : Nat) : PrintService ι := { s with runs := s.runs.eraseIdx i }.settle

def finishRun (i : Nat) (r : Run ι) (final : Final) : PrintService ι :=
  (s.finish r.id r.attached final).goto i r .final

def waitRun (i : Nat) (r : Run ι) : PrintService ι := (s.wait r.id r.attached).goto i r .waiting

/-- The job was printed in one part, and the journal should still have it. -/
def Fresh (id : ι) : Prop := ∃ t, t ∈ s.printed.get id ∧ s.now ≤ t + journalMs

instance (id : ι) : Decidable (s.Fresh id) :=
  match h : s.printed.get id with
  | some t => decidable_of_iff (s.now ≤ t + journalMs) (by simp [Fresh, h])
  | none => isFalse (by simp [Fresh, h])

/-- `printJob` is called. -/
def call (id : ι) : PrintService ι :=
  { s with again := if s.Fresh id then id :: s.again else s.again }

/-- The loop of `_sendParts`, from a part on, and what `_run` does after it. -/
def sendParts (i : Nat) (r : Run ι) (plan again : Bool) (part parts : Nat)
    (ippJobId : Option Nat) : PrintService ι :=
  if part < parts then (s.call r.id).goto i r (.print plan again part parts)
  else (s.enter r.id ippJobId).goto i r (.printing ippJobId)

/-- The answer of `printJob` to a part. -/
def answerPart (i : Nat) (r : Run ι) (plan again : Bool) (part parts : Nat) (code : Nat)
    (ippJobId : Option Nat) (other : Bool) : PrintService ι :=
  if part = 0 ∧ code ∈ retryStatus then s.waitRun i r
  else if part = 0 ∧ code = formatNotSupported then
    if plan = false ∧ again = false ∧ other = true then s.goto i r (.converting true)
    else s.finishRun i r (.failed .formatUnsupported)
  else if code ≥ 0x0400 then s.finishRun i r (.failed .printerRejected)
  else
    let s := if part = 0 ∧ parts = 1 then { s with printed := s.printed.set r.id s.now } else s
    let s := if part = 0 ∧ parts > 1 then s.enter r.id ippJobId else s
    s.sendParts i r plan again (part + 1) parts ippJobId

/-- `_sendFinal` after its post. -/
def finalPosted (i : Nat) (r : Run ι) (ok : Bool) : PrintService ι :=
  let s :=
    if ok then { s with jobs := s.jobs.delete r.id, etag := none }
    else s.modifyTask r.id r.attached fun t => { t with nextTryAt := s.now + resendMs }
  s.leave i

/-- A run is told what it waits for. -/
def answer (i : Nat) (r : Run ι) : Awaited → Answer → Option (PrintService ι)
  | .file, .loaded => some (s.goto i r .attributes)
  | .file, .notFound => some ({ s with jobs := s.jobs.delete r.id }.leave i)
  | .file, .notLoaded => some (s.waitRun i r)
  | .attributes, .accepting .asIs => some (s.goto i r (.sending false 1))
  | .attributes, .accepting .plan => some (s.goto i r (.converting false))
  | .attributes, .accepting .fail => some (s.finishRun i r (.failed .formatUnsupported))
  | .attributes, .notAccepting => some (s.waitRun i r)
  | .waiting, .posted _ => some (s.leave i)
  | .converting again, .posted _ => some (s.goto i r (.conversion again))
  | .conversion again, .converted parts =>
      if again then some (s.sendParts i r true true 0 parts none)
      else some (s.goto i r (.sending true parts))
  | .conversion _, .notConverted e => some (s.finishRun i r (.failed e))
  | .sending plan parts, .posted _ => some (s.sendParts i r plan false 0 parts none)
  | .print plan again part parts, .status code ippJobId other =>
      some (s.answerPart i r plan again part parts code ippJobId other)
  | .print _ _ part _, .unreachable =>
      if part > 0 then some (s.finishRun i r (.failed .printerRejected)) else some (s.waitRun i r)
  | .printing ippJobId, .posted _ =>
      match ippJobId with
      | some _ => some (s.goto i r .watch)
      | none => some (s.finishRun i r (.done none true))
  | .watch, .ended final => some (s.finishRun i r final)
  | .final, .posted ok =>
      if ok = true → r.id ∈ s.accepted then some (s.finalPosted i r ok) else none
  | _, _ => none

/-! ## Runs of the service -/

/-- `submit`, `withdraw`, `accept` and `list` are what the server does. -/
inductive Action (ι : Type)
  | submit (id : ι)
  | withdraw (id : ι)
  | accept (id : ι)
  | list (ids : List ι)
  | wait (ms : Nat)
  | enable
  | disable
  | restart
  | poll
  | listFailed
  | unchanged (start : ι → Start)
  | changed (etag : Option Text) (start : ι → Start)
  | run (i : Nat) (answer : Answer)

/-- `_shutdown` -/
def shutdown : PrintService ι :=
  { s.persist with
    enabled := false
    jobs := .empty
    etag := none
    runs := s.runs.map fun r => { r with attached := false } }

/-- Only the files are left. -/
def restarted : PrintService ι :=
  { s with
    enabled := false
    jobs := .empty
    journal := .empty
    etag := none
    poll := .idle
    runs := [] }

def step : Action ι → Option (PrintService ι)
  | .submit id =>
      if id ∈ s.used then none
      else some { s with listed := s.listed ++ [id], used := id :: s.used }
  | .withdraw id => some { s with listed := s.listed.filter fun x => x ≠ id }
  | .accept id =>
      if id ∈ s.posted then
        some { s with
          listed := s.listed.filter fun x => x ≠ id
          accepted := id :: s.accepted }
      else none
  | .list ids =>
      match s.poll with
      | .asking =>
          if ids ⊆ s.listed ∧ s.listed ⊆ ids then some { s with poll := .answering ids } else none
      | _ => none
  | .wait ms => some { s with now := s.now + ms }
  | .enable => if s.enabled then some s else some { s.restore with enabled := true }
  | .disable => if s.enabled then some s.shutdown else some s
  | .restart => some s.restarted
  | .poll =>
      match s.poll with
      | .idle => if s.enabled then some { s with poll := .asking } else some s
      | _ => some s
  | .listFailed =>
      match s.poll with
      | .asking => some { s with poll := .idle, etag := none }
      | .answering _ => some { s with poll := .idle, etag := none }
      | _ => none
  | .unchanged start =>
      match s.poll with
      | .asking => if s.etag.isSome then some (s.dispatch start) else none
      | _ => none
  | .changed etag start =>
      match s.poll with
      | .answering ids => some ((s.merge (ids.take listMax) etag).dispatch start)
      | _ => none
  | .run i a =>
      match s.runs[i]? with
      | some r => s.answer i r r.awaits a
      | none => none

end PrintService

end Print
end GateControl
