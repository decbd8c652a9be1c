import GateControl.Library.OrderedMap
import GateControl.Library.Transition

/-!
# Host — bringing the edge parts into the desired state

The edge host keeps one entry for each plugin.  `reconcile` stops what is no longer wanted and then
goes through the wanted plugins: `ensurePlugin` fetches and checks the package, and starts or
restarts the process.  `requestReconcile` sees to it that only one call runs at a time.

A call gives way at every `await`; `Frame` says where it stands.  Meanwhile new states arrive, the
boundary is checked, processes end, start again and report ready, and the socket to the gateway
comes back, which stops all processes.  Between two plugins, and before the first, the model gives
way once more than the event loop does.  A host that is being shut down is not part of it.

What is not read by these functions is left out: texts, states and counters for the status message,
capabilities, event buffers, and the broker.
-/

namespace GateControl
namespace Edge

open Library

abbrev PluginId := String

abbrev Version := String

abbrev Sha := String

/-! ## Packages -/

/-- The result of checking the signature of a package. -/
inductive Signature
  | trusted
  | untrusted
  | none
  | invalid
  deriving DecidableEq

/-- Whether a package with this result may run. -/
def acceptable (status : Signature) (allowUnsigned : Bool) : Bool :=
  match status with
  | .trusted => true
  | .invalid => false
  | .none => allowUnsigned
  | .untrusted => allowUnsigned

/-- An unpacked package, as its `.ready.json` describes it. -/
structure Package where
  sha256 : Sha
  signature : Signature
  entry : String
  memoryMb : Nat
  deriving DecidableEq

/-- What a downloaded package turns out to hold: its digest, its signature unless it cannot be
decoded, and the edge part of its manifest or the code of the error in it. -/
structure Content where
  digest : Sha
  signature : Option Signature
  manifest : Except String (String × Nat)

/-- Check a downloaded package; the error is the code of the rejection. -/
def inspect (c : Content) (sha256 : Sha) (allowUnsigned : Bool) : Except String Package :=
  if c.digest ≠ sha256 then .error "sha256_mismatch"
  else
    match c.signature with
    | none => .error "bad_package"
    -- a broken signature is refused whatever the switch says
    | some .invalid => .error "signature_invalid"
    | some sig =>
        if !acceptable sig allowUnsigned then .error "unsigned"
        else
          -- only a package that may run has its manifest looked at
          match c.manifest with
          | .error code => .error code
          | .ok (entry, memoryMb) => .ok ⟨sha256, sig, entry, memoryMb⟩

/-! ## The desired state -/

structure PluginState where
  id : PluginId
  version : Version
  sha256 : Sha
  memoryMb : Option Nat
  capsError : Option String
  enabled : Bool
  deriving DecidableEq

/-- A checked `state` message; its plugins have different ids. -/
structure Desired where
  edgeEnabled : Bool
  allowUnsigned : Bool
  plugins : List PluginState
  nodup : (plugins.map PluginState.id).Nodup
  deriving DecidableEq

namespace Desired

/-- The plugins that shall run. -/
def want (st : Desired) : List PluginState :=
  if st.edgeEnabled then st.plugins.filter PluginState.enabled else []

def ids (ps : List PluginState) : List PluginId := ps.map PluginState.id

end Desired

/-! ## The host -/

/-- What a process is started with; its folder is that of the plugin and version. -/
structure RunSpec where
  id : PluginId
  version : Version
  entry : String
  memoryMb : Nat
  deriving DecidableEq

/-- A process object.  `package` is what its child was last started from, `entry` the identity of the
entry it was started for, `child` whether it is alive, `timer` whether it will be started again after
a crash. -/
structure Proc where
  spec : RunSpec
  package : Package
  entry : Nat
  wanted : Bool
  child : Bool
  timer : Bool
  deriving DecidableEq

/-- The folder its children are started from. -/
def Proc.folder (q : Proc) : PluginId × Version := (q.spec.id, q.spec.version)

/-- The entry of a plugin; `ref` is the identity of the object, `proc` the number of its process. -/
structure Entry where
  ref : Nat
  version : Option Version
  sha256 : Option Sha
  spec : Option RunSpec
  proc : Option Nat
  wanted : Bool
  denied : Option String
  retryAt : Option Int
  deriving DecidableEq

/-- What happens to a plugin after its process has been stopped. -/
inductive After
  | deny (code : String)
  | fenceDown (code : String) (spec : RunSpec)
  | start (spec : RunSpec) (package : Package)
  deriving DecidableEq

/-- Where a call of `reconcile` stands; `waits` is the process whose end is awaited. -/
inductive Frame
  /-- The broker is told. -/
  | mqtt (st : Desired)
  /-- The process of a plugin that is not wanted is being stopped. -/
  | unwanted (st : Desired) (id : PluginId) (rest : List PluginId) (waits : Option Nat)
  /-- The next plugin is due. -/
  | next (st : Desired) (rest : List PluginState)
  | download (st : Desired) (p : PluginState) (rest : List PluginState)
  | stopping (st : Desired) (p : PluginState) (rest : List PluginState) (waits : Option Nat)
      (after : After)
  /-- The call has returned; without a desired state it did nothing. -/
  | returned (st : Option Desired)
  deriving DecidableEq

inductive Mode
  | isolated
  | fence
  deriving DecidableEq

/-- A run of `onRpcOpen`: the process it waits for, and the entries it has yet to stop. -/
structure Restart where
  waits : Option Nat
  rest : List (PluginId × Nat)
  deriving DecidableEq

/-- `dropped` are the entries that are not in `plugins` any more, each with its last `spec`: a process
keeps hold of the entry it was started for. -/
structure Host where
  plugins : OrderedMap PluginId Entry
  nextRef : Nat
  dropped : OrderedMap Nat (Option RunSpec)
  procs : OrderedMap Nat Proc
  nextProc : Nat
  store : OrderedMap (PluginId × Version) Package
  desired : Option Desired
  mode : Option Mode
  fence : Bool
  localMqtt : Bool
  now : Int
  task : Option Frame
  again : Bool
  restarts : List Restart
  /-- The boundary is as it was when the running call of `reconcile` began; only there to be talked
  about. -/
  steady : Bool

def downloadRetryMs : Int := 60000

namespace Host

/-- A host that has just been started, with the packages it finds. -/
def start (store : OrderedMap (PluginId × Version) Package) (localMqtt : Bool) (now : Int) : Host where
  plugins := .empty
  nextRef := 0
  dropped := .empty
  procs := .empty
  nextProc := 0
  store := store
  desired := none
  mode := none
  fence := false
  localMqtt := localMqtt
  now := now
  task := none
  again := false
  restarts := []
  steady := true

/-! ## Entries and processes -/

/-- The entry of a plugin; a new one if there is none. -/
def entry (h : Host) (id : PluginId) : Host :=
  match h.plugins.get id with
  | some _ => h
  | none =>
      { h with
        plugins := h.plugins.set id ⟨h.nextRef, none, none, none, none, false, none, none⟩
        nextRef := h.nextRef + 1 }

def update (h : Host) (id : PluginId) (f : Entry → Entry) : Host :=
  match h.plugins.get id with
  | some e => { h with plugins := h.plugins.set id (f e) }
  | none => h

def updateProc (h : Host) (n : Nat) (f : Proc → Proc) : Host :=
  match h.procs.get n with
  | some q => { h with procs := h.procs.set n (f q) }
  | none => h

/-- The process of a plugin. -/
def held (h : Host) (id : PluginId) : Option Nat := (h.plugins.get id).bind Entry.proc

/-- `stopProcess` up to its wait, with the process it waits for. -/
def stopProcess (h : Host) (id : PluginId) : Host × Option Nat :=
  match h.held id with
  | none => (h, none)
  | some n =>
      -- the entry lets go of the process before its end is awaited
      ((h.update id fun e => { e with proc := none }).updateProc n fun q =>
        { q with wanted := false, timer := false }, some n)

/-- The identity of the entry of a plugin. -/
def refOf (h : Host) (id : PluginId) : Nat := (h.plugins.get id).elim h.nextRef Entry.ref

def startProcess (h : Host) (spec : RunSpec) (package : Package) : Host :=
  { h.update spec.id fun e => { e with proc := some h.nextProc } with
    procs := h.procs.set h.nextProc ⟨spec, package, h.refOf spec.id, true, true, false⟩
    nextProc := h.nextProc + 1 }

/-- The process after a new child has been started: it runs what its folder holds by now.  Without
the folder there is nothing to run. -/
def respawn (h : Host) (q : Proc) : Proc :=
  { q with package := (h.store.get q.folder).getD q.package, child := true, timer := false }

/-- The process that is waited for has ended. -/
def gone (h : Host) (waits : Option Nat) : Bool :=
  waits.all fun n => (h.procs.get n).all fun q => !q.child

/-! ## `ensurePlugin` -/

def installed (h : Host) (p : PluginState) : Option Package :=
  (h.store.get (p.id, p.version)).filter fun pkg => pkg.sha256 = p.sha256

/-- The download of this package has failed a short time ago. -/
def putOff (h : Host) (p : PluginState) : Bool :=
  (h.plugins.get p.id).any fun e =>
    e.retryAt.any (· > h.now) && e.version = some p.version && e.sha256 = some p.sha256

/-- Stop the process, then go on as told. -/
def stopThen (h : Host) (st : Desired) (p : PluginState) (rest : List PluginState) (after : After) :
    Host :=
  let r := h.stopProcess p.id
  { r.1 with task := some (.stopping st p rest r.2 after) }

def runSpec (p : PluginState) (pkg : Package) : RunSpec :=
  ⟨p.id, p.version, pkg.entry, p.memoryMb.getD pkg.memoryMb⟩

/-- Whether the entry is for another version, content or memory limit. -/
def changed (h : Host) (p : PluginState) (pkg : Package) : Bool :=
  (h.plugins.get p.id).all fun e =>
    (e.spec.all fun s => s.version ≠ p.version || s.memoryMb ≠ (runSpec p pkg).memoryMb) ||
      e.sha256 ≠ some p.sha256

def fenceCode (h : Host) : String :=
  if h.mode = some .isolated then "network_isolation_inactive" else "network_fence_inactive"

/-- Start the process of a plugin that has none. -/
def startIfNone (h : Host) (spec : RunSpec) (pkg : Package) : Host :=
  let h := h.update spec.id fun e => { e with spec := some spec }
  if h.held spec.id = none then h.startProcess spec pkg else h

/-- The second half of `ensurePlugin`: the package is there. -/
def launch (h : Host) (st : Desired) (p : PluginState) (rest : List PluginState) (pkg : Package) :
    Host :=
  -- the switch may have been taken back since the package was unpacked
  if !acceptable pkg.signature st.allowUnsigned then h.stopThen st p rest (.deny "unsigned")
  else
    let spec := runSpec p pkg
    -- compared with the entry before it is brought up to date
    let changed := h.changed p pkg
    let h := h.update p.id fun e => { e with version := some p.version, sha256 := some p.sha256 }
    if !h.fence then h.stopThen st p rest (.fenceDown h.fenceCode spec)
    -- the old process makes room before the new one is started
    else if changed && (h.held p.id).isSome then h.stopThen st p rest (.start spec pkg)
    else { h.startIfNone spec pkg with task := some (.next st rest) }

/-- `ensurePlugin` up to its first wait. -/
def ensurePlugin (h : Host) (st : Desired) (p : PluginState) (rest : List PluginState) : Host :=
  let h := (h.entry p.id).update p.id fun e => { e with wanted := true, denied := none }
  if p.capsError.isSome then h.stopThen st p rest (.deny "bad_caps")
  else
    match h.installed p with
    | some pkg => h.launch st p rest pkg
    | none =>
        -- the process of the old package is left alone, whatever the boundary and its signature
        if h.putOff p then { h with task := some (.next st rest) }
        else { h with task := some (.download st p rest) }

/-- The stopped process has ended. -/
def afterStop (h : Host) (st : Desired) (p : PluginState) (rest : List PluginState) (after : After) :
    Host :=
  let h := match after with
    | .deny code => h.update p.id fun e => { e with denied := some code }
    | .fenceDown code spec => h.update p.id fun e => { e with denied := some code, spec := some spec }
    | .start spec pkg => h.startIfNone spec pkg
  { h with task := some (.next st rest) }

/-- How a download ends: with a package, or with the code of an error. -/
inductive Outcome
  | content (c : Content)
  | error (code : String)

/-- Errors after which the download is tried again. -/
def retryable (code : String) : Bool := code = "download_failed" || code = "not_found"

/-- The download has failed, or the package was rejected. -/
def downloadFailed (h : Host) (st : Desired) (p : PluginState) (rest : List PluginState)
    (code : String) : Host :=
  let h := h.update p.id fun e => { e with version := some p.version, sha256 := some p.sha256 }
  -- the entry now carries a digest that has not been installed
  if retryable code then
    { h.update p.id fun e => { e with retryAt := some (h.now + downloadRetryMs) } with
      task := some (.next st rest) }
  else h.stopThen st p rest (.deny code)

/-- The package, or the code of the error. -/
def Outcome.checked (o : Outcome) (p : PluginState) (st : Desired) : Except String Package :=
  match o with
  | .error code => .error code
  | .content c => inspect c p.sha256 st.allowUnsigned

def downloaded (h : Host) (st : Desired) (p : PluginState) (rest : List PluginState) (o : Outcome) :
    Host :=
  match o.checked p st with
  | .error code => h.downloadFailed st p rest code
  | .ok pkg =>
      let h := { h with store := h.store.set (p.id, p.version) pkg }
      (h.update p.id fun e => { e with retryAt := none }).launch st p rest pkg

/-! ## `reconcile` -/

/-- Stop the plugins of a list that are not wanted, then go to the wanted ones. -/
def stopUnwanted (h : Host) (st : Desired) : List PluginId → Host
  | [] =>
      { h with
        -- packages of plugins that the state does not mention are deleted
        store := if st.edgeEnabled then
          h.store.filter fun k _ => k.1 ∈ Desired.ids st.plugins else h.store
        task := some (.next st st.want) }
  | id :: rest =>
      if id ∈ Desired.ids st.want then h.stopUnwanted st rest
      else
        let r := (h.update id fun e => { e with wanted := false }).stopProcess id
        { r.1 with task := some (.unwanted st id rest r.2) }

/-- Whether an entry is still needed when all plugins have been dealt with. -/
def needed (st : Desired) (id : PluginId) (e : Entry) : Bool :=
  e.wanted || e.proc.isSome || id ∈ Desired.ids st.plugins

/-- All plugins have been dealt with: entries that nobody needs are dropped. -/
def finish (h : Host) (st : Desired) : Host :=
  { h with
    plugins := h.plugins.filter (needed st)
    dropped := (h.plugins.filter fun id e => !needed st id e).values.foldl
      (fun d e => d.set e.ref e.spec) h.dropped
    task := some (.returned (some st)) }

def hasMqtt (h : Host) : Bool :=
  match h.mode with
  | some .isolated => true
  | some .fence => h.localMqtt
  | none => false

/-- `reconcile` up to its first wait. -/
def reconcile (h : Host) : Host :=
  let h := { h with steady := true, again := false }
  match h.desired with
  | none => { h with task := some (.returned none) }
  | some st =>
      -- the plugins are read after the broker has answered
      if h.hasMqtt then { h with task := some (.mqtt st) } else h.stopUnwanted st h.plugins.keys

def requestReconcile (h : Host) : Host :=
  if h.task.isSome then { h with again := true } else h.reconcile

/-! ## Steps -/

inductive Action
  /-- A valid `state` message. -/
  | state (st : Desired)
  /-- A check of the boundary has ended; `was` is its result when the check began. -/
  | fenceChecked (mode : Mode) (active was : Bool)
  | clock (now : Int)
  /-- What the call of `reconcile` waits for has happened. -/
  | resume
  | downloaded (o : Outcome)
  /-- The socket to the gateway is open again. -/
  | rpcOpen
  | rpcResume (i : Nat)
  /-- A child process ends, is started again after a crash, or reports that it is running. -/
  | exit (n : Nat)
  | restart (n : Nat)
  | ready (n : Nat)

/-- `checkFenceNow`: the mode stays what it was at first. -/
def checkFence (h : Host) (mode : Mode) (active : Bool) : Host :=
  let active := active && (h.mode.all fun m => m = mode)
  { h with
    mode := some (h.mode.getD mode)
    fence := active
    steady := h.steady && active = h.fence }

def hasRetry (h : Host) : Bool :=
  h.plugins.values.any fun e => e.retryAt.any (· ≤ h.now)

/-- Stop the entries that had a process when the socket came back, one after the other. -/
def stopRunning (h : Host) : List (PluginId × Nat) → Host × Option Restart
  | [] => (h.requestReconcile, none)
  | (id, ref) :: rest =>
      -- an entry that was dropped meanwhile has no process
      -- the entry may have got a new process since; that one is stopped too
      let same := (h.plugins.get id).any fun e => e.ref = ref
      let r := if same then h.stopProcess id else (h, none)
      (r.1, some ⟨r.2, rest⟩)

def resume (h : Host) : Option Host :=
  match h.task with
  | none => none
  | some (.mqtt st) => some (h.stopUnwanted st h.plugins.keys)
  | some (.unwanted st id rest waits) =>
      if h.gone waits then
        some ((h.update id fun e => { e with denied := none }).stopUnwanted st rest)
      else none
  | some (.next st []) => some (h.finish st)
  | some (.next st (p :: rest)) => some (h.ensurePlugin st p rest)
  | some (.download ..) => none
  | some (.stopping st p rest waits after) =>
      if h.gone waits then some (h.afterStop st p rest after) else none
  -- a request that came during the call makes it start over
  | some (.returned _) => some (if h.again then h.reconcile else { h with task := none })

/-- Remove the other versions of a plugin. -/
def prune (h : Host) (id : PluginId) (keep : Version) : Host :=
  { h with store := h.store.filter fun k _ => k.1 ≠ id || k.2 = keep }

/-- The `spec` of the entry that a process was started for. -/
def specOf (h : Host) (q : Proc) : RunSpec :=
  let current := (h.plugins.get q.spec.id).filter fun e => e.ref = q.entry
  let entry := match current with
    | some e => e.spec
    | none => (h.dropped.get q.entry).getD none
  -- it has been there since the process was started
  entry.getD q.spec

def step (h : Host) : Action → Option Host
  | .state st => some { h with desired := some st }.requestReconcile
  | .fenceChecked mode active was =>
      let h := h.checkFence mode active
      -- a check that changed nothing starts a call only for a download that is due
      some (if was ≠ h.fence || h.hasRetry then h.requestReconcile else h)
  | .clock now => some { h with now := now }
  | .resume => h.resume
  | .downloaded o =>
      match h.task with
      | some (.download st p rest) => some (h.downloaded st p rest o)
      | _ => none
  | .rpcOpen =>
      let running := h.plugins.entries.filterMap fun e =>
        if e.2.proc.isSome then some (e.1, e.2.ref) else none
      if running = [] then some h
      else
        let r := h.stopRunning running
        some { r.1 with restarts := r.1.restarts ++ r.2.toList }
  | .rpcResume i =>
      match h.restarts[i]? with
      | none => none
      | some t =>
          if h.gone t.waits then
            let r := h.stopRunning t.rest
            some { r.1 with restarts := r.1.restarts.eraseIdx i ++ r.2.toList }
          else none
  | .exit n =>
      match h.procs.get n with
      | some q =>
          -- a process that nobody stopped is started again after a pause
          if q.child then some (h.updateProc n fun q => { q with child := false, timer := q.wanted })
          else none
      | none => none
  | .restart n =>
      match h.procs.get n with
      | some q =>
          if q.timer then some (h.updateProc n h.respawn) else none
      | none => none
  | .ready n =>
      match h.procs.get n with
      | some q =>
          if q.child then
            -- older versions are deleted once the plugin is running
            some (h.prune q.spec.id (h.specOf q).version)
          else none
      | none => none

end Host

end Edge
end GateControl
