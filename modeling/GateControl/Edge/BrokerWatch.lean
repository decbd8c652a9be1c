import GateControl.Library.Text
import GateControl.Library.Transition
import Mathlib.Order.Nat

/-!
# BrokerWatch — how the broker follows its files

The gateway writes the files of the broker one after the other; the broker runs in another
container, where a small loop looks at them every two seconds.  The two share nothing but the
directory: the loop compares a checksum of the configuration and the stamp in `reload` with what it
remembers, copies the three files one by one, and starts the broker again or has it read its
accounts.  Between any two of these steps the other side may go on, the broker may end, and either
container may be started again.

Once the gateway has finished, two rounds of the loop are enough: the broker then runs with exactly
what was written last, or not at all.
-/

namespace GateControl
namespace Edge
namespace BrokerWatch

open Library

/-! ## Files -/

inductive File
  | conf
  | passwd
  | acl
  deriving DecidableEq

/-- The files that `take` copies before this one. -/
def File.before : File → List File
  | .conf => []
  | .passwd => [.conf]
  | .acl => [.conf, .passwd]

theorem File.mem_all (f : File) : f ∈ [File.conf, .passwd, .acl] := by
  cases f <;> decide

/-- What one write puts into the files, and what a broker has read from them. -/
@[ext] structure Contents where
  conf : Text
  passwd : Text
  acl : Text
  deriving DecidableEq

def Contents.get (c : Contents) : File → Text
  | .conf => c.conf
  | .passwd => c.passwd
  | .acl => c.acl

/-- The three files in one directory. -/
structure Dir where
  conf : Option Text
  passwd : Option Text
  acl : Option Text
  deriving DecidableEq

namespace Dir

def empty : Dir := ⟨none, none, none⟩

def get (d : Dir) : File → Option Text
  | .conf => d.conf
  | .passwd => d.passwd
  | .acl => d.acl

def set (d : Dir) (f : File) (t : Text) : Dir :=
  match f with
  | .conf => { d with conf := some t }
  | .passwd => { d with passwd := some t }
  | .acl => { d with acl := some t }

/-- What a broker reads that is started here. -/
def contents (d : Dir) : Option Contents :=
  d.conf.bind fun conf => d.passwd.bind fun passwd => d.acl.map (Contents.mk conf passwd)

@[simp] theorem get_set_self (d : Dir) (f : File) (t : Text) : (d.set f t).get f = some t := by
  cases f <;> rfl

theorem get_set_ne {f g : File} (hne : g ≠ f) (d : Dir) (t : Text) :
    (d.set f t).get g = d.get g := by
  cases f <;> cases g <;> first | rfl | exact absurd rfl hne

theorem set_of_get {d : Dir} {f : File} {t : Text} (h : d.get f = some t) : d.set f t = d := by
  obtain ⟨conf, passwd, acl⟩ := d
  cases f <;> cases h <;> rfl

/-- One file more, in the order of `take` and of `write`. -/
theorem get_set_of_before {d : Dir} {f g : File} {t : Text} {want : Option Text}
    (hg : g ∈ f.before ++ [f]) (hf : g = f → want = some t) (h : g ∈ f.before → d.get g = want) :
    (d.set f t).get g = want := by
  by_cases hgf : g = f
  · rw [hgf, get_set_self, hf hgf]
  · rw [get_set_ne hgf]
    exact h ((List.mem_append.1 hg).resolve_right fun hg => hgf (List.mem_singleton.1 hg))

theorem isSome_get_set {d : Dir} {g : File} (h : (d.get g).isSome = true) (f : File) (t : Text) :
    ((d.set f t).get g).isSome = true := by
  by_cases hg : g = f
  · rw [hg, get_set_self]
    rfl
  · rw [get_set_ne hg]
    exact h

theorem contents_of_get {d : Dir} {c : Contents} (h : ∀ f, d.get f = some (c.get f)) :
    d.contents = some c := by
  have hconf : d.conf = some c.conf := h .conf
  have hpasswd : d.passwd = some c.passwd := h .passwd
  have hacl : d.acl = some c.acl := h .acl
  rw [contents, hconf, hpasswd, hacl]
  rfl

theorem contents_of_isSome {d : Dir} (h : ∀ f, (d.get f).isSome = true) :
    ∃ c, d.contents = some c := by
  obtain ⟨conf, hconf⟩ := Option.isSome_iff_exists.1 (h .conf)
  obtain ⟨passwd, hpasswd⟩ := Option.isSome_iff_exists.1 (h .passwd)
  obtain ⟨acl, hacl⟩ := Option.isSome_iff_exists.1 (h .acl)
  exact ⟨⟨conf, passwd, acl⟩, contents_of_get fun f => by cases f <;> assumption⟩

theorem get_of_contents {d : Dir} {c : Contents} (h : d.contents = some c) (f : File) :
    d.get f = some (c.get f) := by
  obtain ⟨conf, hconf, hrest⟩ := Option.bind_eq_some_iff.1 h
  obtain ⟨passwd, hpasswd, hacl⟩ := Option.bind_eq_some_iff.1 hrest
  obtain ⟨acl, hacl, rfl⟩ := Option.map_eq_some_iff.1 hacl
  cases f <;> assumption

end Dir

/-! ## The two sides -/

/-- `${Date.now()}-${++this.reloadSeq}` -/
structure Stamp where
  now : Nat
  seq : Nat
  deriving DecidableEq

/-- What `write` does next. -/
inductive Stage
  | file (f : File)
  | reload
  | enabled
  deriving DecidableEq

/-- The files that are written before this stage. -/
def Stage.done : Stage → List File
  | .file f => f.before
  | _ => [.conf, .passwd, .acl]

/-- A call of `write`; `changed` is `a || b` as far as it is known. -/
structure Job where
  contents : Contents
  stage : Stage
  changed : Bool
  deriving DecidableEq

/-- Why the files are copied. -/
inductive Purpose
  | start (n : Text)
  | hup
  deriving DecidableEq

/-- Where the loop is. -/
inductive Phase
  | rest
  /-- `enabled` was there. -/
  | wanted
  | summed (n : Text)
  /-- The old broker has ended. -/
  | starting (n : Text)
  | compared
  | stale
  | copying (why : Purpose) (f : File)
  | copied (why : Purpose)
  deriving DecidableEq

namespace Phase

/-- No broker runs while the loop is about to start one. -/
def starts : Phase → Bool
  | .starting _ => true
  | .copying (.start _) _ => true
  | .copied (.start _) => true
  | _ => false

/-- The checksum with which a broker is about to be started, its configuration being copied. -/
def begun : Phase → Option Text
  | .copying (.start n) .passwd => some n
  | .copying (.start n) .acl => some n
  | .copied (.start n) => some n
  | _ => none

/-- What has been copied since `reload` was looked at. -/
def fetched : Phase → Option (List File)
  | .starting _ => some []
  | .stale => some []
  | .copying _ f => some f.before
  | .copied _ => some [.conf, .passwd, .acl]
  | _ => none

/-- The checksum of this round. -/
def sum : Phase → Option Text
  | .summed n => some n
  | .starting n => some n
  | .copying (.start n) _ => some n
  | .copied (.start n) => some n
  | _ => none

/-- The broker that runs has the configuration that was found in this round. -/
def keeps : Phase → Bool
  | .compared => true
  | .stale => true
  | .copying .hup _ => true
  | .copied .hup => true
  | _ => false

/-- The loop has looked at `reload` before it copies. -/
def takes : Phase → Bool
  | .copying _ _ => true
  | .copied _ => true
  | _ => false

/-- How many commands are left of this round, at most. -/
def left : Phase → Nat
  | .rest => 0
  | .wanted => 8
  | .summed _ => 7
  | .compared => 6
  | .stale => 5
  | .starting _ => 5
  | .copying _ .conf => 4
  | .copying _ .passwd => 3
  | .copying _ .acl => 2
  | .copied _ => 1

theorem starts_of_begun {phase : Phase} {n : Text} (h : phase.begun = some n) :
    phase.starts = true := by
  cases phase with
  | copying why f =>
      cases why <;> cases f <;> first | rfl | cases h
  | copied why =>
      cases why <;> first | rfl | cases h
  | _ =>
      cases h

end Phase

structure System where
  /-- The files of the gateway. -/
  files : Dir
  reload : Option Stamp
  enabled : Bool
  clock : Nat
  reloadSeq : Nat
  job : Option Job
  /-- The copies of the loop. -/
  copies : Dir
  p : Bool
  s : Option Text
  r : Option Stamp
  phase : Phase
  /-- What the broker has read. -/
  broker : Option Contents
  /-- A SIGHUP that it has not seen to yet. -/
  hup : Bool
  deriving DecidableEq

inductive Action
  | write (c : Contents)
  | advance
  /-- A file cannot be written. -/
  | fails
  /-- `removed` says whether `enabled` could be removed. -/
  | disable (removed : Bool)
  | tick
  | gatewayRestarts
  /-- The loop goes on; `ok` says whether a file can be copied. -/
  | watch (ok : Bool)
  | brokerReloads
  | brokerEnds
  | watcherRestarts
  deriving DecidableEq

/-- Only the loop and the broker go on, and files can be copied. -/
def Action.quiet : Action → Bool
  | .watch ok => ok
  | .brokerReloads => true
  | .tick => true
  | _ => false

def Action.isWatch : Action → Bool
  | .watch _ => true
  | _ => false

namespace System

/-- Nothing is there but copies of earlier days. -/
def start (copies : Dir) : System :=
  ⟨.empty, none, false, 0, 0, none, copies, false, none, none, .rest, none, false⟩

/-- What `write` does next, `writeIfChanged` at its end. -/
def advance (σ : System) (j : Job) : System :=
  match j.stage with
  | .file .conf =>
      { σ with
        files := σ.files.set .conf j.contents.conf
        job := some { j with stage := .file .passwd } }
  | .file .passwd =>
      { σ with
        files := σ.files.set .passwd j.contents.passwd
        job := some { j with
          stage := .file .acl
          changed := decide (σ.files.passwd ≠ some j.contents.passwd) } }
  | .file .acl =>
      { σ with
        files := σ.files.set .acl j.contents.acl
        job := some { j with
          stage := .reload
          changed := j.changed || decide (σ.files.acl ≠ some j.contents.acl) } }
  | .reload =>
      { σ with
        reload := if j.changed then some ⟨σ.clock, σ.reloadSeq + 1⟩ else σ.reload
        reloadSeq := if j.changed then σ.reloadSeq + 1 else σ.reloadSeq
        job := some { j with stage := .enabled } }
  | .enabled => { σ with enabled := true, job := none }

def halt (σ : System) : System := { σ with p := false, broker := none, hup := false }

/-- One file of `take` that can be copied. -/
def copy (σ : System) (why : Purpose) (f : File) (t : Text) : System :=
  { σ with
    copies := σ.copies.set f t
    phase := match f with
      | .conf => .copying why .passwd
      | .passwd => .copying why .acl
      | .acl => .copied why }

/-- One file of `take`. -/
def take (ok : Bool) (why : Purpose) (f : File) (σ : System) : System :=
  match if ok then σ.files.get f else none with
  | some t => σ.copy why f t
  | none => { σ with phase := .rest }

section Steps

variable (cksum : Text → Text)

/-- The next command of the loop that looks at what others may change. -/
def watch (ok : Bool) (σ : System) : System :=
  match σ.phase with
  | .rest =>
      if σ.enabled then { σ with phase := .wanted } else { σ.halt with s := none, phase := .rest }
  | .wanted =>
      match σ.files.conf with
      | none => { σ.halt with s := none, phase := .rest }
      | some c => { σ with phase := .summed (cksum c) }
  | .summed n =>
      if (σ.p && σ.broker.isSome) = true ∧ σ.s = some n then { σ with phase := .compared }
      else { σ.halt with phase := .starting n }
  | .starting n => { σ with r := σ.reload, phase := .copying (.start n) .conf }
  | .compared => if σ.reload = σ.r then { σ with phase := .rest } else { σ with phase := .stale }
  | .stale => { σ with r := σ.reload, phase := .copying .hup .conf }
  | .copying why f => σ.take ok why f
  | .copied (.start n) =>
      { σ with
        broker := σ.copies.contents
        hup := false
        p := true
        s := some n
        phase := .rest }
  | .copied .hup => { σ with hup := σ.broker.isSome, phase := .rest }

/-- On SIGHUP the broker reads its accounts again, but listens where it did. -/
def reloaded (σ : System) (b : Contents) : System :=
  { σ with
    broker := some
      { b with
        passwd := σ.copies.passwd.getD b.passwd
        acl := σ.copies.acl.getD b.acl }
    hup := false }

def step (σ : System) : Action → Option System
  | .write c => if σ.job = none then some { σ with job := some ⟨c, .file .conf, false⟩ } else none
  | .advance => σ.job.map σ.advance
  | .fails => if σ.job = none then none else some { σ with job := none }
  | .disable removed =>
      if σ.job = none then some { σ with enabled := !removed && σ.enabled } else none
  | .tick => some { σ with clock := σ.clock + 1 }
  | .gatewayRestarts => some { σ with job := none, clock := σ.clock + 1, reloadSeq := 0 }
  | .watch ok => some (σ.watch cksum ok)
  | .brokerReloads => if σ.hup then σ.broker.map σ.reloaded else none
  | .brokerEnds => if σ.broker = none then none else some { σ with broker := none, hup := false }
  | .watcherRestarts => some { σ.halt with s := none, r := none, phase := .rest }

end Steps

/-! ## What may not happen -/

/-- An account file has changed, and `reload` does not say so yet. -/
def Owes (σ : System) : Prop :=
  ∃ j ∈ σ.job, j.changed = true ∧ (j.stage = .file .acl ∨ j.stage = .reload)

instance (σ : System) : Decidable σ.Owes := Option.decidableExistsMem σ.job

/-- The checksum that the loop keeps, with the configuration that it stands for. -/
def held (σ : System) : List (Text × Text) :=
  match σ.phase.begun with
  | some n => σ.copies.conf.toList.map (Prod.mk n)
  | none => σ.s.toList.flatMap fun n => σ.broker.toList.map fun b => (n, b.conf)

/-- The loop copies files for a broker that runs. -/
def refreshes (σ : System) : Bool :=
  match σ.phase with
  | .copying .hup _ => σ.broker.isSome
  | _ => false

/-- No write breaks off between a changed account file and `reload`, no copy fails for a running
broker, and no new configuration has the checksum that the loop keeps for another one. -/
def Orderly (cksum : Text → Text) (σ : System) : Action → Prop
  | .advance => ∀ j ∈ σ.job, j.stage = .file .conf →
      ∀ x ∈ σ.held, cksum j.contents.conf = x.1 → j.contents.conf = x.2
  | .fails => ¬ σ.Owes
  | .gatewayRestarts => ¬ σ.Owes
  | .watch ok => ok = true ∨ σ.refreshes = false
  | _ => True

instance (cksum : Text → Text) (σ : System) (a : Action) : Decidable (σ.Orderly cksum a) :=
  match a with
  | .advance => Option.decidableForallMem σ.job
  | .fails => inferInstanceAs (Decidable (¬ σ.Owes))
  | .gatewayRestarts => inferInstanceAs (Decidable (¬ σ.Owes))
  | .watch ok => inferInstanceAs (Decidable (ok = true ∨ σ.refreshes = false))
  | .write _ | .disable _ | .tick | .brokerReloads | .brokerEnds | .watcherRestarts =>
      isTrue trivial

/-! ## What the loop does -/

section Commands

variable (cksum : Text → Text) (ok : Bool) (σ : System)

/-- The commands of the loop, each with what it has found. -/
inductive Watched : System → Prop
  | looked : σ.phase = .rest → σ.enabled = true → Watched { σ with phase := .wanted }
  | halted : (σ.phase = .rest ∧ σ.enabled = false ∨ σ.phase = .wanted ∧ σ.files.conf = none) →
      Watched { σ.halt with s := none, phase := .rest }
  | summed (c : Text) : σ.phase = .wanted → σ.files.conf = some c →
      Watched { σ with phase := .summed (cksum c) }
  | kept (n : Text) (b : Contents) : σ.phase = .summed n → σ.p = true → σ.broker = some b →
      σ.s = some n → Watched { σ with phase := .compared }
  | ended (n : Text) : σ.phase = .summed n →
      ¬ ((σ.p && σ.broker.isSome) = true ∧ σ.s = some n) →
      Watched { σ.halt with phase := .starting n }
  | began (why : Purpose) :
      ((∃ n, σ.phase = .starting n ∧ why = .start n) ∨ σ.phase = .stale ∧ why = .hup) →
      Watched { σ with r := σ.reload, phase := .copying why .conf }
  | fresh : σ.phase = .compared → σ.reload = σ.r → Watched { σ with phase := .rest }
  | stale : σ.phase = .compared → σ.reload ≠ σ.r → Watched { σ with phase := .stale }
  | copy (why : Purpose) (f : File) (t : Text) : σ.phase = .copying why f →
      σ.files.get f = some t → Watched (σ.copy why f t)
  | failed (why : Purpose) (f : File) : σ.phase = .copying why f →
      (ok = false ∨ σ.files.get f = none) → Watched { σ with phase := .rest }
  | started (n : Text) : σ.phase = .copied (.start n) → Watched
      { σ with broker := σ.copies.contents, hup := false, p := true, s := some n, phase := .rest }
  | signalled : σ.phase = .copied .hup →
      Watched { σ with hup := σ.broker.isSome, phase := .rest }

end Commands

theorem watched_take (cksum : Text → Text) (ok : Bool) {σ : System} {why : Purpose} {f : File}
    (hphase : σ.phase = .copying why f) : Watched cksum ok σ (σ.take ok why f) := by
  rw [take]
  cases hf : (if ok = true then σ.files.get f else none) with
  | some t =>
      cases ok with
      | true =>
          exact .copy why f t hphase hf
      | false =>
          cases hf
  | none =>
      cases ok with
      | true =>
          exact .failed why f hphase (.inr hf)
      | false =>
          exact .failed why f hphase (.inl rfl)

theorem watched_watch (cksum : Text → Text) (ok : Bool) (σ : System) :
    Watched cksum ok σ (σ.watch cksum ok) := by
  cases hphase : σ.phase with
  | rest =>
      rw [watch, hphase]
      by_cases henabled : σ.enabled = true
      · simp only [if_pos henabled]
        exact .looked hphase henabled
      · simp only [if_neg henabled]
        exact .halted (.inl ⟨hphase, Bool.eq_false_iff.2 henabled⟩)
  | wanted =>
      rw [watch, hphase]
      cases hconf : σ.files.conf with
      | none =>
          exact .halted (.inr ⟨hphase, hconf⟩)
      | some c =>
          exact .summed c hphase hconf
  | summed n =>
      rw [watch, hphase]
      by_cases hkept : (σ.p && σ.broker.isSome) = true ∧ σ.s = some n
      · obtain ⟨hp, hb⟩ := Bool.and_eq_true_iff.1 hkept.1
        obtain ⟨b, hb⟩ := Option.isSome_iff_exists.1 hb
        simp only [if_pos hkept]
        exact .kept n b hphase hp hb hkept.2
      · simp only [if_neg hkept]
        exact .ended n hphase hkept
  | starting n =>
      rw [watch, hphase]
      exact .began (.start n) (.inl ⟨n, hphase, rfl⟩)
  | compared =>
      rw [watch, hphase]
      by_cases hr : σ.reload = σ.r
      · simp only [if_pos hr]
        exact .fresh hphase hr
      · simp only [if_neg hr]
        exact .stale hphase hr
  | stale =>
      rw [watch, hphase]
      exact .began .hup (.inr ⟨hphase, rfl⟩)
  | copying why f =>
      rw [watch, hphase]
      exact watched_take cksum ok hphase
  | copied why =>
      rw [watch, hphase]
      cases why with
      | start n =>
          exact .started n hphase
      | hup =>
          exact .signalled hphase

/-! ## What holds at every time -/

/-- The copy of a file is the file. -/
def Same (σ : System) (f : File) : Prop := σ.copies.get f = σ.files.get f

/-- A broker that runs has the accounts of the gateway, or will have them with its SIGHUP. -/
def Read (σ : System) : Prop :=
  ∀ b ∈ σ.broker, (∀ f, f ≠ .conf → σ.Same f) ∧
    (σ.hup = true ∨ ∀ f, f ≠ .conf → σ.copies.get f = some (b.get f))

/-- How far the accounts of the gateway have come. -/
def Accounts (σ : System) : Prop :=
  match σ.phase.fetched with
  | some fs => ∀ f ∈ fs, f ≠ .conf → σ.Same f
  | none => σ.Read

structure Inv (cksum : Text → Text) (σ : System) : Prop where
  present : σ.enabled = true ∨ σ.phase ≠ .rest ∨ σ.broker ≠ none →
    ∀ f, (σ.files.get f).isSome = true
  written : ∀ j ∈ σ.job, ∀ f ∈ j.stage.done, σ.files.get f = some (j.contents.get f)
  stamped : ∀ t, σ.reload = some t ∨ σ.r = some t →
    t.now < σ.clock ∨ t.now = σ.clock ∧ t.seq ≤ σ.reloadSeq
  alive : ∀ b ∈ σ.broker, σ.p = true
  copied : ∀ b ∈ σ.broker, ∀ f, (σ.copies.get f).isSome = true
  stopped : σ.phase.starts = true → σ.broker = none
  accounts : σ.Owes ∨ σ.r ≠ σ.reload ∨ σ.Accounts
  held : ∀ x ∈ σ.held, ∀ c ∈ σ.files.conf, cksum c = x.1 → c = x.2

theorem accounts_fetched {σ : System} {fs : List File} (hphase : σ.phase.fetched = some fs) :
    σ.Accounts ↔ ∀ f ∈ fs, f ≠ .conf → σ.Same f := by
  rw [Accounts, hphase]

theorem accounts_read {σ : System} (hphase : σ.phase.fetched = none) : σ.Accounts ↔ σ.Read := by
  rw [Accounts, hphase]

theorem held_begun {σ : System} {n : Text} (hphase : σ.phase.begun = some n) :
    σ.held = σ.copies.conf.toList.map (Prod.mk n) := by
  rw [held, hphase]

theorem held_kept {σ : System} (hphase : σ.phase.begun = none) :
    σ.held = σ.s.toList.flatMap fun n => σ.broker.toList.map fun b => (n, b.conf) := by
  rw [held, hphase]

/-- Without a broker the loop keeps nothing that matters. -/
theorem held_of_none {σ : System} (hphase : σ.phase.begun = none) (hnone : σ.broker = none) :
    σ.held = [] := by
  rw [held_kept hphase, hnone]
  exact List.flatMap_eq_nil_iff.2 fun n _ => rfl

/-- Accounts that have come stay, as long as the files of accounts do. -/
theorem Accounts.of_files {σ τ : System} (h : σ.Accounts) (hphase : τ.phase = σ.phase)
    (hcopies : τ.copies = σ.copies) (hbroker : τ.broker = σ.broker) (hhup : τ.hup = σ.hup)
    (hfiles : ∀ f, f ≠ .conf → τ.files.get f = σ.files.get f) : τ.Accounts := by
  have hsame : ∀ f, f ≠ .conf → σ.Same f → τ.Same f := by
    intro f hf hs
    rw [Same, hcopies, hfiles f hf]
    exact hs
  cases hfetched : σ.phase.fetched with
  | some fs =>
      rw [accounts_fetched hfetched] at h
      rw [accounts_fetched (hphase ▸ hfetched)]
      exact fun f hf hne => hsame f hne (h f hf hne)
  | none =>
      rw [accounts_read hfetched] at h
      rw [accounts_read (hphase ▸ hfetched)]
      intro b hb
      obtain ⟨hboth, hread⟩ := h b (hbroker ▸ hb)
      rw [hhup, hcopies]
      exact ⟨fun f hf => hsame f hf (hboth f hf), hread⟩

section Invariants

variable {cksum : Text → Text} {σ τ : System}

theorem not_owes_of_stage {c : Contents} {stage : Stage} {changed : Bool}
    (hjob : σ.job = some ⟨c, stage, changed⟩) (hacl : stage ≠ .file .acl)
    (hreload : stage ≠ .reload) : ¬ σ.Owes := by
  rintro ⟨k, hk, _, hor⟩
  cases hjob.symm.trans hk
  exact hor.elim hacl hreload

theorem not_owes_of_changed {j : Job} (hjob : σ.job = some j) (hchanged : j.changed = false) :
    ¬ σ.Owes := by
  rintro ⟨k, hk, hyes, _⟩
  obtain rfl : j = k := Option.some.inj (hjob.symm.trans hk)
  exact absurd hyes (by rw [hchanged]; decide)

theorem not_owes_of_none (hjob : σ.job = none) : ¬ σ.Owes := by
  rintro ⟨k, hk, _⟩
  exact absurd (hjob.symm.trans hk) (by intro h; cases h)

theorem inv_start (copies : Dir) : Inv cksum (start copies) where
  present h := by
    rcases h with h | h | h
    · cases h
    · exact absurd rfl h
    · exact absurd rfl h
  written j hj := absurd hj (by intro h; cases h)
  stamped t ht := absurd ht (by rintro (h | h) <;> cases h)
  alive b hb := absurd hb (by intro h; cases h)
  copied b hb := absurd hb (by intro h; cases h)
  stopped _ := rfl
  accounts := .inr (.inr ((accounts_read rfl).2 fun b hb => absurd hb (by intro h; cases h)))
  held x hx := (List.not_mem_nil hx).elim

/-! ### The gateway -/

/-- What a write changes is told by `reload`, sooner or later. -/
theorem accounts_of_unchanged {f : File} {t : Text} {job : Option Job} (hσ : Inv cksum σ)
    (howes : ¬ σ.Owes) (hsame : σ.files.get f = some t) :
    σ.r ≠ σ.reload ∨ Accounts { σ with files := σ.files.set f t, job := job } := by
  rcases hσ.accounts with h | h | h
  · exact absurd h howes
  · exact .inl h
  · exact .inr (h.of_files rfl rfl rfl rfl fun g _ => by rw [Dir.set_of_get hsame])

theorem inv_file {f : File} {job : Option Job} (hσ : Inv cksum σ) (t : Text)
    (hwritten : ∀ j ∈ job, ∀ g ∈ j.stage.done, (σ.files.set f t).get g = some (j.contents.get g))
    (haccounts : Owes { σ with files := σ.files.set f t, job := job } ∨ σ.r ≠ σ.reload ∨
      Accounts { σ with files := σ.files.set f t, job := job })
    (hheld : f = .conf → ∀ x ∈ σ.held, cksum t = x.1 → t = x.2) :
    Inv cksum { σ with files := σ.files.set f t, job := job } where
  __ := hσ
  present h g := Dir.isSome_get_set (hσ.present h g) f t
  written := hwritten
  accounts := haccounts
  held x hx c hc := by
    by_cases hf : f = .conf
    · subst hf
      obtain rfl : t = c := Option.some.inj hc
      exact hheld rfl x hx
    · have hconf : (σ.files.set f t).get .conf = σ.files.get .conf :=
        Dir.get_set_ne (fun h => hf h.symm) σ.files t
      exact hσ.held x hx c (hconf.symm.trans hc)

theorem inv_advance {j : Job} (hσ : Inv cksum σ) (hjob : σ.job = some j)
    (horderly : σ.Orderly cksum .advance) : Inv cksum (σ.advance j) := by
  obtain ⟨c, stage, changed⟩ := j
  have hwritten := hσ.written _ hjob
  cases stage with
  | file f =>
      have hnext : ∀ g ∈ f.before ++ [f], (σ.files.set f (c.get f)).get g = some (c.get g) :=
        fun g hg => Dir.get_set_of_before hg (congrArg fun g => some (c.get g)) (hwritten g)
      cases f with
      | conf =>
          have howes : ¬ σ.Owes := not_owes_of_stage hjob (by decide) (by decide)
          refine inv_file (f := .conf) hσ c.conf ?_ (.inr ?_) fun _ => horderly _ hjob rfl
          · intro k hk
            cases hk
            exact hnext
          · rcases hσ.accounts with h | h | h
            · exact absurd h howes
            · exact .inl h
            · exact .inr (h.of_files rfl rfl rfl rfl fun g hg => Dir.get_set_ne hg _ _)
      | passwd =>
          have howes : ¬ σ.Owes := not_owes_of_stage hjob (by decide) (by decide)
          refine inv_file (f := .passwd) hσ c.passwd ?_ ?_ fun h => absurd h (by decide)
          · intro k hk
            cases hk
            exact hnext
          · by_cases hsame : σ.files.passwd = some c.passwd
            · exact .inr (accounts_of_unchanged (f := .passwd) hσ howes hsame)
            · exact .inl ⟨_, rfl, decide_eq_true hsame, .inl rfl⟩
      | acl =>
          refine inv_file (f := .acl) hσ c.acl ?_ ?_ fun h => absurd h (by decide)
          · intro k hk
            cases hk
            exact hnext
          · by_cases hchanged : (changed || decide (σ.files.acl ≠ some c.acl)) = true
            · exact .inl ⟨_, rfl, hchanged, .inr rfl⟩
            · obtain ⟨hold, hsame⟩ := Bool.or_eq_false_iff.1 (Bool.eq_false_iff.2 hchanged)
              exact .inr (accounts_of_unchanged (f := .acl) hσ (not_owes_of_changed hjob hold)
                (not_not.1 (of_decide_eq_false hsame)))
  | reload =>
      cases changed with
      | true =>
          exact
            { hσ with
              written := by
                intro k hk
                cases hk
                exact hwritten
              stamped := by
                rintro t (ht | ht)
                · cases ht
                  exact .inr ⟨rfl, le_rfl⟩
                · rcases hσ.stamped t (.inr ht) with h | ⟨hnow, hseq⟩
                  · exact .inl h
                  · exact .inr ⟨hnow, Nat.le_succ_of_le hseq⟩
              accounts := by
                -- the stamp is newer than everything that the loop can remember
                refine .inr (.inl fun hr => ?_)
                rcases hσ.stamped _ (.inr hr) with h | ⟨_, hseq⟩
                · exact absurd h (lt_irrefl _)
                · exact absurd hseq (Nat.not_succ_le_self _) }
      | false =>
          have howes : ¬ σ.Owes := not_owes_of_changed hjob rfl
          exact
            { hσ with
              written := by
                intro k hk
                cases hk
                exact hwritten
              accounts := .inr (hσ.accounts.resolve_left howes) }
  | enabled =>
      have howes : ¬ σ.Owes := not_owes_of_stage hjob (by decide) (by decide)
      exact
        { hσ with
          present := by
            intro _ f
            exact Option.isSome_iff_exists.2 ⟨_, hwritten f (File.mem_all f)⟩
          written := fun k hk => absurd hk (by intro h; cases h)
          accounts := .inr (hσ.accounts.resolve_left howes) }

/-! ### The loop -/

theorem inv_phase {phase : Phase} (hσ : Inv cksum σ)
    (hpresent : phase = .rest ∨ σ.enabled = true ∨ σ.phase ≠ .rest) (hbegun : σ.phase.begun = none)
    (hbegun' : phase.begun = none) (hstarts : phase.starts = true → σ.broker = none)
    (haccounts : σ.Accounts → Accounts { σ with phase := phase }) :
    Inv cksum { σ with phase := phase } :=
  { hσ with
    present := by
      intro h f
      refine hσ.present ?_ f
      rcases h with h | h | h
      · exact .inl h
      · exact (hpresent.resolve_left h).imp_right .inl
      · exact .inr (.inr h)
    stopped := hstarts
    accounts := hσ.accounts.imp_right (Or.imp_right haccounts)
    held := by
      have hheld := hσ.held
      rw [held_kept hbegun] at hheld
      rw [held_kept hbegun']
      exact hheld }

/-- Between two phases in which nothing is copied. -/
theorem inv_idle {phase : Phase} (hσ : Inv cksum σ)
    (hpresent : phase = .rest ∨ σ.enabled = true ∨ σ.phase ≠ .rest)
    (hold : σ.phase.begun = none ∧ σ.phase.fetched = none)
    (hnew : phase.begun = none ∧ phase.fetched = none ∧ phase.starts = false) :
    Inv cksum { σ with phase := phase } := by
  refine inv_phase hσ hpresent hold.1 hnew.1 (fun h => ?_) fun h => ?_
  · exact absurd h (by rw [hnew.2.2]; decide)
  · exact (accounts_read hnew.2.1).2 ((accounts_read hold.2).1 h)

/-- Where no broker runs, its accounts are no matter. -/
theorem inv_ended {p hup : Bool} {s : Option Text} {r : Option Stamp} {phase : Phase}
    (hσ : Inv cksum σ) (hpresent : phase = .rest ∨ σ.phase ≠ .rest)
    (hr : ∀ t, r = some t → σ.r = some t ∨ σ.reload = some t)
    (hbegun : phase.begun = none) (hfetched : phase.fetched.getD [] = []) :
    Inv cksum { σ with p := p, s := s, r := r, phase := phase, broker := none, hup := hup } where
  present h f := by
    refine hσ.present ?_ f
    rcases h with h | h | h
    · exact .inl h
    · exact .inr (.inl (hpresent.resolve_left h))
    · exact absurd rfl h
  written := hσ.written
  stamped t ht := hσ.stamped t (ht.elim .inl fun h => (hr t h).symm)
  alive b hb := absurd hb (by intro h; cases h)
  copied b hb := absurd hb (by intro h; cases h)
  stopped _ := rfl
  accounts := by
    refine .inr (.inr ?_)
    cases hphase : phase.fetched with
    | some fs =>
        rw [hphase] at hfetched
        obtain rfl : fs = [] := hfetched
        exact (accounts_fetched hphase).2 fun f hf => (List.not_mem_nil hf).elim
    | none =>
        exact (accounts_read hphase).2 fun b hb => absurd hb (by intro h; cases h)
  held := by
    rw [held_of_none hbegun rfl]
    exact fun x hx => (List.not_mem_nil hx).elim

theorem inv_copy {why : Purpose} {f : File} {t : Text} (hσ : Inv cksum σ)
    (hphase : σ.phase = .copying why f) (hf : σ.files.get f = some t) :
    Inv cksum (σ.copy why f t) where
  __ := hσ
  present _ := hσ.present (.inr (.inl (by rw [hphase]; intro h; cases h)))
  copied b hb g := Dir.isSome_get_set (hσ.copied b hb g) f t
  stopped h := by
    refine hσ.stopped ?_
    rw [hphase]
    cases why <;> cases f <;> first | rfl | exact absurd h Bool.false_ne_true
  accounts := by
    refine hσ.accounts.imp_right (Or.imp_right fun h => ?_)
    have hfetched : σ.phase.fetched = some f.before := by rw [hphase]; rfl
    rw [accounts_fetched hfetched] at h
    have hnext : (σ.copy why f t).phase.fetched = some (f.before ++ [f]) := by
      cases f <;> rfl
    rw [accounts_fetched hnext]
    intro g hg hne
    exact Dir.get_set_of_before hg (fun hgf => by rw [hgf]; exact hf) fun hg => h g hg hne
  held := by
    have hheld := hσ.held
    cases why with
    | hup =>
        rw [held_kept (by rw [hphase]; rfl)] at hheld
        rw [held_kept (by cases f <;> rfl)]
        exact hheld
    | start n =>
        cases f with
        | conf =>
            -- whatever the checksum was taken of, it stands for what is copied now
            rw [held_begun (n := n) rfl]
            intro x hx c hc _
            obtain rfl := List.mem_singleton.1 hx
            exact Option.some.inj (hc.symm.trans hf)
        | _ =>
            rw [held_begun (n := n) (by rw [hphase]; rfl)] at hheld
            rw [held_begun (n := n) rfl]
            exact hheld

theorem inv_started {n : Text} (hσ : Inv cksum σ) (hphase : σ.phase = .copied (.start n)) :
    Inv cksum { σ with
      broker := σ.copies.contents, hup := false, p := true, s := some n, phase := .rest } where
  __ := hσ
  present _ := hσ.present (.inr (.inl (by rw [hphase]; intro h; cases h)))
  alive _ _ := rfl
  copied b hb f := by
    rw [Dir.get_of_contents hb f]
    rfl
  stopped h := absurd h Bool.false_ne_true
  accounts := by
    refine hσ.accounts.imp_right (Or.imp_right fun h => ?_)
    have hfetched : σ.phase.fetched = some [.conf, .passwd, .acl] := by rw [hphase]; rfl
    rw [accounts_fetched hfetched] at h
    refine (accounts_read rfl).2 fun b hb => ⟨fun f hne => h f f.mem_all hne, ?_⟩
    exact .inr fun f _ => Dir.get_of_contents hb f
  held := by
    have hheld := hσ.held
    rw [held_begun (n := n) (by rw [hphase]; rfl)] at hheld
    rw [held_kept rfl]
    intro x hx
    obtain ⟨m, hm, hx⟩ := List.mem_flatMap.1 hx
    obtain rfl : n = m := Option.some.inj (Option.mem_toList.1 hm)
    obtain ⟨b, hb, rfl⟩ := List.mem_map.1 hx
    refine hheld _ (List.mem_map.2 ⟨b.conf, ?_, rfl⟩)
    exact Option.mem_toList.2 (Dir.get_of_contents (Option.mem_toList.1 hb) .conf)

theorem inv_watched {ok : Bool} (hσ : Inv cksum σ) (horderly : ok = true ∨ σ.refreshes = false)
    (h : Watched cksum ok σ τ) : Inv cksum τ := by
  have hidle : ∀ {phase : Phase}, σ.phase = phase → phase.begun = none ∧ phase.fetched = none →
      σ.phase.begun = none ∧ σ.phase.fetched = none := fun hphase h => hphase ▸ h
  have hnot : ∀ {phase : Phase}, σ.phase = phase → phase ≠ .rest → σ.phase ≠ .rest :=
    fun hphase h => hphase ▸ h
  cases h with
  | looked hphase henabled =>
      exact inv_idle hσ (.inr (.inl henabled)) (hidle hphase ⟨rfl, rfl⟩) ⟨rfl, rfl, rfl⟩
  | halted _ =>
      exact inv_ended (σ := σ) hσ (.inl rfl) (fun t => .inl) rfl rfl
  | summed c hphase _ =>
      exact inv_idle hσ (.inr (.inr (hnot hphase (by decide)))) (hidle hphase ⟨rfl, rfl⟩)
        ⟨rfl, rfl, rfl⟩
  | kept n b hphase _ _ _ =>
      exact inv_idle hσ (.inr (.inr (hnot hphase (by intro h; cases h)))) (hidle hphase ⟨rfl, rfl⟩)
        ⟨rfl, rfl, rfl⟩
  | ended n hphase _ =>
      exact inv_ended (σ := σ) hσ (.inr (hnot hphase (by intro h; cases h))) (fun t => .inl) rfl rfl
  | began why hphase =>
      rcases hphase with ⟨n, hphase, rfl⟩ | ⟨hphase, rfl⟩
      · have hnone := hσ.stopped (by rw [hphase]; rfl)
        have hτ : Inv cksum
            { σ with r := σ.reload, phase := .copying (.start n) .conf, broker := none } :=
          inv_ended hσ (.inr (hnot hphase (by intro h; cases h))) (fun t => .inr) rfl rfl
        rw [← hnone] at hτ
        exact hτ
      · have hheld := hσ.held
        rw [held_kept (by rw [hphase]; rfl)] at hheld
        exact
          { hσ with
            present := fun _ => hσ.present (.inr (.inl (hnot hphase (by decide))))
            stamped := fun t ht => hσ.stamped t (.inl (or_self_iff.1 ht))
            stopped := fun h => absurd h Bool.false_ne_true
            accounts :=
              .inr (.inr ((accounts_fetched rfl).2 fun f hf => (List.not_mem_nil hf).elim))
            held := by
              rw [held_kept rfl]
              exact hheld }
  | fresh hphase _ =>
      exact inv_idle hσ (.inl rfl) (hidle hphase ⟨rfl, rfl⟩) ⟨rfl, rfl, rfl⟩
  | stale hphase _ =>
      refine inv_phase hσ (.inr (.inr (hnot hphase (by decide)))) (by rw [hphase]; rfl) rfl
        (fun h => absurd h Bool.false_ne_true) fun _ => ?_
      exact (accounts_fetched rfl).2 fun f hf => (List.not_mem_nil hf).elim
  | copy why f t hphase hf =>
      exact inv_copy hσ hphase hf
  | failed why f hphase hfailed =>
      -- the copy was for a broker that is to be started, or for one that has ended
      have hnone : σ.broker = none := by
        cases why with
        | start n =>
            exact hσ.stopped (by rw [hphase]; rfl)
        | hup =>
            rcases hfailed with hok | hf
            · have hrefreshes := horderly.resolve_left (by rw [hok]; decide)
              simp only [refreshes, hphase] at hrefreshes
              exact Option.not_isSome_iff_eq_none.1 (by rw [hrefreshes]; decide)
            · have hthere := hσ.present (.inr (.inl (hnot hphase (by intro h; cases h)))) f
              rw [hf] at hthere
              cases hthere
      have hτ : Inv cksum { σ with phase := .rest, broker := none } :=
        inv_ended hσ (.inl rfl) (fun t => .inl) rfl rfl
      rw [← hnone] at hτ
      exact hτ
  | started n hphase =>
      exact inv_started hσ hphase
  | signalled hphase =>
      have hheld := hσ.held
      rw [held_kept (by rw [hphase]; rfl)] at hheld
      exact
        { hσ with
          present := fun _ => hσ.present (.inr (.inl (hnot hphase (by decide))))
          stopped := fun h => absurd h Bool.false_ne_true
          accounts := by
            refine hσ.accounts.imp_right (Or.imp_right fun h => ?_)
            have hfetched : σ.phase.fetched = some [.conf, .passwd, .acl] := by rw [hphase]; rfl
            rw [accounts_fetched hfetched] at h
            refine (accounts_read rfl).2 fun b hb => ⟨fun f => h f f.mem_all, .inl ?_⟩
            exact Option.isSome_iff_exists.2 ⟨b, hb⟩
          held := by
            rw [held_kept rfl]
            exact hheld }

/-! ### The broker -/

theorem inv_reloaded {b : Contents} (hσ : Inv cksum σ) (hb : σ.broker = some b) :
    Inv cksum (σ.reloaded b) where
  __ := hσ
  present h := by
    refine hσ.present (h.imp_right (Or.imp_right fun _ => ?_))
    rw [hb]
    intro h
    cases h
  alive _ _ := hσ.alive b hb
  copied _ _ := hσ.copied b hb
  stopped h := absurd (hb.symm.trans (hσ.stopped h)) (by intro h; cases h)
  accounts := by
    refine hσ.accounts.imp_right (Or.imp_right fun h => ?_)
    cases hfetched : σ.phase.fetched with
    | some fs =>
        rw [accounts_fetched hfetched] at h
        exact (accounts_fetched (σ := σ.reloaded b) hfetched).2 h
    | none =>
        rw [accounts_read hfetched] at h
        refine (accounts_read (σ := σ.reloaded b) hfetched).2 fun b' hb' => ?_
        refine ⟨(h b hb).1, .inr fun f hf => ?_⟩
        obtain ⟨t, ht⟩ := Option.isSome_iff_exists.1 (hσ.copied b hb f)
        cases hb'
        cases f with
        | conf =>
            exact absurd rfl hf
        | passwd =>
            have ht' : σ.copies.passwd = some t := ht
            change σ.copies.passwd = some (σ.copies.passwd.getD b.passwd)
            rw [ht', Option.getD_some]
        | acl =>
            have ht' : σ.copies.acl = some t := ht
            change σ.copies.acl = some (σ.copies.acl.getD b.acl)
            rw [ht', Option.getD_some]
  held := by
    have hheld : (σ.reloaded b).held = σ.held := by
      rw [held, held, hb]
      rfl
    rw [hheld]
    exact hσ.held

theorem inv_brokerEnds (hσ : Inv cksum σ) (hb : σ.broker ≠ none) :
    Inv cksum { σ with broker := none, hup := false } where
  __ := hσ
  present h := hσ.present (h.imp_right (Or.imp_right fun h => absurd rfl h))
  alive b hb := absurd hb (by intro h; cases h)
  copied b hb := absurd hb (by intro h; cases h)
  stopped _ := rfl
  accounts := by
    refine hσ.accounts.imp_right (Or.imp_right fun h => ?_)
    cases hfetched : σ.phase.fetched with
    | some fs =>
        rw [accounts_fetched hfetched] at h
        exact (accounts_fetched (σ := { σ with broker := none, hup := false }) hfetched).2 h
    | none =>
        refine (accounts_read (σ := { σ with broker := none, hup := false }) hfetched).2 ?_
        exact fun b hb => absurd hb (by intro h; cases h)
  held := by
    have hbegun : σ.phase.begun = none := by
      cases hbegun : σ.phase.begun with
      | none =>
          rfl
      | some n =>
          exact absurd (hσ.stopped (Phase.starts_of_begun hbegun)) hb
    rw [held_of_none (σ := { σ with broker := none, hup := false }) hbegun rfl]
    exact fun x hx => (List.not_mem_nil hx).elim

/-- The gateway between two writes. -/
theorem inv_idle_gateway {enabled : Bool} {clock reloadSeq : Nat} (hσ : Inv cksum σ)
    (howes : ¬ σ.Owes) (henabled : enabled = true → σ.enabled = true)
    (hclock : clock = σ.clock ∧ reloadSeq = σ.reloadSeq ∨ σ.clock < clock) :
    Inv cksum { σ with
      enabled := enabled, job := none, clock := clock, reloadSeq := reloadSeq } :=
  { hσ with
    present := fun h => hσ.present (h.imp_left henabled)
    written := fun j hj => absurd hj (by intro h; cases h)
    stamped := by
      intro t ht
      rcases hclock with ⟨rfl, rfl⟩ | hlt
      · exact hσ.stamped t ht
      · rcases hσ.stamped t ht with h | ⟨hnow, _⟩
        · exact .inl (h.trans hlt)
        · exact .inl (hnow ▸ hlt)
    accounts := .inr (hσ.accounts.resolve_left howes) }

theorem inv_step {a : Action} (hσ : Inv cksum σ) (horderly : σ.Orderly cksum a)
    (hτ : σ.step cksum a = some τ) : Inv cksum τ := by
  cases a with
  | write c =>
      obtain ⟨hjob, hτ⟩ := Option.ite_none_right_eq_some.1 hτ
      cases hτ
      exact
        { hσ with
          written := by
            intro j hj
            cases hj
            exact fun f hf => (List.not_mem_nil hf).elim
          accounts := .inr (hσ.accounts.resolve_left (not_owes_of_none hjob)) }
  | advance =>
      obtain ⟨j, hjob, rfl⟩ := Option.map_eq_some_iff.1 hτ
      exact inv_advance hσ hjob horderly
  | fails =>
      obtain ⟨_, hτ⟩ := Option.ite_none_left_eq_some.1 hτ
      cases hτ
      exact inv_idle_gateway hσ horderly id (.inl ⟨rfl, rfl⟩)
  | disable removed =>
      obtain ⟨hjob, hτ⟩ := Option.ite_none_right_eq_some.1 hτ
      cases hτ
      have hrest : Inv cksum { σ with enabled := !removed && σ.enabled, job := none } :=
        inv_idle_gateway hσ (not_owes_of_none hjob) (fun h => (Bool.and_eq_true_iff.1 h).2)
          (.inl ⟨rfl, rfl⟩)
      rw [← hjob] at hrest
      exact hrest
  | tick =>
      cases hτ
      exact
        { hσ with
          stamped := by
            intro t ht
            rcases hσ.stamped t ht with h | ⟨hnow, _⟩
            · exact .inl (Nat.lt_succ_of_lt h)
            · exact .inl (Nat.lt_succ_of_le hnow.le) }
  | gatewayRestarts =>
      cases hτ
      exact inv_idle_gateway hσ horderly id (.inr (Nat.lt_succ_self _))
  | watch ok =>
      cases hτ
      exact inv_watched hσ horderly (watched_watch cksum ok σ)
  | brokerReloads =>
      obtain ⟨_, hτ⟩ := Option.ite_none_right_eq_some.1 hτ
      obtain ⟨b, hb, rfl⟩ := Option.map_eq_some_iff.1 hτ
      exact inv_reloaded hσ hb
  | brokerEnds =>
      obtain ⟨hb, hτ⟩ := Option.ite_none_left_eq_some.1 hτ
      cases hτ
      exact inv_brokerEnds hσ hb
  | watcherRestarts =>
      cases hτ
      exact inv_ended (σ := σ) hσ (.inl rfl) (fun t h => by cases h) rfl rfl

end Invariants

/-! ## What the loop comes to -/

section Rounds

variable (cksum : Text → Text) (σ : System)

/-- The broker runs with the configuration of the gateway, and the loop knows it. -/
structure Paired : Prop where
  p : σ.p = true
  conf : ∃ c, σ.broker.map Contents.conf = some c ∧ σ.files.conf = some c ∧ σ.s = some (cksum c)

/-- A round that began after the gateway had finished. -/
structure Second : Prop where
  enabled : σ.enabled = true
  moves : σ.phase ≠ .rest
  sum : ∀ n, σ.phase.sum = some n → σ.files.conf.map cksum = some n
  paired : σ.phase.keeps = true → Paired cksum σ
  told : σ.phase.takes = true → σ.r = σ.reload ∧ ∀ fs, σ.phase.fetched = some fs →
    ∀ f ∈ fs, σ.Same f

structure Serves : Prop where
  paired : Paired cksum σ
  waits : σ.phase.fetched = none
  sum : ∀ n, σ.phase.sum = some n → σ.files.conf.map cksum = some n
  told : σ.r = σ.reload

/-- The loop has nothing left to do. -/
def Settled : Prop :=
  σ.enabled = true ∧ Serves cksum σ ∨ σ.enabled = false ∧ σ.phase = .rest ∧ σ.broker = none

/-- The loop is done after `k` further commands. -/
def Within (k : Nat) : Prop :=
  Settled cksum σ ∨ Second cksum σ ∧ σ.phase.left ≤ k ∨ σ.phase.left + 9 ≤ k

end Rounds

section Rounds

variable {cksum : Text → Text} {σ τ : System}

theorem within_max (σ : System) : Within cksum σ 17 := by
  refine .inr (.inr ?_)
  have hleft : σ.phase.left ≤ 8 := by
    cases σ.phase with
    | copying why f =>
        cases f <;> exact Nat.le_of_ble_eq_true rfl
    | _ =>
        exact Nat.le_of_ble_eq_true rfl
  exact Nat.add_le_add_right hleft 9

theorem Paired.congr (h : Paired cksum σ) (hp : τ.p = σ.p) (hs : τ.s = σ.s)
    (hfiles : τ.files = σ.files)
    (hbroker : τ.broker.map Contents.conf = σ.broker.map Contents.conf) : Paired cksum τ := by
  obtain ⟨hon, c, hb, hc, hsum⟩ := h
  exact ⟨hp.trans hon, c, hbroker.trans hb, hfiles ▸ hc, hs.trans hsum⟩

theorem files_watched {ok : Bool} (h : Watched cksum ok σ τ) :
    τ.files = σ.files ∧ τ.enabled = σ.enabled ∧ τ.job = σ.job := by
  cases h <;> exact ⟨rfl, rfl, rfl⟩

theorem Serves.watched (h : Serves cksum σ) (henabled : σ.enabled = true)
    (hτ : Watched cksum true σ τ) : Serves cksum τ := by
  obtain ⟨hp, c, hb, hc, hs⟩ := h.paired
  have hwaits : ∀ {phase : Phase}, σ.phase = phase → phase.fetched = none :=
    fun hphase => hphase ▸ h.waits
  cases hτ with
  | looked hphase _ =>
      exact ⟨h.paired.congr rfl rfl rfl rfl, rfl, fun n hn => (by cases hn), h.told⟩
  | halted hor =>
      rcases hor with ⟨_, hdisabled⟩ | ⟨_, hnone⟩
      · exact absurd (henabled.symm.trans hdisabled) (by decide)
      · exact absurd (hc.symm.trans hnone) (by intro h; cases h)
  | summed c' hphase hc' =>
      refine ⟨h.paired.congr rfl rfl rfl rfl, rfl, fun n hn => ?_, h.told⟩
      cases hn
      exact congrArg (Option.map cksum) hc'
  | kept n b hphase _ _ _ =>
      exact ⟨h.paired.congr rfl rfl rfl rfl, rfl, fun n hn => (by cases hn), h.told⟩
  | ended n hphase hne =>
      refine absurd ⟨?_, ?_⟩ hne
      · obtain ⟨b, hb, _⟩ := Option.map_eq_some_iff.1 hb
        rw [hp, hb]
        rfl
      · have hn := h.sum n (by rw [hphase]; rfl)
        rw [hc] at hn
        rw [hs]
        exact hn
  | began why hor =>
      rcases hor with ⟨n, hphase, _⟩ | ⟨hphase, _⟩
      · cases hwaits hphase
      · cases hwaits hphase
  | fresh hphase _ =>
      exact ⟨h.paired.congr rfl rfl rfl rfl, rfl, fun n hn => (by cases hn), h.told⟩
  | stale hphase hne =>
      exact absurd h.told.symm hne
  | copy why f t hphase _ =>
      cases hwaits hphase
  | failed why f hphase _ =>
      cases hwaits hphase
  | started n hphase =>
      cases hwaits hphase
  | signalled hphase =>
      cases hwaits hphase

/-- What the loop kept is the broker of the gateway if the checksum is that of its file. -/
theorem paired_of_kept {n : Text} {b : Contents} (hσ : Inv cksum σ) (hbegun : σ.phase.begun = none)
    (hp : σ.p = true) (hb : σ.broker = some b) (hs : σ.s = some n)
    (hsum : σ.files.conf.map cksum = some n) : Paired cksum σ := by
  obtain ⟨c, hc, hn⟩ := Option.map_eq_some_iff.1 hsum
  have hmem : (n, b.conf) ∈ σ.held := by
    rw [held_kept hbegun, hs, hb]
    exact List.mem_flatMap.2 ⟨n, List.mem_singleton_self n, List.mem_singleton_self _⟩
  have hconf : c = b.conf := hσ.held _ hmem c hc hn
  refine ⟨hp, c, ?_, hc, ?_⟩
  · rw [hb, hconf]
    rfl
  · rw [hs, hn]

theorem Second.copy {why : Purpose} {f : File} {t : Text} (h : Second cksum σ)
    (hphase : σ.phase = .copying why f) (hf : σ.files.get f = some t) :
    Second cksum (σ.copy why f t) where
  enabled := h.enabled
  moves := by
    cases f <;> exact fun hrest => by cases hrest
  sum n hn := by
    refine h.sum n ?_
    rw [hphase]
    cases why with
    | start m =>
        cases f <;> exact hn
    | hup =>
        cases f <;> cases hn
  paired hkeeps := by
    refine (h.paired ?_).congr rfl rfl rfl rfl
    rw [hphase]
    cases why with
    | start m =>
        cases f <;> exact absurd hkeeps Bool.false_ne_true
    | hup =>
        rfl
  told _ := by
    obtain ⟨hr, hsame⟩ := h.told (by rw [hphase]; rfl)
    refine ⟨hr, fun fs hfs g hg => ?_⟩
    have hnext : (σ.copy why f t).phase.fetched = some (f.before ++ [f]) := by
      cases f <;> rfl
    obtain rfl : f.before ++ [f] = fs := Option.some.inj (hnext.symm.trans hfs)
    exact Dir.get_set_of_before hg (fun hgf => by rw [hgf]; exact hf)
      (hsame f.before (by rw [hphase]; rfl) g)

theorem Second.watched (hσ : Inv cksum σ) (h : Second cksum σ) (hτ : Watched cksum true σ τ) :
    Settled cksum τ ∨ Second cksum τ := by
  have hthere := hσ.present (.inr (.inl h.moves))
  cases hτ with
  | looked hphase _ =>
      exact absurd hphase h.moves
  | halted hor =>
      rcases hor with ⟨hphase, _⟩ | ⟨_, hconf⟩
      · exact absurd hphase h.moves
      · have hfile := hthere .conf
        rw [show σ.files.get .conf = none from hconf] at hfile
        cases hfile
  | summed c hphase hc =>
      refine .inr ⟨h.enabled, (by intro hrest; cases hrest), fun n hn => ?_,
        fun hkeeps => absurd hkeeps Bool.false_ne_true,
        fun htakes => absurd htakes Bool.false_ne_true⟩
      cases hn
      exact congrArg (Option.map cksum) hc
  | kept n b hphase hp hb hs =>
      have hpaired := paired_of_kept hσ (by rw [hphase]; rfl) hp hb hs
        (h.sum n (by rw [hphase]; rfl))
      refine .inr ⟨h.enabled, (by intro hrest; cases hrest), fun m hm => (by cases hm),
        fun _ => hpaired.congr rfl rfl rfl rfl,
        fun htakes => absurd htakes Bool.false_ne_true⟩
  | ended n hphase _ =>
      refine .inr ⟨h.enabled, (by intro hrest; cases hrest), fun m hm => ?_,
        fun hkeeps => absurd hkeeps Bool.false_ne_true,
        fun htakes => absurd htakes Bool.false_ne_true⟩
      exact h.sum m (by rw [hphase]; exact hm)
  | began why hor =>
      have hnone : ∀ fs, (Phase.copying why .conf).fetched = some fs → ∀ f ∈ fs,
          Same { σ with r := σ.reload, phase := .copying why .conf } f := by
        intro fs hfs f hf
        cases hfs
        exact (List.not_mem_nil hf).elim
      rcases hor with ⟨n, hphase, rfl⟩ | ⟨hphase, rfl⟩
      · refine .inr ⟨h.enabled, (by intro hrest; cases hrest), fun m hm => ?_,
          fun hkeeps => absurd hkeeps Bool.false_ne_true, fun _ => ⟨rfl, hnone⟩⟩
        exact h.sum m (by rw [hphase]; exact hm)
      · refine .inr ⟨h.enabled, (by intro hrest; cases hrest), fun m hm => (by cases hm),
          fun _ => (h.paired (by rw [hphase]; rfl)).congr rfl rfl rfl rfl,
          fun _ => ⟨rfl, hnone⟩⟩
  | fresh hphase hr =>
      -- nothing new in `reload`: the accounts have come before, by the invariant
      refine .inl (.inl ⟨h.enabled, ?_, rfl, fun n hn => (by cases hn), hr.symm⟩)
      exact (h.paired (by rw [hphase]; rfl)).congr rfl rfl rfl rfl
  | stale hphase _ =>
      refine .inr ⟨h.enabled, (by intro hrest; cases hrest), fun m hm => (by cases hm),
        fun _ => (h.paired (by rw [hphase]; rfl)).congr rfl rfl rfl rfl,
        fun htakes => absurd htakes Bool.false_ne_true⟩
  | copy why f t hphase hf =>
      exact .inr (h.copy hphase hf)
  | failed why f hphase hfailed =>
      rcases hfailed with hok | hf
      · cases hok
      · have hfile := hthere f
        rw [hf] at hfile
        cases hfile
  | started n hphase =>
      obtain ⟨hr, hsame⟩ := h.told (by rw [hphase]; rfl)
      have hall : ∀ f, σ.Same f := fun f =>
        hsame [.conf, .passwd, .acl] (by rw [hphase]; rfl) f f.mem_all
      obtain ⟨c, hc, hn⟩ := Option.map_eq_some_iff.1 (h.sum n (by rw [hphase]; rfl))
      obtain ⟨b, hb⟩ := Dir.contents_of_isSome fun f =>
        (congrArg Option.isSome (hall f)).trans (hthere f)
      have hconf : c = b.conf := by
        have hcopy := (hall .conf).symm.trans (Dir.get_of_contents hb .conf)
        exact Option.some.inj (hc.symm.trans hcopy)
      refine .inl (.inl ⟨h.enabled, ⟨rfl, c, ?_, hc, congrArg some hn.symm⟩, rfl,
        fun m hm => (by cases hm), hr⟩)
      rw [hconf]
      exact congrArg (Option.map Contents.conf) hb
  | signalled hphase =>
      refine .inl (.inl ⟨h.enabled, ?_, rfl, fun n hn => (by cases hn), ?_⟩)
      · exact (h.paired (by rw [hphase]; rfl)).congr rfl rfl rfl rfl
      · exact (h.told (by rw [hphase]; rfl)).1

theorem left_watched {ok : Bool} (hphase : σ.phase ≠ .rest) (hτ : Watched cksum ok σ τ) :
    τ.phase.left < σ.phase.left := by
  have hless : ∀ {phase : Phase}, σ.phase = phase → Nat.ble (τ.phase.left + 1) phase.left = true →
      τ.phase.left < σ.phase.left := fun h hble => h ▸ Nat.le_of_ble_eq_true hble
  cases hτ with
  | looked h _ =>
      exact absurd h hphase
  | halted hor =>
      rcases hor with ⟨h, _⟩ | ⟨h, _⟩
      · exact absurd h hphase
      · exact hless h rfl
  | summed c h _ =>
      exact hless h rfl
  | kept n b h _ _ _ =>
      exact hless h rfl
  | ended n h _ =>
      exact hless h rfl
  | began why hor =>
      rcases hor with ⟨n, h, _⟩ | ⟨h, _⟩
      · exact hless h rfl
      · exact hless h rfl
  | fresh h _ =>
      exact hless h rfl
  | stale h _ =>
      exact hless h rfl
  | copy why f t h _ =>
      cases f <;> exact hless h rfl
  | failed why f h _ =>
      cases f <;> exact hless h rfl
  | started n h =>
      exact hless h rfl
  | signalled h =>
      exact hless h rfl

/-- A round begins. -/
theorem watch_rest (hphase : σ.phase = .rest) :
    σ.enabled = true ∧ Second cksum (σ.watch cksum true) ∧ (σ.watch cksum true).phase.left = 8 ∨
      Settled cksum (σ.watch cksum true) := by
  rw [watch, hphase]
  by_cases henabled : σ.enabled = true
  · simp only [if_pos henabled]
    exact .inl ⟨henabled, ⟨henabled, (by intro hrest; cases hrest), fun n hn => (by cases hn),
      fun hkeeps => absurd hkeeps Bool.false_ne_true,
      fun htakes => absurd htakes Bool.false_ne_true⟩, rfl⟩
  · simp only [if_neg henabled]
    exact .inr (.inr ⟨Bool.eq_false_iff.2 henabled, rfl, rfl⟩)

theorem Within.watch {k : Nat} (hσ : Inv cksum σ) (h : Within cksum σ k) :
    Within cksum (σ.watch cksum true) (k - 1) := by
  have hτ := watched_watch cksum true σ
  rcases h with (⟨henabled, h⟩ | ⟨henabled, hphase, _⟩) | ⟨h, hleft⟩ | hleft
  · exact .inl (.inl ⟨(files_watched hτ).2.1.trans henabled, h.watched henabled hτ⟩)
  · rcases watch_rest hphase with ⟨h, _⟩ | h
    · exact absurd (h.symm.trans henabled) (by decide)
    · exact .inl h
  · have hless := left_watched h.moves hτ
    exact (h.watched hσ hτ).imp_right fun h => .inl ⟨h, Nat.le_pred_of_lt (hless.trans_le hleft)⟩
  · by_cases hphase : σ.phase = .rest
    · rcases watch_rest hphase with ⟨_, h, hless⟩ | h
      · rw [hphase] at hleft
        exact .inr (.inl ⟨h, hless.trans_le (Nat.le_pred_of_lt hleft)⟩)
      · exact .inl h
    · have hless := Nat.add_lt_add_right (left_watched hphase hτ) 9
      exact .inr (.inr (Nat.le_pred_of_lt (hless.trans_le hleft)))

/-- What the broker does by itself changes nothing in this. -/
theorem Within.broker {k clock : Nat} {b : Option Contents} {hup : Bool} (h : Within cksum σ k)
    (hb : b.map Contents.conf = σ.broker.map Contents.conf) :
    Within cksum { σ with broker := b, hup := hup, clock := clock } k := by
  rcases h with (⟨h, hserves⟩ | ⟨h, hrest, hnone⟩) | ⟨h, hleft⟩ | hleft
  · exact .inl (.inl ⟨h, hserves.paired.congr rfl rfl rfl hb, hserves.waits, hserves.sum,
      hserves.told⟩)
  · refine .inl (.inr ⟨h, hrest, ?_⟩)
    rw [hnone] at hb
    exact Option.map_eq_none_iff.1 hb
  · exact .inr (.inl ⟨⟨h.enabled, h.moves, h.sum,
      fun hkeeps => (h.paired hkeeps).congr rfl rfl rfl hb, h.told⟩, hleft⟩)
  · exact .inr (.inr hleft)

/-- The broker runs with these contents, or will when it sees to its SIGHUP. -/
def Follows (cksum : Text → Text) (σ : System) (goal : Option Contents) : Prop :=
  σ.broker = goal ∨
    σ.hup = true ∧ ∃ τ, σ.step cksum .brokerReloads = some τ ∧ τ.broker = goal

theorem Serves.follows {c : Contents} (hσ : Inv cksum σ) (hjob : σ.job = none)
    (h : Serves cksum σ) (hfiles : ∀ f, σ.files.get f = some (c.get f)) :
    Follows cksum σ (some c) := by
  obtain ⟨_, c', hb, hc', _⟩ := h.paired
  obtain ⟨b, hb, hconf⟩ := Option.map_eq_some_iff.1 hb
  have hconf' : c.conf = b.conf := by
    rw [hconf]
    exact Option.some.inj ((hfiles .conf).symm.trans hc')
  have hread : σ.Read := by
    have haccounts := (hσ.accounts.resolve_left (not_owes_of_none hjob)).resolve_left
      (not_not_intro h.told)
    exact (accounts_read h.waits).1 haccounts
  obtain ⟨hsame, hor⟩ := hread b hb
  have hcopies : ∀ f, f ≠ .conf → σ.copies.get f = some (c.get f) :=
    fun f hf => (hsame f hf).trans (hfiles f)
  have hpasswd : σ.copies.passwd = some c.passwd := hcopies .passwd (by decide)
  have hacl : σ.copies.acl = some c.acl := hcopies .acl (by decide)
  rcases hor with hhup | hread
  · refine .inr ⟨hhup, σ.reloaded b, ?_, ?_⟩
    · rw [step, if_pos hhup, hb]
      rfl
    · rw [reloaded, hpasswd, hacl, ← hconf']
      rfl
  · have hb' : ∀ f, f ≠ .conf → b.get f = c.get f :=
      fun f hf => Option.some.inj ((hread f hf).symm.trans (hcopies f hf))
    exact .inl (hb.trans (congrArg some (Contents.ext hconf'.symm (hb' .passwd (by decide))
      (hb' .acl (by decide)))))

/-- While only the loop goes on, with at most `k` of its commands left that matter. -/
structure Calm (cksum : Text → Text) (files : Dir) (enabled : Bool) (k : Nat) (σ : System) :
    Prop where
  inv : Inv cksum σ
  job : σ.job = none
  files : σ.files = files
  enabled : σ.enabled = enabled
  within : Within cksum σ k

theorem quiet_cases {a : Action} (hquiet : a.quiet = true) :
    a = .watch true ∨ a.isWatch = false ∧ (a = .brokerReloads ∨ a = .tick) := by
  cases a with
  | watch ok =>
      obtain rfl : ok = true := hquiet
      exact .inl rfl
  | brokerReloads =>
      exact .inr ⟨rfl, .inl rfl⟩
  | tick =>
      exact .inr ⟨rfl, .inr rfl⟩
  | _ =>
      cases hquiet

theorem Calm.watch {files : Dir} {enabled : Bool} {k : Nat} (h : Calm cksum files enabled k σ) :
    Calm cksum files enabled (k - 1) (σ.watch cksum true) := by
  have hτ := watched_watch cksum true σ
  obtain ⟨hfiles, henabled, hjob⟩ := files_watched hτ
  exact ⟨inv_watched h.inv (.inl rfl) hτ, hjob.trans h.job, hfiles.trans h.files,
    henabled.trans h.enabled, h.within.watch h.inv⟩

theorem Calm.other {files : Dir} {enabled : Bool} {k : Nat} {a : Action}
    (h : Calm cksum files enabled k σ) (ha : a = .brokerReloads ∨ a = .tick)
    (hτ : σ.step cksum a = some τ) : Calm cksum files enabled k τ := by
  rcases ha with rfl | rfl
  · have hinv := inv_step (a := .brokerReloads) h.inv trivial hτ
    obtain ⟨_, hτ⟩ := Option.ite_none_right_eq_some.1 hτ
    obtain ⟨b, hb, rfl⟩ := Option.map_eq_some_iff.1 hτ
    refine ⟨hinv, h.job, h.files, h.enabled, h.within.broker ?_⟩
    rw [hb]
    rfl
  · have hinv := inv_step (a := .tick) h.inv trivial hτ
    cases hτ
    exact ⟨hinv, h.job, h.files, h.enabled, h.within.broker rfl⟩

theorem calm_exec {files : Dir} {enabled : Bool} {k : Nat} {more : List Action}
    (h : Calm cksum files enabled k σ) (hquiet : ∀ a ∈ more, a.quiet = true)
    (hτ : exec (step cksum) σ more = some τ) :
    Calm cksum files enabled (k - more.countP Action.isWatch) τ := by
  refine exec_countdown (P := Calm cksum files enabled) (A := fun a => a.quiet = true)
    ?_ ?_ hquiet h hτ
  · intro k σ a τ ha hwatch hσ hτ
    rcases quiet_cases ha with rfl | ⟨hno, _⟩
    · cases hτ
      exact hσ.watch
    · exact absurd (hwatch.symm.trans hno) (by decide)
  · intro k σ a τ ha hwatch hσ hτ
    rcases quiet_cases ha with rfl | ⟨_, hor⟩
    · cases hwatch
    · exact hσ.other hor hτ

theorem inv_run {run : List Action} (hσ : Inv cksum σ)
    (horderly : Admits (step cksum) (Orderly cksum) σ run)
    (hτ : exec (step cksum) σ run = some τ) : Inv cksum τ :=
  (throughout_of_admits (fun _ _ _ => inv_step) (fun _ => id) hσ horderly).last hτ

/-- The last thing that the gateway has done, with what the broker is to run with. -/
inductive Asked (σ : System) : Action → Option Contents → Prop
  | written (c : Contents) (changed : Bool) : σ.job = some ⟨c, .enabled, changed⟩ →
      Asked σ .advance (some c)
  | disabled : Asked σ (.disable true) none

/-- However the writes of the gateway, the commands of the loop and the ends of either have met
before: after two rounds of the loop the broker runs with exactly what was written last, or does not
run if it is not to. -/
theorem broker_follows (copies : Dir) (run more : List Action) {σ τ ω : System} {a : Action}
    {goal : Option Contents} (horderly : Admits (step cksum) (Orderly cksum) (start copies) run)
    (hσ : exec (step cksum) (start copies) run = some σ) (hasked : Asked σ a goal)
    (hτ : σ.step cksum a = some τ) (hquiet : ∀ b ∈ more, b.quiet = true)
    (hω : exec (step cksum) τ more = some ω) (hlong : 17 ≤ more.countP Action.isWatch) :
    Follows cksum ω goal := by
  have hinv : Inv cksum σ := inv_run (inv_start copies) horderly hσ
  -- nobody else acts, so that two rounds use up what the loop has to do
  have hdone : Calm cksum τ.files τ.enabled 17 τ → Settled cksum ω ∧ Inv cksum ω ∧ ω.job = none ∧
      ω.files = τ.files ∧ ω.enabled = τ.enabled := by
    intro h
    have hend := calm_exec h hquiet hω
    rw [Nat.sub_eq_zero_of_le hlong] at hend
    refine ⟨?_, hend.inv, hend.job, hend.files, hend.enabled⟩
    rcases hend.within with h | ⟨h, hleft⟩ | hleft
    · exact h
    · refine absurd ?_ h.moves
      cases hphase : ω.phase with
      | rest =>
          rfl
      | copying why f =>
          rw [hphase] at hleft
          cases f <;> cases hleft
      | _ =>
          rw [hphase] at hleft
          cases hleft
    · exact absurd hleft (Nat.not_succ_le_zero _)
  cases hasked with
  | written c changed hjob =>
      have hstep := inv_step (a := .advance) hinv
        (fun j hj hstage => by cases hjob.symm.trans hj; cases hstage) hτ
      have hfiles : ∀ f, σ.files.get f = some (c.get f) := fun f =>
        hinv.written _ hjob f (File.mem_all f)
      obtain ⟨j, hj, rfl⟩ := Option.map_eq_some_iff.1 hτ
      cases hjob.symm.trans hj
      obtain ⟨hsettled, hω, hnone, hsame, henabled⟩ :=
        hdone ⟨hstep, rfl, rfl, rfl, within_max _⟩
      rcases hsettled with ⟨_, hserves⟩ | ⟨hdisabled, _⟩
      · exact hserves.follows hω hnone fun f => by rw [hsame]; exact hfiles f
      · exact absurd (henabled.symm.trans hdisabled) (by intro h; cases h)
  | disabled =>
      have hstep := inv_step (a := .disable true) hinv trivial hτ
      obtain ⟨hjob, hτ⟩ := Option.ite_none_right_eq_some.1 hτ
      cases hτ
      obtain ⟨hsettled, _, _, _, henabled⟩ := hdone ⟨hstep, hjob, rfl, rfl, within_max _⟩
      rcases hsettled with ⟨h, _⟩ | ⟨_, _, hnone⟩
      · exact absurd (henabled.symm.trans h) (by intro h; cases h)
      · exact .inl hnone

/-- The broker runs; then an account is added while the loop is in the middle of a round. -/
def sampleRun (c c' : Contents) : List Action :=
  [.write c, .advance, .advance, .advance, .advance, .advance] ++ List.replicate 9 (.watch true) ++
    [.write c', .advance, .watch true, .advance, .watch true, .watch true, .advance, .watch true,
      .advance]

def sampleContents (acl : Text) : Contents := ⟨['#'], ['#'], acl⟩

/-- What `cksum` says of the configuration here. -/
def sampleSum (_ : Text) : Text := ['1', '1', '4', '7', '6', '3', '4', '8', '5', '1', ' ', '1']

/-- The new account is written and about to be told. -/
def sampleBefore : System :=
  ⟨⟨some ['#'], some ['#'], some ['#']⟩, some ⟨0, 2⟩, true, 0, 2,
    some ⟨sampleContents ['#'], .enabled, true⟩, ⟨some ['#'], some ['#'], some []⟩, true,
    some (sampleSum []), some ⟨0, 1⟩, .wanted, some (sampleContents []), false⟩

theorem broker_follows_sample :
    Follows sampleSum
      { sampleBefore with
        job := none
        copies := ⟨some ['#'], some ['#'], some ['#']⟩
        r := some ⟨0, 2⟩
        hup := true }
      (some (sampleContents ['#'])) :=
  broker_follows .empty (sampleRun (sampleContents []) (sampleContents ['#']))
    (List.replicate 17 (.watch true)) (by decide +kernel)
    (by decide +kernel : _ = some sampleBefore) (.written _ _ rfl) rfl (by decide)
    (by decide +kernel) (by decide)

end Rounds

end System
end BrokerWatch
end Edge
end GateControl
