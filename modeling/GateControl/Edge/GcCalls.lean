import GateControl.Edge.ChildCalls

/-!
# GcCalls — the calls of a plugin to its host

The host carries out a limited number of calls at a time.  What a call has come to goes to the
process that is there then, under the number that the call had in its own process: as long as no
call of an ended process is answered while the next one runs, each call gets the answer that is for
it (`gc_served`), and otherwise it may get another one's (`gc_crossed`).
-/

namespace GateControl
namespace Edge

open Library

namespace ChildCalls

open GatewayRpc (Outcome)

namespace System

variable (s : System)

/-! ## What is asked of a run -/

/-- An answer goes to this process, or to none. -/
def Reaches (k : Nat) : Prop := ∀ c ∈ s.reachable, c = k

/-- The plugin sends no messages itself, and the process whose call is answered is the one that is
there. -/
def Own : Action → Prop
  | .asked k => s.hostCalls ≥ hostCallsPerPlugin → s.Reaches k
  | .hooked k _ _ => s.Reaches k
  | .forge _ _ => False
  | _ => True

instance (k : Nat) : Decidable (s.Reaches k) :=
  inferInstanceAs (Decidable (∀ c ∈ s.reachable, c = k))

instance : (a : Action) → Decidable (s.Own a)
  | .asked k => inferInstanceAs (Decidable (s.hostCalls ≥ hostCallsPerPlugin → s.Reaches k))
  | .hooked k _ _ => inferInstanceAs (Decidable (s.Reaches k))
  | .forge _ _ => isFalse id
  | .start _ | .stop | .restart _ | .ready _ | .died _ | .disconnected _ => isTrue trivial
  | .exited _ | .call _ _ | .timeout _ | .ping | .called _ | .returned _ _ => isTrue trivial
  | .answered _ | .handle _ _ | .gcCall _ _ | .gcTimeout _ _ | .gcAnswered _ => isTrue trivial

/-- `hostCalls` counts the calls that the host carries out. -/
def GcLoad : Prop :=
  s.hostCalls = (s.procs.map fun p => p.gc.load).sum ∧ s.hostCalls ≤ hostCallsPerPlugin

/-- The calls of every process are served, and told of in the form that plugins rely on. -/
structure GcServed : Prop where
  served : ∀ p ∈ s.procs, ∀ n c, (n, c) ∈ p.gc.calls.made →
    p.gc.Served GcSettlement.verdict n c
  told : ∀ p ∈ s.procs, ∀ n r e, (n, .replied r) ∈ p.gc.calls.settled → r.told = .error e →
    e.code ≠ [] ∧ e.message ≠ [] ∧ ∀ f ∈ e.extra, f.1 ∈ errorDataFields.map String.toList

/-! ## What a step does -/

/-- What a process does with its own calls. -/
inductive Turn (k : Nat) (e : Exchange GcCall GcReply GcSettlement) :
    Exchange GcCall GcReply GcSettlement → Prop
  | same : Turn k e e
  | send (c : GcCall) : Turn k e (e.send k c)
  | timedOut (n : Nat) : Turn k e (e.settle n .timedOut)
  | deliver {e' : Exchange GcCall GcReply GcSettlement} (h : e.deliver k .replied = some e') :
      Turn k e e'

/-- What becomes of the processes, and of `hostCalls`. -/
inductive GcStep (s t : System) : Action → Prop
  | quiet {a : Action} (hprocs : t.procs = s.procs) (hcalls : t.hostCalls = s.hostCalls) :
      GcStep s t a
  | spawned {a : Action} (hprocs : t.procs = s.procs ++ [.new])
      (hcalls : t.hostCalls = s.hostCalls) : GcStep s t a
  | turn {a : Action} {k : Nat} {p p' : Process} (hp : s.procs[k]? = some p)
      (hprocs : t.procs = s.procs.set k p') (hcalls : t.hostCalls = s.hostCalls)
      (hturn : Turn k p.gc p'.gc) : GcStep s t a
  | asked {k : Nat} {p : Process} (hp : s.procs[k]? = some p) (hs : s.asked k p = some t) :
      GcStep s t (.asked k)
  | hooked {k i : Nat} {o : Outcome} {p : Process} (hp : s.procs[k]? = some p)
      (hs : s.hooked k i p o = some t) : GcStep s t (.hooked k i o)
  | forged {k : Nat} {p : Process} (m : Message) (hp : s.procs[k]? = some p)
      (hs : t = s.forge k p m) : GcStep s t (.forge k m)

variable {s} {t : System} {k i n : Nat} {p p' : Process} {o : Outcome} {b : GcReply}

@[simp] theorem procs_onExit : s.onExit.procs = s.procs := by
  unfold onExit
  split <;> rfl

@[simp] theorem hostCalls_onExit : s.onExit.hostCalls = s.hostCalls := by
  unfold onExit
  split <;> rfl

theorem gcStep_spawn {u : System} (hprocs : u.procs = s.procs)
    (hcalls : u.hostCalls = s.hostCalls) (forks : Bool) (a : Action) :
    GcStep s (u.spawn forks) a := by
  unfold spawn
  split
  · exact .quiet hprocs hcalls
  · split
    · exact .spawned (congrArg (· ++ [Process.new]) hprocs) hcalls
    · exact .quiet (procs_onExit.trans hprocs) (hostCalls_onExit.trans hcalls)

theorem gcStep_inside {f : Process → Option System} {a : Action} (h : s.inside k f = some t)
    (hf : ∀ p, s.procs[k]? = some p → f p = some t → GcStep s t a) : GcStep s t a := by
  obtain ⟨p, hp, hs⟩ := Option.bind_eq_some_iff.1 h
  exact hf p hp (Option.ite_none_right_eq_some.1 hs).2

theorem step_gc {a : Action} (ht : s.step a = some t) : GcStep s t a := by
  cases a with
  | start forks =>
      cases ht
      unfold start
      simp only
      split
      · exact .quiet rfl rfl
      · apply gcStep_spawn
        · rfl
        · rfl
  | stop =>
      cases ht
      exact .quiet rfl rfl
  | restart forks =>
      obtain ⟨_, hs⟩ := Option.ite_none_right_eq_some.1 ht
      cases hs
      split
      · apply gcStep_spawn
        · rfl
        · rfl
      · exact .quiet rfl rfl
  | ready k =>
      obtain ⟨_, hs⟩ := Option.ite_none_right_eq_some.1 ht
      cases hs
      exact .quiet rfl rfl
  | died k =>
      refine gcStep_inside ht fun p hp hs => ?_
      cases hs
      exact .turn hp rfl rfl .same
  | disconnected k =>
      obtain ⟨p, hp, rfl⟩ := Option.map_eq_some_iff.1 ht
      exact .turn hp rfl rfl .same
  | exited k =>
      obtain ⟨_, hs⟩ := Option.ite_none_left_eq_some.1 ht
      cases hs
      split
      · exact .quiet procs_onExit hostCalls_onExit
      · exact .quiet rfl rfl
  | call method params =>
      cases ht
      unfold call
      split
      · split
        · exact .quiet rfl rfl
        · split
          · exact .quiet rfl rfl
          · exact .quiet rfl rfl
      · exact .quiet rfl rfl
  | timeout n =>
      obtain ⟨_, hs⟩ := Option.ite_none_right_eq_some.1 ht
      cases hs
      exact .quiet rfl rfl
  | ping =>
      cases ht
      exact .quiet rfl rfl
  | called k =>
      refine gcStep_inside ht fun p hp hs => ?_
      obtain ⟨r, _, rfl⟩ := Option.map_eq_some_iff.1 hs
      split
      · exact .quiet rfl rfl
      · exact .quiet rfl rfl
  | returned i o =>
      obtain ⟨j, _, hj⟩ := Option.bind_eq_some_iff.1 ht
      obtain ⟨_, hs⟩ := Option.ite_none_right_eq_some.1 hj
      obtain ⟨r, _, rfl⟩ := Option.map_eq_some_iff.1 hs
      exact .quiet rfl rfl
  | answered k =>
      obtain ⟨calls, _, rfl⟩ := Option.map_eq_some_iff.1 ht
      exact .quiet rfl rfl
  | handle k method =>
      refine gcStep_inside ht fun p hp hs => ?_
      cases hs
      exact .turn hp rfl rfl .same
  | gcCall k c =>
      refine gcStep_inside ht fun p hp hs => ?_
      cases hs
      exact .turn hp rfl rfl (.send c)
  | gcTimeout k n =>
      refine gcStep_inside ht fun p hp hs => ?_
      cases hs
      exact .turn hp rfl rfl (.timedOut n)
  | asked k =>
      obtain ⟨p, hp, hs⟩ := Option.bind_eq_some_iff.1 ht
      exact .asked hp hs
  | hooked k i o =>
      obtain ⟨p, hp, hs⟩ := Option.bind_eq_some_iff.1 ht
      exact .hooked hp hs
  | gcAnswered k =>
      refine gcStep_inside ht fun p hp hs => ?_
      obtain ⟨gc, hgc, rfl⟩ := Option.map_eq_some_iff.1 hs
      exact .turn hp rfl rfl (.deliver hgc)
  | forge k m =>
      refine gcStep_inside ht fun p hp hs => ?_
      cases hs
      exact .forged m hp rfl

/-! ## How many calls are carried out -/

theorem Turn.load {e e' : Exchange GcCall GcReply GcSettlement} (h : Turn k e e') :
    e'.load = e.load := by
  cases h with
  | same => rfl
  | send c => rfl
  | timedOut n => rfl
  | deliver h =>
      obtain ⟨m, _, rfl⟩ := Option.map_eq_some_iff.1 h
      rfl

def gcLoad (s : System) : Nat := (s.procs.map fun p => p.gc.load).sum

theorem gcLoad_setProc (hp : s.procs[k]? = some p) (p' : Process) :
    (s.setProc k p').gcLoad + p.gc.load = s.gcLoad + p'.gc.load :=
  sum_replace (fun p : Process => p.gc.load) hp p'

/-- An answer on its way changes nothing about the calls that are carried out. -/
@[simp] theorem gcLoad_reply : (s.reply n b).gcLoad = s.gcLoad := by
  unfold reply
  split
  · next k _ =>
      unfold gcLoad
      congr 1
      apply List.ext_getElem?
      intro j
      simp only [List.getElem?_map, List.getElem?_modify]
      cases s.procs[j]? with
      | none => rfl
      | some p =>
          change some (if k = j then _ else p).gc.load = some p.gc.load
          split
          · rfl
          · rfl
  · rfl

@[simp] theorem hostCalls_reply : (s.reply n b).hostCalls = s.hostCalls := by
  unfold reply
  split <;> rfl

theorem GcStep.load {a : Action} (h : s.GcLoad) (hs : GcStep s t a) : t.GcLoad := by
  obtain ⟨hsum, hmax⟩ := h
  change s.hostCalls = s.gcLoad at hsum
  cases hs with
  | quiet hprocs hcalls =>
      refine ⟨?_, by rw [hcalls]; exact hmax⟩
      rw [hcalls, hprocs]
      exact hsum
  | spawned hprocs hcalls =>
      refine ⟨?_, by rw [hcalls]; exact hmax⟩
      rw [hcalls, hprocs, List.map_append, List.sum_append]
      exact hsum
  | @turn _ k p p' hp hprocs hcalls hturn =>
      have hset := gcLoad_setProc hp p'
      refine ⟨?_, by rw [hcalls]; exact hmax⟩
      rw [hcalls, hprocs]
      change s.hostCalls = (s.setProc k p').gcLoad
      rw [hturn.load] at hset
      omega
  | @asked k p hp hs =>
      obtain ⟨⟨j, gc⟩, hr, rfl⟩ := Option.map_eq_some_iff.1 hs
      have hset := gcLoad_setProc hp { p with gc := gc }
      have hload := Exchange.load_accept hr
      obtain ⟨_, _, _, hans, _⟩ := Exchange.accept_spec hr
      simp only
      split
      · next hbusy =>
          rw [hans, if_pos hbusy] at hload
          refine ⟨?_, by rw [hostCalls_reply]; exact hmax⟩
          change (reply _ _ _).hostCalls = (reply _ _ _).gcLoad
          rw [hostCalls_reply, gcLoad_reply]
          change gc.load = p.gc.load at hload
          change _ + p.gc.load = s.gcLoad + gc.load at hset
          change s.hostCalls = _
          omega
      · next hroom =>
          rw [hans, if_neg hroom] at hload
          refine ⟨?_, Nat.lt_of_not_le hroom⟩
          change s.hostCalls + 1 = (s.setProc k { p with gc := gc }).gcLoad
          change gc.load = p.gc.load + 1 at hload
          change _ + p.gc.load = s.gcLoad + gc.load at hset
          omega
  | @hooked k i o p hp hs =>
      obtain ⟨⟨j, gc⟩, hr, rfl⟩ := Option.map_eq_some_iff.1 hs
      have hset := gcLoad_setProc hp { p with gc := gc }
      have hload := Exchange.load_finish hr
      change gc.load + 1 = p.gc.load at hload
      change _ + p.gc.load = s.gcLoad + gc.load at hset
      refine ⟨?_, ?_⟩
      · change (reply _ _ _).hostCalls = (reply _ _ _).gcLoad
        rw [hostCalls_reply, gcLoad_reply]
        change s.hostCalls - 1 = (s.setProc k { p with gc := gc }).gcLoad
        omega
      · rw [hostCalls_reply]
        exact Nat.le_trans (Nat.sub_le s.hostCalls 1) hmax
  | @forged k p m hp hs =>
      subst hs
      cases m with
      | result n r =>
          exact ⟨hsum, hmax⟩
      | host n c =>
          have hset := gcLoad_setProc hp { p with gc := { p.gc with up := p.gc.up ++ [(k, n, c)] } }
          exact ⟨hsum.trans (Nat.add_right_cancel hset).symm, hmax⟩

/-! ## Which answer a call gets -/

def GcSound (s : System) : Prop :=
  ∀ p ∈ s.procs, p.gc.Placed ∧ p.gc.Honest GcSettlement.verdict

theorem Turn.sound {e e' : Exchange GcCall GcReply GcSettlement} (h : Turn k e e')
    (he : e.Placed ∧ e.Honest GcSettlement.verdict) :
    e'.Placed ∧ e'.Honest GcSettlement.verdict := by
  obtain ⟨hplaced, hhonest⟩ := he
  cases h with
  | same => exact ⟨hplaced, hhonest⟩
  | send c => exact ⟨hplaced.send k c, hhonest.send hplaced k c⟩
  | timedOut n => exact ⟨hplaced.settle n _, hhonest.settle n trivial⟩
  | deliver h => exact ⟨hplaced.deliver h, hhonest.deliver (fun _ _ _ => rfl) h⟩

theorem GcSound.setProc (h : s.GcSound)
    (hp' : p'.gc.Placed ∧ p'.gc.Honest GcSettlement.verdict) : (s.setProc k p').GcSound := by
  intro q hq
  rcases List.mem_or_eq_of_mem_set hq with hold | rfl
  · exact h q hold
  · exact hp'

/-- What a call has come to goes to the process that made it, or nowhere. -/
theorem GcSound.reply (h : s.GcSound) (hp : s.procs[k]? = some p) (hreach : s.Reaches k)
    (hgiven : p.gc.Given n b) : (s.reply n b).GcSound := by
  unfold System.reply
  split
  · next c hc =>
      obtain rfl : c = k := hreach c hc
      intro q hq
      obtain ⟨m, hm⟩ := List.mem_iff_getElem?.1 hq
      change (s.procs.modify c _)[m]? = some q at hm
      rw [List.getElem?_modify] at hm
      obtain ⟨q', hq', rfl⟩ := Option.map_eq_some_iff.1 hm
      by_cases hcm : c = m
      · subst hcm
        rw [hp] at hq'
        cases hq'
        rw [if_pos rfl]
        obtain ⟨hplaced, hhonest⟩ := h p (List.mem_of_getElem? hp)
        exact ⟨hplaced.push .., hhonest.push _ hgiven⟩
      · rw [if_neg hcm]
        exact h q' (List.mem_of_getElem? hq')
  · exact h

theorem getElem?_setProc (hp : s.procs[k]? = some p) (p' : Process) :
    (s.setProc k p').procs[k]? = some p' :=
  List.getElem?_set_self (List.getElem?_eq_some_iff.1 hp).1

theorem reachable_setProc (hp : s.procs[k]? = some p) (p' : Process)
    (hp' : p'.connected = p.connected) : (s.setProc k p').reachable = s.reachable := by
  unfold reachable proc
  congr 1
  funext j
  change ((s.procs.set k p')[j]?).any Process.connected = _
  by_cases hj : k = j
  · subst hj
    rw [List.getElem?_set_self (List.getElem?_eq_some_iff.1 hp).1, hp]
    exact hp'
  · rw [List.getElem?_set_ne hj]

theorem GcStep.sound {a : Action} (h : s.GcSound) (hown : s.Own a) (hs : GcStep s t a) :
    t.GcSound := by
  cases hs with
  | quiet hprocs _ =>
      rw [GcSound, hprocs]
      exact h
  | spawned hprocs _ =>
      rw [GcSound, hprocs]
      intro q hq
      rcases List.mem_append.1 hq with hold | hnew
      · exact h q hold
      · obtain rfl := List.mem_singleton.1 hnew
        exact ⟨Exchange.new_placed, Exchange.new_honest⟩
  | @turn _ k p p' hp hprocs _ hturn =>
      rw [GcSound, hprocs]
      exact GcSound.setProc (k := k) h (hturn.sound (h p (List.mem_of_getElem? hp)))
  | @asked k p hp hs =>
      obtain ⟨hplaced, hhonest⟩ := h p (List.mem_of_getElem? hp)
      obtain ⟨⟨j, gc⟩, hr, rfl⟩ := Option.map_eq_some_iff.1 hs
      have hset : (s.setProc k { p with gc := gc }).GcSound :=
        h.setProc ⟨hplaced.accept hr, hhonest.accept hr⟩
      obtain ⟨_, _, _, hans, hgc⟩ := Exchange.accept_spec hr
      simp only
      split
      · next hbusy =>
          rw [if_pos hbusy] at hans
          refine hset.reply (getElem?_setProc hp _) ?_ ⟨j, ?_, rfl, hans⟩
          · rw [Reaches, reachable_setProc hp { p with gc := gc } rfl]
            exact hown hbusy
          · change j ∈ gc.jobs
            rw [hgc]
            exact List.mem_append_right _ (List.mem_singleton_self _)
      · exact hset
  | @hooked k i o p hp hs =>
      obtain ⟨hplaced, hhonest⟩ := h p (List.mem_of_getElem? hp)
      obtain ⟨⟨j, gc⟩, hr, rfl⟩ := Option.map_eq_some_iff.1 hs
      have hset : (s.setProc k { p with gc := gc }).GcSound :=
        h.setProc ⟨hplaced.finish hr, hhonest.finish hr⟩
      have hgiven : gc.Given j.id (hostResultOf o) := by
        have hmem := Exchange.mem_jobs_finish hr
        obtain ⟨_, _, _, rfl, _⟩ := Exchange.finish_spec hr
        exact ⟨_, hmem, rfl, rfl⟩
      have hreach : (s.setProc k { p with gc := gc }).Reaches k := by
        rw [Reaches, reachable_setProc hp { p with gc := gc } rfl]
        exact hown
      have hfreed : ({ s.setProc k { p with gc := gc } with hostCalls := s.hostCalls - 1 } :
          System).GcSound := hset
      exact hfreed.reply (getElem?_setProc hp _) hreach hgiven
  | forged m hp hs =>
      exact hown.elim

theorem told_gcError {r : GcReply} {e : GcError} (h : r.told = .error e) :
    e.code ≠ [] ∧ e.message ≠ [] ∧ ∀ f ∈ e.extra, f.1 ∈ errorDataFields.map String.toList := by
  cases r with
  | result v =>
      cases h
  | error code message data =>
      cases h
      refine ⟨?_, ?_, fun f hf => ?_⟩
      · change (if code = [] then _ else code) ≠ []
        split
        · decide
        · assumption
      · change (if message = [] then _ else message) ≠ []
        split
        · decide
        · assumption
      · obtain ⟨name, hname, hval⟩ := List.mem_filterMap.1 hf
        obtain ⟨v, _, rfl⟩ := Option.map_eq_some_iff.1 hval
        exact List.mem_map_of_mem hname

/-! ## Runs -/

theorem new_gcSound : new.GcSound := by
  intro p hp
  cases hp

/-- Over every run; which answer a call gets depends on `Own`. -/
theorem gc_served {as : List Action} (h : exec step new as = some s) :
    s.GcLoad ∧ (Admits step Own new as → s.GcServed) := by
  refine ⟨exec_invariant (fun _ _ _ hs ht => (step_gc ht).load hs) ⟨rfl, Nat.zero_le _⟩ h,
    fun hown => ?_⟩
  have hsound : s.GcSound :=
    (throughout_of_admits (fun _ _ _ hs hok ht => (step_gc ht).sound hs hok) (fun _ hs => hs)
      new_gcSound hown).last h
  refine ⟨fun p hp n c hc => ?_, fun p _ n r e _ he => told_gcError he⟩
  obtain ⟨hplaced, hhonest⟩ := hsound p hp
  exact Exchange.served hplaced hhonest hc

/-- A process asks for two things, of which the second is done first. -/
def askedRun (c : GcCall) (v w : Json) : List Action :=
  [.start true, .gcCall 0 c, .gcCall 0 c, .asked 0, .asked 0, .hooked 0 1 (.returned (some w)),
    .hooked 0 0 (.returned (some v)), .gcAnswered 0, .gcAnswered 0]

def sampleCall : GcCall := ⟨"store.get".toList, .null⟩

theorem gc_served_asked : ∃ s,
    exec step new (askedRun sampleCall (.bool false) (.bool true)) = some s ∧
      (∃ p, s.procs = [p] ∧ p.gc.calls.settled =
        [(2, .replied (.result (.bool true))), (1, .replied (.result (.bool false)))]) ∧
      s.GcLoad ∧ s.GcServed := by
  have hown : Admits step Own new (askedRun sampleCall (.bool false) (.bool true)) := by decide
  refine ⟨_, rfl, ⟨_, rfl, rfl⟩, And.imp_right (fun hserved => hserved hown)
    (gc_served (?_ : exec step new (askedRun sampleCall (.bool false) (.bool true)) = some _))⟩
  rfl

/-- A process ends with a call open, and the next one makes a call under the same number. -/
def crossedRun (c c' : GcCall) (v : Json) : List Action :=
  [.start true, .gcCall 0 c, .asked 0, .died 0, .exited 0, .restart true, .gcCall 1 c', .asked 1,
    .hooked 0 0 (.returned (some v)), .gcAnswered 1]

/-- The call of the new process gets the answer of the old one's, its own is still carried out. -/
theorem gc_crossed (c c' : GcCall) (v : Json) : ∃ s p,
    exec step new (crossedRun c c' v) = some s ∧ s.procs[1]? = some p ∧
      p.gc.calls.settled = [(1, .replied (.result v))] ∧ p.gc.jobs = [⟨1, 1, c', none⟩] :=
  ⟨_, _, rfl, rfl, rfl, rfl⟩

end System
end ChildCalls
end Edge
end GateControl
