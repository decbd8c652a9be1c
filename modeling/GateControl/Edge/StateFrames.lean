import GateControl.Edge.FailClosed
import GateControl.Edge.Protocol
import GateControl.Library.JsonDecode

/-!
# StateFrames — two readers of the desired state

A text frame of the server reaches the gateway first: `observe` reads the desired state along, and
the frame goes on to the edge host, which reads it again.  Both use `parseState`, but the bridge
looks only into frames in which the word `"state"` stands as it is.  JSON has other spellings of
that word, and a state that is spelled so is taken over by the edge host alone.

What the edge host does with other messages than `state` is left out; it concerns no desired state.
-/

namespace GateControl
namespace Edge
namespace StateFrames

open Library
open Protocol

section Frames

variable (print : Json → String)

/-! ## The two readers -/

def stateWord : Units := units "\"state\"".toList

/-- `text.indexOf('"state"') >= 0`. -/
def mentionsState (text : Units) : Bool := text.tails.any fun s => stateWord.isPrefixOf s

/-- `EdgeBridge.observe`. -/
def observe (b : Bridge.EdgeBridge) (text : Units) : Bridge.EdgeBridge :=
  if !mentionsState text then b
  else
    match Json.parse text with
    | none => b
    | some m =>
        if !(m.field "t").isText "state" then b
        else
          match parseState print m with
          | .error _ => b
          | .ok st => Bridge.setDesired b st.forBridge

/-- The handler of `message` in `EdgeChannel`: the message that it emits. -/
def emitted (text : Units) : Option Json :=
  match Json.parse text with
  | none => none
  | some msg => if (msg.field "t").str?.isSome then some msg else none

/-- `EdgeHost.onMessage`. -/
def onMessage (h : Host) (m : Json) : Host :=
  if (m.field "t").isText "state" then
    match parseState print m with
    | .error _ => h
    | .ok st => { h with desired := some st.forHost }.requestReconcile
  else h

/-- A text frame at the edge host. -/
def onFrame (h : Host) (text : Units) : Host :=
  match emitted text with
  | none => h
  | some m => onMessage print h m

/-! ## The desired state is kept by everything else -/

theorem desired_closePlugin (b : Bridge.EdgeBridge) (id : String) :
    (Bridge.closePlugin b id).desired = b.desired := by
  unfold Bridge.closePlugin Bridge.closeNet
  split
  · rfl
  · dsimp only
    split <;> rfl

theorem desired_closePlugins (ids : List String) (b : Bridge.EdgeBridge) :
    (Bridge.closePlugins b ids).desired = b.desired := by
  induction ids generalizing b with
  | nil =>
      rfl
  | cons id ids ih =>
      calc (Bridge.closePlugins b (id :: ids)).desired
          = (Bridge.closePlugins (Bridge.closePlugin b id) ids).desired := rfl
        _ = (Bridge.closePlugin b id).desired := ih _
        _ = b.desired := desired_closePlugin b id

theorem desired_setDesired (b : Bridge.EdgeBridge) (st : Bridge.Desired) :
    (Bridge.setDesired b st).desired = some st := by
  have hclosed := desired_closePlugins (Bridge.unwanted b st) { b with desired := some st }
  unfold Bridge.setDesired
  dsimp only
  split
  · exact hclosed
  · exact hclosed

theorem desired_stopUnwanted (h : Host) (st : Desired) (list : List PluginId) :
    (h.stopUnwanted st list).desired = h.desired := by
  induction list with
  | nil =>
      rfl
  | cons id rest ih =>
      unfold Host.stopUnwanted
      split
      · exact ih
      · exact (Host.stopProcess_desired _ id).trans (Host.update_desired h id _)

theorem desired_requestReconcile (h : Host) : h.requestReconcile.desired = h.desired := by
  unfold Host.requestReconcile Host.reconcile
  split
  · rfl
  · dsimp only
    split
    · rfl
    · split
      · rfl
      · exact desired_stopUnwanted _ _ _

/-! ## What the readers agree on -/

/-- The state that a frame carries. -/
def carried (text : Units) : Option State :=
  (Json.parse text).bind fun m => (parseState print m).toOption

theorem carried_eq_some {text : Units} {st : State} :
    carried print text = some st ↔ ∃ m, Json.parse text = some m ∧ parseState print m = .ok st := by
  unfold carried
  cases hparse : Json.parse text with
  | none =>
      simp
  | some m =>
      cases hstate : parseState print m with
      | error e =>
          simp [hstate, Except.toOption]
      | ok st' =>
          simp [hstate, Except.toOption]

/-- The host takes over what a frame carries. -/
theorem desired_onFrame (h : Host) (text : Units) :
    (onFrame print h text).desired = ((carried print text).map State.forHost).or h.desired := by
  unfold onFrame emitted carried
  cases hparse : Json.parse text with
  | none =>
      rfl
  | some m =>
      cases hstate : parseState print m with
      | error e =>
          -- the message is not passed on, or it is and changes nothing
          by_cases hstr : (m.field "t").str?.isSome = true
          · simp [hstr, onMessage, hstate, Except.toOption]
          · simp [hstr, hstate, Except.toOption]
      | ok st =>
          -- a message that `parseState` accepts has the type that both sides ask for
          have ht := isState_of_parseState print hstate
          have hstr : (m.field "t").str?.isSome = true := by
            rw [of_decide_eq_true ht]
            rfl
          simp [hstr, ht, onMessage, hstate, Except.toOption, desired_requestReconcile]

/-- The bridge does so where the word stands in the frame. -/
theorem desired_observe (b : Bridge.EdgeBridge) (text : Units) :
    (observe print b text).desired =
      ((if mentionsState text then carried print text else none).map State.forBridge).or
        b.desired := by
  unfold observe carried
  by_cases hword : mentionsState text = true
  · cases hparse : Json.parse text with
    | none =>
        simp [hword]
    | some m =>
        cases hstate : parseState print m with
        | error e =>
            simp [hword, hstate, Except.toOption]
        | ok st =>
            simp [hword, isState_of_parseState print hstate, hstate, Except.toOption,
              desired_setDesired]
  · simp [hword]

/-- Both sides take over the state of the frame, or both keep what they had. -/
def Agrees (text : Units) : Prop :=
  ∀ (b : Bridge.EdgeBridge) (h : Host),
    (∃ m st, Json.parse text = some m ∧ parseState print m = .ok st ∧
      (observe print b text).desired = some st.forBridge ∧
      (onFrame print h text).desired = some st.forHost) ∨
    (observe print b text).desired = b.desired ∧ (onFrame print h text).desired = h.desired

/-- A frame that shows its state: the word stands in it, or it carries none. -/
def Plain (text : Units) : Prop :=
  mentionsState text = true ∨ ∀ m st, Json.parse text = some m → parseState print m ≠ .ok st

theorem carried_of_not_plain {text : Units} (h : ¬Plain print text) :
    mentionsState text = false ∧ ∃ st, carried print text = some st := by
  simp only [Plain, not_or, Bool.not_eq_true, not_forall, not_not] at h
  rcases h with ⟨hword, m, st, hparse, hstate⟩
  exact ⟨hword, st, (carried_eq_some print).2 ⟨m, hparse, hstate⟩⟩

theorem desired_observe_of_plain {text : Units} (h : Plain print text) (b : Bridge.EdgeBridge) :
    (observe print b text).desired = ((carried print text).map State.forBridge).or b.desired := by
  rw [desired_observe]
  rcases h with hword | hnone
  · rw [if_pos hword]
  · cases hcarried : carried print text with
    | none =>
        split <;> rfl
    | some st =>
        rcases (carried_eq_some print).1 hcarried with ⟨m, hparse, hstate⟩
        exact absurd hstate (hnone m st hparse)

/-- The bridge and the edge host read the same state from a frame exactly when the frame shows it.
-/
theorem agrees_iff_plain (text : Units) : Agrees print text ↔ Plain print text := by
  constructor
  · intro hagree
    by_contra hplain
    rcases carried_of_not_plain print hplain with ⟨hword, st, hcarried⟩
    -- on two sides that hold nothing yet
    have hbridge := desired_observe print (Bridge.new ⟨[], none, []⟩ false false) text
    have hhost := desired_onFrame print (.start .empty false 0) text
    rw [hword, if_neg Bool.false_ne_true] at hbridge
    rw [hcarried] at hhost
    -- the host holds a state then, the bridge none
    rcases hagree (Bridge.new ⟨[], none, []⟩ false false) (.start .empty false 0) with
      ⟨m, st', -, -, hb, -⟩ | ⟨-, hh⟩
    · rw [hb] at hbridge
      cases hbridge
    · rw [hh] at hhost
      cases hhost
  · intro hplain b h
    rw [desired_observe_of_plain print hplain, desired_onFrame]
    cases hcarried : carried print text with
    | none =>
        exact Or.inr ⟨rfl, rfl⟩
    | some st =>
        rcases (carried_eq_some print).1 hcarried with ⟨m, hparse, hstate⟩
        exact Or.inl ⟨m, st, hparse, hstate, rfl, rfl⟩

/-- Over any frames that show their states both sides hold the same state all along. -/
theorem desired_foldl {frames : List Units} (hplain : ∀ text ∈ frames, Plain print text)
    {b : Bridge.EdgeBridge} {h : Host} {held : Option State}
    (hb : b.desired = held.map State.forBridge) (hh : h.desired = held.map State.forHost) :
    ∃ held' : Option State,
      (frames.foldl (observe print) b).desired = held'.map State.forBridge ∧
        (frames.foldl (onFrame print) h).desired = held'.map State.forHost := by
  induction frames generalizing b h held with
  | nil =>
      exact ⟨held, hb, hh⟩
  | cons text frames ih =>
      -- both go on from the state of this frame, or from the one they held
      have htext := hplain text List.mem_cons_self
      have hb' : (observe print b text).desired =
          ((carried print text).or held).map State.forBridge := by
        rw [desired_observe_of_plain print htext, hb]
        cases carried print text <;> rfl
      have hh' : (onFrame print h text).desired =
          ((carried print text).or held).map State.forHost := by
        rw [desired_onFrame, hh]
        cases carried print text <;> rfl
      exact ih (fun t ht => hplain t (List.mem_cons_of_mem text ht)) hb' hh'

end Frames

/-- An empty state in which the word is spelled with an escape. -/
def escapedState : Units := units "\x7b\"t\":\"st\\u0061te\"\x7d".toList

theorem escapedState_diverges : ¬∀ (print : Json → String) (text : Units), Agrees print text := by
  intro hall
  have hbridge : (observe (fun _ => "") (Bridge.new ⟨[], none, []⟩ false false)
      escapedState).desired.isSome = false := by
    decide +kernel
  have hhost : (onFrame (fun _ => "") (.start .empty false 0)
      escapedState).desired.isSome = true := by
    decide +kernel
  rcases hall (fun _ => "") escapedState (Bridge.new ⟨[], none, []⟩ false false)
    (.start .empty false 0) with ⟨m, st, -, -, hb, -⟩ | ⟨-, hh⟩
  · rw [hb] at hbridge
    cases hbridge
  · rw [hh] at hhost
    cases hhost

end StateFrames
end Edge
end GateControl
