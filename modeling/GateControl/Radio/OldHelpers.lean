import GateControl.Radio.Ble

/-!
# OldHelpers — what stopped and replaced helpers can still do

The scanner lets go of a helper only when it has exited or is sent `SIGTERM`, and starts another
only when it has let go of the last one; so at most one helper is at work.  The handlers of `error`
and `exit` ask whether the helper is still the one that the scanner listens to.  The handler of the
lines does not, so that an `E` line of an old helper ends its successor, and an `S ready` line
reports a scan that is not running yet.
-/

namespace GateControl
namespace Radio

open Library

/-- The helper that the scanner listens to is the one that is at work, and the last one that was
started; the timer is set only while there is none. -/
structure Tended (child : Option Nat) (helpers : List Helper) (restartTimer : Option Nat) : Prop where
  live_iff : ∀ h, child = some h ↔ ∃ x, helpers[h]? = some x ∧ x.live = true
  last : ∀ h, child = some h → h + 1 = helpers.length
  idle : restartTimer.isSome = true → child = none

namespace Tended

variable {child : Option Nat} {helpers : List Helper} {restartTimer : Option Nat} {h : Nat}

theorem new : Tended none [] none where
  live_iff h := by simp
  last h hchild := by cases hchild
  idle _ := rfl

theorem clear (t : Tended child helpers restartTimer) : Tended child helpers none where
  live_iff := t.live_iff
  last := t.last
  idle h := by cases h

theorem set (t : Tended none helpers restartTimer) (wait : Option Nat) : Tended none helpers wait where
  live_iff := t.live_iff
  last := t.last
  idle _ := rfl

/-- A helper that is not at work any more, and that the scanner has let go of. -/
theorem leave (t : Tended (some h) helpers restartTimer) {f : Helper → Helper}
    (hf : ∀ x, (f x).live = false) : Tended none (helpers.modify h f) restartTimer where
  live_iff k := by
    constructor
    · intro hnone
      cases hnone
    · rintro ⟨x, hx, hlive⟩
      by_cases hk : h = k
      · subst hk
        rw [List.getElem?_modify_eq] at hx
        obtain ⟨y, _, rfl⟩ := Option.map_eq_some_iff.1 hx
        rw [hf y] at hlive
        cases hlive
      · -- another helper at work would be the one the scanner listens to
        rw [List.getElem?_modify_ne _ _ hk] at hx
        exact absurd (Option.some.inj ((t.live_iff k).2 ⟨x, hx, hlive⟩)) hk
  last k hk := by cases hk
  idle _ := rfl

/-- A helper exits that the scanner does not listen to. -/
theorem exit_old (t : Tended child helpers restartTimer) (hne : child ≠ some h) {f : Helper → Helper}
    (hf : ∀ x, (f x).live = false) : Tended child (helpers.modify h f) restartTimer where
  live_iff k := by
    rw [t.live_iff k]
    by_cases hk : h = k
    · subst hk
      have hold : ¬∃ x, helpers[h]? = some x ∧ x.live = true := fun hx => hne ((t.live_iff h).2 hx)
      refine iff_of_false hold ?_
      rintro ⟨x, hx, hlive⟩
      rw [List.getElem?_modify_eq] at hx
      obtain ⟨y, _, rfl⟩ := Option.map_eq_some_iff.1 hx
      rw [hf y] at hlive
      cases hlive
    · rw [List.getElem?_modify_ne _ _ hk]
  last k hk := by
    rw [List.length_modify]
    exact t.last k hk
  idle := t.idle

theorem spawn (t : Tended none helpers restartTimer) :
    Tended (some helpers.length) (helpers ++ [⟨false, false⟩]) none where
  live_iff k := by
    rw [List.getElem?_append]
    by_cases hk : k < helpers.length
    · rw [if_pos hk, ← t.live_iff k]
      simp [Nat.ne_of_gt hk]
    · rw [if_neg hk]
      constructor
      · intro heq
        cases heq
        exact ⟨⟨false, false⟩, by simp, rfl⟩
      · rintro ⟨x, hx, _⟩
        have hlt := (List.getElem?_eq_some_iff.1 hx).1
        rw [List.length_singleton] at hlt
        exact congrArg some (by omega)
  last k hk := by
    cases hk
    rw [List.length_append]
    rfl
  idle h := by cases h

end Tended

namespace BleScanner

def Sound (s : BleScanner) : Prop := Tended s.child s.helpers s.restartTimer

variable {s : BleScanner}

theorem new_sound : Sound new := Tended.new

theorem kill_sound (hs : Sound s) : Sound s.kill ∧ s.kill.child = none := by
  rw [kill]
  cases hchild : s.child with
  | none =>
      exact ⟨hs, hchild⟩
  | some h =>
      rw [Sound, hchild] at hs
      exact ⟨hs.leave fun _ => by simp [Helper.live], rfl⟩

theorem failed_sound (hs : Sound s) (code : ErrorCode) (message : Units) (now : Int) :
    Sound (s.failed code message now) := by
  obtain ⟨hkill, hnone⟩ := kill_sound
    (s := { s with state := .error, error := some ⟨now, code, message.take 160⟩ }) hs
  rw [Sound, hnone] at hkill
  rw [failed]
  dsimp only
  split
  · rw [Sound, hnone]
    exact hkill.set _
  · rw [Sound, hnone]
    exact hkill

theorem start_sound (hs : Sound s) (hnone : s.child = none) (thrown : Option Units) (now : Int) :
    Sound (s.start thrown now) := by
  have hclear := hs.clear
  rw [start]
  dsimp only
  split
  · exact hclear
  · cases thrown with
    | none =>
        rw [hnone] at hclear
        exact hclear.spawn
    | some message =>
        exact failed_sound
          (s := { s with restartTimer := none, state := .starting }) hclear .spawnFailed message now

theorem stopChild_sound (hs : Sound s) : Sound s.stopChild ∧ s.stopChild.child = none :=
  kill_sound (s := { s with restartTimer := none }) hs.clear

theorem apply_sound (hs : Sound s) (enabled : Bool) (adapters : List Adapter)
    (thrown : Option Units) (now : Int) : Sound (s.apply enabled adapters thrown now) := by
  have hset : Sound { s with enabled := enabled, adapter := adapters.head? } := hs
  rw [apply]
  dsimp only
  split
  · exact (stopChild_sound hset).1
  · split
    · exact (stopChild_sound hset).1
    · -- the scanner with the new adapter, its helper stopped where that is another one
      have hnext : ∀ t : BleScanner, Sound t → Sound
          (if t.child.isNone && t.restartTimer.isNone then t.start thrown now else t) := by
        intro t ht
        split
        · rename_i hfree
          exact start_sound ht (Option.isNone_iff_eq_none.1 (Bool.and_eq_true_iff.1 hfree).1) _ _
        · exact ht
      refine hnext _ ?_
      split
      · exact (stopChild_sound hset).1
      · exact hset

theorem line_sound (hs : Sound s) (text : Units) (now : Int) : Sound (s.line text now) := by
  rw [line]
  split
  · exact hs
  · split
    · exact failed_sound hs _ _ _
    · exact hs

theorem onError_sound (hs : Sound s) (h : Nat) (enoent : Bool) (message : Units) (now : Int) :
    Sound (s.onError h enoent message now) := by
  rw [onError]
  split
  · exact failed_sound hs _ _ _
  · exact hs

theorem exit_sound (hs : Sound s) (h : Nat) (code : Option Nat) (now : Int) :
    Sound ({ s with helpers := s.helpers.modify h fun x => { x with exited := true } }.onExit h
      code now) := by
  have hgone : ∀ x : Helper, ({ x with exited := true } : Helper).live = false := fun _ => rfl
  rw [onExit]
  split
  · rename_i hne
    exact hs.exit_old hne hgone
  · rename_i hchild
    have hchild : s.child = some h := not_not.1 hchild
    rw [Sound, hchild] at hs
    have hleft := hs.leave hgone
    dsimp only
    split
    · exact hleft
    · split
      · exact failed_sound (s := { s with
          helpers := s.helpers.modify h fun x => { x with exited := true }
          child := none }) hleft _ _ _
      · exact hleft

theorem step_sound (s : BleScanner) (a : BleAction) (s' : BleScanner) (hs : Sound s)
    (hstep : step s a = some s') : Sound s' := by
  cases a with
  | apply enabled adapters thrown now =>
      cases hstep
      exact apply_sound hs enabled adapters thrown now
  | stop =>
      cases hstep
      exact (stopChild_sound (s := { s with enabled := false }) hs).1
  | timer thrown now =>
      rw [step] at hstep
      split at hstep
      · rename_i hset
        cases hstep
        exact start_sound hs (hs.idle hset) thrown now
      · cases hstep
  | helper h e now =>
      -- an event of a helper, old or current
      obtain ⟨x, _, hrest⟩ := Option.bind_eq_some_iff.1 hstep
      cases e with
      | line text =>
          cases hrest
          exact line_sound hs text now
      | error enoent message =>
          cases hrest
          exact onError_sound hs h enoent message now
      | exit code =>
          dsimp only at hrest
          split at hrest
          · cases hrest
          · cases hrest
            exact exit_sound hs h code now

/-! ## Old helpers -/

/-- The helper has been stopped, or replaced by one that was started later. -/
def Old (s : BleScanner) (h : Nat) : Prop :=
  (∃ x ∈ s.helpers[h]?, x.terminated = true) ∨ h + 1 < s.helpers.length

instance (s : BleScanner) (h : Nat) : Decidable (Old s h) := instDecidableOr

/-- The scanner is as it was before. -/
def Same (s s' : BleScanner) : Prop :=
  s'.state = s.state ∧ s'.child = s.child ∧ s'.restartTimer = s.restartTimer ∧
    s'.failures = s.failures ∧ s'.error = s.error

instance (s s' : BleScanner) : Decidable (Same s s') := inferInstanceAs (Decidable (_ ∧ _))

/-- What an old helper does leaves the scanner as it was. -/
def Silent (s : BleScanner) : BleAction → Prop
  | .helper h e now => Old s h → ∀ s' ∈ step s (.helper h e now), Same s s'
  | _ => True

instance (s : BleScanner) : ∀ a, Decidable (Silent s a)
  | .helper _ _ _ => inferInstanceAs (Decidable (_ → ∀ s' ∈ _, _))
  | .apply _ _ _ _ | .stop | .timer _ _ => isTrue trivial

/-- The line does not start with `E `, and starts with `S ready ` only where the scanner is running
without errors and failures. -/
def Idle (s : BleScanner) (text : Units) : Prop :=
  startsWith "E " text = false ∧
    (startsWith "S ready " text = true → s.state = .running ∧ s.error = none ∧ s.failures = 0)

instance (s : BleScanner) (text : Units) : Decidable (Idle s text) :=
  inferInstanceAs (Decidable (_ ∧ (_ → _)))

/-- The lines of an old helper are idle. -/
def Quiet (s : BleScanner) : BleAction → Prop
  | .helper h (.line text) _ => Old s h → Idle s text
  | _ => True

instance (s : BleScanner) : ∀ a, Decidable (Quiet s a)
  | .helper _ (.line _) _ => inferInstanceAs (Decidable (_ → _))
  | .helper _ (.error _ _) _ | .helper _ (.exit _) _ | .apply _ _ _ _ | .stop | .timer _ _ =>
    isTrue trivial

theorem Sound.not_current (hs : Sound s) {h : Nat} (hold : Old s h) : s.child ≠ some h := by
  intro hchild
  rcases hold with ⟨x, hx, hterminated⟩ | hlater
  · obtain ⟨y, hy, hlive⟩ := (hs.live_iff h).1 hchild
    rw [hx] at hy
    cases hy
    simp [Helper.live, hterminated] at hlive
  · exact Nat.ne_of_lt hlater (hs.last h hchild)

theorem failed_failures (s : BleScanner) (code : ErrorCode) (message : Units) (now : Int) :
    (s.failed code message now).failures = s.failures + 1 := by
  have hkill : ∀ t : BleScanner, t.kill.failures = t.failures := by
    intro t
    rw [kill]
    split
    · rfl
    · rfl
  rw [failed]
  dsimp only
  split
  · rw [hkill]
  · rw [hkill]

theorem not_error_of_ready {text : Units} (h : startsWith "S ready " text = true) :
    startsWith "E " text = false := by
  rw [startsWith, List.isPrefixOf_iff_prefix] at h
  obtain ⟨rest, rfl⟩ := h
  rfl

/-- A line leaves the scanner as it was exactly if it is no `E` line, and no `S ready` line that
says something new. -/
theorem line_same_iff (s : BleScanner) (text : Units) (now : Int) :
    Same s (s.line text now) ↔ Idle s text := by
  rw [line, Idle]
  by_cases hready : startsWith "S ready " text = true
  · rw [if_pos hready]
    simp only [Same, hready, not_error_of_ready hready, true_and, true_imp_iff]
    constructor
    · rintro ⟨hstate, hfailures, herror⟩
      exact ⟨hstate.symm, herror.symm, hfailures.symm⟩
    · rintro ⟨hstate, herror, hfailures⟩
      exact ⟨hstate.symm, hfailures.symm, herror.symm⟩
  · rw [if_neg hready]
    split
    · rename_i herror
      refine iff_of_false (fun hsame => ?_) fun h => by simp [herror] at h
      have hfailures := hsame.2.2.2.1
      rw [failed_failures] at hfailures
      exact Nat.succ_ne_self _ hfailures
    · rename_i herror
      exact iff_of_true ⟨rfl, rfl, rfl, rfl, rfl⟩
        ⟨Bool.eq_false_of_not_eq_true herror, fun h => absurd h hready⟩

theorem silent_iff_quiet (s : BleScanner) (a : BleAction) (s' : BleScanner) (hs : Sound s)
    (hstep : step s a = some s') : Silent s a ↔ Quiet s a := by
  cases a with
  | helper h e now =>
      have hsilent : Silent s (.helper h e now) ↔ (Old s h → Same s s') := by
        rw [Silent, hstep]
        simp
      obtain ⟨x, _, hrest⟩ := Option.bind_eq_some_iff.1 hstep
      rw [hsilent]
      cases e with
      | line text =>
          cases hrest
          -- lines are taken from any helper
          exact imp_congr_right fun _ => line_same_iff s text now
      | error enoent message =>
          cases hrest
          refine iff_of_true (fun hold => ?_) trivial
          -- an error of an old helper is ignored
          rw [onError, if_neg (hs.not_current hold)]
          exact ⟨rfl, rfl, rfl, rfl, rfl⟩
      | exit code =>
          dsimp only at hrest
          split at hrest
          · cases hrest
          · cases hrest
            refine iff_of_true (fun hold => ?_) trivial
            -- and so is its exit
            rw [onExit, if_pos (hs.not_current hold)]
            exact ⟨rfl, rfl, rfl, rfl, rfl⟩
  | _ =>
      exact Iff.rfl

/-- In every run at most one helper is at work, and what the old helpers do leaves the scanner as it
was, if and only if none of them writes an `E` line, or an `S ready` line that says something
new. -/
theorem old_helpers_silent_iff {as : List BleAction} (hrun : exec step new as = some s) :
    (∀ (h h' : Nat) (x x' : Helper), s.helpers[h]? = some x → s.helpers[h']? = some x' →
        x.live = true → x'.live = true → h = h') ∧
      (Admits step Silent new as ↔ Admits step Quiet new as) := by
  have hs : Sound s := exec_invariant step_sound new_sound hrun
  refine ⟨fun h h' x x' hx hx' hlive hlive' => ?_,
    admits_congr silent_iff_quiet step_sound new_sound hrun⟩
  have hchild := (hs.live_iff h).2 ⟨x, hx, hlive⟩
  have hchild' := (hs.live_iff h').2 ⟨x', hx', hlive'⟩
  exact Option.some.inj (hchild.symm.trans hchild')

/-- The adapter is another one now; the stopped helper still reports a device, and exits. -/
def otherAdapter : List BleAction :=
  [.apply true [⟨"hci0".toList⟩] none 0,
    .helper 0 (.line (units "S ready legacy hci0".toList)) 1,
    .apply true [⟨"hci1".toList⟩] none 2,
    .helper 0 (.line (units "A 00:11:22:33:44:55 0 -71 02".toList)) 3,
    .helper 0 (.exit none) 4]

theorem old_helpers_silent_otherAdapter : Admits step Silent new otherAdapter := by
  obtain ⟨s, hs⟩ : ∃ s, exec step new otherAdapter = some s := Option.isSome_iff_exists.1 (by decide)
  exact (old_helpers_silent_iff hs).2.2 (by decide)

/-- A late error of the stopped helper ends its successor; a late `S ready` line of it reports a scan
of the other adapter. -/
theorem old_helper_heard :
    ¬Admits step Silent new [.apply true [⟨"hci0".toList⟩] none 0,
        .apply true [⟨"hci1".toList⟩] none 1, .helper 0 (.line (units "E scan 1".toList)) 2] ∧
      ¬Admits step Silent new [.apply true [⟨"hci0".toList⟩] none 0,
        .apply true [⟨"hci1".toList⟩] none 1,
        .helper 0 (.line (units "S ready legacy hci0".toList)) 2] := by
  decide

end BleScanner

end Radio
end GateControl
