import GateControl.Ai.AnswerSlots

/-!
# CalledOff — answers that were called off

A call listens to its caller's signal while it waits in the queue and again once it has gone on with
its slot; it never asks whether the signal has been aborted before.  New settings that switch the
feature off abort the calls that run, and no other call asks for the settings again after it has
taken its backend.  A call that was called off at such a moment is answered all the same.
`Undisturbed` says that nothing is called off at these moments; then no backend is started for a call
that was called off.  The condition cannot be weaker: a step that breaks it leaves a call that the
service will start by itself.
-/

namespace GateControl
namespace Ai

open Library

/-- The call waits for its slot, or has not gone on with it. -/
def Call.early (c : Call) : Bool :=
  match c.phase with
  | .waiting | .granted => true
  | .running _ | .ended _ => false

/-- The steps that the service takes by itself: a call goes on, a backend ends. -/
def Action.own : Action → Bool
  | .use _ _ | .settle _ _ => true
  | .apply _ | .stop | .tick _ | .chat _ | .abort _ => false

namespace AiService

/-- A backend is started only for a call whose signal is not aborted, and while the feature is
switched on. -/
def StartsAllowed (s : AiService) : Action → Prop
  | .use i false => ∀ c ∈ s.calls[i]?, c.phase = .granted →
      c.aborted = false ∧ s.cfg.enabled = true
  | _ => True

instance (s : AiService) : ∀ a, Decidable (StartsAllowed s a)
  | .use _ false => inferInstanceAs (Decidable (∀ c ∈ _, _ → _))
  | .use _ true | .apply _ | .stop | .tick _ | .chat _ | .abort _ | .settle _ _ => isTrue trivial

/-- No call comes with an aborted signal, unless it is refused; no signal is aborted between the
slot and the start of the backend; and the feature is not switched off while a call waits or has not
gone on with its slot. -/
def Undisturbed (s : AiService) : Action → Prop
  | .chat aborted => aborted = false ∨ s.backend = none ∨
      (maxActive ≤ s.active ∧ maxWaiting ≤ s.waiting.length)
  | .abort i => ∀ c ∈ s.calls[i]?, c.phase ≠ .granted
  | .apply cfg => cfg.enabled = true ∨ ∀ c ∈ s.calls, c.early = false
  | _ => True

instance (s : AiService) : ∀ a, Decidable (Undisturbed s a)
  | .chat _ => inferInstanceAs (Decidable (_ ∨ _ ∨ _))
  | .abort _ => inferInstanceAs (Decidable (∀ c ∈ _, _))
  | .apply _ => inferInstanceAs (Decidable (_ ∨ _))
  | .use _ _ | .stop | .tick _ | .settle _ _ => isTrue trivial

/-- No call that is still to be started has been called off. -/
def Clean (s : AiService) : Prop :=
  ∀ (i : Nat) (c : Call), s.calls[i]? = some c → c.early = true →
    c.aborted = false ∧ s.cfg.enabled = true

variable {s s' : AiService} {c : Call} {i : Nat}

theorem start_clean : Clean start := by
  intro i c hc
  rw [start, List.getElem?_nil] at hc
  cases hc

theorem enabled_of_backend {b : Backend} (h : s.backend = some b) : s.cfg.enabled = true := by
  rw [backend] at h
  split at h
  · assumption
  · cases h

theorem modify_cases {calls : List Call} {f : Call → Call} {k : Nat}
    (h : (calls.modify i f)[k]? = some c) :
    ∃ d, calls[k]? = some d ∧ (c = f d ∨ c = d) ∧ (k = i → c = f d) := by
  by_cases hk : i = k
  · subst hk
    rw [List.getElem?_modify_eq] at h
    obtain ⟨d, hd, rfl⟩ := Option.map_eq_some_iff.1 h
    exact ⟨d, hd, .inl rfl, fun _ => rfl⟩
  · rw [List.getElem?_modify_ne _ _ hk] at h
    exact ⟨c, h, .inr rfl, fun hki => absurd hki.symm hk⟩

/-- Where the calls that are still to be started were so before, with the same signal, and the
feature is switched on as before, nothing new has been called off. -/
theorem Clean.of_inherits (h : Clean s) (hcfg : s'.cfg = s.cfg)
    (hcalls : ∀ (i : Nat) (c : Call), s'.calls[i]? = some c → c.early = true →
      ∃ d, s.calls[i]? = some d ∧ d.early = true ∧ c.aborted = d.aborted) : Clean s' := by
  intro i c hc hearly
  obtain ⟨d, hd, hdearly, haborted⟩ := hcalls i c hc hearly
  rw [haborted, hcfg]
  exact h i d hd hdearly

theorem cancel_early (c : Call) : c.cancel.early = c.early ∧ c.cancel.aborted = c.aborted := by
  cases hphase : c.phase <;> simp [Call.cancel, Call.early, hphase]

theorem map_cancel_cases {calls : List Call} (h : (calls.map Call.cancel)[i]? = some c)
    (hearly : c.early = true) :
    ∃ d, calls[i]? = some d ∧ d.early = true ∧ c.aborted = d.aborted := by
  rw [List.getElem?_map] at h
  obtain ⟨d, hd, rfl⟩ := Option.map_eq_some_iff.1 h
  exact ⟨d, hd, (cancel_early d).1 ▸ hearly, (cancel_early d).2⟩

theorem Clean.apply (h : Clean s) {cfg : AiConfig}
    (hok : cfg.enabled = true ∨ ∀ c ∈ s.calls, c.early = false) : Clean (s.apply cfg) := by
  rw [AiService.apply]
  split
  · exact h
  · intro i c hc hearly
    obtain ⟨d, hd, hdearly, haborted⟩ :
        ∃ d, s.calls[i]? = some d ∧ d.early = true ∧ c.aborted = d.aborted := by
      dsimp only at hc
      split at hc
      · exact ⟨c, hc, hearly, rfl⟩
      · exact map_cancel_cases hc hearly
    rcases hok with hon | hnone
    · exact ⟨haborted.trans (h i d hd hdearly).1, hon⟩
    · rw [hnone d (List.mem_of_getElem? hd)] at hdearly
      cases hdearly

theorem Clean.chat (h : Clean s) {aborted : Bool}
    (hok : aborted = false ∨ s.backend = none ∨
      (maxActive ≤ s.active ∧ maxWaiting ≤ s.waiting.length)) : Clean (s.chat aborted) := by
  -- a call that is added: it is over, or neither it nor the feature has been called off
  have hadd : ∀ {t : AiService} {d : Call}, t.cfg = s.cfg → t.calls = s.calls ++ [d] →
      (d.early = true → d.aborted = false ∧ s.cfg.enabled = true) → Clean t := by
    intro t d hcfg hcalls hd i c hc hearly
    rw [hcalls] at hc
    rw [hcfg]
    rw [List.getElem?_append] at hc
    split at hc
    · exact h i c hc hearly
    · obtain rfl := List.mem_singleton.1 (List.mem_of_getElem? hc)
      exact hd hearly
  rcases chat_cases s aborted with ⟨_, heq⟩ | ⟨b, hb, ⟨hfree, heq⟩ | ⟨_, _, heq⟩ | ⟨_, hroom, heq⟩⟩
  · rw [heq]
    exact hadd rfl rfl fun hearly => Bool.noConfusion hearly
  · rw [heq]
    refine hadd rfl rfl fun _ => ⟨?_, enabled_of_backend hb⟩
    rcases hok with hok | hok | ⟨hok, _⟩
    · exact hok
    · rw [hb] at hok
      cases hok
    · omega
  · rw [heq]
    exact hadd rfl rfl fun hearly => Bool.noConfusion hearly
  · rw [heq]
    refine hadd rfl rfl fun _ => ⟨?_, enabled_of_backend hb⟩
    rcases hok with hok | hok | ⟨_, hok⟩
    · exact hok
    · rw [hb] at hok
      cases hok
    · omega

theorem Clean.abort (h : Clean s) (hc : s.calls[i]? = some c) (hok : c.phase ≠ .granted) :
    Clean (s.abort i c) := by
  -- the call itself is not one that is still to be started
  have hset : ∀ {f : Call → Call} {t : AiService}, t.cfg = s.cfg → t.calls = s.calls.modify i f →
      (f c).early = false → Clean t := by
    intro f t hcfg hcalls hf
    refine h.of_inherits hcfg fun k d hd hearly => ?_
    rw [hcalls] at hd
    obtain ⟨d', hd', hcases, hsame⟩ := modify_cases hd
    by_cases hk : k = i
    · subst hk
      rw [hc] at hd'
      cases hd'
      rw [hsame rfl, hf] at hearly
      cases hearly
    · rw [List.getElem?_modify_ne _ _ (Ne.symm hk)] at hd
      exact ⟨d, hd, hearly, rfl⟩
  rw [AiService.abort]
  cases hphase : c.phase with
  | waiting =>
      exact hset (f := fun c => { c with aborted := true, phase := .ended .aborted }) rfl rfl rfl
  | granted =>
      exact absurd hphase hok
  | running cancelled =>
      exact hset (f := fun c => { c with aborted := true, phase := .running true }) rfl rfl rfl
  | ended outcome =>
      refine hset (f := fun c => { c with aborted := true }) rfl rfl ?_
      simp only [Call.early, hphase]

/-- A call that is changed so that it is not to be started is no other call. -/
theorem modify_inherits {calls : List Call} {f : Call → Call} (hf : ∀ c, (f c).early = false)
    {k : Nat} (hc : (calls.modify i f)[k]? = some c) (hearly : c.early = true) :
    k ≠ i ∧ calls[k]? = some c := by
  by_cases hk : k = i
  · subst hk
    rw [List.getElem?_modify_eq] at hc
    obtain ⟨d, _, rfl⟩ := Option.map_eq_some_iff.1 hc
    rw [hf d] at hearly
    cases hearly
  · rw [List.getElem?_modify_ne _ _ (Ne.symm hk)] at hc
    exact ⟨hk, hc⟩

/-- After the end of a call, the calls that are still to be started are others, which were so
before. -/
theorem finish_inherits (hb : Booked s) (ok : Bool) {k : Nat}
    (hc : (s.finish i ok).calls[k]? = some c) (hearly : c.early = true) :
    ∃ d, s.calls[k]? = some d ∧ d.early = true ∧ c.aborted = d.aborted := by
  have hended : ∀ d : Call, ({ d with phase := .ended (.finished ok) } : Call).early = false :=
    fun _ => rfl
  rw [finish] at hc
  rcases s.toSlots.release_cases with ⟨_, heq⟩ | ⟨j, js, hwaiting, heq⟩
  · -- nobody waits, and only the call that ends is another
    rw [heq] at hc
    exact ⟨c, (modify_inherits hended hc hearly).2, hearly, rfl⟩
  · rw [heq] at hc
    dsimp only at hc
    by_cases hk : j = k
    · -- the call that the slot is passed to was waiting
      subst hk
      rw [List.getElem?_modify_eq] at hc
      obtain ⟨d, hd, rfl⟩ := Option.map_eq_some_iff.1 hc
      have hwaits := (hb.waits j).1 (hwaiting ▸ List.mem_cons_self)
      rw [List.getElem?_map] at hwaits
      obtain ⟨d', hd', hmark⟩ := Option.map_eq_some_iff.1 hwaits
      have hd'early : d'.early = true := by
        cases hphase : d'.phase with
        | ended outcome =>
            cases outcome <;> simp [Call.mark, hphase] at hmark
        | _ =>
            simp_all [Call.mark, Call.early]
      obtain ⟨e, he, hcases, _⟩ := modify_cases hd
      rw [hd'] at he
      cases he
      refine ⟨d', hd', hd'early, ?_⟩
      rcases hcases with rfl | rfl
      · rfl
      · rfl
    · rw [List.getElem?_modify_ne _ _ hk] at hc
      exact ⟨c, (modify_inherits hended hc hearly).2, hearly, rfl⟩

theorem finish_cfg (s : AiService) (i : Nat) (ok : Bool) : (s.finish i ok).cfg = s.cfg := by
  rw [finish]
  rcases s.toSlots.release_cases with ⟨_, heq⟩ | ⟨j, js, _, heq⟩
  · rw [heq]
  · rw [heq]

theorem Clean.finish (h : Clean s) (hb : Booked s) (i : Nat) (ok : Bool) : Clean (s.finish i ok) :=
  h.of_inherits (finish_cfg s i ok) fun _ _ hc hearly => finish_inherits hb ok hc hearly

theorem step_clean (s : AiService) (a : Action) (s' : AiService) (h : Booked s ∧ Clean s)
    (hok : Undisturbed s a) (hstep : step s a = some s') : Booked s' ∧ Clean s' := by
  obtain ⟨hb, h⟩ := h
  refine ⟨step_booked s a s' hb hstep, ?_⟩
  cases a with
  | apply cfg =>
      cases hstep
      exact h.apply hok
  | stop =>
      cases hstep
      -- the controllers of the service are no signals of requests
      exact h.of_inherits rfl fun _ _ hc hearly => map_cancel_cases hc hearly
  | tick reachable =>
      cases hstep
      exact h
  | chat aborted =>
      cases hstep
      exact h.chat hok
  | abort i =>
      obtain ⟨c, hc, hrest⟩ := Option.bind_eq_some_iff.1 hstep
      split at hrest
      · cases hrest
      · cases hrest
        exact h.abort hc (hok c hc)
  | use i throws =>
      obtain ⟨c, hc, hrest⟩ := Option.bind_eq_some_iff.1 hstep
      split at hrest
      · cases hrest
      · split at hrest
        · cases hrest
          exact h.finish hb i false
        · cases hrest
          -- the call that starts is early no more
          refine h.of_inherits rfl fun k d hd hearly => ?_
          exact ⟨d, (modify_inherits (fun _ => rfl) hd hearly).2, hearly, rfl⟩
  | settle i ok =>
      obtain ⟨c, hc, hrest⟩ := Option.bind_eq_some_iff.1 hstep
      split at hrest
      · cases hrest
        exact h.finish hb i ok
      · cases hrest

theorem Clean.startsAllowed (h : Clean s) (a : Action) : StartsAllowed s a := by
  cases a with
  | use i throws =>
      cases throws with
      | false =>
          intro c hc hphase
          exact h i c hc (by rw [Call.early, hphase])
      | true =>
          trivial
  | _ =>
      trivial

/-- In every run in which nothing is called off at these moments, no backend is started for a call
whose signal is aborted, and none while the feature is switched off. -/
theorem no_start_called_off {as : List Action} (hok : Admits step Undisturbed start as) :
    Admits step StartsAllowed start as :=
  admits_of_admits step_clean (fun _ a h _ => h.2.startsAllowed a) ⟨start_booked, start_clean⟩ hok

/-- A call waits and its caller gives up; another is answered, and the feature is switched off. -/
theorem no_start_called_off_evening :
    Admits step StartsAllowed start [.apply ⟨true, .service⟩, .chat false, .use 0 false,
      .chat false, .chat false, .abort 2, .settle 0 true, .use 1 false, .apply ⟨false, .service⟩,
      .settle 1 false] :=
  no_start_called_off (by decide)

/-- A call waits while the feature is switched off, and is started when the call before it ends; a
signal is aborted before the call that has a slot goes on; a call comes with an aborted signal. -/
theorem started_called_off :
    ¬Admits step StartsAllowed start [.apply ⟨true, .service⟩, .chat false, .use 0 false,
        .chat false, .apply ⟨false, .service⟩, .settle 0 false, .use 1 false] ∧
      ¬Admits step StartsAllowed start [.apply ⟨true, .service⟩, .chat false, .abort 0,
        .use 0 false] ∧
      ¬Admits step StartsAllowed start [.apply ⟨true, .service⟩, .chat true, .use 0 false] := by
  decide

/-! ## The condition is exact -/

/-- A call that is still to be started has been called off. -/
def Doomed (s : AiService) (i : Nat) : Prop :=
  ∃ c, s.calls[i]? = some c ∧ c.early = true ∧ (c.aborted = true ∨ s.cfg.enabled = false)

/-- The service goes on by itself to a start that is not allowed. -/
def EndsBadly (s : AiService) : Prop :=
  ∃ as : List Action, (∀ a ∈ as, a.own = true) ∧ ¬Admits step StartsAllowed s as

theorem EndsBadly.of_step {a : Action} (hown : a.own = true) (hstep : step s a = some s')
    (h : EndsBadly s') : EndsBadly s := by
  obtain ⟨as, has, hbad⟩ := h
  refine ⟨a :: as, fun b hb => ?_, fun hok => hbad (hok.2 s' hstep)⟩
  rcases List.mem_cons.1 hb with rfl | hb
  · exact hown
  · exact has b hb

theorem endsBadly_of_granted (hc : s.calls[i]? = some c) (hphase : c.phase = .granted)
    (hoff : c.aborted = true ∨ s.cfg.enabled = false) : EndsBadly s := by
  refine ⟨[.use i false], fun a ha => ?_, fun hok => ?_⟩
  · rw [List.mem_singleton.1 ha]
    rfl
  · obtain ⟨haborted, henabled⟩ := hok.1 c hc hphase
    rcases hoff with hoff | hoff
    · rw [hoff] at haborted
      cases haborted
    · rw [hoff] at henabled
      cases henabled

theorem Doomed.finish {k : Nat} (h : Doomed s i) (hk : k ≠ i) (ok : Bool) :
    Doomed (s.finish k ok) i := by
  obtain ⟨c, hc, hearly, hoff⟩ := h
  rw [Doomed, finish_cfg, AiService.finish]
  rcases s.toSlots.release_cases with ⟨_, heq⟩ | ⟨j, js, _, heq⟩
  · rw [heq]
    dsimp only
    exact ⟨c, by rw [List.getElem?_modify_ne _ _ hk, hc], hearly, hoff⟩
  · rw [heq]
    dsimp only
    by_cases hj : j = i
    · -- the slot is passed to the call itself
      subst hj
      refine ⟨c.grant, ?_, rfl, hoff⟩
      rw [List.getElem?_modify_eq, List.getElem?_modify_ne _ _ hk, hc]
      rfl
    · exact ⟨c, by rw [List.getElem?_modify_ne _ _ hj, List.getElem?_modify_ne _ _ hk, hc], hearly,
        hoff⟩

theorem waiting_finish {k : Nat} (hwaiting : s.waiting ≠ []) (ok : Bool) :
    (s.finish k ok).waiting.length + 1 = s.waiting.length := by
  rw [AiService.finish]
  rcases s.toSlots.release_cases with ⟨hnobody, _⟩ | ⟨j, js, hcons, heq⟩
  · exact absurd hnobody hwaiting
  · rw [heq, hcons]
    rfl

/-- While a call waits, another one has the slot. -/
theorem Booked.exists_holds (h : Booked s) (hwaiting : s.waiting ≠ []) :
    ∃ (k : Nat) (d : Call), s.calls[k]? = some d ∧ d.holds = true := by
  have hactive : 0 < s.calls.countP Call.holds := by
    rw [h.count_holds, h.fits.taken hwaiting]
    decide
  obtain ⟨d, hmem, hholds⟩ := List.countP_pos_iff.1 hactive
  obtain ⟨k, hk⟩ := List.mem_iff_getElem?.1 hmem
  exact ⟨k, d, hk, hholds⟩

/-- What has been called off is started: the calls before it end one after the other.  The induction
is on the length of the queue, which gets shorter with every call that ends. -/
theorem Booked.endsBadly {n : Nat} :
    ∀ {s : AiService}, s.waiting.length < n → Booked s → Doomed s i → EndsBadly s := by
  induction n with
  | zero =>
      intro s hn
      exact absurd hn (Nat.not_lt_zero _)
  | succ n ih =>
      intro s hn hb hdoomed
      have hcall := hdoomed
      obtain ⟨c, hc, hearly, hoff⟩ := hcall
      cases hphase : c.phase with
      | granted =>
          exact endsBadly_of_granted hc hphase hoff
      | waiting =>
          have hmark : (s.calls.map Call.mark)[i]? = some .waits := by
            rw [List.getElem?_map, hc]
            simp [Call.mark, hphase]
          have hwaiting : s.waiting ≠ [] := List.ne_nil_of_mem ((hb.waits i).2 hmark)
          obtain ⟨k, d, hd, hholds⟩ := hb.exists_holds hwaiting
          have hk : k ≠ i := by
            rintro rfl
            rw [hc] at hd
            cases hd
            simp [Call.holds, hphase] at hholds
          -- the call that has the slot ends as soon as it runs
          have hend : ∀ {t : AiService} {d : Call}, Booked t → Doomed t i →
              t.waiting = s.waiting → t.calls[k]? = some d → d.runs = true → EndsBadly t := by
            intro t d ht hdoomed hsame hd hruns
            have hstep : step t (.settle k true) = some (t.finish k true) := by
              rw [step, hd, Option.bind_some, if_pos hruns]
            have hshort : (t.finish k true).waiting.length + 1 = t.waiting.length :=
              waiting_finish (hsame ▸ hwaiting) true
            refine .of_step rfl hstep (ih ?_ (step_booked _ _ _ ht hstep) (hdoomed.finish hk true))
            rw [hsame] at hshort
            omega
          cases hdphase : d.phase with
          | granted =>
              have hstep : step s (.use k false) = some { s with
                  calls := s.calls.modify k fun c => { c with phase := .running false } } := by
                rw [step, hd, Option.bind_some, if_neg (not_not.2 hdphase), if_neg Bool.noConfusion]
              refine .of_step rfl hstep (hend (step_booked _ _ _ hb hstep)
                ⟨c, ?_, hearly, hoff⟩ rfl (d := { d with phase := .running false }) ?_ rfl)
              · rw [List.getElem?_modify_ne _ _ hk, hc]
              · rw [List.getElem?_modify_eq, hd]
                rfl
          | running cancelled =>
              exact hend hb hdoomed rfl hd (by simp [Call.runs, hdphase])
          | _ =>
              simp [Call.holds, hdphase] at hholds
      | _ =>
          simp [Call.early, hphase] at hearly

/-- A step that breaks the condition leaves a call that has been called off and will be started. -/
theorem doomed_of_disturbed {a : Action} (h : Clean s) (hstep : step s a = some s')
    (hbad : ¬Undisturbed s a) : ∃ i, Doomed s' i := by
  cases a with
  | chat aborted =>
      cases hstep
      simp only [Undisturbed, not_or, Bool.not_eq_false] at hbad
      obtain ⟨rfl, hb, hroom⟩ := hbad
      have hlast : ∀ d : Call, (s.calls ++ [d])[s.calls.length]? = some d := by simp
      rcases chat_cases s true with ⟨hnone, _⟩ | ⟨b, _, ⟨_, heq⟩ | ⟨htaken, hfull, _⟩ | ⟨_, _, heq⟩⟩
      · -- refused as disabled, which the condition allows
        exact absurd hnone hb
      · rw [heq]
        -- it has the slot, and its signal is aborted
        exact ⟨_, _, hlast _, rfl, .inl rfl⟩
      · -- refused as busy, which it allows too
        exact absurd ⟨htaken, hfull⟩ hroom
      · rw [heq]
        -- it waits, and its signal is aborted
        exact ⟨_, _, hlast _, rfl, .inl rfl⟩
  | abort i =>
      obtain ⟨c, hc, hrest⟩ := Option.bind_eq_some_iff.1 hstep
      -- only between the slot and its use does an abort not stop the call
      have hphase : c.phase = .granted := by
        by_contra hne
        refine hbad fun d hd => ?_
        rw [hc] at hd
        cases hd
        exact hne
      split at hrest
      · cases hrest
      · cases hrest
        rw [AiService.abort, hphase]
        refine ⟨i, { c with aborted := true }, ?_, ?_, .inl rfl⟩
        · dsimp only
          rw [List.getElem?_modify_eq, hc]
          rfl
        · simp only [Call.early, hphase]
  | apply cfg =>
      cases hstep
      simp only [Undisturbed, not_or, Bool.not_eq_true, not_forall, Bool.not_eq_false] at hbad
      obtain ⟨hoff, c, hmem, hearly⟩ := hbad
      obtain ⟨i, hi⟩ := List.mem_iff_getElem?.1 hmem
      have hchanged : cfg ≠ s.cfg := by
        rintro rfl
        rw [(h i c hi hearly).2] at hoff
        cases hoff
      -- what is not running is left as it is when the feature is switched off
      rw [AiService.apply, if_neg hchanged, if_neg (by simp [hoff])]
      refine ⟨i, c.cancel, ?_, (cancel_early c).1.trans hearly, .inr hoff⟩
      dsimp only
      rw [List.getElem?_map, hi]
      rfl
  | _ =>
      exact absurd trivial hbad

theorem admits_own (s : AiService) {as : List Action} (hown : ∀ a ∈ as, a.own = true) :
    Admits step Undisturbed s as := by
  induction as generalizing s with
  | nil =>
      trivial
  | cons a as ih =>
      refine ⟨?_, fun s' _ => ih s' fun b hb => hown b (List.mem_cons_of_mem a hb)⟩
      have ha := hown a List.mem_cons_self
      cases a with
      | use i throws =>
          trivial
      | settle i ok =>
          trivial
      | _ =>
          cases ha

theorem Clean.not_endsBadly (h : Booked s ∧ Clean s) : ¬EndsBadly s := by
  rintro ⟨as, hown, hbad⟩
  exact hbad (admits_of_admits step_clean (fun _ a h _ => h.2.startsAllowed a) h
    (admits_own s hown))

theorem admits_of_not_endsBadly {as : List Action} (hs : Booked s ∧ Clean s)
    (hrun : exec step s as = some s') (hP : Throughout step (fun t => ¬EndsBadly t) s as) :
    Admits step Undisturbed s as := by
  induction as generalizing s with
  | nil =>
      trivial
  | cons a as ih =>
      obtain ⟨t, ht, hrest⟩ := exec_cons.1 hrun
      have hok : Undisturbed s a := by
        by_contra hbad
        obtain ⟨i, hdoomed⟩ := doomed_of_disturbed hs.2 ht hbad
        exact (hP.2 t ht).head
          ((step_booked s a t hs.1 ht).endsBadly (Nat.lt_succ_self _) hdoomed)
      refine ⟨hok, fun t' ht' => ?_⟩
      obtain rfl : t = t' := Option.some.inj (ht.symm.trans ht')
      exact ih (step_clean s a t hs hok ht) hrest (hP.2 t ht)

/-- The condition is exact: a run meets it if and only if the service, left to itself after any of
its steps, starts no backend that was called off. -/
theorem undisturbed_iff {as : List Action} (hrun : exec step start as = some s) :
    Admits step Undisturbed start as ↔ Throughout step (fun t => ¬EndsBadly t) start as := by
  have hstart : Booked start ∧ Clean start := ⟨start_booked, start_clean⟩
  exact ⟨throughout_of_admits step_clean (fun _ => Clean.not_endsBadly) hstart,
    admits_of_not_endsBadly hstart hrun⟩

end AiService

end Ai
end GateControl
