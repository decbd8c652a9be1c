import GateControl.Library.Reconcile
import GateControl.Near.Redirects

/-!
# Converge — the rules after the last call

A call that runs alone brings the rules into line with its routes if each rule is there once at most
and the manager remembers it (`Inv`).  Calls that overlap keep this up only as long as none appends
a rule that another has appended since it looked, and none makes the manager forget a rule that is
there.  `redirects_converge` is about the runs whose steps keep to that.
-/

namespace GateControl
namespace Near

open Library

theorem mem_desired {routes : List Route} {k : Redirect} :
    k ∈ desired routes ↔ k ∈ routes.map Route.redirect := by
  have hfold : ∀ (routes : List Route) (m : OrderedSet Redirect),
      k ∈ (routes.foldl (fun m r => OrderedSet.add m r.redirect) m).keys ↔
        k ∈ m.keys ∨ k ∈ routes.map Route.redirect := by
    intro routes
    induction routes with
    | nil =>
        simp
    | cons r routes ih =>
        intro m
        rw [List.foldl_cons, ih, OrderedSet.mem_keys_add, List.map_cons, List.mem_cons]
        grind
  rw [desired, hfold]
  exact ⟨fun h => h.resolve_left (OrderedMap.not_mem_keys_empty k), Or.inr⟩

theorem desired_nodup (routes : List Route) : (desired routes).Nodup := OrderedMap.nodup _

/-- What the calls that are bringing the rules into line want. -/
def pursued (calls : List Call) : List Redirect :=
  calls.flatMap fun c => if c.stage.isReconciling then desired c.routes else []

theorem mem_pursued {calls : List Call} {k : Redirect} :
    k ∈ pursued calls ↔ ∃ c ∈ calls, c.stage.isReconciling = true ∧ k ∈ desired c.routes := by
  rw [pursued, List.mem_flatMap]
  refine exists_congr fun c => and_congr_right fun _ => ?_
  by_cases hc : c.stage.isReconciling = true
  · simp [hc]
  · simp [hc]

/-- What one call wants, and what the others do. -/
theorem mem_pursued_iff {calls : List Call} {i : Nat} {c : Call} (hc : calls[i]? = some c)
    {k : Redirect} : k ∈ pursued calls ↔
      (c.stage.isReconciling = true ∧ k ∈ desired c.routes) ∨ k ∈ pursued (calls.eraseIdx i) := by
  simp only [mem_pursued]
  constructor
  · rintro ⟨d, hd, hk⟩
    rcases List.mem_iff_getElem?.1 hd with ⟨j, hj⟩
    by_cases hji : j = i
    · subst hji
      cases hc.symm.trans hj
      exact Or.inl hk
    · exact Or.inr ⟨d, List.mem_eraseIdx_iff_getElem?.2 ⟨j, hji, hj⟩, hk⟩
  · rintro (hk | ⟨d, hd, hk⟩)
    · exact ⟨c, List.mem_of_getElem? hc, hk⟩
    · exact ⟨d, List.mem_of_mem_eraseIdx hd, hk⟩

namespace NearManager

variable {s s' t : NearManager} {c : Call} {o : Outcome} {k : Redirect} {ks : List Redirect}

/-- The redirects that the manager remembers, or that a call is going to make it remember. -/
def known (s : NearManager) : List Redirect := s.activeRedirects ++ pursued s.calls

/-! ## The condition -/

/-- What the manager remembers when a call has ended, `others` being what other calls want. -/
def remembered (s : NearManager) (c : Call) (others : List Redirect) : Outcome → List Redirect
  | .cleared => others
  | .replaced => desired c.routes ++ others
  | .threw => s.activeRedirects ++ others
  | .goesOn _ | .done => s.rules

/-- A rule is appended only if it is missing and the manager remembers it, and when a call ends,
every rule that is there is remembered. -/
def InOrder (s : NearManager) (a : Action) : Prop :=
  (∀ o ∈ s.outcome a, ∀ k ∈ s.rules,
      k ∈ s.remembered o.2.1 (pursued (s.calls.eraseIdx o.1)) o.2.2) ∧
    match a with
    | .exec i true => ∀ c ∈ s.calls[i]?, ∀ k ∈ c.stage.command,
        k.1 = .append → k.2 ∉ s.rules ∧ k.2 ∈ s.known
    | _ => True

instance (a : Action) : Decidable (s.InOrder a) := by
  unfold InOrder
  cases a with
  | exec i works =>
      cases works with
      | true => exact inferInstanceAs (Decidable ((∀ _ ∈ _, ∀ _ ∈ _, _) ∧ (∀ _ ∈ _, ∀ _ ∈ _, _)))
      | false => exact inferInstanceAs (Decidable ((∀ _ ∈ _, ∀ _ ∈ _, _) ∧ True))
  | apply _ => exact inferInstanceAs (Decidable ((∀ _ ∈ _, ∀ _ ∈ _, _) ∧ True))
  | probed _ _ => exact inferInstanceAs (Decidable ((∀ _ ∈ _, ∀ _ ∈ _, _) ∧ True))
  | passed _ _ => exact inferInstanceAs (Decidable ((∀ _ ∈ _, ∀ _ ∈ _, _) ∧ True))
  | resume _ => exact inferInstanceAs (Decidable ((∀ _ ∈ _, ∀ _ ∈ _, _) ∧ True))

/-! ## The invariant -/

/-- How far a call is: an ending call has checked every redirect that it wants, and only one without
routes clears. -/
def Progress (c : Call) : Prop :=
  match c.stage with
  | .killing => c.routes = []
  | .clearing .. => c.routes = []
  | .ensuring k rest _ =>
      k.isValid = true ∧ ∀ d ∈ desired c.routes, d = k ∨ d ∈ rest ∨ d.isValid = true
  | _ => True

/-- The rules are known to the manager, and what it remembers of its last call is true. -/
structure Inv (s : NearManager) : Prop where
  owned : Owned s.rules s.known
  progress : ∀ c ∈ s.calls, Progress c
  placed : s.active < s.maps.length
  nodup : s.activeRedirects.Nodup
  valid : ∀ k ∈ s.activeRedirects, k.isValid = true
  sig : ∀ σ ∈ s.lastSig, ∀ k, k ∈ s.activeRedirects ↔ k ∈ σ.redirects

theorem new_inv (u : Setup) : (new u).Inv where
  owned := ⟨List.nodup_nil, fun _ hk => (by cases hk)⟩
  progress := fun _ hc => (by cases hc)
  placed := Nat.zero_lt_one
  nodup := List.nodup_nil
  valid := fun _ hk => (by cases hk)
  sig := fun _ hσ => (by cases hσ)

/-! ### The outcomes -/

/-- What an outcome says about the call it is an outcome of. -/
def Fits (routes : List Route) (reconciling : Bool) : Outcome → Prop
  | .goesOn stage =>
      (reconciling = true → stage.isReconciling = true) ∧ Progress ⟨routes, stage, none⟩
  | .cleared => routes = []
  | .replaced => ∀ d ∈ desired routes, d.isValid = true
  | .threw => True
  | .done => reconciling = false

theorem fits_clear {routes : List Route} (hr : routes = []) (map : Nat) (ks : List Redirect) :
    Fits routes false (clear map ks) := by
  cases ks with
  | nil =>
      exact hr
  | cons k rest =>
      rw [clear]
      split
      · exact ⟨fun h => (by cases h), hr⟩
      · trivial

theorem fits_reensure (routes : List Route) (map : Nat) (ks : List Redirect) :
    Fits routes false (reensure map ks) := by
  cases ks with
  | nil =>
      rfl
  | cons k rest =>
      rw [reensure]
      split
      · exact ⟨fun h => (by cases h), trivial⟩
      · trivial

theorem fits_ensureDesired {routes : List Route}
    (h : ∀ d ∈ desired routes, d ∈ ks ∨ d.isValid = true) (b : Bool) :
    Fits routes b (ensureDesired ks) := by
  cases ks with
  | nil =>
      exact fun d hd => (h d hd).resolve_left (by simp)
  | cons k rest =>
      rw [ensureDesired]
      split
      · next hk =>
          refine ⟨fun _ => rfl, hk, fun d hd => ?_⟩
          rcases h d hd with hin | hvalid
          · rcases List.mem_cons.1 hin with heq | hrest
            · exact Or.inl heq
            · exact Or.inr (Or.inl hrest)
          · exact Or.inr (Or.inr hvalid)
      · trivial

theorem fits_removeStale (routes : List Route) (map : Nat) (ks : List Redirect) (b : Bool) :
    Fits routes b (removeStale (desired routes) map ks) := by
  induction ks with
  | nil =>
      exact fits_ensureDesired (fun d hd => Or.inl hd) b
  | cons k rest ih =>
      rw [removeStale]
      split
      · exact ih
      · split
        · exact ⟨fun _ => rfl, trivial⟩
        · trivial

theorem fits_addNew (routes : List Route) (ks : List Redirect) (b : Bool) :
    Fits routes b (s.addNew (desired routes) ks) := by
  induction ks with
  | nil =>
      exact fits_removeStale routes _ _ b
  | cons k rest ih =>
      rw [addNew]
      split
      · exact ih
      · split
        · exact ⟨fun _ => rfl, trivial⟩
        · trivial

theorem fits_afterProbe (c : Call) (running : Bool) :
    Fits c.routes false (s.afterProbe c running) := by
  unfold afterProbe
  split
  · next hr =>
      split
      · exact ⟨fun h => (by cases h), hr⟩
      · exact fits_clear hr _ _
  · split
    · exact fits_reensure _ _ _
    · exact ⟨fun h => (by cases h), trivial⟩

theorem fits_afterWait (h : Progress c) {ok : Bool} (ho : s.afterWait c ok = some o) :
    Fits c.routes c.stage.isReconciling o := by
  obtain ⟨routes, stage, answer⟩ := c
  cases stage with
  | killing =>
      cases ho
      -- the proxy is gone, what is remembered is taken out
      exact fits_clear h _ _
  | writing n =>
      cases ok with
      | false =>
          cases ho
          trivial
      | true =>
          cases n with
          | zero =>
              cases ho
              exact ⟨fun h => (by cases h), trivial⟩
          | succ n =>
              cases ho
              exact ⟨fun h => (by cases h), trivial⟩
  | starting =>
      cases ho
      -- the proxy runs, the new redirects come first
      exact fits_addNew _ _ _
  | probing => cases ho
  | clearing => cases ho
  | reensuring => cases ho
  | adding => cases ho
  | removing => cases ho
  | ensuring => cases ho

theorem fits_afterCommand (h : Progress c) {answer : Bool} (ho : s.afterCommand c answer = some o) :
    Fits c.routes c.stage.isReconciling o := by
  obtain ⟨routes, stage, _⟩ := c
  cases stage with
  | clearing map k rest =>
      cases ho
      exact fits_clear h _ _
  | reensuring map k rest adds =>
      simp only [afterCommand] at ho
      split at ho
      · cases ho
        exact fits_reensure _ _ _
      · cases ho
        exact ⟨fun h => (by cases h), trivial⟩
  | adding k rest adds =>
      simp only [afterCommand] at ho
      split at ho
      · cases ho
        exact fits_addNew _ _ _
      · cases ho
        exact ⟨fun _ => rfl, trivial⟩
  | removing map k rest =>
      cases ho
      exact fits_removeStale _ _ _ _
  | ensuring k rest adds =>
      simp only [afterCommand] at ho
      split at ho
      · cases ho
        -- the rule that was added is one more that is ensured
        refine fits_ensureDesired (fun d hd => ?_) _
        rcases h.2 d hd with rfl | hrest | hvalid
        · exact Or.inr h.1
        · exact Or.inl hrest
        · exact Or.inr hvalid
      · cases ho
        exact ⟨fun _ => rfl, h⟩
  | probing => cases ho
  | killing => cases ho
  | writing => cases ho
  | starting => cases ho

theorem fits_outcome (h : s.Inv) {a : Action} {i : Nat} (ho : s.outcome a = some (i, c, o)) :
    s.calls[i]? = some c ∧ Fits c.routes c.stage.isReconciling o := by
  cases a with
  | probed j running =>
      rcases Option.bind_eq_some_iff.1 ho with ⟨d, hd, hrest⟩
      split at hrest
      · next hstage =>
          cases hrest
          refine ⟨hd, ?_⟩
          rw [hstage]
          exact fits_afterProbe c running
      · cases hrest
  | passed j ok =>
      rcases Option.bind_eq_some_iff.1 ho with ⟨d, hd, hrest⟩
      rcases Option.map_eq_some_iff.1 hrest with ⟨_, hwait, heq⟩
      cases heq
      exact ⟨hd, fits_afterWait (h.progress c (List.mem_of_getElem? hd)) hwait⟩
  | resume j =>
      rcases Option.bind_eq_some_iff.1 ho with ⟨d, hd, hrest⟩
      rcases Option.bind_eq_some_iff.1 hrest with ⟨answer, _, hcmd⟩
      rcases Option.map_eq_some_iff.1 hcmd with ⟨_, hafter, heq⟩
      cases heq
      exact ⟨hd, fits_afterCommand (h.progress c (List.mem_of_getElem? hd)) hafter⟩
  | apply routes => cases ho
  | exec j works => cases ho

/-! ### Steps -/

theorem pursued_set {calls : List Call} {i : Nat} {d : Call} (hc : calls[i]? = some c) :
    k ∈ pursued (calls.set i d) ↔
      (d.stage.isReconciling = true ∧ k ∈ desired d.routes) ∨ k ∈ pursued (calls.eraseIdx i) := by
  have hlt := (List.getElem?_eq_some_iff.1 hc).1
  rw [mem_pursued_iff (List.getElem?_set_self hlt), List.eraseIdx_set_eq]

theorem Inv.apply (h : s.Inv) (egressRoutes : List Route) : (s.apply egressRoutes).Inv := by
  unfold NearManager.apply
  split
  · exact h
  · refine ⟨⟨h.owned.1, fun k hk => ?_⟩, fun c hc => ?_, h.placed, h.nodup, h.valid, h.sig⟩
    · rcases List.mem_append.1 (h.owned.2 k hk) with hact | hpur
      · exact List.mem_append_left _ hact
      · rcases mem_pursued.1 hpur with ⟨c, hc, hrec⟩
        exact List.mem_append_right _ (mem_pursued.2 ⟨c, List.mem_append_left _ hc, hrec⟩)
    · rcases List.mem_append.1 hc with hold | hnew
      · exact h.progress c hold
      · rw [List.mem_singleton.1 hnew]
        trivial

/-- A command changes the answer of its call, and by one rule at most the rules. -/
theorem Inv.execute (h : s.Inv) {i : Nat} (hc : s.calls[i]? = some c) (answer : Option Bool)
    {rules : List Redirect} (hn : rules.Nodup) (hr : ∀ k ∈ rules, k ∈ s.known) :
    Inv { s with rules := rules, calls := s.calls.set i { c with answer := answer } } := by
  refine ⟨⟨hn, fun k hk => ?_⟩, fun d hd => ?_, h.placed, h.nodup, h.valid, h.sig⟩
  · rcases List.mem_append.1 (hr k hk) with hact | hpur
    · exact List.mem_append_left _ hact
    · exact List.mem_append_right _ ((pursued_set hc).2 ((mem_pursued_iff hc).1 hpur))
  · rcases List.mem_or_eq_of_mem_set hd with hold | rfl
    · exact h.progress d hold
    · exact h.progress c (List.mem_of_getElem? hc)

theorem Inv.exec (h : s.Inv) {i : Nat} {works : Bool} (hok : s.InOrder (.exec i works))
    (hs : s.step (.exec i works) = some s') : s'.Inv := by
  rcases Option.bind_eq_some_iff.1 hs with ⟨c, hc, hrest⟩
  split at hrest
  · rcases Option.map_eq_some_iff.1 hrest with ⟨⟨verb, k⟩, hcmd, rfl⟩
    cases verb with
    | check =>
        exact h.execute hc _ h.owned.1 h.owned.2
    | append =>
        cases works with
        | false => exact h.execute hc _ h.owned.1 h.owned.2
        | true =>
            obtain ⟨hnew, hknown⟩ := hok.2 c hc _ hcmd rfl
            refine h.execute hc _ ?_ fun j hj => ?_
            · exact List.nodup_append.2 ⟨h.owned.1, List.nodup_singleton k, fun a ha b hb hab =>
                hnew ((List.mem_singleton.1 hb) ▸ hab ▸ ha)⟩
            · rcases List.mem_append.1 hj with hold | hj'
              · exact h.owned.2 j hold
              · rw [List.mem_singleton.1 hj']
                exact hknown
    | delete =>
        cases works with
        | false => exact h.execute hc _ h.owned.1 h.owned.2
        | true =>
            exact h.execute hc _ (h.owned.1.erase k) fun j hj =>
              h.owned.2 j (List.mem_of_mem_erase hj)
  · cases hrest

/-- The call goes on or ends, and what is there stays remembered. -/
theorem Inv.settle (h : s.Inv) {i : Nat} (hc : s.calls[i]? = some c)
    (hfits : Fits c.routes c.stage.isReconciling o)
    (hok : ∀ k ∈ s.rules, k ∈ s.remembered c (pursued (s.calls.eraseIdx i)) o) :
    (s.settle i c o).Inv := by
  have hrest : ∀ d ∈ s.calls.eraseIdx i, Progress d :=
    fun d hd => h.progress d (List.mem_of_mem_eraseIdx hd)
  cases o with
  | goesOn stage =>
      refine ⟨⟨h.owned.1, fun k hk => ?_⟩, fun d hd => ?_, h.placed, h.nodup, h.valid, h.sig⟩
      · rcases List.mem_append.1 (h.owned.2 k hk) with hact | hpur
        · exact List.mem_append_left _ hact
        · refine List.mem_append_right _ ((pursued_set hc).2 ?_)
          -- what this call pursues it goes on to pursue
          rcases (mem_pursued_iff hc).1 hpur with ⟨hrec, hdes⟩ | hother
          · exact Or.inl ⟨hfits.1 hrec, hdes⟩
          · exact Or.inr hother
      · rcases List.mem_or_eq_of_mem_set hd with hold | rfl
        · exact h.progress d hold
        · exact hfits.2
  | cleared =>
      -- nothing is remembered any more, as there are no routes
      have hmap : (s.maps.set s.active []).getD s.active [] = [] := by
        rw [List.getD_eq_getElem?_getD, List.getElem?_set_self h.placed]
        rfl
      have hact : (s.settle i c .cleared).activeRedirects = [] := hmap
      refine ⟨⟨h.owned.1, fun k hk => List.mem_append_right _ (hok k hk)⟩, hrest, ?_, ?_, ?_, ?_⟩
      · simpa [NearManager.settle] using h.placed
      · rw [hact]
        exact List.nodup_nil
      · rw [hact]
        intro k hk
        cases hk
      · intro σ hσ k
        cases hσ
        rw [hact]
        simp [signature, show c.routes = [] from hfits]
  | replaced =>
      -- a new map with what the routes want
      have hact : (s.settle i c .replaced).activeRedirects = desired c.routes := by
        change (s.maps ++ [desired c.routes]).getD s.maps.length [] = _
        rw [List.getD_eq_getElem?_getD, List.getElem?_concat_length]
        rfl
      refine ⟨⟨h.owned.1, fun k hk => ?_⟩, hrest, ?_, ?_, ?_, ?_⟩
      · rw [known, hact]
        exact hok k hk
      · simp [NearManager.settle]
      · rw [hact]
        exact desired_nodup c.routes
      · rw [hact]
        exact hfits
      · intro σ hσ k
        cases hσ
        rw [hact, mem_desired]
        exact Iff.rfl
  | threw =>
      exact ⟨⟨h.owned.1, hok⟩, hrest, h.placed, h.nodup, h.valid, h.sig⟩
  | done =>
      refine ⟨⟨h.owned.1, fun k hk => ?_⟩, hrest, h.placed, h.nodup, h.valid, h.sig⟩
      rcases List.mem_append.1 (h.owned.2 k hk) with hact | hpur
      · exact List.mem_append_left _ hact
      · rcases (mem_pursued_iff hc).1 hpur with ⟨hrec, _⟩ | hother
        · -- a call that is merely looking wants nothing
          rw [show c.stage.isReconciling = false from hfits] at hrec
          cases hrec
        · exact List.mem_append_right _ hother

theorem Inv.step (h : s.Inv) {a : Action} (hok : s.InOrder a) (hs : s.step a = some s') :
    s'.Inv := by
  have hsettle : ∀ x, s.outcome a = some x → (s.settle x.1 x.2.1 x.2.2).Inv := by
    rintro ⟨i, c, o⟩ ho
    obtain ⟨hc, hfits⟩ := fits_outcome h ho
    exact h.settle hc hfits fun k hk => hok.1 _ ho k hk
  cases a with
  | apply egressRoutes =>
      cases hs
      exact h.apply egressRoutes
  | exec i works =>
      exact h.exec hok hs
  | probed i running =>
      rcases Option.map_eq_some_iff.1 hs with ⟨x, hx, rfl⟩
      exact hsettle x hx
  | passed i ok =>
      rcases Option.map_eq_some_iff.1 hs with ⟨x, hx, rfl⟩
      exact hsettle x hx
  | resume i =>
      rcases Option.map_eq_some_iff.1 hs with ⟨x, hx, rfl⟩
      exact hsettle x hx

/-! ## A call that runs alone -/

/-- What a single call does when every command that is possible succeeds. -/
def alone (running : Bool) : List Action :=
  [.probed 0 running, .passed 0 true, .exec 0 true, .resume 0]

/-- Such actions lead from one state to another. -/
def Reaches (running : Bool) (s t : NearManager) : Prop :=
  ∃ as, (∀ a ∈ as, a ∈ alone running) ∧ exec step s as = some t

variable {running : Bool} {routes : List Route}

theorem Reaches.refl (s : NearManager) : Reaches running s s :=
  ⟨[], fun _ h => (by cases h), rfl⟩

theorem Reaches.trans (h : Reaches running s s') (h' : Reaches running s' t) :
    Reaches running s t := by
  rcases h with ⟨as, has, hs⟩
  rcases h' with ⟨bs, hbs, ht⟩
  refine ⟨as ++ bs, fun a ha => ?_, exec_append.2 ⟨s', hs, ht⟩⟩
  rcases List.mem_append.1 ha with h | h
  · exact has a h
  · exact hbs a h

theorem Reaches.one {a : Action} (ha : a ∈ alone running) (hs : s.step a = some t) :
    Reaches running s t :=
  ⟨[a], fun _ hb => (List.mem_singleton.1 hb) ▸ ha, exec_cons.2 ⟨t, hs, rfl⟩⟩

/-- The state with a single call that goes on or ends. -/
def went (s : NearManager) (routes : List Route) (o : Outcome) : NearManager :=
  { s with calls := [⟨routes, .probing, none⟩] }.settle 0 ⟨routes, .probing, none⟩ o

theorem settle_single (stage : Stage) (answer : Option Bool) (o : Outcome) :
    { s with calls := [⟨routes, stage, answer⟩] }.settle 0 ⟨routes, stage, answer⟩ o =
      s.went routes o := by
  cases o with
  | goesOn stage => rfl
  | cleared => rfl
  | replaced => rfl
  | threw => rfl
  | done => rfl

/-- A wait that is not for a rule ends well. -/
theorem Reaches.wait {stage : Stage}
    (hafter : (s.went routes (.goesOn stage)).afterWait ⟨routes, stage, none⟩ true = some o) :
    Reaches running (s.went routes (.goesOn stage)) (s.went routes o) := by
  refine Reaches.one (a := .passed 0 true) (by simp [alone]) ?_
  change Option.map _ (Option.map _ ((s.went routes (.goesOn stage)).afterWait
    ⟨routes, stage, none⟩ true)) = _
  rw [hafter]
  exact congrArg some (settle_single stage none o)

/-- A command is carried out, and the call goes on. -/
theorem Reaches.command (rules : List Redirect) (answer : Bool) {stage : Stage} {verb : Verb}
    (hcmd : stage.command = some (verb, k))
    (hexec : { s with calls := [⟨routes, stage, none⟩] }.execute 0 ⟨routes, stage, none⟩ true
      (verb, k) = { s with rules := rules, calls := [⟨routes, stage, some answer⟩] })
    (hafter : { s with rules := rules, calls := [⟨routes, stage, some answer⟩] }.afterCommand
      ⟨routes, stage, some answer⟩ answer = some o) :
    Reaches running (s.went routes (.goesOn stage)) (went { s with rules := rules } routes o) := by
  have hone : (s.went routes (.goesOn stage)).step (.exec 0 true) =
      some { s with rules := rules, calls := [⟨routes, stage, some answer⟩] } := by
    change Option.map _ stage.command = _
    rw [hcmd]
    exact congrArg some hexec
  have htwo : step { s with rules := rules, calls := [⟨routes, stage, some answer⟩] } (.resume 0) =
      some (went { s with rules := rules } routes o) := by
    change Option.map _ (Option.map _ (afterCommand _ _ _)) = _
    rw [hafter]
    exact congrArg some (settle_single (s := { s with rules := rules }) stage (some answer) o)
  exact (Reaches.one (by simp [alone]) hone).trans (Reaches.one (by simp [alone]) htwo)

/-- A redirect is looked for and appended if it is missing. -/
theorem Reaches.ensure (stage : Bool → Stage)
    (hcmd : ∀ adds, (stage adds).command = some (if adds then .append else .check, k))
    (hafter : ∀ rules calls c adds answer, c.routes = routes → c.stage = stage adds →
      { s with rules := rules, calls := calls }.afterCommand c answer =
        some (if adds || answer then o else .goesOn (stage true))) :
    Reaches running (s.went routes (.goesOn (stage false)))
      (went { s with rules := ensure s.rules k } routes o) := by
  by_cases hk : k ∈ s.rules
  · rw [show Library.ensure s.rules k = s.rules from if_pos hk]
    refine Reaches.command s.rules true (hcmd false) ?_ (hafter _ _ _ false true rfl rfl)
    simp [execute, hk]
  · rw [show Library.ensure s.rules k = s.rules ++ [k] from if_neg hk]
    have hcheck : Reaches running (s.went routes (.goesOn (stage false)))
        (s.went routes (.goesOn (stage true))) := by
      refine Reaches.command s.rules false (hcmd false) ?_ (hafter _ _ _ false false rfl rfl)
      simp [execute, hk]
    refine hcheck.trans
      (Reaches.command (s.rules ++ [k]) true (hcmd true) ?_ (hafter _ _ _ true true rfl rfl))
    simp [execute]

/-- How a call goes on next when it is the only one. -/
def turn (running : Bool) (c : Call) : Action :=
  match c.stage with
  | .probing => .probed 0 running
  | .killing | .writing _ | .starting => .passed 0 true
  | _ => if c.answer.isNone then .exec 0 true else .resume 0

theorem eq_turn {a : Action} (ha : a ∈ alone running) (hs : s.step a = some t) :
    ∃ c, s.calls[0]? = some c ∧ a = turn running c := by
  simp only [alone, List.mem_cons, List.not_mem_nil, or_false] at ha
  rcases ha with rfl | rfl | rfl | rfl
  · -- each kind of action belongs to some stages only; in the others the step is none
    rcases Option.map_eq_some_iff.1 hs with ⟨_, hout, _⟩
    rcases Option.bind_eq_some_iff.1 hout with ⟨c, hc, hrest⟩
    split at hrest
    · next hstage => exact ⟨c, hc, by rw [turn, hstage]⟩
    · cases hrest
  · rcases Option.map_eq_some_iff.1 hs with ⟨_, hout, _⟩
    rcases Option.bind_eq_some_iff.1 hout with ⟨⟨routes, stage, answer⟩, hc, hrest⟩
    refine ⟨_, hc, ?_⟩
    cases stage with
    | killing => rfl
    | writing => rfl
    | starting => rfl
    | probing => cases hrest
    | clearing => cases hrest
    | reensuring => cases hrest
    | adding => cases hrest
    | removing => cases hrest
    | ensuring => cases hrest
  · rcases Option.bind_eq_some_iff.1 hs with ⟨⟨routes, stage, answer⟩, hc, hrest⟩
    refine ⟨_, hc, ?_⟩
    split at hrest
    · next hnone =>
        cases stage with
        | probing => cases hrest
        | killing => cases hrest
        | writing => cases hrest
        | starting => cases hrest
        | clearing => exact (if_pos hnone).symm
        | reensuring => exact (if_pos hnone).symm
        | adding => exact (if_pos hnone).symm
        | removing => exact (if_pos hnone).symm
        | ensuring => exact (if_pos hnone).symm
    · cases hrest
  · rcases Option.map_eq_some_iff.1 hs with ⟨_, hout, _⟩
    rcases Option.bind_eq_some_iff.1 hout with ⟨⟨routes, stage, answer⟩, hc, hrest⟩
    rcases Option.bind_eq_some_iff.1 hrest with ⟨b, hb, hcmd⟩
    have hsome : ¬answer.isNone = true := by
      rw [show answer = some b from hb]
      exact Bool.false_ne_true
    refine ⟨_, hc, ?_⟩
    cases stage with
    | probing => cases hcmd
    | killing => cases hcmd
    | writing => cases hcmd
    | starting => cases hcmd
    | clearing => exact (if_neg hsome).symm
    | reensuring => exact (if_neg hsome).symm
    | adding => exact (if_neg hsome).symm
    | removing => exact (if_neg hsome).symm
    | ensuring => exact (if_neg hsome).symm

/-- At each point a single call has one way to go on. -/
theorem alone_one {a b : Action} (ha : a ∈ alone running) (hb : b ∈ alone running)
    (hsa : (s.step a).isSome = true) (hsb : (s.step b).isSome = true) : a = b := by
  rcases Option.isSome_iff_exists.1 hsa with ⟨_, hsa⟩
  rcases Option.isSome_iff_exists.1 hsb with ⟨_, hsb⟩
  rcases eq_turn ha hsa with ⟨c, hc, rfl⟩
  rcases eq_turn hb hsb with ⟨d, hd, rfl⟩
  exact congrArg (turn running) (Option.some.inj (hc.symm.trans hd))

/-- Without a call there is no way to go on. -/
theorem alone_none (hs : s.calls = []) {a : Action} (ha : a ∈ alone running) : s.step a = none := by
  cases hstep : s.step a with
  | none => rfl
  | some t =>
      rcases eq_turn ha hstep with ⟨c, hc, _⟩
      rw [hs] at hc
      cases hc

/-! ### The loops -/

theorem reaches_clear {map : Nat} (hvalid : ∀ k ∈ ks, k.isValid = true)
    (hmap : ks ≠ [] → s.mapAt map ≠ []) :
    Reaches running (s.went routes (clear map ks))
      (went { s with rules := deleteAll s.rules ks } routes .cleared) := by
  induction ks generalizing s with
  | nil =>
      exact Reaches.refl _
  | cons k rest ih =>
      have hgoes : clear map (k :: rest) = .goesOn (.clearing map k rest) :=
        if_pos (hvalid k List.mem_cons_self)
      have hleft : s.left map rest = rest := if_neg (hmap (List.cons_ne_nil k rest))
      rw [hgoes]
      have hone : Reaches running (s.went routes (.goesOn (.clearing map k rest)))
          (went { s with rules := s.rules.erase k } routes (clear map rest)) := by
        refine Reaches.command (s.rules.erase k) true rfl rfl ?_
        exact congrArg (fun ks => some (clear map ks)) hleft
      exact hone.trans (ih (s := { s with rules := s.rules.erase k })
        (fun j hj => hvalid j (List.mem_cons_of_mem k hj))
        (fun _ => hmap (List.cons_ne_nil k rest)))

theorem reaches_reensure {map : Nat} (hvalid : ∀ k ∈ ks, k.isValid = true)
    (hmap : ks ≠ [] → s.mapAt map ≠ []) :
    Reaches running (s.went routes (reensure map ks))
      (went { s with rules := ensureAll s.rules ks } routes .done) := by
  induction ks generalizing s with
  | nil =>
      exact Reaches.refl _
  | cons k rest ih =>
      have hgoes : reensure map (k :: rest) = .goesOn (.reensuring map k rest false) :=
        if_pos (hvalid k List.mem_cons_self)
      have hleft : s.left map rest = rest := if_neg (hmap (List.cons_ne_nil k rest))
      rw [hgoes]
      have hone : Reaches running (s.went routes (.goesOn (.reensuring map k rest false)))
          (went { s with rules := Library.ensure s.rules k } routes (reensure map rest)) := by
        refine Reaches.ensure (Stage.reensuring map k rest) (fun _ => rfl) ?_
        rintro rules calls ⟨_, _, ans⟩ adds answer rfl rfl
        change (if adds || answer then some (reensure map (s.left map rest)) else _) = _
        rw [hleft, apply_ite some]
      exact hone.trans (ih (s := { s with rules := Library.ensure s.rules k })
        (fun j hj => hvalid j (List.mem_cons_of_mem k hj))
        (fun _ => hmap (List.cons_ne_nil k rest)))

theorem reaches_ensureDesired (hvalid : ∀ k ∈ ks, k.isValid = true) :
    Reaches running (s.went routes (ensureDesired ks))
      (went { s with rules := ensureAll s.rules ks } routes .replaced) := by
  induction ks generalizing s with
  | nil =>
      exact Reaches.refl _
  | cons k rest ih =>
      have hgoes : ensureDesired (k :: rest) = .goesOn (.ensuring k rest false) :=
        if_pos (hvalid k List.mem_cons_self)
      rw [hgoes]
      have hone : Reaches running (s.went routes (.goesOn (.ensuring k rest false)))
          (went { s with rules := Library.ensure s.rules k } routes (ensureDesired rest)) := by
        refine Reaches.ensure (Stage.ensuring k rest) (fun _ => rfl) ?_
        rintro rules calls ⟨_, _, ans⟩ adds answer rfl rfl
        exact (apply_ite some _ _ _).symm
      exact hone.trans (ih (s := { s with rules := Library.ensure s.rules k })
        fun j hj => hvalid j (List.mem_cons_of_mem k hj))

theorem reaches_removeStale {map : Nat} (hvalid : ∀ k ∈ ks, k.isValid = true)
    (hmap : ks ≠ [] → s.mapAt map ≠ []) :
    Reaches running (s.went routes (removeStale (desired routes) map ks))
      (went { s with rules := deleteAll s.rules (ks.filter (· ∉ desired routes)) } routes
        (ensureDesired (desired routes))) := by
  induction ks generalizing s with
  | nil =>
      exact Reaches.refl _
  | cons k rest ih =>
      have hrest : ∀ j ∈ rest, j.isValid = true := fun j hj => hvalid j (List.mem_cons_of_mem k hj)
      have hmap' : s.mapAt map ≠ [] := hmap (List.cons_ne_nil k rest)
      by_cases hk : k ∈ desired routes
      · -- wanted, so it is left
        have hskip : removeStale (desired routes) map (k :: rest) =
            removeStale (desired routes) map rest := if_pos hk
        have hfilter : (k :: rest).filter (· ∉ desired routes) =
            rest.filter (· ∉ desired routes) := List.filter_cons_of_neg (by simpa using hk)
        rw [hskip, hfilter]
        exact ih hrest fun _ => hmap'
      · -- stale, so its rule is deleted
        have hgoes : removeStale (desired routes) map (k :: rest) =
            .goesOn (.removing map k rest) :=
          (if_neg hk).trans (if_pos (hvalid k List.mem_cons_self))
        have hfilter : (k :: rest).filter (· ∉ desired routes) =
            k :: rest.filter (· ∉ desired routes) := List.filter_cons_of_pos (by simpa using hk)
        have hleft : s.left map rest = rest := if_neg hmap'
        rw [hgoes, hfilter]
        have hone : Reaches running (s.went routes (.goesOn (.removing map k rest)))
            (went { s with rules := s.rules.erase k } routes
              (removeStale (desired routes) map rest)) := by
          refine Reaches.command (s.rules.erase k) true rfl rfl ?_
          exact congrArg (fun ks => some (removeStale (desired routes) map ks)) hleft
        exact hone.trans (ih (s := { s with rules := s.rules.erase k }) hrest fun _ => hmap')

/-- What is added goes by what is active, whatever the rules and the calls are. -/
theorem addNew_with (rules : List Redirect) (calls : List Call) (wanted ks : List Redirect) :
    addNew { s with rules := rules, calls := calls } wanted ks = s.addNew wanted ks := by
  induction ks with
  | nil =>
      rfl
  | cons k rest ih =>
      rw [addNew, addNew, ih]
      rfl

theorem reaches_addNew (hvalid : ∀ k ∈ ks, k.isValid = true) :
    Reaches running (s.went routes (s.addNew (desired routes) ks))
      (went { s with rules := ensureAll s.rules (ks.filter (· ∉ s.activeRedirects)) } routes
        (removeStale (desired routes) s.active s.activeRedirects)) := by
  induction ks generalizing s with
  | nil =>
      exact Reaches.refl _
  | cons k rest ih =>
      have hrest : ∀ j ∈ rest, j.isValid = true := fun j hj => hvalid j (List.mem_cons_of_mem k hj)
      by_cases hk : k ∈ s.activeRedirects
      · -- remembered, so it is left
        have hskip : s.addNew (desired routes) (k :: rest) = s.addNew (desired routes) rest :=
          if_pos hk
        have hfilter : (k :: rest).filter (· ∉ s.activeRedirects) =
            rest.filter (· ∉ s.activeRedirects) := List.filter_cons_of_neg (by simpa using hk)
        rw [hskip, hfilter]
        exact ih hrest
      · -- new, so a rule is added unless there is one
        have hgoes : s.addNew (desired routes) (k :: rest) = .goesOn (.adding k rest false) :=
          (if_neg hk).trans (if_pos (hvalid k List.mem_cons_self))
        have hfilter : (k :: rest).filter (· ∉ s.activeRedirects) =
            k :: rest.filter (· ∉ s.activeRedirects) := List.filter_cons_of_pos (by simpa using hk)
        rw [hgoes, hfilter]
        have hone : Reaches running (s.went routes (.goesOn (.adding k rest false)))
            (went { s with rules := Library.ensure s.rules k } routes
              (s.addNew (desired routes) rest)) := by
          refine Reaches.ensure (Stage.adding k rest) (fun _ => rfl) ?_
          rintro rules calls ⟨_, _, ans⟩ adds answer rfl rfl
          change (if adds || answer then some (addNew _ _ rest) else _) = _
          rw [addNew_with, apply_ite some]
        have hih := ih (s := { s with rules := Library.ensure s.rules k }) hrest
        rw [addNew_with] at hih
        exact hone.trans hih

/-! ### A whole call -/

/-- Routes that differ from those of the last call are written out and then reconciled. -/
theorem reaches_reconcile (h : s.Inv) (hvalid : ∀ k ∈ desired routes, k.isValid = true) :
    ∃ rules, Reaches running (s.went routes (.goesOn (.writing 3)))
        (went { s with rules := rules } routes .replaced) ∧
      rules = ensureAll (deleteAll
        (ensureAll s.rules ((desired routes).filter (· ∉ s.activeRedirects)))
        (s.activeRedirects.filter (· ∉ desired routes))) (desired routes) := by
  have hwrite : ∀ n, Reaches running (s.went routes (.goesOn (.writing n)))
      (s.went routes (.goesOn .starting)) := by
    intro n
    induction n with
    | zero =>
        exact Reaches.wait rfl
    | succ n ih =>
        exact (Reaches.wait rfl).trans ih
  have hstart : Reaches running (s.went routes (.goesOn .starting))
      (s.went routes (s.addNew (desired routes) (desired routes))) :=
    Reaches.wait (congrArg some (addNew_with (s := s) s.rules [⟨routes, .starting, none⟩] _ _))
  -- the writes, the start, the new rules, the stale ones, and once more the wanted ones
  have hnew := ((hwrite 3).trans hstart).trans (reaches_addNew hvalid)
  have hstale := hnew.trans (reaches_removeStale h.valid fun hne => hne)
  exact ⟨_, hstale.trans (reaches_ensureDesired hvalid), rfl⟩

/-- A call that runs alone ends with exactly the rules that its routes want. -/
theorem reaches_converged (h : s.Inv) (hcalls : s.calls = [])
    (hvalid : ∀ k ∈ desired routes, k.isValid = true) :
    ∃ t, Reaches running (s.went routes (.goesOn .probing)) t ∧ t.calls = [] ∧
      ∀ k, t.rules.count k = if k ∈ desired routes then 1 else 0 := by
  have howned : Owned s.rules s.activeRedirects := by
    have hknown : s.known = s.activeRedirects := by
      rw [known, hcalls]
      exact List.append_nil _
    exact hknown ▸ h.owned
  have hprobe : Reaches running (s.went routes (.goesOn .probing))
      (s.went routes (s.afterProbe ⟨routes, .probing, none⟩ running)) :=
    Reaches.one (a := .probed 0 running) (by simp [alone]) rfl
  by_cases hr : routes = []
  · -- no routes: what is remembered is taken out
    subst hr
    have hclear : Reaches running (s.went [] (clear s.active s.activeRedirects))
        (went { s with rules := deleteAll s.rules s.activeRedirects } [] .cleared) :=
      reaches_clear h.valid fun hne => hne
    refine ⟨went { s with rules := deleteAll s.rules s.activeRedirects } [] .cleared,
      hprobe.trans ?_, rfl, fun k => ?_⟩
    · cases running with
      | true => exact (Reaches.wait rfl).trans hclear
      | false => exact hclear
    · exact count_deleteAll_known howned h.nodup k
  · by_cases hsame : s.lastSig = some (signature s.setup routes) ∧ running = true
    · -- the same routes as in the last call: what is remembered is looked for
      have hafter : s.afterProbe ⟨routes, .probing, none⟩ running =
          reensure s.active s.activeRedirects := by
        simp [afterProbe, hr, hsame]
      rw [hafter] at hprobe
      refine ⟨_, hprobe.trans (reaches_reensure h.valid fun hne => hne), rfl, fun k => ?_⟩
      refine count_ensureAll_known howned (fun j => ?_) k
      rw [mem_desired]
      exact h.sig _ hsame.1 j
    · have hafter : s.afterProbe ⟨routes, .probing, none⟩ running = .goesOn (.writing 3) := by
        simp only [afterProbe, hr, if_false]
        exact if_neg (by simpa using hsame)
      rw [hafter] at hprobe
      rcases reaches_reconcile h hvalid with ⟨rules, hreach, rfl⟩
      exact ⟨_, hprobe.trans hreach, rfl, count_reconcile howned h.nodup⟩

/-! ## Runs -/

theorem step_setup {a : Action} (hs : s.step a = some s') : s'.setup = s.setup := by
  have hsettle : ∀ i c o, (s.settle i c o).setup = s.setup := by
    intro i c o
    cases o with
    | goesOn stage => rfl
    | cleared => rfl
    | replaced => rfl
    | threw => rfl
    | done => rfl
  cases a with
  | apply egressRoutes =>
      cases hs
      unfold NearManager.apply
      split
      · rfl
      · rfl
  | exec i works =>
      rcases Option.bind_eq_some_iff.1 hs with ⟨c, _, hrest⟩
      split at hrest
      · rcases Option.map_eq_some_iff.1 hrest with ⟨⟨verb, k⟩, _, rfl⟩
        cases verb with
        | check => rfl
        | append => rfl
        | delete => rfl
      · cases hrest
  | probed i running =>
      rcases Option.map_eq_some_iff.1 hs with ⟨x, _, rfl⟩
      exact hsettle x.1 x.2.1 x.2.2
  | passed i ok =>
      rcases Option.map_eq_some_iff.1 hs with ⟨x, _, rfl⟩
      exact hsettle x.1 x.2.1 x.2.2
  | resume i =>
      rcases Option.map_eq_some_iff.1 hs with ⟨x, _, rfl⟩
      exact hsettle x.1 x.2.1 x.2.2

/-- After calls that keep the rules in order, one further call that runs alone ends, and it ends
with exactly one rule for each redirect of its routes and none for any other. -/
theorem redirects_converge (u : Setup) (hip : u.selfLanIp.isSome = true) {as : List Action}
    (h : Admits step InOrder (new u) as) (hs : exec step (new u) as = some s)
    (hquiet : s.calls = []) (egressRoutes : List Route)
    (hvalid : ∀ r ∈ near egressRoutes, r.redirect.isValid = true) (running : Bool) :
    (∃ t, Reaches running (s.apply egressRoutes) t ∧ t.calls = []) ∧
      ∀ t, Reaches running (s.apply egressRoutes) t → t.calls = [] → ∀ k,
        t.rules.count k = if k ∈ (near egressRoutes).map Route.redirect then 1 else 0 := by
  have hinv : s.Inv ∧ s.setup = u := by
    have hrun : Throughout step (fun s => s.Inv ∧ s.setup = u) (new u) as :=
      throughout_of_admits
        (fun _ _ _ hi hok hs => ⟨hi.1.step hok hs, (step_setup hs).trans hi.2⟩) (fun _ hi => hi)
        ⟨new_inv u, rfl⟩ h
    exact hrun.last hs
  have hbegin : s.apply egressRoutes = s.went (near egressRoutes) (.goesOn .probing) := by
    -- the service knows its address, so the call is not refused
    have hno : ¬(near egressRoutes ≠ [] && s.setup.selfLanIp.isNone) = true := by
      rw [hinv.2]
      cases hu : u.selfLanIp with
      | none =>
          rw [hu] at hip
          cases hip
      | some ip =>
          simp
    rw [NearManager.apply, if_neg hno, hquiet]
    rfl
  have hdes : ∀ k ∈ desired (near egressRoutes), k.isValid = true := by
    intro k hk
    rcases List.mem_map.1 (mem_desired.1 hk) with ⟨r, hr, rfl⟩
    exact hvalid r hr
  obtain ⟨t, hreach, hend, hcount⟩ : ∃ t, Reaches running (s.apply egressRoutes) t ∧ t.calls = [] ∧
      ∀ k, t.rules.count k = if k ∈ desired (near egressRoutes) then 1 else 0 :=
    hbegin ▸ reaches_converged hinv.1 hquiet hdes
  refine ⟨⟨t, hreach, hend⟩, fun t' hreach' hend' k => ?_⟩
  rcases hreach with ⟨bs, hbs, hrun⟩
  rcases hreach' with ⟨cs, hcs, hrun'⟩
  have hone : ∀ (s : NearManager) (a b : Action), a ∈ alone running → b ∈ alone running →
      (s.step a).isSome = true → (s.step b).isSome = true → a = b :=
    fun _ _ _ ha hb hsa hsb => alone_one ha hb hsa hsb
  -- a call that runs alone has one next step at a time, so it ends in one way
  have hsame : t = t' :=
    exec_unique (A := (· ∈ alone running)) hone hbs hcs hrun hrun' (fun _ => alone_none hend)
      (fun _ => alone_none hend')
  rw [← hsame, hcount k]
  simp only [mem_desired]

/-! ### Runs of two calls -/

def fileShare (vip : String) (port : Nat) : Route := ⟨7, vip.toList, 24, port, []⟩

def gateway : Setup := ⟨"eth0".toList, some "192.168.1.5".toList, [], "10.8.0.1".toList⟩

/-- A call, from its beginning up to its loops. -/
def begun (i : Nat) (running : Bool) : List Action :=
  .probed i running :: List.replicate 5 (.passed i true)

/-- A call checks `n` rules that are there. -/
def found (i n : Nat) : List Action := (List.replicate n [.exec i true, .resume i]).flatten

/-- A call checks a rule that is missing and appends it. -/
def missing (i : Nat) : List Action := [.exec i true, .resume i, .exec i true, .resume i]

/-- Of two calls that overlap, the second is still adding when the first ends. -/
def inTurn : List Action :=
  [.apply [fileShare "192.168.1.50" 1445, fileShare "192.168.1.51" 1446],
      .apply [fileShare "192.168.1.50" 1445, fileShare "192.168.1.52" 1447]] ++
    begun 0 false ++ begun 1 false ++ missing 0 ++ found 1 1 ++
    [.exec 1 true, .resume 1, .exec 1 true] ++ missing 0 ++ found 0 2 ++ [.resume 0] ++ found 0 3

theorem redirects_converge_inTurn :
    ∃ s, exec step (new gateway) inTurn = some s ∧
      (∃ t, Reaches true (s.apply [fileShare "192.168.1.53" 1445]) t ∧ t.calls = []) ∧
      ∀ t, Reaches true (s.apply [fileShare "192.168.1.53" 1445]) t → t.calls = [] → ∀ k,
        t.rules.count k =
          if k ∈ (near [fileShare "192.168.1.53" 1445]).map Route.redirect then 1 else 0 := by
  have hrun : ∃ s, exec step (new gateway) inTurn = some s ∧ s.calls = [] := by
    have htest : (exec step (new gateway) inTurn).any (·.calls = []) = true := by decide +kernel
    simpa using (Option.any_eq_true ..).1 htest
  rcases hrun with ⟨s, hs, hquiet⟩
  exact ⟨s, hs, redirects_converge gateway rfl (by decide +kernel) hs hquiet
    [fileShare "192.168.1.53" 1445] (by decide +kernel) true⟩

/-- Both calls look for the rule before either appends it. -/
def atOnce : List Action :=
  [.apply [fileShare "192.168.1.50" 1445], .apply [fileShare "192.168.1.50" 1445]] ++
    begun 0 false ++ begun 1 true ++
    [.exec 0 true, .exec 1 true, .resume 0, .resume 1, .exec 0 true, .exec 1 true, .resume 0,
      .resume 1] ++ found 0 1 ++ found 0 1

/-- The rule stays there twice. -/
theorem redirect_twice :
    ∃ s, exec step (new gateway) atOnce = some s ∧ s.calls = [] ∧
      ∃ t, Reaches true (s.apply [fileShare "192.168.1.50" 1445]) t ∧ t.calls = [] ∧
        t.rules.count (fileShare "192.168.1.50" 1445).redirect = 2 := by
  have htest : (exec step (new gateway) atOnce).any (fun s => decide (s.calls = []) &&
      (exec step (s.apply [fileShare "192.168.1.50" 1445])
        ([.probed 0 true] ++ found 0 1)).any fun t => decide (t.calls = []) &&
          t.rules.count (fileShare "192.168.1.50" 1445).redirect == 2) = true := by
    decide +kernel
  rcases (Option.any_eq_true ..).1 htest with ⟨s, hs, hafter⟩
  rcases Bool.and_eq_true_iff.1 hafter with ⟨hquiet, hlater⟩
  rcases (Option.any_eq_true ..).1 hlater with ⟨t, ht, hend⟩
  rcases Bool.and_eq_true_iff.1 hend with ⟨hcalls, hcount⟩
  refine ⟨s, hs, of_decide_eq_true hquiet, t, ⟨_, ?_, ht⟩, of_decide_eq_true hcalls,
    beq_iff_eq.1 hcount⟩
  decide

end NearManager

end Near
end GateControl
