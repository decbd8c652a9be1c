import GateControl.Proxy.Servers

/-!
# Orderly — calls of `setRoutes` that keep out of each other's way

Several calls of `setRoutes` may run at the same time.  They do no harm to each other as long as
what the older ones have still to do is part of the newest table, and no two of them put a listener
in the place of the same one (`Orderly`).  Then the routes of the table are dealt with (`Progress`),
and what dealing with a route has achieved is not undone (`Settled`).
-/

namespace GateControl
namespace Proxy

open Library

namespace Manager

variable {ι ρ : Type} [DecidableEq ι]

/-! ## The condition -/

def Orderly (K : Kind ι ρ) (s : Manager ι ρ) : Action ρ → Prop
  | .call table =>
      (∀ c ∈ s.calls, ∀ r ∈ c.pending, r ∈ table) ∧ ∀ id ∈ s.closings, id ∉ table.map K.id
  | .run i =>
      (∀ table ∈ s.callAt i Call.removal, ∀ e ∈ s.nextRemoval K table, e.1 ∉ s.table.map K.id) ∧
        ∀ e ∈ s.callAt i Call.registration,
          (s.listeners.get (K.id e.1)).map Listener.server = e.2
  | _ => True

instance [DecidableEq ρ] (K : Kind ι ρ) (s : Manager ι ρ) (a : Action ρ) :
    Decidable (s.Orderly K a) :=
  match a with
  | .call _ => inferInstanceAs (Decidable ((∀ _ ∈ _, ∀ _ ∈ _, _) ∧ ∀ _ ∈ _, _))
  | .run _ => inferInstanceAs (Decidable ((∀ _ ∈ _, ∀ _ ∈ _, _) ∧ ∀ _ ∈ _, _))
  | .bind _ _ => .isTrue trivial
  | .connect _ => .isTrue trivial
  | .disconnect _ => .isTrue trivial
  | .expire _ => .isTrue trivial

variable {K : Kind ι ρ} {s s' : Manager ι ρ}

/-! ## The calls get on -/

variable (K) in
structure Progress (s : Manager ι ρ) : Prop where
  pending : ∀ c ∈ s.calls, ∀ r ∈ c.pending, r ∈ s.table
  kept : (∃ c ∈ s.calls, c.removes = true) ∨
    ∀ id l, s.listeners.get id = some l → id ∈ s.table.map K.id
  progress : ∀ r ∈ s.table, r ∈ s.processed ∨ ∃ c ∈ s.calls, r ∈ c.left

namespace Progress

theorem start : (start : Manager ι ρ).Progress K where
  pending := fun _ h => by cases h
  kept := .inr fun _ _ h => by cases h
  progress := fun _ h => by cases h

/-- A new call has everything still to do. -/
theorem call {table : List ρ} (hpending : ∀ c ∈ s.calls, ∀ r ∈ c.pending, r ∈ table) :
    Progress K { s with
      calls := s.calls ++ [⟨table, .removing⟩]
      table := table
      processed := []
      refused := [] } where
  pending := fun c hc r hr => by
    rcases List.mem_append.1 hc with hc | hc
    · exact hpending c hc r hr
    · obtain rfl := List.mem_singleton.1 hc
      exact hr
  kept := .inl ⟨_, List.mem_append_right _ (List.mem_singleton_self _), rfl⟩
  progress := fun _ hr =>
    .inr ⟨_, List.mem_append_right _ (List.mem_singleton_self _), hr⟩

/-- A call goes on: what it does not have before it any more has been dealt with, and it leaves the
first loop only if the listeners left are those of the table. -/
theorem goOn (h : s.Progress K) {c : Call ι ρ} {ds : List (Call ι ρ)}
    (hr : Replaces s.calls s'.calls c ds) (ht : s'.table = s.table)
    (hlisteners : ∀ id l, s'.listeners.get id = some l →
      id ∈ s.table.map K.id ∨ s.listeners.get id = some l)
    (hprocessed : ∀ r ∈ s.processed, r ∈ s'.processed)
    (hpending : ∀ d ∈ ds, ∀ r ∈ d.pending, r ∈ c.pending)
    (hleft : ∀ r ∈ c.left, r ∈ s'.processed ∨ ∃ d ∈ ds, r ∈ d.left)
    (hremoves : c.removes = true → (∃ d ∈ ds, d.removes = true) ∨
      ∀ id l, s.listeners.get id = some l → id ∈ s.table.map K.id) : s'.Progress K where
  pending := fun d hd r hdr => by
    rw [ht]
    rcases hr.cases_new hd with hnew | hold
    · exact h.pending c hr.mem r (hpending d hnew r hdr)
    · exact h.pending d hold r hdr
  kept := by
    have hkept : (∀ id l, s.listeners.get id = some l → id ∈ s.table.map K.id) →
        ∀ id l, s'.listeners.get id = some l → id ∈ s'.table.map K.id := by
      intro hall id l hl
      rw [ht]
      rcases hlisteners id l hl with hid | hold
      · exact hid
      · exact hall id l hold
    rcases h.kept with ⟨d, hd, hdr⟩ | hall
    · rcases hr.cases_old hd with rfl | hd
      · rcases hremoves hdr with ⟨e, he, her⟩ | hall
        · exact .inl ⟨e, hr.mem_new he, her⟩
        · exact .inr (hkept hall)
      · exact .inl ⟨d, hd, hdr⟩
    · exact .inr (hkept hall)
  progress := fun r hrt => by
    rw [ht] at hrt
    rcases h.progress r hrt with hdone | ⟨d, hd, hdr⟩
    · exact .inl (hprocessed r hdone)
    · rcases hr.cases_old hd with rfl | hd
      · rcases hleft r hdr with hdone | ⟨e, he, her⟩
        · exact .inl hdone
        · exact .inr ⟨e, hr.mem_new he, her⟩
      · exact .inr ⟨d, hd, hdr⟩

/-- The call still has the same routes to look at. -/
theorem same (h : s.Progress K) {c d : Call ι ρ} (hr : Replaces s.calls s'.calls c [d])
    (ht : s'.table = s.table) (hp : s'.processed = s.processed) (hleft : d.left = c.left)
    (hlisteners : ∀ id l, s'.listeners.get id = some l →
      id ∈ s.table.map K.id ∨ s.listeners.get id = some l)
    (hpending : ∀ r ∈ d.pending, r ∈ c.pending)
    (hremoves : c.removes = true → d.removes = true ∨
      ∀ id l, s.listeners.get id = some l → id ∈ s.table.map K.id) : s'.Progress K := by
  refine h.goOn hr ht hlisteners (fun r hdone => hp ▸ hdone) ?_ ?_ ?_
  · intro e he
    obtain rfl := List.mem_singleton.1 he
    exact hpending
  · intro r hrc
    exact .inr ⟨d, List.mem_singleton_self d, hleft ▸ hrc⟩
  · intro hc
    exact (hremoves hc).imp_left fun hd => ⟨d, List.mem_singleton_self d, hd⟩

/-- The call has looked at a route. -/
theorem look (h : s.Progress K) {table : List ρ} {r : ρ} {rest : List ρ} {d : Call ι ρ}
    (hr : Replaces s.calls s'.calls ⟨table, .applying (r :: rest)⟩ [d]) (ht : s'.table = s.table)
    (hl : s'.listeners = s.listeners) (hp : s'.processed = s.processed ++ [r])
    (hleft : d.left = rest) (hpending : ∀ x ∈ d.pending, x ∈ r :: rest) : s'.Progress K := by
  refine h.goOn hr ht (fun _ _ h => .inr (hl ▸ h)) ?_ ?_ ?_ ?_
  · intro x hx
    rw [hp]
    exact List.mem_append_left _ hx
  · intro e he
    obtain rfl := List.mem_singleton.1 he
    exact hpending
  · intro x hx
    rw [hp]
    rcases List.mem_cons.1 hx with rfl | hx
    · exact .inl (List.mem_append_right _ (List.mem_singleton_self x))
    · exact .inr ⟨d, List.mem_singleton_self d, hleft ▸ hx⟩
  · intro hc
    cases hc

end Progress

/-! ## What has been achieved for a route -/

/-- No other route of the table has its id. -/
def Alone (K : Kind ι ρ) (table : List ρ) (r : ρ) : Prop := ∀ r' ∈ table, K.id r' = K.id r → r' = r

instance [DecidableEq ρ] (K : Kind ι ρ) (table : List ρ) (r : ρ) : Decidable (Alone K table r) :=
  inferInstanceAs (Decidable (∀ _ ∈ _, _ → _))

/-- What is wanted of the socket that is registered for a route, if the host has refused to bind
the route and if it has not. -/
abbrev Goal (ρ : Type) := ρ → Option (Socket ρ) → Prop → Prop

/-- A goal is reached where the listener is found as it should be, and by a new listener. -/
structure Goal.Sound (K : Kind ι ρ) (G : Goal ρ) : Prop where
  unchanged : ∀ r k b, Placed K k → k.accepting = true → K.change k.route r = .none → G r (some k) b
  bound : ∀ r port b, portFits (K.place r).port port = true →
    G r (some ⟨⟨(K.place r).address, port⟩, r, true⟩) b

/-- The socket lets clients in where the route wants it, and forwards them to the route's target. -/
def Serves (K : Kind ι ρ) (r : ρ) (view : Option (Socket ρ)) : Prop :=
  ∃ k, k ∈ view ∧ k.accepting = true ∧ k.place.address = (K.place r).address ∧
    portFits (K.place r).port k.place.port = true ∧ K.target k.route = K.target r

instance (r : ρ) (view : Option (Socket ρ)) : Decidable (Serves K r view) :=
  inferInstanceAs (Decidable (∃ k, k ∈ view ∧ _))

section

omit [DecidableEq ι]

theorem serves_unchanged {k : Socket ρ} {r : ρ} (h : Placed K k) (hacc : k.accepting = true)
    (hchange : K.change k.route r = .none) : Serves K r (some k) :=
  have hsame := K.same_of_none _ _ hchange
  ⟨k, rfl, hacc, hsame.1 ▸ h.1, hsame.1 ▸ h.2, hsame.2⟩

theorem serves_inPlace {k : Socket ρ} {r : ρ} (h : Placed K k) (hacc : k.accepting = true)
    (hchange : K.change k.route r = .inPlace) :
    Serves K r (some { k with route := K.update k.route r }) :=
  have hplace := K.place_of_inPlace _ _ hchange
  ⟨_, rfl, hacc, hplace ▸ h.1, hplace ▸ h.2, K.update_target _ _⟩

theorem serves_bound {r : ρ} {port : Nat} (h : portFits (K.place r).port port = true) :
    Serves K r (some ⟨⟨(K.place r).address, port⟩, r, true⟩) :=
  ⟨_, rfl, rfl, rfl, h, rfl⟩

end

/-- The goal is reached also by a change in place, or with the listener there is if the host
refuses. -/
def Reaches (K : Kind ι ρ) (G : Goal ρ) (s : Manager ι ρ) : Action ρ → Prop
  | .run i =>
      ∀ r ∈ s.callAt i Call.next, ∀ k ∈ s.view (K.id r), Placed K k → k.accepting = true →
        K.change k.route r = .inPlace →
          G r (some { k with route := K.update k.route r }) (r ∈ s.refused)
  | .bind i none => ∀ r ∈ s.callAt i Call.binding, G r (s.view (K.id r)) True
  | _ => True

/-- What has been dealt with is as it should be, unless the host is still at it. -/
def Settled (K : Kind ι ρ) (G : Goal ρ) (s : Manager ι ρ) : Prop :=
  ∀ r ∈ s.table, Alone K s.table r → r ∈ s.processed →
    (∃ c ∈ s.calls, c.given = some r) ∨ G r (s.view (K.id r)) (r ∈ s.refused)

variable {G : Goal ρ}

theorem Settled.goOn (h : s.Settled K G) {c : Call ι ρ} {ds : List (Call ι ρ)}
    (hr : Replaces s.calls s'.calls c ds) (ht : s'.table = s.table)
    (hstep : ∀ r ∈ s.table, Alone K s.table r → r ∈ s'.processed →
      (∃ d ∈ ds, d.given = some r) ∨ G r (s'.view (K.id r)) (r ∈ s'.refused) ∨
        r ∈ s.processed ∧ c.given ≠ some r ∧ s'.view (K.id r) = s.view (K.id r) ∧
          (r ∈ s'.refused ↔ r ∈ s.refused)) : s'.Settled K G := by
  intro r hrt halone hdone
  rw [ht] at hrt halone
  rcases hstep r hrt halone hdone with ⟨d, hd, hdr⟩ | hgoal | ⟨hbefore, hgiven, hview, hrefused⟩
  · exact .inl ⟨d, hr.mem_new hd, hdr⟩
  · exact .inr hgoal
  · rcases h r hrt halone hbefore with ⟨d, hd, hdr⟩ | hgoal
    · rcases hr.cases_old hd with rfl | hd
      · exact absurd hdr hgiven
      · exact .inl ⟨d, hd, hdr⟩
    · rw [hview, propext hrefused]
      exact .inr hgoal

/-- The call leaves the routes that have been dealt with alone. -/
theorem Settled.same (h : s.Settled K G) {c : Call ι ρ} {ds : List (Call ι ρ)}
    (hr : Replaces s.calls s'.calls c ds) (ht : s'.table = s.table)
    (hp : s'.processed = s.processed) (hrefused : s'.refused = s.refused)
    (hview : ∀ r ∈ s.table, s'.view (K.id r) = s.view (K.id r))
    (hgiven : ∀ r, c.given = some r → ∃ d ∈ ds, d.given = some r) : s'.Settled K G := by
  refine h.goOn hr ht ?_
  intro r hrt _ hdone
  by_cases hc : c.given = some r
  · exact .inl (hgiven r hc)
  · exact .inr (.inr ⟨hp ▸ hdone, hc, hview r hrt, by rw [hrefused]⟩)

/-- The call deals with one route; the listeners of the others stay as they are. -/
theorem Settled.deal (h : s.Settled K G) {c : Call ι ρ} {ds : List (Call ι ρ)} {r : ρ}
    (hr : Replaces s.calls s'.calls c ds) (ht : s'.table = s.table) (hrt : r ∈ s.table)
    (hgiven : ∀ x, c.given = some x → x = r)
    (hp : ∀ x ∈ s'.processed, x ≠ r → x ∈ s.processed)
    (hview : ∀ id, id ≠ K.id r → s'.view id = s.view id)
    (hrefused : ∀ x, x ≠ r → (x ∈ s'.refused ↔ x ∈ s.refused))
    (hgoal : (∃ d ∈ ds, d.given = some r) ∨ G r (s'.view (K.id r)) (r ∈ s'.refused)) :
    s'.Settled K G := by
  refine h.goOn hr ht ?_
  intro x hxt halone hdone
  by_cases hx : x = r
  · subst hx
    exact hgoal.imp_right .inl
  · have hid : K.id x ≠ K.id r := fun heq => hx (halone r hrt heq.symm).symm
    exact .inr (.inr ⟨hp x hdone hx, fun hc => hx (hgiven x hc), hview _ hid, hrefused x hx⟩)

/-- Nothing but sockets that are not registered changes. -/
theorem Settled.quiet (h : s.Settled K G) (ht : s'.table = s.table) (hc : s'.calls = s.calls)
    (hp : s'.processed = s.processed) (hrefused : s'.refused = s.refused)
    (hview : ∀ id, s'.view id = s.view id) : s'.Settled K G := by
  intro r hrt halone hdone
  rw [hc, hview, hrefused]
  rw [ht] at hrt halone
  exact h r hrt halone (hp ▸ hdone)

theorem view_of_get {id : ι} {l : Listener} (hl : s.listeners.get id = some l) :
    s.view id = s.socket l.server := by
  rw [view, hl]
  rfl

theorem view_congr {id : ι} (hl : s'.listeners.get id = s.listeners.get id)
    (hs : ∀ l, s.listeners.get id = some l → s'.socket l.server = s.socket l.server) :
    s'.view id = s.view id := by
  cases h : s.listeners.get id with
  | none => rw [view, view, hl, h, Option.bind_none, Option.bind_none]
  | some l => rw [view_of_get h, view_of_get (hl.trans h), hs l h]

/-! ## Steps -/

variable {a : Action ρ}

theorem Servers.step (h : s.Servers K) (hp : s.Progress K) (ht : Transition K s a s')
    (hok : Orderly K s a) : s'.Servers K := by
  cases ht with
  | call table => exact h.call hok.2
  | close hc hl =>
      exact h.close (.of_set hc _) (nextRemoval_some hl).1 (hok.1 _ (callAt_eq hc _) _ hl)
  | apply hc hl => exact h.goOn (.of_set hc _) rfl rfl rfl rfl
  | removed hc hsv hclients => exact h.removed (.of_set hc _)
  | finish hc => exact h.goOn (.of_eraseIdx hc) rfl rfl rfl rfl
  | new hc hl => exact h.goOn (.of_set hc _) rfl rfl rfl rfl
  | unchanged hc hl hsv hchange => exact h.goOn (.of_set hc _) rfl rfl rfl rfl
  | inPlace hc hl hsv hchange => exact (h.update hl hsv hchange).goOn (.of_set hc _) rfl rfl rfl rfl
  | rebind hc hl hsv hchange => exact h.goOn (.of_set hc _) rfl rfl rfl rfl
  | listening hc hport => exact h.listening_bound (.of_set hc _) hport
  | refused hc => exact h.goOn (.of_set hc _) rfl rfl rfl rfl
  | @register i table r old n rest sv hc hsv =>
      have hr := hp.pending _ (List.mem_of_getElem? hc) r (List.mem_cons_self ..)
      exact h.register (.of_set hc _) (socket_of_get hsv) (hok.2 _ (callAt_eq hc _))
        (List.mem_map_of_mem hr)
  | connect hsv hacc => exact h.clients hsv _
  | disconnect hsv hclients => exact h.clients hsv _
  | expire hn => exact h.expire hn

theorem Progress.step (h : s.Progress K) (ht : Transition K s a s') (hok : Orderly K s a) :
    s'.Progress K := by
  cases ht with
  | call table => exact Progress.call hok.1
  | close hc hl =>
      exact h.same (.of_set hc _) rfl rfl rfl (fun _ _ h => .inr h) (fun _ h => h)
        fun _ => .inl rfl
  | @apply i table hc hl =>
      have htable : ∀ r ∈ table, r ∈ s.table := h.pending _ (List.mem_of_getElem? hc)
      refine h.same (.of_set hc _) rfl rfl rfl (fun _ _ h => .inr h) (fun _ h => h) fun _ => .inr ?_
      intro id l hlisten
      obtain ⟨r, hr, hid⟩ := List.mem_map.1 (nextRemoval_none hl hlisten)
      exact List.mem_map.2 ⟨r, htable r hr, hid⟩
  | removed hc hsv hclients =>
      exact h.same (.of_set hc _) rfl rfl rfl (fun _ _ h => .inr (OrderedMap.get_delete_cases h).2)
        (fun _ h => h) fun _ => .inl rfl
  | finish hc =>
      refine h.goOn (.of_eraseIdx hc) rfl (fun _ _ h => .inr h) (fun _ h => h) ?_ ?_ ?_
      · intro d hd
        cases hd
      · intro r hr
        cases hr
      · intro hremoves
        cases hremoves
  | new hc hl => exact h.look (.of_set hc _) rfl rfl rfl rfl fun _ h => h
  | unchanged hc hl hsv hchange =>
      exact h.look (.of_set hc _) rfl rfl rfl rfl fun _ h => List.mem_cons_of_mem _ h
  | inPlace hc hl hsv hchange =>
      exact h.look (.of_set hc _) rfl rfl rfl rfl fun _ h => List.mem_cons_of_mem _ h
  | rebind hc hl hsv hchange => exact h.look (.of_set hc _) rfl rfl rfl rfl fun _ h => h
  | listening hc hport =>
      exact h.same (.of_set hc _) rfl rfl rfl (fun _ _ h => .inr h) (fun _ h => h)
        fun h => by cases h
  | refused hc =>
      exact h.same (.of_set hc _) rfl rfl rfl (fun _ _ h => .inr h)
        (fun _ h => List.mem_cons_of_mem _ h) fun h => by cases h
  | @register i table r old n rest sv hc hsv =>
      have hr := h.pending _ (List.mem_of_getElem? hc) r (List.mem_cons_self ..)
      refine h.same (.of_set hc _) rfl rfl rfl ?_ (fun _ h => List.mem_cons_of_mem _ h)
        fun h => by cases h
      intro id l hl
      rcases OrderedMap.get_set_cases hl with ⟨rfl, _⟩ | ⟨_, hold⟩
      · exact .inl (List.mem_map_of_mem hr)
      · exact .inr hold
  | connect hsv hacc => exact ⟨h.pending, h.kept, h.progress⟩
  | disconnect hsv hclients => exact ⟨h.pending, h.kept, h.progress⟩
  | expire hn => exact ⟨h.pending, h.kept, h.progress⟩

theorem Settled.step (hG : G.Sound K) (h : s.Settled K G) (hs : s.Servers K) (hp : s.Progress K)
    (ht : Transition K s a s') (hok : Orderly K s a) (hreach : Reaches K G s a) :
    s'.Settled K G := by
  have hpending : ∀ {i : Nat} {c : Call ι ρ}, s.calls[i]? = some c → ∀ r ∈ c.pending, r ∈ s.table :=
    fun hc => hp.pending _ (List.mem_of_getElem? hc)
  -- a route that has been looked at is the only one that is new among those dealt with
  have hlooked : ∀ {r : ρ}, ∀ x ∈ s.processed ++ [r], x ≠ r → x ∈ s.processed := by
    intro r x hx hne
    rcases List.mem_append.1 hx with hx | hx
    · exact hx
    · exact absurd (List.mem_singleton.1 hx) hne
  cases ht with
  | call table =>
      intro r _ _ hdone
      cases hdone
  | @close i table id l hc hl =>
      have hid : id ∉ s.table.map K.id := hok.1 _ (callAt_eq hc _) _ hl
      refine h.same (.of_set hc _) rfl rfl rfl ?_ fun r hr => by cases hr
      intro r hrt
      have hne : K.id r ≠ id := fun heq => hid (heq ▸ List.mem_map_of_mem hrt)
      refine view_congr rfl ?_
      intro l' hl'
      show (s.close l.server).socket l'.server = _
      rw [close_socket, if_neg (hs.server_ne hl' (nextRemoval_some hl).1 hne)]
  | apply hc hl => exact h.same (.of_set hc _) rfl rfl rfl (fun _ _ => rfl) fun r hr => by cases hr
  | @removed i table id n sv hc hsv hclients =>
      refine h.same (.of_set hc _) rfl rfl rfl ?_ fun r hr => by cases hr
      intro r hrt
      have hclosing : id ∈ s.closings :=
        List.mem_filterMap.2 ⟨_, List.mem_of_getElem? hc, rfl⟩
      have hne : K.id r ≠ id :=
        fun heq => (hs.closed id hclosing).1 (heq ▸ List.mem_map_of_mem hrt)
      refine view_congr ?_ fun _ _ => rfl
      show (s.listeners.delete id).get (K.id r) = _
      rw [OrderedMap.get_delete, if_neg hne]
  | finish hc =>
      exact h.same (.of_eraseIdx hc) rfl rfl rfl (fun _ _ => rfl) fun r hr => by cases hr
  | new hc hl =>
      exact h.deal (.of_set hc _) rfl (hpending hc _ (List.mem_cons_self ..))
        (fun x hx => by cases hx) hlooked (fun _ _ => rfl) (fun _ _ => Iff.rfl)
        (.inl ⟨_, List.mem_singleton_self _, rfl⟩)
  | unchanged hc hl hsv hchange =>
      have hrt := hpending hc _ (List.mem_cons_self ..)
      have hk := socket_of_get hsv
      refine h.deal (.of_set hc _) rfl hrt (fun x hx => by cases hx) hlooked (fun _ _ => rfl)
        (fun _ _ => Iff.rfl) (.inr ?_)
      show G _ (s.view _) _
      rw [view_of_get hl, hk]
      exact hG.unchanged _ _ _ (hs.placed _ _ hk)
        (hs.accepting (List.mem_map_of_mem hrt) hl hk) hchange
  | @inPlace i table r rest l sv hc hl hsv hchange =>
      have hrt := hpending hc r (List.mem_cons_self ..)
      have hk := socket_of_get hsv
      refine h.deal (.of_set hc _) rfl hrt (fun x hx => by cases hx) hlooked ?_
        (fun _ _ => Iff.rfl) (.inr ?_)
      · intro id hid
        refine view_congr rfl ?_
        intro l' hl'
        show ((s.servers.set l.server _).get l'.server).map Server.toSocket = _
        rw [OrderedMap.get_set_ne _ (hs.server_ne hl' hl hid)]
        rfl
      · have hview : s.view (K.id r) = some sv.toSocket := (view_of_get hl).trans hk
        have hgoal := hreach r (callAt_eq hc _) _ hview (hs.placed _ _ hk)
          (hs.accepting (List.mem_map_of_mem hrt) hl hk) hchange
        let k : Socket ρ := { sv.toSocket with route := K.update sv.route r }
        have hnew : view { s with
            servers := s.servers.set l.server { sv with route := K.update sv.route r } } (K.id r) =
              some k := by
          simp only [view, hl, Option.bind_some, socket, OrderedMap.get_set_self]
          rfl
        exact hnew ▸ hgoal
  | rebind hc hl hsv hchange =>
      exact h.deal (.of_set hc _) rfl (hpending hc _ (List.mem_cons_self ..))
        (fun x hx => by cases hx) hlooked (fun _ _ => rfl) (fun _ _ => Iff.rfl)
        (.inl ⟨_, List.mem_singleton_self _, rfl⟩)
  | listening hc hport =>
      refine h.same (.of_set hc _) rfl rfl rfl ?_ fun r hr => ⟨_, List.mem_singleton_self _, hr⟩
      intro r _
      refine view_congr rfl ?_
      intro l hl
      obtain ⟨_, _, k, hk, _⟩ := hs.registered _ l hl
      show ((s.servers.set s.nextServer _).get l.server).map Server.toSocket = _
      rw [OrderedMap.get_set_ne _ (Nat.ne_of_lt (hs.fresh _ k hk))]
      rfl
  | @refused i table r old rest hc =>
      refine h.deal (.of_set hc _) rfl (hpending hc r (List.mem_cons_self ..))
        (fun x hx => (Option.some.inj hx).symm) (fun _ hx _ => hx) (fun _ _ => rfl) ?_ (.inr ?_)
      · intro x hx
        show x ∈ s.refused ++ [r] ↔ _
        simp [hx]
      · have hin : r ∈ s.refused ++ [r] := List.mem_append_right _ (List.mem_singleton_self r)
        show G r (s.view (K.id r)) (r ∈ s.refused ++ [r])
        rw [eq_true hin]
        exact hreach r (callAt_eq hc _)
  | @register i table r old n rest sv hc hsv =>
      have hbound : (r, n) ∈ s.bounds := List.mem_filterMap.2 ⟨_, List.mem_of_getElem? hc, rfl⟩
      obtain ⟨_, k, hk, rfl, hacc⟩ := hs.bound (r, n) hbound
      have hplaced := hs.placed n k hk
      refine h.deal (.of_set hc _) rfl (hpending hc _ (List.mem_cons_self ..))
        (fun x hx => (Option.some.inj hx).symm) (fun _ hx _ => hx) ?_ (fun _ _ => Iff.rfl) (.inr ?_)
      · intro id hid
        refine view_congr ?_ fun _ _ => rfl
        exact OrderedMap.get_set_ne s.listeners hid _
      · have hview : (s.register K i table k.route old n sv.place.port rest).view (K.id k.route) =
            some k := by
          rw [view_of_get (OrderedMap.get_set_self s.listeners (K.id k.route) _)]
          exact hk
        have hk' : k = ⟨⟨(K.place k.route).address, k.place.port⟩, k.route, true⟩ := by
          rw [← hplaced.1, ← hacc]
        rw [hview, hk']
        exact hG.bound k.route k.place.port _ hplaced.2
  | connect hsv hacc =>
      exact h.quiet rfl rfl rfl rfl fun _ => view_congr rfl fun l _ => socket_clients hsv _ l.server
  | disconnect hsv hclients =>
      exact h.quiet rfl rfl rfl rfl fun _ => view_congr rfl fun l _ => socket_clients hsv _ l.server
  | @expire n hn =>
      refine h.quiet rfl rfl rfl rfl fun id => view_congr rfl ?_
      intro l hl
      obtain ⟨hover, _⟩ := hs.registered id l hl
      rw [close_socket, if_neg]
      · rfl
      · rintro rfl
        exact hover hn

variable (K G s) in
structure Ordered : Prop extends Servers K s, Progress K s where
  settled : Settled K G s

theorem start_ordered : (start : Manager ι ρ).Ordered K G :=
  { start_servers, Progress.start with settled := fun _ h => by cases h }

theorem Ordered.step (hG : G.Sound K) (h : s.Ordered K G) (hstep : s.step K a = some s')
    (hok : Orderly K s a) (hreach : Reaches K G s a) : s'.Ordered K G :=
  have ht := step_transition hstep
  { h.toServers.step h.toProgress ht hok, h.toProgress.step ht hok with
    settled := h.settled.step hG h.toServers h.toProgress ht hok hreach }

/-- Once all calls have ended, the whole table has been dealt with. -/
theorem Ordered.processed_of_idle (h : s.Ordered K G) (hidle : s.calls = []) :
    ∀ r ∈ s.table, r ∈ s.processed := by
  intro r hr
  rcases h.progress r hr with hdone | ⟨c, hc, _⟩
  · exact hdone
  · rw [hidle] at hc
    cases hc

theorem Ordered.goal_of_idle (h : s.Ordered K G) (hidle : s.calls = []) {r : ρ} (hr : r ∈ s.table)
    (halone : Alone K s.table r) : G r (s.view (K.id r)) (r ∈ s.refused) := by
  rcases h.settled r hr halone (h.processed_of_idle hidle r hr) with ⟨c, hc, _⟩ | hgoal
  · rw [hidle] at hc
    cases hc
  · exact hgoal

/-- Then a server that still lets clients in is in its last ten seconds, or it is the one of a route
of the table. -/
theorem Ordered.accepting_of_idle (h : s.Ordered K G) (hidle : s.calls = []) {n : Nat}
    {k : Socket ρ} (hk : s.socket n = some k) (hacc : k.accepting = true) :
    n ∈ s.overlap ∨ K.id k.route ∈ s.table.map K.id ∧ s.view (K.id k.route) = some k := by
  rcases h.accounted n k hk hacc with ⟨id, l, hl, rfl⟩ | hover | hbound
  · right
    obtain ⟨_, _, k', hk', hid, _⟩ := h.registered id l hl
    obtain rfl : k = k' := Option.some.inj (hk.symm.trans hk')
    rw [hid]
    rcases h.kept with ⟨c, hc, _⟩ | hkept
    · rw [hidle] at hc
      cases hc
    · exact ⟨hkept id l hl, (view_of_get hl).trans hk⟩
  · exact .inl hover
  · rw [bounds, hidle] at hbound
    cases hbound

end Manager

end Proxy
end GateControl
