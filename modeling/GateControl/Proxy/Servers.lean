import GateControl.Proxy.Calls

/-!
# Servers — the listeners a manager knows of

Each listener that is registered has a server of its own, and every server that lets clients in is
registered, about to be, or in its last ten seconds (`Servers`).  The steps keep this as long as no
call puts its listener in the place of one it has not seen, and no call closes what the table
passed last asks for.
-/

namespace GateControl
namespace Proxy

open Library

namespace Manager

variable {ι ρ : Type} [DecidableEq ι] {K : Kind ι ρ} {s s' : Manager ι ρ}

/-! ## The invariant -/

/-- The servers that are about to be registered, and the routes they are for. -/
def bounds (s : Manager ι ρ) : List (ρ × Nat) := s.calls.filterMap Call.bound

/-- The routes whose listeners have been closed and are about to be removed. -/
def closings (s : Manager ι ρ) : List ι := s.calls.filterMap Call.closes

/-- A server is where its route wants it. -/
def Placed (K : Kind ι ρ) (k : Socket ρ) : Prop :=
  k.place.address = (K.place k.route).address ∧ portFits (K.place k.route).port k.place.port = true

variable (K) in
structure Servers (s : Manager ι ρ) : Prop where
  registered : ∀ id l, s.listeners.get id = some l →
    l.server ∉ s.overlap ∧ l.server ∉ s.bounds.map Prod.snd ∧
      ∃ k, s.socket l.server = some k ∧ K.id k.route = id ∧ l.port = k.place.port
  fresh : ∀ n k, s.socket n = some k → n < s.nextServer
  overlap : ∀ n ∈ s.overlap, n < s.nextServer
  placed : ∀ n k, s.socket n = some k → Placed K k
  bound : ∀ b ∈ s.bounds, b.2 ∉ s.overlap ∧
    ∃ k, s.socket b.2 = some k ∧ k.route = b.1 ∧ k.accepting = true
  distinct : (s.bounds.map Prod.snd).Nodup
  /-- Only a call that is about to remove it has closed a registered listener. -/
  listening : ∀ id l k, s.listeners.get id = some l → s.socket l.server = some k →
    k.accepting = true ∨ id ∈ s.closings
  closed : ∀ id ∈ s.closings, id ∉ s.table.map K.id ∧
    ∀ l k, s.listeners.get id = some l → s.socket l.server = some k → k.accepting = false
  /-- A server lets clients in only where it is known. -/
  accounted : ∀ n k, s.socket n = some k → k.accepting = true →
    (∃ id l, s.listeners.get id = some l ∧ l.server = n) ∨ n ∈ s.overlap ∨
      n ∈ s.bounds.map Prod.snd

theorem start_servers : (start : Manager ι ρ).Servers K where
  registered := fun _ _ h => by cases h
  fresh := fun _ _ h => by cases h
  overlap := fun _ h => by cases h
  placed := fun _ _ h => by cases h
  bound := fun _ h => by cases h
  distinct := List.nodup_nil
  listening := fun _ _ _ h => by cases h
  closed := fun _ h => by cases h
  accounted := fun _ _ h => by cases h

/-! ## The steps -/

namespace Servers

/-- The servers of two routes are different. -/
theorem server_ne (h : s.Servers K) {id id' : ι} {l l' : Listener}
    (hl : s.listeners.get id = some l) (hl' : s.listeners.get id' = some l') (hne : id ≠ id') :
    l.server ≠ l'.server := by
  obtain ⟨_, _, k, hk, hid, _⟩ := h.registered id l hl
  obtain ⟨_, _, k', hk', hid', _⟩ := h.registered id' l' hl'
  intro heq
  rw [heq, hk'] at hk
  obtain rfl := Option.some.inj hk
  exact hne (hid.symm.trans hid')

/-- The listener of a route of the table lets clients in. -/
theorem accepting (h : s.Servers K) {id : ι} {l : Listener} {k : Socket ρ}
    (hid : id ∈ s.table.map K.id) (hl : s.listeners.get id = some l)
    (hk : s.socket l.server = some k) : k.accepting = true := by
  rcases h.listening id l k hl hk with hacc | hclosing
  · exact hacc
  · exact absurd hid (h.closed id hclosing).1

/-- A step that changes neither a listener nor a socket. -/
theorem quiet (h : s.Servers K) (hl : s'.listeners = s.listeners)
    (hn : s'.nextServer = s.nextServer) (ho : s'.overlap = s.overlap)
    (hs : ∀ n, s'.socket n = s.socket n) (hb : s'.bounds = s.bounds)
    (hc : s'.closings = s.closings) (ht : ∀ id ∈ s.closings, id ∉ s'.table.map K.id) :
    s'.Servers K := by
  constructor
  case registered =>
    simpa only [hl, ho, hb, hs] using h.registered
  case fresh =>
    simpa only [hs, hn] using h.fresh
  case overlap =>
    simpa only [ho, hn] using h.overlap
  case placed =>
    simpa only [hs] using h.placed
  case bound =>
    simpa only [hb, ho, hs] using h.bound
  case distinct =>
    simpa only [hb] using h.distinct
  case listening =>
    simpa only [hl, hs, hc] using h.listening
  case closed =>
    intro id hid
    rw [hc] at hid
    simpa only [hl, hs] using And.intro (ht id hid) (h.closed id hid).2
  case accounted =>
    simpa only [hs, hl, ho, hb] using h.accounted

/-- A call goes on, neither from nor to a place where it holds a server or has closed one. -/
theorem goOn (h : s.Servers K) {cs : List (Call ι ρ)} {c : Call ι ρ} {ds : List (Call ι ρ)}
    (hr : Replaces s.calls cs c ds) (hbound : c.bound = none) (hcloses : c.closes = none)
    (hbounds : ds.filterMap Call.bound = []) (hclosings : ds.filterMap Call.closes = [])
    {processed refused : List ρ} :
    Servers K { s with calls := cs, processed := processed, refused := refused } :=
  h.quiet rfl rfl rfl (fun _ => rfl) (hr.filterMap_eq hbound hbounds)
    (hr.filterMap_eq hcloses hclosings) fun id hid => (h.closed id hid).1

/-- A client comes or goes. -/
theorem clients (h : s.Servers K) {n : Nat} {sv : Server ρ} (hsv : s.servers.get n = some sv)
    (m : Nat) : Servers K { s with servers := s.servers.set n { sv with clients := m } } :=
  h.quiet rfl rfl rfl (socket_clients hsv m) rfl rfl fun id hid => (h.closed id hid).1

/-- A new call finds what the others have left. -/
theorem call (h : s.Servers K) {table : List ρ}
    (hclosings : ∀ id ∈ s.closings, id ∉ table.map K.id) :
    Servers K { s with
      calls := s.calls ++ [⟨table, .removing⟩]
      table := table
      processed := []
      refused := [] } := by
  have hb : (s.calls ++ [(⟨table, .removing⟩ : Call ι ρ)]).filterMap Call.bound = s.bounds := by
    simp [bounds, Call.bound]
  have hc : (s.calls ++ [(⟨table, .removing⟩ : Call ι ρ)]).filterMap Call.closes = s.closings := by
    simp [closings, Call.closes]
  exact h.quiet rfl rfl rfl (fun _ => rfl) hb hc hclosings

/-- The server of a listener that goes is closed. -/
theorem close (h : s.Servers K) {cs : List (Call ι ρ)} {table : List ρ} {id : ι} {l : Listener}
    (hr : Replaces s.calls cs ⟨table, .removing⟩ [⟨table, .closing id l.server⟩])
    (hl : s.listeners.get id = some l) (hid : id ∉ s.table.map K.id) :
    Servers K { s.close l.server with calls := cs } := by
  have hb : cs.filterMap Call.bound = s.bounds := hr.filterMap_eq rfl rfl
  -- the call that closes the listener is one more
  have hperm : (cs.filterMap Call.closes).Perm (id :: s.closings) := hr.filterMap_more rfl rfl
  have hclosings : ∀ j, j ∈ cs.filterMap Call.closes ↔ j = id ∨ j ∈ s.closings :=
    fun j => hperm.mem_iff.trans List.mem_cons
  -- only the server of the listener changes, and it lets nobody in any more
  have hsame : ∀ n, n ≠ l.server → (s.close l.server).socket n = s.socket n := by
    intro n hn
    rw [close_socket, if_neg hn]
  have hclosed : ∀ k, (s.close l.server).socket l.server = some k → k.accepting = false := by
    intro k hk
    rw [close_socket, if_pos rfl] at hk
    obtain ⟨k₀, _, rfl⟩ := Option.map_eq_some_iff.1 hk
    rfl
  -- what is there was there before
  have hback : ∀ n k, (s.close l.server).socket n = some k →
      ∃ k₀, s.socket n = some k₀ ∧ k₀.place = k.place ∧ k₀.route = k.route ∧
        (k.accepting = true → k₀ = k) := by
    intro n k hk
    by_cases hn : n = l.server
    · subst hn
      have hacc := hclosed k hk
      rw [close_socket, if_pos rfl] at hk
      obtain ⟨k₀, hk₀, rfl⟩ := Option.map_eq_some_iff.1 hk
      exact ⟨k₀, hk₀, rfl, rfl, fun h => by cases h⟩
    · rw [hsame n hn] at hk
      exact ⟨k, hk, rfl, rfl, fun _ => rfl⟩
  obtain ⟨_, hnotBound, _⟩ := h.registered id l hl
  constructor
  case registered =>
    intro id' l' hl'
    obtain ⟨hover, hbound, k, hk, hroute, hport⟩ := h.registered id' l' hl'
    refine ⟨hover, by rwa [bounds, hb], ?_⟩
    by_cases heq : l'.server = l.server
    · refine ⟨{ k with accepting := false }, ?_, hroute, hport⟩
      show (s.close l.server).socket l'.server = _
      rw [close_socket, if_pos heq, ← heq, hk]
      rfl
    · exact ⟨k, (hsame _ heq).trans hk, hroute, hport⟩
  case fresh =>
    intro n k hk
    obtain ⟨k₀, hk₀, _⟩ := hback n k hk
    exact h.fresh n k₀ hk₀
  case overlap => exact h.overlap
  case placed =>
    intro n k hk
    obtain ⟨k₀, hk₀, hplace, hroute, _⟩ := hback n k hk
    have hplaced := h.placed n k₀ hk₀
    rwa [Placed, hplace, hroute] at hplaced
  case bound =>
    intro b hmem
    rw [bounds, hb] at hmem
    obtain ⟨hover, k, hk, hrest⟩ := h.bound b hmem
    -- a server that was just bound is not the one of a listener
    have hne : b.2 ≠ l.server := by
      intro heq
      exact hnotBound (heq ▸ List.mem_map_of_mem hmem)
    exact ⟨hover, k, (hsame _ hne).trans hk, hrest⟩
  case distinct =>
    show ((cs.filterMap Call.bound).map Prod.snd).Nodup
    rw [hb]
    exact h.distinct
  case listening =>
    intro id' l' k hl' hk
    show _ ∨ id' ∈ cs.filterMap Call.closes
    rw [hclosings]
    by_cases heq : id' = id
    · exact .inr (.inl heq)
    · have hk' : (s.close l.server).socket l'.server = some k := hk
      rw [hsame _ (h.server_ne hl' hl heq)] at hk'
      exact (h.listening id' l' k hl' hk').imp_right .inr
  case closed =>
    intro id' hid'
    rcases (hclosings id').1 hid' with rfl | hold
    · refine ⟨hid, ?_⟩
      intro l' k hl' hk
      obtain rfl : l = l' := Option.some.inj (hl.symm.trans hl')
      exact hclosed k hk
    · obtain ⟨hnot, hshut⟩ := h.closed id' hold
      refine ⟨hnot, ?_⟩
      intro l' k hl' hk
      by_cases heq : l'.server = l.server
      · exact hclosed k (heq ▸ hk)
      · exact hshut l' k hl' ((hsame _ heq).symm.trans hk)
  case accounted =>
    intro n k hk hacc
    obtain ⟨k₀, hk₀, _, _, hsame'⟩ := hback n k hk
    obtain rfl := hsame' hacc
    show _ ∨ _ ∨ n ∈ (cs.filterMap Call.bound).map Prod.snd
    rw [hb]
    exact h.accounted n k₀ hk₀ hacc

/-- The entry of a listener that has been closed is removed. -/
theorem removed (h : s.Servers K) {cs : List (Call ι ρ)} {table : List ρ} {id : ι} {n : Nat}
    (hr : Replaces s.calls cs ⟨table, .closing id n⟩ [⟨table, .removing⟩]) :
    Servers K { s with listeners := s.listeners.delete id, calls := cs } := by
  have hb : cs.filterMap Call.bound = s.bounds := hr.filterMap_eq rfl rfl
  -- the call has closed the listener and goes on
  have hperm : s.closings.Perm (id :: cs.filterMap Call.closes) := hr.filterMap_less rfl rfl
  have hclosings : ∀ j, j ∈ s.closings ↔ j = id ∨ j ∈ cs.filterMap Call.closes :=
    fun j => hperm.mem_iff.trans List.mem_cons
  have hshut := (h.closed id ((hclosings id).2 (.inl rfl))).2
  constructor
  case registered =>
    intro id' l' hl'
    obtain ⟨hover, hbound, hsocket⟩ := h.registered id' l' (OrderedMap.get_delete_cases hl').2
    exact ⟨hover, by rwa [bounds, hb], hsocket⟩
  case fresh => exact h.fresh
  case overlap => exact h.overlap
  case placed => exact h.placed
  case bound =>
    intro b hmem
    rw [bounds, hb] at hmem
    exact h.bound b hmem
  case distinct =>
    show ((cs.filterMap Call.bound).map Prod.snd).Nodup
    rw [hb]
    exact h.distinct
  case listening =>
    intro id' l' k hl' hk
    obtain ⟨hne, hold⟩ := OrderedMap.get_delete_cases hl'
    rcases h.listening id' l' k hold hk with hacc | hmem
    · exact .inl hacc
    · exact .inr (((hclosings id').1 hmem).resolve_left hne)
  case closed =>
    intro id' hid'
    obtain ⟨hnot, hclosed⟩ := h.closed id' ((hclosings id').2 (.inr hid'))
    exact ⟨hnot, fun l' k hl' hk => hclosed l' k (OrderedMap.get_delete_cases hl').2 hk⟩
  case accounted =>
    intro m k hk hacc
    show _ ∨ _ ∨ m ∈ (cs.filterMap Call.bound).map Prod.snd
    rw [hb]
    rcases h.accounted m k hk hacc with ⟨id', l', hl', rfl⟩ | hrest
    · left
      refine ⟨id', l', ?_, rfl⟩
      show (s.listeners.delete id).get id' = some l'
      rw [OrderedMap.get_delete, if_neg]
      · exact hl'
      · -- the listener that is removed lets nobody in
        rintro rfl
        rw [hshut l' k hl' hk] at hacc
        cases hacc
    · exact .inr hrest

/-- A listener gets the fields of its route in the table. -/
theorem update (h : s.Servers K) {r : ρ} {l : Listener} {sv : Server ρ}
    (hl : s.listeners.get (K.id r) = some l) (hsv : s.servers.get l.server = some sv)
    (hchange : K.change sv.route r = .inPlace) :
    Servers K { s with
      servers := s.servers.set l.server { sv with route := K.update sv.route r } } := by
  let k₁ : Socket ρ := { sv.toSocket with route := K.update sv.route r }
  have hk₀ : s.socket l.server = some sv.toSocket := socket_of_get hsv
  have hself : Manager.socket { s with
      servers := s.servers.set l.server { sv with route := K.update sv.route r } } l.server =
        some k₁ := by
    simp only [socket, OrderedMap.get_set_self]
    rfl
  -- only the route of one server changes, and its place stays
  have hsame : ∀ n, n ≠ l.server → Manager.socket { s with
      servers := s.servers.set l.server { sv with route := K.update sv.route r } } n =
        s.socket n := by
    intro n hn
    simp only [socket, OrderedMap.get_set_ne _ hn]
  have hback : ∀ n k, Manager.socket { s with
      servers := s.servers.set l.server { sv with route := K.update sv.route r } } n = some k →
        ∃ k₀, s.socket n = some k₀ ∧ k₀.place = k.place ∧ K.place k₀.route = K.place k.route ∧
          k₀.accepting = k.accepting := by
    intro n k hk
    by_cases hn : n = l.server
    · subst hn
      rw [hself] at hk
      obtain rfl := Option.some.inj hk
      have hplace : K.place sv.route = K.place (K.update sv.route r) :=
        (K.place_of_inPlace _ _ hchange).trans (K.update_place sv.route r).symm
      exact ⟨sv.toSocket, hk₀, rfl, hplace, rfl⟩
    · rw [hsame n hn] at hk
      exact ⟨k, hk, rfl, rfl, rfl⟩
  obtain ⟨_, hnotBound, k₂, hk₂, hroute₂, _⟩ := h.registered (K.id r) l hl
  obtain rfl : sv.toSocket = k₂ := Option.some.inj (hk₀.symm.trans hk₂)
  constructor
  case registered =>
    intro id' l' hl'
    obtain ⟨hover, hbound, k, hk, hroute, hport⟩ := h.registered id' l' hl'
    refine ⟨hover, hbound, ?_⟩
    by_cases heq : l'.server = l.server
    · rw [heq, hk₀] at hk
      obtain rfl := Option.some.inj hk
      refine ⟨k₁, heq ▸ hself, ?_, hport⟩
      calc
        K.id (K.update sv.route r) = K.id r := K.update_id sv.route r
        _ = K.id sv.route := hroute₂.symm
        _ = id' := hroute
    · exact ⟨k, (hsame _ heq).trans hk, hroute, hport⟩
  case fresh =>
    intro n k hk
    obtain ⟨k₀, hk₀, _⟩ := hback n k hk
    exact h.fresh n k₀ hk₀
  case overlap => exact h.overlap
  case placed =>
    intro n k hk
    obtain ⟨k₀, hk₀, hplace, hroute, _⟩ := hback n k hk
    have hplaced := h.placed n k₀ hk₀
    rwa [Placed, hplace, hroute] at hplaced
  case bound =>
    intro b hmem
    obtain ⟨hover, k, hk, hrest⟩ := h.bound b hmem
    have hne : b.2 ≠ l.server := by
      intro heq
      exact hnotBound (heq ▸ List.mem_map_of_mem hmem)
    exact ⟨hover, k, (hsame _ hne).trans hk, hrest⟩
  case distinct => exact h.distinct
  case listening =>
    intro id' l' k hl' hk
    obtain ⟨k₀, hk₀, _, _, hacc⟩ := hback _ k hk
    exact hacc ▸ h.listening id' l' k₀ hl' hk₀
  case closed =>
    intro id' hid'
    obtain ⟨hnot, hshut⟩ := h.closed id' hid'
    refine ⟨hnot, ?_⟩
    intro l' k hl' hk
    obtain ⟨k₀, hk₀, _, _, hacc⟩ := hback _ k hk
    exact hacc ▸ hshut l' k₀ hl' hk₀
  case accounted =>
    intro n k hk hopen
    obtain ⟨k₀, hk₀, _, _, hacc⟩ := hback _ k hk
    exact h.accounted n k₀ hk₀ (hacc.trans hopen)

/-- The host has bound a route. -/
theorem listening_bound (h : s.Servers K) {cs : List (Call ι ρ)} {table : List ρ} {r : ρ}
    {old : Option Nat} {rest : List ρ} {port : Nat}
    (hr : Replaces s.calls cs ⟨table, .binding r old rest⟩
      [⟨table, .bound r old s.nextServer rest⟩])
    (hport : portFits (K.place r).port port = true) :
    Servers K { s with
      servers := s.servers.set s.nextServer ⟨⟨⟨(K.place r).address, port⟩, r, true⟩, 0⟩
      nextServer := s.nextServer + 1
      calls := cs } := by
  have hc : cs.filterMap Call.closes = s.closings := hr.filterMap_eq rfl rfl
  -- one bound server more, with a new number
  have hperm : (cs.filterMap Call.bound).Perm ((r, s.nextServer) :: s.bounds) :=
    hr.filterMap_more rfl rfl
  have hmem : ∀ b, b ∈ cs.filterMap Call.bound ↔ b = (r, s.nextServer) ∨ b ∈ s.bounds :=
    fun b => hperm.mem_iff.trans List.mem_cons
  have hsocket : ∀ m, Manager.socket { s with
      servers := s.servers.set s.nextServer ⟨⟨⟨(K.place r).address, port⟩, r, true⟩, 0⟩
      nextServer := s.nextServer + 1
      calls := cs } m =
        if m = s.nextServer then some ⟨⟨(K.place r).address, port⟩, r, true⟩ else s.socket m := by
    intro m
    simp only [socket, OrderedMap.get_set]
    split
    · rfl
    · rfl
  -- the servers there are have smaller numbers
  have hold : ∀ m k, s.socket m = some k → m ≠ s.nextServer := by
    intro m k hk
    exact Nat.ne_of_lt (h.fresh m k hk)
  constructor
  case registered =>
    intro id l hl
    obtain ⟨hover, hbound, k, hk, hrest⟩ := h.registered id l hl
    refine ⟨hover, ?_, k, by rw [hsocket, if_neg (hold _ k hk), hk], hrest⟩
    intro hin
    obtain ⟨b, hb, hbl⟩ := List.mem_map.1 hin
    rcases (hmem b).1 hb with rfl | hb
    · exact hold _ k hk hbl.symm
    · exact hbound (List.mem_map.2 ⟨b, hb, hbl⟩)
  case fresh =>
    intro m k hk
    rw [hsocket] at hk
    split at hk
    · rename_i heq
      rw [heq]
      exact Nat.lt_succ_self _
    · exact Nat.lt_succ_of_lt (h.fresh m k hk)
  case overlap =>
    intro m hm
    exact Nat.lt_succ_of_lt (h.overlap m hm)
  case placed =>
    intro m k hk
    rw [hsocket] at hk
    split at hk
    · obtain rfl := Option.some.inj hk
      exact ⟨rfl, hport⟩
    · exact h.placed m k hk
  case bound =>
    intro b hb
    rcases (hmem b).1 hb with rfl | hb
    · refine ⟨?_, _, by rw [hsocket, if_pos rfl], rfl, rfl⟩
      intro hover
      exact Nat.lt_irrefl _ (h.overlap _ hover)
    · obtain ⟨hover, k, hk, hrest⟩ := h.bound b hb
      exact ⟨hover, k, by rw [hsocket, if_neg (hold _ k hk), hk], hrest⟩
  case distinct =>
    show ((cs.filterMap Call.bound).map Prod.snd).Nodup
    refine (hperm.map Prod.snd).nodup_iff.2 (List.nodup_cons.2 ⟨?_, h.distinct⟩)
    intro hin
    obtain ⟨b, hb, hbl⟩ := List.mem_map.1 hin
    obtain ⟨_, k, hk, _⟩ := h.bound b hb
    exact hold _ k hk hbl
  case listening =>
    intro id l k hl hk
    obtain ⟨_, _, k₀, hk₀, _⟩ := h.registered id l hl
    rw [hsocket, if_neg (hold _ k₀ hk₀)] at hk
    show _ ∨ id ∈ cs.filterMap Call.closes
    rw [hc]
    exact h.listening id l k hl hk
  case closed =>
    intro id hid
    have hid' : id ∈ s.closings := hc ▸ hid
    obtain ⟨hnot, hshut⟩ := h.closed id hid'
    refine ⟨hnot, ?_⟩
    intro l k hl hk
    obtain ⟨_, _, k₀, hk₀, _⟩ := h.registered id l hl
    rw [hsocket, if_neg (hold _ k₀ hk₀)] at hk
    exact hshut l k hl hk
  case accounted =>
    intro m k hk hacc
    rw [hsocket] at hk
    split at hk
    · rename_i heq
      exact .inr (.inr (List.mem_map.2 ⟨_, (hmem _).2 (.inl rfl), heq.symm⟩))
    · rcases h.accounted m k hk hacc with hreg | hover | hbound
      · exact .inl hreg
      · exact .inr (.inl hover)
      · obtain ⟨b, hb, hbm⟩ := List.mem_map.1 hbound
        exact .inr (.inr (List.mem_map.2 ⟨b, (hmem b).2 (.inr hb), hbm⟩))

/-- The listener takes the place of the one the call has found; that one has ten seconds left. -/
theorem register (h : s.Servers K) {cs : List (Call ι ρ)} {table : List ρ} {r : ρ}
    {old : Option Nat} {n : Nat} {rest : List ρ} {k : Socket ρ}
    (hr : Replaces s.calls cs ⟨table, .bound r old n rest⟩ [⟨table, .applying rest⟩])
    (hk : s.socket n = some k) (hold : (s.listeners.get (K.id r)).map Listener.server = old)
    (hid : K.id r ∈ s.table.map K.id) :
    Servers K { s with
      listeners := s.listeners.set (K.id r) ⟨n, k.place.port⟩
      overlap := old.toList ++ s.overlap
      calls := cs } := by
  have hc : cs.filterMap Call.closes = s.closings := hr.filterMap_eq rfl rfl
  -- one bound server less, and its number is not that of another
  have hperm : s.bounds.Perm ((r, n) :: cs.filterMap Call.bound) := hr.filterMap_less rfl rfl
  have hmem : ∀ b, b ∈ s.bounds ↔ b = (r, n) ∨ b ∈ cs.filterMap Call.bound :=
    fun b => hperm.mem_iff.trans List.mem_cons
  have hdistinct : n ∉ (cs.filterMap Call.bound).map Prod.snd ∧
      ((cs.filterMap Call.bound).map Prod.snd).Nodup :=
    List.nodup_cons.1 ((hperm.map Prod.snd).nodup_iff.1 h.distinct)
  obtain ⟨hnover, k₀, hk₀, hroute, hacc⟩ := h.bound (r, n) ((hmem _).2 (.inl rfl))
  obtain rfl : k = k₀ := Option.some.inj (hk.symm.trans hk₀)
  have hnotBound : ∀ m, m ∉ s.bounds.map Prod.snd → m ∉ (cs.filterMap Call.bound).map Prod.snd := by
    intro m hm hin
    obtain ⟨b, hb, hbm⟩ := List.mem_map.1 hin
    exact hm (List.mem_map.2 ⟨b, (hmem b).2 (.inr hb), hbm⟩)
  -- the old server is the one registered so far
  have hfound : ∀ m ∈ old.toList, ∃ l, s.listeners.get (K.id r) = some l ∧ l.server = m := by
    intro m hm
    rw [← hold, Option.mem_toList] at hm
    exact Option.map_eq_some_iff.1 hm
  constructor
  case registered =>
    intro id l hl
    have hl' : (s.listeners.set (K.id r) ⟨n, k.place.port⟩).get id = some l := hl
    rw [OrderedMap.get_set] at hl'
    split at hl'
    · rename_i heq
      obtain rfl := Option.some.inj hl'
      refine ⟨?_, hdistinct.1, k, hk, by rw [hroute, heq], rfl⟩
      intro hover
      rcases List.mem_append.1 hover with hin | hin
      · obtain ⟨l, hl, hln⟩ := hfound n hin
        obtain ⟨_, hnot, _⟩ := h.registered _ l hl
        exact hnot (List.mem_map.2 ⟨(r, n), (hmem _).2 (.inl rfl), hln.symm⟩)
      · exact hnover hin
    · rename_i hne
      obtain ⟨hover, hbound, hsocket⟩ := h.registered id l hl'
      refine ⟨?_, hnotBound _ hbound, hsocket⟩
      intro hin
      rcases List.mem_append.1 hin with hin | hin
      · obtain ⟨l₀, hl₀, hl₀n⟩ := hfound _ hin
        exact h.server_ne hl₀ hl' (Ne.symm hne) hl₀n
      · exact hover hin
  case fresh => exact h.fresh
  case overlap =>
    intro m hm
    rcases List.mem_append.1 hm with hin | hin
    · obtain ⟨l, hl, rfl⟩ := hfound m hin
      obtain ⟨_, _, k', hk', _⟩ := h.registered _ l hl
      exact h.fresh _ k' hk'
    · exact h.overlap m hin
  case placed => exact h.placed
  case bound =>
    intro b hb
    obtain ⟨hover, hsocket⟩ := h.bound b ((hmem b).2 (.inr hb))
    refine ⟨?_, hsocket⟩
    intro hin
    rcases List.mem_append.1 hin with hin | hin
    · obtain ⟨l, hl, hlb⟩ := hfound _ hin
      obtain ⟨_, hnot, _⟩ := h.registered _ l hl
      exact hnot (List.mem_map.2 ⟨b, (hmem b).2 (.inr hb), hlb.symm⟩)
    · exact hover hin
  case distinct => exact hdistinct.2
  case listening =>
    intro id l k' hl hk'
    have hl' : (s.listeners.set (K.id r) ⟨n, k.place.port⟩).get id = some l := hl
    show _ ∨ id ∈ cs.filterMap Call.closes
    rw [hc]
    rw [OrderedMap.get_set] at hl'
    split at hl'
    · obtain rfl := Option.some.inj hl'
      obtain rfl : k = k' := Option.some.inj (hk.symm.trans hk')
      exact .inl hacc
    · exact h.listening id l k' hl' hk'
  case closed =>
    intro id hid'
    have hclosing : id ∈ s.closings := hc ▸ hid'
    obtain ⟨hnot, hshut⟩ := h.closed id hclosing
    refine ⟨hnot, ?_⟩
    intro l k' hl hk'
    have hl' : (s.listeners.set (K.id r) ⟨n, k.place.port⟩).get id = some l := hl
    rw [OrderedMap.get_set, if_neg] at hl'
    · exact hshut l k' hl' hk'
    · rintro rfl
      exact hnot hid
  case accounted =>
    intro m k' hk' hopen
    show (∃ id l, (s.listeners.set (K.id r) ⟨n, k.place.port⟩).get id = some l ∧ _) ∨
      m ∈ old.toList ++ s.overlap ∨ m ∈ (cs.filterMap Call.bound).map Prod.snd
    rcases h.accounted m k' hk' hopen with ⟨id, l, hl, rfl⟩ | hover | hbound
    · by_cases heq : id = K.id r
      · refine .inr (.inl (List.mem_append_left _ ?_))
        rw [← hold, ← heq, hl]
        simp
      · exact .inl ⟨id, l, by rw [OrderedMap.get_set_ne _ heq, hl], rfl⟩
    · exact .inr (.inl (List.mem_append_right _ hover))
    · obtain ⟨b, hb, rfl⟩ := List.mem_map.1 hbound
      rcases (hmem b).1 hb with rfl | hb
      · exact .inl ⟨K.id r, _, OrderedMap.get_set_self _ _ _, rfl⟩
      · exact .inr (.inr (List.mem_map_of_mem hb))

/-- The ten seconds of an old server are over. -/
theorem expire (h : s.Servers K) {n : Nat} (hn : n ∈ s.overlap) :
    Servers K ({ s with overlap := s.overlap.erase n }.close n) := by
  let s₁ := { s with overlap := s.overlap.erase n }
  have hsame : ∀ m, m ≠ n → (s₁.close n).socket m = s.socket m := by
    intro m hm
    rw [close_socket, if_neg hm]
    rfl
  have hback : ∀ m k, (s₁.close n).socket m = some k →
      ∃ k₀, s.socket m = some k₀ ∧ k₀.place = k.place ∧ k₀.route = k.route ∧
        (k.accepting = true → m ≠ n) := by
    intro m k hk
    by_cases hm : m = n
    · subst hm
      rw [close_socket, if_pos rfl] at hk
      obtain ⟨k₀, hk₀, rfl⟩ := Option.map_eq_some_iff.1 hk
      exact ⟨k₀, hk₀, rfl, rfl, fun h => by cases h⟩
    · rw [hsame m hm] at hk
      exact ⟨k, hk, rfl, rfl, fun _ => hm⟩
  -- what is not in the overlap is another server
  have hne : ∀ {m : Nat}, m ∉ s.overlap → m ≠ n := by
    rintro m hm rfl
    exact hm hn
  constructor
  case registered =>
    intro id l hl
    obtain ⟨hover, hbound, k, hk, hrest⟩ := h.registered id l hl
    exact ⟨fun hin => hover (List.mem_of_mem_erase hin), hbound, k,
      (hsame _ (hne hover)).trans hk, hrest⟩
  case fresh =>
    intro m k hk
    obtain ⟨k₀, hk₀, _⟩ := hback m k hk
    exact h.fresh m k₀ hk₀
  case overlap =>
    intro m hm
    exact h.overlap m (List.mem_of_mem_erase hm)
  case placed =>
    intro m k hk
    obtain ⟨k₀, hk₀, hplace, hroute, _⟩ := hback m k hk
    have hplaced := h.placed m k₀ hk₀
    rwa [Placed, hplace, hroute] at hplaced
  case bound =>
    intro b hb
    obtain ⟨hover, k, hk, hrest⟩ := h.bound b hb
    exact ⟨fun hin => hover (List.mem_of_mem_erase hin), k, (hsame _ (hne hover)).trans hk, hrest⟩
  case distinct => exact h.distinct
  case listening =>
    intro id l k hl hk
    obtain ⟨hover, _⟩ := h.registered id l hl
    exact h.listening id l k hl ((hsame _ (hne hover)).symm.trans hk)
  case closed =>
    intro id hid
    obtain ⟨hnot, hshut⟩ := h.closed id hid
    refine ⟨hnot, ?_⟩
    intro l k hl hk
    obtain ⟨hover, _⟩ := h.registered id l hl
    exact hshut l k hl ((hsame _ (hne hover)).symm.trans hk)
  case accounted =>
    intro m k hk hacc
    obtain ⟨_, _, _, _, hm⟩ := hback m k hk
    rcases h.accounted m k ((hsame m (hm hacc)).symm.trans hk) hacc with hreg | hover | hbound
    · exact .inl hreg
    · exact .inr (.inl ((List.mem_erase_of_ne (hm hacc)).2 hover))
    · exact .inr (.inr hbound)

end Servers

end Manager

end Proxy
end GateControl
