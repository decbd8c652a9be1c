import GateControl.Proxy.ListenerManager

/-!
# Calls — what a call of `setRoutes` has still to do, and the steps there are

`Replaces` describes one call of several going on; `Transition` lists all steps of the manager with
what is known where each is taken.
-/

namespace GateControl
namespace Proxy

open Library

/-! ## What a call has still to do -/

namespace Call

variable {ι ρ : Type}

/-- The routes it has not looked at yet. -/
def left (c : Call ι ρ) : List ρ :=
  match c.pc with
  | .removing => c.table
  | .closing _ _ => c.table
  | .applying rest => rest
  | .binding _ _ rest => rest
  | .bound _ _ _ rest => rest

/-- The route it has given to the host. -/
def given (c : Call ι ρ) : Option ρ :=
  match c.pc with
  | .binding r _ _ => some r
  | .bound r _ _ _ => some r
  | _ => none

/-- The routes it may still register a listener for. -/
def pending (c : Call ι ρ) : List ρ := c.given.toList ++ c.left

/-- The server it is about to register, and the route that is for. -/
def bound (c : Call ι ρ) : Option (ρ × Nat) :=
  match c.pc with
  | .bound r _ n _ => some (r, n)
  | _ => none

/-- The route whose listener it has closed and is about to remove. -/
def closes (c : Call ι ρ) : Option ι :=
  match c.pc with
  | .closing id _ => some id
  | _ => none

/-- The table of a call that looks for the next listener to remove. -/
def removal (c : Call ι ρ) : Option (List ρ) :=
  match c.pc with
  | .removing => some c.table
  | _ => none

/-- The route it looks at next. -/
def next (c : Call ι ρ) : Option ρ :=
  match c.pc with
  | .applying rest => rest.head?
  | _ => none

/-- The route it waits for the host to bind. -/
def binding (c : Call ι ρ) : Option ρ :=
  match c.pc with
  | .binding r _ _ => some r
  | _ => none

/-- The route it is about to register a listener for, and the server it has found for it. -/
def registration (c : Call ι ρ) : Option (ρ × Option Nat) :=
  match c.pc with
  | .bound r old _ _ => some (r, old)
  | _ => none

/-- It is not through with the first loop. -/
def removes (c : Call ι ρ) : Bool :=
  match c.pc with
  | .removing => true
  | .closing _ _ => true
  | _ => false

end Call

/-- In a list of calls, one has gone on to `ds`: to another state, or to its end. -/
def Replaces {γ : Type} (cs cs' : List γ) (c : γ) (ds : List γ) : Prop :=
  ∃ before after, cs = before ++ c :: after ∧ cs' = before ++ (ds ++ after)

namespace Replaces

variable {γ : Type} {cs cs' : List γ} {c : γ} {ds : List γ}

theorem of_set {i : Nat} (h : cs[i]? = some c) (d : γ) : Replaces cs (cs.set i d) c [d] := by
  obtain ⟨hi, rfl⟩ := List.getElem?_eq_some_iff.1 h
  refine ⟨cs.take i, cs.drop (i + 1), ?_, ?_⟩
  · rw [List.cons_getElem_drop_succ, List.take_append_drop]
  · rw [List.set_eq_take_append_cons_drop, if_pos hi]
    rfl

theorem of_eraseIdx {i : Nat} (h : cs[i]? = some c) : Replaces cs (cs.eraseIdx i) c [] := by
  obtain ⟨hi, rfl⟩ := List.getElem?_eq_some_iff.1 h
  refine ⟨cs.take i, cs.drop (i + 1), ?_, ?_⟩
  · rw [List.cons_getElem_drop_succ, List.take_append_drop]
  · rw [List.eraseIdx_eq_take_drop_succ]
    rfl

theorem mem (h : Replaces cs cs' c ds) : c ∈ cs := by
  obtain ⟨before, after, rfl, _⟩ := h
  simp

theorem mem_new (h : Replaces cs cs' c ds) {d : γ} (hd : d ∈ ds) : d ∈ cs' := by
  obtain ⟨before, after, _, rfl⟩ := h
  simp [hd]

theorem cases_new (h : Replaces cs cs' c ds) {d : γ} (hd : d ∈ cs') : d ∈ ds ∨ d ∈ cs := by
  obtain ⟨before, after, rfl, rfl⟩ := h
  simp only [List.mem_append, List.mem_cons] at hd ⊢
  grind

theorem cases_old (h : Replaces cs cs' c ds) {d : γ} (hd : d ∈ cs) : d = c ∨ d ∈ cs' := by
  obtain ⟨before, after, rfl, rfl⟩ := h
  simp only [List.mem_append, List.mem_cons] at hd ⊢
  grind

/-- What `f` finds in the calls changes at that place only. -/
theorem filterMap {β : Type} (h : Replaces cs cs' c ds) (f : γ → Option β) :
    ∃ before after, cs.filterMap f = before ++ ((f c).toList ++ after) ∧
      cs'.filterMap f = before ++ (ds.filterMap f ++ after) := by
  obtain ⟨before, after, rfl, rfl⟩ := h
  refine ⟨before.filterMap f, after.filterMap f, ?_, by simp⟩
  cases hc : f c with
  | none => simp [hc]
  | some b => simp [hc]

/-- What `f` finds stays the same if it finds nothing there. -/
theorem filterMap_eq {β : Type} (h : Replaces cs cs' c ds) {f : γ → Option β} (hc : f c = none)
    (hds : ds.filterMap f = []) : cs'.filterMap f = cs.filterMap f := by
  obtain ⟨before, after, hcs, hcs'⟩ := h.filterMap f
  rw [hcs, hcs', hc, hds]
  rfl

/-- What `f` finds in the new calls is one more. -/
theorem filterMap_more {β : Type} (h : Replaces cs cs' c ds) {f : γ → Option β} {b : β}
    (hc : f c = none) (hds : ds.filterMap f = [b]) :
    (cs'.filterMap f).Perm (b :: cs.filterMap f) := by
  obtain ⟨before, after, hcs, hcs'⟩ := h.filterMap f
  rw [hcs, hcs', hc, hds]
  exact List.perm_middle

/-- What `f` has found in the call is not there any more. -/
theorem filterMap_less {β : Type} (h : Replaces cs cs' c ds) {f : γ → Option β} {b : β}
    (hc : f c = some b) (hds : ds.filterMap f = []) :
    (cs.filterMap f).Perm (b :: cs'.filterMap f) := by
  obtain ⟨before, after, hcs, hcs'⟩ := h.filterMap f
  rw [hcs, hcs', hc, hds]
  exact List.perm_middle

end Replaces

namespace Manager

variable {ι ρ : Type}

/-- Something about the call at a place. -/
def callAt {β : Type} (s : Manager ι ρ) (i : Nat) (f : Call ι ρ → Option β) : Option β :=
  s.calls[i]?.bind f

theorem callAt_eq {β : Type} {s : Manager ι ρ} {i : Nat} {c : Call ι ρ}
    (h : s.calls[i]? = some c) (f : Call ι ρ → Option β) : s.callAt i f = f c := by
  rw [callAt, h]
  rfl

/-! ## What is seen of a server -/

def socket (s : Manager ι ρ) (n : Nat) : Option (Socket ρ) := (s.servers.get n).map Server.toSocket

theorem close_socket (s : Manager ι ρ) (n m : Nat) :
    (s.close n).socket m =
      if m = n then (s.socket n).map fun k => { k with accepting := false } else s.socket m := by
  unfold close
  cases hn : s.servers.get n with
  | none =>
      by_cases hm : m = n
      · rw [if_pos hm, hm, socket, hn]
        rfl
      · rw [if_neg hm]
  | some sv =>
      simp only [socket, OrderedMap.get_set]
      by_cases hm : m = n
      · rw [if_pos hm, if_pos hm, hn]
        rfl
      · rw [if_neg hm, if_neg hm]

theorem socket_of_get {s : Manager ι ρ} {n : Nat} {sv : Server ρ} (h : s.servers.get n = some sv) :
    s.socket n = some sv.toSocket := by
  rw [socket, h]
  rfl

/-- Clients are not seen. -/
theorem socket_clients {s : Manager ι ρ} {n : Nat} {sv : Server ρ} (h : s.servers.get n = some sv)
    (m j : Nat) :
    socket { s with servers := s.servers.set n { sv with clients := m } } j = s.socket j := by
  simp only [socket, OrderedMap.get_set]
  split
  · rename_i heq
    rw [heq, h]
    rfl
  · rfl

variable [DecidableEq ι] {K : Kind ι ρ} {s s' : Manager ι ρ}

/-- The socket registered for a route. -/
def view (s : Manager ι ρ) (id : ι) : Option (Socket ρ) :=
  (s.listeners.get id).bind fun l => s.socket l.server

/-! ## The steps there are -/

theorem nextRemoval_some {table : List ρ} {e : ι × Listener}
    (h : s.nextRemoval K table = some e) :
    s.listeners.get e.1 = some e.2 ∧ e.1 ∉ table.map K.id := by
  constructor
  · exact (OrderedMap.get_eq_some_iff _).2 (List.mem_of_find?_eq_some h)
  · simpa using List.find?_some h

theorem nextRemoval_none {table : List ρ} (h : s.nextRemoval K table = none) {id : ι}
    {l : Listener} (hl : s.listeners.get id = some l) : id ∈ table.map K.id := by
  have hmem := (OrderedMap.get_eq_some_iff _).1 hl
  simpa using List.find?_eq_none.1 h _ hmem

variable (K s) in
inductive Transition : Action ρ → Manager ι ρ → Prop
  | call (table : List ρ) :
      Transition (.call table) { s with
        calls := s.calls ++ [⟨table, .removing⟩]
        table := table
        processed := []
        refused := [] }
  | close {i : Nat} {table : List ρ} {id : ι} {l : Listener}
      (hc : s.calls[i]? = some ⟨table, .removing⟩) (hl : s.nextRemoval K table = some (id, l)) :
      Transition (.run i) ((s.close l.server).goOn i table (.closing id l.server))
  | apply {i : Nat} {table : List ρ} (hc : s.calls[i]? = some ⟨table, .removing⟩)
      (hl : s.nextRemoval K table = none) :
      Transition (.run i) (s.goOn i table (.applying table))
  | removed {i : Nat} {table : List ρ} {id : ι} {n : Nat} {sv : Server ρ}
      (hc : s.calls[i]? = some ⟨table, .closing id n⟩) (hsv : s.servers.get n = some sv)
      (hclients : sv.clients = 0) : Transition (.run i) (s.removed i table id)
  | finish {i : Nat} {table : List ρ} (hc : s.calls[i]? = some ⟨table, .applying []⟩) :
      Transition (.run i) { s with calls := s.calls.eraseIdx i }
  | new {i : Nat} {table : List ρ} {r : ρ} {rest : List ρ}
      (hc : s.calls[i]? = some ⟨table, .applying (r :: rest)⟩)
      (hl : s.listeners.get (K.id r) = none) :
      Transition (.run i)
        ({ s with processed := s.processed ++ [r] }.goOn i table (.binding r none rest))
  | unchanged {i : Nat} {table : List ρ} {r : ρ} {rest : List ρ} {l : Listener} {sv : Server ρ}
      (hc : s.calls[i]? = some ⟨table, .applying (r :: rest)⟩)
      (hl : s.listeners.get (K.id r) = some l) (hsv : s.servers.get l.server = some sv)
      (hchange : K.change sv.route r = .none) :
      Transition (.run i)
        ({ s with processed := s.processed ++ [r] }.goOn i table (.applying rest))
  | inPlace {i : Nat} {table : List ρ} {r : ρ} {rest : List ρ} {l : Listener} {sv : Server ρ}
      (hc : s.calls[i]? = some ⟨table, .applying (r :: rest)⟩)
      (hl : s.listeners.get (K.id r) = some l) (hsv : s.servers.get l.server = some sv)
      (hchange : K.change sv.route r = .inPlace) :
      Transition (.run i)
        ({ s with
          processed := s.processed ++ [r]
          servers := s.servers.set l.server { sv with route := K.update sv.route r } }.goOn i table
            (.applying rest))
  | rebind {i : Nat} {table : List ρ} {r : ρ} {rest : List ρ} {l : Listener} {sv : Server ρ}
      (hc : s.calls[i]? = some ⟨table, .applying (r :: rest)⟩)
      (hl : s.listeners.get (K.id r) = some l) (hsv : s.servers.get l.server = some sv)
      (hchange : K.change sv.route r = .rebind) :
      Transition (.run i)
        ({ s with processed := s.processed ++ [r] }.goOn i table (.binding r (some l.server) rest))
  | listening {i : Nat} {table : List ρ} {r : ρ} {old : Option Nat} {rest : List ρ} {port : Nat}
      (hc : s.calls[i]? = some ⟨table, .binding r old rest⟩)
      (hport : portFits (K.place r).port port = true) :
      Transition (.bind i (some port)) (s.listening K i table r old rest port)
  | refused {i : Nat} {table : List ρ} {r : ρ} {old : Option Nat} {rest : List ρ}
      (hc : s.calls[i]? = some ⟨table, .binding r old rest⟩) :
      Transition (.bind i none)
        ({ s with refused := s.refused ++ [r] }.goOn i table (.applying rest))
  | register {i : Nat} {table : List ρ} {r : ρ} {old : Option Nat} {n : Nat} {rest : List ρ}
      {sv : Server ρ} (hc : s.calls[i]? = some ⟨table, .bound r old n rest⟩)
      (hsv : s.servers.get n = some sv) :
      Transition (.run i) (s.register K i table r old n sv.place.port rest)
  | connect {n : Nat} {sv : Server ρ} (hsv : s.servers.get n = some sv)
      (hacc : sv.accepting = true) :
      Transition (.connect n)
        { s with servers := s.servers.set n { sv with clients := sv.clients + 1 } }
  | disconnect {n : Nat} {sv : Server ρ} (hsv : s.servers.get n = some sv)
      (hclients : 0 < sv.clients) :
      Transition (.disconnect n)
        { s with servers := s.servers.set n { sv with clients := sv.clients - 1 } }
  | expire {n : Nat} (hn : n ∈ s.overlap) :
      Transition (.expire n) ({ s with overlap := s.overlap.erase n }.close n)

theorem run_transition {i : Nat} (h : s.run K i = some s') : Transition K s (.run i) s' := by
  unfold run at h
  cases hc : s.calls[i]? with
  | none =>
      rw [hc] at h
      cases h
  | some c =>
      obtain ⟨table, pc⟩ := c
      rw [hc] at h
      cases pc with
      | removing =>
          simp only [removeNext] at h
          cases hnext : s.nextRemoval K table with
          | none =>
              rw [hnext] at h
              cases h
              exact .apply hc hnext
          | some e =>
              rw [hnext] at h
              cases h
              exact .close hc hnext
      | closing id n =>
          cases hsv : s.servers.get n with
          | none => simp [hsv] at h
          | some sv =>
              simp only [hsv, Option.any_some, decide_eq_true_eq, Option.ite_none_right_eq_some]
                at h
              obtain ⟨hclients, heq⟩ := h
              cases heq
              exact .removed hc hsv hclients
      | applying rest =>
          cases rest with
          | nil =>
              cases h
              exact .finish hc
          | cons r rest =>
              simp only [applyNext] at h
              cases hl : s.listeners.get (K.id r) with
              | none =>
                  rw [hl] at h
                  cases h
                  exact .new hc hl
              | some l =>
                  rw [hl] at h
                  cases hsv : s.servers.get l.server with
                  | none => simp [hsv] at h
                  | some sv =>
                      simp only [hsv] at h
                      cases hchange : K.change sv.route r with
                      | none =>
                          rw [hchange] at h
                          cases h
                          exact .unchanged hc hl hsv hchange
                      | inPlace =>
                          rw [hchange] at h
                          cases h
                          exact .inPlace hc hl hsv hchange
                      | rebind =>
                          rw [hchange] at h
                          cases h
                          exact .rebind hc hl hsv hchange
      | binding r old rest => cases h
      | bound r old n rest =>
          obtain ⟨sv, hsv, rfl⟩ := Option.map_eq_some_iff.1 h
          exact .register hc hsv

/-- Every step is one of these. -/
theorem step_transition {a : Action ρ} (h : s.step K a = some s') : Transition K s a s' := by
  cases a with
  | call table =>
      cases h
      exact .call table
  | run i => exact run_transition h
  | bind i port =>
      simp only [step] at h
      cases hc : s.calls[i]? with
      | none => simp [hc] at h
      | some c =>
          obtain ⟨table, pc⟩ := c
          cases pc with
          | binding r old rest =>
              simp only [hc] at h
              cases port with
              | none =>
                  cases h
                  exact .refused hc
              | some p =>
                  obtain ⟨hport, heq⟩ := Option.ite_none_right_eq_some.1 h
                  cases heq
                  exact .listening hc hport
          | _ => simp [hc] at h
  | connect n =>
      simp only [step] at h
      cases hsv : s.servers.get n with
      | none => simp [hsv] at h
      | some sv =>
          simp only [hsv, Option.ite_none_right_eq_some] at h
          obtain ⟨hacc, heq⟩ := h
          cases heq
          exact .connect hsv hacc
  | disconnect n =>
      simp only [step] at h
      cases hsv : s.servers.get n with
      | none => simp [hsv] at h
      | some sv =>
          simp only [hsv, Option.ite_none_right_eq_some] at h
          obtain ⟨hclients, heq⟩ := h
          cases heq
          exact .disconnect hsv hclients
  | expire n =>
      obtain ⟨hn, heq⟩ := Option.ite_none_right_eq_some.1 h
      cases heq
      exact .expire hn

end Manager

end Proxy
end GateControl
