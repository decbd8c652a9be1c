import GateControl.Edge.Bridge

/-!
# Sockets — which sockets the maps of a plugin name

`Consistent k net w` ties the maps of the `PluginNet` number `k` to what is open: a socket that is
ready stands in its map under its id, and what stands in a map is open.  It holds of each `PluginNet`
in every state of the bridge, of a closed one as well as of a current one (`Owned`, `step_owned`).
-/

namespace GateControl
namespace Edge

open Library

/-! ## One `PluginNet` -/

/-- What a map of the plugin names under an id. -/
def PluginNet.named (net : PluginNet) (t : Table) (id : Nat) : Option Nat :=
  match t with
  | .udp => net.udp.get id
  | .common => if id = 0 then net.ephemeral else none
  | .tcp => net.tcp.get id

/-- The maps of a `PluginNet` against what is open. -/
structure Consistent (k : Nat) (net : PluginNet) (w : Network) : Prop where
  socket : ∀ {n s}, w.sockets.get n = some s → s.net = k →
    s.plugin = net.pluginId ∧ s.id ≤ net.nextId ∧ (s.id = 0 ↔ s.kind = .ephemeral) ∧
      (s.kind = .ephemeral → s.ready = true) ∧
      (s.ready = true → net.named s.kind.table s.id = some n)
  named : ∀ {t i n}, net.named t i = some n →
    ∃ s, w.sockets.get n = some s ∧ s.net = k ∧ s.id = i ∧ s.kind.table = t ∧ s.ready = true
  distinct : ∀ {n n' s s'}, w.sockets.get n = some s → w.sockets.get n' = some s' → s.net = k →
    s'.net = k → s.id = s'.id → n = n'
  browse : ∀ {n br}, w.browses.get n = some br → br.net = k →
    br.plugin = net.pluginId ∧ br.id ≤ net.nextId ∧ net.browses.get br.id = some n
  browsed : ∀ {i n}, net.browses.get i = some n →
    ∃ br, w.browses.get n = some br ∧ br.net = k ∧ br.id = i

/-- What is open belongs to the same sockets of `PluginNet` number `k`. -/
structure Agree (k : Nat) (w w' : Network) : Prop where
  sockets : ∀ n s, s.net = k → (w'.sockets.get n = some s ↔ w.sockets.get n = some s)
  browses : ∀ n br, br.net = k → (w'.browses.get n = some br ↔ w.browses.get n = some br)

/-- The numbers that are handed out next are free. -/
structure Numbered (w : Network) : Prop where
  socket : ∀ {n s}, w.sockets.get n = some s → n < w.nextSocket
  browse : ∀ {n br}, w.browses.get n = some br → n < w.nextBrowse

namespace Consistent

variable {k : Nat} {net : PluginNet} {w w' : Network}

theorem new (k : Nat) (id : String) (w : Network) (hs : ∀ n s, w.sockets.get n = some s → s.net ≠ k)
    (hb : ∀ n br, w.browses.get n = some br → br.net ≠ k) : Consistent k (.new id) w where
  socket hn hk := absurd hk (hs _ _ hn)
  named {t i n} h := by
    cases t with
    | udp => cases h
    | common => simp [PluginNet.named, PluginNet.new] at h
    | tcp => cases h
  distinct hn _ hk := absurd hk (hs _ _ hn)
  browse hn hk := absurd hk (hb _ _ hn)
  browsed h := by cases h

/-- Only the sockets of the `PluginNet` itself matter. -/
theorem of_agree (h : Consistent k net w) (ha : Agree k w w') : Consistent k net w' where
  socket hn hk := h.socket ((ha.sockets _ _ hk).1 hn) hk
  named ht := by
    rcases h.named ht with ⟨s, hs, hk, hrest⟩
    exact ⟨s, (ha.sockets _ _ hk).2 hs, hk, hrest⟩
  distinct hn hn' hk hk' := h.distinct ((ha.sockets _ _ hk).1 hn) ((ha.sockets _ _ hk').1 hn') hk hk'
  browse hn hk := h.browse ((ha.browses _ _ hk).1 hn) hk
  browsed hi := by
    rcases h.browsed hi with ⟨br, hbr, hk, hid⟩
    exact ⟨br, (ha.browses _ _ hk).2 hbr, hk, hid⟩

/-- The map in which a socket stands is determined by the socket. -/
theorem table_unique (h : Consistent k net w) {t t' : Table} {i i' n : Nat}
    (hn : net.named t i = some n) (hn' : net.named t' i' = some n) : t = t' ∧ i = i' := by
  rcases h.named hn with ⟨s, hs, _, hid, ht, _⟩
  rcases h.named hn' with ⟨s', hs', _, hid', ht', _⟩
  obtain rfl : s = s' := Option.some.inj (hs.symm.trans hs')
  exact ⟨ht.symm.trans ht', hid.symm.trans hid'⟩

end Consistent

/-! ## One entry changes -/

variable {net net' : PluginNet} {w w' : Network} {s : Socket} {caps : Caps}

/-- `net'` differs from `net` in one entry of one map. -/
structure Renamed (net net' : PluginNet) (t : Table) (i : Nat) (v : Option Nat) : Prop where
  pluginId : net'.pluginId = net.pluginId
  nextId : net'.nextId = net.nextId
  browses : net'.browses = net.browses
  named : ∀ t' i', net'.named t' i' = if t' = t ∧ i' = i then v else net.named t' i'

theorem renamed_udp (net : PluginNet) (i : Nat) :
    Renamed net { net with udp := net.udp.delete i } .udp i none := by
  refine ⟨rfl, rfl, rfl, fun t' i' => ?_⟩
  cases t' with
  | udp => simp [PluginNet.named, OrderedMap.get_delete]
  | common => simp [PluginNet.named]
  | tcp => simp [PluginNet.named]

theorem renamed_tcp (net : PluginNet) (i : Nat) :
    Renamed net { net with tcp := net.tcp.delete i } .tcp i none := by
  refine ⟨rfl, rfl, rfl, fun t' i' => ?_⟩
  cases t' with
  | udp => simp [PluginNet.named]
  | common => simp [PluginNet.named]
  | tcp => simp [PluginNet.named, OrderedMap.get_delete]

theorem renamed_register (net : PluginNet) (n : Nat) (h : s.kind ≠ .ephemeral) :
    Renamed net (net.register n s) s.kind.table s.id (some n) := by
  obtain ⟨plugin, k, id, kind, ready⟩ := s
  cases kind with
  | udp port groups =>
      refine ⟨rfl, rfl, rfl, fun t' i' => ?_⟩
      cases t' with
      | udp => simp [PluginNet.named, PluginNet.register, SocketKind.table, OrderedMap.get_set]
      | common => simp [PluginNet.named, PluginNet.register, SocketKind.table]
      | tcp => simp [PluginNet.named, PluginNet.register, SocketKind.table]
  | ephemeral =>
      exact absurd rfl h
  | tcp host port =>
      refine ⟨rfl, rfl, rfl, fun t' i' => ?_⟩
      cases t' with
      | udp => simp [PluginNet.named, PluginNet.register, SocketKind.table]
      | common => simp [PluginNet.named, PluginNet.register, SocketKind.table]
      | tcp => simp [PluginNet.named, PluginNet.register, SocketKind.table, OrderedMap.get_set]

theorem mem_handles {n : Nat} : n ∈ net.handles ↔ ∃ t i, net.named t i = some n := by
  simp only [PluginNet.handles, List.mem_append, OrderedMap.mem_values_iff, Option.mem_toList]
  constructor
  · rintro ((⟨i, hi⟩ | he) | ⟨i, hi⟩)
    · exact ⟨.udp, i, hi⟩
    · exact ⟨.common, 0, he⟩
    · exact ⟨.tcp, i, hi⟩
  · rintro ⟨t, i, h⟩
    cases t with
    | udp =>
        exact Or.inl (Or.inl ⟨i, h⟩)
    | common =>
        simp only [PluginNet.named] at h
        split at h
        · exact Or.inl (Or.inr h)
        · cases h
    | tcp =>
        exact Or.inr ⟨i, h⟩

/-! ## What is open after an operation -/

namespace Network

variable {w : Network} {n m : Nat}

theorem get_openSocket (s : Socket) :
    (w.openSocket s).sockets.get m = if m = w.nextSocket then some s else w.sockets.get m :=
  OrderedMap.get_set ..

theorem get_closeSocket :
    (w.closeSocket n).sockets.get m = if m = n then none else w.sockets.get m :=
  OrderedMap.get_delete ..

theorem get_of_closeSocket (h : (w.closeSocket n).sockets.get m = some s) :
    w.sockets.get m = some s :=
  (OrderedMap.get_delete_cases h).2

theorem get_browse (br : Browse) :
    (w.browse br).browses.get m = if m = w.nextBrowse then some br else w.browses.get m :=
  OrderedMap.get_set ..

theorem get_stopBrowse :
    (w.stopBrowse n).browses.get m = if m = n then none else w.browses.get m :=
  OrderedMap.get_delete ..

theorem get_closeOpen :
    (net.closeOpen w).sockets.get m = some s ↔
      w.sockets.get m = some s ∧ ∀ t i, net.named t i ≠ some m := by
  rw [PluginNet.closeOpen, OrderedMap.get_filter, decide_eq_true_eq, mem_handles]
  simp

theorem get_browse_closeOpen {br : Browse} :
    (net.closeOpen w).browses.get m = some br ↔
      w.browses.get m = some br ∧ ∀ i, net.browses.get i ≠ some m := by
  rw [PluginNet.closeOpen, OrderedMap.get_filter, decide_eq_true_eq, OrderedMap.mem_values_iff]
  simp

end Network

namespace Agree

variable {j k n : Nat} {net : PluginNet} {w : Network}

theorem openSocket (hw : Numbered w) (h : s.net ≠ j) : Agree j w (w.openSocket s) where
  sockets m t ht := by
    rw [Network.get_openSocket]
    split
    · rename_i hm
      constructor
      · rintro ⟨⟩
        exact absurd ht h
      · intro hold
        have hlt := hw.socket hold
        omega
    · exact Iff.rfl
  browses _ _ _ := Iff.rfl

theorem browse (hw : Numbered w) {br : Browse} (h : br.net ≠ j) : Agree j w (w.browse br) where
  sockets _ _ _ := Iff.rfl
  browses m t ht := by
    rw [Network.get_browse]
    split
    · rename_i hm
      constructor
      · rintro ⟨⟩
        exact absurd ht h
      · intro hold
        have hlt := hw.browse hold
        omega
    · exact Iff.rfl

theorem closeSocket (hs : w.sockets.get n = some s) (h : s.net ≠ j) :
    Agree j w (w.closeSocket n) where
  sockets m t ht := by
    rw [Network.get_closeSocket]
    split
    · rename_i hm
      subst hm
      constructor
      · rintro ⟨⟩
      · intro hold
        rw [hs] at hold
        cases hold
        exact absurd ht h
    · exact Iff.rfl
  browses _ _ _ := Iff.rfl

theorem stopBrowse {br : Browse} (hb : w.browses.get n = some br) (h : br.net ≠ j) :
    Agree j w (w.stopBrowse n) where
  sockets _ _ _ := Iff.rfl
  browses m t ht := by
    rw [Network.get_stopBrowse]
    split
    · rename_i hm
      subst hm
      constructor
      · rintro ⟨⟩
      · intro hold
        rw [hb] at hold
        cases hold
        exact absurd ht h
    · exact Iff.rfl

theorem setSocket {t : Socket} (hs : w.sockets.get n = some s) (h : s.net ≠ j)
    (ht : t.net = s.net) :
    Agree j w { w with sockets := w.sockets.set n t } where
  sockets m u hu := by
    rw [OrderedMap.get_set]
    split
    · rename_i hm
      subst hm
      constructor
      · rintro ⟨⟩
        exact absurd (ht.symm.trans hu) h
      · intro hold
        rw [hs] at hold
        cases hold
        exact absurd hu h
    · exact Iff.rfl
  browses _ _ _ := Iff.rfl

/-- Closing one `PluginNet` does not touch the others. -/
theorem closeOpen (hnet : Consistent k net w) (h : k ≠ j) : Agree j w (net.closeOpen w) where
  sockets m s hs := by
    rw [Network.get_closeOpen]
    refine and_iff_left_of_imp fun hm t i ht => ?_
    rcases hnet.named ht with ⟨s', hs', hk, _⟩
    rw [hm] at hs'
    cases hs'
    exact h (hk.symm.trans hs)
  browses m br hb := by
    rw [Network.get_browse_closeOpen]
    refine and_iff_left_of_imp fun hm i hi => ?_
    rcases hnet.browsed hi with ⟨br', hb', hk, _⟩
    rw [hm] at hb'
    cases hb'
    exact h (hk.symm.trans hb)

end Agree

/-! ## The operations keep the maps consistent -/

namespace Consistent

variable {k n i : Nat} {net net' : PluginNet} {w : Network}

theorem created (h : Consistent k net w) (hw : Numbered w) {kind : SocketKind}
    (hkind : kind ≠ .ephemeral) :
    Consistent k { net with nextId := net.nextId + 1 }
      (w.openSocket ⟨net.pluginId, k, net.nextId + 1, kind, false⟩) where
  socket {m s} hm hk := by
    rw [Network.get_openSocket] at hm
    split at hm
    · cases hm
      exact ⟨rfl, le_rfl, by simp [hkind], fun he => absurd he hkind, fun hr => by cases hr⟩
    · rcases h.socket hm hk with ⟨hp, hid, hrest⟩
      exact ⟨hp, Nat.le_succ_of_le hid, hrest⟩
  named {t j m} ht := by
    rcases h.named ht with ⟨s, hs, hrest⟩
    refine ⟨s, ?_, hrest⟩
    rw [Network.get_openSocket, if_neg (Nat.ne_of_lt (hw.socket hs)), hs]
  distinct {m m' s s'} hm hm' hk hk' hid := by
    rw [Network.get_openSocket] at hm hm'
    -- an id that was there before is smaller than the new one
    split at hm
    · rename_i hnew
      split at hm'
      · rename_i hnew'
        exact hnew.trans hnew'.symm
      · cases hm
        have hle := (h.socket hm' hk').2.1
        simp only at hid
        omega
    · split at hm'
      · cases hm'
        have hle := (h.socket hm hk).2.1
        simp only at hid
        omega
      · exact h.distinct hm hm' hk hk' hid
  browse hb hk := by
    rcases h.browse hb hk with ⟨hp, hid, hi⟩
    exact ⟨hp, Nat.le_succ_of_le hid, hi⟩
  browsed hi := h.browsed hi

theorem common (h : Consistent k net w) (hw : Numbered w) (hnone : net.ephemeral = none) :
    Consistent k { net with ephemeral := some w.nextSocket }
      (w.openSocket ⟨net.pluginId, k, 0, .ephemeral, true⟩) := by
  -- the id 0 is only that of the common socket, and there is none yet
  have hzero : ∀ {m s}, w.sockets.get m = some s → s.net = k → s.id ≠ 0 := by
    intro m s hm hk hid
    rcases h.socket hm hk with ⟨_, _, hiff, hready, hname⟩
    have hkind := hiff.1 hid
    have hnamed := hname (hready hkind)
    simp [PluginNet.named, hkind, hid, SocketKind.table, hnone] at hnamed
  refine ⟨?_, ?_, ?_, fun hb hk => h.browse hb hk, fun hi => h.browsed hi⟩
  · intro m s hm hk
    rw [Network.get_openSocket] at hm
    split at hm
    · rename_i hnew
      cases hm
      refine ⟨rfl, Nat.zero_le _, by simp, fun _ => rfl, fun _ => ?_⟩
      simp [PluginNet.named, SocketKind.table, hnew]
    · rcases h.socket hm hk with ⟨hp, hid, hiff, hready, hname⟩
      refine ⟨hp, hid, hiff, hready, fun hr => ?_⟩
      have hold := hname hr
      have hkind : s.kind ≠ .ephemeral := fun hc => hzero hm hk (hiff.2 hc)
      cases hkd : s.kind with
      | udp port groups =>
          rw [hkd] at hold
          exact hold
      | ephemeral =>
          exact absurd hkd hkind
      | tcp host port =>
          rw [hkd] at hold
          exact hold
  · intro t j m ht
    have hkeep : net.named t j = some m → ∃ s, (w.openSocket ⟨net.pluginId, k, 0, .ephemeral,
        true⟩).sockets.get m = some s ∧ s.net = k ∧ s.id = j ∧ s.kind.table = t ∧
          s.ready = true := by
      intro hold
      rcases h.named hold with ⟨s, hs, hrest⟩
      refine ⟨s, ?_, hrest⟩
      rw [Network.get_openSocket, if_neg (Nat.ne_of_lt (hw.socket hs)), hs]
    cases t with
    | udp =>
        exact hkeep ht
    | common =>
        simp only [PluginNet.named] at ht
        split at ht
        · rename_i hj
          cases ht
          exact ⟨_, by rw [Network.get_openSocket, if_pos rfl], rfl, hj.symm, rfl, rfl⟩
        · cases ht
    | tcp =>
        exact hkeep ht
  · intro m m' s s' hm hm' hk hk' hid
    rw [Network.get_openSocket] at hm hm'
    split at hm
    · rename_i hnew
      split at hm'
      · rename_i hnew'
        exact hnew.trans hnew'.symm
      · cases hm
        exact absurd hid.symm (hzero hm' hk')
    · split at hm'
      · cases hm'
        exact absurd hid (hzero hm hk)
      · exact h.distinct hm hm' hk hk' hid

/-- A socket is closed, and its entry goes. -/
theorem removed (h : Consistent k net w) {t : Table} (hn : net.named t i = some n)
    (hr : Renamed net net' t i none) : Consistent k net' (w.closeSocket n) where
  socket {m s} hm hk := by
    rw [Network.get_closeSocket] at hm
    split at hm
    · cases hm
    · rename_i hne
      rcases h.socket hm hk with ⟨hp, hid, hiff, hready, hname⟩
      refine ⟨by rw [hr.pluginId, hp], by rw [hr.nextId]; exact hid, hiff, hready, fun hrd => ?_⟩
      have hold := hname hrd
      rw [hr.named, if_neg, hold]
      rintro ⟨ht, hi⟩
      rw [ht, hi, hn] at hold
      exact hne (Option.some.inj hold).symm
  named {t' j m} ht := by
    rw [hr.named] at ht
    split at ht
    · cases ht
    · rename_i hne
      rcases h.named ht with ⟨s, hs, hrest⟩
      refine ⟨s, ?_, hrest⟩
      rw [Network.get_closeSocket, if_neg, hs]
      intro hm
      rw [hm] at ht
      exact hne (h.table_unique ht hn)
  distinct {m m' s s'} hm hm' :=
    h.distinct (Network.get_of_closeSocket hm) (Network.get_of_closeSocket hm')
  browse hb hk := by
    rw [hr.pluginId, hr.nextId, hr.browses]
    exact h.browse hb hk
  browsed hi := by
    rw [hr.browses] at hi
    exact h.browsed hi

theorem failed (h : Consistent k net w) (hs : w.sockets.get n = some s) (hready : s.ready = false) :
    Consistent k net (w.closeSocket n) where
  socket {m t} hm hk := h.socket (Network.get_of_closeSocket hm) hk
  named {t j m} ht := by
    rcases h.named ht with ⟨u, hu, hk, hid, htable, hrd⟩
    refine ⟨u, ?_, hk, hid, htable, hrd⟩
    rw [Network.get_closeSocket, if_neg, hu]
    intro hm
    rw [hm, hs] at hu
    cases hu
    rw [hready] at hrd
    cases hrd
  distinct {m m' t t'} hm hm' :=
    h.distinct (Network.get_of_closeSocket hm) (Network.get_of_closeSocket hm')
  browse hb hk := h.browse hb hk
  browsed hi := h.browsed hi

/-- A socket gets ready, and its entry comes. -/
theorem registered (h : Consistent k net w) (hs : w.sockets.get n = some s) (hk : s.net = k)
    (hready : s.ready = false) :
    Consistent k (net.register n s)
      { w with sockets := w.sockets.set n { s with ready := true } } := by
  have hkind : s.kind ≠ .ephemeral := by
    intro hc
    have hrd := (h.socket hs hk).2.2.2.1 hc
    rw [hready] at hrd
    cases hrd
  have hr := renamed_register net n hkind
  -- the id is that of no other socket, so no entry is lost
  have hother : ∀ {m u}, w.sockets.get m = some u → u.net = k → m ≠ n → u.id ≠ s.id :=
    fun hm hu hne hid => hne (h.distinct hm hs hu hk hid)
  refine ⟨?_, ?_, ?_, ?_, ?_⟩
  · intro m u hm hu
    rcases OrderedMap.get_set_cases hm with ⟨rfl, rfl⟩ | ⟨hne, hold⟩
    · rcases h.socket hs hk with ⟨hp, hid, hiff, _, _⟩
      refine ⟨by rw [hr.pluginId]; exact hp, by rw [hr.nextId]; exact hid, hiff, fun _ => rfl,
        fun _ => ?_⟩
      rw [hr.named, if_pos ⟨rfl, rfl⟩]
    · rcases h.socket hold hu with ⟨hp, hid, hiff, hrd, hname⟩
      refine ⟨by rw [hr.pluginId, hp], by rw [hr.nextId]; exact hid, hiff, hrd, fun hready' => ?_⟩
      rw [hr.named, if_neg fun hc => hother hold hu hne hc.2, hname hready']
  · intro t j m ht
    rw [hr.named] at ht
    split at ht
    · rename_i heq
      cases ht
      exact ⟨_, OrderedMap.get_set_self .., hk, heq.2.symm, heq.1.symm, rfl⟩
    · rcases h.named ht with ⟨u, hu, huk, hid, htable, hrd⟩
      refine ⟨u, ?_, huk, hid, htable, hrd⟩
      rw [OrderedMap.get_set_ne, hu]
      rintro rfl
      rw [hs] at hu
      cases hu
      rw [hready] at hrd
      cases hrd
  · intro m m' u u' hm hm' hu hu' hid
    rcases OrderedMap.get_set_cases hm with ⟨rfl, rfl⟩ | ⟨hne, hold⟩
    · rcases OrderedMap.get_set_cases hm' with ⟨rfl, rfl⟩ | ⟨hne', hold'⟩
      · rfl
      · exact absurd hid.symm (hother hold' hu' hne')
    · rcases OrderedMap.get_set_cases hm' with ⟨rfl, rfl⟩ | ⟨hne', hold'⟩
      · exact absurd hid (hother hold hu hne)
      · exact h.distinct hold hold' hu hu' hid
  · intro m br hb hbk
    rw [hr.pluginId, hr.nextId, hr.browses]
    exact h.browse hb hbk
  · intro j m hi
    rw [hr.browses] at hi
    exact h.browsed hi

theorem newBrowse (h : Consistent k net w) (hw : Numbered w) (service : String) :
    Consistent k
      { net with nextId := net.nextId + 1, browses := net.browses.set (net.nextId + 1) w.nextBrowse }
      (w.browse ⟨net.pluginId, k, net.nextId + 1, service⟩) where
  socket hm hk := by
    rcases h.socket hm hk with ⟨hp, hid, hrest⟩
    exact ⟨hp, Nat.le_succ_of_le hid, hrest⟩
  named ht := h.named ht
  distinct hm hm' := h.distinct hm hm'
  browse {m br} hb hk := by
    rw [Network.get_browse] at hb
    split at hb
    · rename_i hnew
      cases hb
      exact ⟨rfl, le_rfl, by rw [OrderedMap.get_set_self, hnew]⟩
    · rcases h.browse hb hk with ⟨hp, hid, hi⟩
      refine ⟨hp, Nat.le_succ_of_le hid, ?_⟩
      rw [OrderedMap.get_set_ne _ (by omega), hi]
  browsed {j m} hi := by
    rcases OrderedMap.get_set_cases hi with ⟨rfl, rfl⟩ | ⟨_, hold⟩
    · exact ⟨_, by rw [Network.get_browse, if_pos rfl], rfl, rfl⟩
    · rcases h.browsed hold with ⟨br, hb, hrest⟩
      refine ⟨br, ?_, hrest⟩
      rw [Network.get_browse, if_neg (Nat.ne_of_lt (hw.browse hb)), hb]

theorem stopped (h : Consistent k net w) (hn : net.browses.get i = some n) :
    Consistent k { net with browses := net.browses.delete i } (w.stopBrowse n) where
  socket hm hk := h.socket hm hk
  named ht := h.named ht
  distinct hm hm' := h.distinct hm hm'
  browse {m br} hb hk := by
    rw [Network.get_stopBrowse] at hb
    split at hb
    · cases hb
    · rename_i hne
      rcases h.browse hb hk with ⟨hp, hid, hi⟩
      refine ⟨hp, hid, ?_⟩
      rw [OrderedMap.get_delete, if_neg, hi]
      intro heq
      rw [heq, hn] at hi
      exact hne (Option.some.inj hi).symm
  browsed {j m} hi := by
    rcases OrderedMap.get_delete_cases hi with ⟨hne, hold⟩
    rcases h.browsed hold with ⟨br, hb, hk, hid⟩
    refine ⟨br, ?_, hk, hid⟩
    rw [Network.get_stopBrowse, if_neg, hb]
    intro hm
    rcases h.browsed hn with ⟨br', hb', _, hid'⟩
    rw [← hm, hb] at hb'
    cases hb'
    exact hne (hid.symm.trans hid')

theorem closed (h : Consistent k net w) : Consistent k net.cleared (net.closeOpen w) where
  socket hm hk := by
    rcases Network.get_closeOpen.1 hm with ⟨hold, hno⟩
    rcases h.socket hold hk with ⟨hp, hid, hiff, hready, hname⟩
    exact ⟨hp, hid, hiff, hready, fun hr => absurd (hname hr) (hno _ _)⟩
  named {t j m} ht := by
    cases t with
    | udp => cases ht
    | common => simp [PluginNet.named, PluginNet.cleared] at ht
    | tcp => cases ht
  distinct hm hm' := h.distinct (Network.get_closeOpen.1 hm).1 (Network.get_closeOpen.1 hm').1
  browse hb hk := by
    rcases Network.get_browse_closeOpen.1 hb with ⟨hold, hno⟩
    exact absurd (h.browse hold hk).2.2 (hno _)
  browsed hi := by cases hi

theorem changed (h : Consistent k net w) (hw : Numbered w) (hc : Changes caps k net w net' w') :
    Consistent k net' w' := by
  cases hc with
  | same => exact h
  | created _ hkind => exact h.created hw hkind
  | common _ hnone => exact h.common hw hnone
  | udpClosed hn => exact h.removed (t := .udp) hn (renamed_udp net _)
  | tcpClosed hn => exact h.removed (t := .tcp) hn (renamed_tcp net _)
  | browsed hp => exact h.newBrowse hw _
  | stopped hn => exact h.stopped hn

end Consistent

namespace Numbered

variable {n : Nat} {w w' : Network}

theorem of_subset (hw : Numbered w) (hs : w'.nextSocket = w.nextSocket)
    (hb : w'.nextBrowse = w.nextBrowse)
    (hsockets : ∀ {n s}, w'.sockets.get n = some s → ∃ s', w.sockets.get n = some s')
    (hbrowses : ∀ {n br}, w'.browses.get n = some br → w.browses.get n = some br) : Numbered w' where
  socket hn := by
    rcases hsockets hn with ⟨s', hs'⟩
    rw [hs]
    exact hw.socket hs'
  browse hn := by
    rw [hb]
    exact hw.browse (hbrowses hn)

theorem closeSocket (hw : Numbered w) (n : Nat) : Numbered (w.closeSocket n) :=
  hw.of_subset rfl rfl (fun hm => ⟨_, Network.get_of_closeSocket hm⟩) id

theorem stopBrowse (hw : Numbered w) (n : Nat) : Numbered (w.stopBrowse n) :=
  hw.of_subset rfl rfl (fun hm => ⟨_, hm⟩) fun hm => (OrderedMap.get_delete_cases hm).2

theorem closeOpen (hw : Numbered w) (net : PluginNet) : Numbered (net.closeOpen w) :=
  hw.of_subset rfl rfl (fun hm => ⟨_, (Network.get_closeOpen.1 hm).1⟩)
    fun hm => (Network.get_browse_closeOpen.1 hm).1

theorem setSocket (hw : Numbered w) {t : Socket} (hs : w.sockets.get n = some s) :
    Numbered { w with sockets := w.sockets.set n t } := by
  refine hw.of_subset rfl rfl (fun hm => ?_) id
  rcases OrderedMap.get_set_cases hm with ⟨rfl, _⟩ | ⟨_, hold⟩
  · exact ⟨s, hs⟩
  · exact ⟨_, hold⟩

theorem openSocket (hw : Numbered w) (s : Socket) : Numbered (w.openSocket s) where
  socket {m t} hm := by
    change m < w.nextSocket + 1
    rw [Network.get_openSocket] at hm
    split at hm
    · omega
    · exact Nat.lt_succ_of_lt (hw.socket hm)
  browse hm := hw.browse hm

theorem newBrowse (hw : Numbered w) (br : Browse) : Numbered (w.browse br) where
  socket hm := hw.socket hm
  browse {m t} hm := by
    change m < w.nextBrowse + 1
    rw [Network.get_browse] at hm
    split at hm
    · omega
    · exact Nat.lt_succ_of_lt (hw.browse hm)

theorem changed {k : Nat} (hw : Numbered w) (hc : Changes caps k net w net' w') : Numbered w' := by
  cases hc with
  | same => exact hw
  | created _ _ => exact hw.openSocket _
  | common _ _ => exact hw.openSocket _
  | udpClosed _ => exact hw.closeSocket _
  | tcpClosed _ => exact hw.closeSocket _
  | browsed _ => exact hw.newBrowse _
  | stopped _ => exact hw.stopBrowse _

end Numbered

/-- A call touches only what belongs to the plugin's own `PluginNet`. -/
theorem Agree.changed {j k : Nat} (hw : Numbered w) (hnet : Consistent k net w) (hj : k ≠ j)
    (hc : Changes caps k net w net' w') : Agree j w w' := by
  have hclose : ∀ {t i n}, net.named t i = some n → Agree j w (w.closeSocket n) := by
    intro t i n hn
    rcases hnet.named hn with ⟨s, hs, hk, _⟩
    exact Agree.closeSocket hs (hk ▸ hj)
  cases hc with
  | same => exact ⟨fun _ _ _ => Iff.rfl, fun _ _ _ => Iff.rfl⟩
  | created _ _ => exact Agree.openSocket hw hj
  | common _ _ => exact Agree.openSocket hw hj
  | udpClosed hn => exact hclose (t := .udp) hn
  | tcpClosed hn => exact hclose (t := .tcp) hn
  | browsed _ => exact Agree.browse hw hj
  | stopped hn =>
      rcases hnet.browsed hn with ⟨br, hb, hk, _⟩
      exact Agree.stopBrowse hb (hk ▸ hj)

theorem Changes.pluginId {k : Nat} (hc : Changes caps k net w net' w') :
    net'.pluginId = net.pluginId := by
  cases hc with
  | same => rfl
  | created _ _ => rfl
  | common _ _ => rfl
  | udpClosed _ => rfl
  | tcpClosed _ => rfl
  | browsed _ => rfl
  | stopped _ => rfl

/-- Numbers are handed out once. -/
theorem Changes.nextSocket_le {k : Nat} (hc : Changes caps k net w net' w') :
    w.nextSocket ≤ w'.nextSocket := by
  cases hc with
  | same => exact le_rfl
  | created _ _ => exact Nat.le_succ _
  | common _ _ => exact Nat.le_succ _
  | udpClosed _ => exact le_rfl
  | tcpClosed _ => exact le_rfl
  | browsed _ => exact le_rfl
  | stopped _ => exact le_rfl

/-- A socket is there from before, or it is the one the call creates. -/
theorem Changes.socket_cases {k n : Nat} (hc : Changes caps k net w net' w')
    (hs : w'.sockets.get n = some s) :
    w.sockets.get n = some s ∨
      (n = w.nextSocket ∧ s.net = k ∧ s.plugin = net.pluginId ∧ s.kind.Permitted caps) := by
  cases hc with
  | same => exact Or.inl hs
  | created hp _ =>
      rw [Network.get_openSocket] at hs
      split at hs
      · rename_i hn
        cases hs
        exact Or.inr ⟨hn, rfl, rfl, hp⟩
      · exact Or.inl hs
  | common hp _ =>
      rw [Network.get_openSocket] at hs
      split at hs
      · rename_i hn
        cases hs
        exact Or.inr ⟨hn, rfl, rfl, hp⟩
      · exact Or.inl hs
  | udpClosed _ => exact Or.inl (Network.get_of_closeSocket hs)
  | tcpClosed _ => exact Or.inl (Network.get_of_closeSocket hs)
  | browsed _ => exact Or.inl hs
  | stopped _ => exact Or.inl hs

theorem Changes.browse_cases {k n : Nat} {br : Browse} (hc : Changes caps k net w net' w')
    (hb : w'.browses.get n = some br) :
    w.browses.get n = some br ∨
      (br.net = k ∧ br.plugin = net.pluginId ∧ Permits caps (.mdnsBrowse br.service)) := by
  cases hc with
  | same => exact Or.inl hb
  | created _ _ => exact Or.inl hb
  | common _ _ => exact Or.inl hb
  | udpClosed _ => exact Or.inl hb
  | tcpClosed _ => exact Or.inl hb
  | browsed hp =>
      rw [Network.get_browse] at hb
      split at hb
      · cases hb
        exact Or.inr ⟨rfl, rfl, hp⟩
      · exact Or.inl hb
  | stopped _ => exact Or.inl (OrderedMap.get_delete_cases hb).2

end Edge
end GateControl
