import Mathlib.Logic.Function.Iterate
import GateControl.Library.Recency
import GateControl.Dns.ResponseCache

/-!
# CacheBooks — the bookkeeping of the response cache

The cache keeps its entries in the order of their last use, since a hit takes its entry out and puts
it back at the end.  An eviction removes the first ones until the limits are kept; as one reply has
at most a sixteenth of all bytes, it stops before the entry that was just stored.  `Tracked` adds to
the cache what its books are compared with: the keys in the order in which they were used, and the
entry that was stored last under each key.
-/

namespace GateControl
namespace Dns

open Library

namespace ResponseCache

/-! ## Eviction -/

/-- A round of the eviction loop; the map is not empty then. -/
def dropOldest (c : ResponseCache) : ResponseCache :=
  match c.map.entries with
  | [] => c
  | e :: _ => c.delete e.1 e.2

/-- One of the limits is exceeded. -/
def Over (c : ResponseCache) : Prop := c.map.size > c.maxEntries ∨ c.bytes > c.maxBytes

instance (c : ResponseCache) : Decidable (Over c) := instDecidableOr

/-- The cache with the new entry, before anything is evicted. -/
def store (c : ResponseCache) (key : Text) (wire : Bytes) (r : Wire.Response) (now : Int) :
    ResponseCache :=
  let c := match c.map.get key with
    | some old => c.delete key old
    | none => c
  { c with map := c.map.set key (entryFor wire r now), bytes := c.bytes + wire.length }

/-- `set` with what the parser found in the reply, if it did; and whether the reply is stored. -/
def setReply (c : ResponseCache) (key : Text) (wire : Bytes) (found : Option Wire.Response)
    (now : Int) : ResponseCache × Bool :=
  match found with
  | none => (c, false)
  | some r => (c.set key wire r now, c.accepts wire r)

theorem set_eq (c : ResponseCache) (key : Text) (wire : Bytes) (r : Wire.Response) (now : Int) :
    c.set key wire r now =
      if c.accepts wire r then evict (c.store key wire r now).map.size (c.store key wire r now)
      else c := rfl

/-- The byte counter is the sum of the lengths of the stored messages. -/
def Balanced (c : ResponseCache) : Prop := c.bytes = c.map.sumOf fun e => (e.wire.length : Int)

variable {c : ResponseCache} {key : Text} {e : CacheEntry}

theorem Balanced.delete (hc : Balanced c) (h : c.map.get key = some e) : Balanced (c.delete key e) := by
  have hsum := OrderedMap.sumOf_delete (fun e : CacheEntry => (e.wire.length : Int)) c.map key
  rw [h, Option.map_some, Option.getD_some] at hsum
  rw [Balanced] at hc ⊢
  simp only [ResponseCache.delete]
  omega

theorem get_of_entries {es : List (Text × CacheEntry)} {x : Text × CacheEntry}
    (h : c.map.entries = x :: es) : c.map.get x.1 = some x.2 := by
  rw [OrderedMap.get, h, OrderedMap.find, if_pos rfl]

theorem dropOldest_of_cons {es : List (Text × CacheEntry)} {x : Text × CacheEntry}
    (h : c.map.entries = x :: es) : c.dropOldest = c.delete x.1 x.2 := by
  rw [dropOldest]
  split
  · rename_i hnil
    rw [hnil] at h
    cases h
  · rename_i y ys hcons
    rw [hcons] at h
    obtain ⟨rfl, rfl⟩ := List.cons.inj h
    rfl

/-- What a round removes is the first entry. -/
theorem entries_dropOldest (c : ResponseCache) :
    c.dropOldest.map.entries = c.map.entries.drop 1 := by
  rw [dropOldest]
  split
  · rename_i h
    rw [h]
    rfl
  · rename_i x es h
    have hnodup := c.map.nodup
    rw [h, List.map_cons, List.nodup_cons] at hnodup
    have hkeep : ∀ y ∈ es, decide (y.1 ≠ x.1) = true := by
      intro y hy
      simp only [decide_eq_true_eq]
      intro heq
      exact hnodup.1 (heq ▸ List.mem_map_of_mem hy)
    rw [ResponseCache.delete]
    simp only [OrderedMap.delete, h]
    rw [List.filter_cons_of_neg (by simp), List.filter_eq_self.2 hkeep]
    rfl

theorem dropOldest_limits (c : ResponseCache) :
    c.dropOldest.maxEntries = c.maxEntries ∧ c.dropOldest.maxBytes = c.maxBytes := by
  rw [dropOldest]
  split
  · exact ⟨rfl, rfl⟩
  · exact ⟨rfl, rfl⟩

theorem Balanced.dropOldest (hc : Balanced c) : Balanced c.dropOldest := by
  rw [ResponseCache.dropOldest]
  split
  · exact hc
  · rename_i x es h
    exact hc.delete (get_of_entries h)

/-- The state after some rounds. -/
theorem iterate_dropOldest (hc : Balanced c) (n : Nat) :
    (dropOldest^[n] c).map.entries = c.map.entries.drop n ∧ Balanced (dropOldest^[n] c) ∧
      (dropOldest^[n] c).maxEntries = c.maxEntries ∧ (dropOldest^[n] c).maxBytes = c.maxBytes := by
  induction n with
  | zero =>
      exact ⟨rfl, hc, rfl, rfl⟩
  | succ n ih =>
      obtain ⟨hentries, hbalanced, hmaxEntries, hmaxBytes⟩ := ih
      rw [Function.iterate_succ_apply']
      refine ⟨?_, hbalanced.dropOldest, ?_, ?_⟩
      · rw [entries_dropOldest, hentries, List.drop_drop]
      · rw [(dropOldest_limits _).1, hmaxEntries]
      · rw [(dropOldest_limits _).2, hmaxBytes]

/-- The loop makes rounds for as long as a limit is exceeded. -/
theorem evict_eq {n fuel : Nat}
    (hover : ∀ i < n, Over (dropOldest^[i] c) ∧ (dropOldest^[i] c).map.entries ≠ [])
    (hend : ¬Over (dropOldest^[n] c)) (hfuel : n ≤ fuel) : evict fuel c = dropOldest^[n] c := by
  induction n generalizing c fuel with
  | zero =>
      cases fuel with
      | zero =>
          rfl
      | succ fuel =>
          rw [evict, if_neg (show ¬(c.map.size > c.maxEntries ∨ c.bytes > c.maxBytes) from hend)]
          rfl
  | succ n ih =>
      cases fuel with
      | zero =>
          cases hfuel
      | succ fuel =>
          -- one round, and then the loop of the rest
          obtain ⟨hfirst, hne⟩ := hover 0 (Nat.succ_pos n)
          have hover' : ∀ i < n, Over (dropOldest^[i] c.dropOldest) ∧
              (dropOldest^[i] c.dropOldest).map.entries ≠ [] := by
            intro i hi
            have hthis := hover (i + 1) (Nat.succ_lt_succ hi)
            rwa [Function.iterate_succ_apply] at hthis
          rw [Function.iterate_succ_apply] at hend ⊢
          rw [← ih hover' hend (Nat.le_of_succ_le_succ hfuel), evict,
            if_pos (show c.map.size > c.maxEntries ∨ c.bytes > c.maxBytes from hfirst)]
          cases hentries : c.map.entries with
          | nil =>
              exact absurd hentries hne
          | cons x es =>
              rw [dropOldest_of_cons hentries]

/-! ## Storing -/

variable {wire : Bytes} {r : Wire.Response} {now : Int}

theorem store_limits (c : ResponseCache) (key : Text) (wire : Bytes) (r : Wire.Response) (now : Int) :
    (c.store key wire r now).maxEntries = c.maxEntries ∧
      (c.store key wire r now).maxBytes = c.maxBytes := by
  rw [store]
  split
  · exact ⟨rfl, rfl⟩
  · exact ⟨rfl, rfl⟩

/-- The new entry is behind the others. -/
theorem entries_store (c : ResponseCache) (key : Text) (wire : Bytes) (r : Wire.Response) (now : Int) :
    (c.store key wire r now).map.entries =
      (c.map.entries.filter fun e => e.1 ≠ key) ++ [(key, entryFor wire r now)] := by
  have hput : ∀ m : OrderedMap Text CacheEntry, key ∉ m.keys →
      (m.set key (entryFor wire r now)).entries = m.entries ++ [(key, entryFor wire r now)] :=
    fun m hm => OrderedMap.put_of_not_mem _ hm
  rw [store]
  split
  · rename_i old hold
    have hnot : key ∉ (c.map.delete key).keys := by
      rw [OrderedMap.mem_keys_delete]
      exact fun h => h.1 rfl
    exact hput _ hnot
  · rename_i hnone
    have hnot : key ∉ c.map.keys := by
      rw [OrderedMap.mem_keys_iff]
      rintro ⟨v, hv⟩
      rw [hnone] at hv
      cases hv
    have hkeep : (c.map.entries.filter fun e => e.1 ≠ key) = c.map.entries := by
      refine List.filter_eq_self.2 fun e he => ?_
      simp only [decide_eq_true_eq]
      exact fun heq => hnot (heq ▸ List.mem_map_of_mem he)
    rw [hkeep]
    exact hput _ hnot

theorem Balanced.store (hc : Balanced c) (key : Text) (wire : Bytes) (r : Wire.Response)
    (now : Int) : Balanced (c.store key wire r now) := by
  have hadd : ∀ c : ResponseCache, Balanced c → c.map.get key = none → Balanced
      { c with map := c.map.set key (entryFor wire r now), bytes := c.bytes + wire.length } := by
    intro c hc hnone
    have hsum := OrderedMap.sumOf_set (fun e : CacheEntry => (e.wire.length : Int)) c.map key
      (entryFor wire r now)
    rw [hnone, Option.map_none, Option.getD_none, add_zero] at hsum
    rw [Balanced] at hc ⊢
    simp only [hsum, hc]
    rfl
  rw [ResponseCache.store]
  split
  · rename_i old hold
    refine hadd _ (hc.delete hold) ?_
    simp only [ResponseCache.delete, OrderedMap.get_delete, if_true]
  · rename_i hnone
    exact hadd c hc hnone

/-- The limits are not exceeded by the new entry alone. -/
theorem last_not_over (hc : Balanced c) (hmax : 1 ≤ c.maxEntries) (hacc : c.accepts wire r = true)
    {n : Nat} (hn : n + 1 = (c.store key wire r now).map.size) :
    ¬Over (dropOldest^[n] (c.store key wire r now)) := by
  obtain ⟨hentries, hbalanced, hmaxEntries, hmaxBytes⟩ :=
    iterate_dropOldest (hc.store key wire r now) n
  have hlast : (c.store key wire r now).map.entries.drop n = [(key, entryFor wire r now)] := by
    rw [OrderedMap.size, entries_store, List.length_append, List.length_singleton] at hn
    rw [entries_store, List.drop_left' (Nat.succ.inj hn).symm]
  rw [hlast] at hentries
  have hbytes : (dropOldest^[n] (c.store key wire r now)).bytes = wire.length := by
    rw [hbalanced, OrderedMap.sumOf, OrderedMap.values, hentries]
    simp [entryFor]
  have hsmall : wire.length * 16 ≤ c.maxBytes := by
    simp only [accepts, Bool.not_eq_true', Bool.or_eq_false_iff, decide_eq_false_iff_not] at hacc
    omega
  rw [Over, not_or, hbytes, hmaxEntries, hmaxBytes, (store_limits c key wire r now).1,
    (store_limits c key wire r now).2, OrderedMap.size, hentries, List.length_singleton]
  exact ⟨by omega, by omega⟩

/-- What an accepted reply does: the entries that are evicted are the first ones, as many as it
takes and never the new one. -/
structure Evicted (c before after : ResponseCache) (key : Text) (entry : CacheEntry) (n : Nat) :
    Prop where
  stored : before.map.entries = (c.map.entries.filter fun e => e.1 ≠ key) ++ [(key, entry)]
  after_eq : after = dropOldest^[n] before
  /-- The loop removes the first entry of a map that has one. -/
  rounds : ∀ i < n, Over (dropOldest^[i] before) ∧ (dropOldest^[i] before).map.entries ≠ []
  within : ¬Over after
  left : after.map.entries = before.map.entries.drop n
  short : n < before.map.size
  kept : after.map.get key = some entry

theorem set_evicts (key : Text) (now : Int) (hc : Balanced c) (hmax : 1 ≤ c.maxEntries)
    (hacc : c.accepts wire r = true) :
    ∃ n, Evicted c (c.store key wire r now) (c.set key wire r now) key (entryFor wire r now) n := by
  have hsize : 0 < (c.store key wire r now).map.size := by
    rw [OrderedMap.size, entries_store, List.length_append, List.length_singleton]
    exact Nat.succ_pos _
  obtain ⟨m, hm⟩ := Nat.exists_eq_add_of_lt hsize
  -- the first state in which the limits are kept
  have hex : ∃ n, ¬Over (dropOldest^[n] (c.store key wire r now)) :=
    ⟨m, last_not_over hc hmax hacc (by omega)⟩
  have hle : Nat.find hex ≤ m := Nat.find_min' hex (last_not_over hc hmax hacc (by omega))
  have hend := Nat.find_spec hex
  have hover : ∀ i < Nat.find hex, Over (dropOldest^[i] (c.store key wire r now)) ∧
      (dropOldest^[i] (c.store key wire r now)).map.entries ≠ [] := by
    intro i hi
    refine ⟨not_not.1 (Nat.find_min hex hi), ?_⟩
    rw [(iterate_dropOldest (hc.store key wire r now) i).1, ne_eq, List.drop_eq_nil_iff]
    rw [OrderedMap.size] at hm
    omega
  have hset : c.set key wire r now = dropOldest^[Nat.find hex] (c.store key wire r now) := by
    rw [set_eq, if_pos hacc]
    exact evict_eq hover hend (by omega)
  have hentries := (iterate_dropOldest (hc.store key wire r now) (Nat.find hex)).1
  refine ⟨Nat.find hex, entries_store c key wire r now, hset, hover, hset ▸ hend, hset ▸ hentries,
    by omega, ?_⟩
  rw [OrderedMap.get_eq_some_iff, hset, hentries, entries_store]
  rw [OrderedMap.size, entries_store, List.length_append, List.length_singleton] at hm
  rw [List.drop_append_of_le_length (by omega)]
  simp

/-! ## Runs -/

/-- The cache, the keys in the order in which they were used, and the entry of the latest
successful `set` of each key. -/
structure Tracked where
  cache : ResponseCache
  uses : List Text
  latest : Text → Option CacheEntry

inductive Operation
  | get (key : Text) (now : Int)
  | set (key : Text) (wire : Bytes) (found : Option Wire.Response) (now : Int)
  | clear

namespace Tracked

def start (maxEntries maxBytes : Nat) : Tracked := ⟨.new maxEntries maxBytes, [], fun _ => none⟩

def step (t : Tracked) : Operation → Option Tracked
  | .get key now =>
      let g := t.cache.get key now
      some { t with cache := g.1, uses := if g.2.isSome then t.uses ++ [key] else t.uses }
  | .set key wire found now =>
      let s := t.cache.setReply key wire found now
      match found, s.2 with
      | some r, true => some
          { cache := s.1
            uses := t.uses ++ [key]
            latest := fun k => if k = key then some (entryFor wire r now) else t.latest k }
      | _, _ => some { t with cache := s.1 }
  | .clear => some { t with cache := t.cache.clear }

/-- The books of the cache are right. -/
structure Books (maxEntries maxBytes : Nat) (t : Tracked) : Prop where
  balanced : Balanced t.cache
  within : ¬Over t.cache
  entries_eq : t.cache.maxEntries = maxEntries
  bytes_eq : t.cache.maxBytes = maxBytes
  order : InOrder t.uses t.cache.map.keys
  latest : ∀ k e, t.cache.map.get k = some e → t.latest k = some e

variable {maxEntries maxBytes : Nat} {t : Tracked}

theorem start_books (maxEntries maxBytes : Nat) : Books maxEntries maxBytes (start maxEntries maxBytes) := by
  refine ⟨rfl, ?_, rfl, rfl, .nil _, ?_⟩
  · rintro (h | h)
    · cases h
    · exact absurd h (Int.not_lt.2 (Int.natCast_nonneg _))
  · intro k e h
    cases h

theorem keys_filter (m : OrderedMap Text CacheEntry) (key : Text) :
    (m.entries.filter fun e => e.1 ≠ key).map Prod.fst = m.keys.filter (· ≠ key) := by
  rw [OrderedMap.keys, List.filter_map]
  rfl

/-- A key that is used is put to the end of the keys. -/
theorem Books.use (h : Books maxEntries maxBytes t) (key : Text) :
    InOrder (t.uses ++ [key]) (t.cache.map.keys.filter (· ≠ key) ++ [key]) := by
  refine InOrder.use (h.order.sublist List.filter_sublist) ?_
  rw [List.mem_filter]
  rintro ⟨_, hne⟩
  exact of_decide_eq_true hne rfl

theorem step_get (h : Books maxEntries maxBytes t) (key : Text) (now : Int) :
    Books maxEntries maxBytes { t with
      cache := (t.cache.get key now).1
      uses := if (t.cache.get key now).2.isSome then t.uses ++ [key] else t.uses } := by
  have hsub : (t.cache.map.entries.filter fun e => e.1 ≠ key).Sublist t.cache.map.entries :=
    List.filter_sublist
  rw [ResponseCache.get]
  split
  · exact h
  · rename_i e he
    split
    · -- the entry has expired
      have hbalanced := h.balanced.delete he
      refine ⟨hbalanced, ?_, h.entries_eq, h.bytes_eq, h.order.sublist (hsub.map Prod.fst), ?_⟩
      · have hsize := hsub.length_le
        have hwithin := h.within
        simp only [Over, OrderedMap.size, not_or, ResponseCache.delete, OrderedMap.delete] at hwithin ⊢
        exact ⟨by omega, by omega⟩
      · intro k e' he'
        exact h.latest k e' (delete_entry he')
    · -- a hit: the same entry goes to the end
      refine ⟨?_, ?_, h.entries_eq, h.bytes_eq, ?_, ?_⟩
      · rw [Balanced]
        exact h.balanced.trans (OrderedMap.sumOf_moved he _).symm
      · rw [Over]
        dsimp only
        rw [OrderedMap.size_moved he]
        exact h.within
      · dsimp only
        rw [Option.isSome_some, if_pos rfl, OrderedMap.keys, OrderedMap.entries_moved,
          List.map_append, keys_filter]
        exact h.use key
      · intro k e' he'
        exact h.latest k e' ((OrderedMap.get_moved he k).symm.trans he')

theorem step_set (hmax : 1 ≤ maxEntries) (h : Books maxEntries maxBytes t) {key : Text} {wire : Bytes}
    {r : Wire.Response} {now : Int} (hacc : t.cache.accepts wire r = true) :
    Books maxEntries maxBytes
      { cache := t.cache.set key wire r now
        uses := t.uses ++ [key]
        latest := fun k => if k = key then some (entryFor wire r now) else t.latest k } := by
  -- the entry is stored, and then the first `n` are evicted
  obtain ⟨n, hevicted⟩ := set_evicts key now h.balanced (h.entries_eq ▸ hmax) hacc
  have hiterate := iterate_dropOldest (h.balanced.store key wire r now) n
  have hset := hevicted.after_eq
  refine ⟨hset ▸ hiterate.2.1, hevicted.within, ?_, ?_, ?_, ?_⟩
  · dsimp only
    rw [hset, hiterate.2.2.1, (store_limits _ _ _ _ _).1]
    exact h.entries_eq
  · dsimp only
    rw [hset, hiterate.2.2.2, (store_limits _ _ _ _ _).2]
    exact h.bytes_eq
  · dsimp only
    rw [OrderedMap.keys, hevicted.left, entries_store]
    refine InOrder.sublist (h.use key) ?_
    rw [← keys_filter]
    have hkeys : ((t.cache.map.entries.filter fun e => e.1 ≠ key) ++
        [(key, entryFor wire r now)]).map Prod.fst =
          (t.cache.map.entries.filter fun e => e.1 ≠ key).map Prod.fst ++ [key] := List.map_append
    rw [← hkeys]
    exact (List.drop_sublist n _).map Prod.fst
  · intro k e he
    dsimp only
    -- an entry is the new one, or it was there before
    rcases set_entry he with ⟨rfl, _, rfl⟩ | ⟨hno, hold⟩
    · rw [if_pos rfl]
    · rw [if_neg fun hk => hno ⟨hk, hacc⟩]
      exact h.latest k e hold

theorem step_books (hmax : 1 ≤ maxEntries) (t : Tracked) (o : Operation) (t' : Tracked)
    (h : Books maxEntries maxBytes t) (hstep : step t o = some t') : Books maxEntries maxBytes t' := by
  cases o with
  | get key now =>
      cases hstep
      exact step_get h key now
  | set key wire found now =>
      cases found with
      | none =>
          cases hstep
          -- what is not parsed is not stored
          exact h
      | some r =>
          simp only [step, setReply] at hstep
          cases hacc : t.cache.accepts wire r with
          | true =>
              rw [hacc] at hstep
              cases hstep
              exact step_set hmax h hacc
          | false =>
              rw [hacc] at hstep
              cases hstep
              -- nor is what is refused
              rw [set_eq, if_neg (by simp [hacc])]
              exact h
  | clear =>
      cases hstep
      refine ⟨rfl, ?_, h.entries_eq, h.bytes_eq, .nil _, ?_⟩
      · rintro (hsize | hbytes)
        · cases hsize
        · exact absurd hbytes (Int.not_lt.2 (Int.natCast_nonneg _))
      · intro k e he
        cases he

/-- In every run the byte counter is the sum of the lengths of the stored messages and the limits
are kept; a `set` that stores nothing changes nothing, and one that does evicts what was not used
for the longest time, never the new entry; a hit is the latest message of its key, before its
expiry. -/
theorem cache_bookkeeping (hmax : 1 ≤ maxEntries) {os : List Operation}
    (hrun : exec step (start maxEntries maxBytes) os = some t) :
    (t.cache.bytes = t.cache.map.sumOf (fun e => (e.wire.length : Int)) ∧
        t.cache.map.size ≤ maxEntries ∧ t.cache.bytes ≤ maxBytes) ∧
      (∀ key wire found now,
        ((t.cache.setReply key wire found now).2 = false →
          (t.cache.setReply key wire found now).1 = t.cache) ∧
        ((t.cache.setReply key wire found now).2 = true → ∃ r before n, found = some r ∧
          Evicted t.cache before (t.cache.setReply key wire found now).1 key (entryFor wire r now) n ∧
          InOrder (t.uses ++ [key]) before.map.keys)) ∧
      ∀ key now hit, (t.cache.get key now).2 = some hit →
        ∃ e, t.latest key = some e ∧ now < e.expires ∧ hit.wire = e.wire := by
  have h : Books maxEntries maxBytes t :=
    exec_invariant (step_books hmax) (start_books maxEntries maxBytes) hrun
  refine ⟨⟨h.balanced, ?_, ?_⟩, fun key wire found now => ⟨fun hno => ?_, fun hyes => ?_⟩,
    fun key now hit hhit => ?_⟩
  · have hwithin := h.within
    rw [Over, not_or, h.entries_eq] at hwithin
    exact Nat.le_of_not_lt hwithin.1
  · have hwithin := h.within
    rw [Over, not_or, h.bytes_eq] at hwithin
    exact Int.not_lt.1 hwithin.2
  · cases found with
    | none =>
        rfl
    | some r =>
        -- `set` says whether it accepts the reply
        have hacc : t.cache.accepts wire r = false := hno
        rw [setReply, set_eq, if_neg (by simp [hacc])]
  · cases found with
    | none =>
        cases hyes
    | some r =>
        obtain ⟨n, hevicted⟩ := set_evicts key now h.balanced (h.entries_eq ▸ hmax)
          (show t.cache.accepts wire r = true from hyes)
        refine ⟨r, _, n, rfl, hevicted, ?_⟩
        -- before the eviction the new key stands behind all others
        rw [OrderedMap.keys, hevicted.stored, List.map_append, keys_filter]
        exact h.use key
  · obtain ⟨e, he, hlt, rfl⟩ := get_hit hhit
    exact ⟨e, h.latest key e he, hlt, rfl⟩

/-- A positive reply with a shortest TTL of a minute. -/
def minuteReply : Wire.Response where
  id := 1
  rcode := 0
  tc := false
  qname := none
  ttlOffsets := []
  minTtl := some 60
  negTtl := none
  answers := []
  an := 1

theorem cache_bookkeeping_example :
    ∃ t, exec step (start 1 64) [.set ['a'] [1] (some minuteReply) 0, .get ['a'] 1,
        .set ['b'] [2, 3] (some minuteReply) 5] = some t ∧
      t.cache.bytes = 2 ∧ t.cache.map.size ≤ 1 := by
  obtain ⟨t, ht, hbytes⟩ : ∃ t, exec step (start 1 64) [.set ['a'] [1] (some minuteReply) 0,
      .get ['a'] 1, .set ['b'] [2, 3] (some minuteReply) 5] = some t ∧ t.cache.bytes = 2 :=
    ⟨_, rfl, by decide⟩
  exact ⟨t, ht, hbytes, (cache_bookkeeping (Nat.le_refl 1) ht).1.2.1⟩

end Tracked

end ResponseCache

end Dns
end GateControl
