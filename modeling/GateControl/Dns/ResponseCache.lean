import GateControl.Library.OrderedMap
import GateControl.Library.Transition
import GateControl.Dns.Wire

/-!
# ResponseCache — upstream replies with their time to live

The cache keeps replies until the smallest TTL of their records has passed, at most `maxEntries` of
them and `maxBytes` bytes; the entry that was not used for the longest time goes first.  A reply is
stored together with what the parser found in it, which `Faithful` states for every entry.
-/

namespace GateControl
namespace Dns

open Library

def maxTtlS : Nat := 86400

def maxNegTtlS : Nat := 3600

def defaultNegTtlS : Nat := 60

structure CacheEntry where
  wire : Bytes
  ttlOffsets : List Nat
  storedAt : Int
  expires : Int
  deriving DecidableEq

structure ResponseCache where
  map : OrderedMap Text CacheEntry
  bytes : Int
  maxEntries : Nat
  maxBytes : Nat
  deriving DecidableEq

/-- A stored reply as it is served, with its age in whole seconds. -/
structure CacheHit where
  wire : Bytes
  ttlOffsets : List Nat
  ageSec : Int
  deriving DecidableEq

namespace ResponseCache

def new (maxEntries maxBytes : Nat) : ResponseCache := ⟨.empty, 0, maxEntries, maxBytes⟩

variable (c : ResponseCache)

def delete (key : Text) (e : CacheEntry) : ResponseCache :=
  { c with map := c.map.delete key, bytes := c.bytes - e.wire.length }

/-- Look a reply up; a hit becomes the entry used last. -/
def get (key : Text) (now : Int) : ResponseCache × Option CacheHit :=
  match c.map.get key with
  | none => (c, none)
  | some e =>
      -- an expired entry goes when it is looked up, or with the oldest ones
      if now ≥ e.expires then (c.delete key e, none)
      else ({ c with map := (c.map.delete key).set key e },
        some ⟨e.wire, e.ttlOffsets, (now - e.storedAt) / 1000⟩)

/-- How long a reply may be kept, in seconds; 0 for not at all. -/
def ttlFor (r : Wire.Response) : Nat :=
  if r.tc then 0
  -- a positive answer lives as long as its shortest record; without one it is not kept
  else if r.rcode = 0 ∧ r.an > 0 then min maxTtlS (r.minTtl.getD 0)
  else if r.rcode = 3 ∨ (r.rcode = 0 ∧ r.an = 0) then min maxNegTtlS (r.negTtl.getD defaultNegTtlS)
  else 0

/-- Drop the oldest entries until the limits are kept; there are `n` of them at most. -/
def evict : Nat → ResponseCache → ResponseCache
  | 0, c => c
  | n + 1, c =>
      if c.map.size > c.maxEntries ∨ c.bytes > c.maxBytes then
        match c.map.entries with
        | [] => c
        -- the map keeps the order of the last use
        | e :: _ => evict n (c.delete e.1 e.2)
      else c

/-- Whether `set` stores the reply. -/
def accepts (wire : Bytes) (r : Wire.Response) : Bool :=
  !(ttlFor r = 0 || wire.length * 16 > c.maxBytes)

def entryFor (wire : Bytes) (r : Wire.Response) (now : Int) : CacheEntry where
  wire := wire
  ttlOffsets := r.ttlOffsets
  storedAt := now
  expires := now + ttlFor r * 1000

def set (key : Text) (wire : Bytes) (r : Wire.Response) (now : Int) : ResponseCache :=
  if c.accepts wire r then
    let c := match c.map.get key with
      | some old => c.delete key old
      | none => c
    let c := { c with
      map := c.map.set key (entryFor wire r now)
      bytes := c.bytes + wire.length }
    evict c.map.size c
  else c

def clear : ResponseCache := { c with map := .empty, bytes := 0 }

/-! ## What is in the cache -/

variable {c} {k key : Text} {e : CacheEntry} {now : Int}

theorem delete_entry {old : CacheEntry} (h : (c.delete key old).map.get k = some e) :
    c.map.get k = some e := by
  simp only [delete, OrderedMap.get_delete] at h
  split at h
  · cases h
  · exact h

theorem evict_entry {n : Nat} (h : (evict n c).map.get k = some e) : c.map.get k = some e := by
  induction n generalizing c with
  | zero =>
      exact h
  | succ n ih =>
      simp only [evict] at h
      split at h
      · split at h
        · exact h
        · exact delete_entry (ih h)
      · exact h

/-- Looking up does not add anything. -/
theorem get_entry (h : (c.get key now).1.map.get k = some e) : c.map.get k = some e := by
  unfold get at h
  split at h
  · exact h
  · rename_i e' he'
    split at h
    · exact delete_entry h
    · simp only [OrderedMap.get_set, OrderedMap.get_delete] at h
      -- a hit is taken out and put back as it was
      by_cases hk : k = key
      · simp only [hk, if_true] at h
        rw [hk, he', h]
      · simpa [hk] using h

theorem get_hit {hit : CacheHit} (h : (c.get key now).2 = some hit) :
    ∃ e, c.map.get key = some e ∧ now < e.expires ∧
      hit = ⟨e.wire, e.ttlOffsets, (now - e.storedAt) / 1000⟩ := by
  unfold get at h
  split at h
  · cases h
  · rename_i e he
    split at h
    · cases h
    · rename_i hlt
      exact ⟨e, he, by omega, (Option.some.inj h).symm⟩

/-- After storing a reply, an entry is the new one or was there before. -/
theorem set_entry {wire : Bytes} {r : Wire.Response}
    (h : (c.set key wire r now).map.get k = some e) :
    (k = key ∧ c.accepts wire r = true ∧ e = entryFor wire r now) ∨
      (¬(k = key ∧ c.accepts wire r = true) ∧ c.map.get k = some e) := by
  unfold set at h
  split at h
  · rename_i hacc
    have h' := evict_entry h
    simp only [OrderedMap.get_set] at h'
    by_cases hk : k = key
    · simp only [hk, if_true, Option.some.injEq] at h'
      exact Or.inl ⟨hk, hacc, h'.symm⟩
    · simp only [hk, if_false] at h'
      -- another key: neither the old entry of `key` nor the eviction adds anything
      refine Or.inr ⟨fun hboth => hk hboth.1, ?_⟩
      split at h'
      · exact delete_entry h'
      · exact h'
  · rename_i hacc
    exact Or.inr ⟨fun hboth => hacc hboth.2, h⟩

/-! ## Runs -/

inductive Action
  /-- A reply of the upstream arrives; what the parser does not accept is not stored. -/
  | set (key : Text) (wire : Bytes) (now : Int)
  | get (key : Text) (now : Int)
  | clear

def step (host : UnicodeHost) (c : ResponseCache) : Action → Option ResponseCache
  | .set key wire now =>
      match Wire.parseResponse host wire with
      | some r => some (c.set key wire r now)
      | none => none
  | .get key now => some (c.get key now).1
  | .clear => some c.clear

/-- The entry holds what the parser found in its reply. -/
def Faithful (host : UnicodeHost) (e : CacheEntry) : Prop :=
  ∃ r, Wire.parseResponse host e.wire = some r ∧ ttlFor r ≠ 0 ∧ e = entryFor e.wire r e.storedAt

def AllFaithful (host : UnicodeHost) (c : ResponseCache) : Prop :=
  ∀ k e, c.map.get k = some e → Faithful host e

theorem step_faithful (host : UnicodeHost) (c : ResponseCache) (a : Action) (c' : ResponseCache)
    (hc : AllFaithful host c) (h : step host c a = some c') : AllFaithful host c' := by
  intro k e he
  cases a with
  | set key wire now =>
      simp only [step] at h
      split at h
      · rename_i r hr
        cases h
        rcases set_entry he with ⟨_, hacc, rfl⟩ | ⟨_, hold⟩
        · refine ⟨r, hr, ?_, rfl⟩
          intro hzero
          simp [accepts, hzero] at hacc
        · exact hc k e hold
      · cases h
  | get key now =>
      cases h
      exact hc k e (get_entry he)
  | clear =>
      cases h
      simp [clear] at he

theorem run_faithful {host : UnicodeHost} {maxEntries maxBytes : Nat} {as : List Action}
    {c : ResponseCache} (h : exec (step host) (new maxEntries maxBytes) as = some c) :
    AllFaithful host c :=
  exec_invariant (step_faithful host) (fun k e he => by simp [new] at he) h

end ResponseCache

end Dns
end GateControl
