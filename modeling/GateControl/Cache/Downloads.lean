import GateControl.Cache.LanServer
import GateControl.Library.Transition

/-!
# Downloads — how blobs get into the home cache, and that they are what they are called

A download is written into a `.part` file, which a later one continues.  When it has the right size
its sha256 is compared with the name of the blob, and then it is renamed.  Between two steps of a
download anything else may happen: blobs are removed, the cache is cleared, moved to another
directory, or started again.

`hash` is the sha256.  Files are kept with their directory, and nobody but the cache writes them.
-/

namespace GateControl
namespace Cache

open Library

namespace Downloads

abbrev Dir := String

/-- Where a call of `blob` is. -/
inductive Stage
  /-- The server has been asked for what is missing behind the first `have'` bytes. -/
  | requested (have' : Nat)
  | streaming (total : Nat)
  /-- The file is read to be hashed. -/
  | hashing (content : Bytes)
  | checked
  deriving DecidableEq

/-- A download; `attached` says that its store is still that of the cache. -/
structure Fetch where
  dir : Dir
  sha : Sha
  size : Nat
  kind : Option String
  attached : Bool
  aborted : Bool
  stage : Stage
  deriving DecidableEq

/-- A call of `open`: the blobs that are still to be looked at, and those to be hashed. -/
structure Opening where
  dir : Dir
  index : OrderedMap Sha Item
  names : List Sha
  unknown : List Sha
  items : OrderedMap Sha Item
  deriving DecidableEq

structure System where
  blobs : OrderedMap (Dir × Sha) Bytes
  parts : OrderedMap (Dir × Sha) Bytes
  store : Option (Dir × BlobStore)
  opening : Option Opening
  fetch : Option Fetch
  deriving DecidableEq

/-- The answer of the server: the range that it names, with the size if that is known. -/
structure Answer where
  status : Nat
  range : Option (Nat × Nat × Option Nat)
  declared : Option Nat

inductive Action
  /-- `apply` opens a directory; the index file may hold anything. -/
  | opens (dir : Dir) (index : OrderedMap Sha Item)
  | looks
  | hashes (now : Int)
  | opened
  | openFails
  | shutdown
  | restart
  | starts (sha : Sha) (size : Nat) (kind : Option String)
  | responds (a : Answer)
  | chunk (bs : Bytes)
  | ended
  | broken
  | abort
  | hashed
  | commits (now : Int)
  /-- `remove`, and later the file goes. -/
  | remove (sha : Sha)
  | unlinked (dir : Dir) (sha : Sha)
  /-- `clear` and `open` delete a `.part` file. -/
  | partGone (dir : Dir) (sha : Sha)

namespace System

def new : System := ⟨.empty, .empty, none, none, none⟩

def maxItems : Nat := 50000

variable (hash : Bytes → Sha) (s : System)

/-- The download ends with an error. -/
def fails : System := { s with fetch := none }

def setStage (f : Fetch) (stage : Stage) : System :=
  { s with fetch := some { f with stage := stage } }

def detach : System :=
  { s with store := none, fetch := s.fetch.map fun f => { f with attached := false } }

/-- The download learns of it when it waits for data. -/
def abort : System :=
  match s.fetch with
  | none => s
  | some f =>
      match f.stage with
      | .streaming _ => s.fails
      | _ => { s with fetch := some { f with aborted := true } }

/-! ## Opening a directory -/

def namesIn (dir : Dir) : List Sha := (s.blobs.keys.filter fun k => k.1 = dir).map Prod.snd

/-- A blob whose size is that of the index is taken over as it is. -/
def looks (o : Opening) : System :=
  match o.names with
  | [] => s
  | name :: rest =>
      match s.blobs.get (o.dir, name) with
      | none => { s with opening := some { o with names := rest } }
      | some c =>
          match o.index.get name with
          | some it =>
              if it.size = c.length ∧ o.items.size < maxItems then
                { s with opening := some { o with names := rest, items := o.items.set name it } }
              else { s with opening := some { o with names := rest, unknown := o.unknown ++ [name] } }
          | none => { s with opening := some { o with names := rest, unknown := o.unknown ++ [name] } }

/-- Any other is hashed, and deleted when it is not what it is called. -/
def hashes (o : Opening) (now : Int) : System :=
  match o.unknown with
  | [] => s
  | name :: rest =>
      match s.blobs.get (o.dir, name) with
      | none => { s with opening := some { o with unknown := rest } }
      | some c =>
          if o.items.size < maxItems ∧ hash c = name then
            { s with opening := some { o with
                unknown := rest
                items := o.items.set name ⟨c.length, none, now, 0⟩ } }
          else
            { s with
              opening := some { o with unknown := rest }
              blobs := s.blobs.delete (o.dir, name) }

/-! ## A download -/

/-- A part that is too long is of no use. -/
def trimPart (k : Dir × Sha) (size : Nat) : OrderedMap (Dir × Sha) Bytes :=
  match s.parts.get k with
  | some p => if p.length > size then s.parts.delete k else s.parts
  | none => s.parts

def starts (dir : Dir) (sha : Sha) (size : Nat) (kind : Option String) : System :=
  let t := { s with parts := s.trimPart (dir, sha) size }
  let f := ⟨dir, sha, size, kind, true, false, .checked⟩
  match t.parts.get (dir, sha) with
  | some p =>
      if p.length < size then t.setStage f (.requested p.length) else t.setStage f (.hashing p)
  | none => if 0 < size then t.setStage f (.requested 0) else t.fails

/-- The `bad_range` check. -/
def continues (a : Answer) (have' size : Nat) : Bool :=
  match a.range with
  | some (first, _, total) => first = have' && total.all (· = size)
  | none => false

/-- The byte that the answer begins with. -/
def answerStart (f : Fetch) (have' : Nat) (a : Answer) : Option Nat :=
  if a.status = 206 ∧ have' > 0 then if continues a have' f.size then some have' else none
  else if a.status = 200 then some 0
  else none

/-- The file is opened, to append to it or from its beginning. -/
def openPart (k : Dir × Sha) (start : Nat) : System :=
  { s with parts := s.parts.set k (if start = 0 then [] else (s.parts.get k).getD []) }

def responds (f : Fetch) (have' : Nat) (a : Answer) : System :=
  match answerStart f have' a with
  | some start =>
      if a.declared.any (start + · > f.size) then s.fails
      else if f.aborted then (s.openPart (f.dir, f.sha) start).fails
      else (s.openPart (f.dir, f.sha) start).setStage f (.streaming start)
  | none =>
      if a.status = 416 ∧ have' > 0 then
        { s.fails with parts := s.parts.delete (f.dir, f.sha) }
      else s.fails

/-- A file that has been deleted in the meantime is not there again. -/
def append (k : Dir × Sha) (bs : Bytes) : System :=
  match s.parts.get k with
  | some p => { s with parts := s.parts.set k (p ++ bs) }
  | none => s

def chunk (f : Fetch) (total : Nat) (bs : Bytes) : System :=
  if total + bs.length > f.size then s.fails
  else (s.append (f.dir, f.sha) bs).setStage f (.streaming (total + bs.length))

def ended (f : Fetch) : System :=
  match s.parts.get (f.dir, f.sha) with
  | some p => if p.length = f.size then s.setStage f (.hashing p) else s.fails
  | none => s.fails

def hashed (f : Fetch) (c : Bytes) : System :=
  if hash c = f.sha then s.setStage f .checked
  else { s.fails with parts := s.parts.delete (f.dir, f.sha) }

/-- `commit` of the store that the download began with. -/
def commits (f : Fetch) (now : Int) : System :=
  match s.parts.get (f.dir, f.sha) with
  | none => s.fails
  | some p =>
      { s with
        fetch := none
        blobs := s.blobs.set (f.dir, f.sha) p
        parts := s.parts.delete (f.dir, f.sha)
        store := s.store.map fun b =>
          if f.attached then (b.1, b.2.commit now f.sha f.size f.kind) else b }

def step : Action → Option System
  | .opens dir index =>
      if s.opening.isSome then none
      else some { s.abort.detach with opening := some ⟨dir, index, s.namesIn dir, [], .empty⟩ }
  | .looks => s.opening.map s.looks
  | .hashes now => s.opening.map fun o => s.hashes hash o now
  | .opened =>
      match s.opening with
      | some ⟨dir, _, [], [], items⟩ =>
          some { s with opening := none, store := some (dir, .opened items) }
      | _ => none
  | .openFails => s.opening.map fun _ => { s with opening := none }
  | .shutdown => some s.abort.detach
  | .restart => some { s with store := none, opening := none, fetch := none }
  | .starts sha size kind =>
      match s.store, s.fetch with
      | some (dir, b), none =>
          if b.items.has sha then none else some (s.starts dir sha size kind)
      | _, _ => none
  | .responds a =>
      match s.fetch with
      | some ⟨dir, sha, size, kind, attached, aborted, .requested n⟩ =>
          some (s.responds ⟨dir, sha, size, kind, attached, aborted, .requested n⟩ n a)
      | _ => none
  | .chunk bs =>
      match s.fetch with
      | some ⟨dir, sha, size, kind, attached, aborted, .streaming n⟩ =>
          some (s.chunk ⟨dir, sha, size, kind, attached, aborted, .streaming n⟩ n bs)
      | _ => none
  | .ended =>
      match s.fetch with
      | some ⟨dir, sha, size, kind, attached, aborted, .streaming n⟩ =>
          some (s.ended ⟨dir, sha, size, kind, attached, aborted, .streaming n⟩)
      | _ => none
  | .broken => s.fetch.map fun _ => s.fails
  | .abort => some s.abort
  | .hashed =>
      match s.fetch with
      | some ⟨dir, sha, size, kind, attached, aborted, .hashing c⟩ =>
          some (s.hashed hash ⟨dir, sha, size, kind, attached, aborted, .hashing c⟩ c)
      | _ => none
  | .commits now =>
      match s.fetch with
      | some ⟨dir, sha, size, kind, attached, aborted, .checked⟩ =>
          some (s.commits ⟨dir, sha, size, kind, attached, aborted, .checked⟩ now)
      | _ => none
  | .remove sha => some { s with store := s.store.map fun b => (b.1, b.2.remove sha) }
  | .unlinked dir sha => some { s with blobs := s.blobs.delete (dir, sha) }
  | .partGone dir sha => some { s with parts := s.parts.delete (dir, sha) }

/-! ## What is handed out -/

def indexed (sha : Text) : Bool := s.store.any fun b => b.2.items.has (.ofList sha)

def file (sha : Text) : Option Bytes := s.store.bind fun b => s.blobs.get (b.1, .ofList sha)

/-! ## What holds in every run -/

/-- Every blob is what it is called, and so is a part that has been checked. -/
structure Sound : Prop where
  blobs : ∀ k c, s.blobs.get k = some c → hash c = k.2
  hashing : ∀ f c, s.fetch = some f → f.stage = .hashing c →
    ∀ p, s.parts.get (f.dir, f.sha) = some p → p = c
  checked : ∀ f, s.fetch = some f → f.stage = .checked →
    ∀ p, s.parts.get (f.dir, f.sha) = some p → hash p = f.sha

variable {hash s} {t : System} {f : Fetch}

theorem new_sound : new.Sound hash where
  blobs := fun _ _ h => (nomatch h)
  hashing := fun _ _ h => (nomatch h)
  checked := fun _ h => (nomatch h)

/-- A step that ends the download, or leaves it where nothing has been hashed. -/
theorem Sound.of_blobs (h : s.Sound hash) (hblobs : ∀ k c, t.blobs.get k = some c →
    s.blobs.get k = some c)
    (hfetch : ∀ f, t.fetch = some f → (∃ n, f.stage = .requested n) ∨ ∃ n, f.stage = .streaming n) :
    t.Sound hash where
  blobs k c hc := h.blobs k c (hblobs k c hc)
  hashing f c hf hstage := by
    rcases hfetch f hf with ⟨n, hn⟩ | ⟨n, hn⟩ <;> rw [hn] at hstage <;> cases hstage
  checked f hf hstage := by
    rcases hfetch f hf with ⟨n, hn⟩ | ⟨n, hn⟩ <;> rw [hn] at hstage <;> cases hstage

/-- A step in which files may disappear, and the download stays where it is. -/
theorem Sound.of_files (h : s.Sound hash) (hblobs : ∀ k c, t.blobs.get k = some c →
    s.blobs.get k = some c)
    (hparts : ∀ k p, t.parts.get k = some p → s.parts.get k = some p)
    (hfetch : ∀ f, t.fetch = some f → ∃ f', s.fetch = some f' ∧ f'.dir = f.dir ∧ f'.sha = f.sha ∧
      f'.stage = f.stage) : t.Sound hash where
  blobs k c hc := h.blobs k c (hblobs k c hc)
  hashing f c hf hstage p hp := by
    obtain ⟨f', hf', hdir, hsha, hst⟩ := hfetch f hf
    refine h.hashing f' c hf' (hst.trans hstage) p ?_
    rw [hdir, hsha]
    exact hparts _ _ hp
  checked f hf hstage p hp := by
    obtain ⟨f', hf', hdir, hsha, hst⟩ := hfetch f hf
    rw [← hsha]
    refine h.checked f' hf' (hst.trans hstage) p ?_
    rw [hdir, hsha]
    exact hparts _ _ hp

theorem get_of_delete {α : Type} {m : OrderedMap (Dir × Sha) α} {j k : Dir × Sha} {c : α}
    (h : (m.delete j).get k = some c) : m.get k = some c :=
  (OrderedMap.get_delete_cases h).2

theorem Sound.abort (h : s.Sound hash) : s.abort.Sound hash := by
  unfold System.abort
  split
  · exact h
  · next f hf =>
      split
      · exact h.of_blobs (fun _ _ hc => hc) fun _ hn => (nomatch hn)
      · refine h.of_files (fun _ _ hc => hc) (fun _ _ hp => hp) fun f' hf' => ?_
        cases hf'
        exact ⟨f, hf, rfl, rfl, rfl⟩

theorem Sound.detach (h : s.Sound hash) : s.detach.Sound hash := by
  refine h.of_files (fun _ _ hc => hc) (fun _ _ hp => hp) fun f' hf' => ?_
  obtain ⟨f, hf, rfl⟩ := Option.map_eq_some_iff.1 hf'
  exact ⟨f, hf, rfl, rfl, rfl⟩

/-- Only `fetch`, `parts` and `blobs` matter. -/
theorem Sound.frame (h : s.Sound hash) (hblobs : t.blobs = s.blobs) (hparts : t.parts = s.parts)
    (hfetch : t.fetch = s.fetch) : t.Sound hash :=
  h.of_files (fun _ _ hc => hblobs ▸ hc) (fun _ _ hp => hparts ▸ hp) fun f hf =>
    ⟨f, hfetch ▸ hf, rfl, rfl, rfl⟩

theorem Sound.looks (h : s.Sound hash) (o : Opening) : (s.looks o).Sound hash := by
  unfold System.looks
  split
  · exact h
  · split
    · exact h.frame rfl rfl rfl
    · split
      · split <;> exact h.frame rfl rfl rfl
      · exact h.frame rfl rfl rfl

theorem Sound.hashes (h : s.Sound hash) (o : Opening) (now : Int) :
    (s.hashes hash o now).Sound hash := by
  unfold System.hashes
  split
  · exact h
  · split
    · exact h.frame rfl rfl rfl
    · split
      · exact h.frame rfl rfl rfl
      · exact h.of_files (fun _ _ hc => get_of_delete hc) (fun _ _ hp => hp) fun f hf =>
          ⟨f, hf, rfl, rfl, rfl⟩

theorem Sound.fails (h : s.Sound hash) : s.fails.Sound hash :=
  h.of_blobs (fun _ _ hc => hc) fun _ hn => (nomatch hn)

/-- A download that waits for the server or for data. -/
theorem Sound.waits (h : s.Sound hash) {stage : Stage} (f : Fetch)
    (hstage : (∃ n, stage = .requested n) ∨ ∃ n, stage = .streaming n)
    (parts : OrderedMap (Dir × Sha) Bytes) :
    (({ s with parts := parts } : System).setStage f stage).Sound hash := by
  refine h.of_blobs (fun _ _ hc => hc) fun f' hf' => ?_
  cases hf'
  exact hstage

/-- A download whose file is read. -/
theorem Sound.reads (h : s.Sound hash) (f : Fetch) {c : Bytes}
    {parts : OrderedMap (Dir × Sha) Bytes} (hc : parts.get (f.dir, f.sha) = some c) :
    (({ s with parts := parts } : System).setStage f (.hashing c)).Sound hash := by
  refine ⟨h.blobs, ?_, ?_⟩
  · intro f' c' hf' hstage p hp
    cases hf'
    cases hstage
    exact Option.some.inj (hp.symm.trans hc)
  · intro f' hf' hstage
    cases hf'
    cases hstage

theorem Sound.starts (h : s.Sound hash) (dir : Dir) (sha : Sha) (size : Nat)
    (kind : Option String) : (s.starts dir sha size kind).Sound hash := by
  unfold System.starts
  dsimp only
  split
  · next p hp =>
      split
      · exact h.waits _ (Or.inl ⟨_, rfl⟩) _
      · exact h.reads _ hp
  · split
    · exact h.waits _ (Or.inl ⟨_, rfl⟩) _
    · exact h.of_blobs (fun _ _ hc => hc) fun _ hn => (nomatch hn)

theorem Sound.responds (h : s.Sound hash) (f : Fetch) (n : Nat) (a : Answer) :
    (s.responds f n a).Sound hash := by
  have hnone : ∀ parts : OrderedMap (Dir × Sha) Bytes,
      ({ s with parts := parts, fetch := none } : System).Sound hash :=
    fun _ => h.of_blobs (fun _ _ hc => hc) fun _ hn => (nomatch hn)
  unfold System.responds
  split
  · split
    · exact h.fails
    · split
      · exact hnone _
      · exact h.waits _ (Or.inr ⟨_, rfl⟩) _
  · split
    · exact hnone _
    · exact h.fails

theorem Sound.chunk (h : s.Sound hash) (f : Fetch) (n : Nat) (bs : Bytes) :
    (s.chunk f n bs).Sound hash := by
  unfold System.chunk
  split
  · exact h.fails
  · unfold System.append
    split
    · exact h.waits _ (Or.inr ⟨_, rfl⟩) _
    · exact h.waits _ (Or.inr ⟨_, rfl⟩) _

theorem Sound.ended (h : s.Sound hash) (f : Fetch) : (s.ended f).Sound hash := by
  unfold System.ended
  split
  · next p hp =>
      split
      · exact h.reads _ hp
      · exact h.fails
  · exact h.fails

theorem Sound.hashed (h : s.Sound hash) {f : Fetch} {c : Bytes} (hf : s.fetch = some f)
    (hstage : f.stage = .hashing c) : (s.hashed hash f c).Sound hash := by
  unfold System.hashed
  split
  · next hright =>
      refine ⟨h.blobs, ?_, ?_⟩
      · intro f' c' hf' hst
        cases hf'
        cases hst
      · intro f' hf' _ p hp
        cases hf'
        -- the file is still the one that has been read
        rw [h.hashing f c hf hstage p hp]
        exact hright
  · exact h.of_blobs (fun _ _ hc => hc) fun _ hn => (nomatch hn)

/-- A blob comes from a part that has been checked. -/
theorem Sound.commits (h : s.Sound hash) {f : Fetch} (hf : s.fetch = some f)
    (hstage : f.stage = .checked) (now : Int) : (s.commits f now).Sound hash := by
  unfold System.commits
  split
  · exact h.fails
  · next p hp =>
      refine ⟨?_, fun _ _ hn => (nomatch hn), fun _ hn => (nomatch hn)⟩
      intro k c hc
      rcases OrderedMap.get_set_cases hc with ⟨rfl, rfl⟩ | ⟨_, hold⟩
      · exact h.checked f hf hstage _ hp
      · exact h.blobs k c hold

theorem Sound.step (h : s.Sound hash) {a : Action} (ht : s.step hash a = some t) :
    t.Sound hash := by
  cases a with
  | opens dir index =>
      obtain ⟨_, ht⟩ := Option.ite_none_left_eq_some.1 ht
      cases ht
      exact h.abort.detach.frame rfl rfl rfl
  | looks =>
      obtain ⟨o, _, rfl⟩ := Option.map_eq_some_iff.1 ht
      exact h.looks o
  | hashes now =>
      obtain ⟨o, _, rfl⟩ := Option.map_eq_some_iff.1 ht
      exact h.hashes o now
  | opened =>
      rw [System.step] at ht
      split at ht
      · cases ht
        exact h.frame rfl rfl rfl
      · cases ht
  | openFails =>
      obtain ⟨o, _, rfl⟩ := Option.map_eq_some_iff.1 ht
      exact h.frame rfl rfl rfl
  | shutdown =>
      cases ht
      exact h.abort.detach
  | restart =>
      cases ht
      exact h.of_blobs (fun _ _ hc => hc) fun _ hn => (nomatch hn)
  | starts sha size kind =>
      rw [System.step] at ht
      split at ht
      · obtain ⟨_, ht⟩ := Option.ite_none_left_eq_some.1 ht
        cases ht
        exact h.starts ..
      · cases ht
  | responds a =>
      rw [System.step] at ht
      split at ht
      · cases ht
        exact h.responds ..
      · cases ht
  | chunk bs =>
      rw [System.step] at ht
      split at ht
      · cases ht
        exact h.chunk ..
      · cases ht
  | ended =>
      rw [System.step] at ht
      split at ht
      · cases ht
        exact h.ended _
      · cases ht
  | broken =>
      obtain ⟨_, _, rfl⟩ := Option.map_eq_some_iff.1 ht
      exact h.fails
  | abort =>
      cases ht
      exact h.abort
  | hashed =>
      rw [System.step] at ht
      split at ht
      · next hf =>
          cases ht
          exact h.hashed hf rfl
      · cases ht
  | commits now =>
      rw [System.step] at ht
      split at ht
      · next hf =>
          cases ht
          exact h.commits hf rfl now
      · cases ht
  | remove sha =>
      cases ht
      exact h.frame rfl rfl rfl
  | unlinked dir sha =>
      cases ht
      exact h.of_files (fun _ _ hc => get_of_delete hc) (fun _ _ hp => hp) fun f hf =>
        ⟨f, hf, rfl, rfl, rfl⟩
  | partGone dir sha =>
      cases ht
      exact h.of_files (fun _ _ hc => hc) (fun _ _ hp => get_of_delete hp) fun f hf =>
        ⟨f, hf, rfl, rfl, rfl⟩

/-- Over every run, whatever the servers send: a blob or a part of it is handed out only under a
signature for it, and it is what it is called. -/
theorem handed_out (hash : Bytes → Sha) (hmac : Text → Text → Text) {as : List Action}
    {s : System} (h : exec (step hash) new as = some s) {secret : Text} {nowMs : Nat}
    {r : LanServer.Request}
    (hok : (LanServer.handle hmac secret nowMs s.indexed s.file r).status = 200 ∨
      (LanServer.handle hmac secret nowMs s.indexed s.file r).status = 206) :
    ∃ sha c first past, r.path = "/blob/".toList ++ sha ∧ hash c = .ofList sha ∧
      LanServer.Granted hmac secret sha r.exp r.sig nowMs ∧
      LanServer.HandedOut r c first past
        (LanServer.handle hmac secret nowMs s.indexed s.file r) := by
  have hsound : s.Sound hash := exec_invariant (fun _ _ _ hs ht => hs.step ht) new_sound h
  obtain ⟨sha, c, first, past, hpath, hfile, hgranted, hout, _⟩ := LanServer.handle_ok hok
  obtain ⟨b, _, hb⟩ := Option.bind_eq_some_iff.1 hfile
  exact ⟨sha, c, first, past, hpath, hsound.blobs _ c hb, hgranted, hout⟩

def sampleName : Text := List.replicate 64 'a'

def sampleRun : List Action :=
  [.opens "d" .empty, .opened, .starts (.ofList sampleName) 3 none, .responds ⟨200, none, none⟩,
    .chunk [1, 2], .chunk [3], .ended, .hashed, .commits 0]

def sampleRequest : LanServer.Request :=
  ⟨"GET", "/blob/".toList ++ sampleName, some "100".toList, some (List.replicate 64 '0'),
    some "bytes=1-".toList⟩

/-- With a digest that is always the same. -/
theorem handed_out_sample : ∃ s,
    exec (step fun _ => .ofList sampleName) new sampleRun = some s ∧
      (LanServer.handle (fun _ _ => List.replicate 64 '0') "k".toList 90000 s.indexed s.file
        sampleRequest).body = [2, 3] ∧
      ∃ sha c first past, sampleRequest.path = "/blob/".toList ++ sha ∧
        (.ofList sampleName : Sha) = .ofList sha ∧
        LanServer.Granted (fun _ _ => List.replicate 64 '0') "k".toList sha sampleRequest.exp
          sampleRequest.sig 90000 ∧
        LanServer.HandedOut sampleRequest c first past
          (LanServer.handle (fun _ _ => List.replicate 64 '0') "k".toList 90000 s.indexed s.file
            sampleRequest) := by
  refine ⟨_, rfl, by decide, handed_out _ _ (?_ : exec _ new sampleRun = some _) (Or.inr ?_)⟩
  · rfl
  · decide

end System

end Downloads
end Cache
end GateControl
