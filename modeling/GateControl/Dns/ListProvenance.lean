import GateControl.Dns.Lists

/-!
# ListProvenance — which download a loaded list comes from

The content of a list lives in memory, in `<id>.txt` and, as url and digest, in the metadata, and
these are changed at different moments.  `Core` says how they hang together while a call of
`setWanted` has still to look at the lists `pending`; it is kept by every step of a run in which
metadata are never paired with a file they do not describe, and no list of another entry stays in
memory while `setWanted` waits (`Paired`).
-/

namespace GateControl
namespace Dns

open Library

namespace ListManager

variable {host : UnicodeHost} (sha256 : Bytes → String)

/-- The file came from the url of the entry and has the digest the entry asks for. -/
def From (c : CatalogEntry) (f : File) : Prop :=
  f.origin = c.url ∧ ∀ h, c.sha256 = some h → sha256 f.content = h

/-- The list was parsed in the format of the entry, from a file of the entry. -/
def Serves (c : CatalogEntry) (l : Loaded host) : Prop :=
  l.format = c.format ∧ From sha256 c l.file

/-- The metadata name the url of the file and, if any digest, its digest. -/
def Describes (m : ListMeta) (f : File) : Prop :=
  m.url = some f.origin ∧ ∀ h, m.sha256 = some h → sha256 f.content = h

/-- The lists that a call of `setWanted` in progress has still to look at. -/
def pending (s : ListManager host) : List ListId :=
  match s.wanting with
  | some w => w.rest
  | none => []

/-- Every loaded list serves the entry the catalog has for it. -/
def Provenance (s : ListManager host) : Prop :=
  ∀ id l, s.lists.get id = some l → ∃ c, s.catalog.get id = some c ∧ Serves sha256 c l

/-! ## The condition -/

/-- A list that `setWanted` has still to look at when it begins to wait, and that is in memory, has
metadata of its entry. -/
def WaitsPaired (s : ListManager host) (rest : List ListId) : Prop :=
  ∀ id ∈ rest, s.lists.has id = true →
    ∃ c m, s.catalog.get id = some c ∧ s.metadata.get id = some m ∧ m.Same c.source

/-- Every list whose metadata the loop of `setWanted` resets has no file, or one from its url; and
where the loop begins to wait for a file, the lists behind it are in order. -/
def ResetsPaired (s : ListManager host) : List ListId → Prop
  | [] => True
  | id :: rest =>
      match s.sourceAt id with
      | none => ResetsPaired s rest
      | some c =>
          -- `want` branches in the same way: reset, pass by, or begin to wait
          match (s.metaAt id).filter fun m => m.2.Same c with
          | some (ref, _) =>
              if s.lists.has id then ResetsPaired s rest
              else if fileOk id then WaitsPaired s rest
              else ResetsPaired (s.due id ref) rest
          | none =>
              (∀ f, s.files.get id = some f → c.url = some f.origin) ∧
                ResetsPaired (s.resetMeta id c) rest

/-- The metadata at the moment a download goes into place have its url and, where they are not
brought up to date with it, describe it. -/
def InstallPaired (s : ListManager host) (r : Refresh) (body : Bytes) : Prop :=
  (∀ m, s.metadata.get r.id = some m → m.url = some r.entry.url) ∧
    (s.Outdated r → ∀ m, s.metadata.get r.id = some m ∨ s.saved.get r.id = some m →
      Describes sha256 m ⟨body, r.entry.url⟩)

/-- What `setWanted` has read still has the digest recorded for the list. -/
def ReadPaired (s : ListManager host) (w : Wanting) : Prop :=
  ∀ f m, w.read = some (some f) → s.metadata.get w.id = some m →
    ∀ h, m.sha256 = some h → sha256 f.content = h

/-- The step pairs no metadata with a file they do not describe, and leaves no list of another entry
in memory. -/
def Paired (s : ListManager host) : Action → Prop
  | .setWanted catalog usedIds =>
      ResetsPaired (s.takeCatalog catalog usedIds) (s.takeCatalog catalog usedIds).used
  | .fileParsed readable =>
      ∀ w, s.wanting = some w →
        ReadPaired sha256 s w ∧ ResetsPaired (s.takeFile w readable) w.rest
  | .parsed none =>
      ∀ remaining r body etag lastModified room, s.busy = some ⟨remaining, some r⟩ →
        r.body = some (body, etag, lastModified, room) →
        (∃ l, load host ⟨body, r.entry.url⟩ r.entry.format room = .ok l ∧ l.result.entries ≠ 0) →
          InstallPaired sha256 s r body
  | _ => True

/-! ## The invariant -/

/-- How memory, files and metadata hang together while the lists `pending` are still to be
looked at. -/
structure Core (s : ListManager host) (pending : List ListId) : Prop where
  file : ∀ id f m, s.files.get id = some f → s.metadata.get id = some m → Describes sha256 m f
  savedFile : ∀ id f m, s.files.get id = some f → s.saved.get id = some m → Describes sha256 m f
  catalogued : ∀ id ∈ s.used, found s.catalog id = true
  inUse : ∀ id l, s.lists.get id = some l → id ∈ s.used
  known : ∀ id ∈ s.used, id ∉ pending → ∀ c, s.catalog.get id = some c →
    ∃ m, s.metadata.get id = some m ∧ m.url = some c.url ∧ m.format = some c.format
  /-- A list without metadata of its own was refreshed while `setWanted` had not come to it yet. -/
  noted : ∀ id l, s.lists.get id = some l → (∃ m, s.metadata.get id = some m) ∨
    (id ∈ pending ∧ ∃ c, s.catalog.get id = some c)
  listMeta : ∀ id l m, s.lists.get id = some l → s.metadata.get id = some m →
    Describes sha256 m l.file ∧ (m.format = some l.format ∨
      (id ∈ pending ∧ ∃ c, s.catalog.get id = some c ∧ l.format = c.format))
  served : ∀ id l, s.lists.get id = some l → id ∉ pending →
    ∃ c, s.catalog.get id = some c ∧ Serves sha256 c l
  /-- Metadata that replaced those of the running refresh have no digest. -/
  orphan : ∀ remaining r m, s.busy = some ⟨remaining, some r⟩ → s.metadata.get r.id = some m →
    r.ref ≠ some m.ref → m.sha256 = none
  checked : ∀ remaining r body rest, s.busy = some ⟨remaining, some r⟩ →
    r.body = some (body, rest) → ∀ h, r.entry.sha256 = some h → sha256 body = h
  unloaded : s.loadedMeta = false → (∀ id, s.lists.get id = none) ∧
    (∀ remaining r, s.busy ≠ some ⟨remaining, some r⟩) ∧ s.used = [] ∧
    (∀ round, s.busy = some round → round.remaining = [])

/-- A suspended call of `setWanted`. -/
structure Waiting (s : ListManager host) (w : Wanting) : Prop where
  inUse : w.id ∈ s.used
  restInUse : ∀ id ∈ w.rest, id ∈ s.used
  loaded : s.loadedMeta = true
  same : ∀ c, s.catalog.get w.id = some c → ∃ m, s.metadata.get w.id = some m ∧
    m.Same c.source ∧ ∀ f, w.read = some (some f) → From sha256 c f

structure Inv (s : ListManager host) : Prop where
  core : Core sha256 s s.pending
  waiting : ∀ w, s.wanting = some w → Waiting sha256 s w
  served : Provenance sha256 s

theorem start_inv (now : Int) : Inv sha256 (start host now) := by
  refine ⟨⟨?_, ?_, ?_, ?_, ?_, ?_, ?_, ?_, ?_, ?_, ?_⟩, ?_, ?_⟩ <;> simp [start, open_, Provenance]

variable {sha256}

theorem load_eq_ok {f : File} {format : Format} {limit : Nat} {l : Loaded host}
    (h : load host f format limit = .ok l) : l.file = f ∧ l.format = format := by
  unfold load at h
  split at h
  · cases h
  · cases h
    exact ⟨rfl, rfl⟩

theorem Describes.from {m : ListMeta} {c : CatalogEntry} {f : File} (h : Describes sha256 m f)
    (hs : m.Same c.source) : From sha256 c f := by
  refine ⟨Option.some.inj (h.1.symm.trans hs.1), ?_⟩
  intro d hd
  rcases hs.2.2 with hnone | heq
  · exact absurd (hd.symm.trans hnone) (Option.some_ne_none d)
  · exact h.2 d (heq.symm.trans hd)

/-! ## Metadata updates -/

variable {s : ListManager host} {pending : List ListId}

/-- An update touches at most the metadata of one list. -/
theorem updateMeta_spec (s : ListManager host) (id : ListId) (ref : MetaRef)
    (f : ListMeta → ListMeta) :
    ∃ md mb, s.updateMeta id ref f = { s with metadata := md, members := mb } ∧
      (∀ j m', md.get j = some m' → ∃ m, s.metadata.get j = some m ∧
        ((m' = m ∧ (j = id → ref ≠ some m.ref)) ∨ (j = id ∧ ref = some m.ref ∧ m' = f m))) ∧
      (∀ j m, s.metadata.get j = some m → ∃ m', md.get j = some m' ∧
        (m' = m ∨ (j = id ∧ ref = some m.ref ∧ m' = f m))) := by
  cases ref with
  | none =>
      -- only the inherited member is written to
      refine ⟨s.metadata, _, rfl, ?_, fun j m hm => ⟨m, hm, Or.inl rfl⟩⟩
      intro j m' hm'
      exact ⟨m', hm', Or.inl ⟨rfl, fun _ h => by cases h⟩⟩
  | some ref =>
      simp only [updateMeta]
      cases hget : s.metadata.get id with
      | none =>
          refine ⟨s.metadata, s.members, rfl, ?_, fun j m hm => ⟨m, hm, Or.inl rfl⟩⟩
          intro j m' hm'
          refine ⟨m', hm', Or.inl ⟨rfl, ?_⟩⟩
          intro hj
          rw [hj, hget] at hm'
          cases hm'
      | some m₀ =>
          -- the metadata are those that the download was made for, or others
          by_cases href : m₀.ref = ref
          · subst href
            refine ⟨s.metadata.set id (f m₀), s.members, by simp, ?_, ?_⟩
            · intro j m' hm'
              rcases OrderedMap.get_set_cases hm' with ⟨rfl, rfl⟩ | ⟨hj, hold⟩
              · exact ⟨m₀, hget, Or.inr ⟨rfl, rfl, rfl⟩⟩
              · exact ⟨m', hold, Or.inl ⟨rfl, fun h => absurd h hj⟩⟩
            · intro j m hm
              by_cases hj : j = id
              · subst hj
                obtain rfl : m₀ = m := Option.some.inj (hget.symm.trans hm)
                exact ⟨f m₀, by simp, Or.inr ⟨rfl, rfl, rfl⟩⟩
              · exact ⟨m, by simpa [OrderedMap.get_set, hj] using hm, Or.inl rfl⟩
          · refine ⟨s.metadata, s.members, by simp [href], ?_, fun j m hm => ⟨m, hm, Or.inl rfl⟩⟩
            intro j m' hm'
            refine ⟨m', hm', Or.inl ⟨rfl, ?_⟩⟩
            intro hj hr
            rw [hj, hget] at hm'
            cases hm'
            exact href (Option.some.inj hr).symm

/-- The update changes neither what the metadata describe nor which object they are. -/
def Bookkeeping (f : ListMeta → ListMeta) : Prop :=
  ∀ m, (f m).url = m.url ∧ (f m).format = m.format ∧ (f m).sha256 = m.sha256 ∧ (f m).ref = m.ref

theorem bookkeeping_get {f : ListMeta → ListMeta} (hf : Bookkeeping f) (id : ListId)
    (ref : MetaRef) : ∃ md mb, s.updateMeta id ref f = { s with metadata := md, members := mb } ∧
      (∀ j m', md.get j = some m' → ∃ m, s.metadata.get j = some m ∧ m'.url = m.url ∧
        m'.format = m.format ∧ m'.sha256 = m.sha256 ∧ m'.ref = m.ref) ∧
      (∀ j m, s.metadata.get j = some m → ∃ m', md.get j = some m' ∧ m'.url = m.url ∧
        m'.format = m.format ∧ m'.sha256 = m.sha256 ∧ m'.ref = m.ref) := by
  rcases updateMeta_spec s id ref f with ⟨md, mb, heq, hback, hforth⟩
  refine ⟨md, mb, heq, ?_, ?_⟩
  · intro j m' hm'
    rcases hback j m' hm' with ⟨m, hm, ⟨rfl, _⟩ | ⟨_, _, rfl⟩⟩
    · exact ⟨_, hm, rfl, rfl, rfl, rfl⟩
    · exact ⟨m, hm, hf m⟩
  · intro j m hm
    rcases hforth j m hm with ⟨m', hm', rfl | ⟨_, _, rfl⟩⟩
    · exact ⟨_, hm', rfl, rfl, rfl, rfl⟩
    · exact ⟨_, hm', hf m⟩

theorem Core.bookkeeping (hc : Core sha256 s pending) {f : ListMeta → ListMeta}
    (hf : Bookkeeping f) (id : ListId) (ref : MetaRef) :
    Core sha256 (s.updateMeta id ref f) pending := by
  -- every field reads url, format, digest or identity, and the update leaves these alone
  rcases bookkeeping_get (s := s) hf id ref with ⟨md, mb, heq, hback, hforth⟩
  rw [heq]
  constructor
  case file =>
    intro j g m' hg hm'
    rcases hback j m' hm' with ⟨m, hm, hu, _, hd, _⟩
    simpa [Describes, hu, hd] using hc.file j g m hg hm
  case savedFile =>
    exact hc.savedFile
  case catalogued =>
    exact hc.catalogued
  case inUse =>
    exact hc.inUse
  case known =>
    intro j hj hp c hcat
    rcases hc.known j hj hp c hcat with ⟨m, hm, hurl, hfmt⟩
    rcases hforth j m hm with ⟨m', hm', hu, hf', _, _⟩
    exact ⟨m', hm', hu.trans hurl, hf'.trans hfmt⟩
  case noted =>
    intro j l hl
    refine (hc.noted j l hl).imp ?_ fun h => h
    rintro ⟨m, hm⟩
    rcases hforth j m hm with ⟨m', hm', _⟩
    exact ⟨m', hm'⟩
  case listMeta =>
    intro j l m' hl hm'
    rcases hback j m' hm' with ⟨m, hm, hu, hf', hd, _⟩
    simpa [Describes, hu, hd, hf'] using hc.listMeta j l m hl hm
  case served =>
    exact hc.served
  case orphan =>
    intro rem r m' hb hm' hne
    rcases hback r.id m' hm' with ⟨m, hm, _, _, hd, hr⟩
    exact hd.trans (hc.orphan rem r m hb hm (hr ▸ hne))
  case checked =>
    exact hc.checked
  case unloaded =>
    exact hc.unloaded

theorem bookkeeping_entries (n : Nat) : Bookkeeping fun m => { m with entries := n } :=
  fun _ => ⟨rfl, rfl, rfl, rfl⟩

theorem bookkeeping_nextAt (t : Int) : Bookkeeping fun m => { m with nextAt := t } :=
  fun _ => ⟨rfl, rfl, rfl, rfl⟩

theorem updateMeta_wanting (s : ListManager host) (id : ListId) (ref : MetaRef)
    (f : ListMeta → ListMeta) : (s.updateMeta id ref f).wanting = s.wanting := by
  rcases updateMeta_spec s id ref f with ⟨md, mb, heq, _⟩
  rw [heq]

theorem updateMeta_loadedMeta (s : ListManager host) (id : ListId) (ref : MetaRef)
    (f : ListMeta → ListMeta) : (s.updateMeta id ref f).loadedMeta = s.loadedMeta := by
  rcases updateMeta_spec s id ref f with ⟨md, mb, heq, _⟩
  rw [heq]

theorem updateMeta_used (s : ListManager host) (id : ListId) (ref : MetaRef)
    (f : ListMeta → ListMeta) : (s.updateMeta id ref f).used = s.used := by
  rcases updateMeta_spec s id ref f with ⟨md, mb, heq, _⟩
  rw [heq]

theorem updateMeta_busy (s : ListManager host) (id : ListId) (ref : MetaRef)
    (f : ListMeta → ListMeta) : (s.updateMeta id ref f).busy = s.busy := by
  rcases updateMeta_spec s id ref f with ⟨md, mb, heq, _⟩
  rw [heq]

theorem Core.saveMeta (hc : Core sha256 s pending) : Core sha256 s.saveMeta pending :=
  { hc with savedFile := hc.file }

/-- The refresh has come to its end. -/
theorem Core.idle (hc : Core sha256 s pending) (remaining : List ListId)
    (hrem : s.loadedMeta = false → remaining = []) :
    Core sha256 { s with busy := some ⟨remaining, none⟩ } pending :=
  { hc with
    orphan := fun _ _ _ hb => by simp at hb
    checked := fun _ _ _ _ hb => by simp at hb
    unloaded := fun hl => ⟨(hc.unloaded hl).1, fun _ _ => by simp, (hc.unloaded hl).2.2.1,
      fun _ hb => by simpa [← Option.some.inj hb] using hrem hl⟩ }

/-! ## The loop of `setWanted` -/

variable {id : ListId} {rest : List ListId} {c : CatalogEntry} {m : ListMeta} {src : Source}

/-- What a found id stands for, and the metadata it is compared with. -/
theorem sourceAt_cases (h : s.sourceAt id = some src) :
    (∃ c, s.catalog.get id = some c ∧ src = c.source) ∨
      (s.catalog.get id = none ∧ src.url = none) := by
  unfold sourceAt at h
  cases hcat : s.catalog.get id with
  | some c =>
      rw [hcat] at h
      exact Or.inl ⟨c, rfl, (Option.some.inj h).symm⟩
  | none =>
      simp only [hcat] at h
      split at h
      · exact Or.inr ⟨rfl, by rw [← Option.some.inj h]⟩
      · cases h

theorem metaAt_cases {ref : MetaRef} (h : s.metaAt id = some (ref, m)) :
    (s.metadata.get id = some m ∧ ref = some m.ref) ∨
      (s.metadata.get id = none ∧ m.url = none) := by
  unfold metaAt at h
  cases hget : s.metadata.get id with
  | some m₀ =>
      rw [hget] at h
      cases h
      exact Or.inl ⟨rfl, rfl⟩
  | none =>
      simp only [hget] at h
      split at h
      · cases h
        exact Or.inr ⟨rfl, rfl⟩
      · cases h

theorem sourceAt_isSome (h : found s.catalog id = true) : (s.sourceAt id).isSome = true := by
  unfold sourceAt
  cases hcat : s.catalog.get id with
  | some c =>
      rfl
  | none =>
      have hin : isInherited id = true := by
        simpa [found, OrderedMap.has, hcat] using h
      simp [hin]

/-- The metadata are reset: the list is out of memory, and a file it may have is from its url. -/
theorem Core.resetMeta (hc : Core sha256 s (id :: rest)) (hsrc : s.sourceAt id = some src)
    (hfile : ∀ f, s.files.get id = some f → src.url = some f.origin) :
    Core sha256 (s.resetMeta id src) rest := by
  constructor
  case file =>
    intro j f m' hf hm'
    rcases OrderedMap.get_set_cases hm' with ⟨rfl, rfl⟩ | ⟨_, hm⟩
    · -- new metadata have no digest, so no file contradicts them
      exact ⟨hfile f hf, fun h hh => by simp [ListMeta.fresh] at hh⟩
    · exact hc.file j f m' hf hm
  case savedFile =>
    exact hc.savedFile
  case catalogued =>
    exact hc.catalogued
  case inUse =>
    intro j l hl
    exact hc.inUse j l (OrderedMap.get_delete_cases hl).2
  case known =>
    intro j hj hp c' hc'
    by_cases hji : j = id
    · subst hji
      have hown : src = c'.source := by
        rcases sourceAt_cases hsrc with ⟨c, hcat, rfl⟩ | ⟨hcat, _⟩
        · rw [Option.some.inj (hcat.symm.trans hc')]
        · exact absurd (hcat.symm.trans hc') (by simp)
      refine ⟨.fresh src s.nextRef, by simp [ListManager.resetMeta], ?_, ?_⟩
      · rw [hown]
        rfl
      · rw [hown]
        rfl
    · rcases hc.known j hj (by simp [hji, hp]) c' hc' with ⟨m', hm', hu⟩
      refine ⟨m', ?_, hu⟩
      simpa [ListManager.resetMeta, OrderedMap.get_set, hji] using hm'
  case noted =>
    intro j l hl
    rcases OrderedMap.get_delete_cases hl with ⟨hji, hl'⟩
    rcases hc.noted j l hl' with ⟨m', hm'⟩ | ⟨hp, hcat⟩
    · exact Or.inl ⟨m', by simpa [ListManager.resetMeta, OrderedMap.get_set, hji] using hm'⟩
    · exact Or.inr ⟨(List.mem_cons.1 hp).resolve_left hji, hcat⟩
  case listMeta =>
    intro j l m' hl hm'
    rcases OrderedMap.get_delete_cases hl with ⟨hji, hl'⟩
    rcases OrderedMap.get_set_cases hm' with ⟨hj, _⟩ | ⟨_, hm⟩
    · exact absurd hj hji
    · have hold := hc.listMeta j l m' hl' hm
      simp only [List.mem_cons, hji, false_or] at hold
      exact hold
  case served =>
    intro j l hl hp
    rcases OrderedMap.get_delete_cases hl with ⟨hji, hl'⟩
    exact hc.served j l hl' (by simp [hji, hp])
  case orphan =>
    intro rem r m' hb hm' hne
    rcases OrderedMap.get_set_cases hm' with ⟨_, rfl⟩ | ⟨_, hm⟩
    · rfl
    · exact hc.orphan rem r m' hb hm hne
  case checked =>
    exact hc.checked
  case unloaded =>
    intro hl
    rcases hc.unloaded hl with ⟨h1, h2⟩
    refine ⟨fun j => ?_, h2⟩
    simp [ListManager.resetMeta, OrderedMap.get_delete, h1]

/-- The metadata in memory belong to the entry that the catalog has. -/
theorem own_of_same {ref : MetaRef} (hcat : s.catalog.get id = some c)
    (hsrc : s.sourceAt id = some src) (hm : s.metaAt id = some (ref, m)) (hsame : m.Same src) :
    s.metadata.get id = some m ∧ m.Same c.source := by
  rcases sourceAt_cases hsrc with ⟨c', hcat', rfl⟩ | ⟨hnone, _⟩
  · obtain rfl : c = c' := Option.some.inj (hcat.symm.trans hcat')
    rcases metaAt_cases hm with ⟨hget, _⟩ | ⟨_, hurl⟩
    · exact ⟨hget, hsame⟩
    · -- the inherited member has no url
      exact absurd (hurl.symm.trans hsame.1) (by simp [CatalogEntry.source])
  · exact absurd (hnone.symm.trans hcat) (by simp)

/-- A list in memory that the loop goes past has an entry in the catalog. -/
theorem Core.entry_of_same (hc : Core sha256 s pending) {ref : MetaRef} {l : Loaded host}
    (hl : s.lists.get id = some l) (hsrc : s.sourceAt id = some src)
    (hm : s.metaAt id = some (ref, m)) (hsame : m.Same src) : ∃ c, s.catalog.get id = some c := by
  rcases sourceAt_cases hsrc with ⟨c, hcat, _⟩ | ⟨_, hurl⟩
  · exact ⟨c, hcat⟩
  · rcases metaAt_cases hm with ⟨hget, _⟩ | ⟨hnone, _⟩
    · -- metadata without a url describe no file
      have hd := (hc.listMeta id l m hl hget).1.1
      exact absurd ((hsame.1.trans hurl).symm.trans hd) (by simp)
    · rcases hc.noted id l hl with ⟨m', hm'⟩ | ⟨_, hcat⟩
      · exact absurd (hnone.symm.trans hm') (by simp)
      · exact hcat

/-- The loop goes past a list whose metadata belong to its entry. -/
theorem Core.pass (hc : Core sha256 s (id :: rest)) {ref : MetaRef}
    (hsrc : s.sourceAt id = some src) (hm : s.metaAt id = some (ref, m)) (hsame : m.Same src) :
    Core sha256 s rest := by
  have hlist : ∀ j l m', s.lists.get j = some l → s.metadata.get j = some m' →
      Describes sha256 m' l.file ∧ (m'.format = some l.format ∨
        (j ∈ rest ∧ ∃ c, s.catalog.get j = some c ∧ l.format = c.format)) := by
    intro j l m' hl hm'
    rcases hc.listMeta j l m' hl hm' with ⟨hd, hfmt | ⟨hp, c', hc', hfmt⟩⟩
    · exact ⟨hd, Or.inl hfmt⟩
    · rcases List.mem_cons.1 hp with rfl | hp
      · -- the list was refreshed while the call was suspended
        rcases own_of_same hc' hsrc hm hsame with ⟨hget, hsame'⟩
        obtain rfl : m = m' := Option.some.inj (hget.symm.trans hm')
        exact ⟨hd, Or.inl (hsame'.2.1.trans (congrArg some hfmt.symm))⟩
      · exact ⟨hd, Or.inr ⟨hp, c', hc', hfmt⟩⟩
  -- `known` and `served` gain the list `id`, which is no longer pending
  refine { hc with known := ?_, noted := ?_, listMeta := hlist, served := ?_ }
  · intro j hj hp c hcat
    by_cases hji : j = id
    · subst hji
      rcases own_of_same hcat hsrc hm hsame with ⟨hget, hsame'⟩
      exact ⟨m, hget, hsame'.1, hsame'.2.1⟩
    · exact hc.known j hj (by simp [hji, hp]) c hcat
  · intro j l hl
    rcases hc.noted j l hl with hown | ⟨hp, c, hcat⟩
    · exact Or.inl hown
    · rcases List.mem_cons.1 hp with rfl | hp
      · exact Or.inl ⟨m, (own_of_same hcat hsrc hm hsame).1⟩
      · exact Or.inr ⟨hp, c, hcat⟩
  · intro j l hl hp
    by_cases hji : j = id
    · subst hji
      rcases hc.entry_of_same hl hsrc hm hsame with ⟨c, hcat⟩
      rcases own_of_same hcat hsrc hm hsame with ⟨hget, hsame'⟩
      -- `Same` carries url and digest from the metadata over to the entry
      rcases hlist j l m hl hget with ⟨hd, hfmt | ⟨hp', _⟩⟩
      · exact ⟨c, hcat, Option.some.inj (hfmt.symm.trans hsame'.2.1), hd.from hsame'⟩
      · exact absurd hp' hp
    · exact hc.served j l hl (by simp [hji, hp])

/-- Lists that are still to be looked at serve their entries while their metadata belong to them. -/
theorem Core.provenance (hc : Core sha256 s rest) (hok : s.WaitsPaired rest) :
    Provenance sha256 s := by
  intro j l hl
  by_cases hp : j ∈ rest
  · have hhas : s.lists.has j = true := by simp [OrderedMap.has, hl]
    rcases hok j hp hhas with ⟨c, m, hcat, hm, hsame⟩
    refine ⟨c, hcat, ?_⟩
    rcases hc.listMeta j l m hl hm with ⟨hd, hfmt | ⟨_, c', hcat', hfmt⟩⟩
    · exact ⟨Option.some.inj (hfmt.symm.trans hsame.2.1), hd.from hsame⟩
    · obtain rfl : c = c' := Option.some.inj (hcat.symm.trans hcat')
      exact ⟨hfmt, hd.from hsame⟩
  · exact hc.served j l hl hp

/-- The whole loop, up to the next file it has to read. -/
theorem want_inv (ids : List ListId) (s : ListManager host) (hc : Core sha256 s ids)
    (hloaded : s.loadedMeta = true) (hused : ∀ id ∈ ids, id ∈ s.used)
    (hok : ResetsPaired s ids) : Inv sha256 (s.want ids) := by
  -- induction on the lists still to be looked at; the loop stops where it has to wait
  induction ids generalizing s with
  | nil =>
      refine ⟨?_, ?_, ?_⟩
      · have hsave := hc.saveMeta
        exact { hsave with }
      · intro w hw
        cases hw
      · intro j l hl
        exact hc.served j l hl List.not_mem_nil
  | cons id rest ih =>
      rcases Option.isSome_iff_exists.1 (sourceAt_isSome (hc.catalogued id (hused id
        List.mem_cons_self))) with ⟨src, hsrc⟩
      have hrest : ∀ j ∈ rest, j ∈ s.used := fun j hj => hused j (List.mem_cons_of_mem _ hj)
      cases hm : s.metaAt id with
      | none =>
          simp only [ResetsPaired, hsrc, hm, Option.filter_none] at hok
          simp only [want, hsrc, hm]
          exact ih (s.resetMeta id src) (hc.resetMeta hsrc hok.1) hloaded hrest hok.2
      | some rm =>
          rcases rm with ⟨ref, m⟩
          by_cases hsame : m.Same src
          · have hpass := hc.pass hsrc hm hsame
            simp only [ResetsPaired, hsrc, hm, Option.filter_some, hsame, decide_true, if_true] at hok
            simp only [want, hsrc, hm, hsame, if_true]
            by_cases hhas : s.lists.has id = true
            · simp only [hhas, if_true] at hok ⊢
              exact ih s hpass hloaded hrest hok
            · simp only [hhas, Bool.false_eq_true, if_false] at hok ⊢
              by_cases hfile : fileOk id = true
              · simp only [hfile, if_true] at hok ⊢
                refine ⟨{ hpass with }, ?_, hpass.provenance hok⟩
                intro w hw
                cases hw
                refine ⟨hused id List.mem_cons_self, hrest, hloaded, fun c hcat => ?_⟩
                rcases own_of_same hcat hsrc hm hsame with ⟨hget, hsame'⟩
                exact ⟨m, hget, hsame', fun f hf => by cases hf⟩
              · simp only [hfile, Bool.false_eq_true, if_false] at hok ⊢
                have hdue := hpass.bookkeeping (bookkeeping_nextAt 0) id ref
                refine ih (s.due id ref) hdue ?_ ?_ hok
                · rw [due, updateMeta_loadedMeta, hloaded]
                · rw [due, updateMeta_used]
                  exact hrest
          · simp only [ResetsPaired, hsrc, hm, Option.filter_some, hsame, decide_false,
              Bool.false_eq_true, if_false] at hok
            simp only [want, hsrc, hm, hsame, if_false]
            exact ih (s.resetMeta id src) (hc.resetMeta hsrc hok.1) hloaded hrest hok.2

theorem Core.loadMeta (hc : Core sha256 s []) :
    Core sha256 s.loadMeta [] ∧ s.loadMeta.loadedMeta = true := by
  cases hl : s.loadedMeta with
  | true =>
      simp [ListManager.loadMeta, hl, hc]
  | false =>
      -- nothing is in memory yet, so only the pairing of files and saved metadata counts
      rcases hc.unloaded hl with ⟨hlists, hbusy, hused, hrem⟩
      refine ⟨?_, by simp [ListManager.loadMeta, hl]⟩
      simp only [ListManager.loadMeta, hl, Bool.false_eq_true, if_false]
      constructor
      case file =>
        exact hc.savedFile
      case savedFile =>
        exact hc.savedFile
      case catalogued =>
        exact hc.catalogued
      case inUse =>
        exact hc.inUse
      case known =>
        intro j hj
        simp [hused] at hj
      case noted =>
        intro j l hl'
        simp [hlists] at hl'
      case listMeta =>
        intro j l m' hl'
        simp [hlists] at hl'
      case served =>
        exact hc.served
      case orphan =>
        intro rem r m' hb
        exact absurd hb (hbusy rem r)
      case checked =>
        exact hc.checked
      case unloaded =>
        intro h
        cases h

/-- A new catalog: every used list is still to be looked at. -/
theorem Core.takeCatalog (hc : Core sha256 s []) (catalog : OrderedMap ListId CatalogEntry)
    (usedIds : List ListId) :
    Core sha256 (s.takeCatalog catalog usedIds) (s.takeCatalog catalog usedIds).used ∧
      (s.takeCatalog catalog usedIds).loadedMeta = true := by
  rcases hc.loadMeta with ⟨hc', hloaded⟩
  refine ⟨?_, hloaded⟩
  unfold ListManager.takeCatalog
  constructor
  case file =>
    intro j f m' hf hm'
    exact hc'.file j f m' hf ((OrderedMap.get_filter _ _).1 hm').1
  case savedFile =>
    exact hc'.savedFile
  case catalogued =>
    intro j hj
    exact (List.mem_filter.1 hj).2
  case inUse =>
    intro j l hl
    simpa using ((OrderedMap.get_filter _ _).1 hl).2
  case known =>
    intro j hj hp
    -- nothing is known yet of what is still to be looked at
    exact absurd hj hp
  case noted =>
    intro j l hl
    have hmem := ((OrderedMap.get_filter _ _).1 hl).2
    have hfound := (List.mem_filter.1 (List.contains_iff_mem.1 hmem)).2
    rcases hc'.noted j l ((OrderedMap.get_filter _ _).1 hl).1 with ⟨m, hm⟩ | ⟨hp, _⟩
    · exact Or.inl ⟨m, (OrderedMap.get_filter _ _).2 ⟨hm, hfound⟩⟩
    · cases hp
  case listMeta =>
    intro j l m' hl hm'
    have hold := hc'.listMeta j l m' ((OrderedMap.get_filter _ _).1 hl).1
      ((OrderedMap.get_filter _ _).1 hm').1
    simp only [List.not_mem_nil, false_and, or_false] at hold
    exact ⟨hold.1, Or.inl hold.2⟩
  case served =>
    intro j l hl hp
    -- and what is in memory is still to be looked at
    have hmem := ((OrderedMap.get_filter _ _).1 hl).2
    exact absurd (by simpa using hmem) hp
  case orphan =>
    intro rem r m' hb hm' hne
    exact hc'.orphan rem r m' hb ((OrderedMap.get_filter _ _).1 hm').1 hne
  case checked =>
    exact hc'.checked
  case unloaded =>
    intro h
    exact absurd (hloaded.symm.trans h) (by simp)

/-- A list goes into memory that serves its entry and that the metadata describe. -/
theorem Core.setList (hc : Core sha256 s rest) {l : Loaded host} (hused : id ∈ s.used)
    (hcat : s.catalog.get id = some c) (hserves : Serves sha256 c l)
    (hmeta : ∃ m, s.metadata.get id = some m ∧ Describes sha256 m l.file ∧
      m.format = some c.format) (hloaded : s.loadedMeta = true) :
    Core sha256 { s with lists := s.lists.set id l } rest := by
  rcases hmeta with ⟨m, hm, hd, hfmt⟩
  refine { hc with inUse := ?_, noted := ?_, listMeta := ?_, served := ?_, unloaded := ?_ }
  · intro j l' hl'
    rcases OrderedMap.get_set_cases hl' with ⟨rfl, _⟩ | ⟨_, hold⟩
    · exact hused
    · exact hc.inUse j l' hold
  · intro j l' hl'
    rcases OrderedMap.get_set_cases hl' with ⟨rfl, _⟩ | ⟨_, hold⟩
    · exact Or.inl ⟨m, hm⟩
    · exact hc.noted j l' hold
  · intro j l' m' hl' hm'
    rcases OrderedMap.get_set_cases hl' with ⟨rfl, rfl⟩ | ⟨_, hold⟩
    · obtain rfl : m = m' := Option.some.inj (hm.symm.trans hm')
      exact ⟨hd, Or.inl (hfmt.trans (congrArg some hserves.1.symm))⟩
    · exact hc.listMeta j l' m' hold hm'
  · intro j l' hl' hp
    rcases OrderedMap.get_set_cases hl' with ⟨rfl, rfl⟩ | ⟨_, hold⟩
    · exact ⟨c, hcat, hserves⟩
    · exact hc.served j l' hold hp
  · intro h
    exact absurd (hloaded.symm.trans h) (by simp)

theorem takeFile_core {w : Wanting} (hc : Core sha256 s w.rest) (hw : Waiting sha256 s w)
    (hread : ReadPaired sha256 s w) (readable : Bool) :
    Core sha256 (s.takeFile w readable) w.rest := by
  have hnone : Core sha256 (s.due w.id w.ref) w.rest :=
    hc.bookkeeping (bookkeeping_nextAt 0) w.id w.ref
  unfold takeFile
  cases hcat : s.catalog.get w.id with
  | none =>
      exact hnone
  | some c =>
      rcases hw.same c hcat with ⟨m, hm, hsame, hfrom⟩
      cases hr : w.read with
      | none =>
          exact hnone
      | some r =>
          cases r with
          | none =>
              exact hnone
          | some f =>
              simp only
              split
              · rename_i l hl
                cases readable with
                | false =>
                    simp at hl
                | true =>
                    -- the file read earlier may have been replaced since; `ReadPaired` speaks of the
                    -- one read
                    have hload : load host f c.format maxEntriesList = .ok l := by
                      cases hld : load host f c.format maxEntriesList with
                      | error e =>
                          simp [hld, Except.toOption] at hl
                      | ok l' =>
                          simpa [hld, Except.toOption] using hl
                    rcases load_eq_ok hload with ⟨hfile, hfmt⟩
                    have hf := hfrom f hr
                    refine Core.bookkeeping ?_ (bookkeeping_entries _) w.id w.ref
                    refine hc.setList hw.inUse hcat ⟨hfmt, hfile ▸ hf⟩
                      ⟨m, hm, ⟨?_, ?_⟩, hsame.2.1⟩ hw.loaded
                    · rw [hfile, hf.1]
                      exact hsame.1
                    · intro h hh
                      rw [hfile]
                      exact hread f m hr hm h hh
              · exact hnone

/-! ## Refreshes -/

theorem Waiting.bookkeeping {w : Wanting} (hw : Waiting sha256 s w) {f : ListMeta → ListMeta}
    (hf : Bookkeeping f) (id : ListId) (ref : MetaRef) : Waiting sha256 (s.updateMeta id ref f) w := by
  rcases bookkeeping_get (s := s) hf id ref with ⟨md, mb, heq, _, hforth⟩
  rw [heq]
  refine ⟨hw.inUse, hw.restInUse, hw.loaded, fun c hcat => ?_⟩
  rcases hw.same c hcat with ⟨m, hm, hsame, hfrom⟩
  rcases hforth w.id m hm with ⟨m', hm', hu, hfmt, hd, _⟩
  exact ⟨m', hm', ⟨hu.trans hsame.1, hfmt.trans hsame.2.1, hd ▸ hsame.2.2⟩, hfrom⟩

theorem Inv.bookkeeping (hi : Inv sha256 s) {f : ListMeta → ListMeta} (hf : Bookkeeping f)
    (id : ListId) (ref : MetaRef) : Inv sha256 (s.updateMeta id ref f) := by
  have hw := updateMeta_wanting s id ref f
  refine ⟨?_, ?_, ?_⟩
  · have hp : (s.updateMeta id ref f).pending = s.pending := by simp [ListManager.pending, hw]
    rw [hp]
    exact hi.core.bookkeeping hf id ref
  · intro w hw'
    exact (hi.waiting w (hw ▸ hw')).bookkeeping hf id ref
  · rcases updateMeta_spec s id ref f with ⟨md, mb, heq, _⟩
    rw [heq]
    exact hi.served

theorem Inv.saveMeta (hi : Inv sha256 s) : Inv sha256 s.saveMeta :=
  ⟨hi.core.saveMeta, fun w hw => { hi.waiting w hw with }, hi.served⟩

theorem Inv.idle (hi : Inv sha256 s) (remaining : List ListId)
    (hrem : s.loadedMeta = false → remaining = []) :
    Inv sha256 { s with busy := some ⟨remaining, none⟩ } :=
  ⟨hi.core.idle remaining hrem, fun w hw => { hi.waiting w hw with }, hi.served⟩

/-- A refresh only runs on metadata that have been read. -/
theorem Core.loaded_of_busy (hc : Core sha256 s pending) {remaining : List ListId} {r : Refresh}
    (hb : s.busy = some ⟨remaining, some r⟩) : s.loadedMeta = true := by
  cases hl : s.loadedMeta with
  | true =>
      rfl
  | false =>
      exact absurd hb ((hc.unloaded hl).2.1 remaining r)

variable {remaining : List ListId} {r : Refresh}

theorem refreshFailed_inv (hi : Inv sha256 s) (hl : s.loadedMeta = true) (id : ListId)
    (ref : MetaRef) (jitter : Int) (code : String) :
    Inv sha256 (s.refreshFailed remaining id ref jitter code) := by
  refine Inv.saveMeta (Inv.idle (Inv.bookkeeping hi ?_ id ref) remaining ?_)
  · exact fun _ => ⟨rfl, rfl, rfl, rfl⟩
  · intro h
    rw [updateMeta_loadedMeta] at h
    exact absurd (hl.symm.trans h) (by simp)

theorem fetched_inv (hi : Inv sha256 s) (hb : s.busy = some ⟨remaining, some r⟩) (o : Fetched) :
    Inv sha256 (s.fetched sha256 remaining r o) := by
  have hl := hi.core.loaded_of_busy hb
  cases o with
  | failed code =>
      exact refreshFailed_inv hi hl _ _ _ code
  | notModified =>
      refine Inv.saveMeta (Inv.idle (Inv.bookkeeping hi ?_ r.id r.ref) remaining ?_)
      · exact fun _ => ⟨rfl, rfl, rfl, rfl⟩
      · intro h
        rw [updateMeta_loadedMeta] at h
        exact absurd (hl.symm.trans h) (by simp)
  | content body etag lastModified =>
      have hf : Bookkeeping fun m => { m with checkedAt := some s.now } :=
        fun _ => ⟨rfl, rfl, rfl, rfl⟩
      have hi' := hi.bookkeeping hf r.id r.ref
      have hb' := (updateMeta_busy s r.id r.ref fun m => { m with checkedAt := some s.now }).trans hb
      have hl' := hi'.core.loaded_of_busy hb'
      unfold fetched
      -- only the invariant of the updated state is used from here on
      generalize s.updateMeta r.id r.ref (fun m => { m with checkedAt := some s.now }) = s' at *
      simp only
      split
      · exact refreshFailed_inv hi' hl' _ _ _ _
      · rename_i hsha
        refine ⟨?_, fun w hw => { hi'.waiting w hw with }, hi'.served⟩
        refine { hi'.core with orphan := ?_, checked := ?_, unloaded := ?_ }
        · intro rem r' m hbr hm hne
          cases hbr
          exact hi'.core.orphan remaining r m hb' hm hne
        · intro rem r' body' rest' hbr hbody h hh
          cases hbr
          cases hbody
          have hentry : r.entry.sha256 = some h := hh
          -- a digest of the entry has been compared before the parser begins
          simp only [hentry, Option.any_some, decide_eq_true_eq, not_not] at hsha
          exact hsha.symm
        · intro h
          exact absurd (hl'.symm.trans h) (by simp)

/-- The round has ended. -/
theorem Inv.noRound (hi : Inv sha256 s) : Inv sha256 { s with busy := none } := by
  refine ⟨{ hi.core with orphan := ?_, checked := ?_, unloaded := ?_ },
    fun w hw => { hi.waiting w hw with }, hi.served⟩
  · intro rem r m hb
    cases hb
  · intro rem r body rest hb
    cases hb
  · intro hl
    rcases hi.core.unloaded hl with ⟨h1, _, h3, _⟩
    exact ⟨h1, fun _ _ => by simp, h3, fun _ hb => by cases hb⟩

theorem refreshNext_inv (hi : Inv sha256 s) (hb : s.busy = some ⟨id :: remaining, none⟩)
    (jitter : Int) (dirOk : Bool) : Inv sha256 (s.refreshNext id remaining jitter dirOk) := by
  have hl : s.loadedMeta = true := by
    cases hl : s.loadedMeta with
    | true =>
        rfl
    | false =>
        have := (hi.core.unloaded hl).2.2.2 _ hb
        cases this
  have hskip := hi.idle remaining fun h => absurd (hl.symm.trans h) (by simp)
  unfold refreshNext
  simp only
  split
  · exact hskip
  · rename_i ref m hm
    split
    · exact hskip
    · split
      · exact hi.noRound
      · split
        · exact refreshFailed_inv hi hl id ref jitter _
        · rename_i c hcat
          refine ⟨?_, fun w hw => { hi.waiting w hw with }, hi.served⟩
          refine { hi.core with orphan := ?_, checked := ?_, unloaded := ?_ }
          · intro rem r m' hbr hm' hne
            cases hbr
            -- the refresh begins with the metadata of the list, if it has its own
            rcases metaAt_cases hm with ⟨hget, rfl⟩ | ⟨hnone, _⟩
            · obtain rfl : m = m' := Option.some.inj (hget.symm.trans hm')
              exact absurd rfl hne
            · exact absurd (hnone.symm.trans hm') (by simp)
          · intro rem r body rest hbr hbody
            cases hbr
            cases hbody
          · intro h
            exact absurd (hl.symm.trans h) (by simp)

/-- The metadata of the list describe a download that goes into place: they are brought up to date
with it, or have replaced those of the refresh. -/
theorem describes_download (hi : Inv sha256 s) (hb : s.busy = some ⟨remaining, some r⟩) {file : File}
    (hurl : ∀ m, s.metadata.get r.id = some m → m.url = some file.origin) {f : ListMeta → ListMeta}
    (hkeep : ∀ m, (f m).url = m.url) (hdigest : ∀ m, (f m).sha256 = some (sha256 file.content))
    {m m' : ListMeta} (hm : s.metadata.get r.id = some m)
    (hm' : (m' = m ∧ r.ref ≠ some m.ref) ∨ m' = f m) : Describes sha256 m' file := by
  rcases hm' with ⟨rfl, hne⟩ | rfl
  · -- the metadata were replaced meanwhile: they have the url, and no digest yet
    refine ⟨hurl _ hm, ?_⟩
    intro h hh
    rw [hi.core.orphan remaining r _ hb hm hne] at hh
    cases hh
  · refine ⟨?_, ?_⟩
    · rw [hkeep]
      exact hurl m hm
    · intro h hh
      exact Option.some.inj ((hdigest m).symm.trans hh)

/-- Metadata brought up to date with a download that has the digest of the entry. -/
theorem same_of_download {m m' : ListMeta} (hsame : m.Same c.source) (hurl : m'.url = m.url)
    (hformat : m'.format = m.format) {body : Bytes} (hdigest : m'.sha256 = some (sha256 body))
    (hsha : ∀ h, c.sha256 = some h → sha256 body = h) : m'.Same c.source := by
  refine ⟨hurl.trans hsame.1, hformat.trans hsame.2.1, ?_⟩
  cases hd : c.sha256 with
  | none =>
      exact Or.inl hd
  | some h =>
      right
      rw [hdigest, hsha h hd]
      exact hd

/-- The metadata after the list `l` has gone into place for the refresh `r`. -/
structure UpToDate (sha256 : Bytes → String) (s : ListManager host) (r : Refresh) (l : Loaded host)
    (md : OrderedMap ListId ListMeta) : Prop where
  described : ∀ m', md.get r.id = some m' → Describes sha256 m' l.file
  others : ∀ j m', j ≠ r.id → md.get j = some m' → s.metadata.get j = some m'
  keeps : ∀ j m, s.metadata.get j = some m → ∃ m', md.get j = some m' ∧ m'.url = m.url ∧
    m'.format = m.format ∧ (m' = m ∨ (j = r.id ∧ m'.sha256 = some (sha256 l.file.content)))

theorem updateMeta_upToDate (hi : Inv sha256 s) (hb : s.busy = some ⟨remaining, some r⟩)
    {l : Loaded host} (horigin : ∀ m, s.metadata.get r.id = some m → m.url = some l.file.origin)
    {f : ListMeta → ListMeta} (hurl : ∀ m, (f m).url = m.url)
    (hformat : ∀ m, (f m).format = m.format)
    (hdigest : ∀ m, (f m).sha256 = some (sha256 l.file.content)) {t : ListManager host}
    (ht : t.metadata = s.metadata) :
    ∃ md mb, t.updateMeta r.id r.ref f = { t with metadata := md, members := mb } ∧
      UpToDate sha256 s r l md := by
  rcases updateMeta_spec t r.id r.ref f with ⟨md, mb, heq, hback, hforth⟩
  rw [ht] at hback hforth
  refine ⟨md, mb, heq, ?_⟩
  constructor
  case described =>
    intro m' hm'
    rcases hback r.id m' hm' with ⟨m, hm, hcase⟩
    refine describes_download hi hb horigin hurl hdigest hm ?_
    exact hcase.imp (fun h => ⟨h.1, h.2 rfl⟩) (fun h => h.2.2)
  case others =>
    intro j m' hj hm'
    rcases hback j m' hm' with ⟨m, hm, ⟨rfl, _⟩ | ⟨hj', _⟩⟩
    · exact hm
    · exact absurd hj' hj
  case keeps =>
    intro j m hm
    rcases hforth j m hm with ⟨m', hm', rfl | ⟨hj, _, rfl⟩⟩
    · exact ⟨_, hm', rfl, rfl, Or.inl rfl⟩
    · exact ⟨_, hm', hurl m, hformat m, Or.inr ⟨hj, hdigest m⟩⟩

/-- A list goes into place: into its file, into memory, and into the metadata on both sides. -/
theorem Core.takeOver (hc : Core sha256 s pending) {l : Loaded host}
    {md mb : OrderedMap ListId ListMeta} (hmd : UpToDate sha256 s r l md)
    (hserves : Serves sha256 r.entry l) (hcat : s.catalog.get r.id = some r.entry)
    (hused : r.id ∈ s.used) (hl : s.loadedMeta = true) :
    Core sha256 { s with
      files := s.files.set r.id l.file
      busy := some ⟨remaining, none⟩
      lists := s.lists.set r.id l
      metadata := md
      members := mb
      saved := md } pending := by
  have hfiles : ∀ j g m', (s.files.set r.id l.file).get j = some g → md.get j = some m' →
      Describes sha256 m' g := by
    intro j g m' hg hm'
    rcases OrderedMap.get_set_cases hg with ⟨rfl, rfl⟩ | ⟨hj, hg⟩
    · exact hmd.described m' hm'
    · exact hc.file j g m' hg (hmd.others j m' hj hm')
  constructor
  case file =>
    exact hfiles
  case savedFile =>
    exact hfiles
  case catalogued =>
    exact hc.catalogued
  case inUse =>
    intro j l' hl'
    rcases OrderedMap.get_set_cases hl' with ⟨rfl, _⟩ | ⟨_, hold⟩
    · exact hused
    · exact hc.inUse j l' hold
  case known =>
    intro j hj hp c hc'
    rcases hc.known j hj hp c hc' with ⟨m, hm, hu, hft⟩
    rcases hmd.keeps j m hm with ⟨m', hm', hu', hft', _⟩
    exact ⟨m', hm', hu'.trans hu, hft'.trans hft⟩
  case noted =>
    have hkeep : ∀ j, (∃ m, s.metadata.get j = some m) → ∃ m, md.get j = some m := by
      rintro j ⟨m, hm⟩
      rcases hmd.keeps j m hm with ⟨m', hm', _⟩
      exact ⟨m', hm'⟩
    intro j l' hl'
    rcases OrderedMap.get_set_cases hl' with ⟨rfl, _⟩ | ⟨_, hold⟩
    · by_cases hp : r.id ∈ pending
      · exact Or.inr ⟨hp, r.entry, hcat⟩
      · rcases hc.known r.id hused hp r.entry hcat with ⟨m, hm, _⟩
        exact Or.inl (hkeep r.id ⟨m, hm⟩)
    · exact (hc.noted j l' hold).imp (hkeep j) fun h => h
  case listMeta =>
    intro j l' m' hl' hm'
    rcases OrderedMap.get_set_cases hl' with ⟨rfl, rfl⟩ | ⟨hj, hold⟩
    · refine ⟨hmd.described m' hm', ?_⟩
      -- a suspended call may not have come to this list yet; its metadata then are those of the
      -- entry before, and only the format of the new entry is known
      by_cases hp : r.id ∈ pending
      · exact Or.inr ⟨hp, r.entry, hcat, hserves.1⟩
      · rcases hc.known r.id hused hp r.entry hcat with ⟨m, hm, _, hft⟩
        rcases hmd.keeps r.id m hm with ⟨m₁, hm₁, _, hft₁, _⟩
        obtain rfl : m₁ = m' := Option.some.inj (hm₁.symm.trans hm')
        exact Or.inl ((hft₁.trans hft).trans (congrArg some hserves.1.symm))
    · exact hc.listMeta j l' m' hold (hmd.others j m' hj hm')
  case served =>
    intro j l' hl' hp
    rcases OrderedMap.get_set_cases hl' with ⟨rfl, rfl⟩ | ⟨_, hold⟩
    · exact ⟨r.entry, hcat, hserves⟩
    · exact hc.served j l' hold hp
  case orphan =>
    intro rem r' m' hb'
    cases hb'
  case checked =>
    intro rem r' body' rest' hb'
    cases hb'
  case unloaded =>
    intro h
    exact absurd (hl.symm.trans h) (by simp)

/-- The entry is still the current one: the download goes into memory too, and the metadata are
brought up to date. -/
theorem takeOver_inv (hi : Inv sha256 s) (hb : s.busy = some ⟨remaining, some r⟩)
    {l : Loaded host} {body : Bytes} (hfile : l.file = ⟨body, r.entry.url⟩)
    (hfmt : l.format = r.entry.format)
    (hsha : ∀ h, r.entry.sha256 = some h → sha256 body = h) (hok : InstallPaired sha256 s r body)
    (hcat : s.catalog.get r.id = some r.entry) (hused : r.id ∈ s.used)
    {f : ListMeta → ListMeta} (hurl : ∀ m, (f m).url = m.url)
    (hformat : ∀ m, (f m).format = m.format)
    (hdigest : ∀ m, (f m).sha256 = some (sha256 l.file.content)) :
    Inv sha256 ({ s with
      files := s.files.set r.id l.file
      busy := some ⟨remaining, none⟩
      lists := s.lists.set r.id l }.updateMeta r.id r.ref f).saveMeta := by
  have hcontent : ∀ h, r.entry.sha256 = some h → sha256 l.file.content = h := by
    rw [hfile]
    exact hsha
  -- what was downloaded is from the entry and has its digest
  have hserves : Serves sha256 r.entry l := ⟨hfmt, by rw [hfile], hcontent⟩
  have horigin : ∀ m, s.metadata.get r.id = some m → m.url = some l.file.origin := by
    intro m hm
    rw [hfile, hok.1 m hm]
  rcases updateMeta_upToDate hi hb horigin hurl hformat hdigest (t := { s with
    files := s.files.set r.id l.file
    busy := some ⟨remaining, none⟩
    lists := s.lists.set r.id l }) rfl with ⟨md, mb, heq, hmd⟩
  rw [heq]
  refine ⟨hi.core.takeOver hmd hserves hcat hused (hi.core.loaded_of_busy hb), ?_, ?_⟩
  · intro w hw
    have hwait := hi.waiting w hw
    refine ⟨hwait.inUse, hwait.restInUse, hwait.loaded, fun c hc => ?_⟩
    rcases hwait.same c hc with ⟨m, hm, hsame, hfrom⟩
    rcases hmd.keeps w.id m hm with ⟨m', hm', hu, hft, rfl | ⟨hid, hd⟩⟩
    · exact ⟨_, hm', hsame, hfrom⟩
    · -- the awaited list itself has been refreshed
      obtain rfl : r.entry = c := Option.some.inj (hcat.symm.trans (hid ▸ hc))
      exact ⟨m', hm', same_of_download hsame hu hft hd hcontent, hfrom⟩
  · intro j l' hl'
    rcases OrderedMap.get_set_cases hl' with ⟨rfl, rfl⟩ | ⟨_, hold⟩
    · exact ⟨r.entry, hcat, hserves⟩
    · exact hi.served j l' hold

/-- A download goes into place and, if its entry is still the current one, into memory. -/
theorem install_inv (hi : Inv sha256 s) (hb : s.busy = some ⟨remaining, some r⟩)
    {l : Loaded host} {body : Bytes} (hfile : l.file = ⟨body, r.entry.url⟩)
    (hfmt : l.format = r.entry.format)
    (hsha : ∀ h, r.entry.sha256 = some h → sha256 body = h) (hok : InstallPaired sha256 s r body)
    (etag lastModified : Option String) :
    Inv sha256 (s.install sha256 remaining r l etag lastModified) := by
  have hl := hi.core.loaded_of_busy hb
  have hidle := hi.idle remaining fun h => absurd (hl.symm.trans h) (by simp)
  unfold install
  simp only
  split
  · -- the file is replaced, memory and metadata are not
    rename_i hout
    refine ⟨{ hidle.core with file := ?_, savedFile := ?_ }, fun w hw => { hidle.waiting w hw with },
      hi.served⟩
    · intro j f m hf hm
      rcases OrderedMap.get_set_cases hf with ⟨rfl, rfl⟩ | ⟨_, hf⟩
      · exact hfile ▸ hok.2 hout m (Or.inl hm)
      · exact hi.core.file j f m hf hm
    · intro j f m hf hm
      rcases OrderedMap.get_set_cases hf with ⟨rfl, rfl⟩ | ⟨_, hf⟩
      · exact hfile ▸ hok.2 hout m (Or.inr hm)
      · exact hi.core.savedFile j f m hf hm
  · rename_i hcur
    -- the entry is still the current one
    have hcat : s.catalog.get r.id = some r.entry := by
      by_contra h
      exact hcur (Or.inl h)
    have hused : r.id ∈ s.used := by
      by_contra h
      exact hcur (Or.inr h)
    exact takeOver_inv hi hb hfile hfmt hsha hok hcat hused (fun _ => rfl) (fun _ => rfl)
      (fun _ => rfl)

theorem parsed_inv (hi : Inv sha256 s) (hb : s.busy = some ⟨remaining, some r⟩) {body : Bytes}
    {etag lastModified : Option String} {room : Nat}
    (hbody : r.body = some (body, etag, lastModified, room)) (ioError : Option String)
    (hok : Paired sha256 s (.parsed ioError)) :
    Inv sha256 (s.parsed sha256 remaining r body etag lastModified room ioError) := by
  have hl := hi.core.loaded_of_busy hb
  cases ioError with
  | some code =>
      exact refreshFailed_inv hi hl _ _ _ code
  | none =>
      unfold parsed
      simp only
      split
      · exact refreshFailed_inv hi hl _ _ _ _
      · rename_i l hload
        split
        · exact refreshFailed_inv hi hl _ _ _ _
        · rename_i hne
          rcases load_eq_ok hload with ⟨hfile, hfmt⟩
          exact install_inv hi hb hfile hfmt (hi.core.checked remaining r body _ hb hbody)
            (hok remaining r body etag lastModified room hb hbody ⟨l, hload, hne⟩) etag lastModified

/-! ## Whole runs -/

theorem takeFile_frame (s : ListManager host) (w : Wanting) (readable : Bool) :
    (s.takeFile w readable).loadedMeta = s.loadedMeta ∧ (s.takeFile w readable).used = s.used := by
  unfold takeFile
  split
  · split
    · exact ⟨updateMeta_loadedMeta _ _ _ _, updateMeta_used _ _ _ _⟩
    · exact ⟨updateMeta_loadedMeta _ _ _ _, updateMeta_used _ _ _ _⟩
  · exact ⟨updateMeta_loadedMeta _ _ _ _, updateMeta_used _ _ _ _⟩

theorem pending_of_wanting {w : Wanting} (hw : s.wanting = some w) : s.pending = w.rest := by
  simp [ListManager.pending, hw]

theorem readFile_inv (hi : Inv sha256 s) {w : Wanting} (hw : s.wanting = some w) :
    Inv sha256 { s with wanting := some { w with read := some (s.files.get w.id) } } := by
  have hwait := hi.waiting w hw
  have hcore := hi.core
  rw [pending_of_wanting hw] at hcore
  refine ⟨{ hcore with }, ?_, hi.served⟩
  intro w' hw'
  cases hw'
  refine ⟨hwait.inUse, hwait.restInUse, hwait.loaded, fun c hcat => ?_⟩
  rcases hwait.same c hcat with ⟨m, hm, hsame, _⟩
  exact ⟨m, hm, hsame, fun f hf => (hi.core.file w.id f m (Option.some.inj hf) hm).from hsame⟩

theorem restart_inv (hi : Inv sha256 s) :
    Inv sha256 (open_ host s.files s.saved s.now s.nextRef) := by
  refine ⟨⟨?_, hi.core.savedFile, ?_, ?_, ?_, ?_, ?_, ?_, ?_, ?_, ?_⟩, ?_, ?_⟩ <;>
    simp [open_, Provenance]

theorem step_inv (s : ListManager host) (a : Action) (s' : ListManager host) (hi : Inv sha256 s)
    (hok : Paired sha256 s a) (hstep : step sha256 s a = some s') : Inv sha256 s' := by
  cases a with
  | setWanted catalog usedIds =>
      simp only [step] at hstep
      split at hstep
      · cases hstep
      · rename_i hnone
        cases hstep
        have hcore : Core sha256 s [] := by
          have hw : s.wanting = none := by simpa using hnone
          simpa [ListManager.pending, hw] using hi.core
        rcases hcore.takeCatalog catalog usedIds with ⟨hcore', hloaded⟩
        exact want_inv _ _ hcore' hloaded (fun _ h => h) hok
  | readFile =>
      simp only [step] at hstep
      split at hstep
      · rename_i w hw
        cases hstep
        exact readFile_inv hi hw
      · cases hstep
  | fileParsed readable =>
      simp only [step] at hstep
      split at hstep
      · rename_i w hw
        split at hstep
        · cases hstep
          have hwait := hi.waiting w hw
          rcases hok w hw with ⟨hread, hresets⟩
          have hcore := hi.core
          rw [pending_of_wanting hw] at hcore
          rcases takeFile_frame s w readable with ⟨hl, hu⟩
          exact want_inv w.rest _ (takeFile_core hcore hwait hread readable)
            (hl.trans hwait.loaded) (fun id hid => hu ▸ hwait.restInUse id hid) hresets
        · cases hstep
      · cases hstep
  | removeFile id =>
      simp only [step] at hstep
      split at hstep
      · cases hstep
        refine ⟨{ hi.core with file := ?_, savedFile := ?_ }, fun w hw => { hi.waiting w hw with },
          hi.served⟩
        · intro j f m hf
          exact hi.core.file j f m (OrderedMap.get_delete_cases hf).2
        · intro j f m hf
          exact hi.core.savedFile j f m (OrderedMap.get_delete_cases hf).2
      · cases hstep
  | refreshDue =>
      simp only [step] at hstep
      split at hstep
      · cases hstep
        exact hi
      · cases hstep
        exact hi.idle s.used fun hl => (hi.core.unloaded hl).2.2.1
  | refreshNext jitter dirOk =>
      simp only [step] at hstep
      split at hstep
      · cases hstep
        exact hi.noRound
      · rename_i id remaining hb
        cases hstep
        exact refreshNext_inv hi hb jitter dirOk
      · cases hstep
  | fetched o =>
      simp only [step] at hstep
      split at hstep
      · rename_i remaining r hb
        split at hstep
        · cases hstep
        · cases hstep
          exact fetched_inv hi hb o
      · cases hstep
  | parsed ioError =>
      simp only [step] at hstep
      split at hstep
      · rename_i remaining r hb
        split at hstep
        · rename_i body etag lastModified room hbody
          cases hstep
          exact parsed_inv hi hb hbody ioError hok
        · cases hstep
      · cases hstep
  | clock now =>
      cases hstep
      exact ⟨{ hi.core with }, fun w hw => { hi.waiting w hw with }, hi.served⟩
  | restart =>
      cases hstep
      exact restart_inv hi

/-- The list `ads` of a catalog, at the given address. -/
def adsCatalog (url : String) : OrderedMap ListId CatalogEntry :=
  OrderedMap.empty.set "ads" ⟨url, .domains, none, 0⟩

/-- The list is taken into use and downloaded; its content is the line `a.b`. -/
def firstDownload : List Action :=
  [.setWanted (adsCatalog "https://one.example/l") ["ads"], .refreshDue, .refreshNext 0 true,
    .fetched (.content [0x61, 0x2e, 0x62] none none), .parsed none]

/-- The digest of the only content of these runs. -/
def abDigest (_ : Bytes) : String :=
  "2e7336dc8eba87ef472df568c35482abf2575dc3e5eac0c5c62b8ffaeac2c934"

end ListManager

end Dns
end GateControl
