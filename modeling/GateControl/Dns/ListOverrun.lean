import GateControl.Dns.DistinctNames
import GateControl.Dns.ListBudget
import GateControl.Dns.References

/-!
# ListOverrun — lists that fit one by one, but not together

Each list is downloaded while it is the only one in use, so that all the room is its own.  When all
of them come into use, `setWanted` reads them back from disk, and nothing looks at their total.
-/

namespace GateControl
namespace Dns

open Library

namespace ListManager

variable {host : UnicodeHost} {sha256 : Bytes → String}

/-- The list is downloaded while no other is in use. -/
def downloadAlone (catalog : OrderedMap ListId CatalogEntry) (body : Bytes) (id : ListId) :
    List Action :=
  [.setWanted catalog [id], .refreshDue, .refreshNext 0 true, .fetched (.content body none none),
    .parsed none, .refreshNext 0 true]

/-- The metadata say the same about the lists, save what a refresh notes down. -/
structure SameLists (md md' : OrderedMap ListId ListMeta) : Prop where
  back : ∀ id m', md'.get id = some m' →
    ∃ m, md.get id = some m ∧ m'.url = m.url ∧ m'.format = m.format
  forth : ∀ id m, md.get id = some m →
    ∃ m', md'.get id = some m' ∧ m'.url = m.url ∧ m'.format = m.format

theorem SameLists.trans {md md' md'' : OrderedMap ListId ListMeta} (h : SameLists md md')
    (h' : SameLists md' md'') : SameLists md md'' := by
  refine ⟨?_, ?_⟩
  · intro id m'' hm''
    rcases h'.back id m'' hm'' with ⟨m', hm', hurl', hfmt'⟩
    rcases h.back id m' hm' with ⟨m, hm, hurl, hfmt⟩
    exact ⟨m, hm, hurl'.trans hurl, hfmt'.trans hfmt⟩
  · intro id m hm
    rcases h.forth id m hm with ⟨m', hm', hurl, hfmt⟩
    rcases h'.forth id m' hm' with ⟨m'', hm'', hurl', hfmt'⟩
    exact ⟨m'', hm'', hurl'.trans hurl, hfmt'.trans hfmt⟩

/-- An update that leaves url and format alone. -/
theorem updateMeta_sameLists (s : ListManager host) (id : ListId) (ref : MetaRef)
    {f : ListMeta → ListMeta} (hurl : ∀ m, (f m).url = m.url)
    (hformat : ∀ m, (f m).format = m.format) :
    ∃ md mb, s.updateMeta id ref f = { s with metadata := md, members := mb } ∧
      SameLists s.metadata md := by
  rcases updateMeta_spec s id ref f with ⟨md, mb, heq, hback, hforth⟩
  refine ⟨md, mb, heq, ?_, ?_⟩
  · intro j m' hm'
    rcases hback j m' hm' with ⟨m, hm, ⟨rfl, _⟩ | ⟨_, _, rfl⟩⟩
    · exact ⟨_, hm, rfl, rfl⟩
    · exact ⟨m, hm, hurl m, hformat m⟩
  · intro j m hm
    rcases hforth j m hm with ⟨m', hm', rfl | ⟨_, _, rfl⟩⟩
    · exact ⟨_, hm', rfl, rfl⟩
    · exact ⟨_, hm', hurl m, hformat m⟩

/-! ## Downloading -/

/-- The refresh of a list that is due begins. -/
theorem refreshNext_due {s : ListManager host} {id : ListId} {c : CatalogEntry} {m : ListMeta}
    (hfile : fileOk id = true) (hcat : s.catalog.get id = some c)
    (hm : s.metadata.get id = some m) (hdue : m.nextAt ≤ s.now) :
    s.refreshNext id [] 0 true =
      { s with busy := some ⟨[], some (s.refreshOf id c (some m.ref) m 0)⟩ } := by
  have hmeta : s.metaAt id = some (some m.ref, m) := by simp only [metaAt, hm]
  have hsource : s.sourceAt id = some c.source := by simp only [sourceAt, hcat]
  have hnot : ¬ m.nextAt > s.now := Int.not_lt.2 hdue
  simp [refreshNext, hmeta, hsource, hnot, hfile, hcat]

/-- A download without a digest to compare waits for the parser. -/
theorem fetched_content (sha256 : Bytes → String) {s : ListManager host} {r : Refresh}
    (body : Bytes) (hsha : r.entry.sha256 = none) :
    ∃ md mb, SameLists s.metadata md ∧
      s.fetched sha256 [] r (.content body none none) =
        { s with
          metadata := md
          members := mb
          busy := some ⟨[], some { r with
            body := some (body, none, none,
              min maxEntriesList (maxEntriesTotal - s.totalEntries r.id)) }⟩ } := by
  rcases updateMeta_sameLists s r.id r.ref (f := fun m => { m with checkedAt := some s.now })
    (fun _ => rfl) (fun _ => rfl) with ⟨md, mb, heq, hmd⟩
  refine ⟨md, mb, hmd, ?_⟩
  simp only [fetched, heq, hsha, Option.any_none, Bool.false_eq_true, if_false]
  rfl

/-- A list that is current and not empty goes into memory and in place. -/
theorem parsed_installed (sha256 : Bytes → String) {s : ListManager host} {r : Refresh}
    {body : Bytes} {room : Nat} {l : Loaded host} (hload : load host ⟨body, r.entry.url⟩ r.entry.format room = .ok l)
    (hne : l.result.entries ≠ 0) (hcur : ¬ s.Outdated r) :
    ∃ md mb, SameLists s.metadata md ∧
      s.parsed sha256 [] r body none none room none =
        { s with
          files := s.files.set r.id l.file
          lists := s.lists.set r.id l
          metadata := md
          members := mb
          saved := md
          busy := some ⟨[], none⟩ } := by
  have hcur' : ¬ ({ s with
      files := s.files.set r.id l.file
      busy := some ⟨[], none⟩ } : ListManager host).Outdated r := hcur
  rcases updateMeta_sameLists { s with
      files := s.files.set r.id l.file
      lists := s.lists.set r.id l
      busy := some ⟨[], none⟩ } r.id r.ref
    (f := fun m =>
      { m with
        etag := none
        lastModified := none
        sha256 := some (sha256 l.file.content)
        entries := l.result.entries
        bytes := l.file.content.length
        updatedAt := some s.now
        error := none
        nextAt := s.now + refreshMs + r.jitter }) (fun _ => rfl) (fun _ => rfl) with
    ⟨md, mb, heq, hmd⟩
  refine ⟨md, mb, hmd, ?_⟩
  simp only [parsed, hload, if_neg hne, install, if_neg hcur', heq, saveMeta]

/-- A refresh of the only list in use installs what it downloads. -/
theorem refresh_alone (sha256 : Bytes → String) (s : ListManager host) {id : ListId}
    {c : CatalogEntry} {m : ListMeta} {body : Bytes} {l : Loaded host} (hbusy : s.busy = none)
    (hused : s.used = [id]) (hfile : fileOk id = true)
    (hcat : s.catalog.get id = some c) (hsha : c.sha256 = none) (hm : s.metadata.get id = some m)
    (hdue : m.nextAt ≤ s.now)
    (hload : load host ⟨body, c.url⟩ c.format
      (min maxEntriesList (maxEntriesTotal - s.totalEntries id)) = .ok l)
    (hne : l.result.entries ≠ 0) :
    ∃ md mb, SameLists s.metadata md ∧
      exec (step sha256) s [.refreshDue, .refreshNext 0 true, .fetched (.content body none none),
          .parsed none, .refreshNext 0 true] =
        some { s with
          files := s.files.set id l.file
          lists := s.lists.set id l
          metadata := md
          members := mb
          saved := md
          busy := none } := by
  -- the five states of the refresh, one after the other
  let s₁ : ListManager host := { s with busy := some ⟨[id], none⟩ }
  have h₁ : step sha256 s .refreshDue = some s₁ := by
    simp [step, hbusy, hused, s₁]
  let s₂ : ListManager host := { s with busy := some ⟨[], some (s.refreshOf id c (some m.ref) m 0)⟩ }
  have h₂ : step sha256 s₁ (.refreshNext 0 true) = some s₂ :=
    congrArg some (refreshNext_due (s := s₁) hfile hcat hm hdue)
  rcases fetched_content (s := s₂) (r := s.refreshOf id c (some m.ref) m 0) sha256 body hsha with
    ⟨md, mb, hmd, hfetched⟩
  let r : Refresh := { s.refreshOf id c (some m.ref) m 0 with
    body := some (body, none, none, min maxEntriesList (maxEntriesTotal - s.totalEntries id)) }
  let s₃ : ListManager host := { s with
    metadata := md
    members := mb
    busy := some ⟨[], some r⟩ }
  have h₃ : step sha256 s₂ (.fetched (.content body none none)) = some s₃ := congrArg some hfetched
  have hcur : ¬ s₃.Outdated r := by
    simp [Outdated, s₃, r, refreshOf, hcat, hused]
  rcases parsed_installed (s := s₃) (r := r) sha256 hload hne hcur with
    ⟨md', mb', hmd', hparsed⟩
  have h₄ := congrArg some hparsed
  refine ⟨md', mb', hmd.trans hmd', ?_⟩
  refine exec_cons.2 ⟨s₁, h₁, exec_cons.2 ⟨s₂, h₂, exec_cons.2 ⟨s₃, h₃, exec_cons.2 ⟨_, h₄, ?_⟩⟩⟩⟩
  rfl

/-! ## One list after the other -/

theorem loadMeta_eq (s : ListManager host) :
    s.loadMeta = { s with
      loadedMeta := true
      metadata := s.loadMeta.metadata } := by
  unfold loadMeta
  split
  · rename_i h
    cases s
    cases h
    rfl
  · rfl

/-- The lists `known` are on disk, and their metadata belong to their entries; no other list is
known. -/
structure Kept (catalog : OrderedMap ListId CatalogEntry) (body : Bytes) (done : List ListId)
    (s : ListManager host) : Prop where
  now : s.now = 0
  idle : s.busy = none
  settled : s.wanting = none
  known : ∀ id ∈ done, ∃ c m, catalog.get id = some c ∧ s.loadMeta.metadata.get id = some m ∧
    m.url = some c.url ∧ m.format = some c.format
  unknown : ∀ id, id ∉ done → s.loadMeta.metadata.get id = none
  file : ∀ id ∈ done, ∃ f, s.files.get id = some f ∧ f.content = body

section Downloads

variable {catalog : OrderedMap ListId CatalogEntry} {body : Bytes} {done : List ListId}
  {s : ListManager host} {id : ListId} {c : CatalogEntry}

theorem start_kept (catalog : OrderedMap ListId CatalogEntry) (body : Bytes) :
    Kept catalog body [] (start host 0) := by
  refine ⟨rfl, rfl, rfl, ?_, fun _ _ => rfl, ?_⟩
  · intro id hid
    cases hid
  · intro id hid
    cases hid

/-- The list `id`, not known so far, is the only one in use, and not in memory. -/
def onlyNew (s : ListManager host) (catalog : OrderedMap ListId CatalogEntry) (id : ListId)
    (c : CatalogEntry) : ListManager host :=
  let md := (s.loadMeta.metadata.filter fun id _ => found catalog id).set id
    (.fresh c.source s.nextRef)
  { s with
    catalog := catalog
    used := [id]
    lists := .empty
    metadata := md
    loadedMeta := true
    wanting := none
    nextRef := s.nextRef + 1
    saved := md
    removing := s.removing ++ s.loadMeta.metadata.keys.filter fun id => !found catalog id }

theorem found_of_get (hcat : catalog.get id = some c) : found catalog id = true := by
  simp [found, OrderedMap.has, hcat]

/-- The catalog has these lists, and they are named once. -/
theorem eraseDups_filter_found {ids : List ListId} (hids : ids.Nodup)
    (hcat : ∀ id ∈ ids, ∃ c, catalog.get id = some c) :
    ids.eraseDups.filter (found catalog) = ids := by
  rw [eraseDups_of_nodup hids]
  refine List.filter_eq_self.2 ?_
  intro id hid
  rcases hcat id hid with ⟨c, hc⟩
  exact found_of_get hc

theorem setWanted_new (hcat : catalog.get id = some c) (hplain : isInherited id = false)
    (hnew : s.loadMeta.metadata.get id = none) :
    s.setWanted catalog [id] = s.onlyNew catalog id c := by
  have hused : [id].eraseDups.filter (found catalog) = [id] := by
    refine eraseDups_filter_found (List.nodup_singleton id) ?_
    intro j hj
    rw [List.mem_singleton.1 hj]
    exact ⟨c, hcat⟩
  have hnone : (s.loadMeta.metadata.filter fun id _ => found catalog id).get id = none := by
    cases hget : (s.loadMeta.metadata.filter fun id _ => found catalog id).get id with
    | none =>
        rfl
    | some m =>
        rw [((OrderedMap.get_filter _ _).1 hget).1] at hnew
        cases hnew
  have hlists : (s.lists.filter fun j _ => [id].contains j).delete id = .empty := by
    apply OrderedMap.eq_of_entries
    simp only [OrderedMap.delete, OrderedMap.filter, OrderedMap.empty, List.filter_filter]
    rw [List.filter_eq_nil_iff]
    intro e _
    simp
  unfold setWanted takeCatalog
  rw [loadMeta_eq]
  simp only [hused, want, sourceAt, metaAt, hcat, hnone, hplain, Bool.false_eq_true, if_false,
    resetMeta, hlists, saveMeta, onlyNew]

/-- Where no list is to be in use, none stays in memory. -/
theorem setWanted_nil (s : ListManager host) (catalog : OrderedMap ListId CatalogEntry) :
    s.setWanted catalog [] = { s with
      catalog := catalog
      used := []
      lists := .empty
      metadata := s.loadMeta.metadata.filter fun id _ => found catalog id
      loadedMeta := true
      wanting := none
      saved := s.loadMeta.metadata.filter fun id _ => found catalog id
      removing := s.removing ++ s.loadMeta.metadata.keys.filter fun id => !found catalog id } := by
  have hlists : (s.lists.filter fun j _ => ([] : List ListId).contains j) = .empty := by
    apply OrderedMap.eq_of_entries
    simp [OrderedMap.filter, OrderedMap.empty]
  unfold setWanted takeCatalog
  rw [loadMeta_eq]
  simp only [List.eraseDups_nil, List.filter_nil, want, hlists, saveMeta]

/-- The file gives a list of entries, in the format of each entry of the catalog; no list is named like
a member that every object inherits. -/
structure Loads (host : UnicodeHost) (catalog : OrderedMap ListId CatalogEntry) (body : Bytes)
    (n : Nat) : Prop where
  positive : 0 < n
  plain : ∀ id c, catalog.get id = some c → isInherited id = false
  named : ∀ id c, catalog.get id = some c → fileOk id = true
  unpinned : ∀ id c, catalog.get id = some c → c.sha256 = none
  load : ∀ id c f, catalog.get id = some c → f.content = body →
    ∃ l, load host f c.format maxEntriesList = .ok l ∧ l.size = n ∧ l.result.entries = n

/-- A new list is downloaded. -/
theorem downloadAlone_kept (sha256 : Bytes → String) {n : Nat} (hloads : Loads host catalog body n)
    (hs : Kept catalog body done s) (hcat : catalog.get id = some c) (hid : id ∉ done) :
    ∃ t, exec (step sha256) s (downloadAlone catalog body id) = some t ∧
      Kept catalog body (id :: done) t := by
  have hnew := hs.unknown id hid
  have hwanted := setWanted_new (s := s) hcat (hloads.plain id c hcat) hnew
  have hfirst : step sha256 s (.setWanted catalog [id]) = some (s.setWanted catalog [id]) := by
    simp [step, hs.settled]
  rcases hloads.load id c ⟨body, c.url⟩ hcat rfl with ⟨l, hload, _, hentries⟩
  have hne : l.result.entries ≠ 0 := by
    rw [hentries]
    exact Nat.pos_iff_ne_zero.1 hloads.positive
  rw [hwanted] at hfirst
  -- the list is alone, so that the room is that of a single list
  have hm : (s.onlyNew catalog id c).metadata.get id = some (.fresh c.source s.nextRef) := by
    simp [onlyNew]
  rcases refresh_alone sha256 (s.onlyNew catalog id c) hs.idle rfl (hloads.named id c hcat) hcat
    (hloads.unpinned id c hcat) hm (by simp [ListMeta.fresh, onlyNew, hs.now]) hload hne with
    ⟨md, mb, hmd, hrun⟩
  refine ⟨_, exec_cons.2 ⟨_, hfirst, hrun⟩, hs.now, rfl, rfl, ?_, ?_, ?_⟩
  · intro j hj
    by_cases hji : j = id
    · subst hji
      rcases hmd.forth j _ hm with ⟨m', hm', hurl, hformat⟩
      exact ⟨c, m', hcat, hm', hurl, hformat⟩
    · rcases hs.known j (List.mem_of_ne_of_mem hji hj) with ⟨c', m, hcat', hget, hurl, hformat⟩
      have hkept : (s.onlyNew catalog id c).metadata.get j = some m := by
        have hfilter := (OrderedMap.get_filter s.loadMeta.metadata fun id _ => found catalog id).2
          ⟨hget, found_of_get hcat'⟩
        simpa [onlyNew, OrderedMap.get_set, hji] using hfilter
      rcases hmd.forth j m hkept with ⟨m', hm', hurl', hformat'⟩
      exact ⟨c', m', hcat', hm', hurl'.trans hurl, hformat'.trans hformat⟩
  · intro j hj
    rw [List.mem_cons, not_or] at hj
    -- metadata of another list would have been there before
    cases hget : md.get j with
    | none =>
        exact hget
    | some m' =>
        rcases hmd.back j m' hget with ⟨m, hm', _⟩
        rcases OrderedMap.get_set_cases hm' with ⟨heq, _⟩ | ⟨_, hold⟩
        · exact absurd heq hj.1
        · have hunknown := hs.unknown j hj.2
          rw [((OrderedMap.get_filter _ _).1 hold).1] at hunknown
          cases hunknown
  · intro j hj
    by_cases hji : j = id
    · subst hji
      exact ⟨l.file, by simp, by rw [(load_eq_ok hload).1]⟩
    · rcases hs.file j (List.mem_of_ne_of_mem hji hj) with ⟨f, hf, hcontent⟩
      exact ⟨f, by simpa [OrderedMap.get_set, hji, onlyNew] using hf, hcontent⟩

/-- The lists are downloaded one after the other. -/
theorem downloads_kept (sha256 : Bytes → String) {n : Nat} (hloads : Loads host catalog body n) (ids : List ListId)
    (hids : ids.Nodup) (hcat : ∀ id ∈ ids, ∃ c, catalog.get id = some c) (done : List ListId)
    (hdone : ∀ id ∈ ids, id ∉ done) {s : ListManager host} (hs : Kept catalog body done s) :
    ∃ t, exec (step sha256) s (ids.flatMap (downloadAlone catalog body)) = some t ∧
      Kept catalog body (ids.reverse ++ done) t := by
  induction ids generalizing s done with
  | nil =>
      exact ⟨s, rfl, hs⟩
  | cons id ids ih =>
      have hids' := List.nodup_cons.1 hids
      rcases hcat id List.mem_cons_self with ⟨c, hc⟩
      rcases downloadAlone_kept sha256 hloads hs hc (hdone id List.mem_cons_self) with ⟨s', hrun, hs'⟩
      have hrest : ∀ j ∈ ids, j ∉ id :: done := by
        intro j hj hmem
        rcases List.mem_cons.1 hmem with rfl | hmem
        · exact hids'.1 hj
        · exact hdone j (List.mem_cons_of_mem id hj) hmem
      rcases ih hids'.2 (fun j hj => hcat j (List.mem_cons_of_mem id hj)) (id :: done) hrest hs' with
        ⟨t, hruns, ht⟩
      refine ⟨t, ?_, by simpa using ht⟩
      rw [List.flatMap_cons]
      exact exec_append.2 ⟨s', hrun, hruns⟩

end Downloads

/-! ## Reading all of them back -/

/-- The lists `ids` are on disk and not in memory, with metadata of their entries. -/
structure OnDisk (catalog : OrderedMap ListId CatalogEntry) (body : Bytes) (ids : List ListId)
    (s : ListManager host) : Prop where
  entries : s.catalog = catalog
  known : ∀ id ∈ ids, ∃ c m, catalog.get id = some c ∧ s.metadata.get id = some m ∧
    m.url = some c.url ∧ m.format = some c.format
  absent : ∀ id ∈ ids, s.lists.get id = none
  file : ∀ id ∈ ids, ∃ f, s.files.get id = some f ∧ f.content = body

/-- `setWanted` reads the file and has parsed it. -/
def readBack (_ : ListId) : List Action := [.readFile, .fileParsed true]

section Reads

variable {catalog : OrderedMap ListId CatalogEntry} {body : Bytes} {n : Nat}
  {s : ListManager host} {id : ListId} {rest : List ListId}

theorem want_onDisk (hloads : Loads host catalog body n)
    (hs : OnDisk catalog body (id :: rest) s) :
    ∃ ref, s.want (id :: rest) = { s with wanting := some ⟨id, ref, none, rest⟩ } := by
  rcases hs.known id List.mem_cons_self with ⟨c, m, hc, hm, hurl, hformat⟩
  have hsame : m.Same c.source := ⟨hurl, hformat, Or.inl (hloads.unpinned id c hc)⟩
  have hhas : s.lists.has id = false := by
    simp [OrderedMap.has, hs.absent id List.mem_cons_self]
  refine ⟨some m.ref, ?_⟩
  simp [want, sourceAt, metaAt, hs.entries, hc, hm, hsame, hhas, hloads.named id c hc]

/-- The file of the next list goes into memory beside the lists that are there. -/
theorem takeFile_onDisk (hloads : Loads host catalog body n)
    (hs : OnDisk catalog body (id :: rest) s) (hid : id ∉ rest) {f : File}
    (hf : f.content = body) (ref : MetaRef) (u : ListManager host)
    (hu : u = { s with wanting := some ⟨id, ref, some (some f), rest⟩ }) :
    OnDisk catalog body rest (u.takeFile ⟨id, ref, some (some f), rest⟩ true) ∧
      (u.takeFile ⟨id, ref, some (some f), rest⟩ true).total = s.total + n := by
  subst hu
  rcases hs.known id List.mem_cons_self with ⟨c, m, hc, _, _, _⟩
  rcases hloads.load id c f hc hf with ⟨l, hload, hsize, _⟩
  rcases updateMeta_sameLists { s with
      wanting := some ⟨id, ref, some (some f), rest⟩
      lists := s.lists.set id l } id ref
    (f := fun m => { m with entries := l.result.entries }) (fun _ => rfl) (fun _ => rfl) with
    ⟨md, mb, heq, hmd⟩
  have htake : ({ s with wanting := some ⟨id, ref, some (some f), rest⟩ } : ListManager host).takeFile
      ⟨id, ref, some (some f), rest⟩ true =
        { s with
          wanting := some ⟨id, ref, some (some f), rest⟩
          lists := s.lists.set id l
          metadata := md
          members := mb } := by
    rw [← heq]
    simp [takeFile, hs.entries, hc, hload, Except.toOption]
  rw [htake]
  refine ⟨⟨hs.entries, ?_, ?_, ?_⟩, ?_⟩
  · intro j hj
    rcases hs.known j (List.mem_cons_of_mem id hj) with ⟨c', m', hc', hm', hurl, hformat⟩
    rcases hmd.forth j m' hm' with ⟨m'', hm'', hurl', hformat'⟩
    exact ⟨c', m'', hc', hm'', hurl'.trans hurl, hformat'.trans hformat⟩
  · intro j hj
    have hne : j ≠ id := fun h => hid (h ▸ hj)
    simpa [OrderedMap.get_set, hne] using hs.absent j (List.mem_cons_of_mem id hj)
  · intro j hj
    exact hs.file j (List.mem_cons_of_mem id hj)
  · -- nothing is replaced, so that the sizes add up
    have hset := s.lists.sumOf_set Loaded.size id l
    rw [hs.absent id List.mem_cons_self, hsize] at hset
    exact hset

/-- All files are read back, whatever their lists have together. -/
theorem reads_total (sha256 : Bytes → String) (hloads : Loads host catalog body n)
    (ids : List ListId) (hids : ids.Nodup) {s : ListManager host}
    (hs : OnDisk catalog body ids s) :
    ∃ t, exec (step sha256) (s.want ids) (ids.flatMap readBack) = some t ∧
      t.total = s.total + ids.length * n := by
  induction ids generalizing s with
  | nil =>
      exact ⟨_, rfl, by simp [want, total, saveMeta]⟩
  | cons id ids ih =>
      have hids' := List.nodup_cons.1 hids
      rcases want_onDisk hloads hs with ⟨ref, hwant⟩
      rcases hs.file id List.mem_cons_self with ⟨f, hfile, hcontent⟩
      rcases takeFile_onDisk hloads hs hids'.1 hcontent ref _ rfl with ⟨hs', htotal⟩
      rcases ih hids'.2 hs' with ⟨t, hrun, ht⟩
      refine ⟨t, ?_, ?_⟩
      · rw [hwant, List.flatMap_cons]
        refine exec_append.2 ⟨_, ?_, hrun⟩
        simp [readBack, exec, step, hfile]
      · rw [ht, htotal, List.length_cons, Nat.succ_mul]
        omega

/-- A catalog of lists that are on disk and not in memory: all are to be read. -/
theorem takeCatalog_onDisk {ids done : List ListId} (hids : ids.Nodup)
    (hcat : ∀ id ∈ ids, ∃ c, catalog.get id = some c) (hdone : ∀ id ∈ ids, id ∈ done)
    (hs : Kept catalog body done s) (hempty : s.lists = .empty) :
    OnDisk catalog body ids (s.takeCatalog catalog ids) ∧
      (s.takeCatalog catalog ids).used = ids ∧ (s.takeCatalog catalog ids).total = 0 := by
  have hused := eraseDups_filter_found hids hcat
  have hnone : (s.takeCatalog catalog ids).lists = .empty := by
    simp only [takeCatalog, loadMeta_lists, hempty]
    rfl
  refine ⟨⟨rfl, ?_, ?_, ?_⟩, hused, ?_⟩
  · intro id hid
    rcases hs.known id (hdone id hid) with ⟨c, m, hc, hm, hsame⟩
    exact ⟨c, m, hc, (OrderedMap.get_filter _ _).2 ⟨hm, found_of_get hc⟩, hsame⟩
  · intro id _
    rw [hnone]
    rfl
  · intro id hid
    rcases hs.file id (hdone id hid) with ⟨f, hf, hcontent⟩
    refine ⟨f, ?_, hcontent⟩
    rw [takeCatalog, loadMeta_eq]
    exact hf
  · rw [total, hnone]
    rfl

/-- Where no list is to be in use, the lists leave memory and stay on disk. -/
theorem setWanted_nil_kept {done : List ListId} (hs : Kept catalog body done s) :
    Kept catalog body done (s.setWanted catalog []) ∧ (s.setWanted catalog []).lists = .empty := by
  rw [setWanted_nil]
  refine ⟨⟨hs.now, hs.idle, rfl, ?_, ?_, hs.file⟩, rfl⟩
  · intro id hid
    rcases hs.known id hid with ⟨c, m, hc, hm, hsame⟩
    exact ⟨c, m, hc, (OrderedMap.get_filter _ _).2 ⟨hm, found_of_get hc⟩, hsame⟩
  · intro id hid
    have hunknown := hs.unknown id hid
    cases hget : (s.loadMeta.metadata.filter fun id _ => found catalog id).get id with
    | none =>
        exact hget
    | some m =>
        rw [((OrderedMap.get_filter _ _).1 hget).1] at hunknown
        cases hunknown

end Reads

/-! ## The whole run -/

/-- The lists are downloaded one after the other, each alone; then all of them come into use. -/
def overrun (catalog : OrderedMap ListId CatalogEntry) (body : Bytes) (ids : List ListId) :
    List Action :=
  ids.flatMap (downloadAlone catalog body) ++
    ([.setWanted catalog [], .setWanted catalog ids] ++ ids.flatMap readBack)

/-- After such a run memory holds every list in full, however many there are. -/
theorem overrun_total (sha256 : Bytes → String) {catalog : OrderedMap ListId CatalogEntry}
    {body : Bytes} {n : Nat} (hloads : Loads host catalog body n) (ids : List ListId)
    (hids : ids.Nodup) (hcat : ∀ id ∈ ids, ∃ c, catalog.get id = some c) :
    ∃ t, exec (step sha256) (start host 0) (overrun catalog body ids) = some t ∧
      t.total = ids.length * n := by
  rcases downloads_kept sha256 hloads ids hids hcat [] (fun _ _ h => by cases h)
    (start_kept catalog body) with ⟨s, hdown, hs⟩
  have hdone : ∀ id, id ∈ ids.reverse ++ [] ↔ id ∈ ids := fun id => by simp
  rcases setWanted_nil_kept hs with ⟨hs₁, hempty⟩
  rcases takeCatalog_onDisk hids hcat (fun id hid => (hdone id).2 hid) hs₁ hempty with
    ⟨hdisk, hused, hzero⟩
  rcases reads_total sha256 hloads ids hids hdisk with ⟨t, hreads, ht⟩
  have hnone : step sha256 s (.setWanted catalog []) = some (s.setWanted catalog []) := by
    simp [step, hs.settled]
  have hall : step sha256 (s.setWanted catalog []) (.setWanted catalog ids) =
      some (((s.setWanted catalog []).takeCatalog catalog ids).want ids) := by
    have hwant : (s.setWanted catalog []).setWanted catalog ids =
        ((s.setWanted catalog []).takeCatalog catalog ids).want ids := by
      rw [setWanted, hused]
    simp only [step, hs₁.settled, Option.isSome_none, Bool.false_eq_true, if_false, hwant]
  refine ⟨t, ?_, by rw [ht, hzero, Nat.zero_add]⟩
  refine exec_append.2 ⟨s, hdown, exec_append.2 ⟨_, ?_, hreads⟩⟩
  exact exec_cons.2 ⟨_, hnone, exec_cons.2 ⟨_, hall, rfl⟩⟩

/-! ## Twenty-four lists -/

def entryAt (id : ListId) : CatalogEntry := ⟨"https://lists.example/" ++ id, .domains, none, 0⟩

def catalogOf (ids : List ListId) : OrderedMap ListId CatalogEntry :=
  .ofList (ids.map fun id => (id, entryAt id))

theorem load_of_parse {f : File} {format : Format} {limit : Nat} {result : ParsedList}
    (h : parseFile host f.content format limit = .ok result) :
    ∃ l, load host f format limit = .ok l ∧ l.result = result := by
  unfold load
  split
  · rename_i e he
    rw [h] at he
    cases he
  · rename_i result' hparse
    rw [h] at hparse
    cases hparse
    exact ⟨_, rfl, rfl⟩

/-- A file of entries with different hashes loads under every entry of such a catalog. -/
theorem catalogOf_loads {ids : List ListId} (hids : ids.Nodup)
    (hplain : ∀ id ∈ ids, isInherited id = false) (hnamed : ∀ id ∈ ids, fileOk id = true) {es : List (Bytes × Nat)}
    (hes : ∀ e ∈ es, EntryLine host e.1 e.2) (hn : (es.map Prod.snd).Nodup) (hpos : 0 < es.length)
    (hle : es.length ≤ maxEntriesList) : Loads host (catalogOf ids) (linesOf es) es.length := by
  have hentry : ∀ id c, (catalogOf ids).get id = some c → id ∈ ids ∧ c = entryAt id := by
    intro id c hc
    rw [catalogOf, OrderedMap.get_ofList_keys hids] at hc
    split at hc
    · rename_i hid
      exact ⟨hid, (Option.some.inj hc).symm⟩
    · cases hc
  refine ⟨hpos, fun id c hc => hplain id (hentry id c hc).1,
    fun id c hc => hnamed id (hentry id c hc).1, ?_, ?_⟩
  · intro id c hc
    rw [(hentry id c hc).2]
    rfl
  · intro id c f hc hf
    rcases parse_of_entries hes hn (hpos.trans_le hle) hle (countLines [linesOf es]) with
      ⟨result, hparse, hsize, hentries⟩
    rw [(hentry id c hc).2]
    rw [← hf] at hparse
    rcases load_of_parse (f := f) hparse with ⟨l, hload, hresult⟩
    exact ⟨l, hload, by rw [Loaded.size, hresult, hsize], by rw [hresult, hentries]⟩

/-- Words of three letters or digits, one for each key. -/
def stems : List Bytes :=
  keepFresh stemKey 0
    ([0x61, 0x62, 0x63].flatMap fun a => alnums.flatMap fun b => alnums.map fun c => [a, b, c])

theorem length_stems : stems.length = 3569 := by
  decide +kernel

theorem stems_alnum : ∀ stem ∈ stems, stem.length < 63 ∧ ∀ c ∈ stem, isAlnum c = true := by
  intro stem hstem
  have hmem := mem_of_mem_keepFresh hstem
  simp only [List.mem_flatMap, List.mem_map] at hmem
  rcases hmem with ⟨a, ha, b, hb, c, hc, rfl⟩
  refine ⟨show 3 < 63 by decide, ?_⟩
  intro x hx
  simp only [List.mem_cons, List.not_mem_nil, or_false] at hx
  rcases hx with rfl | rfl | rfl
  · exact List.all_eq_true.1 (show [0x61, 0x62, 0x63].all isAlnum = true by decide) _ ha
  · exact isAlnum_of_mem hb
  · exact isAlnum_of_mem hc

def manyLists : List ListId :=
  ["a1", "a2", "a3", "a4", "a5", "a6", "b1", "b2", "b3", "b4", "b5", "b6", "c1", "c2", "c3", "c4",
    "c5", "c6", "d1", "d2", "d3", "d4", "d5", "d6"]

/-- Twenty-four lists of 128484 names each: all of them are loaded. -/
theorem budget_overrun :
    manyLists.length = 24 ∧ ∀ sha256 : Bytes → String, ∃ t,
      exec (step sha256) (start .ascii 0)
        (overrun (catalogOf manyLists) (linesOf (namesOf stems)) manyLists) = some t ∧
      ¬ WithinBudget t := by
  have hlists : manyLists.length = 24 := rfl
  have hids : manyLists.Nodup := by decide +kernel
  have hlen : (namesOf stems).length = 128484 := by rw [length_namesOf, length_stems]
  have hloads : Loads .ascii (catalogOf manyLists) (linesOf (namesOf stems)) 128484 := by
    rw [← hlen]
    refine catalogOf_loads hids (by decide +kernel) (by decide +kernel) (entryLine_namesOf stems_alnum .ascii) ?_ ?_ ?_
    · exact nodup_namesOf (nodup_keepFresh stemKey 0 _)
    · rw [hlen]
      decide
    · rw [hlen]
      decide
  refine ⟨hlists, ?_⟩
  intro sha256
  have hcat : ∀ id ∈ manyLists, ∃ c, (catalogOf manyLists).get id = some c := by
    intro id hid
    refine ⟨entryAt id, ?_⟩
    rw [catalogOf, OrderedMap.get_ofList_keys hids, if_pos hid]
  rcases overrun_total sha256 hloads manyLists hids hcat with ⟨t, hrun, htotal⟩
  refine ⟨t, hrun, ?_⟩
  rw [WithinBudget, htotal, hlists]
  decide

end ListManager

end Dns
end GateControl
