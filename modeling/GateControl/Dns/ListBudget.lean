import GateControl.Dns.ListSize
import GateControl.Dns.ListProvenance

/-!
# ListBudget — how many entries all loaded lists have together

A download is parsed with the room that the other lists leave it under `maxEntriesTotal`.  This
keeps the total within the limit as long as that room is still there when the list is installed;
a list that `setWanted` reads back from disk has only its own limit.  `Budgeted` says that the other
lists leave the room which the parser was told of, or which a file of that length needs at most, and
every run of such steps keeps within the limit.
-/

namespace GateControl
namespace Dns

open Library

namespace ListManager

variable {host : UnicodeHost} {sha256 : Bytes → String}

/-- `totalEntries` of all lists. -/
def total (s : ListManager host) : Nat := s.lists.sumOf Loaded.size

def WithinBudget (s : ListManager host) : Prop := s.total ≤ maxEntriesTotal

/-- The other lists leave room for so many entries. -/
def hasRoom (s : ListManager host) (id : ListId) (room : Nat) : Bool :=
  s.totalEntries id + room ≤ maxEntriesTotal

/-- When a list is read back from disk, the others leave the room of a single list, or one for every
byte of the file; and so is the room of a download still there that was measured for it. -/
def Budgeted (s : ListManager host) : Action → Prop
  | .fileParsed true =>
      ∀ w file, s.wanting = some w → w.read = some (some file) →
        s.hasRoom w.id (min maxEntriesList file.content.length) = true
  | .parsed none =>
      ∀ remaining r body etag lastModified room, s.busy = some ⟨remaining, some r⟩ →
        r.body = some (body, etag, lastModified, room) → ¬ s.Outdated r →
          s.hasRoom r.id (min room body.length) = true
  | _ => True

/-! ## Sizes -/

theorem size_le_of_load {f : File} {format : Format} {limit : Nat} {l : Loaded host}
    (h : load host f format limit = .ok l) : l.size ≤ min limit f.content.length := by
  unfold load at h
  split at h
  · cases h
  · rename_i result hparse
    cases h
    exact Nat.le_min.2 ⟨size_le_of_parse hparse, size_le_length hparse⟩

/-- A list that is no longer than the room for it fits. -/
theorem fits_of_hasRoom {s : ListManager host} {id : ListId} {room : Nat} {l : Loaded host}
    (h : s.hasRoom id room = true) (hle : l.size ≤ room) :
    s.totalEntries id + l.size ≤ maxEntriesTotal :=
  (Nat.add_le_add_left hle _).trans (of_decide_eq_true h)

theorem totalEntries_eq (s : ListManager host) (id : ListId) :
    s.totalEntries id = (s.lists.delete id).sumOf Loaded.size := by
  simp only [totalEntries, OrderedMap.sumOf, OrderedMap.values, OrderedMap.delete, List.map_map]
  rfl

/-- A list counts once, in the place of the one it replaces. -/
theorem total_set (s : ListManager host) (id : ListId) (l : Loaded host) :
    (s.lists.set id l).sumOf Loaded.size = s.totalEntries id + l.size := by
  have hset := s.lists.sumOf_set Loaded.size id l
  have hdelete := s.lists.sumOf_delete Loaded.size id
  rw [totalEntries_eq]
  omega

theorem sumOf_delete_le (m : OrderedMap ListId (Loaded host)) (id : ListId) :
    (m.delete id).sumOf Loaded.size ≤ m.sumOf Loaded.size := by
  have hdelete := m.sumOf_delete Loaded.size id
  omega

theorem sumOf_filter_le (m : OrderedMap ListId (Loaded host)) (q : ListId → Loaded host → Bool) :
    (m.filter q).sumOf Loaded.size ≤ m.sumOf Loaded.size := by
  have hfilter := m.sumOf_filter Loaded.size q
  omega

/-! ## What the functions do with the lists in memory -/

@[simp] theorem updateMeta_lists (s : ListManager host) (id : ListId) (ref : MetaRef)
    (f : ListMeta → ListMeta) : (s.updateMeta id ref f).lists = s.lists := by
  rcases updateMeta_spec s id ref f with ⟨md, mb, heq, _⟩
  rw [heq]

@[simp] theorem due_lists (s : ListManager host) (id : ListId) (ref : MetaRef) :
    (s.due id ref).lists = s.lists :=
  updateMeta_lists s id ref _

@[simp] theorem saveMeta_lists (s : ListManager host) : s.saveMeta.lists = s.lists := rfl

@[simp] theorem loadMeta_lists (s : ListManager host) : s.loadMeta.lists = s.lists := by
  unfold loadMeta
  split <;> rfl

@[simp] theorem refreshFailed_lists (s : ListManager host) (remaining : List ListId) (id : ListId)
    (ref : MetaRef) (jitter : Int) (code : String) :
    (s.refreshFailed remaining id ref jitter code).lists = s.lists := by
  simp [refreshFailed]

@[simp] theorem refreshNext_lists (s : ListManager host) (id : ListId) (remaining : List ListId)
    (jitter : Int) (dirOk : Bool) :
    (s.refreshNext id remaining jitter dirOk).lists = s.lists := by
  unfold refreshNext
  dsimp only
  split
  · rfl
  · split
    · rfl
    · split
      · rfl
      · split
        · exact refreshFailed_lists s remaining id _ jitter _
        · rfl

@[simp] theorem fetched_lists (s : ListManager host) (remaining : List ListId) (r : Refresh)
    (o : Fetched) : (s.fetched sha256 remaining r o).lists = s.lists := by
  cases o with
  | notModified =>
      simp [fetched]
  | failed code =>
      simp [fetched]
  | content body etag lastModified =>
      simp only [fetched]
      split
      · simp
      · simp

theorem install_lists (s : ListManager host) (remaining : List ListId) (r : Refresh)
    (l : Loaded host) (etag lastModified : Option String) :
    (s.install sha256 remaining r l etag lastModified).lists =
      if s.Outdated r then s.lists else s.lists.set r.id l := by
  have hout : ({ s with
      files := s.files.set r.id l.file
      busy := some ⟨remaining, none⟩ } : ListManager host).Outdated r ↔ s.Outdated r := Iff.rfl
  simp only [install, hout]
  split
  · rfl
  · simp

theorem takeCatalog_total_le (s : ListManager host) (catalog : OrderedMap ListId CatalogEntry)
    (usedIds : List ListId) : (s.takeCatalog catalog usedIds).total ≤ s.total := by
  have hle := sumOf_filter_le s.loadMeta.lists fun id _ =>
    (usedIds.eraseDups.filter (found catalog)).contains id
  rw [loadMeta_lists] at hle
  simpa [total, takeCatalog] using hle

/-- The loop of `setWanted` takes lists out of memory only. -/
theorem want_total_le (ids : List ListId) (s : ListManager host) : (s.want ids).total ≤ s.total := by
  induction ids generalizing s with
  | nil =>
      exact Nat.le_refl _
  | cons id rest ih =>
      have hreset : ∀ c, ((s.resetMeta id c).want rest).total ≤ s.total := fun c =>
        (ih (s.resetMeta id c)).trans (sumOf_delete_le s.lists id)
      unfold want
      cases s.sourceAt id with
      | none =>
          exact ih s
      | some c =>
          cases s.metaAt id with
          | none =>
              exact hreset c
          | some rm =>
              dsimp only
              split
              · split
                · exact ih s
                · split
                  · exact Nat.le_refl _
                  · refine (ih (s.due id rm.1)).trans (Nat.le_of_eq ?_)
                    rw [total, due_lists, total]
              · exact hreset c

/-- What `setWanted` reads from disk goes into memory, unless it cannot be read. -/
theorem takeFile_total (s : ListManager host) (w : Wanting) (readable : Bool) :
    (s.takeFile w readable).total = s.total ∨
      ∃ file c l, readable = true ∧ w.read = some (some file) ∧ s.catalog.get w.id = some c ∧
        load host file c.format maxEntriesList = .ok l ∧
        (s.takeFile w readable).total = s.totalEntries w.id + l.size := by
  unfold takeFile
  split
  · rename_i c file hcat hread
    cases readable with
    | false =>
        exact Or.inl (by simp [total])
    | true =>
        cases hload : load host file c.format maxEntriesList with
        | error e =>
            exact Or.inl (by simp [total, Except.toOption])
        | ok l =>
            refine Or.inr ⟨file, c, l, rfl, hread, hcat, hload, ?_⟩
            simp [total, Except.toOption, total_set]
  · exact Or.inl (by simp [total])

/-- A download goes into memory when it is current and parsed without an error. -/
theorem parsed_total (sha256 : Bytes → String) (s : ListManager host) (remaining : List ListId) (r : Refresh) (body : Bytes)
    (etag lastModified : Option String) (room : Nat) (ioError : Option String) :
    (s.parsed sha256 remaining r body etag lastModified room ioError).total = s.total ∨
      ∃ l, ioError = none ∧ ¬ s.Outdated r ∧
        load host ⟨body, r.entry.url⟩ r.entry.format room = .ok l ∧
        (s.parsed sha256 remaining r body etag lastModified room ioError).total =
          s.totalEntries r.id + l.size := by
  unfold parsed
  cases ioError with
  | some code =>
      exact Or.inl (by simp [total])
  | none =>
      cases hload : load host ⟨body, r.entry.url⟩ r.entry.format room with
      | error e =>
          exact Or.inl (by simp [total])
      | ok l =>
          by_cases hempty : l.result.entries = 0
          · exact Or.inl (by simp [total, hempty])
          · by_cases hout : s.Outdated r
            · exact Or.inl (by simp [total, hempty, install_lists, hout])
            · refine Or.inr ⟨l, rfl, hout, rfl, ?_⟩
              simp [total, hempty, install_lists, hout, total_set]

/-! ## Whole runs -/

theorem open_within (files : OrderedMap ListId File) (saved : OrderedMap ListId ListMeta)
    (now : Int) (nextRef : Nat) : WithinBudget (open_ host files saved now nextRef) := by
  simp [WithinBudget, total, open_]

theorem step_within (s : ListManager host) (a : Action) (s' : ListManager host)
    (hs : WithinBudget s) (hok : Budgeted s a) (hstep : step sha256 s a = some s') :
    WithinBudget s' := by
  unfold WithinBudget at hs ⊢
  cases a with
  | setWanted catalog usedIds =>
      simp only [step] at hstep
      split at hstep
      · cases hstep
      · cases hstep
        calc _ ≤ (s.takeCatalog catalog usedIds).total := want_total_le _ _
          _ ≤ s.total := takeCatalog_total_le s catalog usedIds
          _ ≤ maxEntriesTotal := hs
  | readFile =>
      simp only [step] at hstep
      split at hstep
      · cases hstep
        exact hs
      · cases hstep
  | fileParsed readable =>
      simp only [step] at hstep
      split at hstep
      · rename_i w hw
        split at hstep
        · cases hstep
          refine (want_total_le w.rest _).trans ?_
          rcases takeFile_total s w readable with hsame |
            ⟨file, c, l, rfl, hread, hcat, hload, htotal⟩
          · rw [hsame]
            exact hs
          · rw [htotal]
            exact fits_of_hasRoom (hok w file hw hread) (size_le_of_load hload)
        · cases hstep
      · cases hstep
  | removeFile id =>
      simp only [step] at hstep
      split at hstep
      · cases hstep
        exact hs
      · cases hstep
  | refreshDue =>
      simp only [step] at hstep
      split at hstep
      · cases hstep
        exact hs
      · cases hstep
        exact hs
  | refreshNext jitter dirOk =>
      simp only [step] at hstep
      split at hstep
      · cases hstep
        exact hs
      · cases hstep
        simpa [total] using hs
      · cases hstep
  | fetched o =>
      simp only [step] at hstep
      split at hstep
      · split at hstep
        · cases hstep
        · cases hstep
          simpa [total] using hs
      · cases hstep
  | parsed ioError =>
      simp only [step] at hstep
      split at hstep
      · rename_i remaining r hb
        split at hstep
        · rename_i body etag lastModified room hbody
          cases hstep
          rcases parsed_total sha256 s remaining r body etag lastModified room ioError with hsame |
            ⟨l, rfl, hcur, hload, htotal⟩
          · rw [hsame]
            exact hs
          · rw [htotal]
            exact fits_of_hasRoom (hok remaining r body etag lastModified room hb hbody hcur)
              (size_le_of_load hload)
        · cases hstep
      · cases hstep
  | clock now =>
      cases hstep
      exact hs
  | restart =>
      cases hstep
      exact open_within s.files s.saved s.now s.nextRef

/-- In every run in which the room that the parser is told of is there when its list goes into memory,
the loaded lists have together no more entries than allowed. -/
theorem entries_within_budget (host : UnicodeHost) (sha256 : Bytes → String) (now : Int)
    (as : List Action) (hok : Admits (step sha256) Budgeted (start host now) as) :
    Throughout (step sha256) WithinBudget (start host now) as :=
  throughout_of_admits step_within (fun _ hs => hs) (open_within .empty .empty now 0) hok

/-- `Budgeted` as a test, with the room that the parser is told of. -/
def leavesRoom (s : ListManager host) : Action → Bool
  | .fileParsed _ => s.wanting.all fun w => s.hasRoom w.id maxEntriesList
  | .parsed _ =>
      s.busy.all fun round => round.current.all fun r => r.body.all fun body =>
        s.hasRoom r.id body.2.2.2
  | _ => true

theorem hasRoom_min {s : ListManager host} {id : ListId} {room : Nat} (h : s.hasRoom id room = true)
    (n : Nat) : s.hasRoom id (min room n) = true :=
  decide_eq_true ((Nat.add_le_add_left (Nat.min_le_left room n) _).trans (of_decide_eq_true h))

theorem budgeted_of_leavesRoom (s : ListManager host) (a : Action) (h : s.leavesRoom a = true) :
    Budgeted s a := by
  cases a with
  | fileParsed readable =>
      cases readable with
      | false =>
          trivial
      | true =>
          intro w file hw _
          exact hasRoom_min ((Option.all_eq_true ..).1 h w hw) _
  | parsed ioError =>
      cases ioError with
      | some code =>
          trivial
      | none =>
          intro remaining r body etag lastModified room hb hbody _
          simp only [leavesRoom, hb, hbody, Option.all_some] at h
          exact hasRoom_min h _
  | _ =>
      trivial

/-- A list is downloaded, and read back from disk after a restart. -/
def downloadAndRestart : List Action :=
  firstDownload ++ [.restart, .setWanted (adsCatalog "https://one.example/l") ["ads"], .readFile,
    .fileParsed true]

theorem downloadAndRestart_leavesRoom :
    checkRun (step abDigest) leavesRoom (start .ascii 0) downloadAndRestart = true := by
  decide +kernel

theorem entries_within_budget_restart :
    (exec (step abDigest) (start .ascii 0) downloadAndRestart).any (fun t => t.total == 1) = true ∧
      Throughout (step abDigest) WithinBudget (start .ascii 0) downloadAndRestart := by
  refine ⟨by decide +kernel, entries_within_budget .ascii abDigest 0 downloadAndRestart ?_⟩
  exact admits_of_checkRun budgeted_of_leavesRoom downloadAndRestart_leavesRoom

end ListManager

end Dns
end GateControl
