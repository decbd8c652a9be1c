import GateControl.Library.OrderedMap
import GateControl.Library.PlainObject
import GateControl.Library.Transition
import GateControl.Dns.Config
import GateControl.Dns.ListParser

/-!
# Lists — loading, keeping and refreshing the block lists

`ListManager` keeps the lists in use in memory, their last good version in `<id>.txt` and what it
knows about them in `meta.json`.  `setWanted` takes over a catalog and reads missing lists from
disk, `refreshDue` downloads the lists that are due, one after the other.

Both wait for reads and downloads, so their steps interleave: a call of `setWanted` is suspended
while it reads a file, a refresh while it downloads and while it parses.  Calls of `setWanted` do
not overlap (the feature manager applies one configuration at a time), and there is one round of
refreshes at a time.  Everything the outside decides is part of the action: what a download brings,
when a file is deleted, when the process restarts.

A file carries the url it was downloaded from; the program does not know it.

The catalog and the metadata are plain objects.  Under the id of a list that they do not have, such
as `constructor`, they may still find a member that every object inherits; it then stands for an
entry without url and format, and for metadata that are written to like any other.
-/

namespace GateControl
namespace Dns

open Library

abbrev ListId := String

def maxEntriesList : Nat := 1500000

def maxEntriesTotal : Nat := 3000000

def refreshMs : Int := 24 * 3600000

def retryMs : Int := 3600000

/-- An entry of the catalog; `tag` is the identity of the object, which `===` compares. -/
structure CatalogEntry where
  url : String
  format : Format
  sha256 : Option String
  tag : Nat
  deriving DecidableEq

/-- What metadata are compared with: a member that every object inherits has no url and no
format. -/
structure Source where
  url : Option String
  format : Option Format
  sha256 : Option String
  deriving DecidableEq

def CatalogEntry.source (c : CatalogEntry) : Source := ⟨some c.url, some c.format, c.sha256⟩

/-- What is known about a list; `ref` is the identity of the object. -/
structure ListMeta where
  url : Option String
  format : Option Format
  etag : Option String
  lastModified : Option String
  sha256 : Option String
  entries : Nat
  bytes : Nat
  updatedAt : Option Int
  checkedAt : Option Int
  nextAt : Int
  error : Option (Int × String)
  ref : Nat
  deriving DecidableEq

/-- Metadata of a list that has not been downloaded from the url of its entry yet. -/
def ListMeta.fresh (c : Source) (ref : Nat) : ListMeta where
  url := c.url
  format := c.format
  etag := none
  lastModified := none
  sha256 := none
  entries := 0
  bytes := 0
  updatedAt := none
  checkedAt := none
  nextAt := 0
  error := none
  ref := ref

/-- The metadata belong to the entry, and to the content it asks for. -/
def ListMeta.Same (m : ListMeta) (c : Source) : Prop :=
  m.url = c.url ∧ m.format = c.format ∧ (c.sha256 = none ∨ c.sha256 = m.sha256)

instance (m : ListMeta) (c : Source) : Decidable (m.Same c) :=
  inferInstanceAs (Decidable (_ ∧ _ ∧ (_ ∨ _)))

/-- A downloaded file and the url it came from. -/
structure File where
  content : Bytes
  origin : String
  deriving DecidableEq

/-- The chunks of the file do not matter, so it is read as one. -/
def parseFile (host : UnicodeHost) (content : Bytes) (format : Format) (maxEntries : Nat) :
    Except ListTooLarge ParsedList :=
  parseListStream host [content] format maxEntries (countLines [content])

/-- A list in memory, with the file and the format it was parsed from. -/
structure Loaded (host : UnicodeHost) where
  file : File
  format : Format
  limit : Nat
  result : ParsedList
  parsed : parseFile host file.content format limit = .ok result

variable {host : UnicodeHost}

def Loaded.size (l : Loaded host) : Nat := l.result.list.size

def load (host : UnicodeHost) (file : File) (format : Format) (limit : Nat) :
    Except ListTooLarge (Loaded host) :=
  match h : parseFile host file.content format limit with
  | .error e => .error e
  | .ok result => .ok ⟨file, format, limit, result, h⟩

/-- Which metadata are meant: an object with its identity, or the inherited member. -/
abbrev MetaRef := Option Nat

/-- A call of `setWanted` that waits for the file of `id`; `read` is what it has read, once it has. -/
structure Wanting where
  id : ListId
  ref : MetaRef
  read : Option (Option File)
  rest : List ListId

/-- What a download brings. -/
inductive Fetched
  | notModified
  | content (body : Bytes) (etag lastModified : Option String)
  | failed (code : String)

/-- A refresh of one list, which waits for its download or for the parser. -/
structure Refresh where
  id : ListId
  entry : CatalogEntry
  ref : MetaRef
  jitter : Int
  /-- The validators sent along. -/
  etag : Option String
  lastModified : Option String
  /-- The finished download: body, validators, and the room there was for its entries. -/
  body : Option (Bytes × Option String × Option String × Nat)

/-- A call of `refreshDue`: the lists it has still to look at, and the one it refreshes. -/
structure Round where
  remaining : List ListId
  current : Option Refresh

/-- The manager (memory) and its directory. -/
structure ListManager (host : UnicodeHost) where
  catalog : OrderedMap ListId CatalogEntry
  used : List ListId
  lists : OrderedMap ListId (Loaded host)
  metadata : OrderedMap ListId ListMeta
  /-- What has been written onto members that every object inherits. -/
  members : OrderedMap ListId ListMeta
  loadedMeta : Bool
  busy : Option Round
  wanting : Option Wanting
  now : Int
  nextRef : Nat
  /-- The files `<id>.txt`. -/
  files : OrderedMap ListId File
  /-- The lists of `meta.json`. -/
  saved : OrderedMap ListId ListMeta
  /-- Files whose deletion has been asked for. -/
  removing : List ListId

namespace ListManager

/-- A new manager on a directory. -/
def open_ (host : UnicodeHost) (files : OrderedMap ListId File)
    (saved : OrderedMap ListId ListMeta) (now : Int) (nextRef : Nat) : ListManager host where
  catalog := .empty
  used := []
  lists := .empty
  metadata := .empty
  members := .empty
  loadedMeta := false
  busy := none
  wanting := none
  now := now
  nextRef := nextRef
  files := files
  saved := saved
  removing := []

/-- A manager on an empty directory. -/
def start (host : UnicodeHost) (now : Int) : ListManager host := open_ host .empty .empty now 0

variable (s : ListManager host)

def loadMeta : ListManager host :=
  if s.loadedMeta then s else { s with loadedMeta := true, metadata := s.saved }

def saveMeta : ListManager host := { s with saved := s.metadata }

def totalEntries (except : ListId) : Nat :=
  ((s.lists.entries.filter fun e => e.1 ≠ except).map fun e => e.2.size).sum

/-! ## Looking up -/

def isInherited (id : ListId) : Bool := id.toList ∈ inheritedNames

/-- Whether `catalog[id]` finds something. -/
def found (catalog : OrderedMap ListId CatalogEntry) (id : ListId) : Bool :=
  catalog.has id || isInherited id

/-- `_file` takes only such ids, which the keys of a catalog are. -/
def fileOk (id : ListId) : Bool := listIdOk id.toList

/-- The member that every object inherits, as metadata; nothing writes its url or format. -/
def memberMeta (id : ListId) : ListMeta :=
  { (s.members.get id).getD (.fresh ⟨none, none, none⟩ 0) with url := none, format := none }

/-- `this.catalog[id]` -/
def sourceAt (id : ListId) : Option Source :=
  match s.catalog.get id with
  | some c => some c.source
  -- the same member as in `this.meta`, so that a digest written there is found here
  | none => if isInherited id then some ⟨none, none, (s.memberMeta id).sha256⟩ else none

/-- `this.meta[id]` -/
def metaAt (id : ListId) : Option (MetaRef × ListMeta) :=
  match s.metadata.get id with
  | some m => some (some m.ref, m)
  | none => if isInherited id then some (none, s.memberMeta id) else none

/-- Change the metadata object `ref` of a list; nothing happens when it has been replaced. -/
def updateMeta (id : ListId) (ref : MetaRef) (f : ListMeta → ListMeta) : ListManager host :=
  match ref with
  | none => { s with members := s.members.set id (f (s.memberMeta id)) }
  | some ref =>
      match s.metadata.get id with
      | some m => if m.ref = ref then { s with metadata := s.metadata.set id (f m) } else s
      | none => s

/-! ## Taking over a catalog -/

/-- `setWanted` up to its loop over the used lists. -/
def takeCatalog (catalog : OrderedMap ListId CatalogEntry) (usedIds : List ListId) :
    ListManager host :=
  let s := s.loadMeta
  let used := usedIds.eraseDups.filter (found catalog)
  { s with
    catalog := catalog
    used := used
    lists := s.lists.filter fun id _ => used.contains id
    metadata := s.metadata.filter fun id _ => found catalog id
    -- a file leaves the disk only with its metadata, and the deletion is not waited for
    removing := s.removing ++ s.metadata.keys.filter fun id => !found catalog id }

/-- Forget what is known about a list. -/
def resetMeta (id : ListId) (c : Source) : ListManager host :=
  { s with
    metadata := s.metadata.set id (.fresh c s.nextRef)
    nextRef := s.nextRef + 1
    lists := s.lists.delete id }

/-- The list is due at once. -/
def due (id : ListId) (ref : MetaRef) : ListManager host :=
  s.updateMeta id ref fun m => { m with nextAt := 0 }

/-- The loop over the used lists, up to the next file it has to read. -/
def want (s : ListManager host) : List ListId → ListManager host
  | [] => { s.saveMeta with wanting := none }
  | id :: rest =>
      match s.sourceAt id with
      | none => want s rest
      | some c =>
          match s.metaAt id with
          -- the file of the list stays where it is, whatever it was downloaded from
          | none => want (s.resetMeta id c) rest
          | some (ref, m) =>
              if m.Same c then
                if s.lists.has id then want s rest
                -- `await parseFile(...)`: `m` is held across the wait, and may have been replaced after it
                else if fileOk id then { s with wanting := some ⟨id, ref, none, rest⟩ }
                else want (s.due id ref) rest
              else want (s.resetMeta id c) rest

def setWanted (catalog : OrderedMap ListId CatalogEntry) (usedIds : List ListId) :
    ListManager host :=
  let s := s.takeCatalog catalog usedIds
  s.want s.used

/-- The file has been parsed, or could not be. -/
def takeFile (w : Wanting) (readable : Bool) : ListManager host :=
  match s.catalog.get w.id, w.read with
  | some c, some (some file) =>
      match if readable then (load host file c.format maxEntriesList).toOption else none with
      | some l =>
          { s with lists := s.lists.set w.id l }.updateMeta w.id w.ref
            fun m => { m with entries := l.result.entries }
      -- a broken file
      | none => s.due w.id w.ref
  -- no file, or no format to read it in
  | _, _ => s.due w.id w.ref

/-! ## Refreshing -/

/-- The refresh of a list has failed; the last good version stays. -/
def refreshFailed (remaining : List ListId) (id : ListId) (ref : MetaRef) (jitter : Int)
    (code : String) : ListManager host :=
  let s := s.updateMeta id ref fun m =>
    { m with
      checkedAt := some s.now
      error := some (s.now, code)
      nextAt := s.now + retryMs + jitter }
  { s with busy := some ⟨remaining, none⟩ }.saveMeta

/-- The refresh of an entry, before its download. -/
def refreshOf (id : ListId) (c : CatalogEntry) (ref : MetaRef) (m : ListMeta) (jitter : Int) :
    Refresh where
  id := id
  entry := c
  ref := ref
  jitter := jitter
  -- without the list in memory a 304 would leave nothing to use
  etag := if s.lists.has id then m.etag else none
  lastModified := if s.lists.has id then m.lastModified else none
  body := none

/-- `refreshDue` looks at the next list and begins its refresh when it is due. -/
def refreshNext (id : ListId) (remaining : List ListId) (jitter : Int) (dirOk : Bool) :
    ListManager host :=
  let skip := { s with busy := some ⟨remaining, none⟩ }
  match s.metaAt id with
  | none => skip
  | some (ref, m) =>
      if m.nextAt > s.now ∨ s.sourceAt id = none ∨ !dirOk then skip
      -- `_file` throws, and nothing catches it before the end of the round
      else if !fileOk id then { s with busy := none }
      else
        match s.catalog.get id with
        -- the inherited member has no url that could be fetched
        | none => s.refreshFailed remaining id ref jitter "bad_url"
        | some c => { s with busy := some ⟨remaining, some (s.refreshOf id c ref m jitter)⟩ }

/-- The download has ended. -/
def fetched (sha256 : Bytes → String) (remaining : List ListId) (r : Refresh) (o : Fetched) :
    ListManager host :=
  match o with
  | .failed code => s.refreshFailed remaining r.id r.ref r.jitter code
  | .notModified =>
      let s := s.updateMeta r.id r.ref fun m =>
        { m with
          checkedAt := some s.now
          error := none
          nextAt := s.now + refreshMs + r.jitter }
      { s with busy := some ⟨remaining, none⟩ }.saveMeta
  | .content body etag lastModified =>
      let s := s.updateMeta r.id r.ref fun m => { m with checkedAt := some s.now }
      if r.entry.sha256.any (· ≠ sha256 body) then s.refreshFailed remaining r.id r.ref r.jitter "sha256_mismatch"
      else
        -- the room is what the other lists leave at this moment, not when the parser has ended
        let room := min maxEntriesList (maxEntriesTotal - s.totalEntries r.id)
        { s with busy := some ⟨remaining,
          some { r with body := some (body, etag, lastModified, room) }⟩ }

/-- The entry has changed since the refresh began, or the list is no longer used. -/
def Outdated (r : Refresh) : Prop := s.catalog.get r.id ≠ some r.entry ∨ r.id ∉ s.used

instance (r : Refresh) : Decidable (s.Outdated r) := inferInstanceAs (Decidable (_ ∨ _))

/-- The new version goes into place; it is taken over unless the entry has changed meanwhile. -/
def install (sha256 : Bytes → String) (remaining : List ListId) (r : Refresh) (l : Loaded host)
    (etag lastModified : Option String) : ListManager host :=
  -- the rename comes before the look at the catalog, so an outdated download replaces the file too
  let s := { s with files := s.files.set r.id l.file, busy := some ⟨remaining, none⟩ }
  if s.Outdated r then s
  else
    let s := { s with lists := s.lists.set r.id l }
    (s.updateMeta r.id r.ref fun m =>
      { m with
        etag := etag
        lastModified := lastModified
        sha256 := some (sha256 l.file.content)
        entries := l.result.entries
        bytes := l.file.content.length
        updatedAt := some s.now
        error := none
        nextAt := s.now + refreshMs + r.jitter }).saveMeta

/-- The download has been parsed; `ioError` is a failure of the file system. -/
def parsed (sha256 : Bytes → String) (remaining : List ListId) (r : Refresh) (body : Bytes)
    (etag lastModified : Option String) (room : Nat) (ioError : Option String) :
    ListManager host :=
  match ioError with
  | some code => s.refreshFailed remaining r.id r.ref r.jitter code
  | none =>
      match load host ⟨body, r.entry.url⟩ r.entry.format room with
      | .error e => s.refreshFailed remaining r.id r.ref r.jitter e.code
      | .ok l =>
          if l.result.entries = 0 then s.refreshFailed remaining r.id r.ref r.jitter "empty"
          else s.install sha256 remaining r l etag lastModified

/-! ## Steps -/

inductive Action
  | setWanted (catalog : OrderedMap ListId CatalogEntry) (usedIds : List ListId)
  /-- The suspended call of `setWanted` reads its file. -/
  | readFile
  /-- It has parsed what it read. -/
  | fileParsed (readable : Bool)
  /-- A deletion that has been asked for takes place. -/
  | removeFile (id : ListId)
  | refreshDue
  /-- The round goes on with its next list, or ends. -/
  | refreshNext (jitter : Int) (dirOk : Bool)
  | fetched (o : Fetched)
  | parsed (ioError : Option String)
  | clock (now : Int)
  /-- The process ends and a new manager opens the directory. -/
  | restart

def step (sha256 : Bytes → String) (s : ListManager host) : Action → Option (ListManager host)
  | .setWanted catalog usedIds =>
      if s.wanting.isSome then none else some (s.setWanted catalog usedIds)
  | .readFile =>
      match s.wanting with
      | some w => some { s with wanting := some { w with read := some (s.files.get w.id) } }
      | none => none
  | .fileParsed readable =>
      match s.wanting with
      | some w => if w.read.isSome then some ((s.takeFile w readable).want w.rest) else none
      | none => none
  | .removeFile id =>
      if s.removing.contains id then
        some { s with files := s.files.delete id, removing := s.removing.erase id }
      else none
  -- the round keeps the lists that are in use now, also when a catalog comes in between
  | .refreshDue => if s.busy.isSome then some s else some { s with busy := some ⟨s.used, none⟩ }
  | .refreshNext jitter dirOk =>
      match s.busy with
      | some ⟨[], none⟩ => some { s with busy := none }
      | some ⟨id :: remaining, none⟩ => some (s.refreshNext id remaining jitter dirOk)
      | _ => none
  | .fetched o =>
      match s.busy with
      | some ⟨remaining, some r⟩ =>
          if r.body.isSome then none else some (s.fetched sha256 remaining r o)
      | _ => none
  | .parsed ioError =>
      match s.busy with
      | some ⟨remaining, some r⟩ =>
          match r.body with
          | some (body, etag, lastModified, room) =>
              some (s.parsed sha256 remaining r body etag lastModified room ioError)
          | none => none
      | _ => none
  | .clock now => some { s with now := now }
  -- what has been saved is all that is left; deletions that have not happened never will
  | .restart => some (open_ host s.files s.saved s.now s.nextRef)

end ListManager

end Dns
end GateControl
