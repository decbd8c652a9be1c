import GateControl.Edge.PackageFormat
import GateControl.Library.FileSystem

/-!
# PackageStore — unpacking a package

A package is unpacked into a temporary folder beside that of its version, gets a description there,
and is then put in its place.  The paths come from the package; that they stay in the folder, and out
of each other's way, rests on what `decode` has checked.
-/

namespace GateControl
namespace Edge

open Library

namespace PackageStore

open Gcplugin

abbrev Files := FileSystem Text Bytes

abbrev Path := List Text

def readyFile : Text := ".ready.json".toList

def manifestFile : Text := "plugin.json".toList

/-- `path.join` -/
def resolve (base : Path) (segs : List Text) : Path :=
  segs.foldl (fun path s =>
    if s = [] ∨ s = ['.'] then path
    else if s = ['.', '.'] then path.dropLast
    else path ++ [s]) base

inductive ExtractError
  /-- A path leads out of the folder of the package. -/
  | outside
  | fs (e : FsError)

/-- Only the manifest and the folder of the edge part are unpacked. -/
def selected (entryDir : Text) (p : Text) : Bool :=
  p = manifestFile || (entryDir ++ ['/']).isPrefixOf p

/-- Whether a path lies below the folder. -/
def below (dir path : Path) : Bool := dir.isPrefixOf path && dir.length < path.length

section Extract

-- how the file system compares names
variable (fold : Text → Text)

/-- The loop over the files of the package. -/
def unpack (tmp : Path) (entryDir : Text) : Files → List (Text × Bytes) → Except ExtractError Files
  | fs, [] => .ok fs
  | fs, e :: rest =>
      if !selected entryDir e.1 then unpack tmp entryDir fs rest
      else
        let target := resolve tmp (segments e.1)
        if !below tmp target then .error .outside
        else
          match fs.makeDirs fold [] target.dropLast with
          | .error err => .error (.fs err)
          | .ok fs =>
              match fs.writeFile fold target e.2 true with
              | .error err => .error (.fs err)
              | .ok fs => unpack tmp entryDir fs rest

def dir (root : Path) (id version : Text) : Path := root ++ [id, version]

theorem dir_eq (root : Path) (id version : Text) : dir root id version = root ++ [id] ++ [version] := by
  simp [dir]

def tmpName (version : Text) (pid now : Nat) : Text :=
  version ++ ".tmp-".toList ++ decimal pid ++ "-".toList ++ decimal now

def tmpDir (root : Path) (id version : Text) (pid now : Nat) : Path :=
  dir root id (tmpName version pid now)

/-- An empty temporary folder. -/
def emptyTmp (fs : Files) (tmp : Path) : Except FsError Files :=
  (fs.remove fold tmp).makeDirs fold [] tmp

/-- `extract` with the text of the description. -/
def extract (root : Path) (id version : Text) (pid now : Nat) (files : OrderedMap Text Bytes)
    (entryDir : Text) (info : Bytes) (fs : Files) : Except ExtractError Files := do
  let dest := dir root id version
  let tmp := tmpDir root id version pid now
  let fs ← (emptyTmp fold fs tmp).mapError .fs
  let fs ← unpack fold tmp entryDir fs files.entries
  let fs ← (fs.writeFile fold (tmp ++ [readyFile]) info false).mapError .fs
  let fs ← ((fs.remove fold dest).makeDirs fold [] dest.dropLast).mapError .fs
  (fs.rename fold tmp dest).mapError .fs

end Extract

/-! ## Checked paths below the temporary folder -/

theorem resolve_append {segs : List Text}
    (h : ∀ s ∈ segs, s ≠ [] ∧ s ≠ ['.'] ∧ s ≠ ['.', '.']) (base : Path) :
    resolve base segs = base ++ segs := by
  induction segs generalizing base with
  | nil =>
      exact (List.append_nil base).symm
  | cons s segs ih =>
      obtain ⟨hne, hdot, hdots⟩ := h s List.mem_cons_self
      rw [resolve, List.foldl_cons, if_neg (not_or.2 ⟨hne, hdot⟩), if_neg hdots]
      have hrest := ih (fun t ht => h t (List.mem_cons_of_mem s ht)) (base ++ [s])
      rw [resolve] at hrest
      rw [hrest, List.append_assoc]
      rfl

theorem isSegment_ne_nil {s : Text} (h : isSegment s = true) : s ≠ [] := by
  rintro rfl
  cases h

theorem resolve_goodPath {p : Text} (hp : GoodPath p) (base : Path) :
    resolve base (segments p) = base ++ segments p := by
  refine resolve_append ?_ base
  intro s hs
  exact ⟨isSegment_ne_nil (hp.segment s hs), hp.notDots s hs⟩

theorem below_append {base t : Path} (h : t ≠ []) : below base (base ++ t) = true := by
  have hpos := List.length_pos_of_ne_nil h
  simp only [below, Bool.and_eq_true, List.isPrefixOf_iff_prefix, List.prefix_append,
    decide_eq_true_eq, List.length_append, true_and]
  omega

/-- The files that are unpacked, by their segments. -/
def targets (entryDir : Text) (es : List (Text × Bytes)) : List (Path × Bytes) :=
  (es.filter fun e => selected entryDir e.1).map fun e => (segments e.1, e.2)

/-- The checks of the loop let every checked path pass. -/
theorem unpack_eq {fold : Text → Text} {tmp : Path} {entryDir : Text} {es : List (Text × Bytes)}
    (h : ∀ e ∈ es, GoodPath e.1) (fs : Files) :
    unpack fold tmp entryDir fs es =
      (fs.install fold tmp (targets entryDir es)).mapError .fs := by
  induction es generalizing fs with
  | nil =>
      rfl
  | cons e es ih =>
      have hrest := ih fun f hf => h f (List.mem_cons_of_mem e hf)
      have hgood := h e List.mem_cons_self
      unfold unpack
      cases hsel : selected entryDir e.1 with
      | false =>
          rw [targets, List.filter_cons_of_neg (by simp [hsel])]
          exact hrest fs
      | true =>
          rw [targets, List.filter_cons_of_pos (by simp [hsel]), List.map_cons,
            FileSystem.install]
          simp only [Bool.not_true, Bool.false_eq_true, if_false, resolve_goodPath hgood,
            below_append (segments_ne_nil e.1)]
          cases fs.makeDirs fold [] (tmp ++ segments e.1).dropLast with
          | error err =>
              rfl
          | ok fs₁ =>
              show _ = Except.mapError ExtractError.fs
                (FileSystem.writeFile fold fs₁ (tmp ++ segments e.1) e.2 true >>= _)
              simp only
              cases fs₁.writeFile fold (tmp ++ segments e.1) e.2 true with
              | error err =>
                  rfl
              | ok fs₂ =>
                  exact hrest fs₂

/-! ## Well-formed packages -/

section WellFormed

variable {fold : Text → Text} (hfold : ∀ a b, fold a = fold b → lower a = lower b)

include hfold in
/-- Names that the file system does not tell apart differ at most in case. -/
theorem map_lower_of_key {a b : Path} (h : FileSystem.key fold a = FileSystem.key fold b) :
    a.map lower = b.map lower := by
  induction a generalizing b with
  | nil =>
      cases b with
      | nil =>
          rfl
      | cons t b =>
          cases h
  | cons s a ih =>
      cases b with
      | nil =>
          cases h
      | cons t b =>
          obtain ⟨hhead, htail⟩ := List.cons.inj h
          rw [List.map_cons, List.map_cons, hfold s t hhead, ih htail]

include hfold in
/-- A file on the way to another one, as the file system sees it, is above it or is the same. -/
theorem above_of_key {p q : Text}
    (h : FileSystem.key fold (segments p) <+: FileSystem.key fold (segments q)) :
    lower p = lower q ∨ Above p q := by
  rcases h with ⟨t, ht⟩
  have hkey : FileSystem.key fold (segments p) =
      FileSystem.key fold ((segments q).take (segments p).length) := by
    have hlength : (FileSystem.key fold (segments p)).length = (segments p).length :=
      List.length_map fold
    have htake := congrArg (List.take (segments p).length) ht
    rw [List.take_left' hlength] at htake
    rw [htake, FileSystem.key, FileSystem.key, List.map_take]
  have hlower := map_lower_of_key hfold hkey
  have hsplit : segments (lower q) =
      segments (lower p) ++ ((segments q).drop (segments p).length).map lower := by
    rw [segments_lower, segments_lower, hlower, ← List.map_append, List.take_append_drop]
  by_cases hend : (segments q).drop (segments p).length = []
  · rw [hend, List.map_nil, List.append_nil] at hsplit
    left
    rw [← join_segments (lower p), ← hsplit, join_segments]
  · right
    exact ⟨_, by simpa using hend, hsplit⟩

include hfold in
/-- No file of a well-formed package stands in the way of another. -/
theorem targets_apart {files : OrderedMap Text Bytes} (h : WellFormed files) (entryDir : Text) :
    (targets entryDir files.entries).Pairwise (FileSystem.Apart fold) := by
  have hpairs : files.entries.Pairwise fun e f => e.1 ≠ f.1 := List.pairwise_map.1 files.nodup
  have hone : ∀ e ∈ files.entries, ∀ f ∈ files.entries, e.1 ≠ f.1 →
      ¬ FileSystem.key fold (segments e.1) <+: FileSystem.key fold (segments f.1) := by
    intro e he f hf hne hpre
    have hke : e.1 ∈ files.keys := List.mem_map_of_mem he
    have hkf : f.1 ∈ files.keys := List.mem_map_of_mem hf
    rcases above_of_key hfold hpre with hsame | habove
    · exact hne (h.distinct e.1 hke f.1 hkf hsame)
    · exact h.apart e.1 hke f.1 hkf habove
  refine List.pairwise_map.2 ((hpairs.imp_of_mem ?_).filter _)
  intro e f he hf hne
  exact ⟨hone e he f hf hne, hone f hf e he (Ne.symm hne)⟩

theorem isSegment_ne_readyFile {s : Text} (h : isSegment s = true) : lower s ≠ lower readyFile := by
  cases s with
  | nil =>
      cases h
  | cons c cs =>
      simp only [isSegment, Bool.and_eq_true] at h
      intro heq
      have hdot : c = '.' := eq_of_asciiLower_eq (by decide) (List.cons.inj heq).1
      rw [hdot] at h
      exact absurd h.1.1 (by decide)

include hfold in
/-- All files of a well-formed package that are selected are written below an empty folder; nothing
changes outside it, and the place of the description stays free. -/
theorem unpack_ok {files : OrderedMap Text Bytes} (h : WellFormed files) {tmp : Path} {fs : Files}
    (htmp : FileSystem.Folders fold fs tmp)
    (hempty : ∀ t, t ≠ [] → fs (FileSystem.key fold tmp ++ t) = none) (entryDir : Text) :
    ∃ fs', unpack fold tmp entryDir fs files.entries = .ok fs' ∧
      FileSystem.Folders fold fs' tmp ∧
      FileSystem.Installed fold fs fs' tmp (targets entryDir files.entries) ∧
      fs' (FileSystem.key fold (tmp ++ [readyFile])) = none := by
  have hgood : ∀ e ∈ files.entries, GoodPath e.1 := fun e he =>
    (goodPath_of_checkPath (h.checked e.1 (List.mem_map_of_mem he))).2
  have hstart : FileSystem.Installed fold fs fs tmp [] := by
    refine ⟨fun _ _ => rfl, ?_, ?_, ?_⟩
    · intro f hf
      cases hf
    · intro t ht data hfile
      rw [hempty t ht] at hfile
      cases hfile
    · intro t ht hdir
      rw [hempty t ht] at hdir
      cases hdir
  have hne : ∀ f ∈ targets entryDir files.entries, f.1 ≠ [] := by
    intro f hf
    obtain ⟨e, _, rfl⟩ := List.mem_map.1 hf
    exact segments_ne_nil e.1
  obtain ⟨fs', hok, hfolders, hinstalled⟩ :=
    FileSystem.install_ok htmp hstart hne (targets_apart hfold h entryDir)
  rw [List.nil_append] at hinstalled
  refine ⟨fs', by rw [unpack_eq hgood, hok]; rfl, hfolders, hinstalled, ?_⟩
  -- no path of a package begins like the description
  have hready : ∀ f ∈ targets entryDir files.entries,
      ¬ FileSystem.key fold [readyFile] <+: FileSystem.key fold f.1 := by
    intro f hf hpre
    obtain ⟨e, he, rfl⟩ := List.mem_map.1 hf
    have hsegs := hgood e (List.mem_filter.1 he).1
    cases hsplit : segments e.1 with
    | nil =>
        exact segments_ne_nil e.1 hsplit
    | cons s rest =>
        rw [hsplit] at hpre
        have hsame : fold readyFile = fold s := (List.cons_prefix_cons.1 hpre).1
        refine isSegment_ne_readyFile (hsegs.segment s (hsplit ▸ List.mem_cons_self)) ?_
        exact (hfold _ _ hsame).symm
  have hkey : FileSystem.key fold [readyFile] ≠ [] := List.cons_ne_nil _ _
  rw [FileSystem.key_append]
  cases hnode : fs' (FileSystem.key fold tmp ++ FileSystem.key fold [readyFile]) with
  | none =>
      rfl
  | some n =>
      cases n with
      | dir =>
          rcases hinstalled.dir_of _ hkey hnode with ⟨f, hf, hpre⟩
          exact absurd hpre (hready f hf)
      | file data =>
          rcases hinstalled.file_of _ hkey data hnode with ⟨f, hf, heq⟩
          exact absurd (heq ▸ List.prefix_refl _) (hready f hf)

/-- No file stands where the folder of a plugin, or one it lies in, is needed. -/
def PathClear (fold : Text → Text) (fs : Files) (path : Path) : Prop :=
  ∀ r, r ≠ [] → r <+: path → ∀ data, fs (FileSystem.key fold r) ≠ some (.file data)

/-- Otherwise the temporary folder is not made. -/
theorem pathClear_of_emptyTmp {root : Path} {id name : Text} {fs fs' : Files}
    (h : emptyTmp fold fs (root ++ [id, name]) = .ok fs') : PathClear fold fs (root ++ [id]) := by
  intro r hr hpre data hfile
  have hway : FileSystem.OnTheWay fold [] (root ++ [id, name]) (FileSystem.key fold r) :=
    ⟨r, hr, hpre.trans ⟨[name], by simp⟩, rfl⟩
  refine FileSystem.makeDirs_clear h hway data ?_
  rw [FileSystem.remove, if_neg, hfile]
  intro hin
  have hle := hin.length_le
  have hle' := hpre.length_le
  simp only [FileSystem.key, List.length_map, List.length_append, List.length_cons,
    List.length_nil] at hle hle'
  omega

theorem emptyTmp_ok {root : Path} {id : Text} (name : Text) {fs : Files}
    (hclear : PathClear fold fs (root ++ [id])) :
    ∃ fs', emptyTmp fold fs (root ++ [id, name]) = .ok fs' ∧
      FileSystem.Folders fold fs' (root ++ [id, name]) ∧
      (∀ t, t ≠ [] → fs' (FileSystem.key fold (root ++ [id, name]) ++ t) = none) := by
  have hsplit : root ++ [id, name] = (root ++ [id]) ++ [name] := by simp
  have hway : ∀ q, FileSystem.OnTheWay fold [] (root ++ [id, name]) q → ∀ data,
      fs.remove fold (root ++ [id, name]) q ≠ some (.file data) := by
    rintro q ⟨r, hr, hpre, rfl⟩ data hfile
    simp only [FileSystem.remove, List.nil_append] at hfile
    split at hfile
    · cases hfile
    · rename_i hkept
      rw [hsplit] at hpre
      rcases FileSystem.prefix_append_cases hpre with hup | ⟨t, ht, htn, rfl⟩
      · exact hclear r hr hup data hfile
      · -- the folder itself has been removed
        obtain rfl : t = [name] := by
          rcases List.prefix_cons_iff.1 htn with rfl | ⟨t', rfl, ht'⟩
          · exact absurd rfl ht
          · rw [List.prefix_nil.1 ht']
        rw [← hsplit] at hkept
        exact hkept (List.prefix_refl _)
  obtain ⟨fs', hok, hdirs, hsame⟩ := FileSystem.makeDirs_ok hway
  refine ⟨fs', hok, ⟨by simp, ?_⟩, ?_⟩
  · intro r hr hpre
    exact hdirs _ ⟨r, hr, hpre, rfl⟩
  · intro t ht
    rw [hsame, FileSystem.remove, if_pos (List.prefix_append _ t)]
    rintro ⟨r, _, hpre, heq⟩
    have hlen := congrArg List.length heq
    have hle := hpre.length_le
    have hpos := List.length_pos_of_ne_nil ht
    simp only [FileSystem.key, List.nil_append, List.length_append, List.length_map] at hlen hle
    omega

include hfold in
/-- The folder of the version is replaced by the temporary one. -/
theorem replace_ok {root : Path} {id version : Text} {pid now : Nat} {fs : Files}
    (hfolders : ∀ r, r ≠ [] → r <+: tmpDir root id version pid now →
      fs (FileSystem.key fold r) = some .dir) :
    ∃ fs₁ fs₂, (fs.remove fold (dir root id version)).makeDirs fold []
        (dir root id version).dropLast = .ok fs₁ ∧
      fs₁.rename fold (tmpDir root id version pid now) (dir root id version) = .ok fs₂ := by
  have hdest : (dir root id version).dropLast = root ++ [id] := by
    rw [dir_eq, List.dropLast_concat]
  have htmp : root ++ [id] <+: tmpDir root id version pid now :=
    ⟨[tmpName version pid now], (dir_eq root id _).symm⟩
  -- what does not lie in the folder of the version is still there
  have hkept : ∀ r, r ≠ [] → r <+: tmpDir root id version pid now →
      fs.remove fold (dir root id version) (FileSystem.key fold r) = some .dir := by
    intro r hr hpre
    rw [FileSystem.remove, if_neg, hfolders r hr hpre]
    intro hin
    have hle := hin.length_le
    have hle' := hpre.length_le
    simp only [FileSystem.key, List.length_map, dir, tmpDir, List.length_append, List.length_cons,
      List.length_nil] at hle hle'
    obtain rfl : r = tmpDir root id version pid now := hpre.eq_of_length_le (by
      simp only [dir, tmpDir, List.length_append, List.length_cons, List.length_nil]
      omega)
    have hsame : FileSystem.key fold (dir root id version) =
        FileSystem.key fold (tmpDir root id version pid now) :=
      hin.eq_of_length (by simp [FileSystem.key, dir, tmpDir])
    rw [dir, tmpDir, dir, FileSystem.key_append, FileSystem.key_append] at hsame
    have hnames := List.append_cancel_left hsame
    have hlast : fold version = fold (tmpName version pid now) :=
      (List.cons.inj (List.cons.inj hnames).2).1
    -- the name of the temporary folder is longer
    have hlength := congrArg List.length (hfold _ _ hlast)
    simp only [lower, tmpName, List.length_map, List.length_append] at hlength
    have hmore : (".tmp-".toList).length = 5 := rfl
    omega
  have hway : ∀ q, FileSystem.OnTheWay fold [] (root ++ [id]) q → ∀ data,
      fs.remove fold (dir root id version) q ≠ some (.file data) := by
    rintro q ⟨r, hr, hpre, rfl⟩ data hfile
    rw [List.nil_append, hkept r hr (hpre.trans htmp)] at hfile
    cases hfile
  obtain ⟨fs₁, hmade, hdirs, hsame⟩ := FileSystem.makeDirs_ok hway
  rw [hdest]
  refine ⟨fs₁, ?_⟩
  have hlong : ∀ q, FileSystem.OnTheWay fold [] (root ++ [id]) q → q.length ≤ root.length + 1 := by
    rintro q ⟨r, _, hpre, rfl⟩
    have hle := hpre.length_le
    simpa [FileSystem.key] using hle
  have hsource : fs₁ (FileSystem.key fold (tmpDir root id version pid now)) = some .dir := by
    rw [hsame, hkept _ (by simp [tmpDir, dir]) (List.prefix_refl _)]
    intro hq
    have := hlong _ hq
    simp [FileSystem.key, tmpDir, dir] at this
  have htarget : fs₁ (FileSystem.key fold (dir root id version)) = none := by
    rw [hsame, FileSystem.remove, if_pos (List.prefix_refl _)]
    intro hq
    have := hlong _ hq
    simp [FileSystem.key, dir] at this
  have hparent : fs₁ (FileSystem.key fold (dir root id version).dropLast) = some .dir := by
    rw [hdest]
    exact hdirs _ ⟨root ++ [id], by simp, List.prefix_refl _, rfl⟩
  unfold FileSystem.rename
  rw [hsource, htarget, hparent]
  exact ⟨_, hmade, rfl⟩

include hfold in
/-- The whole of `extract`: the folder of the version holds the files and the description. -/
theorem extract_ok {files : OrderedMap Text Bytes} (h : WellFormed files) {root : Path}
    {id : Text} {fs : Files} (hclear : PathClear fold fs (root ++ [id])) (version : Text)
    (pid now : Nat) (entryDir : Text) (info : Bytes) :
    ∃ fs₁ fs₂ fs₃, emptyTmp fold fs (tmpDir root id version pid now) = .ok fs₁ ∧
      unpack fold (tmpDir root id version pid now) entryDir fs₁ files.entries = .ok fs₂ ∧
      FileSystem.Installed fold fs₁ fs₂ (tmpDir root id version pid now)
        (targets entryDir files.entries) ∧
      fs₂ (FileSystem.key fold (tmpDir root id version pid now ++ [readyFile])) = none ∧
      extract fold root id version pid now files entryDir info fs = .ok fs₃ := by
  obtain ⟨fs₁, hmade, hfolders₁, hempty⟩ :=
    emptyTmp_ok (tmpName version pid now) hclear
  obtain ⟨fs₂, hunpacked, hfolders₂, hinstalled, hfree⟩ := unpack_ok hfold h hfolders₁ hempty entryDir
  let tmp := tmpDir root id version pid now
  let dest := dir root id version
  let fs₃ : Files := fs₂.put (FileSystem.key fold (tmp ++ [readyFile])) (.file info)
  have hdescribed : fs₂.writeFile fold (tmp ++ [readyFile]) info false = .ok fs₃ := by
    refine FileSystem.writeFile_ok false ?_ hfree
    rw [List.dropLast_concat]
    exact hfolders₂.2 tmp hfolders₂.1 (List.prefix_refl tmp)
  have hfolders₃ : ∀ r, r ≠ [] → r <+: tmp → fs₃ (FileSystem.key fold r) = some .dir := by
    intro r hr hpre
    have hshort : FileSystem.key fold r ≠ FileSystem.key fold (tmp ++ [readyFile]) := by
      intro heq
      have hlen := congrArg List.length heq
      have hle := hpre.length_le
      simp only [FileSystem.key, List.length_map, List.length_append, List.length_singleton] at hlen
      omega
    show fs₂.put _ _ _ = _
    rw [FileSystem.put_ne _ _ hshort]
    exact hfolders₂.2 r hr hpre
  obtain ⟨fs₄, fs₅, hcleared, hmoved⟩ := replace_ok hfold hfolders₃
  refine ⟨fs₁, fs₂, fs₅, hmade, hunpacked, hinstalled, hfree, ?_⟩
  have hmade' : emptyTmp fold fs tmp = .ok fs₁ := hmade
  have hunpacked' : unpack fold tmp entryDir fs₁ files.entries = .ok fs₂ := hunpacked
  show ((emptyTmp fold fs tmp).mapError ExtractError.fs >>= fun fs =>
    unpack fold tmp entryDir fs files.entries >>= fun fs =>
      (fs.writeFile fold (tmp ++ [readyFile]) info false).mapError ExtractError.fs >>= fun fs =>
        ((fs.remove fold dest).makeDirs fold [] dest.dropLast).mapError ExtractError.fs >>= fun fs =>
          (fs.rename fold tmp dest).mapError ExtractError.fs) = _
  rw [hmade']
  show (unpack fold tmp entryDir fs₁ files.entries >>= _) = _
  rw [hunpacked']
  show ((fs₂.writeFile fold (tmp ++ [readyFile]) info false).mapError ExtractError.fs >>= _) = _
  rw [hdescribed]
  show (((fs₃.remove fold dest).makeDirs fold [] dest.dropLast).mapError ExtractError.fs >>= _) = _
  rw [hcleared]
  exact congrArg (Except.mapError ExtractError.fs) hmoved

end WellFormed

/-! ## The package format -/

/-- A well-formed package is read back as it was written; every package that is accepted is
well-formed, so once its temporary folder has been made it is unpacked there to the end. -/
theorem package_format {gzip : Bytes → Bytes} {gunzip : Nat → Bytes → Except GunzipError Bytes}
    (hgzip : Gzip gzip gunzip) {fold : Text → Text}
    (hfold : ∀ a b, fold a = fold b → lower a = lower b) :
    (∀ files, WellFormed files → ∃ buf, encode gzip files = .ok buf ∧
      (buf.length ≤ packageBytes →
        ∃ files', decode gunzip buf = .ok files' ∧ ∀ p, files'.get p = files.get p)) ∧
    ∀ buf files, decode gunzip buf = .ok files → WellFormed files ∧
      ∀ (root : Path) (id version : Text) (pid now : Nat) (entryDir : Text) (info : Bytes)
        (fs fs₁ : Files), emptyTmp fold fs (tmpDir root id version pid now) = .ok fs₁ →
        ∃ fs₂ fs₃, unpack fold (tmpDir root id version pid now) entryDir fs₁ files.entries =
            .ok fs₂ ∧
          FileSystem.Installed fold fs₁ fs₂ (tmpDir root id version pid now)
            (targets entryDir files.entries) ∧
          fs₂ (FileSystem.key fold (tmpDir root id version pid now ++ [readyFile])) = none ∧
          extract fold root id version pid now files entryDir info fs = .ok fs₃ := by
  refine ⟨fun files h => decode_encode hgzip h, ?_⟩
  intro buf files hbuf
  have hfiles := wellFormed_of_decode hbuf
  refine ⟨hfiles, ?_⟩
  intro root id version pid now entryDir info fs fs₁ hmade
  obtain ⟨fs₁', fs₂, fs₃, hmade', hrest⟩ :=
    extract_ok hfold hfiles (pathClear_of_emptyTmp hmade) version pid now entryDir info
  obtain rfl : fs₁' = fs₁ := Except.ok.inj (hmade'.symm.trans hmade)
  exact ⟨fs₂, fs₃, hrest⟩

section Sample

/-- A package with nothing but an empty manifest. -/
def sample : OrderedMap Text Bytes := OrderedMap.empty.set manifestFile [0x7b, 0x7d]

def sampleBuf : Bytes :=
  [31, 139, 8, 0, 0, 0, 0, 0, 0, 3, 115, 119, 14, 240, 9, 117, 247, 244, 99, 96, 100, 224, 46, 200,
    41, 77, 207, 204, 211, 203, 42, 206, 207, 99, 96, 96, 96, 170, 174, 101, 96, 0, 0, 87, 24, 83,
    94, 31, 0, 0, 0]

/-- The compressor on the sample; anything else gets a header without meaning. -/
def sampleGzip (raw : Bytes) : Bytes :=
  if raw = contents sample.entries then sampleBuf
  else [0x1f, 0x8b] ++ (List.replicate 18 0 ++ raw)

def sampleGunzip (max : Nat) (buf : Bytes) : Except GunzipError Bytes :=
  let raw := if buf = sampleBuf then contents sample.entries else buf.drop 20
  if max < raw.length then .error .tooLarge else .ok raw

theorem sampleGzip_ok : Gzip sampleGzip sampleGunzip := by
  refine ⟨?_, ?_, ?_⟩
  · intro raw max hroom
    unfold sampleGzip sampleGunzip
    by_cases hraw : raw = contents sample.entries
    · rw [if_pos hraw]
      simp only [if_true]
      rw [if_neg (by rw [← hraw]; omega), hraw]
    · rw [if_neg hraw]
      have hother : [0x1f, 0x8b] ++ (List.replicate 18 0 ++ raw) ≠ sampleBuf := by
        intro h
        have hthird := congrArg (fun l => l[2]?) h
        simp [sampleBuf, List.replicate] at hthird
      simp only [if_neg hother]
      rw [if_neg (by simpa using hroom)]
      simp
  · intro raw
    unfold sampleGzip
    split
    · exact ⟨rfl, rfl⟩
    · exact ⟨rfl, rfl⟩
  · intro raw
    unfold sampleGzip
    split
    · decide
    · simp only [List.length_append, List.length_cons, List.length_nil, List.length_replicate]
      omega

theorem package_format_manifest :
    encode sampleGzip sample = .ok sampleBuf ∧
      (∃ files, decode sampleGunzip sampleBuf = .ok files ∧
        ∀ p, files.get p = sample.get p) ∧
      ∃ fs, extract id ["data".toList, "edge".toList] "shelly".toList "1.0.0".toList 7 1000 sample
        "edge".toList [0x7b, 0x7d] (fun _ => none) = .ok fs := by
  have hread : decode sampleGunzip sampleBuf = .ok sample := by decide +kernel
  have hwritten : encode sampleGzip sample = .ok sampleBuf := by decide +kernel
  have hfold : ∀ a b : Text, id a = id b → lower a = lower b := fun _ _ h => congrArg lower h
  have hformat := package_format sampleGzip_ok hfold
  obtain ⟨hwell, hextract⟩ := hformat.2 sampleBuf sample hread
  refine ⟨hwritten, ?_, ?_⟩
  · obtain ⟨buf, hbuf, hback⟩ := hformat.1 sample hwell
    obtain rfl : sampleBuf = buf := Except.ok.inj (hwritten.symm.trans hbuf)
    exact hback (by decide)
  · have hclear : PathClear id (fun _ => none)
        (["data".toList, "edge".toList] ++ ["shelly".toList]) := by
      intro r _ _ data hfile
      cases hfile
    obtain ⟨fs₁, hmade, _⟩ := emptyTmp_ok (tmpName "1.0.0".toList 7 1000) hclear
    obtain ⟨_, fs₃, _, _, _, hdone⟩ := hextract _ _ _ _ _ "edge".toList [0x7b, 0x7d] _ fs₁ hmade
    exact ⟨fs₃, hdone⟩

end Sample

end PackageStore

end Edge
end GateControl
