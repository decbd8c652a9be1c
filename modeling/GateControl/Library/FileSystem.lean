import Mathlib.Data.List.Infix

/-!
# FileSystem — folders and files

A file system gives each path a folder, a file or nothing.  Paths are lists of names; two names are
the same to it if `fold` sends them to the same name, so that a file system that ignores case is
covered with one that does not.

* `makeDirs_ok`, `writeFile_ok`: when an operation succeeds, and what it leaves;
* `install_ok`: files of which none stands in another's way can all be written below an empty folder,
  and nothing outside it changes.
-/

namespace GateControl
namespace Library

universe u v

inductive Node (β : Type v)
  | dir
  | file (data : β)

/-- Why an operation fails. -/
inductive FsError
  | noEntry
  | notDirectory
  | isDirectory
  | alreadyExists
  deriving DecidableEq

abbrev FileSystem (ν : Type u) (β : Type v) := List ν → Option (Node β)

namespace FileSystem

variable {ν : Type u} {β : Type v} [DecidableEq ν] (fold : ν → ν)

/-- The path as the file system compares it. -/
def key (path : List ν) : List ν := path.map fold

def put (fs : FileSystem ν β) (path : List ν) (n : Node β) : FileSystem ν β :=
  fun q => if q = path then some n else fs q

/-- Make the folders below `base`, one in the other, that do not exist. -/
def makeDirs (fs : FileSystem ν β) (base : List ν) : List ν → Except FsError (FileSystem ν β)
  | [] => .ok fs
  | s :: rest =>
      let path := base ++ [s]
      match fs (key fold path) with
      | some (.file _) => .error .notDirectory
      | some .dir => makeDirs fs path rest
      | none => makeDirs (fs.put (key fold path) .dir) path rest

/-- Write a file into an existing folder; an `exclusive` write fails if there is one already. -/
def writeFile (fs : FileSystem ν β) (path : List ν) (data : β) (exclusive : Bool) :
    Except FsError (FileSystem ν β) :=
  match fs (key fold path.dropLast) with
  | none => .error .noEntry
  | some (.file _) => .error .notDirectory
  | some .dir =>
      match fs (key fold path) with
      | some .dir => .error (if exclusive then .alreadyExists else .isDirectory)
      | some (.file _) =>
          if exclusive then .error .alreadyExists else .ok (fs.put (key fold path) (.file data))
      | none => .ok (fs.put (key fold path) (.file data))

/-- Remove a file or a folder with what is in it. -/
def remove (fs : FileSystem ν β) (path : List ν) : FileSystem ν β :=
  fun q => if key fold path <+: q then none else fs q

/-- Move a folder with what is in it to a place where there is nothing. -/
def rename (fs : FileSystem ν β) (source target : List ν) : Except FsError (FileSystem ν β) :=
  match fs (key fold source), fs (key fold target), fs (key fold target.dropLast) with
  | none, _, _ => .error .noEntry
  | some _, some _, _ => .error .alreadyExists
  | some _, none, some .dir =>
      .ok fun q =>
        if key fold target <+: q then fs (key fold source ++ q.drop target.length)
        else if key fold source <+: q then none
        else fs q
  | some _, none, some (.file _) => .error .notDirectory
  | some _, none, none => .error .noEntry

/-! ## Single operations -/

variable {fold}

@[simp] theorem put_self (fs : FileSystem ν β) (path : List ν) (n : Node β) :
    fs.put path n path = some n := if_pos rfl

theorem put_ne (fs : FileSystem ν β) {path q : List ν} (n : Node β) (h : q ≠ path) :
    fs.put path n q = fs q := if_neg h

omit [DecidableEq ν] in
theorem key_append (p q : List ν) : key fold (p ++ q) = key fold p ++ key fold q :=
  List.map_append

omit [DecidableEq ν] in
theorem key_mono {p q : List ν} (h : p <+: q) : key fold p <+: key fold q := by
  rcases h with ⟨t, rfl⟩
  exact ⟨key fold t, (key_append p t).symm⟩

/-- `q` is one of the folders from `base`, itself left out, to `base ++ path`. -/
def OnTheWay (fold : ν → ν) (base path q : List ν) : Prop :=
  ∃ r, r ≠ [] ∧ r <+: path ∧ q = key fold (base ++ r)

/-- The folders on the way can be made if no file stands in it; nothing else changes. -/
theorem makeDirs_ok {base path : List ν} {fs : FileSystem ν β}
    (hclear : ∀ q, OnTheWay fold base path q → ∀ data, fs q ≠ some (.file data)) :
    ∃ fs', makeDirs fold fs base path = .ok fs' ∧
      (∀ q, OnTheWay fold base path q → fs' q = some .dir) ∧
      ∀ q, ¬ OnTheWay fold base path q → fs' q = fs q := by
  induction path generalizing fs base with
  | nil =>
      refine ⟨fs, rfl, ?_, fun _ _ => rfl⟩
      rintro q ⟨r, hne, hpre, _⟩
      exact absurd (List.prefix_nil.1 hpre) hne
  | cons s rest ih =>
      -- what lies on the rest of the way lies on the way
      have hfurther : ∀ q, OnTheWay fold (base ++ [s]) rest q → OnTheWay fold base (s :: rest) q := by
        rintro q ⟨r, hne, hpre, rfl⟩
        exact ⟨s :: r, List.cons_ne_nil s r, (List.prefix_cons_inj s).2 hpre, by simp⟩
      have hcases : ∀ q, OnTheWay fold base (s :: rest) q →
          q = key fold (base ++ [s]) ∨ OnTheWay fold (base ++ [s]) rest q := by
        rintro q ⟨r, hne, hpre, rfl⟩
        cases r with
        | nil =>
            exact absurd rfl hne
        | cons t r =>
            obtain ⟨rfl, hrest⟩ := List.cons_prefix_cons.1 hpre
            cases r with
            | nil =>
                exact .inl rfl
            | cons t' r =>
                exact .inr ⟨t' :: r, List.cons_ne_nil t' r, hrest, by simp⟩
      have hfirst : OnTheWay fold base (s :: rest) (key fold (base ++ [s])) :=
        ⟨[s], List.cons_ne_nil s [], (List.prefix_cons_inj s).2 (List.nil_prefix), rfl⟩
      unfold makeDirs
      simp only
      cases hnode : fs (key fold (base ++ [s])) with
      | some n =>
          cases n with
          | file data =>
              exact absurd hnode (hclear _ hfirst data)
          | dir =>
              obtain ⟨fs', hok, hdirs, hsame⟩ := ih fun q hq => hclear q (hfurther q hq)
              refine ⟨fs', hok, ?_, fun q hq => hsame q fun h => hq (hfurther q h)⟩
              intro q hq
              by_cases hrest : OnTheWay fold (base ++ [s]) rest q
              · exact hdirs q hrest
              · obtain rfl := (hcases q hq).resolve_right hrest
                rw [hsame _ hrest, hnode]
      | none =>
          have hput : ∀ q, OnTheWay fold (base ++ [s]) rest q → ∀ data,
              fs.put (key fold (base ++ [s])) .dir q ≠ some (.file data) := by
            intro q hq data
            by_cases heq : q = key fold (base ++ [s])
            · rw [heq, put_self]
              intro h
              cases h
            · rw [put_ne _ _ heq]
              exact hclear q (hfurther q hq) data
          obtain ⟨fs', hok, hdirs, hsame⟩ := ih hput
          refine ⟨fs', hok, ?_, ?_⟩
          · intro q hq
            by_cases hrest : OnTheWay fold (base ++ [s]) rest q
            · exact hdirs q hrest
            · obtain rfl := (hcases q hq).resolve_right hrest
              rw [hsame _ hrest, put_self]
          · intro q hq
            rw [hsame q fun h => hq (hfurther q h), put_ne]
            rintro rfl
            exact hq hfirst

/-- Conversely, where all folders have been made no file stood in the way. -/
theorem makeDirs_clear {base path : List ν} {fs fs' : FileSystem ν β}
    (h : makeDirs fold fs base path = .ok fs') {q : List ν} (hq : OnTheWay fold base path q)
    (data : β) : fs q ≠ some (.file data) := by
  induction path generalizing fs base with
  | nil =>
      rcases hq with ⟨r, hne, hpre, _⟩
      exact absurd (List.prefix_nil.1 hpre) hne
  | cons s rest ih =>
      unfold makeDirs at h
      simp only at h
      rcases hq with ⟨r, hne, hpre, rfl⟩
      cases r with
      | nil =>
          exact absurd rfl hne
      | cons t r =>
          obtain ⟨rfl, hrest⟩ := List.cons_prefix_cons.1 hpre
          intro hfile
          cases hnode : fs (key fold (base ++ [t])) with
          | none =>
              rw [hnode] at h
              cases r with
              | nil =>
                  rw [hnode] at hfile
                  cases hfile
              | cons t' r =>
                  refine ih h ⟨t' :: r, List.cons_ne_nil t' r, hrest, by simp⟩ ?_
                  rw [put_ne _ _ ?_, hfile]
                  intro heq
                  have hlen := congrArg List.length heq
                  simp [key] at hlen
          | some n =>
              cases n with
              | file d =>
                  rw [hnode] at h
                  cases h
              | dir =>
                  rw [hnode] at h
                  cases r with
                  | nil =>
                      rw [hnode] at hfile
                      cases hfile
                  | cons t' r =>
                      exact ih h ⟨t' :: r, List.cons_ne_nil t' r, hrest, by simp⟩ hfile

/-- A file is written where there is nothing, in a folder that is there. -/
theorem writeFile_ok {fs : FileSystem ν β} {path : List ν} {data : β} (exclusive : Bool)
    (hparent : fs (key fold path.dropLast) = some .dir) (hfree : fs (key fold path) = none) :
    writeFile fold fs path data exclusive = .ok (fs.put (key fold path) (.file data)) := by
  simp only [writeFile, hparent, hfree]

/-! ## Many files below one folder -/

/-- Write files below a folder, each with the folders it stands in. -/
def install (fold : ν → ν) (fs : FileSystem ν β) (base : List ν) :
    List (List ν × β) → Except FsError (FileSystem ν β)
  | [] => .ok fs
  | f :: files => do
      let fs ← makeDirs fold fs [] (base ++ f.1).dropLast
      let fs ← writeFile fold fs (base ++ f.1) f.2 true
      install fold fs base files

/-- None of the two stands in the other's way. -/
def Apart (fold : ν → ν) (f g : List ν × β) : Prop :=
  ¬ key fold f.1 <+: key fold g.1 ∧ ¬ key fold g.1 <+: key fold f.1

/-- Below `base` there are these files and the folders they stand in, elsewhere nothing has
changed. -/
structure Installed (fold : ν → ν) (fs₀ fs : FileSystem ν β) (base : List ν)
    (files : List (List ν × β)) : Prop where
  outside : ∀ q, (∀ t, t ≠ [] → q ≠ key fold base ++ t) → fs q = fs₀ q
  file : ∀ f ∈ files, fs (key fold (base ++ f.1)) = some (.file f.2)
  file_of : ∀ t, t ≠ [] → ∀ data, fs (key fold base ++ t) = some (.file data) →
    ∃ f ∈ files, t = key fold f.1
  dir_of : ∀ t, t ≠ [] → fs (key fold base ++ t) = some .dir →
    ∃ f ∈ files, t <+: key fold f.1

/-- The folder and those it stands in are there. -/
def Folders (fold : ν → ν) (fs : FileSystem ν β) (base : List ν) : Prop :=
  base ≠ [] ∧ ∀ r, r ≠ [] → r <+: base → fs (key fold r) = some .dir

omit [DecidableEq ν] in
theorem prefix_append_cases {r a b : List ν} (h : r <+: a ++ b) :
    r <+: a ∨ ∃ t, t ≠ [] ∧ t <+: b ∧ r = a ++ t := by
  rcases List.prefix_or_prefix_of_prefix h (List.prefix_append a b) with hra | ⟨t, rfl⟩
  · exact .inl hra
  · cases t with
    | nil =>
        rw [List.append_nil]
        exact .inl (List.prefix_refl a)
    | cons s t =>
        exact .inr ⟨s :: t, List.cons_ne_nil s t, (List.prefix_append_right_inj a).1 h, rfl⟩

omit [DecidableEq ν] in
/-- A place strictly below `base` on the way to a file. -/
theorem onTheWay_below {base p : List ν} {q : List ν}
    (h : OnTheWay fold [] (base ++ p) q) :
    (∃ r, r ≠ [] ∧ r <+: base ∧ q = key fold r) ∨
      ∃ t, t ≠ [] ∧ t <+: p ∧ q = key fold base ++ key fold t := by
  rcases h with ⟨r, hne, hpre, rfl⟩
  rcases prefix_append_cases hpre with hbase | ⟨t, ht, htp, rfl⟩
  · exact .inl ⟨r, hne, hbase, rfl⟩
  · exact .inr ⟨t, ht, htp, by rw [List.nil_append, key_append]⟩

omit [DecidableEq ν] in
theorem key_ne_nil {p : List ν} (h : p ≠ []) : key fold p ≠ [] := by
  simpa [key] using h

omit [DecidableEq ν] in
/-- The folders of a file that are below `base` are above the file. -/
theorem onTheWay_above {base p t : List ν} (hp : p ≠ []) (ht : t ≠ [])
    (hq : OnTheWay fold [] (base ++ p.dropLast) (key fold base ++ t)) :
    t <+: key fold p ∧ t ≠ key fold p := by
  rcases onTheWay_below hq with ⟨r, _, hr, heq⟩ | ⟨t', _, ht', heq⟩
  · have hlen := congrArg List.length heq
    have hle := hr.length_le
    have hpos := List.length_pos_of_ne_nil ht
    simp only [key, List.length_append, List.length_map] at hlen
    omega
  · obtain rfl := List.append_cancel_left heq
    refine ⟨key_mono (ht'.trans (List.dropLast_prefix p)), ?_⟩
    intro hsame
    have hlen := congrArg List.length hsame
    have hle := ht'.length_le
    have hpos := List.length_pos_of_ne_nil hp
    simp only [key, List.length_map, List.length_dropLast] at hlen hle
    omega

section
variable {fs₀ fs : FileSystem ν β} {base : List ν} {done : List (List ν × β)} {f : List ν × β}

omit [DecidableEq ν] in
/-- No file stands in the way of the folders of one more file. -/
theorem Installed.clear (hdone : Installed fold fs₀ fs base done) (hbase : Folders fold fs base)
    (hapart : ∀ g ∈ done, Apart fold g f) :
    ∀ q, OnTheWay fold [] (base ++ f.1.dropLast) q → ∀ data, fs q ≠ some (.file data) := by
  intro q hq data hfile
  rcases onTheWay_below hq with ⟨r, hr, hrb, rfl⟩ | ⟨t, ht, htp, rfl⟩
  · rw [hbase.2 r hr hrb] at hfile
    cases hfile
  · rcases hdone.file_of _ (key_ne_nil ht) data hfile with ⟨g, hg, hsame⟩
    exact (hapart g hg).1 (hsame ▸ key_mono (htp.trans (List.dropLast_prefix f.1)))

omit [DecidableEq ν] in
/-- Its own place is free. -/
theorem Installed.free (hdone : Installed fold fs₀ fs base done) (hne : f.1 ≠ [])
    (hapart : ∀ g ∈ done, Apart fold g f) : fs (key fold base ++ key fold f.1) = none := by
  cases hnode : fs (key fold base ++ key fold f.1) with
  | none =>
      rfl
  | some n =>
      cases n with
      | dir =>
          rcases hdone.dir_of _ (key_ne_nil hne) hnode with ⟨g, hg, hpre⟩
          exact absurd hpre (hapart g hg).2
      | file data =>
          rcases hdone.file_of _ (key_ne_nil hne) data hnode with ⟨g, hg, heq⟩
          exact absurd (heq ▸ List.prefix_refl _) (hapart g hg).1

/-- With its folders made and the file written, there is one file more. -/
theorem Installed.add {fs₁ : FileSystem ν β} (hdone : Installed fold fs₀ fs base done)
    (hbase : Folders fold fs base) (hne : f.1 ≠ []) (hapart : ∀ g ∈ done, Apart fold g f)
    (hdirs : ∀ q, OnTheWay fold [] (base ++ f.1.dropLast) q → fs₁ q = some .dir)
    (hsame : ∀ q, ¬ OnTheWay fold [] (base ++ f.1.dropLast) q → fs₁ q = fs q) :
    Installed fold fs₀ (fs₁.put (key fold (base ++ f.1)) (.file f.2)) base (done ++ [f]) := by
  have hkey : key fold (base ++ f.1) = key fold base ++ key fold f.1 := key_append base f.1
  refine ⟨?_, ?_, ?_, ?_⟩
  · intro q hq
    rw [put_ne _ _ (hkey ▸ hq _ (key_ne_nil hne)), ← hdone.outside q hq]
    by_cases hqw : OnTheWay fold [] (base ++ f.1.dropLast) q
    · rcases onTheWay_below hqw with ⟨r, hr, hrb, rfl⟩ | ⟨t, ht, _, rfl⟩
      · rw [hdirs _ hqw, hbase.2 r hr hrb]
      · exact absurd rfl (hq _ (key_ne_nil ht))
    · exact hsame q hqw
  · intro g hg
    rcases List.mem_append.1 hg with hold | hnew
    · have hother : key fold (base ++ g.1) ≠ key fold (base ++ f.1) := by
        intro heq
        rw [key_append, key_append] at heq
        exact (hapart g hold).1 (List.append_cancel_left heq ▸ List.prefix_refl _)
      have hfile := hdone.file g hold
      rw [put_ne _ _ hother, hsame _ fun h => hdone.clear hbase hapart _ h g.2 hfile, hfile]
    · rw [List.mem_singleton.1 hnew, put_self]
  · intro t ht data hfile
    by_cases heq : key fold base ++ t = key fold (base ++ f.1)
    · rw [hkey] at heq
      exact ⟨f, by simp, List.append_cancel_left heq⟩
    · rw [put_ne _ _ heq] at hfile
      by_cases htw : OnTheWay fold [] (base ++ f.1.dropLast) (key fold base ++ t)
      · rw [hdirs _ htw] at hfile
        cases hfile
      · rw [hsame _ htw] at hfile
        rcases hdone.file_of t ht data hfile with ⟨g, hg, hgt⟩
        exact ⟨g, List.mem_append_left _ hg, hgt⟩
  · intro t ht hdir
    by_cases htw : OnTheWay fold [] (base ++ f.1.dropLast) (key fold base ++ t)
    · exact ⟨f, by simp, (onTheWay_above hne ht htw).1⟩
    · have hother : key fold base ++ t ≠ key fold (base ++ f.1) := by
        intro heq
        rw [heq, put_self] at hdir
        cases hdir
      rw [put_ne _ _ hother, hsame _ htw] at hdir
      rcases hdone.dir_of t ht hdir with ⟨g, hg, hpre⟩
      exact ⟨g, List.mem_append_left _ hg, hpre⟩

/-- The folders of a file below `base`, and then the file. -/
theorem install_one (hbase : Folders fold fs base) (hdone : Installed fold fs₀ fs base done)
    (hne : f.1 ≠ []) (hapart : ∀ g ∈ done, Apart fold g f) :
    ∃ fs₁ fs₂, makeDirs fold fs [] (base ++ f.1).dropLast = .ok fs₁ ∧
      writeFile fold fs₁ (base ++ f.1) f.2 true = .ok fs₂ ∧ Folders fold fs₂ base ∧
      Installed fold fs₀ fs₂ base (done ++ [f]) := by
  have hdrop : (base ++ f.1).dropLast = base ++ f.1.dropLast := List.dropLast_append_of_ne_nil hne
  obtain ⟨fs₁, hmade, hdirs, hsame⟩ := makeDirs_ok (hdone.clear hbase hapart)
  have hparent : fs₁ (key fold (base ++ f.1).dropLast) = some .dir := by
    rw [hdrop]
    refine hdirs _ ⟨base ++ f.1.dropLast, ?_, List.prefix_refl _, rfl⟩
    exact List.append_ne_nil_of_left_ne_nil hbase.1 _
  have hfree : fs₁ (key fold (base ++ f.1)) = none := by
    rw [key_append, hsame _ fun h => (onTheWay_above hne (key_ne_nil hne) h).2 rfl]
    exact hdone.free hne hapart
  refine ⟨fs₁, fs₁.put (key fold (base ++ f.1)) (.file f.2), hdrop ▸ hmade,
    writeFile_ok true hparent hfree, ⟨hbase.1, ?_⟩, hdone.add hbase hne hapart hdirs hsame⟩
  intro r hr hrb
  -- the file is written below the folders of `base`
  have hshort : key fold r ≠ key fold (base ++ f.1) := by
    intro heq
    have hlen := congrArg List.length heq
    have hle := hrb.length_le
    have hpos := List.length_pos_of_ne_nil hne
    simp only [key, List.length_map, List.length_append] at hlen
    omega
  rw [put_ne _ _ hshort]
  exact hdirs _ ⟨r, hr, hrb.trans (List.prefix_append _ _), rfl⟩

end

/-- Files of which none stands in another's way are all written. -/
theorem install_ok {fs₀ : FileSystem ν β} {base : List ν} {files done : List (List ν × β)}
    {fs : FileSystem ν β} (hbase : Folders fold fs base)
    (hdone : Installed fold fs₀ fs base done) (hne : ∀ f ∈ files, f.1 ≠ [])
    (hapart : (done ++ files).Pairwise (Apart fold)) :
    ∃ fs', install fold fs base files = .ok fs' ∧ Folders fold fs' base ∧
      Installed fold fs₀ fs' base (done ++ files) := by
  induction files generalizing fs done with
  | nil =>
      exact ⟨fs, rfl, hbase, (List.append_nil done).symm ▸ hdone⟩
  | cons f files ih =>
      have hwith := List.pairwise_append.1 hapart
      obtain ⟨fs₁, fs₂, hmade, hwritten, hbase₂, hdone₂⟩ :=
        install_one hbase hdone (hne f List.mem_cons_self)
          fun g hg => hwith.2.2 g hg f List.mem_cons_self
      rw [List.append_cons] at hapart ⊢
      obtain ⟨fs', hok, hrest⟩ :=
        ih hbase₂ hdone₂ (fun g hg => hne g (List.mem_cons_of_mem _ hg)) hapart
      refine ⟨fs', ?_, hrest⟩
      rw [install, hmade]
      show (writeFile fold fs₁ (base ++ f.1) f.2 true >>= _) = _
      rw [hwritten]
      exact hok

end FileSystem

end Library
end GateControl
