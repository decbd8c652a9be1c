import GateControl.Library.OrderedMap
import GateControl.Library.Utf8

/-!
# PackageFormat — plugin packages as bytes

A package is a compressed row of entries, each with its path and its content.  `encode` writes one,
`decode` reads bytes that come from outside: it checks every path, all limits, and that no two
entries get into each other's way.

* `decode_encode`: what is well formed is read back as it was written;
* `wellFormed_of_decode`: what is accepted is well formed.
-/

namespace GateControl
namespace Edge

open Library

namespace Gcplugin

def packageBytes : Nat := 20 * 1024 * 1024

def unpackedBytes : Nat := 50 * 1024 * 1024

def fileCount : Nat := 1000

def pathLength : Nat := 200

def pathDepth : Nat := 12

structure PackageError where
  code : String
  message : Text
  deriving DecidableEq

/-! ## Paths -/

/-- `/[A-Za-z0-9_-]/` -/
def isSegmentStart (c : Char) : Bool := c.isAlphanum || c == '_' || c == '-'

/-- `SEGMENT_RE` -/
def isSegment : Text → Bool
  | [] => false
  | c :: cs => isSegmentStart c && cs.length ≤ 99 && cs.all fun d => isSegmentStart d || d == '.'

def segments (p : Text) : List Text := p.splitOn '/'

def join (segs : List Text) : Text := ['/'].intercalate segs

def badPath (p : Text) : PackageError := ⟨"bad_path", "invalid path: ".toList ++ p⟩

def checkPath (p : Text) : Except PackageError Text :=
  if p = [] ∨ pathLength < jsLength p then .error ⟨"bad_path", "invalid path".toList⟩
  else if p.head? = some '/' ∨ '\\' ∈ p ∨ Char.ofNat 0 ∈ p then .error (badPath p)
  else if pathDepth < (segments p).length then
    .error ⟨"bad_path", "path too deep: ".toList ++ p⟩
  else if (segments p).any fun s => s = ['.'] || s = ['.', '.'] || !isSegment s then
    .error (badPath p)
  else .ok p

/-- `toLowerCase` of a checked path, which is ASCII. -/
def lower (p : Text) : Text := p.map asciiLower

/-! ## Writing -/

/-- The order of texts by their code units. -/
def notAfter (a b : Text) : Bool := codeUnits a ≤ codeUnits b

/-- One entry; a content of four gigabytes is out of the question. -/
def entryBytes (e : Text × Bytes) : Bytes :=
  uint16BE (utf8Bytes e.1).length ++ utf8Bytes e.1 ++ (uint32BE e.2.length ++ e.2)

def magic : Bytes := [0x47, 0x43, 0x50, 0x4c, 0x55, 0x47, 0x49, 0x4e, 0x00, 0x01]

/-- The package before compression. -/
def contents (es : List (Text × Bytes)) : Bytes := magic ++ (es.flatMap entryBytes ++ [0, 0])

section Encode

variable (gzip : Bytes → Bytes)

def sorted (es : List (Text × Bytes)) : List (Text × Bytes) :=
  es.mergeSort fun a b => notAfter a.1 b.1

def encode (files : OrderedMap Text Bytes) : Except PackageError Bytes := do
  let es ← files.entries.mapM fun e => (checkPath e.1).map fun p => (p, e.2)
  return gzip (contents (sorted es))

end Encode

/-! ## Reading -/

/-- How the decompression of a package ends without a result. -/
inductive GunzipError
  | tooLarge
  | other

/-- The decoder between two entries: the place in the buffer, the bytes so far, the files, and their
paths in lower case. -/
structure Reading where
  off : Nat
  total : Nat
  files : OrderedMap Text Bytes
  seen : OrderedSet Text

/-- The decoder behind the magic bytes. -/
def Reading.first : Reading := ⟨magic.length, 0, .empty, .empty⟩

def damaged : PackageError := ⟨"corrupt", "package is damaged".toList⟩

def notAPackage : PackageError := ⟨"not_a_package", "not a .gcplugin file".toList⟩

def tooLargeUnpacked : PackageError := ⟨"too_large", "package too large when unpacked".toList⟩

/-- The rest of an entry, behind the length of its path. -/
def readEntry (raw : Bytes) (r : Reading) (nameLen : Nat) : Except PackageError Reading :=
  if pathLength < nameLen ∨ raw.length < r.off + nameLen + 4 then .error damaged
  else
    let name := utf8 (slice raw r.off (r.off + nameLen))
    match checkPath name with
    | .error e => .error e
    | .ok _ =>
        match readUInt32BE raw (r.off + nameLen) with
        -- it lies inside the buffer
        | none => .error damaged
        | some size =>
            let off := r.off + nameLen + 4
            if raw.length < off + size then .error damaged
            else if unpackedBytes < r.total + size then .error tooLargeUnpacked
            else if r.seen.has (lower name) then
              .error ⟨"duplicate", "duplicate path: ".toList ++ name⟩
            else
              let files := r.files.set name (slice raw off (off + size))
              if fileCount < files.size then
                .error ⟨"too_many_files", "too many files".toList⟩
              else .ok ⟨off + size, r.total + size, files, r.seen.add (lower name)⟩

/-- The loop over the entries; each takes at least one byte of the fuel. -/
def readEntries (raw : Bytes) : Nat → Reading → Except PackageError Reading
  | 0, _ => .error damaged
  | fuel + 1, r =>
      match readUInt16BE raw r.off with
      | none => .error damaged
      | some nameLen =>
          if nameLen = 0 then .ok { r with off := r.off + 2 }
          else
            match readEntry raw { r with off := r.off + 2 } nameLen with
            | .error e => .error e
            | .ok r' => readEntries raw fuel r'

/-- One of the folders of this file is a file, too. -/
def collides (seen : OrderedSet Text) (name : Text) : Bool :=
  (List.range' 1 ((segments name).length - 1)).any fun i =>
    seen.has (lower (join ((segments name).take i)))

/-- The check of what has been decompressed. -/
def decodeRaw (raw : Bytes) : Except PackageError (OrderedMap Text Bytes) :=
  if raw.length < magic.length + 2 ∨ slice raw 0 magic.length ≠ magic then .error notAPackage
  else
    match readEntries raw raw.length .first with
    | .error e => .error e
    | .ok r =>
        if r.off ≠ raw.length then
          .error ⟨"corrupt", "trailing data after the package end".toList⟩
        else
          match r.files.keys.find? (collides r.seen) with
          | some name =>
              .error ⟨"bad_path", "file and folder of the same name: ".toList ++ name⟩
          | none => .ok r.files

section Decode

-- the decompressor, with the most bytes it may return
variable (gunzip : Nat → Bytes → Except GunzipError Bytes)

def maxOutputLength : Nat := unpackedBytes + 64 * 1024 + fileCount * (pathLength + 6)

def decode (buf : Bytes) : Except PackageError (OrderedMap Text Bytes) :=
  if buf.length < 20 then .error notAPackage
  else if packageBytes < buf.length then .error ⟨"too_large", "package too large".toList⟩
  else if buf[0]? ≠ some 0x1f ∨ buf[1]? ≠ some 0x8b then .error notAPackage
  else
    match gunzip maxOutputLength buf with
    | .error .tooLarge => .error tooLargeUnpacked
    | .error .other => .error damaged
    | .ok raw => decodeRaw raw

end Decode

/-! ## Well-formed packages -/

/-- `p` is a folder on the way to `q`, regardless of case. -/
def Above (p q : Text) : Prop :=
  ∃ below, below ≠ [] ∧ segments (lower q) = segments (lower p) ++ below

structure WellFormed (files : OrderedMap Text Bytes) : Prop where
  checked : ∀ p ∈ files.keys, checkPath p = .ok p
  distinct : ∀ p ∈ files.keys, ∀ q ∈ files.keys, lower p = lower q → p = q
  apart : ∀ p ∈ files.keys, ∀ q ∈ files.keys, ¬ Above p q
  count : files.size ≤ fileCount
  total : files.sumOf List.length ≤ unpackedBytes

/-! ## Paths that pass the check -/

variable {p : Text} {c : Char}

/-- A path that passes the check. -/
structure GoodPath (p : Text) : Prop where
  nonempty : p ≠ []
  length : jsLength p ≤ pathLength
  depth : (segments p).length ≤ pathDepth
  segment : ∀ s ∈ segments p, isSegment s = true
  notDots : ∀ s ∈ segments p, s ≠ ['.'] ∧ s ≠ ['.', '.']

theorem goodPath_of_checkPath {q : Text} (h : checkPath p = .ok q) : q = p ∧ GoodPath p := by
  unfold checkPath at h
  split at h
  · cases h
  · rename_i hlength
    split at h
    · cases h
    · split at h
      · cases h
      · rename_i hdepth
        split at h
        · cases h
        · rename_i hsegs
          cases h
          simp only [not_or, Nat.not_lt] at hlength hdepth
          have hall : ∀ s ∈ segments p, s ≠ ['.'] ∧ s ≠ ['.', '.'] ∧ isSegment s = true := by
            simpa [not_or, and_assoc] using hsegs
          exact ⟨rfl, hlength.1, hlength.2, hdepth, fun s hs => (hall s hs).2.2,
            fun s hs => ⟨(hall s hs).1, (hall s hs).2.1⟩⟩

theorem isAscii_of_isSegmentStart (h : isSegmentStart c = true) : isAscii c = true := by
  delta isSegmentStart Char.isAlphanum Char.isAlpha Char.isUpper Char.isLower Char.isDigit at h
  simp only [Bool.or_eq_true, Bool.and_eq_true, decide_eq_true_eq, beq_iff_eq] at h
  simp only [isAscii, decide_eq_true_eq]
  rcases h with ((((hupper | hlower) | hdigit) | rfl) | rfl)
  · have hle : c.toNat ≤ 90 := hupper.2
    omega
  · have hle : c.toNat ≤ 122 := hlower.2
    omega
  · have hle : c.toNat ≤ 57 := hdigit.2
    omega
  · decide
  · decide

theorem char_of_isSegment {s : Text} (h : isSegment s = true) (hc : c ∈ s) :
    isSegmentStart c = true ∨ c = '.' := by
  cases s with
  | nil =>
      cases hc
  | cons d cs =>
      simp only [isSegment, Bool.and_eq_true, List.all_eq_true] at h
      rcases List.mem_cons.1 hc with rfl | hc
      · exact .inl h.1.1
      · have hcase := h.2 c hc
        rw [Bool.or_eq_true, beq_iff_eq] at hcase
        exact hcase

theorem GoodPath.char (hp : GoodPath p) (hc : c ∈ p) :
    isSegmentStart c = true ∨ c = '.' ∨ c = '/' := by
  rcases mem_splitOn '/' hc with rfl | ⟨s, hs, hcs⟩
  · exact .inr (.inr rfl)
  · rcases char_of_isSegment (hp.segment s hs) hcs with hstart | hdot
    · exact .inl hstart
    · exact .inr (.inl hdot)

theorem GoodPath.ascii (hp : GoodPath p) : ∀ c ∈ p, isAscii c := by
  intro c hc
  rcases hp.char hc with hstart | rfl | rfl
  · exact isAscii_of_isSegmentStart hstart
  · decide
  · decide

theorem GoodPath.newline (hp : GoodPath p) : '\n' ∉ p := by
  intro hc
  rcases hp.char hc with hstart | hdot | hslash
  · exact absurd hstart (by decide)
  · cases hdot
  · cases hslash

theorem length_codeUnits_of_ascii (h : ∀ c ∈ p, isAscii c) : jsLength p = p.length := by
  rw [jsLength, codeUnits_of_ascii h, List.length_map]

theorem GoodPath.length_bytes (hp : GoodPath p) :
    0 < (utf8Bytes p).length ∧ (utf8Bytes p).length ≤ pathLength := by
  rw [length_utf8Bytes_of_ascii hp.ascii, ← length_codeUnits_of_ascii hp.ascii]
  refine ⟨?_, hp.length⟩
  rw [length_codeUnits_of_ascii hp.ascii]
  exact List.length_pos_of_ne_nil hp.nonempty

/-! ## Lower case -/

private theorem toNat_ofNat_small {n : Nat} (hn : n < 128) : (Char.ofNat n).toNat = n := by
  have hall : ((List.range 128).all fun n => decide ((Char.ofNat n).toNat = n)) = true := by
    decide
  exact of_decide_eq_true (List.all_eq_true.1 hall n (List.mem_range.2 hn))

/-- Only letters are changed, and into letters. -/
theorem eq_of_asciiLower_eq {d : Char} (hd : d.toNat < 97) (h : asciiLower c = d) : c = d := by
  unfold asciiLower at h
  split at h
  · rename_i hupper
    have hlow : 65 ≤ c.toNat := hupper.1
    have hhigh : c.toNat ≤ 90 := hupper.2
    have hval := toNat_ofNat_small (n := c.toNat + 32) (by omega)
    rw [h] at hval
    omega
  · exact h

theorem segments_ne_nil (p : Text) : segments p ≠ [] := List.splitOn_ne_nil '/' p

theorem join_segments (p : Text) : join (segments p) = p := List.intercalate_splitOn '/'

theorem segments_join {segs : List Text} (hne : segs ≠ []) (hslash : ∀ s ∈ segs, '/' ∉ s) :
    segments (join segs) = segs :=
  List.splitOn_intercalate '/' hslash hne

theorem lower_join (segs : List Text) : lower (join segs) = join (segs.map lower) := by
  induction segs with
  | nil =>
      rfl
  | cons s segs ih =>
      cases segs with
      | nil =>
          simp [join, List.intercalate_singleton]
      | cons t segs =>
          simp only [join, lower, List.map_cons, List.intercalate_cons_cons, List.map_append] at ih ⊢
          rw [ih]
          rfl

/-- Lower case keeps the segments apart. -/
theorem segments_lower (p : Text) : segments (lower p) = (segments p).map lower := by
  conv_lhs => rw [← join_segments p, lower_join]
  refine segments_join ?_ ?_
  · simpa using segments_ne_nil p
  · intro s hs
    obtain ⟨t, ht, rfl⟩ := List.mem_map.1 hs
    intro hmem
    obtain ⟨c, hc, heq⟩ := List.mem_map.1 hmem
    exact not_mem_of_mem_splitOn '/' p t ht (eq_of_asciiLower_eq (by decide) heq ▸ hc)

/-- A folder on the way is a leading part of the segments. -/
theorem above_iff {q : Text} :
    Above p q ↔ ∃ i, 1 ≤ i ∧ i < (segments q).length ∧
      lower (join ((segments q).take i)) = lower p := by
  have hlength : ∀ t, (segments (lower t)).length = (segments t).length := by
    intro t
    rw [segments_lower, List.length_map]
  constructor
  · rintro ⟨below, hbelow, heq⟩
    -- as many segments as the folder has
    have hlen := congrArg List.length heq
    rw [List.length_append, hlength, hlength] at hlen
    have hpos := List.length_pos_of_ne_nil hbelow
    have hpos' := List.length_pos_of_ne_nil (segments_ne_nil p)
    refine ⟨(segments p).length, hpos', by omega, ?_⟩
    have htake : ((segments q).take (segments p).length).map lower = segments (lower p) := by
      rw [List.map_take, ← segments_lower, heq, ← hlength p, List.take_left]
    rw [lower_join, htake, join_segments]
  · rintro ⟨i, hi, hlt, heq⟩
    refine ⟨((segments q).drop i).map lower, ?_, ?_⟩
    · intro hnil
      have hlen := congrArg List.length hnil
      rw [List.length_map, List.length_drop, List.length_nil] at hlen
      omega
    · have hne : (segments q).take i ≠ [] := by
        intro hnil
        have hlen := congrArg List.length hnil
        rw [List.length_take, List.length_nil] at hlen
        omega
      -- the segments have no slash, so the row of the first ones is split into them again
      have hslash : ∀ t ∈ (segments q).take i, '/' ∉ t := fun t ht =>
        not_mem_of_mem_splitOn '/' q t (List.mem_of_mem_take ht)
      rw [← heq, segments_lower, segments_lower, segments_join hne hslash, ← List.map_append,
        List.take_append_drop]

/-! ## What is accepted -/

variable {raw : Bytes} {r r' : Reading} {es : List (Text × Bytes)} {files : OrderedMap Text Bytes}

/-- What holds of the decoder between two entries. -/
structure Reading.Good (r : Reading) : Prop where
  checked : ∀ p ∈ r.files.keys, checkPath p = .ok p
  seen : ∀ s, s ∈ r.seen.keys ↔ ∃ p ∈ r.files.keys, lower p = s
  distinct : ∀ p ∈ r.files.keys, ∀ q ∈ r.files.keys, lower p = lower q → p = q
  count : r.files.size ≤ fileCount
  total : r.total = r.files.sumOf List.length
  bound : r.total ≤ unpackedBytes

/-- One entry more. -/
def Reading.add (r : Reading) (name : Text) (data : Bytes) (off : Nat) : Reading :=
  ⟨off, r.total + data.length, r.files.set name data, r.seen.add (lower name)⟩

/-- What an entry adds. -/
theorem readEntry_ok {nameLen : Nat} (h : readEntry raw r nameLen = .ok r') :
    ∃ name data, r' = r.add name data r'.off ∧ checkPath name = .ok name ∧
      r.total + data.length ≤ unpackedBytes ∧ lower name ∉ r.seen.keys ∧
      (r.files.set name data).size ≤ fileCount ∧ r.off < r'.off := by
  unfold readEntry at h
  split at h
  · cases h
  · simp only at h
    split at h
    · cases h
    · rename_i name hname
      obtain rfl := (goodPath_of_checkPath hname).1
      split at h
      · cases h
      · rename_i size _
        split at h
        · cases h
        · rename_i hroom
          split at h
          · cases h
          · rename_i htotal
            split at h
            · cases h
            · rename_i hseen
              split at h
              · cases h
              · rename_i hcount
                cases h
                -- all checks passed, and the size is that of the data
                have hlen : (slice raw (r.off + nameLen + 4) (r.off + nameLen + 4 + size)).length =
                    size := by
                  rw [length_slice (Nat.not_lt.1 hroom)]
                  omega
                refine ⟨_, _, ?_, hname, ?_, ?_, Nat.not_lt.1 hcount, ?_⟩
                · rw [Reading.add, hlen]
                · rw [hlen]
                  exact Nat.not_lt.1 htotal
                · rw [← OrderedMap.has_iff]
                  exact hseen
                · simp only
                  omega

theorem readEntry_good {nameLen : Nat} (hr : r.Good) (h : readEntry raw r nameLen = .ok r') :
    r'.Good := by
  obtain ⟨name, data, heq, hname, hbound, hnew, hcount, _⟩ := readEntry_ok h
  -- the name was not there before, in any case
  have hfresh : ∀ p ∈ r.files.keys, lower p ≠ lower name := by
    intro p hp hsame
    exact hnew ((hr.seen _).2 ⟨p, hp, hsame⟩)
  rw [heq]
  refine ⟨?_, ?_, ?_, hcount, ?_, hbound⟩
  · intro p hp
    rcases (r.files.mem_keys_set).1 hp with rfl | hp
    · exact hname
    · exact hr.checked p hp
  · intro s
    simp only [Reading.add, OrderedSet.mem_keys_add, hr.seen, OrderedMap.mem_keys_set]
    constructor
    · rintro (rfl | ⟨p, hp, rfl⟩)
      · exact ⟨name, .inl rfl, rfl⟩
      · exact ⟨p, .inr hp, rfl⟩
    · rintro ⟨p, rfl | hp, rfl⟩
      · exact .inl rfl
      · exact .inr ⟨p, hp, rfl⟩
  · intro p hp q hq hsame
    rcases (r.files.mem_keys_set).1 hp with rfl | hp'
    · rcases (r.files.mem_keys_set).1 hq with rfl | hq'
      · rfl
      · exact absurd hsame.symm (hfresh q hq')
    · rcases (r.files.mem_keys_set).1 hq with rfl | hq'
      · exact absurd hsame (hfresh p hp')
      · exact hr.distinct p hp' q hq' hsame
  · -- so nothing is overwritten, and the sizes add up
    have hnone : r.files.get name = none := by
      cases hget : r.files.get name with
      | none =>
          rfl
      | some old =>
          exact absurd rfl (hfresh name (r.files.mem_keys_iff.2 ⟨old, hget⟩))
    have hsum := r.files.sumOf_set List.length name data
    rw [hnone, Option.map_none, Option.getD_none, Nat.add_zero] at hsum
    simp only [Reading.add, hsum, hr.total]

theorem readEntries_good {fuel : Nat} (hr : r.Good) (h : readEntries raw fuel r = .ok r') :
    r'.Good := by
  induction fuel generalizing r with
  | zero =>
      cases h
  | succ fuel ih =>
      simp only [readEntries] at h
      split at h
      · cases h
      · split at h
        · cases h
          exact ⟨hr.checked, hr.seen, hr.distinct, hr.count, hr.total, hr.bound⟩
        · split at h
          · cases h
          · rename_i r₁ hentry
            have hr₀ : Reading.Good { r with off := r.off + 2 } :=
              ⟨hr.checked, hr.seen, hr.distinct, hr.count, hr.total, hr.bound⟩
            exact ih (readEntry_good hr₀ hentry) h

theorem readEntries_end (h : raw.length ≤ r.off) (fuel : Nat) :
    readEntries raw fuel r = .error damaged := by
  cases fuel with
  | zero =>
      rfl
  | succ fuel =>
      have hnone : readUInt16BE raw r.off = none := by
        simp [readUInt16BE, List.getElem?_eq_none h]
      simp only [readEntries, hnone]

/-- The fuel never runs out before the buffer does, and at its end the loop fails in any case. -/
theorem readEntries_fuel {m n : Nat} (hm : raw.length - r.off ≤ m) (hn : raw.length - r.off ≤ n) :
    readEntries raw m r = readEntries raw n r := by
  induction m generalizing n r with
  | zero =>
      rw [readEntries_end (by omega), readEntries_end (by omega)]
  | succ m ih =>
      cases n with
      | zero =>
          rw [readEntries_end (by omega), readEntries_end (by omega)]
      | succ n =>
          simp only [readEntries]
          split
          · rfl
          · split
            · rfl
            · split
              · rfl
              · rename_i r₁ hentry
                obtain ⟨_, _, _, _, _, _, _, hoff⟩ := readEntry_ok hentry
                simp only at hoff
                exact ih (by omega) (by omega)

theorem collides_iff {seen : OrderedSet Text} {name : Text} :
    collides seen name = true ↔ ∃ i, 1 ≤ i ∧ i < (segments name).length ∧
      lower (join ((segments name).take i)) ∈ seen.keys := by
  simp only [collides, List.any_eq_true, OrderedMap.has_iff]
  have hpos := List.length_pos_of_ne_nil (segments_ne_nil name)
  constructor
  · rintro ⟨i, hi, hmem⟩
    rw [List.mem_range'_1] at hi
    exact ⟨i, hi.1, by omega, hmem⟩
  · rintro ⟨i, hi, hlt, hmem⟩
    exact ⟨i, List.mem_range'_1.2 ⟨hi, by omega⟩, hmem⟩

theorem wellFormed_of_decodeRaw (h : decodeRaw raw = .ok files) : WellFormed files := by
  unfold decodeRaw at h
  split at h
  · cases h
  · split at h
    · cases h
    · rename_i r hread
      split at h
      · cases h
      · split at h
        · cases h
        · rename_i hapart
          cases h
          -- nothing is read at first
          have hempty : Reading.first.Good := by
            refine ⟨?_, ?_, ?_, Nat.zero_le _, rfl, Nat.zero_le _⟩
            · intro p hp
              cases hp
            · intro s
              constructor
              · intro hs
                cases hs
              · rintro ⟨p, hp, _⟩
                cases hp
            · intro p hp
              cases hp
          have hr := readEntries_good hempty hread
          refine ⟨hr.checked, hr.distinct, ?_, hr.count, hr.total ▸ hr.bound⟩
          intro p hp q hq habove
          rcases above_iff.1 habove with ⟨i, hi, hlt, heq⟩
          -- a file that is a folder of another would have been found
          have hcollides : collides r.seen q = true :=
            collides_iff.2 ⟨i, hi, hlt, (hr.seen _).2 ⟨p, hp, heq.symm⟩⟩
          exact List.find?_eq_none.1 hapart q hq hcollides

/-- What is accepted is well formed, whatever the decompressor returns. -/
theorem wellFormed_of_decode {gunzip : Nat → Bytes → Except GunzipError Bytes} {buf : Bytes}
    (h : decode gunzip buf = .ok files) : WellFormed files := by
  unfold decode at h
  split at h
  · cases h
  · split at h
    · cases h
    · split at h
      · cases h
      · split at h
        · cases h
        · cases h
        · exact wellFormed_of_decodeRaw h

/-! ## What has been written -/

/-- The entries that are still to come suit the decoder. -/
structure Fits (r : Reading) (es : List (Text × Bytes)) : Prop where
  checked : ∀ e ∈ es, checkPath e.1 = .ok e.1
  names : (es.map fun e => lower e.1).Nodup
  fresh : ∀ e ∈ es, lower e.1 ∉ r.seen.keys
  total : r.total + (es.map fun e => e.2.length).sum ≤ unpackedBytes
  count : r.files.size + es.length ≤ fileCount

/-- The decoder behind an entry. -/
def Reading.next (r : Reading) (e : Text × Bytes) : Reading :=
  r.add e.1 e.2 (r.off + (entryBytes e).length)

theorem Fits.next {e : Text × Bytes} (h : Fits r (e :: es)) : Fits (r.next e) es := by
  have hnames := List.nodup_cons.1 h.names
  have htotal := h.total
  rw [List.map_cons, List.sum_cons] at htotal
  refine ⟨fun f hf => h.checked f (List.mem_cons_of_mem _ hf), hnames.2, ?_, ?_, ?_⟩
  · intro f hf hseen
    rcases (OrderedSet.mem_keys_add r.seen).1 hseen with heq | hold
    · exact hnames.1 (List.mem_map.2 ⟨f, hf, heq⟩)
    · exact h.fresh f (List.mem_cons_of_mem _ hf) hold
  · show r.total + e.2.length + _ ≤ _
    omega
  · have hsize := r.files.size_set_le e.1 e.2
    have hcount := h.count
    rw [List.length_cons] at hcount
    show (r.files.set e.1 e.2).size + _ ≤ _
    omega

theorem readEntry_entry {e : Text × Bytes} (h : Fits r (e :: es))
    (hat : BytesAt raw r.off (utf8Bytes e.1 ++ (uint32BE e.2.length ++ e.2))) :
    readEntry raw r (utf8Bytes e.1).length =
      .ok (r.add e.1 e.2 (r.off + (utf8Bytes e.1).length + 4 + e.2.length)) := by
  have hname := h.checked e List.mem_cons_self
  have hlength := (goodPath_of_checkPath hname).2.length_bytes
  have htotal := h.total
  have hcount := h.count
  rw [List.map_cons, List.sum_cons] at htotal
  rw [List.length_cons] at hcount
  have hsize : e.2.length < 4294967296 := by
    simp only [unpackedBytes] at htotal
    omega
  have hend := hat.length_le
  have hpos : (uint32BE e.2.length).length = 4 := rfl
  simp only [List.length_append, hpos] at hend
  -- the three parts of the entry are in their place
  have hfirst : utf8 (slice raw r.off (r.off + (utf8Bytes e.1).length)) = e.1 := by
    rw [hat.left.slice_eq, utf8_utf8Bytes]
  have hsecond : readUInt32BE raw (r.off + (utf8Bytes e.1).length) = some e.2.length :=
    hat.right.left.readUInt32BE hsize
  have hthird : slice raw (r.off + (utf8Bytes e.1).length + 4)
      (r.off + (utf8Bytes e.1).length + 4 + e.2.length) = e.2 := hat.right.right.slice_eq
  have hnew : ¬ r.seen.has (lower e.1) = true := by
    rw [OrderedMap.has_iff]
    exact h.fresh e List.mem_cons_self
  have hfew : ¬ fileCount < (r.files.set e.1 e.2).size := by
    have := r.files.size_set_le e.1 e.2
    omega
  unfold readEntry
  rw [if_neg (by omega)]
  simp only [hfirst, hname, hsecond, hthird]
  rw [if_neg (by omega), if_neg (by omega), if_neg hnew, if_neg hfew]
  rfl

/-- A row of entries is read up to its end. -/
theorem readEntries_entries {fuel : Nat} (h : Fits r es)
    (hat : BytesAt raw r.off (es.flatMap entryBytes ++ [0, 0])) (hfuel : es.length < fuel) :
    readEntries raw fuel r =
      .ok { es.foldl Reading.next r with off := (es.foldl Reading.next r).off + 2 } := by
  induction es generalizing r fuel with
  | nil =>
      cases fuel with
      | zero =>
          cases hfuel
      | succ fuel =>
          have hzero : readUInt16BE raw r.off = some 0 :=
            hat.readUInt16BE (by decide) (by decide)
          simp only [readEntries, hzero, if_true, List.foldl_nil]
  | cons e es ih =>
      cases fuel with
      | zero =>
          cases hfuel
      | succ fuel =>
          have hlength :=
            (goodPath_of_checkPath (h.checked e List.mem_cons_self)).2.length_bytes
          have hsmall : (utf8Bytes e.1).length < 65536 := by
            simp only [pathLength] at hlength
            omega
          rw [List.flatMap_cons, List.append_assoc] at hat
          have hentry := hat.left
          rw [entryBytes, List.append_assoc] at hentry
          have hread : readUInt16BE raw r.off = some (utf8Bytes e.1).length :=
            hentry.left.readUInt16BE rfl hsmall
          have hfits : Fits { r with off := r.off + 2 } (e :: es) :=
            ⟨h.checked, h.names, h.fresh, h.total, h.count⟩
          have hnext : r.off + 2 + (utf8Bytes e.1).length + 4 + e.2.length =
              r.off + (entryBytes e).length := by
            simp only [entryBytes, List.length_append, show (uint32BE e.2.length).length = 4 from rfl,
              show (uint16BE (utf8Bytes e.1).length).length = 2 from rfl]
            omega
          have hbody := readEntry_entry hfits hentry.right
          simp only [hnext] at hbody
          simp only [readEntries, hread, hbody]
          rw [if_neg (by omega)]
          exact ih (r := r.next e) h.next hat.right (Nat.lt_of_succ_lt_succ hfuel)

theorem foldl_next_off (es : List (Text × Bytes)) (r : Reading) :
    (es.foldl Reading.next r).off = r.off + (es.flatMap entryBytes).length := by
  induction es generalizing r with
  | nil =>
      rfl
  | cons e es ih =>
      rw [List.foldl_cons, ih, List.flatMap_cons, List.length_append, ← Nat.add_assoc]
      rfl

theorem foldl_next_files (es : List (Text × Bytes)) (r : Reading) :
    (es.foldl Reading.next r).files = es.foldl (fun m e => m.set e.1 e.2) r.files := by
  induction es generalizing r with
  | nil =>
      rfl
  | cons e es ih =>
      rw [List.foldl_cons, ih]
      rfl

theorem mem_foldl_next_seen (es : List (Text × Bytes)) (r : Reading) (s : Text) :
    s ∈ (es.foldl Reading.next r).seen.keys ↔
      s ∈ r.seen.keys ∨ ∃ e ∈ es, lower e.1 = s := by
  induction es generalizing r with
  | nil =>
      simp
  | cons e es ih =>
      have hadd : s ∈ (r.next e).seen.keys ↔ s = lower e.1 ∨ s ∈ r.seen.keys :=
        OrderedSet.mem_keys_add r.seen
      rw [List.foldl_cons, ih, hadd]
      simp only [List.mem_cons, exists_eq_or_imp, eq_comm (a := s)]
      grind

/-- A package whose entries suit the decoder is read back. -/
theorem decodeRaw_contents (h : Fits .first es) (hapart : ∀ e ∈ es, ∀ f ∈ es, ¬ Above e.1 f.1) :
    decodeRaw (contents es) = .ok (OrderedMap.ofList es) := by
  have hwhole : BytesAt (contents es) 0 (magic ++ (es.flatMap entryBytes ++ [0, 0])) :=
    BytesAt.whole _
  have hmagic : slice (contents es) 0 magic.length = magic := by
    have := hwhole.left.slice_eq
    rwa [Nat.zero_add] at this
  have hlength : (contents es).length = magic.length + (es.flatMap entryBytes).length + 2 := by
    simp only [contents, List.length_append, List.length_cons, List.length_nil]
    omega
  -- an entry takes at least a byte, so the number of bytes is fuel enough
  have hmany : es.length ≤ (es.flatMap entryBytes).length := by
    clear * -
    induction es with
    | nil =>
        exact Nat.le_refl _
    | cons e es ih =>
        have hone : (entryBytes e).length = (uint16BE (utf8Bytes e.1).length ++ utf8Bytes e.1).length +
            (uint32BE e.2.length ++ e.2).length := List.length_append
        have hfour : (uint32BE e.2.length ++ e.2).length = 4 + e.2.length := List.length_append
        rw [List.flatMap_cons, List.length_append, List.length_cons]
        omega
  have hplace : BytesAt (contents es) Reading.first.off (es.flatMap entryBytes ++ [0, 0]) := by
    have := hwhole.right
    rwa [Nat.zero_add] at this
  have hread := readEntries_entries h hplace (show es.length < (contents es).length by omega)
  have hseen : ∀ t, t ∈ (es.foldl Reading.next .first).seen.keys ↔ ∃ e ∈ es, lower e.1 = t := by
    intro t
    rw [mem_foldl_next_seen]
    exact ⟨fun ht => ht.resolve_left (OrderedMap.not_mem_keys_empty t), Or.inr⟩
  have hfiles : (es.foldl Reading.next .first).files = OrderedMap.ofList es := foldl_next_files es .first
  -- no file of the row is a folder of another
  have hclear : (OrderedMap.ofList es).keys.find? (collides (es.foldl Reading.next .first).seen) = none := by
    rw [List.find?_eq_none]
    intro q hq hcollides
    rcases (OrderedMap.mem_keys_ofList es).1 hq with ⟨f, hf, rfl⟩
    rcases collides_iff.1 hcollides with ⟨i, hi, hlt, hmem⟩
    rcases (hseen _).1 hmem with ⟨e, he, heq⟩
    exact hapart e he f hf (above_iff.2 ⟨i, hi, hlt, heq.symm⟩)
  unfold decodeRaw
  rw [if_neg (by rw [hmagic, hlength]; simp)]
  simp only [hread, foldl_next_off, hfiles, hclear]
  rw [if_neg fun hne => hne hlength.symm]

theorem length_entries_le (h : ∀ e ∈ es, checkPath e.1 = .ok e.1) :
    (es.flatMap entryBytes).length ≤
      es.length * (pathLength + 6) + (es.map fun e => e.2.length).sum := by
  induction es with
  | nil =>
      exact Nat.le_refl _
  | cons e es ih =>
      have hrest := ih fun f hf => h f (List.mem_cons_of_mem _ hf)
      have hname := (goodPath_of_checkPath (h e List.mem_cons_self)).2.length_bytes.2
      have hone : (entryBytes e).length = 2 + (utf8Bytes e.1).length + (4 + e.2.length) := by
        simp only [entryBytes, List.length_append]
        rfl
      calc ((e :: es).flatMap entryBytes).length
          = (entryBytes e).length + (es.flatMap entryBytes).length := by
            rw [List.flatMap_cons, List.length_append]
        _ ≤ (pathLength + 6 + e.2.length) +
              (es.length * (pathLength + 6) + (es.map fun e => e.2.length).sum) := by
            rw [hone]
            omega
        _ = (e :: es).length * (pathLength + 6) + ((e :: es).map fun e => e.2.length).sum := by
            rw [List.length_cons, List.map_cons, List.sum_cons, Nat.succ_mul]
            omega

theorem mapM_checkPath (h : ∀ e ∈ es, checkPath e.1 = .ok e.1) :
    es.mapM (fun e => (checkPath e.1).map fun p => (p, e.2)) = .ok es := by
  induction es with
  | nil =>
      rfl
  | cons e es ih =>
      rw [List.mapM_cons, h e List.mem_cons_self, ih fun f hf => h f (List.mem_cons_of_mem _ hf)]
      rfl

section RoundTrip

variable (gzip : Bytes → Bytes) (gunzip : Nat → Bytes → Except GunzipError Bytes)

/-- What is known of the compressor: what it has written is read back if there is room for it; its
output has a header that begins with these two bytes, a trailer, and at least two bytes between. -/
structure Gzip : Prop where
  undo : ∀ raw max, raw.length ≤ max → gunzip max (gzip raw) = .ok raw
  header : ∀ raw, (gzip raw)[0]? = some 0x1f ∧ (gzip raw)[1]? = some 0x8b
  size : ∀ raw, 20 ≤ (gzip raw).length

theorem fits_sorted (h : WellFormed files) : Fits .first (sorted files.entries) := by
  have hperm : (sorted files.entries).Perm files.entries := List.mergeSort_perm _ _
  have hmem : ∀ e, e ∈ sorted files.entries → e.1 ∈ files.keys := fun e he =>
    List.mem_map_of_mem (hperm.mem_iff.1 he)
  refine ⟨fun e he => h.checked _ (hmem e he), ?_, ?_, ?_, ?_⟩
  · have hlower : (files.keys.map lower).Nodup :=
      List.Nodup.map_on (fun p hp q hq => h.distinct p hp q hq) files.nodup
    rw [(hperm.map _).nodup_iff]
    simpa [OrderedMap.keys, List.map_map, Function.comp_def] using hlower
  · intro e _
    exact OrderedMap.not_mem_keys_empty _
  · have htotal := h.total
    simp only [OrderedMap.sumOf, OrderedMap.values, List.map_map] at htotal
    have hzero : Reading.first.total = 0 := rfl
    rw [hzero, Nat.zero_add, (hperm.map _).sum_eq]
    exact htotal
  · rw [hperm.length_eq]
    exact (Nat.zero_add _).symm ▸ h.count

/-- A well-formed package that is not too large after compression is read back as it was written. -/
theorem decode_encode {gzip : Bytes → Bytes} {gunzip : Nat → Bytes → Except GunzipError Bytes}
    (hgzip : Gzip gzip gunzip) (h : WellFormed files) :
    ∃ buf, encode gzip files = .ok buf ∧
      (buf.length ≤ packageBytes →
        ∃ files', decode gunzip buf = .ok files' ∧ ∀ p, files'.get p = files.get p) := by
  have hperm : (sorted files.entries).Perm files.entries := List.mergeSort_perm _ _
  have hfits := fits_sorted h
  have hraw : decodeRaw (contents (sorted files.entries)) =
      .ok (OrderedMap.ofList (sorted files.entries)) := by
    refine decodeRaw_contents hfits ?_
    intro e he f hf
    exact h.apart e.1 (List.mem_map_of_mem (hperm.mem_iff.1 he)) f.1
      (List.mem_map_of_mem (hperm.mem_iff.1 hf))
  -- the limits of a package bound what is not compressed
  have hroom : (contents (sorted files.entries)).length ≤ maxOutputLength := by
    have hentries := length_entries_le hfits.checked
    have htotal := hfits.total
    have hcount := hfits.count
    have hlength : (contents (sorted files.entries)).length =
        10 + ((sorted files.entries).flatMap entryBytes).length + 2 := by
      have hmagic : magic.length = 10 := rfl
      simp only [contents, List.length_append, List.length_cons, List.length_nil, hmagic]
      omega
    have hzero : Reading.first.files.size = 0 ∧ Reading.first.total = 0 := ⟨rfl, rfl⟩
    have hmax : maxOutputLength = 52700336 := rfl
    have hunpacked : unpackedBytes = 52428800 := rfl
    have hfew : (sorted files.entries).length ≤ 1000 := by
      rw [hzero.1, Nat.zero_add] at hcount
      exact hcount
    have heach : (sorted files.entries).length * (pathLength + 6) ≤ 1000 * 206 :=
      Nat.mul_le_mul_right 206 hfew
    rw [hzero.2, hunpacked, Nat.zero_add] at htotal
    rw [hmax, hlength]
    omega
  refine ⟨gzip (contents (sorted files.entries)), ?_, ?_⟩
  · have hchecked : ∀ e ∈ files.entries, checkPath e.1 = .ok e.1 := fun e he =>
      h.checked e.1 (List.mem_map_of_mem he)
    rw [encode, mapM_checkPath hchecked]
    rfl
  · intro hsize
    refine ⟨_, ?_, fun p => OrderedMap.get_ofList_perm hperm p⟩
    have hheader := hgzip.header (contents (sorted files.entries))
    have hmin := hgzip.size (contents (sorted files.entries))
    unfold decode
    rw [if_neg (by omega), if_neg (by omega), if_neg (by simp [hheader]),
      hgzip.undo _ _ hroom]
    exact hraw

end RoundTrip

end Gcplugin

end Edge
end GateControl
