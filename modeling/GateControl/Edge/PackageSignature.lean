import Mathlib.Data.List.Sort
import GateControl.Library.Json
import GateControl.Edge.Host
import GateControl.Edge.PackageFormat

/-!
# PackageSignature — what a signature is over

A signature is over one line for each file of the package: the digest of its content and its path.
Two packages with the same lines are the same package, apart from the signature itself.
-/

namespace GateControl
namespace Edge

open Library

namespace PackageSignature

open Gcplugin

def signatureFile : Text := "signature".toList

def header : Text := "GCPLUGIN-MANIFEST-V1\n".toList

section Manifest

-- the digest, in hexadecimal
variable (sha256 : Bytes → Text)

/-- The signed paths in their order. -/
def signedPaths (files : OrderedMap Text Bytes) : List Text :=
  (files.keys.filter fun p => p ≠ signatureFile).mergeSort notAfter

def line (files : OrderedMap Text Bytes) (p : Text) : Text :=
  sha256 ((files.get p).getD []) ++ (' ' :: (p ++ ['\n']))

def manifestText (files : OrderedMap Text Bytes) : Text :=
  header ++ (signedPaths files).flatMap (line sha256 files)

def canonicalManifest (files : OrderedMap Text Bytes) : Bytes := utf8Bytes (manifestText sha256 files)

end Manifest

/-! ## Verification -/

/-- What the host's library offers. -/
structure Crypto (κ : Type) where
  sha256 : Bytes → Text
  /-- `JSON.parse`, which fails on anything else. -/
  parse : Text → Option Json
  fromBase64 : Text → Bytes
  createPublicKey : Bytes → Option κ
  /-- `crypto.verify`; it can fail as well. -/
  verify : Bytes → κ → Bytes → Option Bool

/-- The result of `verify`, with the key and its name where there is one. -/
structure Verdict where
  status : Signature
  publicKey : Option Text := none
  keyId : Option Text := none

section Verify

variable {κ : Type} (crypto : Crypto κ)

/-- `B64_32` -/
def isKeyText (s : Text) : Bool :=
  s.length = 44 && (s.take 43).all (fun c => c.isAlphanum || c == '+' || c == '/') &&
    s.drop 43 = ['=']

def publicKeyFromRaw (b64 : Text) : Option κ :=
  if !isKeyText b64 then none
  else if (crypto.fromBase64 b64).length ≠ 32 then none
  else crypto.createPublicKey (crypto.fromBase64 b64)

def keyId (b64 : Text) : Text := (crypto.sha256 (crypto.fromBase64 b64)).take 16

def verify (files : OrderedMap Text Bytes) (keys : List Text) : Verdict :=
  match files.get signatureFile with
  | none => { status := .none }
  | some sf =>
      match crypto.parse (utf8 sf) with
      | none => { status := .invalid }
      | some doc =>
          if (doc.field "v").int? ≠ some 1 ∨ ¬ (doc.field "alg").isText "Ed25519" then
            { status := .invalid }
          else
            match (doc.field "sig").str?, (doc.field "publicKey").str? with
            | some sig, some publicKey =>
                match publicKeyFromRaw crypto publicKey with
                | none => { status := .invalid }
                | some key =>
                    let sig := crypto.fromBase64 sig
                    if sig.length = 64 ∧
                        crypto.verify (canonicalManifest crypto.sha256 files) key sig = some true then
                      { status := if publicKey ∈ keys then .trusted else .untrusted
                        publicKey := some publicKey
                        keyId := some (keyId crypto publicKey) }
                    else { status := .invalid }
            | _, _ => { status := .invalid }

end Verify

/-! ## The order of the lines -/

theorem notAfter_trans (a b c : Text) (hab : notAfter a b = true) (hbc : notAfter b c = true) :
    notAfter a c = true := by
  simp only [notAfter, decide_eq_true_eq] at hab hbc ⊢
  exact List.le_trans hab hbc

theorem notAfter_total (a b : Text) : (notAfter a b || notAfter b a) = true := by
  simp only [notAfter, Bool.or_eq_true, decide_eq_true_eq]
  exact List.le_total (codeUnits a) (codeUnits b)

theorem notAfter_antisymm {a b : Text} (ha : GoodPath a) (hb : GoodPath b)
    (hab : notAfter a b = true) (hba : notAfter b a = true) : a = b := by
  simp only [notAfter, decide_eq_true_eq] at hab hba
  have hunits := List.le_antisymm hab hba
  rw [codeUnits_of_ascii ha.ascii, codeUnits_of_ascii hb.ascii] at hunits
  exact List.map_injective_iff.2 (fun c d h => Char.ext h) hunits

theorem mem_signedPaths {files : OrderedMap Text Bytes} {p : Text} :
    p ∈ signedPaths files ↔ p ∈ files.keys ∧ p ≠ signatureFile := by
  rw [signedPaths, (List.mergeSort_perm _ _).mem_iff, List.mem_filter, decide_eq_true_eq]

/-- The order of the entries does not matter. -/
theorem signedPaths_eq {a b : OrderedMap Text Bytes} (ha : WellFormed a) (hb : WellFormed b)
    (hkeys : ∀ p, p ≠ signatureFile → (p ∈ a.keys ↔ p ∈ b.keys)) :
    signedPaths a = signedPaths b := by
  have hgood : ∀ files, WellFormed files → ∀ p ∈ signedPaths files, GoodPath p := by
    intro files hfiles p hp
    exact (goodPath_of_checkPath (hfiles.checked p (mem_signedPaths.1 hp).1)).2
  have hsorted : ∀ files, (signedPaths files).Pairwise fun p q => notAfter p q = true := fun files =>
    List.pairwise_mergeSort notAfter_trans notAfter_total _
  have hnodup : ∀ files, (signedPaths files).Nodup := fun files =>
    (List.mergeSort_perm _ _).nodup_iff.2 (files.nodup.filter _)
  refine List.Perm.eq_of_pairwise ?_ (hsorted a) (hsorted b) ?_
  · intro p q hp hq
    exact notAfter_antisymm (hgood a ha p hp) (hgood b hb q hq)
  · refine (List.perm_ext_iff_of_nodup (hnodup a) (hnodup b)).2 ?_
    intro p
    rw [mem_signedPaths, mem_signedPaths]
    exact and_congr_left (hkeys p)

/-! ## Reading the lines back -/

section Injective

variable {sha256 : Bytes → Text} (hlength : ∀ data, (sha256 data).length = 64)

include hlength in
/-- The lines give the paths, in their order, and the digests. -/
theorem lines_inj {a b : OrderedMap Text Bytes} {ps qs : List Text} (hps : ∀ p ∈ ps, '\n' ∉ p)
    (hqs : ∀ q ∈ qs, '\n' ∉ q)
    (h : ps.flatMap (line sha256 a) = qs.flatMap (line sha256 b)) :
    ps = qs ∧ ∀ p ∈ ps, sha256 ((a.get p).getD []) = sha256 ((b.get p).getD []) := by
  have hline : ∀ (files : OrderedMap Text Bytes) (p rest : Text),
      line sha256 files p ++ rest =
        sha256 ((files.get p).getD []) ++ (' ' :: (p ++ '\n' :: rest)) := by
    intro files p rest
    simp [line]
  induction ps generalizing qs with
  | nil =>
      cases qs with
      | nil =>
          refine ⟨rfl, ?_⟩
          intro p hp
          cases hp
      | cons q qs =>
          rw [List.flatMap_cons, hline] at h
          have hlen := congrArg List.length h
          simp [hlength] at hlen
  | cons p ps ih =>
      cases qs with
      | nil =>
          rw [List.flatMap_cons, hline] at h
          have hlen := congrArg List.length h
          simp [hlength] at hlen
      | cons q qs =>
          rw [List.flatMap_cons, List.flatMap_cons, hline, hline] at h
          obtain ⟨hdigest, htext⟩ := List.append_inj h (by rw [hlength, hlength])
          obtain ⟨rfl, hrest⟩ := append_cons_injective (hps p List.mem_cons_self)
            (hqs q List.mem_cons_self) (List.cons.inj htext).2
          obtain ⟨rfl, hdigests⟩ := ih (fun p hp => hps p (List.mem_cons_of_mem _ hp))
            (fun q hq => hqs q (List.mem_cons_of_mem _ hq)) hrest
          refine ⟨rfl, ?_⟩
          intro r hr
          rcases List.mem_cons.1 hr with rfl | hr'
          · exact hdigest
          · exact hdigests r hr'

end Injective

theorem canonicalManifest_congr (sha256 : Bytes → Text) {a b : OrderedMap Text Bytes}
    (ha : WellFormed a) (hb : WellFormed b) (h : ∀ p, p ≠ signatureFile → a.get p = b.get p) :
    canonicalManifest sha256 a = canonicalManifest sha256 b := by
  have hkeys : ∀ p, p ≠ signatureFile → (p ∈ a.keys ↔ p ∈ b.keys) := by
    intro p hp
    rw [a.mem_keys_iff, b.mem_keys_iff, h p hp]
  have hlines : (signedPaths a).map (line sha256 a) = (signedPaths a).map (line sha256 b) := by
    refine List.map_congr_left ?_
    intro p hp
    rw [line, line, h p (mem_signedPaths.1 hp).2]
  rw [canonicalManifest, canonicalManifest, manifestText, manifestText, List.flatMap_def,
    List.flatMap_def, hlines, signedPaths_eq ha hb hkeys]

theorem get_of_not_mem_signedPaths {files : OrderedMap Text Bytes} {p : Text}
    (hp : p ≠ signatureFile) (h : p ∉ signedPaths files) : files.get p = none := by
  cases hget : files.get p with
  | none =>
      rfl
  | some x =>
      exact absurd (mem_signedPaths.2 ⟨files.mem_keys_iff.2 ⟨x, hget⟩, hp⟩) h

/-- Two accepted packages have the same manifest if and only if they have the same content at every
path but that of the signature, in whatever order. -/
theorem manifest_determines {sha256 : Bytes → Text} (hlength : ∀ data, (sha256 data).length = 64)
    {gunzip : Nat → Bytes → Except GunzipError Bytes} {bufA bufB : Bytes}
    {a b : OrderedMap Text Bytes} (ha : decode gunzip bufA = .ok a) (hb : decode gunzip bufB = .ok b)
    (hsha : ∀ x ∈ a.values ++ b.values, ∀ y ∈ a.values ++ b.values, sha256 x = sha256 y → x = y) :
    canonicalManifest sha256 a = canonicalManifest sha256 b ↔
      ∀ p, p ≠ signatureFile → a.get p = b.get p := by
  have hwa := wellFormed_of_decode ha
  have hwb := wellFormed_of_decode hb
  constructor
  · intro h
    have htext : (signedPaths a).flatMap (line sha256 a) = (signedPaths b).flatMap (line sha256 b) :=
      List.append_cancel_left (utf8Bytes_inj h)
    have hnewline : ∀ files, WellFormed files → ∀ p ∈ signedPaths files, '\n' ∉ p := by
      intro files hfiles p hp
      exact (goodPath_of_checkPath (hfiles.checked p (mem_signedPaths.1 hp).1)).2.newline
    obtain ⟨hpaths, hdigests⟩ := lines_inj hlength (hnewline a hwa) (hnewline b hwb) htext
    intro p hp
    by_cases hmem : p ∈ signedPaths a
    · obtain ⟨x, hx⟩ := a.mem_keys_iff.1 (mem_signedPaths.1 hmem).1
      obtain ⟨y, hy⟩ := b.mem_keys_iff.1 (mem_signedPaths.1 (hpaths ▸ hmem)).1
      have hdigest := hdigests p hmem
      rw [hx, hy, Option.getD_some, Option.getD_some] at hdigest
      rw [hx, hy, hsha x ?_ y ?_ hdigest]
      · exact List.mem_append_left _ (a.mem_values_iff.2 ⟨p, hx⟩)
      · exact List.mem_append_right _ (b.mem_values_iff.2 ⟨p, hy⟩)
    · rw [get_of_not_mem_signedPaths hp hmem, get_of_not_mem_signedPaths hp (hpaths ▸ hmem)]
  · exact canonicalManifest_congr sha256 hwa hwb

section Sample

def sampleFiles : List (Text × Bytes) := [("a.js".toList, [0x30]), ("plugin.json".toList, [0x7b, 0x7d])]

/-- The same files in another order, with one that stands for a signature. -/
def signedFiles : List (Text × Bytes) :=
  ("signature".toList, [0x7b, 0x7d]) :: sampleFiles.reverse

def samplePackage : Bytes :=
  [31, 139, 8, 0, 0, 0, 0, 0, 0, 3, 115, 119, 14, 240, 9, 117, 247, 244, 99, 96, 100, 96, 73, 212,
    203, 42, 102, 96, 96, 96, 52, 96, 224, 46, 200, 41, 77, 207, 204, 3, 242, 243, 243, 128, 34, 76,
    213, 181, 12, 12, 0, 233, 73, 233, 111, 42, 0, 0, 0]

def signedPackage : Bytes :=
  [31, 139, 8, 0, 0, 0, 0, 0, 0, 3, 115, 119, 14, 240, 9, 117, 247, 244, 99, 96, 100, 224, 44, 206,
    76, 207, 75, 44, 41, 45, 74, 101, 96, 96, 96, 170, 174, 101, 224, 46, 200, 41, 77, 207, 204, 211,
    203, 42, 206, 207, 131, 10, 177, 36, 2, 121, 64, 54, 163, 1, 3, 3, 0, 236, 108, 132, 81, 59, 0,
    0, 0]

def sampleGunzip (_ : Nat) (buf : Bytes) : Except GunzipError Bytes :=
  if buf = samplePackage then .ok (contents sampleFiles)
  else if buf = signedPackage then .ok (contents signedFiles)
  else .error .other

def sampleSha256 (data : Bytes) : Text :=
  if data = [0x7b, 0x7d] then
    "44136fa355b3678a1146ad16f7e8649e94fb4fc21fe77e8310c060f61caaff8a".toList
  else if data = [0x30] then
    "5feceb66ffc86f38d952786c6d696c79c2dbc239dd4e91b46729d73a27fb57e9".toList
  else List.replicate 64 '0'

theorem manifest_determines_signed :
    canonicalManifest sampleSha256 (OrderedMap.ofList sampleFiles) =
        canonicalManifest sampleSha256 (OrderedMap.ofList signedFiles) ∧
      ∀ p, p ≠ signatureFile →
        (OrderedMap.ofList sampleFiles).get p = (OrderedMap.ofList signedFiles).get p := by
  have hlength : ∀ data, (sampleSha256 data).length = 64 := by
    intro data
    unfold sampleSha256
    split
    · rfl
    · split
      · rfl
      · exact List.length_replicate
  have hsample : decode sampleGunzip samplePackage = .ok (OrderedMap.ofList sampleFiles) := by
    decide +kernel
  have hsigned : decode sampleGunzip signedPackage = .ok (OrderedMap.ofList signedFiles) := by
    decide +kernel
  have hsame : ∀ p, p ≠ signatureFile →
      (OrderedMap.ofList sampleFiles).get p = (OrderedMap.ofList signedFiles).get p := by
    intro p hp
    rw [OrderedMap.ofList, OrderedMap.ofList, OrderedMap.get_foldl_set (by decide),
      OrderedMap.get_foldl_set (by decide)]
    have hskip : OrderedMap.find p signedFiles = OrderedMap.find p sampleFiles.reverse :=
      if_neg (Ne.symm hp)
    rw [hskip]
    by_cases hscript : p = "a.js".toList
    · rw [hscript]
      rfl
    · have hreversed : OrderedMap.find p sampleFiles.reverse =
          OrderedMap.find p [("plugin.json".toList, [0x7b, 0x7d])] :=
        congrArg (fun o => if "plugin.json".toList = p then some [0x7b, 0x7d] else o)
          (if_neg (Ne.symm hscript))
      rw [hreversed]
      exact congrArg (fun o => Option.or o none) (if_neg (Ne.symm hscript))
  exact ⟨(manifest_determines hlength hsample hsigned (by decide +kernel)).2 hsame, hsame⟩

end Sample

end PackageSignature

end Edge
end GateControl
