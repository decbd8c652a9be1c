import GateControl.Cache.Store
import GateControl.Library.Bytes

/-!
# LanServer — what the home cache hands out in the LAN

`GET /blob/<sha256>?exp=…&sig=…` is answered with the blob, or with the range that the header asks
for, if the signature is that of the shared secret and has not expired.  The address has been taken
apart already; `hmac` and the file of a blob are given.
-/

namespace GateControl
namespace Cache
namespace LanServer

open Library

/-! ## Signatures -/

def isLowerHex (c : Char) : Bool := c.isDigit || ('a' ≤ c && c ≤ 'f')

def isHex (c : Char) : Bool := isLowerHex c || ('A' ≤ c && c ≤ 'F')

/-- `SHA_RE` -/
def isSha (s : Text) : Bool := s.length = 64 && s.all isLowerHex

/-- `EXP_RE` -/
def isExp (s : Text) : Bool := 1 ≤ s.length && s.length ≤ 12 && s.all Char.isDigit

/-- `SIG_RE` -/
def isSig (s : Text) : Bool := s.length = 64 && s.all isHex

def number (digits : Text) : Nat := Nat.ofDigitChars 10 digits 0

def maxAhead : Nat := 600

def skew : Nat := 60

inductive Verdict
  | ok
  | badRequest
  | expired
  | tooFar
  | badSignature
  deriving DecidableEq

-- the secret and the message to the lower-case hexadecimal digest
variable (hmac : Text → Text → Text)

def sign (secret sha exp : Text) : Text := hmac secret (sha ++ '\n' :: exp)

def verify (secret : Text) (sha : Text) (exp sig : Option Text) (nowMs : Nat) : Verdict :=
  if secret.isEmpty || !isSha sha then .badRequest
  else
    match exp.filter isExp, sig.filter isSig with
    | some exp, some sig =>
        let now := nowMs / 1000
        if number exp < now then .expired
        else if number exp > now + maxAhead + skew then .tooFar
        else if sig.map asciiLower = sign hmac secret sha exp then .ok
        else .badSignature
    | _, _ => .badRequest

/-! ## Ranges -/

inductive Range
  | whole
  | invalid
  | part (first last : Nat)
  deriving DecidableEq

/-- `/^bytes=(\d*)-(\d*)$/` -/
def rangeParts (s : Text) : Option (Text × Text) :=
  if s.take 6 = "bytes=".toList then
    match (s.drop 6).dropWhile Char.isDigit with
    | '-' :: b => if b.all Char.isDigit then some ((s.drop 6).takeWhile Char.isDigit, b) else none
    | _ => none
  else none

def maxSafeInteger : Nat := 2 ^ 53 - 1

/-- The first and the last byte that are asked for; with no first one, the last ones are. -/
def bounds (a b : Text) (size : Nat) : Nat × Nat :=
  (if a = [] then size - number b else number a,
    if a = [] ∨ b = [] then size - 1 else min (number b) (size - 1))

/-- Whether `r` is a range of `size` bytes. -/
def satisfiable (size : Nat) (r : Nat × Nat) : Bool :=
  r.1 ≤ maxSafeInteger && r.2 ≤ maxSafeInteger && r.1 ≤ r.2 && r.1 < size

def parseRange (header : Option Text) (size : Nat) : Range :=
  match header with
  | none => .whole
  | some h =>
      match rangeParts (trim h) with
      | none => .invalid
      | some (a, b) =>
          -- no number at all, or the last zero bytes
          if a = [] ∧ number b = 0 then .invalid
          else if satisfiable size (bounds a b size) then
            .part (bounds a b size).1 (bounds a b size).2
          else .invalid

/-! ## Answers -/

structure Request where
  method : String
  path : Text
  exp : Option Text
  sig : Option Text
  range : Option Text

/-- `Content-Range`: the first and the last byte, and the size. -/
structure ContentRange where
  part : Option (Nat × Nat)
  size : Nat
  deriving DecidableEq

/-- The body of an error is its code. -/
structure Response where
  status : Nat
  error : Option String
  contentLength : Option Nat
  contentRange : Option ContentRange
  etag : Option Text
  body : Bytes
  deriving DecidableEq

def sendJson (status : Nat) (error : String) : Response := ⟨status, some error, none, none, none, []⟩

/-- `PATH_RE` -/
def blobOf (path : Text) : Option Text :=
  if path.take 6 = "/blob/".toList ∧ isSha (path.drop 6) = true then some (path.drop 6) else none

def Verdict.error : Verdict → String
  | .expired => "expired"
  | .tooFar => "too_far"
  | _ => "bad_signature"

/-- The blob, as its file is opened. -/
def content (sha : Text) (head : Bool) (range : Range) (c : Bytes) : Response :=
  match range with
  | .invalid =>
      { sendJson 416 "range_not_satisfiable" with contentRange := some ⟨none, c.length⟩ }
  | .whole => ⟨200, none, some c.length, none, some sha, if head then [] else c⟩
  | .part first last =>
      ⟨206, none, some (last - first + 1), some ⟨some (first, last), c.length⟩, some sha,
        if head then [] else slice c first (last + 1)⟩

/-- `indexed` is `store.has`, `file` what the file of a blob holds if it can be opened. -/
def handle (secret : Text) (nowMs : Nat) (indexed : Text → Bool) (file : Text → Option Bytes)
    (r : Request) : Response :=
  if r.method ≠ "GET" ∧ r.method ≠ "HEAD" then sendJson 405 "method_not_allowed"
  else
    match blobOf r.path with
    | none => sendJson 404 "not_found"
    | some sha =>
        let v := verify hmac secret sha r.exp r.sig nowMs
        if v ≠ .ok then sendJson 403 v.error
        else if !indexed sha then sendJson 404 "not_cached"
        else
          match file sha with
          | none => sendJson 404 "not_cached"
          | some c => content sha (r.method = "HEAD") (parseRange r.range c.length) c

/-! ## What a signature grants -/

/-- The signature is that of the blob and of the time that it names, which is near. -/
structure Granted (secret sha : Text) (exp sig : Option Text) (nowMs : Nat) : Prop where
  name : isSha sha = true
  signed : ∃ e s, exp = some e ∧ sig = some s ∧ isExp e = true ∧ isSig s = true ∧
    nowMs / 1000 ≤ number e ∧ number e ≤ nowMs / 1000 + 660 ∧
    s.map asciiLower = hmac secret (sha ++ '\n' :: e)

variable {hmac}

theorem verify_ok {secret sha : Text} {exp sig : Option Text} {nowMs : Nat}
    (h : verify hmac secret sha exp sig nowMs = .ok) : Granted hmac secret sha exp sig nowMs := by
  unfold verify at h
  split at h
  · cases h
  · next hsha =>
      split at h
      · next e s he hs =>
          obtain ⟨he', he⟩ := Option.filter_eq_some_iff.1 he
          obtain ⟨hs', hs⟩ := Option.filter_eq_some_iff.1 hs
          simp only at h
          split at h
          · cases h
          · next hexp =>
              split at h
              · cases h
              · next hfar =>
                  split at h
                  · next hsig =>
                      have hname : ¬ secret = [] ∧ isSha sha = true := by simpa using hsha
                      refine ⟨hname.2, e, s, he', hs', he, hs, Nat.le_of_not_lt hexp, ?_, hsig⟩
                      exact Nat.le_of_not_lt hfar
                  · cases h
      · cases h

/-! ## What a range is -/

/-- What a header asks for of `size` bytes, as the first byte and the one behind the last: all of them,
those from one byte to another, those from one byte on, or the last ones. -/
inductive Asked (size : Nat) : Option Text → Nat → Nat → Prop
  | whole : Asked size none 0 size
  | span {h a b : Text} (ha : a ≠ [] ∧ a.all Char.isDigit = true)
      (hb : b ≠ [] ∧ b.all Char.isDigit = true) (hh : trim h = "bytes=".toList ++ (a ++ '-' :: b)) :
      Asked size (some h) (number a) (min (number b + 1) size)
  | onward {h a : Text} (ha : a ≠ [] ∧ a.all Char.isDigit = true)
      (hh : trim h = "bytes=".toList ++ (a ++ ['-'])) : Asked size (some h) (number a) size
  | last {h b : Text} (hb : b ≠ [] ∧ b.all Char.isDigit = true)
      (hh : trim h = "bytes=".toList ++ '-' :: b) : Asked size (some h) (size - number b) size

theorem eq_of_rangeParts {s a b : Text} (h : rangeParts s = some (a, b)) :
    s = "bytes=".toList ++ (a ++ '-' :: b) ∧ a.all Char.isDigit = true ∧
      b.all Char.isDigit = true := by
  unfold rangeParts at h
  split at h
  · next hbytes =>
      split at h
      · next b' hrest =>
          obtain ⟨hb, heq⟩ := Option.ite_none_right_eq_some.1 h
          cases heq
          refine ⟨?_, List.all_takeWhile, hb⟩
          rw [← hrest, List.takeWhile_append_dropWhile, ← hbytes, List.take_append_drop]
      · cases h
  · cases h

/-- A range is the one asked for, and it lies in the blob. -/
theorem parseRange_part {header : Option Text} {size first last : Nat}
    (h : parseRange header size = .part first last) :
    Asked size header first (last + 1) ∧ first ≤ last ∧ last < size := by
  unfold parseRange at h
  split at h
  · cases h
  · split at h
    · cases h
    · next a b hparts =>
        split at h
        · cases h
        · next hzero =>
            split at h
            · next hsat =>
                cases h
                obtain ⟨hh, ha, hb⟩ := eq_of_rangeParts hparts
                simp only [satisfiable, Bool.and_eq_true, decide_eq_true_eq] at hsat
                obtain ⟨⟨_, hle⟩, hlt⟩ := hsat
                have hsize : size - 1 + 1 = size := by omega
                have hlast : (bounds a b size).2 ≤ size - 1 := by
                  change (if a = [] ∨ b = [] then size - 1 else min (number b) (size - 1)) ≤ size - 1
                  split
                  · exact Nat.le_refl _
                  · exact Nat.min_le_right _ _
                refine ⟨?_, hle, by omega⟩
                by_cases hna : a = []
                · subst hna
                  by_cases hnb : b = []
                  · subst hnb
                    exact absurd ⟨rfl, rfl⟩ hzero
                  · simpa [bounds, hsize] using (.last ⟨hnb, hb⟩ hh : Asked size _ _ _)
                · by_cases hnb : b = []
                  · subst hnb
                    simpa [bounds, hna, hsize] using (.onward ⟨hna, ha⟩ hh : Asked size _ _ _)
                  · have hmin : min (number b) (size - 1) + 1 = min (number b + 1) size := by omega
                    simpa [bounds, hna, hnb, hmin] using
                      (.span ⟨hna, ha⟩ ⟨hnb, hb⟩ hh : Asked size _ _ _)
            · cases h

theorem parseRange_whole {header : Option Text} {size : Nat}
    (h : parseRange header size = .whole) : header = none := by
  unfold parseRange at h
  split at h
  · rfl
  · split at h
    · cases h
    · split at h
      · cases h
      · split at h <;> cases h

/-! ## What is handed out -/

/-- An answer with a blob: the range that was asked for, and what the headers say about it. -/
structure HandedOut (r : Request) (c : Bytes) (first past : Nat) (a : Response) : Prop where
  asked : Asked c.length r.range first past
  bounds : first ≤ past ∧ past ≤ c.length
  length : a.contentLength = some (past - first)
  body : a.body = if r.method = "HEAD" then [] else slice c first past
  whole : a.status = 200 → first = 0 ∧ past = c.length ∧ a.contentRange = none
  part : a.status = 206 → first < past ∧
    a.contentRange = some ⟨some (first, past - 1), c.length⟩

theorem content_handedOut {sha : Text} {r : Request} {c : Bytes} {g : Range}
    (hg : parseRange r.range c.length = g)
    (hok : (content sha (r.method = "HEAD") g c).status = 200 ∨
      (content sha (r.method = "HEAD") g c).status = 206) :
    ∃ first past, HandedOut r c first past (content sha (r.method = "HEAD") g c) ∧
      (content sha (r.method = "HEAD") g c).etag = some sha := by
  cases g with
  | invalid =>
      rcases hok with h | h <;> cases h
  | whole =>
      refine ⟨0, c.length, ⟨?_, ⟨Nat.zero_le _, Nat.le_refl _⟩, rfl, ?_, fun _ => ⟨rfl, rfl, rfl⟩,
        ?_⟩, rfl⟩
      · rw [parseRange_whole hg]
        exact .whole
      · simp [content, slice]
      · intro h
        cases h
  | part first last =>
      obtain ⟨hasked, hle, hlt⟩ := parseRange_part hg
      refine ⟨first, last + 1, ⟨hasked, ⟨by omega, hlt⟩, ?_, by simp [content], ?_,
        fun _ => ⟨by omega, rfl⟩⟩, rfl⟩
      · change some (last - first + 1) = some (last + 1 - first)
        congr 1
        omega
      · intro h
        cases h

/-- A blob is handed out only to somebody who has a signature for it, and as its file is. -/
theorem handle_ok {secret : Text} {nowMs : Nat} {indexed : Text → Bool}
    {file : Text → Option Bytes} {r : Request}
    (hok : (handle hmac secret nowMs indexed file r).status = 200 ∨
      (handle hmac secret nowMs indexed file r).status = 206) :
    ∃ sha c first past, r.path = "/blob/".toList ++ sha ∧ file sha = some c ∧
      Granted hmac secret sha r.exp r.sig nowMs ∧
      HandedOut r c first past (handle hmac secret nowMs indexed file r) ∧
      (handle hmac secret nowMs indexed file r).etag = some sha := by
  generalize ha : handle hmac secret nowMs indexed file r = a at hok ⊢
  have hno : ∀ {status : Nat} {error : String}, status ≠ 200 → status ≠ 206 →
      a ≠ sendJson status error := by
    rintro status error h200 h206 rfl
    exact hok.elim h200 h206
  unfold handle at ha
  split at ha
  · exact absurd ha.symm (hno (by decide) (by decide))
  · split at ha
    · exact absurd ha.symm (hno (by decide) (by decide))
    · next sha hsha =>
        simp only at ha
        split at ha
        · exact absurd ha.symm (hno (by decide) (by decide))
        · next hv =>
            split at ha
            · exact absurd ha.symm (hno (by decide) (by decide))
            · split at ha
              · exact absurd ha.symm (hno (by decide) (by decide))
              · next c hc =>
                  obtain ⟨⟨hpath, _⟩, heq⟩ := Option.ite_none_right_eq_some.1 hsha
                  cases heq
                  subst ha
                  obtain ⟨first, past, hout, hetag⟩ :=
                    content_handedOut rfl hok
                  refine ⟨_, c, first, past, ?_, hc, verify_ok (not_not.1 hv), hout, hetag⟩
                  rw [← hpath, List.take_append_drop]

end LanServer
end Cache
end GateControl
