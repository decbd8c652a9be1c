import GateControl.Dns.ListParser

/-!
# ListChunks — a list reads the same however its bytes are cut into chunks

Two facts make the parser independent of the chunks.  A line is parsed in place, inside a larger
buffer, with the same result as on its own (`InPlace.parseLineBytes_eq`): what stands behind it begins
with a line end, and no test mistakes a line end for a byte of the line.  And reading a chunk is
reading its bytes one after the other (`readChunk_eq_feed`), where a single byte either extends
the pending line or ends it.
-/

namespace GateControl
namespace Dns

open Library

/-- The buffer holds `text` from `o` on, followed by a line end or by nothing. -/
structure InPlace (buf text : Bytes) (o : Nat) : Prop where
  same : ∀ i, i < text.length → buf[o + i]? = text[i]?
  stop : buf[o + text.length]? = none ∨ buf[o + text.length]? = some nl

namespace InPlace

variable {buf text : Bytes} {o : Nat}

theorem of_slice {s e : Nat} (hse : s ≤ e) (he : buf[e]? = some nl) :
    InPlace buf (slice buf s e) s := by
  have hlt : e < buf.length := (List.getElem?_eq_some_iff.1 he).1
  have hlen := length_slice (s := s) (Nat.le_of_lt hlt)
  refine ⟨?_, Or.inr ?_⟩
  · intro i hi
    exact (getElem?_slice buf (by omega)).symm
  · simpa [hlen, Nat.add_sub_cancel' hse] using he

/-! ## Single bytes -/

theorem getElem?_eq_some (h : InPlace buf text o) {i : Nat} (hi : i ≤ text.length) {c : UInt8}
    (hc : c ≠ nl) : buf[o + i]? = some c ↔ text[i]? = some c := by
  rcases Nat.lt_or_eq_of_le hi with hlt | rfl
  · simp [h.same i hlt]
  · -- behind the line neither buffer has a byte other than a line end
    rcases h.stop with hs | hs
    · simp [hs]
    · simp [hs, hc.symm]

theorem isSpaceAt_eq (h : InPlace buf text o) {i : Nat} (hi : i ≤ text.length) :
    isSpaceAt buf (o + i) = isSpaceAt text i := by
  rcases Nat.lt_or_eq_of_le hi with hlt | rfl
  · simp [isSpaceAt, h.same i hlt]
  · rcases h.stop with hs | hs
    · simp [isSpaceAt, hs]
    · simp [isSpaceAt, hs, nl, isSpace]

theorem slice_eq (h : InPlace buf text o) {i j : Nat} (hj : j ≤ text.length) :
    slice buf (o + i) (o + j) = slice text i j := by
  apply List.ext_getElem?
  intro k
  simp only [slice, List.getElem?_drop, List.getElem?_take]
  by_cases hk : i + k < j
  · have hk' : o + i + k < o + j := by omega
    simp only [hk, hk', if_true]
    simpa [Nat.add_assoc] using h.same (i + k) (by omega)
  · have hk' : ¬ o + i + k < o + j := by omega
    simp [hk, hk']

/-- A byte found in the line is found in the buffer; one that is not in the line is not found
before its end. -/
theorem indexOf_cases (h : InPlace buf text o) (c : UInt8) (i : Nat) :
    (∃ j, indexOf text c i = some j ∧ indexOf buf c (o + i) = some (o + j)) ∨
      (indexOf text c i = none ∧
        ∀ p, indexOf buf c (o + i) = some p → o + text.length ≤ p) := by
  cases hfind : indexOf text c i with
  | some j =>
      rcases indexOf_eq_some.1 hfind with ⟨hij, hc, hbefore⟩
      have hj : j < text.length := (List.getElem?_eq_some_iff.1 hc).1
      refine Or.inl ⟨j, rfl, indexOf_eq_some.2 ⟨by omega, ?_, ?_⟩⟩
      · rw [h.same j hj, hc]
      · intro k hk hlt hget
        obtain ⟨k, rfl⟩ : ∃ k', k = o + k' := ⟨k - o, by omega⟩
        rw [h.same k (by omega)] at hget
        exact hbefore k (by omega) (by omega) hget
  | none =>
      refine Or.inr ⟨rfl, ?_⟩
      intro p hp
      rcases indexOf_eq_some.1 hp with ⟨hip, hc, _⟩
      -- a place before the end of the line would be a place in the line
      by_contra hlt
      obtain ⟨k, rfl⟩ : ∃ k', p = o + k' := ⟨p - o, by omega⟩
      rw [h.same k (by omega)] at hc
      apply indexOf_eq_none.1 hfind
      refine List.mem_of_getElem? (i := k - i) ?_
      simpa [List.getElem?_drop, show i + (k - i) = k by omega] using hc

/-! ## Domains -/

theorem scanDomain_eq (h : InPlace buf text o) :
    ∀ (n i : Nat) (d : DomainScan), i + n ≤ text.length →
      scanDomain buf n (o + i) d = scanDomain text n i d := by
  intro n
  induction n with
  | zero =>
      intro i d _
      rfl
  | succ n ih =>
      intro i d hi
      simp only [scanDomain, h.same i (by omega)]
      cases text[i]? with
      | none =>
          rfl
      | some c =>
          cases hf : d.feed c with
          | error r =>
              simp [hf]
          | ok d' =>
              simpa [hf, Nat.add_assoc] using ih (i + 1) d' (by omega)

theorem hashDomainBytes_eq (h : InPlace buf text o) {i j : Nat} (hj : j ≤ text.length) :
    hashDomainBytes buf (o + i) (o + j) = hashDomainBytes text i j := by
  -- the final dot is inside the line
  have hdot : (o + j > o + i ∧ buf[o + j - 1]? = some 0x2e) ↔ (j > i ∧ text[j - 1]? = some 0x2e) := by
    constructor
    · rintro ⟨hlt, hb⟩
      rw [Nat.add_sub_assoc (by omega), h.same (j - 1) (by omega)] at hb
      exact ⟨by omega, hb⟩
    · rintro ⟨hlt, hb⟩
      rw [Nat.add_sub_assoc (by omega), h.same (j - 1) (by omega)]
      exact ⟨by omega, hb⟩
  have hend : (if o + j > o + i ∧ buf[o + j - 1]? = some 0x2e then o + j - 1 else o + j) =
      o + (if j > i ∧ text[j - 1]? = some 0x2e then j - 1 else j) := by
    simp only [hdot]
    split <;> omega
  have hle : (if j > i ∧ text[j - 1]? = some 0x2e then j - 1 else j) ≤ text.length := by
    split <;> omega
  -- both sides now scan the same number of bytes from corresponding places
  unfold hashDomainBytes
  simp only [hend, Nat.add_sub_add_left]
  generalize (if j > i ∧ text[j - 1]? = some 0x2e then j - 1 else j) = j' at hle ⊢
  by_cases hlen : j' - i < 3 ∨ j' - i > 253
  · simp [hlen]
  · simp only [hlen, if_false]
    rw [h.scanDomain_eq (j' - i) i .start (by omega)]

theorem domainHash_eq (h : InPlace buf text o) (host : UnicodeHost) {i j : Nat}
    (hj : j ≤ text.length) : domainHash host buf (o + i) (o + j) = domainHash host text i j := by
  simp only [domainHash, h.hashDomainBytes_eq hj, h.slice_eq hj]

/-! ## Loops over the line -/

theorem skipSpaces_eq (h : InPlace buf text o) :
    ∀ (n i : Nat), i + n ≤ text.length →
      skipSpaces buf n (o + i) = o + skipSpaces text n i := by
  intro n
  induction n with
  | zero =>
      intro i _
      rfl
  | succ n ih =>
      intro i hi
      simp only [skipSpaces, h.isSpaceAt_eq (show i ≤ text.length by omega)]
      split
      · exact ih (i + 1) (by omega)
      · rfl

theorem skipToken_eq (h : InPlace buf text o) :
    ∀ (n i : Nat), i + n ≤ text.length →
      skipToken buf n (o + i) = o + skipToken text n i := by
  intro n
  induction n with
  | zero =>
      intro i _
      rfl
  | succ n ih =>
      intro i hi
      simp only [skipToken, h.isSpaceAt_eq (show i ≤ text.length by omega)]
      split
      · rfl
      · exact ih (i + 1) (by omega)

theorem trimEnd_eq (h : InPlace buf text o) (i : Nat) :
    ∀ j, i ≤ j → j ≤ text.length → trimEnd buf (o + i) (o + j) = o + trimEnd text i j := by
  intro j
  induction j with
  | zero =>
      intro hi _
      obtain rfl : i = 0 := by omega
      -- an empty range is not looked at, whatever stands before the line
      cases o with
      | zero =>
          rfl
      | succ o =>
          simp [trimEnd]
  | succ j ih =>
      intro hi hj
      have hsp := h.isSpaceAt_eq (show j ≤ text.length by omega)
      rw [← Nat.add_assoc]
      simp only [trimEnd, hsp]
      by_cases hlt : i < j + 1
      · have hlt' : o + i < o + j + 1 := by omega
        simp only [hlt, hlt', decide_true, Bool.true_and]
        split
        · exact ih (by omega) (by omega)
        · rfl
      · have hlt' : ¬ o + i < o + j + 1 := by omega
        simp [hlt, Nat.add_assoc]

/-! ## Parsing the line -/

section Lines

variable {m : Type → Type} [Monad m] {host : UnicodeHost} {add : Kind → Nat → m Unit}

theorem addDomain_eq (h : InPlace buf text o) (kind : Kind) {i j : Nat} (hj : j ≤ text.length) :
    addDomain host add kind buf (o + i) (o + j) = addDomain host add kind text i j := by
  simp only [addDomain, h.domainHash_eq host hj]

theorem hostNames_eq (h : InPlace buf text o) {e : Nat} (he : e ≤ text.length) (p : Nat)
    (any : Bool) :
    hostNames host add buf (o + e) (o + p) any = hostNames host add text e p any := by
  -- along the rounds of the loop on the line alone
  induction hn : e - p using Nat.strong_induction_on generalizing p any with
  | _ n ih =>
      rw [hostNames, hostNames]
      by_cases hp : p < e
      · have hp' : o + p < o + e := by omega
        have ht := skipSpaces_le text (e - p) p
        have hte : skipSpaces text (e - p) p ≤ e := by omega
        have hq := skipToken_le text (e - skipSpaces text (e - p) p) (skipSpaces text (e - p) p)
        have hlt := lt_skipToken_skipSpaces text hp
        have hs := h.skipSpaces_eq (e - p) p (by omega)
        simp only [hp, hp', dif_pos, hs, Nat.add_sub_add_left]
        generalize skipSpaces text (e - p) p = t at *
        rw [h.skipToken_eq (e - t) t (by omega)]
        generalize skipToken text (e - t) t = q at *
        -- the next round begins at corresponding places, nearer to the end
        have hnext : ∀ b, hostNames host add buf (o + e) (o + q) b =
            hostNames host add text e q b := fun b => ih (e - q) (by omega) q b rfl
        simp only [hnext, h.domainHash_eq host (show q ≤ text.length by omega),
          gt_iff_lt, Nat.add_lt_add_iff_left]
      · have hp' : ¬ o + p < o + e := by omega
        simp [hp, hp']

theorem parseRule_eq (h : InPlace buf text o) (kind : Kind) {p e : Nat} (hp : p ≤ text.length)
    (he : e ≤ text.length) :
    parseRule host add kind buf (o + p) (o + e) = parseRule host add kind text p e := by
  have hbar : (0x7c : UInt8) ≠ nl := by decide
  simp only [parseRule, Nat.add_assoc, ne_eq, h.getElem?_eq_some hp hbar]
  by_cases h1 : text[p]? = some 0x7c
  · -- the first bar is a byte of the line, so the second is one or stands right behind it
    have hp1 : p + 1 ≤ text.length := (List.getElem?_eq_some_iff.1 h1).1
    simp only [h1, h.getElem?_eq_some hp1 hbar, not_true_eq_false, false_or]
    by_cases h2 : text[p + 1]? = some 0x7c
    · simp only [h2, not_true_eq_false, if_false]
      rcases h.indexOf_cases 0x5e (p + 2) with ⟨j, hl, hb⟩ | ⟨hl, hb⟩
      · have hj := indexOf_bounds hl
        simp only [hl, hb, ge_iff_le, Nat.add_le_add_iff_left, Nat.add_assoc, h.slice_eq he,
          h.addDomain_eq kind (Nat.le_of_lt hj.2)]
      · simp only [hl]
        cases hcaret : indexOf buf 0x5e (o + (p + 2)) with
        | none =>
            rfl
        | some caret =>
            -- a caret of a later line, which the code finds and then rejects
            have := hb caret hcaret
            have hge : caret ≥ o + e := by omega
            simp [hge]
    · simp [h2]
  · simp [h1]

theorem parseAdblock_eq (h : InPlace buf text o) {s e : Nat} (hs : s < text.length)
    (he : e ≤ text.length) :
    parseAdblock host add buf (o + s) (o + e) = parseAdblock host add text s e := by
  have hfirst := h.same s hs
  have hnext := h.getElem?_eq_some (show s + 1 ≤ text.length by omega)
    (show (0x40 : UInt8) ≠ nl by decide)
  simp only [parseAdblock, Nat.add_assoc, hfirst, hnext, h.parseRule_eq .suffix (Nat.le_of_lt hs) he]
  by_cases hex : text[s]? = some 0x40 ∧ text[s + 1]? = some 0x40
  · have hs2 : s + 2 ≤ text.length := (List.getElem?_eq_some_iff.1 hex.2).1
    simp only [h.parseRule_eq .except hs2 he]
  · simp only [hex, if_false]

theorem cutComment_eq (h : InPlace buf text o) {s e : Nat} (he : e ≤ text.length) :
    cutComment buf (o + s) (o + e) = o + cutComment text s e := by
  simp only [cutComment]
  rcases h.indexOf_cases 0x23 s with ⟨j, hl, hb⟩ | ⟨hl, hb⟩
  · have hsj := (indexOf_bounds hl).1
    simp only [hl, hb, Nat.add_lt_add_iff_left]
    split
    · exact h.trimEnd_eq s j hsj (by omega)
    · rfl
  · simp only [hl]
    cases hp : indexOf buf 0x23 (o + s) with
    | none =>
        rfl
    | some p =>
        -- a comment sign of a later line
        have := hb p hp
        have hlt : ¬ p < o + e := by omega
        simp [hlt]

theorem parseHosts_eq (h : InPlace buf text o) {s e : Nat} (hs : s ≤ text.length) (he : e ≤ text.length) :
    parseHosts host add buf (o + s) (o + e) = parseHosts host add text s e := by
  have hle := skipToken_le text (e - s) s
  have hip : ∀ p, p ≤ text.length → isIpToken buf (o + s) (o + p) = isIpToken text s p := by
    intro p hp
    simp only [isIpToken, Nat.add_sub_add_left, h.slice_eq hp]
  simp only [parseHosts, Nat.add_sub_add_left, h.skipToken_eq (e - s) s (by omega),
    hip _ (show skipToken text (e - s) s ≤ text.length by omega), h.hostNames_eq he]

theorem parseDomain_eq (h : InPlace buf text o) {s e : Nat} (hs : s < text.length)
    (he : e ≤ text.length) :
    parseDomain host add buf (o + s) (o + e) = parseDomain host add text s e := by
  have hfirst := h.same s hs
  have hdot := h.getElem?_eq_some (show s + 1 ≤ text.length by omega)
    (show (0x2e : UInt8) ≠ nl by decide)
  simp only [parseDomain, h.slice_eq he, Nat.add_assoc, hfirst, hdot]
  -- what stands before the domain is cut off at corresponding places
  have hbegin : (if text[s]? = some 0x2a ∧ text[s + 1]? = some 0x2e then o + (s + 2)
        else if text[s]? = some 0x2e then o + (s + 1) else o + s) =
      o + (if text[s]? = some 0x2a ∧ text[s + 1]? = some 0x2e then s + 2
        else if text[s]? = some 0x2e then s + 1 else s) := by
    split
    · rfl
    · split <;> rfl
  simp only [hbegin, h.addDomain_eq .suffix he]

/-- A line is parsed inside a larger buffer as it is parsed on its own. -/
theorem parseLineBytes_eq (h : InPlace buf text o) (format : Format) :
    parseLineBytes host add format buf o (o + text.length) =
      parseLineBytes host add format text 0 text.length := by
  have hs : skipSpaces buf text.length o = o + skipSpaces text text.length 0 :=
    h.skipSpaces_eq text.length 0 (by omega)
  have hsle := skipSpaces_le text text.length 0
  have hele := trimEnd_le text (skipSpaces text text.length 0) text.length
  have he := h.trimEnd_eq (skipSpaces text text.length 0) text.length (by omega) (Nat.le_refl _)
  simp only [parseLineBytes, Nat.add_sub_cancel_left, Nat.sub_zero, hs, he, ge_iff_le,
    Nat.add_le_add_iff_left]
  -- from here on the line is `[s, e)`, and not empty unless both sides give up
  generalize skipSpaces text text.length 0 = s at *
  generalize trimEnd text s text.length = e at *
  by_cases hse : e ≤ s
  · simp [hse]
  · have hlt : s < text.length := by omega
    have hcut : cutComment text s e ≤ text.length := (cutComment_le text s e).trans hele
    simp only [hse, if_false, h.same s hlt, h.cutComment_eq hele,
      h.parseHosts_eq (Nat.le_of_lt hlt) hcut, h.parseDomain_eq hlt hcut, h.parseAdblock_eq hlt hele]

end Lines

theorem isSkipped_eq (h : InPlace buf text o) :
    isSkipped buf o (o + text.length) = isSkipped text 0 text.length := by
  have hs : skipSpaces buf text.length o = o + skipSpaces text text.length 0 :=
    h.skipSpaces_eq text.length 0 (by omega)
  simp only [isSkipped, Nat.add_sub_cancel_left, Nat.sub_zero, hs, Nat.add_lt_add_iff_left]
  by_cases hlt : skipSpaces text text.length 0 < text.length
  · simp only [h.same _ hlt]
  · simp [hlt]

theorem readLine_eq (h : InPlace buf text o) (host : UnicodeHost) (format : Format)
    (maxEntries : Nat) :
    readLine host format maxEntries buf o (o + text.length) =
      readLine host format maxEntries text 0 text.length := by
  simp only [readLine, h.parseLineBytes_eq, h.isSkipped_eq]

end InPlace

/-! ## One byte after the other -/

/-- The pending line with one more byte. -/
def Pending.push (p : Pending) (c : UInt8) : Pending :=
  if p.overlong then p
  else
    let rest := p.rest.getD [] ++ [c]
    if rest.length > maxLine then ⟨none, true⟩ else ⟨some rest, false⟩

theorem Pending.foldl_push (p : Pending) (seg : Bytes) :
    seg.foldl push p =
      if p.overlong ∨ seg = [] then p
      else if (p.rest.getD [] ++ seg).length > maxLine then ⟨none, true⟩
      else ⟨some (p.rest.getD [] ++ seg), false⟩ := by
  induction seg generalizing p with
  | nil =>
      simp
  | cons c seg ih =>
      simp only [List.foldl_cons, ih]
      cases hover : p.overlong with
      | true =>
          simp [push, hover]
      | false =>
          -- too long already with this byte, or perhaps with a later one
          by_cases hlong : (p.rest.getD []).length + 1 > maxLine
          · have hlong' : (p.rest.getD []).length + (seg.length + 1) > maxLine := by omega
            simp [push, hover, hlong, hlong']
          · by_cases hseg : seg = []
            · simp [push, hover, hlong, hseg]
            · simp [push, hover, hlong, hseg]

theorem keepTail_eq (chunk : Bytes) (s : Nat) (p : Pending) :
    keepTail chunk s p = (chunk.drop s).foldl Pending.push p := by
  have hend : chunk.drop s = [] ↔ ¬ s < chunk.length := by simp
  simp only [Pending.foldl_push, hend]
  cases hover : p.overlong with
  | true =>
      simp [keepTail, hover]
  | false =>
      by_cases hs : s < chunk.length
      · simp [keepTail, hover, hs]
      · simp [keepTail, hover, hs]

section Stream

variable {m : Type → Type} [Monad m] (line : Bytes → Nat → Nat → m Unit) (skip : m Unit)

/-- A byte of the stream: a line end, or one more byte of the pending line. -/
def feedByte (p : Pending) (c : UInt8) : m Pending :=
  if c = nl then
    if p.overlong then do
      skip
      pure { p with overlong := false }
    else do
      if (p.rest.getD []).length ≤ maxLine then line (p.rest.getD []) 0 (p.rest.getD []).length
        else skip
      pure { p with rest := none }
  else pure (p.push c)

variable [LawfulMonad m] {line skip}

theorem foldlM_feedByte (seg : Bytes) (hseg : nl ∉ seg) (p : Pending) :
    seg.foldlM (feedByte line skip) p = pure (seg.foldl Pending.push p) := by
  induction seg generalizing p with
  | nil =>
      rfl
  | cons c seg ih =>
      simp only [List.mem_cons, not_or] at hseg
      simp [feedByte, Ne.symm hseg.1, ih hseg.2]

/-- The bytes up to a line end, and the line end itself. -/
theorem endLine_eq_feed
    (hline : ∀ buf s e, s ≤ e → buf[e]? = some nl →
      line buf s e = line (slice buf s e) 0 (slice buf s e).length)
    {chunk : Bytes} {s e : Nat} (hse : s ≤ e) (he : chunk[e]? = some nl)
    (hseg : nl ∉ slice chunk s e) (p : Pending) :
    endLine line skip chunk s e p =
      (slice chunk s e ++ [nl]).foldlM (feedByte line skip) p := by
  have hlen := length_slice (s := s) (Nat.le_of_lt (List.getElem?_eq_some_iff.1 he).1)
  have hin := hline chunk s e hse he
  -- the bytes before the line end are pushed, the line end then decides
  rw [List.foldlM_append, foldlM_feedByte _ hseg, pure_bind, Pending.foldl_push]
  rcases p with ⟨rest, overlong⟩
  cases overlong with
  | true =>
      simp [feedByte, endLine]
  | false =>
      cases rest with
      | some rest =>
          by_cases hnil : slice chunk s e = []
          · simp [feedByte, endLine, hnil]
          · by_cases hlong : rest.length + (slice chunk s e).length ≤ maxLine
            · simp [endLine, feedByte, hnil, hlong, Nat.not_lt.2 hlong]
            · simp [endLine, feedByte, hnil, hlong, Nat.lt_of_not_le hlong]
      | none =>
          -- the fast path: the line is read inside the chunk
          rw [hlen] at hin
          by_cases hnil : slice chunk s e = []
          · have hzero : e - s = 0 := by simpa [hnil] using hlen.symm
            simp [endLine, feedByte, hin, hnil, hzero]
          · by_cases hlong : e - s ≤ maxLine
            · simp [endLine, feedByte, hin, hnil, hlong, hlen, Nat.not_lt.2 hlong]
            · simp [endLine, feedByte, hnil, hlong, hlen, Nat.lt_of_not_le hlong]

theorem nl_not_mem_slice {chunk : Bytes} {s e : Nat}
    (h : ∀ k, s ≤ k → k < e → chunk[k]? ≠ some nl) : nl ∉ slice chunk s e := by
  intro hmem
  rcases List.mem_iff_getElem?.1 hmem with ⟨k, hk⟩
  have hlt : k < (slice chunk s e).length := (List.getElem?_eq_some_iff.1 hk).1
  have hke : s + k < e := by
    simp only [slice, List.length_drop, List.length_take] at hlt
    omega
  rw [getElem?_slice chunk hke] at hk
  exact h (s + k) (by omega) hke hk

theorem drop_eq_slice_append {chunk : Bytes} {s e : Nat} (hse : s ≤ e) (he : chunk[e]? = some nl) :
    chunk.drop s = (slice chunk s e ++ [nl]) ++ chunk.drop (e + 1) := by
  rcases List.getElem?_eq_some_iff.1 he with ⟨hlt, hval⟩
  have htake : (chunk.take e).length = e := by simp [Nat.min_eq_left (Nat.le_of_lt hlt)]
  calc chunk.drop s
      = (chunk.take e ++ chunk.drop e).drop s := by rw [List.take_append_drop]
    _ = slice chunk s e ++ chunk.drop e := by
        rw [List.drop_append_of_le_length (by omega)]
        rfl
    _ = (slice chunk s e ++ [nl]) ++ chunk.drop (e + 1) := by
        rw [List.drop_eq_getElem_cons hlt, hval, List.append_assoc]
        rfl

/-- Reading a chunk is feeding its bytes. -/
theorem readChunk_eq_feed
    (hline : ∀ buf s e, s ≤ e → buf[e]? = some nl →
      line buf s e = line (slice buf s e) 0 (slice buf s e).length)
    (chunk : Bytes) (p : Pending) :
    readChunk line skip p chunk = chunk.foldlM (feedByte line skip) p := by
  have hfrom : ∀ s p, (scanLines line skip chunk s p >>= fun r => pure (keepTail chunk r.1 r.2)) =
      (chunk.drop s).foldlM (feedByte line skip) p := by
    -- from line end to line end
    intro s p
    induction hn : chunk.length - s using Nat.strong_induction_on generalizing s p with
    | _ n ih =>
        rw [scanLines]
        split
        · rename_i hnone
          -- no line ends any more: the tail is pushed
          have hfree := indexOf_eq_none.1 hnone
          rw [pure_bind, foldlM_feedByte _ hfree, keepTail_eq]
        · rename_i e hsome
          rcases indexOf_eq_some.1 hsome with ⟨hse, he, hbefore⟩
          have hlt := (indexOf_bounds hsome).2
          -- one line is fed, the rest of the chunk by the induction hypothesis
          have hrest : (fun p' => scanLines line skip chunk (e + 1) p' >>=
              fun r => pure (keepTail chunk r.1 r.2)) =
                fun p' => (chunk.drop (e + 1)).foldlM (feedByte line skip) p' :=
            funext fun p' => ih (chunk.length - (e + 1)) (by omega) (e + 1) p' rfl
          rw [bind_assoc, endLine_eq_feed hline hse he (nl_not_mem_slice hbefore), hrest,
            ← List.foldlM_append, ← drop_eq_slice_append hse he]
  simpa [readChunk] using hfrom 0 p

/-- Reading a stream is feeding the bytes of all its chunks. -/
theorem foldlM_readChunk
    (hline : ∀ buf s e, s ≤ e → buf[e]? = some nl →
      line buf s e = line (slice buf s e) 0 (slice buf s e).length)
    (chunks : List Bytes) (p : Pending) :
    chunks.foldlM (readChunk line skip) p = chunks.flatten.foldlM (feedByte line skip) p := by
  induction chunks generalizing p with
  | nil =>
      rfl
  | cons chunk chunks ih =>
      simp only [List.foldlM_cons, List.flatten_cons, List.foldlM_append,
        readChunk_eq_feed hline, ih]

end Stream

/-- A line that ends in the buffer is read as it is on its own. -/
theorem readLine_slice (host : UnicodeHost) (format : Format) (maxEntries : Nat) (buf : Bytes)
    (s e : Nat) (hse : s ≤ e) (he : buf[e]? = some nl) :
    readLine host format maxEntries buf s e =
      readLine host format maxEntries (slice buf s e) 0 (slice buf s e).length := by
  have hin := InPlace.of_slice hse he
  have hlen : s + (slice buf s e).length = e := by
    rw [length_slice (Nat.le_of_lt (List.getElem?_eq_some_iff.1 he).1), Nat.add_sub_cancel' hse]
  simpa [hlen] using hin.readLine_eq host format maxEntries

/-- However the bytes of a list are cut into chunks, the parser reads the same entries and counts
the same lines, or finds too many entries. -/
theorem parseListStream_chunks (host : UnicodeHost) (format : Format) (maxEntries : Nat)
    (expectedEntries : Int) (chunks chunks' : List Bytes) (h : chunks.flatten = chunks'.flatten) :
    parseListStream host chunks format maxEntries expectedEntries =
      parseListStream host chunks' format maxEntries expectedEntries := by
  -- both sides feed the same bytes, and end with the same pending line
  simp only [parseListStream, readStream,
    foldlM_readChunk (readLine_slice host format maxEntries), h]

/-- Two cuts of the bytes of `ads.ex\n@@`, one of them inside the name. -/
theorem parseListStream_chunks_ads :
    parseListStream .ascii [[0x61, 0x64], [0x73, 0x2e, 0x65, 0x78, 0x0a, 0x40], [], [0x40]]
        .domains 5 0 =
      parseListStream .ascii [[0x61, 0x64, 0x73, 0x2e, 0x65, 0x78, 0x0a], [0x40, 0x40]]
        .domains 5 0 :=
  parseListStream_chunks .ascii .domains 5 0 _ _ rfl

end Dns
end GateControl
