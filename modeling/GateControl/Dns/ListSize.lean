import GateControl.Library.Keeps
import GateControl.Dns.ListChunks

/-!
# ListSize — how many entries a list has

The parser stops with an error at the first entry beyond its limit, so a list that it returns has
at most that many (`size_le_of_parse`), and no more than its file has bytes (`size_le_length`).  It
may have fewer than its file has lines, since names
with the same hash are kept once; a file whose lines are entries with different hashes is a list
of as many entries (`parse_of_entries`).
-/

namespace GateControl
namespace Dns

open Library

/-! ## Buffers of hashes -/

namespace HashBuilder

theorem length_dropRepeats_le (prev : Option Nat) (as : List Nat) :
    (dropRepeats prev as).length ≤ as.length := by
  induction as generalizing prev with
  | nil =>
      exact Nat.le_refl 0
  | cons a as ih =>
      simp only [dropRepeats]
      split
      · exact (ih (some a)).trans (Nat.le_succ _)
      · simpa using ih (some a)

theorem length_finish_le (b : HashBuilder) : b.finish.length ≤ b.n := by
  calc b.finish.length
      ≤ ((b.buf.take b.n).mergeSort (· ≤ ·)).length := length_dropRepeats_le none _
    _ ≤ b.n := by
        rw [List.length_mergeSort, List.length_take]
        exact Nat.min_le_left _ _

@[simp] theorem addHash_n (b : HashBuilder) (h : Nat) : (b.addHash h).n = b.n + 1 := rfl

/-- The part in use holds the hashes, and the buffer has room to grow. -/
structure Holds (b : HashBuilder) (hashes : List Nat) : Prop where
  used : b.buf.take b.n = hashes
  within : b.n ≤ b.buf.length
  nonempty : 0 < b.buf.length

theorem new_holds {initial : Nat} (h : 0 < initial) : (new initial).Holds [] :=
  ⟨rfl, Nat.zero_le _, by simpa [new] using h⟩

theorem Holds.length {b : HashBuilder} {hashes : List Nat} (hb : b.Holds hashes) :
    hashes.length = b.n := by
  rw [← hb.used, List.length_take, Nat.min_eq_left hb.within]

theorem Holds.addHash {b : HashBuilder} {hashes : List Nat} (hb : b.Holds hashes) (h : Nat) :
    (b.addHash h).Holds (hashes ++ [h]) := by
  have hwithin := hb.within
  have hpos := hb.nonempty
  -- full or not, there is a place behind the part in use
  obtain ⟨buf, hbuf, hlt, hused⟩ : ∃ buf : List Nat, (b.addHash h).buf = buf.set b.n h ∧
      b.n < buf.length ∧ buf.take b.n = hashes := by
    by_cases hfull : b.n = b.buf.length
    · refine ⟨b.buf ++ List.replicate b.buf.length 0, by simp [HashBuilder.addHash, hfull], ?_, ?_⟩
      · rw [List.length_append, List.length_replicate]
        omega
      · rw [List.take_append_of_le_length hwithin]
        exact hb.used
    · exact ⟨b.buf, by simp [HashBuilder.addHash, hfull], by omega, hb.used⟩
  refine ⟨?_, ?_, ?_⟩
  · have hzero : b.n - hashes.length = 0 := by rw [hb.length, Nat.sub_self]
    rw [hbuf, addHash_n, List.take_set, List.take_succ_eq_append_getElem hlt, hused,
      List.set_append_right _ _ (Nat.le_of_eq hb.length), hzero]
    rfl
  · rw [hbuf, addHash_n, List.length_set]
    exact hlt
  · rw [hbuf, List.length_set]
    omega

theorem dropRepeats_of_nodup {as : List Nat} {prev : Option Nat} (hn : as.Nodup)
    (hprev : ∀ a ∈ as, prev ≠ some a) : dropRepeats prev as = as := by
  induction as generalizing prev with
  | nil =>
      rfl
  | cons a as ih =>
      have hn' := List.nodup_cons.1 hn
      have hrest : ∀ x ∈ as, some a ≠ some x := fun x hx heq =>
        hn'.1 (Option.some.inj heq ▸ hx)
      rw [dropRepeats, if_neg (hprev a List.mem_cons_self), ih hn'.2 hrest]

/-- Different hashes are all kept. -/
theorem Holds.length_finish {b : HashBuilder} {hashes : List Nat} (hb : b.Holds hashes)
    (hn : hashes.Nodup) : b.finish.length = hashes.length := by
  have hsorted : (hashes.mergeSort (· ≤ ·)).Nodup := (List.mergeSort_perm hashes _).nodup_iff.2 hn
  rw [finish, hb.used, dropRepeats_of_nodup hsorted (fun _ _ => by simp), List.length_mergeSort]

end HashBuilder

/-! ## The limit of the parser -/

/-- No more hashes are stored than entries were counted, and no more were counted than allowed. -/
def Parsing.Bounded (limit : Nat) (b : Parsing) : Prop :=
  b.suffix.n + b.exact.n + b.except.n ≤ b.total ∧ b.total ≤ limit

section Lines

variable {host : UnicodeHost} {limit : Nat}

theorem addEntry_keeps (kind : Kind) (h : Nat) : Keeps (Parsing.Bounded limit) (addEntry limit kind h) := by
  intro b a b' hb hadd
  simp only [addEntry] at hadd
  split at hadd
  · cases hadd
  · rename_i hle
    cases hadd
    rcases hb with ⟨hstored, _⟩
    -- whatever the kind, one hash more and one entry more
    cases kind with
    | suffix =>
        simp only [Parsing.Bounded, Parsing.addHash, HashBuilder.addHash_n]
        omega
    | exact =>
        simp only [Parsing.Bounded, Parsing.addHash, HashBuilder.addHash_n]
        omega
    | except =>
        simp only [Parsing.Bounded, Parsing.addHash, HashBuilder.addHash_n]
        omega

theorem addDomain_keeps (kind : Kind) (buf : Bytes) (s e : Nat) :
    Keeps (Parsing.Bounded limit) (addDomain host (addEntry limit) kind buf s e) := by
  unfold addDomain
  split
  · exact Keeps.pure false
  · rename_i h _
    exact Keeps.bind (addEntry_keeps kind h) fun _ => Keeps.pure true

theorem hostNames_keeps (buf : Bytes) (e p : Nat) (any : Bool) :
    Keeps (Parsing.Bounded limit) (hostNames host (addEntry limit) buf e p any) := by
  -- along the rounds of the loop
  induction hn : e - p using Nat.strong_induction_on generalizing p any with
  | _ n ih =>
      rw [hostNames]
      by_cases hp : p < e
      · have hlt := lt_skipToken_skipSpaces buf hp
        have hnext : ∀ any, Keeps (Parsing.Bounded limit) (hostNames host (addEntry limit) buf e
            (skipToken buf (e - skipSpaces buf (e - p) p) (skipSpaces buf (e - p) p)) any) :=
          fun any => ih _ (by omega) _ any rfl
        simp only [hp, dif_pos]
        split
        · split
          · rename_i h _
            exact Keeps.ite (hnext any) (Keeps.bind (addEntry_keeps .exact h) fun _ => hnext true)
          · exact hnext any
        · exact hnext any
      · simp only [hp, dif_neg, not_false_eq_true]
        exact Keeps.pure any

theorem parseRule_keeps (kind : Kind) (buf : Bytes) (p e : Nat) :
    Keeps (Parsing.Bounded limit) (parseRule host (addEntry limit) kind buf p e) := by
  unfold parseRule
  refine Keeps.ite (Keeps.pure false) ?_
  dsimp only
  split
  · exact Keeps.pure false
  · exact Keeps.ite (Keeps.pure false)
      (Keeps.ite (addDomain_keeps kind buf _ _) (Keeps.pure false))

theorem parseLineBytes_keeps (format : Format) (buf : Bytes) (s e : Nat) :
    Keeps (Parsing.Bounded limit) (parseLineBytes host (addEntry limit) format buf s e) := by
  refine Keeps.ite (Keeps.pure false) ?_
  cases format with
  | adblock =>
      exact Keeps.ite (Keeps.pure false)
        (Keeps.ite (parseRule_keeps .except buf _ _) (parseRule_keeps .suffix buf _ _))
  | hosts =>
      exact Keeps.ite (Keeps.pure false) (Keeps.ite (hostNames_keeps buf _ _ _) (Keeps.pure false))
  | domains =>
      exact Keeps.ite (Keeps.pure false)
        (Keeps.ite (Keeps.pure false) (addDomain_keeps .suffix buf _ _))

theorem skipLine_keeps : Keeps (Parsing.Bounded limit) skipLine :=
  Keeps.modify fun _ hb => hb

theorem readLine_keeps (format : Format) (buf : Bytes) (s e : Nat) :
    Keeps (Parsing.Bounded limit) (readLine host format limit buf s e) := by
  refine Keeps.bind (Keeps.modify fun _ hb => hb) fun _ => ?_
  refine Keeps.bind (parseLineBytes_keeps format buf s e) fun _ => ?_
  exact Keeps.ite skipLine_keeps (Keeps.pure _)

end Lines

section Stream

variable {I : Parsing → Prop} {line : Bytes → Nat → Nat → ParseM Unit} {skip : ParseM Unit}

theorem endLine_keeps (hline : ∀ buf s e, Keeps I (line buf s e)) (hskip : Keeps I skip)
    (chunk : Bytes) (s e : Nat) (p : Pending) : Keeps I (endLine line skip chunk s e p) := by
  refine Keeps.ite (Keeps.bind hskip fun _ => Keeps.pure _) ?_
  split
  · exact Keeps.ite (Keeps.bind (hline _ _ _) fun _ => Keeps.pure _)
      (Keeps.bind hskip fun _ => Keeps.pure _)
  · exact Keeps.ite (Keeps.bind (hline _ _ _) fun _ => Keeps.pure _)
      (Keeps.bind hskip fun _ => Keeps.pure _)

theorem scanLines_keeps (hline : ∀ buf s e, Keeps I (line buf s e)) (hskip : Keeps I skip)
    (chunk : Bytes) (s : Nat) (p : Pending) : Keeps I (scanLines line skip chunk s p) := by
  induction hn : chunk.length - s using Nat.strong_induction_on generalizing s p with
  | _ n ih =>
      rw [scanLines]
      split
      · exact Keeps.pure _
      · rename_i e he
        have := indexOf_bounds he
        exact Keeps.bind (endLine_keeps hline hskip chunk s e p) fun p =>
          ih (chunk.length - (e + 1)) (by omega) (e + 1) p rfl

theorem readStream_keeps (hline : ∀ buf s e, Keeps I (line buf s e)) (hskip : Keeps I skip)
    (chunks : List Bytes) : Keeps I (readStream line skip chunks) := by
  refine Keeps.bind (Keeps.foldlM ?_ chunks _) fun p => ?_
  · intro p chunk
    exact Keeps.bind (scanLines_keeps hline hskip chunk 0 p) fun _ => Keeps.pure _
  · split
    · exact Keeps.ite (Keeps.pure _) (hline _ _ _)
    · exact Keeps.pure _

end Stream

theorem Parsing.start_bounded (format : Format) (limit : Nat) (expected : Int) :
    (Parsing.start format limit expected).Bounded limit :=
  ⟨Nat.le_refl 0, Nat.zero_le limit⟩

theorem Parsing.Bounded.size_finish_le {limit : Nat} {b : Parsing} (hb : b.Bounded limit) :
    b.finish.list.size ≤ b.total := by
  have hsuffix := b.suffix.length_finish_le
  have hexact := b.exact.length_finish_le
  simp only [Parsing.finish, CompactList.size]
  rcases hb with ⟨hstored, _⟩
  omega

theorem parse_run {host : UnicodeHost} {chunks : List Bytes} {format : Format} {limit : Nat}
    {expected : Int} {l : ParsedList}
    (h : parseListStream host chunks format limit expected = .ok l) :
    ∃ r, readStream (readLine host format limit) skipLine chunks (.start format limit expected) =
      .ok r ∧ r.2.Bounded limit ∧ l = r.2.finish := by
  unfold parseListStream at h
  cases hrun : readStream (readLine host format limit) skipLine chunks
      (.start format limit expected) with
  | error e =>
      rw [hrun] at h
      cases h
  | ok r =>
      rw [hrun] at h
      cases h
      exact ⟨r, rfl, readStream_keeps (fun buf s e => readLine_keeps format buf s e) skipLine_keeps
        chunks _ r.1 r.2 (Parsing.start_bounded format limit expected) hrun, rfl⟩

/-- A list has no more entries than the parser was told to accept. -/
theorem size_le_of_parse {host : UnicodeHost} {chunks : List Bytes} {format : Format} {limit : Nat}
    {expected : Int} {l : ParsedList}
    (h : parseListStream host chunks format limit expected = .ok l) : l.list.size ≤ limit := by
  rcases parse_run h with ⟨r, _, hb, rfl⟩
  exact hb.size_finish_le.trans hb.2

/-! ## Entries and bytes -/

section Lines

variable {host : UnicodeHost} {limit : Nat}

theorem addEntry_raises (kind : Kind) (h : Nat) : Raises Parsing.total 1 (addEntry limit kind h) := by
  intro b a b' hadd
  simp only [addEntry] at hadd
  split at hadd
  · cases hadd
  · cases hadd
    cases kind <;> exact Nat.le_refl _

theorem addDomain_raises (kind : Kind) (buf : Bytes) (s e : Nat) :
    Raises Parsing.total 1 (addDomain host (addEntry limit) kind buf s e) := by
  unfold addDomain
  split
  · exact .pure false
  · exact (Raises.bind (addEntry_raises kind _) fun _ => .pure (n := 0) true)

theorem hostNames_raises (buf : Bytes) (e p : Nat) (any : Bool) :
    Raises Parsing.total (e - p) (hostNames host (addEntry limit) buf e p any) := by
  -- along the rounds of the loop, each of which passes a byte
  induction hn : e - p using Nat.strong_induction_on generalizing p any with
  | _ n ih =>
      rw [hostNames]
      by_cases hp : p < e
      · have hlt := lt_skipToken_skipSpaces buf hp
        simp only [hp, dif_pos]
        generalize skipToken buf (e - skipSpaces buf (e - p) p) (skipSpaces buf (e - p) p) = p' at hlt
        have hnext : ∀ any, Raises Parsing.total (e - p') (hostNames host (addEntry limit) buf e p' any) :=
          fun any => ih _ (by omega) p' any rfl
        have hpass : e - p' ≤ n := by omega
        have hadd : 1 + (e - p') ≤ n := by omega
        split
        · split
          · exact .ite (fun _ => (hnext any).mono hpass) fun _ =>
              (Raises.bind (addEntry_raises .exact _) fun _ => hnext true).mono hadd
          · exact (hnext any).mono hpass
        · exact (hnext any).mono hpass
      · simp only [hp, dif_neg, not_false_eq_true]
        exact .pure any

theorem parseRule_raises (kind : Kind) (buf : Bytes) (p e : Nat) :
    Raises Parsing.total 1 (parseRule host (addEntry limit) kind buf p e) := by
  unfold parseRule
  refine .ite (fun _ => .pure false) fun _ => ?_
  dsimp only
  split
  · exact .pure false
  · exact .ite (fun _ => .pure false) fun _ =>
      .ite (fun _ => addDomain_raises kind buf _ _) fun _ => .pure false

theorem parseLineBytes_raises (format : Format) (buf : Bytes) (s e : Nat) :
    Raises Parsing.total (e - s) (parseLineBytes host (addEntry limit) format buf s e) := by
  have hs := le_skipSpaces buf (e - s) s
  have he := trimEnd_le buf (skipSpaces buf (e - s) s) e
  refine .ite (fun _ => .pure false) fun hlt => ?_
  -- a line that is not blank has a byte for its only entry
  have hone : 1 ≤ e - s := by omega
  cases format with
  | adblock =>
      refine .ite (fun _ => .pure false) fun _ => .ite (fun _ => ?_) fun _ => ?_
      · exact (parseRule_raises .except buf _ _).mono hone
      · exact (parseRule_raises .suffix buf _ _).mono hone
  | hosts =>
      refine .ite (fun _ => .pure false) fun _ => .ite (fun _ => ?_) fun _ => .pure false
      refine (hostNames_raises buf _ _ _).mono ?_
      have hcut := cutComment_le buf (skipSpaces buf (e - s) s)
        (trimEnd buf (skipSpaces buf (e - s) s) e)
      have htoken := le_skipToken buf (cutComment buf (skipSpaces buf (e - s) s)
        (trimEnd buf (skipSpaces buf (e - s) s) e) - skipSpaces buf (e - s) s)
        (skipSpaces buf (e - s) s)
      omega
  | domains =>
      exact .ite (fun _ => .pure false) fun _ => .ite (fun _ => .pure false) fun _ =>
        (addDomain_raises .suffix buf _ _).mono hone

theorem skipLine_raises : Raises Parsing.total 0 skipLine :=
  .modify fun _ => rfl

theorem readLine_raises (format : Format) (buf : Bytes) (s e : Nat) :
    Raises Parsing.total (e - s) (readLine host format limit buf s e) := by
  refine Raises.mono (n := 0 + (e - s + 0)) (Raises.bind (.modify fun _ => rfl) fun _ =>
    Raises.bind (parseLineBytes_raises format buf s e) fun _ => ?_) (by omega)
  exact .ite (fun _ => skipLine_raises) fun _ => .pure _

/-- From `s` on, no more entries were counted than bytes passed, and nothing is pending. -/
def CountsBytes (chunk : Bytes) (s : Nat) (x : ParseM (Nat × Pending)) : Prop :=
  ∀ b r b', x b = .ok (r, b') → b'.total + s ≤ b.total + r.1 ∧ (r.1 ≤ chunk.length ∨ r.1 = s) ∧
    r.2 = ⟨none, false⟩

theorem scanLines_countsBytes (format : Format) (chunk : Bytes) (s : Nat) :
    CountsBytes chunk s (scanLines (readLine host format limit) skipLine chunk s ⟨none, false⟩) := by
  induction hn : chunk.length - s using Nat.strong_induction_on generalizing s with
  | _ n ih =>
      rw [scanLines]
      split
      · intro b r b' h
        cases h
        exact ⟨Nat.le_refl _, Or.inr rfl, rfl⟩
      · rename_i e he
        intro b r b' h
        have hbounds := indexOf_bounds he
        have hend : endLine (readLine host format limit) skipLine chunk s e ⟨none, false⟩ =
            ((if e - s ≤ maxLine then readLine host format limit chunk s e else skipLine) >>=
              fun _ => pure ⟨none, false⟩) := by
          simp only [endLine, Bool.false_eq_true, if_false]
          split <;> rfl
        simp only [hend, bind_assoc, pure_bind] at h
        have hline : Raises Parsing.total (e - s)
            (if e - s ≤ maxLine then readLine host format limit chunk s e else skipLine) :=
          .ite (fun _ => readLine_raises format chunk s e) fun _ =>
            skipLine_raises.mono (Nat.zero_le _)
        cases hr : (if e - s ≤ maxLine then readLine host format limit chunk s e else skipLine) b with
        | error err =>
            simp only [bind, StateT.bind, hr, Except.bind] at h
            cases h
        | ok r₁ =>
            have hfirst := hline b r₁.1 r₁.2 hr
            simp only [bind, StateT.bind, hr, Except.bind] at h
            have hrest := ih (chunk.length - (e + 1)) (by omega) (e + 1) rfl r₁.2 r b' h
            exact ⟨by omega, Or.inl (by omega), hrest.2.2⟩

/-- What is left behind the last line end is one line more. -/
theorem lastLine_raises (host : UnicodeHost) (limit : Nat) (format : Format) (content : Bytes)
    (s : Nat) :
    Raises Parsing.total (content.length - s)
      (match (keepTail content s ⟨none, false⟩).rest with
      | some rest => if (keepTail content s ⟨none, false⟩).overlong then pure ()
          else readLine host format limit rest 0 rest.length
      | none => (pure () : ParseM Unit)) := by
  have htail : (keepTail content s ⟨none, false⟩).rest = none ∨
      keepTail content s ⟨none, false⟩ = ⟨some (content.drop s), false⟩ := by
    simp only [keepTail]
    split
    · split
      · exact Or.inl rfl
      · exact Or.inr rfl
    · exact Or.inl rfl
  rcases htail with htail | htail
  · rw [htail]
    exact .pure ()
  · rw [htail]
    have hrest : Raises Parsing.total ((content.drop s).length - 0)
        (readLine host format limit (content.drop s) 0 (content.drop s).length) :=
      readLine_raises format (content.drop s) 0 (content.drop s).length
    simpa using hrest

end Lines

/-- A list has no more entries than its file has bytes. -/
theorem size_le_length {host : UnicodeHost} {content : Bytes} {format : Format} {limit : Nat}
    {expected : Int} {l : ParsedList}
    (h : parseListStream host [content] format limit expected = .ok l) :
    l.list.size ≤ content.length := by
  rcases parse_run h with ⟨r, hrun, hb, rfl⟩
  refine hb.size_finish_le.trans ?_
  simp only [readStream, List.foldlM_cons, List.foldlM_nil, readChunk, bind_assoc, pure_bind] at hrun
  cases hscan : scanLines (readLine host format limit) skipLine content 0 ⟨none, false⟩
      (.start format limit expected) with
  | error e =>
      simp only [bind, StateT.bind, hscan, Except.bind] at hrun
      cases hrun
  | ok p =>
      simp only [bind, StateT.bind, hscan, Except.bind] at hrun
      obtain ⟨htotal, hle, hnone⟩ := scanLines_countsBytes format content 0 _ p.1 p.2 hscan
      rw [hnone] at hrun
      have hlast := lastLine_raises host limit format content p.1.1 p.2 r.1 r.2 hrun
      have hstart : (Parsing.start format limit expected).total = 0 := rfl
      omega

/-! ## Files of entries -/

/-- In the format `domains` the line is an entry with the hash `h`. -/
structure EntryLine (host : UnicodeHost) (line : Bytes) (h : Nat) : Prop where
  oneLine : nl ∉ line
  short : line.length ≤ maxLine
  parse : ∀ limit, parseLineBytes host (addEntry limit) .domains line 0 line.length =
    (addEntry limit .suffix h >>= fun _ => pure true)

/-- The parser after entries with the hashes. -/
structure Parsing.Filled (b : Parsing) (hashes : List Nat) : Prop where
  suffix : b.suffix.Holds hashes
  exact : b.exact.n = 0
  total : b.total = hashes.length

/-- The lines, each with its line end. -/
def linesOf (es : List (Bytes × Nat)) : Bytes := es.flatMap fun e => e.1 ++ [nl]

section Entries

variable {host : UnicodeHost} {limit : Nat}

theorem pure_parse {α : Type} (a : α) (b : Parsing) : (pure a : ParseM α) b = .ok (a, b) := rfl

theorem modify_parse (f : Parsing → Parsing) (b : Parsing) :
    (modify f : ParseM Unit) b = .ok ((), f b) := rfl

theorem readLine_entry {line : Bytes} {h : Nat} (hline : EntryLine host line h) {b : Parsing}
    {hashes : List Nat} (hb : b.Filled hashes) (hroom : hashes.length < limit) :
    ∃ b', readLine host .domains limit line 0 line.length b = .ok ((), b') ∧
      b'.Filled (hashes ++ [h]) := by
  have htotal : ¬ b.total + 1 > limit := by
    have := hb.total
    omega
  refine ⟨{ b with
    suffix := b.suffix.addHash h
    lines := b.lines + 1
    total := b.total + 1 }, ?_, ⟨hb.suffix.addHash h, hb.exact, ?_⟩⟩
  · simp only [readLine, hline.parse]
    simp [bind, StateT.bind, Except.bind, modify_parse, pure_parse, addEntry, htotal,
      Parsing.addHash]
  · rw [List.length_append, List.length_singleton, ← hb.total]

/-- A line and its line end are read as the entry. -/
theorem feed_entry {line : Bytes} {h : Nat} (hline : EntryLine host line h) {b : Parsing}
    {hashes : List Nat} (hb : b.Filled hashes) (hroom : hashes.length < limit) :
    ∃ b', (line ++ [nl]).foldlM (feedByte (readLine host .domains limit) skipLine) ⟨none, false⟩ b =
        .ok (⟨none, false⟩, b') ∧ b'.Filled (hashes ++ [h]) := by
  rcases readLine_entry hline hb hroom with ⟨b', hread, hb'⟩
  refine ⟨b', ?_, hb'⟩
  rw [List.foldlM_append, foldlM_feedByte line hline.oneLine, pure_bind, Pending.foldl_push]
  have hshort := hline.short
  by_cases hnil : line = []
  · subst hnil
    have hread' : readLine host .domains limit [] 0 0 b = .ok ((), b') := hread
    simp [feedByte, bind, StateT.bind, Except.bind, pure_parse, hread']
  · simp [feedByte, hnil, Nat.not_lt.2 hshort, hshort, bind, StateT.bind, Except.bind, pure_parse,
      hread]

theorem feed_entries {es : List (Bytes × Nat)} (hes : ∀ e ∈ es, EntryLine host e.1 e.2)
    {b : Parsing} {hashes : List Nat} (hb : b.Filled hashes)
    (hroom : hashes.length + es.length ≤ limit) :
    ∃ b', (linesOf es).foldlM (feedByte (readLine host .domains limit) skipLine) ⟨none, false⟩ b =
        .ok (⟨none, false⟩, b') ∧ b'.Filled (hashes ++ es.map Prod.snd) := by
  induction es generalizing b hashes with
  | nil =>
      exact ⟨b, rfl, by simpa using hb⟩
  | cons e es ih =>
      rw [List.length_cons] at hroom
      have hone : hashes.length < limit := by omega
      rcases feed_entry (hes e List.mem_cons_self) hb hone with ⟨b₁, hfeed, hb₁⟩
      rcases ih (fun e' he' => hes e' (List.mem_cons_of_mem _ he')) hb₁
        (by rw [List.length_append, List.length_singleton]; omega) with ⟨b', hrest, hb'⟩
      refine ⟨b', ?_, by simpa using hb'⟩
      have hcons : linesOf (e :: es) = (e.1 ++ [nl]) ++ linesOf es := rfl
      rw [hcons, List.foldlM_append]
      simp only [bind, StateT.bind, hfeed, Except.bind]
      exact hrest

theorem start_filled (hpos : 0 < limit) (expected : Int) :
    (Parsing.start .domains limit expected).Filled [] := by
  refine ⟨HashBuilder.new_holds ?_, rfl, rfl⟩
  simp only [reduceCtorEq, if_false]
  omega

/-- A file of entries with different hashes, no more than the limit, is a list of them all. -/
theorem parse_of_entries {es : List (Bytes × Nat)} (hes : ∀ e ∈ es, EntryLine host e.1 e.2)
    (hn : (es.map Prod.snd).Nodup) (hpos : 0 < limit) (hroom : es.length ≤ limit)
    (expected : Int) :
    ∃ l, parseListStream host [linesOf es] .domains limit expected = .ok l ∧
      l.list.size = es.length ∧ l.entries = es.length := by
  rcases feed_entries hes (start_filled hpos expected) (by simpa using hroom) with
    ⟨b, hfeed, hb⟩
  rw [List.nil_append] at hb
  have hsize : b.finish.list.size = es.length := by
    have hexact : b.exact.finish.length = 0 :=
      Nat.le_zero.1 (hb.exact ▸ b.exact.length_finish_le)
    simp [Parsing.finish, CompactList.size, hb.suffix.length_finish hn, hexact]
  refine ⟨b.finish, ?_, hsize, hsize⟩
  -- the file ends with a line end, so that nothing is pending behind it
  have hrun : [linesOf es].foldlM (readChunk (readLine host .domains limit) skipLine)
      ⟨none, false⟩ (.start .domains limit expected) = .ok (⟨none, false⟩, b) := by
    rw [foldlM_readChunk (readLine_slice host .domains limit), List.flatten_singleton]
    exact hfeed
  simp only [parseListStream, readStream, bind, StateT.bind, hrun, Except.bind]
  rfl

end Entries

/-! ## Plain names -/

/-- Letters, digits and dots, with no dot in front. -/
structure PlainLine (line : Bytes) : Prop where
  plain : ∀ c ∈ line, isAlnum c = true ∨ c = 0x2e
  first : (line)[0]? ≠ some 0x2e
  short : line.length ≤ maxLine

namespace PlainLine

variable {line : Bytes}

theorem ne_of_mem (hline : PlainLine line) {c : UInt8} (hc : c ∈ line) {x : UInt8}
    (hx : isAlnum x = false) (hdot : x ≠ 0x2e) : c ≠ x := by
  rintro rfl
  rcases hline.plain c hc with halnum | heq
  · rw [hx] at halnum
    cases halnum
  · exact hdot heq

theorem isSpace_eq (hline : PlainLine line) {c : UInt8} (hc : c ∈ line) : isSpace c = false := by
  have hne := fun x hx hdot => hline.ne_of_mem hc (x := x) hx hdot
  simp [isSpace, hne 0x20 (by decide) (by decide), hne 0x09 (by decide) (by decide),
    hne 0x0d (by decide) (by decide), hne 0x0b (by decide) (by decide),
    hne 0x0c (by decide) (by decide)]

theorem isSpaceAt_eq (hline : PlainLine line) (i : Nat) : isSpaceAt line i = false := by
  unfold isSpaceAt
  cases hc : (line)[i]? with
  | none =>
      rfl
  | some c =>
      exact hline.isSpace_eq (List.mem_of_getElem? hc)

theorem skipSpaces_eq (hline : PlainLine line) (n s : Nat) : skipSpaces line n s = s := by
  cases n with
  | zero =>
      rfl
  | succ n =>
      rw [skipSpaces, hline.isSpaceAt_eq]
      rfl

theorem trimEnd_eq (hline : PlainLine line) (s e : Nat) : trimEnd line s e = e := by
  cases e with
  | zero =>
      rfl
  | succ e =>
      rw [trimEnd, hline.isSpaceAt_eq, Bool.and_false]
      rfl

theorem first_ne (hline : PlainLine line) {x : UInt8} (hx : isAlnum x = false) :
    (line)[0]? ≠ some x := by
  intro hget
  by_cases hdot : x = 0x2e
  · exact hline.first (hdot ▸ hget)
  · exact hline.ne_of_mem (List.mem_of_getElem? hget) hx hdot rfl

/-- A plain line that holds a valid name is the entry of this name. -/
theorem entryLine (hline : PlainLine line) {h : Nat}
    (hhash : hashDomainBytes line 0 line.length = .ok h) (host : UnicodeHost) :
    EntryLine host line h := by
  have hlen : ¬ 0 ≥ line.length := by
    intro hle
    rw [Nat.le_zero.1 hle] at hhash
    cases hhash
  have hcut : cutComment line 0 line.length = line.length := by
    have hnone : indexOf line 0x23 0 = none := indexOf_eq_none.2 fun hmem =>
      hline.ne_of_mem hmem (by decide) (by decide) rfl
    simp [cutComment, hnone]
  have hspace : (slice line 0 line.length).any isSpace = false := by
    rw [List.any_eq_false]
    intro c hc
    simp [hline.isSpace_eq (List.mem_of_mem_take (List.mem_of_mem_drop hc))]
  refine ⟨fun hmem => hline.ne_of_mem hmem (by decide) (by decide) rfl, hline.short, ?_⟩
  intro limit
  simp [parseLineBytes, hline.skipSpaces_eq, hline.trimEnd_eq, hlen, hcut, parseDomain, hspace,
    hline.first_ne (show isAlnum 0x23 = false by decide),
    hline.first_ne (show isAlnum 0x21 = false by decide),
    hline.first_ne (show isAlnum 0x2a = false by decide), hline.first, addDomain, domainHash, hhash]

end PlainLine

end Dns
end GateControl
