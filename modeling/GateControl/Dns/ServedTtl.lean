import GateControl.Dns.ResponseCache

/-!
# ServedTtl — what a client sees of a stored reply

The records of a message stand behind the question section, in order and without overlap
(`Layout`), so that lowering the TTLs one after the other touches each of them once and nothing
else.  A stored positive answer expires before its smallest TTL has passed, so that a served TTL of
an answer or authority record is never less than one second.
-/

namespace GateControl
namespace Dns

open Library

namespace Wire

/-! ## The records of a message -/

inductive Section
  | answer
  | authority
  | additional
  deriving DecidableEq

def sectionOf (an ns i : Nat) : Section :=
  if i < an then .answer else if i < an + ns then .authority else .additional

/-- A resource record: where its TTL stands, and its value. -/
structure RR where
  sect : Section
  type : Nat
  ttl : Nat
  offset : Nat
  deriving DecidableEq

/-- The record at a position, and the position behind it. -/
def rrAt (buf : Bytes) (sect : Section) (pos : Nat) : Option (RR × Nat) := do
  let n ← readName buf pos
  let type ← readUInt16BE buf n.next
  let ttl ← readUInt32BE buf (n.next + 4)
  let rdlen ← readUInt16BE buf (n.next + 8)
  if n.next + 10 + rdlen > buf.length then none
  else pure (⟨sect, type, ttl, n.next + 4⟩, n.next + 10 + rdlen)

def rrsFrom (buf : Bytes) (an ns : Nat) : Nat → Nat → Nat → Option (List RR)
  | 0, _, _ => some []
  | n + 1, i, pos =>
      (rrAt buf (sectionOf an ns i) pos).bind fun r =>
        (rrsFrom buf an ns n (i + 1) r.2).map fun rs => r.1 :: rs

/-- The end of the question section of a message. -/
def questionEnd (buf : Bytes) : Option Nat := do
  let qd ← readUInt16BE buf 4
  let q ← readQuestion buf qd
  pure q.2

/-- All records of a message. -/
def records (buf : Bytes) : Option (List RR) := do
  let an ← readUInt16BE buf 6
  let ns ← readUInt16BE buf 8
  let ar ← readUInt16BE buf 10
  let qEnd ← questionEnd buf
  rrsFrom buf an ns (an + ns + ar) 0 qEnd

/-! ## Reading names -/

/-- The position behind a name: set by the first pointer, or behind the last label. -/
theorem readNameFrom_next {buf : Bytes} {labels : List Text} {pos : Nat} {next : Option Nat}
    {jumps : Nat} {n : NameAt} (h : readNameFrom buf labels pos next jumps = some n) :
    (next = none → pos < n.next) ∧ ∀ x, next = some x → n.next = x := by
  fun_induction readNameFrom buf labels pos next jumps with
  | case2 labels pos next jumps b hb len hlen =>
      cases h
      refine ⟨fun hnone => ?_, fun x hx => ?_⟩
      · simp [hnone]
      · simp [hx]
  | case5 labels pos next jumps b hb len _ _ low hlow _ ih =>
      -- a pointer fixes the position, whatever it leads to
      have hfix := (ih h).2 _ rfl
      refine ⟨fun hnone => ?_, fun x hx => ?_⟩
      · rw [hfix, hnone]
        simp
      · rw [hfix, hx]
        rfl
  | case9 labels pos next jumps b hb len _ _ _ _ label _ ih =>
      refine ⟨fun hnone => ?_, (ih h).2⟩
      have := (ih h).1 hnone
      omega
  | _ =>
      cases h

theorem readName_next {buf : Bytes} {pos : Nat} {n : NameAt} (h : readName buf pos = some n) :
    pos < n.next :=
  (readNameFrom_next h).1 rfl

/-- Where both readers accept a name they agree on its end. -/
theorem readNameFrom_of_question {buf : Bytes} {pos total e : Nat}
    (hq : readQuestionNameFrom buf pos total = some e) {labels : List Text} {jumps : Nat}
    {n : NameAt} (h : readNameFrom buf labels pos none jumps = some n) : n.next = e := by
  -- label by label; a pointer, which only `readName` follows, ends the other reader
  fun_induction readQuestionNameFrom buf pos total generalizing labels with
  | case2 pos total b hb len hlen =>
      have hz : b.toNat = 0 := hlen
      rw [readNameFrom] at h
      simp only [hb, hz, if_true, Option.some.injEq] at h
      cases hq
      simp [← h]
  | case6 pos total b hb len hlen h63 hfit htot _ ih =>
      have hz : ¬ b.toNat = 0 := hlen
      have h1 : ¬ b.toNat ≥ 0xc0 := by omega
      have h2 : ¬ b.toNat ≥ 0x40 := by omega
      rw [readNameFrom] at h
      simp only [hb, hz, h1, h2, if_false] at h
      split at h
      · cases h
      · split at h
        · cases h
        · exact ih hq h
  | _ =>
      cases hq

theorem readQuestionNameFrom_congr {a b : Bytes} (hlen : a.length = b.length) {p : Nat}
    (hsame : ∀ j, p ≤ j → a[j]? = b[j]?) {pos total : Nat} (hp : p ≤ pos) :
    readQuestionNameFrom a pos total = readQuestionNameFrom b pos total := by
  induction hn : a.length - pos using Nat.strong_induction_on generalizing pos total with
  | _ n ih =>
      rw [readQuestionNameFrom, readQuestionNameFrom]
      have hpos := hsame pos hp
      split
      · rename_i ha
        rw [ha] at hpos
        split
        · rfl
        · rename_i hb
          rw [hb] at hpos
          cases hpos
      · rename_i x ha
        rw [ha] at hpos
        split
        · rename_i hb
          rw [hb] at hpos
          cases hpos
        · rename_i y hb
          obtain rfl : x = y := by
            rw [hb] at hpos
            exact Option.some.inj hpos
          have hlt := (List.getElem?_eq_some_iff.1 ha).1
          simp only [hlen]
          -- all later reads are behind `p` too
          have hrec := @ih (a.length - (pos + 1 + x.toNat)) (by omega) (pos + 1 + x.toNat)
            (total + (x.toNat + 1)) (by omega) rfl
          simp only [hrec]

/-! ## The walk of the parser -/

/-- The TTL at `r.offset`, kept apart from the position the record began at and from its end. -/
theorem rrAt_spec {buf : Bytes} {sect : Section} {pos : Nat} {r : RR} {next : Nat}
    (h : rrAt buf sect pos = some (r, next)) :
    r.sect = sect ∧ pos + 5 ≤ r.offset ∧ r.offset + 6 ≤ next ∧ next ≤ buf.length ∧
      readUInt32BE buf r.offset = some r.ttl := by
  simp only [rrAt, Option.bind_eq_bind, Option.bind_eq_some_iff] at h
  rcases h with ⟨n, hn, type, _, ttl, httl, rdlen, _, h⟩
  have hnext := readName_next hn
  split at h
  · cases h
  · simp only [Option.pure_def, Option.some.injEq, Prod.mk.injEq] at h
    rcases h with ⟨rfl, rfl⟩
    refine ⟨rfl, ?_, ?_, ?_, httl⟩
    · show pos + 5 ≤ n.next + 4
      omega
    · show n.next + 4 + 6 ≤ n.next + 10 + rdlen
      omega
    · omega

/-- What one record adds to the variables of the walk. -/
structure Adds (w w' : Walk) (r : RR) : Prop where
  offsets : w'.ttlOffsets = if r.type ≠ typeOpt then w.ttlOffsets ++ [r.offset] else w.ttlOffsets
  least : r.type ≠ typeOpt → r.sect ≠ .additional → ∃ m, w'.minTtl = some m ∧ m ≤ r.ttl
  keeps : ∀ m, w.minTtl = some m → ∃ m', w'.minTtl = some m' ∧ m' ≤ m

theorem readRecord_rr {host : UnicodeHost} {buf : Bytes} {an ns i : Nat} {w w' : Walk}
    (h : readRecord host buf an ns i w = some w') :
    ∃ r, rrAt buf (sectionOf an ns i) w.pos = some (r, w'.pos) ∧ Adds w w' r := by
  unfold readRecord at h
  rcases Option.bind_eq_some_iff.1 h with ⟨n, hn, h⟩
  simp only at h
  split at h
  · cases h
  · rcases Option.bind_eq_some_iff.1 h with ⟨type, htype, h⟩
    rcases Option.bind_eq_some_iff.1 h with ⟨ttl, httl, h⟩
    rcases Option.bind_eq_some_iff.1 h with ⟨rdlen, hrdlen, h⟩
    split at h
    · cases h
    · rename_i hfit
      unfold addRecord at h
      rcases Option.bind_eq_some_iff.1 h with ⟨negTtl, _, h⟩
      rcases Option.bind_eq_some_iff.1 h with ⟨answer, _, h⟩
      cases h
      refine ⟨⟨sectionOf an ns i, type, ttl, n.next + 4⟩, ?_, ?_, ?_, ?_⟩
      · simp [rrAt, hn, htype, httl, hrdlen, hfit]
      · rfl
      · intro hopt hsect
        -- not an additional record, so the loop takes its TTL into the minimum
        have hi : i < an + ns := by
          by_contra hge
          simp [sectionOf, hge, show ¬ i < an by omega] at hsect
        have hopt' : type ≠ typeOpt := hopt
        refine ⟨(w.minTtl.map fun m => min m ttl).getD ttl, by simp [hopt', hi], ?_⟩
        cases w.minTtl with
        | none =>
            exact Nat.le_refl _
        | some m =>
            exact Nat.min_le_right m ttl
      · intro m hm
        by_cases hcond : type ≠ typeOpt ∧ i < an + ns
        · exact ⟨min m ttl, by simp [hcond, hm], Nat.min_le_left m ttl⟩
        · exact ⟨m, by simp [hcond, hm], Nat.le_refl m⟩

/-- The offsets at which the TTLs of the records stand, without those of OPT records. -/
def ttlOffsetsOf (rs : List RR) : List Nat := (rs.filter fun r => r.type ≠ typeOpt).map RR.offset

theorem readRecords_rrs {host : UnicodeHost} {buf : Bytes} {an ns : Nat} :
    ∀ {n i : Nat} {w w' : Walk}, readRecords host buf an ns n i w = some w' →
      ∃ rs, rrsFrom buf an ns n i w.pos = some rs ∧
        w'.ttlOffsets = w.ttlOffsets ++ ttlOffsetsOf rs ∧
        (∀ r ∈ rs, r.type ≠ typeOpt → r.sect ≠ .additional →
          ∃ m, w'.minTtl = some m ∧ m ≤ r.ttl) ∧
        (∀ m, w.minTtl = some m → ∃ m', w'.minTtl = some m' ∧ m' ≤ m) := by
  intro n
  induction n with
  | zero =>
      intro i w w' h
      cases h
      refine ⟨[], rfl, by simp [ttlOffsetsOf], by simp, ?_⟩
      exact fun m hm => ⟨m, hm, Nat.le_refl m⟩
  | succ n ih =>
      intro i w w' h
      simp only [readRecords, Option.bind_eq_some_iff] at h
      rcases h with ⟨w₁, h₁, h₂⟩
      rcases readRecord_rr h₁ with ⟨r, hr, hadds⟩
      -- the minimum of the rest is no larger than after this record
      rcases ih h₂ with ⟨rs, hrs, hoff, hleast, hkeeps⟩
      refine ⟨r :: rs, by simp [rrsFrom, hr, hrs], ?_, ?_, ?_⟩
      · rw [hoff, hadds.offsets]
        by_cases hopt : r.type = typeOpt
        · simp [ttlOffsetsOf, hopt]
        · simp [ttlOffsetsOf, hopt]
      · intro r' hr' hopt hsect
        rcases List.mem_cons.1 hr' with rfl | hmem
        · rcases hadds.least hopt hsect with ⟨m, hm, hle⟩
          rcases hkeeps m hm with ⟨m', hm', hle'⟩
          exact ⟨m', hm', hle'.trans hle⟩
        · exact hleast r' hmem hopt hsect
      · intro m hm
        rcases hadds.keeps m hm with ⟨m₁, hm₁, hle₁⟩
        rcases hkeeps m₁ hm₁ with ⟨m', hm', hle'⟩
        exact ⟨m', hm', hle'.trans hle₁⟩

/-- The records stand behind `start`, in order, without overlap and inside the message. -/
structure Layout (buf : Bytes) (start : Nat) (rs : List RR) : Prop where
  after : ∀ r ∈ rs, start ≤ r.offset
  apart : rs.Pairwise fun a b => a.offset + 4 ≤ b.offset
  inside : ∀ r ∈ rs, r.offset + 4 ≤ buf.length
  value : ∀ r ∈ rs, readUInt32BE buf r.offset = some r.ttl

theorem rrsFrom_layout {buf : Bytes} {an ns : Nat} :
    ∀ {n i pos : Nat} {rs : List RR}, rrsFrom buf an ns n i pos = some rs → Layout buf pos rs := by
  intro n
  induction n with
  | zero =>
      intro i pos rs h
      cases h
      exact ⟨by simp, List.Pairwise.nil, by simp, by simp⟩
  | succ n ih =>
      intro i pos rs h
      simp only [rrsFrom, Option.bind_eq_some_iff, Option.map_eq_some_iff] at h
      rcases h with ⟨⟨r, next⟩, hr, rs', hrs', rfl⟩
      -- the remaining records begin where this one ends
      have hl : Layout buf next rs' := ih hrs'
      rcases rrAt_spec hr with ⟨_, h1, h2, h3, h4⟩
      show Layout buf pos (r :: rs')
      refine ⟨?_, List.Pairwise.cons ?_ hl.apart, ?_, ?_⟩
      · intro r' hr'
        rcases List.mem_cons.1 hr' with rfl | hmem
        · omega
        · have := hl.after r' hmem
          omega
      · intro r' hr'
        have := hl.after r' hr'
        omega
      · intro r' hr'
        rcases List.mem_cons.1 hr' with rfl | hmem
        · omega
        · exact hl.inside r' hmem
      · intro r' hr'
        rcases List.mem_cons.1 hr' with rfl | hmem
        · exact h4
        · exact hl.value r' hmem

/-- What the parser finds in a reply it accepts, in terms of the records of the reply. -/
structure Parsed (buf : Bytes) (r : Response) (qEnd : Nat) (rs : List RR) : Prop where
  records : records buf = some rs
  question : questionEnd buf = some qEnd
  offsets : r.ttlOffsets = ttlOffsetsOf rs
  least : ∀ rr ∈ rs, rr.type ≠ typeOpt → rr.sect ≠ .additional →
    ∃ m, r.minTtl = some m ∧ m ≤ rr.ttl
  layout : Layout buf qEnd rs

theorem parseResponse_parsed {host : UnicodeHost} {buf : Bytes} {r : Response}
    (h : parseResponse host buf = some r) : ∃ qEnd rs, Parsed buf r qEnd rs := by
  simp only [parseResponse] at h
  split at h
  · cases h
  · simp only [Option.bind_eq_bind, Option.bind_eq_some_iff] at h
    rcases h with ⟨flags, _, h⟩
    split at h
    · cases h
    · simp only [Option.bind_eq_some_iff] at h
      rcases h with ⟨qd, hqd, an, han, ns, hns, ar, har, h⟩
      split at h
      · cases h
      · simp only [Option.bind_eq_some_iff, Option.pure_def, Option.some.injEq] at h
        rcases h with ⟨q, hq, w, hw, id, _, rfl⟩
        rcases readRecords_rrs hw with ⟨rs, hrs, hoff, hleast, _⟩
        have hqEnd : questionEnd buf = some q.2 := by simp [questionEnd, hqd, hq]
        refine ⟨q.2, rs, ⟨?_, hqEnd, by simpa using hoff, hleast, rrsFrom_layout hrs⟩⟩
        simpa [records, han, hns, har, hqEnd] using hrs

/-! ## Lowering TTLs -/

/-- The value a TTL is lowered to. -/
def lowered (ageSec : Int) (ttl : Nat) : Nat := if (ttl : Int) > ageSec then (ttl - ageSec).toNat else 0

theorem lowered_lt {ageSec : Int} (hage : 0 < ageSec) {ttl : Nat} (h : ttl < 4294967296) :
    lowered ageSec ttl < 4294967296 := by
  unfold lowered
  split <;> omega

/-- A TTL of a message of the given age. -/
theorem lowered_eq {ageSec : Int} (hage : 0 ≤ ageSec) (ttl : Nat) :
    ((if ageSec > 0 then lowered ageSec ttl else ttl : Nat) : Int) = max 0 (ttl - ageSec) := by
  unfold lowered
  split
  · split <;> omega
  · omega

/-- Each of the TTLs is lowered once, and no other byte changes. -/
theorem foldlM_lowerTtl {ageSec : Int} (hage : 0 < ageSec) :
    ∀ {offs : List Nat} {out : Bytes}, offs.Pairwise (fun a b => a + 4 ≤ b) →
      (∀ o ∈ offs, ∃ t, readUInt32BE out o = some t) →
      ∃ out', offs.foldlM (lowerTtl ageSec) out = some out' ∧ out'.length = out.length ∧
        (∀ o ∈ offs, ∀ t, readUInt32BE out o = some t →
          readUInt32BE out' o = some (lowered ageSec t)) ∧
        (∀ j, (∀ o ∈ offs, j < o ∨ o + 4 ≤ j) → out'[j]? = out[j]?) := by
  intro offs
  induction offs with
  | nil =>
      intro out _ _
      exact ⟨out, rfl, rfl, by simp, fun _ _ => rfl⟩
  | cons o offs ih =>
      intro out hpair hread
      rcases List.pairwise_cons.1 hpair with ⟨hfirst, hrest⟩
      rcases hread o (List.mem_cons_self ..) with ⟨t, ht⟩
      have hb := readUInt32BE_bounds ht
      generalize hout : writeUInt32BE out (lowered ageSec t) o = out₁
      have hlow : lowerTtl ageSec out o = some out₁ := by simp [lowerTtl, ht, ← hout, lowered]
      have hlen : out₁.length = out.length := by simp [← hout, writeUInt32BE]
      have hsame : ∀ j, j < o ∨ o + 4 ≤ j → out₁[j]? = out[j]? := by
        intro j hj
        rw [← hout]
        exact getElem?_writeBytes_of_outside out (by simpa [uint32BE, uint16BE] using hj)
      -- the later TTLs stand behind this one
      have hlater : ∀ o' ∈ offs, readUInt32BE out₁ o' = readUInt32BE out o' := by
        intro o' ho'
        have := hfirst o' ho'
        exact readUInt32BE_congr fun j h1 _ => hsame j (by omega)
      rcases ih hrest (fun o' ho' => by
        rw [hlater o' ho']
        exact hread o' (List.mem_cons_of_mem _ ho')) with ⟨out', hfold, hlen', hval, hkeep⟩
      refine ⟨out', by simp [hlow, hfold], hlen'.trans hlen, ?_, ?_⟩
      · intro o' ho' t' ht'
        rcases List.mem_cons.1 ho' with rfl | hmem
        · obtain rfl : t = t' := Option.some.inj (ht.symm.trans ht')
          have hwritten : readUInt32BE out₁ o' = some (lowered ageSec t) := by
            rw [← hout]
            exact readUInt32BE_writeUInt32BE out hb.1 (lowered_lt hage hb.2)
          rw [← hwritten]
          -- and the later writes do not touch it
          refine readUInt32BE_congr fun j h1 h2 => hkeep j fun o'' ho'' => ?_
          have := hfirst o'' ho''
          omega
        · exact hval o' hmem t' ((hlater o' hmem).trans ht')
      · intro j hj
        rw [hkeep j fun o' ho' => hj o' (List.mem_cons_of_mem _ ho')]
        exact hsame j (hj o (List.mem_cons_self ..))

/-! ## The question -/

/-- The bytes of the message that hold the TTL of a record. -/
def IsTtlByte (rs : List RR) (j : Nat) : Prop :=
  ∃ r ∈ rs, r.type ≠ typeOpt ∧ r.offset ≤ j ∧ j < r.offset + 4

theorem questionEnd_spec {buf : Bytes} {qEnd : Nat} (h : questionEnd buf = some qEnd) :
    12 ≤ qEnd ∧ (readUInt16BE buf 4 = some 1 → ∃ n, readName buf 12 = some n ∧ qEnd = n.next + 4) := by
  rcases Option.bind_eq_some_iff.1 h with ⟨qd, hqd, h⟩
  rcases Option.bind_eq_some_iff.1 h with ⟨q, hq, h⟩
  cases h
  unfold readQuestion at hq
  split at hq
  · rcases Option.bind_eq_some_iff.1 hq with ⟨n, hn, hq⟩
    split at hq
    · cases hq
    · cases hq
      have := readName_next hn
      refine ⟨?_, fun _ => ⟨n, hn, rfl⟩⟩
      show 12 ≤ n.next + 4
      omega
  · rename_i hne
    cases hq
    refine ⟨Nat.le_refl 12, fun hone => ?_⟩
    exact absurd (Option.some.inj (hqd.symm.trans hone)) hne

/-- Writing the id and the question changes bytes 0 and 1 and, when the client's question has the
length of the question section, that section. -/
theorem copyQuestion_spec {buf : Bytes} {qEnd : Nat} (hq : questionEnd buf = some qEnd) (id : Nat)
    (question : Option Bytes) {out : Bytes}
    (hout : copyQuestion buf question (writeUInt16BE buf (id % 65536) 0) = out) :
    out.length = buf.length ∧ (∀ j, 2 ≤ j → j < 12 ∨ qEnd ≤ j → out[j]? = buf[j]?) ∧
      (slice out 12 qEnd = slice buf 12 qEnd ∨
        ∃ q, question = some q ∧ 12 + q.length = qEnd ∧ slice out 12 qEnd = q) := by
  rcases questionEnd_spec hq with ⟨h12, hone⟩
  generalize hid : writeUInt16BE buf (id % 65536) 0 = out₀ at hout
  have hlen : out₀.length = buf.length := by simp [← hid, writeUInt16BE]
  have hsame : ∀ j, 2 ≤ j → out₀[j]? = buf[j]? := by
    intro j hj
    rw [← hid]
    exact getElem?_writeBytes_of_outside buf (by simp [uint16BE]; omega)
  -- nothing but the id is written, unless the client's question fits
  have hplain : out₀.length = buf.length ∧ (∀ j, 2 ≤ j → j < 12 ∨ qEnd ≤ j → out₀[j]? = buf[j]?) ∧
      (slice out₀ 12 qEnd = slice buf 12 qEnd ∨
        ∃ q, question = some q ∧ 12 + q.length = qEnd ∧ slice out₀ 12 qEnd = q) :=
    ⟨hlen, fun j hj _ => hsame j hj, Or.inl (slice_congr fun j hj _ => hsame j (by omega))⟩
  cases question with
  | none =>
      cases hout
      exact hplain
  | some q =>
      simp only [copyQuestion] at hout
      split at hout
      · rename_i hcond
        rcases hone hcond.1 with ⟨n, hn, hqEnd⟩
        split at hout
        · rename_i e he
          split at hout
          · rename_i hfit
            -- the id is not part of the question, so the stored message reads the same
            have he' : readQuestionName buf 12 = some e := by
              rw [← he]
              exact (readQuestionNameFrom_congr hlen hsame (by omega)).symm
            have hend : n.next = e := readNameFrom_of_question he' hn
            have hnext := readName_next hn
            have hqlen : 12 + q.length = qEnd := by omega
            rw [← hout]
            refine ⟨by simp [hlen], ?_, Or.inr ⟨q, rfl, hqlen, ?_⟩⟩
            · intro j hj hj'
              rw [getElem?_writeBytes_of_outside out₀ (by omega), hsame j hj]
            · rw [← hqlen]
              exact slice_writeBytes out₀ hcond.2
          · cases hout
            exact hplain
        · cases hout
          exact hplain
      · cases hout
        exact hplain

/-- A message as a client gets it: all bytes but the id, the TTLs and the question are those of the
stored message, and the question is the stored one or the client's own of the same length. -/
structure Preserves (buf out : Bytes) (question : Option Bytes) (qEnd : Nat) (rs : List RR) :
    Prop where
  length : out.length = buf.length
  other : ∀ j, 2 ≤ j → j < 12 ∨ qEnd ≤ j → ¬ IsTtlByte rs j → out[j]? = buf[j]?
  question : slice out 12 qEnd = slice buf 12 qEnd ∨
    ∃ q, question = some q ∧ 12 + q.length = qEnd ∧ slice out 12 qEnd = q

theorem mem_ttlOffsetsOf {rs : List RR} {o : Nat} :
    o ∈ ttlOffsetsOf rs ↔ ∃ r ∈ rs, r.type ≠ typeOpt ∧ r.offset = o := by
  simp [ttlOffsetsOf, and_assoc]

/-- `adaptResponse` at the offsets the parser found. -/
theorem adaptResponse_spec {buf : Bytes} {r : Response} {qEnd : Nat} {rs : List RR}
    (hp : Parsed buf r qEnd rs) (id : Nat) (question : Option Bytes) (ageSec : Int) :
    ∃ out, adaptResponse buf id question r.ttlOffsets ageSec = some out ∧
      Preserves buf out question qEnd rs ∧
      ∀ rr ∈ rs, rr.type ≠ typeOpt → readUInt32BE out rr.offset =
        some (if ageSec > 0 then lowered ageSec rr.ttl else rr.ttl) := by
  generalize hout : copyQuestion buf question (writeUInt16BE buf (id % 65536) 0) = out
  rcases copyQuestion_spec hp.question id question hout with ⟨hlen, hother, hquest⟩
  rcases questionEnd_spec hp.question with ⟨h12, _⟩
  -- the TTLs stand behind the question, so they are still the stored ones
  have hread : ∀ rr ∈ rs, readUInt32BE out rr.offset = some rr.ttl := by
    intro rr hrr
    have hafter := hp.layout.after rr hrr
    rw [← hp.layout.value rr hrr]
    exact readUInt32BE_congr fun j h1 _ => hother j (by omega) (by omega)
  by_cases hage : ageSec > 0
  · have hpair : (ttlOffsetsOf rs).Pairwise fun a b => a + 4 ≤ b := by
      unfold ttlOffsetsOf
      rw [List.pairwise_map]
      exact hp.layout.apart.sublist List.filter_sublist
    have hin : ∀ o ∈ ttlOffsetsOf rs, ∃ t, readUInt32BE out o = some t := by
      intro o ho
      rcases mem_ttlOffsetsOf.1 ho with ⟨rr, hrr, _, rfl⟩
      exact ⟨rr.ttl, hread rr hrr⟩
    rcases foldlM_lowerTtl hage hpair hin with ⟨out', hfold, hlen', hval, hkeep⟩
    refine ⟨out', by simp [adaptResponse, hout, hage, hp.offsets, hfold], ?_, ?_⟩
    · have houtside : ∀ j, ¬ IsTtlByte rs j → out'[j]? = out[j]? := by
        intro j hj
        refine hkeep j fun o ho => ?_
        rcases mem_ttlOffsetsOf.1 ho with ⟨rr, hrr, hopt, rfl⟩
        by_contra hcon
        exact hj ⟨rr, hrr, hopt, by omega, by omega⟩
      -- no TTL stands in the question section
      have hq : slice out' 12 qEnd = slice out 12 qEnd := by
        refine slice_congr fun j _ hj => houtside j ?_
        rintro ⟨rr, hrr, _, h1, _⟩
        have := hp.layout.after rr hrr
        omega
      exact ⟨hlen'.trans hlen, fun j h2 hj hnot => (houtside j hnot).trans (hother j h2 hj),
        by rw [hq]; exact hquest⟩
    · intro rr hrr hopt
      simp only [hage, if_true]
      exact hval _ (mem_ttlOffsetsOf.2 ⟨rr, hrr, hopt, rfl⟩) _ (hread rr hrr)
  · refine ⟨out, by simp [adaptResponse, hout, hage], ?_, ?_⟩
    · exact ⟨hlen, fun j h2 hj _ => hother j h2 hj, hquest⟩
    · intro rr hrr _
      simp only [hage, if_false]
      exact hread rr hrr

end Wire

/-! ## Stored replies -/

namespace ResponseCache

open Wire

/-- A positive answer is not kept longer than its smallest TTL. -/
theorem ttlFor_le {r : Response} (hne : ttlFor r ≠ 0) (hrcode : r.rcode = 0) (han : 0 < r.an)
    {m : Nat} (hm : r.minTtl = some m) : ttlFor r ≤ m := by
  unfold ttlFor at hne ⊢
  split at hne
  · exact absurd rfl hne
  · rename_i htc
    simp only [htc, hrcode, han, hm, Option.getD_some, and_self, if_true,
      Bool.false_eq_true, if_false]
    exact Nat.min_le_right _ _

/-- A reply served from the cache, for every run of the cache and every clock: its TTLs are the
stored ones less the age, those of answer and authority records at least 1, and nothing else but
the id and the client's spelling of the question has changed. -/
theorem served_ttls (host : UnicodeHost) (maxEntries maxBytes : Nat) (as : List Action)
    (c : ResponseCache) (hrun : exec (step host) (new maxEntries maxBytes) as = some c)
    (key : Text) (now : Int) (hit : CacheHit) (hhit : (c.get key now).2 = some hit) (id : Nat)
    (question : Option Bytes) :
    ∃ e r qEnd rs out, c.map.get key = some e ∧ hit.wire = e.wire ∧
      parseResponse host e.wire = some r ∧ questionEnd e.wire = some qEnd ∧
      records e.wire = some rs ∧
      adaptResponse hit.wire id question hit.ttlOffsets hit.ageSec = some out ∧
      Preserves e.wire out question qEnd rs ∧
      (e.storedAt ≤ now → r.rcode = 0 → 0 < r.an → ∀ rr ∈ rs, rr.type ≠ typeOpt →
        ∃ t, readUInt32BE out rr.offset = some t ∧
          (rr.sect ≠ .additional → (t : Int) = rr.ttl - hit.ageSec ∧ 1 ≤ t) ∧
          (rr.sect = .additional → (t : Int) = max 0 (rr.ttl - hit.ageSec))) ∧
      (now < e.storedAt → ∀ rr ∈ rs, rr.type ≠ typeOpt →
        readUInt32BE out rr.offset = some rr.ttl) := by
  rcases get_hit hhit with ⟨e, he, hexp, rfl⟩
  rcases run_faithful hrun key e he with ⟨r, hr, hne, hentry⟩
  rcases parseResponse_parsed hr with ⟨qEnd, rs, hp⟩
  have hoff : e.ttlOffsets = r.ttlOffsets := by rw [hentry]; rfl
  have hexpires : e.expires = e.storedAt + ttlFor r * 1000 := by rw [hentry]; rfl
  rcases adaptResponse_spec hp id question ((now - e.storedAt) / 1000) with
    ⟨out, hout, hpres, httl⟩
  refine ⟨e, r, qEnd, rs, out, he, rfl, hr, hp.question, hp.records, by rw [hoff]; exact hout,
    hpres, ?_, ?_⟩
  · intro hge hrcode han rr hrr hopt
    generalize hage : (now - e.storedAt) / 1000 = age at *
    have hage0 : 0 ≤ age := by omega
    -- the entry has not expired: its age in seconds is below the lifetime
    have hltTtl : age < ttlFor r := by omega
    refine ⟨_, httl rr hrr hopt, ?_, ?_⟩
    · intro hsect
      -- and the lifetime is at most the TTL of each answer and authority record
      rcases hp.least rr hrr hopt hsect with ⟨m, hm, hle⟩
      have hmin := ttlFor_le hne hrcode han hm
      have hval := lowered_eq hage0 rr.ttl
      rw [max_eq_right (by omega)] at hval
      exact ⟨hval, by omega⟩
    · intro _
      exact lowered_eq hage0 rr.ttl
  · intro hlt rr hrr hopt
    -- the clock was set back: a negative age lowers nothing
    have hneg : ¬ (now - e.storedAt) / 1000 > 0 := by omega
    rw [httl rr hrr hopt, if_neg hneg]

/-- A reply to the question `a IN A` with one address, valid for 300 s. -/
def addressReply : Bytes :=
  [0, 0, 0x81, 0x80, 0, 1, 0, 1, 0, 0, 0, 0,
    1, 0x61, 0, 0, 1, 0, 1,
    0xc0, 0x0c, 0, 1, 0, 1, 0, 0, 1, 0x2c, 0, 4, 10, 0, 0, 7]

/-- It is served 61 s after it was stored. -/
theorem served_ttls_after_a_minute :
    ∃ c hit, exec (step .ascii) (new 10 65536) [.set ['k'] addressReply 500] = some c ∧
      (c.get ['k'] 61500).2 = some hit ∧ hit.ageSec = 61 ∧
      ∃ out, adaptResponse hit.wire 7 none hit.ttlOffsets hit.ageSec = some out ∧
        out.length = addressReply.length := by
  have hrun : ((exec (step .ascii) (new 10 65536) [.set ['k'] addressReply 500]).any fun c =>
      decide ((c.get ['k'] 61500).2 = some ⟨addressReply, [25], 61⟩)) = true := by
    decide +kernel
  rcases (Option.any_eq_true ..).1 hrun with ⟨c, hc, hhit⟩
  have hhit' := of_decide_eq_true hhit
  rcases served_ttls .ascii 10 65536 _ c hc ['k'] 61500 _ hhit' 7 none with
    ⟨e, r, qEnd, rs, out, _, hw, _, _, _, hout, hpres, _⟩
  exact ⟨c, _, hc, hhit', rfl, out, hout, hpres.length.trans (congrArg List.length hw).symm⟩

/-- The same reply with an OPT record behind the address, whose TTL field holds the DO flag. -/
def ednsReply : Bytes :=
  [0, 0, 0x81, 0x80, 0, 1, 0, 1, 0, 0, 0, 1,
    1, 0x61, 0, 0, 1, 0, 1,
    0xc0, 0x0c, 0, 1, 0, 1, 0, 0, 1, 0x2c, 0, 4, 10, 0, 0, 7,
    0, 0, 41, 4, 0xd0, 0, 0, 0x80, 0, 0, 0]

/-- An additional record of type OPT is served with its flags as they were stored. -/
theorem opt_record_not_lowered :
    ∃ c e hit r rs rr out, exec (step .ascii) (new 10 65536) [.set ['k'] ednsReply 500] = some c ∧
      c.map.get ['k'] = some e ∧ (c.get ['k'] 61500).2 = some hit ∧ e.storedAt ≤ 61500 ∧
      parseResponse .ascii e.wire = some r ∧ r.rcode = 0 ∧ 0 < r.an ∧
      records e.wire = some rs ∧ rr ∈ rs ∧ rr.sect = .additional ∧
      adaptResponse hit.wire 7 none hit.ttlOffsets hit.ageSec = some out ∧
      ∃ t, readUInt32BE out rr.offset = some t ∧ (t : Int) ≠ max 0 (rr.ttl - hit.ageSec) := by
  have hrun : ((exec (step .ascii) (new 10 65536) [.set ['k'] ednsReply 500]).any fun c =>
      c.map.get ['k'] = some ⟨ednsReply, [25], 500, 300500⟩ &&
        (c.get ['k'] 61500).2 = some ⟨ednsReply, [25], 61⟩) = true := by
    decide +kernel
  have hparse : ((parseResponse .ascii ednsReply).any fun r => r.rcode = 0 && 0 < r.an) = true := by
    decide +kernel
  have hrecords : records ednsReply =
      some [⟨.answer, 1, 300, 25⟩, ⟨.additional, typeOpt, 32768, 40⟩] := by
    decide +kernel
  have hout : ((adaptResponse ednsReply 7 none [25] 61).any fun out =>
      readUInt32BE out 40 = some 32768) = true := by
    decide +kernel
  rcases (Option.any_eq_true ..).1 hrun with ⟨c, hc, hstored⟩
  rcases (Option.any_eq_true ..).1 hparse with ⟨r, hr, hpositive⟩
  rcases (Option.any_eq_true ..).1 hout with ⟨out, hadapt, hread⟩
  simp only [Bool.and_eq_true, decide_eq_true_eq] at hstored hpositive hread
  exact ⟨c, _, _, r, _, ⟨.additional, typeOpt, 32768, 40⟩, out, hc, hstored.1, hstored.2, by decide,
    hr, hpositive.1, hpositive.2, hrecords, by simp, rfl, hadapt, 32768, hread, by decide⟩

end ResponseCache

end Dns
end GateControl
