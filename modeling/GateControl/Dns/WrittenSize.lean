import GateControl.Dns.RoundTrip

/-!
# WrittenSize — the length of what is written

What `buildResponse` writes is as long as its parts say, and it is written where all of its parts
fit their fields.  With what a request and an upstream reply can hold, this bounds every reply.
-/

namespace GateControl
namespace Dns

open Library

namespace Wire

/-! ## What is written, and how long it is -/

def nameParts (name : Text) : List Text := (name.splitOn '.').filter fun p => !p.isEmpty

/-- The length of a written name. -/
def nameSize (name : Text) : Nat := ((nameParts name).map fun p => jsLength p + 1).sum + 1

/-- The labels of a name can be written. -/
def NameFits (name : Text) : Prop := ∀ p ∈ nameParts name, jsLength p ≤ 63

theorem encodeLabel_spec {p : Text} {b : Bytes} (h : encodeLabel p = some b) :
    jsLength p ≤ 63 ∧ b.length = jsLength p + 1 := by
  simp only [encodeLabel, length_asciiBytes_eq] at h
  split at h
  · cases h
  · cases h
    refine ⟨by omega, ?_⟩
    rw [List.length_cons, length_asciiBytes_eq]

theorem encodeName_spec {name : Text} {b : Bytes} (h : encodeName name = some b) :
    NameFits name ∧ b.length = nameSize name := by
  simp only [encodeName, Option.bind_eq_bind, Option.bind_eq_some_iff, Option.pure_def,
    Option.some.injEq] at h
  obtain ⟨bufs, hbufs, rfl⟩ := h
  refine ⟨fun p hp => ?_, ?_⟩
  · obtain ⟨b, -, hb⟩ := mem_of_mapM hbufs hp
    exact (encodeLabel_spec hb).1
  · have hsum := sum_of_mapM (fun _ _ hb => (encodeLabel_spec hb).2) hbufs
    rw [List.length_append, List.length_flatten, hsum]
    rfl

theorem encodeName_of_fits {name : Text} (h : NameFits name) : ∃ b, encodeName name = some b := by
  obtain ⟨bufs, hbufs⟩ : ∃ bufs, (nameParts name).mapM encodeLabel = some bufs := by
    refine exists_mapM fun p hp => ⟨_, if_neg ?_⟩
    have := h p hp
    rw [length_asciiBytes_eq]
    omega
  refine ⟨bufs.flatten ++ [0], ?_⟩
  rw [encodeName]
  simp only [nameParts] at hbufs
  rw [hbufs]
  rfl

/-- The length of the name of a record, as a pointer or written out. -/
def ownerSize (qname : Option Text) (name : Text) : Nat := if some name = qname then 2 else nameSize name

def OwnerFits (qname : Option Text) (name : Text) : Prop := some name = qname ∨ NameFits name

def answerSize (qname : Option Text) (a : NewAnswer) : Nat :=
  ownerSize qname a.name + 10 + a.rdata.length

def AnswerFits (qname : Option Text) (a : NewAnswer) : Prop :=
  OwnerFits qname a.name ∧ a.type < 65536 ∧ a.rdata.length < 65536

theorem encodeOwner_spec {qname : Option Text} {name : Text} {b : Bytes}
    (h : encodeOwner qname name = some b) : OwnerFits qname name ∧ b.length = ownerSize qname name := by
  unfold encodeOwner at h
  unfold OwnerFits ownerSize
  split at h
  · rename_i hq
    cases h
    exact ⟨.inl hq, by rw [if_pos hq]; rfl⟩
  · rename_i hq
    obtain ⟨hfits, hlen⟩ := encodeName_spec h
    exact ⟨.inr hfits, by rw [if_neg hq, hlen]⟩

theorem encodeOwner_of_fits {qname : Option Text} {name : Text} (h : OwnerFits qname name) :
    ∃ b, encodeOwner qname name = some b := by
  unfold encodeOwner
  split
  · exact ⟨_, rfl⟩
  · rename_i hq
    exact encodeName_of_fits (h.resolve_left hq)

theorem uint16?_spec {n : Nat} {b : Bytes} (h : uint16? n = some b) : n < 65536 ∧ b = uint16BE n := by
  unfold uint16? at h
  split at h
  · exact ⟨‹_›, (Option.some.inj h).symm⟩
  · cases h

theorem encodeAnswer_spec {qname : Option Text} {a : NewAnswer} {b : Bytes}
    (h : encodeAnswer qname a = some b) : AnswerFits qname a ∧ b.length = answerSize qname a := by
  simp only [encodeAnswer, Option.bind_eq_bind, Option.bind_eq_some_iff, Option.pure_def,
    Option.some.injEq] at h
  obtain ⟨n, hn, t, ht, l, hl, rfl⟩ := h
  obtain ⟨howner, hlen⟩ := encodeOwner_spec hn
  obtain ⟨htype, rfl⟩ := uint16?_spec ht
  obtain ⟨hrdata, rfl⟩ := uint16?_spec hl
  refine ⟨⟨howner, htype, hrdata⟩, ?_⟩
  simp only [List.length_append, hlen, length_uint16BE, length_uint32BE, answerSize]

theorem encodeAnswer_of_fits {qname : Option Text} {a : NewAnswer} (h : AnswerFits qname a) :
    ∃ b, encodeAnswer qname a = some b := by
  obtain ⟨n, hn⟩ := encodeOwner_of_fits h.1
  rw [encodeAnswer, hn, uint16?_of_lt h.2.1, uint16?_of_lt h.2.2]
  exact ⟨_, rfl⟩

/-- The length of the question and the answers. -/
def sectionsSize (asked : Option Asked) (answers : List NewAnswer) : Nat :=
  match asked with
  | none => 0
  | some a => a.question.length + (answers.map (answerSize a.name)).sum

/-- The length of the OPT record. -/
def ednsSize (edns : Option Edns) (ede : Option Nat) : Nat :=
  if edns.isSome then if ede.isSome then 17 else 11 else 0

theorem encodeEde_spec {ede : Option Nat} {b : Bytes} (h : encodeEde ede = some b) :
    b.length = if ede.isSome then 6 else 0 := by
  cases ede with
  | none =>
      cases h
      rfl
  | some e =>
      obtain ⟨e', he', rfl⟩ := Option.map_eq_some_iff.1 h
      obtain ⟨-, rfl⟩ := uint16?_spec he'
      rfl

theorem optRecord_spec {udpSize : Nat} {doBit : Bool} {ede : Option Nat} {b : Bytes}
    (h : optRecord udpSize doBit ede = some b) : b.length = if ede.isSome then 17 else 11 := by
  simp only [optRecord, Option.bind_eq_bind, Option.bind_eq_some_iff, Option.pure_def,
    Option.some.injEq] at h
  obtain ⟨rdata, hrdata, size, hsize, rfl⟩ := h
  obtain ⟨-, rfl⟩ := uint16?_spec hsize
  simp only [List.length_cons, List.length_append, length_uint16BE, length_uint32BE,
    encodeEde_spec hrdata]
  split <;> rfl

theorem encodeEdns_spec {edns : Option Edns} {ede : Option Nat} {b : Bytes}
    (h : encodeEdns (edns.map Edns.doBit) ede = some b) : b.length = ednsSize edns ede := by
  cases edns with
  | none =>
      cases h
      rfl
  | some e =>
      exact optRecord_spec h

/-- A message with the QR bit set and the given id. -/
def IsReply (out : Bytes) (id : Nat) : Prop :=
  (∃ flags, readFlags out = some flags ∧ flags.testBit 15 = true) ∧ readUInt16BE out 0 = some id

theorem encodeSections_spec {asked : Option Asked} {answers : List NewAnswer} {s : Nat × Bytes}
    (h : encodeSections asked answers = some s) : s.2.length = sectionsSize asked answers := by
  cases asked with
  | none =>
      cases h
      rfl
  | some a =>
      obtain ⟨rs, hrs, rfl⟩ := Option.map_eq_some_iff.1 h
      have hsum := sum_of_mapM (fun _ _ hb => (encodeAnswer_spec hb).2) hrs
      rw [List.length_append, List.length_flatten, hsum]
      rfl

theorem buildResponse_spec {q : Query} {r : Reply} {out : Bytes} (h : buildResponse q r = some out) :
    IsReply out (q.id % 65536) ∧
      out.length = 12 + sectionsSize q.asked r.answers + ednsSize q.edns r.ede := by
  simp only [buildResponse, Option.bind_eq_bind, Option.bind_eq_some_iff, Option.pure_def,
    Option.some.injEq] at h
  obtain ⟨s, hs, an, han, opt, hopt, rfl⟩ := h
  obtain ⟨hlt, rfl⟩ := uint16?_spec han
  obtain ⟨hflags, hqr, -⟩ := responseFlags_spec q r.rcode r.tc
  constructor
  · have hbuf := (BytesAt.whole (header (q.id % 65536) (responseFlags q r.rcode r.tc)
      (if q.asked.isSome then 1 else 0) s.1 0 (if q.edns.isSome then 1 else 0) ++ s.2 ++ opt)).left.left
    have hhead := header_read hbuf (Nat.mod_lt _ (by decide)) hflags (by split <;> decide) hlt
      (by decide) (by split <;> decide)
    exact ⟨⟨_, hhead.flags, hqr⟩, hhead.id⟩
  · simp only [List.length_append, length_uint16BE, encodeSections_spec hs, encodeEdns_spec hopt]

/-- All answers of a reply that was built fit their records. -/
theorem buildResponse_fits {q : Query} {r : Reply} {out : Bytes} (h : buildResponse q r = some out)
    {a : Asked} (hq : q.asked = some a) : ∀ x ∈ r.answers, AnswerFits a.name x := by
  intro x hx
  simp only [buildResponse, hq, Option.bind_eq_bind, Option.bind_eq_some_iff] at h
  obtain ⟨s, hs, -⟩ := h
  obtain ⟨rs, hrs, -⟩ := Option.map_eq_some_iff.1 hs
  obtain ⟨b, -, hb⟩ := mem_of_mapM hrs hx
  exact (encodeAnswer_spec hb).1

theorem buildResponse_total {q : Query} {r : Reply}
    (hfits : ∀ a, q.asked = some a → ∀ x ∈ r.answers, AnswerFits a.name x)
    (hcount : r.answers.length < 65536) (hede : ∀ e, r.ede = some e → e < 65536) :
    ∃ out, buildResponse q r = some out := by
  obtain ⟨s, hs, hs1⟩ : ∃ s, encodeSections q.asked r.answers = some s ∧ s.1 < 65536 := by
    cases hq : q.asked with
    | none =>
        exact ⟨(0, []), rfl, by decide⟩
    | some a =>
        obtain ⟨rs, hrs⟩ := exists_mapM fun x hx => encodeAnswer_of_fits (hfits a hq x hx)
        exact ⟨_, by rw [encodeSections, hrs]; rfl, hcount⟩
  obtain ⟨opt, hopt⟩ : ∃ opt, encodeEdns (q.edns.map Edns.doBit) r.ede = some opt := by
    cases q.edns with
    | none =>
        exact ⟨[], rfl⟩
    | some e =>
        cases hr : r.ede with
        | none =>
            exact ⟨_, encodeEdns_eq (some e.doBit)⟩
        | some x =>
            rw [Option.map_some, encodeEdns, optRecord, encodeEde, uint16?_of_lt (hede x hr),
              uint16?_of_lt (show ednsUdp < 65536 by decide)]
            exact ⟨_, rfl⟩
  simp only [buildResponse, hs, Option.bind_eq_bind, Option.bind_some, uint16?_of_lt hs1, hopt]
  exact ⟨_, rfl⟩

/-! ## What a request bounds -/

theorem ednsAt_spec {buf : Bytes} {p : Nat} {e : Edns} (h : ednsAt buf p = some e) :
    512 ≤ e.udpSize := by
  simp only [ednsAt, Option.bind_eq_bind, Option.bind_eq_some_iff, Option.pure_def,
    Option.some.injEq] at h
  obtain ⟨ttl, -, size, -, rfl⟩ := h
  exact Nat.le_max_left _ _

theorem readEdns_spec {buf : Bytes} {ar : Nat} {pos : Option Nat} {edns res : Option Edns}
    (h : readEdns buf ar pos edns = some res) (hedns : ∀ e, edns = some e → 512 ≤ e.udpSize) :
    ∀ e, res = some e → 512 ≤ e.udpSize := by
  induction ar generalizing pos edns with
  | zero =>
      cases h
      exact hedns
  | succ ar ih =>
      cases pos with
      | none =>
          cases h
          exact hedns
      | some pos =>
          simp only [readEdns, Option.bind_eq_bind, Option.bind_eq_some_iff] at h
          obtain ⟨n, -, h⟩ := h
          split at h
          · cases h
            exact hedns
          · simp only [Option.bind_eq_some_iff] at h
            obtain ⟨type, -, h⟩ := h
            split at h
            · simp only [Option.bind_eq_some_iff] at h
              obtain ⟨next, hnext, pos', -, h⟩ := h
              obtain ⟨e, he, rfl⟩ := Option.map_eq_some_iff.1 hnext
              refine ih h ?_
              rintro _ ⟨⟩
              exact ednsAt_spec he
            · simp only [Option.bind_some, Option.bind_eq_some_iff] at h
              obtain ⟨pos', -, h⟩ := h
              exact ih h hedns

/-- The question of a request has at most 260 bytes, and its EDNS size is at least 512. -/
structure QueryBounds (q : Query) : Prop where
  id : q.id < 65536
  question : sectionsSize q.asked [] ≤ 260
  edns : ∀ e, q.edns = some e → 512 ≤ e.udpSize

theorem AskedOf.question_le {a : Asked} {labels : List Bytes} (h : AskedOf a labels) :
    a.question.length ≤ 260 := by
  have := h.short
  rw [h.question]
  simp only [wireQuestion, List.length_append, length_wireName, length_uint16BE]
  omega

theorem parseQuery_bounds {buf : Bytes} {q : Query} (h : parseQuery buf = some q) :
    QueryBounds q := by
  obtain ⟨base, hid, hasked, hedns, rfl | ⟨a, labels, ar, pos, edns, ha, hread, rfl⟩⟩ :=
    parseQuery_cases h
  · refine ⟨hid, by rw [hasked]; exact Nat.zero_le _, ?_⟩
    rw [hedns]
    rintro _ ⟨⟩
  · refine ⟨hid, by simpa [sectionsSize] using ha.question_le, readEdns_spec hread ?_⟩
    rintro _ ⟨⟩

/-- The walk over the records adds an answer for a record at most. -/
theorem readRecords_length {host : UnicodeHost} {buf : Bytes} {an ns n i : Nat} {w w' : Walk}
    (h : readRecords host buf an ns n i w = some w') : w'.answers.length ≤ w.answers.length + n := by
  induction n generalizing i w with
  | zero =>
      cases h
      exact Nat.le_refl _
  | succ n ih =>
      obtain ⟨w₁, hw₁, hrest⟩ := Option.bind_eq_some_iff.1 h
      have hlen := ih hrest
      have hone : w₁.answers.length ≤ w.answers.length + 1 := by
        simp only [readRecord, Option.bind_eq_bind, Option.bind_eq_some_iff] at hw₁
        obtain ⟨name, -, hw₁⟩ := hw₁
        split at hw₁
        · cases hw₁
        · simp only [Option.bind_eq_some_iff] at hw₁
          obtain ⟨type, -, ttl, -, rdlen, -, hw₁⟩ := hw₁
          split at hw₁
          · cases hw₁
          · simp only [addRecord, Option.bind_eq_bind, Option.bind_eq_some_iff, Option.pure_def,
              Option.some.injEq] at hw₁
            obtain ⟨negTtl, -, answer, -, rfl⟩ := hw₁
            rw [List.length_append]
            cases answer <;> simp
      omega

/-- A reply the parser accepts is a reply, and has at most 512 answers. -/
theorem parseResponse_spec {host : UnicodeHost} {buf : Bytes} {r : Response}
    (h : parseResponse host buf = some r) :
    12 ≤ buf.length ∧ (∃ flags, readFlags buf = some flags ∧ flags.testBit 15 = true) ∧
      r.answers.length ≤ 512 := by
  simp only [parseResponse] at h
  split at h
  · cases h
  · rename_i hlong
    simp only [Option.bind_eq_bind, Option.bind_eq_some_iff] at h
    obtain ⟨flags, hflags, h⟩ := h
    split at h
    · cases h
    · rename_i hqr
      simp only [Option.bind_eq_some_iff] at h
      obtain ⟨qd, -, an, -, ns, -, ar, -, h⟩ := h
      split at h
      · cases h
      · rename_i hfew
        simp only [Option.bind_eq_some_iff, Option.pure_def, Option.some.injEq] at h
        obtain ⟨q, -, w, hw, id, -, rfl⟩ := h
        have hlen := readRecords_length hw
        simp only [maxRR, List.length_nil] at hfew hlen
        refine ⟨by omega, ⟨flags, hflags, by simpa using hqr⟩, ?_⟩
        show w.answers.length ≤ 512
        omega

theorem readUInt16BE_congr {a b : Bytes} {i : Nat} (h : ∀ j, i ≤ j → j < i + 2 → a[j]? = b[j]?) :
    readUInt16BE a i = readUInt16BE b i := by
  rw [readUInt16BE, readUInt16BE, h i (by omega) (by omega), h (i + 1) (by omega) (by omega)]

end Wire

end Dns
end GateControl
