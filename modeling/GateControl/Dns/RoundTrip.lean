import GateControl.Dns.Names

/-!
# RoundTrip — what the filter writes, read again

The query for the upstream asks what the client asked, and the filter's own replies are read as the
answers they were made of.  Both writers meet the readers at the bytes of a message: each part is
shown to stand in its place, and to be read from there.
-/

namespace GateControl
namespace Dns

open Library

namespace Wire

/-! ## The header -/

/-- The six numbers at the beginning of a message. -/
def header (id flags qd an ns ar : Nat) : Bytes :=
  uint16BE id ++ uint16BE flags ++ uint16BE qd ++ uint16BE an ++ uint16BE ns ++ uint16BE ar

structure HeaderRead (buf : Bytes) (id flags qd an ns ar : Nat) : Prop where
  id : readUInt16BE buf 0 = some id
  flags : readFlags buf = some flags
  qd : readUInt16BE buf 4 = some qd
  an : readUInt16BE buf 6 = some an
  ns : readUInt16BE buf 8 = some ns
  ar : readUInt16BE buf 10 = some ar

theorem header_read {buf : Bytes} {id flags qd an ns ar : Nat}
    (hbuf : BytesAt buf 0 (header id flags qd an ns ar)) (hid : id < 65536) (hflags : flags < 65536)
    (hqd : qd < 65536) (han : an < 65536) (hns : ns < 65536) (har : ar < 65536) :
    HeaderRead buf id flags qd an ns ar :=
  ⟨hbuf.left.left.left.left.left.readUInt16BE rfl hid,
    hbuf.left.left.left.left.right.readUInt16BE rfl hflags,
    hbuf.left.left.left.right.readUInt16BE rfl hqd,
    hbuf.left.left.right.readUInt16BE rfl han,
    hbuf.left.right.readUInt16BE rfl hns,
    hbuf.right.readUInt16BE rfl har⟩

theorem uint16?_of_lt {n : Nat} (h : n < 65536) : uint16? n = some (uint16BE n) := if_pos h

/-! ## The question -/

/-- The bytes of a question. -/
def wireQuestion (labels : List Bytes) (qtype qclass : Nat) : Bytes :=
  wireName labels ++ (uint16BE qtype ++ uint16BE qclass)

/-- The question of a request, and the labels it was read from. -/
structure AskedOf (a : Asked) (labels : List Bytes) : Prop where
  size : ∀ l ∈ labels, LabelSize l
  short : (wireLabels labels).length ≤ 255
  name : a.name = (labels.mapM labelText).map joinDots
  qtype : a.qtype < 65536
  qclass : a.qclass < 65536
  question : a.question = wireQuestion labels a.qtype a.qclass

/-- A name of at most 255 bytes has few enough labels. -/
theorem length_labels_le {labels : List Bytes} (hsize : ∀ l ∈ labels, LabelSize l) :
    2 * labels.length ≤ (wireLabels labels).length := by
  induction labels with
  | nil =>
      simp
  | cons l labels ih =>
      have hrest := ih fun l hl => hsize l (List.mem_cons_of_mem _ hl)
      have hl := (hsize l List.mem_cons_self).1
      rw [wireLabels_cons, List.length_cons, List.length_cons, List.length_append]
      omega

theorem AskedOf.count {a : Asked} {labels : List Bytes} (h : AskedOf a labels) :
    labels.length ≤ maxLabels := by
  have := length_labels_le h.size
  have := h.short
  rw [maxLabels]
  omega

/-- The labels of a name that is good enough to be asked for. -/
theorem AskedOf.texts {a : Asked} {labels : List Bytes} (h : AskedOf a labels) {name : Text}
    (hname : a.name = some name) :
    ∃ texts, labels.mapM labelText = some texts ∧ name = joinDots texts := by
  rw [h.name, Option.map_eq_some_iff] at hname
  obtain ⟨texts, htexts, rfl⟩ := hname
  exact ⟨texts, htexts, rfl⟩

/-- What the parser adds to the fields of the header: nothing, or a question and the EDNS of the
additional records. -/
theorem readAsked_cases {buf : Bytes} {base q : Query} (h : readAsked buf base = some q) :
    q = base ∨ ∃ a labels ar pos edns, AskedOf a labels ∧ readEdns buf ar pos none = some edns ∧
      q = { base with asked := some a, edns := edns } := by
  simp only [readAsked] at h
  split at h
  · exact .inl (Option.some.inj h).symm
  · rename_i l hl
    split at h
    · exact .inl (Option.some.inj h).symm
    · obtain ⟨labels, hlabels, hsize, hshort, hbuf, hstop⟩ :=
        readQuestionLabelsFrom_spec hl (Nat.zero_le _)
      rw [List.nil_append] at hlabels
      rw [Nat.zero_add] at hshort
      simp only [Option.bind_eq_bind, Option.bind_eq_some_iff] at h
      obtain ⟨qtype, hqtype, qclass, hqclass, an, -, ns, -, ar, -, h⟩ := h
      split at h
      · exact .inl (Option.some.inj h).symm
      · simp only [Option.bind_eq_some_iff] at h
        obtain ⟨pos, -, edns, hedns, h⟩ := h
        -- the question is what stands between the header and the type and the class
        have htype := BytesAt.of_readUInt16BE hqtype
        have hclass := BytesAt.of_readUInt16BE hqclass
        refine .inr ⟨_, labels, ar, pos, edns, ⟨hsize, hshort, ?_, htype.1, hclass.1, ?_⟩, hedns,
          (Option.some.inj h).symm⟩
        · rw [hlabels]
        · rw [hstop] at htype hclass
          have hq := hbuf.append (htype.2.append hclass.2)
          have hslice := hq.slice_eq
          rw [hstop]
          simpa [wireQuestion, Nat.add_assoc] using hslice

theorem parseQuery_cases {buf : Bytes} {q : Query} (h : parseQuery buf = some q) :
    ∃ base : Query, base.id < 65536 ∧ base.asked = none ∧ base.edns = none ∧
      (q = base ∨ ∃ a labels ar pos edns, AskedOf a labels ∧
        readEdns buf ar pos none = some edns ∧ q = { base with asked := some a, edns := edns }) := by
  simp only [parseQuery] at h
  split at h
  · cases h
  · simp only [Option.bind_eq_bind, Option.bind_eq_some_iff] at h
    obtain ⟨id, hid, flags, -, h⟩ := h
    have hid' := (BytesAt.of_readUInt16BE hid).1
    split at h
    · cases h
    · simp only [Option.bind_eq_some_iff] at h
      obtain ⟨qdcount, -, h⟩ := h
      split at h
      · exact ⟨_, hid', rfl, rfl, .inl (Option.some.inj h).symm⟩
      · exact ⟨_, hid', rfl, rfl, readAsked_cases h⟩

theorem parseQuery_spec {buf : Bytes} {q : Query} {a : Asked} (h : parseQuery buf = some q)
    (ha : q.asked = some a) : q.id < 65536 ∧ ∃ labels, AskedOf a labels := by
  obtain ⟨base, hid, hasked, -, rfl | ⟨a', labels, ar, pos, edns, ha', -, rfl⟩⟩ := parseQuery_cases h
  · rw [hasked] at ha
    cases ha
  · obtain rfl := Option.some.inj ha
    exact ⟨hid, labels, ha'⟩

/-! ## The OPT record -/

/-- The record for a client that spoke EDNS, with its DO bit. -/
def wireOpt : Option Bool → Bytes
  | none => []
  | some doBit => 0 :: (uint16BE typeOpt ++ uint16BE ednsUdp ++
      uint32BE (if doBit then 0x8000 else 0) ++ uint16BE 0)

theorem encodeEdns_eq (edns : Option Bool) : encodeEdns edns none = some (wireOpt edns) := by
  cases edns with
  | none =>
      rfl
  | some doBit =>
      rw [encodeEdns, optRecord, encodeEde, uint16?_of_lt (by decide)]
      simp [wireOpt]

/-- The fields of the record, where it stands in a message. -/
structure OptRead (buf : Bytes) (pos : Nat) (doBit : Bool) : Prop where
  name : readName buf pos = some ⟨[], pos + 1⟩
  fits : pos + 1 + 10 ≤ buf.length
  type : readUInt16BE buf (pos + 1) = some typeOpt
  size : readUInt16BE buf (pos + 1 + 2) = some ednsUdp
  ttl : readUInt32BE buf (pos + 1 + 4) = some (if doBit then 0x8000 else 0)
  rdlen : readUInt16BE buf (pos + 1 + 8) = some 0

theorem opt_read {buf : Bytes} {pos : Nat} {doBit : Bool}
    (hbuf : BytesAt buf pos (wireOpt (some doBit))) : OptRead buf pos doBit := by
  have hroot : BytesAt buf pos (wireName []) := hbuf.left (a := [0])
  have hname := readName_wire hroot (by simp) (by simp)
  have hfields := hbuf.tail
  have hfits := hfields.length_le
  exact
    { name := hname
      fits := by simpa using hfits
      type := hfields.left.left.left.readUInt16BE rfl (by decide)
      size := hfields.left.left.right.readUInt16BE rfl (by decide)
      ttl := hfields.left.right.readUInt32BE (by cases doBit <;> decide)
      rdlen := hfields.right.readUInt16BE rfl (by decide) }

theorem skipRR_opt {buf : Bytes} {pos : Nat} {doBit : Bool} (h : OptRead buf pos doBit) :
    skipRR buf pos = some (some (pos + 11)) := by
  have hfits := h.fits
  simp only [skipRR, h.name, Option.bind_eq_bind, Option.bind_some, h.rdlen]
  rw [if_neg (by omega), if_neg (by omega)]
  rfl

theorem readEdns_wire {buf : Bytes} {pos : Nat} {edns : Option Bool}
    (hbuf : BytesAt buf pos (wireOpt edns)) :
    readEdns buf (if edns.isSome then 1 else 0) (some pos) none =
      some (edns.map fun doBit => ⟨ednsUdp, doBit, 0⟩) := by
  cases edns with
  | none =>
      rfl
  | some doBit =>
      have h := opt_read hbuf
      have hfits := h.fits
      have hedns : ednsAt buf (pos + 1) = some ⟨ednsUdp, doBit, 0⟩ := by
        simp only [ednsAt, h.ttl, h.size, Option.bind_eq_bind, Option.bind_some]
        cases doBit <;> rfl
      simp only [Option.isSome_some, if_true, readEdns, h.name, Option.bind_eq_bind,
        Option.bind_some, h.type, hedns, skipRR_opt h]
      rw [if_neg (by omega)]
      rfl

/-! ## The query for the upstream -/

/-- The bytes of a query. -/
def wireQuery (id : Nat) (labels : List Bytes) (qtype qclass : Nat) (edns : Option Bool)
    (cd : Bool) : Bytes :=
  header (id % 65536) (0x0100 + if cd then 0x0010 else 0) 1 0 0 (if edns.isSome then 1 else 0) ++
    wireQuestion labels qtype qclass ++ wireOpt edns

theorem buildQuery_eq (id : Nat) {texts : List Text} (h : ∀ t ∈ texts, IsLabel t) {qtype qclass : Nat}
    (hqtype : qtype < 65536) (hqclass : qclass < 65536) (edns : Option Bool) (cd : Bool) :
    buildQuery id (joinDots texts) qtype qclass edns cd =
      some (wireQuery id (texts.map asciiBytes) qtype qclass edns cd) := by
  have hquestion : questionFor (joinDots texts) qtype qclass =
      some (wireQuestion (texts.map asciiBytes) qtype qclass) := by
    rw [questionFor, uint16?_of_lt hqtype, uint16?_of_lt hqclass, encodeName_joinDots h]
    rfl
  rw [buildQuery, hquestion, encodeEdns_eq]
  rfl

/-- The reader of requests gets from a query what it was built from. -/
theorem parseQuery_wire (id : Nat) {labels : List Bytes} (hsize : ∀ l ∈ labels, LabelSize l)
    (hshort : (wireLabels labels).length ≤ 255) {qtype qclass : Nat} (hqtype : qtype < 65536)
    (hqclass : qclass < 65536) (edns : Option Bool) (cd : Bool) :
    parseQuery (wireQuery id labels qtype qclass edns cd) = some
      { id := id % 65536
        opcode := 0
        rd := true
        cd := cd
        qdcount := 1
        asked := some ⟨(labels.mapM labelText).map joinDots, qtype, qclass,
          wireQuestion labels qtype qclass⟩
        edns := edns.map fun doBit => ⟨ednsUdp, doBit, 0⟩ } := by
  have hbuf := BytesAt.whole (wireQuery id labels qtype qclass edns cd)
  generalize hmsg : wireQuery id labels qtype qclass edns cd = msg at hbuf ⊢
  have hlen : (header (id % 65536) (0x0100 + if cd then 0x0010 else 0) 1 0 0
      (if edns.isSome then 1 else 0)).length = 12 := rfl
  have hopt : (wireOpt edns).length ≤ 11 := by
    cases edns <;> simp [wireOpt]
  have hlong : msg.length ≤ 65535 ∧ 12 ≤ msg.length := by
    rw [← hmsg]
    simp only [wireQuery, wireQuestion, List.length_append, hlen, length_wireName, length_uint16BE]
    omega
  have hbuf' : BytesAt msg 0 (wireQuery id labels qtype qclass edns cd) := hmsg ▸ hbuf
  -- the header, the question and the options, one behind the other
  have hhead := header_read hbuf'.left.left (by omega) (by cases cd <;> decide) (by decide) (by decide)
    (by decide) (by split <;> decide)
  have hq : BytesAt msg 12 (wireQuestion labels qtype qclass) := hbuf'.left.right
  have hshort' : 0 + (wireLabels labels).length ≤ 255 := by
    omega
  have hname := readQuestionLabelsFrom_wire hq.left hsize hshort' []
  have htype : readUInt16BE msg (12 + (wireName labels).length) = some qtype :=
    hq.right.left.readUInt16BE rfl hqtype
  have hclass : readUInt16BE msg (12 + (wireName labels).length + 2) = some qclass :=
    hq.right.right.readUInt16BE rfl hqclass
  have hqend := hq.length_le
  have hqlen : (wireQuestion labels qtype qclass).length = (wireName labels).length + 4 := by
    simp [wireQuestion]
  have hedns : BytesAt msg (12 + (wireName labels).length + 4) (wireOpt edns) := by
    have := hbuf'.right
    rw [List.length_append, hlen, hqlen] at this
    simpa [Nat.add_assoc] using this
  have hslice : slice msg 12 (12 + (wireName labels).length + 4) = wireQuestion labels qtype qclass := by
    have := hq.slice_eq
    rwa [hqlen, ← Nat.add_assoc] at this
  -- the bits of the header: a query, recursion desired, and `cd`
  have hflags : (0x0100 + if cd then 0x0010 else 0 : Nat).testBit 15 = false ∧
      (0x0100 + if cd then 0x0010 else 0 : Nat).testBit 4 = cd ∧
      (0x0100 + if cd then 0x0010 else 0 : Nat).testBit 8 = true ∧
      (0x0100 + if cd then 0x0010 else 0 : Nat) / 2048 % 16 = 0 := by
    cases cd <;> decide
  have hfew : ¬ 0 + 0 + (if edns.isSome then 1 else 0) > maxRR := by
    split <;> decide
  rw [hqlen] at hqend
  rw [parseQuery, if_neg (by omega)]
  simp only [hhead.id, hhead.flags, hhead.qd, Option.bind_eq_bind, Option.bind_some, hflags]
  rw [if_neg (by decide), if_neg (by decide), readAsked, readQuestionLabels, hname]
  simp only [List.nil_append, htype, hclass, hhead.an, hhead.ns, hhead.ar, Option.bind_eq_bind,
    Option.bind_some, hslice]
  rw [if_neg (by omega), if_neg hfew, skipRRs, Option.bind_some, readEdns_wire hedns]
  rfl

/-! ## Answers -/

/-- A name as a record can bear it. -/
def IsName (name : Text) : Prop :=
  ∃ labels, (∀ t ∈ labels, IsLabel t) ∧ labels.length ≤ maxLabels ∧ name = joinDots labels

/-- A name in a message, of any bytes. -/
def IsWireName (rdata : Bytes) : Prop :=
  ∃ labels, (∀ l ∈ labels, LabelSize l) ∧ labels.length ≤ maxLabels ∧ rdata = wireName labels

/-- What the fields of a record can hold; the target of a CNAME record is a name. -/
structure NewAnswer.Fits (a : NewAnswer) : Prop where
  name : IsName a.name
  type : a.type < 65536
  ttl : 0 ≤ a.ttl ∧ a.ttl < 2147483648
  rdata : a.rdata.length ≤ 65535
  target : a.type = typeCname → IsWireName a.rdata

def NewAnswer.fields (a : NewAnswer) : Text × Nat × Int × Bytes := (a.name, a.type, a.ttl, a.rdata)

def Answer.fields (a : Answer) : Text × Nat × Int × Bytes := (a.name, a.type, a.ttl, a.rdata)

theorem ttlField_of_fits {a : NewAnswer} (h : a.Fits) :
    (ttlField a.ttl : Int) = a.ttl ∧ ttlField a.ttl < 4294967296 := by
  have := h.ttl
  have hmod : a.ttl.bmod 4294967296 = a.ttl := by
    rw [Int.bmod_def]
    omega
  rw [ttlField, hmod]
  omega

section Replies

variable (host : UnicodeHost) {asked : Asked} {labels : List Bytes} {name : Text}

/-- The question's name is read as the name that was asked for. -/
theorem AskedOf.lowerCase (h : AskedOf asked labels) (hname : asked.name = some name) :
    Dns.lowerCase host (joinDots (labels.map utf8)) = name := by
  obtain ⟨texts, htexts, rfl⟩ := h.texts hname
  exact (labelTexts_spec htexts h.size).2.2.2 host

/-- The name of a record, written out or as a pointer to the question. -/
theorem owner_read (h : AskedOf asked labels) {a : NewAnswer} (ha : a.Fits) :
    ∃ owner, encodeOwner asked.name a.name = some owner ∧
      ∀ buf pos, BytesAt buf 12 (wireName labels) → BytesAt buf pos owner →
        ∃ n, readName buf pos = some ⟨n, pos + owner.length⟩ ∧ Dns.lowerCase host n = a.name := by
  by_cases hsame : some a.name = asked.name
  · refine ⟨[0xc0, 0x0c], if_pos hsame, fun buf pos hq hptr => ?_⟩
    exact ⟨_, readName_pointer hptr hq h.size h.count, h.lowerCase host hsame.symm⟩
  · obtain ⟨texts, htexts, hcount, hname⟩ := ha.name
    refine ⟨wireName (texts.map asciiBytes), ?_, fun buf pos _ hown => ?_⟩
    · rw [encodeOwner, if_neg hsame, hname, encodeName_joinDots htexts]
    · have hsizes : ∀ l ∈ texts.map asciiBytes, LabelSize l := by
        intro l hl
        obtain ⟨t, ht, rfl⟩ := List.mem_map.1 hl
        exact (htexts t ht).labelSize
      have hread := readName_wire hown hsizes (by simpa using hcount)
      rw [utf8_labels htexts] at hread
      exact ⟨_, hread, by rw [lowerCase_labels host htexts, hname]⟩

/-- The target of a CNAME record can be read. -/
theorem answerAt_fits {buf : Bytes} {a : NewAnswer} (ha : a.Fits) {rd : Nat}
    (hbuf : BytesAt buf rd a.rdata) {n : Text} (hn : Dns.lowerCase host n = a.name) :
    ∃ x, answerAt host buf n a.type (ttlField a.ttl) rd a.rdata.length = some x ∧
      x.fields = a.fields := by
  have httl := (ttlField_of_fits ha).1
  simp only [answerAt, hbuf.slice_eq, hn]
  by_cases hcname : a.type = typeCname
  · obtain ⟨target, hsize, hcount, hrdata⟩ := ha.target hcname
    have hread := readName_wire (hrdata ▸ hbuf) hsize hcount
    rw [if_pos hcname, hread]
    exact ⟨_, rfl, by simp [Answer.fields, NewAnswer.fields, httl]⟩
  · rw [if_neg hcname]
    exact ⟨_, rfl, by simp [Answer.fields, NewAnswer.fields, httl]⟩

/-- The fields between the name of a record and its data. -/
def wireFields (type ttl rdlen : Nat) : Bytes :=
  uint16BE type ++ uint16BE classIn ++ uint32BE ttl ++ uint16BE rdlen

/-- An answer is read where its record stands. -/
theorem readRecord_wire {buf owner rdata : Bytes} {type ttl an i : Nat} {w : Walk} {n : Text}
    {x : Answer} (hi : i < an) (htype : type < 65536) (httl : ttl < 4294967296)
    (hrdlen : rdata.length < 65536)
    (hbuf : BytesAt buf w.pos (owner ++ wireFields type ttl rdata.length ++ rdata))
    (hn : readName buf w.pos = some ⟨n, w.pos + owner.length⟩)
    (hx : answerAt host buf n type ttl (w.pos + owner.length + 10) rdata.length = some x) :
    ∃ w', readRecord host buf an 0 i w = some w' ∧
      w'.pos = w.pos + (owner ++ wireFields type ttl rdata.length ++ rdata).length ∧
      w'.answers = w.answers ++ [x] := by
  have hfields := hbuf.left.right
  have hdata : BytesAt buf (w.pos + owner.length + 10) rdata := by
    have := hbuf.right
    rw [List.length_append] at this
    exact this
  have htype' := hfields.left.left.left.readUInt16BE rfl htype
  have httl' : readUInt32BE buf (w.pos + owner.length + 4) = some ttl :=
    hfields.left.right.readUInt32BE httl
  have hlen : readUInt16BE buf (w.pos + owner.length + 8) = some rdata.length :=
    hfields.right.readUInt16BE rfl hrdlen
  have hfits := hdata.length_le
  have hsoa : decide (type = typeSoa ∧ an ≤ i ∧ i < an + 0) = false := by
    simp only [decide_eq_false_iff_not]
    omega
  have hanswer : decide (i < an) = true := decide_eq_true hi
  have hstep : ∃ w', readRecord host buf an 0 i w = some w' ∧
      w'.pos = w.pos + owner.length + 10 + rdata.length ∧ w'.answers = w.answers ++ [x] := by
    simp only [readRecord, hn, htype', httl', hlen, Option.bind_eq_bind, Option.bind_some]
    rw [if_neg (by omega), if_neg (by omega)]
    simp only [addRecord, hsoa, hanswer, hx, Option.bind_eq_bind, Option.bind_some, cond_true,
      cond_false, Option.map_some]
    exact ⟨_, rfl, rfl, rfl⟩
  obtain ⟨w', hw', hpos, hanswers⟩ := hstep
  refine ⟨w', hw', ?_, hanswers⟩
  rw [hpos]
  simp only [wireFields, List.length_append, length_uint16BE, length_uint32BE]
  omega

/-- One record: what was written is read as the answer it was made of. -/
theorem readRecord_answer (h : AskedOf asked labels) {a : NewAnswer} (ha : a.Fits) :
    ∃ bytes, encodeAnswer asked.name a = some bytes ∧
      ∀ buf an i w, i < an → BytesAt buf 12 (wireName labels) → BytesAt buf w.pos bytes →
        ∃ w' x, readRecord host buf an 0 i w = some w' ∧ w'.pos = w.pos + bytes.length ∧
          w'.answers = w.answers ++ [x] ∧ x.fields = a.fields := by
  obtain ⟨owner, howner, hread⟩ := owner_read host h ha
  have hrdlen : a.rdata.length < 65536 := by
    have := ha.rdata
    omega
  have hencode : encodeAnswer asked.name a =
      some (owner ++ wireFields a.type (ttlField a.ttl) a.rdata.length ++ a.rdata) := by
    rw [encodeAnswer, howner, uint16?_of_lt ha.type, uint16?_of_lt hrdlen]
    rfl
  refine ⟨_, hencode, fun buf an i w hi hq hbuf => ?_⟩
  obtain ⟨n, hn, hlower⟩ := hread buf w.pos hq hbuf.left.left
  have hdata : BytesAt buf (w.pos + owner.length + 10) a.rdata := by
    have := hbuf.right
    rw [List.length_append] at this
    exact this
  obtain ⟨x, hx, hxa⟩ := answerAt_fits host ha hdata hlower
  obtain ⟨w', hw', hpos, hanswers⟩ :=
    readRecord_wire host hi ha.type (ttlField_of_fits ha).2 hrdlen hbuf hn hx
  exact ⟨w', x, hw', hpos, hanswers, hxa⟩

/-- All answers of a reply, one behind the other. -/
theorem readRecords_answers (h : AskedOf asked labels) {answers : List NewAnswer}
    (hfits : ∀ a ∈ answers, a.Fits) :
    ∃ rs, answers.mapM (encodeAnswer asked.name) = some rs ∧
      ∀ buf an i w, i + answers.length ≤ an → BytesAt buf 12 (wireName labels) →
        BytesAt buf w.pos rs.flatten →
        ∃ w', readRecords host buf an 0 answers.length i w = some w' ∧
          w'.pos = w.pos + rs.flatten.length ∧
          w'.answers.map Answer.fields = w.answers.map Answer.fields ++ answers.map NewAnswer.fields := by
  induction answers with
  | nil =>
      refine ⟨[], rfl, fun buf an i w _ _ _ => ⟨w, rfl, rfl, ?_⟩⟩
      simp
  | cons a answers ih =>
      obtain ⟨bytes, hbytes, hread⟩ := readRecord_answer host h (hfits a List.mem_cons_self)
      obtain ⟨rs, hrs, hreads⟩ := ih fun a ha => hfits a (List.mem_cons_of_mem _ ha)
      have hall : (a :: answers).mapM (encodeAnswer asked.name) = some (bytes :: rs) := by
        rw [mapM_eq_some] at hrs ⊢
        rw [List.map_cons, hbytes, hrs, List.map_cons]
      refine ⟨bytes :: rs, hall, fun buf an i w hi hq hbuf => ?_⟩
      rw [List.length_cons] at hi
      rw [List.flatten_cons] at hbuf
      obtain ⟨w₁, x, hw₁, hpos₁, hanswers₁, hx⟩ := hread buf an i w (by omega) hq hbuf.left
      have hrest : BytesAt buf w₁.pos rs.flatten := hpos₁ ▸ hbuf.right
      obtain ⟨w₂, hw₂, hpos₂, hanswers₂⟩ := hreads buf an (i + 1) w₁ (by omega) hq hrest
      refine ⟨w₂, ?_, ?_, ?_⟩
      · rw [List.length_cons, readRecords, hw₁, Option.bind_some, hw₂]
      · rw [hpos₂, hpos₁, List.flatten_cons, List.length_append, Nat.add_assoc]
      · rw [hanswers₂, hanswers₁, List.map_append, List.map_singleton, hx, List.map_cons,
          List.append_assoc, List.singleton_append]

/-- The OPT record behind the answers adds none. -/
theorem readRecords_opt {buf : Bytes} (an : Nat) {w : Walk} {edns : Option Bool}
    (hbuf : BytesAt buf w.pos (wireOpt edns)) :
    ∃ w', readRecords host buf an 0 (if edns.isSome then 1 else 0) an w = some w' ∧
      w'.answers = w.answers := by
  cases edns with
  | none =>
      exact ⟨w, rfl, rfl⟩
  | some doBit =>
      have hopt := opt_read hbuf
      have hfits := hopt.fits
      have hsoa : decide (typeOpt = typeSoa ∧ an ≤ an ∧ an < an + 0) = false := by
        simp
      have hanswer : decide (an < an) = false := by
        simp
      simp only [Option.isSome_some, if_true, readRecords, readRecord, hopt.name, hopt.type, hopt.ttl,
        hopt.rdlen, Option.bind_eq_bind, Option.bind_some]
      rw [if_neg (by omega), if_neg (by omega)]
      simp only [addRecord, hsoa, hanswer, Option.bind_eq_bind, Option.bind_some, cond_false]
      exact ⟨_, rfl, by simp⟩

theorem readRecords_add (buf : Bytes) (an ns m n i : Nat) (w : Walk) :
    readRecords host buf an ns (m + n) i w =
      (readRecords host buf an ns m i w).bind (readRecords host buf an ns n (i + m)) := by
  induction m generalizing i w with
  | zero =>
      simp [readRecords]
  | succ m ih =>
      rw [Nat.add_right_comm, readRecords, readRecords, Option.bind_assoc]
      congr 1
      funext w'
      rw [ih, Nat.add_right_comm, Nat.add_assoc i]

end Replies

/-! ## Replies -/

/-- The flags of a reply say that it is one, and its code. -/
theorem responseFlags_spec (query : Query) (rcode : Nat) (tc : Bool) :
    responseFlags query rcode tc < 65536 ∧ (responseFlags query rcode tc).testBit 15 = true ∧
      responseFlags query rcode tc % 16 = rcode % 16 := by
  have hop : query.opcode % 16 < 16 := Nat.mod_lt _ (by decide)
  have hcode : rcode % 16 < 16 := Nat.mod_lt _ (by decide)
  simp only [responseFlags, Nat.testBit_eq_decide_div_mod_eq]
  cases tc <;> cases query.rd <;> cases query.cd <;> simp <;> omega

/-- A reply is read part by part. -/
theorem parseResponse_of_parts {host : UnicodeHost} {buf : Bytes} {id flags qd an ns ar : Nat}
    {q : Option Text × Nat} {w : Walk} (hlong : 12 ≤ buf.length)
    (hhead : HeaderRead buf id flags qd an ns ar) (hqr : flags.testBit 15 = true)
    (hfew : an + ns + ar ≤ maxRR) (hqd : qd ≤ 1) (hq : readQuestion buf qd = some q)
    (hw : readRecords host buf an ns (an + ns + ar) 0 ⟨q.2, [], [], none, none⟩ = some w) :
    ∃ r, parseResponse host buf = some r ∧ r.id = id ∧ r.rcode = flags % 16 ∧
      r.answers = w.answers := by
  have hlong' : ¬ buf.length < 12 := by
    omega
  have hmany : ¬ (an + ns + ar > maxRR ∨ qd > 1) := by
    omega
  simp only [parseResponse, if_neg hlong', hhead.flags, hqr, Bool.not_true, Bool.false_eq_true,
    if_false, hhead.qd, hhead.an, hhead.ns, hhead.ar, if_neg hmany, hq, hw, hhead.id,
    Option.bind_eq_bind, Option.bind_some]
  exact ⟨_, rfl, rfl, rfl, rfl⟩

/-- A reply of at most 511 answers is read as these answers. -/
theorem parseResponse_buildResponse (host : UnicodeHost) {q : Query} {a : Asked} {labels : List Bytes}
    (hid : q.id < 65536) (hq : q.asked = some a) (ha : AskedOf a labels) {rcode : Nat}
    (hrcode : rcode < 16) {answers : List NewAnswer} (hfew : answers.length ≤ 511)
    (hfits : ∀ x ∈ answers, x.Fits) :
    ∃ out r, buildResponse q { rcode := rcode, answers := answers } = some out ∧
      parseResponse host out = some r ∧ r.id = q.id ∧ r.rcode = rcode ∧
      r.answers.map Answer.fields = answers.map NewAnswer.fields := by
  obtain ⟨rs, hrs, hread⟩ := readRecords_answers host ha hfits
  obtain ⟨hflags, hqr, hcode⟩ := responseFlags_spec q rcode false
  rw [Nat.mod_eq_of_lt hrcode] at hcode
  obtain ⟨edns, hedns⟩ : ∃ edns, q.edns.map Edns.doBit = edns := ⟨_, rfl⟩
  have hsome : q.edns.isSome = edns.isSome := by
    rw [← hedns, Option.isSome_map]
  -- the header, the question with the answers, the OPT record
  have hbuild : buildResponse q { rcode := rcode, answers := answers } =
      some (header (q.id % 65536) (responseFlags q rcode false) 1 answers.length 0
        (if edns.isSome then 1 else 0) ++ (a.question ++ rs.flatten) ++ wireOpt edns) := by
    simp only [buildResponse, encodeSections, hq, hrs, Option.map_some, Option.bind_eq_bind,
      Option.bind_some, uint16?_of_lt (show answers.length < 65536 by omega), hedns,
      encodeEdns_eq, hsome]
    rfl
  generalize hout : header (q.id % 65536) (responseFlags q rcode false) 1 answers.length 0
    (if edns.isSome then 1 else 0) ++ (a.question ++ rs.flatten) ++ wireOpt edns = out at hbuild
  have hbuf : BytesAt out 0 (header (q.id % 65536) (responseFlags q rcode false) 1 answers.length 0
      (if edns.isSome then 1 else 0) ++ (a.question ++ rs.flatten) ++ wireOpt edns) :=
    hout ▸ BytesAt.whole out
  have hhead := header_read hbuf.left.left (by omega) hflags (by decide) (by omega) (by decide)
    (by split <;> decide)
  have hlen : (header (q.id % 65536) (responseFlags q rcode false) 1 answers.length 0
      (if edns.isSome then 1 else 0)).length = 12 := rfl
  have hsection := hbuf.left.right
  have hlast := hbuf.right
  rw [hlen, Nat.zero_add] at hsection
  rw [List.length_append, hlen, List.length_append, Nat.zero_add] at hlast
  have hquestion : BytesAt out 12 (wireQuestion labels a.qtype a.qclass) := ha.question ▸ hsection.left
  have hqlen : a.question.length = (wireName labels).length + 4 := by
    rw [ha.question]
    simp [wireQuestion]
  have hqname := readName_wire hquestion.left ha.size ha.count
  have hqend := hsection.left.length_le
  have hqsection : readQuestion out 1 =
      some (some (joinDots (labels.map utf8)), 12 + a.question.length) := by
    simp only [readQuestion, if_true, hqname, Option.bind_eq_bind, Option.bind_some]
    rw [if_neg (by omega), hqlen, Nat.add_assoc]
    rfl
  obtain ⟨w₁, hw₁, hpos₁, hanswers₁⟩ := hread out answers.length 0
    ⟨12 + a.question.length, [], [], none, none⟩ (by omega) hquestion.left hsection.right
  have hrest : BytesAt out w₁.pos (wireOpt edns) := by
    rw [hpos₁]
    simpa [Nat.add_assoc] using hlast
  obtain ⟨w₂, hw₂, hanswers₂⟩ := readRecords_opt host answers.length hrest
  have hrecords : readRecords host out answers.length 0
      (answers.length + 0 + if edns.isSome then 1 else 0) 0
        ⟨12 + a.question.length, [], [], none, none⟩ = some w₂ := by
    rw [Nat.add_zero, readRecords_add, hw₁, Option.bind_some, Nat.zero_add, hw₂]
  have hall : answers.length + 0 + (if edns.isSome then 1 else 0) ≤ maxRR := by
    rw [maxRR]
    split <;> omega
  obtain ⟨r, hr, hrid, hrrcode, hranswers⟩ :=
    parseResponse_of_parts (by omega) hhead hqr hall (Nat.le_refl 1) hqsection hrecords
  refine ⟨out, r, hbuild, hr, ?_, by rw [hrrcode, hcode], ?_⟩
  · rw [hrid, Nat.mod_eq_of_lt hid]
  · rw [hranswers, hanswers₂, hanswers₁]
    rfl

/-- What a client asks is what the upstream is asked, and what the filter answers itself is read as
these answers. -/
theorem message_round_trip (host : UnicodeHost) {m : Bytes} {q : Query} {a : Asked} {name : Text}
    (hm : parseQuery m = some q) (hq : q.asked = some a) (hname : a.name = some name) :
    (∀ id, ∃ out q' a', buildQuery id name a.qtype a.qclass (q.edns.map Edns.doBit) q.cd = some out ∧
      parseQuery out = some q' ∧ q'.asked = some a' ∧ a'.name = some name ∧ a'.qtype = a.qtype ∧
      a'.qclass = a.qclass ∧ q'.cd = q.cd ∧ q'.edns.map Edns.doBit = q.edns.map Edns.doBit) ∧
    ∀ rcode < 16, ∀ answers : List NewAnswer, answers.length ≤ 511 → (∀ x ∈ answers, x.Fits) →
      ∃ out r, buildResponse q { rcode := rcode, answers := answers } = some out ∧
        parseResponse host out = some r ∧ r.id = q.id ∧ r.rcode = rcode ∧
        r.answers.map Answer.fields = answers.map NewAnswer.fields := by
  obtain ⟨hid, labels, ha⟩ := parseQuery_spec hm hq
  refine ⟨fun id => ?_, fun rcode hrcode answers hfew hfits =>
    parseResponse_buildResponse host hid hq ha hrcode hfew hfits⟩
  obtain ⟨texts, htexts, rfl⟩ := ha.texts hname
  obtain ⟨hlabels, hlen, hagain, -⟩ := labelTexts_spec htexts ha.size
  have hsizes : ∀ l ∈ texts.map asciiBytes, LabelSize l := by
    intro l hl
    obtain ⟨t, ht, rfl⟩ := List.mem_map.1 hl
    exact (hlabels t ht).labelSize
  have hbuild := buildQuery_eq id hlabels ha.qtype ha.qclass (q.edns.map Edns.doBit) q.cd
  have hparse := parseQuery_wire id hsizes (hlen ▸ ha.short) ha.qtype ha.qclass
    (q.edns.map Edns.doBit) q.cd
  refine ⟨_, _, _, hbuild, hparse, rfl, ?_, rfl, rfl, rfl, ?_⟩
  · rw [hagain]
    rfl
  · cases q.edns with
    | none =>
        rfl
    | some e =>
        rfl

/-- A request for the addresses of `Ww.EX`, as resolvers spell it against forged replies. -/
def mixedCase : Bytes := wireQuery 7 [[0x57, 0x77], [0x45, 0x58]] typeAaaa classIn (some true) true

/-- The target of a CNAME record, and an address of it. -/
def chain : List NewAnswer :=
  [⟨['w', 'w', '.', 'e', 'x'], typeCname, 300, wireName [[0x61]]⟩,
    ⟨['a'], typeAaaa, 60, List.replicate 16 0⟩]

theorem chain_fits : ∀ x ∈ chain, x.Fits := by
  have hlabels : ∀ t ∈ [['w', 'w'], ['e', 'x']], IsLabel t := by
    decide
  have htarget : ∀ t ∈ [['a']], IsLabel t := by
    decide
  intro x hx
  rcases List.mem_cons.1 hx with rfl | hx
  · exact
      { name := ⟨[['w', 'w'], ['e', 'x']], hlabels, by decide, rfl⟩
        type := by decide
        ttl := by decide
        rdata := by decide
        target := fun _ => ⟨[[0x61]], by simp [LabelSize], by decide, rfl⟩ }
  · obtain rfl := List.mem_singleton.1 hx
    exact
      { name := ⟨[['a']], htarget, by decide, rfl⟩
        type := by decide
        ttl := by decide
        rdata := by decide
        target := fun h => absurd h (by decide) }

theorem message_round_trip_mixed_case :
    ∃ q a, parseQuery mixedCase = some q ∧ q.asked = some a ∧ a.name = some ['w', 'w', '.', 'e', 'x'] ∧
      (∃ out q' a', buildQuery 0 ['w', 'w', '.', 'e', 'x'] typeAaaa classIn (some true) true = some out ∧
        parseQuery out = some q' ∧ q'.asked = some a' ∧ a'.name = a.name ∧ a'.qtype = typeAaaa ∧
        a'.qclass = classIn ∧ q'.cd = true ∧ q'.edns.map Edns.doBit = some true) ∧
      ∃ out r, buildResponse q { rcode := rcodeNoError, answers := chain } = some out ∧
        parseResponse .ascii out = some r ∧ r.id = 7 ∧ r.rcode = rcodeNoError ∧
        r.answers.map Answer.fields = chain.map NewAnswer.fields := by
  have hsize : ∀ l ∈ [[0x57, 0x77], [0x45, 0x58]], LabelSize l := by
    simp [LabelSize]
  have htype : typeAaaa < 65536 := by
    decide
  have hclass : classIn < 65536 := by
    decide
  have hparse := parseQuery_wire 7 hsize (by decide) htype hclass (some true) true
  have hname : (([[0x57, 0x77], [0x45, 0x58]] : List Bytes).mapM labelText).map joinDots =
      some ['w', 'w', '.', 'e', 'x'] := by
    decide
  have htrip := message_round_trip .ascii hparse rfl hname
  obtain ⟨out, q', a', hbuild, hquery⟩ := htrip.1 0
  refine ⟨_, _, hparse, rfl, hname, ⟨out, q', a', hbuild, ?_⟩,
    htrip.2 rcodeNoError (by decide) chain (by decide) chain_fits⟩
  rw [hname]
  exact hquery

end Wire

end Dns
end GateControl
