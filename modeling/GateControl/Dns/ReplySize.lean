import GateControl.Dns.Replies
import GateControl.Dns.ServedTtl
import GateControl.Dns.WrittenSize

/-!
# ReplySize — replies fit their transport

The length of each reply is known from what it is built of.  All of them fit their transport but
one: the records of a safe search are written without compression, and over TCP nothing cuts them.
-/

namespace GateControl
namespace Dns

open Library

namespace Replies

open Wire

variable {host : UnicodeHost}

/-! ## The forwarded reply -/

theorem copyQuestion_header (buf : Bytes) (question : Option Bytes) (out : Bytes) {j : Nat}
    (hj : j < 12) : (copyQuestion buf question out)[j]? = out[j]? := by
  unfold copyQuestion
  split
  · rfl
  · split
    · split
      · split
        · exact getElem?_writeBytes_of_outside out (.inl hj)
        · rfl
      · rfl
    · rfl

/-- No TTL that stands behind a byte changes it. -/
theorem foldlM_lowerTtl_before {ageSec : Int} {j : Nat} {offs : List Nat} {out out' : Bytes}
    (h : offs.foldlM (lowerTtl ageSec) out = some out') (hoffs : ∀ o ∈ offs, j < o) :
    out'[j]? = out[j]? := by
  induction offs generalizing out with
  | nil =>
      cases h
      rfl
  | cons o offs ih =>
      rw [List.foldlM_cons] at h
      obtain ⟨mid, hmid, hrest⟩ := Option.bind_eq_some_iff.1 h
      obtain ⟨t, -, rfl⟩ := Option.map_eq_some_iff.1 hmid
      rw [ih hrest fun o ho => hoffs o (List.mem_cons_of_mem _ ho)]
      exact getElem?_writeBytes_of_outside out (.inl (hoffs o List.mem_cons_self))

/-- The id is written first, and nothing else is written there. -/
theorem adaptResponse_id {buf : Bytes} {r : Response} {qEnd : Nat} {rs : List RR}
    (hp : Parsed buf r qEnd rs) (hlen : 12 ≤ buf.length) {id : Nat} (hid : id < 65536)
    {question : Option Bytes} {ageSec : Int} {out : Bytes}
    (hout : adaptResponse buf id question r.ttlOffsets ageSec = some out) :
    readUInt16BE out 0 = some id := by
  have hmod : id % 65536 = id := Nat.mod_eq_of_lt hid
  have hwritten : BytesAt (writeUInt16BE buf id 0) 0 (uint16BE id) := by
    have hfits : 0 + (uint16BE id).length ≤ buf.length := by
      rw [length_uint16BE]
      omega
    have hslice : slice (writeUInt16BE buf id 0) 0 2 = uint16BE id := slice_writeBytes buf hfits
    have hat : BytesAt (writeUInt16BE buf id 0) 0 (slice (writeUInt16BE buf id 0) 0 2) := by
      refine BytesAt.of_slice (by omega) ?_
      rw [writeUInt16BE, length_writeBytes]
      omega
    rwa [hslice] at hat
  have hcopy : ∀ j < 12, (copyQuestion buf question (writeUInt16BE buf id 0))[j]? =
      (writeUInt16BE buf id 0)[j]? := fun j hj => copyQuestion_header buf question _ hj
  have hkeep : ∀ j < 2, out[j]? = (writeUInt16BE buf id 0)[j]? := by
    intro j hj
    rw [← hcopy j (by omega)]
    simp only [adaptResponse, hmod] at hout
    split at hout
    · -- the TTLs stand behind the question
      refine foldlM_lowerTtl_before hout fun o ho => ?_
      rw [hp.offsets] at ho
      obtain ⟨rr, hrr, -, rfl⟩ := mem_ttlOffsetsOf.1 ho
      have hafter := hp.layout.after rr hrr
      have hquestion := (questionEnd_spec hp.question).1
      omega
    · cases hout
      rfl
  rw [readUInt16BE_congr fun j _ hj => hkeep j (by omega)]
  exact hwritten.readUInt16BE rfl hid

/-- A forwarded reply keeps its length and becomes a reply to the request. -/
theorem adapted_reply (r : Forwarded host) {id : Nat} (hid : id < 65536) (question : Option Bytes) :
    ∃ out, adaptResponse r.wire id question r.response.ttlOffsets r.ageSec = some out ∧
      IsReply out id ∧ out.length ≤ 65535 := by
  obtain ⟨hlong, ⟨flags, hflags, hqr⟩, -⟩ := parseResponse_spec r.parsed
  obtain ⟨qEnd, rs, hp⟩ := parseResponse_parsed r.parsed
  obtain ⟨out, hout, hkeeps, -⟩ := adaptResponse_spec hp id question r.ageSec
  have hsame : ∀ j, 2 ≤ j → j < 4 → out[j]? = r.wire[j]? := by
    intro j hj hj'
    refine hkeeps.other j hj (.inl (by omega)) ?_
    rintro ⟨rr, hrr, -, hoff, -⟩
    have hafter := hp.layout.after rr hrr
    have hquestion := (questionEnd_spec hp.question).1
    omega
  refine ⟨out, hout, ⟨⟨flags, ?_, hqr⟩, adaptResponse_id hp hlong hid hout⟩, ?_⟩
  · rw [readFlags, readUInt16BE_congr fun j hj hj' => hsame j hj hj']
    exact hflags
  · rw [hkeeps.length]
    exact r.short

/-! ## The records of a safe search -/

def Rdata.size : Rdata → Nat
  | .target name => nameSize name
  | .bytes rdata => rdata.length

/-- The name in the data of a record can be written. -/
def Rdata.Fits : Rdata → Prop
  | .target name => NameFits name
  | .bytes _ => True

/-- The length of a record in the reply to a question for `qname`. -/
def SafeRecord.size (qname : Option Text) (r : SafeRecord) : Nat :=
  ownerSize qname r.name + 10 + r.rdata.size

structure SafeRecord.Fits (qname : Option Text) (r : SafeRecord) : Prop where
  rdata : r.rdata.Fits
  owner : OwnerFits qname r.name
  short : r.rdata.size < 65536

theorem Rdata.encode_spec {rdata : Rdata} {b : Bytes} (h : rdata.encode = some b) :
    rdata.Fits ∧ b.length = rdata.size := by
  cases rdata with
  | target name =>
      exact encodeName_spec h
  | bytes rdata =>
      cases h
      exact ⟨trivial, rfl⟩

theorem Rdata.encode_of_fits {rdata : Rdata} (h : rdata.Fits) : ∃ b, rdata.encode = some b := by
  cases rdata with
  | target name =>
      exact encodeName_of_fits h
  | bytes rdata =>
      exact ⟨rdata, rfl⟩

theorem SafeRecord.answer_spec (qname : Option Text) {r : SafeRecord} {x : NewAnswer}
    (h : r.answer = some x) :
    r.rdata.Fits ∧ answerSize qname x = r.size qname ∧ x.name = r.name ∧ x.type = r.type ∧
      x.rdata.length = r.rdata.size := by
  obtain ⟨b, hb, rfl⟩ := Option.map_eq_some_iff.1 h
  obtain ⟨hfits, hlen⟩ := Rdata.encode_spec hb
  refine ⟨hfits, ?_, rfl, rfl, hlen⟩
  rw [answerSize, SafeRecord.size, hlen]

theorem chainFrom_length (answers : List Answer) (n : Nat) (cur : Text) :
    (chainFrom answers n cur).1.length ≤ n := by
  induction n generalizing cur with
  | zero =>
      exact Nat.le_refl _
  | succ n ih =>
      rw [chainFrom]
      split
      · exact Nat.zero_le _
      · exact Nat.succ_le_succ (ih _)

theorem safeRecords_length (name target : Text) (qtype : Nat) (r : Forwarded host) :
    (safeRecords name target qtype r).length < 65536 := by
  have hanswers := (parseResponse_spec r.parsed).2.2
  have hchain := chainFrom_length r.response.answers maxChain target
  have hends := List.length_filter_le
    (fun a : Answer => a.name = (chainFrom r.response.answers maxChain target).2 ∧ a.type = qtype)
    r.response.answers
  simp only [safeRecords, List.length_append, List.length_cons, List.length_map, maxChain] at *
  omega

/-- The records have the type of CNAME records, or the one that was asked for. -/
theorem safeRecords_type {name target : Text} {qtype : Nat} {r : Forwarded host} {x : SafeRecord}
    (h : x ∈ safeRecords name target qtype r) : x.type = typeCname ∨ x.type = qtype := by
  simp only [safeRecords, List.cons_append, List.mem_cons, List.mem_append, List.mem_map,
    List.mem_filter, decide_eq_true_eq] at h
  rcases h with rfl | ⟨l, -, rfl⟩ | ⟨a, ⟨-, -, ha⟩, rfl⟩
  · exact .inl rfl
  · exact .inl rfl
  · exact .inr ha

/-- What the question and the records of a safe search need when they are written out. -/
def safeSize (q : Query) (a : Asked) (name target : Text) (r : Forwarded host) : Nat :=
  12 + (a.question.length +
    ((safeRecords name target a.qtype r).map (SafeRecord.size (some name))).sum) + ednsSize q.edns none

/-- All names of the records can be written. -/
def SafeFits (a : Asked) (name target : Text) (r : Forwarded host) : Prop :=
  ∀ x ∈ safeRecords name target a.qtype r, x.Fits (some name)

section SafeSearch

variable {q : Query} {a : Asked} {name target : Text} {r : Forwarded host}

/-- The reply of a safe search, rebuilt from the records, is as long as these need it to be. -/
theorem safeSearch_spec (hq : q.asked = some a) (hname : a.name = some name)
    (hrcode : r.response.rcode = rcodeNoError) {out : Bytes}
    (h : safeSearch q a name target r = some out) :
    SafeFits a name target r ∧ IsReply out (q.id % 65536) ∧ out.length = safeSize q a name target r := by
  rw [safeSearch, if_neg (not_not_intro hrcode)] at h
  obtain ⟨answers, hanswers, hbuild⟩ := Option.bind_eq_some_iff.1 h
  have hsum := sum_of_mapM (fun _ _ hx => (SafeRecord.answer_spec (some name) hx).2.1) hanswers
  obtain ⟨hreply, hlen⟩ := buildResponse_spec hbuild
  refine ⟨fun x hx => ?_, hreply, ?_⟩
  · obtain ⟨y, hy, hxy⟩ := mem_of_mapM hanswers hx
    obtain ⟨hfits, -, hyname, -, hylen⟩ := SafeRecord.answer_spec (some name) hxy
    obtain ⟨howner, -, hshort⟩ := buildResponse_fits hbuild hq y hy
    rw [hname, hyname] at howner
    exact ⟨hfits, howner, hylen ▸ hshort⟩
  · rw [hlen, hq, safeSize, sectionsSize, hname, hsum]

theorem safeSearch_of_fits (hq : q.asked = some a) (hname : a.name = some name)
    (hrcode : r.response.rcode = rcodeNoError) (htype : a.qtype < 65536)
    (hfits : SafeFits a name target r) : ∃ out, safeSearch q a name target r = some out := by
  obtain ⟨answers, hanswers⟩ : ∃ answers,
      (safeRecords name target a.qtype r).mapM SafeRecord.answer = some answers := by
    -- each record can be encoded
    refine exists_mapM fun x hx => ?_
    obtain ⟨b, hb⟩ := Rdata.encode_of_fits (hfits x hx).rdata
    exact ⟨_, by rw [SafeRecord.answer, hb]; rfl⟩
  have hcount : answers.length = (safeRecords name target a.qtype r).length := by
    have := congrArg List.length (mapM_eq_some.1 hanswers)
    simpa using this.symm
  rw [safeSearch, if_neg (not_not_intro hrcode), hanswers, Option.bind_some]
  -- and so can their row, with fewer than 65536 of them
  refine buildResponse_total (fun a' ha' y hy => ?_) ?_ (by rintro _ ⟨⟩)
  · obtain rfl : a = a' := Option.some.inj (hq.symm.trans ha')
    have hmem : some y ∈ (safeRecords name target a.qtype r).map SafeRecord.answer :=
      mapM_eq_some.1 hanswers ▸ List.mem_map_of_mem hy
    obtain ⟨x, hx, hxy⟩ := List.mem_map.1 hmem
    obtain ⟨-, -, hyname, hytype, hylen⟩ := SafeRecord.answer_spec (some name) hxy
    have hx' := hfits x hx
    refine ⟨?_, ?_, ?_⟩
    · rw [hname, hyname]
      exact hx'.owner
    · rw [hytype]
      rcases safeRecords_type hx with hcname | hsame
      · rw [hcname]
        decide
      · rwa [hsame]
    · rw [hylen]
      exact hx'.short
  · rw [hcount]
    exact safeRecords_length name target a.qtype r

end SafeSearch

/-! ## Every reply -/

/-- A reply without answers is short. -/
theorem empty_reply {q : Query} (hq : QueryBounds q) (rcode : Nat) (tc : Bool) :
    ∃ out, buildResponse q { rcode := rcode, tc := tc } = some out ∧ IsReply out q.id ∧
      out.length ≤ 512 := by
  obtain ⟨out, hout⟩ := buildResponse_total (q := q) (r := { rcode := rcode, tc := tc })
    (fun a ha x hx => absurd hx List.not_mem_nil) (show 0 < 65536 by decide) (by rintro _ ⟨⟩)
  obtain ⟨hreply, hlen⟩ := buildResponse_spec hout
  rw [Nat.mod_eq_of_lt hq.id] at hreply
  have hsize := hq.question
  have hedns : ednsSize q.edns none ≤ 11 := by
    unfold ednsSize
    split <;> simp
  exact ⟨out, hout, hreply, by rw [hlen]; simp only; omega⟩

theorem blocked_reply {q : Query} {a : Asked} {name : Text} (hq : QueryBounds q)
    (ha : q.asked = some a) (hname : a.name = some name) (nxdomain : Bool) (d : Policy.Decision) :
    ∃ out, blocked nxdomain q a name d = some out ∧ IsReply out q.id ∧ out.length ≤ 512 := by
  have hede : ∀ e, some edeBlocked = some e → e < 65536 := by
    rintro _ ⟨⟩
    decide
  have hedns : ednsSize q.edns (some edeBlocked) ≤ 17 := by
    unfold ednsSize
    split <;> simp
  have hsize : a.question.length ≤ 260 := by
    simpa [sectionsSize, ha] using hq.question
  -- the addresses stand at the name that was asked for, so their names are pointers
  have hreply : ∀ r : Reply, r.ede = some edeBlocked → r.answers.length < 65536 →
      (∀ x ∈ r.answers, AnswerFits (some name) x) →
      (r.answers.map (answerSize (some name))).sum ≤ 28 →
      ∃ out, buildResponse q r = some out ∧ IsReply out q.id ∧ out.length ≤ 512 := by
    intro r hr hcount hfits hsum
    obtain ⟨out, hout⟩ := buildResponse_total (q := q) (r := r)
      (fun a' ha' x hx => by
        obtain rfl : a = a' := Option.some.inj (ha.symm.trans ha')
        rw [hname]
        exact hfits x hx) hcount (by rwa [hr])
    obtain ⟨hrep, hlen⟩ := buildResponse_spec hout
    rw [Nat.mod_eq_of_lt hq.id] at hrep
    rw [ha, sectionsSize, hname, hr] at hlen
    exact ⟨out, hout, hrep, by omega⟩
  have hone : ∀ type rdata, type < 65536 → rdata.length ≤ 16 →
      ∃ out, buildResponse q { answers := [⟨name, type, blockTtl, rdata⟩], ede := some edeBlocked } =
        some out ∧ IsReply out q.id ∧ out.length ≤ 512 := by
    intro type rdata htype hrdata
    refine hreply _ rfl (show 1 < 65536 by decide) (fun x hx => ?_) ?_
    · obtain rfl := List.mem_singleton.1 hx
      exact ⟨.inl rfl, htype, show rdata.length < 65536 by omega⟩
    · rw [List.map_singleton, List.sum_singleton, answerSize, ownerSize, if_pos rfl]
      show 2 + 10 + rdata.length ≤ 28
      omega
  unfold blocked
  split
  · exact hreply _ rfl (show 0 < 65536 by decide) (fun x hx => absurd hx List.not_mem_nil) (Nat.zero_le _)
  · by_cases h4 : a.qtype = typeA
    · have h6 : a.qtype ≠ typeAaaa := by
        rw [h4]
        decide
      rw [if_pos h4, if_neg h6]
      exact hone typeA _ (by decide) (by decide)
    · rw [if_neg h4]
      by_cases h6 : a.qtype = typeAaaa
      · rw [if_pos h6]
        exact hone typeAaaa _ (by decide) (by decide)
      · rw [if_neg h6]
        exact hreply _ rfl (show 0 < 65536 by decide) (fun x hx => absurd hx List.not_mem_nil)
          (Nat.zero_le _)

/-- The decision sends the question to safe search. -/
structure AsksSafeSearch (d : Policy.Decision) (a : Asked) (target : Text) : Prop where
  allowed : d.action = .allow
  named : target ≠ []
  target : d.safeSearch = some target
  type : isAddressType a.qtype = true

/-- The records of a safe search need more than a message over TCP can hold. -/
structure TooLong (d : Policy.Decision) (forwarded : Option (Forwarded host)) (q : Query) (a : Asked)
    (name target : Text) (r : Forwarded host) : Prop where
  asks : AsksSafeSearch d a target
  forwarded : forwarded = some r
  found : r.response.rcode = rcodeNoError
  fits : SafeFits a name target r
  long : 65535 < safeSize q a name target r

/-- What the question is answered with is a reply to it, and too long in one case only. -/
theorem respond_reply {q : Query} {a : Asked} {name : Text} (hq : QueryBounds q)
    (ha : q.asked = some a) (hname : a.name = some name) {nxdomain : Bool} {d : Policy.Decision}
    {forwarded : Option (Forwarded host)} {out : Bytes}
    (h : respond nxdomain d forwarded q a name = some out) :
    IsReply out q.id ∧ (out.length ≤ 65535 ∨ ∃ target r, TooLong d forwarded q a name target r) := by
  unfold respond at h
  cases haction : d.action with
  | block =>
      simp only [haction] at h
      obtain ⟨out', hout, hreply, hlen⟩ := blocked_reply hq ha hname nxdomain d
      obtain rfl : out' = out := Option.some.inj (hout.symm.trans h)
      exact ⟨hreply, .inl (by omega)⟩
  | allow =>
      simp only [haction] at h
      cases hsafe : d.safeSearch.filter fun t => !t.isEmpty with
      | none =>
          simp only [hsafe] at h
          -- the reply of the upstream, adapted
          obtain ⟨r, -, hadapt⟩ := Option.bind_eq_some_iff.1 h
          obtain ⟨out', hout, hreply, hlen⟩ := adapted_reply r hq.id (some a.question)
          obtain rfl : out' = out := Option.some.inj (hout.symm.trans hadapt)
          exact ⟨hreply, .inl hlen⟩
      | some target =>
          simp only [hsafe] at h
          split at h
          · rename_i htype
            -- the target of the safe search is looked up and answered with
            obtain ⟨r, hr, hsearch⟩ := Option.bind_eq_some_iff.1 h
            by_cases hrcode : r.response.rcode = rcodeNoError
            · obtain ⟨hfits, hreply, hlen⟩ := safeSearch_spec ha hname hrcode hsearch
              rw [Nat.mod_eq_of_lt hq.id] at hreply
              obtain ⟨htarget, hnamed⟩ := Option.filter_eq_some_iff.1 hsafe
              refine ⟨hreply, ?_⟩
              by_cases hlong : out.length ≤ 65535
              · exact .inl hlong
              · refine .inr ⟨target, r, ⟨haction, ?_, htarget, htype⟩, hr, hrcode, hfits, by omega⟩
                simpa using hnamed
            · rw [safeSearch, if_pos hrcode] at hsearch
              obtain ⟨out', hout, hreply, hlen⟩ := empty_reply hq r.response.rcode false
              obtain rfl : out' = out := Option.some.inj (hout.symm.trans hsearch)
              exact ⟨hreply, .inl (by omega)⟩
          · -- no address was asked for
            obtain ⟨out', hout, hreply, hlen⟩ := empty_reply hq rcodeNoError false
            obtain rfl : out' = out := Option.some.inj (hout.symm.trans h)
            exact ⟨hreply, .inl (by omega)⟩

theorem respond_of_tooLong {q : Query} {a : Asked} {name target : Text} {r : Forwarded host}
    (ha : q.asked = some a) (hname : a.name = some name) {d : Policy.Decision}
    {forwarded : Option (Forwarded host)} (h : TooLong d forwarded q a name target r) (nxdomain : Bool) :
    ∃ out, respond nxdomain d forwarded q a name = some out ∧ 65535 < out.length := by
  have htype : a.qtype < 65536 := by
    have hcases : a.qtype = typeA ∨ a.qtype = typeAaaa := by
      simpa [isAddressType] using h.asks.type
    rcases hcases with heq | heq
    · rw [heq]
      decide
    · rw [heq]
      decide
  obtain ⟨out, hout⟩ := safeSearch_of_fits ha hname h.found htype h.fits
  have hlen := (safeSearch_spec ha hname h.found hout).2.2
  have hsafe : d.safeSearch.filter (fun t => !t.isEmpty) = some target := by
    rw [h.asks.target, Option.filter_some, if_pos]
    simpa using h.asks.named
  refine ⟨out, ?_, hlen ▸ h.long⟩
  simp only [respond, h.asks.allowed, hsafe, h.asks.type, if_true, h.forwarded, Option.bind_some, hout]

/-! ## The transport -/

theorem le_maxUdp {q : Query} (hq : QueryBounds q) : 512 ≤ maxUdp q := by
  unfold maxUdp
  cases he : q.edns with
  | none =>
      exact Nat.le_refl _
  | some e =>
      exact Nat.le_min.2 ⟨hq.edns e he, by decide⟩

/-- The reply a client gets over UDP fits; over TCP nothing changes it. -/
theorem cut_spec (host : UnicodeHost) (udp : Bool) {q : Query} (hq : QueryBounds q) {out : Bytes}
    (h : IsReply out q.id) :
    ∃ out', cut host udp q out = some out' ∧ IsReply out' q.id ∧
      (udp = true → out'.length ≤ maxUdp q) ∧ (udp = false → out' = out) := by
  have hmax := le_maxUdp hq
  unfold cut
  cases udp with
  | false =>
      exact ⟨out, if_neg (by simp), h, by simp, fun _ => rfl⟩
  | true =>
      by_cases hlong : out.length > maxUdp q
      · obtain ⟨out', hout, hreply, hlen⟩ := empty_reply hq
          (((parseResponse host out).map Response.rcode).getD rcodeNoError) true
        exact ⟨out', by rw [if_pos ⟨rfl, hlong⟩, hout], hreply, fun _ => by omega, by simp⟩
      · exact ⟨out, if_neg (by simp; omega), h, fun _ => by omega, by simp⟩

/-- What is promised to the client: no exception, and a reply to its request that the transport
takes, unless the message is dropped. -/
def FitsTransport (msg : Bytes) (udp : Bool) : Option (Option Bytes) → Prop
  | none => False
  | some none => True
  | some (some out) => ∃ q, parseQuery msg = some q ∧ IsReply out q.id ∧
      if udp then out.length ≤ maxUdp q else out.length ≤ 65535 ∧ ∃ f, tcpFrame out = some f

/-- A request the filter decides about. -/
structure Accepted (msg : Bytes) (q : Query) (a : Asked) (name : Text) : Prop where
  parsed : parseQuery msg = some q
  opcode : q.opcode = 0
  asked : q.asked = some a
  name : a.name = some name
  qclass : a.qclass = classIn

/-- Safe search over TCP with records that are too long without compression. -/
def Overlong (d : Policy.Decision) (forwarded : Option (Forwarded host)) (udp : Bool) (msg : Bytes) :
    Prop :=
  udp = false ∧ ∃ q a name target r, Accepted msg q a name ∧ TooLong d forwarded q a name target r

theorem tcpFrame_of_le {out : Bytes} (h : out.length ≤ 65535) : ∃ f, tcpFrame out = some f := by
  rw [tcpFrame, uint16?_of_lt (by omega)]
  exact ⟨_, rfl⟩

/-- Replies of at most 512 bytes fit both transports. -/
theorem fits_of_short {msg out : Bytes} {q : Query} (hq : parseQuery msg = some q) (udp : Bool)
    (hreply : IsReply out q.id) (hlen : out.length ≤ 512) :
    FitsTransport msg udp (some (some out)) := by
  have hmax := le_maxUdp (parseQuery_bounds hq)
  refine ⟨q, hq, hreply, ?_⟩
  split
  · omega
  · exact ⟨by omega, tcpFrame_of_le (by omega)⟩

/-- A request that is refused gets a short reply, with any decision. -/
theorem fits_of_empty {msg : Bytes} {q : Query} (hq : parseQuery msg = some q) (udp : Bool)
    (rcode : Nat) : FitsTransport msg udp ((buildResponse q { rcode := rcode }).map some) := by
  obtain ⟨out, hout, hreply, hlen⟩ := empty_reply (parseQuery_bounds hq) rcode false
  rw [hout]
  exact fits_of_short hq udp hreply hlen

/-- The request is one the filter decides about, or it is refused. -/
theorem handle_cases (nxdomain : Bool) (d : Policy.Decision) (forwarded : Option (Forwarded host))
    (udp : Bool) (msg : Bytes) :
    (FitsTransport msg udp (handle nxdomain d forwarded udp msg) ∧
      ∀ q a name, ¬ Accepted msg q a name) ∨
    ∃ q a name, Accepted msg q a name ∧ handle nxdomain d forwarded udp msg =
      ((respond nxdomain d forwarded q a name).or (buildResponse q { rcode := rcodeServFail })).bind
        fun out => (cut host udp q out).map some := by
  unfold handle
  cases hq : parseQuery msg with
  -- no query: nothing is answered
  | none =>
      refine .inl ⟨trivial, fun q a name h => ?_⟩
      have := h.parsed
      rw [hq] at this
      cases this
  | some q =>
      -- from here on the query is the one that was parsed
      have hsame : ∀ {q' a name}, Accepted msg q' a name → q' = q := fun h =>
        Option.some.inj (h.parsed.symm.trans hq)
      simp only
      by_cases hop : q.opcode ≠ 0
      · rw [if_pos hop]
        refine .inl ⟨fits_of_empty hq udp _, fun q' a name h => hop ?_⟩
        obtain rfl := hsame h
        exact h.opcode
      · rw [if_neg hop]
        cases ha : q.asked with
        | none =>
            refine .inl ⟨fits_of_empty hq udp _, fun q' a name h => ?_⟩
            obtain rfl := hsame h
            have := h.asked
            rw [ha] at this
            cases this
        | some a =>
            have hasked : ∀ {q' a' name}, Accepted msg q' a' name → a' = a := fun h => by
              obtain rfl := hsame h
              exact Option.some.inj (h.asked.symm.trans ha)
            simp only
            cases hname : a.name with
            | none =>
                refine .inl ⟨fits_of_empty hq udp _, fun q' a' name h => ?_⟩
                obtain rfl := hasked h
                have := h.name
                rw [hname] at this
                cases this
            | some name =>
                simp only
                by_cases hclass : a.qclass ≠ classIn
                · rw [if_pos hclass]
                  refine .inl ⟨fits_of_empty hq udp _, fun q' a' name h => hclass ?_⟩
                  obtain rfl := hasked h
                  exact h.qclass
                · rw [if_neg hclass]
                  exact .inr ⟨q, a, name, ⟨hq, not_not.1 hop, ha, hname, not_not.1 hclass⟩, rfl⟩

theorem not_fits_of_tooLong {nxdomain : Bool} {d : Policy.Decision}
    {forwarded : Option (Forwarded host)} {msg : Bytes} {q : Query} {a : Asked} {name target : Text}
    {r : Forwarded host} (hacc : Accepted msg q a name)
    (hlong : TooLong d forwarded q a name target r) :
    ¬ FitsTransport msg false (handle nxdomain d forwarded false msg) := by
  intro hfits
  rcases handle_cases nxdomain d forwarded false msg with ⟨-, hnone⟩ | ⟨q', a', name', hacc', hhandle⟩
  · exact hnone q a name hacc
  · obtain rfl : q' = q := Option.some.inj (hacc'.parsed.symm.trans hacc.parsed)
    obtain rfl : a' = a := Option.some.inj (hacc'.asked.symm.trans hacc.asked)
    obtain rfl : name' = name := Option.some.inj (hacc'.name.symm.trans hacc.name)
    have hq := parseQuery_bounds hacc.parsed
    obtain ⟨out, hout, hlen⟩ := respond_of_tooLong hacc.asked hacc.name hlong nxdomain
    obtain ⟨hreply, -⟩ := respond_reply hq hacc.asked hacc.name hout
    obtain ⟨out', hcut, -, -, hsame⟩ := cut_spec host false hq hreply
    rw [hhandle, hout, Option.some_or, Option.bind_some, hcut, hsame rfl] at hfits
    obtain ⟨q', -, -, hshort⟩ := hfits
    simp only [Bool.false_eq_true, if_false] at hshort
    omega

/-- Every reply fits its transport, but for a safe search over TCP whose records are too long
without compression. -/
theorem reply_fits_iff (nxdomain : Bool) (d : Policy.Decision) (forwarded : Option (Forwarded host))
    (udp : Bool) (msg : Bytes) :
    FitsTransport msg udp (handle nxdomain d forwarded udp msg) ↔ ¬ Overlong d forwarded udp msg := by
  constructor
  · rintro hfits ⟨rfl, q, a, name, target, r, hacc, hlong⟩
    exact not_fits_of_tooLong hacc hlong hfits
  · intro hnot
    rcases handle_cases nxdomain d forwarded udp msg with ⟨hfits, -⟩ | ⟨q, a, name, hacc, hhandle⟩
    · exact hfits
    · have hq := parseQuery_bounds hacc.parsed
      have hout : ∃ out, (respond nxdomain d forwarded q a name).or
          (buildResponse q { rcode := rcodeServFail }) = some out ∧ IsReply out q.id ∧
          (udp = false → out.length ≤ 65535) := by
        cases hrespond : respond nxdomain d forwarded q a name with
        | none =>
            -- nothing could be built: the reply is an empty failure
            obtain ⟨out, hout, hreply, hlen⟩ := empty_reply hq rcodeServFail false
            exact ⟨out, by rw [Option.none_or, hout], hreply, fun _ => by omega⟩
        | some out =>
            obtain ⟨hreply, hlen⟩ := respond_reply hq hacc.asked hacc.name hrespond
            refine ⟨out, rfl, hreply, fun hudp => ?_⟩
            rcases hlen with hlen | ⟨target, r, hlong⟩
            · exact hlen
            · exact absurd ⟨hudp, q, a, name, target, r, hacc, hlong⟩ hnot
      obtain ⟨out, hout, hreply, hshort⟩ := hout
      obtain ⟨out', hcut, hreply', hudp, htcp⟩ := cut_spec host udp hq hreply
      rw [hhandle, hout, Option.bind_some, hcut]
      refine ⟨q, hacc.parsed, hreply', ?_⟩
      cases udp with
      | true =>
          exact hudp rfl
      | false =>
          rw [htcp rfl]
          exact ⟨hshort rfl, tcpFrame_of_le (hshort rfl)⟩

/-! ## A safe search over TCP -/

def googleLabels : List Text := [['w', 'w', 'w'], ['g', 'o', 'o', 'g', 'l', 'e'], ['c', 'o', 'm']]

def targetLabels : List Text :=
  ["forcesafesearch".toList, ['g', 'o', 'o', 'g', 'l', 'e'], ['c', 'o', 'm']]

/-- The labels of a name of 253 characters. -/
def longLabels : List Text :=
  [List.replicate 63 'a', List.replicate 63 'a', List.replicate 63 'a', List.replicate 61 'a']

theorem longLabels_isLabel : ∀ t ∈ longLabels, IsLabel t := by
  decide

theorem targetLabels_isLabel : ∀ t ∈ targetLabels, IsLabel t := by
  decide

theorem googleLabels_isLabel : ∀ t ∈ googleLabels, IsLabel t := by
  decide

/-- A client asks for the address of the search engine. -/
def googleQuery : Bytes := wireQuery 7 (googleLabels.map asciiBytes) typeA classIn none false

/-- A profile with safe search sends the question elsewhere. -/
def safeDecision : Policy.Decision :=
  { profileId := some ['k'], action := .allow, reason := .default,
    safeSearch := some (joinDots targetLabels) }

def longName : Bytes := wireName (longLabels.map asciiBytes)

/-- The CNAME record of the target; its name is the question's. -/
def longCname : Bytes := [0xc0, 0x0c] ++ wireFields typeCname 300 longName.length ++ longName

def addressData : Bytes := [192, 0, 2, 1]

/-- An address of the long name, which stands in the data of the CNAME record. -/
def longAddress : Bytes := [0xc0, 0x38] ++ wireFields typeA 60 addressData.length ++ addressData

/-- The upstream's reply: a CNAME record to the long name, and 250 addresses of it. -/
def longReply : Bytes :=
  header 7 0x8180 1 251 0 0 ++ wireQuestion (targetLabels.map asciiBytes) typeA classIn ++ longCname ++
    (List.replicate 250 longAddress).flatten

def cnameAnswer : Answer :=
  ⟨joinDots targetLabels, typeCname, 300, longName, some (joinDots longLabels)⟩

def addressAnswer : Answer := ⟨joinDots longLabels, typeA, 60, addressData, none⟩

theorem labelSizes {labels : List Text} (h : ∀ t ∈ labels, IsLabel t) :
    ∀ l ∈ labels.map asciiBytes, LabelSize l := by
  intro l hl
  obtain ⟨t, ht, rfl⟩ := List.mem_map.1 hl
  exact (h t ht).labelSize

/-- The same record again and again. -/
theorem readRecords_replicate {buf : Bytes} {an : Nat} {rec : Bytes} {x : Answer}
    (hread : ∀ i w, i < an → BytesAt buf w.pos rec → ∃ w', readRecord .ascii buf an 0 i w = some w' ∧
      w'.pos = w.pos + rec.length ∧ w'.answers = w.answers ++ [x])
    {n i : Nat} {w : Walk} (hn : i + n ≤ an) (hbuf : BytesAt buf w.pos (List.replicate n rec).flatten) :
    ∃ w', readRecords .ascii buf an 0 n i w = some w' ∧
      w'.answers = w.answers ++ List.replicate n x := by
  induction n generalizing i w with
  | zero =>
      exact ⟨w, rfl, by simp⟩
  | succ n ih =>
      rw [List.replicate_succ, List.flatten_cons] at hbuf
      obtain ⟨w₁, hw₁, hpos, hanswers⟩ := hread i w (by omega) hbuf.left
      obtain ⟨w₂, hw₂, hanswers₂⟩ := ih (i := i + 1) (w := w₁) (by omega) (hpos ▸ hbuf.right)
      refine ⟨w₂, by rw [readRecords, hw₁, Option.bind_some, hw₂], ?_⟩
      rw [hanswers₂, hanswers, List.append_assoc, List.singleton_append, List.replicate_succ]

theorem longName_length : longName.length = 255 := by
  decide +kernel

/-- The name and the target of the CNAME record are read from the question and from its data. -/
theorem cname_read {buf : Bytes} {w : Walk}
    (hquestion : BytesAt buf 12 (wireName (targetLabels.map asciiBytes)))
    (hcname : BytesAt buf w.pos longCname) :
    ∃ w', readRecord .ascii buf 251 0 0 w = some w' ∧ w'.pos = w.pos + longCname.length ∧
      w'.answers = w.answers ++ [cnameAnswer] := by
  have howner := readName_pointer hcname.left.left hquestion (labelSizes targetLabels_isLabel) (by decide)
  rw [utf8_labels targetLabels_isLabel] at howner
  have hdata : BytesAt buf (w.pos + 2 + 10) longName := hcname.right
  have htarget := readName_wire hdata (labelSizes longLabels_isLabel) (by decide)
  rw [utf8_labels longLabels_isLabel] at htarget
  have hrdlen : longName.length < 65536 := by
    rw [longName_length]
    decide
  have hanswer : answerAt .ascii buf (joinDots targetLabels) typeCname 300 (w.pos + 2 + 10)
      longName.length = some cnameAnswer := by
    rw [answerAt, if_pos rfl, htarget, hdata.slice_eq, Option.map_some,
      lowerCase_labels _ targetLabels_isLabel, lowerCase_labels _ longLabels_isLabel]
    rfl
  exact readRecord_wire .ascii (by decide) (by decide) (by decide) hrdlen hcname howner hanswer

theorem address_read {buf : Bytes} (hlong : BytesAt buf 56 longName) {i : Nat} {w : Walk}
    (hi : i < 251) (hat : BytesAt buf w.pos longAddress) :
    ∃ w', readRecord .ascii buf 251 0 i w = some w' ∧ w'.pos = w.pos + longAddress.length ∧
      w'.answers = w.answers ++ [addressAnswer] := by
  have howner := readName_pointer hat.left.left hlong (labelSizes longLabels_isLabel) (by decide)
  rw [utf8_labels longLabels_isLabel] at howner
  have hdata : BytesAt buf (w.pos + 2 + 10) addressData := hat.right
  have hrdlen : addressData.length < 65536 := by
    decide
  have hanswer : answerAt .ascii buf (joinDots longLabels) typeA 60 (w.pos + 2 + 10)
      addressData.length = some addressAnswer := by
    rw [answerAt, if_neg (by decide), hdata.slice_eq, lowerCase_labels _ longLabels_isLabel]
    rfl
  exact readRecord_wire .ascii hi (by decide) (by decide) hrdlen hat howner hanswer

theorem longReply_parsed :
    ∃ r, parseResponse .ascii longReply = some r ∧ r.rcode = rcodeNoError ∧
      r.answers = cnameAnswer :: List.replicate 250 addressAnswer := by
  have hhead : HeaderRead longReply 7 0x8180 1 251 0 0 :=
    header_read (BytesAt.whole longReply).left.left.left (by decide) (by decide) (by decide) (by decide)
      (by decide) (by decide)
  have hquestion : BytesAt longReply 12 (wireQuestion (targetLabels.map asciiBytes) typeA classIn) :=
    (BytesAt.whole longReply).left.left.right
  have hcname : BytesAt longReply 44 longCname := (BytesAt.whole longReply).left.right
  have hlong : BytesAt longReply 56 longName := hcname.right
  have hrest : BytesAt longReply 311 (List.replicate 250 longAddress).flatten := by
    have hlen : (header 7 0x8180 1 251 0 0 ++ wireQuestion (targetLabels.map asciiBytes) typeA classIn ++
        longCname).length = 311 := by
      decide +kernel
    have := (BytesAt.whole longReply).right
    rwa [hlen, Nat.zero_add] at this
  -- from here on only what stands where matters
  generalize longReply = buf at hhead hquestion hcname hlong hrest ⊢
  have hqname := readName_wire hquestion.left (labelSizes targetLabels_isLabel) (by decide)
  have hend : 12 + (wireName (targetLabels.map asciiBytes)).length = 40 := by
    decide +kernel
  have hfits := hcname.length_le
  have hqsection : readQuestion buf 1 =
      some (some (joinDots ((targetLabels.map asciiBytes).map utf8)), 44) := by
    simp only [readQuestion, if_true, hqname, hend, Option.bind_eq_bind, Option.bind_some]
    rw [if_neg (by omega)]
    rfl
  obtain ⟨w₁, hw₁, hpos₁, hanswers₁⟩ := cname_read (w := ⟨44, [], [], none, none⟩) hquestion.left hcname
  have hpos : w₁.pos = 311 := by
    rw [hpos₁]
    decide +kernel
  obtain ⟨w₂, hw₂, hanswers₂⟩ := readRecords_replicate (fun i w hi hat => address_read hlong hi hat)
    (i := 1) (by decide) (hpos ▸ hrest)
  have hrecords : readRecords .ascii buf 251 0 (251 + 0 + 0) 0 ⟨44, [], [], none, none⟩ = some w₂ := by
    rw [readRecords, hw₁, Option.bind_some]
    exact hw₂
  obtain ⟨r, hr, -, hrcode, hanswers⟩ := parseResponse_of_parts (by omega) hhead (by decide) (by decide)
    (by decide) hqsection hrecords
  refine ⟨r, hr, by rw [hrcode]; rfl, ?_⟩
  rw [hanswers, hanswers₂, hanswers₁, List.nil_append, List.singleton_append]

/-- The records of the search: two CNAME records, and the addresses of the long name. -/
theorem longReply_records {r : Forwarded .ascii}
    (hanswers : r.response.answers = cnameAnswer :: List.replicate 250 addressAnswer) (name : Text) :
    safeRecords name (joinDots targetLabels) typeA r =
      [⟨name, typeCname, safeCnameTtl, .target (joinDots targetLabels)⟩,
        ⟨joinDots targetLabels, typeCname, agedTtl 300 r.ageSec, .target (joinDots longLabels)⟩] ++
      List.replicate 250 ⟨joinDots longLabels, typeA, agedTtl 60 r.ageSec, .bytes addressData⟩ := by
  have hne : joinDots targetLabels ≠ joinDots longLabels := by
    decide
  have hfirst : linkOf r.response.answers (joinDots targetLabels) =
      some (cnameAnswer, joinDots longLabels) := by
    rw [hanswers, linkOf, List.findSome?_cons, if_pos ⟨rfl, rfl⟩]
    rfl
  have hsecond : linkOf r.response.answers (joinDots longLabels) = none := by
    rw [hanswers, linkOf, List.findSome?_eq_none_iff]
    intro x hx
    refine if_neg fun hcond => ?_
    rcases List.mem_cons.1 hx with rfl | hx
    · exact hne hcond.1
    · obtain rfl := (List.mem_replicate.1 hx).2
      exact absurd hcond.2 (by decide)
  -- the chain has one link: from the target to the long name
  have hchain : chainFrom r.response.answers maxChain (joinDots targetLabels) =
      ([⟨joinDots targetLabels, cnameAnswer, joinDots longLabels⟩], joinDots longLabels) := by
    simp only [maxChain, chainFrom, hfirst, hsecond]
  have hends : r.response.answers.filter
      (fun x => decide (x.name = joinDots longLabels ∧ x.type = typeA)) =
        List.replicate 250 addressAnswer := by
    rw [hanswers, List.filter_cons_of_neg, List.filter_replicate_of_pos]
    · exact decide_eq_true ⟨rfl, rfl⟩
    · rw [decide_eq_true_eq]
      exact fun hcond => hne hcond.1
  simp only [safeRecords, hchain, hends, List.map_replicate, List.map_cons, List.map_nil]
  rfl

/-- A DNS reply of 4311 bytes, for which nothing can be sent: written without compression its
records need more than the length field of TCP can say. -/
theorem safe_search_unsent :
    longReply.length = 4311 ∧ ∃ r : Forwarded .ascii, r.wire = longReply ∧
      ¬ FitsTransport googleQuery false (handle false safeDecision (some r) false googleQuery) := by
  have hlen : longReply.length = 4311 := by
    decide +kernel
  obtain ⟨response, hparsed, hrcode, hanswers⟩ := longReply_parsed
  refine ⟨hlen, ⟨longReply, response, 0, hparsed, by omega⟩, rfl, ?_⟩
  have hquery := parseQuery_wire 7 (labelSizes googleLabels_isLabel) (by decide)
    (show typeA < 65536 by decide) (show classIn < 65536 by decide) none false
  have hname : ((googleLabels.map asciiBytes).mapM labelText).map joinDots =
      some (joinDots googleLabels) := by
    decide
  have hlong := encodeName_spec (encodeName_joinDots longLabels_isLabel)
  have htarget := encodeName_spec (encodeName_joinDots targetLabels_isLabel)
  -- the long name has the greatest size that a name can have
  have hsize : nameSize (joinDots longLabels) = 255 := by
    rw [← hlong.2]
    exact longName_length
  have htsize : nameSize (joinDots targetLabels) < 65536 := by
    rw [← htarget.2]
    decide +kernel
  have hne : some (joinDots longLabels) ≠ some (joinDots googleLabels) := by
    decide
  have hrecords := longReply_records (r := ⟨longReply, response, 0, hparsed, by omega⟩) hanswers
    (joinDots googleLabels)
  refine not_fits_of_tooLong (q := _) (a := _) (r := _) ⟨hquery, rfl, rfl, hname, rfl⟩
    ⟨⟨rfl, by decide, rfl, rfl⟩, rfl, hrcode, fun x hx => ?_, ?_⟩
  · rw [hrecords] at hx
    simp only [List.mem_append, List.mem_cons, List.not_mem_nil, or_false, List.mem_replicate] at hx
    rcases hx with (rfl | rfl) | ⟨-, rfl⟩
    · exact ⟨htarget.1, .inl rfl, htsize⟩
    · exact ⟨hlong.1, .inr htarget.1, by rw [Rdata.size, hsize]; decide⟩
    · exact ⟨trivial, .inr hlong.1, by decide⟩
  · -- already the addresses are too much
    have haddress : SafeRecord.size (some (joinDots googleLabels))
        ⟨joinDots longLabels, typeA, agedTtl 60 0, .bytes addressData⟩ = 269 := by
      rw [SafeRecord.size, ownerSize, if_neg hne, hsize]
      rfl
    rw [safeSize, hrecords, List.map_append, List.sum_append, List.map_replicate, haddress,
      List.sum_replicate_nat]
    omega

end Replies

end Dns
end GateControl
