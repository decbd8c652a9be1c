import GateControl.Dns.Resolver

/-!
# Questions — which question the stored and shared replies answer

No layer between the upstream and the client compares the question of a reply with the one that was
asked: `udpQuery` and `tcpQuery` look at the sender and the id, a body over HTTPS is taken as it is,
`parseResponse` reads the name and nobody uses it.  So the cache and the shared queries hold what
the upstream chose to send: they answer the question they are asked for exactly as long as every
reply does.
-/

namespace GateControl
namespace Dns

open Library

/-- A question without the spelling of its name. -/
structure Question where
  name : Text
  qtype : Nat
  qclass : Nat
  deriving DecidableEq

def Request.question (host : UnicodeHost) (r : Request) : Question :=
  ⟨lowerCase host r.name, r.qtype, r.qclass⟩

/-- The question section of a message, if it holds one question. -/
def Wire.questionOf (host : UnicodeHost) (wire : Bytes) : Option Question := do
  let qd ← readUInt16BE wire 4
  if qd ≠ 1 then none
  else do
    let n ← readName wire 12
    let qtype ← readUInt16BE wire n.next
    let qclass ← readUInt16BE wire (n.next + 2)
    pure ⟨lowerCase host n.name, qtype, qclass⟩

theorem Request.question_eq (host : UnicodeHost) {r r' : Request} (h : r.key = r'.key) :
    r.question host = r'.question host := by
  rcases key_injective h with ⟨_, htype, hclass, hname⟩
  rw [question, question, htype, hclass, hname]

namespace Resolver

variable {host : UnicodeHost}

/-- A reply that the parser accepts has the question of the call it is for. -/
def OwnReply (host : UnicodeHost) (s : Resolver) (n : Nat) (wire : Bytes) : Prop :=
  ∀ k, s.calls.get n = some k → (Wire.parseResponse host wire).isSome = true →
    Wire.questionOf host wire = some (k.request.question host)

/-- Every reply that a call takes has its question.  A truncated reply over UDP is not taken. -/
def OwnReplies (host : UnicodeHost) (s : Resolver) : Action → Prop
  | .dohReply n wire => OwnReply host s n wire
  | .routerReply n wire _ =>
      (truncated wire = false ∨ ∃ k ip id, s.calls.get n = some k ∧ k.phase = .tcp ip id) →
      OwnReply host s n wire
  | _ => True

/-- What is stored, and what is handed to the waiters of a call, answers the question. -/
structure AnswersQuestions (host : UnicodeHost) (s : Resolver) : Prop where
  cached : ∀ (r : Request) e, s.cache.map.get r.key = some e →
    Wire.questionOf host e.wire = some (r.question host)
  answered : ∀ n k, s.calls.get n = some k → ∀ wire ttlOffsets via,
    k.phase = .answered wire ttlOffsets via →
    ∀ w ∈ k.waiters, Wire.questionOf host wire = some (w.request.question host)

/-! ## Replies that are taken -/

theorem settle_get (s : Resolver) (n : Nat) (k : Call) {wire : Bytes} (via : Via)
    {r : Wire.Response} (hr : Wire.parseResponse host wire = some r) :
    (s.settle host n k wire via).calls.get n =
      some { k with phase := .answered wire r.ttlOffsets via } := by
  simp [settle, hr]

/-- A reply that arrives and is accepted becomes the answer of its call. -/
theorem step_answers {s s' : Resolver} {a : Action} {n : Nat} {wire : Bytes} {k : Call}
    {r : Wire.Response} (h : step host s a = some s')
    (ha : a = .dohReply n wire ∨ ∃ tcpId, a = .routerReply n wire tcpId ∧
      (truncated wire = false ∨ ∃ k ip id, s.calls.get n = some k ∧ k.phase = .tcp ip id))
    (hk : s.calls.get n = some k) (hr : Wire.parseResponse host wire = some r) :
    ∃ via, s'.calls.get n = some { k with phase := .answered wire r.ttlOffsets via } := by
  rcases ha with rfl | ⟨tcpId, rfl, hfinal⟩
  · simp only [step, hk] at h
    split at h
    · cases h
      exact ⟨.doh, settle_get _ n k .doh hr⟩
    · cases h
  · simp only [step, hk] at h
    split at h
    · rename_i ip id hudp
      -- over UDP the reply is not truncated
      have htc : truncated wire = false := by
        rcases hfinal with htc | ⟨k', ip', id', hk', htcp⟩
        · exact htc
        · obtain rfl : k = k' := Option.some.inj (hk.symm.trans hk')
          rw [hudp] at htcp
          cases htcp
      simp only [htc, Bool.false_eq_true, if_false] at h
      split at h
      · cases h
        exact ⟨.router ip, settle_get _ n k _ hr⟩
      · cases h
    · rename_i ip id htcp
      split at h
      · cases h
        exact ⟨.router ip, settle_get _ n k _ hr⟩
      · cases h
    · cases h

theorem ownReplies_of_answersQuestions (s : Resolver) (a : Action) (s' : Resolver)
    (hs : Linked s) (h : step host s a = some s') (hP : AnswersQuestions host s') :
    OwnReplies host s a := by
  have hown : ∀ n wire, (a = .dohReply n wire ∨ ∃ tcpId, a = .routerReply n wire tcpId ∧
      (truncated wire = false ∨ ∃ k ip id, s.calls.get n = some k ∧ k.phase = .tcp ip id)) →
      OwnReply host s n wire := by
    intro n wire ha k hk hsome
    rcases Option.isSome_iff_exists.1 hsome with ⟨r, hr⟩
    rcases step_answers h ha hk hr with ⟨via, hk'⟩
    -- the request that started the call is one of those that get the answer
    rcases hs.starter n k hk with ⟨w, hw, hreq⟩
    rw [← hreq]
    exact hP.answered n _ hk' wire r.ttlOffsets via rfl w hw
  cases a with
  | dohReply n wire =>
      exact hown n wire (Or.inl rfl)
  | routerReply n wire tcpId =>
      intro hfinal
      exact hown n wire (Or.inr ⟨tcpId, rfl, hfinal⟩)
  | _ =>
      trivial

/-! ## Runs -/

structure Asked (host : UnicodeHost) (s : Resolver) : Prop where
  linked : Linked s
  answers : AnswersQuestions host s

theorem routerPhase_not_answered (fallbackRouter : Bool) (routerIp fromIp : Option Ip) (id : Nat)
    (wire : Bytes) (ttlOffsets : List Nat) (via : Via) :
    routerPhase fallbackRouter routerIp fromIp id ≠ .answered wire ttlOffsets via := by
  rcases routerPhase_cases fallbackRouter routerIp fromIp id with
    hfail | ⟨rip, _, _, ⟨_, hphase⟩ | ⟨_, hphase⟩⟩
  · simp [hfail]
  · simp [hphase]
  · simp [hphase]

theorem firstPhase_not_answered (s : Resolver) (r : Request) (id : Nat) (wire : Bytes)
    (ttlOffsets : List Nat) (via : Via) : s.firstPhase r id ≠ .answered wire ttlOffsets via := by
  rcases firstPhase_cases s r id with hdoh | ⟨f, hfail, _⟩ | ⟨fallbackRouter, hrouter⟩
  · simp [hdoh]
  · simp [hfail]
  · rw [hrouter]
    exact routerPhase_not_answered _ _ _ _ wire ttlOffsets via

/-- A call that is not answered by its new phase gives no answer. -/
theorem moves_not_answered {s : Resolver} {k : Call} {phase : Phase} (h : Moves s k phase)
    (wire : Bytes) (ttlOffsets : List Nat) (via : Via) : phase ≠ .answered wire ttlOffsets via := by
  intro heq
  cases h with
  | fallback id hdoh =>
      exact routerPhase_not_answered _ _ _ _ _ _ _ heq
  | retry ip id tcpId hudp =>
      cases heq
  | fail =>
      cases heq
  | bad =>
      cases heq

theorem answersQuestions_settle {s : Resolver} {n : Nat} {k : Call} {wire : Bytes}
    {r : Wire.Response} {via : Via} (hs : Linked s) (hq : AnswersQuestions host s)
    (hk : s.calls.get n = some k) (hr : Wire.parseResponse host wire = some r)
    (hown : Wire.questionOf host wire = some (k.request.question host)) :
    AnswersQuestions host (s.settle host n k wire via) := by
  simp only [settle, hr]
  constructor
  · intro req e he
    rcases ResponseCache.set_entry he with ⟨hkey, _, rfl⟩ | ⟨_, hold⟩
    · rw [Request.question_eq host hkey]
      exact hown
    · exact hq.cached req e hold
  · intro m c hc wire' ttlOffsets' via' hphase w hw
    rcases OrderedMap.get_set_cases hc with ⟨_, rfl⟩ | ⟨_, hold⟩
    · -- all waiters have the key of the call, and so its question
      cases hphase
      rw [Request.question_eq host (hs.keys n k hk w hw)]
      exact hown
    · exact hq.answered m c hold wire' ttlOffsets' via' hphase w hw

theorem step_asked (s : Resolver) (a : Action) (s' : Resolver) (hs : Asked host s)
    (hok : OwnReplies host s a) (h : step host s a = some s') : Asked host s' := by
  refine ⟨step_linked s a s' hs.linked h, ?_⟩
  have hq := hs.answers
  cases step_event h with
  | look r id =>
      exact ⟨fun r' e he => hq.cached r' e (ResponseCache.get_entry he), hq.answered⟩
  | join r id n k hmiss hn hk =>
      refine ⟨fun r' e he => hq.cached r' e (ResponseCache.get_entry he), ?_⟩
      intro m c hc wire ttlOffsets via hphase w hw
      rcases OrderedMap.get_set_cases hc with ⟨_, rfl⟩ | ⟨_, hold⟩
      · rcases List.mem_append.1 hw with hw | hw
        · exact hq.answered n k hk wire ttlOffsets via hphase w hw
        · -- a request that joins asks what the first waiter asked
          rcases hs.linked.starter n k hk with ⟨w₀, hw₀, hreq⟩
          rcases hs.linked.inflight _ n hn with ⟨k', hk', hkey⟩
          obtain rfl : k = k' := Option.some.inj (hk.symm.trans hk')
          rw [List.mem_singleton.1 hw, ← Request.question_eq host hkey, ← hreq]
          exact hq.answered n k hk wire ttlOffsets via hphase w₀ hw₀
      · exact hq.answered m c hold wire ttlOffsets via hphase w hw
  | begin r id hfree =>
      refine ⟨fun r' e he => hq.cached r' e (ResponseCache.get_entry he), ?_⟩
      intro m c hc wire ttlOffsets via hphase w hw
      rcases OrderedMap.get_set_cases hc with ⟨_, rfl⟩ | ⟨_, hold⟩
      · -- a call is never answered before its first wait
        exact absurd hphase (firstPhase_not_answered _ r id wire ttlOffsets via)
      · exact hq.answered m c hold wire ttlOffsets via hphase w hw
  | move a n k phase up hk hopen hmoves =>
      refine ⟨hq.cached, ?_⟩
      intro m c hc wire ttlOffsets via hphase w hw
      rcases OrderedMap.get_set_cases hc with ⟨_, rfl⟩ | ⟨_, hold⟩
      · exact absurd hphase (moves_not_answered hmoves wire ttlOffsets via)
      · exact hq.answered m c hold wire ttlOffsets via hphase w hw
  | answer a n k wire r via up ha hk hopen hvia hr =>
      -- this is where the condition is used
      have hown : Wire.questionOf host wire = some (k.request.question host) := by
        have hsome : (Wire.parseResponse host wire).isSome = true := by simp [hr]
        rcases ha with rfl | ⟨tcpId, rfl, htc | ⟨ip, id, htcp⟩⟩
        · exact hok k hk hsome
        · exact hok (Or.inl htc) k hk hsome
        · exact hok (Or.inr ⟨k, ip, id, hk, htcp⟩) k hk hsome
      exact answersQuestions_settle (hs.linked.same rfl rfl rfl) ⟨hq.cached, hq.answered⟩ hk hr hown
  | cleanup n k hk hsettled hin =>
      exact ⟨hq.cached, hq.answered⟩
  | replace cfg hne =>
      refine ⟨?_, hq.answered⟩
      intro r e he
      simp [ResponseCache.clear] at he
  | keep cfg =>
      exact hq
  | router ip =>
      exact ⟨hq.cached, hq.answered⟩
  | clock now =>
      exact ⟨hq.cached, hq.answered⟩

theorem start_asked (routerIp : Option Ip) (now : Int) : Asked host (start routerIp now) := by
  refine ⟨start_linked routerIp now, ?_, ?_⟩
  · intro r e he
    cases he
  · intro n k hk
    cases hk

theorem questions_answered (host : UnicodeHost) (routerIp : Option Ip) (now : Int)
    (as : List Action) (t : Resolver) (hrun : exec (step host) (start routerIp now) as = some t) :
    Throughout (step host) (AnswersQuestions host) (start routerIp now) as ↔
      Admits (step host) (OwnReplies host) (start routerIp now) as := by
  constructor
  · exact admits_of_throughout step_linked ownReplies_of_answersQuestions
      (start_linked routerIp now) hrun
  · exact throughout_of_admits step_asked (fun _ hs => hs.answers) (start_asked routerIp now)

/-- A reply over HTTPS with an address record for a name of one letter. -/
def addressReply (letter : UInt8) : Bytes :=
  [0, 0, 0x81, 0x80, 0, 1, 0, 1, 0, 0, 0, 0, 1, letter, 0, 0, 1, 0, 1,
    0xc0, 0x0c, 0, 1, 0, 1, 0, 0, 0, 60, 0, 4, 1, 2, 3, 4]

/-- A device asks for the address of `a`; the reply spells its only letter as given. -/
def oneReply (letter : UInt8) : List Action :=
  [.apply (some ⟨.quad9, none, true⟩),
    .forward ⟨['a'], 1, 1, none, false, false, some "192.168.1.20"⟩ 0,
    .dohReply 0 (addressReply letter)]

theorem questions_answered_upper_case :
    (exec (step .ascii) (start none 0) (oneReply 0x41)).any (fun t => t.cache.map.size == 1) =
        true ∧
      Throughout (step .ascii) (AnswersQuestions .ascii) (start none 0) (oneReply 0x41) := by
  have hrun : (exec (step .ascii) (start none 0) (oneReply 0x41)).any
      (fun t => t.cache.map.size == 1) = true := by
    decide +kernel
  rcases (Option.any_eq_true ..).1 hrun with ⟨t, ht, _⟩
  refine ⟨hrun, (questions_answered .ascii none 0 (oneReply 0x41) t ht).2 ?_⟩
  refine ⟨trivial, fun s1 e1 => ⟨trivial, fun s2 e2 => ⟨?_, fun _ _ => trivial⟩⟩⟩
  cases e1
  cases e2
  intro k hk _
  cases hk
  decide +kernel

/-- The upstream answers another question: the reply is stored under the key of this one. -/
theorem other_question_stored :
    ∃ t, exec (step .ascii) (start none 0) (oneReply 0x62) = some t ∧
      (∃ e, t.cache.map.get
          (Request.key ⟨['a'], 1, 1, none, false, false, some "192.168.1.20"⟩) = some e ∧
        Wire.questionOf .ascii e.wire = some ⟨['b'], 1, 1⟩) ∧
      ¬ AnswersQuestions .ascii t := by
  have hrun : (exec (step .ascii) (start none 0) (oneReply 0x62)).any (fun t =>
      (t.cache.map.get
        (Request.key ⟨['a'], 1, 1, none, false, false, some "192.168.1.20"⟩)).any fun e =>
        Wire.questionOf .ascii e.wire = some ⟨['b'], 1, 1⟩) = true := by
    decide +kernel
  rcases (Option.any_eq_true ..).1 hrun with ⟨t, ht, hbad⟩
  rcases (Option.any_eq_true ..).1 hbad with ⟨e, he, hq⟩
  have hq' := of_decide_eq_true hq
  refine ⟨t, ht, ⟨e, he, hq'⟩, ?_⟩
  intro hp
  have hown := hp.cached _ e he
  rw [hq'] at hown
  exact absurd hown (by decide)

end Resolver

end Dns
end GateControl
