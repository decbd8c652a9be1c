import Mathlib.Data.List.Forall2
import GateControl.Ups.Nut

/-!
# Segments — an answer that comes in several pieces

What is answered to a request depends on the text that the pieces are decoded to (`feed_reply`).  So
the lines of an answer are the same for every way to cut it at which no piece ends inside a
character, and no others are (`lines_same_iff`).
-/

namespace GateControl
namespace Ups
namespace Session

open Library

variable {s : Session} {waiter tail : Text} {ls : List Text}

/-! ## Texts and their lines -/

/-- The lines of a text are determined by it. -/
theorem lines_prefix {as bs : List Text} {t : Text} (has : ∀ l ∈ as, '\n' ∉ l)
    (hbs : ∀ l ∈ bs, '\n' ∉ l) (htail : '\n' ∉ tail) (h : unlines as ++ t = unlines bs ++ tail) :
    ∃ cs, bs = as ++ cs ∧ t = unlines cs ++ tail := by
  induction as generalizing bs with
  | nil =>
      exact ⟨bs, rfl, h⟩
  | cons a as ih =>
      cases bs with
      | nil =>
          exfalso
          apply htail
          rw [show tail = unlines [] ++ tail from rfl, ← h, unlines_cons]
          simp
      | cons b bs =>
          rw [unlines_cons, unlines_cons, List.append_assoc, List.append_assoc, List.cons_append,
            List.cons_append] at h
          obtain ⟨rfl, hrest⟩ :=
            append_cons_injective (has a List.mem_cons_self) (hbs b List.mem_cons_self) h
          obtain ⟨cs, rfl, ht⟩ := ih (fun l hl => has l (List.mem_cons_of_mem _ hl))
            (fun l hl => hbs l (List.mem_cons_of_mem _ hl)) hrest
          exact ⟨cs, rfl, ht⟩

theorem replyTo_append (waiter : Text) (lines ls ms : List Text) :
    replyTo waiter lines (ls ++ ms) =
      match replyTo waiter lines ls with
      | some r => some r
      | none => replyTo waiter (lines ++ ls.map dropCr) ms := by
  induction ls generalizing lines with
  | nil =>
      rw [List.map_nil, List.append_nil]
      rfl
  | cons l ls ih =>
      rw [List.cons_append, replyTo, replyTo]
      split
      · rfl
      · split
        · rfl
        · rw [ih, List.map_cons, ← List.append_cons]

/-- The lines that are resolved to are the first lines of what came. -/
theorem replyTo_resolve {lines got : List Text} (h : replyTo waiter lines ls = some (.resolve got)) :
    ∃ n ≤ ls.length, got = lines ++ (ls.take n).map dropCr := by
  induction ls generalizing lines with
  | nil =>
      cases h
  | cons l ls ih =>
      rw [replyTo] at h
      split at h
      · cases h
      · split at h
        · cases h
          exact ⟨1, by simp, by simp⟩
        · obtain ⟨n, hn, rfl⟩ := ih h
          exact ⟨n + 1, Nat.succ_le_succ hn, by simp⟩

/-! ## The session between two pieces -/

/-- No complete line is left in the buffer. -/
def Drained (s : Session) : Prop := s.destroyed = true ∨ '\n' ∉ s.buf

theorem drain_drained {fuel : Nat} (h : s.buf.length ≤ fuel) : Drained (drain fuel s).1 := by
  induction fuel generalizing s with
  | zero =>
      right
      rw [drain, List.length_eq_zero_iff.1 (Nat.le_zero.1 h)]
      simp
  | succ fuel ih =>
      rw [drain]
      split
      · rename_i hmem
        have hshort : (s.buf.dropWhile (· ≠ '\n')).tail.length ≤ fuel := by
          have hle := (List.dropWhile_suffix (· ≠ '\n') (l := s.buf)).length_le
          rw [List.length_tail]
          omega
        dsimp only
        split
        · exact ih hshort
        · split
          · exact Or.inl rfl
          · split
            · exact ih hshort
            · exact ih hshort
      · rename_i hmem
        exact Or.inr hmem

/-- What the handler of a piece does. -/
theorem data_cases (s : Session) (chunk : Bytes) :
    (s.destroyed = true ∧ s.data chunk = (s, [])) ∨
      (maxBytes < s.total + chunk.length ∧
        s.data chunk = { s with total := s.total + chunk.length }.fail protocolError) ∨
      (s.destroyed = false ∧ s.total + chunk.length ≤ maxBytes ∧
        s.data chunk = drain (s.buf ++ utf8 chunk).length
          { s with total := s.total + chunk.length, buf := s.buf ++ utf8 chunk }) := by
  rw [data]
  by_cases hdestroyed : s.destroyed = true
  · exact Or.inl ⟨hdestroyed, if_pos hdestroyed⟩
  · rw [if_neg hdestroyed]
    by_cases hmany : s.total + chunk.length > maxBytes
    · exact Or.inr (Or.inl ⟨hmany, if_pos hmany⟩)
    · exact Or.inr (Or.inr ⟨Bool.not_eq_true _ ▸ hdestroyed, Nat.le_of_not_gt hmany, if_neg hmany⟩)

theorem data_drained (h : Drained s) (chunk : Bytes) : Drained (s.data chunk).1 := by
  rcases data_cases s chunk with ⟨_, heq⟩ | ⟨_, heq⟩ | ⟨_, _, heq⟩
  · rw [heq]
    exact h
  · rw [heq]
    exact Or.inl rfl
  · rw [heq]
    exact drain_drained (Nat.le_refl _)

theorem step_drained (s : Session) (a : Action) (s' : Session) (hs : Drained s)
    (h : step s a = some s') : Drained s' := by
  cases a with
  | request endPrefix =>
      cases h
      exact hs
  | data chunk =>
      cases h
      exact data_drained hs chunk
  | fail code =>
      cases h
      exact Or.inl rfl

theorem length_lines_le (ls : List Text) (tail : Text) :
    ls.length ≤ (unlines ls ++ tail).length := by
  induction ls with
  | nil =>
      exact Nat.zero_le _
  | cons l ls ih =>
      rw [List.length_append] at ih
      rw [unlines_cons, List.length_append, List.length_append, List.length_cons, List.length_cons]
      omega

/-- Without a waiting request nothing is answered. -/
theorem data_silent (h : s.waiter = none) (chunk : Bytes) :
    (s.data chunk).1.waiter = none ∧ (s.data chunk).2 = [] := by
  rcases data_cases s chunk with ⟨_, heq⟩ | ⟨_, heq⟩ | ⟨_, _, heq⟩
  · rw [heq]
    exact ⟨h, rfl⟩
  · rw [heq, fail, h]
    exact ⟨rfl, rfl⟩
  · obtain ⟨ls, tail, hbuf, hls, htail⟩ := exists_lines (s.buf ++ utf8 chunk)
    have hsilent := drain_silent (s := { s with total := s.total + chunk.length }) h hls htail
      (length_lines_le ls tail)
    rw [heq, hbuf]
    dsimp only at hsilent
    rw [hsilent]
    exact ⟨h, rfl⟩

theorem feed_silent (h : s.waiter = none) (pieces : List Bytes) : (s.feed pieces).2 = [] := by
  induction pieces generalizing s with
  | nil =>
      rfl
  | cons chunk pieces ih =>
      obtain ⟨hwaiter, hreplies⟩ := data_silent h chunk
      rw [feed]
      dsimp only
      rw [hreplies, ih hwaiter]
      rfl

/-- The answer to a request, from the text that its pieces are decoded to. -/
theorem feed_reply {pieces : List Bytes} (hdestroyed : s.destroyed = false)
    (hwaiter : s.waiter = some waiter) (hbuf : '\n' ∉ s.buf)
    (hbytes : s.total + pieces.flatten.length ≤ maxBytes) :
    ∃ ls tail, s.buf ++ pieces.flatMap utf8 = unlines ls ++ tail ∧ (∀ l ∈ ls, '\n' ∉ l) ∧
      '\n' ∉ tail ∧ (s.feed pieces).2 = (replyTo waiter s.lines ls).toList := by
  induction pieces generalizing s with
  | nil =>
      exact ⟨[], s.buf, List.append_nil _, by simp, hbuf, rfl⟩
  | cons chunk pieces ih =>
      rw [List.flatten_cons, List.length_append] at hbytes
      obtain ⟨ls, tail, hlines, hls, htail⟩ := exists_lines (s.buf ++ utf8 chunk)
      have hdata : s.data chunk = drain (s.buf ++ utf8 chunk).length
          { s with total := s.total + chunk.length, buf := s.buf ++ utf8 chunk } := by
        rcases data_cases s chunk with ⟨htrue, _⟩ | ⟨hmany, _⟩ | ⟨_, _, heq⟩
        · rw [hdestroyed] at htrue
          cases htrue
        · omega
        · exact heq
      obtain ⟨hreplies, hnone, hsome⟩ := drain_lines
        (s := { s with total := s.total + chunk.length }) hwaiter hls htail (length_lines_le ls tail)
      rw [hlines] at hdata
      dsimp only at hreplies hnone hsome
      rw [← hdata] at hreplies hnone hsome
      rw [List.flatMap_cons, ← List.append_assoc, hlines, feed]
      dsimp only
      rw [hreplies]
      cases hreply : replyTo waiter s.lines ls with
      | none =>
          -- the lines of this piece are collected, and the next one goes on with the tail
          have hnext := hnone hreply
          rw [hnext]
          obtain ⟨ms, tail', hmore, hms, htail', hrest⟩ := ih (s := { s with
            total := s.total + chunk.length, buf := tail, lines := s.lines ++ ls.map dropCr })
            hdestroyed hwaiter htail (by dsimp only; omega)
          refine ⟨ls ++ ms, tail', ?_, ?_, htail', ?_⟩
          · rw [unlines_append, List.append_assoc, List.append_assoc, hmore]
          · intro l hl
            rcases List.mem_append.1 hl with hl | hl
            · exact hls l hl
            · exact hms l hl
          · rw [replyTo_append, hreply, hrest]
            rfl
      | some r =>
          -- the request is answered, what follows is not read
          obtain ⟨ms, tail', hmore, hms, htail'⟩ := exists_lines (tail ++ pieces.flatMap utf8)
          have hwait := hsome (by rw [hreply]; exact Option.some_ne_none r)
          rw [feed_silent hwait]
          refine ⟨ls ++ ms, tail', ?_, ?_, htail', ?_⟩
          · rw [unlines_append, List.append_assoc, List.append_assoc, hmore]
          · intro l hl
            rcases List.mem_append.1 hl with hl | hl
            · exact hls l hl
            · exact hms l hl
          · rw [replyTo_append, hreply]
            rfl

/-! ## Lines that are worded differently -/

/-- Lines of which the last one ends the answer, and no other one does. -/
def IsAnswer (waiter : Text) (ls : List Text) : Prop :=
  ∃ before last, ls = before ++ [last] ∧ (∀ l ∈ before, isEnd waiter (dropCr l) = false) ∧
    isEnd waiter (dropCr last) = true

theorem replyTo_answer {lines : List Text} (h : IsAnswer waiter ls)
    (hcount : lines.length + ls.length ≤ maxLines) (more : List Text) :
    replyTo waiter lines (ls ++ more) = some (.resolve (lines ++ ls.map dropCr)) := by
  obtain ⟨before, last, rfl, hbefore, hlast⟩ := h
  induction before generalizing lines with
  | nil =>
      rw [List.nil_append, List.singleton_append, replyTo, if_neg, if_pos hlast]
      · rfl
      · simp at hcount ⊢
        omega
  | cons l before ih =>
      have hl := hbefore l List.mem_cons_self
      have hcount' : (lines ++ [dropCr l]).length + (before ++ [last]).length ≤ maxLines := by
        simp at hcount ⊢
        omega
      have hrest := ih hcount' fun l hl => hbefore l (List.mem_cons_of_mem _ hl)
      rw [List.cons_append, List.cons_append, replyTo, if_neg, if_neg (by simp [hl]), hrest,
        List.map_cons, ← List.append_cons]
      simp at hcount ⊢
      omega

theorem dropCr_cr (l : Text) : dropCr (l ++ ['\r']) = l := by
  rw [dropCr, if_pos (by simp), List.dropLast_concat]

/-- The return at the end of a line does not hide that its wording differs. -/
theorem eq_of_dropCr {l l' : Text} (h : Wording l l') (heq : dropCr l = dropCr l') : l = l' := by
  rcases List.eq_nil_or_concat l with rfl | ⟨a, c, rfl⟩
  · cases h
    rfl
  · rw [List.concat_eq_append] at h heq ⊢
    obtain ⟨a', x, rfl, ha, hx⟩ := h.split a [c] rfl
    by_cases hc : c = '\r'
    · subst hc
      obtain ⟨x', rfl, hx'⟩ := hx.of_ascii_cons (by decide)
      cases hx'
      rw [dropCr_cr, dropCr_cr] at heq
      rw [heq]
    · -- neither of the lines ends with a return
      have hkeep : dropCr (a ++ [c]) = a ++ [c] := by
        rw [dropCr, if_neg (by simpa using hc)]
      have hkeep' : dropCr (a' ++ x) = a' ++ x := by
        rw [dropCr, if_neg]
        intro hlast
        cases x with
        | nil =>
            cases hx
        | cons d x =>
            rw [List.getLast?_append_of_ne_nil _ (List.cons_ne_nil d x)] at hlast
            have hmem := hx.mem_of_ascii (c := '\r') (by decide) (List.mem_of_getLast? hlast)
            exact hc (List.mem_singleton.1 hmem).symm
      rw [← hkeep, heq, hkeep']

/-- Complete lines stay lines. -/
theorem wording_lines {t' : Text} (hls : ∀ l ∈ ls, '\n' ∉ l) (h : Wording (unlines ls) t') :
    ∃ ls', t' = unlines ls' ∧ List.Forall₂ Wording ls ls' ∧ ∀ l ∈ ls', '\n' ∉ l := by
  induction ls generalizing t' with
  | nil =>
      cases h
      exact ⟨[], rfl, .nil, by simp⟩
  | cons l ls ih =>
      obtain ⟨l', x, rfl, hl, hx⟩ := h.split l ('\n' :: unlines ls) (unlines_cons l ls)
      obtain ⟨u, rfl, hu⟩ := hx.of_ascii_cons (by decide)
      obtain ⟨ls', rfl, hall, hfree⟩ := ih (fun l hl => hls l (List.mem_cons_of_mem _ hl)) hu
      refine ⟨l' :: ls', (unlines_cons l' ls').symm, .cons hl hall, ?_⟩
      intro m hm
      rcases List.mem_cons.1 hm with rfl | hm
      · exact fun hnl => hls l List.mem_cons_self (hl.mem_of_ascii (by decide) hnl)
      · exact hfree m hm

theorem eq_of_map_dropCr {ls' : List Text} (h : List.Forall₂ Wording ls ls')
    (heq : ls.map dropCr = ls'.map dropCr) : ls = ls' := by
  induction h with
  | nil =>
      rfl
  | cons hl _ ih =>
      rw [List.map_cons, List.map_cons] at heq
      obtain ⟨hhead, hrest⟩ := List.cons.inj heq
      rw [eq_of_dropCr hl hhead, ih hrest]

/-! ## The answer in pieces -/

section Answer

variable {sent rest : Text} {pieces : List Bytes}

/-- What is fixed when an answer comes: the request waits, and the limits are kept. -/
structure Awaits (s : Session) (waiter : Text) (ls : List Text) (sent rest : Text) : Prop where
  drained : '\n' ∉ s.buf
  alive : s.destroyed = false
  waits : s.waiter = some waiter
  lines_eq : s.buf ++ sent = unlines ls
  free : ∀ l ∈ ls, '\n' ∉ l
  answer : IsAnswer waiter ls
  bytes : s.total + (utf8Bytes (sent ++ rest)).length ≤ maxBytes
  count : s.lines.length + ls.length ≤ maxLines

/-- Where no piece ends inside a character, the request is resolved with the lines of the answer. -/
theorem Awaits.reply_of_endsWhole (h : Awaits s waiter ls sent rest)
    (hpieces : pieces.flatten = utf8Bytes (sent ++ rest)) (hwhole : EndsWhole sent pieces) :
    (s.feed pieces).2 = [.resolve (s.lines ++ ls.map dropCr)] := by
  obtain ⟨more, hmore⟩ := decoded_of_endsWhole hpieces hwhole
  obtain ⟨ms, tail, hlines, hms, htail, hreply⟩ :=
    feed_reply h.alive h.waits h.drained (hpieces ▸ h.bytes)
  rw [hmore, ← List.append_assoc, h.lines_eq] at hlines
  obtain ⟨ns, rfl, _⟩ := lines_prefix h.free hms htail hlines
  rw [hreply, replyTo_answer h.answer h.count]
  rfl

/-- Where a piece does, it is not. -/
theorem Awaits.reply_of_spoilt (h : Awaits s waiter ls sent rest)
    (hpieces : pieces.flatten = utf8Bytes (sent ++ rest)) (hwhole : ¬EndsWhole sent pieces) :
    (s.feed pieces).2 ≠ [.resolve (s.lines ++ ls.map dropCr)] := by
  obtain ⟨sent', rest', hword, hlonger, hread⟩ := decoded_spoilt hpieces hwhole
  obtain ⟨ms, tail, hlines, hms, htail, hreply⟩ :=
    feed_reply h.alive h.waits h.drained (hpieces ▸ h.bytes)
  have hword' : Wording (unlines ls) (s.buf ++ sent') :=
    h.lines_eq ▸ (Wording.refl s.buf).append hword
  obtain ⟨ls', hls', hall, hfree⟩ := wording_lines h.free hword'
  rw [hread, ← List.append_assoc, hls'] at hlines
  obtain ⟨ns, rfl, _⟩ := lines_prefix hfree hms htail hlines
  intro heq
  rw [hreply] at heq
  have hresolve : replyTo waiter s.lines (ls' ++ ns) = some (.resolve (s.lines ++ ls.map dropCr)) := by
    cases hr : replyTo waiter s.lines (ls' ++ ns) with
    | none =>
        rw [hr] at heq
        cases heq
    | some r =>
        rw [hr] at heq
        exact congrArg some (List.head_eq_of_cons_eq heq)
  -- as many lines as were sent, each of them as it was sent
  obtain ⟨n, hn, hgot⟩ := replyTo_resolve hresolve
  have hgot := List.append_cancel_left hgot
  have hcount : n = ls.length := by
    have hlength := congrArg List.length hgot
    rw [List.length_map, List.length_map, List.length_take, Nat.min_eq_left hn] at hlength
    exact hlength.symm
  rw [hcount, hall.length_eq, List.take_left] at hgot
  have hsame := eq_of_map_dropCr hall hgot
  rw [← hsame, ← h.lines_eq] at hls'
  rw [List.append_cancel_left hls'] at hlonger
  exact Nat.lt_irrefl _ hlonger

theorem endsWhole_whole (sent rest : Text) : EndsWhole sent [utf8Bytes (sent ++ rest)] := by
  intro k _
  cases k with
  | zero =>
      exact ⟨[], rfl⟩
  | succ k =>
      exact ⟨sent ++ rest, by simp⟩

/-- Whether each piece ends behind a character matters for the whole answer. -/
theorem Awaits.same_iff (h : Awaits s waiter ls sent rest)
    (hpieces : pieces.flatten = utf8Bytes (sent ++ rest)) :
    (s.feed pieces).2 = (s.feed [utf8Bytes (sent ++ rest)]).2 ↔ EndsWhole sent pieces := by
  rw [h.reply_of_endsWhole (by simp) (endsWhole_whole sent rest)]
  constructor
  · intro heq
    by_contra hwhole
    exact h.reply_of_spoilt hpieces hwhole heq
  · intro hwhole
    exact h.reply_of_endsWhole hpieces hwhole

/-- Bytes one by one end inside every character that has more than one. -/
theorem ascii_of_endsWhole_singly (h : EndsWhole sent ((utf8Bytes (sent ++ rest)).map ([·]))) :
    ∀ c ∈ sent, isAscii c = true := by
  intro c hc
  obtain ⟨a, b, rfl⟩ := List.append_of_mem hc
  cases hascii : isAscii c with
  | true =>
      rfl
  | false =>
      exfalso
      obtain ⟨long⟩ := longChar_of_not_ascii hascii
      have hbytes : utf8Bytes (a ++ c :: b ++ rest) =
          utf8Bytes a ++ [long.first] ++ (long.tail ++ utf8Bytes (b ++ rest)) := by
        rw [List.append_assoc, utf8Bytes_append, List.cons_append, utf8Bytes_cons, long.bytes_eq,
          List.append_assoc]
        rfl
      have hsingly : ((utf8Bytes (a ++ c :: b ++ rest)).map ([·])).take
          ((utf8Bytes a).length + 1) = (utf8Bytes a ++ [long.first]).map ([·]) := by
        rw [hbytes, ← List.map_take, List.take_left' (by simp)]
      have hcut := h ((utf8Bytes a).length + 1)
      rw [hsingly, ← List.flatMap_def, List.flatMap_singleton'] at hcut
      obtain ⟨t, ht⟩ := hcut (by
        rw [utf8Bytes_append, utf8Bytes_cons, long.bytes_eq]
        simp)
      -- the first byte of the character alone is not the bytes of a text
      have hfirst := (utf8Bytes_of_append ht).2
      have hread : utf8 [long.first] = [Utf8State.replacement] := by
        have hcutc : Cut c [long.first] long.tail :=
          ⟨long.bytes_eq.symm, List.cons_ne_nil _ _, List.ne_nil_of_length_pos long.pos⟩
        exact hcutc.read.1
      rw [hread] at hfirst
      have hlength := congrArg List.length hfirst
      rw [List.length_singleton] at hlength
      revert hlength
      decide

theorem endsWhole_of_ascii (h : ∀ c ∈ sent, isAscii c = true)
    (hpieces : pieces.flatten = utf8Bytes (sent ++ rest)) : EndsWhole sent pieces := by
  intro k hk
  have hpre : (pieces.take k).flatten <+: utf8Bytes sent := by
    have hpieces' : (pieces.take k).flatten <+: pieces.flatten := by
      conv_rhs => rw [← List.take_append_drop k pieces, List.flatten_append]
      exact List.prefix_append _ _
    have hsent : utf8Bytes sent <+: pieces.flatten := by
      rw [hpieces, utf8Bytes_append]
      exact List.prefix_append _ _
    exact List.prefix_of_prefix_length_le hpieces' hsent hk
  rw [utf8Bytes_of_ascii h] at hpre
  refine ⟨sent.take (pieces.take k).flatten.length, ?_⟩
  rw [utf8Bytes_of_ascii fun c hc => h c (List.mem_of_mem_take hc), List.map_take]
  exact List.prefix_iff_eq_take.1 hpre

/-- An answer that comes to a session is resolved with its lines if it comes in one piece.  For the
other ways to cut it, the lines are the same if and only if no piece ends inside a character of the
answer; and they are the same for all ways if and only if the answer is ASCII. -/
theorem lines_same_iff {as : List Action} (hrun : exec step new as = some s)
    (halive : s.destroyed = false) (hwaits : s.waiter = some waiter)
    (hlines : s.buf ++ sent = unlines ls) (hfree : ∀ l ∈ ls, '\n' ∉ l)
    (hanswer : IsAnswer waiter ls)
    (hbytes : s.total + (utf8Bytes (sent ++ rest)).length ≤ maxBytes)
    (hcount : s.lines.length + ls.length ≤ maxLines) :
    (s.feed [utf8Bytes (sent ++ rest)]).2 = [.resolve (s.lines ++ ls.map dropCr)] ∧
      (∀ pieces, pieces.flatten = utf8Bytes (sent ++ rest) →
        ((s.feed pieces).2 = (s.feed [utf8Bytes (sent ++ rest)]).2 ↔ EndsWhole sent pieces)) ∧
      ((∀ pieces pieces', pieces.flatten = utf8Bytes (sent ++ rest) →
        pieces'.flatten = utf8Bytes (sent ++ rest) →
        (s.feed pieces).2 = (s.feed pieces').2) ↔ ∀ c ∈ sent, isAscii c = true) := by
  have hdrained : '\n' ∉ s.buf := by
    have hs : Drained s := exec_invariant step_drained (Or.inr (by simp [new])) hrun
    rcases hs with htrue | hbuf
    · rw [halive] at htrue
      cases htrue
    · exact hbuf
  have h : Awaits s waiter ls sent rest :=
    ⟨hdrained, halive, hwaits, hlines, hfree, hanswer, hbytes, hcount⟩
  refine ⟨h.reply_of_endsWhole (by simp) (endsWhole_whole sent rest), fun pieces => h.same_iff, ?_⟩
  constructor
  · intro hsame
    -- cut behind each byte, only ASCII is read as it was written
    have hsingly : ((utf8Bytes (sent ++ rest)).map ([·])).flatten = utf8Bytes (sent ++ rest) := by
      rw [← List.flatMap_def, List.flatMap_singleton']
    exact ascii_of_endsWhole_singly ((h.same_iff hsingly).1 (hsame _ _ hsingly (by simp)))
  · intro hascii pieces pieces' hpieces hpieces'
    rw [(h.same_iff hpieces).2 (endsWhole_of_ascii hascii hpieces),
      (h.same_iff hpieces').2 (endsWhole_of_ascii hascii hpieces')]

end Answer

/-- A session that waits for the list of the power supplies. -/
def listing : Session := new.request "END LIST UPS".toList

def officeLines : List Text :=
  ["BEGIN LIST UPS", "UPS eaton \"Büro\"", "END LIST UPS"].map String.toList

theorem lines_same_iff_office :
    (listing.feed [utf8Bytes (unlines officeLines ++ [])]).2 = [.resolve officeLines] := by
  have hrun : exec step new [.request "END LIST UPS".toList] = some listing := rfl
  have hsent : listing.buf ++ unlines officeLines = unlines officeLines := rfl
  have hanswer : IsAnswer "END LIST UPS".toList officeLines :=
    ⟨officeLines.take 2, "END LIST UPS".toList, rfl, List.forall_iff_forall_mem.1 (by decide),
      by decide⟩
  have hbytes : listing.total + (utf8Bytes (unlines officeLines ++ [])).length ≤ maxBytes := by
    decide +kernel
  exact (lines_same_iff hrun rfl rfl hsent (List.forall_iff_forall_mem.1 (by decide)) hanswer hbytes
    (by decide)).1

/-- The same list in two pieces, the first of which ends inside the `ü`. -/
def officeCut : List Bytes :=
  [utf8Bytes "BEGIN LIST UPS\nUPS eaton \"B".toList ++ [0xc3],
    0xbc :: utf8Bytes "ro\"\nEND LIST UPS\n".toList]

theorem lines_cut_inside :
    officeCut.flatten = utf8Bytes (unlines officeLines) ∧
      (listing.feed officeCut).2 = [.resolve (["BEGIN LIST UPS", "UPS eaton \"B\uFFFD\uFFFDro\"",
        "END LIST UPS"].map String.toList)] ∧
      (listing.feed officeCut).2 ≠ (listing.feed [officeCut.flatten]).2 := by
  decide +kernel

end Session
end Ups
end GateControl
