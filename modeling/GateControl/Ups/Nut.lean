import GateControl.Library.Transition
import GateControl.Library.Utf8Pieces

/-!
# Nut — a session with the server of an uninterruptible power supply

The protocol is line by line.  The data handler decodes each piece of the stream, takes the lines off
its buffer and collects them, while a request waits, up to the line that ends the answer.
-/

namespace GateControl
namespace Ups

open Library

def maxBytes : Nat := 64 * 1024

def maxLines : Nat := 1000

def protocolError : Text := "protocol".toList

inductive Reply
  | resolve (got : List Text)
  | reject (code : Text)
  deriving DecidableEq

structure Session where
  buf : Text
  total : Nat
  /-- What the line begins with that ends the answer to the waiting request. -/
  waiter : Option Text
  lines : List Text
  destroyed : Bool
  deriving DecidableEq

/-- `line.replace(/\r$/, '')` -/
def dropCr (line : Text) : Text := if line.getLast? = some '\r' then line.dropLast else line

/-- Whether a line ends the answer. -/
def isEnd (waiter line : Text) : Bool :=
  "ERR ".toList.isPrefixOf line || waiter.isPrefixOf line

namespace Session

def new : Session := ⟨[], 0, none, [], false⟩

def request (s : Session) (endPrefix : Text) : Session := { s with waiter := some endPrefix }

/-- Close the socket; a waiting request is rejected. -/
def fail (s : Session) (code : Text) : Session × List Reply :=
  ({ s with waiter := none, destroyed := true }, if s.waiter.isSome then [.reject code] else [])

/-- The loop over the lines in the buffer; `fuel` bounds their number. -/
def drain : Nat → Session → Session × List Reply
  | 0, s => (s, [])
  | fuel + 1, s =>
      if '\n' ∈ s.buf then
        let line := dropCr (s.buf.takeWhile (· ≠ '\n'))
        let s := { s with buf := (s.buf.dropWhile (· ≠ '\n')).tail }
        match s.waiter with
        -- lines that nobody waits for are dropped
        | none => drain fuel s
        | some waiter =>
            let s := { s with lines := s.lines ++ [line] }
            if s.lines.length > maxLines then s.fail protocolError
            else if isEnd waiter line then
              let r := drain fuel { s with waiter := none, lines := [] }
              (r.1, .resolve s.lines :: r.2)
            else drain fuel s
      else (s, [])

/-- The handler of `data`; a destroyed socket has no more of it. -/
def data (s : Session) (chunk : Bytes) : Session × List Reply :=
  if s.destroyed then (s, [])
  else
    let s := { s with total := s.total + chunk.length }
    if s.total > maxBytes then s.fail protocolError
    else
      -- each chunk is decoded alone
      let s := { s with buf := s.buf ++ utf8 chunk }
      drain s.buf.length s

/-- Pieces of the stream one after the other, with the replies to the waiting request. -/
def feed (s : Session) : List Bytes → Session × List Reply
  | [] => (s, [])
  | chunk :: chunks =>
      let r := s.data chunk
      let rest := feed r.1 chunks
      (rest.1, r.2 ++ rest.2)

inductive Action
  | request (endPrefix : Text)
  | data (chunk : Bytes)
  /-- A timeout, an error of the socket, or its end. -/
  | fail (code : Text)

def step (s : Session) : Action → Option Session
  | .request endPrefix => some (s.request endPrefix)
  | .data chunk => some (s.data chunk).1
  | .fail code => some (s.fail code).1

/-! ## Lines -/

/-- Lines as they are sent. -/
def unlines (ls : List Text) : Text := ls.flatMap (· ++ ['\n'])

theorem unlines_cons (l : Text) (ls : List Text) : unlines (l :: ls) = l ++ '\n' :: unlines ls := by
  rw [unlines, List.flatMap_cons, List.append_assoc]
  rfl

theorem unlines_append (ls ms : List Text) : unlines (ls ++ ms) = unlines ls ++ unlines ms :=
  List.flatMap_append

/-- Every text is some lines and the beginning of one more. -/
theorem exists_lines (t : Text) :
    ∃ ls tail, t = unlines ls ++ tail ∧ (∀ l ∈ ls, '\n' ∉ l) ∧ '\n' ∉ tail := by
  induction t with
  | nil =>
      exact ⟨[], [], rfl, by simp, by simp⟩
  | cons c t ih =>
      obtain ⟨ls, tail, rfl, hls, htail⟩ := ih
      by_cases hc : c = '\n'
      · subst hc
        refine ⟨[] :: ls, tail, by rw [unlines_cons]; rfl, ?_, htail⟩
        intro l hl
        rcases List.mem_cons.1 hl with rfl | hl
        · simp
        · exact hls l hl
      · cases ls with
        | nil =>
            exact ⟨[], c :: tail, rfl, by simp, by simpa [eq_comm, hc] using htail⟩
        | cons l ls =>
            refine ⟨(c :: l) :: ls, tail, by rw [unlines_cons, unlines_cons]; rfl, ?_, htail⟩
            intro m hm
            rcases List.mem_cons.1 hm with rfl | hm
            · have hl := hls l List.mem_cons_self
              simpa [eq_comm, hc] using hl
            · exact hls m (List.mem_cons_of_mem _ hm)

theorem takeWhile_line {l : Text} (hl : '\n' ∉ l) (rest : Text) :
    (l ++ '\n' :: rest).takeWhile (· ≠ '\n') = l ∧
      ((l ++ '\n' :: rest).dropWhile (· ≠ '\n')).tail = rest := by
  induction l with
  | nil =>
      exact ⟨by simp, by simp⟩
  | cons c l ih =>
      have hc : c ≠ '\n' := fun h => hl (h ▸ List.mem_cons_self)
      obtain ⟨htake, hdrop⟩ := ih fun h => hl (List.mem_cons_of_mem _ h)
      rw [List.cons_append, List.takeWhile_cons_of_pos (by simpa using hc),
        List.dropWhile_cons_of_pos (by simpa using hc)]
      exact ⟨congrArg (c :: ·) htake, hdrop⟩

/-! ## The loop -/

/-- What is answered to the waiting request when these lines are there. -/
def replyTo (waiter : Text) : List Text → List Text → Option Reply
  | _, [] => none
  | lines, l :: ls =>
      if (lines ++ [dropCr l]).length > maxLines then some (.reject protocolError)
      else if isEnd waiter (dropCr l) then some (.resolve (lines ++ [dropCr l]))
      else replyTo waiter (lines ++ [dropCr l]) ls

variable {s : Session} {waiter tail : Text} {ls : List Text} {fuel : Nat}

/-- A line that nobody waits for. -/
theorem drain_dropped {l rest : Text} (hl : '\n' ∉ l) (h : s.waiter = none) :
    drain (fuel + 1) { s with buf := l ++ '\n' :: rest } = drain fuel { s with buf := rest } := by
  obtain ⟨htake, hdrop⟩ := takeWhile_line hl rest
  rw [drain, if_pos (by simp)]
  simp only [htake, hdrop]
  split
  · rfl
  · rename_i hsome
    rw [h] at hsome
    cases hsome

/-- A line of the answer. -/
theorem drain_collected {l rest : Text} (hl : '\n' ∉ l) (h : s.waiter = some waiter) :
    drain (fuel + 1) { s with buf := l ++ '\n' :: rest } =
      if (s.lines ++ [dropCr l]).length > maxLines then
        { s with buf := rest, lines := s.lines ++ [dropCr l] }.fail protocolError
      else if isEnd waiter (dropCr l) then
        let r := drain fuel { s with buf := rest, waiter := none, lines := [] }
        (r.1, .resolve (s.lines ++ [dropCr l]) :: r.2)
      else drain fuel { s with buf := rest, lines := s.lines ++ [dropCr l] } := by
  obtain ⟨htake, hdrop⟩ := takeWhile_line hl rest
  rw [drain, if_pos (by simp)]
  simp only [htake, hdrop]
  split
  · rename_i hnone
    rw [h] at hnone
    cases hnone
  · rename_i w hsome
    rw [h] at hsome
    cases hsome
    rfl

theorem drain_nothing (h : '\n' ∉ s.buf) : drain fuel s = (s, []) := by
  cases fuel with
  | zero =>
      rfl
  | succ fuel =>
      rw [drain, if_neg h]

/-- Nothing is answered when nobody waits. -/
theorem drain_silent (h : s.waiter = none) (hls : ∀ l ∈ ls, '\n' ∉ l) (htail : '\n' ∉ tail)
    (hfuel : ls.length ≤ fuel) :
    drain fuel { s with buf := unlines ls ++ tail } = ({ s with buf := tail }, []) := by
  induction ls generalizing fuel with
  | nil =>
      exact drain_nothing (s := { s with buf := tail }) htail
  | cons l ls ih =>
      cases fuel with
      | zero =>
          cases hfuel
      | succ fuel =>
          rw [unlines_cons, List.append_assoc, List.cons_append,
            drain_dropped (hls l List.mem_cons_self) h]
          exact ih (fun l hl => hls l (List.mem_cons_of_mem _ hl)) (Nat.le_of_succ_le_succ hfuel)

/-- The loop takes all lines off the buffer, up to the one that is one too many. -/
theorem drain_lines (h : s.waiter = some waiter) (hls : ∀ l ∈ ls, '\n' ∉ l) (htail : '\n' ∉ tail)
    (hfuel : ls.length ≤ fuel) :
    (drain fuel { s with buf := unlines ls ++ tail }).2 = (replyTo waiter s.lines ls).toList ∧
      (replyTo waiter s.lines ls = none → (drain fuel { s with buf := unlines ls ++ tail }).1 =
        { s with buf := tail, lines := s.lines ++ ls.map dropCr }) ∧
      (replyTo waiter s.lines ls ≠ none →
        (drain fuel { s with buf := unlines ls ++ tail }).1.waiter = none) := by
  induction ls generalizing s fuel with
  | nil =>
      have hnothing : drain fuel { s with buf := tail } = ({ s with buf := tail }, []) :=
        drain_nothing htail
      rw [show unlines [] ++ tail = tail from rfl, hnothing]
      exact ⟨rfl, fun _ => by rw [List.map_nil, List.append_nil], fun hne => absurd rfl hne⟩
  | cons l ls ih =>
      cases fuel with
      | zero =>
          cases hfuel
      | succ fuel =>
          have hls' : ∀ l ∈ ls, '\n' ∉ l := fun l hl => hls l (List.mem_cons_of_mem _ hl)
          have hfuel' := Nat.le_of_succ_le_succ hfuel
          rw [unlines_cons, List.append_assoc, List.cons_append,
            drain_collected (hls l List.mem_cons_self) h, replyTo]
          by_cases hmany : (s.lines ++ [dropCr l]).length > maxLines
          · -- a line too many: the session fails
            rw [if_pos hmany, if_pos hmany]
            refine ⟨?_, fun hne => ?_, fun _ => rfl⟩
            · rw [fail, if_pos (by rw [h]; rfl)]
              rfl
            · cases hne
          · rw [if_neg hmany, if_neg hmany]
            by_cases hend : isEnd waiter (dropCr l)
            · rw [if_pos hend, if_pos hend]
              -- the end of the answer: nobody waits for the lines behind it
              have hsilent := drain_silent (s := { s with waiter := none, lines := [] }) rfl hls'
                htail hfuel'
              dsimp only at hsilent ⊢
              rw [hsilent]
              refine ⟨rfl, fun hne => ?_, fun _ => rfl⟩
              cases hne
            · rw [if_neg hend, if_neg hend]
              -- the line is collected
              obtain ⟨hreplies, hnone, hsome⟩ :=
                ih (s := { s with lines := s.lines ++ [dropCr l] }) h hls' hfuel'
              refine ⟨hreplies, fun hne => ?_, hsome⟩
              rw [hnone hne, List.map_cons, ← List.append_cons]

end Session

end Ups
end GateControl
