import GateControl.Library.JsonText

/-!
# NutLists — the words of an answer

A line of an answer is split into words, bare ones and quoted ones, and a list is what stands between
two lines of its frame.  What is printed in this form is read back as it was.
-/

namespace GateControl
namespace Ups
namespace Nut

open Library

/-! ## Words -/

def space : CodeUnit := unit ' '

def mark : CodeUnit := unit '"'

def backslash : CodeUnit := unit '\\'

def word (s : String) : Units := units s.toList

/-- The loop inside a quoted word: the word, and what follows the closing mark. -/
def readQuoted : Units → Units × Units
  | [] => ([], [])
  -- at the end of the line a backslash stands for itself
  | [c] => if c = mark then ([], []) else ([c], [])
  | c :: d :: s =>
      if c = mark then ([], d :: s)
      else if c = backslash then
        let r := readQuoted s
        (d :: r.1, r.2)
      else
        let r := readQuoted (d :: s)
        (c :: r.1, r.2)

theorem readQuoted_length_le (s : Units) : (readQuoted s).2.length ≤ s.length := by
  induction s using readQuoted.induct with
  | case1 => exact Nat.le_refl 0
  | case2 => simp [readQuoted]
  | case3 c h => simp [readQuoted, h]
  | case4 => simp [readQuoted]
  | case5 d s h ih =>
      rw [readQuoted, if_neg h, if_pos rfl]
      exact ih.trans (by simp only [List.length_cons]; omega)
  | case6 c d s hmark hbackslash ih =>
      rw [readQuoted, if_neg hmark, if_neg hbackslash]
      exact ih.trans (Nat.le_succ _)

def splitNutLine : Units → List Units
  | [] => []
  | c :: s =>
      if c = space then splitNutLine s
      else if c = mark then (readQuoted s).1 :: splitNutLine (readQuoted s).2
      else (c :: s.takeWhile (· ≠ space)) :: splitNutLine (s.dropWhile (· ≠ space))
termination_by s => s.length
decreasing_by
  · exact Nat.lt_succ_self _
  · exact Nat.lt_succ_of_le (readQuoted_length_le s)
  · exact Nat.lt_succ_of_le (List.dropWhile_sublist _).length_le

/-! ## Lists -/

structure NutError where
  code : Units
  deriving DecidableEq

/-- The code of an `ERR` line. -/
def errCode (w : List Units) : Units :=
  let c := w.getD 1 []
  word "nut_error:" ++ (if c = [] then word "UNKNOWN" else c).take 32

/-- The line begins or ends the list, after its first word. -/
def isFrame (kind : String) (what : Units) (w : List Units) : Bool :=
  w[0]? = some (word kind) && w[1]? = some (word "LIST") && w[2]? = some what

/-- The loop over the lines. -/
def parseFrom (what : Units) (inside : Bool) (rows : List (List Units)) :
    List Units → Except NutError (List (List Units))
  | [] => .error ⟨word "protocol"⟩
  | l :: lines =>
      let w := splitNutLine l
      if w[0]? = some (word "ERR") then .error ⟨errCode w⟩
      else if isFrame "BEGIN" what w then parseFrom what true rows lines
      else if isFrame "END" what w then .ok rows
      else parseFrom what inside (if inside then rows ++ [w] else rows) lines

def parseList (lines : List Units) (what : Units) : Except NutError (List (List Units)) :=
  parseFrom what false [] lines

/-! ## Printing -/

/-- Marks and backslashes get a backslash. -/
def escape (w : Units) : Units :=
  w.flatMap fun c => if c = mark ∨ c = backslash then [backslash, c] else [c]

/-- The ways to print a word. -/
inductive PrintsWord : Units → Units → Prop
  | quoted (w : Units) : PrintsWord w (mark :: (escape w ++ [mark]))
  | bare {w : Units} : w ≠ [] → space ∉ w → w.head? ≠ some mark → PrintsWord w w

/-- Words with spaces between them. -/
inductive PrintsRow : List Units → Units → Prop
  | nil : PrintsRow [] []
  | one {w t : Units} : PrintsWord w t → PrintsRow [w] t
  | cons {w v t line : Units} {ws : List Units} (n : Nat) : PrintsWord w t →
      PrintsRow (v :: ws) line →
      PrintsRow (w :: v :: ws) (t ++ (List.replicate (n + 1) space ++ line))

/-- A row that is not mistaken for an error or for the frame. -/
structure IsRow (what : Units) (row : List Units) : Prop where
  noError : row[0]? ≠ some (word "ERR")
  noBegin : isFrame "BEGIN" what row = false
  noEnd : isFrame "END" what row = false

/-- The lines of a list: the rows between those of the frame. -/
def PrintsList (what : Units) (rows : List (List Units)) (lines : List Units) : Prop :=
  ∃ first middle last, lines = first :: (middle ++ [last]) ∧
    PrintsRow [word "BEGIN", word "LIST", what] first ∧
    PrintsRow [word "END", word "LIST", what] last ∧ List.Forall₂ PrintsRow rows middle

/-- Every word quoted, with one space between two. -/
def printRow : List Units → Units
  | [] => []
  | [w] => mark :: (escape w ++ [mark])
  | w :: v :: ws => mark :: (escape w ++ [mark]) ++ ([space] ++ printRow (v :: ws))

theorem printsRow_printRow (row : List Units) : PrintsRow row (printRow row) := by
  induction row using printRow.induct with
  | case1 => exact .nil
  | case2 w => exact .one (.quoted w)
  | case3 w v ws ih => exact .cons 0 (.quoted w) ih

def printList (what : Units) (rows : List (List Units)) : List Units :=
  printRow [word "BEGIN", word "LIST", what] ::
    (rows.map printRow ++ [printRow [word "END", word "LIST", what]])

/-- Every list can be printed. -/
theorem printsList_printList (what : Units) (rows : List (List Units)) :
    PrintsList what rows (printList what rows) :=
  ⟨_, _, _, rfl, printsRow_printRow _, printsRow_printRow _,
    List.forall₂_map_right_iff.2 (List.forall₂_same.2 fun row _ => printsRow_printRow row)⟩

/-! ## Reading words -/

theorem readQuoted_mark (s : Units) : readQuoted (mark :: s) = ([], s) := by
  cases s with
  | nil => rfl
  | cons d s => rw [readQuoted, if_pos rfl]

theorem readQuoted_backslash (d : CodeUnit) (s : Units) :
    readQuoted (backslash :: d :: s) = (d :: (readQuoted s).1, (readQuoted s).2) := by
  have hne : backslash ≠ mark := by decide
  rw [readQuoted, if_neg hne, if_pos rfl]

theorem readQuoted_plain {c : CodeUnit} (hmark : c ≠ mark) (hbackslash : c ≠ backslash)
    (s : Units) : readQuoted (c :: s) = (c :: (readQuoted s).1, (readQuoted s).2) := by
  cases s with
  | nil => simp [readQuoted, hmark]
  | cons d s => rw [readQuoted, if_neg hmark, if_neg hbackslash]

theorem readQuoted_escape (w rest : Units) : readQuoted (escape w ++ mark :: rest) = (w, rest) := by
  induction w with
  | nil =>
      exact readQuoted_mark rest
  | cons c w ih =>
      have hescape : escape (c :: w) =
          (if c = mark ∨ c = backslash then [backslash, c] else [c]) ++ escape w := rfl
      rw [hescape]
      split
      · rw [List.append_assoc, List.cons_append, List.cons_append, List.nil_append,
          readQuoted_backslash, ih]
      · rename_i hplain
        rw [not_or] at hplain
        rw [List.append_assoc, List.cons_append, List.nil_append,
          readQuoted_plain hplain.1 hplain.2, ih]

theorem splitNutLine_nil : splitNutLine [] = [] := by
  rw [splitNutLine]

theorem splitNutLine_spaces (n : Nat) (s : Units) :
    splitNutLine (List.replicate n space ++ s) = splitNutLine s := by
  induction n with
  | zero =>
      rfl
  | succ n ih =>
      rw [List.replicate_succ, List.cons_append, splitNutLine, if_pos rfl, ih]

/-- A printed word is read, and then what follows it: nothing, or a space. -/
theorem splitNutLine_word {w t rest : Units} (h : PrintsWord w t)
    (hrest : ∀ c ∈ rest.head?, c = space) : splitNutLine (t ++ rest) = w :: splitNutLine rest := by
  cases h with
  | quoted =>
      have hmark : mark ≠ space := by decide
      have hquoted := readQuoted_escape w rest
      rw [List.cons_append, List.append_assoc, List.singleton_append, splitNutLine, if_neg hmark,
        if_pos rfl, hquoted]
  | bare hne hspace hmark =>
      cases w with
      | nil =>
          exact absurd rfl hne
      | cons c w =>
          have hc : c ≠ space := fun heq => hspace (heq ▸ List.mem_cons_self)
          have hc' : c ≠ mark := fun heq => hmark (congrArg some heq)
          have hw : ∀ d ∈ w, (fun d => decide (d ≠ space)) d = true := fun d hd =>
            decide_eq_true fun heq => hspace (heq ▸ List.mem_cons_of_mem c hd)
          have htake : (w ++ rest).takeWhile (· ≠ space) = w := by
            rw [List.takeWhile_append_of_pos hw]
            cases rest with
            | nil => simp
            | cons d rest => simp [hrest d rfl]
          have hdrop : (w ++ rest).dropWhile (· ≠ space) = rest := by
            rw [List.dropWhile_append_of_pos hw]
            cases rest with
            | nil => simp
            | cons d rest => simp [hrest d rfl]
          rw [List.cons_append, splitNutLine, if_neg hc, if_neg hc', htake, hdrop]

theorem splitNutLine_row {row : List Units} {line : Units} (h : PrintsRow row line) :
    splitNutLine line = row := by
  induction h with
  | nil =>
      exact splitNutLine_nil
  | @one w t hword =>
      have hread : splitNutLine (t ++ []) = w :: splitNutLine [] :=
        splitNutLine_word hword (by simp)
      rwa [List.append_nil, splitNutLine_nil] at hread
  | cons n hword _ ih =>
      rw [splitNutLine_word hword (by simp [List.replicate_succ]), splitNutLine_spaces, ih]

/-! ## Reading lists -/

theorem isFrame_frame (kind : String) (what : Units) :
    isFrame kind what [word kind, word "LIST", what] = true := by
  simp [isFrame]

theorem isFrame_of_ne {kind kind' : String} (h : word kind ≠ word kind') (what : Units)
    (ws : List Units) : isFrame kind' what (word kind :: ws) = false := by
  simp [isFrame, h]

/-- Inside the frame, every row is added as it is, up to the end of the frame. -/
theorem parseFrom_rows {what last : Units} {rows : List (List Units)} {lines : List Units}
    (hlast : PrintsRow [word "END", word "LIST", what] last)
    (hlines : List.Forall₂ PrintsRow rows lines) (hrows : ∀ row ∈ rows, IsRow what row)
    (before : List (List Units)) :
    parseFrom what true before (lines ++ [last]) = .ok (before ++ rows) := by
  induction hlines generalizing before with
  | nil =>
      have herr : word "END" ≠ word "ERR" := by decide
      have hbegin := isFrame_of_ne (by decide : word "END" ≠ word "BEGIN") what
        [word "LIST", what]
      simp only [List.nil_append, parseFrom, splitNutLine_row hlast, hbegin,
        isFrame_frame "END" what]
      simp [herr]
  | @cons row line rows lines hrow _ ih =>
      have hrow' := hrows row List.mem_cons_self
      simp only [List.cons_append, parseFrom, splitNutLine_row hrow, hrow'.noError, hrow'.noBegin,
        hrow'.noEnd, if_false, if_true, Bool.false_eq_true]
      rw [ih (fun row h => hrows row (List.mem_cons_of_mem _ h)), List.append_assoc,
        List.singleton_append]

/-- A printed list is read back, row by row and word by word. -/
theorem parseList_printed {what : Units} {rows : List (List Units)} {lines : List Units}
    (hlines : PrintsList what rows lines) (hrows : ∀ row ∈ rows, IsRow what row) :
    parseList lines what = .ok rows := by
  obtain ⟨first, middle, last, rfl, hfirst, hlast, hmiddle⟩ := hlines
  have herr : word "BEGIN" ≠ word "ERR" := by decide
  have hread := parseFrom_rows hlast hmiddle hrows []
  simp only [parseList, parseFrom, splitNutLine_row hfirst, isFrame_frame "BEGIN" what]
  simpa [herr] using hread

/-- A row with a mark in one of its words, and an empty row. -/
theorem parseList_printed_model :
    parseList (printList (word "VAR") [[word "VAR", word "ups", [mark, space, backslash]], []])
      (word "VAR") = .ok [[word "VAR", word "ups", [mark, space, backslash]], []] := by
  refine parseList_printed (printsList_printList _ _) fun row hrow => ?_
  rcases List.mem_cons.1 hrow with rfl | hrow
  · exact ⟨by decide, by decide, by decide⟩
  · obtain rfl := List.mem_singleton.1 hrow
    exact ⟨by decide, by decide, by decide⟩

end Nut
end Ups
end GateControl
