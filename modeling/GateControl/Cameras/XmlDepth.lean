import GateControl.Cameras.XmlRoundTrip
import Mathlib.Logic.Relation

/-!
# XmlDepth — how deep a tree can be

No element is opened inside 64 others, but a tag that closes itself is no element to be opened: it
is one level more there.  So a tree is as deep as it should be exactly if no such tag comes while
64 elements are open.
-/

namespace GateControl
namespace Cameras
namespace Xml

open Library
open RoseTree (sizes heights)

/-! ## Tags inside the innermost elements -/

def Markup.closesItself : Markup → Bool
  | .startTag _ selfClose => selfClose
  | _ => false

/-- The next markup of a text is a tag that closes itself. -/
def closesItself (s : Units) : Bool :=
  match cut [unit '<'] s with
  | none => false
  | some (_, behind) =>
      match readMarkup behind with
      | .error _ => false
      | .ok m => m.1.closesItself

/-- One turn of the loop. -/
def Turn (a b : Reader × Units) : Prop := a.2 ≠ [] ∧ a.1.step a.2 = .ok b

/-- No tag closes itself while as many elements are open as there may be. -/
def Shallow (r : Reader) (s : Units) : Prop :=
  ∀ r' t, Relation.ReflTransGen Turn (r, s) (r', t) → r'.opened.level = maxDepth →
    closesItself t = false

section Turns

variable {r r' : Reader} {s s' : Units}

theorem turn_shortens {a b : Reader × Units} (h : Turn a b) : b.2.length < a.2.length :=
  Reader.length_of_step h.1 h.2

/-- At its end a text has no tag. -/
theorem shallow_nil (r : Reader) : Shallow r [] := by
  intro r' t hpass _
  obtain h | ⟨b, hturn, -⟩ := hpass.cases_head
  · cases h
    rfl
  · exact absurd rfl hturn.1

theorem shallow_iff (hs : s ≠ []) (h : r.step s = .ok (r', s')) :
    Shallow r s ↔ (r.opened.level = maxDepth → closesItself s = false) ∧ Shallow r' s' := by
  constructor
  · intro hall
    exact ⟨hall r s .refl, fun r'' t hpass => hall r'' t (.head ⟨hs, h⟩ hpass)⟩
  · rintro ⟨hhere, hall⟩ r'' t hpass
    obtain heq | ⟨b, hturn, hpass⟩ := hpass.cases_head
    · cases heq
      exact hhere
    · -- there is one turn from each place
      obtain rfl : b = (r', s') := Except.ok.inj (hturn.2.symm.trans h)
      exact hall r'' t hpass

/-! ## What a turn does to the tree -/

/-- The reader counts the elements, and its stack has its bound. -/
structure Within (r : Reader) : Prop where
  size : r.opened.tree.size = r.nodes + 1
  nodes : r.nodes ≤ maxNodes
  level : r.opened.level ≤ maxDepth

theorem within_start : Within Reader.start := ⟨by decide, by decide, by decide⟩

theorem Within.addText (h : Within r) (t : Units) : Within (r.addText t) where
  size := (OpenTree.size_tree_relabel _ r.opened).trans h.size
  nodes := h.nodes
  level := h.level

theorem height_addText (t : Units) (r : Reader) :
    (r.addText t).opened.tree.height = r.opened.tree.height :=
  OpenTree.height_tree_relabel _ r.opened

/-- A new element is counted, and it is one level below the innermost one. -/
theorem Within.leaf (h : Within r) {e : Element} {o : OpenTree Element}
    (htree : o.tree = (r.opened.add (.node e [])).tree) (hnodes : ¬ r.nodes + 1 > maxNodes)
    (hlevel : o.level ≤ maxDepth) :
    Within ⟨o, r.nodes + 1⟩ ∧
      o.tree.height = max r.opened.tree.height (r.opened.level + 2) := by
  rw [htree, OpenTree.height_tree_leaf]
  refine ⟨⟨?_, Nat.not_lt.1 hnodes, hlevel⟩, rfl⟩
  rw [htree, OpenTree.size_tree_leaf, h.size]

/-- The tree is one level too deep from the first tag on that closes itself in the innermost
element. -/
theorem Within.apply (h : Within r) {m : Markup} (happly : r.apply m = .ok r') :
    Within r' ∧ (r'.opened.tree.height ≤ maxDepth + 1 ↔
      r.opened.tree.height ≤ maxDepth + 1 ∧
        (r.opened.level = maxDepth → m.closesItself = false)) := by
  have hlevel := h.level
  cases m with
  | comment =>
      cases happly
      exact ⟨h, (and_iff_left fun _ => rfl).symm⟩
  | declaration =>
      cases happly
      exact ⟨h, (and_iff_left fun _ => rfl).symm⟩
  | cdata t =>
      cases happly
      rw [height_addText]
      exact ⟨h.addText t, (and_iff_left fun _ => rfl).symm⟩
  | endTag name =>
      cases happly
      rw [OpenTree.tree_leave]
      refine ⟨⟨?_, h.nodes, ?_⟩, (and_iff_left fun _ => rfl).symm⟩
      · rw [OpenTree.tree_leave]
        exact h.size
      · exact Nat.le_trans (OpenTree.level_leave _ _) hlevel
  | startTag e selfClose =>
      rw [Reader.apply] at happly
      split at happly
      · cases happly
      · rename_i hnodes
        cases selfClose with
        | true =>
            cases happly
            obtain ⟨hwithin, hheight⟩ := h.leaf rfl hnodes hlevel
            refine ⟨hwithin, ?_⟩
            rw [hheight, Markup.closesItself, Bool.true_eq_false, imp_false]
            omega
        | false =>
            rw [if_neg Bool.false_ne_true] at happly
            split at happly
            · cases happly
            · -- an element that is opened has its own level still in the bound
              rename_i hdepth
              cases happly
              have hdepth' : r.opened.level + 1 ≤ maxDepth := Nat.not_lt.1 hdepth
              obtain ⟨hwithin, hheight⟩ :=
                h.leaf (OpenTree.tree_enter (.node e []) r.opened) hnodes hdepth'
              refine ⟨hwithin, ?_⟩
              rw [hheight, Markup.closesItself]
              omega

theorem Within.step (h : Within r) (hstep : r.step s = .ok (r', s')) :
    Within r' ∧ (r'.opened.tree.height ≤ maxDepth + 1 ↔
      r.opened.tree.height ≤ maxDepth + 1 ∧
        (r.opened.level = maxDepth → closesItself s = false)) := by
  obtain ⟨hcut, rfl, rfl⟩ | ⟨t, behind, m, hcut, hmarkup, happly⟩ := Reader.step_cases hstep
  · rw [height_addText, closesItself, hcut]
    exact ⟨h.addText _, (and_iff_left fun _ => rfl).symm⟩
  · have hnext := (h.addText (decode t)).apply happly
    rw [height_addText] at hnext
    rw [closesItself, hcut]
    simp only [hmarkup]
    exact hnext

theorem Within.run {root : Node} (h : Within r) (hrun : r.run s = .ok root) :
    root.size ≤ maxNodes + 1 ∧ (root.height ≤ maxDepth + 1 ↔
      r.opened.tree.height ≤ maxDepth + 1 ∧ Shallow r s) := by
  induction hlength : s.length using Nat.strong_induction_on generalizing r s with
  | h n ih =>
      by_cases hs : s = []
      · subst hs
        rw [Reader.run, dif_pos rfl] at hrun
        cases hrun
        have hnodes := h.nodes
        exact ⟨by rw [h.size]; omega, (and_iff_left (shallow_nil r)).symm⟩
      · rw [Reader.run_eq hs] at hrun
        cases hstep : r.step s with
        | error e =>
            rw [hstep] at hrun
            cases hrun
        | ok next =>
            rw [hstep] at hrun
            obtain ⟨hnext, hturn⟩ := h.step hstep
            obtain ⟨hsize, hheight⟩ :=
              ih next.2.length (hlength ▸ Reader.length_of_step hs hstep) hnext hrun rfl
            refine ⟨hsize, ?_⟩
            rw [hheight, hturn, shallow_iff hs hstep, and_assoc]

end Turns

/-- The loop cannot go on for ever. -/
theorem acc_turn (a : Reader × Units) : Acc (fun b a => Turn a b) a :=
  Subrelation.accessible turn_shortens
    ((measure fun a : Reader × Units => a.2.length).wf.apply a)

/-- A printed tree is read as it is.  On any text the loop comes to its end, and what is read has no
more elements than it may.  It is no deeper than it may be if and only if no tag closes itself in
the innermost element. -/
theorem parse_reads_and_bounds (s : Units) :
    (∀ t : Node, t.Every Named → t.height ≤ maxDepth → t.size ≤ maxNodes → Prints t s →
      parse s = .ok (.node rootElement [t])) ∧
    Acc (fun b a => Turn a b) (Reader.start, s) ∧
    ∀ root : Node, parse s = .ok root → sizes root.children ≤ maxNodes ∧
      (heights root.children ≤ maxDepth ↔ Shallow Reader.start s) := by
  refine ⟨fun t hnamed hheight hsize h => parse_prints h hnamed hheight hsize, acc_turn _,
    fun root hparse => ?_⟩
  obtain ⟨hsize, hheight⟩ := within_start.run hparse
  rw [RoseTree.size_eq] at hsize
  rw [RoseTree.height_eq] at hheight
  have hstart : Reader.start.opened.tree.height ≤ maxDepth + 1 := by
    decide
  refine ⟨Nat.le_of_succ_le_succ hsize, ?_⟩
  rw [← Nat.succ_le_succ_iff]
  exact hheight.trans (and_iff_right hstart)

/-- An element in another of its name, with marks in its attribute. -/
def sampleTree : Node :=
  .node ⟨units "a".toList, .empty, units "1 < 2".toList⟩
    [.node ⟨units "a".toList, .ofList [(units "k".toList, units "'&'".toList)], []⟩ []]

def sampleText : Units :=
  units "<p:a xmlns:p=\"u\">1 &lt; 2<a q:k='&apos;&amp;&apos;'/></p:a>".toList

theorem prints_sampleTree : Prints sampleTree sampleText := by
  have hp : ∀ p ∈ some (units "p".toList), isName p = true := by
    intro p hp
    obtain rfl := Option.some.inj hp
    decide
  have hq : ∀ q ∈ some (units "q".toList), isName q = true ∧ q ≠ xmlnsName := by
    intro q hq
    obtain rfl := Option.some.inj hq
    decide
  have hnone : ∀ p ∈ (none : Option Units), isName p = true :=
    fun _ h => absurd h (Option.not_mem_none _)
  have hattr : PrintsAttrs [(units "k".toList, units "'&'".toList)] _ :=
    .attr hq (show isQuote (unit '\'') = true by decide) .nil
  have hdecl : PrintsAttrs [] (attrText _ _ (units "u".toList) []) :=
    .declaration hp (show isQuote (unit '"') = true by decide) .nil
  have hinner : Prints (.node ⟨units "a".toList, .ofList [(units "k".toList, units "'&'".toList)],
      []⟩ []) _ := .empty hnone hattr rfl
  have houter : Prints sampleTree _ := .element hp hdecl (.cons hinner .nil)
  have hsame : ∀ s, Prints sampleTree s → s = sampleText → Prints sampleTree sampleText := by
    rintro s h rfl
    exact h
  exact hsame _ houter (by decide +kernel)

theorem named_sampleTree : sampleTree.Every Named := by
  have hkey : ∀ key ∈ (OrderedMap.ofList [(units "k".toList, units "'&'".toList)]).keys,
      isName key = true ∧ key ≠ xmlnsName ∧ key ≠ protoKey := by
    intro key h
    obtain rfl : key = units "k".toList := List.mem_singleton.1 h
    decide
  have hnone : ∀ key ∈ (OrderedMap.empty : OrderedMap Units Units).keys,
      isName key = true ∧ key ≠ xmlnsName ∧ key ≠ protoKey :=
    fun key h => absurd h List.not_mem_nil
  exact ⟨⟨by decide, hnone⟩, ⟨⟨by decide, hkey⟩, trivial⟩, trivial⟩

theorem parse_reads_and_bounds_sample :
    parse sampleText = .ok (.node rootElement [sampleTree]) ∧ Shallow Reader.start sampleText := by
  have hparse := (parse_reads_and_bounds sampleText).1 sampleTree named_sampleTree (by decide)
    (by decide) prints_sampleTree
  exact ⟨hparse, ((parse_reads_and_bounds sampleText).2.2 _ hparse).2.1 (by decide)⟩

/-- A tag that closes itself, inside 64 elements. -/
def deepText : Units := (List.replicate 64 (units "<a>".toList)).flatten ++ units "<b/>".toList

/-- The same element with an end tag. -/
def refusedText : Units :=
  (List.replicate 64 (units "<a>".toList)).flatten ++ units "<b></b>".toList

theorem parse_deepText : ∃ root, parse deepText = .ok root ∧
    heights root.children = maxDepth + 1 ∧ parse refusedText = .error .tooDeep := by
  have hheight : (parse deepText).toOption.map (fun root => heights root.children) =
      some (maxDepth + 1) := by
    decide +kernel
  have hrefused : (match parse refusedText with
      | .ok _ => none
      | .error e => some e) = some XmlError.tooDeep := by
    decide +kernel
  cases hdeep : parse deepText with
  | error e =>
      rw [hdeep] at hheight
      cases hheight
  | ok root =>
      rw [hdeep] at hheight
      refine ⟨root, rfl, Option.some.inj hheight, ?_⟩
      cases h : parse refusedText with
      | error e =>
          rw [h] at hrefused
          exact congrArg Except.error (Option.some.inj hrefused)
      | ok root =>
          rw [h] at hrefused
          cases hrefused

end Xml
end Cameras
end GateControl
