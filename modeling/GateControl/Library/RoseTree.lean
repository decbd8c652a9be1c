import Mathlib.Order.Lattice

/-!
# RoseTree — trees that are built from left to right

A node has any number of children.  While a tree is built, the nodes on one way down from its root
are open: each is the last child of the one before, and only the innermost grows.  `OpenTree` keeps
these nodes apart, and `OpenTree.tree` is the tree as it stands, with the open nodes in their
places.  To enter a node or to leave it moves the place that grows, and the tree with it is what it
was.
-/

namespace GateControl
namespace Library

/-- A tree with a list of children at each node. -/
inductive RoseTree (α : Type*)
  | node (label : α) (children : List (RoseTree α))

namespace RoseTree

variable {α : Type*}

def label : RoseTree α → α
  | node a _ => a

def children : RoseTree α → List (RoseTree α)
  | node _ ts => ts

/-! ## Size and height -/

mutual

/-- The number of nodes. -/
def size : RoseTree α → Nat
  | node _ ts => sizes ts + 1

def sizes : List (RoseTree α) → Nat
  | [] => 0
  | t :: ts => t.size + sizes ts

end

mutual

/-- The number of levels. -/
def height : RoseTree α → Nat
  | node _ ts => heights ts + 1

def heights : List (RoseTree α) → Nat
  | [] => 0
  | t :: ts => max t.height (heights ts)

end

theorem size_eq (t : RoseTree α) : t.size = sizes t.children + 1 := by
  cases t
  rw [size, children]

theorem height_eq (t : RoseTree α) : t.height = heights t.children + 1 := by
  cases t
  rw [height, children]

theorem sizes_append (ts us : List (RoseTree α)) : sizes (ts ++ us) = sizes ts + sizes us := by
  induction ts with
  | nil =>
      rw [List.nil_append, sizes, Nat.zero_add]
  | cons t ts ih =>
      rw [List.cons_append, sizes, sizes, ih, Nat.add_assoc]

theorem heights_append (ts us : List (RoseTree α)) :
    heights (ts ++ us) = max (heights ts) (heights us) := by
  induction ts with
  | nil =>
      rw [List.nil_append, heights, Nat.zero_max]
  | cons t ts ih =>
      rw [List.cons_append, heights, heights, ih, Nat.max_assoc]

/-! ## Changes at a node -/

def relabel (f : α → α) : RoseTree α → RoseTree α
  | node a ts => node (f a) ts

/-- One more child, behind the others. -/
def addChild : RoseTree α → RoseTree α → RoseTree α
  | node a ts, c => node a (ts ++ [c])

theorem size_relabel (f : α → α) (t : RoseTree α) : (t.relabel f).size = t.size := by
  cases t
  rw [relabel, size, size]

theorem height_relabel (f : α → α) (t : RoseTree α) : (t.relabel f).height = t.height := by
  cases t
  rw [relabel, height, height]

theorem size_addChild (t c : RoseTree α) : (t.addChild c).size = t.size + c.size := by
  cases t
  rw [addChild, size, size, sizes_append, sizes, sizes]
  omega

theorem height_addChild (t c : RoseTree α) :
    (t.addChild c).height = max t.height (c.height + 1) := by
  cases t
  rw [addChild, height, height, heights_append, heights, heights]
  omega

mutual

/-- A property of each label. -/
def Every (p : α → Prop) : RoseTree α → Prop
  | node a ts => p a ∧ EveryOf p ts

def EveryOf (p : α → Prop) : List (RoseTree α) → Prop
  | [] => True
  | t :: ts => t.Every p ∧ EveryOf p ts

end

end RoseTree

/-- A tree that is being built: the node that grows, and the nodes around it, from the inside.  None
of them has the next one among its children yet. -/
structure OpenTree (α : Type*) where
  top : RoseTree α
  around : List (RoseTree α)

namespace OpenTree

open RoseTree

variable {α : Type*}

/-- Close all nodes around a tree. -/
def closeAll (t : RoseTree α) : List (RoseTree α) → RoseTree α
  | [] => t
  | p :: around => closeAll (p.addChild t) around

/-- The tree as it stands. -/
def tree (o : OpenTree α) : RoseTree α := closeAll o.top o.around

/-- How far the node that grows is below the root. -/
def level (o : OpenTree α) : Nat := o.around.length

/-! ## Operations -/

def relabel (f : α → α) (o : OpenTree α) : OpenTree α := { o with top := o.top.relabel f }

/-- A child that is complete. -/
def add (c : RoseTree α) (o : OpenTree α) : OpenTree α := { o with top := o.top.addChild c }

/-- A child that grows from now on. -/
def enter (c : RoseTree α) (o : OpenTree α) : OpenTree α := ⟨c, o.top :: o.around⟩

/-- Close the nodes up to the first one that fits; the root is never closed. -/
def closeTo (p : α → Bool) (t : RoseTree α) : List (RoseTree α) → Option (OpenTree α)
  | [] => none
  | q :: around =>
      if p t.label then some ⟨q.addChild t, around⟩ else closeTo p (q.addChild t) around

/-- Leave the innermost node that fits, if there is one. -/
def leave (p : α → Bool) (o : OpenTree α) : OpenTree α := (closeTo p o.top o.around).getD o

/-! ## The tree behind them -/

theorem tree_enter (c : RoseTree α) (o : OpenTree α) : (o.enter c).tree = (o.add c).tree := rfl

theorem level_enter (c : RoseTree α) (o : OpenTree α) : (o.enter c).level = o.level + 1 := rfl

theorem closeTo_spec {p : α → Bool} {t : RoseTree α} {around : List (RoseTree α)}
    {o : OpenTree α} (h : closeTo p t around = some o) :
    o.tree = closeAll t around ∧ o.level ≤ around.length := by
  induction around generalizing t with
  | nil =>
      exact absurd h nofun
  | cons q around ih =>
      rw [closeTo] at h
      split at h
      · cases h
        exact ⟨rfl, Nat.le_succ _⟩
      · obtain ⟨htree, hlevel⟩ := ih h
        exact ⟨htree, Nat.le_succ_of_le hlevel⟩

/-- To close nodes changes nothing in the tree. -/
theorem tree_leave (p : α → Bool) (o : OpenTree α) : (o.leave p).tree = o.tree := by
  rw [leave]
  cases h : closeTo p o.top o.around with
  | none => rfl
  | some o' => exact (closeTo_spec h).1

theorem level_leave (p : α → Bool) (o : OpenTree α) : (o.leave p).level ≤ o.level := by
  rw [leave]
  cases h : closeTo p o.top o.around with
  | none => exact Nat.le_refl _
  | some o' => exact (closeTo_spec h).2

/-- A node that is entered, grows and fits is left as a child. -/
theorem leave_enter {p : α → Bool} {c : RoseTree α} (hp : p c.label = true) (o : OpenTree α) :
    (o.enter c).leave p = o.add c := by
  rw [leave, enter, closeTo, if_pos hp]
  rfl

theorem size_closeAll {t u : RoseTree α} {n : Nat} (h : u.size = t.size + n)
    (around : List (RoseTree α)) : (closeAll u around).size = (closeAll t around).size + n := by
  induction around generalizing t u with
  | nil =>
      exact h
  | cons q around ih =>
      refine ih ?_
      rw [size_addChild, size_addChild, h, Nat.add_assoc]

theorem height_closeAll {t u : RoseTree α} {n : Nat} (h : u.height = max t.height n)
    (around : List (RoseTree α)) :
    (closeAll u around).height = max (closeAll t around).height (n + around.length) := by
  induction around generalizing t u n with
  | nil =>
      exact h
  | cons q around ih =>
      have hnext : (q.addChild u).height = max (q.addChild t).height (n + 1) := by
        rw [height_addChild, height_addChild, h]
        omega
      rw [closeAll, closeAll, ih hnext, List.length_cons, Nat.add_right_comm, Nat.add_assoc]

theorem size_tree_add (c : RoseTree α) (o : OpenTree α) :
    (o.add c).tree.size = o.tree.size + c.size :=
  size_closeAll (size_addChild o.top c) o.around

theorem height_tree_add (c : RoseTree α) (o : OpenTree α) :
    (o.add c).tree.height = max o.tree.height (c.height + 1 + o.level) :=
  height_closeAll (height_addChild o.top c) o.around

theorem size_tree_leaf (a : α) (o : OpenTree α) :
    (o.add (.node a [])).tree.size = o.tree.size + 1 := by
  rw [size_tree_add, size, sizes]

theorem height_tree_leaf (a : α) (o : OpenTree α) :
    (o.add (.node a [])).tree.height = max o.tree.height (o.level + 2) := by
  rw [height_tree_add, height, heights]
  omega

theorem size_tree_relabel (f : α → α) (o : OpenTree α) : (o.relabel f).tree.size = o.tree.size :=
  size_closeAll (n := 0) (size_relabel f o.top) o.around

theorem height_tree_relabel (f : α → α) (o : OpenTree α) :
    (o.relabel f).tree.height = o.tree.height := by
  have hsame : ∀ (around : List (RoseTree α)) (t u : RoseTree α), u.height = t.height →
      (closeAll u around).height = (closeAll t around).height := by
    intro around
    induction around with
    | nil =>
        intro t u h
        exact h
    | cons q around ih =>
        intro t u h
        refine ih _ _ ?_
        rw [height_addChild, height_addChild, h]
  exact hsame o.around _ _ (height_relabel f o.top)

end OpenTree

end Library
end GateControl
