import TreePattern.Tree.Walk

/-!
# Walking a tree with a stack

The subtrees that a walk has still to enter can be kept on a stack, the next one on top. A step
takes it from there and puts its children in its place, the first child topmost. A walk changes
nothing but its own stack, so a tree can be entered again while a walk through it is under way.

Read from top to bottom the stack is what a `Tree.Walk` keeps, and both take the same steps.
-/

namespace TreePattern

/-- The subtrees still to enter, from the bottom of the stack to its top. -/
structure Tree.Stack where
  trees : Array Tree

namespace Tree

namespace Stack

/-- The stack of a walk that starts at the root. -/
def ofTree (t : Tree) : Stack := ⟨#[t]⟩

/-- The next node, unless there is none, and the stack after it. -/
def next (s : Stack) : Option Tree × Stack :=
  match s.trees.back? with
  | none => (none, s)
  | some t => (some t, ⟨s.trees.pop ++ t.children.reverse⟩)

/-- The walk that has the trees of the stack still to enter. -/
def toWalk (s : Stack) : Walk := ⟨s.trees.toList.reverse⟩

/-- A stack and its walk take the same step. -/
theorem next?_toWalk (s : Stack) :
    Enumeration.next? s.toWalk = s.next.1.map fun t => (t, s.next.2.toWalk) := by
  obtain ⟨⟨ts⟩⟩ := s
  rcases List.eq_nil_or_concat ts with rfl | ⟨ts, t, rfl⟩
  · rfl
  · simp [toWalk, next, Enumeration.next?]

instance : Enumeration Stack Tree where
  next? s := s.next.1.map (·, s.next.2)
  remaining s := Enumeration.remaining s.toWalk
  remaining_lt {s t s'} h := by
    obtain ⟨u, hu, heq⟩ := Option.map_eq_some_iff.1 h
    cases heq
    refine Enumeration.remaining_lt (a := t) ?_
    rw [next?_toWalk, hu]
    rfl

end Stack

/-- The number of nodes that a walk with a stack comes by. -/
def countNodes (t : Tree) : Nat := Enumeration.count (Stack.ofTree t)

end Tree

end TreePattern
