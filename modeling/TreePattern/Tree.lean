import TreePattern.Total

/-!
# Trees

Patterns and input trees are the same data: a node with a symbol and its children in order.
Read as a pattern, the leaf named `*` stands for any tree; as part of an input it is a leaf
like any other.

`Tree.fold` is the one bottom-up recursion, and `Tree.preOrder` lists the subtrees of a tree,
each node before its children.
-/

namespace TreePattern

/-- The symbol of the wildcard. -/
def wildcardSymbol : String := "*"

/-- A node with its children, left to right. -/
inductive Tree where
  | node (symbol : String) (children : List Tree)
deriving Inhabited

namespace Tree

/-- What holds of a node whenever it holds of its children holds of every tree. -/
@[elab_as_elim, induction_eliminator]
theorem induction {motive : Tree → Prop}
    (node : ∀ s cs, (∀ c ∈ cs, motive c) → motive (.node s cs)) (t : Tree) : motive t :=
  t.rec (motive_2 := fun cs => ∀ c ∈ cs, motive c) (fun s cs ih => node s cs ih) (by simp)
    (fun c cs hc ih => by
      intro d hd
      rcases List.mem_cons.1 hd with rfl | hd
      · exact hc
      · exact ih d hd)

-- ---------------------------------------------------------------------------
-- Equality
-- ---------------------------------------------------------------------------

mutual

private def decEq : (a b : Tree) → Decidable (a = b)
  | .node s as, .node t bs =>
    haveI := decEqAll as bs
    decidable_of_iff (s = t ∧ as = bs) (by simp)

private def decEqAll : (as bs : List Tree) → Decidable (as = bs)
  | [], [] => isTrue rfl
  | a :: as, b :: bs =>
    haveI := decEq a b
    haveI := decEqAll as bs
    decidable_of_iff (a = b ∧ as = bs) (by simp)
  | [], _ :: _ => isFalse (by simp)
  | _ :: _, [] => isFalse (by simp)

end

instance : DecidableEq Tree := decEq

-- ---------------------------------------------------------------------------
-- Bottom-up recursion
-- ---------------------------------------------------------------------------

section Fold

variable {β : Type}

mutual

/-- Computes a value for every node from its symbol and the values of its children. -/
def fold (f : String → List β → β) : Tree → β
  | .node s cs => f s (foldAll f cs)

/-- `fold` on each tree of a list. -/
def foldAll (f : String → List β → β) : List Tree → List β
  | [] => []
  | t :: ts => fold f t :: foldAll f ts

end

/-- The fold over a list of trees folds each of them. -/
theorem foldAll_eq_map (f : String → List β → β) (ts : List Tree) :
    foldAll f ts = ts.map (fold f) := by
  induction ts with
  | nil => rfl
  | cons t ts ih => rw [foldAll, ih, List.map_cons]

/-- A fold at a node combines the folds of the children. -/
theorem fold_node (f : String → List β → β) (s : String) (cs : List Tree) :
    fold f (.node s cs) = f s (cs.map (fold f)) := by
  rw [fold, foldAll_eq_map]

end Fold

-- ---------------------------------------------------------------------------
-- Parts of a tree
-- ---------------------------------------------------------------------------

def leaf (s : String) : Tree := .node s []

/-- The pattern that every tree matches. -/
def wildcard : Tree := leaf wildcardSymbol

def symbol : Tree → String
  | .node s _ => s

def children : Tree → List Tree
  | .node _ cs => cs

def arity (t : Tree) : Nat := t.children.length

def isLeaf (t : Tree) : Bool := t.children.isEmpty

/-- Only a leaf is a wildcard; a node named `*` that has children is not. -/
def isWildcard (t : Tree) : Bool := t.symbol == wildcardSymbol && t.isLeaf

/-- The number of nodes. -/
def size : Tree → Nat := fold fun _ ns => total ns + 1

/-- The number of nodes on the longest way down, the root included. -/
def depth : Tree → Nat := fold fun _ ns => ns.foldr max 0 + 1

mutual

/-- The subtrees, each node before those of its children. -/
def preOrder : Tree → List Tree
  | .node s cs => .node s cs :: preOrderAll cs

/-- The subtrees of each tree of a list, one tree after the other. -/
def preOrderAll : List Tree → List Tree
  | [] => []
  | t :: ts => preOrder t ++ preOrderAll ts

end

theorem preOrderAll_eq_flatMap (ts : List Tree) : preOrderAll ts = ts.flatMap preOrder := by
  induction ts with
  | nil => rfl
  | cons t ts ih => rw [preOrderAll, ih, List.flatMap_cons]

/-- The pre-order lists the node and then what its children list. -/
theorem preOrder_eq (t : Tree) : t.preOrder = t :: t.children.flatMap preOrder := by
  cases t with
  | node s cs => rw [preOrder, preOrderAll_eq_flatMap, children]

theorem mem_preOrder_self (t : Tree) : t ∈ t.preOrder := by
  rw [preOrder_eq]; exact List.mem_cons_self

/-- A node adds itself to the sizes of its children. -/
theorem size_node (s : String) (cs : List Tree) :
    (node s cs).size = total (cs.map size) + 1 := by
  rw [size, fold_node]

/-- A node is one deeper than its deepest child. -/
theorem depth_node (s : String) (cs : List Tree) :
    (node s cs).depth = (cs.map depth).foldr max 0 + 1 := by
  rw [depth, fold_node]

/-- The size is the number of nodes. -/
theorem length_preOrder (t : Tree) : t.preOrder.length = t.size := by
  induction t with
  | node s cs ih =>
    rw [preOrder_eq, size_node, List.length_cons, List.length_flatMap]
    exact congrArg (total · + 1) (List.map_congr_left ih)

-- ---------------------------------------------------------------------------
-- Text
-- ---------------------------------------------------------------------------

/-- The tree in parentheses: the symbol as it is, then each child after a blank. -/
def render : Tree → String :=
  fold fun s texts => "(" ++ s ++ String.join (texts.map (" " ++ ·)) ++ ")"

theorem render_node (s : String) (cs : List Tree) :
    (node s cs).render = "(" ++ s ++ String.join ((cs.map render).map (" " ++ ·)) ++ ")" :=
  fold_node ..

end Tree

end TreePattern
