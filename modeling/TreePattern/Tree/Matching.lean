import TreePattern.Tree

/-!
# Matching

What it means for a pattern to match a tree, said directly: the wildcard leaf matches every
tree, and any other pattern matches the trees that have the same symbol at the root, as many
children, and children that the pattern's children match one by one.
-/

namespace TreePattern

namespace Tree

mutual

/-- Whether the pattern on the left matches the tree on the right. -/
def accepts : Tree → Tree → Bool
  | .node s ps, t => (node s ps).isWildcard || (s == t.symbol && acceptsAll ps t.children)

/-- Whether two lists are equally long and the patterns of the first match the trees of the
second one by one. -/
def acceptsAll : List Tree → List Tree → Bool
  | [], [] => true
  | p :: ps, t :: ts => accepts p t && acceptsAll ps ts
  | [], _ :: _ => false
  | _ :: _, [] => false

end

/-- The pattern `p` matches the tree `t`. -/
def Matches (p t : Tree) : Prop := p.accepts t = true

instance (p t : Tree) : Decidable (Matches p t) := inferInstanceAs (Decidable (_ = true))

/-- Lists of patterns accept lists of trees of the same length, one by one. -/
theorem acceptsAll_iff {ps ts : List Tree} :
    acceptsAll ps ts = true ↔ ps.length = ts.length ∧ ∀ q ∈ ps.zip ts, Matches q.1 q.2 := by
  induction ps generalizing ts with
  | nil => cases ts <;> simp [acceptsAll]
  | cons p ps ih =>
    cases ts with
    | nil => simp [acceptsAll]
    | cons t ts => simp [acceptsAll, ih, Matches, and_left_comm]

/-- The wildcard matches every tree. -/
theorem matches_wildcard (t : Tree) : Matches wildcard t := by
  simp [Matches, wildcard, leaf, accepts, isWildcard, isLeaf, symbol, children]

/-- A pattern that is not the wildcard matches node by node. -/
theorem matches_node_iff {s r : String} {ps ts : List Tree} (h : ¬ (node s ps).isWildcard) :
    Matches (node s ps) (node r ts) ↔
      s = r ∧ ps.length = ts.length ∧ ∀ q ∈ ps.zip ts, Matches q.1 q.2 := by
  rw [← acceptsAll_iff]
  simp [Matches, accepts, h, symbol, children]

end Tree

end TreePattern
