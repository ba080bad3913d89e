import TreePattern.Signature

/-!
# Sharing subtrees

Trees are stored so that equal subtrees are stored once. A stored node is a symbol and the
numbers of its children; since equal children have equal numbers, two subtrees are equal
exactly when their nodes are. Sharing goes bottom-up and names subtrees by handles, and it
notes for every node of the trees, in pre-order, which subtree stands there.
-/

namespace TreePattern

/-- A node whose children are given by their numbers. -/
structure Node (k : IndexKind) where
  symbol : SymbolId
  children : List (Index k)
deriving DecidableEq

namespace Node

variable {k : IndexKind}

/-- Nodes are ordered by symbol, then by children. -/
def order : Node k → Node k → Ordering :=
  compareLex (compareOn Node.symbol) (compareOn Node.children)

instance : Ord (Node k) := ⟨order⟩

instance : Std.TransOrd (Node k) :=
  inferInstanceAs (Std.TransCmp (compareLex (compareOn Node.symbol) (compareOn Node.children)))

instance : Std.LawfulEqOrd (Node k) where
  eq_of_compare {a b} h := by
    have h : compareLex (compareOn Node.symbol) (compareOn Node.children) a b = .eq := h
    rw [compareLex_eq_eq] at h
    obtain ⟨hs, hc⟩ := h
    cases a
    cases b
    rw [compareOn, Std.LawfulEqCmp.compare_eq_iff_eq] at hs hc
    simp_all

end Node

namespace Sharing

/-- The subtrees stored so far, each under its handle. -/
abbrev Pool := Numbering .handle (Node .handle)

/-- The state of sharing: the pool, and the subtrees at the nodes visited so far. -/
structure State where
  pool : Pool
  /-- One handle for each visited node, in pre-order. -/
  occurrences : List Handle

def State.empty : State := ⟨Numbering.empty, []⟩

mutual

/-- Stores a tree and returns its handle; `none` if the signature lacks one of its symbols.
The nodes of the tree are put in front of those visited before, so trees are to be shared
from the last to the first. -/
def share (sig : Signature) : Tree → State → Option (Handle × State)
  | .node s cs, st =>
    match sig.idOf? s, shareAll sig cs st with
    | some symbol, some (children, st) =>
      let (handle, pool) := st.pool.intern ⟨symbol, children⟩
      some (handle, ⟨pool, handle :: st.occurrences⟩)
    | _, _ => none

/-- Stores a list of trees, the last one first. -/
def shareAll (sig : Signature) : List Tree → State → Option (List Handle × State)
  | [], st => some ([], st)
  | t :: ts, st =>
    match shareAll sig ts st with
    | none => none
    | some (handles, st) =>
      match share sig t st with
      | none => none
      | some (handle, st) => some (handle :: handles, st)

end

/-- Replaces the handles of a node's children by their places in `order`. -/
def renumber (order : Numbering .member Handle) (node : Node .handle) : Node .member :=
  ⟨node.symbol, node.children.filterMap order.idOf?⟩

/-- The stored nodes in the order in which their subtrees first occur, children renumbered
accordingly. Every child of a stored node occurs itself, so none is lost. -/
def State.nodes (st : State) : Numbering .member (Node .member) :=
  let order : Numbering .member Handle := Numbering.ofList st.occurrences
  Numbering.ofList <| order.toList.filterMap fun handle =>
    (st.pool.get? handle).map (renumber order)

end Sharing

end TreePattern
