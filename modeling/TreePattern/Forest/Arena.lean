import TreePattern.Forest.Forward

/-!
# Storing the members of a forest

A forest is asked for the node of a member, for the member that has a given node, and for the
members with a given root. Each question has its own store: the nodes by number, the numbers by
node, and the numbers by root symbol. A node that is added is entered into all three at once,
without a look whether it is there already. The nodes of a reading are all different, so none of
them overwrites another.
-/

namespace TreePattern

structure Arena where
  nodes : Array (Node .member)
  /-- The member that each node is. -/
  index : Std.TreeMap (Node .member) MemberId
  /-- The members with each root symbol, in the order in which they were added. -/
  byRoot : Std.TreeMap SymbolId (Array MemberId)

namespace Arena

def empty : Arena := ⟨#[], ∅, ∅⟩

/-- The members with the given root symbol. -/
def rootedAt (a : Arena) (symbol : SymbolId) : List MemberId := (a.byRoot.getD symbol #[]).toList

/-- Adds a node under the next number. -/
def push (a : Arena) (node : Node .member) : Arena where
  nodes := a.nodes.push node
  index := a.index.insert node ⟨a.nodes.size⟩
  byRoot := a.byRoot.insert node.symbol ((a.byRoot.getD node.symbol #[]).push ⟨a.nodes.size⟩)

/-- Adds the given nodes, and then the wildcard leaf unless it was among them. -/
def ofNodes (nodes : List (Node .member)) : Arena :=
  let a := nodes.foldl push empty
  let wildcard : Node .member := ⟨Symbol.wildcardId, []⟩
  if a.index.contains wildcard then a else a.push wildcard

end Arena

/-- The members of the forest of the given patterns, as they are stored. -/
def Forest.store (sig : Signature) (patterns : List Tree) : Except BuildError Arena :=
  if patterns.isEmpty then
    .error .noPatterns
  else
    match Sharing.readAll sig patterns .empty with
    | none => .error (.phaseOrder .forest .registration)
    | some (_, r) => do return Arena.ofNodes (← r.nodeList)

end TreePattern
