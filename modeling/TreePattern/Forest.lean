import TreePattern.Enumeration.Choices
import TreePattern.Forest.Sharing

/-!
# Pattern forests

The forest of a list of patterns holds every distinct subpattern once, as a node whose
children are members again. Members are numbered in the order in which they first appear when
the patterns are read in pre-order, one after the other; the wildcard is always a member and
takes the last number if no pattern mentions it.

Because a member is determined by its symbol and its children, the parents that a choice of
children can have are found by one look-up per choice (`Forest.addParents`).
-/

namespace TreePattern

structure Forest where
  nodes : Numbering .member (Node .member)
  /-- The number of the wildcard leaf. -/
  wildcard : MemberId
  idOf?_wildcard : nodes.idOf? ⟨Symbol.wildcardId, []⟩ = some wildcard

namespace Forest

-- ---------------------------------------------------------------------------
-- Building
-- ---------------------------------------------------------------------------

/-- Adds the wildcard leaf to the given nodes, unless it is among them. -/
def ofNodes (nodes : Numbering .member (Node .member)) : Forest where
  nodes := nodes.insert ⟨Symbol.wildcardId, []⟩
  wildcard := (nodes.intern ⟨Symbol.wildcardId, []⟩).1
  idOf?_wildcard := nodes.idOf?_insert_self _

/-- The forest of the given patterns, whose symbols must all be in the signature. -/
def build (sig : Signature) (patterns : List Tree) : Except BuildError Forest :=
  if patterns.isEmpty then
    .error .noPatterns
  else
    match Sharing.shareAll sig patterns .empty with
    | none => .error (.phaseOrder .forest .registration)
    | some (_, st) => .ok (ofNodes st.nodes)

-- ---------------------------------------------------------------------------
-- Members
-- ---------------------------------------------------------------------------

def size (f : Forest) : Nat := f.nodes.size

/-- The members, ascending. -/
def members (f : Forest) : List MemberId := f.nodes.ids

def node? (f : Forest) (i : MemberId) : Option (Node .member) := f.nodes.get? i

/-- The member with the given root and children. -/
def lookup? (f : Forest) (symbol : SymbolId) (children : List MemberId) : Option MemberId :=
  f.nodes.idOf? ⟨symbol, children⟩

/-- The member that is the leaf of the given symbol. -/
def leaf? (f : Forest) (symbol : SymbolId) : Option MemberId := f.lookup? symbol []

/-- The members with the given root symbol, ascending. -/
def withRoot (f : Forest) (symbol : SymbolId) : List MemberId :=
  f.members.filter fun i => (f.node? i).any fun node => node.symbol = symbol

/-- The member that is equal to `t`, with symbols named by `sig`. -/
def idOf? (f : Forest) (sig : Signature) : Tree → Option MemberId :=
  Tree.fold fun s children => do
    let symbol ← sig.idOf? s
    let children ← children.mapM id
    f.lookup? symbol children

/-- The tree of member `i`, read down to a depth of at most `height`. -/
def treeWithin (f : Forest) (sig : Signature) : Nat → MemberId → Option Tree
  | 0, _ => none
  | height + 1, i => do
    let node ← f.node? i
    let name ← sig.names.get? node.symbol
    let children ← node.children.mapM (f.treeWithin sig height)
    return .node name children

/-- The tree of member `i`, with symbols named by `sig`. The subtrees along a way down are
distinct members, so none is deeper than there are members. -/
def tree? (f : Forest) (sig : Signature) (i : MemberId) : Option Tree :=
  f.treeWithin sig f.size i

-- ---------------------------------------------------------------------------
-- Parents
-- ---------------------------------------------------------------------------

/-- Members found so far, and how many choices of children have been tried. -/
structure Parents where
  members : Std.TreeSet MemberId
  tried : Nat

/-- Looks for the member with root `op` over one choice of children. -/
def tryChildren (f : Forest) (op : SymbolId) (found : Parents) (children : List MemberId) :
    Parents where
  members :=
    match f.lookup? op children with
    | some i => found.members.insert i
    | none => found.members
  tried := found.tried + 1

/-- Adds to `into` the members with root `op` whose children are drawn from the slots. -/
def addParents (f : Forest) (op : SymbolId) (slots : List (Array MemberId))
    (into : Std.TreeSet MemberId) : Parents :=
  Enumeration.foldl (f.tryChildren op) ⟨into, 0⟩ (Choices.ofSlots slots)

/-- Whatever is collected was there before or is a member. -/
theorem mem_members_addParents (f : Forest) (op : SymbolId) (slots : List (Array MemberId))
    (into : Std.TreeSet MemberId) {i : MemberId}
    (h : i ∈ (f.addParents op slots into).members) : i ∈ into ∨ i ∈ f.members := by
  revert h
  refine Enumeration.foldl_induction (motive := fun found : Parents =>
    i ∈ found.members → i ∈ into ∨ i ∈ f.members) _ _ _ Or.inl fun found ih children _ h => ?_
  -- a try adds the member that is looked up, or nothing
  simp only [tryChildren] at h
  split at h
  · next j hj =>
    rcases Std.TreeSet.mem_insert.1 h with hij | hi
    · rw [Std.LawfulEqCmp.compare_eq_iff_eq] at hij
      exact Or.inr (Index.mem_range.2 (hij ▸ Numbering.val_lt_size_of_idOf? hj))
    · exact ih hi
  · exact ih h

/-- What was there stays. -/
theorem mem_addParents_of_mem (f : Forest) (op : SymbolId) (slots : List (Array MemberId))
    {into : Std.TreeSet MemberId} {i : MemberId} (h : i ∈ into) :
    i ∈ (f.addParents op slots into).members := by
  refine Enumeration.foldl_induction (motive := fun found : Parents => i ∈ found.members) _ _ _ h
    fun found ih children _ => ?_
  simp only [tryChildren]
  split
  · exact Std.TreeSet.mem_insert.2 (Or.inr ih)
  · exact ih

end Forest

end TreePattern
