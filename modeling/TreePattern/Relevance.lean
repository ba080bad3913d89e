import TreePattern.Forest

/-!
# Relevance projection

For an operator and one of its argument positions, the members that stand there under some
member with that operator at its root. Only these can decide which members match at a node, so
a child's match set may be restricted to them.
-/

namespace TreePattern

structure Relevance where
  /-- For each operator, the relevant members of its slots, first slot first. -/
  slots : Std.TreeMap SymbolId (List (Std.TreeSet MemberId))

namespace Relevance

-- ---------------------------------------------------------------------------
-- Computing
-- ---------------------------------------------------------------------------

/-- The children at position `k` of the members rooted at `symbol`. -/
def childrenAt (f : Forest) (symbol : SymbolId) (k : Nat) : List MemberId :=
  (f.withRoot symbol).filterMap fun i => (f.node? i).bind fun node => node.children[k]?

def slotsOf (f : Forest) (op : Symbol) : List (Std.TreeSet MemberId) :=
  (List.range op.arity).map fun k => Std.TreeSet.ofList (childrenAt f op.id k)

/-- No member rooted at `op` has more children than `op` has slots. -/
def fits (f : Forest) (op : Symbol) : Bool :=
  (f.withRoot op.id).all fun i => (f.node? i).all fun node => node.children.length ≤ op.arity

/-- The projection for every operator of the signature. A forest that was built for another
signature may hold members that do not fit. -/
def ofForest (sig : Signature) (f : Forest) : Except BuildError Relevance :=
  if sig.operators.all (fits f) then
    .ok ⟨Std.TreeMap.ofList (sig.operators.map fun op => (op.id, slotsOf f op))⟩
  else
    .error .outOfRange

-- ---------------------------------------------------------------------------
-- Reading
-- ---------------------------------------------------------------------------

/-- The relevant members of slot `k`; `none` outside the slots of an operator. -/
def slot? (r : Relevance) (op : SymbolId) (k : Nat) : Option (Std.TreeSet MemberId) :=
  r.slots[op]?.bind fun slots => slots[k]?

def contains (r : Relevance) (op : SymbolId) (k : Nat) (i : MemberId) : Bool :=
  (r.slot? op k).any fun members => members.contains i

/-- The part of a match set that is relevant in slot `k`, in the same order. -/
def restrict (r : Relevance) (op : SymbolId) (k : Nat) (set : List MemberId) : List MemberId :=
  match r.slot? op k with
  | some members => set.filter fun i => members.contains i
  | none => []

def arity (r : Relevance) (op : SymbolId) : Nat :=
  (r.slots[op]?.map List.length).getD 0

/-- The number of operators the projection covers. -/
def operatorCount (r : Relevance) : Nat := r.slots.size

/-- The number of members in all slots of all operators. -/
def entries (r : Relevance) : Nat :=
  total (r.slots.toList.map fun entry => total (entry.2.map Std.TreeSet.size))

end Relevance

end TreePattern
