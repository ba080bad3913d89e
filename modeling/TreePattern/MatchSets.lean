import TreePattern.Forest

/-!
# Match sets

A match set holds the members of a forest that match one and the same tree, ascending; each
distinct one is a state of the automaton. The table of the sets found so far numbers them in
the order of discovery. It starts with the sets of the leaves: the set of the wildcard alone,
which is always the state 0, then one set for each terminal that is a member, by name.
-/

namespace TreePattern

structure MatchSets where
  sets : Numbering .matchSet (List MemberId)
  /-- The wildcard's number, which is in every set. -/
  wildcard : MemberId
  get?_zero : sets.get? ⟨0⟩ = some [wildcard]

/-- What the tables of the operators ask of the match sets. -/
structure States where
  /-- The sets in the order of their numbers. -/
  sets : List (List MemberId)
  /-- The number of a set, given as an ascending list. -/
  idOf? : List MemberId → Option StateId

namespace MatchSets

-- ---------------------------------------------------------------------------
-- Reading
-- ---------------------------------------------------------------------------

/-- The state of a tree that only the wildcard matches. -/
def wildcardState : StateId := ⟨0⟩

def size (table : MatchSets) : Nat := table.sets.size

/-- The sets by number. -/
def toList (table : MatchSets) : List (List MemberId) := table.sets.toList

def get? (table : MatchSets) (state : StateId) : Option (List MemberId) := table.sets.get? state

/-- The number of a set, given as an ascending list. -/
def idOf? (table : MatchSets) (set : List MemberId) : Option StateId := table.sets.idOf? set

def contains (table : MatchSets) (set : List MemberId) : Bool := table.sets.contains set

def states (table : MatchSets) : States := ⟨table.toList, table.idOf?⟩

/-- The set of a leaf that is itself a member. -/
def leafSet (wildcard leaf : MemberId) : List MemberId := Index.sorted [wildcard, leaf]

/-- The state of a leaf with the given symbol. A leaf that no pattern mentions is matched by
the wildcard alone. -/
def stateOfLeaf (table : MatchSets) (f : Forest) (symbol : SymbolId) : StateId :=
  match f.leaf? symbol with
  | none => wildcardState
  | some leaf => (table.idOf? (leafSet table.wildcard leaf)).getD wildcardState

-- ---------------------------------------------------------------------------
-- Building
-- ---------------------------------------------------------------------------

/-- The table that holds the set of the wildcard alone. -/
def ofWildcard (wildcard : MemberId) : MatchSets where
  sets := Numbering.empty.insert [wildcard]
  wildcard := wildcard
  get?_zero := by
    rw [Numbering.get?_eq_getElem?_toList, Numbering.toList_insert, Numbering.contains,
      Numbering.idOf?_eq_none_iff.2 (by simp [Numbering.toList_empty])]
    rfl

/-- Numbers a set, if it is new. -/
def insert (table : MatchSets) (set : List MemberId) : MatchSets where
  sets := table.sets.insert set
  wildcard := table.wildcard
  get?_zero := Numbering.get?_insert_of_get? table.get?_zero

/-- A set that is in the table is not entered again. -/
theorem insert_of_contains {table : MatchSets} {set : List MemberId} (h : table.contains set) :
    table.insert set = table := by
  have hsets : table.sets.insert set = table.sets := Numbering.insert_of_contains h
  simp only [insert, hsets]

theorem contains_insert_self (table : MatchSets) (set : List MemberId) :
    (table.insert set).contains set := by
  rw [contains, insert, Numbering.contains, Numbering.idOf?_insert_self]
  rfl

/-- The sets of the terminals that are members, by name. -/
def leafSets (sig : Signature) (f : Forest) : List (List MemberId) :=
  (sig.terminals.filterMap fun t => f.leaf? t.id).map (leafSet f.wildcard)

/-- The table of the leaf states. -/
def ofLeaves (sig : Signature) (f : Forest) : MatchSets :=
  (leafSets sig f).foldl insert (ofWildcard f.wildcard)

end MatchSets

end TreePattern
