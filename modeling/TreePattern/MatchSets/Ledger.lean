import TreePattern.MatchSets

/-!
# A ledger of match sets

A ledger holds the sets in the order of their discovery and, in a store of its own, the number of
each set. A set that is entered goes into both under the next number, without a look whether it
is there already. So a ledger can hold a set twice, and its two stores can disagree; that they
never do is up to those who enter sets. The leaf states are entered one after the other, since
no two of them are equal.
-/

namespace TreePattern

structure Ledger where
  /-- The set of each state. -/
  sets : Array (List MemberId)
  /-- The state of each set. -/
  index : Std.TreeMap (List MemberId) StateId
  /-- The wildcard's number. -/
  wildcard : MemberId

namespace Ledger

-- ---------------------------------------------------------------------------
-- Reading
-- ---------------------------------------------------------------------------

def size (l : Ledger) : Nat := l.sets.size

def get? (l : Ledger) (state : StateId) : Option (List MemberId) := l.sets[state.val]?

/-- The number of a set, given as an ascending list. -/
def idOf? (l : Ledger) (set : List MemberId) : Option StateId := l.index[set]?

def contains (l : Ledger) (set : List MemberId) : Bool := (l.idOf? set).isSome

def states (l : Ledger) : States := ⟨l.sets.toList, l.idOf?⟩

-- ---------------------------------------------------------------------------
-- Entering
-- ---------------------------------------------------------------------------

/-- Enters a set under the next number. -/
def enter (l : Ledger) (set : List MemberId) : Ledger where
  sets := l.sets.push set
  index := l.index.insert set ⟨l.sets.size⟩
  wildcard := l.wildcard

/-- The ledger that holds the set of the wildcard alone. -/
def ofWildcard (wildcard : MemberId) : Ledger := enter ⟨#[], ∅, wildcard⟩ [wildcard]

/-- The wildcard and a leaf in their order, as the set of that leaf. -/
def leafPair (wildcard leaf : MemberId) : List MemberId :=
  [wildcard, leaf].mergeSort fun i j => i ≤ j

/-- The state of a leaf with the given symbol. A leaf that no pattern mentions is matched by the
wildcard alone. -/
def stateOfLeaf (l : Ledger) (f : Forest) (symbol : SymbolId) : StateId :=
  match f.leaf? symbol with
  | none => MatchSets.wildcardState
  | some leaf => (l.idOf? (leafPair l.wildcard leaf)).getD MatchSets.wildcardState

/-- The leaf states: the wildcard's, then those of the terminals that are members, by name. -/
def ofLeaves (sig : Signature) (f : Forest) : Ledger :=
  ((sig.terminals.filterMap fun t => f.leaf? t.id).map (leafPair f.wildcard)).foldl enter
    (ofWildcard f.wildcard)

-- ---------------------------------------------------------------------------
-- What is in the ledger after some sets have been entered
-- ---------------------------------------------------------------------------

/-- Entering adds one set, whether or not it is there already. -/
theorem contains_enter_iff {l : Ledger} {set s : List MemberId} :
    (l.enter set).contains s ↔ l.contains s ∨ s = set := by
  simp only [contains, idOf?, enter, Std.TreeMap.getElem?_insert,
    Std.LawfulEqCmp.compare_eq_iff_eq]
  by_cases h : set = s
  · simp [h]
  · simp [h, Ne.symm h]

theorem contains_foldl_enter_iff {l : Ledger} {new : List (List MemberId)} {s : List MemberId} :
    (new.foldl enter l).contains s ↔ l.contains s ∨ s ∈ new := by
  induction new generalizing l with
  | nil => simp
  | cons set new ih => rw [List.foldl_cons, ih, contains_enter_iff, List.mem_cons, or_assoc]

/-- Entering sets does not touch the wildcard. -/
theorem wildcard_foldl_enter (l : Ledger) (new : List (List MemberId)) :
    (new.foldl enter l).wildcard = l.wildcard := by
  induction new generalizing l with
  | nil => rfl
  | cons set new ih => rw [List.foldl_cons, ih]; rfl

/-- Sets are entered behind those that are there, in order. -/
theorem toList_foldl_enter (l : Ledger) (new : List (List MemberId)) :
    (new.foldl enter l).sets.toList = l.sets.toList ++ new := by
  induction new generalizing l with
  | nil => rw [List.foldl_nil, List.append_nil]
  | cons set new ih => rw [List.foldl_cons, ih, enter, Array.toList_push, List.append_assoc]; rfl

end Ledger

end TreePattern
