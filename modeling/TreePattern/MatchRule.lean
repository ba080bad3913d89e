import TreePattern.MatchSets
import TreePattern.Relevance

/-!
# The matching rule

Which members match at a node follows from its symbol and from the match sets of its
children: the wildcard, and every member with that symbol whose children are taken from the
children's sets. Only the relevant part of each set has to be looked at.

The rule is made of a signature, a forest and a projection. In an automaton the three belong
together; nothing here relies on that.
-/

namespace TreePattern

structure MatchRule where
  signature : Signature
  forest : Forest
  relevance : Relevance

namespace MatchRule

/-- The relevant part of each child's set. -/
def traces (rule : MatchRule) (op : SymbolId) (children : List (List MemberId)) :
    List (Array MemberId) :=
  children.mapIdx fun k set => (rule.relevance.restrict op k set).toArray

/-- The members that match at a node `op` over children with the given sets. -/
def parents (rule : MatchRule) (wildcard : MemberId) (op : SymbolId)
    (children : List (List MemberId)) : Forest.Parents :=
  rule.forest.addParents op (rule.traces op children) {wildcard}

/-- The match set at a node `op` over children with the given sets. -/
def successor (rule : MatchRule) (wildcard : MemberId) (op : SymbolId)
    (children : List (List MemberId)) : List MemberId :=
  (rule.parents wildcard op children).members.toList

/-- A successor is written in ascending order. -/
theorem successor_ascending (rule : MatchRule) (wildcard : MemberId) (op : SymbolId)
    (children : List (List MemberId)) :
    (rule.successor wildcard op children).Pairwise (· < ·) :=
  Std.TreeSet.ordered_toList.imp Index.compare_eq_lt.1

/-- A successor holds the wildcard. -/
theorem wildcard_mem_successor (rule : MatchRule) (wildcard : MemberId) (op : SymbolId)
    (children : List (List MemberId)) : wildcard ∈ rule.successor wildcard op children := by
  rw [successor, Std.TreeSet.mem_toList]
  refine rule.forest.mem_addParents_of_mem op _ ?_
  show wildcard ∈ (∅ : Std.TreeSet MemberId).insert wildcard
  exact Std.TreeSet.mem_insert_self

/-- A successor holds members only, apart from the wildcard. -/
theorem mem_successor {rule : MatchRule} {wildcard : MemberId} {op : SymbolId}
    {children : List (List MemberId)} {i : MemberId}
    (h : i ∈ rule.successor wildcard op children) : i = wildcard ∨ i ∈ rule.forest.members := by
  rw [successor, Std.TreeSet.mem_toList] at h
  refine (rule.forest.mem_members_addParents op _ _ h).imp_left fun hi => ?_
  have hi : i ∈ (∅ : Std.TreeSet MemberId).insert wildcard := hi
  rw [Std.TreeSet.mem_insert, Std.LawfulEqCmp.compare_eq_iff_eq] at hi
  exact (hi.resolve_right Std.TreeSet.not_mem_emptyc).symm

end MatchRule

end TreePattern
