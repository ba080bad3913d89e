import TreePattern.MatchRule
import TreePattern.Sublists
import TreePattern.Proofs.Forest.Parents

/-!
# What the matching rule finds

The successor of a tuple of match sets holds the wildcard and the members with the wanted root
whose children are found, one by one, in the relevant parts of the sets.

## Results

* `MatchRule.mem_successor_iff` — which members a successor holds.
* `MatchRule.successor_of_nil_mem_traces` — one set without a relevant part leaves the wildcard.
-/

namespace TreePattern

namespace MatchRule

variable {rule : MatchRule} {wildcard : MemberId} {op : SymbolId}
  {children : List (List MemberId)}

/-- The traces are the relevant parts of the sets, child by child. -/
theorem traces_eq_map (rule : MatchRule) (op : SymbolId) (children : List (List MemberId)) :
    rule.traces op children =
      (children.mapIdx fun k set => rule.relevance.restrict op k set).map List.toArray := by
  refine List.mapIdx_eq_iff.2 ?_
  intro k
  rw [List.getElem?_map, List.getElem?_mapIdx, Option.map_map]
  rfl

/-- A parent is matched if each child slot is by a member that is relevant there. -/
theorem mem_successor_iff {i : MemberId} :
    i ∈ rule.successor wildcard op children ↔ i = wildcard ∨
      ∃ cs, rule.forest.lookup? op cs = some i ∧
        List.Forall₂ (· ∈ ·) cs (rule.traces op children) := by
  rw [successor, parents, Forest.mem_addParents_singleton_iff]

/-- Over a set without a relevant part, only the wildcard matches. -/
theorem successor_of_nil_mem_traces (h : #[] ∈ rule.traces op children) :
    rule.successor wildcard op children = [wildcard] := by
  refine eq_of_ascending (successor_ascending ..) (List.pairwise_singleton ..) ?_
  intro i
  rw [mem_successor_iff, List.mem_singleton, or_iff_left]
  rintro ⟨cs, -, hcs⟩
  obtain ⟨k, hk, heq⟩ := List.mem_iff_getElem.1 h
  have hlen : k < cs.length := hcs.length_eq ▸ hk
  have hmem := hcs.get hlen hk
  rw [List.get_eq_getElem, List.get_eq_getElem, heq] at hmem
  exact absurd hmem (by simp)

end MatchRule

end TreePattern
