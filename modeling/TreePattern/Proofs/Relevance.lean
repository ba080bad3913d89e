import TreePattern.Proofs.MatchRule
import TreePattern.Proofs.Signature.Symbols

/-!
# What the projection keeps

A slot of the projection holds the children that the members with the operator at their root
have there. So a choice of children that has a parent at all is relevant in every slot, and
looking only at the relevant parts of the children's sets loses nothing.

## Results

* `Relevance.mem_restrict_iff`  — what is left of a set in a slot.
* `Relevance.exists_ofForest`   — when the projection exists.
* `MatchRule.forall₂_traces_iff_of_contains` — relevant children are not lost.
* `MatchRule.mem_successor_iff_of_projection` — the rule over whole sets.
-/

namespace TreePattern

namespace Relevance

variable {sig : Signature} {f : Forest} {r : Relevance}

/-- The members with a root symbol are the parents under it. -/
theorem mem_withRoot_iff {op : SymbolId} {j : MemberId} :
    j ∈ f.withRoot op ↔ ∃ cs, f.lookup? op cs = some j := by
  rw [Forest.mem_withRoot_iff]
  simpa only [and_true] using (Forest.exists_lookup?_iff (P := fun _ => True)).symm

/-- A member stands in a child slot if some parent has it there. -/
theorem mem_childrenAt_iff {op : SymbolId} {k : Nat} {i : MemberId} :
    i ∈ childrenAt f op k ↔ ∃ j cs, f.lookup? op cs = some j ∧ cs[k]? = some i := by
  rw [childrenAt, List.mem_filterMap]
  constructor
  · rintro ⟨j, hj, hi⟩
    obtain ⟨cs, hcs⟩ := mem_withRoot_iff.1 hj
    rw [Forest.node?, Numbering.idOf?_eq_some_iff.1 hcs, Option.bind_some] at hi
    exact ⟨j, cs, hcs, hi⟩
  · rintro ⟨j, cs, hcs, hi⟩
    refine ⟨j, mem_withRoot_iff.2 ⟨cs, hcs⟩, ?_⟩
    rw [Forest.node?, Numbering.idOf?_eq_some_iff.1 hcs, Option.bind_some]
    exact hi

-- ---------------------------------------------------------------------------
-- The slots of a projection
-- ---------------------------------------------------------------------------

/-- A projection that succeeds holds the slots of each operator. -/
theorem ofForest_eq_ok (h : ofForest sig f = .ok r) :
    r.slots = Std.TreeMap.ofList (sig.operators.map fun op => (op.id, slotsOf f op)) := by
  unfold ofForest at h
  split at h
  · cases h
    rfl
  · exact absurd h (by simp)

/-- The projection exists if no member has more children than its operator has slots. -/
theorem exists_ofForest (h : ∀ op ∈ sig.operators, ∀ j cs,
      f.lookup? op.id cs = some j → cs.length ≤ op.arity) :
    ∃ r, ofForest sig f = .ok r := by
  have hfits : sig.operators.all (fits f) = true := by
    rw [List.all_eq_true]
    intro op hop
    rw [fits, List.all_eq_true]
    intro j hj
    obtain ⟨cs, hcs⟩ := mem_withRoot_iff.1 hj
    rw [Forest.node?, Numbering.idOf?_eq_some_iff.1 hcs, Option.all_some, decide_eq_true_eq]
    exact h op hop j cs hcs
  rw [ofForest, if_pos hfits]
  exact ⟨_, rfl⟩

/-- The slot of an operator holds the children that stand there. -/
theorem slot?_of_mem_operators (h : ofForest sig f = .ok r) {op : Symbol}
    (hop : op ∈ sig.operators) {k : Nat} (hk : k < op.arity) :
    r.slot? op.id k = some (Std.TreeSet.ofList (childrenAt f op.id k)) := by
  have hslots : r.slots[op.id]? = some (slotsOf f op) := by
    rw [ofForest_eq_ok h]
    exact (getElem?_ofList_iff (List.pairwise_map.2 sig.pairwise_operators)).2
      (List.mem_map.2 ⟨op, hop, rfl⟩)
  rw [slot?, hslots, Option.bind_some, slotsOf, List.getElem?_map, List.getElem?_range hk]
  rfl

/-- What is left of a set are its members that are relevant in the slot. -/
theorem restrict_eq_filter (r : Relevance) (op : SymbolId) (k : Nat) (set : List MemberId) :
    r.restrict op k set = set.filter fun i => r.contains op k i := by
  unfold restrict contains
  split
  · next members hslot => rw [hslot]; rfl
  · next hnone => rw [hnone]; simp

/-- What is left of an ascending set is ascending. -/
theorem pairwise_restrict (r : Relevance) (op : SymbolId) (k : Nat) {set : List MemberId}
    (hset : set.Pairwise (· < ·)) : (r.restrict op k set).Pairwise (· < ·) := by
  rw [restrict_eq_filter]
  exact hset.filter _

/-- A member is relevant exactly where it stands as a child. -/
theorem contains_iff_mem_childrenAt (h : ofForest sig f = .ok r) {op : Symbol}
    (hop : op ∈ sig.operators) {k : Nat} (hk : k < op.arity) {i : MemberId} :
    r.contains op.id k i ↔ i ∈ childrenAt f op.id k := by
  rw [contains, slot?_of_mem_operators h hop hk, Option.any_some, Std.TreeSet.contains_ofList,
    List.contains_iff_mem]

/-- Restricting a set keeps what is relevant in the slot. -/
theorem mem_restrict_iff (h : ofForest sig f = .ok r) {op : Symbol} (hop : op ∈ sig.operators)
    {k : Nat} (hk : k < op.arity) {set : List MemberId} {i : MemberId} :
    i ∈ r.restrict op.id k set ↔ i ∈ set ∧ i ∈ childrenAt f op.id k := by
  rw [restrict_eq_filter, List.mem_filter, contains_iff_mem_childrenAt h hop hk]

end Relevance

namespace MatchRule

variable {rule : MatchRule} {op : Symbol} {sets : List (List MemberId)}

/-- Children that are all relevant are found in the relevant parts of sets exactly if they are
found in the sets. -/
theorem forall₂_traces_iff_of_contains {op : SymbolId} {cs : List MemberId}
    (h : ∀ k, k < sets.length → ∀ c, cs[k]? = some c → rule.relevance.contains op k c) :
    List.Forall₂ (· ∈ ·) cs (rule.traces op sets) ↔ List.Forall₂ (· ∈ ·) cs sets := by
  have htraces : (rule.traces op sets).length = sets.length := by
    rw [traces, List.length_mapIdx]
  -- the children are relevant in their slots, so the restriction keeps them
  have hslot : ∀ k (hk : k < cs.length) (ht : k < (rule.traces op sets).length)
      (hs : k < sets.length), cs[k] ∈ (rule.traces op sets)[k] ↔ cs[k] ∈ sets[k] := by
    intro k hk ht hs
    simp only [traces, List.getElem_mapIdx, List.mem_toArray, Relevance.restrict_eq_filter,
      List.mem_filter, h k hs _ (List.getElem?_eq_getElem hk), and_true]
  rw [List.forall₂_iff_get, List.forall₂_iff_get]
  constructor
  · rintro ⟨hcs, hmem⟩
    exact ⟨by omega, fun k hk hs => (hslot k hk (by omega) hs).1 (hmem k hk (by omega))⟩
  · rintro ⟨hcs, hmem⟩
    exact ⟨by omega, fun k hk ht => (hslot k hk ht (by omega)).2 (hmem k hk (by omega))⟩

/-- Children that have a parent are relevant, so they are found in the relevant parts of sets
exactly if they are found in the sets. -/
theorem forall₂_traces_iff
    (h : Relevance.ofForest rule.signature rule.forest = .ok rule.relevance)
    (hop : op ∈ rule.signature.operators) (hlen : sets.length = op.arity)
    {cs : List MemberId} {i : MemberId} (hi : rule.forest.lookup? op.id cs = some i) :
    List.Forall₂ (· ∈ ·) cs (rule.traces op.id sets) ↔ List.Forall₂ (· ∈ ·) cs sets := by
  refine forall₂_traces_iff_of_contains fun k hk c hc => ?_
  exact (Relevance.contains_iff_mem_childrenAt h hop (hlen ▸ hk)).2
    (Relevance.mem_childrenAt_iff.2 ⟨i, cs, hi, hc⟩)

/-- With the projection of its own forest, the rule finds every member whose children lie in
the children's sets. -/
theorem mem_successor_iff_of_projection
    (h : Relevance.ofForest rule.signature rule.forest = .ok rule.relevance)
    (hop : op ∈ rule.signature.operators) (hlen : sets.length = op.arity)
    {wildcard i : MemberId} :
    i ∈ rule.successor wildcard op.id sets ↔ i = wildcard ∨
      ∃ cs, rule.forest.lookup? op.id cs = some i ∧ List.Forall₂ (· ∈ ·) cs sets := by
  rw [mem_successor_iff]
  refine or_congr_right (exists_congr fun cs => and_congr_right fun hi => ?_)
  exact forall₂_traces_iff h hop hlen hi

end MatchRule

end TreePattern
