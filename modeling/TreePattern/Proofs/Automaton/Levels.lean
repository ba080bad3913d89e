import TreePattern.Proofs.Automaton.Safety
import TreePattern.Proofs.MatchSets.Convergence

/-!
# States see the top levels of a tree

On its way up through a tree an automaton passes states that depend on the whole of the subtrees
below them, but the state at the root depends on the top levels only: on as many as the deepest
pattern has. Cutting the tree off there changes the states near the cut, and may make them those
of trees that fewer members match. The members that this costs are too deep to be of use: none
of them is part of a member that could match at the root.

## Results

* `Automaton.Finished.stateOf?_eq_of_matching_eq` — the members that match decide on the state.
* `Automaton.states_see_top_levels`               — so the levels below the deepest pattern do not.
-/

namespace TreePattern

namespace Automaton

variable {a : Automaton} {rule : MatchRule} {table : MatchSets} {tables : Transitions}

/-- Ranked trees that the same members match reach the same state. -/
theorem Finished.stateOf?_eq_of_matching_eq (h : a.Finished rule table tables) {t u : Tree}
    (ht : t.Ranked rule.signature) (hu : u.Ranked rule.signature)
    (hmatching : rule.forest.matching rule.signature u = rule.forest.matching rule.signature t) :
    ∃ q, a.stateOf? t = some q ∧ a.stateOf? u = some q := by
  obtain ⟨q, hq, hset⟩ := h.stateOf?_of_ranked ht
  obtain ⟨r, hr, hset'⟩ := h.stateOf?_of_ranked hu
  rw [hmatching] at hset'
  obtain rfl : q = r := Numbering.get?_inj hset hset'
  exact ⟨q, hq, hr⟩

/-- A tree may be truncated below the last level that the deepest pattern has. -/
theorem Finished.stateOf?_truncate (h : a.Finished rule table tables) {d : Nat}
    (hd : Tree.maxDepth a.patterns ≤ d + 1) {t : Tree} (ht : t.Ranked rule.signature) :
    ∃ q, a.stateOf? t = some q ∧ a.stateOf? (t.truncate d) = some q := by
  have hmatching := h.built.matching_truncate hd t
  exact h.stateOf?_eq_of_matching_eq ht (Tree.ranked_truncate d ht) hmatching

/-- Once the tables are built, let `D` be the depth of the deepest pattern. The state that a ranked
tree reaches is that of its top `D` levels, where a node of the last of them that has children has
become the wildcard leaf; and of any number of levels from `D` on. -/
theorem states_see_top_levels (config : Config) (calls : List Call) :
    let a := (ofConfig config).performAll calls
    let D := Tree.maxDepth a.patterns
    a.tables?.isSome →
      0 < D ∧ ∀ d, D ≤ d + 1 → ∀ t : Tree, t.Ranked a.signature →
        ∃ q, a.stateOf? t = some q ∧ a.stateOf? (t.truncate d) = some q := by
  intro a D hbuilt
  have h : a.Consistent := (consistent_ofConfig config).performAll calls
  obtain ⟨tables, htables⟩ := Option.isSome_iff_exists.1 hbuilt
  obtain ⟨rule, table, hfinished⟩ := h.exists_finished htables
  refine ⟨hfinished.built.maxDepth_pos, ?_⟩
  intro d hd t ht
  rw [hfinished.signature] at ht
  exact hfinished.stateOf?_truncate hd ht

/-- The pattern `f(a, *)` has two levels, so `f(f(a, a), f(a, b))` reaches the state of
`f(*, *)`. -/
theorem states_see_top_levels_for_pair :
    let calls := [.register (.node "f" [Tree.leaf "a", Tree.wildcard]), .build]
    let a := (ofConfig {}).performAll calls
    let t := Tree.node "f" [.node "f" [Tree.leaf "a", Tree.leaf "a"],
      .node "f" [Tree.leaf "a", Tree.leaf "b"]]
    a.tables?.isSome ∧ t.Ranked a.signature ∧
      ∃ q, a.stateOf? t = some q ∧
        a.stateOf? (.node "f" [Tree.wildcard, Tree.wildcard]) = some q := by
  intro calls a t
  have hbuilt : a.tables?.isSome := by decide +kernel
  have hranked : t.Ranked a.signature := by decide +kernel
  have hdepth : Tree.maxDepth a.patterns ≤ 1 + 1 := by decide +kernel
  exact ⟨hbuilt, hranked, (states_see_top_levels {} calls hbuilt).2 1 hdepth t hranked⟩

end Automaton

end TreePattern
