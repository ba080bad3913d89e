import TreePattern.Proofs.MatchSets.Layers
import TreePattern.Proofs.MatchSets.Resumption
import TreePattern.Proofs.Tree.Generalisation

/-!
# Match sets are coherent

The rule that finds the sets works on the numbers of members and knows nothing of their shapes.
Still every set is closed under generalisation: with a member it holds every member that comes
of it by putting the wildcard in place of some subtrees. And no two of its members contradict
each other: where they have a position in common, they have the same symbol there, unless one of
them has the wildcard. Both hold because the members of a set are those that match one tree.

## Results

* `Forest.coherent_matching`      — the members that match a tree are coherent.
* `MatchRule.match_sets_coherent` — so are the sets after any number of passes.
-/

namespace TreePattern

/-- The members of a set have trees; it is closed under generalisation, and its members do not
contradict each other. -/
structure Forest.Coherent (f : Forest) (sig : Signature) (set : List MemberId) : Prop where
  trees : ∀ i ∈ set, ∃ p, f.tree? sig i = some p
  /-- With a member, the set holds every member that is more general. -/
  general : ∀ i ∈ set, ∀ p, f.tree? sig i = some p →
    ∀ chosen j, f.tree? sig j = some (p.generalise chosen) → j ∈ set
  /-- At a position of two members stand equal symbols, or the wildcard. -/
  compatible : ∀ i ∈ set, ∀ j ∈ set, ∀ p q, f.tree? sig i = some p → f.tree? sig j = some q →
    ∀ position u v, p.subtree? position = some u → q.subtree? position = some v →
      u.symbol ≠ wildcardSymbol → v.symbol ≠ wildcardSymbol → u.symbol = v.symbol

/-- A member's tree is one that matches, if the member is among those that match. -/
theorem Forest.matches_of_tree? {f : Forest} {sig : Signature} {t p : Tree} {i : MemberId}
    (hi : i ∈ f.matching sig t) (hp : f.tree? sig i = some p) : Tree.Matches p t := by
  obtain ⟨q, hq, hmatch⟩ := mem_matching_iff.1 hi
  obtain rfl : q = p := Option.some.inj ((tree?_eq_some_iff.2 hq).symm.trans hp)
  exact hmatch

/-- The members that match a tree are coherent. -/
theorem Forest.coherent_matching (f : Forest) (sig : Signature) (t : Tree) :
    f.Coherent sig (f.matching sig t) := by
  refine ⟨?_, ?_, ?_⟩
  · intro i hi
    obtain ⟨p, hp, -⟩ := mem_matching_iff.1 hi
    exact ⟨p, tree?_eq_some_iff.2 hp⟩
  · intro i hi p hp chosen j hj
    have hmatch := Tree.matches_generalise chosen (matches_of_tree? hi hp)
    exact mem_matching_iff.2 ⟨_, tree?_eq_some_iff.1 hj, hmatch⟩
  · intro i hi j hj p q hp hq position u v hu hv
    exact Tree.symbol_eq_of_matches (matches_of_tree? hi hp) (matches_of_tree? hj hq) hu hv

namespace MatchRule

/-- For accepted patterns, all sets in the table are coherent: after any number of passes over the
leaf states, and after searches with any limits in a row. -/
theorem match_sets_coherent {rule : MatchRule} {patterns : List Tree}
    (h : rule.BuiltFrom patterns) :
    let seed := MatchSets.ofLeaves rule.signature rule.forest
    (∀ k, ∀ set ∈ (rule.afterPasses k seed).toList, rule.forest.Coherent rule.signature set) ∧
      ∀ limits, ∀ set ∈ (rule.closeInTurn limits seed).toList,
        rule.forest.Coherent rule.signature set := by
  intro seed
  have hpasses : ∀ k, ∀ set ∈ (rule.afterPasses k seed).toList,
      rule.forest.Coherent rule.signature set := by
    intro k set hset
    obtain ⟨t, -, -, rfl⟩ := h.mem_afterPasses_iff.1 hset
    exact Forest.coherent_matching _ _ t
  refine ⟨hpasses, ?_⟩
  intro limits
  -- limited searches in turn make some number of passes
  obtain ⟨n, hn⟩ := exists_closeInTurn_eq rule limits seed
  rw [hn]
  exact hpasses n

/-- With the patterns `f(a, *)` and `f(*, *)`, a set that holds the first holds the second. -/
theorem match_sets_coherent_for_overlap : ∃ rule : MatchRule,
    rule.BuiltFrom [.node "f" [Tree.leaf "a", Tree.wildcard],
      .node "f" [Tree.wildcard, Tree.wildcard]] ∧
    ∃ set ∈ (rule.afterPasses 1 (MatchSets.ofLeaves rule.signature rule.forest)).toList,
      ⟨0⟩ ∈ set ∧ ⟨3⟩ ∈ set := by
  have hcomputed : (ofPatterns [.node "f" [Tree.leaf "a", Tree.wildcard],
      .node "f" [Tree.wildcard, Tree.wildcard]]).toOption.any (fun rule =>
        let p := Tree.node "f" [Tree.leaf "a", Tree.wildcard]
        (rule.afterPasses 1 (MatchSets.ofLeaves rule.signature rule.forest)).toList.any
            (·.contains ⟨0⟩) &&
          rule.forest.tree? rule.signature ⟨0⟩ == some p &&
          rule.forest.tree? rule.signature ⟨3⟩ == some (p.generalise (· == [0]))) = true := by
    decide +kernel
  obtain ⟨rule, hrule, hcheck⟩ := exists_builtFrom_of_any hcomputed
  rw [Bool.and_eq_true, Bool.and_eq_true, beq_iff_eq, beq_iff_eq, List.any_eq_true] at hcheck
  obtain ⟨⟨⟨set, hset, hfirst⟩, hp⟩, hq⟩ := hcheck
  have hfirst := List.contains_iff_mem.1 hfirst
  have hcoherent := (match_sets_coherent hrule).1 1 set hset
  exact ⟨rule, hrule, set, hset, hfirst, hcoherent.general _ hfirst _ hp _ _ hq⟩

end MatchRule

end TreePattern
