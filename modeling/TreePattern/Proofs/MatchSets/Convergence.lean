import TreePattern.Proofs.MatchSets.Layers
import TreePattern.Proofs.MatchSets.Limits
import TreePattern.Proofs.Tree.Truncation

/-!
# Discovery converges within the depth of the patterns

There are exponentially many sets of members, but discovery does not go through all of them. A
match set depends only on the levels of a tree that the deepest pattern has, so every match set
is that of a tree with so many levels. The passes bring in the trees level by level, so the one
whose number is that depth finds nothing more, if none before it did.

## Results

* `MatchRule.BuiltFrom.closed_afterPasses` — the table is closed one pass before that.
* `MatchRule.discover_converges`           — the number of passes, and which limits suffice.
-/

namespace TreePattern

namespace MatchRule

variable {rule : MatchRule} {patterns : List Tree}

/-- There is a pattern, and it has at least one level. -/
theorem BuiltFrom.maxDepth_pos (h : rule.BuiltFrom patterns) : 0 < Tree.maxDepth patterns := by
  obtain ⟨p, hp⟩ := List.exists_mem_of_ne_nil patterns (Forest.ne_nil_of_build h.forest)
  exact Nat.lt_of_lt_of_le p.depth_pos (Tree.depth_le_maxDepth hp (Tree.mem_preOrder_self p))

/-- Members are no deeper than the deepest pattern. -/
theorem BuiltFrom.depth_le_maxDepth (h : rule.BuiltFrom patterns) {t : Tree} {i : MemberId}
    (ht : rule.forest.idOf? rule.signature t = some i) : t.depth ≤ Tree.maxDepth patterns := by
  obtain ⟨u, hu, horigin⟩ :=
    Forest.exists_tree_of_build h.forest (Forest.mem_members_of_idOf? ht)
  obtain rfl : t = u := Numbering.idOfTree?_inj ht hu
  rcases horigin with rfl | ⟨p, hp, hmem⟩
  · rw [Tree.wildcard, Tree.depth_leaf]
    exact h.maxDepth_pos
  · exact Tree.depth_le_maxDepth hp hmem

/-- The levels below those that the deepest pattern has do not matter. -/
theorem BuiltFrom.matching_truncate (h : rule.BuiltFrom patterns) {d : Nat}
    (hd : Tree.maxDepth patterns ≤ d + 1) (t : Tree) :
    rule.forest.matching rule.signature (t.truncate d) =
      rule.forest.matching rule.signature t :=
  Forest.matching_truncate (fun _ _ hp => Nat.le_trans (h.depth_le_maxDepth hp) hd) t

/-- The match sets of the trees with at most as many levels as the deepest pattern are all
there are. -/
theorem BuiltFrom.exists_shallow (h : rule.BuiltFrom patterns) {d : Nat}
    (hd : Tree.maxDepth patterns ≤ d + 1) {t : Tree} (ht : Tree.Ranked rule.signature t) :
    ∃ u, Tree.Ranked rule.signature u ∧ u.depth ≤ d + 1 ∧
      rule.forest.matching rule.signature u = rule.forest.matching rule.signature t :=
  ⟨t.truncate d, Tree.ranked_truncate d ht, Tree.depth_truncate_le d t,
    h.matching_truncate hd t⟩

/-- One pass less than the depth of the deepest pattern closes the table of the leaf states. -/
theorem BuiltFrom.closed_afterPasses (h : rule.BuiltFrom patterns) {d : Nat}
    (hd : Tree.maxDepth patterns ≤ d + 1) :
    rule.Closed (rule.afterPasses d (MatchSets.ofLeaves rule.signature rule.forest)) := by
  rw [Closed, sweep_table]
  refine MatchSets.foldl_insert_of_subset ?_
  intro s hs
  have hnext : s ∈ (rule.afterPasses (d + 1)
      (MatchSets.ofLeaves rule.signature rule.forest)).toList := by
    rw [afterPasses_succ', sweep_table]
    exact MatchSets.mem_foldl_insert_iff.2 (Or.inr hs)
  obtain ⟨t, ht, -, rfl⟩ := h.mem_afterPasses_iff.1 hnext
  obtain ⟨u, hu, hdepth, hmatching⟩ := h.exists_shallow hd ht
  exact h.mem_afterPasses_iff.2 ⟨u, hu, hdepth, hmatching⟩

theorem BuiltFrom.passes_discover_le (h : rule.BuiltFrom patterns) :
    (rule.discover 0).stats.passes ≤ Tree.maxDepth patterns := by
  have hpos := h.maxDepth_pos
  obtain ⟨d, hd⟩ : ∃ d, Tree.maxDepth patterns = d + 1 := ⟨Tree.maxDepth patterns - 1, by omega⟩
  rw [hd]
  exact length_passes_le_of_closed (h.closed_afterPasses hd.le)

/-- Without a limit, discovery takes at most as many passes as the deepest pattern has levels,
the last pass, which finds nothing, included; so a limit of at least that many never stops it. -/
theorem discover_converges (h : rule.BuiltFrom patterns) :
    (rule.discover 0).complete = true ∧
    (rule.discover 0).stats.passes ≤ Tree.maxDepth patterns ∧
    ∀ limit, Tree.maxDepth patterns ≤ limit → (rule.discover limit).error? limit = none := by
  refine ⟨rule.complete_discover, h.passes_discover_le, ?_⟩
  intro limit hlimit
  rw [error?_discover_eq, if_neg]
  rintro ⟨-, hlt⟩
  exact Nat.not_le_of_lt hlt (Nat.le_trans h.passes_discover_le hlimit)

/-- The pattern `f(a, *)` has two levels, and two passes are enough. -/
theorem discover_converges_for_pair : ∃ rule : MatchRule,
    rule.BuiltFrom [.node "f" [Tree.leaf "a", Tree.wildcard]] ∧
    (rule.discover 0).stats.passes ≤ 2 ∧ (rule.discover 2).error? 2 = none := by
  have haccepted : ([Tree.node "f" [Tree.leaf "a", Tree.wildcard]].foldlM Signature.register
      .empty).toOption.isSome = true := by decide +kernel
  obtain ⟨sig, hsig⟩ := exists_eq_ok_of_isSome haccepted
  obtain ⟨rule, -, h⟩ := exists_builtFrom (List.cons_ne_nil _ _) hsig
  obtain ⟨-, hpasses, hlimit⟩ := discover_converges h
  have hdepth : Tree.maxDepth [.node "f" [Tree.leaf "a", Tree.wildcard]] = 2 := by decide +kernel
  rw [hdepth] at hpasses hlimit
  exact ⟨rule, h, hpasses, hlimit 2 (Nat.le_refl 2)⟩

end MatchRule

end TreePattern
