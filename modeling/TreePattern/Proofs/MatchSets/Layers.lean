import TreePattern.Proofs.MatchSets.Passes
import TreePattern.Proofs.Matching

/-!
# Discovery layer by layer

For a rule built from patterns, the table of the leaf states holds the match sets of the trees
of depth 1, and each pass brings in those of the trees that are one deeper: a pass combines
the sets that were there when it started, no others. Trees are ranked, but their leaves may
have any name. A search that came to its end has therefore found the match sets of all trees,
and nothing else.

## Results

* `MatchRule.BuiltFrom.mem_ofLeaves_iff`    — the first layer.
* `MatchRule.BuiltFrom.mem_afterPasses_iff` — the layer after each pass.
* `MatchRule.BuiltFrom.mem_of_closed_iff`   — the sets of a closed table.
* `MatchRule.discover_exact`                — discovery finds the match sets of trees.
-/

namespace TreePattern

namespace MatchSets

/-- The leaf states are the wildcard's and one for each terminal that is a leaf of some pattern. -/
theorem mem_ofLeaves_iff {sig : Signature} {f : Forest} {s : List MemberId} :
    s ∈ (ofLeaves sig f).toList ↔ s = [f.wildcard] ∨
      ∃ t ∈ sig.terminals, ∃ leaf, f.leaf? t.id = some leaf ∧ s = leafSet f.wildcard leaf := by
  rw [ofLeaves, mem_foldl_insert_iff, toList_ofWildcard, List.mem_singleton, leafSets, List.mem_map]
  refine or_congr_right ?_
  constructor
  · rintro ⟨leaf, hleaf, rfl⟩
    obtain ⟨t, ht, hleaf⟩ := List.mem_filterMap.1 hleaf
    exact ⟨t, ht, leaf, hleaf, rfl⟩
  · rintro ⟨t, ht, leaf, hleaf, rfl⟩
    exact ⟨leaf, List.mem_filterMap.2 ⟨t, ht, hleaf⟩, rfl⟩

/-- The leaf set of the wildcard holds the wildcard alone. -/
theorem leafSet_self (wildcard : MemberId) : leafSet wildcard wildcard = [wildcard] := by
  refine eq_of_ascending (Forest.pairwise_leafSet ..) (List.pairwise_singleton ..) ?_
  intro i
  rw [Forest.mem_leafSet_iff, or_self, List.mem_singleton]

end MatchSets

namespace MatchRule

variable {rule : MatchRule} {patterns : List Tree}

-- ---------------------------------------------------------------------------
-- The first layer
-- ---------------------------------------------------------------------------

/-- The leaf states are the match sets of leaves. -/
theorem BuiltFrom.mem_ofLeaves_iff (h : rule.BuiltFrom patterns) {s : List MemberId} :
    s ∈ (MatchSets.ofLeaves rule.signature rule.forest).toList ↔
      ∃ name, rule.forest.matching rule.signature (Tree.leaf name) = s := by
  rw [MatchSets.mem_ofLeaves_iff]
  constructor
  -- the set of the wildcard alone is that of the leaf with the wildcard's symbol
  · rintro (rfl | ⟨t, ht, leaf, hleaf, rfl⟩)
    · refine ⟨wildcardSymbol, ?_⟩
      rw [Forest.matching_leaf, Signature.idOf?_wildcardSymbol, Option.bind_some, Forest.leaf?,
        Forest.lookup?, rule.forest.idOf?_wildcard]
      exact MatchSets.leafSet_self _
    · refine ⟨t.name, ?_⟩
      rw [Forest.matching_leaf, Signature.idOf?_of_find? (Signature.mem_terminals_iff.1 ht).1,
        Option.bind_some, hleaf]
  -- a symbol without a leaf of its own is matched by the wildcard alone
  · rintro ⟨name, rfl⟩
    rw [Forest.matching_leaf]
    split
    · next leaf hleaf =>
      rcases h.leaf_eq hleaf with rfl | ⟨t, ht, -, hleaf⟩
      · exact Or.inl (MatchSets.leafSet_self _)
      · exact Or.inr ⟨t, ht, leaf, hleaf, rfl⟩
    · exact Or.inl rfl

-- ---------------------------------------------------------------------------
-- One layer more
-- ---------------------------------------------------------------------------

/-- The successor of the match sets of some trees is the match set of a node over them. -/
theorem BuiltFrom.exists_tree_of_successor (h : rule.BuiltFrom patterns) {op : Symbol}
    (hop : op ∈ rule.signature.operators) {d : Nat} {sets : List (List MemberId)}
    (hlen : sets.length = op.arity)
    (hsets : ∀ s ∈ sets, ∃ t, Tree.Ranked rule.signature t ∧ t.depth ≤ d ∧
      rule.forest.matching rule.signature t = s) :
    ∃ t, Tree.Ranked rule.signature t ∧ t.depth ≤ d + 1 ∧
      rule.forest.matching rule.signature t =
        rule.successor rule.forest.wildcard op.id sets := by
  have hlayer : ∀ s ∈ sets, ∃ t, (Tree.Ranked rule.signature t ∧ t.depth ≤ d) ∧
      rule.forest.matching rule.signature t = s := by
    intro s hs
    obtain ⟨t, hranked, hdepth, hmatching⟩ := hsets s hs
    exact ⟨t, ⟨hranked, hdepth⟩, hmatching⟩
  -- one tree for each set, of which the node is made
  obtain ⟨ts, hts, rfl⟩ := exists_map_eq hlayer
  rw [List.length_map] at hlen
  have hranked : Tree.Ranked rule.signature (.node op.name ts) := by
    refine Tree.ranked_node_iff.2 ⟨?_, ?_⟩
    · intro _
      exact ⟨op, hop, rfl, hlen.symm⟩
    · intro t ht
      exact (hts t ht).1
  exact ⟨_, hranked, Tree.depth_node_le fun t ht => (hts t ht).2,
    (h.successor_matching hop hlen).symm⟩

/-- The match set of a ranked node is the successor of those of its children. -/
theorem BuiltFrom.exists_successor_of_node (h : rule.BuiltFrom patterns) {name : String}
    {ts : List Tree} (hranked : Tree.Ranked rule.signature (.node name ts)) (hne : ts ≠ []) :
    ∃ op ∈ rule.signature.operators, ts.length = op.arity ∧
      rule.successor rule.forest.wildcard op.id
          (ts.map (rule.forest.matching rule.signature)) =
        rule.forest.matching rule.signature (.node name ts) := by
  obtain ⟨op, hop, rfl, harity⟩ := (Tree.ranked_node_iff.1 hranked).1 hne
  exact ⟨op, hop, harity.symm, h.successor_matching hop harity.symm⟩

/-- After `k` passes the table holds the match sets of the trees of depth at most `k + 1`. -/
theorem BuiltFrom.mem_afterPasses_iff (h : rule.BuiltFrom patterns) {k : Nat}
    {s : List MemberId} :
    s ∈ (rule.afterPasses k (MatchSets.ofLeaves rule.signature rule.forest)).toList ↔
      ∃ t, Tree.Ranked rule.signature t ∧ t.depth ≤ k + 1 ∧
        rule.forest.matching rule.signature t = s := by
  induction k generalizing s with
  -- the leaf states are the sets of the trees of depth one
  | zero =>
    unfold afterPasses
    rw [h.mem_ofLeaves_iff]
    constructor
    · rintro ⟨name, hs⟩
      exact ⟨Tree.leaf name, Tree.ranked_leaf _ _, (Tree.depth_leaf name).le, hs⟩
    · rintro ⟨t, -, hdepth, hs⟩
      obtain ⟨name, rfl⟩ := Tree.eq_leaf_of_depth_le hdepth
      exact ⟨name, hs⟩
  | succ k ih =>
    rw [afterPasses_succ', mem_sweep_iff, wildcard_afterPasses, MatchSets.wildcard_ofLeaves]
    constructor
    -- a set that was there has a tree that is no deeper than before, a new one has a node over such
    -- trees
    · rintro (hs | ⟨op, hop, sets, hlen, hsets, rfl⟩)
      · obtain ⟨t, hranked, hdepth, hs⟩ := ih.1 hs
        exact ⟨t, hranked, by omega, hs⟩
      · exact h.exists_tree_of_successor hop hlen fun set hset => ih.1 (hsets set hset)
    · rintro ⟨⟨name, ts⟩, hranked, hdepth, rfl⟩
      by_cases hleaf : ts = []
      · -- a leaf was there from the beginning
        left
        have hdepth : (Tree.leaf name).depth ≤ k + 1 := by
          have := Tree.depth_leaf name
          omega
        rw [hleaf]
        exact ih.2 ⟨Tree.leaf name, Tree.ranked_leaf _ _, hdepth, rfl⟩
      · right
        obtain ⟨op, hop, hlen, hset⟩ := h.exists_successor_of_node hranked hleaf
        refine ⟨op, hop, ts.map (rule.forest.matching rule.signature), ?_, ?_, hset.symm⟩
        · rw [List.length_map, hlen]
        · intro set hmem
          obtain ⟨t, ht, rfl⟩ := List.mem_map.1 hmem
          have hlt := Tree.depth_lt_of_mem_children name ht
          exact ih.2 ⟨t, (Tree.ranked_node_iff.1 hranked).2 t ht, by omega, rfl⟩

-- ---------------------------------------------------------------------------
-- All layers
-- ---------------------------------------------------------------------------

/-- A table in which a pass finds nothing holds the match sets of all ranked trees. -/
theorem BuiltFrom.mem_of_closed_iff (h : rule.BuiltFrom patterns) {n : Nat}
    (hclosed : rule.Closed
      (rule.afterPasses n (MatchSets.ofLeaves rule.signature rule.forest)))
    {s : List MemberId} :
    s ∈ (rule.afterPasses n (MatchSets.ofLeaves rule.signature rule.forest)).toList ↔
      ∃ t, Tree.Ranked rule.signature t ∧ rule.forest.matching rule.signature t = s := by
  constructor
  · intro hs
    obtain ⟨t, hranked, -, hs⟩ := h.mem_afterPasses_iff.1 hs
    exact ⟨t, hranked, hs⟩
  · rintro ⟨t, hranked, hs⟩
    rw [← afterPasses_of_closed hclosed t.depth, ← afterPasses_add]
    exact h.mem_afterPasses_iff.2 ⟨t, hranked, by omega, hs⟩

/-- A discovery that comes to its end finds just the sets of all ranked trees. -/
theorem BuiltFrom.mem_discover_iff (h : rule.BuiltFrom patterns) {limit : Nat}
    (hcomplete : (rule.discover limit).complete = true) {s : List MemberId} :
    s ∈ (rule.discover limit).table.toList ↔
      ∃ t, Tree.Ranked rule.signature t ∧ rule.forest.matching rule.signature t = s := by
  have hclosed := closed_of_complete hcomplete
  rw [closeWithin_table] at hclosed
  rw [discover, close, closeWithin_table]
  exact h.mem_of_closed_iff hclosed

/-- A search that its limit stopped has made exactly as many passes. -/
theorem discover_table_of_stopped {limit : Nat}
    (h : (rule.discover limit).complete = false) :
    (rule.discover limit).table =
      rule.afterPasses limit (MatchSets.ofLeaves rule.signature rule.forest) := by
  have hlength := length_passes_of_not_complete h
  rw [discover, close, closeWithin_table]
  by_cases hlimit : limit = 0
  · rw [if_pos hlimit] at hlength
    exact absurd hlength (by simp)
  · rw [if_neg hlimit] at hlength ⊢
    rw [← Option.some.inj hlength]

/-- After any number of passes over the leaf states, the table holds exactly the match sets of
the ranked trees that are at most one deeper than there were passes; in particular after a
search that was stopped by its limit. A search that came to its end has found the match sets
of all ranked trees, and nothing else. -/
theorem discover_exact (h : rule.BuiltFrom patterns) :
    (∀ k s, s ∈ (rule.afterPasses k (MatchSets.ofLeaves rule.signature rule.forest)).toList ↔
      ∃ t, Tree.Ranked rule.signature t ∧ t.depth ≤ k + 1 ∧
        rule.forest.matching rule.signature t = s) ∧
    (∀ limit, (rule.discover limit).error? limit = some (.passLimitExceeded limit) →
      ∀ s, s ∈ (rule.discover limit).table.toList ↔
        ∃ t, Tree.Ranked rule.signature t ∧ t.depth ≤ limit + 1 ∧
          rule.forest.matching rule.signature t = s) ∧
    ∀ limit, (rule.discover limit).error? limit = none →
      ∀ s, s ∈ (rule.discover limit).table.toList ↔
        ∃ t, Tree.Ranked rule.signature t ∧ rule.forest.matching rule.signature t = s := by
  refine ⟨?_, ?_, ?_⟩
  · intro k s
    exact h.mem_afterPasses_iff
  · intro limit herror s
    -- a search that is stopped has made exactly as many passes as it was allowed
    have hstopped := (Closure.error?_eq_some_iff.1 herror).1
    rw [discover_table_of_stopped hstopped]
    exact h.mem_afterPasses_iff
  · intro limit herror s
    exact h.mem_discover_iff (Closure.error?_eq_none_iff.1 herror)

/-- With the pattern `f(a, *)`, the match set of the tree `f(a, b)` is found by the first pass. -/
theorem mem_first_pass_of_pair : ∃ rule : MatchRule,
    rule.BuiltFrom [.node "f" [Tree.leaf "a", Tree.wildcard]] ∧
    rule.forest.matching rule.signature (.node "f" [Tree.leaf "a", Tree.leaf "b"]) ∈
      (rule.afterPasses 1 (MatchSets.ofLeaves rule.signature rule.forest)).toList := by
  have haccepted : ([Tree.node "f" [Tree.leaf "a", Tree.wildcard]].foldlM Signature.register
      .empty).toOption.isSome = true := by decide +kernel
  obtain ⟨sig, hsig⟩ := exists_eq_ok_of_isSome haccepted
  obtain ⟨rule, -, h⟩ := exists_builtFrom (List.cons_ne_nil _ _) hsig
  have hfits := (Signature.foldlM_register_eq_ok h.signature).2 _ List.mem_cons_self _
    (Tree.mem_preOrder_self _)
  obtain ⟨op, hop, harity⟩ := Signature.arityOf?_eq_some_iff.1 hfits
  have hname : op.name = "f" := (Signature.find?_eq_some_iff.1 hop).1
  have harity : op.arity = 2 := harity
  have hmem : op ∈ rule.signature.operators := by
    refine Signature.mem_operators_iff.2 ⟨?_, by omega⟩
    rw [hname]
    exact hop
  have hranked : Tree.Ranked rule.signature (.node "f" [Tree.leaf "a", Tree.leaf "b"]) := by
    refine Tree.ranked_node_iff.2 ⟨fun _ => ⟨op, hmem, hname, harity⟩, ?_⟩
    intro t ht
    rcases List.mem_pair.1 ht with rfl | rfl
    · exact Tree.ranked_leaf _ _
    · exact Tree.ranked_leaf _ _
  exact ⟨rule, h, ((discover_exact h).1 1 _).2 ⟨_, hranked, by decide +kernel, rfl⟩⟩

end MatchRule

end TreePattern
