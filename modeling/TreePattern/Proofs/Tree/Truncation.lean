import TreePattern.Proofs.Matching

/-!
# The first levels of a tree

A pattern looks into a tree no deeper than it is itself. What lies below may therefore be cut
off: where a subtree with children starts on the last level that is kept, the wildcard leaf
takes its place. A pattern that ends on that level ends in a leaf, and a leaf other than the
wildcard matches neither of the two.

## Results

* `Tree.depth_truncate_le`    — a truncated tree has the levels that were kept.
* `Tree.ranked_truncate`      — a ranked tree stays ranked.
* `Tree.matches_truncate_iff` — patterns that are no deeper match it just as well.
* `Forest.matching_truncate`  — so the same members match it, if none is deeper.
-/

namespace TreePattern

namespace Tree

/-- Keeps the root and the `d` levels below it. A node on the last of them that has children
becomes the wildcard leaf. -/
def truncate : Nat → Tree → Tree
  | 0, t => if t.isLeaf then t else wildcard
  | d + 1, .node s ts => .node s (ts.map (truncate d))

theorem truncate_zero_leaf (s : String) : (leaf s).truncate 0 = leaf s := rfl

theorem truncate_zero_of_ne_nil {s : String} {ts : List Tree} (h : ts ≠ []) :
    (node s ts).truncate 0 = wildcard := by
  rw [truncate, if_neg]
  rw [isLeaf, children, List.isEmpty_iff]
  exact h

theorem truncate_succ (d : Nat) (s : String) (ts : List Tree) :
    (node s ts).truncate (d + 1) = node s (ts.map (truncate d)) := rfl

-- ---------------------------------------------------------------------------
-- Shape
-- ---------------------------------------------------------------------------

theorem depth_truncate_le (d : Nat) (t : Tree) : (t.truncate d).depth ≤ d + 1 := by
  induction d generalizing t with
  | zero =>
    obtain ⟨s, ts⟩ := t
    by_cases h : ts = []
    · rw [h, ← leaf, truncate_zero_leaf, depth_leaf]
    · rw [truncate_zero_of_ne_nil h, wildcard, depth_leaf]
  | succ d ih =>
    obtain ⟨s, ts⟩ := t
    rw [truncate_succ]
    refine depth_node_le ?_
    intro u hu
    obtain ⟨t, -, rfl⟩ := List.mem_map.1 hu
    exact ih t

theorem ranked_truncate {sig : Signature} {t : Tree} (d : Nat) (h : Ranked sig t) :
    Ranked sig (t.truncate d) := by
  induction d generalizing t with
  | zero =>
    obtain ⟨s, ts⟩ := t
    -- a leaf is left as it is, and anything else becomes the wildcard
    by_cases hleaf : ts = []
    · rw [hleaf]
      exact ranked_leaf sig s
    · rw [truncate_zero_of_ne_nil hleaf]
      exact ranked_leaf sig wildcardSymbol
  | succ d ih =>
    obtain ⟨s, ts⟩ := t
    obtain ⟨hroot, hchildren⟩ := ranked_node_iff.1 h
    rw [truncate_succ]
    refine ranked_node_iff.2 ⟨?_, ?_⟩
    · rw [List.length_map]
      intro hne
      exact hroot fun heq => hne (by rw [heq, List.map_nil])
    · intro u hu
      obtain ⟨t, ht, rfl⟩ := List.mem_map.1 hu
      exact ih (hchildren t ht)

-- ---------------------------------------------------------------------------
-- Matching
-- ---------------------------------------------------------------------------

/-- A leaf matches a node with children only as the wildcard. -/
theorem leaf_matches_iff {r s : String} {ts : List Tree} (h : ts ≠ []) :
    Matches (leaf r) (node s ts) ↔ leaf r = wildcard := by
  rw [matches_iff, or_iff_left]
  rintro ⟨ps, heq, hps⟩
  obtain ⟨rfl, rfl⟩ := Tree.node.inj heq
  exact h (List.forall₂_nil_left_iff.1 hps)

theorem leaf_matches_leaf_iff {r s : String} : Matches (leaf r) (leaf s) ↔
    leaf r = wildcard ∨ r = s := by
  rw [leaf, leaf, matches_iff]
  refine or_congr_right ?_
  constructor
  · rintro ⟨ps, heq, -⟩
    exact (Tree.node.inj heq).1
  · rintro rfl
    exact ⟨[], rfl, .nil⟩

/-- Patterns with no more levels than were kept match the truncated tree if they match the
tree, and only then. -/
theorem matches_truncate_iff {d : Nat} {p t : Tree} (h : p.depth ≤ d + 1) :
    Matches p (t.truncate d) ↔ Matches p t := by
  induction d generalizing p t with
  | zero =>
    obtain ⟨r, rfl⟩ := eq_leaf_of_depth_le h
    obtain ⟨s, ts⟩ := t
    by_cases hleaf : ts = []
    · rw [hleaf]
      rfl
    · rw [truncate_zero_of_ne_nil hleaf, leaf_matches_iff hleaf, wildcard, leaf_matches_leaf_iff]
      refine or_iff_left_of_imp ?_
      rintro rfl
      rfl
  | succ d ih =>
    obtain ⟨s, ts⟩ := t
    obtain ⟨r, ps⟩ := p
    -- the children of the pattern are less deep, so they see no difference
    have hchildren : ∀ q ∈ ps, ∀ t, Matches q (t.truncate d) ↔ Matches q t := by
      intro q hq t
      have hlt := depth_lt_of_mem_children r hq
      exact ih (by omega)
    rw [truncate_succ, matches_iff, matches_iff]
    refine or_congr_right (exists_congr fun qs => and_congr_right fun heq => ?_)
    obtain ⟨rfl, rfl⟩ := Tree.node.inj heq
    rw [List.forall₂_map_right_iff]
    constructor
    · exact fun hqs => forall₂_imp_of_mem hqs fun q hq t _ => (hchildren q hq t).1
    · exact fun hqs => forall₂_imp_of_mem hqs fun q hq t _ => (hchildren q hq t).2

end Tree

/-- The members that match a tree are found on as many levels as the deepest of them has. -/
theorem Forest.matching_truncate {f : Forest} {sig : Signature} {d : Nat}
    (h : ∀ p i, f.idOf? sig p = some i → p.depth ≤ d + 1) (t : Tree) :
    f.matching sig (t.truncate d) = f.matching sig t := by
  refine eq_of_ascending (pairwise_matching ..) (pairwise_matching ..) ?_
  intro i
  rw [mem_matching_iff, mem_matching_iff]
  exact exists_congr fun p => and_congr_right fun hp => Tree.matches_truncate_iff (h p i hp)

end TreePattern
