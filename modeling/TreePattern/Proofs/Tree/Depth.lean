import TreePattern.Tree
import Mathlib.Data.List.MinMax

/-!
# Depths of subtrees

A node is one deeper than the deepest of its children, so it has a subtree of every depth up
to its own. The trees of depth 1 are the leaves.

## Results

* `Tree.depth_node_le`             — a node is at most one deeper than a bound on its children.
* `Tree.eq_leaf_of_depth_le`       — the trees of depth 1.
* `Tree.exists_mem_preOrder_depth` — a tree has subtrees of every depth up to its own.
* `Tree.depth_le_maxDepth`         — no subtree of some trees is deeper than the deepest of them.
-/

namespace TreePattern

namespace Tree

variable {s : String} {ts : List Tree} {t : Tree}

theorem mem_preOrder_of_mem_children {u : Tree} (ht : t ∈ ts) (hu : u ∈ t.preOrder) :
    u ∈ (node s ts).preOrder := by
  rw [preOrder_eq]
  exact List.mem_cons_of_mem _ (List.mem_flatMap.2 ⟨t, ht, hu⟩)

private theorem foldr_max_mem {ds : List Nat} (h : ds.foldr max 0 ≠ 0) :
    ds.foldr max 0 ∈ ds := by
  induction ds with
  | nil => exact absurd rfl h
  | cons d ds ih =>
    rw [List.foldr_cons] at h ⊢
    rcases Nat.le_total (ds.foldr max 0) d with hle | hle
    · rw [Nat.max_eq_left hle]
      exact List.mem_cons_self
    · rw [Nat.max_eq_right hle] at h ⊢
      exact List.mem_cons_of_mem _ (ih h)

-- ---------------------------------------------------------------------------
-- A node and its children
-- ---------------------------------------------------------------------------

theorem depth_leaf (s : String) : (leaf s).depth = 1 := by
  rw [leaf, depth_node]
  rfl

theorem depth_pos (t : Tree) : 0 < t.depth := by
  obtain ⟨s, ts⟩ := t
  rw [depth_node]
  omega

theorem depth_lt_of_mem_children (s : String) (ht : t ∈ ts) : t.depth < (node s ts).depth := by
  have hle : t.depth ≤ (ts.map depth).foldr max 0 :=
    List.le_max_of_le' 0 (List.mem_map.2 ⟨t, ht, rfl⟩) le_rfl
  rw [depth_node]
  omega

/-- A node has a child that is only one less deep, unless it is a leaf. -/
theorem exists_mem_children_depth (h : (node s ts).depth ≠ 1) :
    ∃ t ∈ ts, t.depth + 1 = (node s ts).depth := by
  rw [depth_node] at h ⊢
  obtain ⟨t, ht, hdepth⟩ := List.mem_map.1 (foldr_max_mem (Nat.succ_ne_succ_iff.1 h))
  exact ⟨t, ht, by rw [hdepth]⟩

theorem depth_node_le {d : Nat} (h : ∀ t ∈ ts, t.depth ≤ d) : (node s ts).depth ≤ d + 1 := by
  by_cases hleaf : (node s ts).depth = 1
  · omega
  · obtain ⟨t, ht, hdepth⟩ := exists_mem_children_depth hleaf
    have := h t ht
    omega

theorem eq_leaf_of_depth_le (h : t.depth ≤ 1) : ∃ name, t = leaf name := by
  obtain ⟨s, ts⟩ := t
  cases ts with
  | nil => exact ⟨s, rfl⟩
  | cons u us =>
    have hlt := depth_lt_of_mem_children s (List.mem_cons_self (a := u) (l := us))
    have := u.depth_pos
    omega

-- ---------------------------------------------------------------------------
-- All depths below
-- ---------------------------------------------------------------------------

theorem exists_mem_preOrder_depth {d : Nat} (hpos : 0 < d) (hle : d ≤ t.depth) :
    ∃ u ∈ t.preOrder, u.depth = d := by
  induction t with
  | node s ts ih =>
    by_cases heq : d = (node s ts).depth
    · exact ⟨_, mem_preOrder_self _, heq.symm⟩
    · have hne : (node s ts).depth ≠ 1 := by omega
      obtain ⟨t, ht, hdepth⟩ := exists_mem_children_depth hne
      obtain ⟨u, hu, hd⟩ := ih t ht (by omega)
      exact ⟨u, mem_preOrder_of_mem_children ht hu, hd⟩

theorem depth_le_of_mem_preOrder {u : Tree} (hu : u ∈ t.preOrder) : u.depth ≤ t.depth := by
  induction t with
  | node s ts ih =>
    rw [preOrder_eq, children, List.mem_cons, List.mem_flatMap] at hu
    rcases hu with rfl | ⟨t, ht, hu⟩
    · exact Nat.le_refl _
    · have hlt := depth_lt_of_mem_children s ht
      have hle := ih t ht hu
      omega

-- ---------------------------------------------------------------------------
-- Several trees
-- ---------------------------------------------------------------------------

/-- The depth of the deepest of some trees. -/
def maxDepth (ts : List Tree) : Nat := (ts.map depth).foldr max 0

theorem depth_le_maxDepth {u : Tree} (ht : t ∈ ts) (hu : u ∈ t.preOrder) :
    u.depth ≤ maxDepth ts :=
  Nat.le_trans (depth_le_of_mem_preOrder hu) (List.le_max_of_le' 0 (List.mem_map.2 ⟨t, ht, rfl⟩) le_rfl)

end Tree

end TreePattern
