import TreePattern.Proofs.Tree.Generalisation
import TreePattern.Tree.Stack

/-!
# A walk with a stack is the pre-order

After any number of steps the stack has still to yield what the pre-order of the tree has after as
many nodes, whatever trees lie on the stack by then. The nodes of a tree are told apart by their
positions, since equal subtrees can stand at several of them: the walk comes by every position of
the tree once, and the positions come in lexicographic order.

## Results

* `Tree.mem_positions_iff`        — the listed positions are those where a subtree stands.
* `Tree.pairwise_positions`       — they are listed in lexicographic order, none of them twice.
* `Tree.map_subtree?_positions`   — the subtrees there are the pre-order.
* `Tree.Stack.toList_eq`          — what any stack has still to yield.
* `Tree.Stack.next_eq`            — a step yields the first of it and leaves the rest.
* `Tree.Stack.walks_in_pre_order` — what a walk yields after any number of steps.
-/

namespace TreePattern

namespace Tree

-- ---------------------------------------------------------------------------
-- Positions in pre-order
-- ---------------------------------------------------------------------------

/-- The positions of a tree, each before those below it and before those to the right of it. -/
def positions : Tree → List (List Nat) :=
  fold fun _ children => [] :: (children.mapIdx fun k ps => ps.map (k :: ·)).flatten

theorem positions_node (s : String) (ts : List Tree) :
    (node s ts).positions = [] :: (ts.mapIdx fun k t => t.positions.map (k :: ·)).flatten := by
  rw [positions, fold_node, mapIdx_map]

theorem mem_positions_iff {t : Tree} {position : List Nat} :
    position ∈ t.positions ↔ (t.subtree? position).isSome := by
  induction t generalizing position with
  | node s ts ih =>
    rw [positions_node, List.mem_cons, List.mem_flatten]
    -- the root, or a child and a position below it
    cases position with
    | nil => exact ⟨fun _ => rfl, fun _ => Or.inl rfl⟩
    | cons k position =>
      simp only [List.mem_mapIdx, subtree?, reduceCtorEq, false_or]
      constructor
      · rintro ⟨-, ⟨i, hi, rfl⟩, hmem⟩
        obtain ⟨below, hbelow, heq⟩ := List.mem_map.1 hmem
        cases heq
        rw [List.getElem?_eq_getElem hi]
        exact (ih _ (List.getElem_mem hi)).1 hbelow
      · intro h
        obtain ⟨t, ht⟩ := Option.isSome_iff_exists.1 (Option.isSome_of_isSome_bind h)
        rw [ht] at h
        obtain ⟨hk, rfl⟩ := List.getElem?_eq_some_iff.1 ht
        exact ⟨_, ⟨k, hk, rfl⟩, List.mem_map_of_mem ((ih _ (List.getElem_mem hk)).2 h)⟩

/-- Each position comes before all that are lexicographically larger, so none is listed twice. -/
theorem pairwise_positions (t : Tree) : t.positions.Pairwise (· < ·) := by
  induction t with
  | node s ts ih =>
    rw [positions_node, List.pairwise_cons, List.pairwise_flatten]
    refine ⟨?_, ?_, ?_⟩
    · intro position hmem
      obtain ⟨l, hl, hmem⟩ := List.mem_flatten.1 hmem
      obtain ⟨k, hk, rfl⟩ := List.mem_mapIdx.1 hl
      obtain ⟨below, -, rfl⟩ := List.mem_map.1 hmem
      exact List.nil_lt_cons k below
    · intro l hl
      obtain ⟨k, hk, rfl⟩ := List.mem_mapIdx.1 hl
      refine List.pairwise_map.2 ((ih _ (List.getElem_mem hk)).imp fun hlt => ?_)
      exact List.cons_lt_cons_iff.2 (Or.inr ⟨rfl, hlt⟩)
    -- positions below different children are told apart by the first number
    · refine List.pairwise_iff_getElem.2 fun i j hi hj hij position hmem position' hmem' => ?_
      rw [List.getElem_mapIdx] at hmem hmem'
      obtain ⟨below, -, rfl⟩ := List.mem_map.1 hmem
      obtain ⟨below', -, rfl⟩ := List.mem_map.1 hmem'
      exact List.cons_lt_cons_iff.2 (Or.inl hij)

theorem map_subtree?_positions (t : Tree) :
    t.positions.map t.subtree? = t.preOrder.map some := by
  induction t with
  | node s ts ih =>
    have hchildren : (ts.mapIdx fun k t => t.positions.map (k :: ·)).map
          (List.map (node s ts).subtree?) = ts.map fun t => t.preOrder.map some := by
      refine List.ext_getElem? fun k => ?_
      rw [List.getElem?_map, List.getElem?_mapIdx, List.getElem?_map, Option.map_map]
      refine Option.map_congr fun t ht => ?_
      -- what is at a position below a child is what the child has at the rest of it
      have hbelow : (node s ts).subtree? ∘ (k :: ·) = t.subtree? :=
        funext fun position => by rw [Function.comp_apply, subtree?, ht, Option.bind_some]
      rw [Function.comp_apply, List.map_map, hbelow, ih t (List.mem_of_getElem? ht)]
    rw [positions_node, List.map_cons, List.map_flatten, hchildren, preOrder_eq, List.map_cons,
      List.map_flatMap, ← List.flatMap_def]
    rfl

theorem length_positions (t : Tree) : t.positions.length = t.size := by
  rw [← length_preOrder, ← List.length_map t.subtree?, map_subtree?_positions, List.length_map]

namespace Stack

-- ---------------------------------------------------------------------------
-- The steps
-- ---------------------------------------------------------------------------

theorem next?_eq (s : Stack) : Enumeration.next? s = s.next.1.map (·, s.next.2) := rfl

theorem next?_of_none {s : Stack} (h : s.next.1 = none) : Enumeration.next? s = none := by
  rw [next?_eq, h, Option.map_none]

theorem next?_of_some {s : Stack} {t : Tree} (h : s.next.1 = some t) :
    Enumeration.next? s = some (t, s.next.2) := by
  rw [next?_eq, h, Option.map_some]

theorem next_of_none {s : Stack} (h : s.next.1 = none) : s.next.2 = s := by
  rw [next] at h ⊢
  split at h
  · rfl
  · cases h

theorem toList_toWalk (s : Stack) : Enumeration.toList s.toWalk = Enumeration.toList s := by
  have hstep := next?_toWalk s
  cases hnext : s.next.1 with
  | none =>
    rw [hnext] at hstep
    rw [Enumeration.toList_none hstep, Enumeration.toList_none (next?_of_none hnext)]
  | some t =>
    rw [hnext] at hstep
    have := Enumeration.remaining_lt (next?_of_some hnext)
    rw [Enumeration.toList_some hstep, Enumeration.toList_some (next?_of_some hnext),
      toList_toWalk s.next.2]
termination_by Enumeration.remaining s

/-- A stack has still to yield the pre-orders of the subtrees on it, from its top to its bottom. -/
theorem toList_eq (s : Stack) :
    Enumeration.toList s = s.trees.toList.reverse.flatMap preOrder := by
  rw [← toList_toWalk, Walk.toList_eq, toWalk]

theorem toList_ofTree (t : Tree) : Enumeration.toList (ofTree t) = t.preOrder := by
  rw [toList_eq]
  exact List.flatMap_singleton ..

/-- A step takes the first of the nodes that are still to come. -/
theorem next_eq (s : Stack) : s.next.1 = (Enumeration.toList s).head? ∧
    Enumeration.toList s.next.2 = (Enumeration.toList s).tail := by
  cases h : s.next.1 with
  | none =>
    rw [next_of_none h, Enumeration.toList_none (next?_of_none h)]
    exact ⟨rfl, rfl⟩
  | some t =>
    rw [Enumeration.toList_some (next?_of_some h)]
    exact ⟨rfl, rfl⟩

-- ---------------------------------------------------------------------------
-- Whole walks
-- ---------------------------------------------------------------------------

/-- The stack after the given number of steps. -/
def after (s : Stack) : Nat → Stack
  | 0 => s
  | k + 1 => (s.after k).next.2

theorem toList_after (s : Stack) (k : Nat) :
    Enumeration.toList (s.after k) = (Enumeration.toList s).drop k := by
  induction k with
  | zero => rw [after, List.drop_zero]
  | succ k ih => rw [after, (next_eq _).2, ih, List.tail_drop]

theorem next_after (s : Stack) (k : Nat) :
    (s.after k).next.1 = (Enumeration.toList s)[k]? := by
  rw [(next_eq _).1, toList_after, List.head?_drop]

theorem countNodes_eq_size (t : Tree) : t.countNodes = t.size := by
  rw [countNodes, Enumeration.count_eq_length, toList_ofTree, length_preOrder]

/-- After `k` steps a walk has still to come by the nodes of the pre-order from number `k` on, and
the next step yields the first of them, or nothing if there are none left. In this way the walk
comes once by what stands at each position of the tree, and counting its steps counts the
positions. -/
theorem walks_in_pre_order (t : Tree) :
    (∀ k, Enumeration.toList ((ofTree t).after k) = t.preOrder.drop k ∧
      ((ofTree t).after k).next.1 = t.preOrder[k]? ∧
      (((ofTree t).after k).next.1 = none ↔ t.countNodes ≤ k)) ∧
    (∀ position, position ∈ t.positions ↔ (t.subtree? position).isSome) ∧
    t.positions.Pairwise (· < ·) ∧
    (Enumeration.toList (ofTree t)).map some = t.positions.map t.subtree? ∧
    t.countNodes = t.positions.length := by
  refine ⟨fun k => ⟨?_, ?_, ?_⟩, fun _ => mem_positions_iff, pairwise_positions t, ?_, ?_⟩
  · rw [toList_after, toList_ofTree]
  · rw [next_after, toList_ofTree]
  · rw [next_after, toList_ofTree, List.getElem?_eq_none_iff, length_preOrder, countNodes_eq_size]
  · rw [toList_ofTree, map_subtree?_positions]
  · rw [countNodes_eq_size, length_positions]

end Stack

end Tree

end TreePattern
