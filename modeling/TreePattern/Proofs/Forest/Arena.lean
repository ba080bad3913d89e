import TreePattern.Forest.Arena
import TreePattern.Proofs.Forest.Forward

/-!
# The stores of a forest agree

A node that is added to an arena is entered under the next number into three stores. As long as it
is new, this is what inserting it into a numbering does, so the stores stay aligned with the
numbering and with each other. What a reading leaves are different nodes in the order of their
numbers, so the arena of some patterns holds what their forest holds.

## Results

* `Arena.Aligned.push`         — adding a new node keeps the stores aligned.
* `Arena.aligned_ofNodes`      — different nodes, and the wildcard after them.
* `Forest.exists_store`        — the arena of the patterns of a forest.
-/

namespace TreePattern

-- ---------------------------------------------------------------------------
-- Aligned stores
-- ---------------------------------------------------------------------------

namespace Arena

/-- The numbers whose node has the given root symbol, ascending. -/
def numbersOf (n : Numbering .member (Node .member)) (symbol : SymbolId) : List MemberId :=
  n.ids.filter fun i => (n.get? i).any fun node => node.symbol = symbol

/-- Each store of an arena answers as the numbering does. -/
structure Aligned (a : Arena) (n : Numbering .member (Node .member)) : Prop where
  nodes : a.nodes.toList = n.toList
  index : ∀ node, a.index[node]? = n.idOf? node
  rootedAt : ∀ symbol, a.rootedAt symbol = numbersOf n symbol

variable {a : Arena} {n : Numbering .member (Node .member)} {node : Node .member}

theorem aligned_empty : empty.Aligned Numbering.empty where
  nodes := rfl
  index _ := rfl
  rootedAt _ := rfl

theorem Aligned.size (h : a.Aligned n) : a.nodes.size = n.size := by
  rw [← Numbering.length_toList, ← h.nodes, Array.length_toList]

theorem rootedAt_push (a : Arena) (node : Node .member) (symbol : SymbolId) :
    (a.push node).rootedAt symbol =
      a.rootedAt symbol ++ if node.symbol = symbol then [⟨a.nodes.size⟩] else [] := by
  rw [rootedAt, push, Std.TreeMap.getD_insert]
  split
  · next heq =>
    obtain rfl : node.symbol = symbol := Std.LawfulEqCmp.compare_eq_iff_eq.1 heq
    rw [if_pos rfl, Array.toList_push]
    rfl
  · next hne =>
    rw [if_neg fun heq => hne (Std.LawfulEqCmp.compare_eq_iff_eq.2 heq), List.append_nil]
    rfl

theorem numbersOf_insert (hnew : n.idOf? node = none) (symbol : SymbolId) :
    numbersOf (n.insert node) symbol =
      numbersOf n symbol ++ if node.symbol = symbol then [⟨n.size⟩] else [] := by
  have hold : ∀ i ∈ n.ids, (n.insert node).get? i = n.get? i := by
    intro i hi
    have hlt : i.val < n.values.size := Index.mem_range.1 hi
    have hget : n.get? i = some n.values[i.val] := Array.getElem?_eq_getElem hlt
    rw [hget, Numbering.get?_insert_of_get? hget]
  rw [numbersOf, Numbering.ids_insert_of_new hnew, List.filter_append, List.filter_singleton,
    Numbering.get?_insert_last hnew]
  congr 1
  · refine List.filter_congr fun i hi => ?_
    rw [hold i hi]
  · simp

/-- A new node enters all three stores under the number that it gets. -/
theorem Aligned.push (h : a.Aligned n) (hnew : n.idOf? node = none) :
    (a.push node).Aligned (n.insert node) where
  nodes := by
    rw [Numbering.toList_insert_of_new hnew, ← h.nodes]
    exact Array.toList_push
  index other := by
    rw [Numbering.idOf?_insert_of_new hnew, ← h.index, ← h.size]
    exact Std.TreeMap.getElem?_insert
  rootedAt symbol := by
    rw [rootedAt_push, numbersOf_insert hnew, h.rootedAt, h.size]

theorem aligned_foldl_push {nodes : List (Node .member)} (hnodup : nodes.Nodup) :
    (nodes.foldl Arena.push empty).Aligned (Numbering.ofList nodes) := by
  induction nodes using List.reverseRecOn with
  | nil => exact aligned_empty
  | append_singleton nodes node ih =>
    obtain ⟨hnodes, -, hdisjoint⟩ := List.nodup_append.1 hnodup
    rw [List.foldl_concat, Numbering.ofList_concat]
    refine (ih hnodes).push (Numbering.idOf?_eq_none_iff.2 fun hmem => ?_)
    rw [Numbering.mem_toList_ofList] at hmem
    exact hdisjoint node hmem node (List.mem_singleton_self node) rfl

/-- Different nodes are stored as they are numbered, the wildcard after them if it is new. -/
theorem aligned_ofNodes {nodes : List (Node .member)} (hnodup : nodes.Nodup) :
    (ofNodes nodes).Aligned (Forest.ofNodes (Numbering.ofList nodes)).nodes := by
  have haligned := aligned_foldl_push hnodup
  have hwildcard := haligned.index ⟨Symbol.wildcardId, []⟩
  rw [ofNodes, Forest.ofNodes]
  dsimp only
  split
  · next hknown =>
    rw [Std.TreeMap.contains_eq_isSome_getElem?, hwildcard] at hknown
    rwa [Numbering.insert_of_contains hknown]
  · next hnew =>
    rw [Std.TreeMap.contains_eq_isSome_getElem?, hwildcard, Option.not_isSome_iff_eq_none] at hnew
    exact haligned.push hnew

end Arena

namespace Forest

variable {sig : Signature} {patterns : List Tree} {f : Forest}

/-- The patterns of a forest are stored without fail, and each store answers as the forest does. -/
theorem exists_store (h : buildForward sig patterns = .ok f) :
    ∃ a, store sig patterns = .ok a ∧ a.Aligned f.nodes := by
  unfold buildForward at h
  unfold store
  split at h
  · exact absurd h (by simp)
  · next hne =>
    rw [if_neg hne]
    cases hread : Sharing.readAll sig patterns .empty with
    | none =>
      rw [hread] at h
      exact absurd h (by simp)
    | some result =>
      rw [hread] at h
      -- a reading leaves different nodes, so none of them overwrites another in a store
      obtain ⟨st, -, hnodes⟩ := (Sharing.readAll_tracks hread).exists_nodeList
      dsimp only at h ⊢
      rw [hnodes] at h ⊢
      cases h
      exact ⟨_, rfl, Arena.aligned_ofNodes st.nodes.nodup_toList⟩

end Forest

end TreePattern
