import TreePattern.Proofs.Matching

/-!
# Positions, and generalised patterns

A position in a tree is a way down from the root, given by the numbers of the children that it
passes. A pattern matches a tree position by position: whatever stands at a position of the
pattern matches what stands there in the tree. So two patterns that match one and the same tree
have the same symbol wherever neither has the wildcard. A pattern becomes more general if the
wildcard takes the place of some of its subtrees, and it still matches what it matched before.

## Results

* `Tree.exists_subtree?_of_matches` — matching, seen from a position.
* `Tree.symbol_eq_of_matches`       — patterns that match the same tree agree on their symbols.
* `Tree.matches_generalise`         — a more general pattern matches at least as much.
-/

namespace TreePattern

theorem mapIdx_map {α β γ : Type} (f : Nat → β → γ) (g : α → β) (as : List α) :
    (as.map g).mapIdx f = as.mapIdx fun k a => f k (g a) := by
  refine List.ext_getElem? fun k => ?_
  rw [List.getElem?_mapIdx, List.getElem?_mapIdx, List.getElem?_map, Option.map_map]
  rfl

namespace Tree

-- ---------------------------------------------------------------------------
-- Positions
-- ---------------------------------------------------------------------------

/-- The subtree at a position. -/
def subtree? : Tree → List Nat → Option Tree
  | t, [] => some t
  | .node _ ts, k :: position => ts[k]?.bind (subtree? · position)

theorem exists_subtree?_of_matches {p t u : Tree} {position : List Nat} (h : Matches p t)
    (hu : p.subtree? position = some u) : ∃ v, t.subtree? position = some v ∧ Matches u v := by
  induction position generalizing p t with
  | nil =>
    cases p
    cases hu
    exact ⟨t, by cases t; rfl, h⟩
  | cons k position ih =>
    obtain ⟨s, ps⟩ := p
    obtain ⟨r, ts⟩ := t
    obtain ⟨q, hq, hu⟩ := Option.bind_eq_some_iff.1 hu
    rcases matches_iff.1 h with hwildcard | ⟨qs, heq, hqs⟩
    · -- the wildcard has no children, so there is no position below it
      obtain ⟨-, rfl⟩ := Tree.node.inj hwildcard
      exact absurd hq (by simp)
    · obtain ⟨rfl, rfl⟩ := Tree.node.inj heq
      obtain ⟨t, ht, hmatch⟩ := exists_getElem?_of_forall₂ hqs hq
      obtain ⟨v, hv, huv⟩ := ih hmatch hu
      exact ⟨v, Option.bind_eq_some_iff.2 ⟨t, ht, hv⟩, huv⟩

/-- A pattern whose root is not named as the wildcard matches only trees with that symbol. -/
theorem symbol_eq_of_ne_wildcardSymbol {p t : Tree} (h : Matches p t)
    (hp : p.symbol ≠ wildcardSymbol) : p.symbol = t.symbol := by
  obtain ⟨s, ts⟩ := t
  rcases matches_iff.1 h with rfl | ⟨ps, rfl, -⟩
  · exact absurd rfl hp
  · rfl

/-- Two patterns that match the same tree have the same symbol at each position that both have,
unless one of them has the wildcard there. -/
theorem symbol_eq_of_matches {p q t u v : Tree} {position : List Nat} (hp : Matches p t)
    (hq : Matches q t) (hu : p.subtree? position = some u) (hv : q.subtree? position = some v)
    (hu' : u.symbol ≠ wildcardSymbol) (hv' : v.symbol ≠ wildcardSymbol) : u.symbol = v.symbol := by
  obtain ⟨w, hw, huw⟩ := exists_subtree?_of_matches hp hu
  obtain ⟨w', hw', hvw⟩ := exists_subtree?_of_matches hq hv
  obtain rfl : w = w' := Option.some.inj (hw.symm.trans hw')
  rw [symbol_eq_of_ne_wildcardSymbol huw hu', symbol_eq_of_ne_wildcardSymbol hvw hv']

-- ---------------------------------------------------------------------------
-- Generalising
-- ---------------------------------------------------------------------------

/-- Puts the wildcard in place of the subtrees at the chosen positions. -/
def generalise : Tree → (List Nat → Bool) → Tree :=
  fold fun s children chosen =>
    if chosen [] then wildcard
    else node s (children.mapIdx fun k child => child fun position => chosen (k :: position))

theorem generalise_node (s : String) (ts : List Tree) (chosen : List Nat → Bool) :
    (node s ts).generalise chosen =
      if chosen [] then wildcard
      else node s (ts.mapIdx fun k t => t.generalise fun position => chosen (k :: position)) := by
  rw [generalise, fold_node, mapIdx_map]

theorem matches_generalise {p t : Tree} (chosen : List Nat → Bool) (h : Matches p t) :
    Matches (p.generalise chosen) t := by
  induction p generalizing t chosen with
  | node s ps ih =>
    obtain ⟨r, ts⟩ := t
    rw [generalise_node]
    split
    · exact matches_wildcard _
    · rcases matches_iff.1 h with hwildcard | ⟨qs, heq, hqs⟩
      · -- the wildcard cannot be made more general
        obtain ⟨rfl, rfl⟩ := Tree.node.inj hwildcard
        exact matches_wildcard _
      · obtain ⟨rfl, rfl⟩ := Tree.node.inj heq
        have hchildren :
            List.Forall₂ (fun q t => ∀ chosen, Matches (q.generalise chosen) t) ps ts :=
          forall₂_imp_of_mem hqs fun q hq t _ hmatch chosen => ih q hq chosen hmatch
        refine matches_iff.2 (Or.inr ⟨_, rfl, ?_⟩)
        -- the matched tree is not changed at any place
        have hsame : ts.mapIdx (fun _ t => t) = ts := List.ext_getElem? (by simp)
        rw [← hsame]
        exact forall₂_mapIdx hchildren fun k _ q t hqt => hqt _

end Tree

end TreePattern
