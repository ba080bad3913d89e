import TreePattern.Tree.Matching
import TreePattern.Proofs.BuiltFrom

/-!
# The members that match a tree

The members whose tree matches an input tree, ascending, are what an automaton is to find. At
a node they follow from the members that match the children, and what follows is what the
matching rule computes, if the node is ranked: its symbol is an operator, of just so many
children. At a leaf they are the wildcard and the leaf itself, if that is a member.

## Results

* `Forest.mem_matching_node_iff` — the members that match at a node.
* `Forest.matching_leaf`         — the members that match a leaf.
* `MatchRule.BuiltFrom.successor_matching` — the rule finds the members that match.
-/

namespace TreePattern

-- ---------------------------------------------------------------------------
-- Matching and ranked trees
-- ---------------------------------------------------------------------------

namespace Tree

/-- Only the wildcard itself is one. -/
theorem isWildcard_iff {t : Tree} : t.isWildcard ↔ t = wildcard := by
  obtain ⟨s, ts⟩ := t
  rw [isWildcard, isLeaf, Bool.and_eq_true, beq_iff_eq, List.isEmpty_iff, wildcard, leaf,
    node.injEq, symbol, children]

/-- Lists match child by child, and only with the same length. -/
theorem acceptsAll_iff_forall₂ {ps ts : List Tree} :
    acceptsAll ps ts = true ↔ List.Forall₂ Matches ps ts := by
  induction ps generalizing ts with
  | nil => cases ts <;> simp [acceptsAll]
  | cons p ps ih =>
    cases ts with
    | nil => simp [acceptsAll]
    | cons t ts => rw [acceptsAll, Bool.and_eq_true, ih, List.forall₂_cons, Matches]

/-- What matches a node is the wildcard or a node over patterns that match its children. -/
theorem matches_iff {p : Tree} {s : String} {ts : List Tree} :
    Matches p (node s ts) ↔
      p = wildcard ∨ ∃ ps, p = node s ps ∧ List.Forall₂ Matches ps ts := by
  obtain ⟨r, ps⟩ := p
  rw [Matches, accepts, Bool.or_eq_true, isWildcard_iff, Bool.and_eq_true, beq_iff_eq,
    acceptsAll_iff_forall₂]
  refine or_congr_right ?_
  constructor
  · rintro ⟨rfl, hps⟩
    exact ⟨ps, rfl, hps⟩
  · rintro ⟨ps', heq, hps⟩
    rw [node.injEq] at heq
    obtain ⟨rfl, rfl⟩ := heq
    exact ⟨rfl, hps⟩

/-- Every node of the tree that has children is an operator of the signature, and has as many
of them as the operator takes. Leaves may have any name. -/
def Ranked (sig : Signature) (t : Tree) : Prop :=
  ∀ u ∈ t.preOrder, u.children ≠ [] →
    ∃ op ∈ sig.operators, op.name = u.symbol ∧ op.arity = u.arity

instance (sig : Signature) (t : Tree) : Decidable (Ranked sig t) :=
  inferInstanceAs (Decidable (∀ u ∈ t.preOrder, u.children ≠ [] →
    ∃ op ∈ sig.operators, op.name = u.symbol ∧ op.arity = u.arity))

/-- A ranked node has an operator of its arity, unless it is a leaf, and ranked children. -/
theorem ranked_node_iff {sig : Signature} {s : String} {ts : List Tree} :
    Ranked sig (node s ts) ↔
      (ts ≠ [] → ∃ op ∈ sig.operators, op.name = s ∧ op.arity = ts.length) ∧
      ∀ t ∈ ts, Ranked sig t := by
  constructor
  · intro h
    refine ⟨h _ (mem_preOrder_self _), ?_⟩
    intro t ht u hu
    exact h u (mem_preOrder_of_mem_children ht hu)
  · rintro ⟨hroot, hchildren⟩ u hu
    rw [preOrder_eq, List.mem_cons, List.mem_flatMap] at hu
    rcases hu with rfl | ⟨t, ht, hu⟩
    · exact hroot
    · exact hchildren t ht u hu

/-- Any leaf is ranked, whether its symbol is known or not. -/
theorem ranked_leaf (sig : Signature) (s : String) : Ranked sig (leaf s) :=
  ranked_node_iff.2 ⟨fun h => absurd rfl h, by simp⟩

end Tree

-- ---------------------------------------------------------------------------
-- The members that match
-- ---------------------------------------------------------------------------

namespace Forest

/-- The members whose tree matches `t`, ascending. In a forest built from patterns every member
has a tree (`MatchRule.BuiltFrom.exists_tree`). -/
def matching (f : Forest) (sig : Signature) (t : Tree) : List MemberId :=
  f.members.filter fun i => (f.tree? sig i).any fun p => p.accepts t

variable {sig : Signature} {f : Forest}

/-- The members are listed by number. -/
theorem pairwise_members (f : Forest) : f.members.Pairwise (· < ·) :=
  Index.pairwise_range ..

/-- So are those that match a tree. -/
theorem pairwise_matching (f : Forest) (sig : Signature) (t : Tree) :
    (f.matching sig t).Pairwise (· < ·) :=
  f.pairwise_members.filter _

/-- A member matches a tree if the pattern it stands for does. -/
theorem mem_matching_iff {t : Tree} {i : MemberId} :
    i ∈ f.matching sig t ↔ ∃ p, f.idOf? sig p = some i ∧ Tree.Matches p t := by
  rw [matching, List.mem_filter, Option.any_eq_true]
  constructor
  · rintro ⟨-, p, hp, hmatch⟩
    exact ⟨p, tree?_eq_some_iff.1 hp, hmatch⟩
  · rintro ⟨p, hp, hmatch⟩
    exact ⟨mem_members_of_idOf? hp, p, tree?_eq_some_iff.2 hp, hmatch⟩

/-- At a node match the wildcard and the members with its symbol whose children match the
children. -/
theorem mem_matching_node_iff {s : String} {ts : List Tree} {i : MemberId} :
    i ∈ f.matching sig (.node s ts) ↔ i = f.wildcard ∨
      ∃ symbol cs, sig.idOf? s = some symbol ∧ f.lookup? symbol cs = some i ∧
        List.Forall₂ (· ∈ ·) cs (ts.map (f.matching sig)) := by
  simp only [mem_matching_iff, List.forall₂_map_right_iff]
  constructor
  · rintro ⟨p, hp, hmatch⟩
    rcases Tree.matches_iff.1 hmatch with rfl | ⟨ps, rfl, hps⟩
    · exact Or.inl (Option.some.inj (hp.symm.trans (idOf?_wildcard_tree sig f)))
    · obtain ⟨symbol, cs, hsymbol, hcs, hi⟩ := idOf?_node_iff.1 hp
      refine Or.inr ⟨symbol, cs, hsymbol, hi, ?_⟩
      exact forall₂_trans_of_mem hcs.flip hps fun c _ q t hc hq => ⟨q, hc, hq⟩
  · rintro (rfl | ⟨symbol, cs, hsymbol, hi, hcs⟩)
    · exact ⟨Tree.wildcard, idOf?_wildcard_tree sig f, Tree.matches_wildcard _⟩
    -- the patterns of the children are put together under the symbol
    · obtain ⟨ps, hps, hmatch⟩ := exists_between hcs
      exact ⟨.node s ps, idOf?_node_iff.2 ⟨symbol, cs, hsymbol, hps.flip, hi⟩,
        Tree.matches_iff.2 (Or.inr ⟨ps, rfl, hmatch⟩)⟩

/-- The set of a leaf is ascending, whichever of its two members comes first. -/
theorem pairwise_leafSet (wildcard leaf : MemberId) :
    (MatchSets.leafSet wildcard leaf).Pairwise (· < ·) :=
  Index.sorted_pairwise _

/-- A leaf is matched by the wildcard and by itself. -/
theorem mem_leafSet_iff {wildcard leaf i : MemberId} :
    i ∈ MatchSets.leafSet wildcard leaf ↔ i = wildcard ∨ i = leaf := by
  rw [MatchSets.leafSet, Index.mem_sorted, List.mem_cons, List.mem_singleton]

/-- A leaf is matched by itself, if it is a member, and by the wildcard. -/
theorem matching_leaf (f : Forest) (sig : Signature) (s : String) :
    f.matching sig (Tree.leaf s) =
      match (sig.idOf? s).bind f.leaf? with
      | some leaf => MatchSets.leafSet f.wildcard leaf
      | none => [f.wildcard] := by
  have hmem : ∀ i, i ∈ f.matching sig (Tree.leaf s) ↔
      i = f.wildcard ∨ (sig.idOf? s).bind f.leaf? = some i := by
    intro i
    rw [Tree.leaf, mem_matching_node_iff, Option.bind_eq_some_iff]
    simp only [List.map_nil, List.forall₂_nil_right_iff, leaf?]
    refine or_congr_right (exists_congr fun symbol => ?_)
    constructor
    · rintro ⟨cs, hsymbol, hi, rfl⟩
      exact ⟨hsymbol, hi⟩
    · rintro ⟨hsymbol, hi⟩
      exact ⟨[], hsymbol, hi, rfl⟩
  -- either the leaf is a member beside the wildcard, or the wildcard is alone
  split
  · next leaf hleaf =>
    refine eq_of_ascending (pairwise_matching ..) (pairwise_leafSet ..) ?_
    intro i
    rw [hmem, mem_leafSet_iff, hleaf, Option.some.injEq, eq_comm (a := leaf)]
  · next hnone =>
    refine eq_of_ascending (pairwise_matching ..) (List.pairwise_singleton ..) ?_
    intro i
    rw [hmem, hnone, List.mem_singleton]
    simp

end Forest

-- ---------------------------------------------------------------------------
-- The rule finds the members that match
-- ---------------------------------------------------------------------------

namespace MatchRule

variable {rule : MatchRule} {patterns : List Tree}

/-- Over the members that match the children, the rule finds those that match the node. -/
theorem BuiltFrom.successor_matching (h : rule.BuiltFrom patterns) {op : Symbol}
    (hop : op ∈ rule.signature.operators) {ts : List Tree} (hlen : ts.length = op.arity) :
    rule.successor rule.forest.wildcard op.id
        (ts.map (rule.forest.matching rule.signature)) =
      rule.forest.matching rule.signature (.node op.name ts) := by
  -- both sides ascend, so it is enough that they have the same members
  refine eq_of_ascending (successor_ascending ..) (Forest.pairwise_matching ..) ?_
  intro i
  have hid : rule.signature.idOf? op.name = some op.id :=
    Signature.idOf?_of_find? (Signature.mem_operators_iff.1 hop).1
  rw [mem_successor_iff_of_projection h.relevance hop (by rw [List.length_map, hlen]),
    Forest.mem_matching_node_iff]
  refine or_congr_right ?_
  constructor
  · rintro ⟨cs, hi, hcs⟩
    exact ⟨op.id, cs, hid, hi, hcs⟩
  · rintro ⟨symbol, cs, hsymbol, hi, hcs⟩
    obtain rfl : op.id = symbol := Option.some.inj (hid.symm.trans hsymbol)
    exact ⟨cs, hi, hcs⟩

/-- A leaf that is a member carries a terminal or the wildcard. -/
theorem BuiltFrom.leaf_eq (h : rule.BuiltFrom patterns) {s : String} {leaf : MemberId}
    (h' : (rule.signature.idOf? s).bind rule.forest.leaf? = some leaf) :
    leaf = rule.forest.wildcard ∨
      ∃ t ∈ rule.signature.terminals, t.name = s ∧ rule.forest.leaf? t.id = some leaf := by
  obtain ⟨id, hid, hleaf⟩ := Option.bind_eq_some_iff.1 h'
  obtain ⟨t, ht, rfl⟩ := Signature.exists_find?_of_idOf? hid
  obtain rfl : t.name = s := (Signature.find?_eq_some_iff.1 ht).1
  have harity : 0 = t.arity := h.length_eq_arity ht hleaf
  by_cases hw : t.name = wildcardSymbol
  · left
    rw [hw, Signature.idOf?_wildcardSymbol, Option.some.injEq] at hid
    rw [← hid, Forest.leaf?, Forest.lookup?, rule.forest.idOf?_wildcard] at hleaf
    exact (Option.some.inj hleaf).symm
  · exact Or.inr ⟨t, Signature.mem_terminals_iff.2 ⟨ht, hw, harity.symm⟩, rfl, hleaf⟩

end MatchRule

end TreePattern
