import TreePattern.Proofs.FirstAppearance
import TreePattern.Proofs.Forest.Sharing

/-!
# The order of the members

A numbering of nodes lists some trees if its numbers are those of the trees, in their order. The
trees then determine the nodes. What sharing stores lists the subtrees that were visited, in the
order of their first appearance, and a finished forest lists the wildcard after them, unless it is
one of them.

## Results

* `Numbering.Lists.toList_eq` — the listed trees determine the nodes.
* `Sharing.Holds.lists`       — what sharing stores, by first appearance.
* `Forest.lists_of_build`     — the members of a finished forest, in order.
* `Forest.idOf?_of_build`, `Forest.exists_tree_of_build` — which trees are members.
* `Forest.build_cases`        — when there is a forest, and how building fails otherwise.
-/

namespace TreePattern

-- ---------------------------------------------------------------------------
-- Numberings of nodes
-- ---------------------------------------------------------------------------

namespace Numbering

variable {k : IndexKind} {sig : Signature} {nodes nodes' : Numbering k (Node k)}
  {trees : List Tree}

/-- The numbers in use are those of the given trees, in the order of these. -/
structure Lists (sig : Signature) (nodes : Numbering k (Node k)) (trees : List Tree) : Prop where
  size : nodes.size = trees.length
  idOfTree?_iff : ∀ t i, idOfTree? sig nodes t = some i ↔ trees[i.val]? = some t

/-- It is enough that every tree has the number of its place. -/
theorem Lists.of_places (hsize : nodes.size = trees.length)
    (h : ∀ t (i : Index k), trees[i.val]? = some t → idOfTree? sig nodes t = some i) :
    nodes.Lists sig trees := by
  refine ⟨hsize, fun t i => ⟨fun ht => ?_, h t i⟩⟩
  have hi : i.val < trees.length := hsize ▸ val_lt_size_of_idOfTree? ht
  have hplace := List.getElem?_eq_getElem hi
  rw [hplace, idOfTree?_inj ht (h _ i hplace)]

theorem Lists.get?_eq (h : nodes.Lists sig trees) (h' : nodes'.Lists sig trees) (i : Index k) :
    nodes.get? i = nodes'.get? i := by
  have hfind : idOfTree? sig nodes = idOfTree? sig nodes' :=
    funext fun t => Option.ext fun i => (h.idOfTree?_iff t i).trans (h'.idOfTree?_iff t i).symm
  by_cases hi : i.val < trees.length
  · obtain ⟨⟨s, ts⟩, ht⟩ : ∃ t, trees[i.val]? = some t := ⟨_, List.getElem?_eq_getElem hi⟩
    obtain ⟨symbol, children, hsymbol, hchildren, hget⟩ :=
      idOfTree?_node_iff.1 ((h.idOfTree?_iff _ i).2 ht)
    rw [hfind] at hchildren
    rw [hget, (idOfTree?_node_iff_get? hsymbol hchildren).1 ((h'.idOfTree?_iff _ i).2 ht)]
  · have hnone : ∀ n : Numbering k (Node k), n.Lists sig trees → n.get? i = none := by
      intro n hn
      exact Array.getElem?_eq_none (Nat.le_trans (Nat.le_of_eq hn.size) (Nat.le_of_not_lt hi))
    rw [hnone nodes h, hnone nodes' h']

theorem Lists.toList_eq (h : nodes.Lists sig trees) (h' : nodes'.Lists sig trees) :
    nodes.toList = nodes'.toList := by
  refine List.ext_getElem? fun n => ?_
  have := h.get?_eq h' ⟨n⟩
  rwa [get?_eq_getElem?_toList, get?_eq_getElem?_toList] at this

/-- A node whose children are listed is listed at the end, unless it is listed already. -/
theorem Lists.insert (h : nodes.Lists sig trees) {s : String} {symbol : SymbolId}
    {ts : List Tree} {children : List (Index k)} (hsymbol : sig.idOf? s = some symbol)
    (hchildren : List.Forall₂ (fun t c => idOfTree? sig nodes t = some c) ts children) :
    (nodes.insert ⟨symbol, children⟩).Lists sig
      (if .node s ts ∈ trees then trees else trees ++ [.node s ts]) := by
  have hplace {i : Index k} :
      trees[i.val]? = some (.node s ts) ↔ nodes.get? i = some ⟨symbol, children⟩ :=
    (h.idOfTree?_iff _ i).symm.trans (idOfTree?_node_iff_get? hsymbol hchildren)
  split
  · next hmem =>
    obtain ⟨n, hn⟩ := List.mem_iff_getElem?.1 hmem
    rwa [insert_of_contains (contains_iff.2 (mem_toList_iff.2 ⟨⟨n⟩, hplace.1 hn⟩))]
  · next hmem =>
    have hnew : ¬ nodes.contains ⟨symbol, children⟩ := by
      rw [contains_iff, mem_toList_iff]
      rintro ⟨i, hi⟩
      exact hmem (List.mem_of_getElem? (hplace.2 hi))
    have htoList : (nodes.insert ⟨symbol, children⟩).toList =
        nodes.toList ++ [⟨symbol, children⟩] := by
      rw [toList_insert, if_neg hnew]
    have hext := nodes.extends_insert ⟨symbol, children⟩
    -- the trees so far keep their places, and the new one comes last
    refine .of_places ?_ fun t i hi => ?_
    · rw [← length_toList, htoList, List.length_append, length_toList, h.size, List.length_append]
      rfl
    · rcases Nat.lt_or_ge i.val trees.length with hlt | hge
      · rw [List.getElem?_append_left hlt] at hi
        exact idOfTree?_of_extends hext ((h.idOfTree?_iff t i).2 hi)
      · rw [List.getElem?_append_right hge, List.getElem?_singleton] at hi
        split at hi
        · next hlast =>
          cases hi
          refine (idOfTree?_node_iff_get? hsymbol
            (hchildren.imp fun _ _ hc => idOfTree?_of_extends hext hc)).2 ?_
          rw [get?_eq_getElem?_toList, htoList, List.getElem?_append_right, length_toList, h.size,
            hlast]
          · rfl
          · rwa [length_toList, h.size]
        · exact absurd hi (by simp)

end Numbering

-- ---------------------------------------------------------------------------
-- What sharing stores
-- ---------------------------------------------------------------------------

namespace Sharing

variable {sig : Signature} {visited visited' : List Tree} {st st' : State}

/-- The finished nodes list the visited trees, each where it first appears. -/
theorem Holds.lists (h : Holds sig visited st) : st.nodes.Lists sig visited.eraseDups := by
  have horder : st.order.toList = st.occurrences.eraseDups := Numbering.toList_ofList _
  have hhandles := forall₂_eraseDups (Numbering.biUnique_idOfTree? sig st.pool) h.occurrences
  refine .of_places ?_ fun t i ht => ?_
  · rw [← Numbering.length_toList, ← h.forall₂_nodes.length_eq, horder, hhandles.length_eq]
  · obtain ⟨handle, hhandle, hid⟩ := exists_getElem?_of_forall₂ hhandles ht
    refine h.idOfTree?_nodes hid (Numbering.idOf?_eq_some_iff.2 ?_)
    rwa [Numbering.get?_eq_getElem?_toList, horder]

theorem State.ofList_toList_nodes (st : State) : Numbering.ofList st.nodes.toList = st.nodes := by
  rw [nodes, Numbering.toList_ofList, Numbering.ofList_eraseDups]

/-- The finished nodes depend only on the order of first appearance. -/
theorem Holds.nodes_eq (h : Holds sig visited st) (h' : Holds sig visited' st')
    (heq : visited.eraseDups = visited'.eraseDups) : st.nodes = st'.nodes := by
  have hlists := h.lists
  rw [heq] at hlists
  rw [← st.ofList_toList_nodes, ← st'.ofList_toList_nodes, hlists.toList_eq h'.lists]

end Sharing

-- ---------------------------------------------------------------------------
-- Finished forests
-- ---------------------------------------------------------------------------

namespace Forest

variable {sig : Signature} {f : Forest} {patterns : List Tree}

/-- The subpatterns of some patterns, in the order of their first appearance. -/
def subpatterns (patterns : List Tree) : List Tree :=
  (patterns.flatMap Tree.preOrder).eraseDups

/-- The members of a forest, in order: the subpatterns, then the wildcard if it is none. -/
def listing (patterns : List Tree) : List Tree :=
  if Tree.wildcard ∈ subpatterns patterns then subpatterns patterns
  else subpatterns patterns ++ [Tree.wildcard]

theorem mem_subpatterns_iff {t : Tree} :
    t ∈ subpatterns patterns ↔ ∃ p ∈ patterns, t ∈ p.preOrder := by
  rw [subpatterns, List.mem_eraseDups, List.mem_flatMap]

theorem mem_listing_iff {t : Tree} :
    t ∈ listing patterns ↔ t = Tree.wildcard ∨ t ∈ subpatterns patterns := by
  unfold listing
  split
  · next h => exact ⟨Or.inr, fun ht => ht.elim (fun heq => heq ▸ h) id⟩
  · rw [List.mem_append, List.mem_singleton, or_comm]

theorem subpatterns_prefix_listing (patterns : List Tree) :
    subpatterns patterns <+: listing patterns := by
  unfold listing
  split
  · exact List.prefix_rfl
  · exact List.prefix_append ..

theorem subpatterns_prefix_append (patterns more : List Tree) :
    subpatterns patterns <+: subpatterns (patterns ++ more) := by
  rw [subpatterns, subpatterns, List.flatMap_append]
  exact eraseDups_prefix ..

-- ---------------------------------------------------------------------------
-- Members
-- ---------------------------------------------------------------------------

theorem lists_of_build (h : build sig patterns = .ok f) :
    f.nodes.Lists sig (listing patterns) := by
  obtain ⟨handles, st, hshare, rfl⟩ := build_eq_ok h
  exact (Sharing.shareAll_holds hshare).lists.insert sig.idOf?_wildcardSymbol .nil

/-- The subpatterns are members. -/
theorem idOf?_of_build (h : build sig patterns = .ok f) {p t : Tree} (hp : p ∈ patterns)
    (ht : t ∈ p.preOrder) : ∃ i, f.idOf? sig t = some i := by
  have hmem := mem_listing_iff.2 (Or.inr (mem_subpatterns_iff.2 ⟨p, hp, ht⟩))
  obtain ⟨n, hn⟩ := List.mem_iff_getElem?.1 hmem
  exact ⟨⟨n⟩, ((lists_of_build h).idOfTree?_iff t ⟨n⟩).2 hn⟩

/-- Every member is a subpattern or the wildcard. -/
theorem exists_tree_of_build (h : build sig patterns = .ok f) {i : MemberId}
    (hi : i ∈ f.members) : ∃ t, f.idOf? sig t = some i ∧
      (t = Tree.wildcard ∨ ∃ p ∈ patterns, t ∈ p.preOrder) := by
  have hlists := lists_of_build h
  have hlt : i.val < (listing patterns).length := hlists.size ▸ Index.mem_range.1 hi
  refine ⟨_, (hlists.idOfTree?_iff _ i).2 (List.getElem?_eq_getElem hlt), ?_⟩
  exact (mem_listing_iff.1 (List.getElem_mem hlt)).imp_right mem_subpatterns_iff.1

/-- The members are read as the listed trees, in order. -/
theorem map_tree?_members {trees : List Tree} (h : f.nodes.Lists sig trees) :
    f.members.map (f.tree? sig) = trees.map some := by
  refine List.ext_getElem ?_ fun n hn hn' => ?_
  · rw [List.length_map, List.length_map, members, Numbering.ids, Index.length_range, h.size]
  · rw [List.length_map] at hn hn'
    have hmember : f.members[n] = ⟨n⟩ := Index.getElem_range hn
    rw [List.getElem_map, List.getElem_map, hmember, tree?_eq_some_iff]
    exact (h.idOfTree?_iff _ _).2 (List.getElem?_eq_getElem hn')

/-- A subpattern keeps its number when patterns are added behind, even over another signature. -/
theorem exists_idOf?_of_append {sig' : Signature} {more : List Tree} {f' : Forest}
    (h : build sig patterns = .ok f) (h' : build sig' (patterns ++ more) = .ok f') {t : Tree}
    (ht : t ∈ subpatterns patterns) : ∃ i, f.idOf? sig t = some i ∧ f'.idOf? sig' t = some i := by
  obtain ⟨n, hn, rfl⟩ := List.mem_iff_getElem.1 ht
  have hshort := subpatterns_prefix_listing patterns
  have hlong := (subpatterns_prefix_append patterns more).trans (subpatterns_prefix_listing _)
  exact ⟨⟨n⟩, ((lists_of_build h).idOfTree?_iff _ _).2 (List.prefix_iff_getElem?.1 hshort n hn),
    ((lists_of_build h').idOfTree?_iff _ _).2 (List.prefix_iff_getElem?.1 hlong n hn)⟩

-- ---------------------------------------------------------------------------
-- Failures
-- ---------------------------------------------------------------------------

theorem build_of_unknown (hne : patterns ≠ [])
    (hunknown : ∃ t ∈ subpatterns patterns, sig.idOf? t.symbol = none) :
    build sig patterns = .error (.phaseOrder .forest .registration) := by
  have hnone : Sharing.shareAll sig patterns .empty = none := by
    refine Option.not_isSome_iff_eq_none.1 fun hsome => ?_
    obtain ⟨t, ht, hsymbol⟩ := hunknown
    have := Sharing.isSome_shareAll_iff.1 hsome t (List.mem_eraseDups.1 ht)
    rw [hsymbol] at this
    exact absurd this (by simp)
  rw [build, if_neg (by rwa [List.isEmpty_iff]), hnone]

/-- Building fails without patterns and at an unknown symbol, and not otherwise. -/
theorem build_cases (sig : Signature) (patterns : List Tree) :
    (patterns = [] ∧ build sig patterns = .error .noPatterns) ∨
    (patterns ≠ [] ∧ (∃ t ∈ subpatterns patterns, sig.idOf? t.symbol = none) ∧
      build sig patterns = .error (.phaseOrder .forest .registration)) ∨
    patterns ≠ [] ∧ (∀ t ∈ subpatterns patterns, (sig.idOf? t.symbol).isSome) ∧
      ∃ f, build sig patterns = .ok f := by
  by_cases hnil : patterns = []
  · exact Or.inl ⟨hnil, by rw [hnil]; rfl⟩
  by_cases hunknown : ∃ t ∈ subpatterns patterns, sig.idOf? t.symbol = none
  · exact Or.inr (Or.inl ⟨hnil, hunknown, build_of_unknown hnil hunknown⟩)
  · have hknown : ∀ t ∈ subpatterns patterns, (sig.idOf? t.symbol).isSome := by
      intro t ht
      exact Option.isSome_iff_ne_none.2 fun hnone => hunknown ⟨t, ht, hnone⟩
    refine Or.inr (Or.inr ⟨hnil, hknown, exists_build hnil fun p hp node hnode => ?_⟩)
    exact hknown node (mem_subpatterns_iff.2 ⟨p, hp, hnode⟩)

end Forest

end TreePattern
