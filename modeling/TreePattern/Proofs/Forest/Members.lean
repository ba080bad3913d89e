import TreePattern.Forest
import TreePattern.Proofs.Numbering
import TreePattern.Proofs.Tree.Depth
import Mathlib.Data.Finset.Card

/-!
# The tree of a member

A forest finds the number of a tree bottom-up and reads the tree of a number top-down. The two
are inverse to each other; in particular the reading never stops short, because the trees on a
way down are different members.

## Results

* `Forest.depth_le_size`           — no member is deeper than there are members.
* `Forest.tree?_eq_some_iff`       — reading a member is inverse to finding it.
-/

namespace TreePattern

namespace Forest

variable {sig : Signature} {f : Forest}

/-- Finding a tree in a forest is finding it among the nodes. -/
theorem idOf?_eq_idOfTree? (sig : Signature) (f : Forest) :
    f.idOf? sig = Numbering.idOfTree? sig f.nodes :=
  rfl

theorem idOf?_node_iff {s : String} {ts : List Tree} {i : MemberId} :
    f.idOf? sig (.node s ts) = some i ↔
      ∃ symbol children, sig.idOf? s = some symbol ∧
        List.Forall₂ (fun t c => f.idOf? sig t = some c) ts children ∧
        f.lookup? symbol children = some i := by
  rw [idOf?_eq_idOfTree?, Numbering.idOfTree?_node_iff]
  simp only [lookup?, Numbering.idOf?_eq_some_iff]

theorem mem_members_of_lookup? {op : SymbolId} {cs : List MemberId} {i : MemberId}
    (h : f.lookup? op cs = some i) : i ∈ f.members :=
  Index.mem_range.2 (Numbering.val_lt_size_of_idOf? h)

/-- A member has one root and one list of children. -/
theorem lookup?_inj {s s' : SymbolId} {cs cs' : List MemberId} {i : MemberId}
    (h : f.lookup? s cs = some i) (h' : f.lookup? s' cs' = some i) : s = s' ∧ cs = cs' := by
  have hnode : (⟨s, cs⟩ : Node .member) = ⟨s', cs'⟩ := Numbering.idOf?_inj h h'
  rwa [Node.mk.injEq] at hnode

theorem mem_members_of_idOf? {t : Tree} {i : MemberId} (h : f.idOf? sig t = some i) :
    i ∈ f.members := by
  obtain ⟨s, ts⟩ := t
  obtain ⟨symbol, children, -, -, hi⟩ := idOf?_node_iff.1 h
  exact mem_members_of_lookup? hi

-- ---------------------------------------------------------------------------
-- Reading a member
-- ---------------------------------------------------------------------------

/-- A member's tree has distinct subtrees of all depths up to its own, all of them members. -/
theorem depth_le_size {t : Tree} {i : MemberId} (h : f.idOf? sig t = some i) :
    t.depth ≤ f.size := by
  have hlevel : ∀ d, d < t.depth → ∃ (j : MemberId) (u : Tree),
      f.idOf? sig u = some j ∧ u.depth = d + 1 := by
    intro d hd
    obtain ⟨u, hu, hdepth⟩ := Tree.exists_mem_preOrder_depth (Nat.succ_pos d) hd
    have hsome := Numbering.isSome_idOfTree?_of_mem_preOrder
      (Option.isSome_iff_exists.2 ⟨i, h⟩) u hu
    obtain ⟨j, hj⟩ := Option.isSome_iff_exists.1 hsome
    exact ⟨j, u, hj, hdepth⟩
  have : Nonempty MemberId := ⟨i⟩
  choose! member subtree hmember hdepth using hlevel
  -- subtrees of different depths are different members, and there are only so many
  have hcard : (Finset.range t.depth).card ≤ (Finset.range f.size).card := by
    refine Finset.card_le_card_of_injOn (fun d => (member d).val) ?_ ?_
    · intro d hd
      rw [Finset.mem_coe, Finset.mem_range] at hd ⊢
      exact Index.mem_range.1 (mem_members_of_idOf? (hmember d hd))
    · intro d hd e he heq
      rw [Finset.mem_coe, Finset.mem_range] at hd he
      have hmem : member d = member e := Index.ext_iff.2 heq
      have htree : subtree d = subtree e := by
        refine Numbering.idOfTree?_inj (hmember d hd) ?_
        rw [hmem]
        exact hmember e he
      have := hdepth d hd
      rw [htree, hdepth e he] at this
      omega
  rwa [Finset.card_range, Finset.card_range] at hcard

theorem idOf?_of_treeWithin {height : Nat} {t : Tree} {i : MemberId}
    (h : f.treeWithin sig height i = some t) : f.idOf? sig t = some i := by
  induction height generalizing t i with
  | zero => exact absurd h (by simp [treeWithin])
  | succ height ih =>
    obtain ⟨node, hnode, h⟩ := Option.bind_eq_some_iff.1 h
    obtain ⟨name, hname, h⟩ := Option.bind_eq_some_iff.1 h
    obtain ⟨ts, hts, h⟩ := Option.bind_eq_some_iff.1 h
    cases h
    rw [mapM_eq_some_iff] at hts
    refine idOf?_node_iff.2 ⟨node.symbol, node.children, Numbering.idOf?_eq_some_iff.2 hname, ?_,
      Numbering.idOf?_eq_some_iff.2 hnode⟩
    exact (hts.imp fun _ _ hc => ih hc).flip

theorem treeWithin_of_idOf? {height : Nat} {t : Tree} {i : MemberId}
    (h : f.idOf? sig t = some i) (hdepth : t.depth ≤ height) :
    f.treeWithin sig height i = some t := by
  induction t generalizing height i with
  | node s ts ih =>
    obtain ⟨symbol, children, hsymbol, hchildren, hi⟩ := idOf?_node_iff.1 h
    obtain ⟨height, rfl⟩ : ∃ n, height = n + 1 := by
      rw [Tree.depth_node] at hdepth
      exact ⟨height - 1, by omega⟩
    -- the children are less deep, so what is left of the height suffices for them
    have hts : children.mapM (f.treeWithin sig height) = some ts := by
      refine mapM_eq_some_iff.2 (forall₂_imp_of_mem hchildren fun t ht c _ hc => ?_).flip
      refine ih t ht hc ?_
      have := Tree.depth_lt_of_mem_children s ht
      omega
    refine Option.bind_eq_some_iff.2 ⟨_, Numbering.idOf?_eq_some_iff.1 hi, ?_⟩
    refine Option.bind_eq_some_iff.2 ⟨s, Numbering.idOf?_eq_some_iff.1 hsymbol, ?_⟩
    exact Option.bind_eq_some_iff.2 ⟨ts, hts, rfl⟩

/-- The tree that is read off a member is the one whose number the member is. -/
theorem tree?_eq_some_iff {t : Tree} {i : MemberId} :
    f.tree? sig i = some t ↔ f.idOf? sig t = some i :=
  ⟨idOf?_of_treeWithin, fun h => treeWithin_of_idOf? h (depth_le_size h)⟩

end Forest

end TreePattern
