import TreePattern.Proofs.Forest.Arena
import TreePattern.Proofs.Forest.Parents
import TreePattern.Proofs.Signature.Vocabulary

/-!
# Members and subpatterns

The members of a forest are the subpatterns of its patterns and the wildcard, each once: every
member can be read as a tree, the tree leads back to the member, and a tree that is no subpattern
leads nowhere. The patterns need not use their symbols with one arity only.

## Results

* `Forest.exists_tree_of_mem_members`  — reading a member, and back.
* `Forest.exists_idOf?_iff`            — which trees are members.
* `Forest.members_are_subpatterns`     — all this together, and of the stores of the forest.
-/

namespace TreePattern

namespace Forest

variable {sig : Signature} {patterns : List Tree} {f : Forest}

/-- Every member can be read, at whatever height its tree allows, and is found again by its tree
and by its node. -/
theorem exists_tree_of_mem_members (h : build sig patterns = .ok f) {i : MemberId}
    (hi : i ∈ f.members) : ∃ t node, f.tree? sig i = some t ∧
      (∀ height, t.depth ≤ height → f.treeWithin sig height i = some t) ∧
      f.idOf? sig t = some i ∧ f.node? i = some node ∧
      f.lookup? node.symbol node.children = some i := by
  obtain ⟨⟨s, ts⟩, ht, -⟩ := exists_tree_of_build h hi
  obtain ⟨symbol, children, -, -, hlookup⟩ := idOf?_node_iff.1 ht
  exact ⟨.node s ts, ⟨symbol, children⟩, tree?_eq_some_iff.2 ht,
    fun _ hheight => treeWithin_of_idOf? ht hheight, ht, Numbering.idOf?_eq_some_iff.1 hlookup,
    hlookup⟩

/-- The trees of the members are the subpatterns. -/
theorem exists_idOf?_iff (h : build sig patterns = .ok f) {t : Tree} :
    (∃ i, f.idOf? sig t = some i) ↔ t.IsSubpattern patterns := by
  constructor
  · rintro ⟨i, hi⟩
    obtain ⟨u, hu, horigin⟩ := exists_tree_of_build h (mem_members_of_idOf? hi)
    rwa [Numbering.idOfTree?_inj hi hu]
  · rintro (rfl | ⟨p, hp, ht⟩)
    · exact ⟨f.wildcard, idOf?_wildcard_tree sig f⟩
    · exact idOf?_of_build h hp ht

theorem pairwise_withRoot (f : Forest) (symbol : SymbolId) :
    (f.withRoot symbol).Pairwise (· < ·) :=
  (Index.pairwise_range ..).filter _

/-- Members and subpatterns correspond: a member can be read as a tree and is found by it, by its
node and by its root, and exactly the subpatterns are found. The stores that are filled while the
patterns are read give the same answers. -/
theorem members_are_subpatterns (h : buildForward sig patterns = .ok f) :
    (∀ i ∈ f.members, ∃ t node, f.tree? sig i = some t ∧
      (∀ height, t.depth ≤ height → f.treeWithin sig height i = some t) ∧
      f.idOf? sig t = some i ∧ f.node? i = some node ∧
      f.lookup? node.symbol node.children = some i) ∧
    (∀ t, (∃ i, f.idOf? sig t = some i) ↔ t.IsSubpattern patterns) ∧
    (∀ t i, f.idOf? sig t = some i → f.tree? sig i = some t) ∧
    (∀ symbol, (f.withRoot symbol).Pairwise (· < ·) ∧
      ∀ i, i ∈ f.withRoot symbol ↔ ∃ node, f.node? i = some node ∧ node.symbol = symbol) ∧
    ∃ a, store sig patterns = .ok a ∧ (∀ i : MemberId, a.nodes[i.val]? = f.node? i) ∧
      (∀ symbol children, a.index[(⟨symbol, children⟩ : Node .member)]? =
        f.lookup? symbol children) ∧
      ∀ symbol, a.rootedAt symbol = f.withRoot symbol := by
  obtain ⟨a, hstore, haligned⟩ := exists_store h
  have hnodes : a.nodes = f.nodes.values := Array.toList_inj.1 haligned.nodes
  rw [buildForward_eq_build] at h
  refine ⟨fun i hi => exists_tree_of_mem_members h hi, fun t => exists_idOf?_iff h,
    fun t i => tree?_eq_some_iff.2, fun symbol => ⟨pairwise_withRoot f symbol, fun i => ?_⟩,
    a, hstore, fun i => ?_, fun symbol children => haligned.index _, haligned.rootedAt⟩
  · exact mem_withRoot_iff
  · rw [hnodes, node?, Numbering.get?]

/-- The symbol `f` is registered with one child, and `f(f, x)` uses it with two and with none. The
leaf is a member and is read as itself, and `f(x)` is none. -/
theorem members_are_subpatterns_for_mixed_arities :
    let p := Tree.node "f" [Tree.leaf "x"]
    let q := Tree.node "f" [Tree.leaf "f", Tree.leaf "x"]
    ∃ sig f, Signature.register .empty p = .ok sig ∧ buildForward sig [q] = .ok f ∧
      (∃ i, f.idOf? sig (Tree.leaf "f") = some i ∧ f.tree? sig i = some (Tree.leaf "f")) ∧
      ¬ ∃ i, f.idOf? sig p = some i := by
  intro p q
  have hcheck : (do
      let sig ← Signature.register .empty p
      build sig [q]).toOption.isSome = true := by
    decide +kernel
  obtain ⟨f, hbuilt⟩ := exists_eq_ok_of_isSome hcheck
  obtain ⟨sig, hsig, hf⟩ := bind_eq_ok_iff.1 hbuilt
  rw [← buildForward_eq_build] at hf
  obtain ⟨-, hfound, hread, -, -⟩ := members_are_subpatterns hf
  obtain ⟨i, hi⟩ := (hfound (Tree.leaf "f")).2 (Or.inr ⟨q, by decide +kernel, by decide +kernel⟩)
  refine ⟨sig, f, hsig, hf, ⟨i, hi, hread _ _ hi⟩, fun hp => ?_⟩
  -- the pattern was registered, but it is no subpattern of the one the forest was built for
  rcases (hfound p).1 hp with hwild | ⟨p', hp', hmem⟩
  · exact absurd hwild (by decide +kernel)
  · obtain rfl := List.mem_singleton.1 hp'
    exact absurd hmem (by decide +kernel)

end Forest

end TreePattern
