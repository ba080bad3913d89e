import TreePattern.Proofs.MatchSets.Passes
import TreePattern.Proofs.Relevance.Collect
import TreePattern.Proofs.Transitions.OperatorTable

/-!
# The rule over whole sets

The matching rule looks only at the relevant parts of the children's sets. Nothing is lost: a child
of a member stands in a slot of the member's symbol, and is relevant there, so every choice of
children that has a parent is among those that are tried. This holds for every symbol and for any
number of children. A symbol without slots has members without children only, and one that is
applied to a wrong number of children has no member over them.

## Results

* `MatchRule.BuiltFrom.contains_child`       — children are relevant in their slots.
* `MatchRule.BuiltFrom.mem_successor_iff`    — the rule with any exact projection.
* `MatchRule.projection_loses_nothing`       — projections are exact and lose nothing.
-/

namespace TreePattern

namespace MatchRule

variable {rule : MatchRule} {patterns : List Tree} {r : Relevance}

/-- A child of a member is relevant in its slot. -/
theorem BuiltFrom.contains_child (h : rule.BuiltFrom patterns)
    (hr : r.Exact rule.signature rule.forest) {op : SymbolId} {cs : List MemberId} {i : MemberId}
    (hi : rule.forest.lookup? op cs = some i) {k : Nat} {c : MemberId} (hc : cs[k]? = some c) :
    r.contains op k c := by
  have hget : rule.forest.node? i = some ⟨op, cs⟩ := Numbering.idOf?_eq_some_iff.1 hi
  obtain ⟨node, s, hnode, hs, hlen, -⟩ := h.exists_node (Forest.mem_members_of_lookup? hi)
  obtain rfl : node = ⟨op, cs⟩ := Option.some.inj (hnode.symm.trans hget)
  have hid : s.id = op := (Signature.symbol?_eq_some_iff.1 hs).1
  have hk : k < s.arity := hlen ▸ (List.getElem?_eq_some_iff.1 hc).1
  have hop : s ∈ rule.signature.operators := Signature.mem_operators_iff.2
    ⟨Signature.find?_eq_some_iff.2 ⟨rfl, hid.symm ▸ hs⟩, Nat.ne_of_gt (Nat.zero_lt_of_lt hk)⟩
  obtain ⟨members, hmembers⟩ := Option.isSome_iff_exists.1
    ((hr.isSome_slot?_iff op k).2 ⟨s, hop, hid, hk⟩)
  rw [Relevance.contains, hmembers, Option.any_some, Std.TreeSet.contains_iff_mem]
  exact (hr.mem_slot?_iff op k members hmembers c).2 ⟨i, ⟨op, cs⟩, hget, rfl, hc⟩

/-- With an exact projection the rule finds the members whose children lie in the children's sets,
whatever the symbol is and however many sets there are. -/
theorem BuiltFrom.mem_successor_iff (h : rule.BuiltFrom patterns)
    (hr : r.Exact rule.signature rule.forest) {wildcard : MemberId} {op : SymbolId}
    {sets : List (List MemberId)} {i : MemberId} :
    i ∈ (⟨rule.signature, rule.forest, r⟩ : MatchRule).successor wildcard op sets ↔
      i = wildcard ∨ ∃ node, rule.forest.node? i = some node ∧ node.symbol = op ∧
        List.Forall₂ (· ∈ ·) node.children sets := by
  have hwhole : (∃ cs, rule.forest.lookup? op cs = some i ∧ List.Forall₂ (· ∈ ·) cs
        ((⟨rule.signature, rule.forest, r⟩ : MatchRule).traces op sets)) ↔
      ∃ cs, rule.forest.lookup? op cs = some i ∧ List.Forall₂ (· ∈ ·) cs sets := by
    refine exists_congr fun cs => and_congr_right fun hi => ?_
    exact forall₂_traces_iff_of_contains fun k _ c hc => h.contains_child hr hi hc
  rw [MatchRule.mem_successor_iff, hwhole, Forest.exists_lookup?_iff]

/-- Accepted patterns have an exact projection, however it is computed, and looking only at the
relevant parts loses nothing: over states of a table that was closed any number of times, the rule
finds the wildcard and exactly the members with the given root whose children lie, one by one, in
the whole sets of the states. -/
theorem projection_loses_nothing (hne : patterns ≠ []) {sig : Signature}
    (hsig : patterns.foldlM Signature.register .empty = .ok sig) :
    ∃ f r c, Forest.build sig patterns = .ok f ∧ Relevance.ofForest sig f = .ok r ∧
      Relevance.collect sig f = .ok c ∧
      ∀ p ∈ [r, c], p.Exact sig f ∧
        ∀ table, MatchSets.Reached f table → ∀ (op : SymbolId) (states : List StateId),
          (∀ state ∈ states, state.val < table.size) →
          ∃ sets, states.mapM table.get? = some sets ∧
            let successor := (⟨sig, f, p⟩ : MatchRule).successor table.wildcard op sets
            successor.Pairwise (· < ·) ∧
            ∀ i, i ∈ successor ↔ i = f.wildcard ∨ ∃ node, f.node? i = some node ∧
              node.symbol = op ∧ List.Forall₂ (· ∈ ·) node.children sets := by
  obtain ⟨rule, rfl, hrule⟩ := exists_builtFrom hne hsig
  have hcollect : Relevance.collect rule.signature rule.forest = .ok rule.relevance :=
    (Relevance.collect_eq_ofForest ..).trans hrule.relevance
  refine ⟨rule.forest, rule.relevance, rule.relevance, hrule.forest, hrule.relevance, hcollect,
    fun p hp => ?_⟩
  have hexact : p.Exact rule.signature rule.forest := by
    -- collecting step by step has given the same projection
    obtain rfl : p = rule.relevance := (List.mem_pair.1 hp).elim id id
    exact Relevance.exact_ofForest hrule.relevance
  refine ⟨hexact, fun table htable op states hstates => ?_⟩
  obtain ⟨sets, hsets⟩ := MatchSets.exists_mapM_get?_iff.2 hstates
  refine ⟨sets, hsets, successor_ascending .., fun i => ?_⟩
  rw [htable.wildcard_eq]
  exact hrule.mem_successor_iff hexact

/-- No slot is there for a symbol that is no operator. All the same the rule finds the leaf of
every symbol of `f(a, *)` over no children, and nothing else but the wildcard. -/
theorem projection_loses_nothing_for_leaves :
    let p := Tree.node "f" [Tree.leaf "a", Tree.wildcard]
    ∃ sig f r c, Signature.register .empty p = .ok sig ∧ Forest.build sig [p] = .ok f ∧
      Relevance.ofForest sig f = .ok r ∧ Relevance.collect sig f = .ok c ∧
      ∀ q ∈ [r, c], ∀ (op : SymbolId) i,
        i ∈ (⟨sig, f, q⟩ : MatchRule).successor f.wildcard op [] ↔
          i = f.wildcard ∨ f.leaf? op = some i := by
  intro p
  obtain ⟨sig, hsig⟩ := exists_eq_ok_of_isSome
    (x := Signature.register .empty p) (by decide +kernel)
  obtain ⟨f, r, c, hf, hr, hc, hlost⟩ := projection_loses_nothing (List.cons_ne_nil p [])
    (foldlM_cons_eq_ok_iff.2 ⟨sig, hsig, rfl⟩)
  refine ⟨sig, f, r, c, hsig, hf, hr, hc, fun q hq op i => ?_⟩
  obtain ⟨sets, hsets, -, hfound⟩ := (hlost q hq).2 _ (.ofLeaves sig) op [] (by simp)
  -- without children the sets are the empty list
  rw [List.mapM_nil] at hsets
  cases hsets
  rw [MatchSets.wildcard_ofLeaves] at hfound
  simp only [List.forall₂_nil_right_iff] at hfound
  rw [hfound, ← Forest.exists_lookup?_iff (P := fun cs => cs = [])]
  simp only [exists_eq_right, Forest.leaf?]

end MatchRule

end TreePattern
