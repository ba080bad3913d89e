import TreePattern.Proofs.Automaton.Compaction

/-!
# No member is dead

Every member of a forest is reached: it matches its own tree, whose match set a finished search has
found. So whatever a table is built from is used in it. The operators are symbols of the patterns
and have members, the children of these are relevant and give every slot a class, and the entry for
the classes of a member's children leads to a set with the member.

## Results

* `MatchRule.BuiltFrom.exists_member_of_operator` — every operator is the root of a member.
* `Transitions.exists_trace_of_relevant`          — every relevant member lies in some trace.
* `Transitions.exists_entry_of_member`            — every member lies in the set of some target.
* `MatchRule.no_member_is_dead`                   — all this of a finished search.
-/

namespace TreePattern

namespace MatchRule

variable {rule : MatchRule} {patterns : List Tree} {op : Symbol}

-- ---------------------------------------------------------------------------
-- Members of operators
-- ---------------------------------------------------------------------------

/-- Every operator is the root of a member. -/
theorem BuiltFrom.exists_member_of_operator (h : rule.BuiltFrom patterns)
    (hop : op ∈ rule.signature.operators) :
    ∃ cs i, rule.forest.lookup? op.id cs = some i := by
  obtain ⟨hfind, harity⟩ := Signature.mem_operators_iff.1 hop
  have hid := Signature.idOf?_of_find? hfind
  rcases Signature.symbol_of_foldlM_register h.signature hfind with hwild | ⟨p, hp, node, hnode, hs⟩
  · -- the wildcard is no operator
    rw [hwild, Signature.find?_wildcardSymbol] at hfind
    cases hfind
    exact absurd rfl harity
  -- the operator came with some node of a pattern, and that node is a member
  · obtain ⟨i, hi⟩ := Forest.idOf?_of_build h.forest hp hnode
    obtain ⟨s, ts⟩ := node
    obtain rfl : s = op.name := hs
    obtain ⟨symbol, cs, hsymbol, -, hlookup⟩ := Forest.idOf?_node_iff.1 hi
    obtain rfl : op.id = symbol := Option.some.inj (hid.symm.trans hsymbol)
    exact ⟨cs, i, hlookup⟩

/-- Every slot of an operator has a relevant member. -/
theorem BuiltFrom.exists_mem_childrenAt (h : rule.BuiltFrom patterns)
    (hop : op ∈ rule.signature.operators) {k : Nat} (hk : k < op.arity) :
    ∃ c, c ∈ Relevance.childrenAt rule.forest op.id k := by
  obtain ⟨cs, i, hi⟩ := h.exists_member_of_operator hop
  have hlen := h.length_eq_arity (Signature.mem_operators_iff.1 hop).1 hi
  exact ⟨_, Relevance.mem_childrenAt_iff.2 ⟨i, cs, hi, List.getElem?_eq_getElem (hlen ▸ hk)⟩⟩

/-- A relevant member is a member. -/
theorem BuiltFrom.mem_members_of_mem_childrenAt (h : rule.BuiltFrom patterns) {op : SymbolId}
    {k : Nat} {i : MemberId} (hi : i ∈ Relevance.childrenAt rule.forest op k) :
    i ∈ rule.forest.members := by
  obtain ⟨j, cs, hj, hcs⟩ := Relevance.mem_childrenAt_iff.1 hi
  exact h.forall_mem_members hj i (List.mem_of_getElem? hcs)

end MatchRule

-- ---------------------------------------------------------------------------
-- Traces and entries
-- ---------------------------------------------------------------------------

namespace Transitions

variable {rule : MatchRule} {patterns : List Tree} {table : MatchSets} {tables : Transitions}
  {op : Symbol}

/-- A relevant member lies in the trace of the class of some state. -/
theorem exists_trace_of_relevant (hrule : rule.BuiltFrom patterns) (hexact : rule.Exact table)
    (h : build rule table = .ok tables) (hop : op ∈ rule.signature.operators) {k : Nat}
    (hk : k < op.arity) {i : MemberId} (hi : i ∈ Relevance.childrenAt rule.forest op.id k) :
    ∃ id trace, tables.trace? op.id k id = some trace ∧ i ∈ trace := by
  obtain ⟨set, hset, hmem⟩ :=
    hrule.exists_set_of_mem hexact (hrule.mem_members_of_mem_childrenAt hi)
  obtain ⟨state, hstate⟩ := Numbering.mem_toList_iff.1 hset
  have htrace : i ∈ rule.relevance.restrict op.id k set :=
    (Relevance.mem_restrict_iff hrule.relevance hop hk).2 ⟨hmem, hi⟩
  obtain ⟨id, hid⟩ := (OperatorTable.slotClasses_assigns hstate).exists_trace?
    (List.ne_nil_of_mem htrace)
  exact ⟨id, _, by rw [trace?, slot?_of_mem h hop hk, Option.bind_some, hid], htrace⟩

theorem classCount_pos_of_trace? {k : Nat} {id : ClassId} {trace : List MemberId}
    (h : tables.trace? op.id k id = some trace) : 0 < tables.classCount op.id k := by
  obtain ⟨slot, hslot, htrace⟩ := Option.bind_eq_some_iff.1 h
  rw [classCount, hslot]
  exact Nat.zero_lt_of_lt (Numbering.val_lt_size_of_get? htrace)

/-- The children of a member lie in the relevant parts of any sets of the table that hold them, and
the entry for the classes of these parts leads to a set that holds the member. -/
theorem exists_entry_of_member (hrule : rule.BuiltFrom patterns) (hexact : rule.Exact table)
    (h : build rule table = .ok tables) (hop : op ∈ rule.signature.operators)
    {cs : List MemberId} {i : MemberId} (hi : rule.forest.lookup? op.id cs = some i) :
    ∃ t classes state set, tables.operator? op.id = some t ∧ (classes, state) ∈ t.entries ∧
      tables.target? op.id classes = some state ∧ table.get? state = some set ∧ i ∈ set := by
  obtain ⟨t, hbuild, ht⟩ := operator?_of_mem h hop
  obtain ⟨sets, hcs, hsets⟩ :=
    hrule.exists_sets_of_forall_mem hexact (hrule.forall_mem_members hi)
  have hlen : sets.length = op.arity := hcs.length_eq.symm.trans
    (hrule.length_eq_arity (Signature.mem_operators_iff.1 hop).1 hi)
  obtain ⟨states, hstates, hget⟩ := MatchRule.exists_states hsets
  have htraces := (MatchRule.forall₂_traces_iff hrule.relevance hop hlen hi).2 hcs
  rw [rule.traces_eq_map, List.forall₂_map_right_iff] at htraces
  -- each child of the member is relevant in its slot, so no trace is empty
  have hne : ∀ trace ∈ sets.mapIdx fun k set => rule.relevance.restrict op.id k set,
      trace ≠ [] := by
    rintro trace htrace rfl
    obtain ⟨c, -, hc⟩ := exists_of_mem_right htraces htrace
    exact absurd hc (by simp)
  obtain ⟨classes, state, -, htarget, hid⟩ := OperatorTable.exists_target_of_relevant hbuild
    (OperatorTable.assignsAll_of_build hbuild hget (hstates.trans hlen)) hne
  refine ⟨t, classes, state, _, ht, OperatorTable.mem_entries_of_target? htarget,
    by rw [target?, ht, Option.bind_some, htarget], Numbering.idOf?_eq_some_iff.1 hid, ?_⟩
  rw [Forest.mem_addParents_singleton_iff]
  exact Or.inr ⟨cs, hi, List.forall₂_map_right_iff.2 htraces⟩

end Transitions

-- ---------------------------------------------------------------------------
-- Finished searches
-- ---------------------------------------------------------------------------

namespace MatchRule

/-- For accepted patterns, a search that comes to its end finds a set with every member. The tables
over the sets it has found exist, and in them every slot of an operator has a class, every relevant
member lies in the trace of a class, and for every member with an operator at its root an entry of
the operator leads to a set that holds the member. -/
theorem no_member_is_dead {patterns : List Tree} (hne : patterns ≠ []) {sig : Signature}
    (hsig : patterns.foldlM Signature.register .empty = .ok sig) :
    ∃ rule : MatchRule, rule.signature = sig ∧ rule.BuiltFrom patterns ∧
      ∀ limit, (rule.discover limit).error? limit = none →
        let table := (rule.discover limit).table
        (∀ i ∈ rule.forest.members, ∃ set ∈ table.toList, i ∈ set) ∧
        ∃ tables, Transitions.build rule table = .ok tables ∧
          ∀ op ∈ sig.operators,
            (∀ k < op.arity, 0 < tables.classCount op.id k ∧
              ∀ i, rule.relevance.contains op.id k i →
                ∃ id trace, tables.trace? op.id k id = some trace ∧ i ∈ trace) ∧
            ∀ i node, rule.forest.node? i = some node → node.symbol = op.id →
              ∃ t classes state set, tables.operator? op.id = some t ∧
                (classes, state) ∈ t.entries ∧ tables.target? op.id classes = some state ∧
                table.get? state = some set ∧ i ∈ set := by
  obtain ⟨rule, rfl, hrule⟩ := exists_builtFrom hne hsig
  refine ⟨rule, rfl, hrule, fun limit hlimit => ?_⟩
  intro table
  have hcomplete := Closure.error?_eq_none_iff.1 hlimit
  have hexact : rule.Exact table := fun set => hrule.mem_discover_iff hcomplete
  have hw : table.wildcard = rule.forest.wildcard :=
    (MatchSets.Reached.close rule limit (.ofLeaves rule.signature)).wildcard_eq
  obtain ⟨tables, htables⟩ := Transitions.exists_build hw (closed_of_complete hcomplete)
  refine ⟨fun i hi => hrule.exists_set_of_mem hexact hi, tables, htables, fun op hop => ⟨?_, ?_⟩⟩
  -- the slot has a child, the child is in a set, and the set has a trace
  · intro k hk
    have htrace {i : MemberId} (hi : i ∈ Relevance.childrenAt rule.forest op.id k) :=
      Transitions.exists_trace_of_relevant hrule hexact htables hop hk hi
    refine ⟨?_, fun i hi => ?_⟩
    · obtain ⟨c, hc⟩ := hrule.exists_mem_childrenAt hop hk
      obtain ⟨id, trace, hid, -⟩ := htrace hc
      exact Transitions.classCount_pos_of_trace? hid
    · exact htrace ((Relevance.contains_iff_mem_childrenAt hrule.relevance hop hk).1 hi)
  · rintro i ⟨symbol, cs⟩ hnode hsymbol
    obtain rfl : symbol = op.id := hsymbol
    exact Transitions.exists_entry_of_member hrule hexact htables hop
      (Numbering.idOf?_eq_some_iff.2 hnode)

/-- The search for the pattern `f(a, *)` finds a set with the whole pattern. Both slots of `f` have
a class, and an entry of `f` leads to the set. -/
theorem no_member_is_dead_for_pair :
    let p := Tree.node "f" [Tree.leaf "a", Tree.wildcard]
    ∃ (rule : MatchRule) (tables : Transitions), rule.BuiltFrom [p] ∧
      Transitions.build rule (rule.discover 0).table = .ok tables ∧
      ∃ op ∈ rule.signature.operators, op.name = "f" ∧
        0 < tables.classCount op.id 0 ∧ 0 < tables.classCount op.id 1 ∧
        ∃ i t classes state set, rule.forest.idOf? rule.signature p = some i ∧
          tables.operator? op.id = some t ∧ (classes, state) ∈ t.entries ∧
          tables.target? op.id classes = some state ∧
          (rule.discover 0).table.get? state = some set ∧ i ∈ set := by
  intro p
  have haccepted : ([p].foldlM Signature.register .empty).toOption.isSome = true := by
    decide +kernel
  obtain ⟨sig, hsig⟩ := exists_eq_ok_of_isSome haccepted
  obtain ⟨rule, rfl, hrule, hlive⟩ := no_member_is_dead (List.cons_ne_nil _ _) hsig
  obtain ⟨-, tables, htables, hused⟩ :=
    hlive 0 (Closure.error?_eq_none_iff.2 rule.complete_discover)
  obtain ⟨i, hi⟩ := Forest.idOf?_of_build hrule.forest List.mem_cons_self (Tree.mem_preOrder_self p)
  obtain ⟨symbol, cs, hsymbol, -, hlookup⟩ := Forest.idOf?_node_iff.1 hi
  obtain ⟨op, hfind, rfl⟩ := Signature.exists_find?_of_idOf? hsymbol
  have hname : op.name = "f" := (Signature.find?_eq_some_iff.1 hfind).1
  -- the symbol has two children, as it does in the pattern
  obtain ⟨op', hfind', harity⟩ := Signature.arityOf?_eq_some_iff.1
    ((Signature.foldlM_register_eq_ok hsig).2 p List.mem_cons_self p (Tree.mem_preOrder_self p))
  obtain rfl : op' = op := Option.some.inj (hfind'.symm.trans hfind)
  have harity : op'.arity = 2 := harity
  have hop : op' ∈ rule.signature.operators :=
    Signature.mem_operators_iff.2 ⟨hname ▸ hfind, by omega⟩
  obtain ⟨hslots, hentry⟩ := hused op' hop
  obtain ⟨t, classes, state, set, ht, hmem, htarget, hset, hiset⟩ :=
    hentry i _ (Numbering.idOf?_eq_some_iff.1 hlookup) rfl
  exact ⟨rule, tables, hrule, htables, op', hop, hname, (hslots 0 (by omega)).1,
    (hslots 1 (by omega)).1, i, t, classes, state, set, hi, ht, hmem, htarget, hset, hiset⟩

end MatchRule

end TreePattern
