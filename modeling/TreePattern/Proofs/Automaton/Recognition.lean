import TreePattern.Automaton.Builder
import TreePattern.Proofs.Automaton.History
import TreePattern.Proofs.MatchSets.Layers
import TreePattern.Proofs.Transitions.Agreement

/-!
# What a finished automaton recognises

The state that a finished automaton reaches on a ranked tree is the one whose set holds
exactly the members that match the tree. On any other tree it reaches no state: a node with
children whose symbol is no operator, or is one of another arity, has no transition.

## Results

* `Automaton.Finished.stateOf?_of_ranked` — the state of a ranked tree.
* `Automaton.Finished.ranked_of_stateOf?` — only ranked trees have a state.
* `Automaton.Builder.build_recognises`    — both, for every automaton that a builder completes.
-/

namespace TreePattern

namespace Automaton

/-- All phases have run, the last four with these outputs. -/
structure Finished (a : Automaton) (rule : MatchRule) (table : MatchSets)
    (tables : Transitions) : Prop where
  signature : a.signature = rule.signature
  forest? : a.forest? = some rule.forest
  matchSets? : a.matchSets? = some table
  tables? : a.tables? = some tables
  built : rule.BuiltFrom a.patterns
  found : table = (rule.discover 0).table
  tabulated : Transitions.build rule table = .ok tables

variable {a : Automaton} {rule : MatchRule} {table : MatchSets} {tables : Transitions}

/-- All outputs of a consistent automaton belong together. -/
theorem Consistent.finished (h : a.Consistent) {f : Forest} {r : Relevance} {stats : ClosureStats}
    (hp : a.progress = .complete f r table stats tables) :
    a.Finished ⟨a.signature, f, r⟩ table tables := by
  have hforest : a.forest? = some f := congrArg Progress.forest? hp
  have hrelevance : a.relevance? = some r := congrArg Progress.relevance? hp
  have hmatchSets : a.matchSets? = some table := congrArg Progress.matchSets? hp
  have htables : a.tables? = some tables := congrArg Progress.tables? hp
  exact ⟨rfl, hforest, hmatchSets, htables,
    ⟨h.signature, h.progress.forest hforest, h.progress.relevance hforest hrelevance⟩,
    h.progress.matchSets hforest hrelevance hmatchSets,
    h.progress.tables hforest hrelevance hmatchSets htables⟩

-- ---------------------------------------------------------------------------
-- The table of a finished automaton
-- ---------------------------------------------------------------------------

/-- The table of match sets is over the wildcard of the forest. -/
theorem Finished.wildcard_eq (h : a.Finished rule table tables) :
    table.wildcard = rule.forest.wildcard := by
  rw [h.found]
  exact (MatchSets.Reached.close rule 0 (.ofLeaves rule.signature)).wildcard_eq

/-- The members that match a ranked tree are in the table. -/
theorem Finished.exists_state (h : a.Finished rule table tables) {t : Tree}
    (ht : t.Ranked rule.signature) :
    ∃ q, table.idOf? (rule.forest.matching rule.signature t) = some q := by
  have hmem : rule.forest.matching rule.signature t ∈ table.toList := by
    rw [h.found]
    exact (h.built.mem_discover_iff rule.complete_discover).2 ⟨t, ht, rfl⟩
  obtain ⟨q, hq⟩ := Numbering.mem_toList_iff.1 hmem
  exact ⟨q, Numbering.idOf?_eq_some_iff.2 hq⟩

-- ---------------------------------------------------------------------------
-- Ranked trees
-- ---------------------------------------------------------------------------

/-- A leaf leads to its match set, whatever its symbol. -/
theorem Finished.stateOf?_leaf (h : a.Finished rule table tables) (name : String) :
    ∃ q, a.stateOf? (Tree.leaf name) = some q ∧
      table.get? q = some (rule.forest.matching rule.signature (Tree.leaf name)) := by
  have hleaf : a.stateOf? (Tree.leaf name) = a.stateOfLeaf? name := stateOf?_node ..
  obtain ⟨q, hq⟩ := h.exists_state (Tree.ranked_leaf rule.signature name)
  rw [hleaf, stateOfLeaf?, h.forest?, h.matchSets?, h.signature, Forest.matching_leaf]
  rw [Forest.matching_leaf] at hq
  have hzero : table.get? MatchSets.wildcardState = some [rule.forest.wildcard] := by
    rw [← h.wildcard_eq]
    exact table.get?_zero
  cases hid : rule.signature.idOf? name with
  -- a symbol that is unknown: only the wildcard matches
  | none => exact ⟨_, rfl, hzero⟩
  | some symbol =>
    rw [hid, Option.bind_some] at hq
    rw [Option.bind_some]
    cases hmember : rule.forest.leaf? symbol with
    | none =>
      -- a symbol that is no leaf of a pattern: again only the wildcard
      refine ⟨MatchSets.wildcardState, ?_, hzero⟩
      simp [MatchSets.stateOfLeaf, hmember]
    | some leaf =>
      rw [hmember] at hq
      refine ⟨q, ?_, Numbering.idOf?_eq_some_iff.1 hq⟩
      simp [MatchSets.stateOfLeaf, hmember, h.wildcard_eq, hq]

/-- The state of a node with children is a transition from theirs. -/
theorem stateOf?_of_ne_nil {name : String} {ts : List Tree} (hne : ts ≠ [])
    {states : List StateId} (h : List.Forall₂ (fun t q => a.stateOf? t = some q) ts states) :
    a.stateOf? (.node name ts) = a.transition? name states := by
  have hmapM : (ts.map a.stateOf?).mapM id = some states :=
    mapM_eq_some_iff.2 (List.forall₂_map_left_iff.2 h)
  have hmap : ¬ (ts.map a.stateOf?).isEmpty := by simpa using hne
  rw [stateOf?_node, nodeState?, if_neg hmap, hmapM]
  rfl

/-- An operator leads from the states of its children's match sets to that of its own. -/
theorem Finished.transition?_of_matching (h : a.Finished rule table tables) {op : Symbol}
    (hop : op ∈ rule.signature.operators) {ts : List Tree} (hlen : ts.length = op.arity)
    {states : List StateId}
    (hsets : List.Forall₂ (fun q s => table.get? q = some s) states
      (ts.map (rule.forest.matching rule.signature))) :
    ∃ q, a.transition? op.name states = some q ∧
      table.get? q = some (rule.forest.matching rule.signature (.node op.name ts)) := by
  have hid : rule.signature.idOf? op.name = some op.id :=
    Signature.idOf?_of_find? (Signature.mem_operators_iff.1 hop).1
  have hstates : states.length = op.arity := by
    rw [hsets.length_eq, List.length_map, hlen]
  -- compressed and direct path agree, and the direct one gives the match set of the node
  obtain ⟨q, htransition, hq⟩ := Transitions.transition?_eq_idOf?_successor h.wildcard_eq
    h.tabulated hop (mapM_eq_some_iff.2 hsets) hstates
  refine ⟨q, ?_, ?_⟩
  · rw [transition?, h.signature, hid, h.tables?]
    exact htransition
  · rw [h.wildcard_eq, h.built.successor_matching hop hlen] at hq
    exact Numbering.idOf?_eq_some_iff.1 hq

/-- On a ranked tree the automaton reaches the state of the members that match it. -/
theorem Finished.stateOf?_of_ranked (h : a.Finished rule table tables) {t : Tree}
    (ht : t.Ranked rule.signature) :
    ∃ q, a.stateOf? t = some q ∧
      table.get? q = some (rule.forest.matching rule.signature t) := by
  induction t with
  | node name ts ih =>
    obtain ⟨hroot, hchildren⟩ := Tree.ranked_node_iff.1 ht
    by_cases hleaf : ts = []
    · rw [hleaf]
      exact h.stateOf?_leaf name
    · obtain ⟨op, hop, rfl, harity⟩ := hroot hleaf
      -- the states of the children stand between the children and their match sets
      obtain ⟨states, hstates, hsets⟩ : ∃ states : List StateId,
          List.Forall₂ (fun t q => a.stateOf? t = some q) ts states ∧
          List.Forall₂ (fun q s => table.get? q = some s) states
            (ts.map (rule.forest.matching rule.signature)) := by
        refine exists_between ?_
        rw [List.forall₂_map_right_iff, List.forall₂_same]
        intro t ht
        exact ih t ht (hchildren t ht)
      rw [stateOf?_of_ne_nil hleaf hstates]
      exact h.transition?_of_matching hop harity.symm hsets

-- ---------------------------------------------------------------------------
-- Other trees
-- ---------------------------------------------------------------------------

/-- A node has a state only if all its children do. -/
theorem exists_states_of_stateOf? {name : String} {ts : List Tree} (hne : ts ≠ []) {q : StateId}
    (hq : a.stateOf? (.node name ts) = some q) :
    ∃ states, List.Forall₂ (fun t q => a.stateOf? t = some q) ts states := by
  have hmap : ¬ (ts.map a.stateOf?).isEmpty := by simpa using hne
  rw [stateOf?_node, nodeState?, if_neg hmap] at hq
  obtain ⟨states, hstates, -⟩ := Option.bind_eq_some_iff.1 hq
  rw [mapM_eq_some_iff, List.forall₂_map_left_iff] at hstates
  exact ⟨states, hstates⟩

/-- A transition is taken by an operator with as many states as its arity. -/
theorem Finished.exists_operator (h : a.Finished rule table tables) {name : String}
    {states : List StateId} {q : StateId} (hq : a.transition? name states = some q) :
    ∃ op ∈ rule.signature.operators, op.name = name ∧ op.arity = states.length := by
  rw [transition?, h.signature, h.tables?] at hq
  obtain ⟨id, hid, hq⟩ := Option.bind_eq_some_iff.1 hq
  have hq : tables.transition? id states = some q := hq
  by_contra hnone
  refine Option.some_ne_none q (hq.symm.trans ?_)
  -- any other symbol has no transition
  rw [Transitions.transition?_eq_none_iff h.wildcard_eq h.tabulated]
  by_cases hop : ∃ op ∈ rule.signature.operators, op.id = id
  · obtain ⟨op, hop, rfl⟩ := hop
    refine Or.inr (Or.inl ⟨op, hop, rfl, fun hlen => hnone ⟨op, hop, ?_, hlen.symm⟩⟩)
    have hop := Signature.idOf?_of_find? (Signature.mem_operators_iff.1 hop).1
    exact Numbering.idOf?_inj hop hid
  · exact Or.inl fun op hmem heq => hop ⟨op, hmem, heq⟩

/-- Only ranked trees have a state. -/
theorem Finished.ranked_of_stateOf? (h : a.Finished rule table tables) {t : Tree} {q : StateId}
    (hq : a.stateOf? t = some q) : t.Ranked rule.signature := by
  induction t generalizing q with
  | node name ts ih =>
    by_cases hleaf : ts = []
    · rw [hleaf]
      exact Tree.ranked_leaf _ name
    -- a transition was made, so the children have states, and the symbol is an operator
    · obtain ⟨states, hstates⟩ := exists_states_of_stateOf? hleaf hq
      rw [stateOf?_of_ne_nil hleaf hstates] at hq
      obtain ⟨op, hop, hname, harity⟩ := h.exists_operator hq
      refine Tree.ranked_node_iff.2 ⟨?_, ?_⟩
      · intro _
        exact ⟨op, hop, hname, harity.trans hstates.length_eq.symm⟩
      · intro t ht
        obtain ⟨state, -, hstate⟩ := exists_of_mem_left hstates ht
        exact ih t ht hstate

-- ---------------------------------------------------------------------------
-- Builders
-- ---------------------------------------------------------------------------

/-- If no registration fails, all patterns are registered. -/
theorem registerAll_of_success {ps : List Tree} {o : Outcome} (ho : o.automaton.Consistent)
    (h : (ps.foldl (fun o p => o.andThen (·.register p)) o).error = none) :
    (ps.foldl (fun o p => o.andThen (·.register p)) o).automaton.Consistent ∧
      (ps.foldl (fun o p => o.andThen (·.register p)) o).automaton.patterns =
        o.automaton.patterns ++ ps ∧
      o.error = none := by
  induction ps generalizing o with
  | nil => exact ⟨ho, (List.append_nil _).symm, h⟩
  | cons p ps ih =>
    obtain ⟨hconsistent, hpatterns, herror⟩ := ih (andThen_induction ho fun a ha => ha.register p) h
    obtain ⟨herror, hregister, hautomaton⟩ := andThen_of_success herror
    refine ⟨hconsistent, ?_, herror⟩
    rw [List.foldl_cons, hpatterns, hautomaton, patterns_register, Call.added, if_pos hregister,
      List.append_assoc, List.singleton_append]

/-- If the tables are built, all phases have run. -/
theorem progress_of_buildTables (h : a.buildTables.error = none) :
    ∃ f r table stats tables,
      a.buildTables.automaton.progress = .complete f r table stats tables := by
  rcases a.buildTables_cases with ⟨required, -, -, hfailed⟩ |
    ⟨f, r, table, stats, -, -, -, -, hbuild⟩
  · rw [hfailed] at h
    exact absurd h (by simp [Outcome.failed])
  · rcases hbuild with ⟨e, -, he, -⟩ | ⟨tables, events, -, hreport⟩
    · exact absurd (he.symm.trans h) (Option.some_ne_none e)
    · rw [hreport, automaton_reportTables]
      exact ⟨f, r, table, stats, tables, rfl⟩

/-- A build that succeeds finishes the automaton. -/
theorem Consistent.finished_of_build (h : a.Consistent) (hbuild : a.build.error = none) :
    ∃ rule table tables, a.build.automaton.Finished rule table tables := by
  obtain ⟨-, htables, hautomaton⟩ := andThen_of_success hbuild
  obtain ⟨f, r, table, stats, tables, hprogress⟩ := progress_of_buildTables htables
  rw [← hautomaton] at hprogress
  exact ⟨_, table, tables, (h.perform .build).finished hprogress⟩

/-- A builder that succeeds leaves a finished automaton for its patterns. -/
theorem Builder.finished_of_success {b : Builder} (h : b.build.error = none) :
    b.build.automaton.patterns = b.patterns ∧
      ∃ rule table tables, b.build.automaton.Finished rule table tables := by
  obtain ⟨hregistered, hbuild, hautomaton⟩ := andThen_of_success h
  obtain ⟨hconsistent, hpatterns, -⟩ :=
    registerAll_of_success (consistent_ofConfig b.config) hregistered
  have hautomaton : b.build.automaton = _ := hautomaton
  rw [hautomaton, patterns_build, hpatterns]
  exact ⟨rfl, hconsistent.finished_of_build hbuild⟩

/-- If registering the patterns and running all phases succeeds, the automaton has a forest of
the patterns' subtrees and a table of match sets, and then every ranked tree reaches the state
of exactly the members that match it, and no other tree reaches a state. -/
theorem Builder.build_recognises {config : Config} {patterns : List Tree}
    (h : (Builder.mk config patterns).build.error = none) :
    let a := (Builder.mk config patterns).build.automaton
    patterns.foldlM Signature.register .empty = .ok a.signature ∧
    ∃ f table, Forest.build a.signature patterns = .ok f ∧ a.forest? = some f ∧
      a.matchSets? = some table ∧ (∀ i ∈ f.members, ∃ p, f.tree? a.signature i = some p) ∧
      (∀ t, t.Ranked a.signature →
        ∃ q, a.stateOf? t = some q ∧ table.get? q = some (f.matching a.signature t)) ∧
      ∀ t, ¬ t.Ranked a.signature → a.stateOf? t = none := by
  intro a
  obtain ⟨hpatterns, rule, table, tables, hfinished⟩ := Builder.finished_of_success h
  have hbuilt := hfinished.built
  rw [hpatterns] at hbuilt
  rw [show a.signature = rule.signature from hfinished.signature]
  refine ⟨hbuilt.signature, rule.forest, table, hbuilt.forest, hfinished.forest?,
    hfinished.matchSets?, ?_, ?_, ?_⟩
  · intro i hi
    obtain ⟨p, hp⟩ := hbuilt.exists_tree hi
    exact ⟨p, Forest.tree?_eq_some_iff.2 hp⟩
  · intro t ht
    exact hfinished.stateOf?_of_ranked ht
  · intro t ht
    -- a tree that reaches a state is ranked
    cases hstate : a.stateOf? t with
    | none => rfl
    | some q => exact absurd (hfinished.ranked_of_stateOf? hstate) ht

/-- With the pattern `f(a, *)`, the tree `f(a, b)` reaches the state of the members that match
it. -/
theorem Builder.build_recognises_pair :
    let patterns := [Tree.node "f" [Tree.leaf "a", Tree.wildcard]]
    let t := Tree.node "f" [Tree.leaf "a", Tree.leaf "b"]
    let a := (Builder.mk {} patterns).build.automaton
    (Builder.mk {} patterns).build.error = none ∧ t.Ranked a.signature ∧
      ∃ f table q, a.forest? = some f ∧ a.matchSets? = some table ∧ a.stateOf? t = some q ∧
        table.get? q = some (f.matching a.signature t) := by
  intro patterns t a
  have hsuccess : (Builder.mk {} patterns).build.error = none := by decide +kernel
  have hranked : t.Ranked a.signature := by decide +kernel
  obtain ⟨-, f, table, -, hf, htable, -, hstate, -⟩ := Builder.build_recognises hsuccess
  obtain ⟨q, hq, hset⟩ := hstate t hranked
  exact ⟨hsuccess, hranked, f, table, q, hf, htable, hq, hset⟩

end Automaton

end TreePattern
