import TreePattern.Proofs.BuiltFrom
import TreePattern.Proofs.Transitions.Grid
import TreePattern.Proofs.Transitions.Totals

/-!
# The grids of all operators

The grids are made operator by operator, and each step adds to what was made so far the grid of one
more operator, with its classes and its entries. As no operator comes twice, no step replaces a
grid. So the grids that are left after all steps are those of the tables of all operators, and where
a table cannot be built, its grid cannot be made either. The log that is kept on the way tells what
was built before that.

## Results

* `Grids.tabulate_eq`         — what the step for one operator leaves.
* `Grids.foldlM_tabulate`     — what all steps leave.
* `Grids.log_report`          — the log reports on the operators whose table can be built.
* `Grids.build_agrees`        — grids are made just if the tables are built, and hold the same.
* `Grids.report_records`      — so it is when they are made with a log.
* `Grids.targets_are_total`   — in finished grids each tuple of classes has its target.
-/

namespace TreePattern

namespace Grids

variable {rule : MatchRule} {table : MatchSets} {gs : Grids}
  {built : List (Symbol × OperatorTable)}

-- ---------------------------------------------------------------------------
-- One operator after the other
-- ---------------------------------------------------------------------------

/-- The grids are those of the given tables, and their classes and entries have been added up. -/
structure Holds (gs : Grids) (built : List (Symbol × OperatorTable)) : Prop where
  operator?_eq_some_iff : ∀ op g, gs.operator? op = some g ↔
    ∃ entry ∈ built, entry.1.id = op ∧ Grid.ofTable entry.2 = g
  size_eq : gs.operators.size = built.length
  classes_eq : gs.classes = total (built.map fun entry => entry.2.classCount)
  entries_eq : gs.entries = total (built.map fun entry => entry.2.entries.length)

/-- Before the first operator there is nothing. -/
theorem holds_empty : empty.Holds [] where
  operator?_eq_some_iff op g := by simp [operator?, empty]
  size_eq := rfl
  classes_eq := rfl
  entries_eq := rfl

/-- The grids with that of one more table. -/
def addTable (gs : Grids) (entry : Symbol × OperatorTable) : Grids :=
  gs.add entry.1.id (Grid.ofTable entry.2) entry.2.entries.length

/-- The step for an operator adds the grid of its table, and fails where the table does. -/
theorem tabulate_eq (rule : MatchRule) (table : MatchSets) (gs : Grids) (op : Symbol) :
    tabulate rule table.states gs op =
      (OperatorTable.build rule table op).map fun t => gs.addTable (op, t) := by
  rw [tabulate, ← Grid.build, Grid.build_eq]
  cases h : OperatorTable.build rule table op with
  | error e => rfl
  | ok t =>
    have hlisting := Grid.listing_eq (Grid.size_cells_ofTable h)
    rw [Grid.entries_ofTable h] at hlisting
    show (do let entries ← (Grid.ofTable t).listing; pure _) = _
    rw [hlisting]
    rfl

/-- An operator finds the grid that was put in for it last. -/
theorem operator?_add (gs : Grids) (op id : SymbolId) (g : Grid) (n : Nat) :
    (gs.add op g n).operator? id = if op = id then some g else gs.operator? id := by
  simp only [operator?, add, Std.TreeMap.getElem?_insert, Std.LawfulEqCmp.compare_eq_iff_eq]

/-- With the grid of a new operator, the grids of all others are kept. -/
theorem Holds.addTable (h : gs.Holds built) {op : Symbol} {t : OperatorTable}
    (hnew : ∀ entry ∈ built, entry.1.id ≠ op.id) :
    (gs.addTable (op, t)).Holds (built ++ [(op, t)]) where
  operator?_eq_some_iff id g := by
    rw [Grids.addTable, operator?_add]
    simp only [List.mem_append, List.mem_singleton, or_and_right, exists_or, exists_eq_left]
    split
    · next hid =>
      -- none of the operators before it has this number
      rw [or_iff_right, and_iff_right hid, Option.some_inj]
      rintro ⟨entry, hentry, heq, -⟩
      exact hnew entry hentry (heq.trans hid.symm)
    · next hid => rw [h.operator?_eq_some_iff, or_iff_left fun h => hid h.1]
  size_eq := by
    have hmem : op.id ∉ gs.operators := fun hmem => by
      obtain ⟨g, hg⟩ := Option.isSome_iff_exists.1 (Std.TreeMap.isSome_getElem?_iff_mem.2 hmem)
      obtain ⟨entry, hentry, heq, -⟩ := (h.operator?_eq_some_iff op.id g).1 hg
      exact hnew entry hentry heq
    have hsize := Std.TreeMap.size_insert (t := gs.operators) (k := op.id) (v := Grid.ofTable t)
    rw [if_neg (mt Std.TreeMap.mem_iff_contains.2 hmem), h.size_eq] at hsize
    rw [List.length_append]
    exact hsize
  classes_eq := by
    rw [List.map_append, total, List.sum_append_nat, ← total, ← h.classes_eq]
    rfl
  entries_eq := by
    rw [List.map_append, total, List.sum_append_nat, ← total, ← h.entries_eq]
    rfl

/-- The grids of several new operators. -/
theorem Holds.foldl_addTable {more : List (Symbol × OperatorTable)} (h : gs.Holds built)
    (hnew : ∀ entry ∈ built, ∀ entry' ∈ more, entry.1.id ≠ entry'.1.id)
    (hdistinct : more.Pairwise fun entry entry' => entry.1.id ≠ entry'.1.id) :
    (more.foldl Grids.addTable gs).Holds (built ++ more) := by
  induction more generalizing gs built with
  | nil => rwa [List.append_nil]
  | cons entry more ih =>
    obtain ⟨hfirst, hrest⟩ := List.pairwise_cons.1 hdistinct
    have hstep := h.addTable (t := entry.2)
      fun other hother => hnew other hother entry List.mem_cons_self
    rw [List.append_cons]
    refine ih hstep (fun other hother entry' hentry' => ?_) hrest
    -- the next operator is new both to those before it and to the one just added
    rcases List.mem_append.1 hother with hother | hother
    · exact hnew other hother entry' (List.mem_cons_of_mem _ hentry')
    · rw [List.mem_singleton.1 hother]
      exact hfirst entry' hentry'

/-- The steps for several operators add the grids of their tables, and fail where one of the tables
does. -/
theorem foldlM_tabulate (rule : MatchRule) (table : MatchSets) (ops : List Symbol) (gs : Grids) :
    ops.foldlM (tabulate rule table.states) gs =
      match (Tabulation.ofOperators rule table ops).failure with
      | some e => .error e
      | none => .ok ((Tabulation.ofOperators rule table ops).built.foldl addTable gs) := by
  induction ops generalizing gs with
  | nil => rfl
  | cons op ops ih =>
    rw [List.foldlM_cons, tabulate_eq, Tabulation.ofOperators]
    cases OperatorTable.build rule table op with
    | error e => rfl
    | ok t => exact ih (gs.addTable (op, t))

-- ---------------------------------------------------------------------------
-- The log
-- ---------------------------------------------------------------------------

/-- The log does not change what is made. -/
theorem result_reportFrom (rule : MatchRule) (states : States) (ops : List Symbol) (gs : Grids)
    (log : Array Event) :
    (reportFrom rule states ops gs log).result = ops.foldlM (tabulate rule states) gs := by
  induction ops generalizing gs log with
  | nil => rfl
  | cons op ops ih =>
    rw [reportFrom, List.foldlM_cons, tabulate]
    cases Grid.make rule states op with
    | error e => rfl
    | ok g =>
      -- the entries are listed for the log alone, but a listing that fails ends the work
      cases hlisting : g.listing with
      | error e =>
        simp only [hlisting]
        show _ = (g.listing >>= _) >>= _
        rw [hlisting]
        rfl
      | ok entries =>
        simp only [hlisting]
        show _ = (g.listing >>= _) >>= _
        rw [hlisting]
        exact ih _ _

/-- The log of the operators whose table can be built, and of all of them if none fails. -/
theorem log_reportFrom (rule : MatchRule) (table : MatchSets) (ops : List Symbol) (gs : Grids)
    (log : Array Event) : (reportFrom rule table.states ops gs log).log.toList =
      let t := Tabulation.ofOperators rule table ops
      let made := t.built.foldl addTable gs
      log.toList ++ ((t.built.map fun entry => Event.builtOperatorTables entry.1.name
        entry.2.classCount entry.2.entries.length) ++ if t.failure.isNone then
        [.builtTransitionTables made.operators.size made.classes made.entries] else []) := by
  induction ops generalizing gs log with
  | nil => simp [reportFrom, Tabulation.ofOperators]
  | cons op ops ih =>
    rw [reportFrom, Tabulation.ofOperators, ← Grid.build, Grid.build_eq]
    cases h : OperatorTable.build rule table op with
    | error e => simp [Except.map]
    | ok t =>
      have hlisting := Grid.listing_eq (Grid.size_cells_ofTable h)
      rw [Grid.entries_ofTable h] at hlisting
      simp only [Except.map, hlisting]
      -- the grid and its listing agree with the table, so the event is the one of the table
      refine (ih (gs.addTable (op, t)) _).trans ?_
      rw [Array.toList_push, List.append_assoc]
      rfl

-- ---------------------------------------------------------------------------
-- Grids and tables
-- ---------------------------------------------------------------------------

/-- Where no table fails, the grids are those of the tables of all operators. -/
theorem holds_built (h : (Tabulation.run rule table).failure = none) :
    ((Tabulation.run rule table).built.foldl addTable empty).Holds
      (Tabulation.run rule table).built := by
  have hdistinct := rule.signature.pairwise_operators
  rw [← (Tabulation.built_of_no_failure h).1, List.pairwise_map] at hdistinct
  exact holds_empty.foldl_addTable (fun _ hentry => absurd hentry (by simp)) hdistinct

/-- Grids of the tables of all operators answer for an operator as the tables do, and have the
same counts. -/
theorem Holds.agrees (h : gs.Holds (Tabulation.run rule table).built)
    (hfailure : (Tabulation.run rule table).failure = none) :
    (∀ op, gs.operator? op = ((Tabulation.run rule table).tables.operator? op).map Grid.ofTable) ∧
      gs.classes = (Tabulation.run rule table).tables.totalClasses ∧
      gs.entries = (Tabulation.run rule table).tables.totalEntries := by
  -- operators have different numbers, so neither map overwrites an entry
  have hkeys : ((Tabulation.run rule table).built.map fun entry =>
      (entry.1.id, entry.2)).Pairwise fun e e' => e.1 ≠ e'.1 :=
    Signature.pairwise_keys_of_operators (Tabulation.built_of_no_failure hfailure).1
  refine ⟨fun op => Option.ext fun g => ?_, ?_, ?_⟩
  · rw [h.operator?_eq_some_iff, Option.map_eq_some_iff, Transitions.operator?]
    constructor
    · rintro ⟨entry, hentry, rfl, rfl⟩
      exact ⟨_, (getElem?_ofList_iff hkeys).2 (List.mem_map.2 ⟨entry, hentry, rfl⟩), rfl⟩
    · rintro ⟨t, ht, rfl⟩
      obtain ⟨entry, hentry, heq⟩ := List.mem_map.1 ((getElem?_ofList_iff hkeys).1 ht)
      cases heq
      exact ⟨entry, hentry, rfl, rfl⟩
  · rw [h.classes_eq]
    refine Eq.trans ?_ (total_toList_ofList hkeys _).symm
    rw [List.map_map]
    rfl
  · rw [h.entries_eq]
    refine Eq.trans ?_ (total_toList_ofList hkeys _).symm
    rw [List.map_map]
    rfl

/-- The log is that of the tables. -/
theorem log_report (rule : MatchRule) (table : MatchSets) :
    (report rule table.states).log.toList = (Tabulation.run rule table).events := by
  refine (log_reportFrom rule table rule.signature.operators empty #[]).trans ?_
  rw [List.nil_append, ← Tabulation.run, Tabulation.events]
  cases hfailure : (Tabulation.run rule table).failure with
  | some e => rfl
  | none =>
    have hholds := holds_built hfailure
    obtain ⟨-, hclasses, hentries⟩ := hholds.agrees hfailure
    rw [hholds.size_eq, hclasses, hentries]

/-- Grids are made just if the tables are built, and fail as these do. If they are made, each
operator has the grid of its table, and the counts are those of the tables. -/
theorem build_agrees (rule : MatchRule) (table : MatchSets) :
    (∃ e, Transitions.build rule table = .error e ∧ build rule table = .error e) ∨
    ∃ tables gs, Transitions.build rule table = .ok tables ∧ build rule table = .ok gs ∧
      (∀ op, gs.operator? op = (tables.operator? op).map Grid.ofTable) ∧
      gs.classes = tables.totalClasses ∧ gs.entries = tables.totalEntries := by
  have hmade := foldlM_tabulate rule table rule.signature.operators empty
  rw [← Tabulation.run] at hmade
  cases hfailure : (Tabulation.run rule table).failure with
  | some e =>
    rw [hfailure] at hmade
    exact Or.inl ⟨e, by rw [Transitions.build, Tabulation.result, hfailure], hmade⟩
  | none =>
    rw [hfailure] at hmade
    exact Or.inr ⟨_, _, by rw [Transitions.build, Tabulation.result, hfailure], hmade,
      (holds_built hfailure).agrees hfailure⟩

/-- The grids hold what the tables hold, and no look-up in them fails. -/
structure Records (gs : Grids) (tables : Transitions) : Prop where
  operator? : ∀ op, Option.Rel Grid.Records (gs.operator? op) (tables.operator? op)
  classes_eq : gs.classes = tables.totalClasses
  entries_eq : gs.entries = tables.totalEntries

/-- Queries on the grids and on the tables have the same answer, and none goes astray. -/
theorem Records.transition_eq {gs : Grids} {tables : Transitions} (h : gs.Records tables)
    (op : SymbolId) (states : List StateId) :
    gs.transition op states = .ok (tables.transition? op states) := by
  rw [transition, Transitions.transition?]
  rcases rel_cases (h.operator? op) with ⟨hg, ht⟩ | ⟨g, t, hg, ht, hgrid⟩
  · rw [hg, ht]
    rfl
  · rw [hg, ht]
    exact hgrid.transition_eq states

/-- Making the grids with a log ends as building the tables does, and the log is the same. -/
theorem report_records (rule : MatchRule) (table : MatchSets) :
    (report rule table.states).log.toList = (Tabulation.run rule table).events ∧
    ((∃ e, Transitions.build rule table = .error e ∧
        (report rule table.states).result = .error e) ∨
      ∃ tables gs, Transitions.build rule table = .ok tables ∧
        (report rule table.states).result = .ok gs ∧ gs.Records tables) := by
  have hresult : (report rule table.states).result = build rule table := result_reportFrom ..
  refine ⟨log_report rule table, ?_⟩
  rw [hresult]
  rcases build_agrees rule table with hfailed | ⟨tables, gs, htables, hgs, hoperator, hcounts⟩
  · exact Or.inl hfailed
  · refine Or.inr ⟨tables, gs, htables, hgs, fun op => ?_, hcounts.1, hcounts.2⟩
    rw [hoperator]
    cases ht : tables.operator? op with
    | none => exact .none
    | some t =>
      -- a table that is there was made for some operator
      obtain ⟨o, -, hbuild⟩ := Transitions.exists_build_of_operator? htables ht
      exact .some (Grid.records_ofTable hbuild)

/-- In finished grids, every operator has a grid that answers for it, and nothing else has one. Just
the tuples of classes have a target, each is listed with its target, in ascending order, and
the target is the state of the members over the traces of the classes. The classes and the entries
of the operators add up to the counts. -/
theorem targets_are_total (h : build rule table = .ok gs) :
    (∀ op ∈ rule.signature.operators, ∃ g, gs.operator? op.id = some g ∧
      (∀ classes, gs.target? op.id classes = g.target? classes) ∧
      gs.radices op.id = g.radices ∧ g.Complete rule table op) ∧
    (∀ id, (∀ op ∈ rule.signature.operators, op.id ≠ id) → gs.operator? id = none) ∧
    gs.classes = total (rule.signature.operators.map fun op => total (gs.radices op.id)) ∧
    gs.entries = total (rule.signature.operators.map fun op =>
      MixedRadix.volume (gs.radices op.id)) := by
  rcases build_agrees rule table with ⟨e, -, hfailed⟩ | ⟨tables, gs', htables, hmade, hagrees⟩
  · exact absurd (hfailed.symm.trans h) (by simp)
  obtain rfl : gs' = gs := Except.ok.inj (hmade.symm.trans h)
  obtain ⟨hoperator, hclasses, hentries⟩ := hagrees
  -- each operator has a table, and the grid filled like it
  have hgrid : ∀ op ∈ rule.signature.operators, ∃ t, OperatorTable.build rule table op = .ok t ∧
      tables.operator? op.id = some t ∧ gs'.operator? op.id = some (Grid.ofTable t) := by
    intro op hop
    obtain ⟨t, hbuild, ht⟩ := Transitions.operator?_of_mem htables hop
    exact ⟨t, hbuild, ht, by rw [hoperator, ht]; rfl⟩
  refine ⟨fun op hop => ?_, fun id hid => ?_, ?_, ?_⟩
  · obtain ⟨t, hbuild, -, hg⟩ := hgrid op hop
    refine ⟨_, hg, fun classes => ?_, ?_, Grid.complete_ofTable hbuild⟩
    · rw [target?, hg, Option.bind_some]
    · rw [radices, hg, Option.map_some, Option.getD_some]
  · rw [hoperator, Transitions.operator?_eq_none_of_forall htables hid, Option.map_none]
  · rw [hclasses, Transitions.totalClasses, Transitions.total_of_build htables]
    refine congrArg total (List.map_congr_left fun op hop => ?_)
    obtain ⟨t, -, ht, hg⟩ := hgrid op hop
    rw [ht, radices, hg]
    rfl
  · rw [hentries, Transitions.totalEntries_of_build htables]
    refine congrArg total (List.map_congr_left fun op hop => ?_)
    obtain ⟨t, hbuild, ht, hg⟩ := hgrid op hop
    rw [ht, radices, hg]
    exact OperatorTable.length_entries hbuild

/-- With the patterns `f(a, *)` and `f(b, *)`, the first slot of `f` has two classes and the second
has one. The tuple of the second and the first class has a target, but that of the first and the
second has none. -/
theorem targets_are_total_of_choice : ∃ (rule : MatchRule) (gs : Grids),
    rule.BuiltFrom [.node "f" [Tree.leaf "a", Tree.wildcard],
      .node "f" [Tree.leaf "b", Tree.wildcard]] ∧
      build rule (rule.discover 0).table = .ok gs ∧
      ∃ op ∈ rule.signature.operators, gs.radices op.id = [2, 1] ∧
        (gs.target? op.id [⟨1⟩, ⟨0⟩]).isSome ∧ gs.target? op.id [⟨0⟩, ⟨1⟩] = none := by
  have hcomputed : (MatchRule.ofPatterns [.node "f" [Tree.leaf "a", Tree.wildcard],
      .node "f" [Tree.leaf "b", Tree.wildcard]]).toOption.any
      (fun rule => decide (⟨⟨1⟩, "f", 2⟩ ∈ rule.signature.operators) &&
        (build rule (rule.discover 0).table).toOption.any fun gs =>
          decide (gs.radices ⟨1⟩ = [2, 1])) = true := by
    decide +kernel
  obtain ⟨rule, hrule, hcomputed⟩ := MatchRule.exists_builtFrom_of_any hcomputed
  rw [Bool.and_eq_true, decide_eq_true_eq] at hcomputed
  obtain ⟨hop, hmade⟩ := hcomputed
  obtain ⟨gs, hbuild, hradices⟩ := exists_eq_ok_of_any hmade
  have hradices := of_decide_eq_true hradices
  obtain ⟨g, -, htarget, hg, hcomplete⟩ := (targets_are_total hbuild).1 _ hop
  rw [hradices] at hg
  have hsome := hcomplete.isSome_target?_iff
  rw [← hg] at hsome
  refine ⟨rule, gs, hrule, hbuild, _, hop, hradices, ?_, ?_⟩
  · rw [htarget, hsome]
    simp
  · rw [htarget, ← Option.not_isSome_iff_eq_none, hsome]
    simp

end Grids

end TreePattern
