import TreePattern.Automaton.Construction
import TreePattern.Proofs.Automaton.Counters
import TreePattern.Proofs.Forest.Forward
import TreePattern.Proofs.MatchSets.Accounting
import TreePattern.Proofs.Relevance.Collect
import TreePattern.Proofs.Transitions.Grids

/-!
# A construction goes through the states of an automaton

The four places of a construction are filled and emptied one by one, while an automaton steps from
one point of its progress to another. Every call takes both of them the same way: what is dropped
place by place is what the automaton no longer holds, what is put in is what its phase computes, and
the counters that are cleared and set are those of the outputs. So no place is ever filled without
those before it, though nothing in a construction says so.

Nothing is asked of the outputs here. Most look-ups that the calls make are shown to find their
entry; those of the projection and of the text may fail, and then they fail in the automaton too.

## Results

* `Construction.Represents`            — a construction holds what an automaton holds.
* `Construction.Represents.dump_eq`, `Construction.Represents.transition_eq` — the queries agree.
* `Construction.Represents.perform`    — a call keeps this up, and reports and fails alike.
* `Construction.Represents.performAll` — so do all sequences of calls.
* `Construction.counters_performAll`   — its counters are those kept beside an automaton.
-/

namespace TreePattern

namespace Construction

/-- Each place holds what the automaton has for it, and the counters are those of its outputs. -/
structure Represents (k : Construction) (a : Automaton) : Prop where
  config : k.config = a.config
  signature : k.signature = a.signature
  patterns : k.patterns = a.patterns
  forest : k.forest? = a.forest?
  relevance : k.relevance? = a.relevance?
  ledger : Option.Rel Ledger.Records k.ledger? a.matchSets?
  grids : Option.Rel Grids.Records k.grids? a.tables?
  counters : k.counters = a.stats

/-- A call has left the same behind, told the same, and failed or not. -/
structure Step.Represents (s : Step) (o : Outcome) : Prop where
  construction : s.construction.Represents o.automaton
  events_eq : s.events = o.events
  error_eq : s.error = o.error

variable {k : Construction} {a : Automaton}

/-- At the start no place is filled and no counter is set. -/
theorem represents_ofConfig (config : Config) :
    (ofConfig config).Represents (Automaton.ofConfig config) :=
  ⟨rfl, rfl, rfl, rfl, rfl, .none, .none, rfl⟩

theorem Represents.failed (h : k.Represents a) (e : BuildError) :
    (Step.failed k e).Represents (.failed a e) := ⟨h, rfl, rfl⟩

/-- Match sets stand in a ledger. -/
theorem Represents.exists_ledger (h : k.Represents a) {table : MatchSets}
    (hsets : a.matchSets? = some table) : ∃ l, k.ledger? = some l ∧ l.Records table := by
  rcases rel_cases h.ledger with ⟨-, hnone⟩ | ⟨l, table', hl, hsets', hrecords⟩
  · exact absurd (hnone.symm.trans hsets) (by simp)
  · exact ⟨l, hl, Option.some.inj (hsets'.symm.trans hsets) ▸ hrecords⟩

/-- There is no ledger without match sets. -/
theorem Represents.ledger?_eq_none (h : k.Represents a) (hsets : a.matchSets? = none) :
    k.ledger? = none := by
  rcases rel_cases h.ledger with ⟨hl, -⟩ | ⟨l, table, -, hsome, -⟩
  · exact hl
  · exact absurd (hsets.symm.trans hsome) (by simp)

-- ---------------------------------------------------------------------------
-- Queries
-- ---------------------------------------------------------------------------

/-- A transition is looked up without failing, and is the one of the tables. -/
theorem Represents.transition_eq (h : k.Represents a) (name : String) (states : List StateId) :
    k.transition name states = .ok (a.transition? name states) := by
  rw [transition, Automaton.transition?, h.signature]
  cases a.signature.idOf? name with
  | none => rfl
  | some op =>
    rcases rel_cases h.grids with ⟨hgrids, htables⟩ | ⟨gs, tables, hgrids, htables, hrecords⟩
    · rw [hgrids, htables]
      rfl
    · rw [hgrids, htables]
      exact hrecords.transition_eq op states

/-- The sets of the ledger are listed as those of the table. -/
theorem matchSetsText_eq (h : k.Represents a) :
    k.matchSetsText = match a.matchSets? with
      | some table => Automaton.block "match sets" (Automaton.matchSetLines table.toList)
      | none => "" := by
  rw [matchSetsText]
  rcases rel_cases h.ledger with ⟨hl, hsets⟩ | ⟨l, table, hl, hsets, hrecords⟩
  · rw [hl, hsets]
  · simp only [hl, hsets, hrecords.toList_eq]

/-- The classes of the grids are listed as those of the tables. -/
theorem classLines_eq (h : k.Represents a) {l : Ledger} {table : MatchSets} {gs : Grids}
    {tables : Transitions} (hl : k.ledger? = some l) (hrecords : l.Records table)
    (hgs : gs.Records tables) :
    k.classLines gs = Automaton.classLines a.signature table tables := by
  have hstates : k.states = Index.range .matchSet table.size := by
    rw [states, hl, ← hrecords.size_eq]
  rw [classLines, Automaton.classLines, h.signature, hstates]
  refine congrArg (List.flatMap · _) (funext fun op => congrArg _ ?_)
  rcases rel_cases (hgs.operator? op.id) with ⟨hg, ht⟩ | ⟨g, t, hg, ht, hgrid⟩
  · rw [hg, ht]
    rfl
  · rw [hg, ht, Option.map_some, hgrid.slots_eq]
    rfl

/-- The entries of a grid are listed without failing, and are those of the table. -/
theorem targetLines_eq (h : k.Represents a) {gs : Grids} {tables : Transitions}
    (hgs : gs.Records tables) :
    k.targetLines gs = .ok (Automaton.targetLines a.signature tables) := by
  rw [targetLines, Automaton.targetLines, h.signature, List.flatMap_def]
  refine bind_eq_ok_iff.2 ⟨_, mapM_eq_ok_iff.2 (List.forall₂_map_right_iff.2
    (List.forall₂_same.2 fun op _ => bind_eq_ok_iff.2 ⟨_, ?_, rfl⟩)), rfl⟩
  rcases rel_cases (hgs.operator? op.id) with ⟨hg, ht⟩ | ⟨g, t, hg, ht, hgrid⟩
  · rw [hg, ht]
    rfl
  · rw [hg, ht, Option.mapM_some, hgrid.listing_eq]
    rfl

/-- Both texts of the grids are those of the tables, and are there or not together. -/
theorem tablesText_eq (h : k.Represents a) :
    k.tablesText = .ok (match a.matchSets?, a.tables? with
      | some table, some tables =>
        Automaton.block "mu" (Automaton.classLines a.signature table tables) ++
          Automaton.block "theta" (Automaton.targetLines a.signature tables)
      | _, _ => "") := by
  rw [tablesText]
  rcases rel_cases h.grids with ⟨hgrids, htables⟩ | ⟨gs, tables, hgrids, htables, hgs⟩
  · rw [hgrids, htables]
    cases a.matchSets? <;> rfl
  · -- there are no tables without match sets
    obtain ⟨table, hsets⟩ := Option.isSome_iff_exists.1
      (a.progress.matchSets?_of_tables? (Option.isSome_iff_exists.2 ⟨tables, htables⟩))
    have hsets : a.matchSets? = some table := hsets
    obtain ⟨l, hl, hrecords⟩ := h.exists_ledger hsets
    rw [hgrids, htables, hsets]
    dsimp only
    rw [targetLines_eq h hgs, classLines_eq h hl hrecords hgs]
    rfl

/-- The text is that of the automaton, and can be written just if the automaton's can. -/
theorem Represents.dump_eq (h : k.Represents a) : k.dump = found a.dump? := by
  rw [dump, tablesText_eq h, matchSetsText_eq h, forestText, relevanceText, Automaton.dump?,
    h.forest, h.relevance, h.signature]
  cases a.forest? with
  | none => rfl
  | some f =>
    dsimp only
    cases Automaton.forestLines? a.signature f <;> rfl

-- ---------------------------------------------------------------------------
-- Phases without a search
-- ---------------------------------------------------------------------------

/-- A registration that is accepted empties all four places. -/
theorem Represents.register (h : k.Represents a) (pattern : Tree) :
    (k.register pattern).Represents (a.register pattern) := by
  rw [Construction.register, Automaton.register, h.signature]
  cases a.signature.register pattern with
  | error e => exact h.failed e
  | ok sig =>
    have hpatterns := congrArg (· ++ [pattern]) h.patterns
    refine ⟨⟨h.config, rfl, hpatterns, rfl, rfl, .none, .none, ?_⟩, rfl, rfl⟩
    show ({ k.counters with patterns := (k.patterns ++ [pattern]).length } : Stats).clearFrom
      .forest = _
    rw [h.patterns]
    rfl

/-- The forest that is read from front to back is the one that is shared from behind. -/
theorem Represents.buildForest (h : k.Represents a) : k.buildForest.Represents a.buildForest := by
  rw [Construction.buildForest, Automaton.buildForest, Forest.buildForward_eq_build, h.signature,
    h.patterns]
  cases Forest.build a.signature a.patterns with
  | error e => exact h.failed e
  | ok f =>
    refine ⟨⟨h.config, h.signature, h.patterns, rfl, rfl, .none, .none, ?_⟩, ?_, rfl⟩
    -- the counters
    · show ({ k.counters.clearFrom .forest with forestSize := f.size } : Stats) = _
      rw [h.counters]
      rfl
    -- the event, which counts the patterns
    · show [Event.builtForest f.size (k.invalidate .forest).patterns.length f.wildcard] = _
      rw [invalidate, h.patterns]

/-- The projection that is collected member by member is the one by operators. -/
theorem Represents.project (h : k.Represents a) : k.project.Represents a.project := by
  rw [Construction.project, Automaton.project, h.forest]
  cases hf : a.forest? with
  | none => exact h.failed _
  | some f =>
    dsimp only
    rw [Relevance.collect_eq_ofForest, h.signature]
    cases Relevance.ofForest a.signature f with
    | error e => exact h.failed e
    | ok r =>
      refine ⟨⟨h.config, h.signature, h.patterns, h.forest.trans hf, rfl, .none, .none, ?_⟩,
        rfl, rfl⟩
      show ({ k.counters.clearFrom .projection with projectionEntries := r.entries } : Stats) = _
      rw [h.counters, Stats.clearFrom_projection hf]
      rfl

-- ---------------------------------------------------------------------------
-- Discovery
-- ---------------------------------------------------------------------------

/-- The search over the ledger goes as the one over the table does. -/
theorem Represents.exists_search (h : k.Represents a) (f : Forest) (r : Relevance) :
    ∃ report, k.search ⟨a.signature, f, r⟩ = .ok report ∧
      report.ledger.Records (a.search f r).table ∧
      report.log.toList = (a.search f r).events a.config.maxPasses ∧
      report.result = match (a.search f r).error? a.config.maxPasses with
        | none => .ok (a.search f r).stats
        | some e => .error e := by
  rw [search, Automaton.search, h.config]
  rcases rel_cases h.ledger with ⟨hl, hsets⟩ | ⟨l, table, hl, hsets, hrecords⟩
  · rw [hl, hsets]
    exact Ledger.search_reports _ _ (Ledger.records_ofLeaves ..)
  · rw [hl, hsets]
    exact Ledger.search_reports _ _ hrecords

/-- The ledger has grown just if the table has. -/
theorem Represents.grew_eq (h : k.Represents a) {l : Ledger} {p : Progress} {table : MatchSets}
    (hrecords : l.Records table) (hsets : p.matchSets? = some table) :
    k.grew l = Stats.grew a { a with progress := p } := by
  have hafter : Automaton.matchSets? { a with progress := p } = some table := hsets
  rw [grew, Stats.grew, hafter, hrecords.size_eq]
  rcases rel_cases h.ledger with ⟨hl, hbefore⟩ | ⟨before, table', hl, hbefore, hrecords'⟩
  · rw [hl, hbefore]
    rfl
  · rw [hl, hbefore]
    dsimp only
    rw [hrecords'.size_eq, Option.map_some, Option.map_some, bne_comm]
    rfl

/-- The counters of a search that has come to its end. -/
theorem countDiscovery_eq {p : Progress} {table : MatchSets} {stats : ClosureStats}
    (hsets : p.matchSets? = some table) (hstats : p.discovery? = some stats) (s : Stats) :
    Stats.countDiscovery { a with progress := p } s =
      { s with
        passes := stats.passes
        candidatesExamined := stats.candidates
        matchSets := table.size } := by
  cases p with
  | discovered => cases hsets; cases hstats; rfl
  | complete => cases hsets; cases hstats; rfl
  | _ => exact absurd hsets (by simp [Progress.matchSets?])

/-- Putting in the ledger is the step of the automaton to the sets that were found. -/
theorem Represents.putLedger (h : k.Represents a) {f : Forest} {r : Relevance} {l : Ledger}
    {table : MatchSets} {stats : ClosureStats} {p : Progress} (hf : a.forest? = some f)
    (hr : a.relevance? = some r) (hrecords : l.Records table) (hpf : p.forest? = some f)
    (hpr : p.relevance? = some r) (hsets : p.matchSets? = some table)
    (hstats : p.discovery? = some stats) (hkept : p.tables? = a.keptTables? table) :
    (Construction.putLedger { k with ledger? := none } (k.grew l) l stats).Represents
      { a with progress := p } := by
  have hcounters := Stats.countDiscovery_eq a hf hr hpf hpr hsets hkept
  have hafter : Automaton.matchSets? { a with progress := p } = some table := hsets
  dsimp only at hcounters
  rw [countDiscovery_eq hsets hstats, ← h.grew_eq hrecords hsets, ← hrecords.size_eq,
    ← h.counters] at hcounters
  rw [Stats.keptTables?_eq hafter, ← h.grew_eq hrecords hsets] at hkept
  have hforest : k.forest? = p.forest? := h.forest.trans (hf.trans hpf.symm)
  have hrelevance : k.relevance? = p.relevance? := h.relevance.trans (hr.trans hpr.symm)
  have hledger : Option.Rel Ledger.Records (some l) p.matchSets? := hsets ▸ .some hrecords
  -- whether the grids stay and whether the tables stay is the same question
  cases hgrew : k.grew l with
  | true =>
    rw [hgrew] at hcounters hkept
    have hgrids : Option.Rel Grids.Records none p.tables? := hkept ▸ .none
    exact ⟨h.config, h.signature, h.patterns, hforest, hrelevance, hledger, hgrids, hcounters⟩
  | false =>
    rw [hgrew] at hcounters hkept
    have hgrids : Option.Rel Grids.Records k.grids? p.tables? := hkept ▸ h.grids
    exact ⟨h.config, h.signature, h.patterns, hforest, hrelevance, hledger, hgrids, hcounters⟩

/-- A discovery whose passes run out leaves the ledger taken out, the grids dropped and the counters
of both cleared. -/
theorem discover_of_error {f : Forest} {r : Relevance} {report : Ledger.Report} {e : BuildError}
    (hf : k.forest? = some f) (hr : k.relevance? = some r)
    (hreport : k.search ⟨k.signature, f, r⟩ = .ok report) (hresult : report.result = .error e) :
    k.discover =
      ⟨{ k with
          ledger? := none
          grids? := none
          counters := k.counters.clearFrom .matchSets }, report.log.toList, some e⟩ := by
  simp only [Construction.discover, hf, hr, hreport, hresult]

/-- A discovery that comes to its end puts the ledger in. -/
theorem discover_of_ok {f : Forest} {r : Relevance} {report : Ledger.Report}
    {stats : ClosureStats} (hf : k.forest? = some f) (hr : k.relevance? = some r)
    (hreport : k.search ⟨k.signature, f, r⟩ = .ok report) (hresult : report.result = .ok stats) :
    k.discover =
      ⟨Construction.putLedger { k with ledger? := none } (k.grew report.ledger) report.ledger stats,
        report.log.toList, none⟩ := by
  simp only [Construction.discover, hf, hr, hreport, hresult]

/-- With a forest and a projection, both searches end in the same way. -/
theorem Represents.discover_of_some (h : k.Represents a) {f : Forest} {r : Relevance}
    (hf : a.forest? = some f) (hr : a.relevance? = some r) :
    k.discover.Represents a.discover := by
  have hlog := Automaton.events_discover hf hr
  obtain ⟨report, hreport, hrecords, hevents, hresult⟩ := h.exists_search f r
  rw [← h.signature] at hreport
  rcases Automaton.discover_cases_of_some hf hr with ⟨hstopped, herror, hautomaton⟩ |
    ⟨hcomplete, herror, hfound⟩
  · rw [Closure.error?_eq_some_iff.2 ⟨hstopped, rfl⟩] at hresult
    rw [discover_of_error (h.forest.trans hf) (h.relevance.trans hr) hreport hresult]
    refine ⟨?_, hevents.trans hlog.symm, herror.symm⟩
    rw [hautomaton]
    refine ⟨h.config, h.signature, h.patterns, h.forest.trans hf, h.relevance.trans hr, .none,
      .none, ?_⟩
    -- the ledger is lost, and the automaton falls back to the projection
    rw [← Stats.clearFrom_matchSets hf hr, ← h.counters]
  · rw [Closure.error?_eq_none_iff.2 hcomplete] at hresult
    rw [discover_of_ok (h.forest.trans hf) (h.relevance.trans hr) hreport hresult]
    refine ⟨?_, hevents.trans hlog.symm, herror.symm⟩
    rcases hfound with ⟨tables, hkept, hautomaton⟩ | ⟨hdropped, hautomaton⟩
    · rw [hautomaton]
      exact h.putLedger hf hr hrecords rfl rfl rfl rfl hkept.symm
    · rw [hautomaton]
      exact h.putLedger hf hr hrecords rfl rfl rfl rfl hdropped.symm

/-- Where an output is missing, both name the same phase; else both make the same search. -/
theorem Represents.discover (h : k.Represents a) : k.discover.Represents a.discover := by
  cases hf : a.forest? with
  | none =>
    simp only [Construction.discover, Automaton.discover, h.forest, hf]
    exact h.failed _
  | some f =>
    cases hr : a.relevance? with
    | none =>
      simp only [Construction.discover, Automaton.discover, h.forest, h.relevance, hf, hr]
      exact h.failed _
    | some r => exact h.discover_of_some hf hr

-- ---------------------------------------------------------------------------
-- Tables
-- ---------------------------------------------------------------------------

/-- The text of the outputs is the same, and so is the event that carries it. -/
theorem Represents.reportTables (h : k.Represents a) (events : List Event) :
    (k.reportTables events).Represents (a.reportTables events) := by
  rw [Construction.reportTables, Automaton.reportTables, h.config, h.dump_eq]
  cases a.config.dumpTables with
  | false => exact ⟨h, rfl, rfl⟩
  | true =>
    cases a.dump? with
    | none => exact ⟨h, rfl, rfl⟩
    | some text => exact ⟨h, rfl, rfl⟩

/-- Grids that cannot be made leave none behind. -/
theorem buildTables_of_error {f : Forest} {r : Relevance} {l : Ledger} {e : BuildError}
    (hf : k.forest? = some f) (hr : k.relevance? = some r) (hl : k.ledger? = some l)
    (hresult : (Grids.report ⟨k.signature, f, r⟩ l.states).result = .error e) :
    k.buildTables =
      ⟨{ k with grids? := none, counters := k.counters.clearFrom .transitionTables },
        (Grids.report ⟨k.signature, f, r⟩ l.states).log.toList, some e⟩ := by
  simp only [Construction.buildTables, hf, hr, hl, hresult]

/-- Grids that are made are put in with their counters. -/
theorem buildTables_of_ok {f : Forest} {r : Relevance} {l : Ledger} {gs : Grids}
    (hf : k.forest? = some f) (hr : k.relevance? = some r) (hl : k.ledger? = some l)
    (hresult : (Grids.report ⟨k.signature, f, r⟩ l.states).result = .ok gs) :
    k.buildTables =
      Construction.reportTables { k with
          grids? := some gs
          counters := { k.counters.clearFrom .transitionTables with
            totalClasses := gs.classes
            totalEntries := gs.entries } }
        (Grids.report ⟨k.signature, f, r⟩ l.states).log.toList := by
  simp only [Construction.buildTables, hf, hr, hl, hresult]

/-- With match sets, the grids are made just if the tables are built. -/
theorem Represents.buildTables_of_some (h : k.Represents a) {f : Forest} {r : Relevance}
    {table : MatchSets} {stats : ClosureStats} (hf : a.forest? = some f)
    (hr : a.relevance? = some r) (hsets : a.matchSets? = some table)
    (hstats : a.progress.discovery? = some stats) :
    k.buildTables.Represents a.buildTables := by
  obtain ⟨l, hl, hrecords⟩ := h.exists_ledger hsets
  have hf' := h.forest.trans hf
  have hr' := h.relevance.trans hr
  have hcounters := Stats.clearFrom_transitionTables hf hr hsets hstats
  rw [← h.counters] at hcounters
  have hledger : Option.Rel Ledger.Records k.ledger? (some table) := hsets ▸ h.ledger
  obtain ⟨hlog, hresult⟩ := Grids.report_records ⟨a.signature, f, r⟩ table
  rw [Automaton.buildTables_eq hf hr hsets hstats]
  rw [← hrecords.states_eq] at hlog hresult
  -- the grids can be made just if the tables can be built
  rcases hresult with ⟨e, htables, hgrids⟩ | ⟨tables, gs, htables, hgrids, hgs⟩
  · rw [Transitions.build] at htables
    rw [htables, buildTables_of_error hf' hr' hl (h.signature ▸ hgrids), h.signature, hlog]
    exact ⟨⟨h.config, rfl, h.patterns, hf', hr', hledger, .none, hcounters⟩, rfl, rfl⟩
  · rw [Transitions.build] at htables
    rw [htables, buildTables_of_ok hf' hr' hl (h.signature ▸ hgrids), h.signature, hlog]
    apply Represents.reportTables
    refine ⟨h.config, rfl, h.patterns, hf', hr', hledger, .some hgs, ?_⟩
    rw [hcounters, hgs.classes_eq, hgs.entries_eq]
    rfl

/-- The first output that is missing decides which phase both name. -/
theorem Represents.buildTables (h : k.Represents a) :
    k.buildTables.Represents a.buildTables := by
  cases hp : a.progress with
  | registered =>
    have hf : k.forest? = none := h.forest.trans (congrArg Progress.forest? hp)
    simp only [Construction.buildTables, Automaton.buildTables, hf, hp]
    exact h.failed _
  | forestBuilt f =>
    have hf : k.forest? = some f := h.forest.trans (congrArg Progress.forest? hp)
    have hr : k.relevance? = none := h.relevance.trans (congrArg Progress.relevance? hp)
    simp only [Construction.buildTables, Automaton.buildTables, hf, hr, hp]
    exact h.failed _
  | projected f r =>
    have hf : k.forest? = some f := h.forest.trans (congrArg Progress.forest? hp)
    have hr : k.relevance? = some r := h.relevance.trans (congrArg Progress.relevance? hp)
    have hl : k.ledger? = none := h.ledger?_eq_none (congrArg Progress.matchSets? hp)
    simp only [Construction.buildTables, Automaton.buildTables, hf, hr, hl, hp]
    exact h.failed _
  -- with match sets, the tables that were there before make no difference
  | discovered =>
    exact h.buildTables_of_some (congrArg Progress.forest? hp) (congrArg Progress.relevance? hp)
      (congrArg Progress.matchSets? hp) (congrArg Progress.discovery? hp)
  | complete =>
    exact h.buildTables_of_some (congrArg Progress.forest? hp) (congrArg Progress.relevance? hp)
      (congrArg Progress.matchSets? hp) (congrArg Progress.discovery? hp)

-- ---------------------------------------------------------------------------
-- Calls in a row
-- ---------------------------------------------------------------------------

/-- Calls one after the other agree if each of them does. -/
theorem Step.Represents.andThen {s : Step} {o : Outcome} (h : s.Represents o)
    {next : Construction → Step} {next' : Automaton → Outcome}
    (hnext : ∀ k a, Construction.Represents k a → (next k).Represents (next' a)) :
    (s.andThen next).Represents (o.andThen next') := by
  rw [Step.andThen, Outcome.andThen, h.error_eq]
  cases o.error with
  | some e => exact h
  | none =>
    have hstep := hnext _ _ h.construction
    exact ⟨hstep.construction, congrArg₂ (· ++ ·) h.events_eq hstep.events_eq, hstep.error_eq⟩

theorem Represents.build (h : k.Represents a) : k.build.Represents a.build :=
  ((h.buildForest.andThen fun _ _ h => h.project).andThen fun _ _ h => h.discover).andThen
    fun _ _ h => h.buildTables

/-- Every call takes a construction and its automaton the same way. -/
theorem Represents.perform (h : k.Represents a) (c : Automaton.Call) :
    (k.perform c).Represents (a.perform c) := by
  cases c with
  | register pattern => exact h.register pattern
  | buildForest => exact h.buildForest
  | project => exact h.project
  | discover => exact h.discover
  | buildTables => exact h.buildTables
  | build => exact h.build

/-- All sequences of calls lead both to the same point. -/
theorem Represents.performAll (h : k.Represents a) (calls : List Automaton.Call) :
    (k.performAll calls).Represents (a.performAll calls) := by
  induction calls generalizing k a with
  | nil => exact h
  | cons c calls ih => exact ih (h.perform c).construction

/-- The counters of a construction are those that are kept beside an automaton. -/
theorem counters_performAll (config : Config) (calls : List Automaton.Call) :
    ((ofConfig config).performAll calls).counters =
      ((Tally.ofConfig config).performAll calls).counters := by
  rw [((represents_ofConfig config).performAll calls).counters, Tally.counters_performAll rfl,
    Tally.automaton_performAll]
  rfl

end Construction

end TreePattern
