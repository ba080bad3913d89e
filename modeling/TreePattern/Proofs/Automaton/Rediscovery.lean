import TreePattern.Proofs.Automaton.Counters

/-!
# Discovering again

Once there are match sets, discovery can be called again at any time: the sets are closed for the
signature, the forest and the projection that are there, so the search ends after one pass, which
finds nothing, and no limit stops it. Everything stays as it was, the transition tables included;
only the counters of the search are those of the new one.

## Results

* `Automaton.Consistent.search_eq`    — the search makes one pass.
* `Automaton.Consistent.discover_eq`  — what the call does, if there are match sets.
* `Tally.rediscovery_changes_nothing` — the same with the counters, after any sequence of calls.
-/

namespace TreePattern

/-- The same outputs, with other counters of the discovery. -/
def Progress.recount (stats : ClosureStats) : Progress → Progress
  | discovered f r table _ => .discovered f r table stats
  | complete f r table _ tables => .complete f r table stats tables
  | p => p

/-- Counting a discovery again changes no output. -/
theorem Progress.outputs_recount (p : Progress) (stats : ClosureStats) :
    (p.recount stats).forest? = p.forest? ∧ (p.recount stats).relevance? = p.relevance? ∧
      (p.recount stats).matchSets? = p.matchSets? ∧ (p.recount stats).tables? = p.tables? := by
  cases p with
  | _ => exact ⟨rfl, rfl, rfl, rfl⟩

namespace Automaton

variable {a : Automaton} {f : Forest} {r : Relevance} {table : MatchSets}

-- ---------------------------------------------------------------------------
-- Where there are match sets
-- ---------------------------------------------------------------------------

/-- Where there are match sets, discovery has run, and perhaps the tables have been built. -/
theorem progress_of_matchSets? (hf : a.forest? = some f) (hr : a.relevance? = some r)
    (hsets : a.matchSets? = some table) :
    (∃ stats, a.progress = .discovered f r table stats) ∨
      ∃ stats tables, a.progress = .complete f r table stats tables := by
  unfold forest? at hf
  unfold relevance? at hr
  unfold matchSets? at hsets
  -- match sets are there after the discovery, with tables or without
  cases hp : a.progress with
  | discovered =>
    rw [hp] at hf hr hsets
    cases hf
    cases hr
    cases hsets
    exact Or.inl ⟨_, rfl⟩
  | complete =>
    rw [hp] at hf hr hsets
    cases hf
    cases hr
    cases hsets
    exact Or.inr ⟨_, _, rfl⟩
  | _ => exact absurd (hp ▸ hsets) (by simp [Progress.matchSets?])

/-- Discovery puts together what there was, with its own counters, if it finds the same sets. -/
theorem recount_eq (hf : a.forest? = some f) (hr : a.relevance? = some r)
    (hsets : a.matchSets? = some table) (found : ClosureStats) :
    a.progress.recount found =
      match a.keptTables? table with
      | some tables => .complete f r table found tables
      | none => .discovered f r table found := by
  unfold keptTables?
  rw [hsets]
  dsimp only
  -- the table has not grown, so the transition tables stay
  rw [if_pos rfl]
  unfold tables?
  rcases progress_of_matchSets? hf hr hsets with ⟨stats, hp⟩ | ⟨stats, tables, hp⟩
  · rw [hp]
    rfl
  · rw [hp]
    rfl

/-- Only the counters of the discovery are others. -/
theorem stats_recount (hf : a.forest? = some f) (hr : a.relevance? = some r)
    (hsets : a.matchSets? = some table) (found : ClosureStats) :
    stats { a with progress := a.progress.recount found } =
      { a.stats with passes := found.passes, candidatesExamined := found.candidates } := by
  unfold stats forest? relevance? matchSets? tables?
  rcases progress_of_matchSets? hf hr hsets with ⟨stats, hp⟩ | ⟨stats, tables, hp⟩
  · rw [hp]
    rfl
  · rw [hp]
    rfl

-- ---------------------------------------------------------------------------
-- One call
-- ---------------------------------------------------------------------------

/-- A search that resumes makes one pass and finds nothing, whatever the limit is. -/
theorem Consistent.search_eq (h : a.Consistent) (hf : a.forest? = some f)
    (hr : a.relevance? = some r) (hsets : a.matchSets? = some table) :
    ∃ candidates, a.search f r = ⟨table, [⟨0, table.size, candidates⟩], true⟩ := by
  have hclosed : MatchRule.Closed ⟨a.signature, f, r⟩ table := by
    rw [h.progress.matchSets hf hr hsets]
    exact MatchRule.closed_discover _
  refine ⟨((⟨a.signature, f, r⟩ : MatchRule).sweep table).candidates, ?_⟩
  unfold search
  rw [hsets]
  dsimp only
  rw [MatchRule.close_eq_of_closed hclosed, MatchRule.passOver_of_closed hclosed]

/-- A search that comes to its end leaves its sets, and the tables if they are the same sets. -/
theorem discover_of_complete (hf : a.forest? = some f) (hr : a.relevance? = some r)
    (h : (a.search f r).complete = true) :
    a.discover.error = none ∧ a.discover.automaton =
      { a with
        progress :=
          match a.keptTables? (a.search f r).table with
          | some tables => .complete f r (a.search f r).table (a.search f r).stats tables
          | none => .discovered f r (a.search f r).table (a.search f r).stats } := by
  rcases discover_cases_of_some hf hr with ⟨hstopped, -, -⟩ | ⟨-, herror, hfound⟩
  · exact absurd (h.symm.trans hstopped) (by simp)
  · refine ⟨herror, ?_⟩
    rcases hfound with ⟨tables, hkept, hautomaton⟩ | ⟨hdropped, hautomaton⟩
    · rw [hkept, hautomaton]
    · rw [hdropped, hautomaton]

/-- If there are match sets, discovery reports its one pass and changes only its counters. -/
theorem Consistent.discover_eq (h : a.Consistent) (hsets : a.matchSets? = some table) :
    ∃ candidates,
      a.discover =
        ⟨{ a with progress := a.progress.recount ⟨1, candidates⟩ },
          [.closurePass 1 0 table.size, .discoveredMatchSets table.size 1 candidates], none⟩ := by
  obtain ⟨f, r, hf, hr⟩ := exists_forest_relevance hsets
  obtain ⟨candidates, hsearch⟩ := h.search_eq hf hr hsets
  obtain ⟨herror, hautomaton⟩ := discover_of_complete hf hr (by rw [hsearch])
  have hevents := events_discover hf hr
  rw [hsearch] at hautomaton hevents
  refine ⟨candidates, ?_⟩
  rw [recount_eq hf hr hsets]
  calc a.discover = ⟨a.discover.automaton, a.discover.events, a.discover.error⟩ := rfl
    _ = _ := by rw [herror, hautomaton, hevents]; rfl

end Automaton

-- ---------------------------------------------------------------------------
-- After any sequence of calls
-- ---------------------------------------------------------------------------

namespace Tally

/-- After any sequence of calls on a new automaton, successes and failures mixed: if there are match
sets, discovering again succeeds whatever the limit is, makes one pass that finds nothing, and
changes nothing but the counters of the discovery. -/
theorem rediscovery_changes_nothing (config : Config) (calls : List Automaton.Call)
    {table : MatchSets} :
    let t := (ofConfig config).performAll calls
    let t' := t.perform .discover
    t.automaton.matchSets? = some table →
      ∃ candidates,
        t'.outcome.error = none ∧
        t'.outcome.events =
          [.closurePass 1 0 table.size, .discoveredMatchSets table.size 1 candidates] ∧
        t'.automaton.matchSets? = some table ∧
        t'.automaton.forest? = t.automaton.forest? ∧
        t'.automaton.relevance? = t.automaton.relevance? ∧
        t'.automaton.tables? = t.automaton.tables? ∧
        t'.automaton.config = t.automaton.config ∧
        t'.automaton.signature = t.automaton.signature ∧
        t'.automaton.patterns = t.automaton.patterns ∧
        t'.counters = { t.counters with passes := 1, candidatesExamined := candidates } := by
  intro t t' hsets
  have hcounters : t.counters = t.automaton.stats := counters_performAll rfl calls
  have hconsistent : t.automaton.Consistent := by
    rw [automaton_performAll]
    exact (Automaton.consistent_ofConfig config).performAll calls
  obtain ⟨f, r, hf, hr⟩ := Automaton.exists_forest_relevance hsets
  -- the match sets are closed, so the only pass adds nothing
  obtain ⟨candidates, hdiscover⟩ := hconsistent.discover_eq hsets
  have houtcome : t'.outcome = t.automaton.discover := outcome_perform t .discover
  have hafter : t'.automaton =
      { t.automaton with progress := t.automaton.progress.recount ⟨1, candidates⟩ } := by
    rw [automaton, houtcome, hdiscover]
  obtain ⟨hforest, hrelevance, hmatchSets, htables⟩ :=
    t.automaton.progress.outputs_recount ⟨1, candidates⟩
  refine ⟨candidates, by rw [houtcome, hdiscover], by rw [houtcome, hdiscover], ?_⟩
  rw [counters_perform hcounters, hcounters, ← Automaton.stats_recount hf hr hsets ⟨1, candidates⟩,
    hafter]
  exact ⟨hmatchSets.trans hsets, hforest, hrelevance, htables, rfl, rfl, rfl, rfl⟩

/-- The tables built for `f(a, *)` within two passes outlast another discovery. -/
theorem rediscovery_changes_nothing_for_pair :
    let pattern := Tree.node "f" [Tree.leaf "a", Tree.wildcard]
    let t := (ofConfig { maxPasses := 2 }).performAll [.register pattern, .build]
    let t' := t.perform .discover
    ∃ table tables, t.automaton.matchSets? = some table ∧ table.size = 3 ∧
      t.automaton.tables? = some tables ∧ t.counters.passes = 2 ∧
      t'.outcome.error = none ∧ t'.automaton.matchSets? = some table ∧
      t'.automaton.tables? = some tables ∧ t'.counters.passes = 1 ∧
      t'.counters.totalEntries = t.counters.totalEntries := by
  intro pattern t t'
  obtain ⟨table, hsets⟩ : ∃ table, t.automaton.matchSets? = some table :=
    Option.isSome_iff_exists.1 (by decide +kernel)
  obtain ⟨tables, htables⟩ : ∃ tables, t.automaton.tables? = some tables :=
    Option.isSome_iff_exists.1 (by decide +kernel)
  have hsize : t.automaton.matchSets?.map MatchSets.size = some 3 := by decide +kernel
  obtain ⟨candidates, herror, -, hsame, -, -, hkept, -, -, -, hcounters⟩ :=
    rediscovery_changes_nothing { maxPasses := 2 } [.register pattern, .build] hsets
  refine ⟨table, tables, hsets, ?_, htables, by decide +kernel, herror, hsame,
    hkept.trans htables, ?_, ?_⟩
  · rw [hsets] at hsize
    exact Option.some.inj hsize
  · rw [hcounters]
  · rw [hcounters]

end Tally

end TreePattern
