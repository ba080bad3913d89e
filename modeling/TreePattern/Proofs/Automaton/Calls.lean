import TreePattern.Automaton.Call
import TreePattern.Proofs.MatchSets.Passes

/-!
# What each call can do

A call either fails and leaves the automaton as it was, or it does what its phase is for. Only
the last two phases can fail half-way: a discovery whose passes run out drops the match sets,
and tables that cannot be built anew are dropped.

## Results

* `Automaton.register_cases`, `Automaton.buildForest_cases`, `Automaton.project_cases`,
  `Automaton.discover_cases`, `Automaton.buildTables_cases` — the outcomes of each call, with the
  causes of its failures.
* `Automaton.andThen_of_success` — two calls in a row succeed only if both do.
* `Automaton.perform_frame`      — only registration touches more than the outputs.
-/

namespace TreePattern

namespace Automaton

-- ---------------------------------------------------------------------------
-- Single phases
-- ---------------------------------------------------------------------------

/-- A registration is refused by the signature, and then nothing changes, or drops every output. -/
theorem register_cases (a : Automaton) (pattern : Tree) :
    (∃ e, a.signature.register pattern = .error e ∧ a.register pattern = .failed a e) ∨
    ∃ sig, a.signature.register pattern = .ok sig ∧ (a.register pattern).error = none ∧
      (a.register pattern).automaton =
        { a with
          signature := sig
          patterns := a.patterns ++ [pattern]
          progress := .registered } := by
  unfold register
  split
  · next e he => exact Or.inl ⟨e, he, rfl⟩
  · next sig hsig => exact Or.inr ⟨sig, hsig, rfl, rfl⟩

/-- A forest is built from the signature and the patterns alone, and all later outputs are dropped.
-/
theorem buildForest_cases (a : Automaton) :
    (∃ e, Forest.build a.signature a.patterns = .error e ∧ a.buildForest = .failed a e) ∨
    ∃ f, Forest.build a.signature a.patterns = .ok f ∧ a.buildForest.error = none ∧
      a.buildForest.automaton = { a with progress := .forestBuilt f } := by
  unfold buildForest
  split
  · next e he => exact Or.inl ⟨e, he, rfl⟩
  · next f hf => exact Or.inr ⟨f, hf, rfl, rfl⟩

/-- A projection needs a forest, and drops the match sets and the tables. -/
theorem project_cases (a : Automaton) :
    (∃ e, (a.forest? = none ∧ e = .phaseOrder .projection .forest ∨
        ∃ f, a.forest? = some f ∧ Relevance.ofForest a.signature f = .error e) ∧
      a.project = .failed a e) ∨
    ∃ f r, a.forest? = some f ∧ Relevance.ofForest a.signature f = .ok r ∧
      a.project.error = none ∧ a.project.automaton = { a with progress := .projected f r } := by
  unfold project
  split
  · next hf => exact Or.inl ⟨_, Or.inl ⟨hf, rfl⟩, rfl⟩
  · next f hf =>
    split
    · next e he => exact Or.inl ⟨e, Or.inr ⟨f, hf, he⟩, rfl⟩
    · next r hr => exact Or.inr ⟨f, r, hf, hr, rfl, rfl⟩

/-- The search that discovery makes: from the sets that exist, or else from the leaf states. -/
def search (a : Automaton) (f : Forest) (r : Relevance) : Closure :=
  match a.matchSets? with
  | some table => MatchRule.close ⟨a.signature, f, r⟩ a.config.maxPasses table
  | none => MatchRule.discover ⟨a.signature, f, r⟩ a.config.maxPasses

/-- Tables are kept if there were some, on just as many sets. -/
theorem keptTables?_eq_some {a : Automaton} {table : MatchSets} {tables : Transitions}
    (h : a.keptTables? table = some tables) :
    ∃ before, a.matchSets? = some before ∧ table.size = before.size ∧
      a.tables? = some tables := by
  unfold keptTables? at h
  split at h
  · next before hbefore =>
    split at h
    · next hsize => exact ⟨before, hbefore, hsize, h⟩
    · exact absurd h (by simp)
  · exact absurd h (by simp)

/-- A discovery needs a forest and a projection. If its passes run out, only these are left; else
its match sets are there, and the tables are kept or not. -/
theorem discover_cases (a : Automaton) :
    (∃ required, (a.forest? = none ∧ required = .forest ∨
        a.relevance? = none ∧ required = .projection) ∧
      a.discover = .failed a (.phaseOrder .matchSets required)) ∨
    ∃ f r, a.forest? = some f ∧ a.relevance? = some r ∧
      (((a.search f r).complete = false ∧
        a.discover.error = some (.passLimitExceeded a.config.maxPasses) ∧
        a.discover.automaton = { a with progress := .projected f r }) ∨
      ((a.search f r).complete = true ∧ a.discover.error = none ∧
        ((∃ tables, a.keptTables? (a.search f r).table = some tables ∧
          a.discover.automaton =
            { a with
              progress := .complete f r (a.search f r).table (a.search f r).stats tables }) ∨
        a.keptTables? (a.search f r).table = none ∧ a.discover.automaton =
          { a with progress := .discovered f r (a.search f r).table (a.search f r).stats }))) := by
  unfold discover
  split
  · next hf => exact Or.inl ⟨_, Or.inl ⟨hf, rfl⟩, rfl⟩
  · next hr => exact Or.inl ⟨_, Or.inr ⟨hr, rfl⟩, rfl⟩
  · next f r hf hr =>
    refine Or.inr ⟨f, r, hf, hr, ?_⟩
    unfold search
    cases a.matchSets?
    all_goals
      -- both searches report their end in the same way
      dsimp only
      split
      · next e he =>
        obtain ⟨hstopped, rfl⟩ := Closure.error?_eq_some_iff.1 he
        exact Or.inl ⟨hstopped, rfl, rfl⟩
      · next hnone =>
        refine Or.inr ⟨Closure.error?_eq_none_iff.1 hnone, rfl, ?_⟩
        split
        · next tables htables => exact Or.inl ⟨tables, htables, rfl⟩
        · next hdropped => exact Or.inr ⟨hdropped, rfl⟩

/-- With a forest and a projection there is a search, and it ends in one of these ways. -/
theorem discover_cases_of_some {a : Automaton} {f : Forest} {r : Relevance}
    (hf : a.forest? = some f) (hr : a.relevance? = some r) :
    ((a.search f r).complete = false ∧
      a.discover.error = some (.passLimitExceeded a.config.maxPasses) ∧
      a.discover.automaton = { a with progress := .projected f r }) ∨
    ((a.search f r).complete = true ∧ a.discover.error = none ∧
      ((∃ tables, a.keptTables? (a.search f r).table = some tables ∧
        a.discover.automaton =
          { a with
            progress := .complete f r (a.search f r).table (a.search f r).stats tables }) ∨
      a.keptTables? (a.search f r).table = none ∧ a.discover.automaton =
        { a with progress := .discovered f r (a.search f r).table (a.search f r).stats })) := by
  -- no phase is missing
  rcases a.discover_cases with ⟨required, hmissing, -⟩ | ⟨f', r', hf', hr', hsearch⟩
  · rcases hmissing with ⟨hnone, -⟩ | ⟨hnone, -⟩
    · exact absurd (hnone.symm.trans hf) (by simp)
    · exact absurd (hnone.symm.trans hr) (by simp)
  · obtain rfl : f' = f := Option.some.inj (hf'.symm.trans hf)
    obtain rfl : r' = r := Option.some.inj (hr'.symm.trans hr)
    exact hsearch

/-- Reporting the tables leaves the automaton alone. -/
theorem automaton_reportTables (a : Automaton) (events : List Event) :
    (a.reportTables events).automaton = a := by
  unfold reportTables
  split
  · split <;> rfl
  · rfl

/-- Tables need match sets. If they cannot be built, the match sets are left. -/
theorem buildTables_cases (a : Automaton) :
    (∃ required ∈ [Phase.forest, .projection, .matchSets], a.matchSets? = none ∧
      a.buildTables = .failed a (.phaseOrder .transitionTables required)) ∨
    ∃ f r table stats, a.forest? = some f ∧ a.relevance? = some r ∧ a.matchSets? = some table ∧
      a.progress.discovery? = some stats ∧
      ((∃ e, Transitions.build ⟨a.signature, f, r⟩ table = .error e ∧
        a.buildTables.error = some e ∧
        a.buildTables.automaton = { a with progress := .discovered f r table stats }) ∨
      ∃ tables events, Transitions.build ⟨a.signature, f, r⟩ table = .ok tables ∧
        a.buildTables =
          { a with progress := .complete f r table stats tables }.reportTables events) := by
  unfold buildTables
  split
  · next hprogress =>
    exact Or.inl ⟨_, by simp, congrArg Progress.matchSets? hprogress, rfl⟩
  · next hprogress =>
    exact Or.inl ⟨_, by simp, congrArg Progress.matchSets? hprogress, rfl⟩
  · next hprogress =>
    exact Or.inl ⟨_, by simp, congrArg Progress.matchSets? hprogress, rfl⟩
  · next f r table stats hprogress =>
    refine Or.inr ⟨f, r, table, stats, congrArg Progress.forest? hprogress,
      congrArg Progress.relevance? hprogress, congrArg Progress.matchSets? hprogress,
      congrArg Progress.discovery? hprogress, ?_⟩
    dsimp only
    split
    · next e he => exact Or.inl ⟨e, he, rfl, rfl⟩
    · next tables htables => exact Or.inr ⟨tables, _, htables, rfl⟩
  · next f r table stats _ hprogress =>
    -- the tables that were there before make no difference
    refine Or.inr ⟨f, r, table, stats, congrArg Progress.forest? hprogress,
      congrArg Progress.relevance? hprogress, congrArg Progress.matchSets? hprogress,
      congrArg Progress.discovery? hprogress, ?_⟩
    dsimp only
    split
    · next e he => exact Or.inl ⟨e, he, rfl, rfl⟩
    · next tables htables => exact Or.inr ⟨tables, _, htables, rfl⟩

/-- Over match sets the tables are built anew, whether there were tables before or not. -/
theorem buildTables_eq {a : Automaton} {f : Forest} {r : Relevance} {table : MatchSets}
    {stats : ClosureStats} (hf : a.forest? = some f) (hr : a.relevance? = some r)
    (hsets : a.matchSets? = some table) (hstats : a.progress.discovery? = some stats) :
    a.buildTables =
      match (Tabulation.run ⟨a.signature, f, r⟩ table).result with
      | .error e =>
        ⟨{ a with progress := .discovered f r table stats },
          (Tabulation.run ⟨a.signature, f, r⟩ table).events, some e⟩
      | .ok tables =>
        { a with progress := .complete f r table stats tables }.reportTables
          (Tabulation.run ⟨a.signature, f, r⟩ table).events := by
  unfold forest? at hf
  unfold relevance? at hr
  unfold matchSets? at hsets
  unfold buildTables
  -- match sets are there at two points of the progress only
  cases hp : a.progress with
  | discovered =>
    rw [hp] at hf hr hsets hstats
    cases hf; cases hr; cases hsets; cases hstats
    rfl
  | complete =>
    rw [hp] at hf hr hsets hstats
    cases hf; cases hr; cases hsets; cases hstats
    rfl
  | _ => exact absurd (hp ▸ hsets) (by simp [Progress.matchSets?])

-- ---------------------------------------------------------------------------
-- Phases in a row
-- ---------------------------------------------------------------------------

/-- Two calls one after the other succeed if both do, and lead where the second one leads. -/
theorem andThen_of_success {o : Outcome} {next : Automaton → Outcome}
    (h : (o.andThen next).error = none) :
    o.error = none ∧ (next o.automaton).error = none ∧
      (o.andThen next).automaton = (next o.automaton).automaton := by
  unfold Outcome.andThen at h ⊢
  split at h
  · next e he => exact absurd (he.symm.trans h) (by simp)
  · next hnone => exact ⟨hnone, h, rfl⟩

/-- What holds of an automaton and is kept by the next call holds after it. -/
theorem andThen_induction {motive : Automaton → Prop} {o : Outcome}
    {next : Automaton → Outcome} (h : motive o.automaton)
    (hnext : ∀ a, motive a → motive (next a).automaton) :
    motive (o.andThen next).automaton := by
  unfold Outcome.andThen
  split
  · exact h
  · exact hnext _ h

/-- What every phase keeps is kept by all of them in a row. -/
theorem build_induction {motive : Automaton → Prop} {a : Automaton} (h : motive a)
    (hforest : ∀ a, motive a → motive a.buildForest.automaton)
    (hproject : ∀ a, motive a → motive a.project.automaton)
    (hdiscover : ∀ a, motive a → motive a.discover.automaton)
    (htables : ∀ a, motive a → motive a.buildTables.automaton) :
    motive a.build.automaton :=
  andThen_induction (andThen_induction (andThen_induction (hforest a h) hproject) hdiscover)
    htables

-- ---------------------------------------------------------------------------
-- What no phase touches
-- ---------------------------------------------------------------------------

theorem buildForest_frame (a : Automaton) :
    ∃ p, a.buildForest.automaton = { a with progress := p } := by
  rcases a.buildForest_cases with ⟨e, -, hfailed⟩ | ⟨f, -, -, hautomaton⟩
  · exact ⟨a.progress, by rw [hfailed]; rfl⟩
  · exact ⟨_, hautomaton⟩

theorem project_frame (a : Automaton) :
    ∃ p, a.project.automaton = { a with progress := p } := by
  rcases a.project_cases with ⟨e, -, hfailed⟩ | ⟨f, r, -, -, -, hautomaton⟩
  · exact ⟨a.progress, by rw [hfailed]; rfl⟩
  · exact ⟨_, hautomaton⟩

theorem discover_frame (a : Automaton) :
    ∃ p, a.discover.automaton = { a with progress := p } := by
  rcases a.discover_cases with ⟨required, -, hfailed⟩ | ⟨f, r, -, -, hsearch⟩
  · exact ⟨a.progress, by rw [hfailed]; rfl⟩
  · rcases hsearch with ⟨-, -, hautomaton⟩ | ⟨-, -, ⟨tables, -, hautomaton⟩ | ⟨-, hautomaton⟩⟩
    · exact ⟨_, hautomaton⟩
    · exact ⟨_, hautomaton⟩
    · exact ⟨_, hautomaton⟩

theorem buildTables_frame (a : Automaton) :
    ∃ p, a.buildTables.automaton = { a with progress := p } := by
  rcases a.buildTables_cases with ⟨required, -, -, hfailed⟩ |
    ⟨f, r, table, stats, -, -, -, -, hbuild⟩
  · exact ⟨a.progress, by rw [hfailed]; rfl⟩
  · rcases hbuild with ⟨e, -, -, hautomaton⟩ | ⟨tables, events, -, hreport⟩
    · exact ⟨_, hautomaton⟩
    · exact ⟨_, by rw [hreport, automaton_reportTables]⟩

/-- A phase changes the progress only, and so does the sequence of all of them. -/
theorem build_frame (a : Automaton) : ∃ p, a.build.automaton = { a with progress := p } := by
  -- what a phase leaves as it is in an automaton that differs from `a` in its progress only
  have hstep : ∀ {next : Automaton → Outcome},
      (∀ b, ∃ p, (next b).automaton = { b with progress := p }) →
      ∀ b, (∃ p, b = { a with progress := p }) →
        ∃ p, (next b).automaton = { a with progress := p } := by
    intro next hnext b hb
    obtain ⟨p, rfl⟩ := hb
    obtain ⟨q, hq⟩ := hnext { a with progress := p }
    exact ⟨q, hq⟩
  exact build_induction (motive := fun b => ∃ p, b = { a with progress := p }) ⟨a.progress, rfl⟩
    (hstep buildForest_frame) (hstep project_frame) (hstep discover_frame)
    (hstep buildTables_frame)

/-- No call but registration changes the settings, the signature or the patterns. -/
theorem perform_frame (a : Automaton) {c : Call} (hc : ∀ pattern, c ≠ .register pattern) :
    ∃ p, (a.perform c).automaton = { a with progress := p } := by
  cases c with
  | register pattern => exact absurd rfl (hc pattern)
  | buildForest => exact a.buildForest_frame
  | project => exact a.project_frame
  | discover => exact a.discover_frame
  | buildTables => exact a.buildTables_frame
  | build => exact a.build_frame

end Automaton

end TreePattern
