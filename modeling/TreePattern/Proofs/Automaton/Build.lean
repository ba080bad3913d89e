import TreePattern.Proofs.Automaton.Failures

/-!
# Running all phases

A build does every phase anew, so its outcome does not depend on the outputs that were there. It
depends on the patterns: without any it fails at once; else only discovery can stop it, at a
limit that is smaller than the number of passes which it takes without one.

## Results

* `Automaton.Consistent.error_build` — how a build over accepted patterns ends.
* `Automaton.Consistent.progress_build` — the outputs that it leaves behind.
-/

namespace TreePattern

namespace Automaton

variable {a : Automaton} {rule : MatchRule}

-- ---------------------------------------------------------------------------
-- Phases in a row
-- ---------------------------------------------------------------------------

/-- An error of the first call is the error of both. -/
theorem error_andThen_of_error {o : Outcome} {next : Automaton → Outcome} {e : BuildError}
    (h : o.error = some e) : (o.andThen next).error = some e := by
  unfold Outcome.andThen
  rw [h]
  exact h

theorem andThen_eq_of_success {o : Outcome} (next : Automaton → Outcome)
    (h : o.error = none) :
    (o.andThen next).error = (next o.automaton).error ∧
      (o.andThen next).automaton = (next o.automaton).automaton := by
  unfold Outcome.andThen
  rw [h]
  exact ⟨rfl, rfl⟩

-- ---------------------------------------------------------------------------
-- Each phase on what the one before it leaves
-- ---------------------------------------------------------------------------

/-- A build without patterns fails at the forest. -/
theorem error_build_of_nil (hnil : a.patterns = []) : a.build.error = some .noPatterns := by
  have hforest : a.buildForest.error = some .noPatterns := by
    unfold buildForest
    rw [hnil]
    rfl
  exact error_andThen_of_error (error_andThen_of_error (error_andThen_of_error hforest))

/-- The first two phases have nothing to stop them. -/
theorem projected_of_builtFrom {f : Forest} {r : Relevance}
    (hrule : MatchRule.BuiltFrom ⟨a.signature, f, r⟩ a.patterns) :
    (a.buildForest.andThen project).error = none ∧
      (a.buildForest.andThen project).automaton = { a with progress := .projected f r } := by
  have hforest : Forest.build a.signature a.patterns = .ok f := hrule.forest
  have hrelevance : Relevance.ofForest a.signature f = .ok r := hrule.relevance
  have herror : a.buildForest.error = none := by
    unfold buildForest
    rw [hforest]
  have hautomaton : a.buildForest.automaton = { a with progress := .forestBuilt f } := by
    unfold buildForest
    rw [hforest]
  obtain ⟨hnext, hlast⟩ := andThen_eq_of_success project herror
  rw [hnext, hlast, hautomaton]
  unfold project
  simp only [forest?, Progress.forest?, hrelevance, and_self]

/-- Without match sets, discovery makes the search that the matching rule describes. -/
theorem discover_of_projected {f : Forest} {r : Relevance} (hp : a.progress = .projected f r) :
    let closure := MatchRule.discover ⟨a.signature, f, r⟩ a.config.maxPasses
    a.discover.error = closure.error? a.config.maxPasses ∧
      (a.discover.error = none → a.discover.automaton =
        { a with progress := .discovered f r closure.table closure.stats }) := by
  intro closure
  have hforest : a.forest? = some f := congrArg Progress.forest? hp
  have hrelevance : a.relevance? = some r := congrArg Progress.relevance? hp
  have hsets : a.matchSets? = none := congrArg Progress.matchSets? hp
  -- there are no match sets to start from
  have heq : a.search f r = closure := by
    unfold search
    rw [hsets]
  have hsearch := discover_cases_of_some hforest hrelevance
  rw [heq] at hsearch
  rcases hsearch with ⟨hstopped, herror, -⟩ | ⟨hcomplete, hnone, hfound⟩
  · rw [herror, Closure.error?_eq_some_iff.2 ⟨hstopped, rfl⟩]
    exact ⟨rfl, fun hnone => absurd hnone (by simp)⟩
  · rw [hnone, Closure.error?_eq_none_iff.2 hcomplete]
    refine ⟨rfl, fun _ => ?_⟩
    rcases hfound with ⟨tables, hkept, -⟩ | ⟨-, hautomaton⟩
    · -- no tables are kept, since there were no match sets
      obtain ⟨before, hbefore, -⟩ := keptTables?_eq_some hkept
      exact absurd (hsets.symm.trans hbefore) (by simp)
    · exact hautomaton

/-- The tables over discovered sets are built without an error. -/
theorem Consistent.buildTables_of_discovered (h : a.Consistent) {f : Forest} {r : Relevance}
    {table : MatchSets} {stats : ClosureStats} (hp : a.progress = .discovered f r table stats) :
    a.buildTables.error = none ∧
      ∃ tables, Transitions.build ⟨a.signature, f, r⟩ table = .ok tables ∧
        a.buildTables.automaton = { a with progress := .complete f r table stats tables } := by
  have hsets : a.matchSets? = some table := congrArg Progress.matchSets? hp
  have hbuild := buildTables_eq (congrArg Progress.forest? hp) (congrArg Progress.relevance? hp)
    hsets (congrArg Progress.discovery? hp)
  -- a failure would need that there are no match sets
  have herror : a.buildTables.error = none := by
    cases he : a.buildTables.error with
    | none => rfl
    | some e => exact absurd ((h.buildTables_failed he).1.symm.trans hsets) (by simp)
  refine ⟨herror, ?_⟩
  cases htables : Transitions.build ⟨a.signature, f, r⟩ table with
  | error e =>
    rw [Transitions.build] at htables
    rw [hbuild, htables] at herror
    exact absurd herror (by simp)
  | ok tables =>
    rw [Transitions.build] at htables
    exact ⟨tables, rfl, by rw [hbuild, htables, automaton_reportTables]⟩

-- ---------------------------------------------------------------------------
-- All phases
-- ---------------------------------------------------------------------------

/-- A build over accepted patterns ends as its search does. -/
theorem Consistent.build_of_builtFrom (h : a.Consistent) (hrule : rule.BuiltFrom a.patterns) :
    let closure := rule.discover a.config.maxPasses
    a.build.error = closure.error? a.config.maxPasses ∧
      (closure.error? a.config.maxPasses = none →
        ∃ tables, Transitions.build rule closure.table = .ok tables ∧
          a.build.automaton.progress =
            .complete rule.forest rule.relevance closure.table closure.stats tables) := by
  intro closure
  obtain ⟨sig, f, r⟩ := rule
  obtain rfl : sig = a.signature := Except.ok.inj (hrule.signature.symm.trans h.signature)
  obtain ⟨hproject, hprojected⟩ := projected_of_builtFrom hrule
  obtain ⟨herror, hautomaton⟩ := andThen_eq_of_success Automaton.discover hproject
  rw [hprojected] at herror hautomaton
  obtain ⟨hsearch, hfound⟩ := discover_of_projected (a := { a with progress := .projected f r }) rfl
  -- the search decides, because all other phases succeed
  cases hend : closure.error? a.config.maxPasses with
  | some e =>
    refine ⟨error_andThen_of_error ?_, fun hnone => absurd hnone (by simp)⟩
    rw [herror, hsearch]
    exact hend
  | none =>
    have hnone : Outcome.error (Automaton.discover { a with progress := .projected f r }) = none :=
      hsearch.trans hend
    have hconsistent : Consistent { a with progress := .projected f r } :=
      h.withProgress ⟨hrule.forest, hrule.relevance⟩
    have hafter := hconsistent.discover
    rw [hfound hnone] at hafter hautomaton
    obtain ⟨htables, tables, hbuild, hlast⟩ := hafter.buildTables_of_discovered rfl
    obtain ⟨hbuildError, hbuildAutomaton⟩ :=
      andThen_eq_of_success Automaton.buildTables (herror.trans hnone)
    rw [hautomaton] at hbuildError hbuildAutomaton
    refine ⟨hbuildError.trans htables, fun _ => ⟨tables, hbuild, ?_⟩⟩
    exact congrArg Automaton.progress (hbuildAutomaton.trans hlast)

/-- Over accepted patterns, running all phases fails only at a limit, and only at one that is
smaller than the number of passes that discovery takes without it. -/
theorem Consistent.error_build (h : a.Consistent) (hrule : rule.BuiltFrom a.patterns) :
    a.build.error =
      if 0 < a.config.maxPasses ∧ a.config.maxPasses < (rule.discover 0).stats.passes then
        some (.passLimitExceeded a.config.maxPasses)
      else none := by
  rw [(h.build_of_builtFrom hrule).1, MatchRule.error?_discover_eq]

/-- Without a limit, a build over accepted patterns leaves all outputs behind. -/
theorem Consistent.progress_build (h : a.Consistent) (hrule : rule.BuiltFrom a.patterns)
    (hlimit : a.config.maxPasses = 0) :
    a.build.error = none ∧
      ∃ tables, Transitions.build rule (rule.discover 0).table = .ok tables ∧
        a.build.automaton.progress =
          .complete rule.forest rule.relevance (rule.discover 0).table (rule.discover 0).stats
            tables := by
  have hbuild := h.build_of_builtFrom hrule
  rw [hlimit] at hbuild
  have hcomplete : (rule.discover 0).error? 0 = none :=
    Closure.error?_eq_none_iff.2 rule.complete_discover
  exact ⟨hbuild.1.trans hcomplete, hbuild.2 hcomplete⟩

end Automaton

end TreePattern
