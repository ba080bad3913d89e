import TreePattern.Proofs.Automaton.History
import TreePattern.Proofs.BuiltFrom
import TreePattern.Proofs.MatchSets.Limits
import TreePattern.Proofs.Transitions.Totality

/-!
# Failing calls

On an automaton whose outputs are fresh, few failures are left. Patterns that registered have
a forest and a projection; sets that exist are closed, so a search that resumes on them does not
run out of passes, and all targets of the transition tables are among them. What is left is an
arity conflict, a missing pattern or phase, and a limit that stops the first search. None of
these changes the automaton.

## Results

* `Automaton.Consistent.failed`            — why a single phase fails, and that it changes nothing.
* `Automaton.exists_failing_call`          — where calls in a row stop.
* `Automaton.Consistent.build_failed`      — what a failing build leaves behind.
-/

namespace TreePattern

namespace Outcome

/-- Makes the calls in order and stops at the first that fails. -/
def thenAll (o : Outcome) (calls : List Automaton.Call) : Outcome :=
  calls.foldl (fun o c => o.andThen (·.perform c)) o

/-- After an error no more calls are made. -/
theorem thenAll_of_error {o : Outcome} {e : BuildError} (he : o.error = some e)
    (calls : List Automaton.Call) : o.thenAll calls = o := by
  induction calls with
  | nil => rfl
  | cons c calls ih =>
    have hstop : o.andThen (·.perform c) = o := by
      unfold andThen
      rw [he]
    unfold thenAll at ih ⊢
    rw [List.foldl_cons, hstop]
    exact ih

end Outcome

namespace Automaton

variable {a : Automaton} {f : Forest} {r : Relevance}

-- ---------------------------------------------------------------------------
-- The rule behind the outputs
-- ---------------------------------------------------------------------------

/-- The forest and the projection that exist are those of the patterns. -/
theorem Consistent.exists_rule (h : a.Consistent) (hne : a.patterns ≠ []) :
    ∃ f r, MatchRule.BuiltFrom ⟨a.signature, f, r⟩ a.patterns := by
  obtain ⟨⟨sig, f, r⟩, hsig, hrule⟩ := MatchRule.exists_builtFrom hne h.signature
  obtain rfl : sig = a.signature := hsig
  exact ⟨f, r, hrule⟩

/-- Once there is a forest, there is a projection that belongs to it. -/
theorem Consistent.exists_relevance (h : a.Consistent) (hf : a.forest? = some f) :
    ∃ r, MatchRule.BuiltFrom ⟨a.signature, f, r⟩ a.patterns := by
  have hforest := h.progress.forest hf
  obtain ⟨f', r, hrule⟩ := h.exists_rule (Forest.ne_nil_of_build hforest)
  obtain rfl : f' = f := Except.ok.inj (hrule.forest.symm.trans hforest)
  exact ⟨r, hrule⟩

/-- The text can be written: every member is the number of a tree. -/
theorem Consistent.exists_dump (h : a.Consistent) : ∃ text, a.dump? = some text := by
  unfold dump?
  cases hf : a.forest? with
  | none => exact ⟨_, rfl⟩
  | some f =>
    obtain ⟨r, hrule⟩ := h.exists_relevance hf
    -- only a member without a tree could have no text, and every member has one
    have hlines : ∃ lines, forestLines? a.signature f = some lines := by
      refine exists_mapM_eq_some ?_
      intro i hi
      obtain ⟨t, ht⟩ := hrule.exists_tree hi
      rw [Forest.tree?_eq_some_iff.2 ht]
      rfl
    obtain ⟨lines, hlines⟩ := hlines
    dsimp only
    rw [hlines]
    exact ⟨_, rfl⟩

-- ---------------------------------------------------------------------------
-- One failing call
-- ---------------------------------------------------------------------------

/-- The failures that a call can have: a symbol with two arities, no pattern, a phase that is
missing, or too few passes. -/
inductive Call.MayFail (maxPasses : Nat) : Call → BuildError → Prop where
  | register {pattern node : Tree} {expected : Nat} :
      node ∈ pattern.preOrder → expected ≠ node.arity →
      MayFail maxPasses (.register pattern) (.arityConflict node.symbol expected node.arity)
  | buildForest : MayFail maxPasses .buildForest .noPatterns
  | project : MayFail maxPasses .project (.phaseOrder .projection .forest)
  | discover {required : Phase} : required ∈ [Phase.forest, .projection] →
      MayFail maxPasses .discover (.phaseOrder .matchSets required)
  | passLimit : 0 < maxPasses → MayFail maxPasses .discover (.passLimitExceeded maxPasses)
  | buildTables {required : Phase} : required ∈ [Phase.forest, .projection, .matchSets] →
      MayFail maxPasses .buildTables (.phaseOrder .transitionTables required)
  | noPatterns : MayFail maxPasses .build .noPatterns
  | buildLimit : 0 < maxPasses → MayFail maxPasses .build (.passLimitExceeded maxPasses)

variable {e : BuildError}

/-- A registration fails for a symbol with two arities, and then nothing is registered. -/
theorem register_failed {pattern : Tree} (he : (a.register pattern).error = some e) :
    (Call.register pattern).MayFail a.config.maxPasses e ∧
      (a.register pattern).automaton = a := by
  rcases a.register_cases pattern with ⟨e', hsig, hfailed⟩ | ⟨sig, -, hnone, -⟩
  · rw [hfailed] at he ⊢
    obtain rfl : e' = e := Option.some.inj he
    obtain ⟨node, hnode, n, hn, rfl⟩ := Signature.register_eq_error hsig
    exact ⟨.register hnode hn, rfl⟩
  · exact absurd (hnone.symm.trans he) (by simp)

/-- A forest cannot be built only if there is no pattern. -/
theorem Consistent.buildForest_failed (h : a.Consistent) (he : a.buildForest.error = some e) :
    a.patterns = [] ∧ e = .noPatterns ∧ a.buildForest.automaton = a := by
  rcases a.buildForest_cases with ⟨e', hforest, hfailed⟩ | ⟨f, -, hnone, -⟩
  · rw [hfailed] at he ⊢
    obtain rfl : e' = e := Option.some.inj he
    by_cases hne : a.patterns = []
    · rw [hne] at hforest
      exact ⟨hne, (Except.error.inj hforest).symm, rfl⟩
    · obtain ⟨f, r, hrule⟩ := h.exists_rule hne
      exact absurd (hrule.forest.symm.trans hforest) (by simp)
  · exact absurd (hnone.symm.trans he) (by simp)

/-- A projection can be made of every forest that is there. -/
theorem Consistent.project_failed (h : a.Consistent) (he : a.project.error = some e) :
    a.forest? = none ∧ e = .phaseOrder .projection .forest ∧ a.project.automaton = a := by
  rcases a.project_cases with ⟨e', hcause, hfailed⟩ | ⟨f, r, -, -, hnone, -⟩
  · rw [hfailed] at he ⊢
    obtain rfl : e' = e := Option.some.inj he
    rcases hcause with ⟨hf, he⟩ | ⟨f, hf, hrelevance⟩
    · exact ⟨hf, he, rfl⟩
    · obtain ⟨r, hrule⟩ := h.exists_relevance hf
      exact absurd (hrule.relevance.symm.trans hrelevance) (by simp)
  · exact absurd (hnone.symm.trans he) (by simp)

/-- A search that resumes on the sets that exist comes to its end. -/
theorem Consistent.matchSets?_eq_none (h : a.Consistent) (hf : a.forest? = some f)
    (hr : a.relevance? = some r) (hstopped : (a.search f r).complete = false) :
    a.matchSets? = none := by
  cases hsets : a.matchSets? with
  | none => rfl
  | some table =>
    unfold search at hstopped
    rw [hsets, h.progress.matchSets hf hr hsets] at hstopped
    dsimp only at hstopped
    rw [(MatchRule.close_discover ..).2] at hstopped
    exact absurd hstopped (by simp)

/-- With a projection and without match sets, the progress is at one point. -/
theorem eq_projected (hf : a.forest? = some f) (hr : a.relevance? = some r)
    (hsets : a.matchSets? = none) : a.progress = .projected f r := by
  unfold forest? at hf
  unfold relevance? at hr
  unfold matchSets? at hsets
  cases hp : a.progress with
  | registered => exact absurd (hp ▸ hf) (by simp [Progress.forest?])
  | forestBuilt f' => exact absurd (hp ▸ hr) (by simp [Progress.relevance?])
  | projected f' r' =>
    rw [hp] at hf hr
    cases hf
    cases hr
    rfl
  | discovered => exact absurd (hp ▸ hsets) (by simp [Progress.matchSets?])
  | complete => exact absurd (hp ▸ hsets) (by simp [Progress.matchSets?])

/-- The state that a stopped search returns to is the one in which it was started. -/
theorem Consistent.discover_failed (h : a.Consistent) (he : a.discover.error = some e) :
    ((∃ required ∈ [Phase.forest, .projection], e = .phaseOrder .matchSets required) ∨
      0 < a.config.maxPasses ∧ e = .passLimitExceeded a.config.maxPasses) ∧
    a.discover.automaton = a := by
  rcases a.discover_cases with ⟨required, hcause, hfailed⟩ | ⟨f, r, hf, hr, hsearch⟩
  · rw [hfailed] at he ⊢
    refine ⟨Or.inl ⟨required, ?_, (Option.some.inj he).symm⟩, rfl⟩
    rcases hcause with ⟨-, rfl⟩ | ⟨-, rfl⟩
    · exact List.mem_cons_self
    · exact List.mem_cons_of_mem _ List.mem_cons_self
  · rcases hsearch with ⟨hstopped, herror, hautomaton⟩ | ⟨-, hnone, -⟩
    -- match sets that are there are closed, so a search that is stopped has started from the leaves
    · have hsets := h.matchSets?_eq_none hf hr hstopped
      have hpos : 0 < a.config.maxPasses := by
        by_contra hzero
        -- without a limit, no search is stopped
        unfold search at hstopped
        rw [hsets, Nat.eq_zero_of_not_pos hzero] at hstopped
        dsimp only at hstopped
        rw [MatchRule.complete_discover] at hstopped
        exact absurd hstopped (by simp)
      refine ⟨Or.inr ⟨hpos, Option.some.inj (he.symm.trans herror)⟩, ?_⟩
      rw [hautomaton, ← eq_projected hf hr hsets]
    · exact absurd (hnone.symm.trans he) (by simp)

/-- The sets that exist are closed, so the tables over them can be built. -/
theorem Consistent.exists_tables (h : a.Consistent) (hf : a.forest? = some f)
    (hr : a.relevance? = some r) {table : MatchSets} (hsets : a.matchSets? = some table) :
    ∃ tables, Transitions.build ⟨a.signature, f, r⟩ table = .ok tables := by
  have hfound := h.progress.matchSets hf hr hsets
  rw [hfound]
  refine Transitions.exists_build ?_ (MatchRule.closed_of_complete (MatchRule.complete_discover _))
  exact (MatchSets.Reached.close ⟨a.signature, f, r⟩ 0 (.ofLeaves a.signature)).wildcard_eq

/-- The text of the outputs can always be written. -/
theorem Consistent.error_reportTables (h : a.Consistent) (events : List Event) :
    (a.reportTables events).error = none := by
  obtain ⟨text, htext⟩ := h.exists_dump
  unfold reportTables
  rw [htext]
  split
  · rfl
  · rfl

/-- Tables can be built over all match sets that are there. -/
theorem Consistent.buildTables_failed (h : a.Consistent) (he : a.buildTables.error = some e) :
    a.matchSets? = none ∧
      (∃ required ∈ [Phase.forest, .projection, .matchSets],
        e = .phaseOrder .transitionTables required) ∧
      a.buildTables.automaton = a := by
  have hafter := h.buildTables
  rcases a.buildTables_cases with ⟨required, hrequired, hsets, hfailed⟩ |
    ⟨f, r, table, stats, hf, hr, hsets, -, hbuild⟩
  · rw [hfailed] at he ⊢
    exact ⟨hsets, ⟨required, hrequired, (Option.some.inj he).symm⟩, rfl⟩
  · rcases hbuild with ⟨e', htables, -, -⟩ | ⟨tables, events, -, hreport⟩
    -- the match sets are closed, so no target is missing
    · obtain ⟨tables, hok⟩ := h.exists_tables hf hr hsets
      exact absurd (hok.symm.trans htables) (by simp)
    · rw [hreport, automaton_reportTables] at hafter
      rw [hreport, hafter.error_reportTables] at he
      exact absurd he (by simp)

/-- A phase that fails does so for one of the known reasons, and changes nothing. -/
theorem Consistent.failed (h : a.Consistent) {c : Call} (hc : c ≠ .build)
    (he : (a.perform c).error = some e) :
    c.MayFail a.config.maxPasses e ∧ (a.perform c).automaton = a := by
  cases c with
  | register pattern => exact register_failed he
  | buildForest =>
    obtain ⟨-, rfl, hsame⟩ := h.buildForest_failed he
    exact ⟨.buildForest, hsame⟩
  | project =>
    obtain ⟨-, rfl, hsame⟩ := h.project_failed he
    exact ⟨.project, hsame⟩
  | discover =>
    -- an input is missing, or the passes ran out
    obtain ⟨⟨required, hrequired, rfl⟩ | ⟨hpos, rfl⟩, hsame⟩ := h.discover_failed he
    · exact ⟨.discover hrequired, hsame⟩
    · exact ⟨.passLimit hpos, hsame⟩
  | buildTables =>
    obtain ⟨-, ⟨required, hrequired, rfl⟩, hsame⟩ := h.buildTables_failed he
    exact ⟨.buildTables hrequired, hsame⟩
  | build => exact absurd rfl hc

-- ---------------------------------------------------------------------------
-- Calls in a row
-- ---------------------------------------------------------------------------

/-- The calls that `build` makes, in order. -/
def Call.phases : List Call := [.buildForest, .project, .discover, .buildTables]

/-- Every call of the list succeeds, each made after the ones before it. -/
def AllSucceed (a : Automaton) : List Call → Prop
  | [] => True
  | c :: calls => (a.perform c).error = none ∧ (a.perform c).automaton.AllSucceed calls

/-- Calls in a row that fail stop at the first that fails, after those that succeeded. -/
theorem exists_failing_call {events : List Event} {calls : List Call}
    (he : (Outcome.thenAll ⟨a, events, none⟩ calls).error = some e) :
    ∃ leading c rest, calls = leading ++ c :: rest ∧ a.AllSucceed leading ∧
      ((a.performAll leading).perform c).error = some e ∧
      (Outcome.thenAll ⟨a, events, none⟩ calls).automaton =
        ((a.performAll leading).perform c).automaton := by
  induction calls generalizing a events with
  | nil => exact absurd he (by simp [Outcome.thenAll])
  | cons c calls ih =>
    have hfirst : Outcome.thenAll ⟨a, events, none⟩ (c :: calls) =
        Outcome.thenAll ⟨(a.perform c).automaton, events ++ (a.perform c).events,
          (a.perform c).error⟩ calls :=
      rfl
    rw [hfirst] at he ⊢
    cases hc : (a.perform c).error with
    | some e' =>
      -- the first call fails, and its outcome stays
      have hstop := Outcome.thenAll_of_error (e := e') (o := ⟨(a.perform c).automaton,
        events ++ (a.perform c).events, some e'⟩) rfl calls
      rw [hc, hstop] at he
      rw [hstop]
      exact ⟨[], c, calls, rfl, trivial, hc.trans he, rfl⟩
    | none =>
      rw [hc] at he
      -- the first call succeeds, and the one that fails is among the others
      obtain ⟨leading, d, rest, rfl, hleading, hfails, hautomaton⟩ := ih he
      exact ⟨c :: leading, d, rest, rfl, ⟨hc, hleading⟩, hfails, hautomaton⟩

/-- A build is the sequence of the single phases. -/
theorem build_eq_thenAll (a : Automaton) :
    a.build = Outcome.thenAll ⟨a, [], none⟩ Call.phases :=
  rfl

/-- A build that fails leaves what the phases before the failing one have built. -/
theorem Consistent.build_failed (h : a.Consistent) (he : a.build.error = some e) :
    ∃ leading c rest, Call.phases = leading ++ c :: rest ∧ a.AllSucceed leading ∧
      ((a.performAll leading).perform c).error = some e ∧
      a.build.automaton = a.performAll leading := by
  rw [build_eq_thenAll] at he ⊢
  obtain ⟨leading, c, rest, hphases, hleading, hfails, hautomaton⟩ := exists_failing_call he
  have hphase : c ∈ Call.phases := by
    rw [hphases]
    exact List.mem_append_right _ List.mem_cons_self
  -- the phases are single calls, to which the statement on single calls applies
  have hc : c ≠ .build := by
    intro heq
    rw [heq] at hphase
    exact absurd hphase (by decide)
  refine ⟨leading, c, rest, hphases, hleading, hfails, ?_⟩
  rw [hautomaton]
  exact ((h.performAll leading).failed hc hfails).2

end Automaton

end TreePattern
