import TreePattern.Proofs.Automaton.Calls
import TreePattern.Proofs.Forest.Sharing
import TreePattern.Proofs.MatchSets.Limits

/-!
# Outputs do not depend on the history

Calls come in any order, and some of them fail. Whatever was called, the outputs that an
automaton holds are those that their phases compute from its patterns and its signature alone,
and the signature is the one that the accepted patterns leave behind. A discovery that resumes
on the sets that exist is no exception: these sets are closed already, so it finds them again.

## Results

* `Automaton.Consistent.perform`  — a call keeps the outputs fresh.
* `Automaton.Consistent.performAll` — so does every sequence of calls.
* `Automaton.patterns_performAll` — the patterns are the accepted ones.
-/

namespace TreePattern

-- ---------------------------------------------------------------------------
-- Fresh outputs
-- ---------------------------------------------------------------------------

namespace Progress

/-- Every output is what its phase computes from the signature and the patterns. -/
def Fresh (sig : Signature) (patterns : List Tree) : Progress → Prop
  | registered => True
  | forestBuilt f => Forest.build sig patterns = .ok f
  | projected f r => Forest.build sig patterns = .ok f ∧ Relevance.ofForest sig f = .ok r
  | discovered f r table _ =>
    Forest.build sig patterns = .ok f ∧ Relevance.ofForest sig f = .ok r ∧
      table = (MatchRule.discover ⟨sig, f, r⟩ 0).table
  | complete f r table _ tables =>
    Forest.build sig patterns = .ok f ∧ Relevance.ofForest sig f = .ok r ∧
      table = (MatchRule.discover ⟨sig, f, r⟩ 0).table ∧
      Transitions.build ⟨sig, f, r⟩ table = .ok tables

variable {sig : Signature} {patterns : List Tree} {p : Progress} {f : Forest} {r : Relevance}
  {table : MatchSets} {ts : Transitions}

/-- There are tables only where there are match sets. -/
theorem matchSets?_of_tables? (p : Progress) (h : p.tables?.isSome) : p.matchSets?.isSome := by
  cases p with
  | complete => rfl
  | _ => exact absurd h (by simp [tables?])

theorem relevance?_of_matchSets? (p : Progress) (h : p.matchSets?.isSome) :
    p.relevance?.isSome := by
  cases p with
  | discovered => rfl
  | complete => rfl
  | _ => exact absurd h (by simp [matchSets?])

theorem forest?_of_relevance? (p : Progress) (h : p.relevance?.isSome) : p.forest?.isSome := by
  cases p with
  | registered => exact absurd h (by simp [relevance?])
  | _ => rfl

/-- A forest that is there is that of the patterns. -/
theorem Fresh.forest (h : p.Fresh sig patterns) (hf : p.forest? = some f) :
    Forest.build sig patterns = .ok f := by
  cases p with
  | registered => exact absurd hf (by simp [forest?])
  | forestBuilt _ => cases hf; exact h
  | projected _ _ => cases hf; exact h.1
  | discovered _ _ _ _ => cases hf; exact h.1
  | complete _ _ _ _ _ => cases hf; exact h.1

theorem Fresh.relevance (h : p.Fresh sig patterns) (hf : p.forest? = some f)
    (hr : p.relevance? = some r) : Relevance.ofForest sig f = .ok r := by
  cases p with
  | registered => exact absurd hf (by simp [forest?])
  | forestBuilt _ => exact absurd hr (by simp [relevance?])
  | projected _ _ => cases hf; cases hr; exact h.2
  | discovered _ _ _ _ => cases hf; cases hr; exact h.2.1
  | complete _ _ _ _ _ => cases hf; cases hr; exact h.2.1

/-- Match sets that are there are those of a discovery without a limit. -/
theorem Fresh.matchSets (h : p.Fresh sig patterns) (hf : p.forest? = some f)
    (hr : p.relevance? = some r) (htable : p.matchSets? = some table) :
    table = (MatchRule.discover ⟨sig, f, r⟩ 0).table := by
  cases p with
  | registered => exact absurd hf (by simp [forest?])
  | forestBuilt _ => exact absurd hr (by simp [relevance?])
  | projected _ _ => exact absurd htable (by simp [matchSets?])
  | discovered _ _ _ _ => cases hf; cases hr; cases htable; exact h.2.2
  | complete _ _ _ _ _ => cases hf; cases hr; cases htable; exact h.2.2.1

/-- Tables that are there are those over the match sets. -/
theorem Fresh.tables (h : p.Fresh sig patterns) (hf : p.forest? = some f)
    (hr : p.relevance? = some r) (htable : p.matchSets? = some table)
    (hts : p.tables? = some ts) : Transitions.build ⟨sig, f, r⟩ table = .ok ts := by
  cases p with
  | registered => exact absurd hf (by simp [forest?])
  | forestBuilt _ => exact absurd hr (by simp [relevance?])
  | projected _ _ => exact absurd htable (by simp [matchSets?])
  | discovered _ _ _ _ => exact absurd hts (by simp [tables?])
  | complete _ _ _ _ _ => cases hf; cases hr; cases htable; cases hts; exact h.2.2.2

end Progress

-- ---------------------------------------------------------------------------
-- Discovery from scratch and resumed
-- ---------------------------------------------------------------------------

namespace MatchRule

/-- A discovery that comes to its end finds what one without a limit finds. -/
theorem discover_eq_of_complete {rule : MatchRule} {limit : Nat}
    (h : (rule.discover limit).complete = true) : rule.discover limit = rule.discover 0 :=
  closeWithin_eq_of_complete h

/-- An unlimited discovery leaves a closed table. -/
theorem closed_discover (rule : MatchRule) : rule.Closed (rule.discover 0).table :=
  closed_of_complete rule.complete_discover

/-- Resumed on the sets of an unlimited discovery, the search ends and finds nothing more. -/
theorem close_discover (rule : MatchRule) (limit : Nat) :
    (rule.close limit (rule.discover 0).table).table = (rule.discover 0).table ∧
      (rule.close limit (rule.discover 0).table).complete = true := by
  rw [close_eq_of_closed rule.closed_discover]
  exact ⟨rfl, rfl⟩

end MatchRule

namespace Automaton

/-- Match sets are there only together with the forest and the projection. -/
theorem exists_forest_relevance {a : Automaton} {table : MatchSets}
    (hsets : a.matchSets? = some table) :
    ∃ f r, a.forest? = some f ∧ a.relevance? = some r := by
  obtain ⟨r, hr⟩ := Option.isSome_iff_exists.1
    (a.progress.relevance?_of_matchSets? (Option.isSome_iff_exists.2 ⟨table, hsets⟩))
  obtain ⟨f, hf⟩ := Option.isSome_iff_exists.1
    (a.progress.forest?_of_relevance? (Option.isSome_iff_exists.2 ⟨r, hr⟩))
  exact ⟨f, r, hf, hr⟩

/-- The signature is that of the patterns, and all outputs are fresh. -/
structure Consistent (a : Automaton) : Prop where
  signature : a.patterns.foldlM Signature.register .empty = .ok a.signature
  progress : a.progress.Fresh a.signature a.patterns

-- ---------------------------------------------------------------------------
-- One call
-- ---------------------------------------------------------------------------

variable {a : Automaton}

/-- Only registration changes the patterns and the signature, so a call that leaves them has
to keep the outputs fresh. -/
theorem Consistent.withProgress (h : a.Consistent) {p : Progress}
    (hp : p.Fresh a.signature a.patterns) : Consistent { a with progress := p } :=
  ⟨h.signature, hp⟩

theorem Consistent.register (h : a.Consistent) (pattern : Tree) :
    (a.register pattern).automaton.Consistent := by
  rcases a.register_cases pattern with ⟨e, -, hfailed⟩ | ⟨sig, hsig, -, hautomaton⟩
  · rw [hfailed]
    exact h
  · rw [hautomaton]
    refine ⟨?_, trivial⟩
    rw [List.foldlM_append, bind_eq_ok_iff]
    exact ⟨a.signature, h.signature, foldlM_cons_eq_ok_iff.2 ⟨sig, hsig, rfl⟩⟩

theorem Consistent.buildForest (h : a.Consistent) : a.buildForest.automaton.Consistent := by
  rcases a.buildForest_cases with ⟨e, -, hfailed⟩ | ⟨f, hf, -, hautomaton⟩
  · rw [hfailed]
    exact h
  · rw [hautomaton]
    exact h.withProgress hf

theorem Consistent.project (h : a.Consistent) : a.project.automaton.Consistent := by
  rcases a.project_cases with ⟨e, -, hfailed⟩ | ⟨f, r, hf, hr, -, hautomaton⟩
  · rw [hfailed]
    exact h
  · rw [hautomaton]
    exact h.withProgress ⟨h.progress.forest hf, hr⟩

/-- A search that comes to its end finds the sets of an unlimited discovery; the sets that
exist are closed, so a search that resumes on them finds nothing more. -/
theorem Consistent.table_search (h : a.Consistent) {f : Forest} {r : Relevance}
    (hf : a.forest? = some f) (hr : a.relevance? = some r)
    (hcomplete : (a.search f r).complete = true) :
    (a.search f r).table = (MatchRule.discover ⟨a.signature, f, r⟩ 0).table := by
  unfold search at hcomplete ⊢
  cases hsets : a.matchSets? with
  | none =>
    rw [hsets] at hcomplete
    exact congrArg Closure.table (MatchRule.discover_eq_of_complete hcomplete)
  | some table =>
    dsimp only
    rw [h.progress.matchSets hf hr hsets]
    exact (MatchRule.close_discover ..).1

/-- A discovery keeps the outputs fresh, if it resumes as well as if it starts anew. -/
theorem Consistent.discover (h : a.Consistent) : a.discover.automaton.Consistent := by
  rcases a.discover_cases with ⟨required, -, hfailed⟩ | ⟨f, r, hf, hr, hsearch⟩
  · rw [hfailed]
    exact h
  have hforest := h.progress.forest hf
  have hrelevance := h.progress.relevance hf hr
  rcases hsearch with ⟨-, -, hautomaton⟩ | ⟨hcomplete, -, hkept | ⟨-, hautomaton⟩⟩
  -- the passes have run out, and only the forest and the projection are left
  · rw [hautomaton]
    exact h.withProgress ⟨hforest, hrelevance⟩
  -- the tables are kept, but over the same match sets
  · obtain ⟨tables, htables, hautomaton⟩ := hkept
    obtain ⟨table, hsets, -, htables⟩ := keptTables?_eq_some htables
    have hfound := h.table_search hf hr hcomplete
    have hsame : (a.search f r).table = table := by
      rw [hfound, h.progress.matchSets hf hr hsets]
    rw [hautomaton]
    refine h.withProgress ⟨hforest, hrelevance, hfound, ?_⟩
    rw [hsame]
    exact h.progress.tables hf hr hsets htables
  · rw [hautomaton]
    exact h.withProgress ⟨hforest, hrelevance, h.table_search hf hr hcomplete⟩

/-- Building the tables keeps the outputs fresh, also if it fails. -/
theorem Consistent.buildTables (h : a.Consistent) : a.buildTables.automaton.Consistent := by
  rcases a.buildTables_cases with ⟨required, -, -, hfailed⟩ |
    ⟨f, r, table, stats, hf, hr, hsets, -, hbuild⟩
  · rw [hfailed]
    exact h
  -- the outputs before the tables stay, whatever becomes of them
  have hforest := h.progress.forest hf
  have hrelevance := h.progress.relevance hf hr
  have hfound := h.progress.matchSets hf hr hsets
  rcases hbuild with ⟨e, -, -, hautomaton⟩ | ⟨tables, events, htables, hreport⟩
  · rw [hautomaton]
    exact h.withProgress ⟨hforest, hrelevance, hfound⟩
  · rw [hreport, automaton_reportTables]
    exact h.withProgress ⟨hforest, hrelevance, hfound, htables⟩

/-- A call keeps the outputs fresh, whether it fails or not. -/
theorem Consistent.perform (h : a.Consistent) (c : Call) :
    (a.perform c).automaton.Consistent := by
  cases c with
  | register pattern => exact h.register pattern
  | buildForest => exact h.buildForest
  | project => exact h.project
  | discover => exact h.discover
  | buildTables => exact h.buildTables
  | build =>
    exact build_induction h (fun _ h => h.buildForest) (fun _ h => h.project)
      (fun _ h => h.discover) fun _ h => h.buildTables

-- ---------------------------------------------------------------------------
-- Sequences of calls
-- ---------------------------------------------------------------------------

/-- The automaton after some calls, each made whether the one before failed or not. -/
def performAll (a : Automaton) : List Call → Automaton
  | [] => a
  | c :: calls => (a.perform c).automaton.performAll calls

/-- What a call adds to the patterns: a registration that does not fail adds its pattern. -/
def Call.added (a : Automaton) : Call → List Tree
  | .register pattern => if (a.register pattern).error = none then [pattern] else []
  | _ => []

/-- The patterns that the calls add, in order: the accepted ones. -/
def accepted (a : Automaton) : List Call → List Tree
  | [] => []
  | c :: calls => c.added a ++ (a.perform c).automaton.accepted calls

theorem consistent_ofConfig (config : Config) : (ofConfig config).Consistent := ⟨rfl, trivial⟩

/-- Every sequence of calls keeps the outputs fresh. -/
theorem Consistent.performAll (h : a.Consistent) (calls : List Call) :
    (a.performAll calls).Consistent := by
  induction calls generalizing a with
  | nil => exact h
  | cons c calls ih => exact ih (h.perform c)

/-- A build does not touch the patterns. -/
theorem patterns_build (a : Automaton) : a.build.automaton.patterns = a.patterns := by
  obtain ⟨p, hp⟩ := a.build_frame
  rw [hp]

theorem patterns_register (a : Automaton) (pattern : Tree) :
    (a.register pattern).automaton.patterns =
      a.patterns ++ (Call.register pattern).added a := by
  rw [Call.added]
  rcases a.register_cases pattern with ⟨e, -, hfailed⟩ | ⟨sig, -, herror, hautomaton⟩
  · rw [hfailed, if_neg (by simp [Outcome.failed]), List.append_nil]
    rfl
  · rw [hautomaton, if_pos herror]

/-- Nothing but an accepted registration adds a pattern, and no call takes one away. -/
theorem patterns_perform (a : Automaton) (c : Call) :
    (a.perform c).automaton.patterns = a.patterns ++ c.added a := by
  by_cases hc : ∃ pattern, c = .register pattern
  · obtain ⟨pattern, rfl⟩ := hc
    exact a.patterns_register pattern
  · obtain ⟨p, hp⟩ := a.perform_frame fun pattern heq => hc ⟨pattern, heq⟩
    have hadded : c.added a = [] := by
      cases c with
      | register pattern => exact absurd ⟨pattern, rfl⟩ hc
      | _ => rfl
    rw [hp, hadded, List.append_nil]

/-- The patterns are the accepted ones, in the order of their calls. -/
theorem patterns_performAll (a : Automaton) (calls : List Call) :
    (a.performAll calls).patterns = a.patterns ++ a.accepted calls := by
  induction calls generalizing a with
  | nil => exact (List.append_nil _).symm
  | cons c calls ih => rw [performAll, ih, patterns_perform, List.append_assoc, accepted]

end Automaton

end TreePattern
