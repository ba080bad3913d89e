import TreePattern.Automaton.Tally
import TreePattern.Proofs.Automaton.Safety
import TreePattern.Proofs.Transitions.Totals

/-!
# Counters agree with the outputs

The counters that are kept while an automaton is built are cleared and set call by call, and the
outputs are dropped and made call by call; whatever was called, they agree. Most counters are the
sizes of outputs and need nothing but the calls. The counters of a discovery are compared with
the events: the last discovery that was reported is the one whose sets are there, because a later
call either keeps the sets or drops them, and then the counters are zero.

## Results

* `Stats.countDiscovery_eq`    — tables and their counters are kept or dropped together.
* `Tally.counters_perform`     — a call keeps the counters those of the outputs.
* `Automaton.reports_perform`  — the discovery of the outputs is the last one reported.
* `Tally.counters_agree`       — every counter, after any sequence of calls.
-/

namespace TreePattern

theorem Progress.relevance?_eq_none (p : Progress) (h : p.forest? = none) :
    p.relevance? = none := by
  cases p with
  | registered => rfl
  | _ => exact absurd h (by simp [forest?])

-- ---------------------------------------------------------------------------
-- Clearing counters and dropping outputs
-- ---------------------------------------------------------------------------

namespace Stats

variable {a : Automaton} {f : Forest} {r : Relevance} {table : MatchSets} {found : ClosureStats}

/-- Clearing the counters from a phase on leaves those of the outputs before it. First the
projection. -/
theorem clearFrom_projection (hf : a.forest? = some f) :
    a.stats.clearFrom .projection = Automaton.stats { a with progress := .forestBuilt f } := by
  unfold Automaton.stats
  rw [hf]
  rfl

/-- The match sets. -/
theorem clearFrom_matchSets (hf : a.forest? = some f) (hr : a.relevance? = some r) :
    a.stats.clearFrom .matchSets = Automaton.stats { a with progress := .projected f r } := by
  unfold Automaton.stats
  rw [hf, hr]
  rfl

/-- The tables. -/
theorem clearFrom_transitionTables (hf : a.forest? = some f) (hr : a.relevance? = some r)
    (hsets : a.matchSets? = some table) (hfound : a.progress.discovery? = some found) :
    a.stats.clearFrom .transitionTables =
      Automaton.stats { a with progress := .discovered f r table found } := by
  unfold Automaton.stats
  rw [hf, hr, hsets, hfound]
  rfl

-- ---------------------------------------------------------------------------
-- One phase
-- ---------------------------------------------------------------------------

variable (a)

/-- The first three calls drop every later output when they succeed. -/
theorem afterPhase_register (pattern : Tree) :
    afterPhase .forest countPatterns (a.register pattern) a.stats =
      (a.register pattern).automaton.stats := by
  unfold afterPhase
  rcases a.register_cases pattern with ⟨e, -, hfailed⟩ | ⟨sig, -, herror, hautomaton⟩
  · rw [hfailed]
    rfl
  · rw [herror, hautomaton]
    rfl

theorem afterPhase_buildForest :
    afterPhase .forest countForest a.buildForest a.stats = a.buildForest.automaton.stats := by
  unfold afterPhase
  rcases a.buildForest_cases with ⟨e, -, hfailed⟩ | ⟨f, -, herror, hautomaton⟩
  · rw [hfailed]
    rfl
  · rw [herror, hautomaton]
    rfl

theorem afterPhase_project :
    afterPhase .projection countProjection a.project a.stats = a.project.automaton.stats := by
  unfold afterPhase
  rcases a.project_cases with ⟨e, -, hfailed⟩ | ⟨f, r, hf, -, herror, hautomaton⟩
  · rw [hfailed]
    rfl
  · rw [herror, hautomaton]
    dsimp only
    rw [clearFrom_projection hf]
    rfl

/-- A discovery keeps the tables exactly if it has not found more sets. -/
theorem keptTables?_eq {a after : Automaton} (hafter : after.matchSets? = some table) :
    a.keptTables? table = if grew a after then none else a.tables? := by
  unfold Automaton.keptTables? grew
  rw [hafter]
  cases a.matchSets? with
  | none => rfl
  | some before =>
    by_cases hsize : table.size = before.size
    · simp [hsize]
    · simp [hsize, Ne.symm hsize]

/-- The counters of a discovery that has come to its end, whether tables are kept or not. -/
theorem countDiscovery_eq {p : Progress} (hf : a.forest? = some f) (hr : a.relevance? = some r)
    (hpf : p.forest? = some f) (hpr : p.relevance? = some r) (hsets : p.matchSets? = some table)
    (hkept : p.tables? = a.keptTables? table) :
    let after : Automaton := { a with progress := p }
    countDiscovery after (if grew a after then a.stats.clearFrom .transitionTables else a.stats) =
      after.stats := by
  intro after
  rw [keptTables?_eq (show after.matchSets? = some table from hsets)] at hkept
  unfold Automaton.stats
  rw [hf, hr]
  cases p with
  | registered => exact absurd hsets (by simp [Progress.matchSets?])
  | forestBuilt => exact absurd hsets (by simp [Progress.matchSets?])
  | projected => exact absurd hsets (by simp [Progress.matchSets?])
  | discovered =>
    cases hpf
    cases hpr
    cases hgrew : grew a after with
    | true => rfl
    | false =>
      -- no tables were dropped, because there were none
      rw [hgrew] at hkept
      rw [show a.tables? = none from hkept.symm]
      rfl
  | complete _ _ _ _ tables =>
    cases hpf
    cases hpr
    cases hgrew : grew a after with
    | true =>
      rw [hgrew] at hkept
      exact absurd hkept (by simp [Progress.tables?])
    | false =>
      rw [hgrew] at hkept
      rw [show a.tables? = some tables from hkept.symm]
      rfl

/-- A discovery that fails drops the match sets; one that succeeds may keep the tables. -/
theorem afterDiscover_discover :
    afterDiscover a a.discover a.stats = a.discover.automaton.stats := by
  unfold afterDiscover
  rcases a.discover_cases with ⟨required, hmissing, hfailed⟩ | ⟨f, r, hf, hr, hsearch⟩
  · have hr : a.relevance? = none := by
      rcases hmissing with ⟨hf, -⟩ | ⟨hr, -⟩
      · exact a.progress.relevance?_eq_none hf
      · exact hr
    rw [hr, hfailed]
    rfl
  rw [hr]
  -- the passes run out, the tables are kept, or they are dropped
  rcases hsearch with ⟨-, herror, hautomaton⟩ | ⟨-, herror, ⟨tables, hkept, hautomaton⟩ |
    ⟨hdropped, hautomaton⟩⟩
  · rw [herror, hautomaton]
    exact clearFrom_matchSets hf hr
  · rw [herror, hautomaton]
    exact countDiscovery_eq a hf hr rfl rfl rfl hkept.symm
  · rw [herror, hautomaton]
    exact countDiscovery_eq a hf hr rfl rfl rfl hdropped.symm

/-- Once match sets are there, the old tables are dropped in any case. -/
theorem afterTables_buildTables :
    afterTables a a.buildTables a.stats = a.buildTables.automaton.stats := by
  unfold afterTables
  rcases a.buildTables_cases with ⟨required, -, hsets, hfailed⟩ |
    ⟨f, r, table, found, hf, hr, hsets, hfound, hbuild⟩
  · rw [hsets, hfailed]
    rfl
  rw [hsets, clearFrom_transitionTables hf hr hsets hfound]
  rcases hbuild with ⟨e, -, -, hautomaton⟩ | ⟨tables, events, -, hreport⟩
  · rw [hautomaton]
    rfl
  · rw [hreport, Automaton.automaton_reportTables]
    rfl

end Stats

-- ---------------------------------------------------------------------------
-- Calls
-- ---------------------------------------------------------------------------

namespace Tally

variable {t : Tally}

/-- The tally leads where the calls lead. -/
theorem outcome_andThen (t : Tally) (call : Automaton → Outcome)
    (count : Automaton → Outcome → Stats → Stats) :
    (t.andThen call count).outcome = t.outcome.andThen call := by
  unfold andThen Outcome.andThen
  cases t.outcome.error with
  | some e => rfl
  | none => rfl

/-- The counters are beside the automaton and do not change what a call does to it. -/
theorem outcome_perform (t : Tally) (c : Automaton.Call) :
    (t.perform c).outcome = t.automaton.perform c := by
  cases c with
  | build =>
    simp only [perform, build, buildForest, project, discover, buildTables, outcome_andThen]
    rfl
  | _ => exact outcome_andThen ..

/-- What counts one call right keeps the counters those of the outputs. -/
theorem counters_andThen (h : t.counters = t.automaton.stats) {call : Automaton → Outcome}
    {count : Automaton → Outcome → Stats → Stats}
    (hcount : ∀ a, count a (call a) a.stats = (call a).automaton.stats) :
    (t.andThen call count).counters = (t.andThen call count).automaton.stats := by
  rw [automaton, outcome_andThen]
  unfold andThen Outcome.andThen
  cases t.outcome.error with
  | some e => exact h
  | none =>
    dsimp only
    rw [h]
    exact hcount t.automaton

theorem counters_buildForest (h : t.counters = t.automaton.stats) :
    t.buildForest.counters = t.buildForest.automaton.stats :=
  counters_andThen h Stats.afterPhase_buildForest

theorem counters_project (h : t.counters = t.automaton.stats) :
    t.project.counters = t.project.automaton.stats :=
  counters_andThen h Stats.afterPhase_project

theorem counters_discover (h : t.counters = t.automaton.stats) :
    t.discover.counters = t.discover.automaton.stats :=
  counters_andThen h Stats.afterDiscover_discover

/-- A phase of a build keeps the counters those of the outputs, whatever the phases before it did.
-/
theorem counters_buildTables (h : t.counters = t.automaton.stats) :
    t.buildTables.counters = t.buildTables.automaton.stats :=
  counters_andThen h Stats.afterTables_buildTables

/-- A call keeps the counters those of the outputs, whether it fails or not. -/
theorem counters_perform (h : t.counters = t.automaton.stats) (c : Automaton.Call) :
    (t.perform c).counters = (t.perform c).automaton.stats := by
  have hnext : t.next.counters = t.next.automaton.stats := h
  cases c with
  | register pattern => exact counters_andThen hnext fun a => Stats.afterPhase_register a pattern
  | buildForest => exact counters_buildForest hnext
  | project => exact counters_project hnext
  | discover => exact counters_discover hnext
  | buildTables => exact counters_buildTables hnext
  | build =>
    exact counters_buildTables (counters_discover (counters_project (counters_buildForest hnext)))

/-- The tally after some calls, each made whether the one before failed or not. -/
def performAll (t : Tally) : List Automaton.Call → Tally
  | [] => t
  | c :: calls => (t.perform c).performAll calls

/-- The automaton of a tally is the one that is called without counters. -/
theorem automaton_performAll (t : Tally) (calls : List Automaton.Call) :
    (t.performAll calls).automaton = t.automaton.performAll calls := by
  induction calls generalizing t with
  | nil => rfl
  | cons c calls ih => rw [performAll, ih, automaton, outcome_perform, Automaton.performAll]

/-- However many calls are made, the counters are those of the outputs. -/
theorem counters_performAll (h : t.counters = t.automaton.stats) (calls : List Automaton.Call) :
    (t.performAll calls).counters = (t.performAll calls).automaton.stats := by
  induction calls generalizing t with
  | nil => exact h
  | cons c calls ih => exact ih (counters_perform h c)

/-- After some calls and one more, the counters are those of the outputs there are then. -/
theorem counters_perform_performAll (config : Config) (calls : List Automaton.Call)
    (c : Automaton.Call) : (((ofConfig config).performAll calls).perform c).counters =
      (((Automaton.ofConfig config).performAll calls).perform c).automaton.stats := by
  rw [counters_perform (counters_performAll rfl calls), automaton, outcome_perform,
    automaton_performAll]
  rfl

end Tally

-- ---------------------------------------------------------------------------
-- The discovery that was reported last
-- ---------------------------------------------------------------------------

/-- The counters of a discovery that has come to its end, as an event reports them. -/
def Event.discovery? : Event → Option ClosureStats
  | .discoveredMatchSets _ passes candidates => some ⟨passes, candidates⟩
  | _ => none

/-- The last discovery in a log that has come to its end. -/
def lastDiscovery? (log : List Event) : Option ClosureStats :=
  (log.filterMap Event.discovery?).getLast?

/-- The last discovery of a longer log is in its later part, unless nothing was discovered there. -/
theorem lastDiscovery?_append (l r : List Event) :
    lastDiscovery? (l ++ r) = (lastDiscovery? r).or (lastDiscovery? l) := by
  rw [lastDiscovery?, List.filterMap_append, List.getLast?_append]
  rfl

theorem lastDiscovery?_of_silent {log : List Event} (h : ∀ e ∈ log, e.discovery? = none) :
    lastDiscovery? log = none := by
  rw [lastDiscovery?, List.filterMap_eq_nil_iff.2 h]
  rfl

/-- A search reports a discovery exactly if it comes to its end. -/
theorem Closure.lastDiscovery?_events (c : Closure) (maxPasses : Nat) :
    lastDiscovery? (c.events maxPasses) = if c.complete then some c.stats else none := by
  have hpasses : ∀ e ∈ c.passes.mapIdx fun i p => Event.closurePass (i + 1) p.added p.matchSets,
      e.discovery? = none := by
    intro e he
    obtain ⟨i, hi, rfl⟩ := List.mem_mapIdx.1 he
    rfl
  rw [events, lastDiscovery?_append, lastDiscovery?_of_silent hpasses, Option.or_none]
  cases c.complete with
  | true => rfl
  | false => rfl

theorem Tabulation.discovery?_of_mem_events (t : Tabulation) :
    ∀ e ∈ t.events, e.discovery? = none := by
  intro e he
  rcases List.mem_append.1 he with he | he
  · obtain ⟨entry, -, rfl⟩ := List.mem_map.1 he
    rfl
  · split at he
    · rw [List.mem_singleton.1 he]
      rfl
    · exact absurd he List.not_mem_nil

namespace Automaton

variable {a : Automaton}

/-- From `a` to `b` some events were reported: the discovery whose sets are there in the end is the
last one among them, or there is none and the sets were there before. -/
def Reports (a : Automaton) (events : List Event) (b : Automaton) : Prop :=
  ∀ found, b.progress.discovery? = some found →
    (lastDiscovery? events).or a.progress.discovery? = some found

/-- Reports of two calls one after the other are a report of both. -/
theorem Reports.trans {b c : Automaton} {events events' : List Event} (h : a.Reports events b)
    (h' : b.Reports events' c) : a.Reports (events ++ events') c := by
  intro found hfound
  have hlast := h' found hfound
  rw [lastDiscovery?_append, Option.or_assoc]
  cases hreported : lastDiscovery? events' with
  | some found' =>
    rw [hreported] at hlast
    exact hlast
  | none =>
    rw [hreported] at hlast
    exact h found hlast

/-- Where no discovery is reported, none must have been made. -/
theorem Reports.of_silent {b : Automaton} {events : List Event}
    (hsilent : ∀ e ∈ events, e.discovery? = none)
    (hsame : ∀ found, b.progress.discovery? = some found →
      a.progress.discovery? = some found) : a.Reports events b := by
  intro found hfound
  rw [lastDiscovery?_of_silent hsilent]
  exact hsame found hfound

theorem Reports.refl (a : Automaton) : a.Reports [] a :=
  .of_silent (fun _ he => absurd he List.not_mem_nil) fun _ hfound => hfound

/-- Nothing is asked of the events if there are no match sets afterwards. -/
theorem Reports.of_none {b : Automaton} {events : List Event}
    (h : b.progress.discovery? = none) : a.Reports events b := by
  intro found hfound
  exact absurd (h.symm.trans hfound) (by simp)

theorem Reports.andThen {o : Outcome} (h : a.Reports o.events o.automaton)
    {next : Automaton → Outcome} (hnext : ∀ b, Reports b (next b).events (next b).automaton) :
    a.Reports (o.andThen next).events (o.andThen next).automaton := by
  unfold Outcome.andThen
  cases o.error with
  | some e => exact h
  | none => exact h.trans (hnext o.automaton)

-- ---------------------------------------------------------------------------
-- What the calls report
-- ---------------------------------------------------------------------------

theorem reports_register (a : Automaton) (pattern : Tree) :
    a.Reports (a.register pattern).events (a.register pattern).automaton := by
  rcases a.register_cases pattern with ⟨e, -, hfailed⟩ | ⟨sig, -, -, hautomaton⟩
  · rw [hfailed]
    exact .refl a
  · exact .of_none (by rw [hautomaton]; rfl)

theorem reports_buildForest (a : Automaton) :
    a.Reports a.buildForest.events a.buildForest.automaton := by
  rcases a.buildForest_cases with ⟨e, -, hfailed⟩ | ⟨f, -, -, hautomaton⟩
  · rw [hfailed]
    exact .refl a
  · exact .of_none (by rw [hautomaton]; rfl)

theorem reports_project (a : Automaton) : a.Reports a.project.events a.project.automaton := by
  rcases a.project_cases with ⟨e, -, hfailed⟩ | ⟨f, r, -, -, -, hautomaton⟩
  · rw [hfailed]
    exact .refl a
  · exact .of_none (by rw [hautomaton]; rfl)

theorem events_discover {f : Forest} {r : Relevance} (hf : a.forest? = some f)
    (hr : a.relevance? = some r) :
    a.discover.events = (a.search f r).events a.config.maxPasses := by
  unfold discover search
  rw [hf, hr]
  cases a.matchSets?
  all_goals
    dsimp only
    split
    · rfl
    · rfl

/-- A discovery reports itself when it comes to its end, and leaves no match sets otherwise. -/
theorem reports_discover (a : Automaton) : a.Reports a.discover.events a.discover.automaton := by
  rcases a.discover_cases with ⟨required, -, hfailed⟩ | ⟨f, r, hf, hr, hsearch⟩
  · rw [hfailed]
    exact .refl a
  rcases hsearch with ⟨-, -, hautomaton⟩ | ⟨hcomplete, -, hfound⟩
  · exact .of_none (by rw [hautomaton]; rfl)
  · -- the sets that are there are those of this search
    have hstats : a.discover.automaton.progress.discovery? = some (a.search f r).stats := by
      rcases hfound with ⟨tables, -, hautomaton⟩ | ⟨-, hautomaton⟩
      · rw [hautomaton]
        rfl
      · rw [hautomaton]
        rfl
    intro found hfound
    rw [events_discover hf hr, Closure.lastDiscovery?_events, if_pos hcomplete, ← hfound, hstats]
    rfl

theorem discovery?_of_mem_reportTables {events : List Event}
    (h : ∀ e ∈ events, e.discovery? = none) :
    ∀ e ∈ (a.reportTables events).events, e.discovery? = none := by
  unfold reportTables
  split
  · split
    · exact List.forall_mem_append.2 ⟨h, List.forall_mem_singleton.2 rfl⟩
    · exact h
  · exact h

/-- Building the tables reports no discovery, and keeps the counters of the last one. -/
theorem discovery?_of_mem_buildTables (a : Automaton) :
    ∀ e ∈ a.buildTables.events, e.discovery? = none := by
  unfold buildTables
  split
  · exact List.forall_mem_nil _
  · exact List.forall_mem_nil _
  · exact List.forall_mem_nil _
  all_goals
    -- the tables that were there before make no difference
    dsimp only
    split
    · exact Tabulation.discovery?_of_mem_events _
    · exact discovery?_of_mem_reportTables (Tabulation.discovery?_of_mem_events _)

theorem reports_buildTables (a : Automaton) :
    a.Reports a.buildTables.events a.buildTables.automaton := by
  refine .of_silent a.discovery?_of_mem_buildTables ?_
  rcases a.buildTables_cases with ⟨required, -, -, hfailed⟩ |
    ⟨f, r, table, found, -, -, -, hfound, hbuild⟩
  · rw [hfailed]
    exact fun _ h => h
  · intro found' hfound'
    rcases hbuild with ⟨e, -, -, hautomaton⟩ | ⟨tables, events, -, hreport⟩
    -- the match sets stay, so the discovery that was reported for them is still the last one
    · rw [hautomaton] at hfound'
      exact hfound.trans hfound'
    · rw [hreport, automaton_reportTables] at hfound'
      exact hfound.trans hfound'

theorem reports_perform (a : Automaton) (c : Call) :
    a.Reports (a.perform c).events (a.perform c).automaton := by
  cases c with
  | register pattern => exact a.reports_register pattern
  | buildForest => exact a.reports_buildForest
  | project => exact a.reports_project
  | discover => exact a.reports_discover
  | buildTables => exact a.reports_buildTables
  | build =>
    exact ((a.reports_buildForest.andThen reports_project).andThen reports_discover).andThen
      reports_buildTables

/-- The events of some calls, in order. -/
def log (a : Automaton) : List Call → List Event
  | [] => []
  | c :: calls => (a.perform c).events ++ (a.perform c).automaton.log calls

/-- So do all sequences of calls. -/
theorem reports_performAll (a : Automaton) (calls : List Call) :
    a.Reports (a.log calls) (a.performAll calls) := by
  induction calls generalizing a with
  | nil => exact .refl a
  | cons c calls ih => exact (a.reports_perform c).trans (ih _)

end Automaton

-- ---------------------------------------------------------------------------
-- After any sequence of calls
-- ---------------------------------------------------------------------------

/-- What the counters say of an automaton, of the patterns that were accepted on the way to it and
of the events on that way. -/
structure Stats.Describes (s : Stats) (a : Automaton) (accepted : List Tree) (log : List Event) :
    Prop where
  patterns : s.patterns = accepted.length
  forestSize : s.forestSize = (a.forest?.map Forest.size).getD 0
  projectionEntries : s.projectionEntries = (a.relevance?.map Relevance.entries).getD 0
  matchSets : s.matchSets = (a.matchSets?.map MatchSets.size).getD 0
  /-- The last discovery that came to its end, if its sets are there. -/
  discovery :
    match a.matchSets? with
    | some _ => lastDiscovery? log = some ⟨s.passes, s.candidatesExamined⟩
    | none => s.passes = 0 ∧ s.candidatesExamined = 0
  /-- The classes of all slots of all operators, and the entries of all operators. -/
  tables :
    match a.tables? with
    | some tables =>
      s.totalClasses = total (a.signature.operators.map fun op =>
        total ((List.range op.arity).map (tables.classCount op.id))) ∧
      s.totalEntries = total (a.signature.operators.map fun op =>
        ((tables.operator? op.id).map fun t => t.entries.length).getD 0)
    | none => s.totalClasses = 0 ∧ s.totalEntries = 0

namespace Automaton

variable {a : Automaton}

/-- The counters of a discovery are there with its sets. -/
theorem discovery?_eq_of_stats (a : Automaton) :
    match a.matchSets? with
    | some _ => a.progress.discovery? = some ⟨a.stats.passes, a.stats.candidatesExamined⟩
    | none => a.stats.passes = 0 ∧ a.stats.candidatesExamined = 0 := by
  unfold matchSets? stats
  cases a.progress with
  | discovered => rfl
  | complete => rfl
  | _ => exact ⟨rfl, rfl⟩

/-- The totals of the tables are those over all operators by name. -/
theorem Consistent.totals_eq (h : a.Consistent) {tables : Transitions}
    (htables : a.tables? = some tables) :
    tables.totalClasses = total (a.signature.operators.map fun op =>
        total ((List.range op.arity).map (tables.classCount op.id))) ∧
      tables.totalEntries = total (a.signature.operators.map fun op =>
        ((tables.operator? op.id).map fun t => t.entries.length).getD 0) := by
  obtain ⟨rule, table, hfinished⟩ := h.exists_finished htables
  rw [hfinished.signature]
  exact ⟨Transitions.totalClasses_of_build hfinished.tabulated,
    Transitions.totalEntries_of_build hfinished.tabulated⟩

end Automaton

namespace Tally

/-- After any sequence of calls on a new automaton, successes and failures mixed, the counters
that were kept by clearing and setting them say what its outputs and the events on the way say. -/
theorem counters_agree (config : Config) (calls : List Automaton.Call) :
    let t := (ofConfig config).performAll calls
    let a := (Automaton.ofConfig config).performAll calls
    t.automaton = a ∧
      t.counters.Describes a ((Automaton.ofConfig config).accepted calls)
        ((Automaton.ofConfig config).log calls) := by
  intro t a
  have hautomaton : t.automaton = a := automaton_performAll (ofConfig config) calls
  have hcounters : t.counters = a.stats := hautomaton ▸ counters_performAll rfl calls
  have hconsistent : a.Consistent := (Automaton.consistent_ofConfig config).performAll calls
  have hreports := (Automaton.ofConfig config).reports_performAll calls
  refine ⟨hautomaton, ?_⟩
  rw [hcounters]
  refine ⟨?_, rfl, rfl, rfl, ?_, ?_⟩
  -- the patterns
  · exact congrArg List.length (Automaton.patterns_performAll (Automaton.ofConfig config) calls)
  -- the discovery, whose counters are compared with the log
  · have hdiscovery := a.discovery?_eq_of_stats
    cases hsets : a.matchSets? with
    | none =>
      rw [hsets] at hdiscovery
      exact hdiscovery
    | some table =>
      rw [hsets] at hdiscovery
      exact (Option.or_none).symm.trans (hreports _ hdiscovery)
  -- the tables
  · cases htables : a.tables? with
    | none =>
      unfold Automaton.stats
      rw [htables]
      exact ⟨rfl, rfl⟩
    | some tables =>
      unfold Automaton.stats
      rw [htables]
      exact hconsistent.totals_eq htables

/-- A discovery that resumes takes one pass and keeps the tables with their counters; a projection
that is made anew drops what was built on the one before it. -/
example :
    let calls := [.register (.node "f" [Tree.leaf "a", Tree.wildcard]), .build, .discover]
    ((ofConfig {}).performAll calls).counters = ⟨1, 3, 2, 1, 3, 3, 2, 1⟩ ∧
      ((ofConfig {}).performAll (calls ++ [.project])).counters = ⟨1, 3, 2, 0, 0, 0, 0, 0⟩ := by
  decide +kernel

end Tally

end TreePattern
