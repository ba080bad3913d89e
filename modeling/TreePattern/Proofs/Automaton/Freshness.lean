import TreePattern.Proofs.Automaton.Construction

/-!
# Outputs of a construction are fresh

Calls come in any order, and some of them fail. Whatever was called, the outputs that a construction
holds are those that their phases make from its patterns and its signature alone, down to the stores
of the ledger and the cells of the grids. A discovery that resumes on the ledger that exists is no
exception: a pass changes nothing on it any more.

Two constructions that are fresh and represent the same automaton are therefore equal, counters
included. So a call that leaves the automaton as it was leaves the construction as it was, although
it may have taken the ledger out and cleared counters on the way.

## Results

* `Construction.Fresh.perform`                — a call keeps the outputs fresh.
* `Construction.outputs_fresh`                — what a sequence of calls leaves behind.
* `Construction.Fresh.eq_of_represents`       — nothing else belongs to the state.
* `Construction.failed_calls_change_nothing`  — what a failing call leaves behind.
-/

namespace TreePattern

namespace Construction

variable {k k' : Construction} {a : Automaton} {f : Forest} {r : Relevance} {l : Ledger}
  {gs : Grids}

-- ---------------------------------------------------------------------------
-- Fresh outputs
-- ---------------------------------------------------------------------------

/-- The ledger is the one that a discovery without a limit leaves. -/
def Discovered (rule : MatchRule) (l : Ledger) : Prop :=
  ∃ report stats, Ledger.searchFromLeaves rule 0 = .ok report ∧ report.result = .ok stats ∧
    report.ledger = l

/-- There is one such ledger. -/
theorem Discovered.unique {rule : MatchRule} {l l' : Ledger} (h : Discovered rule l)
    (h' : Discovered rule l') : l = l' := by
  obtain ⟨report, -, hreport, -, rfl⟩ := h
  obtain ⟨report', -, hreport', -, rfl⟩ := h'
  rw [Except.ok.inj (hreport.symm.trans hreport')]

/-- A discovery that comes to its end within a limit leaves what one without a limit leaves. -/
theorem discovered_of_searchFromLeaves {rule : MatchRule} {limit : Nat} {report : Ledger.Report}
    {stats : ClosureStats} (h : Ledger.searchFromLeaves rule limit = .ok report)
    (hresult : report.result = .ok stats) : Discovered rule report.ledger :=
  ⟨report, stats, (Ledger.search_of_ok h hresult).2, hresult, rfl⟩

/-- A search that resumes on such a ledger leaves it as it is. -/
theorem Discovered.ledger_search {rule : MatchRule} {limit : Nat} {report : Ledger.Report}
    (h : Discovered rule l) (hreport : l.search rule limit = .ok report) :
    report.ledger = l := by
  obtain ⟨report₀, stats, hreport₀, hresult₀, rfl⟩ := h
  obtain ⟨report', hreport', hledger, -⟩ :=
    Ledger.search_of_next_eq (Ledger.search_of_ok hreport₀ hresult₀).1 limit
  rw [Except.ok.inj (hreport.symm.trans hreport'), hledger]

/-- The signature is that of the patterns, and each output is what its phase makes from it, the
patterns and the outputs before. -/
structure Fresh (k : Construction) : Prop where
  signature : k.patterns.foldlM Signature.register .empty = .ok k.signature
  forest : ∀ f, k.forest? = some f → Forest.buildForward k.signature k.patterns = .ok f
  relevance : ∀ f r, k.forest? = some f → k.relevance? = some r →
    Relevance.collect k.signature f = .ok r
  ledger : ∀ f r l, k.forest? = some f → k.relevance? = some r → k.ledger? = some l →
    Discovered ⟨k.signature, f, r⟩ l
  grids : ∀ f r l gs, k.forest? = some f → k.relevance? = some r → k.ledger? = some l →
    k.grids? = some gs → Grids.make ⟨k.signature, f, r⟩ l.states = .ok gs

/-- Without a forest there is nothing to ask of any output. -/
theorem fresh_of_no_forest (hf : k.forest? = none)
    (signature : k.patterns.foldlM Signature.register .empty = .ok k.signature) : k.Fresh where
  signature := signature
  forest _ hsome := absurd (hf.symm.trans hsome) (by simp)
  relevance _ _ hsome := absurd (hf.symm.trans hsome) (by simp)
  ledger _ _ _ hsome := absurd (hf.symm.trans hsome) (by simp)
  grids _ _ _ _ hsome := absurd (hf.symm.trans hsome) (by simp)

/-- Without a ledger there is nothing to ask of the ledger and of the grids. -/
theorem fresh_of_no_ledger (hl : k.ledger? = none)
    (signature : k.patterns.foldlM Signature.register .empty = .ok k.signature)
    (forest : ∀ f, k.forest? = some f → Forest.buildForward k.signature k.patterns = .ok f)
    (relevance : ∀ f r, k.forest? = some f → k.relevance? = some r →
      Relevance.collect k.signature f = .ok r) : k.Fresh where
  signature := signature
  forest := forest
  relevance := relevance
  ledger _ _ _ _ _ hsome := absurd (hl.symm.trans hsome) (by simp)
  grids _ _ _ _ _ _ hsome := absurd (hl.symm.trans hsome) (by simp)

/-- A new construction holds no output. -/
theorem fresh_ofConfig (config : Config) : (ofConfig config).Fresh :=
  fresh_of_no_forest rfl rfl

-- ---------------------------------------------------------------------------
-- One call
-- ---------------------------------------------------------------------------

/-- A registration that is accepted drops all outputs, since the patterns have changed. -/
theorem Fresh.register (h : k.Fresh) (pattern : Tree) : (k.register pattern).construction.Fresh := by
  rw [Construction.register]
  split
  · exact h
  · next sig hsig =>
    refine fresh_of_no_forest rfl ?_
    show (k.patterns ++ [pattern]).foldlM Signature.register .empty = .ok sig
    -- the signature is that of the patterns before, with the new one added
    rw [List.foldlM_append, bind_eq_ok_iff]
    exact ⟨k.signature, h.signature, foldlM_cons_eq_ok_iff.2 ⟨sig, hsig, rfl⟩⟩

/-- The forest is built from the patterns, and nothing else is left. -/
theorem Fresh.buildForest (h : k.Fresh) : k.buildForest.construction.Fresh := by
  rw [Construction.buildForest]
  split
  · exact h
  · next f hf =>
    refine fresh_of_no_ledger rfl h.signature (fun f' hf' => ?_)
      fun _ _ _ hr => by cases hr
    cases hf'
    exact hf

/-- The projection is collected from the forest, and nothing after it is left. -/
theorem Fresh.project (h : k.Fresh) : k.project.construction.Fresh := by
  rw [Construction.project]
  split
  · exact h
  · next f hf =>
    split
    · exact h
    · next r hr =>
      refine fresh_of_no_ledger rfl h.signature h.forest fun f' r' hf' hr' => ?_
      cases hr'
      obtain rfl : f' = f := Option.some.inj (hf'.symm.trans hf)
      exact hr

/-- The search of a discovery that comes to its end leaves the ledger of a discovery without a
limit, whether it starts from the leaf states or resumes. -/
theorem Fresh.discovered (h : k.Fresh) (hf : k.forest? = some f) (hr : k.relevance? = some r)
    {report : Ledger.Report} {stats : ClosureStats}
    (hreport : k.search ⟨k.signature, f, r⟩ = .ok report) (hresult : report.result = .ok stats) :
    Discovered ⟨k.signature, f, r⟩ report.ledger := by
  rw [search] at hreport
  split at hreport
  · next l hl =>
    have hdiscovered := h.ledger f r l hf hr hl
    rwa [hdiscovered.ledger_search hreport]
  · exact discovered_of_searchFromLeaves hreport hresult

/-- The grids that a discovery keeps are those over the ledger that it leaves. -/
theorem Fresh.ledger?_of_grew (h : k.Fresh) (hf : k.forest? = some f) (hr : k.relevance? = some r)
    {report : Ledger.Report} (hreport : k.search ⟨k.signature, f, r⟩ = .ok report)
    (hgrew : k.grew report.ledger = false) : k.ledger? = some report.ledger := by
  rw [grew] at hgrew
  rw [search] at hreport
  split at hreport
  · next l hl => rw [hl, (h.ledger f r l hf hr hl).ledger_search hreport]
  · next hl =>
    rw [hl] at hgrew
    exact absurd hgrew (by simp)

/-- A ledger that has not grown is the one that was there, so the grids over it may stay. -/
theorem Fresh.putLedger (h : k.Fresh) (hf : k.forest? = some f) (hr : k.relevance? = some r)
    (hl : Discovered ⟨k.signature, f, r⟩ l) {grew : Bool}
    (hkept : grew = false → k.ledger? = some l) (stats : ClosureStats) :
    (Construction.putLedger { k with ledger? := none } grew l stats).Fresh := by
  have hledger : ∀ f' r' l', k.forest? = some f' → k.relevance? = some r' → some l = some l' →
      Discovered ⟨k.signature, f', r'⟩ l' := by
    rintro f' r' l' hf' hr' ⟨⟩
    obtain rfl : f' = f := Option.some.inj (hf'.symm.trans hf)
    obtain rfl : r' = r := Option.some.inj (hr'.symm.trans hr)
    exact hl
  cases grew with
  | true =>
    exact ⟨h.signature, h.forest, h.relevance, hledger,
      fun _ _ _ _ _ _ _ hg => by cases hg⟩
  | false =>
    refine ⟨h.signature, h.forest, h.relevance, hledger, fun f' r' l' gs hf' hr' hl' hg => ?_⟩
    -- nothing was added, so the grids are still those of this ledger
    exact h.grids f' r' l' gs hf' hr' ((hkept rfl).trans hl') hg

/-- A discovery that is stopped leaves no ledger, and one that ends leaves that of a discovery from
scratch. -/
theorem Fresh.discover (h : k.Fresh) : k.discover.construction.Fresh := by
  rw [Construction.discover]
  split
  · exact h
  · exact h
  · next f r hf hr =>
    dsimp only
    split
    · exact fresh_of_no_ledger rfl h.signature h.forest h.relevance
    · next report hreport =>
      split
      · exact fresh_of_no_ledger rfl h.signature h.forest h.relevance
      · next stats hresult =>
        exact h.putLedger hf hr (h.discovered hf hr hreport hresult)
          (h.ledger?_of_grew hf hr hreport) stats

theorem construction_reportTables (k : Construction) (events : List Event) :
    (k.reportTables events).construction = k := by
  rw [reportTables]
  split
  · split <;> rfl
  · rfl

/-- The grids are made over the states of the ledger that is there. -/
theorem Fresh.buildTables (h : k.Fresh) : k.buildTables.construction.Fresh := by
  rw [Construction.buildTables]
  split
  · exact h
  · exact h
  · exact h
  · next f r l hf hr hl =>
    dsimp only
    split
    · exact ⟨h.signature, h.forest, h.relevance, h.ledger,
        fun _ _ _ _ _ _ _ hg => by cases hg⟩
    · next gs hgs =>
      rw [construction_reportTables]
      refine ⟨h.signature, h.forest, h.relevance, h.ledger, ?_⟩
      -- the inputs have stayed in their places while the grids were made
      rintro f' r' l' gs' hf' hr' hl' ⟨⟩
      obtain rfl : f' = f := Option.some.inj (hf'.symm.trans hf)
      obtain rfl : r' = r := Option.some.inj (hr'.symm.trans hr)
      obtain rfl : l' = l := Option.some.inj (hl'.symm.trans hl)
      exact (Grids.result_reportFrom ..).symm.trans hgs

theorem Step.fresh_andThen {s : Step} (h : s.construction.Fresh) {next : Construction → Step}
    (hnext : ∀ k, Construction.Fresh k → (next k).construction.Fresh) :
    (s.andThen next).construction.Fresh := by
  rw [Step.andThen]
  split
  · exact h
  · exact hnext _ h

/-- A call keeps the outputs fresh, whether it fails or not. -/
theorem Fresh.perform (h : k.Fresh) (c : Automaton.Call) : (k.perform c).construction.Fresh := by
  cases c with
  | register pattern => exact h.register pattern
  | buildForest => exact h.buildForest
  | project => exact h.project
  | discover => exact h.discover
  | buildTables => exact h.buildTables
  | build =>
    exact Step.fresh_andThen (Step.fresh_andThen (Step.fresh_andThen h.buildForest
      fun _ h => h.project) fun _ h => h.discover) fun _ h => h.buildTables

/-- So do all sequences of calls, the failing ones among them included. -/
theorem Fresh.performAll (h : k.Fresh) (calls : List Automaton.Call) :
    (k.performAll calls).Fresh := by
  induction calls generalizing k with
  | nil => exact h
  | cons c calls ih => exact ih (h.perform c)

-- ---------------------------------------------------------------------------
-- What a sequence of calls leaves behind
-- ---------------------------------------------------------------------------

/-- What a call adds to the patterns: a registration that does not fail adds its pattern. -/
def added (k : Construction) : Automaton.Call → List Tree
  | .register pattern => if (k.register pattern).error = none then [pattern] else []
  | _ => []

/-- The patterns that the calls add, in order: the accepted ones. -/
def accepted (k : Construction) : List Automaton.Call → List Tree
  | [] => []
  | c :: calls => k.added c ++ (k.perform c).construction.accepted calls

theorem Represents.added_eq (h : k.Represents a) (c : Automaton.Call) : k.added c = c.added a := by
  cases c with
  | register pattern => rw [added, Automaton.Call.added, (h.register pattern).error_eq]
  | _ => rfl

/-- The construction accepts what the automaton accepts. -/
theorem Represents.accepted_eq (h : k.Represents a) (calls : List Automaton.Call) :
    k.accepted calls = a.accepted calls := by
  induction calls generalizing k a with
  | nil => rfl
  | cons c calls ih =>
    rw [accepted, Automaton.accepted, h.added_eq, ih (h.perform c).construction]

/-- An output is there only with those before it, as in the automaton. -/
theorem Represents.exists_before (h : k.Represents a) :
    (k.grids?.isSome → k.ledger?.isSome) ∧ (k.ledger?.isSome → k.relevance?.isSome) ∧
      (k.relevance?.isSome → k.forest?.isSome) := by
  have hledger : k.ledger?.isSome = a.matchSets?.isSome := isSome_eq_of_rel h.ledger
  have hgrids : k.grids?.isSome = a.tables?.isSome := isSome_eq_of_rel h.grids
  rw [hgrids, hledger, h.relevance, h.forest]
  exact ⟨a.progress.matchSets?_of_tables?, a.progress.relevance?_of_matchSets?,
    a.progress.forest?_of_relevance?⟩

/-- After any sequence of calls on a new construction, successes and failures mixed, its patterns
are the accepted ones, its signature is theirs, no output is there without the earlier ones, and
each output is what its phase makes from scratch; discovery is compared with one that has no
limit. -/
theorem outputs_fresh (config : Config) (calls : List Automaton.Call) :
    let k := (ofConfig config).performAll calls
    let accepted := (ofConfig config).accepted calls
    k.patterns = accepted ∧
    accepted.foldlM Signature.register .empty = .ok k.signature ∧
    (k.grids?.isSome → k.ledger?.isSome) ∧
    (k.ledger?.isSome → k.relevance?.isSome) ∧
    (k.relevance?.isSome → k.forest?.isSome) ∧
    (k.forest?.isSome → accepted ≠ []) ∧
    (∀ f, k.forest? = some f → Forest.buildForward k.signature accepted = .ok f) ∧
    (∀ f r, k.forest? = some f → k.relevance? = some r →
      Relevance.collect k.signature f = .ok r) ∧
    (∀ f r l, k.forest? = some f → k.relevance? = some r → k.ledger? = some l →
      ∃ report stats, Ledger.searchFromLeaves ⟨k.signature, f, r⟩ 0 = .ok report ∧
        report.result = .ok stats ∧ report.ledger = l) ∧
    ∀ f r l gs, k.forest? = some f → k.relevance? = some r → k.ledger? = some l →
      k.grids? = some gs → Grids.make ⟨k.signature, f, r⟩ l.states = .ok gs := by
  intro k accepted
  have hfresh : k.Fresh := (fresh_ofConfig config).performAll calls
  have hrep := (represents_ofConfig config).performAll calls
  have hpatterns : k.patterns = accepted :=
    hrep.patterns.trans ((Automaton.patterns_performAll _ calls).trans
      ((represents_ofConfig config).accepted_eq calls).symm)
  -- that no place is filled without those before it comes from the automaton
  obtain ⟨hgrids, hledger, hrelevance⟩ := hrep.exists_before
  have hforest := hfresh.forest
  rw [hpatterns] at hforest
  refine ⟨hpatterns, hpatterns ▸ hfresh.signature, hgrids, hledger, hrelevance, fun hsome => ?_,
    hforest, hfresh.relevance, hfresh.ledger, hfresh.grids⟩
  obtain ⟨f, hf⟩ := Option.isSome_iff_exists.1 hsome
  exact Forest.ne_nil_of_build ((Forest.buildForward_eq_build ..).symm.trans (hforest f hf))

-- ---------------------------------------------------------------------------
-- Nothing else belongs to the state
-- ---------------------------------------------------------------------------

/-- Fresh ledgers of one automaton are equal. -/
theorem Fresh.ledger?_eq (hk : k.Fresh) (hk' : k'.Fresh) (h : k.Represents a)
    (h' : k'.Represents a) : k.ledger? = k'.ledger? := by
  rcases rel_cases h.ledger with ⟨hl, hsets⟩ | ⟨l, table, hl, hsets, -⟩
  · rw [hl, h'.ledger?_eq_none hsets]
  · obtain ⟨l', hl', -⟩ := h'.exists_ledger hsets
    obtain ⟨f, r, hf, hr⟩ := Automaton.exists_forest_relevance hsets
    have hdiscovered := hk.ledger f r l (h.forest.trans hf) (h.relevance.trans hr) hl
    have hdiscovered' := hk'.ledger f r l' (h'.forest.trans hf) (h'.relevance.trans hr) hl'
    rw [h.signature] at hdiscovered
    rw [h'.signature] at hdiscovered'
    rw [hl, hl', hdiscovered.unique hdiscovered']

/-- So are their grids. -/
theorem Fresh.grids?_eq (hk : k.Fresh) (hk' : k'.Fresh) (h : k.Represents a)
    (h' : k'.Represents a) : k.grids? = k'.grids? := by
  have hledger := hk.ledger?_eq hk' h h'
  rcases rel_cases h.grids with ⟨hg, htables⟩ | ⟨gs, tables, hg, htables, -⟩
  · rcases rel_cases h'.grids with ⟨hg', -⟩ | ⟨gs', tables', -, htables', -⟩
    · rw [hg, hg']
    · exact absurd (htables.symm.trans htables') (by simp)
  · rcases rel_cases h'.grids with ⟨-, htables'⟩ | ⟨gs', tables', hg', -, -⟩
    · exact absurd (htables'.symm.trans htables) (by simp)
    -- both have grids, so both have a ledger, the same one, and the grids are made from it
    obtain ⟨table, hsets⟩ := Option.isSome_iff_exists.1
      (a.progress.matchSets?_of_tables? (Option.isSome_iff_exists.2 ⟨tables, htables⟩))
    obtain ⟨f, r, hf, hr⟩ := Automaton.exists_forest_relevance hsets
    obtain ⟨l, hl, -⟩ := h.exists_ledger hsets
    have hmade := hk.grids f r l gs (h.forest.trans hf) (h.relevance.trans hr) hl hg
    have hmade' := hk'.grids f r l gs' (h'.forest.trans hf) (h'.relevance.trans hr)
      (hledger ▸ hl) hg'
    rw [h.signature] at hmade
    rw [h'.signature] at hmade'
    rw [hg, hg', Except.ok.inj (hmade.symm.trans hmade')]

/-- Two fresh constructions of one automaton are equal, down to their stores and counters. -/
theorem Fresh.eq_of_represents (hk : k.Fresh) (hk' : k'.Fresh) (h : k.Represents a)
    (h' : k'.Represents a) : k = k' := by
  have hledger := hk.ledger?_eq hk' h h'
  have hgrids := hk.grids?_eq hk' h h'
  have hconfig := h.config.trans h'.config.symm
  have hsignature := h.signature.trans h'.signature.symm
  have hpatterns := h.patterns.trans h'.patterns.symm
  have hforest := h.forest.trans h'.forest.symm
  have hrelevance := h.relevance.trans h'.relevance.symm
  have hcounters := h.counters.trans h'.counters.symm
  cases k
  cases k'
  exact Construction.mk.injEq .. ▸ ⟨hconfig, hsignature, hpatterns, hforest, hrelevance, hledger,
    hgrids, hcounters⟩

-- ---------------------------------------------------------------------------
-- Failing calls
-- ---------------------------------------------------------------------------

/-- Every call of the list succeeds, each made after the ones before it. -/
def AllSucceed (k : Construction) : List Automaton.Call → Prop
  | [] => True
  | c :: calls => (k.perform c).error = none ∧ (k.perform c).construction.AllSucceed calls

/-- The same calls succeed. -/
theorem Represents.allSucceed (h : k.Represents a) {calls : List Automaton.Call}
    (hcalls : a.AllSucceed calls) : k.AllSucceed calls := by
  induction calls generalizing k a with
  | nil => trivial
  | cons c calls ih =>
    have hstep := h.perform c
    exact ⟨hstep.error_eq.trans hcalls.1, ih hstep.construction hcalls.2⟩

/-- After any sequence of calls on a new construction, a registration or a single phase that fails
leaves the construction as it was, with all its stores and counters. A build that fails leaves
exactly what its phases before the failing one have made, all of which succeeded. -/
theorem failed_calls_change_nothing (config : Config) (calls : List Automaton.Call) :
    let k := (ofConfig config).performAll calls
    (∀ c e, c ≠ .build → (k.perform c).error = some e → (k.perform c).construction = k) ∧
    ∀ e, k.build.error = some e →
      ∃ leading c rest, Automaton.Call.phases = leading ++ c :: rest ∧ k.AllSucceed leading ∧
        ((k.performAll leading).perform c).error = some e ∧
        k.build.construction = k.performAll leading := by
  intro k
  have hk : k.Fresh := (fresh_ofConfig config).performAll calls
  have h := (represents_ofConfig config).performAll calls
  have ha := (Automaton.consistent_ofConfig config).performAll calls
  refine ⟨fun c e hc he => ?_, fun e he => ?_⟩
  · -- the automaton is as it was before, so the construction has to be
    have hstep := h.perform c
    rw [hstep.error_eq] at he
    have hsame := hstep.construction
    rw [(ha.failed hc he).2] at hsame
    exact (hk.perform c).eq_of_represents hk hsame h
  · -- the phases before the failing one leave the same on both sides
    have hbuild := h.build
    rw [hbuild.error_eq] at he
    obtain ⟨leading, c, rest, hphases, hleading, hfails, hautomaton⟩ := ha.build_failed he
    have hbefore := h.performAll leading
    have hsame := hbuild.construction
    rw [hautomaton] at hsame
    exact ⟨leading, c, rest, hphases, h.allSucceed hleading,
      (hbefore.perform c).error_eq.trans hfails,
      (hk.perform .build).eq_of_represents (hk.performAll leading) hsame hbefore⟩

/-- One pass is too few for the pattern `f(a, *)`: the search is stopped, and the forest and the
projection are still there with their counters. -/
theorem discover_with_one_pass_changes_nothing :
    let k := (ofConfig ⟨1, false⟩).performAll
      [.register (.node "f" [Tree.leaf "a", Tree.wildcard]), .buildForest, .project]
    k.discover.error = some (.passLimitExceeded 1) ∧ k.counters = ⟨1, 3, 2, 0, 0, 0, 0, 0⟩ ∧
      k.discover.construction = k := by
  intro k
  have h := (represents_ofConfig ⟨1, false⟩).performAll
    [.register (.node "f" [Tree.leaf "a", Tree.wildcard]), .buildForest, .project]
  -- the automaton is computed in place of the construction, which sorts its outputs
  have he : k.discover.error = some (.passLimitExceeded 1) :=
    h.discover.error_eq.trans (by decide +kernel)
  have hcounters : k.counters = ⟨1, 3, 2, 0, 0, 0, 0, 0⟩ := h.counters.trans (by decide +kernel)
  have hunchanged := (failed_calls_change_nothing ⟨1, false⟩
    [.register (.node "f" [Tree.leaf "a", Tree.wildcard]), .buildForest, .project]).1
  exact ⟨he, hcounters, hunchanged .discover _ (by decide) he⟩

end Construction

end TreePattern
