import TreePattern.Proofs.Automaton.Freshness
import TreePattern.Proofs.Signature.AnyCalls

/-!
# Only the documented failures happen

The phases of a construction look entries up by number wherever they go: nodes by handle, children
by slot, match sets by state, cells by the number of a tuple, and none of them knows that there is
such an entry. After any calls there always is: the forest that is read from front to back is the one
that is shared from behind, no member has more children than its operator has slots, a pass asks
for states that were there when it began, and a grid has a cell for each tuple of classes. The
lexicon of the same registrations is not asked in vain either. What is left are the failures that the
phases announce.

## Results

* `Lexicon.Records.answers`             — no look-up of a symbol fails.
* `Construction.Represents.mayFail`     — why a call fails.
* `Construction.only_documented_failures` — all of it, after any sequence of calls.
-/

namespace TreePattern

-- ---------------------------------------------------------------------------
-- The symbols of the accepted patterns
-- ---------------------------------------------------------------------------

/-- No look-up in the lexicon fails, and each finds what the signature has. -/
structure Lexicon.Answers (x : Lexicon) (sig : Signature) : Prop where
  operators_eq : x.operators = .ok (sig.operators.map Symbol.id)
  terminals_eq : x.terminals = .ok (sig.terminals.map Symbol.id)
  nameOf_eq : ∀ s ∈ sig.symbols, x.nameOf s.id = .ok s.name
  arityOf_eq : ∀ s ∈ sig.symbols, x.arityOf s.id = .ok s.arity
  arityOfName_eq : ∀ name, x.arityOfName name = .ok (sig.arityOf? name)
  register_eq : ∀ pattern, (x.register pattern).1 = (sig.register pattern).map fun _ => ()

/-- The stores of a lexicon that records a signature have an entry wherever they are asked. -/
theorem Lexicon.Records.answers {x : Lexicon} {sig : Signature} (h : x.Records sig) :
    x.Answers sig where
  operators_eq := h.operators_eq
  terminals_eq := h.terminals_eq
  nameOf_eq _ hs := h.nameOf_eq hs
  arityOf_eq _ hs := h.arityOf_eq (Signature.mem_symbols_iff.1 hs)
  arityOfName_eq := h.arityOfName_eq
  register_eq pattern := by
    rcases Lexicon.register_records h pattern with ⟨e, hsig, hx⟩ | ⟨sig', x', hsig, hx, -⟩
    · rw [hsig, hx]
      rfl
    · rw [hsig, hx]
      rfl

/-- The patterns that some calls hand over, accepted or not. -/
def Automaton.Call.offered : List Automaton.Call → List Tree
  | [] => []
  | .register pattern :: calls => pattern :: offered calls
  | _ :: calls => offered calls

/-- Only a registration changes the signature. -/
theorem Automaton.signature_perform_of_ne {a : Automaton} {c : Automaton.Call}
    (hc : ∀ pattern, c ≠ .register pattern) : (a.perform c).automaton.signature = a.signature := by
  obtain ⟨p, hp⟩ := a.perform_frame hc
  rw [hp]

/-- A lexicon to which the same patterns are handed keeps to the signature. -/
theorem Lexicon.Records.performAll {x : Lexicon} {a : Automaton} (h : x.Records a.signature)
    (calls : List Automaton.Call) :
    (x.registerAll (Automaton.Call.offered calls)).2.Records (a.performAll calls).signature := by
  induction calls generalizing x a with
  | nil => exact h
  | cons c calls ih =>
    -- only a registration concerns the lexicon
    by_cases hc : ∃ pattern, c = .register pattern
    · obtain ⟨pattern, rfl⟩ := hc
      refine ih ?_
      show (x.register pattern).2.Records (a.register pattern).automaton.signature
      rcases register_records h pattern with ⟨e, hsig, hx⟩ | ⟨sig, x', hsig, hx, hx'⟩
      · rw [hx, Automaton.register, hsig]
        exact h
      · rw [hx, Automaton.register, hsig]
        exact hx'
    · have hne : ∀ pattern, c ≠ .register pattern := fun pattern heq => hc ⟨pattern, heq⟩
      have hrest := ih (a := (a.perform c).automaton)
        (by rwa [Automaton.signature_perform_of_ne hne])
      cases c with
      | register pattern => exact absurd rfl (hne pattern)
      | _ => exact hrest

namespace Construction

variable {k : Construction} {a : Automaton}

-- ---------------------------------------------------------------------------
-- Queries
-- ---------------------------------------------------------------------------

/-- Whatever name is asked for, there is a state of the leaf once there are match sets. -/
theorem Represents.stateOfLeaf?_eq_none_iff (h : k.Represents a) {name : String} :
    k.stateOfLeaf? name = none ↔ k.ledger? = none := by
  rw [stateOfLeaf?]
  cases hl : k.ledger? with
  | none => cases k.forest? <;> simp
  | some l =>
    obtain ⟨-, hrelevance, hforest⟩ := h.exists_before
    obtain ⟨f, hf⟩ := Option.isSome_iff_exists.1 (hforest (hrelevance (by rw [hl]; rfl)))
    rw [hf]
    cases k.signature.idOf? name with
    | none => simp
    | some symbol => simp

/-- A transition is found or not, but the look-up does not fail. There is none exactly if there are
no tables, or for what is no operator of that arity, or over a number that is no state. -/
theorem Represents.exists_transition (h : k.Represents a) (ha : a.Consistent) (name : String)
    (states : List StateId) : ∃ answer, k.transition name states = .ok answer ∧
      (answer = none ↔ k.grids? = none ∨
        (∀ op ∈ k.signature.operators, op.name = name → op.arity ≠ states.length) ∨
        ∃ l, k.ledger? = some l ∧ ∃ state ∈ states, l.size ≤ state.val) := by
  refine ⟨_, h.transition_eq name states, ?_⟩
  rw [ha.transition?_eq_none_iff, h.signature]
  refine or_congr ?_ (or_congr Iff.rfl ?_)
  · rcases rel_cases h.grids with ⟨hg, ht⟩ | ⟨gs, tables, hg, ht, -⟩
    · simp [hg, ht]
    · simp [hg, ht]
  · rcases rel_cases h.ledger with ⟨hl, hsets⟩ | ⟨l, table, hl, hsets, hrecords⟩
    · simp [hl, hsets]
    · simp [hl, hsets, hrecords.size_eq]

-- ---------------------------------------------------------------------------
-- Calls
-- ---------------------------------------------------------------------------

/-- A construction fails where the automaton fails, for one of the documented reasons. -/
theorem Represents.mayFail (h : k.Represents a) (ha : a.Consistent) {c : Automaton.Call}
    {e : BuildError} (he : (k.perform c).error = some e) :
    c.MayFail k.config.maxPasses e := by
  rw [h.config]
  exact ha.mayFail ((h.perform c).error_eq.symm.trans he)

/-- A build that does not fail leaves tables behind. -/
theorem Represents.isSome_grids?_build (h : k.Represents a) (ha : a.Consistent)
    (hnone : k.build.error = none) : k.build.construction.grids?.isSome := by
  have hstep := h.build
  rw [hstep.error_eq] at hnone
  rw [isSome_eq_of_rel hstep.construction.grids]
  by_cases hnil : a.patterns = []
  · exact absurd (hnone.symm.trans (Automaton.error_build_of_nil hnil)) (by simp)
  · obtain ⟨f, r, hrule⟩ := ha.exists_rule hnil
    obtain ⟨herror, hbuilt⟩ := ha.build_of_builtFrom hrule
    obtain ⟨tables, -, hprogress⟩ := hbuilt (herror.symm.trans hnone)
    rw [Automaton.tables?, hprogress]
    rfl

/-- A discovery without a limit ends. -/
theorem exists_searchFromLeaves (rule : MatchRule) : ∃ report,
    Ledger.searchFromLeaves rule 0 = .ok report ∧
      report.result = .ok (rule.discover 0).stats := by
  obtain ⟨report, hreport, -, -, hresult⟩ := Ledger.search_reports rule 0
    (Ledger.records_ofLeaves rule.signature rule.forest)
  rw [← MatchRule.discover, Closure.error?_eq_none_iff.2 rule.complete_discover] at hresult
  exact ⟨report, hreport, hresult⟩

/-- After any sequence of calls on a new construction, every look-up in it finds its entry: a
further call fails for a documented reason only; the text can be written; every name has a leaf state
once there are match sets; and what has no transition is known. So it is for the symbols in a lexicon
of the same registrations. Running all phases fails for want of patterns exactly if none was
accepted, and else exactly at a limit that is smaller than the number of passes which discovery takes
on the accepted patterns without one; otherwise it leaves tables behind. -/
theorem only_documented_failures (config : Config) (calls : List Automaton.Call) :
    let k := (ofConfig config).performAll calls
    let accepted := (ofConfig config).accepted calls
    (∀ c e, (k.perform c).error = some e → c.MayFail config.maxPasses e ∧ e ≠ .outOfRange ∧
      (∀ op set, e ≠ .lookupMiss op set) ∧ ∀ phase, e ≠ .phaseOrder phase .registration) ∧
    (∃ text, k.dump = .ok text) ∧
    (∀ name, k.stateOfLeaf? name = none ↔ k.ledger? = none) ∧
    (∀ name states, ∃ answer, k.transition name states = .ok answer ∧
      (answer = none ↔ k.grids? = none ∨
        (∀ op ∈ k.signature.operators, op.name = name → op.arity ≠ states.length) ∨
        ∃ l, k.ledger? = some l ∧ ∃ state ∈ states, l.size ≤ state.val)) ∧
    (Lexicon.after (Automaton.Call.offered calls)).Answers k.signature ∧
    (accepted = [] → k.build.error = some .noPatterns) ∧
    (accepted ≠ [] → ∃ f r report stats,
      Forest.buildForward k.signature accepted = .ok f ∧
      Relevance.collect k.signature f = .ok r ∧
      Ledger.searchFromLeaves ⟨k.signature, f, r⟩ 0 = .ok report ∧ report.result = .ok stats ∧
      k.build.error =
        if 0 < config.maxPasses ∧ config.maxPasses < stats.passes then
          some (.passLimitExceeded config.maxPasses)
        else none) ∧
    (k.build.error = none → k.build.construction.grids?.isSome) := by
  intro k accepted
  have h := (represents_ofConfig config).performAll calls
  have ha := (Automaton.consistent_ofConfig config).performAll calls
  have hconfig : k.config = config :=
    h.config.trans (Automaton.config_performAll (Automaton.ofConfig config) calls)
  have hpatterns : ((Automaton.ofConfig config).performAll calls).patterns = accepted :=
    (Automaton.patterns_performAll _ calls).trans
      ((represents_ofConfig config).accepted_eq calls).symm
  have hlexicon := Lexicon.records_empty.performAll (a := Automaton.ofConfig config) calls
  rw [← h.signature] at hlexicon
  refine ⟨fun c e he => ?_, ?_, fun _ => h.stateOfLeaf?_eq_none_iff,
    fun name states => h.exists_transition ha name states, hlexicon.answers, fun hnil => ?_,
    fun hne => ?_, h.isSome_grids?_build ha⟩
  -- a single call
  · have hmayFail := h.mayFail ha he
    rw [hconfig] at hmayFail
    exact ⟨hmayFail, hmayFail.documented⟩
  -- the text
  · obtain ⟨text, htext⟩ := ha.exists_dump
    exact ⟨text, by rw [h.dump_eq, htext]; rfl⟩
  -- a build without patterns
  · exact h.build.error_eq.trans (Automaton.error_build_of_nil (hpatterns.trans hnil))
  -- a build with patterns, whose search decides
  · obtain ⟨f, r, hrule⟩ := ha.exists_rule fun hnil => hne (hpatterns.symm.trans hnil)
    obtain ⟨report, hreport, hresult⟩ :=
      exists_searchFromLeaves ⟨((Automaton.ofConfig config).performAll calls).signature, f, r⟩
    have herror := h.build.error_eq.trans (ha.error_build hrule)
    rw [← h.config, hconfig] at herror
    rw [hpatterns] at hrule
    rw [h.signature]
    exact ⟨f, r, report, _, (Forest.buildForward_eq_build ..).trans hrule.forest,
      (Relevance.collect_eq_ofForest ..).trans hrule.relevance, hreport, hresult, herror⟩

end Construction

end TreePattern
