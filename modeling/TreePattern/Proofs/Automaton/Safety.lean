import TreePattern.Proofs.Automaton.Build
import TreePattern.Proofs.Automaton.Recognition

/-!
# Questions without an answer and calls that fail

On an automaton whose outputs are fresh it is known which transitions are missing, whatever name and
states are asked for, and why a call fails, a build included.

## Results

* `Automaton.Finished.transition?_eq_none_iff` — which transitions a finished automaton lacks.
* `Automaton.Consistent.transition?_eq_none_iff` — and any other.
* `Automaton.Consistent.mayFail`               — why a call fails.
-/

namespace TreePattern

namespace Automaton

variable {a : Automaton} {rule : MatchRule} {table : MatchSets} {tables : Transitions}

-- ---------------------------------------------------------------------------
-- Queries
-- ---------------------------------------------------------------------------

/-- A finished automaton has no transition exactly for what is no operator of that arity, and
over a number that is no state. -/
theorem Finished.transition?_eq_none_iff (h : a.Finished rule table tables) {name : String}
    {states : List StateId} :
    a.transition? name states = none ↔
      (∀ op ∈ a.signature.operators, op.name = name → op.arity ≠ states.length) ∨
      ∃ state ∈ states, table.size ≤ state.val := by
  rw [h.signature]
  constructor
  · intro hnone
    -- if the name and the number of children fit, only a number that is no state is left
    by_cases hop : ∃ op ∈ rule.signature.operators, op.name = name ∧ op.arity = states.length
    · obtain ⟨op, hop, rfl, harity⟩ := hop
      have hfound := (Signature.mem_operators_iff.1 hop).1
      rw [transition?, h.signature, Signature.idOf?_of_find? hfound, h.tables?] at hnone
      have hnone : tables.transition? op.id states = none := hnone
      rcases (Transitions.transition?_eq_none_iff h.wildcard_eq h.tabulated).1 hnone with
        hall | ⟨o, ho, hid, hlen⟩ | hout
      · exact absurd rfl (hall op hop)
      · have heq := Signature.eq_of_id_eq (Signature.mem_operators_iff.1 ho).1 hfound hid
        exact absurd (heq ▸ harity.symm) hlen
      · exact Or.inr hout
    · refine Or.inl ?_
      intro op hmem hname harity
      exact hop ⟨op, hmem, hname, harity⟩
  · intro hwrong
    -- a transition that is found belongs to an operator of that arity
    cases hq : a.transition? name states with
    | none => rfl
    | some q =>
      obtain ⟨op, hop, rfl, harity⟩ := h.exists_operator hq
      rcases hwrong with hall | hout
      · exact absurd harity (hall op hop rfl)
      · have hfound := (Signature.mem_operators_iff.1 hop).1
        have hnone : tables.transition? op.id states = none :=
          (Transitions.transition?_eq_none_iff h.wildcard_eq h.tabulated).2 (Or.inr (Or.inr hout))
        rw [transition?, h.signature, Signature.idOf?_of_find? hfound, h.tables?] at hq
        exact absurd (hnone.symm.trans hq) (by simp)

/-- An automaton with tables is finished for the rule of its patterns. -/
theorem Consistent.exists_finished (h : a.Consistent) (htables : a.tables? = some tables) :
    ∃ rule table, a.Finished rule table tables := by
  unfold tables? at htables
  cases hp : a.progress with
  | complete f r table stats ts =>
    obtain rfl : ts = tables := by
      rw [hp] at htables
      exact Option.some.inj htables
    exact ⟨_, table, h.finished hp⟩
  | _ => exact absurd (hp ▸ htables) (by simp [Progress.tables?])

/-- There is no transition exactly if there are no tables, or for what is no operator of that
arity, or over a number that is no state. -/
theorem Consistent.transition?_eq_none_iff (h : a.Consistent) {name : String}
    {states : List StateId} :
    a.transition? name states = none ↔ a.tables? = none ∨
      (∀ op ∈ a.signature.operators, op.name = name → op.arity ≠ states.length) ∨
      ∃ table, a.matchSets? = some table ∧ ∃ state ∈ states, table.size ≤ state.val := by
  cases htables : a.tables? with
  | none =>
    refine iff_of_true ?_ (Or.inl rfl)
    rw [transition?, htables]
    cases a.signature.idOf? name with
    | none => rfl
    | some id => rfl
  | some tables =>
    obtain ⟨rule, table, hfinished⟩ := h.exists_finished htables
    rw [hfinished.transition?_eq_none_iff, hfinished.matchSets?]
    simp

-- ---------------------------------------------------------------------------
-- Failing calls
-- ---------------------------------------------------------------------------

/-- Running all phases fails for want of patterns or of passes. -/
theorem Consistent.build_mayFail (h : a.Consistent) {e : BuildError}
    (he : a.build.error = some e) : Call.build.MayFail a.config.maxPasses e := by
  by_cases hne : a.patterns = []
  · rw [error_build_of_nil hne] at he
    cases he
    exact .noPatterns
  · obtain ⟨f, r, hrule⟩ := h.exists_rule hne
    rw [h.error_build hrule] at he
    split at he
    · next hlimit =>
      cases he
      exact .buildLimit hlimit.1
    · exact absurd he (by simp)

/-- A call fails for one of the reasons it may fail for. -/
theorem Consistent.mayFail (h : a.Consistent) {c : Call} {e : BuildError}
    (he : (a.perform c).error = some e) : c.MayFail a.config.maxPasses e := by
  by_cases hc : c = .build
  · rw [hc] at he ⊢
    exact h.build_mayFail he
  · exact (h.failed hc he).1

-- ---------------------------------------------------------------------------
-- Limits and errors
-- ---------------------------------------------------------------------------

theorem config_perform (a : Automaton) (c : Call) : (a.perform c).automaton.config = a.config := by
  by_cases hc : ∃ pattern, c = .register pattern
  · obtain ⟨pattern, rfl⟩ := hc
    show (a.register pattern).automaton.config = a.config
    rcases a.register_cases pattern with ⟨e, -, hfailed⟩ | ⟨sig, -, -, hautomaton⟩
    · rw [hfailed]
      rfl
    · rw [hautomaton]
  · obtain ⟨p, hp⟩ := a.perform_frame fun pattern heq => hc ⟨pattern, heq⟩
    rw [hp]

/-- No call changes the configuration. -/
theorem config_performAll (a : Automaton) (calls : List Call) :
    (a.performAll calls).config = a.config := by
  induction calls generalizing a with
  | nil => rfl
  | cons c calls ih => rw [performAll, ih, config_perform]

/-- A documented failure is neither a number outside a table, nor a set that is missing from one,
nor the want of a registration. -/
theorem Call.MayFail.documented {maxPasses : Nat} {c : Call} {e : BuildError}
    (h : c.MayFail maxPasses e) :
    e ≠ .outOfRange ∧ (∀ op set, e ≠ .lookupMiss op set) ∧
      ∀ phase, e ≠ .phaseOrder phase .registration := by
  have hregistration : ∀ required ∈ [Phase.forest, .projection, .matchSets],
      required ≠ .registration := by decide
  cases h with
  | discover hrequired =>
    have hne := hregistration _ (List.mem_append_left [Phase.matchSets] hrequired)
    simp [hne]
  | buildTables hrequired =>
    have hne := hregistration _ hrequired
    simp [hne]
  | _ => simp

end Automaton

end TreePattern
