import TreePattern.Proofs.Automaton.Build
import TreePattern.Proofs.Automaton.Counters
import TreePattern.Proofs.Renumbering.Tables

/-!
# The order of registration

Symbols and members are numbered in the order in which the patterns bring them in, so another
order of registration gives other numbers. States and classes do not depend on it: what the
phases go through is sorted by name, or numbered by them before. Two automata whose patterns
have the same subpatterns therefore answer alike whatever is asked by name, and the sets of a
state hold the same patterns.

## Results

* `Automaton.BuiltBy.sameNumbering`         — agreeing rules build automata that answer alike.
* `Automaton.registration_order_irrelevant` — so do lists of patterns with the same subpatterns.
-/

namespace TreePattern

/-- All counters but that of the patterns. -/
def Stats.withoutPatterns (s : Stats) : Stats := { s with patterns := 0 }

namespace Automaton

-- ---------------------------------------------------------------------------
-- Questions by name
-- ---------------------------------------------------------------------------

/-- The class of a state in slot `k` of the operator called `name`. -/
def class? (a : Automaton) (name : String) (k : Nat) (state : StateId) : Option ClassId := do
  let op ← a.signature.idOf? name
  let tables ← a.tables?
  tables.class? op k state

/-- The number of classes in slot `k` of the operator called `name`. -/
def classCount? (a : Automaton) (name : String) (k : Nat) : Option Nat := do
  let op ← a.signature.idOf? name
  let tables ← a.tables?
  return tables.classCount op k

/-- The target of a tuple of classes of the operator called `name`. -/
def target? (a : Automaton) (name : String) (classes : List ClassId) : Option StateId := do
  let op ← a.signature.idOf? name
  let tables ← a.tables?
  tables.target? op classes

/-- The match set of a state. -/
def matchSet? (a : Automaton) (state : StateId) : Option (List MemberId) :=
  a.matchSets?.bind fun table => table.get? state

/-- The number that `b` has for the pattern that `a` numbers `i`. -/
def rename? (a b : Automaton) (i : MemberId) : Option MemberId := do
  let forest ← a.forest?
  let pattern ← forest.tree? a.signature i
  let forest' ← b.forest?
  forest'.idOf? b.signature pattern

/-- A match set of one automaton, renumbered, and one of another hold the same members. -/
def SamePatterns (a b : Automaton) (s s' : List MemberId) : Prop :=
  ∃ renamed, s.mapM (a.rename? b) = some renamed ∧ renamed.Perm s'

/-- Two automata that number their states alike. -/
structure SameNumbering (a b : Automaton) : Prop where
  operators : a.signature.operators.map Symbol.name = b.signature.operators.map Symbol.name
  terminals : a.signature.terminals.map Symbol.name = b.signature.terminals.map Symbol.name
  arityOf? : ∀ name, a.signature.arityOf? name = b.signature.arityOf? name
  stateOfLeaf? : ∀ name, a.stateOfLeaf? name = b.stateOfLeaf? name
  transition? : ∀ name states, a.transition? name states = b.transition? name states
  class? : ∀ name k state, a.class? name k state = b.class? name k state
  classCount? : ∀ name k, a.classCount? name k = b.classCount? name k
  target? : ∀ name classes, a.target? name classes = b.target? name classes
  matchSet? : ∀ state, Option.Rel (SamePatterns a b) (a.matchSet? state) (b.matchSet? state)
  stats : a.stats.withoutPatterns = b.stats.withoutPatterns

-- ---------------------------------------------------------------------------
-- Automata of agreeing rules
-- ---------------------------------------------------------------------------

variable {a b : Automaton} {rule rule' : MatchRule} {tables tables' : Transitions}

/-- All phases have run for the given rule, without a limit. -/
structure BuiltBy (a : Automaton) (rule : MatchRule) (tables : Transitions) : Prop where
  signature : a.signature = rule.signature
  progress : a.progress =
    .complete rule.forest rule.relevance (rule.discover 0).table (rule.discover 0).stats tables
  tabulated : Transitions.build rule (rule.discover 0).table = .ok tables

namespace BuiltBy

theorem forest? (h : a.BuiltBy rule tables) : a.forest? = some rule.forest :=
  congrArg Progress.forest? h.progress

theorem relevance? (h : a.BuiltBy rule tables) : a.relevance? = some rule.relevance :=
  congrArg Progress.relevance? h.progress

theorem matchSets? (h : a.BuiltBy rule tables) : a.matchSets? = some (rule.discover 0).table :=
  congrArg Progress.matchSets? h.progress

theorem discovery? (h : a.BuiltBy rule tables) :
    a.progress.discovery? = some (rule.discover 0).stats :=
  congrArg Progress.discovery? h.progress

theorem tables? (h : a.BuiltBy rule tables) : a.tables? = some tables :=
  congrArg Progress.tables? h.progress

/-- A question asked by name has the same answer if it has for the two numbers of each
symbol. -/
theorem bind_idOf?_eq (ha : a.BuiltBy rule tables) (hb : b.BuiltBy rule' tables')
    (hagree : rule.Agree rule') {γ : Type} {f g : SymbolId → Option γ}
    (hfg : ∀ s s', rule.SameSymbol rule' s s' → f s.id = g s'.id) (name : String) :
    (a.signature.idOf? name).bind f = (b.signature.idOf? name).bind g := by
  rw [ha.signature, hb.signature, Signature.idOf?_eq_map_find?, Signature.idOf?_eq_map_find?,
    Option.bind_map, Option.bind_map]
  exact bind_eq_of_rel (hagree.rel_find? name) hfg

/-- The same, for what is read off the tables. -/
theorem bind_tables?_eq (ha : a.BuiltBy rule tables) (hb : b.BuiltBy rule' tables')
    (hagree : rule.Agree rule') {γ : Type} {f : SymbolId → Transitions → Option γ}
    (hf : ∀ s s', rule.SameSymbol rule' s s' → f s.id tables = f s'.id tables') (name : String) :
    ((a.signature.idOf? name).bind fun op => a.tables?.bind (f op)) =
      (b.signature.idOf? name).bind fun op => b.tables?.bind (f op) := by
  refine ha.bind_idOf?_eq hb hagree ?_ name
  intro s s' hs
  rw [ha.tables?, hb.tables?, Option.bind_some, Option.bind_some]
  exact hf s s' hs

theorem rename?_of_sameTree (ha : a.BuiltBy rule tables) (hb : b.BuiltBy rule' tables')
    {i j : MemberId} (h : rule.SameTree rule' i j) : a.rename? b i = some j := by
  obtain ⟨t, hi, hj⟩ := h
  unfold rename?
  rw [ha.forest?, hb.forest?, ha.signature, hb.signature, Option.bind_eq_bind, Option.bind_some,
    Forest.tree?_eq_some_iff.2 hi]
  exact hj

theorem samePatterns (ha : a.BuiltBy rule tables) (hb : b.BuiltBy rule' tables')
    {s s' : List MemberId} (h : rule.SameTrees rule' s s') : SamePatterns a b s s' := by
  obtain ⟨t, hst, hperm⟩ := h.exists_perm
  exact ⟨t, mapM_eq_some_iff.2 (hst.imp fun _ _ hij => ha.rename?_of_sameTree hb hij), hperm⟩

theorem stateOfLeaf?_eq_map (h : a.BuiltBy rule tables) (name : String) :
    a.stateOfLeaf? name = some (((rule.signature.find? name).map fun s =>
      (rule.discover 0).table.stateOfLeaf rule.forest s.id).getD MatchSets.wildcardState) := by
  unfold Automaton.stateOfLeaf?
  rw [h.forest?, h.matchSets?, h.signature, Signature.idOf?_eq_map_find?]
  cases rule.signature.find? name with
  | none => rfl
  | some s => rfl

theorem stateOfLeaf?_eq (ha : a.BuiltBy rule tables) (hb : b.BuiltBy rule' tables')
    (hagree : rule.Agree rule') (name : String) : a.stateOfLeaf? name = b.stateOfLeaf? name := by
  rw [ha.stateOfLeaf?_eq_map, hb.stateOfLeaf?_eq_map, Option.map_eq_bind, Option.map_eq_bind]
  refine congrArg (fun x : Option StateId => some (x.getD MatchSets.wildcardState)) ?_
  refine bind_eq_of_rel (hagree.rel_find? name) ?_
  intro s s' hs
  exact congrArg some (hagree.stateOfLeaf_eq hagree.discover.1 hs)

theorem rel_matchSet? (ha : a.BuiltBy rule tables) (hb : b.BuiltBy rule' tables')
    (hagree : rule.Agree rule') (state : StateId) :
    Option.Rel (SamePatterns a b) (a.matchSet? state) (b.matchSet? state) := by
  have hsets : List.Forall₂ (SamePatterns a b) (rule.discover 0).table.toList
      (rule'.discover 0).table.toList :=
    hagree.discover.1.sets.imp fun _ _ hs => ha.samePatterns hb hs
  unfold Automaton.matchSet?
  rw [ha.matchSets?, hb.matchSets?, Option.bind_some, Option.bind_some, MatchSets.get?,
    MatchSets.get?, Numbering.get?_eq_getElem?_toList, Numbering.get?_eq_getElem?_toList]
  exact rel_getElem? hsets state.val

theorem stats_eq (ha : a.BuiltBy rule tables) (hb : b.BuiltBy rule' tables')
    (hagree : rule.Agree rule') :
    a.stats.withoutPatterns = b.stats.withoutPatterns := by
  obtain ⟨hsets, hstats⟩ := hagree.discover
  have htables := hagree.sameTables_build hsets ha.tabulated hb.tabulated
  unfold stats Stats.withoutPatterns
  rw [ha.forest?, hb.forest?, ha.relevance?, hb.relevance?, ha.matchSets?, hb.matchSets?,
    ha.discovery?, hb.discovery?, ha.tables?, hb.tables?]
  simp only [Option.map_some, Option.getD_some, hagree.size_forest_eq, hagree.entries_eq, hstats,
    hsets.size_eq, htables.totalClasses, htables.totalEntries]

/-- Rules that agree build automata that number their states alike. -/
theorem sameNumbering (ha : a.BuiltBy rule tables) (hb : b.BuiltBy rule' tables')
    (hagree : rule.Agree rule') : SameNumbering a b := by
  obtain ⟨hsets, -⟩ := hagree.discover
  have htables := hagree.sameTables_build hsets ha.tabulated hb.tabulated
  have harity : ∀ name, a.signature.arityOf? name = b.signature.arityOf? name := by
    intro name
    rw [ha.signature, hb.signature, hagree.arityOf?_eq name]
  exact
    { operators := map_eq_of_forall₂ (Signature.forall₂_operators harity) fun _ _ hs => hs.name
      terminals := map_eq_of_forall₂ (Signature.forall₂_terminals harity) fun _ _ hs => hs.name
      arityOf? := harity
      stateOfLeaf? := ha.stateOfLeaf?_eq hb hagree
      transition? := fun name states =>
        ha.bind_tables?_eq hb hagree (fun _ _ hs => htables.transition?_eq hs states) name
      class? := fun name k state =>
        ha.bind_tables?_eq hb hagree (fun _ _ hs => htables.class?_eq hs k state) name
      classCount? := fun name k =>
        ha.bind_tables?_eq hb hagree (fun _ _ hs => congrArg some (htables.classCount_eq hs k)) name
      target? := fun name classes =>
        ha.bind_tables?_eq hb hagree (fun _ _ hs => htables.target?_eq hs classes) name
      matchSet? := ha.rel_matchSet? hb hagree
      stats := ha.stats_eq hb hagree }

end BuiltBy

-- ---------------------------------------------------------------------------
-- Registering and building
-- ---------------------------------------------------------------------------

variable {P Q : List Tree}

/-- Patterns can be registered one after the other if the signature accepts them. -/
theorem allSucceed_register_iff :
    a.AllSucceed (P.map .register) ↔ ∃ sig, P.foldlM Signature.register a.signature = .ok sig := by
  induction P generalizing a with
  | nil => exact iff_of_true trivial ⟨a.signature, rfl⟩
  | cons p P ih =>
    have hcons : a.AllSucceed ((p :: P).map .register) ↔
        (a.register p).error = none ∧ (a.register p).automaton.AllSucceed (P.map .register) :=
      Iff.rfl
    rw [hcons, ih]
    rcases a.register_cases p with ⟨e, hsig, hfailed⟩ | ⟨sig, hsig, herror, hautomaton⟩
    · rw [hfailed, List.foldlM_cons, hsig]
      exact iff_of_false (fun h => absurd h.1 (by simp [Outcome.failed])) nofun
    · rw [herror, hautomaton, List.foldlM_cons, hsig]
      exact and_iff_right rfl

theorem patterns_of_allSucceed (h : a.AllSucceed (P.map .register)) :
    (a.performAll (P.map .register)).patterns = a.patterns ++ P := by
  induction P generalizing a with
  | nil => exact (List.append_nil _).symm
  | cons p P ih =>
    obtain ⟨herror, hrest⟩ := h
    have herror : (a.register p).error = none := herror
    have hpatterns := a.patterns_register p
    rw [Call.added, if_pos herror] at hpatterns
    rw [List.map_cons, performAll, ih hrest]
    show (a.register p).automaton.patterns ++ P = a.patterns ++ (p :: P)
    rw [hpatterns, List.append_assoc, List.singleton_append]

/-- Accepted patterns can be built without a limit, for a rule of theirs. -/
theorem exists_builtBy {config : Config} (hlimit : config.maxPasses = 0) (hne : P ≠ [])
    (hok : (ofConfig config).AllSucceed (P.map .register)) :
    let a := (ofConfig config).performAll (P.map .register)
    a.build.error = none ∧
      ∃ rule tables, rule.BuiltFrom P ∧ a.build.automaton.BuiltBy rule tables := by
  intro a
  have h : a.Consistent := (consistent_ofConfig config).performAll (P.map .register)
  have hpatterns : a.patterns = P := patterns_of_allSucceed hok
  have hconfig : a.config = config := config_performAll (ofConfig config) (P.map .register)
  obtain ⟨rule, hsig, hrule⟩ := MatchRule.exists_builtFrom hne (hpatterns ▸ h.signature)
  -- the registered patterns are those of the list, as every call was accepted
  have hbuilt : rule.BuiltFrom a.patterns := hpatterns.symm ▸ hrule
  obtain ⟨herror, tables, htabulated, hprogress⟩ :=
    h.progress_build hbuilt (hconfig.symm ▸ hlimit)
  obtain ⟨p, hframe⟩ := a.build_frame
  refine ⟨herror, rule, tables, hrule, ?_, hprogress, htabulated⟩
  rw [hframe, hsig]

/-- If all patterns of a list are accepted, so are those of any list with the same subpatterns.
Built without a limit, which succeeds if the lists are not empty, both lead to automata that
number their states alike and answer alike: their match sets hold the same patterns, and the
counters, those read off the outputs as well as those kept on the way, are equal but for that of
the patterns. -/
theorem registration_order_irrelevant {config config' : Config} (hlimit : config.maxPasses = 0)
    (hlimit' : config'.maxPasses = 0) (hP : P ≠ []) (hQ : Q ≠ [])
    (hsame : ∀ t, Tree.IsSubpattern P t ↔ Tree.IsSubpattern Q t)
    (hok : (ofConfig config).AllSucceed (P.map .register)) :
    let a := (ofConfig config).performAll (P.map .register)
    let b := (ofConfig config').performAll (Q.map .register)
    let tally := (Tally.ofConfig config).performAll (P.map .register)
    let tally' := (Tally.ofConfig config').performAll (Q.map .register)
    (ofConfig config').AllSucceed (Q.map .register) ∧
      a.build.error = none ∧ b.build.error = none ∧
      SameNumbering a.build.automaton b.build.automaton ∧
      (tally.perform .build).counters.withoutPatterns =
        (tally'.perform .build).counters.withoutPatterns := by
  intro a b tally tally'
  obtain ⟨sig, hsig⟩ := allSucceed_register_iff.1 hok
  obtain ⟨sig', hsig', -⟩ := Signature.exists_signature_of_same hsame hsig
  have hok' : (ofConfig config').AllSucceed (Q.map .register) :=
    allSucceed_register_iff.2 ⟨sig', hsig'⟩
  obtain ⟨herror, rule, tables, hrule, hbuilt⟩ := exists_builtBy hlimit hP hok
  obtain ⟨herror', rule', tables', hrule', hbuilt'⟩ := exists_builtBy hlimit' hQ hok'
  have hnumbering := hbuilt.sameNumbering hbuilt' ⟨P, Q, hrule, hrule', hsame⟩
  refine ⟨hok', herror, herror', hnumbering, ?_⟩
  -- the stored counters are those of the outputs
  rw [Tally.counters_perform_performAll, Tally.counters_perform_performAll]
  exact hnumbering.stats

/-- Two patterns, then the same ones the other way round with a repetition: `f` has another
number, the states keep theirs. -/
theorem registration_order_irrelevant_for_pair :
    let f := Tree.node "f" [Tree.leaf "a", Tree.wildcard]
    let g := Tree.node "g" [Tree.leaf "a"]
    let a := (ofConfig ⟨0, false⟩).performAll ([f, g].map .register)
    let b := (ofConfig ⟨0, false⟩).performAll ([g, f, g].map .register)
    let tally := (Tally.ofConfig ⟨0, false⟩).performAll ([f, g].map .register)
    let tally' := (Tally.ofConfig ⟨0, false⟩).performAll ([g, f, g].map .register)
    a.signature.idOf? "f" ≠ b.signature.idOf? "f" ∧ a.build.error = none ∧
      b.build.error = none ∧ SameNumbering a.build.automaton b.build.automaton ∧
      (tally.perform .build).counters.withoutPatterns =
        (tally'.perform .build).counters.withoutPatterns := by
  intro f g a b tally tally'
  -- the numbers of the symbols differ, which is what makes the agreement worth stating
  have hids : a.signature.idOf? "f" ≠ b.signature.idOf? "f" := by decide +kernel
  have hsame : ∀ t, Tree.IsSubpattern [f, g] t ↔ Tree.IsSubpattern [g, f, g] t := by
    refine Tree.isSubpattern_iff_of_mem_iff ?_
    intro p
    grind
  have hok : (ofConfig ⟨0, false⟩).AllSucceed ([f, g].map .register) := by
    refine ⟨?_, ?_, trivial⟩
    · decide +kernel
    · decide +kernel
  have hlimit : (⟨0, false⟩ : Config).maxPasses = 0 := rfl
  obtain ⟨-, hanswers⟩ := registration_order_irrelevant hlimit hlimit (List.cons_ne_nil _ _)
    (List.cons_ne_nil _ _) hsame hok
  exact ⟨hids, hanswers⟩

end Automaton

end TreePattern
