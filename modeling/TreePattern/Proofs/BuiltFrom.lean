import TreePattern.Proofs.Forest.Order
import TreePattern.Proofs.Relevance
import TreePattern.Proofs.Signature.Registration

/-!
# The rule of a list of patterns

Patterns that register one after the other, and are not none, have a forest and a projection.
Signature, forest and projection make up a rule, and then they fit each other: every member
is a subpattern or the wildcard, and has as many children as its symbol allows.

## Results

* `MatchRule.builtFrom_iff`        — the rule can be computed.
* `MatchRule.exists_builtFrom`     — accepted patterns have a rule.
* `MatchRule.BuiltFrom.exists_tree` — every member is the number of a tree.
* `MatchRule.BuiltFrom.length_eq_arity` — members have as many children as their symbol.
* `MatchRule.BuiltFrom.exists_node` — every member has a node over members.
-/

namespace TreePattern

namespace MatchRule

/-- The parts of the rule are computed from the patterns, one from the other. -/
structure BuiltFrom (rule : MatchRule) (patterns : List Tree) : Prop where
  signature : patterns.foldlM Signature.register .empty = .ok rule.signature
  forest : Forest.build rule.signature patterns = .ok rule.forest
  relevance : Relevance.ofForest rule.signature rule.forest = .ok rule.relevance

variable {rule : MatchRule} {patterns : List Tree}

/-- Computes the rule of some patterns. -/
def ofPatterns (patterns : List Tree) : Except BuildError MatchRule := do
  let sig ← patterns.foldlM Signature.register .empty
  let f ← Forest.build sig patterns
  let r ← Relevance.ofForest sig f
  return ⟨sig, f, r⟩

/-- The specification of a rule and the function that makes it agree. -/
theorem builtFrom_iff : rule.BuiltFrom patterns ↔ ofPatterns patterns = .ok rule := by
  constructor
  · rintro ⟨hsig, hforest, hrelevance⟩
    exact bind_eq_ok_iff.2 ⟨_, hsig, bind_eq_ok_iff.2 ⟨_, hforest,
      bind_eq_ok_iff.2 ⟨_, hrelevance, rfl⟩⟩⟩
  · intro h
    obtain ⟨sig, hsig, h⟩ := bind_eq_ok_iff.1 h
    obtain ⟨f, hforest, h⟩ := bind_eq_ok_iff.1 h
    obtain ⟨r, hrelevance, h⟩ := bind_eq_ok_iff.1 h
    cases h
    exact ⟨hsig, hforest, hrelevance⟩

/-- What a computation finds of the rule of some patterns holds of their rule. -/
theorem exists_builtFrom_of_any {check : MatchRule → Bool}
    (h : (ofPatterns patterns).toOption.any check = true) :
    ∃ rule : MatchRule, rule.BuiltFrom patterns ∧ check rule = true := by
  obtain ⟨rule, hrule, hcheck⟩ := exists_eq_ok_of_any h
  exact ⟨rule, builtFrom_iff.2 hrule, hcheck⟩

-- ---------------------------------------------------------------------------
-- Members
-- ---------------------------------------------------------------------------

/-- Members are trees over the signature. -/
theorem fits_of_build {sig : Signature} {f : Forest}
    (hsig : patterns.foldlM Signature.register .empty = .ok sig)
    (hforest : Forest.build sig patterns = .ok f) {t : Tree} {i : MemberId}
    (hi : f.idOf? sig t = some i) : sig.Fits t := by
  obtain ⟨t', ht', horigin⟩ :=
    Forest.exists_tree_of_build hforest (Forest.mem_members_of_idOf? hi)
  obtain rfl : t = t' := Numbering.idOfTree?_inj hi ht'
  rcases horigin with rfl | ⟨p, hp, ht⟩
  · exact Signature.arityOf?_eq_some_iff.2 ⟨_, sig.find?_wildcardSymbol, rfl⟩
  · exact (Signature.foldlM_register_eq_ok hsig).2 p hp t ht

/-- The members below a symbol have as many children as it says. -/
theorem length_eq_arity_of_build {sig : Signature} {f : Forest}
    (hsig : patterns.foldlM Signature.register .empty = .ok sig)
    (hforest : Forest.build sig patterns = .ok f) {s : Symbol} (hs : sig.find? s.name = some s)
    {cs : List MemberId} {i : MemberId} (hi : f.lookup? s.id cs = some i) :
    cs.length = s.arity := by
  obtain ⟨t, ht, -⟩ := Forest.exists_tree_of_build hforest
    (Forest.mem_members_of_lookup? hi)
  obtain ⟨name, ts⟩ := t
  obtain ⟨symbol, children, hsymbol, hchildren, hi'⟩ := Forest.idOf?_node_iff.1 ht
  obtain ⟨rfl, rfl⟩ := Forest.lookup?_inj hi hi'
  obtain ⟨s', hs', harity⟩ := Signature.arityOf?_eq_some_iff.1 (fits_of_build hsig hforest ht)
  have hid : s'.id = s.id := Option.some.inj ((Signature.idOf?_of_find? hs').symm.trans hsymbol)
  obtain rfl : s' = s := Signature.eq_of_id_eq hs' hs hid
  rw [harity, ← hchildren.length_eq]
  rfl

/-- The same for a rule made from patterns. -/
theorem BuiltFrom.length_eq_arity (h : rule.BuiltFrom patterns) {s : Symbol}
    (hs : rule.signature.find? s.name = some s) {cs : List MemberId} {i : MemberId}
    (hi : rule.forest.lookup? s.id cs = some i) : cs.length = s.arity :=
  length_eq_arity_of_build h.signature h.forest hs hi

/-- Every member is the number of a tree. -/
theorem BuiltFrom.exists_tree (h : rule.BuiltFrom patterns) {i : MemberId}
    (hi : i ∈ rule.forest.members) : ∃ t, rule.forest.idOf? rule.signature t = some i := by
  obtain ⟨t, ht, -⟩ := Forest.exists_tree_of_build h.forest hi
  exact ⟨t, ht⟩

/-- The node of a member has a known symbol and as many children as that needs, all of them
members. -/
theorem BuiltFrom.exists_node (h : rule.BuiltFrom patterns) {i : MemberId}
    (hi : i ∈ rule.forest.members) :
    ∃ node s, rule.forest.node? i = some node ∧
      rule.signature.symbol? node.symbol = some s ∧ node.children.length = s.arity ∧
      ∀ c ∈ node.children, c ∈ rule.forest.members := by
  obtain ⟨⟨name, ts⟩, ht⟩ := h.exists_tree hi
  obtain ⟨symbol, children, hsymbol, hchildren, hlookup⟩ := Forest.idOf?_node_iff.1 ht
  obtain ⟨s, hs, rfl⟩ := Signature.exists_find?_of_idOf? hsymbol
  obtain ⟨rfl, hid⟩ := Signature.find?_eq_some_iff.1 hs
  refine ⟨⟨s.id, children⟩, s, Numbering.idOf?_eq_some_iff.1 hlookup, hid,
    h.length_eq_arity hs hlookup, ?_⟩
  intro c hc
  obtain ⟨t, -, ht⟩ := exists_of_mem_right hchildren hc
  exact Forest.mem_members_of_idOf? ht

/-- The children of a member are members. -/
theorem BuiltFrom.forall_mem_members (h : rule.BuiltFrom patterns) {op : SymbolId}
    {cs : List MemberId} {i : MemberId} (hi : rule.forest.lookup? op cs = some i) :
    ∀ c ∈ cs, c ∈ rule.forest.members := by
  obtain ⟨node, s, hnode, -, -, hmembers⟩ := h.exists_node (Forest.mem_members_of_lookup? hi)
  rw [Forest.node?, Numbering.idOf?_eq_some_iff.1 hi, Option.some.injEq] at hnode
  rwa [← hnode] at hmembers

-- ---------------------------------------------------------------------------
-- Existence
-- ---------------------------------------------------------------------------

/-- Patterns that all register have a rule, unless there are none. -/
theorem exists_builtFrom (hne : patterns ≠ []) {sig : Signature}
    (hsig : patterns.foldlM Signature.register .empty = .ok sig) :
    ∃ rule : MatchRule, rule.signature = sig ∧ rule.BuiltFrom patterns := by
  have hknown : ∀ p ∈ patterns, ∀ node ∈ p.preOrder, (sig.idOf? node.symbol).isSome := by
    intro p hp node hn
    obtain ⟨s, hs, -⟩ := Signature.arityOf?_eq_some_iff.1
      ((Signature.foldlM_register_eq_ok hsig).2 p hp node hn)
    rw [Signature.idOf?_of_find? hs]
    rfl
  obtain ⟨f, hf⟩ := Forest.exists_build hne hknown
  have hfits : ∀ op ∈ sig.operators, ∀ j cs,
      f.lookup? op.id cs = some j → cs.length ≤ op.arity := fun op hop j cs hj =>
    (length_eq_arity_of_build hsig hf (Signature.mem_operators_iff.1 hop).1 hj).le
  obtain ⟨r, hr⟩ := Relevance.exists_ofForest hfits
  exact ⟨⟨sig, f, r⟩, rfl, hsig, hf, hr⟩

end MatchRule

end TreePattern
