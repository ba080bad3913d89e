import TreePattern.Proofs.Signature.Acceptance
import TreePattern.Proofs.Signature.ByteOrder

/-!
# A lexicon records a signature

The three stores of a lexicon hold what a signature holds. Its two walks over a pattern are the one
fold that registers the pattern in the signature: the first fails where the fold fails, since the
known arities together with those seen in the pattern are the arities that the fold would know by
then. If it does not fail, the second records what the fold records.

## Results

* `Lexicon.register_records`    — registering a pattern in a lexicon and in its signature.
* `Lexicon.exists_records`      — the signature of a lexicon after any calls.
* `Lexicon.register_accepts_consistent_patterns` — which patterns are accepted, and what they leave.
-/

namespace TreePattern

namespace Lexicon

/-- The stores of the lexicon hold the names, numbers and arities of the signature. -/
structure Records (x : Lexicon) (sig : Signature) : Prop where
  names_eq : x.symbols.names.toList = sig.names.toList
  idOf?_eq : ∀ name, x.idOf? name = sig.idOf? name
  arities_eq : x.arities = sig.arities
  wildcard_eq : x.wildcard = Symbol.wildcardId

variable {x : Lexicon} {sig sig' : Signature} {name : String}

-- ---------------------------------------------------------------------------
-- Reading
-- ---------------------------------------------------------------------------

namespace Records

/-- The name of a number is that of the signature. -/
theorem name?_eq (h : x.Records sig) (id : SymbolId) :
    x.symbols.name? id = sig.names.get? id := by
  rw [NameTable.name?, ← Array.getElem?_toList, h.names_eq, Numbering.get?_eq_getElem?_toList]

/-- There are as many symbols. -/
theorem size_eq (h : x.Records sig) : x.size = sig.size := by
  rw [size, NameTable.size, ← Array.length_toList, h.names_eq]
  exact sig.names.length_toList

/-- The arity of a known symbol is found. -/
theorem arityOf_eq (h : x.Records sig) {s : Symbol} (hs : sig.symbol? s.id = some s) :
    x.arityOf s.id = .ok s.arity := by
  rw [arityOf, h.arities_eq, (Signature.symbol?_eq_some_iff.1 hs).2.2, found]

/-- No arity is missing. -/
theorem arityOfName_eq (h : x.Records sig) (name : String) :
    x.arityOfName name = .ok (sig.arityOf? name) := by
  rw [arityOfName, h.idOf?_eq, Signature.arityOf?, Signature.idOf?_eq_map_find?]
  cases hs : sig.find? name with
  | none => rfl
  | some s =>
    have harity := h.arityOf_eq (Signature.find?_eq_some_iff.1 hs).2
    show some <$> x.arityOf s.id = _
    rw [harity]
    rfl

end Records

/-- The new stores record the new signature. -/
theorem records_empty : empty.Records Signature.empty where
  names_eq := rfl
  idOf?_eq name := by
    have hinsert := Numbering.idOf?_insert_of_new (n := (Numbering.empty : Numbering .symbol _))
      (a := wildcardSymbol) Std.TreeMap.getElem?_emptyc name
    exact Std.TreeMap.getElem?_insert.trans hinsert.symm
  arities_eq := rfl
  wildcard_eq := rfl

-- ---------------------------------------------------------------------------
-- The first walk
-- ---------------------------------------------------------------------------

/-- With the nodes `seen` in a pattern, the lexicon knows the arities of `sig'`. -/
def Foresees (sig : Signature) (seen : Std.TreeMap String Nat) (sig' : Signature) : Prop :=
  ∀ name, sig'.arityOf? name = (sig.arityOf? name).or seen[name]?

/-- A node whose symbol has an arity is compared with it. -/
theorem Records.checkNode_of_known (h : x.Records sig) {seen : Std.TreeMap String Nat}
    (hseen : Foresees sig seen sig') {node : Tree} {expected : Nat}
    (hknown : sig'.arityOf? node.symbol = some expected) :
    x.checkNode seen node = if expected = node.arity then .ok seen
      else .error (.arityConflict node.symbol expected node.arity) := by
  rw [hseen] at hknown
  rw [Lexicon.checkNode, h.arityOfName_eq]
  dsimp only [bind, Except.bind]
  rw [hknown]
  rfl

/-- A node whose symbol has no arity yet is taken. -/
theorem Records.checkNode_of_unknown (h : x.Records sig) {seen : Std.TreeMap String Nat}
    (hseen : Foresees sig seen sig') {node : Tree} (hunknown : sig'.arityOf? node.symbol = none) :
    x.checkNode seen node = .ok (seen.insert node.symbol node.arity) := by
  rw [hseen] at hunknown
  rw [Lexicon.checkNode, h.arityOfName_eq]
  dsimp only [bind, Except.bind]
  rw [hunknown]
  rfl

/-- A node is refused by the first walk if it is refused when it is to be recorded, and for the same
reason. -/
theorem Records.checkNode (h : x.Records sig) {seen : Std.TreeMap String Nat}
    (hseen : Foresees sig seen sig') (node : Tree) :
    (∃ e, sig'.record node = .error e ∧ x.checkNode seen node = .error e) ∨
    ∃ sig'' seen', sig'.record node = .ok sig'' ∧ x.checkNode seen node = .ok seen' ∧
      Foresees sig seen' sig'' := by
  unfold Signature.record
  split
  · next hnone =>
    have hunknown := Signature.find?_eq_none_iff.1 hnone
    have harity := Signature.idOf?_eq_none_iff.1 hunknown
    refine Or.inr ⟨_, _, rfl, h.checkNode_of_unknown hseen harity, fun name => ?_⟩
    rw [Signature.arityOf?_add, hseen, Std.TreeMap.getElem?_insert]
    rw [hseen, Option.or_eq_none_iff] at harity
    simp only [Std.LawfulEqCmp.compare_eq_iff_eq]
    split
    · next heq => rw [← heq, harity.1, harity.2]; rfl
    · rw [Option.or_none]
  -- a known symbol is compared with its arity on both sides, and neither side changes
  · next s hs =>
    have hcheck := h.checkNode_of_known hseen (Signature.arityOf?_eq_some_iff.2 ⟨s, hs, rfl⟩)
    by_cases heq : s.arity = node.arity
    · rw [if_pos heq] at hcheck ⊢
      exact Or.inr ⟨_, _, rfl, hcheck, hseen⟩
    · rw [if_neg heq] at hcheck ⊢
      exact Or.inl ⟨_, rfl, hcheck⟩

/-- The walk with a stack goes through the nodes in pre-order. -/
theorem toList_walk (p : Tree) : Enumeration.toList p.walk = p.preOrder := by
  rw [Tree.Walk.toList_eq, Tree.walk, List.flatMap_singleton]

/-- The first walk fails as registering fails. -/
theorem Records.check (h : x.Records sig) (p : Tree) :
    (∃ e, sig.register p = .error e ∧ x.check p = .error e) ∨
    ∃ sig' seen, sig.register p = .ok sig' ∧ x.check p = .ok seen := by
  have hempty : Foresees sig ∅ sig := fun name => by
    rw [Std.TreeMap.getElem?_emptyc, Option.or_none]
  rw [Lexicon.check, Enumeration.foldlM_eq_foldlM_toList, toList_walk]
  exact (foldlM_lockstep (R := fun cur seen => Foresees sig seen cur)
    (fun _ _ hseen node => h.checkNode hseen node) p.preOrder hempty).imp_right
      fun ⟨sig', seen, hregister, hcheck, _⟩ => ⟨sig', seen, hregister, hcheck⟩

-- ---------------------------------------------------------------------------
-- The second walk
-- ---------------------------------------------------------------------------

/-- A node that the signature can record is recorded in the stores. -/
theorem Records.recordNode (h : x.Records sig) {node : Tree} (hrecord : sig.record node = .ok sig') :
    (x.recordNode node).Records sig' := by
  rw [Lexicon.recordNode, h.idOf?_eq]
  unfold Signature.record at hrecord
  split at hrecord
  -- a new symbol goes into each store, at the same place as in the signature
  · next hnone =>
    cases hrecord
    have hunknown := Signature.find?_eq_none_iff.1 hnone
    rw [hunknown, NameTable.intern, show x.symbols.idOf? node.symbol = none from
      (h.idOf?_eq _).trans hunknown]
    refine ⟨?_, fun name => ?_, ?_, h.wildcard_eq⟩
    · rw [Array.toList_push, h.names_eq]
      exact (Numbering.toList_insert_of_new hunknown).symm
    · have hinsert := Numbering.idOf?_insert_of_new hunknown name
      rw [show sig.names.size = x.symbols.names.size from h.size_eq.symm,
        show sig.names.idOf? name = x.idOf? name from (h.idOf?_eq name).symm] at hinsert
      exact Std.TreeMap.getElem?_insert.trans hinsert.symm
    · exact congrArg (·.push node.arity) h.arities_eq
  · next s hs =>
    rw [Signature.idOf?_of_find? hs]
    split at hrecord
    · cases hrecord
      exact h
    · cases hrecord

/-- So is a whole pattern that it accepts. -/
theorem Records.recordAll (h : x.Records sig) {p : Tree} (hregister : sig.register p = .ok sig') :
    (x.recordAll p).Records sig' := by
  rw [Lexicon.recordAll, Enumeration.foldl_eq_foldl_toList, toList_walk]
  rw [Signature.register] at hregister
  generalize p.preOrder = nodes at hregister
  induction nodes generalizing x sig with
  | nil =>
    cases hregister
    exact h
  | cons node nodes ih =>
    obtain ⟨mid, hmid, hrest⟩ := foldlM_cons_eq_ok_iff.1 hregister
    exact ih (h.recordNode hmid) hrest

/-- Registering a pattern in a lexicon is registering it in the signature. -/
theorem register_records (h : x.Records sig) (p : Tree) :
    (∃ e, sig.register p = .error e ∧ x.register p = (.error e, x)) ∨
    ∃ sig' x', sig.register p = .ok sig' ∧ x.register p = (.ok (), x') ∧ x'.Records sig' := by
  rw [register]
  obtain ⟨e, hregister, hcheck⟩ | ⟨sig', seen, hregister, hcheck⟩ := h.check p
  · exact Or.inl ⟨e, hregister, by rw [hcheck]⟩
  · exact Or.inr ⟨sig', x.recordAll p, hregister, by rw [hcheck], h.recordAll hregister⟩

/-- What becomes of a pattern: it is recorded if all its nodes are as expected, and refused for the
first that is not. -/
theorem Records.register_cases (h : x.Records sig) (p : Tree) :
    (∃ sig' x', x.register p = (.ok (), x') ∧ x'.Records sig' ∧
      sig.Recorded p.preOrder sig' ∧ sig.Extends sig' ∧ sig.AllExpected p.preOrder p.preOrder) ∨
    ∃ before node after expected, sig.FirstWrong p.preOrder before node after expected ∧
      x.register p = (.error (.arityConflict node.symbol expected node.arity), x) := by
  obtain ⟨sig', hregister, hrecorded, hall⟩ | ⟨before, node, after, n, hwrong, herror⟩ :=
    sig.foldlM_record_cases p.preOrder
  -- the stores and the signature cannot end differently
  · obtain ⟨e, herror, -⟩ | ⟨sig'', x', hregister', haccepted, hx'⟩ := register_records h p
    · rw [Signature.register, hregister] at herror
      cases herror
    · obtain rfl : sig' = sig'' := Except.ok.inj (hregister.symm.trans hregister')
      exact Or.inl ⟨sig', x', haccepted, hx', hrecorded, (Signature.register_eq_ok hregister).1, hall⟩
  · obtain ⟨e, herror', hrefused⟩ | ⟨sig', -, hregister, -⟩ := register_records h p
    · obtain rfl := Except.error.inj (herror.symm.trans herror')
      exact Or.inr ⟨before, node, after, n, hwrong, hrefused⟩
    · rw [Signature.register, herror] at hregister
      cases hregister

-- ---------------------------------------------------------------------------
-- Any calls
-- ---------------------------------------------------------------------------

/-- The lexicon after the patterns have been handed to it, one after the other. -/
def after (calls : List Tree) : Lexicon := (empty.registerAll calls).2

/-- After any calls a lexicon records a signature, and it still knows all symbols that it knew. -/
theorem Records.registerAll (h : x.Records sig) (calls : List Tree) :
    ∃ sig', (x.registerAll calls).2.Records sig' ∧ sig.Extends sig' := by
  induction calls generalizing x sig with
  | nil => exact ⟨sig, h, .refl sig⟩
  | cons p calls ih =>
    rw [Lexicon.registerAll]
    obtain ⟨e, -, hrefused⟩ | ⟨mid, x', hregister, haccepted, hmid⟩ := register_records h p
    · rw [hrefused]
      exact ih h
    · rw [haccepted]
      obtain ⟨sig', hrecords, hextends⟩ := ih hmid
      exact ⟨sig', hrecords, (Signature.register_eq_ok hregister).1.trans hextends⟩

/-- After any calls the stores record some signature. -/
theorem exists_records (calls : List Tree) : ∃ sig, (after calls).Records sig := by
  obtain ⟨sig, hrecords, -⟩ := records_empty.registerAll calls
  exact ⟨sig, hrecords⟩

/-- The number of children that any of the nodes has to have if its symbol is the given one: the
arity of the symbol or, if it is unknown, the number of children of its first node. -/
def expected? (x : Lexicon) (nodes : List Tree) (name : String) : Option Nat :=
  match x.arityOfName name with
  | .ok (some arity) => some arity
  | _ => firstCount nodes name

/-- The symbols of the nodes that are unknown, in the order of their first appearance, each with its
number of children. -/
def newSymbols (x : Lexicon) (nodes : List Tree) : List (String × Nat) :=
  ((nodes.filter fun node => x.idOf? node.symbol = none).map
    fun node => (node.symbol, node.arity)).eraseDups

/-- Stores and signature expect the same arity of a symbol. -/
theorem Records.expected?_eq (h : x.Records sig) (nodes : List Tree) (name : String) :
    x.expected? nodes name = sig.expected? nodes name := by
  rw [expected?, h.arityOfName_eq, Signature.expected?]
  cases sig.arityOf? name <;> rfl

/-- The same symbols are new to both. -/
theorem Records.newSymbols_eq (h : x.Records sig) (nodes : List Tree) :
    x.newSymbols nodes = sig.newSymbols nodes := by
  simp only [newSymbols, Signature.newSymbols, h.idOf?_eq]

/-- The two directions of the stores agree. -/
theorem Records.idOf?_iff (h : x.Records sig) {id : SymbolId} :
    x.idOf? name = some id ↔ x.symbols.name? id = some name := by
  rw [h.idOf?_eq, h.name?_eq]
  exact Numbering.idOf?_eq_some_iff

/-- A pattern is accepted if each of its nodes has as many children as its symbol has arity and as
the other nodes with that symbol have. Then the unknown symbols get the next numbers, with their child
counts as arities, and the known ones keep theirs. Otherwise nothing changes, and the error names the
first node in pre-order with another number of children than the arity of its symbol or, if that is
unknown, than the first node of the pattern with that symbol. -/
theorem register_accepts_consistent_patterns (calls : List Tree) (p : Tree) :
    let x := after calls
    ((x.register p).1 = .ok () ↔
      (∀ node ∈ p.preOrder, ∀ arity, x.arityOfName node.symbol = .ok (some arity) →
        node.arity = arity) ∧
      ∀ a ∈ p.preOrder, ∀ b ∈ p.preOrder, a.symbol = b.symbol → a.arity = b.arity) ∧
    (∀ x', x.register p = (.ok (), x') →
      x'.symbols.names.toList =
        x.symbols.names.toList ++ (x.newSymbols p.preOrder).map Prod.fst ∧
      x'.arities.toList = x.arities.toList ++ (x.newSymbols p.preOrder).map Prod.snd ∧
      (∀ name id, x'.idOf? name = some id ↔ x'.symbols.name? id = some name) ∧
      ∀ name id, x.idOf? name = some id → x'.idOf? name = some id) ∧
    ∀ e x', x.register p = (.error e, x') →
      x' = x ∧ ∃ before node after expected, p.preOrder = before ++ node :: after ∧
        (∀ m ∈ before, x.expected? p.preOrder m.symbol = some m.arity) ∧
        x.expected? p.preOrder node.symbol = some expected ∧ expected ≠ node.arity ∧
        e = .arityConflict node.symbol expected node.arity := by
  intro x
  obtain ⟨sig, h⟩ : ∃ sig, x.Records sig := exists_records calls
  have haccepts : (∀ node ∈ p.preOrder, ∀ arity, x.arityOfName node.symbol = .ok (some arity) →
      node.arity = arity) ∧ Consistent p.preOrder ↔ sig.AllExpected p.preOrder p.preOrder := by
    simp only [h.arityOfName_eq, Except.ok.injEq, Signature.allExpected_iff]
  simp only [h.expected?_eq, h.newSymbols_eq]
  -- the signature beside the stores either records the whole pattern or names the first wrong node
  obtain ⟨sig', x', hregister, h', hrecorded, hextends, hall⟩ |
    ⟨before, node, after, expected, hwrong, hregister⟩ := h.register_cases p
  · refine ⟨?_, ?_, ?_⟩
    · rw [hregister]
      exact iff_of_true rfl (haccepts.2 hall)
    · intro x'' hx''
      obtain rfl : x' = x'' := congrArg Prod.snd (hregister.symm.trans hx'')
      refine ⟨?_, ?_, fun name id => h'.idOf?_iff, fun name id hid => ?_⟩
      · rw [h'.names_eq, h.names_eq, hrecorded.names_eq]
      · rw [h'.arities_eq, h.arities_eq, hrecorded.arities_eq]
      · rw [h.idOf?_eq] at hid
        obtain ⟨s, hs, rfl⟩ := Signature.exists_find?_of_idOf? hid
        rw [h'.idOf?_eq, Signature.idOf?_of_find? (hextends name s hs)]
    · intro e x'' hx''
      rw [hregister] at hx''
      cases hx''
  · refine ⟨?_, ?_, ?_⟩
    · rw [hregister]
      exact iff_of_false (by simp) fun hall => hwrong.not_allExpected (haccepts.1 hall)
    · intro x'' hx''
      rw [hregister] at hx''
      cases hx''
    · intro e x'' hx''
      rw [hregister] at hx''
      cases hx''
      exact ⟨rfl, before, node, after, expected, hwrong.split, hwrong.allExpected,
        hwrong.expected_eq, hwrong.wrong, rfl⟩

end Lexicon

end TreePattern
