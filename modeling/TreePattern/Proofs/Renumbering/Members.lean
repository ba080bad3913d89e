import TreePattern.Proofs.BuiltFrom
import TreePattern.Proofs.Signature.Vocabulary

/-!
# Members of two forests

Two lists of patterns with the same subpatterns have forests that hold the same trees, under
different numbers. `SameTree` relates the numbers of a tree in both forests, `SameTrees` the
sets that hold the same trees. Each is one to one, so a set on one side determines the set on
the other. What the rules compute from related data is related: the members found over related
slots, and the relevant parts of related sets.

## Results

* `MatchRule.SameTree.lookup?`          — the same tree has the same children.
* `MatchRule.biUnique_sameTrees`        — related sets determine each other.
* `MatchRule.SameTrees.exists_perm`     — related sets hold the same trees, each once.
* `MatchRule.Agree.sameTrees_restrict`  — so are their relevant parts.
* `MatchRule.Agree.sameTrees_addParents` — related slots have related parents.
-/

namespace TreePattern

namespace MatchRule

/-- The rules are built from patterns that have the same subpatterns. -/
def Agree (rule rule' : MatchRule) : Prop :=
  ∃ P Q, rule.BuiltFrom P ∧ rule'.BuiltFrom Q ∧
    ∀ t, Tree.IsSubpattern P t ↔ Tree.IsSubpattern Q t

/-- The numbers of one tree in both forests. -/
def SameTree (rule rule' : MatchRule) (i j : MemberId) : Prop :=
  ∃ t, rule.forest.idOf? rule.signature t = some i ∧
    rule'.forest.idOf? rule'.signature t = some j

/-- A symbol of both signatures, under its two numbers. -/
structure SameSymbol (rule rule' : MatchRule) (s s' : Symbol) : Prop where
  same : s.Same s'
  found : rule.signature.find? s.name = some s
  found' : rule'.signature.find? s'.name = some s'

/-- Two ascending lists of members that are the same trees. -/
structure SameTrees (rule rule' : MatchRule) (s s' : List MemberId) : Prop where
  ascending : s.Pairwise (· < ·)
  ascending' : s'.Pairwise (· < ·)
  forth : ∀ i ∈ s, ∃ j ∈ s', rule.SameTree rule' i j
  back : ∀ j ∈ s', ∃ i ∈ s, rule.SameTree rule' i j

variable {rule rule' : MatchRule}

-- ---------------------------------------------------------------------------
-- The relation of members
-- ---------------------------------------------------------------------------

/-- Two rules agree in either order. -/
theorem Agree.symm (h : rule.Agree rule') : rule'.Agree rule := by
  obtain ⟨P, Q, hP, hQ, hsame⟩ := h
  exact ⟨Q, P, hQ, hP, fun t => (hsame t).symm⟩

theorem Agree.arityOf?_eq (h : rule.Agree rule') (name : String) :
    rule.signature.arityOf? name = rule'.signature.arityOf? name := by
  obtain ⟨P, Q, hP, hQ, hsame⟩ := h
  obtain ⟨sig, hsig, harity⟩ := Signature.exists_signature_of_same hsame hP.signature
  obtain rfl : sig = rule'.signature := Except.ok.inj (hsig.symm.trans hQ.signature)
  exact harity name

/-- A name belongs to a symbol of both signatures or of none. -/
theorem Agree.rel_find? (h : rule.Agree rule') (name : String) :
    Option.Rel (rule.SameSymbol rule') (rule.signature.find? name)
      (rule'.signature.find? name) := by
  have harity := h.arityOf?_eq name
  unfold Signature.arityOf? at harity
  cases hs : rule.signature.find? name with
  | none =>
    rw [hs, Option.map_none, eq_comm, Option.map_eq_none_iff] at harity
    rw [harity]
    exact .none
  | some s =>
    rw [hs, Option.map_some, eq_comm, Option.map_eq_some_iff] at harity
    obtain ⟨s', hs', harity⟩ := harity
    obtain ⟨rfl, -⟩ := Signature.find?_eq_some_iff.1 hs
    obtain ⟨hname, -⟩ := Signature.find?_eq_some_iff.1 hs'
    rw [hs']
    exact .some ⟨⟨hname.symm, harity.symm⟩, hs, hname.symm ▸ hs'⟩

theorem SameSymbol.symm {s s' : Symbol} (h : rule.SameSymbol rule' s s') :
    rule'.SameSymbol rule s' s :=
  ⟨⟨h.same.name.symm, h.same.arity.symm⟩, h.found', h.found⟩

theorem SameTree.symm {i j : MemberId} (h : rule.SameTree rule' i j) :
    rule'.SameTree rule j i := by
  obtain ⟨t, hi, hj⟩ := h
  exact ⟨t, hj, hi⟩

/-- A number on one side goes with one number on the other. -/
theorem biUnique_sameTree (rule rule' : MatchRule) : Relator.BiUnique (rule.SameTree rule') := by
  refine ⟨?_, ?_⟩
  · rintro i j k ⟨t, hi, hk⟩ ⟨u, hj, hk'⟩
    obtain rfl : t = u := Numbering.idOfTree?_inj hk hk'
    exact Option.some.inj (hi.symm.trans hj)
  · rintro i j k ⟨t, hi, hj⟩ ⟨u, hi', hk⟩
    obtain rfl : t = u := Numbering.idOfTree?_inj hi hi'
    exact Option.some.inj (hj.symm.trans hk)

/-- Only members stand for trees. -/
theorem SameTree.mem_members {i j : MemberId} (h : rule.SameTree rule' i j) :
    i ∈ rule.forest.members := by
  obtain ⟨t, hi, -⟩ := h
  exact Forest.mem_members_of_idOf? hi

/-- Every member of one forest is a member of the other. -/
theorem Agree.exists_sameTree (h : rule.Agree rule') {i : MemberId}
    (hi : i ∈ rule.forest.members) : ∃ j, rule.SameTree rule' i j := by
  obtain ⟨P, Q, hP, hQ, hsame⟩ := h
  obtain ⟨t, ht, horigin⟩ := Forest.exists_tree_of_build hP.forest hi
  obtain ⟨j, hj⟩ : ∃ j, rule'.forest.idOf? rule'.signature t = some j := by
    rcases (hsame t).1 horigin with rfl | ⟨q, hq, hmem⟩
    · exact ⟨_, Forest.idOf?_wildcard_tree ..⟩
    · exact Forest.idOf?_of_build hQ.forest hq hmem
  exact ⟨j, t, ht, hj⟩

/-- Both wildcards stand for the wildcard. -/
theorem sameTree_wildcard (rule rule' : MatchRule) :
    rule.SameTree rule' rule.forest.wildcard rule'.forest.wildcard :=
  ⟨Tree.wildcard, Forest.idOf?_wildcard_tree .., Forest.idOf?_wildcard_tree ..⟩

/-- In both forests the same tree has a root of the same name and the same children. -/
theorem SameTree.lookup? {i j : MemberId} (h : rule.SameTree rule' i j) {s s' : Symbol}
    (hs : rule.SameSymbol rule' s s') {cs : List MemberId}
    (hi : rule.forest.lookup? s.id cs = some i) :
    ∃ cs', rule'.forest.lookup? s'.id cs' = some j ∧
      List.Forall₂ (rule.SameTree rule') cs cs' := by
  obtain ⟨⟨name, ts⟩, ht, ht'⟩ := h
  obtain ⟨symbol, children, hsymbol, hchildren, hlookup⟩ := Forest.idOf?_node_iff.1 ht
  obtain ⟨symbol', children', hsymbol', hchildren', hlookup'⟩ := Forest.idOf?_node_iff.1 ht'
  obtain ⟨rfl, rfl⟩ := Forest.lookup?_inj hi hlookup
  -- the name belongs to the symbol on the left, hence to the one on the right
  have hsname : name = s.name :=
    Numbering.idOf?_inj hsymbol (Signature.idOf?_of_find? hs.found)
  rw [hsname, hs.same.name, Signature.idOf?_of_find? hs.found'] at hsymbol'
  obtain rfl : s'.id = symbol' := Option.some.inj hsymbol'
  refine ⟨children', hlookup', ?_⟩
  exact forall₂_trans_of_mem hchildren.flip hchildren' fun c _ t c' hc hc' => ⟨t, hc, hc'⟩

-- ---------------------------------------------------------------------------
-- The relation of sets
-- ---------------------------------------------------------------------------

theorem SameTrees.symm {s s' : List MemberId} (h : rule.SameTrees rule' s s') :
    rule'.SameTrees rule s' s := by
  refine ⟨h.ascending', h.ascending, ?_, ?_⟩
  · intro j hj
    obtain ⟨i, hi, hij⟩ := h.back j hj
    exact ⟨i, hi, hij.symm⟩
  · intro i hi
    obtain ⟨j, hj, hij⟩ := h.forth i hi
    exact ⟨j, hj, hij.symm⟩

/-- Members for the same tree are in related sets together. -/
theorem SameTrees.mem_iff {s s' : List MemberId} (h : rule.SameTrees rule' s s')
    {i j : MemberId} (hij : rule.SameTree rule' i j) : i ∈ s ↔ j ∈ s' := by
  constructor
  · intro hi
    obtain ⟨k, hk, hik⟩ := h.forth i hi
    rwa [(biUnique_sameTree rule rule').2 hij hik]
  · intro hj
    obtain ⟨k, hk, hkj⟩ := h.back j hj
    rwa [(biUnique_sameTree rule rule').1 hij hkj]

/-- Ascending lists of members are related if each member belongs to one list just as its
counterpart belongs to the other. -/
theorem Agree.sameTrees_of_mem_iff (h : rule.Agree rule') {s s' : List MemberId}
    (hs : s.Pairwise (· < ·)) (hs' : s'.Pairwise (· < ·))
    (hmem : ∀ i ∈ s, i ∈ rule.forest.members) (hmem' : ∀ j ∈ s', j ∈ rule'.forest.members)
    (hiff : ∀ i j, rule.SameTree rule' i j → (i ∈ s ↔ j ∈ s')) : rule.SameTrees rule' s s' := by
  refine ⟨hs, hs', ?_, ?_⟩
  · intro i hi
    obtain ⟨j, hij⟩ := h.exists_sameTree (hmem i hi)
    exact ⟨j, (hiff i j hij).1 hi, hij⟩
  · intro j hj
    obtain ⟨i, hji⟩ := h.symm.exists_sameTree (hmem' j hj)
    exact ⟨i, (hiff i j hji.symm).2 hj, hji.symm⟩

/-- A set on one side goes with one set on the other. -/
theorem biUnique_sameTrees (rule rule' : MatchRule) :
    Relator.BiUnique (rule.SameTrees rule') := by
  have hright : ∀ {rule rule' : MatchRule} {s t u : List MemberId},
      rule.SameTrees rule' s t → rule.SameTrees rule' s u → t = u := by
    intro rule rule' s t u ht hu
    -- an ascending list is known by its members
    refine eq_of_ascending ht.ascending' hu.ascending' ?_
    intro j
    constructor
    · intro hj
      obtain ⟨i, hi, hij⟩ := ht.back j hj
      exact (hu.mem_iff hij).1 hi
    · intro hj
      obtain ⟨i, hi, hij⟩ := hu.back j hj
      exact (ht.mem_iff hij).1 hi
  refine ⟨?_, ?_⟩
  · intro s t u hs ht
    exact hright hs.symm ht.symm
  · intro s t u ht hu
    exact hright ht hu

/-- An ascending list has no repetition. -/
theorem nodup_of_ascending {s : List MemberId} (h : s.Pairwise (· < ·)) : s.Nodup := by
  refine h.imp ?_
  intro i j hlt heq
  rw [heq] at hlt
  exact Nat.lt_irrefl _ hlt

/-- The counterparts of a set, in its own order, are a rearrangement of the related set. -/
theorem SameTrees.exists_perm {s s' : List MemberId} (h : rule.SameTrees rule' s s') :
    ∃ t, List.Forall₂ (rule.SameTree rule') s t ∧ t.Perm s' := by
  -- take the partner of each member; these are all of the other side, though in another order
  obtain ⟨t, hst, -⟩ : ∃ t, List.Forall₂ (rule.SameTree rule') s t ∧
      List.Forall₂ (fun _ _ => True) t s := by
    refine exists_between (List.forall₂_same.2 ?_)
    intro i hi
    obtain ⟨j, -, hij⟩ := h.forth i hi
    exact ⟨j, hij, trivial⟩
  have hnodup : t.Nodup :=
    (List.rel_nodup (biUnique_sameTree rule rule') hst).1 (nodup_of_ascending h.ascending)
  refine ⟨t, hst, (List.perm_ext_iff_of_nodup hnodup (nodup_of_ascending h.ascending')).2 ?_⟩
  intro j
  constructor
  · intro hj
    obtain ⟨i, hi, hij⟩ := exists_of_mem_right hst hj
    exact (h.mem_iff hij).1 hi
  · intro hj
    obtain ⟨i, hi, hij⟩ := h.back j hj
    obtain ⟨k, hk, hik⟩ := exists_of_mem_left hst hi
    rwa [(biUnique_sameTree rule rule').2 hij hik]

/-- Related sets have the same size. -/
theorem SameTrees.length_eq {s s' : List MemberId} (h : rule.SameTrees rule' s s') :
    s.length = s'.length := by
  obtain ⟨t, hst, hperm⟩ := h.exists_perm
  rw [hst.length_eq, hperm.length_eq]

/-- The forests have as many members. -/
theorem Agree.size_forest_eq (h : rule.Agree rule') : rule.forest.size = rule'.forest.size := by
  have hmembers : rule.SameTrees rule' rule.forest.members rule'.forest.members := by
    refine h.sameTrees_of_mem_iff (Index.pairwise_range ..) (Index.pairwise_range ..)
      (fun _ hi => hi) (fun _ hj => hj) ?_
    intro i j hij
    exact iff_of_true hij.mem_members hij.symm.mem_members
  have hlength : ∀ f : Forest, f.members.length = f.size := fun f => Index.length_range ..
  rw [← hlength, ← hlength, hmembers.length_eq]

-- ---------------------------------------------------------------------------
-- Relevant parts
-- ---------------------------------------------------------------------------

/-- An operator of both signatures, under its two numbers. -/
structure SameOperator (rule rule' : MatchRule) (op op' : Symbol) : Prop where
  same : op.Same op'
  mem : op ∈ rule.signature.operators
  mem' : op' ∈ rule'.signature.operators

variable {op op' : Symbol}

theorem SameOperator.symbol (h : rule.SameOperator rule' op op') : rule.SameSymbol rule' op op' :=
  ⟨h.same, (Signature.mem_operators_iff.1 h.mem).1, (Signature.mem_operators_iff.1 h.mem').1⟩

theorem SameOperator.symm (h : rule.SameOperator rule' op op') :
    rule'.SameOperator rule op' op :=
  ⟨h.symbol.symm.same, h.mem', h.mem⟩

/-- Operators are listed by name, so in the same order on both sides. -/
theorem Agree.forall₂_operators (h : rule.Agree rule') :
    List.Forall₂ (rule.SameOperator rule') rule.signature.operators
      rule'.signature.operators := by
  refine forall₂_imp_of_mem (Signature.forall₂_operators h.arityOf?_eq) ?_
  intro op hop op' hop' hsame
  exact ⟨hsame, hop, hop'⟩

/-- Parents for the same tree have children for the same trees. -/
theorem SameOperator.lookup? (h : rule.SameOperator rule' op op') {i j : MemberId}
    (hij : rule.SameTree rule' i j) {cs : List MemberId}
    (hi : rule.forest.lookup? op.id cs = some i) :
    ∃ cs', rule'.forest.lookup? op'.id cs' = some j ∧
      List.Forall₂ (rule.SameTree rule') cs cs' :=
  hij.lookup? h.symbol hi

/-- What is relevant in a slot on one side is relevant there on the other. -/
theorem Agree.exists_mem_childrenAt (h : rule.Agree rule') (hop : rule.SameOperator rule' op op')
    {k : Nat} {i : MemberId} (hi : i ∈ Relevance.childrenAt rule.forest op.id k) :
    ∃ j ∈ Relevance.childrenAt rule'.forest op'.id k, rule.SameTree rule' i j := by
  obtain ⟨p, cs, hp, hcs⟩ := Relevance.mem_childrenAt_iff.1 hi
  obtain ⟨p', hpp'⟩ := h.exists_sameTree (Forest.mem_members_of_lookup? hp)
  obtain ⟨cs', hp', hchildren⟩ := hop.lookup? hpp' hp
  obtain ⟨j, hcs', hij⟩ := exists_getElem?_of_forall₂ hchildren hcs
  exact ⟨j, Relevance.mem_childrenAt_iff.2 ⟨p', cs', hp', hcs'⟩, hij⟩

/-- The same trees stand in a child slot on both sides. -/
theorem Agree.sameTrees_childrenAt (h : rule.Agree rule') (hop : rule.SameOperator rule' op op')
    (k : Nat) : rule.SameTrees rule' (Index.sorted (Relevance.childrenAt rule.forest op.id k))
      (Index.sorted (Relevance.childrenAt rule'.forest op'.id k)) := by
  refine ⟨Index.sorted_pairwise _, Index.sorted_pairwise _, ?_, ?_⟩
  · intro i hi
    obtain ⟨j, hj, hij⟩ := h.exists_mem_childrenAt hop (Index.mem_sorted.1 hi)
    exact ⟨j, Index.mem_sorted.2 hj, hij⟩
  · intro j hj
    obtain ⟨i, hi, hji⟩ := h.symm.exists_mem_childrenAt hop.symm (Index.mem_sorted.1 hj)
    exact ⟨i, Index.mem_sorted.2 hi, hji.symm⟩

/-- Members for the same tree are relevant in the same slots. -/
theorem Agree.mem_childrenAt_iff (h : rule.Agree rule') (hop : rule.SameOperator rule' op op')
    {k : Nat} {i j : MemberId} (hij : rule.SameTree rule' i j) :
    i ∈ Relevance.childrenAt rule.forest op.id k ↔
      j ∈ Relevance.childrenAt rule'.forest op'.id k := by
  have hmem := (h.sameTrees_childrenAt hop k).mem_iff hij
  rwa [Index.mem_sorted, Index.mem_sorted] at hmem

/-- Related sets have related parts that are relevant in a slot. -/
theorem Agree.sameTrees_restrict (h : rule.Agree rule') (hop : rule.SameOperator rule' op op')
    {k : Nat} (hk : k < op.arity) {s s' : List MemberId} (hs : rule.SameTrees rule' s s') :
    rule.SameTrees rule' (rule.relevance.restrict op.id k s)
      (rule'.relevance.restrict op'.id k s') := by
  have hk' : k < op'.arity := hop.same.arity ▸ hk
  obtain ⟨P, Q, hP, hQ, -⟩ := id h
  refine h.sameTrees_of_mem_iff (Relevance.pairwise_restrict _ _ _ hs.ascending)
    (Relevance.pairwise_restrict _ _ _ hs.ascending') ?_ ?_ ?_
  · intro i hi
    obtain ⟨j, -, hij⟩ := hs.forth i ((Relevance.mem_restrict_iff hP.relevance hop.mem hk).1 hi).1
    exact hij.mem_members
  · intro j hj
    obtain ⟨i, -, hij⟩ := hs.back j ((Relevance.mem_restrict_iff hQ.relevance hop.mem' hk').1 hj).1
    exact hij.symm.mem_members
  · intro i j hij
    rw [Relevance.mem_restrict_iff hP.relevance hop.mem hk,
      Relevance.mem_restrict_iff hQ.relevance hop.mem' hk', hs.mem_iff hij,
      h.mem_childrenAt_iff hop hij]

-- ---------------------------------------------------------------------------
-- Parents
-- ---------------------------------------------------------------------------

/-- Slots whose elements are related sets, as arrays. -/
def SameSlot (rule rule' : MatchRule) (slot slot' : Array MemberId) : Prop :=
  rule.SameTrees rule' slot.toList slot'.toList

/-- A tree over related slots is found on both sides or on none. -/
theorem SameOperator.mem_addParents (hop : rule.SameOperator rule' op op')
    {slots slots' : List (Array MemberId)}
    (hslots : List.Forall₂ (rule.SameSlot rule') slots slots') {i j : MemberId}
    (hij : rule.SameTree rule' i j) {w w' : MemberId} (hw : rule.SameTree rule' w w')
    (hi : i ∈ (rule.forest.addParents op.id slots {w}).members.toList) :
    j ∈ (rule'.forest.addParents op'.id slots' {w'}).members.toList := by
  rw [Forest.mem_addParents_singleton_iff] at hi ⊢
  rcases hi with rfl | ⟨cs, hcs, hmem⟩
  · exact Or.inl ((biUnique_sameTree rule rule').2 hij hw)
  · obtain ⟨cs', hcs', hchildren⟩ := hop.lookup? hij hcs
    refine Or.inr ⟨cs', hcs', ?_⟩
    -- each child on the right is for the same tree as one that was found on the left
    have hfound : List.Forall₂ (fun c' slot => ∃ c, rule.SameTree rule' c c' ∧ c ∈ slot.toList)
        cs' slots :=
      forall₂_trans_of_mem hchildren.flip hmem fun c' _ c slot hc hslot =>
        ⟨c, hc, Array.mem_toList_iff.2 hslot⟩
    refine forall₂_trans_of_mem hfound hslots ?_
    intro c' _ slot slot' hc' hslot
    obtain ⟨c, hc, hmem⟩ := hc'
    exact Array.mem_toList_iff.1 ((SameTrees.mem_iff hslot hc).1 hmem)

theorem SameSlot.symm {slot slot' : Array MemberId} (h : rule.SameSlot rule' slot slot') :
    rule'.SameSlot rule slot' slot :=
  SameTrees.symm h

/-- The parents that are found are members. -/
theorem mem_members_of_mem_addParents {slots : List (Array MemberId)} {w i : MemberId}
    (hw : w ∈ rule.forest.members)
    (hi : i ∈ (rule.forest.addParents op.id slots {w}).members.toList) :
    i ∈ rule.forest.members := by
  rcases Forest.mem_addParents_singleton_iff.1 hi with rfl | ⟨cs, hcs, -⟩
  · exact hw
  · exact Forest.mem_members_of_lookup? hcs

/-- Related slots have related parents, found by the same number of look-ups. -/
theorem Agree.sameTrees_addParents (h : rule.Agree rule') (hop : rule.SameOperator rule' op op')
    {slots slots' : List (Array MemberId)}
    (hslots : List.Forall₂ (rule.SameSlot rule') slots slots') {w w' : MemberId}
    (hw : rule.SameTree rule' w w') :
    rule.SameTrees rule' (rule.forest.addParents op.id slots {w}).members.toList
        (rule'.forest.addParents op'.id slots' {w'}).members.toList ∧
      (rule.forest.addParents op.id slots {w}).tried =
        (rule'.forest.addParents op'.id slots' {w'}).tried := by
  refine ⟨?_, ?_⟩
  · refine h.sameTrees_of_mem_iff (Std.TreeSet.ordered_toList.imp Index.compare_eq_lt.1)
      (Std.TreeSet.ordered_toList.imp Index.compare_eq_lt.1) ?_ ?_ ?_
    · intro i hi
      exact mem_members_of_mem_addParents hw.mem_members hi
    · intro j hj
      exact mem_members_of_mem_addParents hw.symm.mem_members hj
    · intro i j hij
      -- the same in the other direction
      have hback : List.Forall₂ (rule'.SameSlot rule) slots' slots :=
        (hslots.imp fun _ _ hs => hs.symm).flip
      exact ⟨hop.mem_addParents hslots hij hw,
        hop.symm.mem_addParents hback hij.symm hw.symm⟩
  · rw [Forest.tried_addParents, Forest.tried_addParents]
    refine congrArg MixedRadix.volume (map_eq_of_forall₂ hslots ?_)
    intro slot slot' hslot
    rw [← Array.length_toList, ← Array.length_toList]
    exact SameTrees.length_eq hslot

end MatchRule

end TreePattern
