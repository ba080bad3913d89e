import TreePattern.MatchSets.Ledger.Closing
import TreePattern.Proofs.MatchSets.Limits
import TreePattern.Proofs.Numbering
import TreePattern.Proofs.Signature.Symbols
import Mathlib.Data.List.Nodup

/-!
# A ledger records a table of match sets

A ledger that is filled set by set, with a look at the old ones before a set is entered during a
search and with none for the leaf states, holds what the table of match sets holds, under the same
numbers. The leaf states need no look because they are different: no two terminals share a number,
none has the wildcard's, and so their leaves are different members. From there on every pass of
the ledger is a pass over the table, and both searches end at the same moment, for the same reason
and with the same counters.

## Results

* `Ledger.Records.enter`      — entering a new set is inserting it.
* `Ledger.records_ofLeaves`   — the leaf states are all different.
* `Ledger.exists_round_follows` — a pass of the ledger is a pass over the table.
* `Ledger.close_reports`      — so is a search, whatever its limit.
-/

namespace TreePattern

namespace Ledger

/-- The ledger holds the sets of the table under their numbers. -/
structure Records (l : Ledger) (table : MatchSets) : Prop where
  toList_eq : l.sets.toList = table.toList
  idOf?_eq : ∀ set, l.idOf? set = table.idOf? set
  wildcard_eq : l.wildcard = table.wildcard

variable {l : Ledger} {table : MatchSets} {rule : MatchRule}

namespace Records

/-- A set is read by number as in the table. -/
theorem get?_eq (h : l.Records table) (state : StateId) : l.get? state = table.get? state := by
  rw [get?, ← Array.getElem?_toList, h.toList_eq, MatchSets.get?, Numbering.get?_eq_getElem?_toList]
  rfl

theorem size_eq (h : l.Records table) : l.size = table.size := by
  rw [size, ← Array.length_toList, h.toList_eq]
  exact table.sets.length_toList

theorem states_eq (h : l.Records table) : l.states = table.states := by
  rw [states, MatchSets.states, h.toList_eq, funext h.idOf?_eq]

theorem contains_eq (h : l.Records table) (set : List MemberId) :
    l.contains set = table.contains set := by
  rw [contains, h.idOf?_eq]
  rfl

/-- A new set enters both stores under the number that it gets. -/
theorem enter (h : l.Records table) {set : List MemberId} (hnew : ¬ table.contains set) :
    (l.enter set).Records (table.insert set) where
  toList_eq := by
    rw [MatchSets.toList_insert, if_neg hnew, ← h.toList_eq]
    exact Array.toList_push
  idOf?_eq other := by
    have hnone : table.sets.idOf? set = none := Option.not_isSome_iff_eq_none.1 hnew
    have hinsert := Numbering.idOf?_insert_of_new hnone other
    rw [show table.sets.size = l.sets.size from h.size_eq.symm,
      show table.sets.idOf? other = l.idOf? other from (h.idOf?_eq other).symm] at hinsert
    exact Std.TreeMap.getElem?_insert.trans hinsert.symm
  wildcard_eq := h.wildcard_eq

/-- Entering new sets without a look is inserting them. -/
theorem foldl_enter (h : l.Records table) {sets : List (List MemberId)} (hnodup : sets.Nodup)
    (hfresh : ∀ set ∈ sets, set ∉ table.toList) :
    (sets.foldl Ledger.enter l).Records (sets.foldl MatchSets.insert table) := by
  induction sets generalizing l table with
  | nil => exact h
  | cons set sets ih =>
    obtain ⟨hset, hnodup⟩ := List.nodup_cons.1 hnodup
    have hnew := hfresh set List.mem_cons_self
    refine ih (h.enter fun hknown => hnew (MatchSets.contains_iff.1 hknown)) hnodup ?_
    intro other hother hmem
    rcases MatchSets.mem_insert_iff.1 hmem with hold | rfl
    · exact hfresh other (List.mem_cons_of_mem _ hother) hold
    · exact hset hother

end Records

-- ---------------------------------------------------------------------------
-- The leaf states
-- ---------------------------------------------------------------------------

/-- The leaves of the terminals that are members, by name. -/
def leaves (sig : Signature) (f : Forest) : List MemberId :=
  sig.terminals.filterMap fun t => f.leaf? t.id

/-- A terminal is not the wildcard, and so its leaf is not either. -/
theorem ne_wildcard_of_mem_leaves {sig : Signature} {f : Forest} {leaf : MemberId}
    (h : leaf ∈ leaves sig f) : leaf ≠ f.wildcard := by
  obtain ⟨t, ht, hleaf⟩ := List.mem_filterMap.1 h
  obtain ⟨hfind, hname, -⟩ := Signature.mem_terminals_iff.1 ht
  rintro rfl
  -- two symbols of one leaf have one number, and the wildcard's number names the wildcard
  have hnode := Numbering.idOf?_inj hleaf f.idOf?_wildcard
  have hid : t.id = Symbol.wildcardId := congrArg Node.symbol hnode
  have heq := Signature.eq_of_id_eq hfind sig.find?_wildcardSymbol hid
  exact hname (congrArg Symbol.name heq)

/-- Different terminals have different leaves. -/
theorem nodup_leaves (sig : Signature) (f : Forest) : (leaves sig f).Nodup := by
  refine List.Pairwise.filterMap _ ?_ (sig.pairwise_byName.filter Symbol.isTerminal)
  rintro s t hne i hi _ hj rfl
  exact hne (congrArg Node.symbol (Numbering.idOf?_inj hi hj))

/-- Sorting two different members yields the set of the two. -/
theorem leafPair_eq_leafSet {wildcard leaf : MemberId} (h : leaf ≠ wildcard) :
    leafPair wildcard leaf = MatchSets.leafSet wildcard leaf := by
  have hperm : (leafPair wildcard leaf).Perm [wildcard, leaf] := List.mergeSort_perm ..
  have hsorted : (leafPair wildcard leaf).Pairwise fun i j => decide (i ≤ j) = true :=
    List.pairwise_mergeSort (fun i j k hij hjk => by
        rw [decide_eq_true_eq] at hij hjk ⊢
        exact Nat.le_trans hij hjk)
      (fun i j => by
        rw [Bool.or_eq_true, decide_eq_true_eq, decide_eq_true_eq]
        exact Nat.le_total i.val j.val) _
  have hnodup : (leafPair wildcard leaf).Nodup :=
    hperm.nodup_iff.2 (List.nodup_cons.2 ⟨by simpa using h.symm, List.nodup_singleton _⟩)
  have hascending : (leafPair wildcard leaf).Pairwise (· < ·) :=
    hsorted.imp₂ (fun i j hle hne => Nat.lt_of_le_of_ne (of_decide_eq_true hle)
      fun heq => hne (Index.ext_iff.2 heq)) hnodup
  -- both are ascending, and both hold just the wildcard and the leaf
  refine eq_of_ascending hascending (Index.sorted_pairwise _) fun i => ?_
  rw [hperm.mem_iff, MatchSets.leafSet, Index.mem_sorted]

theorem map_leafPair_leaves (sig : Signature) (f : Forest) :
    (leaves sig f).map (leafPair f.wildcard) = MatchSets.leafSets sig f :=
  List.map_congr_left fun _ hleaf => leafPair_eq_leafSet (ne_wildcard_of_mem_leaves hleaf)

theorem mem_leafSet_self (wildcard leaf : MemberId) : leaf ∈ MatchSets.leafSet wildcard leaf :=
  Index.mem_sorted.2 (List.mem_cons_of_mem _ (List.mem_singleton_self leaf))

/-- No two leaf states are the same set. -/
theorem nodup_leafSets (sig : Signature) (f : Forest) : (MatchSets.leafSets sig f).Nodup := by
  refine (nodup_leaves sig f).map_on fun i hi j _ heq => ?_
  have hmem : i ∈ MatchSets.leafSet f.wildcard j := heq ▸ mem_leafSet_self f.wildcard i
  rw [MatchSets.leafSet, Index.mem_sorted, List.mem_cons, List.mem_singleton] at hmem
  exact hmem.resolve_left (ne_wildcard_of_mem_leaves hi)

/-- No leaf state is that of the wildcard. -/
theorem ne_singleton_of_mem_leafSets {sig : Signature} {f : Forest} {set : List MemberId}
    (h : set ∈ MatchSets.leafSets sig f) : set ≠ [f.wildcard] := by
  obtain ⟨leaf, hleaf, rfl⟩ := List.mem_map.1 h
  intro heq
  have hmem := mem_leafSet_self f.wildcard leaf
  rw [heq, List.mem_singleton] at hmem
  exact ne_wildcard_of_mem_leaves hleaf hmem

/-- The ledger of the wildcard alone records the table of the wildcard alone. -/
theorem records_ofWildcard (wildcard : MemberId) :
    (ofWildcard wildcard).Records (MatchSets.ofWildcard wildcard) where
  toList_eq := (MatchSets.toList_ofWildcard wildcard).symm
  idOf?_eq set := by
    have hinsert := Numbering.idOf?_insert_of_new (n := (Numbering.empty : Numbering .matchSet _))
      (a := [wildcard]) Std.TreeMap.getElem?_emptyc set
    exact Std.TreeMap.getElem?_insert.trans hinsert.symm
  wildcard_eq := rfl

/-- The leaf states are entered without a look, and are those of the table. -/
theorem records_ofLeaves (sig : Signature) (f : Forest) :
    (ofLeaves sig f).Records (MatchSets.ofLeaves sig f) := by
  rw [ofLeaves, ← leaves, map_leafPair_leaves, MatchSets.ofLeaves]
  refine (records_ofWildcard f.wildcard).foldl_enter (nodup_leafSets sig f) fun set hset hmem => ?_
  rw [MatchSets.toList_ofWildcard, List.mem_singleton] at hmem
  exact ne_singleton_of_mem_leafSets hset hmem

-- ---------------------------------------------------------------------------
-- A pass
-- ---------------------------------------------------------------------------

/-- A pass of a ledger and a pass over a table, which both began at `start`, at the same moment. -/
structure Round.Follows (start : MatchSets) (r : Round) (s : Sweep) : Prop where
  records : r.ledger.Records s.table
  keeps : start.sets.Extends s.table.sets
  added : s.table.size = start.size + r.added
  candidates : r.candidates = s.candidates

namespace Round

variable {start : MatchSets} {r : Round} {s : Sweep} {op : Symbol}

/-- Known states are read as the table has them. -/
theorem Follows.setsOf_eq (h : r.Follows start s) {digits : List Nat}
    {children : List (List MemberId)}
    (hchildren : List.Forall₂ (fun d set => start.sets.get? ⟨d⟩ = some set) digits children) :
    r.ledger.setsOf (digits.map Index.mk) = .ok children := by
  refine mapM_eq_ok_iff.2 (List.forall₂_map_left_iff.2 (hchildren.imp fun d set hget => ?_))
  rw [h.records.get?_eq, show s.table.get? ⟨d⟩ = some set from h.keeps _ _ hget, found]

/-- A visit enters what the sweep inserts, and counts it. -/
theorem Follows.visit (h : r.Follows start s) {digits : List Nat} {children : List (List MemberId)}
    (hchildren : List.Forall₂ (fun d set => start.sets.get? ⟨d⟩ = some set) digits children) :
    ∃ r', r.visit rule op (digits.map Index.mk) = .ok r' ∧
      r'.Follows start (rule.visit op s children) := by
  have hcandidates : ∀ tried, r.candidates + tried = s.candidates + tried := fun tried => by
    rw [h.candidates]
  rw [Round.visit, h.setsOf_eq hchildren, MatchRule.visit, h.records.wildcard_eq]
  set parents := rule.parents s.table.wildcard op.id children
  -- the set has a number in both stores or in none of them
  by_cases hknown : s.table.contains parents.members.toList
  · refine ⟨_, if_pos ((h.records.contains_eq _).trans hknown), ?_⟩
    rw [MatchSets.insert_of_contains hknown]
    exact ⟨h.records, h.keeps, h.added, hcandidates _⟩
  · have hnone : s.table.sets.idOf? parents.members.toList = none :=
      Option.not_isSome_iff_eq_none.1 hknown
    refine ⟨_, if_neg (by rwa [h.records.contains_eq]), h.records.enter hknown,
      h.keeps.trans (Numbering.extends_insert _ _), ?_, hcandidates _⟩
    have hsize : (s.table.insert parents.members.toList).size = s.table.size + 1 :=
      Numbering.size_insert_of_idOf?_eq_none hnone
    rw [hsize, h.added, Nat.add_assoc]

/-- The tuples of numbers stand beside the tuples of their sets. -/
theorem forall₂_tuples (start : MatchSets) (n : Nat) :
    List.Forall₂ (List.Forall₂ fun d set => start.sets.get? ⟨d⟩ = some set)
      (Enumeration.toList (TupleCounter.ofBase start.size n))
      (Enumeration.toList (Choices.power start.sets.values n)) := by
  rw [TupleCounter.toList_ofBase, Choices.tuples_eq_nestedLoops, Choices.power,
    Choices.toList_ofSlots]
  refine Choices.forall₂_nestedLoops (forall₂_replicate ?_ n)
  refine List.forall₂_iff_get.2 ⟨?_, fun d hd hd' => ?_⟩
  · rw [List.length_range]
    exact (Numbering.length_toList start.sets).symm
  · rw [List.get_eq_getElem, List.get_eq_getElem, List.getElem_range, Numbering.get?]
    exact (Array.getElem?_eq_getElem hd').trans rfl

/-- The tuples of the first states are the tuples of the sets that the table had at the start. -/
theorem Follows.visitAll (h : r.Follows start s) :
    ∃ r', r.visitAll rule start.size op = .ok r' ∧
      r'.Follows start (rule.sweepOperator start.sets.values s op) := by
  rw [Round.visitAll, Enumeration.foldlM_eq_foldlM_toList, MatchRule.sweepOperator,
    Enumeration.foldl_eq_foldl_toList]
  exact exists_foldlM_of_forall₂ (forall₂_tuples start op.arity)
    (fun _ _ h _ _ hchildren => h.visit hchildren) h

end Round

/-- A pass of the ledger finds what a pass over the table finds, in the same order. -/
theorem exists_round_follows (rule : MatchRule) (h : l.Records table) :
    ∃ r, l.round rule = .ok r ∧ r.Follows table (rule.sweep table) := by
  have hstart : Round.Follows table ⟨l, 0, 0⟩ ⟨table, 0⟩ := ⟨h, .refl _, rfl, rfl⟩
  rw [round, h.size_eq]
  refine exists_foldlM_of_forall₂ (R := Eq) (List.forall₂_refl _) ?_ hstart
  rintro r s hrs op _ rfl
  exact hrs.visitAll

/-- A whole pass is a sweep. -/
theorem follows_of_round (h : l.Records table) {r : Round} (hr : l.round rule = .ok r) :
    r.Follows table (rule.sweep table) := by
  obtain ⟨r', hr', hfollows⟩ := exists_round_follows rule h
  rwa [Except.ok.inj (hr.symm.trans hr')]

-- ---------------------------------------------------------------------------
-- A search
-- ---------------------------------------------------------------------------

/-- Closing a ledger and closing a table had the same outcome. -/
structure Closing.Reports (c : Closing) (d : Closure) : Prop where
  records : c.ledger.Records d.table
  passes_eq : c.passes = d.passes
  complete_eq : c.complete = d.complete

/-- The passes that are left after `done` of them; `none` without a limit. -/
def passesLeft (limit done : Nat) : Option Nat := if limit = 0 then none else some (limit - done)

theorem passesLeft_eq_zero_iff {limit done : Nat} :
    passesLeft limit done = some 0 ↔ 0 < limit ∧ limit ≤ done := by
  rw [passesLeft]
  split
  · next h => simp [h]
  · next h =>
    rw [Option.some.injEq]
    omega

/-- After one more pass there is one less to be made. -/
theorem passesLeft_succ (limit done : Nat) :
    passesLeft limit (done + 1) = (passesLeft limit done).map (· - 1) := by
  rw [passesLeft, passesLeft]
  split
  · rfl
  · rw [Option.map_some, Nat.sub_add_eq]

/-- What a pass of the ledger reports is what a pass over the table reports. -/
theorem pass_eq_passOver (h : l.Records table) {r : Round} (hr : l.round rule = .ok r) :
    (⟨r.added, r.ledger.size, r.candidates⟩ : Pass) = rule.passOver table := by
  have hfollows := follows_of_round h hr
  rw [MatchRule.passOver, hfollows.added, Nat.add_sub_cancel_left, hfollows.records.size_eq,
    hfollows.added, hfollows.candidates]

/-- The search on a ledger goes through the tables that the search on a table goes through. -/
theorem closeFrom_reports (rule : MatchRule) (limit done : Nat) (l : Ledger) :
    ∀ table : MatchSets, l.Records table → ∃ c, l.closeFrom rule limit done = .ok c ∧
      c.Reports (rule.closeWithin (passesLeft limit done) table) := by
  fun_induction closeFrom rule limit done l with
  -- the passes have run out
  | case1 done l hlimit =>
    intro table h
    rw [MatchRule.closeWithin, if_pos (passesLeft_eq_zero_iff.2 hlimit)]
    exact ⟨_, rfl, h, rfl, rfl⟩
  | case2 done l _ e herror =>
    obtain ⟨r, hr, -⟩ := exists_round rule l
    rw [hr] at herror
    exact absurd herror (by simp)
  -- a pass that enters nothing is a sweep that finds nothing
  | case3 done l hlimit r hround pass hadded =>
    intro table h
    have hpass : pass = rule.passOver table := pass_eq_passOver h hround
    rw [MatchRule.closeWithin_of_added_eq_zero (mt passesLeft_eq_zero_iff.1 hlimit)
      (hpass ▸ hadded), ← hpass]
    exact ⟨_, rfl, (follows_of_round h hround).records, rfl, rfl⟩
  | case4 done l hlimit r hround pass hadded ih =>
    intro table h
    have hpass : pass = rule.passOver table := pass_eq_passOver h hround
    obtain ⟨c, hc, hrest⟩ := ih _ (follows_of_round h hround).records
    rw [MatchRule.closeWithin_of_added_ne_zero (mt passesLeft_eq_zero_iff.1 hlimit)
      (hpass ▸ hadded), ← hpass, ← passesLeft_succ]
    exact ⟨{ c with passes := pass :: c.passes }, by rw [hc]; rfl, hrest.records,
      congrArg (pass :: ·) hrest.passes_eq, hrest.complete_eq⟩

/-- Closing a ledger that records a table is closing the table: neither fails, and both make the
same passes, find the same sets and end in the same way. -/
theorem close_reports (rule : MatchRule) (limit : Nat) (h : l.Records table) :
    ∃ c, l.close rule limit = .ok c ∧ c.Reports (rule.close limit table) :=
  closeFrom_reports rule limit 0 l table h

end Ledger

end TreePattern
