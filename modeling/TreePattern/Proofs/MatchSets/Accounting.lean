import TreePattern.MatchSets.Ledger.Search
import TreePattern.Proofs.Forest.Parents
import TreePattern.Proofs.MatchSets.Ledger
import Mathlib.Logic.Function.Iterate

/-!
# The account of a search

The counters of a search run on through three loops over a ledger that grows meanwhile, and yet they
come out exactly: the search tries what the ledgers say on which its passes began. A pass reads the
sets that were there when it began, wherever it stands by then, so each operator has all tuples over
them tried, and the choices of all tuples together are a product of sums, one sum for each slot.
What a search has counted and reported after `n` passes is therefore known from its ledgers
(`searchAt`), and it remains to see which pass is the last. The same can be read off the passes
afterwards, and that is how an automaton reports its discovery.

## Results

* `Ledger.candidates_of_round` — how many choices a pass tries.
* `Ledger.pass_searchAt`       — the account after one more pass.
* `Ledger.run_searchAt`        — how a search goes on, and how it ends.
* `Ledger.search_keeps_account` — a whole search.
* `Ledger.search_of_ok`, `Ledger.search_of_next_eq` — what a finished search leaves, and that a search
  which resumes on it finds nothing more.
* `Ledger.search_reports`      — the log and the counters of a search are those of closing a table.
-/

namespace TreePattern

namespace Ledger

variable {rule : MatchRule} {start l : Ledger} {op : Symbol}

-- ---------------------------------------------------------------------------
-- The choices that a pass tries
-- ---------------------------------------------------------------------------

/-- The choices for `op`: in each slot one member out of the relevant part of any set. -/
def choicesFor (rule : MatchRule) (l : Ledger) (op : Symbol) : Nat :=
  MixedRadix.volume ((List.range op.arity).map fun k =>
    total (l.sets.toList.map fun set => (rule.relevance.restrict op.id k set).length))

def choices (rule : MatchRule) (l : Ledger) : Nat :=
  total (rule.signature.operators.map (choicesFor rule l))

/-- The choices at a node over children with the given sets. -/
def choicesOver (rule : MatchRule) (op : Symbol) (children : List (List MemberId)) : Nat :=
  MixedRadix.volume (children.mapIdx fun k set => (rule.relevance.restrict op.id k set).length)

/-- The number of choices that a visit tries is the product of the sizes of the relevant parts. -/
theorem tried_parents (rule : MatchRule) (wildcard : MemberId) (op : Symbol)
    (children : List (List MemberId)) :
    (rule.parents wildcard op.id children).tried = choicesOver rule op children := by
  rw [MatchRule.parents, Forest.tried_addParents, MatchRule.traces, choicesOver]
  refine congrArg MixedRadix.volume ?_
  rw [List.mapIdx_eq_zipIdx_map, List.mapIdx_eq_zipIdx_map, List.map_map]
  exact List.map_congr_left fun entry _ => List.size_toArray ..

/-- The tuples of sets, in the order in which a pass goes through them. -/
def setTuples (l : Ledger) (n : Nat) : List (List (List MemberId)) :=
  Choices.nestedLoops (List.replicate n l.sets)

/-- Counting up by a number for each element adds their total. -/
private theorem foldl_add {α : Type} (f : α → Nat) (l : List α) (n : Nat) :
    l.foldl (fun n a => n + f a) n = n + total (l.map f) := by
  induction l generalizing n with
  | nil => rfl
  | cons a l ih => rw [List.foldl_cons, ih, List.map_cons, total, total, List.sum_cons, Nat.add_assoc]

/-- Over all tuples of sets these products add up to one product, of sums. -/
theorem total_choicesOver (rule : MatchRule) (l : Ledger) (op : Symbol) :
    total ((l.setTuples op.arity).map (choicesOver rule op)) = choicesFor rule l op := by
  refine (Choices.total_volume_nestedLoops _ _).trans (congrArg MixedRadix.volume ?_)
  refine List.ext_getElem (by simp) fun k hk hk' => ?_
  simp

/-- The tuples of numbers stand beside the tuples of their sets. -/
theorem forall₂_setTuples (l : Ledger) (n : Nat) :
    List.Forall₂ (List.Forall₂ fun d set => l.get? ⟨d⟩ = some set)
      (Enumeration.toList (TupleCounter.ofBase l.size n)) (l.setTuples n) := by
  rw [TupleCounter.toList_ofBase, Choices.tuples_eq_nestedLoops]
  refine Choices.forall₂_nestedLoops (forall₂_replicate ?_ n)
  refine List.forall₂_iff_get.2 ⟨List.length_range, fun d hd hd' => ?_⟩
  rw [List.get_eq_getElem, List.get_eq_getElem, List.getElem_range]
  exact Array.getElem?_eq_getElem hd'

/-- A pass that began with the ledger `start` has tried `tried` choices by now. -/
structure Round.HasTried (start : Ledger) (r : Round) (tried : Nat) : Prop where
  keeps : start.sets.toList <+: r.ledger.sets.toList
  candidates_eq : r.candidates = tried

namespace Round.HasTried

variable {r : Round} {tried : Nat}

/-- The sets from the start are read as they were, whatever was entered since. -/
theorem setsOf_eq (h : r.HasTried start tried) {digits : List Nat}
    {children : List (List MemberId)}
    (hchildren : List.Forall₂ (fun d set => start.get? ⟨d⟩ = some set) digits children) :
    r.ledger.setsOf (digits.map Index.mk) = .ok children := by
  refine mapM_eq_ok_iff.2 (List.forall₂_map_left_iff.2 (hchildren.imp fun d set hget => ?_))
  obtain ⟨added, hadded⟩ := h.keeps
  have hkept : r.ledger.get? ⟨d⟩ = some set := by
    rw [get?, ← Array.getElem?_toList] at hget ⊢
    rw [← hadded, List.getElem?_append_left (List.getElem?_eq_some_iff.1 hget).1]
    exact hget
  rw [hkept, found]

/-- A visit of sets from the start tries their choices, whatever was entered since. -/
theorem visit (h : r.HasTried start tried) {digits : List Nat} {children : List (List MemberId)}
    (hchildren : List.Forall₂ (fun d set => start.get? ⟨d⟩ = some set) digits children) :
    ∃ r', r.visit rule op (digits.map Index.mk) = .ok r' ∧
      r'.HasTried start (tried + choicesOver rule op children) := by
  have htried : r.candidates + (rule.parents r.ledger.wildcard op.id children).tried =
      tried + choicesOver rule op children := by rw [h.candidates_eq, tried_parents]
  rw [Round.visit, h.setsOf_eq hchildren]
  set parents := rule.parents r.ledger.wildcard op.id children
  by_cases hknown : r.ledger.contains parents.members.toList
  · exact ⟨_, if_pos hknown, h.keeps, htried⟩
  · refine ⟨_, if_neg hknown, h.keeps.trans ?_, htried⟩
    rw [enter, Array.toList_push]
    exact List.prefix_append ..

/-- One operator tries the choices of all tuples from the start. -/
theorem visitAll (h : r.HasTried start tried) :
    ∃ r', r.visitAll rule start.size op = .ok r' ∧
      r'.HasTried start (tried + choicesFor rule start op) := by
  rw [Round.visitAll, Enumeration.foldlM_eq_foldlM_toList, ← total_choicesOver, ← foldl_add]
  exact exists_foldlM_of_forall₂ (forall₂_setTuples start op.arity)
    (fun _ _ h _ _ hchildren => h.visit hchildren) h

end Round.HasTried

/-- A pass tries all choices from the sets on which it began. -/
theorem candidates_of_round {r : Round} (h : l.round rule = .ok r) :
    r.candidates = choices rule l := by
  have hstart : Round.HasTried l ⟨l, 0, 0⟩ 0 := ⟨List.prefix_rfl, rfl⟩
  obtain ⟨r', hr', htried⟩ := exists_foldlM_of_forall₂ (R := Eq)
    (List.forall₂_refl rule.signature.operators)
    (f := Round.visitAll rule l.size) (g := fun n op => n + choicesFor rule l op)
    (fun r n hr op _ heq => heq ▸ hr.visitAll) hstart
  obtain rfl : r = r' := Except.ok.inj (h.symm.trans hr')
  rw [htried.candidates_eq, foldl_add, Nat.zero_add, choices]

-- ---------------------------------------------------------------------------
-- The ledgers between the passes
-- ---------------------------------------------------------------------------

/-- The ledger after a pass. A pass does not fail. -/
def next (rule : MatchRule) (l : Ledger) : Ledger :=
  match l.round rule with
  | .ok r => r.ledger
  | .error _ => l

/-- The ledger after the first `n` passes. -/
def after (rule : MatchRule) (n : Nat) (l : Ledger) : Ledger := (next rule)^[n] l

/-- By how many sets the pass number `n` enlarges the ledger, the first pass being number 0. -/
def growth (rule : MatchRule) (l : Ledger) (n : Nat) : Nat :=
  (l.after rule (n + 1)).size - (l.after rule n).size

/-- A pass leads to the next ledger and tries all choices over this one. -/
theorem exists_round_eq (rule : MatchRule) (l : Ledger) :
    ∃ r, l.round rule = .ok r ∧ r.ledger = l.next rule ∧ r.added = (l.next rule).size - l.size ∧
      r.candidates = choices rule l ∧ l.sets.toList <+: (l.next rule).sets.toList := by
  obtain ⟨r, hr, -⟩ := exists_round rule l
  obtain ⟨new, hnew, hlength⟩ := gains_of_round hr
  have hnext : r.ledger = l.next rule := by rw [next, hr]
  refine ⟨r, hr, hnext, ?_, candidates_of_round hr, ?_⟩
  · rw [← hnext, hnew.size_eq, Nat.add_sub_cancel_left, hlength]
  · rw [← hnext, hnew.toList_eq]
    exact List.prefix_append ..

theorem after_succ (rule : MatchRule) (n : Nat) (l : Ledger) :
    l.after rule (n + 1) = (l.after rule n).next rule := Function.iterate_succ_apply' ..

-- ---------------------------------------------------------------------------
-- The search
-- ---------------------------------------------------------------------------

/-- The event of the pass number `n`. -/
def passEvent (rule : MatchRule) (l : Ledger) (n : Nat) : Event :=
  .closurePass (n + 1) (growth rule l n) (l.after rule (n + 1)).size

/-- The choices tried in the first `n` passes. -/
def choicesBefore (rule : MatchRule) (l : Ledger) (n : Nat) : Nat :=
  total ((List.range n).map fun i => choices rule (l.after rule i))

/-- A search on `l` after its first `n` passes. -/
def searchAt (rule : MatchRule) (l : Ledger) (n : Nat) : Search where
  ledger := l.after rule n
  stats := ⟨n, choicesBefore rule l n⟩
  log := ((List.range n).map (passEvent rule l)).toArray

/-- One more pass leads from the search after `n` passes to the one after `n + 1`. -/
theorem pass_searchAt (rule : MatchRule) (l : Ledger) (n : Nat) :
    (searchAt rule l n).pass rule = .ok (growth rule l n, searchAt rule l (n + 1)) := by
  obtain ⟨r, hr, hledger, hadded, hcandidates, -⟩ := exists_round_eq rule (l.after rule n)
  rw [← after_succ] at hledger hadded
  have hchoices : choicesBefore rule l (n + 1) = choicesBefore rule l n + r.candidates := by
    rw [choicesBefore, total, List.range_succ, List.map_append, List.sum_append_nat, hcandidates]
    rfl
  rw [Search.pass_eq, searchAt, hr]
  refine congrArg Except.ok (Prod.ext hadded ?_)
  simp only [searchAt, hledger, hadded, hchoices, List.range_succ, List.map_append,
    List.push_toArray]
  rfl

theorem lt_of_not_limit {limit n : Nat} (h : ¬(0 < limit ∧ limit ≤ n)) : limit = 0 ∨ n < limit := by
  omega

/-- A search makes passes as long as they enter something, and ends with the first that does not or
when there are none left. -/
theorem run_searchAt (rule : MatchRule) (limit n : Nat) (l : Ledger)
    (hn : limit = 0 ∨ n ≤ limit) :
    ∃ last, n ≤ last ∧ (∀ i, n ≤ i → i < last → 0 < growth rule l i) ∧
      (((limit = 0 ∨ last < limit) ∧ growth rule l last = 0 ∧
          (searchAt rule l n).run rule limit = .ok (searchAt rule l (last + 1)).finish) ∨
        (0 < limit ∧ last = limit ∧
          (searchAt rule l n).run rule limit = .ok ((searchAt rule l last).stop limit))) := by
  generalize hs : searchAt rule l n = s
  fun_induction Search.run rule limit s generalizing n with
  -- the limit is reached before the next pass
  | case1 s hlimit =>
    subst hs
    have hlast : n = limit := Nat.le_antisymm (hn.resolve_left (Nat.ne_of_gt hlimit.1)) hlimit.2
    exact ⟨n, Nat.le_refl n, fun i hi hlt => absurd hi (Nat.not_le_of_lt hlt),
      Or.inr ⟨hlimit.1, hlast, rfl⟩⟩
  | case2 s _ e herror =>
    subst hs
    rw [pass_searchAt] at herror
    cases herror
  -- the next pass is the last one, as it enters nothing
  | case3 s hlimit s' hpass =>
    subst hs
    rw [pass_searchAt, Except.ok.injEq, Prod.mk.injEq] at hpass
    obtain ⟨hadded, rfl⟩ := hpass
    exact ⟨n, Nat.le_refl n, fun i hi hlt => absurd hi (Nat.not_le_of_lt hlt),
      Or.inl ⟨lt_of_not_limit hlimit, hadded, rfl⟩⟩
  -- the next pass enters something, and the search goes on behind it
  | case4 s hlimit added s' hpass hadded ih =>
    subst hs
    rw [pass_searchAt, Except.ok.injEq, Prod.mk.injEq] at hpass
    obtain ⟨rfl, hs'⟩ := hpass
    obtain ⟨last, hle, hgrowth, hend⟩ := ih (n + 1) (lt_of_not_limit hlimit) hs'
    refine ⟨last, Nat.le_of_succ_le hle, fun i hi hlt => ?_, hend⟩
    rcases Nat.eq_or_lt_of_le hi with rfl | hi
    · exact Nat.pos_of_ne_zero hadded
    · exact hgrowth i hi hlt

theorem searchAt_zero (rule : MatchRule) (l : Ledger) :
    searchAt rule l 0 = Search.ofLedger l := rfl

/-- What a search reports and counts is exact, over any ledger and any signature, forest and
projection, related or not. No pass fails, and a pass only adds to the ledger. The events are those
of the passes, numbered from 1, each with the growth of the ledger in that pass and with its size
after it, and one event for the end. Either the last pass is the first that enters nothing, and then
the choices counted are those of all passes, or all passes that the limit allows were made and each
of them entered something. -/
theorem search_keeps_account (rule : MatchRule) (limit : Nat) (l : Ledger) :
    (∀ n, ∃ r, (l.after rule n).round rule = .ok r ∧ r.ledger = l.after rule (n + 1) ∧
      (l.after rule n).sets.toList <+: (l.after rule (n + 1)).sets.toList) ∧
    ∃ report, l.search rule limit = .ok report ∧
      match report.result with
      | .ok stats =>
        0 < stats.passes ∧ (limit = 0 ∨ stats.passes ≤ limit) ∧
        (∀ n < stats.passes, growth rule l n = 0 ↔ n + 1 = stats.passes) ∧
        stats.candidates =
          total ((List.range stats.passes).map fun n => choices rule (l.after rule n)) ∧
        report.ledger = l.after rule stats.passes ∧
        report.log.toList = (List.range stats.passes).map (passEvent rule l) ++
          [.discoveredMatchSets report.ledger.size stats.passes stats.candidates]
      | .error e =>
        e = .passLimitExceeded limit ∧ 0 < limit ∧ (∀ n < limit, 0 < growth rule l n) ∧
        report.ledger = l.after rule limit ∧
        report.log.toList = (List.range limit).map (passEvent rule l) ++
          [.passLimitHit limit report.ledger.size] := by
  refine ⟨fun n => ?_, ?_⟩
  · obtain ⟨r, hr, hledger, -, -, hkeeps⟩ := exists_round_eq rule (l.after rule n)
    rw [← after_succ] at hledger hkeeps
    exact ⟨r, hr, hledger, hkeeps⟩
  · obtain ⟨last, -, hgrowth, hend⟩ := run_searchAt rule limit 0 l (Or.inr (Nat.zero_le _))
    rw [searchAt_zero] at hend
    -- the search ends with a pass that enters nothing, or at the limit
    rcases hend with ⟨hlimit, hlast, hrun⟩ | ⟨hlimit, rfl, hrun⟩
    · refine ⟨_, hrun, Nat.succ_pos last, hlimit, fun n hn => ?_, rfl, rfl, ?_⟩
      · rcases Nat.lt_succ_iff_lt_or_eq.1 hn with hlt | rfl
        · exact iff_of_false (Nat.ne_of_gt (hgrowth n (Nat.zero_le n) hlt))
            fun heq => Nat.ne_of_lt hlt (Nat.succ.inj heq)
        · exact iff_of_true hlast rfl
      · exact Array.toList_push
    · exact ⟨_, hrun, rfl, hlimit, fun n hn => hgrowth n (Nat.zero_le n) hn, rfl,
        Array.toList_push⟩

-- ---------------------------------------------------------------------------
-- Searches that come to their end
-- ---------------------------------------------------------------------------

/-- A pass that enters nothing leaves the ledger as it is. -/
theorem next_eq_self_of_growth {n : Nat} (h : growth rule l n = 0) :
    (l.after rule n).next rule = l.after rule n := by
  obtain ⟨r, hr, hledger, hadded, -, -⟩ := exists_round_eq rule (l.after rule n)
  obtain ⟨new, hnew, hlength⟩ := gains_of_round hr
  rw [← after_succ, show (l.after rule (n + 1)).size - (l.after rule n).size = 0 from h, hlength,
    List.length_eq_zero_iff] at hadded
  rw [← hledger, hnew.after_eq, hadded]
  rfl

/-- What a search finds that comes to its end: a ledger on which a pass changes nothing. Without a
limit the search would have ended in the same way. -/
theorem search_of_ok {limit : Nat} {report : Report} {stats : ClosureStats}
    (h : l.search rule limit = .ok report) (hresult : report.result = .ok stats) :
    report.ledger.next rule = report.ledger ∧ l.search rule 0 = .ok report := by
  obtain ⟨last, -, hgrowth, hend⟩ := run_searchAt rule limit 0 l (Or.inr (Nat.zero_le _))
  obtain ⟨last', -, hgrowth', hend'⟩ := run_searchAt rule 0 0 l (Or.inl rfl)
  rw [searchAt_zero, ← search] at hend hend'
  rcases hend with ⟨-, hlast, hrun⟩ | ⟨-, -, hrun⟩
  · rcases hend' with ⟨-, hlast', hrun'⟩ | ⟨hzero, -, -⟩
    · -- both searches end with the first pass that enters nothing
      have heq : last = last' := by
        rcases Nat.lt_trichotomy last last' with hlt | heq | hlt
        · exact absurd hlast (Nat.ne_of_gt (hgrowth' last (Nat.zero_le _) hlt))
        · exact heq
        · exact absurd hlast' (Nat.ne_of_gt (hgrowth last' (Nat.zero_le _) hlt))
      obtain rfl : report = (searchAt rule l (last + 1)).finish := Except.ok.inj (h.symm.trans hrun)
      have hledger : (searchAt rule l (last + 1)).finish.ledger = l.after rule last :=
        (after_succ rule last l).trans (next_eq_self_of_growth hlast)
      exact ⟨by rw [hledger, next_eq_self_of_growth hlast], heq ▸ hrun'⟩
    · exact absurd hzero (Nat.lt_irrefl 0)
  · obtain rfl : report = (searchAt rule l last).stop limit := Except.ok.inj (h.symm.trans hrun)
    cases hresult

/-- A search that resumes where a pass changes nothing ends after one pass, whatever its limit, and
leaves the ledger as it is. -/
theorem search_of_next_eq (h : l.next rule = l) (limit : Nat) :
    ∃ report, l.search rule limit = .ok report ∧ report.ledger = l ∧
      report.result = .ok ⟨1, choicesBefore rule l 1⟩ := by
  have hgrowth : growth rule l 0 = 0 := by
    rw [growth, after_succ]
    show (l.next rule).size - l.size = 0
    rw [h, Nat.sub_self]
  have hpass := pass_searchAt rule l 0
  refine ⟨(searchAt rule l 1).finish, ?_, (after_succ rule 0 l).trans h, rfl⟩
  rw [search, ← searchAt_zero rule, Search.run, if_neg (fun hlimit => Nat.not_le_of_lt hlimit.1 hlimit.2)]
  split
  · next e herror => exact absurd (hpass.symm.trans herror) (by simp)
  · next added s' hpass' =>
    obtain ⟨rfl, rfl⟩ := Prod.mk.inj (Except.ok.inj (hpass.symm.trans hpass'))
    rw [dif_pos hgrowth]

-- ---------------------------------------------------------------------------
-- The account read off the passes
-- ---------------------------------------------------------------------------

/-- The report of a search that goes on from `s` with the passes of `c`. -/
def Search.account (limit : Nat) (s : Search) (c : Closing) : Report :=
  let stats : ClosureStats := ⟨s.stats.passes + c.passes.length,
    s.stats.candidates + total (c.passes.map Pass.candidates)⟩
  let events := c.passes.mapIdx fun i p =>
    Event.closurePass (s.stats.passes + i + 1) p.added p.matchSets
  let last : Search := ⟨c.ledger, stats, s.log ++ events.toArray⟩
  if c.complete then last.finish else last.stop limit

/-- A search after a pass. -/
def Search.afterRound (s : Search) (r : Round) : Search where
  ledger := r.ledger
  stats := ⟨s.stats.passes + 1, s.stats.candidates + r.candidates⟩
  log := s.log.push (.closurePass (s.stats.passes + 1) r.added r.ledger.size)

/-- After a pass the account goes on with those that are left. -/
theorem Search.account_cons (limit : Nat) (s : Search) (r : Round) (c : Closing) :
    s.account limit { c with passes := ⟨r.added, r.ledger.size, r.candidates⟩ :: c.passes } =
      (s.afterRound r).account limit c := by
  have hlog (e : Event) (es : List Event) :
      s.log ++ (e :: es).toArray = s.log.push e ++ es.toArray := Array.ext' (by simp)
  simp only [account, afterRound, List.length_cons, List.map_cons, List.mapIdx_cons, total,
    List.sum_cons, hlog, Nat.add_assoc, Nat.add_comm 1, Nat.zero_add]

/-- A search that has come to its end has nothing to add to its account. -/
theorem Search.account_nil (limit : Nat) (s : Search) (complete : Bool) :
    s.account limit ⟨s.ledger, [], complete⟩ = if complete then s.finish else s.stop limit := by
  have hlog : s.log ++ ([] : List Event).toArray = s.log := Array.append_empty
  simp only [account, List.length_nil, List.map_nil, List.mapIdx_nil, total, List.sum_nil,
    Nat.add_zero, hlog]

theorem closeFrom_of_round {limit done : Nat} {r : Round} (hlimit : ¬(0 < limit ∧ limit ≤ done))
    (h : l.round rule = .ok r) :
    l.closeFrom rule limit done =
      if r.added = 0 then .ok ⟨r.ledger, [⟨r.added, r.ledger.size, r.candidates⟩], true⟩
      else (r.ledger.closeFrom rule limit (done + 1)).map fun rest =>
        { rest with passes := ⟨r.added, r.ledger.size, r.candidates⟩ :: rest.passes } := by
  rw [closeFrom, if_neg hlimit]
  split
  · next e herror =>
    rw [h] at herror
    cases herror
  · next r' hround =>
    obtain rfl : r = r' := Except.ok.inj (h.symm.trans hround)
    refine if_congr Iff.rfl rfl ?_
    cases r.ledger.closeFrom rule limit (done + 1) <;> rfl

/-- A search and the passes of closing its ledger say the same. -/
theorem Search.run_eq_account (rule : MatchRule) (limit : Nat) (s : Search) :
    s.run rule limit =
      (s.ledger.closeFrom rule limit s.stats.passes).map (s.account limit) := by
  fun_induction Search.run rule limit s with
  | case1 s hlimit =>
    -- the passes are used up
    rw [closeFrom, if_pos hlimit]
    exact congrArg Except.ok (account_nil limit s false).symm
  | case2 s hlimit e herror =>
    obtain ⟨r, hr, -⟩ := exists_round rule s.ledger
    rw [pass_eq, hr] at herror
    cases herror
  | case3 s hlimit s' hpass =>
    obtain ⟨r, hr, -⟩ := exists_round rule s.ledger
    rw [pass_eq, hr] at hpass
    obtain ⟨hadded, rfl⟩ := Prod.mk.inj (Except.ok.inj hpass)
    -- a last pass, which enters nothing
    rw [closeFrom_of_round hlimit hr, if_pos hadded]
    refine congrArg Except.ok ?_
    exact ((account_cons limit s r ⟨r.ledger, [], true⟩).trans (account_nil limit _ true)).symm
  | case4 s hlimit added s' hpass hadded ih =>
    obtain ⟨r, hr, -⟩ := exists_round rule s.ledger
    rw [pass_eq, hr] at hpass
    obtain ⟨rfl, rfl⟩ := Prod.mk.inj (Except.ok.inj hpass)
    -- a pass that enters something, and the run from there
    rw [closeFrom_of_round hlimit hr, if_neg hadded, ih]
    cases r.ledger.closeFrom rule limit (s.stats.passes + 1) with
    | error e => rfl
    | ok c => exact congrArg Except.ok (account_cons limit s r c).symm

/-- The running log and counters are those that are read off the passes of a table afterwards. -/
theorem search_reports {table : MatchSets} (rule : MatchRule) (limit : Nat)
    (h : l.Records table) :
    ∃ report, l.search rule limit = .ok report ∧
      report.ledger.Records (rule.close limit table).table ∧
      report.log.toList = (rule.close limit table).events limit ∧
      report.result = match (rule.close limit table).error? limit with
        | none => .ok (rule.close limit table).stats
        | some e => .error e := by
  obtain ⟨c, hc, hrecords, hpasses, hcomplete⟩ := close_reports rule limit h
  refine ⟨(Search.ofLedger l).account limit c, ?_, ?_⟩
  · rw [search, Search.run_eq_account]
    exact congrArg (Except.map _) hc
  -- log and result are functions of the closure alone
  · rw [Closure.events, Closure.error?, ← hcomplete, ← hpasses]
    have hsize := hrecords.size_eq
    cases hend : c.complete <;>
      simp [Search.account, Search.ofLedger, Search.finish, Search.stop, hend, hrecords, hsize,
        Closure.stats, hpasses]

end Ledger

end TreePattern
