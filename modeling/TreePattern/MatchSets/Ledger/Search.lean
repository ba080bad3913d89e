import TreePattern.MatchSets.Ledger.Closing

/-!
# A search that keeps account

Closing a ledger with all that is counted and reported on the way: the number of the pass, the
choices tried in all passes so far, and a log. The counters run on through the passes, the operators
and the tuples; only the number of sets that a pass has entered starts at zero again. Whether the
passes have run out is asked before a pass begins, whether there was anything new after its event.
-/

namespace TreePattern

namespace Ledger

/-- A search as it goes on. -/
structure Search where
  ledger : Ledger
  stats : ClosureStats
  log : Array Event

/-- What a search leaves behind: its ledger, its log, and its counters or the error that stopped
it. -/
structure Report where
  ledger : Ledger
  log : Array Event
  result : Except BuildError ClosureStats

namespace Search

def ofLedger (l : Ledger) : Search := ⟨l, ⟨0, 0⟩, #[]⟩

/-- Makes one pass and returns the number of sets that it has entered with the search after it. -/
def pass (rule : MatchRule) (s : Search) : Except BuildError (Nat × Search) := do
  let passes := s.stats.passes + 1
  let r ← rule.signature.operators.foldlM (Round.visitAll rule s.ledger.size)
    ⟨s.ledger, 0, s.stats.candidates⟩
  let event := .closurePass passes r.added r.ledger.size
  return (r.added, ⟨r.ledger, ⟨passes, r.candidates⟩, s.log.push event⟩)

/-- The search ends because its passes have run out. -/
def stop (limit : Nat) (s : Search) : Report where
  ledger := s.ledger
  log := s.log.push (.passLimitHit limit s.ledger.size)
  result := .error (.passLimitExceeded limit)

/-- The search ends because its last pass has entered nothing. -/
def finish (s : Search) : Report where
  ledger := s.ledger
  log := s.log.push (.discoveredMatchSets s.ledger.size s.stats.passes s.stats.candidates)
  result := .ok s.stats

end Search

-- ---------------------------------------------------------------------------
-- A pass that counts on
-- ---------------------------------------------------------------------------

/-- The same moment of a pass before which `tried` choices had been counted. -/
def Round.countOn (tried : Nat) (r : Round) : Round := ⟨r.ledger, r.added, tried + r.candidates⟩

/-- A fold whose steps commute with a map commutes with it. -/
private theorem foldlM_map {α β ε : Type} {φ : β → β} {f : β → α → Except ε β}
    (h : ∀ b a, f (φ b) a = (f b a).map φ) (as : List α) (b : β) :
    as.foldlM f (φ b) = (as.foldlM f b).map φ := by
  induction as generalizing b with
  | nil => rfl
  | cons a as ih =>
    rw [List.foldlM_cons, List.foldlM_cons, h]
    cases f b a with
    | error e => rfl
    | ok b' => exact ih b'

/-- A visit does the same whatever was counted before it. -/
theorem Round.visit_countOn (rule : MatchRule) (op : Symbol) (tried : Nat) (r : Round)
    (states : List StateId) :
    (r.countOn tried).visit rule op states = (r.visit rule op states).map (countOn tried) := by
  simp only [visit, countOn]
  cases r.ledger.setsOf states with
  | error e => rfl
  | ok children =>
    simp only [bind, Except.bind, Nat.add_assoc]
    split <;> rfl

theorem Round.visitAll_countOn (rule : MatchRule) (known tried : Nat) (r : Round) (op : Symbol) :
    (r.countOn tried).visitAll rule known op =
      (r.visitAll rule known op).map (countOn tried) := by
  rw [visitAll, visitAll, Enumeration.foldlM_eq_foldlM_toList,
    Enumeration.foldlM_eq_foldlM_toList]
  exact foldlM_map (fun r digits => r.visit_countOn rule op tried (digits.map Index.mk)) _ r

/-- A pass does to the ledger what it does without the counters. -/
theorem Search.pass_eq (rule : MatchRule) (s : Search) :
    s.pass rule = (s.ledger.round rule).map fun r =>
      (r.added, ⟨r.ledger, ⟨s.stats.passes + 1, s.stats.candidates + r.candidates⟩,
        s.log.push (.closurePass (s.stats.passes + 1) r.added r.ledger.size)⟩) := by
  have h := foldlM_map (Round.visitAll_countOn rule s.ledger.size s.stats.candidates)
    rule.signature.operators ⟨s.ledger, 0, 0⟩
  rw [pass, round]
  simp only [Round.countOn] at h
  rw [Nat.add_zero] at h
  rw [h]
  cases rule.signature.operators.foldlM (Round.visitAll rule s.ledger.size) ⟨s.ledger, 0, 0⟩ <;> rfl

/-- So fewer sets are left without a number after a pass that enters any. -/
theorem Search.unnumbered_lt_of_pass {rule : MatchRule} {s s' : Search} {added : Nat}
    (h : s.pass rule = .ok (added, s')) (hadded : added ≠ 0) :
    s'.ledger.unnumbered rule < s.ledger.unnumbered rule := by
  rw [pass_eq] at h
  cases hround : s.ledger.round rule with
  | error e => rw [hround] at h; cases h
  | ok r =>
    rw [hround] at h
    cases h
    exact unnumbered_lt_of_round hround hadded

-- ---------------------------------------------------------------------------
-- Passes until nothing is entered
-- ---------------------------------------------------------------------------

/-- Makes passes until one enters nothing, or until `limit` of them were made, where 0 stands for no
limit. -/
def Search.run (rule : MatchRule) (limit : Nat) (s : Search) : Except BuildError Report :=
  if 0 < limit ∧ limit ≤ s.stats.passes then
    .ok (s.stop limit)
  else
    match _h : s.pass rule with
    | .error e => .error e
    | .ok (added, s') => if _hadded : added = 0 then .ok s'.finish else s'.run rule limit
termination_by s.ledger.unnumbered rule
decreasing_by exact unnumbered_lt_of_pass _h _hadded

/-- Closes a ledger in at most `limit` passes and reports on it. -/
def search (rule : MatchRule) (limit : Nat) (l : Ledger) : Except BuildError Report :=
  (Search.ofLedger l).run rule limit

/-- Closes the ledger of the leaf states and reports on it. -/
def searchFromLeaves (rule : MatchRule) (limit : Nat) : Except BuildError Report :=
  (ofLeaves rule.signature rule.forest).search rule limit

end Ledger

end TreePattern
