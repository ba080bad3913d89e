import TreePattern.MatchSets.Closure
import TreePattern.MatchSets.Ledger

/-!
# Closing a ledger

A pass counts through the tuples of the states that were there when it began, looks up their sets,
and enters what follows from them unless that has a number. It counts what it enters, and passes
are repeated until one enters nothing. Nothing is known of the ledger, nor need it belong to the
rule: its sets may lie over another forest, and so may its wildcard. The search ends all the same.
What a pass enters are sets over the members of the rule's forest and the wildcard of the ledger,
none of which had a number before, and there are finitely many of those (`Ledger.Gains`).
-/

namespace TreePattern

namespace Ledger

/-- A pass over a ledger as it goes on. -/
structure Round where
  ledger : Ledger
  /-- The number of sets that it has entered. -/
  added : Nat
  /-- The number of choices of children that it has tried. -/
  candidates : Nat

/-- The sets of the given states, all of which have to be there. -/
def setsOf (l : Ledger) (states : List StateId) : Except BuildError (List (List MemberId)) :=
  states.mapM fun state => found (l.get? state)

/-- Enters the set at a node `op` over children in the given states, if it is new. -/
def Round.visit (rule : MatchRule) (op : Symbol) (r : Round) (states : List StateId) :
    Except BuildError Round := do
  let children ← r.ledger.setsOf states
  let parents := rule.parents r.ledger.wildcard op.id children
  let set := parents.members.toList
  let candidates := r.candidates + parents.tried
  if r.ledger.contains set then
    return ⟨r.ledger, r.added, candidates⟩
  else
    return ⟨r.ledger.enter set, r.added + 1, candidates⟩

/-- Applies `op` to every tuple of the first `known` states. -/
def Round.visitAll (rule : MatchRule) (known : Nat) (r : Round) (op : Symbol) :
    Except BuildError Round :=
  Enumeration.foldlM (fun r digits => r.visit rule op (digits.map Index.mk)) r
    (TupleCounter.ofBase known op.arity)

/-- Applies every operator, by name, to every tuple of the states that are there. -/
def round (rule : MatchRule) (l : Ledger) : Except BuildError Round :=
  rule.signature.operators.foldlM (Round.visitAll rule l.size) ⟨l, 0, 0⟩

-- ---------------------------------------------------------------------------
-- What a pass enters
-- ---------------------------------------------------------------------------

/-- Exactly the sets `new` were entered, one after the other. They are different, had no number
before, hold the wildcard, and lie over the members of the forest and the wildcard. -/
structure Gains (rule : MatchRule) (before after : Ledger) (new : List (List MemberId)) :
    Prop where
  after_eq : after = new.foldl enter before
  nodup : new.Nodup
  fresh : ∀ s ∈ new, ¬ before.contains s
  wildcard_mem : ∀ s ∈ new, before.wildcard ∈ s
  attainable : ∀ s ∈ new, s.Sublist (rule.attainable before.wildcard)

namespace Gains

variable {rule : MatchRule} {before mid after : Ledger} {new more : List (List MemberId)}

theorem refl (rule : MatchRule) (l : Ledger) : Gains rule l l [] where
  after_eq := rfl
  nodup := .nil
  fresh := by simp
  wildcard_mem := by simp
  attainable := by simp

/-- Afterwards just the old and the new sets are there. -/
theorem contains_iff (h : Gains rule before after new) {s : List MemberId} :
    after.contains s ↔ before.contains s ∨ s ∈ new := by
  rw [h.after_eq, contains_foldl_enter_iff]

theorem wildcard_eq (h : Gains rule before after new) : after.wildcard = before.wildcard := by
  rw [h.after_eq, wildcard_foldl_enter]

/-- The new sets stand behind the old ones. -/
theorem toList_eq (h : Gains rule before after new) :
    after.sets.toList = before.sets.toList ++ new := by
  rw [h.after_eq, toList_foldl_enter]

theorem size_eq (h : Gains rule before after new) : after.size = before.size + new.length := by
  rw [size, size, ← Array.length_toList, ← Array.length_toList, h.toList_eq, List.length_append]

/-- Two such moments follow each other, and the later sets differ from the earlier ones because
those have a number by then. -/
theorem trans (h : Gains rule before mid new) (h' : Gains rule mid after more) :
    Gains rule before after (new ++ more) where
  after_eq := by rw [List.foldl_append, ← h.after_eq, ← h'.after_eq]
  nodup := List.nodup_append.2 ⟨h.nodup, h'.nodup, fun s hs _ ht heq =>
    h'.fresh s (heq ▸ ht) (h.contains_iff.2 (Or.inr hs))⟩
  fresh := fun s hs hb => (List.mem_append.1 hs).elim (fun hs => h.fresh s hs hb)
    fun hs => h'.fresh s hs (h.contains_iff.2 (Or.inl hb))
  wildcard_mem := fun s hs => (List.mem_append.1 hs).elim (h.wildcard_mem s)
    fun hs => h.wildcard_eq ▸ h'.wildcard_mem s hs
  attainable := fun s hs => (List.mem_append.1 hs).elim (h.attainable s)
    fun hs => h.wildcard_eq ▸ h'.attainable s hs

/-- Entering a successor that has no number. -/
theorem enter {l : Ledger} {op : SymbolId} {children : List (List MemberId)}
    (h : ¬ l.contains (rule.successor l.wildcard op children)) :
    Gains rule l (l.enter (rule.successor l.wildcard op children))
      [rule.successor l.wildcard op children] where
  after_eq := rfl
  nodup := List.pairwise_singleton ..
  fresh := fun _ hs => List.mem_singleton.1 hs ▸ h
  wildcard_mem := fun _ hs => List.mem_singleton.1 hs ▸ rule.wildcard_mem_successor ..
  attainable := fun _ hs => List.mem_singleton.1 hs ▸ rule.successor_sublist ..

end Gains

/-- Between the two moments of a pass some sets were entered, and each of them was counted. -/
def Round.Enters (rule : MatchRule) (r r' : Round) : Prop :=
  ∃ new, Gains rule r.ledger r'.ledger new ∧ r'.added = r.added + new.length

namespace Round

variable {rule : MatchRule} {r₁ r₂ r₃ : Round}

theorem Enters.refl (rule : MatchRule) (r : Round) : r.Enters rule r := ⟨[], .refl .., rfl⟩

/-- What was entered and what was counted add up. -/
theorem Enters.trans (h : r₁.Enters rule r₂) (h' : r₂.Enters rule r₃) : r₁.Enters rule r₃ := by
  obtain ⟨new, hnew, hadded⟩ := h
  obtain ⟨more, hmore, hadded'⟩ := h'
  exact ⟨new ++ more, hnew.trans hmore, by rw [hadded', hadded, List.length_append, Nat.add_assoc]⟩

theorem Enters.size_le (h : r₁.Enters rule r₂) : r₁.ledger.size ≤ r₂.ledger.size := by
  obtain ⟨new, hnew, -⟩ := h
  rw [hnew.size_eq]
  exact Nat.le_add_right ..

end Round

-- ---------------------------------------------------------------------------
-- No look-up fails
-- ---------------------------------------------------------------------------

/-- A fold succeeds if each step does, from where the steps before it have led. -/
private theorem exists_foldlM {ε α β : Type} {P : β → Prop} {f : β → α → Except ε β} {as : List α}
    {b : β} (hb : P b) (hf : ∀ b, P b → ∀ a ∈ as, ∃ b', f b a = .ok b' ∧ P b') :
    ∃ b', as.foldlM f b = .ok b' ∧ P b' := by
  induction as generalizing b with
  | nil => exact ⟨b, rfl, hb⟩
  | cons a as ih =>
    obtain ⟨b', hstep, hb'⟩ := hf b hb a List.mem_cons_self
    obtain ⟨c, hrest, hc⟩ := ih hb' fun b hb a ha => hf b hb a (List.mem_cons_of_mem _ ha)
    exact ⟨c, by rw [List.foldlM_cons, hstep]; exact hrest, hc⟩

/-- The sets of states that are there can be read. -/
theorem exists_setsOf {l : Ledger} {states : List StateId}
    (h : ∀ state ∈ states, state.val < l.size) : ∃ sets, l.setsOf states = .ok sets := by
  induction states with
  | nil => exact ⟨[], rfl⟩
  | cons state states ih =>
    obtain ⟨sets, hsets⟩ := ih fun s hs => h s (List.mem_cons_of_mem _ hs)
    have hget : l.get? state = some _ := Array.getElem?_eq_getElem (h state List.mem_cons_self)
    unfold setsOf at hsets ⊢
    exact ⟨_, by rw [List.mapM_cons, hget, hsets]; rfl⟩

/-- Over states of the ledger a visit succeeds, and enters one set or none. -/
theorem Round.exists_visit (rule : MatchRule) (op : Symbol) (r : Round) {states : List StateId}
    (h : ∀ state ∈ states, state.val < r.ledger.size) :
    ∃ r', r.visit rule op states = .ok r' ∧ r.Enters rule r' := by
  obtain ⟨children, hchildren⟩ := exists_setsOf h
  rw [visit, hchildren]
  by_cases hknown : r.ledger.contains (rule.successor r.ledger.wildcard op.id children)
  · exact ⟨_, if_pos hknown, [], .refl .., rfl⟩
  · exact ⟨_, if_neg hknown, _, .enter hknown, rfl⟩

/-- So does a visit of all tuples over states that were there before. -/
theorem Round.exists_visitAll (rule : MatchRule) (op : Symbol) (r : Round) {known : Nat}
    (h : known ≤ r.ledger.size) : ∃ r', r.visitAll rule known op = .ok r' ∧ r.Enters rule r' := by
  rw [visitAll, Enumeration.foldlM_eq_foldlM_toList]
  -- the ledger never shrinks, so a state that was there at the start is there at every visit
  refine exists_foldlM (Enters.refl rule r) fun r' hr' digits hdigits => ?_
  have hstates : ∀ state ∈ digits.map (Index.mk (k := .matchSet)), state.val < r'.ledger.size := by
    intro state hstate
    obtain ⟨d, hd, rfl⟩ := List.mem_map.1 hstate
    have hlt := (TupleCounter.isTuple_of_mem_toList _ _ hdigits).2 d hd
    exact Nat.lt_of_lt_of_le hlt (Nat.le_trans h hr'.size_le)
  obtain ⟨r'', hvisit, henters⟩ := r'.exists_visit rule op hstates
  exact ⟨r'', hvisit, hr'.trans henters⟩

/-- A pass over any ledger succeeds and enters new sets only. -/
theorem exists_round (rule : MatchRule) (l : Ledger) :
    ∃ r, l.round rule = .ok r ∧ Round.Enters rule ⟨l, 0, 0⟩ r := by
  -- the number of states is read once, before the first operator
  refine exists_foldlM (Round.Enters.refl rule ⟨l, 0, 0⟩) fun r hr op _ => ?_
  obtain ⟨r', hvisits, henters⟩ := r.exists_visitAll rule op hr.size_le
  exact ⟨r', hvisits, hr.trans henters⟩

/-- What a pass has counted is what it has entered. -/
theorem gains_of_round {rule : MatchRule} {l : Ledger} {r : Round} (h : l.round rule = .ok r) :
    ∃ new, Gains rule l r.ledger new ∧ r.added = new.length := by
  obtain ⟨r', hr', new, hnew, hadded⟩ := exists_round rule l
  obtain rfl : r = r' := Except.ok.inj (h.symm.trans hr')
  exact ⟨new, hnew, by rw [hadded, Nat.zero_add]⟩

-- ---------------------------------------------------------------------------
-- Passes until nothing is entered
-- ---------------------------------------------------------------------------

/-- The number of sets that have no number and could be entered. -/
def unnumbered (rule : MatchRule) (l : Ledger) : Nat :=
  countSublists (fun s => !l.contains s) (rule.attainable l.wildcard)

/-- A pass that enters anything leaves fewer sets without a number. -/
theorem unnumbered_lt_of_round {rule : MatchRule} {l : Ledger} {r : Round}
    (h : l.round rule = .ok r) (hadded : r.added ≠ 0) :
    r.ledger.unnumbered rule < l.unnumbered rule := by
  obtain ⟨new, hnew, hlength⟩ := gains_of_round h
  obtain ⟨s, hs⟩ := List.exists_mem_of_length_pos (Nat.pos_of_ne_zero (hlength ▸ hadded))
  -- one of the entered sets had no number before and has one now
  rw [unnumbered, unnumbered, hnew.wildcard_eq]
  refine countSublists_lt (fun t ht => ?_) (hnew.attainable s hs) ?_ ?_
  · rw [Bool.not_eq_true'] at ht ⊢
    exact Bool.eq_false_iff.2 fun hb => Bool.eq_false_iff.1 ht (hnew.contains_iff.2 (Or.inl hb))
  · rw [Bool.not_eq_true']
    exact Bool.eq_false_iff.2 (hnew.fresh s hs)
  · rw [hnew.contains_iff.2 (Or.inr hs)]
    decide

/-- The outcome of closing a ledger. -/
structure Closing where
  ledger : Ledger
  passes : List Pass
  /-- Whether the last pass entered nothing, rather than the passes running out. -/
  complete : Bool

/-- Goes on with a search that has made `done` passes. -/
def closeFrom (rule : MatchRule) (limit done : Nat) (l : Ledger) : Except BuildError Closing :=
  if 0 < limit ∧ limit ≤ done then
    .ok ⟨l, [], false⟩
  else
    match _h : l.round rule with
    | .error e => .error e
    | .ok r =>
      let pass : Pass := ⟨r.added, r.ledger.size, r.candidates⟩
      if _hadded : r.added = 0 then
        .ok ⟨r.ledger, [pass], true⟩
      else do
        let rest ← closeFrom rule limit (done + 1) r.ledger
        return { rest with passes := pass :: rest.passes }
termination_by l.unnumbered rule
decreasing_by exact unnumbered_lt_of_round _h _hadded

/-- Closes a ledger in at most `limit` passes, where 0 stands for no limit. -/
def close (rule : MatchRule) (limit : Nat) (l : Ledger) : Except BuildError Closing :=
  l.closeFrom rule limit 0

/-- The error of a search that was stopped by its limit. -/
def Closing.error? (c : Closing) (limit : Nat) : Option BuildError :=
  if c.complete then none else some (.passLimitExceeded limit)

end Ledger

end TreePattern
