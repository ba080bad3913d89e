import TreePattern.Enumeration

/-!
# A counter of wheels

A row of wheels, each of which shows a machine word. A step turns the last wheel on; a wheel that
would reach the base goes back to zero and turns the one before it. When every wheel has gone back
to zero there is nothing more to count, and the row remembers that. It shows the tuple that comes
next, so it has always been turned one step ahead of what it has yielded.

The words are of fixed size. Whether a wheel can be turned past the largest of them is a question
about the count, so turning it there is an error here (`WordOverflow`).

From any words, reached by counting or not, the wheels come to their end after finitely many steps
(`Wheels.tuplesLeft_lt_of_next`).
-/

namespace TreePattern

/-- The largest word was to be turned into the one after it. -/
inductive WordOverflow where
  | pastLargest
deriving DecidableEq

structure Wheels where
  base : UInt64
  /-- What the wheels show, first wheel first. -/
  digits : List UInt64
  /-- Whether every tuple has been yielded. -/
  done : Bool
deriving DecidableEq

namespace Wheels

/-- Wheels at zero. If the base has no digits, there is a tuple only without any wheels. -/
def ofBase (base : UInt64) (width : Nat) : Wheels where
  base := base
  digits := List.replicate width 0
  done := base = 0 ∧ 0 < width

def width (w : Wheels) : Nat := w.digits.length

/-- Turns every wheel back to zero. -/
def reset (w : Wheels) : Wheels where
  base := w.base
  digits := w.digits.map fun _ => 0
  done := w.base = 0 ∧ w.digits ≠ []

def nextWord (d : UInt64) : Except WordOverflow UInt64 :=
  if d.toNat + 1 < UInt64.size then .ok (d + 1) else .error .pastLargest

/-- Turns the wheels, given from the last to the first, by one step. Returns what they show then,
and whether the step stopped at one of them. -/
def turn (base : UInt64) : List UInt64 → Except WordOverflow (List UInt64 × Bool)
  | [] => .ok ([], false)
  | d :: ds => do
    let d ← nextWord d
    if d < base then
      return (d :: ds, true)
    else
      let (ds, stopped) ← turn base ds
      return (0 :: ds, stopped)

/-- The next tuple, unless there is none, and the wheels after it. -/
def next (w : Wheels) : Except WordOverflow (Option (List UInt64) × Wheels) :=
  if w.done then
    .ok (none, w)
  else do
    let (digits, stopped) ← turn w.base w.digits.reverse
    return (some w.digits, { w with digits := digits.reverse, done := !stopped })

-- ---------------------------------------------------------------------------
-- How long the wheels can go on
-- ---------------------------------------------------------------------------

/-- A bound on the steps of wheels that show the given words, from the last to the first, before a
step stops at none of them. The words may be any, also larger than the base. -/
def turnsLeft (base : UInt64) : List UInt64 → Nat
  | [] => 0
  | d :: ds => (base.toNat - d.toNat) + (base.toNat + 1) * turnsLeft base ds

/-- A bound on the number of tuples still to come. -/
def tuplesLeft (w : Wheels) : Nat := if w.done then 0 else turnsLeft w.base w.digits.reverse + 1

/-- The next word, if there is one, is larger by one. -/
theorem toNat_of_nextWord {d d' : UInt64} (h : nextWord d = .ok d') : d'.toNat = d.toNat + 1 := by
  rw [nextWord] at h
  split at h
  · next hlt =>
    cases h
    exact (UInt64.toNat_add d 1).trans (Nat.mod_eq_of_lt hlt)
  · cases h

/-- A step that stops at a wheel brings the wheels nearer to their end. -/
theorem turnsLeft_lt_of_turn {base : UInt64} {ds ds' : List UInt64}
    (h : turn base ds = .ok (ds', true)) : turnsLeft base ds' < turnsLeft base ds := by
  induction ds generalizing ds' with
  | nil => cases h
  | cons d ds ih =>
    rw [turn] at h
    cases hnext : nextWord d with
    | error e => rw [hnext] at h; cases h
    | ok d₁ =>
      rw [hnext] at h
      have hval := toNat_of_nextWord hnext
      by_cases hlt : d₁ < base
      · obtain rfl : d₁ :: ds = ds' := by
          have h : Except.ok (d₁ :: ds, true) = Except.ok (ds', true) := (if_pos hlt).symm.trans h
          exact congrArg Prod.fst (Except.ok.inj h)
        -- the wheel itself has come one nearer to its end
        rw [UInt64.lt_iff_toNat_lt] at hlt
        rw [turnsLeft, turnsLeft]
        omega
      · have h : (turn base ds >>= fun p => .ok (0 :: p.1, p.2)) = Except.ok (ds', true) :=
          (if_neg hlt).symm.trans h
        cases hturn : turn base ds with
        | error e => rw [hturn] at h; cases h
        | ok p =>
          obtain ⟨es, stopped⟩ := p
          rw [hturn] at h
          cases h
          -- the wheel has gone back to zero, but the ones before it have come nearer to their end
          calc turnsLeft base (0 :: es)
              = base.toNat + (base.toNat + 1) * turnsLeft base es := rfl
            _ < (base.toNat + 1) * (turnsLeft base es + 1) := by rw [Nat.mul_succ]; omega
            _ ≤ (base.toNat + 1) * turnsLeft base ds := Nat.mul_le_mul_left _ (ih hturn)
            _ ≤ turnsLeft base (d :: ds) := Nat.le_add_left ..

/-- Every tuple that is yielded leaves fewer. -/
theorem tuplesLeft_lt_of_next {w w' : Wheels} {tuple : List UInt64}
    (h : w.next = .ok (some tuple, w')) : w'.tuplesLeft < w.tuplesLeft := by
  rw [next] at h
  split at h
  · cases h
  · next hdone =>
    cases hturn : turn w.base w.digits.reverse with
    | error e => rw [hturn] at h; cases h
    | ok p =>
      obtain ⟨ds, stopped⟩ := p
      rw [hturn] at h
      cases h
      rw [tuplesLeft, tuplesLeft, if_neg hdone]
      cases stopped with
      -- all wheels are back at zero, so this was the last tuple
      | false => exact Nat.succ_pos _
      | true =>
        rw [List.reverse_reverse]
        exact Nat.succ_lt_succ (turnsLeft_lt_of_turn hturn)

end Wheels

end TreePattern
