import TreePattern.Enumeration

/-!
# Tuple counter

Counts through the tuples of a fixed width over the digits `0, …, base - 1`, the last position
fastest. `TupleCounter.advance` is the carry, and `TupleCounter.value` reads a tuple as a numeral:
a step adds one to it (`value_advance`), which is why the count ends.
-/

namespace TreePattern

namespace TupleCounter

/-- The tuple after `ds`, `none` after the last one. A digit that would reach the base goes
back to zero and carries to its left. -/
def advance (base : Nat) : List Nat → Option (List Nat)
  | [] => none
  | d :: ds =>
    match advance base ds with
    | some ds' => some (d :: ds')
    | none => if d + 1 < base then some ((d + 1) :: List.replicate ds.length 0) else none

/-- The number that the digits `ds` stand for, most significant digit first. -/
def value (base : Nat) : List Nat → Nat
  | [] => 0
  | d :: ds => d * base.pow ds.length + value base ds

/-- A tuple of the given width over the digits below the base. -/
def IsTuple (base width : Nat) (ds : List Nat) : Prop :=
  ds.length = width ∧ ∀ d ∈ ds, d < base

theorem isTuple_zeros {base width : Nat} (h : 0 < base ∨ width = 0) :
    IsTuple base width (List.replicate width 0) := by
  refine ⟨List.length_replicate, fun d hd => ?_⟩
  obtain ⟨hw, rfl⟩ := List.mem_replicate.1 hd
  exact h.resolve_right hw

theorem value_zeros (base n : Nat) : value base (List.replicate n 0) = 0 := by
  induction n with
  | zero => rfl
  | succ n ih => simp [List.replicate_succ, value, ih]

/-- A tuple stands for a number below the power of the base to its width. -/
theorem value_lt {base : Nat} {ds : List Nat} (h : ∀ d ∈ ds, d < base) :
    value base ds < base.pow ds.length := by
  induction ds with
  | nil => exact Nat.zero_lt_one
  | cons d ds ih =>
    have hd := h d List.mem_cons_self
    have hds := ih fun e he => h e (List.mem_cons_of_mem _ he)
    calc value base (d :: ds) < d * base.pow ds.length + base.pow ds.length :=
          Nat.add_lt_add_left hds _
      _ = (d + 1) * base.pow ds.length := (Nat.succ_mul _ _).symm
      _ ≤ base * base.pow ds.length := Nat.mul_le_mul_right _ hd
      _ = base.pow (d :: ds).length := Nat.mul_comm ..

/-- A step leads from a tuple to a tuple. -/
theorem isTuple_advance {base width : Nat} {ds ds' : List Nat} (h : IsTuple base width ds)
    (ha : advance base ds = some ds') : IsTuple base width ds' := by
  induction ds generalizing width ds' with
  | nil => exact absurd ha (by simp [advance])
  | cons d ds ih =>
    obtain ⟨rfl, hlt⟩ := h
    have hds : IsTuple base ds.length ds := ⟨rfl, fun e he => hlt e (List.mem_cons_of_mem _ he)⟩
    rw [advance] at ha
    split at ha
    -- the carry stopped in the tail, and the first digit stays
    · next es hes =>
      obtain ⟨hlen, hes⟩ := ih hds hes
      cases ha
      refine ⟨by rw [List.length_cons, hlen, List.length_cons], fun e he => ?_⟩
      rcases List.mem_cons.1 he with rfl | he
      · exact hlt e List.mem_cons_self
      · exact hes e he
    -- it came through to the first digit, and the tail is all zeros
    · split at ha
      · next hd =>
        cases ha
        refine ⟨by simp, fun e he => ?_⟩
        rcases List.mem_cons.1 he with rfl | he
        · exact hd
        · rw [(List.mem_replicate.1 he).2]; omega
      · exact absurd ha (by simp)

/-- Nothing follows the tuple of largest digits, which stands for the largest number. -/
theorem value_of_advance_eq_none {base : Nat} {ds : List Nat} (h : ∀ d ∈ ds, d < base)
    (ha : advance base ds = none) : value base ds + 1 = base.pow ds.length := by
  induction ds with
  | nil => rfl
  | cons d ds ih =>
    have hd := h d List.mem_cons_self
    rw [advance] at ha
    split at ha
    · exact absurd ha (by simp)
    · next hn =>
      -- the tail is full and so is the first digit
      have hv := ih (fun e he => h e (List.mem_cons_of_mem _ he)) hn
      split at ha
      · exact absurd ha (by simp)
      · rw [value, Nat.add_assoc, hv, ← Nat.succ_mul, show d.succ = base by omega]
        exact Nat.mul_comm ..

/-- A step adds one to the number that the tuple stands for. -/
theorem value_advance {base : Nat} {ds ds' : List Nat} (h : ∀ d ∈ ds, d < base)
    (ha : advance base ds = some ds') : value base ds' = value base ds + 1 := by
  induction ds generalizing ds' with
  | nil => exact absurd ha (by simp [advance])
  | cons d ds ih =>
    have hds := fun e he => h e (List.mem_cons_of_mem _ he)
    rw [advance] at ha
    split at ha
    · next es hes =>
      have hlen := (isTuple_advance ⟨rfl, hds⟩ hes).1
      cases ha
      rw [value, value, hlen, ih hds hes, Nat.add_assoc]
    -- the tail goes from its largest value back to zero, which the first digit makes up for
    · next hn =>
      split at ha
      · cases ha
        rw [value, value, value_zeros, List.length_replicate, Nat.add_assoc,
          value_of_advance_eq_none hds hn, Nat.succ_mul, Nat.add_zero]
      · exact absurd ha (by simp)

end TupleCounter

/-- A count through the tuples of `width` digits below `base`. -/
structure TupleCounter where
  base : Nat
  width : Nat
  /-- The tuple to yield next; `none` when all have been yielded. -/
  current : Option (List Nat)
  isTuple_of_current : ∀ ds, current = some ds → TupleCounter.IsTuple base width ds

namespace TupleCounter

/-- Starts at the tuple of zeros. There is no tuple at all if digits are wanted and the base
has none; the empty tuple needs none. -/
def ofBase (base width : Nat) : TupleCounter where
  base := base
  width := width
  current := if 0 < base ∨ width = 0 then some (List.replicate width 0) else none
  isTuple_of_current := by
    intro ds h
    split at h
    · next hb => cases h; exact isTuple_zeros hb
    · exact absurd h (by simp)

/-- Goes back to the first tuple. -/
def reset (c : TupleCounter) : TupleCounter := ofBase c.base c.width

/-- The counter after it has yielded `ds`. -/
def after (c : TupleCounter) (ds : List Nat) (h : c.current = some ds) : TupleCounter where
  base := c.base
  width := c.width
  current := advance c.base ds
  isTuple_of_current := fun _ ha => isTuple_advance (c.isTuple_of_current ds h) ha

/-- The number of tuples still to come. -/
def remaining (c : TupleCounter) : Nat :=
  match c.current with
  | none => 0
  | some ds => c.base.pow c.width - value c.base ds

/-- Each step leaves fewer tuples. -/
theorem remaining_after_lt (c : TupleCounter) (ds : List Nat) (h : c.current = some ds) :
    (c.after ds h).remaining < c.remaining := by
  obtain ⟨hlen, hlt⟩ := c.isTuple_of_current ds h
  have hv : value c.base ds < c.base.pow c.width := hlen ▸ value_lt hlt
  rw [remaining, remaining, h]
  simp only [after]
  cases ha : advance c.base ds with
  | none => simp only; omega
  | some ds' =>
    have := value_advance hlt ha
    simp only; omega

instance : Enumeration TupleCounter (List Nat) where
  next? c :=
    match h : c.current with
    | none => none
    | some ds => some (ds, c.after ds h)
  remaining := remaining
  remaining_lt {c ds c'} hn := by
    split at hn
    · exact absurd hn (by simp)
    · next h =>
      cases hn
      exact remaining_after_lt c _ h

/-- What comes next is the current tuple, and the counter after it. -/
theorem next?_eq_some {c c' : TupleCounter} {ds : List Nat}
    (h : Enumeration.next? c = some (ds, c')) :
    ∃ hcurrent : c.current = some ds, c' = c.after ds hcurrent := by
  simp only [Enumeration.next?] at h
  split at h
  · exact absurd h (by simp)
  · next es hes =>
    cases h
    exact ⟨hes, rfl⟩

/-- What a counter yields are tuples of its width over the digits below its base. -/
theorem isTuple_of_mem_toList (c : TupleCounter) (ds : List Nat)
    (h : ds ∈ Enumeration.toList c) : IsTuple c.base c.width ds := by
  cases hn : Enumeration.next? c with
  | none =>
    rw [Enumeration.toList_none hn] at h
    exact absurd h List.not_mem_nil
  | some p =>
    have := Enumeration.remaining_lt hn
    obtain ⟨hcurrent, hafter⟩ := next?_eq_some hn
    rw [Enumeration.toList_some hn, List.mem_cons] at h
    rcases h with rfl | h
    · exact c.isTuple_of_current _ hcurrent
    · have hrest := isTuple_of_mem_toList p.2 ds h
      rwa [hafter] at hrest
termination_by Enumeration.remaining c

end TupleCounter

end TreePattern
