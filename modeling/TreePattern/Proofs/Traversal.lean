import Mathlib.Data.List.Forall2

/-!
# Traversals that may fail

A list is traversed by a function that may fail at an element, or folded over by a step that
may. The traversal succeeds exactly if every element does, and then its results stand side by
side with the elements.
-/

namespace TreePattern

variable {α β ε : Type}

-- ---------------------------------------------------------------------------
-- Options
-- ---------------------------------------------------------------------------

/-- A traversal succeeds with the results of the elements. -/
theorem mapM_eq_some_iff {f : α → Option β} {as : List α} {bs : List β} :
    as.mapM f = some bs ↔ List.Forall₂ (fun a b => f a = some b) as bs := by
  induction as generalizing bs with
  | nil => simp [eq_comm]
  | cons a as ih =>
    rw [List.mapM_cons, List.forall₂_cons_left_iff]
    constructor
    · intro h
      obtain ⟨b, hb, h⟩ := Option.bind_eq_some_iff.1 h
      obtain ⟨cs, hcs, h⟩ := Option.bind_eq_some_iff.1 h
      exact ⟨b, cs, hb, ih.1 hcs, (Option.some.inj h).symm⟩
    · rintro ⟨b, cs, hb, hcs, rfl⟩
      rw [hb, ih.2 hcs]
      rfl

/-- A traversal fails exactly if it does at some element. -/
theorem mapM_eq_none_iff {f : α → Option β} {as : List α} :
    as.mapM f = none ↔ ∃ a ∈ as, f a = none := by
  induction as with
  | nil => simp
  | cons a as ih =>
    rw [List.mapM_cons, List.exists_mem_cons_iff, ← ih]
    cases ha : f a with
    | none => simp
    | some b =>
      cases has : as.mapM f with
      | none => simp
      | some bs => simp

/-- A traversal that fails at no element succeeds. -/
theorem exists_mapM_eq_some {f : α → Option β} {as : List α} (h : ∀ a ∈ as, (f a).isSome) :
    ∃ bs, as.mapM f = some bs := by
  rw [← Option.isSome_iff_exists, ← Option.not_isNone, Bool.not_eq_true', ← Bool.not_eq_true,
    Option.isNone_iff_eq_none, mapM_eq_none_iff]
  rintro ⟨a, ha, hnone⟩
  have := h a ha
  rw [hnone] at this
  exact absurd this (by simp)

-- ---------------------------------------------------------------------------
-- Errors
-- ---------------------------------------------------------------------------

/-- Two steps succeed if the first does and the second does on its result. -/
theorem bind_eq_ok_iff {x : Except ε α} {f : α → Except ε β} {b : β} :
    (x >>= f) = .ok b ↔ ∃ a, x = .ok a ∧ f a = .ok b := by
  cases x with
  | error e => exact ⟨fun h => absurd h (by simp [bind, Except.bind]), fun ⟨_, h, _⟩ => nomatch h⟩
  | ok a => exact ⟨fun h => ⟨a, rfl, h⟩, fun ⟨_, ha, h⟩ => by cases ha; exact h⟩

/-- Two steps fail with the error of the first that fails. -/
theorem bind_eq_error_iff {x : Except ε α} {f : α → Except ε β} {e : ε} :
    (x >>= f) = .error e ↔ x = .error e ∨ ∃ a, x = .ok a ∧ f a = .error e := by
  cases x with
  | error e' => simp [bind, Except.bind]
  | ok a => simp [bind, Except.bind]

/-- A result that is there is a success. -/
theorem exists_eq_ok_of_isSome {x : Except ε α} (h : x.toOption.isSome = true) :
    ∃ a, x = .ok a := by
  cases x with
  | error e => exact absurd h (by simp [Except.toOption])
  | ok a => exact ⟨a, rfl⟩

/-- A result that passes a check is a success that passes it. -/
theorem exists_eq_ok_of_any {x : Except ε α} {check : α → Bool}
    (h : x.toOption.any check = true) : ∃ a, x = .ok a ∧ check a = true := by
  cases x with
  | error e => exact absurd h (by simp [Except.toOption])
  | ok a => exact ⟨a, rfl, h⟩

/-- A traversal that may fail succeeds with the results of the elements. -/
theorem mapM_eq_ok_iff {f : α → Except ε β} {as : List α} {bs : List β} :
    as.mapM f = .ok bs ↔ List.Forall₂ (fun a b => f a = .ok b) as bs := by
  induction as generalizing bs with
  | nil =>
    rw [List.mapM_nil, List.forall₂_nil_left_iff]
    exact ⟨fun h => (Except.ok.inj h).symm, fun h => by rw [h]; rfl⟩
  | cons a as ih =>
    rw [List.mapM_cons, List.forall₂_cons_left_iff, bind_eq_ok_iff]
    constructor
    · rintro ⟨b, hb, h⟩
      obtain ⟨cs, hcs, h⟩ := bind_eq_ok_iff.1 h
      exact ⟨b, cs, hb, ih.1 hcs, (Except.ok.inj h).symm⟩
    · rintro ⟨b, cs, hb, hcs, rfl⟩
      exact ⟨b, hb, bind_eq_ok_iff.2 ⟨cs, ih.2 hcs, rfl⟩⟩

/-- It succeeds if it does so at every element. -/
theorem exists_mapM_eq_ok {f : α → Except ε β} {as : List α} (h : ∀ a ∈ as, ∃ b, f a = .ok b) :
    ∃ bs, as.mapM f = .ok bs := by
  induction as with
  | nil => exact ⟨[], rfl⟩
  | cons a as ih =>
    obtain ⟨b, hb⟩ := h a List.mem_cons_self
    obtain ⟨bs, hbs⟩ := ih fun c hc => h c (List.mem_cons_of_mem _ hc)
    exact ⟨b :: bs, by rw [List.mapM_cons, hb, hbs]; rfl⟩

/-- If a traversal fails, it does so at an element. -/
theorem exists_of_mapM_eq_error {f : α → Except ε β} {as : List α} {e : ε}
    (h : as.mapM f = .error e) : ∃ a ∈ as, f a = .error e := by
  induction as with
  | nil => exact absurd h (by simp [pure, Except.pure])
  | cons a as ih =>
    rw [List.mapM_cons, bind_eq_error_iff] at h
    rcases h with ha | ⟨b, -, h⟩
    · exact ⟨a, List.mem_cons_self, ha⟩
    · rcases bind_eq_error_iff.1 h with has | ⟨bs, -, h⟩
      · obtain ⟨c, hc, hfailed⟩ := ih has
        exact ⟨c, List.mem_cons_of_mem _ hc, hfailed⟩
      · exact absurd h (by simp [pure, Except.pure])

/-- A fold that succeeds does so at the first element and then on the others. -/
theorem foldlM_cons_eq_ok_iff {f : β → α → Except ε β} {a : α} {as : List α} {b c : β} :
    (a :: as).foldlM f b = .ok c ↔ ∃ b', f b a = .ok b' ∧ as.foldlM f b' = .ok c := by
  rw [List.foldlM_cons, bind_eq_ok_iff]

/-- A fold that skips some elements and takes the others for elements of another kind is the fold
over these. -/
theorem foldlM_eq_foldlM_filterMap {γ : Type} {f : β → α → Except ε β} {g : β → γ → Except ε β}
    {p : α → Option γ} {as : List α} (hskip : ∀ a ∈ as, p a = none → ∀ b, f b a = .ok b)
    (htake : ∀ a ∈ as, ∀ c, p a = some c → ∀ b, f b a = g b c) (b : β) :
    as.foldlM f b = (as.filterMap p).foldlM g b := by
  induction as generalizing b with
  | nil => rfl
  | cons a as ih =>
    have hrest := ih (fun a' ha' => hskip a' (List.mem_cons_of_mem _ ha'))
      fun a' ha' => htake a' (List.mem_cons_of_mem _ ha')
    rw [List.foldlM_cons, List.filterMap_cons]
    cases hp : p a with
    | none =>
      rw [hskip a List.mem_cons_self hp]
      exact hrest b
    | some c =>
      rw [htake a List.mem_cons_self c hp]
      exact bind_congr hrest

/-- If a fold fails, one of its steps does. -/
theorem exists_of_foldlM_eq_error {f : β → α → Except ε β} {as : List α} {b : β} {e : ε}
    (h : as.foldlM f b = .error e) : ∃ a ∈ as, ∃ b', f b' a = .error e := by
  induction as generalizing b with
  | nil => exact absurd h (by simp [pure, Except.pure])
  | cons a as ih =>
    rw [List.foldlM_cons] at h
    cases hstep : f b a with
    | error e' =>
      rw [hstep] at h
      cases h
      exact ⟨a, List.mem_cons_self, b, hstep⟩
    | ok b' =>
      rw [hstep] at h
      obtain ⟨a', ha', hfailed⟩ := ih h
      exact ⟨a', List.mem_cons_of_mem _ ha', hfailed⟩

/-- Two folds over the same list that may fail. If each step fails in both, with the same error, or
in neither, then so do the folds. -/
theorem foldlM_lockstep {γ : Type} {R : β → γ → Prop} {f : β → α → Except ε β}
    {g : γ → α → Except ε γ}
    (hstep : ∀ b c, R b c → ∀ a, (∃ e, f b a = .error e ∧ g c a = .error e) ∨
      ∃ b' c', f b a = .ok b' ∧ g c a = .ok c' ∧ R b' c')
    (as : List α) {b : β} {c : γ} (hR : R b c) :
    (∃ e, as.foldlM f b = .error e ∧ as.foldlM g c = .error e) ∨
      ∃ b' c', as.foldlM f b = .ok b' ∧ as.foldlM g c = .ok c' ∧ R b' c' := by
  induction as generalizing b c with
  | nil => exact Or.inr ⟨b, c, rfl, rfl, hR⟩
  | cons a as ih =>
    rw [List.foldlM_cons, List.foldlM_cons]
    obtain ⟨e, hf, hg⟩ | ⟨b', c', hf, hg, hR'⟩ := hstep b c hR a
    · exact Or.inl ⟨e, by rw [hf]; rfl, by rw [hg]; rfl⟩
    · rw [hf, hg]
      exact ih hR'

-- ---------------------------------------------------------------------------
-- Lists side by side
-- ---------------------------------------------------------------------------

section SideBySide

variable {R S : α → β → Prop} {as : List α} {bs : List β}

/-- An element on the left has a partner on the right. -/
theorem exists_of_mem_left (h : List.Forall₂ R as bs) {a : α} (ha : a ∈ as) :
    ∃ b ∈ bs, R a b := by
  induction h with
  | nil => exact absurd ha (by simp)
  | cons hab _ ih =>
    rcases List.mem_cons.1 ha with rfl | ha
    · exact ⟨_, List.mem_cons_self, hab⟩
    · obtain ⟨b, hb, hr⟩ := ih ha
      exact ⟨b, List.mem_cons_of_mem _ hb, hr⟩

/-- An element on the right has a partner on the left. -/
theorem exists_of_mem_right (h : List.Forall₂ R as bs) {b : β} (hb : b ∈ bs) :
    ∃ a ∈ as, R a b :=
  exists_of_mem_left h.flip hb

/-- At the same place stand elements side by side. -/
theorem rel_getElem? (h : List.Forall₂ R as bs) (n : Nat) : Option.Rel R as[n]? bs[n]? := by
  induction h generalizing n with
  | nil => exact .none
  | cons hab _ ih =>
    cases n with
    | zero => exact .some hab
    | succ n =>
      rw [List.getElem?_cons_succ, List.getElem?_cons_succ]
      exact ih n

/-- The partner stands at the same place. -/
theorem exists_getElem?_of_forall₂ (h : List.Forall₂ R as bs) {n : Nat} {a : α}
    (ha : as[n]? = some a) : ∃ b, bs[n]? = some b ∧ R a b := by
  have hrel := rel_getElem? h n
  rw [ha] at hrel
  cases hb : bs[n]? with
  | none =>
    rw [hb] at hrel
    cases hrel
  | some b =>
    rw [hb] at hrel
    cases hrel with
    | some hab => exact ⟨b, rfl, hab⟩

/-- Places of one list hold the same exactly if they do in the other. -/
theorem getElem?_eq_iff_of_forall₂ (hR : Relator.BiUnique R) (h : List.Forall₂ R as bs)
    (i j : Nat) : as[i]? = as[j]? ↔ bs[i]? = bs[j]? := by
  have hi := rel_getElem? h i
  have hj := rel_getElem? h j
  generalize as[i]? = x, as[j]? = x', bs[i]? = y, bs[j]? = y' at hi hj ⊢
  cases hi with
  | none => cases hj <;> simp
  | some hab =>
    cases hj with
    | none => simp
    | some hab' =>
      rw [Option.some.injEq, Option.some.injEq]
      exact Relator.rel_eq hR hab hab'

/-- Two related options are both empty or both filled. -/
theorem rel_cases {x : Option α} {y : Option β} (h : Option.Rel R x y) :
    (x = none ∧ y = none) ∨ ∃ a b, x = some a ∧ y = some b ∧ R a b := by
  cases h with
  | none => exact Or.inl ⟨rfl, rfl⟩
  | some hab => exact Or.inr ⟨_, _, rfl, rfl, hab⟩

/-- Related options are both there or both not. -/
theorem isSome_eq_of_rel {x : Option α} {y : Option β} (h : Option.Rel R x y) :
    x.isSome = y.isSome := by
  cases h with
  | none => rfl
  | some _ => rfl

/-- Related steps on related values have related outcomes. -/
theorem rel_bind {γ δ : Type} {T : γ → δ → Prop} {f : α → Option γ} {g : β → Option δ}
    {x : Option α} {y : Option β} (h : Option.Rel R x y)
    (hfg : ∀ a b, R a b → Option.Rel T (f a) (g b)) : Option.Rel T (x.bind f) (y.bind g) := by
  cases h with
  | none => exact .none
  | some hab => exact hfg _ _ hab

/-- What is read off elements side by side is equal if it is for each two of them. -/
theorem bind_eq_of_rel {γ : Type} {f : α → Option γ} {g : β → Option γ} {x : Option α}
    {y : Option β} (h : Option.Rel R x y) (hfg : ∀ a b, R a b → f a = g b) :
    x.bind f = y.bind g := by
  cases h with
  | none => rfl
  | some hab => exact hfg _ _ hab

/-- Functions that agree on partners map the lists to the same list. -/
theorem map_eq_of_forall₂ {γ : Type} {f : α → γ} {g : β → γ} (h : List.Forall₂ R as bs)
    (hfg : ∀ a b, R a b → f a = g b) : as.map f = bs.map g := by
  induction h with
  | nil => rfl
  | cons hab _ ih => rw [List.map_cons, List.map_cons, hfg _ _ hab, ih]

/-- Repeated partners are partners. -/
theorem forall₂_replicate {a : α} {b : β} (hab : R a b) (n : Nat) :
    List.Forall₂ R (List.replicate n a) (List.replicate n b) := by
  induction n with
  | zero => exact .nil
  | succ n ih => exact .cons hab ih

/-- A map that sees the place respects partners if it does so at each place. -/
theorem forall₂_mapIdx {γ δ : Type} {T : γ → δ → Prop} {f : Nat → α → γ} {g : Nat → β → δ}
    (h : List.Forall₂ R as bs)
    (hfg : ∀ k, k < as.length → ∀ a b, R a b → T (f k a) (g k b)) :
    List.Forall₂ T (as.mapIdx f) (bs.mapIdx g) := by
  induction h generalizing f g with
  | nil => exact .nil
  | @cons a b as bs hab _ ih =>
    rw [List.mapIdx_cons, List.mapIdx_cons]
    refine .cons (hfg 0 (Nat.succ_pos _) a b hab) (ih ?_)
    intro k hk
    exact hfg (k + 1) (Nat.succ_lt_succ hk)

/-- `List.Forall₂.imp` with the element at hand. -/
theorem forall₂_imp_of_mem (h : List.Forall₂ R as bs)
    (himp : ∀ a ∈ as, ∀ b ∈ bs, R a b → S a b) : List.Forall₂ S as bs := by
  induction h with
  | nil => exact .nil
  | cons hab _ ih =>
    refine .cons (himp _ List.mem_cons_self _ List.mem_cons_self hab) (ih ?_)
    intro a ha b hb
    exact himp a (List.mem_cons_of_mem _ ha) b (List.mem_cons_of_mem _ hb)

/-- Partners of partners, where only the elements at hand need a common relation. -/
theorem forall₂_trans_of_mem {γ : Type} {S : β → γ → Prop} {T : α → γ → Prop} {cs : List γ}
    (h : List.Forall₂ R as bs) (h' : List.Forall₂ S bs cs)
    (htrans : ∀ a ∈ as, ∀ b c, R a b → S b c → T a c) : List.Forall₂ T as cs := by
  induction h generalizing cs with
  | nil => cases h'; exact .nil
  | cons hab _ ih =>
    obtain ⟨c, rest, hbc, hrest, rfl⟩ := List.forall₂_cons_left_iff.1 h'
    refine .cons (htrans _ List.mem_cons_self _ _ hab hbc) (ih hrest ?_)
    intro a ha
    exact htrans a (List.mem_cons_of_mem _ ha)

/-- What stands between two lists, element by element, is a list. -/
theorem exists_between {γ : Type} {S : β → γ → Prop} {cs : List γ}
    (h : List.Forall₂ (fun a c => ∃ b, R a b ∧ S b c) as cs) :
    ∃ bs, List.Forall₂ R as bs ∧ List.Forall₂ S bs cs := by
  induction h with
  | nil => exact ⟨[], .nil, .nil⟩
  | cons hac _ ih =>
    obtain ⟨b, hab, hbc⟩ := hac
    obtain ⟨bs, hleft, hright⟩ := ih
    exact ⟨b :: bs, .cons hab hleft, .cons hbc hright⟩

/-- Lists that stand beside the same list are equal if their elements are. -/
theorem eq_of_forall₂ {as' : List α} (h : List.Forall₂ R as bs) (h' : List.Forall₂ S as' bs)
    (heq : ∀ a ∈ as, ∀ b a', R a b → S a' b → a = a') : as = as' := by
  induction h generalizing as' with
  | nil => exact (List.forall₂_nil_right_iff.1 h').symm
  | cons hab _ ih =>
    obtain ⟨a', rest, ha', hrest, rfl⟩ := List.forall₂_cons_right_iff.1 h'
    rw [heq _ List.mem_cons_self _ _ hab ha',
      ih hrest fun a ha => heq a (List.mem_cons_of_mem _ ha)]

/-- What holds of any two elements in their order carries over to those beside them. -/
theorem pairwise_of_forall₂ {P : α → α → Prop} {Q : β → β → Prop} (h : List.Forall₂ R as bs)
    (hP : as.Pairwise P)
    (himp : ∀ a ∈ as, ∀ a' ∈ as, ∀ b b', R a b → R a' b' → P a a' → Q b b') :
    bs.Pairwise Q := by
  induction h with
  | nil => exact .nil
  | @cons a b as bs hab hrest ih =>
    obtain ⟨ha, hP⟩ := List.pairwise_cons.1 hP
    refine List.pairwise_cons.2 ⟨fun b' hb' => ?_, ih hP fun c hc c' hc' => ?_⟩
    · obtain ⟨a', ha', hab'⟩ := exists_of_mem_right hrest hb'
      exact himp a List.mem_cons_self a' (List.mem_cons_of_mem _ ha') b b' hab hab' (ha a' ha')
    · exact himp c (List.mem_cons_of_mem _ hc) c' (List.mem_cons_of_mem _ hc')

/-- Beside distinct elements stand distinct ones, if none stands beside two. -/
theorem nodup_of_forall₂ (h : List.Forall₂ R as bs) (hnodup : as.Nodup)
    (hinj : ∀ a ∈ as, ∀ a' ∈ as, ∀ b, R a b → R a' b → a = a') : bs.Nodup := by
  refine pairwise_of_forall₂ h hnodup fun a ha a' ha' b b' hab hab' hne heq => ?_
  exact hne (hinj a ha a' ha' b hab (heq ▸ hab'))

/-- Folds over lists side by side lead to related results if each two steps do, and the fold whose
steps may fail does not fail. -/
theorem exists_foldlM_of_forall₂ {γ δ : Type} {P : γ → δ → Prop} {f : γ → α → Except ε γ}
    {g : δ → β → δ} (h : List.Forall₂ R as bs)
    (hstep : ∀ c d, P c d → ∀ a b, R a b → ∃ c', f c a = .ok c' ∧ P c' (g d b)) {c : γ} {d : δ}
    (hP : P c d) : ∃ c', as.foldlM f c = .ok c' ∧ P c' (bs.foldl g d) := by
  induction h generalizing c d with
  | nil => exact ⟨c, rfl, hP⟩
  | cons hab _ ih =>
    obtain ⟨c', hc', hP'⟩ := hstep c d hP _ _ hab
    obtain ⟨c'', hrest, hP''⟩ := ih hP'
    exact ⟨c'', foldlM_cons_eq_ok_iff.2 ⟨c', hc', hrest⟩, hP''⟩

end SideBySide

/-- A list of values that a function takes under a condition comes from a list. -/
theorem exists_map_eq {p : α → Prop} {f : α → β} {bs : List β}
    (h : ∀ b ∈ bs, ∃ a, p a ∧ f a = b) : ∃ as : List α, (∀ a ∈ as, p a) ∧ as.map f = bs := by
  induction bs with
  | nil => exact ⟨[], by simp, rfl⟩
  | cons b bs ih =>
    obtain ⟨a, ha, rfl⟩ := h b List.mem_cons_self
    obtain ⟨as, has, rfl⟩ := ih fun b hb => h b (List.mem_cons_of_mem _ hb)
    refine ⟨a :: as, ?_, rfl⟩
    intro c hc
    rcases List.mem_cons.1 hc with rfl | hc
    · exact ha
    · exact has c hc

section Images

variable {f : α → Option β} {as : List α} {bs : List β}

/-- If every element has a value, none is filtered out. -/
theorem filterMap_eq_of_forall₂ (h : List.Forall₂ (fun a b => f a = some b) as bs) :
    as.filterMap f = bs := by
  induction h with
  | nil => rfl
  | cons hab _ ih => rw [List.filterMap_cons_some hab, ih]

/-- The value at a place is that of the element there. -/
theorem getElem?_eq_some_iff_of_forall₂ (h : List.Forall₂ (fun a b => f a = some b) as bs)
    {n : Nat} {b : β} : bs[n]? = some b ↔ ∃ a, as[n]? = some a ∧ f a = some b := by
  induction h generalizing n with
  | nil => simp
  | @cons a c as bs hac _ ih =>
    cases n with
    | zero => simp [hac]
    | succ n => simpa using ih

end Images

-- ---------------------------------------------------------------------------
-- Lists in lexicographic order
-- ---------------------------------------------------------------------------

/-- A map that keeps values apart and in their order keeps lists in their order. -/
theorem lex_of_lex_map {r : α → α → Prop} {s : β → β → Prop} {f : α → β}
    (hf : Function.Injective f) (hrel : ∀ a b, s (f a) (f b) → r a b) {as bs : List α}
    (h : List.Lex s (as.map f) (bs.map f)) : List.Lex r as bs := by
  induction as generalizing bs with
  | nil =>
    cases bs with
    | nil => cases h
    | cons b bs => exact .nil
  | cons a as ih =>
    cases bs with
    | nil => cases h
    | cons b bs =>
      rw [List.map_cons, List.map_cons] at h
      -- the first elements decide, or they are equal and injectivity gives them back
      obtain hab | ⟨hab, hrest⟩ := List.cons_lex_cons_iff.1 h
      · exact .rel (hrel a b hab)
      · rw [hf hab]
        exact .cons (ih hrest)

end TreePattern
