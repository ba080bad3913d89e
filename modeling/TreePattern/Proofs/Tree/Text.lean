import TreePattern.Tree

/-!
# The text of a tree

Nothing is escaped in the text of a tree, so two trees can have the same text. They cannot if no
symbol holds a blank or a closing parenthesis: then the root's symbol ends where the first of these
stands, which is where the first child or the end of the tree is announced, and so on for every
child. A text that begins with that of such a tree determines the tree and what follows it.

## Results

* `Tree.text_append_inj` — a tree is determined by a text that begins with its own.
* `Tree.render_eq_iff`   — trees with plain symbols are told apart by their texts.
-/

namespace TreePattern

/-- Lists that hold no delimiter end where the first delimiter stands. -/
theorem append_inj_of_delimiter {α : Type} {isDelimiter : α → Prop} {as bs rest rest' : List α}
    {d d' : α} (has : ∀ a ∈ as, ¬ isDelimiter a) (hbs : ∀ b ∈ bs, ¬ isDelimiter b)
    (hd : isDelimiter d) (hd' : isDelimiter d') (h : as ++ d :: rest = bs ++ d' :: rest') :
    as = bs ∧ d :: rest = d' :: rest' := by
  induction as generalizing bs with
  | nil =>
    cases bs with
    | nil => exact ⟨rfl, h⟩
    | cons b bs =>
      -- one side would have a delimiter where the other has none
      obtain rfl : d = b := (List.cons.inj h).1
      exact absurd hd (hbs d List.mem_cons_self)
  | cons a as ih =>
    cases bs with
    | nil =>
      obtain rfl : a = d' := (List.cons.inj h).1
      exact absurd hd' (has a List.mem_cons_self)
    | cons b bs =>
      rw [List.cons_append, List.cons_append, List.cons.injEq] at h
      obtain ⟨rfl, h⟩ := h
      obtain ⟨rfl, hrest⟩ := ih (fun c hc => has c (List.mem_cons_of_mem _ hc))
        (fun c hc => hbs c (List.mem_cons_of_mem _ hc)) h
      exact ⟨rfl, hrest⟩

namespace Tree

-- ---------------------------------------------------------------------------
-- Characters
-- ---------------------------------------------------------------------------

/-- The text of a tree, character by character. -/
def text (t : Tree) : List Char := t.render.toList

/-- What stands after the symbol of a tree with the given children. -/
def textAfterSymbol : List Tree → List Char
  | [] => [')']
  | t :: ts => ' ' :: (t.text ++ textAfterSymbol ts)

theorem text_node (s : String) (ts : List Tree) :
    (node s ts).text = '(' :: (s.toList ++ textAfterSymbol ts) := by
  have hafter : (String.join ((ts.map render).map (" " ++ ·)) ++ ")").toList =
      textAfterSymbol ts := by
    rw [String.toList_append, String.toList_join]
    induction ts with
    | nil => rfl
    | cons t ts ih =>
      rw [List.map_cons, List.map_cons, List.flatMap_cons, List.append_assoc, ih,
        String.toList_append]
      rfl
  rw [text, render_node, String.append_assoc, String.append_assoc, String.toList_append,
    String.toList_append, hafter]
  rfl

theorem exists_textAfterSymbol_eq_cons (ts : List Tree) :
    ∃ c rest, textAfterSymbol ts = c :: rest ∧ (c = ' ' ∨ c = ')') := by
  cases ts with
  | nil => exact ⟨_, _, rfl, Or.inr rfl⟩
  | cons t ts => exact ⟨_, _, rfl, Or.inl rfl⟩

-- ---------------------------------------------------------------------------
-- Plain symbols
-- ---------------------------------------------------------------------------

/-- No symbol of the tree holds a blank or a closing parenthesis. -/
def IsPlain (t : Tree) : Prop := ∀ u ∈ t.preOrder, ∀ c ∈ u.symbol.toList, c ≠ ' ' ∧ c ≠ ')'

instance (t : Tree) : Decidable t.IsPlain :=
  decidable_of_iff (t.preOrder.all fun u => u.symbol.toList.all fun c => c != ' ' && c != ')')
    (by simp [IsPlain])

theorem isPlain_node_iff {s : String} {ts : List Tree} :
    (node s ts).IsPlain ↔ (∀ c ∈ s.toList, c ≠ ' ' ∧ c ≠ ')') ∧ ∀ t ∈ ts, t.IsPlain := by
  simp only [IsPlain, preOrder_eq (node s ts), List.forall_mem_cons, List.forall_mem_flatMap,
    children, symbol]

-- ---------------------------------------------------------------------------
-- Reading a text back
-- ---------------------------------------------------------------------------

/-- If each of the first children is determined by its text, then so are all of them together. -/
theorem textAfterSymbol_append_inj {ts us : List Tree} {rest rest' : List Char}
    (hts : ∀ t ∈ ts, ∀ u ∈ us, ∀ {r r' : List Char}, t.text ++ r = u.text ++ r' → t = u ∧ r = r')
    (h : textAfterSymbol ts ++ rest = textAfterSymbol us ++ rest') : ts = us ∧ rest = rest' := by
  induction ts generalizing us with
  | nil =>
    cases us with
    | nil => exact ⟨rfl, List.append_cancel_left h⟩
    | cons u us => exact absurd (List.cons.inj h).1 (by decide)
  | cons t ts ih =>
    cases us with
    | nil => exact absurd (List.cons.inj h).1 (by decide)
    | cons u us =>
      rw [textAfterSymbol, textAfterSymbol, List.cons_append, List.cons_append, List.cons.injEq,
        List.append_assoc, List.append_assoc] at h
      -- the first child is read off, and what follows it is again a list of children
      obtain ⟨rfl, hrest⟩ := hts t List.mem_cons_self u List.mem_cons_self h.2
      obtain ⟨rfl, rfl⟩ := ih (fun t' ht' u' hu' => hts t' (List.mem_cons_of_mem _ ht') u'
        (List.mem_cons_of_mem _ hu')) hrest
      exact ⟨rfl, rfl⟩

/-- A tree with plain symbols is determined by any text that begins with its own, and so is what
follows it. -/
theorem text_append_inj {t u : Tree} (ht : t.IsPlain) (hu : u.IsPlain) {rest rest' : List Char}
    (h : t.text ++ rest = u.text ++ rest') : t = u ∧ rest = rest' := by
  induction t generalizing u rest rest' with
  | node s ts ih =>
    obtain ⟨s', us⟩ := u
    obtain ⟨hs, hts⟩ := isPlain_node_iff.1 ht
    obtain ⟨hs', hus⟩ := isPlain_node_iff.1 hu
    obtain ⟨d, after, hafter, hd⟩ := exists_textAfterSymbol_eq_cons ts
    obtain ⟨d', after', hafter', hd'⟩ := exists_textAfterSymbol_eq_cons us
    rw [text_node, text_node, List.cons_append, List.cons_append, List.cons.injEq,
      List.append_assoc, List.append_assoc, hafter, hafter', List.cons_append, List.cons_append] at h
    -- both symbols end at the first blank or closing parenthesis
    obtain ⟨hsymbol, h⟩ := append_inj_of_delimiter (fun c hc => not_or.2 (hs c hc))
      (fun c hc => not_or.2 (hs' c hc)) hd hd' h.2
    rw [← List.cons_append, ← List.cons_append, ← hafter, ← hafter'] at h
    obtain ⟨rfl, rfl⟩ := textAfterSymbol_append_inj
      (fun t ht' u hu' _ _ => ih t ht' (hts t ht') (hus u hu')) h
    exact ⟨by rw [String.toList_inj.1 hsymbol], rfl⟩

/-- Two trees in whose symbols there is neither a blank nor a closing parenthesis have the same text
only if they are the same tree. -/
theorem render_eq_iff {t u : Tree} (ht : t.IsPlain) (hu : u.IsPlain) :
    t.render = u.render ↔ t = u := by
  refine ⟨fun h => ?_, congrArg render⟩
  have htext : t.text ++ [] = u.text ++ [] := by rw [text, h, text]
  exact (text_append_inj ht hu htext).1

/-- Two children, or one below the other, also where symbols are empty. -/
theorem render_eq_iff_for_empty_symbols :
    let t := node "" [leaf "b", leaf ""]
    let u := node "" [node "b" [leaf ""]]
    t.IsPlain ∧ u.IsPlain ∧ (t.render = u.render ↔ t = u) := by
  have ht : (node "" [leaf "b", leaf ""]).IsPlain := by decide
  have hu : (node "" [node "b" [leaf ""]]).IsPlain := by decide
  exact ⟨ht, hu, render_eq_iff ht hu⟩

/-- A blank in a symbol can be taken for the one before a child. -/
example : (node "a" [leaf "b (c", leaf "d"]).render = (node "a (b" [leaf "c", leaf "d"]).render := by
  decide

/-- A closing parenthesis in a symbol can be taken for the end of a child. -/
example : (node "a" [leaf "b", leaf "c)"]).render = (node "a" [node "b)" [leaf "c"]]).render := by
  decide

end Tree

end TreePattern
