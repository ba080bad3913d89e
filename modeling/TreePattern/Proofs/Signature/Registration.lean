import TreePattern.Proofs.Signature.Symbols
import TreePattern.Proofs.Traversal

/-!
# What registration records

Registering extends a signature: what it knew, it still knows, with the same number and the
same arity. Afterwards every node of the registered pattern has as many children as its symbol
allows.

## Results

* `Signature.register_eq_ok`         — what a registered pattern leaves behind.
* `Signature.register_eq_error`      — why a pattern is refused.
* `Signature.foldlM_register_eq_ok`  — what the registered patterns of a list leave behind.
-/

namespace TreePattern

namespace Signature

/-- Every symbol of the first signature is one of the second, with its number and arity. -/
def Extends (sig sig' : Signature) : Prop :=
  ∀ name s, sig.find? name = some s → sig'.find? name = some s

/-- The signature knows the symbol of the node, with as many children as the node has. -/
def Fits (sig : Signature) (node : Tree) : Prop := sig.arityOf? node.symbol = some node.arity

/-- A signature extends itself. -/
theorem Extends.refl (sig : Signature) : sig.Extends sig := fun _ _ h => h

/-- Extensions can be chained. -/
theorem Extends.trans {sig sig' sig'' : Signature} (h : sig.Extends sig')
    (h' : sig'.Extends sig'') : sig.Extends sig'' :=
  fun name s hs => h' name s (h name s hs)

/-- What fits a signature fits its extensions. -/
theorem Fits.of_extends {sig sig' : Signature} {node : Tree} (hfits : sig.Fits node)
    (h : sig.Extends sig') : sig'.Fits node := by
  obtain ⟨s, hs, ha⟩ := arityOf?_eq_some_iff.1 hfits
  exact arityOf?_eq_some_iff.2 ⟨s, h _ s hs, ha⟩

-- ---------------------------------------------------------------------------
-- One node
-- ---------------------------------------------------------------------------

/-- A new symbol changes no other. -/
theorem extends_add {sig : Signature} {name : String} {arity : Nat}
    (h : sig.idOf? name = none) : sig.Extends (sig.add name arity h) := by
  intro n s hs
  obtain ⟨hn, hs⟩ := find?_eq_some_iff.1 hs
  obtain ⟨-, hname, harity⟩ := symbol?_eq_some_iff.1 hs
  have hlt := (Array.getElem?_eq_some_iff.1 harity).1
  refine find?_eq_some_iff.2 ⟨hn, symbol?_eq_some_iff.2 ⟨rfl, ?_, ?_⟩⟩
  · exact Numbering.get?_insert_of_get? hname
  · rw [add, Array.getElem?_push, if_neg (Nat.ne_of_lt hlt)]
    exact harity

/-- A new symbol is found under the next number. -/
theorem find?_add_self {sig : Signature} {name : String} {arity : Nat}
    (h : sig.idOf? name = none) :
    (sig.add name arity h).find? name = some ⟨⟨sig.size⟩, name, arity⟩ := by
  have hid : (sig.names.insert name).idOf? name = some ⟨sig.size⟩ := by
    rw [Numbering.idOf?_insert_self, Numbering.intern, show sig.names.idOf? name = none from h]
    rfl
  refine find?_eq_some_iff.2 ⟨rfl, symbol?_eq_some_iff.2 ⟨rfl, ?_, ?_⟩⟩
  · exact Numbering.idOf?_eq_some_iff.1 hid
  · rw [add, Array.getElem?_push, if_pos (show sig.size = _ from sig.size_arities.symm)]

/-- Recording a node keeps all known symbols, and then the node fits. -/
theorem record_eq_ok {sig sig' : Signature} {node : Tree} (h : sig.record node = .ok sig') :
    sig.Extends sig' ∧ sig'.Fits node := by
  unfold record at h
  split at h
  · next hnone =>
    cases h
    exact ⟨extends_add _, arityOf?_eq_some_iff.2 ⟨_, find?_add_self _, rfl⟩⟩
  · next s hs =>
    split at h
    · next ha =>
      cases h
      exact ⟨Extends.refl sig, arityOf?_eq_some_iff.2 ⟨s, hs, ha⟩⟩
    · exact absurd h (by simp)

/-- A node is refused only if its symbol was seen with another number of children. -/
theorem record_eq_error {sig : Signature} {node : Tree} {e : BuildError}
    (h : sig.record node = .error e) :
    ∃ n, n ≠ node.arity ∧ e = .arityConflict node.symbol n node.arity := by
  unfold record at h
  split at h
  · exact absurd h (by simp)
  · next s hs =>
    split at h
    · exact absurd h (by simp)
    · next ha =>
      cases h
      exact ⟨s.arity, ha, rfl⟩

-- ---------------------------------------------------------------------------
-- Whole patterns
-- ---------------------------------------------------------------------------

/-- A fold by steps that extend the signature extends it, and what each step establishes about
its element holds at the end if extensions keep it. -/
theorem foldlM_extends {α : Type} {f : Signature → α → Except BuildError Signature}
    {motive : Signature → α → Prop}
    (hstep : ∀ sig sig' a, f sig a = .ok sig' → sig.Extends sig' ∧ motive sig' a)
    (hkeep : ∀ sig sig' a, motive sig a → sig.Extends sig' → motive sig' a)
    {as : List α} {sig sig' : Signature} (h : as.foldlM f sig = .ok sig') :
    sig.Extends sig' ∧ ∀ a ∈ as, motive sig' a := by
  induction as generalizing sig with
  | nil => cases h; exact ⟨Extends.refl _, by simp⟩
  | cons a as ih =>
    obtain ⟨mid, hmid, hrest⟩ := foldlM_cons_eq_ok_iff.1 h
    obtain ⟨hext, ha⟩ := hstep _ _ _ hmid
    obtain ⟨hext', has⟩ := ih hrest
    refine ⟨hext.trans hext', ?_⟩
    intro b hb
    rcases List.mem_cons.1 hb with rfl | hb
    · exact hkeep _ _ _ ha hext'
    · exact has b hb

/-- Registering a pattern keeps all known symbols, and then every node of it fits. -/
theorem register_eq_ok {sig sig' : Signature} {pattern : Tree}
    (h : sig.register pattern = .ok sig') :
    sig.Extends sig' ∧ ∀ node ∈ pattern.preOrder, sig'.Fits node :=
  foldlM_extends (motive := Fits) (fun _ _ _ h => record_eq_ok h)
    (fun _ _ _ hfits hext => hfits.of_extends hext) h

/-- A pattern is refused for one of its nodes. -/
theorem register_eq_error {sig : Signature} {pattern : Tree} {e : BuildError}
    (h : sig.register pattern = .error e) : ∃ node ∈ pattern.preOrder,
      ∃ n, n ≠ node.arity ∧ e = .arityConflict node.symbol n node.arity := by
  obtain ⟨node, hnode, sig', hfailed⟩ := exists_of_foldlM_eq_error h
  exact ⟨node, hnode, record_eq_error hfailed⟩

/-- After the registrations all nodes fit, and all earlier symbols are kept. -/
theorem foldlM_register_eq_ok {sig sig' : Signature} {patterns : List Tree}
    (h : patterns.foldlM register sig = .ok sig') :
    sig.Extends sig' ∧ ∀ p ∈ patterns, ∀ node ∈ p.preOrder, sig'.Fits node :=
  foldlM_extends (motive := fun sig p => ∀ node ∈ p.preOrder, sig.Fits node)
    (fun _ _ _ h => register_eq_ok h)
    (fun _ _ _ hfits hext node hn => (hfits node hn).of_extends hext) h

end Signature

end TreePattern
