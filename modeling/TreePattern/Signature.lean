import TreePattern.BuildError
import TreePattern.Numbering
import TreePattern.Tree

/-!
# Signatures

The symbols that patterns have used so far, each with its one arity. The wildcard is always
the symbol number 0. Registering a pattern checks that every node has as many children as its
symbol allows and records the symbols that are new, in pre-order; a pattern that fails leaves
no trace, since the extended signature is only returned on success.
-/

namespace TreePattern

inductive SymbolKind where
  | wildcard
  | terminal
  | operator
deriving DecidableEq

/-- A numbered symbol together with its arity. -/
structure Symbol where
  id : SymbolId
  name : String
  arity : Nat
deriving DecidableEq

namespace Symbol

def kind (s : Symbol) : SymbolKind :=
  if s.name = wildcardSymbol then .wildcard else if s.arity = 0 then .terminal else .operator

def isTerminal (s : Symbol) : Bool := s.kind = .terminal

def isOperator (s : Symbol) : Bool := s.kind = .operator

end Symbol

/-- The number of the wildcard in every signature. -/
def Symbol.wildcardId : SymbolId := ⟨0⟩

structure Signature where
  names : Numbering .symbol String
  /-- The arity of each symbol, by number. -/
  arities : Array Nat
  size_arities : arities.size = names.size
  wildcard_name : names.get? Symbol.wildcardId = some wildcardSymbol
  wildcard_arity : arities[0]? = some 0

namespace Signature

/-- The signature of the wildcard alone. -/
def empty : Signature where
  names := Numbering.empty.insert wildcardSymbol
  arities := #[0]
  size_arities := rfl
  wildcard_name := rfl
  wildcard_arity := rfl

def size (sig : Signature) : Nat := sig.names.size

-- ---------------------------------------------------------------------------
-- Looking symbols up
-- ---------------------------------------------------------------------------

/-- The symbol with number `id`. -/
def symbol? (sig : Signature) (id : SymbolId) : Option Symbol :=
  match sig.names.get? id, sig.arities[id.val]? with
  | some name, some arity => some ⟨id, name, arity⟩
  | _, _ => none

def idOf? (sig : Signature) (name : String) : Option SymbolId := sig.names.idOf? name

/-- The symbol called `name`. -/
def find? (sig : Signature) (name : String) : Option Symbol := (sig.idOf? name).bind sig.symbol?

def arityOf? (sig : Signature) (name : String) : Option Nat := (sig.find? name).map Symbol.arity

/-- All symbols by number. -/
def symbols (sig : Signature) : List Symbol := sig.names.ids.filterMap sig.symbol?

/-- All symbols by name. -/
def byName (sig : Signature) : List Symbol :=
  sig.names.numbers.toList.filterMap fun entry => sig.symbol? entry.2

/-- The symbols with children, by name. -/
def operators (sig : Signature) : List Symbol := sig.byName.filter Symbol.isOperator

/-- The symbols without children, by name; the wildcard is not among them. -/
def terminals (sig : Signature) : List Symbol := sig.byName.filter Symbol.isTerminal

/-- Every name with a number belongs to a symbol, because each has an arity as well. -/
theorem symbol?_isSome {sig : Signature} {name : String} {id : SymbolId}
    (h : sig.names.get? id = some name) : (sig.symbol? id).isSome := by
  have hlt : id.val < sig.arities.size := sig.size_arities ▸ Numbering.val_lt_size_of_get? h
  rw [symbol?, h, Array.getElem?_eq_getElem hlt]
  rfl

theorem find?_eq_none_iff {sig : Signature} {name : String} :
    sig.find? name = none ↔ sig.idOf? name = none := by
  cases h : sig.idOf? name with
  | none => simp [find?, h]
  | some id =>
    have hsome := symbol?_isSome (Numbering.idOf?_eq_some_iff.1 h)
    rw [find?, h, Option.bind_some, ← Option.not_isSome_iff_eq_none]
    simp [hsome]

-- ---------------------------------------------------------------------------
-- Registering patterns
-- ---------------------------------------------------------------------------

/-- Records a new symbol under the next number. -/
def add (sig : Signature) (name : String) (arity : Nat) (h : sig.idOf? name = none) :
    Signature where
  names := sig.names.insert name
  arities := sig.arities.push arity
  size_arities := by
    rw [Array.size_push, sig.size_arities, Numbering.size_insert_of_idOf?_eq_none h]
  wildcard_name := Numbering.get?_insert_of_get? sig.wildcard_name
  wildcard_arity := by
    have hlt := (Array.getElem?_eq_some_iff.1 sig.wildcard_arity).1
    rw [Array.getElem?_push, if_neg (Nat.ne_of_lt hlt)]
    exact sig.wildcard_arity

/-- Takes in one node: its symbol is recorded if it is new, else the node must have as many
children as the symbol had before. -/
def record (sig : Signature) (t : Tree) : Except BuildError Signature :=
  match h : sig.find? t.symbol with
  | none => .ok (sig.add t.symbol t.arity (find?_eq_none_iff.1 h))
  | some s =>
    if s.arity = t.arity then .ok sig
    else .error (.arityConflict t.symbol s.arity t.arity)

/-- Takes in every node of a pattern, each node before its children. -/
def register (sig : Signature) (pattern : Tree) : Except BuildError Signature :=
  pattern.preOrder.foldlM record sig

end Signature

end TreePattern
