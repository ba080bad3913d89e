import TreePattern.Signature
import TreePattern.Tree.Walk

/-!
# A lexicon

The symbols of a signature in three stores that know nothing of each other: the names by number, the
numbers by name, and the arities by number. Nothing keeps them in step but those who add to them. A
name gets a number when it is interned, its arity is pushed by whoever interned it.

A pattern is registered in two walks. The first only looks: it compares each node with the arity of
its symbol or, if the symbol is unknown, with the first node of the pattern that has it, which it
remembers in a map of its own. The second walk adds the unknown symbols and checks nothing any more.
-/

namespace TreePattern

/-- Names and their numbers. -/
structure NameTable where
  /-- The name of each number. -/
  names : Array String
  /-- The number of each name. -/
  numbers : Std.TreeMap String SymbolId

namespace NameTable

def empty : NameTable := ⟨#[], ∅⟩

def size (table : NameTable) : Nat := table.names.size

def idOf? (table : NameTable) (name : String) : Option SymbolId := table.numbers[name]?

def name? (table : NameTable) (id : SymbolId) : Option String := table.names[id.val]?

/-- The numbers of all names, ascending. -/
def ids (table : NameTable) : List SymbolId := Index.range .symbol table.size

/-- The number of a name, which is the next one if it has none, and the table that knows it. -/
def intern (table : NameTable) (name : String) : SymbolId × NameTable :=
  match table.idOf? name with
  | some id => (id, table)
  | none =>
    let id : SymbolId := ⟨table.names.size⟩
    (id, ⟨table.names.push name, table.numbers.insert name id⟩)

end NameTable

/-- The bytes by which names are compared. -/
def utf8 (name : String) : List UInt8 := name.toUTF8.data.toList

structure Lexicon where
  symbols : NameTable
  /-- The arity of each symbol, by number. -/
  arities : Array Nat
  wildcard : SymbolId

namespace Lexicon

/-- The lexicon of the wildcard alone. -/
def empty : Lexicon :=
  let (wildcard, symbols) := NameTable.empty.intern wildcardSymbol
  ⟨symbols, #[0], wildcard⟩

-- ---------------------------------------------------------------------------
-- Looking symbols up
-- ---------------------------------------------------------------------------

def size (x : Lexicon) : Nat := x.symbols.size

def idOf? (x : Lexicon) (name : String) : Option SymbolId := x.symbols.idOf? name

def nameOf (x : Lexicon) (id : SymbolId) : Except BuildError String :=
  found (x.symbols.name? id)

def arityOf (x : Lexicon) (id : SymbolId) : Except BuildError Nat :=
  found x.arities[id.val]?

/-- The arity of the symbol called `name`, if there is such a symbol. -/
def arityOfName (x : Lexicon) (name : String) : Except BuildError (Option Nat) :=
  match x.idOf? name with
  | some id => some <$> x.arityOf id
  | none => .ok none

def kindOf (x : Lexicon) (id : SymbolId) : Except BuildError SymbolKind :=
  if id = x.wildcard then
    .ok .wildcard
  else do
    return if (← x.arityOf id) = 0 then .terminal else .operator

/-- The symbols of a kind, by name. -/
def ofKind (x : Lexicon) (kind : SymbolKind) : Except BuildError (List SymbolId) := do
  let ids ← x.symbols.ids.filterM fun id => return (← x.kindOf id) = kind
  let named ← ids.mapM fun id => return (← x.nameOf id, id)
  return (named.mergeSort fun a b => utf8 a.1 ≤ utf8 b.1).map Prod.snd

/-- The symbols with children, by name. -/
def operators (x : Lexicon) : Except BuildError (List SymbolId) := x.ofKind .operator

/-- The symbols without children, by name; the wildcard is not among them. -/
def terminals (x : Lexicon) : Except BuildError (List SymbolId) := x.ofKind .terminal

-- ---------------------------------------------------------------------------
-- Registering patterns
-- ---------------------------------------------------------------------------

/-- Compares a node with what is known of its symbol, here or from the nodes before it (`seen`). A
symbol that is unknown in both is seen from now on. -/
def checkNode (x : Lexicon) (seen : Std.TreeMap String Nat) (node : Tree) :
    Except BuildError (Std.TreeMap String Nat) := do
  let known ← x.arityOfName node.symbol
  match known.or seen[node.symbol]? with
  | some expected =>
    if expected = node.arity then
      return seen
    else
      throw (.arityConflict node.symbol expected node.arity)
  | none => return seen.insert node.symbol node.arity

/-- The first walk. -/
def check (x : Lexicon) (pattern : Tree) : Except BuildError (Std.TreeMap String Nat) :=
  Enumeration.foldlM x.checkNode ∅ pattern.walk

/-- Adds the symbol of a node, if it is unknown. -/
def recordNode (x : Lexicon) (node : Tree) : Lexicon :=
  match x.idOf? node.symbol with
  | some _ => x
  | none => { x with
      symbols := (x.symbols.intern node.symbol).2
      arities := x.arities.push node.arity }

/-- The second walk. -/
def recordAll (x : Lexicon) (pattern : Tree) : Lexicon :=
  Enumeration.foldl recordNode x pattern.walk

/-- Takes in a pattern, or refuses it. Returns which of both, and the lexicon after it. -/
def register (x : Lexicon) (pattern : Tree) : Except BuildError Unit × Lexicon :=
  match x.check pattern with
  | .error e => (.error e, x)
  | .ok _ => (.ok (), x.recordAll pattern)

/-- Takes in the patterns one after the other, whatever becomes of those before. -/
def registerAll (x : Lexicon) : List Tree → List (Except BuildError Unit) × Lexicon
  | [] => ([], x)
  | p :: ps =>
    let (answer, x) := x.register p
    let (answers, x) := x.registerAll ps
    (answer :: answers, x)

end Lexicon

end TreePattern
