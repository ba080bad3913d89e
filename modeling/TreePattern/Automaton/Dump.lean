import TreePattern.Automaton

/-!
# The text of an automaton

`Automaton.dump?` writes out the outputs that exist, a block for each: a title, then indented
lines. Operators stand in the order of their names, all else in the order of its numbers.
-/

namespace TreePattern

namespace Automaton

/-- A title and the lines below it, each line ended. -/
def block (title : String) (lines : List String) : String :=
  String.join ((title ++ ":\n") :: lines.map fun line => "  " ++ line ++ "\n")

def renderSet (set : List MemberId) : String := Index.renderAll "\x7b" "\x7d" set

/-- An operator and one of its slots. -/
def renderSlot (name : String) (k : Nat) : String := name ++ "[" ++ toString k ++ "]:"

def forestLines? (sig : Signature) (f : Forest) : Option (List String) :=
  f.members.mapM fun i => (f.tree? sig i).map fun t => i.render ++ ": " ++ t.render

def relevanceLines (sig : Signature) (r : Relevance) : List String :=
  sig.operators.flatMap fun op =>
    (List.range op.arity).map fun k =>
      let members := ((r.slot? op.id k).map Std.TreeSet.toList).getD []
      renderSlot op.name k ++ " " ++ renderSet members

def matchSetLines (sets : List (List MemberId)) : List String :=
  ((Index.range .matchSet sets.length).zip sets).map fun (state, set) =>
    state.render ++ ": " ++ renderSet set

/-- Those of the states that have a class in the slot, each with its class. -/
def classLine (states : List StateId) (name : String) (k : Nat) (slot : SlotClasses) : String :=
  let classes := states.filterMap fun state =>
    (slot.class? state).map fun c => " " ++ state.render ++ "->" ++ c.render
  renderSlot name k ++ String.join classes

def targetLine (name : String) (classes : List ClassId) (target : StateId) : String :=
  name ++ Index.renderAll "(" ")" classes ++ " -> " ++ target.render

/-- The lines of one operator, none if it has no table. -/
def classLinesOf (states : List StateId) (op : Symbol) : Option (List SlotClasses) → List String
  | some slots => slots.mapIdx (classLine states op.name)
  | none => []

/-- The lines of one operator, none if it has no table. -/
def targetLinesOf (op : Symbol) : Option (List (List ClassId × StateId)) → List String
  | some entries => entries.map fun (classes, target) => targetLine op.name classes target
  | none => []

def classLines (sig : Signature) (table : MatchSets) (tables : Transitions) : List String :=
  sig.operators.flatMap fun op =>
    classLinesOf (Index.range .matchSet table.size) op
      ((tables.operator? op.id).map OperatorTable.slots)

def targetLines (sig : Signature) (tables : Transitions) : List String :=
  sig.operators.flatMap fun op =>
    targetLinesOf op ((tables.operator? op.id).map OperatorTable.entries)

/-- The text of all outputs; `none` if the forest holds a symbol that the signature lacks. -/
def dump? (a : Automaton) : Option String := do
  let forest ← match a.forest? with
    | some f => (forestLines? a.signature f).map (block "forest")
    | none => some ""
  let relevance := match a.relevance? with
    | some r => block "projection" (relevanceLines a.signature r)
    | none => ""
  let matchSets := match a.matchSets? with
    | some table => block "match sets" (matchSetLines table.toList)
    | none => ""
  let tables := match a.matchSets?, a.tables? with
    | some table, some tables =>
      block "mu" (classLines a.signature table tables) ++
        block "theta" (targetLines a.signature tables)
    | _, _ => ""
  return forest ++ relevance ++ matchSets ++ tables

end Automaton

end TreePattern
