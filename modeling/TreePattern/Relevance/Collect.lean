import TreePattern.Relevance

/-!
# Collecting the relevant members

`Relevance.ofForest` asks for each slot which members stand there. They can as well be collected in
one walk over the members with the operator at their root: each child is entered into the slot at
its position. A member with more children than there are slots has no place for the last of them.
-/

namespace TreePattern

/-- The children of a member. -/
def Forest.childrenOf (f : Forest) (i : MemberId) : Except BuildError (List MemberId) := do
  return (← found (f.node? i)).children

namespace Relevance

/-- Enters the given children into the slots, the first one into the first slot. -/
def enter : List (Std.TreeSet MemberId) → List MemberId →
    Except BuildError (List (Std.TreeSet MemberId))
  | slots, [] => .ok slots
  | [], _ :: _ => .error .outOfRange
  | slot :: slots, child :: children => do
    let rest ← enter slots children
    return slot.insert child :: rest

/-- The slots of `op`, filled with the children of one member after the other. -/
def collectSlots (f : Forest) (op : Symbol) : Except BuildError (List (Std.TreeSet MemberId)) :=
  (f.withRoot op.id).foldlM (fun slots i => do enter slots (← f.childrenOf i))
    (List.replicate op.arity ∅)

/-- The projection for every operator of the signature, collected member by member. -/
def collect (sig : Signature) (f : Forest) : Except BuildError Relevance := do
  let entries ← sig.operators.mapM fun op => return (op.id, ← collectSlots f op)
  return ⟨Std.TreeMap.ofList entries⟩

end Relevance

end TreePattern
