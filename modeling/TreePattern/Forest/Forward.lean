import TreePattern.Forest

/-!
# Building a forest in one reading

`Forest.build` shares the patterns from the last to the first. They can as well be read from
front to back. A subtree is stored only after its children, so a reading numbers subtrees in the
order in which their nodes are left. It therefore notes where the node of each stored subtree was
entered, and the subtrees are put in the order of these positions in the end. That takes three more
look-ups by handle: the position of each stored subtree, its rank in their order, and its node. None
is known to succeed here, so each of them may fail.
-/

namespace TreePattern

namespace Sharing

/-- The state of a reading. -/
structure Reading where
  pool : Pool
  /-- For each handle, the position at which the node that was stored under it was entered. -/
  positions : Array Nat
  /-- The number of nodes entered so far, which is the position of the next one. -/
  entered : Nat

namespace Reading

def empty : Reading := ⟨Numbering.empty, #[], 0⟩

def enter (r : Reading) : Reading := { r with entered := r.entered + 1 }

/-- Stores a node that was entered at `position`, unless an equal one is stored already. -/
def keep (r : Reading) (position : Nat) (node : Node .handle) : Handle × Reading :=
  match r.pool.idOf? node with
  | some handle => (handle, r)
  | none =>
    let (handle, pool) := r.pool.intern node
    (handle, { r with pool := pool, positions := r.positions.push position })

/-- A node that is in the pool is found there, and nothing changes. -/
theorem keep_of_known {r : Reading} {node : Node .handle} {handle : Handle}
    (h : r.pool.idOf? node = some handle) (position : Nat) :
    r.keep position node = (handle, r) := by
  unfold keep
  rw [h]

/-- A node that is not gets the next handle. -/
theorem keep_of_new {r : Reading} {node : Node .handle} (h : r.pool.idOf? node = none)
    (position : Nat) :
    r.keep position node =
      (⟨r.pool.size⟩,
        { r with pool := r.pool.insert node, positions := r.positions.push position }) := by
  unfold keep
  rw [Numbering.intern, h]
  rfl

/-- The position at which the node of a handle was entered. -/
def position (r : Reading) (handle : Handle) : Except BuildError Nat :=
  found r.positions[handle.val]?

/-- The handles in the order in which their nodes were entered. -/
def order (r : Reading) : Except BuildError (List Handle) := do
  let placed ← r.pool.ids.mapM fun handle => return (← r.position handle, handle)
  return (placed.mergeSort fun a b => a.1 ≤ b.1).map Prod.snd

/-- The place of each of `n` handles in the given order. -/
def ranks (n : Nat) (order : List Handle) : Except BuildError (Array MemberId) :=
  order.zipIdx.foldlM (fun ranks (handle, rank) => putAt ranks handle.val ⟨rank⟩)
    (Array.replicate n ⟨0⟩)

/-- The node of a handle, its children replaced by their ranks. -/
def ranked (r : Reading) (ranks : Array MemberId) (handle : Handle) :
    Except BuildError (Node .member) := do
  let node ← found (r.pool.get? handle)
  let children ← node.children.mapM fun child => found ranks[child.val]?
  return ⟨node.symbol, children⟩

/-- The stored nodes in the order in which they were entered, children renumbered accordingly. -/
def nodeList (r : Reading) : Except BuildError (List (Node .member)) := do
  let order ← r.order
  let ranks ← ranks r.pool.size order
  order.mapM (r.ranked ranks)

end Reading

mutual

/-- Reads a tree and returns its handle; `none` if the signature lacks one of its symbols. -/
def read (sig : Signature) : Tree → Reading → Option (Handle × Reading)
  | .node s cs, r =>
    match sig.idOf? s with
    | none => none
    | some symbol =>
      match readAll sig cs r.enter with
      | none => none
      | some (children, after) => some (after.keep r.entered ⟨symbol, children⟩)

/-- Reads a list of trees, the first one first. -/
def readAll (sig : Signature) : List Tree → Reading → Option (List Handle × Reading)
  | [], r => some ([], r)
  | t :: ts, r =>
    match read sig t r with
    | none => none
    | some (handle, r) =>
      match readAll sig ts r with
      | none => none
      | some (handles, r) => some (handle :: handles, r)

end

end Sharing

/-- The forest of the given patterns, read from the first to the last. -/
def Forest.buildForward (sig : Signature) (patterns : List Tree) : Except BuildError Forest :=
  if patterns.isEmpty then
    .error .noPatterns
  else
    match Sharing.readAll sig patterns .empty with
    | none => .error (.phaseOrder .forest .registration)
    | some (_, r) => do return ofNodes (Numbering.ofList (← r.nodeList))

end TreePattern
