/-
  Nodes of the learned index, lookup and traversal as single-threaded code runs them
  (`node.rs`, `lookup.rs`, `iter.rs`).

  A node keeps the source's arrays: slot states, inline pairs and children.  Without
  other threads no slot is ever found `WRITING`; an operation that would spin on one
  has no result.
-/
import Scry.Index.Model

namespace Scry.Index

/-- Per-slot state byte. -/
inductive SlotState where
  | empty
  | writing
  | data
  | child
  | childStale
  | tombstone
  deriving DecidableEq

/-- The state indicates a child node. -/
def SlotState.isChild : SlotState → Bool
  | .child => true
  | .childStale => true
  | _ => false

/-- What is fixed when a node is constructed. -/
structure Header (K : Type) where
  model : LinearModel
  /-- boundary key of an `Ord`-based split -/
  splitKey : Option K
  capacity : ℕ

/-- Predict the slot index for a key. -/
def Header.predictSlot {K : Type} [LinearOrder K] [Key K] (h : Header K) (key : K) : ℕ :=
  match h.splitKey with
  | some sk => if key ≤ sk then 0 else h.capacity - 1
  | none => h.model.predict key h.capacity

/-- A node of the learned index tree, or the null pointer. -/
inductive Node (K V : Type) where
  | null
  | mk (head : Header K) (states : ℕ → SlotState) (inline : ℕ → Option (K × V))
      (children : ℕ → Node K V) (numTombstones : ℕ)

namespace Node
variable {K V : Type}

/-- A new node, all slots empty; the children array is allocated lazily or not, which
    no operation can tell. -/
def withHeader (head : Header K) : Node K V :=
  .mk head (fun _ => .empty) (fun _ => none) (fun _ => .null) 0

def withCapacity (model : LinearModel) (arraySize : ℕ) : Node K V :=
  withHeader ⟨model, none, arraySize⟩

/-- A node that splits keys by comparison with `boundary`. -/
def withSplitKey (boundary : K) (arraySize : ℕ) : Node K V :=
  withHeader ⟨.constant, some boundary, arraySize⟩

/-- Store an inline pair during construction. -/
def storeData : Node K V → ℕ → K → V → Node K V
  | .null, _, _, _ => .null
  | .mk h st kv ch t, idx, key, value =>
    .mk h (Function.update st idx .data) (Function.update kv idx (some (key, value))) ch t

/-- Store a child during construction. -/
def storeChild : Node K V → ℕ → Node K V → Node K V
  | .null, _, _ => .null
  | .mk h st kv ch t, idx, child =>
    .mk h (Function.update st idx .child) kv (Function.update ch idx child) t

variable [LinearOrder K] [Key K]

def predictSlot : Node K V → K → ℕ
  | .null, _ => 0
  | .mk h _ _ _ _, key => h.predictSlot key

/-- Look up a key in the tree. -/
def get : Node K V → K → Option V
  | .null, _ => none
  | .mk h st kv ch _, key =>
    let idx := h.predictSlot key
    match st idx with
    | .data => (kv idx).bind fun (k, v) => if k = key then some v else none
    | .child => (ch idx).get key
    | .childStale => (ch idx).get key
    | _ => none -- EMPTY, WRITING, TOMBSTONE

/-! ## Traversal -/

omit [LinearOrder K] [Key K] in
/-- The number of slots. -/
def capacity : Node K V → ℕ
  | .null => 0
  | .mk h _ _ _ _ => h.capacity

end Node

/-- The stack of a depth-first traversal: nodes and the next slot of each. -/
abbrev Stack (K V : Type) := List (Node K V × ℕ)

/-- The result of one iteration of a traversal loop. -/
inductive Visit (K V : Type) where
  /-- the traversal goes on -/
  | goOn (stack : Stack K V)
  /-- it yields a pair -/
  | item (key : K) (value : V) (stack : Stack K V)
  /-- the stack is empty -/
  | done
  /-- it waits for a slot that is `WRITING` -/
  | spin

section Traversal
variable {K V : Type}

/-- Push a child unless it is null. -/
def Stack.push (stack : Stack K V) (child : Node K V) (idx : ℕ) : Stack K V :=
  match child with
  | .null => stack
  | child => (child, idx) :: stack

/-- Look at a slot; `start` is where a traversal of a child begins. -/
def visitSlot (st : ℕ → SlotState) (kv : ℕ → Option (K × V)) (ch : ℕ → Node K V)
    (start : Node K V → ℕ) (idx : ℕ) (stack : Stack K V) : Visit K V :=
  match st idx with
  | .data =>
    match kv idx with
    | some (key, value) => .item key value stack
    | none => .goOn stack
  | .child => .goOn (stack.push (ch idx) (start (ch idx)))
  | .childStale => .goOn (stack.push (ch idx) (start (ch idx)))
  | .writing => .spin
  | _ => .goOn stack -- EMPTY, TOMBSTONE

/-- One iteration of the loop in `Iter::next`. -/
def visit : Stack K V → Visit K V
  | [] => .done
  | (.null, _) :: rest => .goOn rest
  | (.mk h st kv ch t, idx) :: rest =>
    if idx ≥ h.capacity then .goOn rest
    else visitSlot st kv ch (fun _ => 0) idx ((.mk h st kv ch t, idx + 1) :: rest)

/-- One iteration of the loop in `last_entry`, which scans the slots from right to
    left. -/
def visitBack : Stack K V → Visit K V
  | [] => .done
  | (.null, _) :: rest => .goOn rest
  | (.mk _ _ _ _ _, 0) :: rest => .goOn rest
  | (.mk h st kv ch t, idx + 1) :: rest =>
    visitSlot st kv ch Node.capacity idx ((.mk h st kv ch t, idx) :: rest)

/-- The next pair of a traversal and what remains of it, within a number of
    iterations. -/
def nextItem (visit : Stack K V → Visit K V) : ℕ → Stack K V → Option ((K × V) × Stack K V)
  | 0, _ => none
  | n + 1, stack =>
    match visit stack with
    | .goOn stack => nextItem visit n stack
    | .item key value stack => some ((key, value), stack)
    | .done => none
    | .spin => none

/-- The pairs that `Iter::next` yields until it is exhausted. -/
def collect (fuel : ℕ) : ℕ → Stack K V → List (K × V)
  | 0, _ => []
  | n + 1, stack =>
    match nextItem visit fuel stack with
    | none => []
    | some (pair, stack) => pair :: collect fuel n stack

namespace Node

/-- The number of iterations that suffices for a traversal of the tree. -/
def visits : Node K V → ℕ
  | .null => 1
  | .mk h _ _ ch _ => 1 + ((List.range h.capacity).map fun i => 1 + (ch i).visits).sum

/-- Collect all pairs of the tree in sorted order. -/
def sortedPairs (root : Node K V) : List (K × V) :=
  collect (root.visits + 1) (root.visits + 1) [(root, 0)]

/-- The first (minimum) pair of the tree. -/
def firstEntry (root : Node K V) : Option (K × V) :=
  (nextItem visit (root.visits + 1) [(root, 0)]).map Prod.fst

/-- The last (maximum) pair of the tree. -/
def lastEntry (root : Node K V) : Option (K × V) :=
  (nextItem visitBack (root.visits + 1) [(root, root.capacity)]).map Prod.fst

end Node

end Traversal

end Scry.Index
