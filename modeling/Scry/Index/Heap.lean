/-
  The shared memory of the learned index (`node.rs` under concurrency).

  Nodes live in a heap and refer to each other by pointers, which a rebuild tags while
  it is at work (a frozen pointer).  Memory is reclaimed only when no thread can reach
  it any more, so an address is never used twice.
-/
import Scry.Index.Map

namespace Scry.Index

/-- The address of a node: whether it is that of a root, the number of the allocation,
    and the position of the node in the tree that was allocated. -/
structure NodeId where
  isRoot : Bool
  alloc : ℕ
  path : List ℕ
  deriving DecidableEq

/-- The address of a node in a slot of the node, within one tree. -/
def NodeId.child (n : NodeId) (i : ℕ) : NodeId := ⟨false, n.alloc, n.path ++ [i]⟩

/-- A pointer to a node, possibly tagged. -/
structure Ptr where
  node : NodeId
  frozen : Bool
  deriving DecidableEq

/-- A slot of a node, as part of a path. -/
structure Edge (K : Type) where
  node : NodeId
  head : Header K
  slot : ℕ

/-- A node in memory.  A slot that is `WRITING` keeps the state in which it was claimed,
    and `route` lists the slots that lead to the node from its root; both are
    bookkeeping that no operation looks at. -/
structure Cell (K V : Type) where
  head : Header K
  route : List (Edge K)
  slots : ℕ → SlotState
  claimed : ℕ → Bool
  inline : ℕ → Option (K × V)
  children : ℕ → Option Ptr
  numTombstones : ℕ

/-- The value of a `usize` after it wrapped around. -/
def wrapUsize (x : ℤ) : ℕ := (x % 2 ^ 64).toNat

namespace Cell
variable {K V : Type}

/-- Unused memory. -/
def blank : Cell K V :=
  ⟨⟨.constant, none, 0⟩, [], fun _ => .empty, fun _ => false, fun _ => none, fun _ => none, 0⟩

/-- The state byte of a slot. -/
def state (c : Cell K V) (i : ℕ) : SlotState := if c.claimed i then .writing else c.slots i

/-- `WRITING`: the slot is owned by the thread that claimed it. -/
def claim (c : Cell K V) (i : ℕ) : Cell K V :=
  { c with claimed := Function.update c.claimed i true }

/-- Write the pair of a claimed slot and publish it as `DATA`. -/
def publishData (c : Cell K V) (i : ℕ) (key : K) (value : V) : Cell K V :=
  { c with slots := Function.update c.slots i .data
           claimed := Function.update c.claimed i false
           inline := Function.update c.inline i (some (key, value)) }

/-- Store the child of a claimed slot and publish it as `CHILD_STALE`. -/
def publishChild (c : Cell K V) (i : ℕ) (child : NodeId) : Cell K V :=
  { c with slots := Function.update c.slots i .childStale
           claimed := Function.update c.claimed i false
           children := Function.update c.children i (some ⟨child, false⟩) }

/-- `DATA` to `TOMBSTONE`. -/
def bury (c : Cell K V) (i : ℕ) : Cell K V :=
  { c with slots := Function.update c.slots i .tombstone }

def setChild (c : Cell K V) (i : ℕ) (p : Ptr) : Cell K V :=
  { c with children := Function.update c.children i (some p) }

def addTombstones (c : Cell K V) (n : ℤ) : Cell K V :=
  { c with numTombstones := wrapUsize (c.numTombstones + n) }

end Cell

/-- The node at a position of the tree that is allocated at `n`; `route` leads to `n`. -/
def Node.cellAt {K V : Type} : Node K V → NodeId → List (Edge K) → List ℕ → Cell K V
  | .null, _, _, _ => .blank
  | .mk h st kv ch t, n, route, [] =>
    { head := h, route := route, slots := st, claimed := fun _ => false, inline := kv
      children := fun i =>
        match ch i with
        | .null => none
        | _ => some ⟨n.child i, false⟩
      numTombstones := t }
  | .mk h _ _ ch _, n, route, i :: path =>
    (ch i).cellAt (n.child i) (route ++ [⟨n, h, i⟩]) path

/-- The shared memory: the heap, the root pointer and the counters of the map. -/
structure Mem (K V : Type) where
  cells : NodeId → Cell K V
  next : ℕ
  root : Ptr
  len : ℕ
  nextRootRebuild : ℕ

namespace Mem
variable {K V : Type}

/-- Change one node. -/
def modify (m : Mem K V) (n : NodeId) (f : Cell K V → Cell K V) : Mem K V :=
  { m with cells := Function.update m.cells n (f (m.cells n)) }

/-- The address of the tree that is allocated next. -/
def fresh (m : Mem K V) (isRoot : Bool) : NodeId := ⟨isRoot, m.next, []⟩

/-- Allocate a tree. -/
def place (m : Mem K V) (isRoot : Bool) (route : List (Edge K)) (tree : Node K V) : Mem K V :=
  { m with cells := fun n =>
             if n.alloc = m.next then tree.cellAt (m.fresh isRoot) route n.path else m.cells n
           next := m.next + 1 }

/-- Allocate a tree and make it the root. -/
def placeRoot (m : Mem K V) (tree : Node K V) : Mem K V :=
  { m.place true [] tree with root := ⟨m.fresh true, false⟩ }

/-- Allocate a tree and hang it in a slot, with `set` to store the pointer. -/
def placeChild (m : Mem K V) (n : NodeId) (i : ℕ) (tree : Node K V)
    (set : Cell K V → NodeId → Cell K V) : Mem K V :=
  (m.place false ((m.cells n).route ++ [⟨n, (m.cells n).head, i⟩]) tree).modify n fun c =>
    set c (m.fresh false)

/-- The memory of a map that no thread uses yet. -/
def ofMap (map : LearnedMap K V) : Mem K V :=
  placeRoot ⟨fun _ => .blank, 0, ⟨⟨true, 0, []⟩, false⟩, map.len, map.nextRootRebuild⟩ map.root

end Mem

/-! ## Traversal -/

/-- A traversal: the stack of `Iter`, whether it has just seen that the slot on top holds
    a child, and the pairs it collected. -/
structure Walk (K V : Type) where
  stack : List (NodeId × ℕ)
  loading : Bool
  pairs : List (K × V)

namespace Walk
variable {K V : Type}

def start (n : NodeId) : Walk K V := ⟨[(n, 0)], false, []⟩

/-- The next access of a traversal to memory; `none` if it is done. -/
def step (m : Mem K V) (w : Walk K V) : Option (Walk K V) :=
  match w.stack with
  | [] => none
  | (n, i) :: rest =>
    let c := m.cells n
    if i ≥ c.head.capacity then some { w with stack := rest }
    else if w.loading then
      match c.children i with
      | some p => some { w with stack := (p.node, 0) :: (n, i + 1) :: rest, loading := false }
      | none => some { w with stack := (n, i + 1) :: rest, loading := false }
    else
      match c.state i with
      | .data =>
        match c.inline i with
        | some pair => some { w with stack := (n, i + 1) :: rest, pairs := w.pairs ++ [pair] }
        | none => some { w with stack := (n, i + 1) :: rest }
      | .child => some { w with loading := true }
      | .childStale => some { w with loading := true }
      | .writing => some w -- wait until the slot is published
      | _ => some { w with stack := (n, i + 1) :: rest } -- EMPTY, TOMBSTONE

end Walk

end Scry.Index
