/-
  Traversals that the users of a map run beside its operations (`iter.rs`).

  An iterator loads the root pointer once and then goes through the tree as a rebuild
  does (`Walk`); a range first seeks the position of its lower bound and looks at its
  bounds on the way.  Between two accesses of a traversal to memory the operations may
  take any number of steps.
-/
import Scry.Index.Range
import Scry.Index.Concurrent

namespace Scry.Index

/-- A range over the shared memory. -/
structure RangeWalk (K V : Type) where
  /-- while it seeks: the node it has come to, and whether it has just seen that the
      predicted slot holds a child -/
  seeking : Option (NodeId × Bool)
  /-- the stack, and the pairs that it yielded -/
  walk : Walk K V
  startBound : Bound K
  endBound : Bound K
  started : Bool
  done : Bool

namespace RangeWalk
variable {K V : Type}

/-- A range over the given bounds. -/
def new (root : NodeId) (startBound endBound : Bound K) : RangeWalk K V :=
  match startBound with
  | .included _ => ⟨some (root, false), ⟨[], false, []⟩, startBound, endBound, false, false⟩
  | .excluded _ => ⟨some (root, false), ⟨[], false, []⟩, startBound, endBound, false, false⟩
  | .unbounded => ⟨none, .start root, startBound, endBound, true, false⟩

def push (r : RangeWalk K V) (n : NodeId) (i : ℕ) : RangeWalk K V :=
  { r with walk := { r.walk with stack := (n, i) :: r.walk.stack } }

variable [LinearOrder K]

/-- The next access of the seek to `key`, which has come to the node `n`. -/
def seekTo [Key K] (m : Mem K V) (r : RangeWalk K V) (n : NodeId) (loading : Bool) (key : K) :
    RangeWalk K V :=
  let c := m.cells n
  let p := c.head.predictSlot key
  if loading then
    match c.children p with
    | some q => { r.push n (p + 1) with seeking := some (q.node, false) }
    | none => { r.push n p with seeking := none }
  else if (c.state p).isChild then { r with seeking := some (n, true) }
  else { r.push n p with seeking := none }

/-- The traversal moved on to `w`: look at the bounds if it met a pair. -/
def visit (r : RangeWalk K V) (w : Walk K V) : RangeWalk K V :=
  match w.pairs.drop r.walk.pairs.length with
  | (key, _) :: _ =>
    let skipped := { w with pairs := r.walk.pairs }
    if r.endBound.pastEnd key then { r with walk := skipped, done := true }
    else if ¬ r.started ∧ r.startBound.beforeStart key then { r with walk := skipped }
    else { r with walk := w, started := true }
  | [] => { r with walk := w }

/-- The next access of a range to memory; `none` if it is exhausted. -/
def step [Key K] (m : Mem K V) (r : RangeWalk K V) : Option (RangeWalk K V) :=
  match r.seeking with
  | some (n, loading) =>
    match r.startBound with
    | .included key => some (r.seekTo m n loading key)
    | .excluded key => some (r.seekTo m n loading key)
    | .unbounded => none
  | none => if r.done then none else (r.walk.step m).map r.visit

end RangeWalk

/-! ## Interleavings -/

/-- A turn of an interleaving with a traversal. -/
inductive Turn (K V : Type) where
  /-- an action of the operations -/
  | act (a : Sys.Act K V)
  /-- the next access of the traversal -/
  | visit
  deriving DecidableEq

namespace Sys
variable {K V σ : Type} [LinearOrder K] [Key K]

/-- One turn of the operations and a traversal that goes on by `visit`. -/
def beside (visit : Mem K V → σ → Option σ) (p : Sys K V × σ) : Turn K V → Option (Sys K V × σ)
  | .act a => (p.1.act a).map fun s => (s, p.2)
  | .visit => (visit p.1.mem p.2).map fun w => (p.1, w)

/-- An iterator, created in the state `s`, beside the operations. -/
def runIter (s : Sys K V) (turns : List (Turn K V)) : Option (Sys K V × Walk K V) :=
  turns.foldlM (beside fun m w => w.step m) (s, .start s.mem.root.node)

/-- A range, created in the state `s`, beside the operations. -/
def runRange (s : Sys K V) (startBound endBound : Bound K) (turns : List (Turn K V)) :
    Option (Sys K V × RangeWalk K V) :=
  turns.foldlM (beside fun m r => r.step m) (s, .new s.mem.root.node startBound endBound)

end Sys

end Scry.Index
