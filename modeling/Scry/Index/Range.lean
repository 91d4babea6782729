/-
  Range queries over a tree (`Range` in `iter.rs`) as single-threaded code runs them.

  A range seeks its traversal to the position that its lower bound is predicted to, then
  goes on as `Iter` does and looks at its bounds.
-/
import Scry.Index.Node

namespace Scry.Index

/-- An endpoint of a range of keys. -/
inductive Bound (K : Type) where
  | included (key : K)
  | excluded (key : K)
  | unbounded
  deriving DecidableEq

/-- A range iterator. -/
structure Range (K V : Type) where
  stack : Stack K V
  startBound : Bound K
  endBound : Bound K
  /-- it has yielded an entry, or there is no lower bound -/
  started : Bool
  /-- it has passed the upper bound -/
  done : Bool

variable {K V : Type} [LinearOrder K]

/-- The key is past an upper bound. -/
def Bound.pastEnd (endBound : Bound K) (key : K) : Bool :=
  match endBound with
  | .included b => key > b
  | .excluded b => key ≥ b
  | .unbounded => false

/-- The key is before a lower bound. -/
def Bound.beforeStart (startBound : Bound K) (key : K) : Bool :=
  match startBound with
  | .included b => key < b
  | .excluded b => key ≤ b
  | .unbounded => false

/-- Seek the stack to the predicted position of a key, with the continuation of each
    parent at the next slot. -/
def Node.seekTo [Key K] (key : K) : Node K V → Stack K V → Stack K V
  | .null, stack => stack
  | .mk h st kv ch t, stack =>
    let p := h.predictSlot key
    if (st p).isChild then
      match ch p with
      | .null => (.mk h st kv ch t, p) :: stack
      | _ => (ch p).seekTo key ((.mk h st kv ch t, p + 1) :: stack)
    else (.mk h st kv ch t, p) :: stack

/-- The result of one iteration of the loop in `Range::next`. -/
inductive RangeVisit (K V : Type) where
  | goOn (range : Range K V)
  | item (key : K) (value : V) (range : Range K V)
  /-- the range has no more entries -/
  | exhausted (range : Range K V)
  | spin

namespace Range

/-- A range over the given bounds. -/
def new [Key K] (root : Node K V) (startBound endBound : Bound K) : Range K V :=
  match startBound with
  | .included key => ⟨root.seekTo key [], startBound, endBound, false, false⟩
  | .excluded key => ⟨root.seekTo key [], startBound, endBound, false, false⟩
  | .unbounded => ⟨[(root, 0)], startBound, endBound, true, false⟩

/-- One iteration of the loop in `Range::next`. -/
def visit (r : Range K V) : RangeVisit K V :=
  match Index.visit r.stack with
  | .goOn stack => .goOn { r with stack := stack }
  | .item key value stack =>
    let r := { r with stack := stack }
    if r.endBound.pastEnd key then .exhausted { r with done := true }
    else if ¬ r.started ∧ r.startBound.beforeStart key then .goOn r
    else .item key value { r with started := true }
  | .done => .exhausted r
  | .spin => .spin

/-- The loop in `Range::next`; `none` if it does not return within a number of
    iterations. -/
def loop : ℕ → Range K V → Option (Option (K × V) × Range K V)
  | 0, _ => none
  | n + 1, r =>
    match r.visit with
    | .goOn r => r.loop n
    | .item key value r => some (some (key, value), r)
    | .exhausted r => some (none, r)
    | .spin => none

/-- The next entry of a range. -/
def next (fuel : ℕ) (r : Range K V) : Option (Option (K × V) × Range K V) :=
  if r.done then some (none, r) else r.loop fuel

/-- The entries that `Range::next` yields until it is exhausted; `none` if a call does not
    return. -/
def collect (fuel : ℕ) : ℕ → Range K V → Option (List (K × V))
  | 0, _ => none
  | n + 1, r =>
    match r.next fuel with
    | none => none
    | some (none, _) => some []
    | some (some pair, r) => (r.collect fuel n).map (pair :: ·)

end Range

end Scry.Index
