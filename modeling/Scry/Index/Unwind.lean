/-
  Panics while a pointer is frozen (`FreezeGuard` in `rebuild.rs`, and the operations on
  the root in `map.rs`).

  Between its freeze and its swap an operation clones the pairs it collects and fits
  models, which assert that the expansion factor is at least one; both may panic.  A
  subtree rebuild then drops a guard that unfreezes the pointer; the operations on the
  root have none.  The operation that panicked is gone, and the map goes on to be used.
-/
import Scry.Index.Concurrent

namespace Scry.Index

variable {K V : Type}

/-- The next access of a traversal meets a pair, which is cloned. -/
def Walk.clones (m : Mem K V) (w : Walk K V) : Bool :=
  match w.step m with
  | some w' => w.pairs.length < w'.pairs.length
  | none => false

namespace Thread

/-- The next step of the operation, which has a pointer frozen, may panic. -/
def mayPanic (m : Mem K V) (t : Thread K V) : Bool :=
  match t.pc with
  | .subWalk _ w => w.clones m
  | .subSwap _ pairs => 1 < pairs.length
  | .rootWalk _ w =>
    match t.call with
    | .clear => false -- it only counts the pairs
    | _ => w.clones m
  | .rootSwap _ pairs =>
    match t.call with
    | .drain => false
    | .clear => false
    | _ => !pairs.isEmpty
  | _ => false

/-- `FreezeGuard::drop`: the CAS that unfreezes the child pointer. -/
def dropFreezeGuard (m : Mem K V) (t : Thread K V) (c : NodeId) : Mem K V :=
  match t.first with
  | none => m
  | some (p, i, _) =>
    if (m.cells p).children i = some ⟨c, true⟩ then
      m.modify p fun cell => cell.setChild i ⟨c, false⟩
    else m

/-- The memory after the operation panicked and unwound. -/
def unwind (m : Mem K V) (t : Thread K V) : Option (Mem K V) :=
  if t.mayPanic m then
    match t.pc with
    | .subWalk c _ => some (t.dropFreezeGuard m c)
    | .subSwap c _ => some (t.dropFreezeGuard m c)
    | _ => some m
  else none

end Thread

namespace Sys

/-- The operation of thread `t` panics. -/
def unwind (s : Sys K V) (t : ℕ) : Option (Sys K V) :=
  match s.threads t with
  | none => none
  | some th => (th.unwind s.mem).map fun m =>
      { s with mem := m, threads := Function.update s.threads t none }

/-- A scheduled action, or a panic. -/
inductive PanicAct (K V : Type) where
  | act (a : Act K V)
  | panic (t : ℕ)
  deriving DecidableEq

variable [LinearOrder K] [Key K]

def panicAct (s : Sys K V) : PanicAct K V → Option (Sys K V)
  | .act a => s.act a
  | .panic t => s.unwind t

/-- An interleaving in which operations may panic. -/
def runPanics (s : Sys K V) (sched : List (PanicAct K V)) : Option (Sys K V) :=
  sched.foldlM panicAct s

end Sys

end Scry.Index
