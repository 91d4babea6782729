/-
  The calls of the builders (`build.rs`).

  A builder is its body together with the calls that the body makes.  How a sort orders
  pairs of one slot is not specified, so the sort is a parameter of the body; the
  recursion of `buildRecursive` is that of the body whose sort is stable.
-/
import Scry.Index.Build

namespace Scry.Index

/-! ## Sorting -/

/-- What is documented of `sort_unstable_by_key`: the result has the same elements, in the
    order of their slots. -/
structure SortsBySlot {α : Type} (sort : List (ℕ × α) → List (ℕ × α)) : Prop where
  perm (l : List (ℕ × α)) : (sort l).Perm l
  sorted (l : List (ℕ × α)) : (sort l).Pairwise fun a b => a.1 ≤ b.1

/-- The sort leaves what is in order already as it is. -/
def KeepsSorted {α : Type} (sort : List (ℕ × α) → List (ℕ × α)) : Prop :=
  ∀ l, l.Pairwise (fun a b => a.1 ≤ b.1) → sort l = l

/-- A sort that keeps the order of elements with one slot. -/
def stableSort {α : Type} (l : List (ℕ × α)) : List (ℕ × α) :=
  l.insertionSort fun a b => a.1 ≤ b.1

/-- A sort that reverses it. -/
def reversingSort {α : Type} (l : List (ℕ × α)) : List (ℕ × α) :=
  l.reverse.insertionSort fun a b => a.1 ≤ b.1

/-! ## Calls -/

/-- A call of `build_recursive` or of `build_degenerate`. -/
inductive BuildCall (K V : Type) where
  | recursive (pairs : List (K × V))
  | degenerate (pairs : List (K × V))

namespace BuildCall
variable {K V : Type}

def pairs : BuildCall K V → List (K × V)
  | .recursive pairs => pairs
  | .degenerate pairs => pairs

variable [LinearOrder K] [Key K]

/-- The call that builds the child for the pairs of a slot. -/
def ofChild (childPairs : List (K × V)) : BuildCall K V :=
  if isDegenerateGroup childPairs then .degenerate childPairs else .recursive childPairs

/-- The predicted slots of the pairs. -/
def assignments (result : FmcdResult) (pairs : List (K × V)) : List (ℕ × (K × V)) :=
  pairs.map fun p =>
    ((Node.withCapacity result.model result.arraySize : Node K V).predictSlot p.1, p)

/-- What a call computes, given what the calls it makes return. -/
def body (sort : List (ℕ × (K × V)) → List (ℕ × (K × V))) (config : Config)
    (build : BuildCall K V → Option (Node K V)) : BuildCall K V → Option (Node K V)
  | .recursive pairs =>
    if isDegenerateGroup pairs then build (.degenerate pairs)
    else do
      let result ← fitFmcd pairs.length (keyInput pairs) config.expansionFactor
        config.rangeHeadroom
      let node := Node.withCapacity result.model result.arraySize
      if result.conflicts = 0 then
        some (pairs.foldl (fun node p => node.storeData (node.predictSlot p.1) p.1 p.2) node)
      else
        (runs (sort (assignments result pairs))).foldlM (fun node run =>
          storeHalf (fun childPairs => build (ofChild childPairs)) node run.1 run.2) node
  | .degenerate [] => none
  | .degenerate [(key, value)] => some ((Node.withCapacity .constant 1).storeData 0 key value)
  | .degenerate pairs => do
    let loHalf := pairs.take (pairs.length / 2)
    let hiHalf := pairs.drop (pairs.length / 2)
    let lo ← loHalf.getLast?
    let hi ← hiHalf.head?
    let build := fun half => build (.degenerate half)
    let node ← storeHalf build (splitNode lo.1 hi.1 2) 0 loHalf
    storeHalf build node 1 hiHalf

/-- The slices that `build_recursive` makes children of: the runs of two pairs or more. -/
def childPairs (sort : List (ℕ × (K × V)) → List (ℕ × (K × V))) (config : Config)
    (pairs : List (K × V)) : List (List (K × V)) :=
  if isDegenerateGroup pairs then []
  else
    match fitFmcd pairs.length (keyInput pairs) config.expansionFactor config.rangeHeadroom with
    | none => []
    | some result =>
      if result.conflicts = 0 then []
      else ((runs (sort (assignments result pairs))).map Prod.snd).filter (2 ≤ ·.length)

/-- The calls that a call makes. -/
def calls (sort : List (ℕ × (K × V)) → List (ℕ × (K × V))) (config : Config) :
    BuildCall K V → List (BuildCall K V)
  | .recursive pairs =>
    if isDegenerateGroup pairs then [.degenerate pairs]
    else (childPairs sort config pairs).map ofChild
  | .degenerate pairs =>
    if pairs.length ≤ 1 then []
    else
      ([pairs.take (pairs.length / 2), pairs.drop (pairs.length / 2)].filter (2 ≤ ·.length)).map
        .degenerate

end BuildCall

end Scry.Index
