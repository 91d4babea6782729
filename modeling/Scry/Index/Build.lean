/-
  Construction of nodes (`build.rs`, and `build_single_entry_child` and
  `build_conflict_node` of `insert.rs`).

  The recursions of the builder run on ever shorter lists of pairs; where one would
  recurse on the list it was given, the builder does not return, and the fuel, which
  is the length of the list, runs out (`none`).
-/
import Scry.Index.Node

namespace Scry.Index

/-- Errors of bulk loading (`error.rs`). -/
inductive Error where
  | emptyData
  | notSorted
  deriving DecidableEq

/-- Consecutive entries with one slot, in the order of the list. -/
def runs {α : Type} : List (ℕ × α) → List (ℕ × List α)
  | [] => []
  | (slot, a) :: rest =>
    match runs rest with
    | [] => [(slot, [a])]
    | (slot', run) :: more =>
      if slot = slot' then (slot, a :: run) :: more else (slot, [a]) :: (slot', run) :: more

variable {K V : Type} [LinearOrder K] [Key K]

/-- The model input of the `i`-th key. -/
def keyInput (pairs : List (K × V)) (i : ℕ) : ℚ :=
  match pairs[i]? with
  | some (key, _) => Key.toModelInput key
  | none => 0

/-- Check if all keys in a group have the same model input. -/
def isDegenerateGroup (pairs : List (K × V)) : Bool :=
  pairs.length > 1 ∧ |keyInput pairs (pairs.length - 1) - keyInput pairs 0| < epsilon

/-- Store one half of a split: a single pair inline, more of them as a child. -/
def storeHalf (build : List (K × V) → Option (Node K V)) (node : Node K V) (idx : ℕ)
    (half : List (K × V)) : Option (Node K V) :=
  match half with
  | [(key, value)] => some (node.storeData idx key value)
  | half => (build half).map (node.storeChild idx)

/-- A node that separates `loKey` and the keys below it from `hiKey` and those above. -/
def splitNode (loKey hiKey : K) (arraySize : ℕ) : Node K V :=
  let loOrd := Key.toExactOrdinal loKey
  let hiOrd := Key.toExactOrdinal hiKey
  if loOrd = hiOrd then .withSplitKey loKey arraySize
  else .withCapacity (.binarySplit (midpoint loOrd hiOrd)) arraySize

/-- Build a balanced binary tree for keys that share the same model input. -/
def buildDegenerate : ℕ → List (K × V) → Option (Node K V)
  | _, [] => none
  | _, [(key, value)] => some ((Node.withCapacity .constant 1).storeData 0 key value)
  | 0, _ => none
  | fuel + 1, pairs => do
    let loHalf := pairs.take (pairs.length / 2)
    let hiHalf := pairs.drop (pairs.length / 2)
    let lo ← loHalf.getLast?
    let hi ← hiHalf.head?
    let node ← storeHalf (buildDegenerate fuel) (splitNode lo.1 hi.1 2) 0 loHalf
    storeHalf (buildDegenerate fuel) node 1 hiHalf

/-- Store a run of pairs with one predicted slot. -/
def storeRun (build : List (K × V) → Option (Node K V)) (node : Node K V)
    (run : ℕ × List (K × V)) : Option (Node K V) :=
  match run with
  | (slot, [(key, value)]) => some (node.storeData slot key value)
  | (slot, run) =>
    let child := if isDegenerateGroup run then buildDegenerate run.length run else build run
    child.map (node.storeChild slot)

/-- Build a subtree from sorted pairs. -/
def buildRecursive (config : Config) : ℕ → List (K × V) → Option (Node K V)
  | 0, _ => none
  | fuel + 1, pairs =>
    if isDegenerateGroup pairs then buildDegenerate pairs.length pairs
    else do
      let result ← fitFmcd pairs.length (keyInput pairs) config.expansionFactor
        config.rangeHeadroom
      let node := Node.withCapacity result.model result.arraySize
      if result.conflicts = 0 then
        -- no conflicts: all pairs inline
        some (pairs.foldl (fun node p => node.storeData (node.predictSlot p.1) p.1 p.2) node)
      else
        -- sort by predicted slot, then process runs
        let assignments := pairs.map fun p => (node.predictSlot p.1, p)
        let sorted := assignments.insertionSort fun a b => a.1 ≤ b.1
        (runs sorted).foldlM (storeRun (buildRecursive config fuel)) node

/-- Build a learned index tree from pairs, which must be sorted without duplicates. -/
def bulkLoad (config : Config) (pairs : List (K × V)) : Option (Except Error (Node K V)) :=
  if pairs.isEmpty then some (.error .emptyData)
  else if ¬ pairs.IsChain fun a b => a.1 < b.1 then some (.error .notSorted)
  else (buildRecursive config pairs.length pairs).map .ok

/-! ## Children of inserts -/

/-- A child with one pair. -/
def buildSingleEntryChild (key : K) (value : V) : Node K V :=
  let node := Node.withCapacity (.new 1 (-Key.toModelInput key)) 2
  node.storeData (node.predictSlot key) key value

/-- A child with two conflicting pairs.  If it predicted one slot for both, the insert of
    the second pair would build a conflict node for the same two pairs again, without
    end. -/
def buildConflictNode (k₁ : K) (v₁ : V) (k₂ : K) (v₂ : V) : Option (Node K V) :=
  let ((loK, loV), (hiK, hiV)) := if k₁ < k₂ then ((k₁, v₁), (k₂, v₂)) else ((k₂, v₂), (k₁, v₁))
  let loF := Key.toModelInput loK
  let keyRange := Key.toModelInput hiK - loF
  let arraySize := 4
  let node :=
    if |keyRange| < epsilon then splitNode loK hiK arraySize
    else
      let s := ((arraySize - 1 : ℕ) : ℚ) / keyRange
      Node.withCapacity (.new s (-s * loF)) arraySize
  let s₁ := node.predictSlot loK
  let s₂ := node.predictSlot hiK
  if s₁ = s₂ then none
  else some ((node.storeData s₁ loK loV).storeData s₂ hiK hiV)

end Scry.Index
