/-
  `LearnedMap` as a single thread uses it (`map.rs`).

  The map is its root, its counter and the size at which the next automatic root rebuild
  runs.  An operation that does not return has no result.
-/
import Scry.Lib.SortedMap
import Scry.Index.Update

namespace Scry.Index

/-- Number of entries at which the first automatic root rebuild triggers. -/
def initialRootRebuildThreshold : ℕ := 64

/-- Growth factor between successive root rebuild thresholds. -/
def rootRebuildGrowthFactor : ℕ := 2

/-- `usize::saturating_mul`. -/
def saturatingMul (a b : ℕ) : ℕ := min (a * b) (2 ^ 64 - 1)

/-- A sorted key-value map backed by a learned index. -/
structure LearnedMap (K V : Type) where
  root : Node K V
  len : ℕ
  config : Config
  nextRootRebuild : ℕ

namespace LearnedMap
variable {K V : Type}

/-- The root of an empty map. -/
def emptyRoot : Node K V := .withCapacity (.new 1 0) 64

/-- A new empty map. -/
def withConfig (config : Config) : LearnedMap K V :=
  ⟨emptyRoot, 0, config, initialRootRebuildThreshold⟩

variable [LinearOrder K] [Key K]

/-- A map from sorted pairs; the root is built with headroom. -/
def bulkLoadWithConfig (pairs : List (K × V)) (config : Config) :
    Option (Except Error (LearnedMap K V)) := do
  let built ← bulkLoad { config with rangeHeadroom := max config.rangeHeadroom 1 } pairs
  match built with
  | .error e => some (.error e)
  | .ok root =>
    some (.ok ⟨root, pairs.length, config, saturatingMul pairs.length rootRebuildGrowthFactor⟩)

omit [Key K] in
/-- The last pair of each run of equal keys: those that differ from their right neighbour,
    and the last one. -/
def dedup (pairs : List (K × V)) : List (K × V) :=
  let windows := pairs.zip pairs.tail
  (windows.filter fun w => w.1.1 ≠ w.2.1).map Prod.fst ++ pairs.getLast?.toList

/-- A map from sorted pairs in which a key may occur more than once. -/
def bulkLoadDedupWithConfig (pairs : List (K × V)) (config : Config) :
    Option (Except Error (LearnedMap K V)) :=
  if pairs.isEmpty then some (.error .emptyData)
  else if ¬ pairs.IsChain fun a b => a.1 ≤ b.1 then some (.error .notSorted)
  else
    let deduped := dedup pairs
    if deduped.isEmpty then some (.error .emptyData) else bulkLoadWithConfig deduped config

def get (m : LearnedMap K V) (key : K) : Option V := m.root.get key

/-- Rebuild the tree from scratch using bulk load. -/
def rebuild (m : LearnedMap K V) : Option (LearnedMap K V) :=
  let pairs := m.root.sortedPairs
  if pairs.isEmpty then some m
  else do
    let built ← bulkLoad { m.config with rangeHeadroom := 1 } pairs
    match built with
    | .error _ => some m
    | .ok root =>
      some { m with root := root
                    nextRootRebuild := saturatingMul pairs.length rootRebuildGrowthFactor }

/-- Rebuild the root if the length reached the threshold, which is first advanced. -/
def maybeRebuildRoot (m : LearnedMap K V) (currentLen : ℕ) : Option (LearnedMap K V) :=
  if ¬ m.config.autoRebuild then some m
  else if currentLen < m.nextRootRebuild then some m
  else rebuild { m with nextRootRebuild := saturatingMul m.nextRootRebuild rootRebuildGrowthFactor }

/-- Count a key that an insert added. -/
def countNew (m : LearnedMap K V) (isNew : Bool) : Option (LearnedMap K V) :=
  if isNew then maybeRebuildRoot { m with len := m.len + 1 } (m.len + 1) else some m

/-- Insert a pair: `true` if the key was newly inserted. -/
def insert (m : LearnedMap K V) (key : K) (value : V) : Option (LearnedMap K V × Bool) := do
  let (root, result) ← Index.insert m.config m.root key value
  let isNew := decide (result = .inserted)
  let m ← countNew { m with root := root } isNew
  some (m, isNew)

/-- Get the value of a key, or insert one. -/
def getOrInsert (m : LearnedMap K V) (key : K) (value : V) : Option (LearnedMap K V × V) := do
  let (root, val, result) ← Index.getOrInsert m.config m.root key value
  let m ← countNew { m with root := root } (decide (result = .inserted))
  some (m, val)

/-- Remove a key: `true` if it was present. -/
def remove (m : LearnedMap K V) (key : K) : Option (LearnedMap K V × Bool) := do
  let (root, removed) ← Index.remove m.config m.root key
  some ({ m with root := root, len := if removed then m.len - 1 else m.len }, removed)

omit [LinearOrder K] [Key K] in
/-- Iterate over all pairs in sorted order. -/
def iter (m : LearnedMap K V) : List (K × V) := m.root.sortedPairs

omit [LinearOrder K] [Key K] in
def firstKeyValue (m : LearnedMap K V) : Option (K × V) := m.root.firstEntry

omit [LinearOrder K] [Key K] in
def lastKeyValue (m : LearnedMap K V) : Option (K × V) := m.root.lastEntry

omit [LinearOrder K] [Key K] in
/-- Remove all entries and return them in sorted order. -/
def drain (m : LearnedMap K V) : LearnedMap K V × List (K × V) :=
  let pairs := m.root.sortedPairs
  ({ m with root := emptyRoot, len := m.len - pairs.length
            nextRootRebuild := initialRootRebuildThreshold }, pairs)

omit [LinearOrder K] [Key K] in
/-- Remove all entries. -/
def clear (m : LearnedMap K V) : LearnedMap K V :=
  let entryCount := m.root.sortedPairs.length
  { m with root := emptyRoot, len := m.len - entryCount
           nextRootRebuild := initialRootRebuildThreshold }

end LearnedMap

/-! ## Runs -/

/-- The operations of a map. -/
inductive Op (K V : Type) where
  | insert (key : K) (value : V)
  | remove (key : K)
  | get (key : K)
  | getOrInsert (key : K) (value : V)
  | rebuild
  | drain
  | clear
  | len
  | iter
  | firstKeyValue
  | lastKeyValue

/-- What an operation returns. -/
inductive Reply (K V : Type) where
  | unit
  | bool (b : Bool)
  | value (v : V)
  | option (v : Option V)
  | size (n : ℕ)
  | pairs (l : List (K × V))
  | entry (e : Option (K × V))
  deriving DecidableEq

variable {K V : Type} [LinearOrder K] [Key K]

def LearnedMap.step (m : LearnedMap K V) : Op K V → Option (LearnedMap K V × Reply K V)
  | .insert key value => (m.insert key value).map fun (m, b) => (m, .bool b)
  | .remove key => (m.remove key).map fun (m, b) => (m, .bool b)
  | .get key => some (m, .option (m.get key))
  | .getOrInsert key value => (m.getOrInsert key value).map fun (m, v) => (m, .value v)
  | .rebuild => m.rebuild.map fun m => (m, .unit)
  | .drain => let (m, l) := m.drain; some (m, .pairs l)
  | .clear => some (m.clear, .unit)
  | .len => some (m, .size m.len)
  | .iter => some (m, .pairs m.iter)
  | .firstKeyValue => some (m, .entry m.firstKeyValue)
  | .lastKeyValue => some (m, .entry m.lastKeyValue)

/-- The replies of a sequence of operations; `none` if one of them does not return. -/
def LearnedMap.run (m : LearnedMap K V) : List (Op K V) → Option (LearnedMap K V × List (Reply K V))
  | [] => some (m, [])
  | op :: ops => do
    let (m, reply) ← m.step op
    let (m, replies) ← m.run ops
    some (m, reply :: replies)

/-! ## The reference map -/

omit [Key K] in
/-- What an operation does to a sorted map, and what it returns. -/
def refStep (m : SortedMap K V) : Op K V → SortedMap K V × Reply K V
  | .insert key value => (m.insert key value, .bool (m.get key).isNone)
  | .remove key => (m.erase key, .bool (m.get key).isSome)
  | .get key => (m, .option (m.get key))
  | .getOrInsert key value =>
    match m.get key with
    | some v => (m, .value v)
    | none => (m.insert key value, .value value)
  | .rebuild => (m, .unit)
  | .drain => (.empty, .pairs m.toList)
  | .clear => (.empty, .unit)
  | .len => (m, .size m.len)
  | .iter => (m, .pairs m.toList)
  | .firstKeyValue => (m, .entry m.toList.head?)
  | .lastKeyValue => (m, .entry m.toList.getLast?)

omit [Key K] in
def refRun (m : SortedMap K V) : List (Op K V) → SortedMap K V × List (Reply K V)
  | [] => (m, [])
  | op :: ops =>
    let (m, reply) := refStep m op
    let (m, replies) := refRun m ops
    (m, reply :: replies)

/-- The maps a program starts from, with their pairs. -/
inductive Starts (config : Config) : LearnedMap K V → List (K × V) → Prop
  | withConfig : Starts config (LearnedMap.withConfig config) []
  | bulk {m : LearnedMap K V} {pairs : List (K × V)}
      (h : LearnedMap.bulkLoadWithConfig pairs config = some (.ok m)) : Starts config m pairs

end Scry.Index
