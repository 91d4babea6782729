/-
  Updates of a tree without other threads (`insert.rs`, `remove.rs`, `rebuild.rs`).

  An update descends to the slot its predictions lead to and changes it.  Without other
  threads every CAS succeeds and the validation of the first descent finds the child it
  descended into, so no attempt is repeated.  The subtree rebuild takes the child of the
  first descent, which hangs from the node the update started at.  An update that would
  spin has no result.
-/
import Scry.Index.Build

namespace Scry.Index

/-- Result of an insert operation. -/
inductive InsertResult where
  | inserted
  | updated
  deriving DecidableEq

/-- What an update did to the tree: the new tree, its result, and the depth at which it
    changed a slot. -/
structure Change (K V α : Type) where
  node : Node K V
  result : α
  depth : ℕ

variable {K V : Type} [LinearOrder K] [Key K]

/-- Collect the pairs of the subtree in a slot and swap in a fresh subtree, built with a
    boosted expansion factor. -/
def tryRebuildSubtree (config : Config) (parent : Node K V) (idx : ℕ) : Option (Node K V) :=
  match parent with
  | .null => some .null
  | .mk h st kv ch t =>
    if ¬ (st idx).isChild then some (.mk h st kv ch t)
    else
      match ch idx with
      | .null => some (.mk h st kv ch t)
      | child =>
        let pairs := child.sortedPairs
        if pairs.length ≤ 1 then some (.mk h st kv ch t) -- too small to rebuild
        else do
          let boosted := { config with expansionFactor := min (config.expansionFactor * (3 / 2)) 4 }
          let newNode ← buildRecursive boosted pairs.length pairs
          some (.mk h st kv (Function.update ch idx newNode) t)

/-! ## Insert -/

/-- The descent of `insert` and its change of a slot. -/
def insertAt (key : K) (value : V) : Node K V → Option (Change K V InsertResult)
  | .null => none
  | .mk h st kv ch t =>
    let idx := h.predictSlot key
    let attach (child : Node K V) (t : ℕ) : Node K V :=
      .mk h (Function.update st idx .childStale) kv (Function.update ch idx child) t
    match st idx with
    | .writing => none
    | .empty =>
      some ⟨.mk h (Function.update st idx .data) (Function.update kv idx (some (key, value))) ch t,
        .inserted, 0⟩
    | .tombstone => some ⟨attach (buildSingleEntryChild key value) (t - 1), .inserted, 0⟩
    | .data =>
      match kv idx with
      | none => none
      | some (existingKey, existingValue) =>
        if existingKey = key then some ⟨attach (buildSingleEntryChild key value) t, .updated, 0⟩
        else do
          -- collision: both pairs go to a conflict node
          let child ← buildConflictNode existingKey existingValue key value
          some ⟨attach child t, .inserted, 0⟩
    | .child => do
      let c ← insertAt key value (ch idx)
      some ⟨.mk h st kv (Function.update ch idx c.node) t, c.result, c.depth + 1⟩
    | .childStale => do
      let c ← insertAt key value (ch idx)
      some ⟨.mk h st kv (Function.update ch idx c.node) t, c.result, c.depth + 1⟩

/-- The rebuild at the end of an insert that added a key below the threshold depth. -/
def rebuildDeep (config : Config) (key : K) (node : Node K V) (depth : ℕ) : Option (Node K V) :=
  if config.autoRebuild ∧ depth > config.rebuildDepthThreshold then
    tryRebuildSubtree config node (node.predictSlot key)
  else some node

/-- Insert a pair into the tree. -/
def insert (config : Config) (node : Node K V) (key : K) (value : V) :
    Option (Node K V × InsertResult) := do
  let c ← insertAt key value node
  match c.result with
  | .updated => some (c.node, .updated)
  | .inserted =>
    let node ← rebuildDeep config key c.node c.depth
    some (node, .inserted)

/-- The descent of `get_or_insert`: the value it returns and whether it inserted. -/
def getOrInsertAt (key : K) (value : V) : Node K V → Option (Change K V (V × InsertResult))
  | .null => none
  | .mk h st kv ch t =>
    let idx := h.predictSlot key
    let attach (child : Node K V) (t : ℕ) : Option (Change K V (V × InsertResult)) := do
      -- look up the value just inserted in the new child
      let val ← child.get key
      some ⟨.mk h (Function.update st idx .childStale) kv (Function.update ch idx child) t,
        (val, .inserted), 0⟩
    match st idx with
    | .writing => none
    | .empty =>
      some ⟨.mk h (Function.update st idx .data) (Function.update kv idx (some (key, value))) ch t,
        (value, .inserted), 0⟩
    | .tombstone => attach (buildSingleEntryChild key value) (t - 1)
    | .data =>
      match kv idx with
      | none => none
      | some (existingKey, existingValue) =>
        if existingKey = key then some ⟨.mk h st kv ch t, (existingValue, .updated), 0⟩
        else do
          let child ← buildConflictNode existingKey existingValue key value
          attach child t
    | .child => do
      let c ← getOrInsertAt key value (ch idx)
      some ⟨.mk h st kv (Function.update ch idx c.node) t, c.result, c.depth + 1⟩
    | .childStale => do
      let c ← getOrInsertAt key value (ch idx)
      some ⟨.mk h st kv (Function.update ch idx c.node) t, c.result, c.depth + 1⟩

/-- Get the value of a key, or insert one. -/
def getOrInsert (config : Config) (node : Node K V) (key : K) (value : V) :
    Option (Node K V × V × InsertResult) := do
  let c ← getOrInsertAt key value node
  match c.result with
  | (val, .updated) => some (c.node, val, .updated)
  | (val, .inserted) =>
    let node ← rebuildDeep config key c.node c.depth
    some (node, val, .inserted)

/-! ## Remove -/

/-- The ratio of tombstones to the capacity of a node. -/
def tombstoneRatio (capacity numTombstones : ℕ) : ℚ :=
  if capacity = 0 then 0 else numTombstones / capacity

/-- The descent of `remove`: the result is `none` if the key was not found, else the
    tombstone ratio of the node it was removed from. -/
def removeAt (key : K) : Node K V → Option (Change K V (Option ℚ))
  | .null => some ⟨.null, none, 0⟩
  | .mk h st kv ch t =>
    let idx := h.predictSlot key
    let node := Node.mk h st kv ch t
    match st idx with
    | .writing => none
    | .empty => some ⟨node, none, 0⟩
    | .tombstone => some ⟨node, none, 0⟩
    | .data =>
      match kv idx with
      | none => none
      | some (k, _) =>
        if k ≠ key then some ⟨node, none, 0⟩
        else some ⟨.mk h (Function.update st idx .tombstone) kv ch (t + 1),
          some (tombstoneRatio h.capacity (t + 1)), 0⟩
    | .child => do
      let c ← removeAt key (ch idx)
      some ⟨.mk h st kv (Function.update ch idx c.node) t, c.result, c.depth + 1⟩
    | .childStale => do
      let c ← removeAt key (ch idx)
      some ⟨.mk h st kv (Function.update ch idx c.node) t, c.result, c.depth + 1⟩

/-- Remove a key from the tree: `true` if it was found and removed. -/
def remove (config : Config) (node : Node K V) (key : K) : Option (Node K V × Bool) := do
  let c ← removeAt key node
  match c.result with
  | none => some (c.node, false)
  | some ratio =>
    -- tombstone compaction
    if config.autoRebuild ∧ ratio > config.tombstoneRatioThreshold ∧ c.depth > 0 then
      let node ← tryRebuildSubtree config c.node (node.predictSlot key)
      some (node, true)
    else some (c.node, true)

end Scry.Index
