/-
  The depth of a tree (`max_depth` in `node.rs`), and what decides it: where an update
  ends its descent (`insert.rs`), and how the keys of a rebuilt subtree share slots
  (`build.rs`).
-/
import Scry.Lib.Run
import Scry.Index.Map

namespace Scry.Index

variable {K V : Type}

namespace Node

/-- The depth of the deepest path from this node. -/
def maxDepth : Node K V → ℕ
  | .null => 0
  | .mk h st _ ch _ =>
    1 + ((List.range h.capacity).map fun i =>
      if (st i).isChild then (ch i).maxDepth else 0).foldl max 0

/-- The child pointer of a slot. -/
def child : Node K V → ℕ → Node K V
  | .null, _ => .null
  | .mk _ _ _ ch _, i => ch i

variable [LinearOrder K] [Key K]

/-- The number of children through which an operation on the key descends. -/
def descents (key : K) : Node K V → ℕ
  | .null => 0
  | .mk h st _ ch _ =>
    let idx := h.predictSlot key
    if (st idx).isChild then (ch idx).descents key + 1 else 0

/-- The slot at which its descent ends: the state and the inline pair. -/
def landing (key : K) : Node K V → SlotState × Option (K × V)
  | .null => (.empty, none)
  | .mk h st kv ch _ =>
    let idx := h.predictSlot key
    if (st idx).isChild then (ch idx).landing key else (st idx, kv idx)

/-- An insert of the key overwrites a value: it attaches a child for the same key. -/
def overwrites (n : Node K V) (key : K) : Bool :=
  match n.landing key with
  | (.data, some (k, _)) => k = key
  | _ => false

/-- An insert of the key reuses a tombstone, and the subtree that it would rebuild, the
    child of its first descent, holds no other key. -/
def reusesAlone (n : Node K V) (key : K) : Bool :=
  match n.landing key with
  | (.tombstone, _) => (n.child (n.predictSlot key)).sortedPairs.isEmpty
  | _ => false

end Node

/-! ## Subtree rebuilds -/

/-- What `try_rebuild_subtree` returns: whether it swapped in a new subtree. -/
def rebuildsSubtree (parent : Node K V) (idx : ℕ) : Bool :=
  match parent with
  | .null => false
  | .mk _ st _ ch _ =>
    if ¬ (st idx).isChild then false
    else
      match ch idx with
      | .null => false
      | child => 1 < child.sortedPairs.length

/-- The configuration with which a subtree is rebuilt. -/
def Config.boosted (config : Config) : Config :=
  { config with expansionFactor := min (config.expansionFactor * (3 / 2)) 4 }

variable [LinearOrder K] [Key K]

/-- The pairs that the fitted model predicts to one slot each. -/
def groups (config : Config) (pairs : List (K × V)) : List (List (K × V)) :=
  match fitFmcd pairs.length (keyInput pairs) config.expansionFactor config.rangeHeadroom with
  | none => []
  | some result =>
    let node : Node K V := .withCapacity result.model result.arraySize
    (runs (pairs.map fun p => (node.predictSlot p.1, p))).map Prod.snd

/-- The keys are told apart within `d` further rounds: keys with one model input are halved
    in each round, others are grouped by the slots of the model that is fitted to them. -/
def ToldApart (config : Config) : ℕ → List (K × V) → Prop
  | 0, pairs =>
    if isDegenerateGroup pairs then pairs.length ≤ 2
    else ∀ group ∈ groups config pairs, group.length = 1
  | d + 1, pairs =>
    if isDegenerateGroup pairs then pairs.length ≤ 2 ^ (d + 2)
    else ∀ group ∈ groups config pairs, group.length = 1 ∨ ToldApart config d group

/-! ## Runs -/

namespace LearnedMap

/-- One operation of a run. -/
def act (m : LearnedMap K V) (op : Op K V) : Option (LearnedMap K V) := (m.step op).map Prod.fst

/-- An insert that attaches a child and after which nothing is rebuilt, however deep the
    child is, ends at most `bound` children below the root: one that overwrites a value,
    or one that reuses a tombstone where no subtree and no root rebuild is due. -/
def StaysShallow (bound : ℕ) (m : LearnedMap K V) : Op K V → Prop
  | .insert key _ =>
    m.root.overwrites key ∨ (m.root.reusesAlone key ∧ m.len + 1 < m.nextRootRebuild) →
      m.root.descents key ≤ bound
  | .getOrInsert key _ =>
    m.root.reusesAlone key ∧ m.len + 1 < m.nextRootRebuild → m.root.descents key ≤ bound
  | _ => True

instance StaysShallow.decidable (bound : ℕ) (m : LearnedMap K V) :
    ∀ op, Decidable (m.StaysShallow bound op)
  | .insert _ _ => inferInstanceAs (Decidable (_ → _))
  | .getOrInsert _ _ => inferInstanceAs (Decidable (_ → _))
  | .remove _ | .get _ | .rebuild | .drain | .clear | .len | .iter | .firstKeyValue
  | .lastKeyValue => inferInstanceAs (Decidable True)

end LearnedMap

/-- The key that an update touches. -/
def Op.touched : Op K V → Option K
  | .insert key _ => some key
  | .getOrInsert key _ => some key
  | .remove key => some key
  | _ => none

/-- The operation is an insert, a `get_or_insert` or a remove. -/
def Op.isUpdate : Op K V → Bool
  | .insert _ _ => true
  | .getOrInsert _ _ => true
  | .remove _ => true
  | _ => false

end Scry.Index
