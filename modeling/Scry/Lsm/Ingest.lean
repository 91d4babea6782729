/-
  Direct ingestion of sorted files (`ingest_sorted` in `engine.rs`).

  An ingested table bypasses the memtable and the log.
-/
import Scry.Lsm.Engine

namespace Scry.Lsm

namespace LsmEngine
variable {M : Type} [Memtable M]

/-- The loop of `ingest_sorted`: add the pairs, whose keys must ascend. -/
def ingestPairs (w : SsTableWriter) (prevKey : Option Bytes) :
    List Entry → Result SsTableWriter
  | [] => .ok w
  | (key, value) :: rest =>
    if prevKey.any fun prev => key ≤ prev then
      .error (.corruption "ingest_sorted: keys not in ascending order")
    else ingestPairs (w.add key value) (some key) rest

/-- Ingest sorted pairs directly as an L0 table: the engine and the number of entries
    written. -/
def ingestSorted (e : LsmEngine M) (pairs : List Entry) : Result (LsmEngine M × ℕ) := do
  let ((id, path), manifest) := e.store.manifest.nextSstablePath 0
  let (writer, disk) := SsTableWriter.new e.store.disk path
  let writer ← ingestPairs writer none pairs
  let ((entryCount, minKey, maxKey), disk) := writer.finish disk
  if entryCount > 0 then
    let store ← (maybeCompact
      ⟨manifest.add ⟨id, 0, path, entryCount, minKey, maxKey⟩, disk⟩).mapError .io
    return ({ e with store := store }, entryCount)
  else
    -- empty input: the file is removed
    return ({ e with store := ⟨manifest, disk.remove path⟩ }, entryCount)

/-- A refused list takes an id; its partial file is removed. -/
def ingestRefused (e : LsmEngine M) : LsmEngine M :=
  let ((_, path), manifest) := e.store.manifest.nextSstablePath 0
  let (_, disk) := SsTableWriter.new e.store.disk path
  { e with store := ⟨manifest, disk.remove path⟩ }

end LsmEngine

/-! ## Runs -/

/-- The operations that write to an engine, by either path. -/
inductive BulkOp where
  | write (op : Op)
  | ingestSorted (pairs : List Entry)

/-- The strings of an operation fit their length fields. -/
def BulkOp.Short : BulkOp → Prop
  | .write op => op.Short
  | .ingestSorted pairs => ∀ a ∈ pairs, a.Short

variable {M : Type} [Memtable M]

def LsmEngine.applyBulk (e : LsmEngine M) : BulkOp → Result (LsmEngine M)
  | .write op => e.apply op
  | .ingestSorted pairs => (e.ingestSorted pairs).map Prod.fst

/-- A single-threaded sequence of operations. -/
def LsmEngine.runBulk (e : LsmEngine M) (ops : List BulkOp) : Result (LsmEngine M) :=
  ops.foldlM LsmEngine.applyBulk e

/-- The engine after an operation, accepted or rejected; `none` after an I/O error. -/
def LsmEngine.applyAny (e : LsmEngine M) (op : BulkOp) : Option (LsmEngine M) :=
  match e.applyBulk op with
  | .ok e' => some e'
  | .error (.corruption _) => some e.ingestRefused
  | .error _ => none

/-- A single-threaded sequence of operations, accepted or rejected. -/
def LsmEngine.runAny (e : LsmEngine M) (ops : List BulkOp) : Option (LsmEngine M) :=
  ops.foldlM LsmEngine.applyAny e

/-- What a run starts from and what it writes fits the length fields. -/
structure ShortRun (dir : Dir) (m : M) (ops : List BulkOp) : Prop where
  log : dir.Short
  memtable : ∀ k v, Memtable.get m k = some v → k.Short ∧ v.Short
  ops : ∀ op ∈ ops, op.Short

/-- A run of short strings takes a new engine on the directory to `e`. -/
structure Reaches (dir : Dir) (m : M) (config : EngineConfig) (ops : List BulkOp)
    (e : LsmEngine M) : Prop where
  short : ShortRun dir m ops
  run : (LsmEngine.open_ dir m config).runAny ops = some e

end Scry.Lsm
