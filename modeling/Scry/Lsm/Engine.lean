/-
  The LSM engine (`engine.rs`), its memtables (`memtable/mod.rs`,
  `memtable/btree.rs`) and the records of its write-ahead log (`wal.rs`).

  The engine is a function of its state: the memtable, the log (what the file and
  its writer's buffer hold together), the manifest and the SSTable files.  The
  memtable is any type that implements the `Memtable` trait.  Log and files hold what
  is written to them, which they do as long as its lengths fit their `u32` fields.
-/
import Scry.Lsm.Compaction

namespace Scry.Lsm

/-! ## Memtables -/

/-- The `Memtable` trait: an in-memory sorted write buffer.  Deletions are entries
    with an empty value. -/
class Memtable (M : Type) where
  insert : M → Bytes → Bytes → M
  get : M → Bytes → Option Bytes
  delete : M → Bytes → M
  approximateBytes : M → ℕ
  drainSorted : M → List Entry × M

/-- A memtable that is a correct sorted map. -/
class LawfulMemtable (M : Type) [Memtable M] : Prop where
  get_insert (m : M) (k v k₀ : Bytes) :
    Memtable.get (Memtable.insert m k v) k₀ = if k₀ = k then some v else Memtable.get m k₀
  get_delete (m : M) (k k₀ : Bytes) :
    Memtable.get (Memtable.delete m k) k₀ = if k₀ = k then some .empty else Memtable.get m k₀
  drain_ascending (m : M) : Ascending (Memtable.drainSorted m).1
  drain_lookup (m : M) (k : Bytes) : (Memtable.drainSorted m).1.lookup k = Memtable.get m k
  get_drain (m : M) (k : Bytes) : Memtable.get (Memtable.drainSorted m).2 k = none

/-- `BTreeMemtable`: a sorted map and a count of the bytes inserted since the last
    drain. -/
structure BTreeMemtable where
  map : SortedMap Bytes Bytes
  byteCount : ℕ

namespace BTreeMemtable

def new : BTreeMemtable := ⟨SortedMap.empty, 0⟩

def insert (m : BTreeMemtable) (key value : Bytes) : BTreeMemtable :=
  ⟨m.map.insert key value, m.byteCount + (key.len + value.len)⟩

instance : Memtable BTreeMemtable where
  insert := insert
  get m := m.map.get
  delete m key := insert m key .empty
  approximateBytes := byteCount
  drainSorted m := (m.map.toList, new)

instance : LawfulMemtable BTreeMemtable where
  get_insert m k v k₀ := SortedMap.get_insert m.map k v k₀
  get_delete m k k₀ := SortedMap.get_insert m.map k .empty k₀
  drain_ascending m := m.map.ascending
  drain_lookup _ _ := rfl
  get_drain _ k := SortedMap.get_empty k

end BTreeMemtable

/-! ## The engine -/

/-- A record of the write-ahead log. -/
inductive WalRecord where
  | put (key value : Bytes)
  | delete (key : Bytes)
  deriving DecidableEq

/-- The key and the value of a record fit their length fields. -/
def WalRecord.Short : WalRecord → Prop
  | .put key value => key.Short ∧ value.Short
  | .delete key => key.Short

/-- Number of LSM levels of a new manifest. -/
def numLevels : ℕ := 4

/-- Memtable flush threshold in bytes, by default 4 MiB. -/
structure EngineConfig where
  flushThreshold : ℕ := 4 * 1024 * 1024

/-- The files of an engine directory; `wal` is `none` before the log exists. -/
structure Dir where
  wal : Option (List WalRecord)
  sst : Disk

/-- The records of the log fit their length fields, as all that a log is read as do. -/
def Dir.Short (dir : Dir) : Prop := ∀ r ∈ dir.wal.getD [], r.Short

/-- A directory without files. -/
def Dir.empty : Dir := ⟨none, fun _ => none⟩

/-- A minimal LSM-tree key-value engine. -/
structure LsmEngine (M : Type) where
  memtable : M
  wal : List WalRecord
  store : Store
  flushThreshold : ℕ

namespace LsmEngine
variable {M : Type} [Memtable M]

/-- Apply a recovered log record to the memtable. -/
def replay (m : M) : WalRecord → M
  | .put key value => Memtable.insert m key value
  | .delete key => Memtable.delete m key

/-- Open or create an engine: the records of an existing log are replayed into the
    memtable, the manifest starts empty. -/
def open_ (dir : Dir) (memtable : M) (config : EngineConfig) : LsmEngine M where
  memtable := (dir.wal.getD []).foldl replay memtable
  wal := dir.wal.getD []
  store := ⟨Manifest.new numLevels, dir.sst⟩
  flushThreshold := config.flushThreshold

/-- A clean drop: the buffered log bytes are written out, the manifest is lost. -/
def drop (e : LsmEngine M) : Dir := ⟨some e.wal, e.store.disk⟩

/-- Add the drained entries to a new writer. -/
def writeAll (w : SsTableWriter) (entries : List Entry) : SsTableWriter :=
  entries.foldl (fun w e => w.add e.1 e.2) w

/-- Write the drained entries as a new L0 table and register it. -/
def addTable (s : Store) (entries : List Entry) : Store :=
  let ((id, path), manifest) := s.manifest.nextSstablePath 0
  let (writer, disk) := SsTableWriter.new s.disk path
  let ((entryCount, minKey, maxKey), disk) := (writeAll writer entries).finish disk
  ⟨manifest.add ⟨id, 0, path, entryCount, minKey, maxKey⟩, disk⟩

/-- Drain the memtable to a new SSTable, truncate the log, check for compaction. -/
def flushMemtable (e : LsmEngine M) : Result (LsmEngine M) := do
  let (entries, memtable) := Memtable.drainSorted e.memtable
  if entries.isEmpty then
    return { e with memtable := memtable }
  let store ← (maybeCompact (addTable e.store entries)).mapError .io
  return { e with memtable := memtable, wal := [], store := store }

/-- Flush if the memtable reached the threshold. -/
def maybeFlush (e : LsmEngine M) : Result (LsmEngine M) :=
  if Memtable.approximateBytes e.memtable ≥ e.flushThreshold then e.flushMemtable else pure e

/-- Insert a key-value pair: the log first, then the memtable. -/
def put (e : LsmEngine M) (key value : Bytes) : Result (LsmEngine M) :=
  maybeFlush { e with wal := e.wal ++ [.put key value]
                      memtable := Memtable.insert e.memtable key value }

/-- Delete a key by inserting a tombstone. -/
def delete (e : LsmEngine M) (key : Bytes) : Result (LsmEngine M) :=
  pure { e with wal := e.wal ++ [.delete key], memtable := Memtable.delete e.memtable key }

/-- Force the memtable to flush to an SSTable, regardless of size. -/
def flush (e : LsmEngine M) : Result (LsmEngine M) := e.flushMemtable

/-- The value an entry stands for: an empty one is a tombstone. -/
def decodeValue (value : Bytes) : Option Bytes := if value.isEmpty then none else some value

/-- Search the tables of one level, newest (last added) first; `none` when no table
    holds the key. -/
def searchLevel (d : Disk) (key : Bytes) : List SsTableMeta → Except IoError (Option Bytes)
  | [] => pure none
  | t :: rest => do
    if key < t.minKey ∨ key > t.maxKey then
      searchLevel d key rest -- key not in this SSTable's range
    else
      let reader ← SsTableReader.open_ d t.path
      match reader.get key with
      | some value => pure (some value)
      | none => searchLevel d key rest

/-- Search the levels from newest (L0) to oldest. -/
def searchLevels (d : Disk) (key : Bytes) :
    List (List SsTableMeta) → Except IoError (Option Bytes)
  | [] => pure none
  | tables :: rest => do
    match ← searchLevel d key tables.reverse with
    | some value => pure (some value)
    | none => searchLevels d key rest

/-- The SSTable part of a lookup. -/
def getSstable (s : Store) (key : Bytes) : Result (Option Bytes) := do
  let value ← (searchLevels s.disk key s.manifest.levels).mapError .io
  return value.bind decodeValue

/-- Look up a key: the memtable first, then the SSTables. -/
def get (e : LsmEngine M) (key : Bytes) : Result (Option Bytes) :=
  match Memtable.get e.memtable key with
  | some value => pure (decodeValue value)
  | none => getSstable e.store key

end LsmEngine

/-! ## Runs -/

/-- The write operations of the engine. -/
inductive Op where
  | put (key value : Bytes)
  | delete (key : Bytes)
  | flush

/-- The strings of an operation fit their length fields. -/
def Op.Short : Op → Prop
  | .put key value => key.Short ∧ value.Short
  | .delete key => key.Short
  | .flush => True

variable {M : Type} [Memtable M]

def LsmEngine.apply (e : LsmEngine M) : Op → Result (LsmEngine M)
  | .put key value => e.put key value
  | .delete key => e.delete key
  | .flush => e.flush

/-- A single-threaded sequence of operations. -/
def LsmEngine.run (e : LsmEngine M) (ops : List Op) : Result (LsmEngine M) :=
  ops.foldlM LsmEngine.apply e

end Scry.Lsm
