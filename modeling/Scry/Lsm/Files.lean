/-
  The engine over the bytes of its files (`engine.rs`, `compaction.rs`, `wal.rs`,
  `sstable/writer.rs`, `sstable/reader.rs`).

  The functions of `Engine`, `Compaction` and `Ingest` with the log and the SSTables in
  their byte layout.  The writers cut lengths to their `u32` fields, so that a table may
  hold other entries than it was given; the readers see what the bytes say.  The operating
  system refuses to write a file that is longer than a file can be.
-/
import Scry.Lsm.Ingest
import Scry.Lsm.Layout

namespace Scry.Lsm.Layout

/-- How an operation fails. -/
inductive Failure where
  /-- it returns an error of the engine -/
  | engine (e : Error)
  /-- a file cannot be read -/
  | read (f : Fault)
  /-- a file cannot be written -/
  | fileTooLarge
  deriving DecidableEq

/-! ## Files -/

/-- The largest file: its length is an `off_t`. -/
def maxFileSize : ℕ := 2 ^ 63 - 1

/-- Default target size for data blocks (4 KiB). -/
def defaultBlockSize : ℕ := 4096

/-- The SSTable files of the directory. -/
def Disk := SstPath → Option (List Byte)

def Disk.write (d : Disk) (p : SstPath) (file : List Byte) : Disk :=
  fun q => if q = p then some file else d q

/-- `fs::remove_file`. -/
def Disk.remove (d : Disk) (p : SstPath) : Disk := fun q => if q = p then none else d q

/-- What the manifest mutex guards, with the SSTable files of the directory. -/
structure Store where
  manifest : Manifest
  disk : Disk

/-- `SsTableWriter::new`: the file is created, or what it held is dropped. -/
def create (d : Disk) (path : SstPath) : SsTableWriter × Disk :=
  (.withBlockSize defaultBlockSize, d.write path [])

/-- `SsTableWriter::finish`: `(entry_count, min_key, max_key)` and the directory with the
    file complete. -/
def finish (w : SsTableWriter) (d : Disk) (path : SstPath) :
    Except Failure ((ℕ × Bytes × Bytes) × Disk) :=
  let (file, done) := w.finish
  if file.length ≤ maxFileSize then .ok (done, d.write path file) else .error .fileTooLarge

/-- `SsTableReader::open` -/
def openTable (d : Disk) (path : SstPath) : Except Failure SsTableReader :=
  match d path with
  | none => .error (.engine (.io .notFound))
  | some file => (SsTableReader.open_ file).mapError .read

/-! ## Compaction -/

/-- The state of the merge loop. -/
structure MergeState where
  heap : BinaryHeap MergeEntry
  scans : List SsTableScan
  writer : SsTableWriter
  lastKey : Option Bytes
  wroteAny : Bool

/-- Push the next entry of scan `i`, if it has one. -/
def refill (heap : BinaryHeap MergeEntry) (scans : List SsTableScan) (i : ℕ) :
    Except Fault (BinaryHeap MergeEntry × List SsTableScan) :=
  match scans[i]? with
  | none => .ok (heap, scans)
  | some s => do
    let (entry, s) ← s.nextEntry
    match entry with
    | none => return (heap, scans.set i s)
    | some (key, value) => return (heap.push ⟨key, value, i⟩, scans.set i s)

/-- Seed the heap with the first entry from each SSTable. -/
def seed (scans : List SsTableScan) : Except Fault (BinaryHeap MergeEntry × List SsTableScan) :=
  (List.range scans.length).foldlM (fun p i => refill p.1 p.2 i) (BinaryHeap.new, scans)

/-- One iteration of the loop that streams entries out in sorted order; `none` when the
    heap is empty. -/
def mergeStep (isHighest : Bool) (s : MergeState) : Except Fault (Option MergeState) :=
  match s.heap.pop with
  | none => .ok none
  | some (entry, heap) => do
    -- advance the source scan
    let (heap, scans) ← refill heap s.scans entry.source
    -- deduplicate: skip if same key as previous
    if s.lastKey = some entry.key then
      return some { s with heap := heap, scans := scans }
    -- drop tombstones at the highest level
    else if isHighest && entry.value.isEmpty then
      return some { s with heap := heap, scans := scans, lastKey := some entry.key }
    else
      return some { heap := heap, scans := scans, writer := s.writer.add entry.key entry.value
                    lastKey := some entry.key, wroteAny := true }

/-- At most `n` iterations of the loop. -/
def mergeLoop (isHighest : Bool) : ℕ → MergeState → Except Fault MergeState
  | 0, s => .ok s
  | n + 1, s => do
    match ← mergeStep isHighest s with
    | none => return s
    | some s => mergeLoop isHighest n s

/-- The bytes of the data blocks, which bound the number of entries. -/
def dataLen (r : SsTableReader) : ℕ := (r.index.map (·.blockLen)).sum

/-- The merge of compaction: stream all entries of `readers` into `writer`. -/
def merge (isHighest : Bool) (readers : List SsTableReader) (writer : SsTableWriter) :
    Except Fault MergeState := do
  let (heap, scans) ← seed (readers.map SsTableReader.scan)
  mergeLoop isHighest (readers.map dataLen).sum ⟨heap, scans, writer, none, false⟩

/-- Merge all SSTables at `level` into one SSTable at `level + 1`. -/
def compactLevel (s : Store) (level : ℕ) : Except Failure Store := do
  let tables := s.manifest.level level
  if tables.isEmpty then
    return s
  let oldIds := tables.map (·.id)
  let oldPaths := tables.map (·.path)
  let readers ← tables.mapM fun t => openTable s.disk t.path
  let highest := isHighest s.manifest level
  let targetLevel := level + 1
  let ((id, path), manifest) := s.manifest.nextSstablePath targetLevel
  let (writer, disk) := create s.disk path
  let merged ← (merge highest readers writer).mapError .read
  -- remove old SSTables from manifest and disk
  let manifest := manifest.remove level oldIds
  let disk := oldPaths.foldl Disk.remove disk
  -- only register the new SSTable if it has entries
  if merged.wroteAny then
    let ((entryCount, minKey, maxKey), disk) ← finish merged.writer disk path
    return ⟨manifest.add ⟨id, targetLevel, path, entryCount, minKey, maxKey⟩, disk⟩
  else
    return ⟨manifest, disk⟩

/-- One level of the pass of `maybeCompact`. -/
def compactIfFull (s : Store) (level : ℕ) : Except Failure Store :=
  if s.manifest.levelCount level ≥ maxTablesPerLevel then compactLevel s level else pure s

/-- Check all levels and compact any that exceed the threshold. -/
def maybeCompact (s : Store) : Except Failure Store :=
  (List.range s.manifest.numLevels).foldlM compactIfFull s

/-! ## The engine -/

/-- The files of an engine directory. -/
structure Dir where
  wal : Option (List Byte)
  sst : Disk

/-- A directory without files. -/
def Dir.empty : Dir := ⟨none, fun _ => none⟩

/-- A minimal LSM-tree key-value engine. -/
structure LsmEngine (M : Type) where
  memtable : M
  wal : Wal
  store : Store
  flushThreshold : ℕ

namespace LsmEngine
variable {M : Type} [Memtable M]

/-- Open or create an engine: the records of an existing log are replayed into the
    memtable, the manifest starts empty. -/
def open_ (dir : Dir) (memtable : M) (config : EngineConfig) : Except Failure (LsmEngine M) := do
  let records ← (Wal.recover dir.wal).mapError .engine
  return ⟨records.foldl Lsm.LsmEngine.replay memtable, .open_ dir.wal,
    ⟨Manifest.new numLevels, dir.sst⟩, config.flushThreshold⟩

/-- Add the drained entries to a new writer. -/
def writeAll (w : SsTableWriter) (entries : List Entry) : SsTableWriter :=
  entries.foldl (fun w e => w.add e.1 e.2) w

/-- Write the drained entries as a new L0 table and register it. -/
def addTable (s : Store) (entries : List Entry) : Except Failure Store := do
  let ((id, path), manifest) := s.manifest.nextSstablePath 0
  let (writer, disk) := create s.disk path
  let ((entryCount, minKey, maxKey), disk) ← finish (writeAll writer entries) disk path
  return ⟨manifest.add ⟨id, 0, path, entryCount, minKey, maxKey⟩, disk⟩

/-- Drain the memtable to a new SSTable, truncate the log, check for compaction. -/
def flushMemtable (e : LsmEngine M) : Except Failure (LsmEngine M) := do
  let (entries, memtable) := Memtable.drainSorted e.memtable
  if entries.isEmpty then
    return { e with memtable := memtable }
  let store ← addTable e.store entries
  let store ← maybeCompact store
  return { e with memtable := memtable, wal := e.wal.truncate, store := store }

/-- Flush if the memtable reached the threshold. -/
def maybeFlush (e : LsmEngine M) : Except Failure (LsmEngine M) :=
  if Memtable.approximateBytes e.memtable ≥ e.flushThreshold then e.flushMemtable else pure e

/-- Insert a key-value pair: the log first, then the memtable. -/
def put (e : LsmEngine M) (key value : Bytes) : Except Failure (LsmEngine M) :=
  maybeFlush { e with wal := e.wal.appendPut key value
                      memtable := Memtable.insert e.memtable key value }

/-- Delete a key by inserting a tombstone. -/
def delete (e : LsmEngine M) (key : Bytes) : Except Failure (LsmEngine M) :=
  pure { e with wal := e.wal.appendDelete key, memtable := Memtable.delete e.memtable key }

/-- Force the memtable to flush to an SSTable, regardless of size. -/
def flush (e : LsmEngine M) : Except Failure (LsmEngine M) := e.flushMemtable

/-- Search the tables of one level, newest (last added) first; `none` when no table
    holds the key. -/
def searchLevel (d : Disk) (key : Bytes) : List SsTableMeta → Except Failure (Option Bytes)
  | [] => pure none
  | t :: rest => do
    if key < t.minKey ∨ key > t.maxKey then
      searchLevel d key rest -- key not in this SSTable's range
    else
      let reader ← openTable d t.path
      match ← (reader.get key).mapError .read with
      | some value => pure (some value)
      | none => searchLevel d key rest

/-- Search the levels from newest (L0) to oldest. -/
def searchLevels (d : Disk) (key : Bytes) :
    List (List SsTableMeta) → Except Failure (Option Bytes)
  | [] => pure none
  | tables :: rest => do
    match ← searchLevel d key tables.reverse with
    | some value => pure (some value)
    | none => searchLevels d key rest

/-- Look up a key: the memtable first, then the SSTables. -/
def get (e : LsmEngine M) (key : Bytes) : Except Failure (Option Bytes) :=
  match Memtable.get e.memtable key with
  | some value => pure (Lsm.LsmEngine.decodeValue value)
  | none => do
    let value ← searchLevels e.store.disk key e.store.manifest.levels
    return value.bind Lsm.LsmEngine.decodeValue

/-! ## Ingestion -/

/-- The loop of `ingest_sorted`: add the pairs, whose keys must ascend. -/
def ingestPairs (w : SsTableWriter) (prevKey : Option Bytes) :
    List Entry → Except Failure SsTableWriter
  | [] => .ok w
  | (key, value) :: rest =>
    if prevKey.any fun prev => key ≤ prev then
      .error (.engine (.corruption "ingest_sorted: keys not in ascending order"))
    else ingestPairs (w.add key value) (some key) rest

/-- Ingest sorted pairs directly as an L0 table: the engine and the number of entries
    written. -/
def ingestSorted (e : LsmEngine M) (pairs : List Entry) : Except Failure (LsmEngine M × ℕ) := do
  let ((id, path), manifest) := e.store.manifest.nextSstablePath 0
  let (writer, disk) := create e.store.disk path
  let writer ← ingestPairs writer none pairs
  let ((entryCount, minKey, maxKey), disk) ← finish writer disk path
  if entryCount > 0 then
    let store ← maybeCompact ⟨manifest.add ⟨id, 0, path, entryCount, minKey, maxKey⟩, disk⟩
    return ({ e with store := store }, entryCount)
  else
    -- empty input: the file is removed
    return ({ e with store := ⟨manifest, disk.remove path⟩ }, entryCount)

/-- A refused list takes an id; its partial file is removed. -/
def ingestRefused (e : LsmEngine M) : LsmEngine M :=
  let ((_, path), manifest) := e.store.manifest.nextSstablePath 0
  let (_, disk) := create e.store.disk path
  { e with store := ⟨manifest, disk.remove path⟩ }

/-! ## Runs -/

def apply (e : LsmEngine M) : BulkOp → Except Failure (LsmEngine M)
  | .write (.put key value) => e.put key value
  | .write (.delete key) => e.delete key
  | .write .flush => e.flush
  | .ingestSorted pairs => (e.ingestSorted pairs).map Prod.fst

/-- The engine after an operation, accepted or rejected. -/
def applyAny (e : LsmEngine M) (op : BulkOp) : Except Failure (LsmEngine M) :=
  match e.apply op with
  | .error (.engine (.corruption _)) => .ok e.ingestRefused
  | result => result

/-- A single-threaded sequence of operations, accepted or rejected. -/
def runAny (e : LsmEngine M) (ops : List BulkOp) : Except Failure (LsmEngine M) :=
  ops.foldlM applyAny e

end LsmEngine

end Scry.Lsm.Layout
