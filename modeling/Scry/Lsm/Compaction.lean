/-
  Size-tiered compaction with streaming k-way merge (`compaction.rs`).

  The merge keeps one `MergeEntry` for each source in a max-heap.  Every iteration
  of the `while let` loop pops one entry, so as many iterations as there are
  entries empty the heap (`mergeLoop_done`).
-/
import Scry.Lib.BinaryHeap
import Scry.Lsm.Sstable

namespace Scry.Lsm

/-- Maximum SSTables at any level before compaction triggers. -/
def maxTablesPerLevel : ℕ := 4

/-- An entry in the merge heap. -/
structure MergeEntry where
  key : Bytes
  value : Bytes
  source : ℕ
  deriving DecidableEq

/-- `Ord for MergeEntry`: both comparisons are reversed. -/
instance : Ord MergeEntry where
  compare self other := (compare other.key self.key).then (compare other.source self.source)

/-- The state of the merge loop. -/
structure MergeState where
  heap : BinaryHeap MergeEntry
  scans : List SsTableScan
  writer : SsTableWriter
  lastKey : Option Bytes
  wroteAny : Bool

/-- Push the next entry of scan `i`, if it has one. -/
def refill (heap : BinaryHeap MergeEntry) (scans : List SsTableScan) (i : ℕ) :
    BinaryHeap MergeEntry × List SsTableScan :=
  match scans[i]? with
  | none => (heap, scans)
  | some s =>
    let (entry, s) := s.nextEntry
    match entry with
    | none => (heap, scans.set i s)
    | some (key, value) => (heap.push ⟨key, value, i⟩, scans.set i s)

/-- Seed the heap with the first entry from each SSTable. -/
def seed (scans : List SsTableScan) : BinaryHeap MergeEntry × List SsTableScan :=
  (List.range scans.length).foldl (fun p i => refill p.1 p.2 i) (BinaryHeap.new, scans)

/-- One iteration of the loop that streams entries out in sorted order; `none`
    when the heap is empty. -/
def mergeStep (isHighest : Bool) (s : MergeState) : Option MergeState :=
  match s.heap.pop with
  | none => none
  | some (entry, heap) =>
    -- advance the source scan
    let (heap, scans) := refill heap s.scans entry.source
    -- deduplicate: skip if same key as previous
    if s.lastKey = some entry.key then
      some { s with heap := heap, scans := scans }
    -- drop tombstones at the highest level
    else if isHighest && entry.value.isEmpty then
      some { s with heap := heap, scans := scans, lastKey := some entry.key }
    else
      some { heap := heap, scans := scans, writer := s.writer.add entry.key entry.value
             lastKey := some entry.key, wroteAny := true }

/-- At most `n` iterations of the loop. -/
def mergeLoop (isHighest : Bool) : ℕ → MergeState → MergeState
  | 0, s => s
  | n + 1, s =>
    match mergeStep isHighest s with
    | none => s
    | some s => mergeLoop isHighest n s

/-- The merge of compaction: stream all entries of `readers` into `writer`. -/
def merge (isHighest : Bool) (readers : List SsTableReader) (writer : SsTableWriter) :
    MergeState :=
  let (heap, scans) := seed (readers.map SsTableReader.scan)
  let total := (readers.map fun r => r.entries.length).sum
  mergeLoop isHighest total ⟨heap, scans, writer, none, false⟩

/-- Drop tombstones only at the highest level. -/
def isHighest (m : Manifest) (level : ℕ) : Bool := level + 1 ≥ m.numLevels - 1

/-- Merge all SSTables at `level` into one SSTable at `level + 1`. -/
def compactLevel (s : Store) (level : ℕ) : Except IoError Store := do
  let tables := s.manifest.level level
  if tables.isEmpty then
    return s
  let oldIds := tables.map (·.id)
  let oldPaths := tables.map (·.path)
  let readers ← tables.mapM fun t => SsTableReader.open_ s.disk t.path
  let highest := isHighest s.manifest level
  let targetLevel := level + 1
  let ((id, path), manifest) := s.manifest.nextSstablePath targetLevel
  let (writer, disk) := SsTableWriter.new s.disk path
  let merged := merge highest readers writer
  -- remove old SSTables from manifest and disk
  let manifest := manifest.remove level oldIds
  let disk := oldPaths.foldl Disk.remove disk
  -- only register the new SSTable if it has entries
  if merged.wroteAny then
    let ((entryCount, minKey, maxKey), disk) := merged.writer.finish disk
    return ⟨manifest.add ⟨id, targetLevel, path, entryCount, minKey, maxKey⟩, disk⟩
  else
    return ⟨manifest, disk⟩

/-- One level of the pass of `maybeCompact`. -/
def compactIfFull (s : Store) (level : ℕ) : Except IoError Store :=
  if s.manifest.levelCount level ≥ maxTablesPerLevel then compactLevel s level else pure s

/-- Check all levels and compact any that exceed the threshold. -/
def maybeCompact (s : Store) : Except IoError Store :=
  (List.range s.manifest.numLevels).foldlM compactIfFull s

end Scry.Lsm
