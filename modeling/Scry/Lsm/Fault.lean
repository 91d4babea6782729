/-
  Flushes and compactions that fail (`engine.rs`, `compaction.rs`,
  `sstable/writer.rs`).

  One I/O step of a call may fail; the call then returns the error and leaves behind what
  it did so far.  A step that fails writes nothing that a reader can open.  The removal of
  a file is not among the steps: its result is ignored.  A lock that a panicking thread
  poisoned stays poisoned.
-/
import Scry.Lsm.Engine

namespace Scry.Lsm

/-- A step that fails, and its error. -/
structure Fault (σ : Type) where
  step : σ
  error : IoError

/-- Take a step. -/
def attempt {σ : Type} [DecidableEq σ] (fault : Option (Fault σ)) (step : σ) :
    Except IoError Unit :=
  match fault with
  | some f => if f.step = step then .error f.error else .ok ()
  | none => .ok ()

/-! ## Compaction -/

/-- The I/O steps of `compact_level`. -/
inductive CompactIo where
  /-- open source `i` -/
  | openSource (i : ℕ)
  /-- read the first entry of source `i` -/
  | seed (i : ℕ)
  /-- create the output -/
  | create
  /-- iteration `i` of the loop reads the next entry of a source -/
  | next (i : ℕ)
  /-- iteration `i` of the loop adds an entry to the output -/
  | add (i : ℕ)
  /-- finish the output -/
  | finish
  deriving DecidableEq

/-- Open the sources, from number `i` on. -/
def openSources (fault : Option (Fault CompactIo)) (d : Disk) :
    ℕ → List SsTableMeta → Except IoError (List SsTableReader)
  | _, [] => .ok []
  | i, t :: ts => do
    attempt fault (.openSource i)
    let reader ← SsTableReader.open_ d t.path
    let readers ← openSources fault d (i + 1) ts
    return reader :: readers

/-- Open the sources and read the first entry of each. -/
def startSources (fault : Option (Fault CompactIo)) (d : Disk) (tables : List SsTableMeta) :
    Except IoError (List SsTableReader) := do
  let readers ← openSources fault d 0 tables
  (List.range readers.length).forM fun i => attempt fault (.seed i)
  return readers

/-- At most `n` iterations of the loop, from number `i` on. -/
def mergeLoopAt (fault : Option (Fault CompactIo)) (isHighest : Bool) :
    ℕ → ℕ → MergeState → Except IoError MergeState
  | 0, _, s => .ok s
  | n + 1, i, s =>
    match mergeStep isHighest s with
    | none => .ok s
    | some s' => do
      attempt fault (.next i)
      if s'.writer.entryCount ≠ s.writer.entryCount then attempt fault (.add i)
      mergeLoopAt fault isHighest n (i + 1) s'

/-- The merge of compaction. -/
def mergeAt (fault : Option (Fault CompactIo)) (isHighest : Bool) (readers : List SsTableReader)
    (writer : SsTableWriter) : Except IoError MergeState :=
  let (heap, scans) := seed (readers.map SsTableReader.scan)
  let total := (readers.map fun r => r.entries.length).sum
  mergeLoopAt fault isHighest total 0 ⟨heap, scans, writer, none, false⟩

/-- `compact_level`: the store it leaves behind, and what it returns. -/
def compactLevelAt (fault : Option (Fault CompactIo)) (s : Store) (level : ℕ) :
    Store × Except IoError Unit :=
  let tables := s.manifest.level level
  if tables.isEmpty then (s, .ok ())
  else
    let oldIds := tables.map (·.id)
    let oldPaths := tables.map (·.path)
    match startSources fault s.disk tables with
    | .error e => (s, .error e)
    | .ok readers =>
      let highest := isHighest s.manifest level
      let targetLevel := level + 1
      let ((id, path), manifest) := s.manifest.nextSstablePath targetLevel
      match attempt fault .create with
      | .error e => (⟨manifest, s.disk⟩, .error e)
      | .ok () =>
        let (writer, disk) := SsTableWriter.new s.disk path
        match mergeAt fault highest readers writer with
        | .error e => (⟨manifest, disk⟩, .error e)
        | .ok merged =>
          -- remove old SSTables from manifest and disk
          let manifest := manifest.remove level oldIds
          let disk := oldPaths.foldl Disk.remove disk
          if merged.wroteAny then
            match attempt fault .finish with
            | .error e => (⟨manifest, disk⟩, .error e)
            | .ok () =>
              let ((entryCount, minKey, maxKey), disk) := merged.writer.finish disk
              (⟨manifest.add ⟨id, targetLevel, path, entryCount, minKey, maxKey⟩, disk⟩, .ok ())
          else (⟨manifest, disk⟩, .ok ())

/-! ## Flush -/

/-- The I/O steps of `put` and `flush`. -/
inductive FlushIo where
  /-- append to the log -/
  | append
  /-- create the SSTable -/
  | create
  /-- add entry `i` -/
  | add (i : ℕ)
  | finish
  /-- truncate the log -/
  | truncate
  /-- a step of the compaction of a level -/
  | compact (level : ℕ) (step : CompactIo)
  deriving DecidableEq

/-- The failure of a step inside the compaction of a level. -/
def Fault.within (level : ℕ) (f : Fault FlushIo) : Option (Fault CompactIo) :=
  match f.step with
  | .compact l step => if l = level then some ⟨step, f.error⟩ else none
  | _ => none

/-- The compaction pass over the given levels. -/
def compactLevelsAt (fault : Option (Fault FlushIo)) :
    List ℕ → Store → Store × Except IoError Unit
  | [], s => (s, .ok ())
  | level :: rest, s =>
    if s.manifest.levelCount level ≥ maxTablesPerLevel then
      match compactLevelAt (fault.bind (Fault.within level)) s level with
      | (s, .error e) => (s, .error e)
      | (s, .ok ()) => compactLevelsAt fault rest s
    else compactLevelsAt fault rest s

def maybeCompactAt (fault : Option (Fault FlushIo)) (s : Store) : Store × Except IoError Unit :=
  compactLevelsAt fault (List.range s.manifest.numLevels) s

/-- Add the drained entries to a new writer, from number `i` on. -/
def writeAllAt (fault : Option (Fault FlushIo)) :
    ℕ → SsTableWriter → List Entry → Except IoError SsTableWriter
  | _, w, [] => .ok w
  | i, w, (key, value) :: rest => do
    attempt fault (.add i)
    writeAllAt fault (i + 1) (w.add key value) rest

/-- An engine and its locks. -/
structure Locked (M : Type) extends LsmEngine M where
  manifestPoisoned : Bool
  walPoisoned : Bool

namespace Locked
variable {M : Type} [Memtable M]

omit [Memtable M] in
/-- The engine with another store. -/
def setStore (g : Locked M) (store : Store) : Locked M := { g with store := store }

/-- `flush_memtable`: the engine it leaves behind, and what it returns. -/
def flushMemtable (fault : Option (Fault FlushIo)) (g : Locked M) : Locked M × Result Unit :=
  let (entries, memtable) := Memtable.drainSorted g.memtable
  let g : Locked M := { g with memtable := memtable }
  if entries.isEmpty then (g, .ok ())
  else if g.manifestPoisoned then (g, .error .poisoned)
  else
    let ((id, path), manifest) := g.store.manifest.nextSstablePath 0
    match attempt fault .create with
    | .error e => (g.setStore ⟨manifest, g.store.disk⟩, .error (.io e))
    | .ok () =>
      let (writer, disk) := SsTableWriter.new g.store.disk path
      match writeAllAt fault 0 writer entries with
      | .error e => (g.setStore ⟨manifest, disk⟩, .error (.io e))
      | .ok writer =>
        match attempt fault .finish with
        | .error e => (g.setStore ⟨manifest, disk⟩, .error (.io e))
        | .ok () =>
          let ((entryCount, minKey, maxKey), disk) := writer.finish disk
          let g := g.setStore ⟨manifest.add ⟨id, 0, path, entryCount, minKey, maxKey⟩, disk⟩
          if g.walPoisoned then (g, .error .poisoned)
          else
            match attempt fault .truncate with
            | .error e => (g, .error (.io e))
            | .ok () =>
              let g : Locked M := { g with wal := [] }
              match maybeCompactAt fault g.store with
              | (store, .error e) => (g.setStore store, .error (.io e))
              | (store, .ok ()) => (g.setStore store, .ok ())

/-- `maybe_flush`. -/
def maybeFlush (fault : Option (Fault FlushIo)) (g : Locked M) : Locked M × Result Unit :=
  if Memtable.approximateBytes g.memtable ≥ g.flushThreshold then g.flushMemtable fault
  else (g, .ok ())

/-- The log record and the memtable entry of a `put` are written. -/
def written (g : Locked M) (key value : Bytes) : Locked M :=
  { g with wal := g.wal ++ [.put key value], memtable := Memtable.insert g.memtable key value }

/-- `put`. -/
def put (fault : Option (Fault FlushIo)) (g : Locked M) (key value : Bytes) :
    Locked M × Result Unit :=
  if g.walPoisoned then (g, .error .poisoned)
  else
    match attempt fault .append with
    | .error e => (g, .error (.io e))
    | .ok () => (g.written key value).maybeFlush fault

/-- `delete`, which never flushes. -/
def delete (fault : Option (Fault FlushIo)) (g : Locked M) (key : Bytes) :
    Locked M × Result Unit :=
  if g.walPoisoned then (g, .error .poisoned)
  else
    match attempt fault .append with
    | .error e => (g, .error (.io e))
    | .ok () =>
      ({ g with wal := g.wal ++ [.delete key], memtable := Memtable.delete g.memtable key }, .ok ())

def apply (fault : Option (Fault FlushIo)) (g : Locked M) : Op → Locked M × Result Unit
  | .put key value => g.put fault key value
  | .delete key => g.delete fault key
  | .flush => g.flushMemtable fault

/-- `get`, which takes the manifest lock if the memtable does not hold the key. -/
def get (g : Locked M) (key : Bytes) : Result (Option Bytes) :=
  match Memtable.get g.memtable key with
  | some value => .ok (LsmEngine.decodeValue value)
  | none => if g.manifestPoisoned then .error .poisoned else LsmEngine.getSstable g.store key

end Locked

end Scry.Lsm
