/-
  SSTable files and the manifest (`sstable/mod.rs`, `sstable/writer.rs`,
  `sstable/reader.rs`, `manifest.rs`).

  A finished SSTable is the list of entries its data blocks hold, in the order in
  which `SsTableWriter::add` received them; a file whose writer was dropped before
  `finish` has no footer and cannot be opened.  The byte layout of blocks, index
  and footer is below this level; it has `u32` length fields, so that a file holds what
  it was given only if all keys and values are `Short`.
-/
import Scry.Lib.SortedMap

namespace Scry.Lsm

/-- A byte string (`Vec<u8>`), compared lexicographically. -/
def Bytes := List (Fin 256)

instance : LinearOrder Bytes := inferInstanceAs (LinearOrder (List (Fin 256)))

namespace Bytes

def empty : Bytes := List.nil

/-- The byte string `[b as u8]`. -/
def singleton (b : ℕ) : Bytes := List.cons (Fin.ofNat 256 b) List.nil

def isEmpty (b : Bytes) : Bool := List.isEmpty b

def len (b : Bytes) : ℕ := List.length b

theorem isEmpty_iff {b : Bytes} : b.isEmpty = true ↔ b = empty := List.isEmpty_iff

/-- The length of the string fits a `u32` length field. -/
def Short (b : Bytes) : Prop := b.len < 2 ^ 32

instance (b : Bytes) : Decidable b.Short := inferInstanceAs (Decidable (b.len < 2 ^ 32))

end Bytes

/-- A key and its value; an empty value is a tombstone. -/
abbrev Entry := Bytes × Bytes

/-- The key and the value of an entry fit their length fields. -/
def Entry.Short (e : Entry) : Prop := e.1.Short ∧ e.2.Short

instance (e : Entry) : Decidable e.Short := inferInstanceAs (Decidable (_ ∧ _))

/-- `std::io::Error`, as far as the engine produces one. -/
inductive IoError where
  | notFound
  | invalidData (msg : String)
  deriving DecidableEq

/-- Errors of the LSM engine (`error.rs`). -/
inductive Error where
  | io (e : IoError)
  | corruption (msg : String)
  | poisoned
  deriving DecidableEq

abbrev Result := Except Error

/-! ## Files -/

/-- The file name `L{level}_{id:06}.sst`, which determines both numbers. -/
structure SstPath where
  level : ℕ
  id : ℕ
  deriving DecidableEq

/-- The content of an SSTable file. -/
inductive SstFile where
  /-- created, but `finish` never ran -/
  | unfinished
  | finished (entries : List Entry)
  deriving DecidableEq

/-- The SSTable files of the directory. -/
def Disk := SstPath → Option SstFile

/-- Write the content of one file, creating it or replacing what it held. -/
def Disk.write (d : Disk) (p : SstPath) (f : SstFile) : Disk :=
  fun q => if q = p then some f else d q

/-- `fs::remove_file`. -/
def Disk.remove (d : Disk) (p : SstPath) : Disk := fun q => if q = p then none else d q

/-- Metadata about an SSTable file, used by the manifest. -/
structure SsTableMeta where
  id : ℕ
  /-- LSM level (0 = freshly flushed from memtable) -/
  level : ℕ
  path : SstPath
  entryCount : ℕ
  minKey : Bytes
  maxKey : Bytes
  deriving DecidableEq

/-! ## Writer -/

/-- Builds an SSTable file from a sorted sequence of key-value pairs. -/
structure SsTableWriter where
  path : SstPath
  entries : List Entry
  entryCount : ℕ
  minKey : Option Bytes
  maxKey : Option Bytes

namespace SsTableWriter

/-- A new writer; `File::create` truncates an existing file. -/
def new (d : Disk) (path : SstPath) : SsTableWriter × Disk :=
  (⟨path, [], 0, none, none⟩, d.write path .unfinished)

def add (w : SsTableWriter) (key value : Bytes) : SsTableWriter where
  path := w.path
  entries := w.entries ++ [(key, value)]
  entryCount := w.entryCount + 1
  minKey := if w.minKey.isNone then some key else w.minKey
  maxKey := some key

/-- Returns `(entry_count, min_key, max_key)` and the directory with the file
    complete. -/
def finish (w : SsTableWriter) (d : Disk) : (ℕ × Bytes × Bytes) × Disk :=
  ((w.entryCount, w.minKey.getD .empty, w.maxKey.getD .empty), d.write w.path (.finished w.entries))

end SsTableWriter

/-! ## Reader -/

/-- Reader for a single SSTable file. -/
structure SsTableReader where
  entries : List Entry

namespace SsTableReader

/-- Open an SSTable file; one without a footer is too small. -/
def open_ (d : Disk) (path : SstPath) : Except IoError SsTableReader :=
  match d path with
  | none => .error .notFound
  | some .unfinished => .error (.invalidData "file too small to be an SSTable")
  | some (.finished entries) => .ok ⟨entries⟩

/-- Scan for a key, stopping at the first larger one. -/
def getFrom (key : Bytes) : List Entry → Option Bytes
  | [] => none
  | (k, v) :: rest =>
    match compare k key with
    | .eq => some v
    | .gt => none -- past the key
    | .lt => getFrom key rest

/-- Point lookup: the value for a key, or `none` if absent. -/
def get (r : SsTableReader) (key : Bytes) : Option Bytes := getFrom key r.entries

end SsTableReader

/-- A streaming iterator over SSTable entries: those not yet yielded. -/
structure SsTableScan where
  rest : List Entry

def SsTableReader.scan (r : SsTableReader) : SsTableScan := ⟨r.entries⟩

/-- Yield the next key-value pair, or `none` at end of file. -/
def SsTableScan.nextEntry (s : SsTableScan) : Option Entry × SsTableScan :=
  (s.rest.head?, ⟨s.rest.tail⟩)

/-! ## Manifest -/

/-- In-memory registry of SSTable files organized by level, oldest table first. -/
structure Manifest where
  levels : List (List SsTableMeta)
  nextId : ℕ

namespace Manifest

/-- A new empty manifest. -/
def new (numLevels : ℕ) : Manifest := ⟨List.replicate numLevels [], 0⟩

/-- Allocate a unique SSTable id and return the file path for it. -/
def nextSstablePath (m : Manifest) (level : ℕ) : (ℕ × SstPath) × Manifest :=
  ((m.nextId, ⟨level, m.nextId⟩), { m with nextId := m.nextId + 1 })

/-- Grow the level vector to hold at least `n` levels (`resize_with`). -/
def resize (levels : List (List SsTableMeta)) (n : ℕ) : List (List SsTableMeta) :=
  levels ++ List.replicate (n - levels.length) []

/-- Register a new SSTable at its level. -/
def add (m : Manifest) (t : SsTableMeta) : Manifest :=
  { m with levels := (resize m.levels (t.level + 1)).modify t.level (· ++ [t]) }

/-- Remove SSTables by id from a given level. -/
def remove (m : Manifest) (level : ℕ) (ids : List ℕ) : Manifest :=
  { m with levels := m.levels.modify level (List.filter fun t => ¬ t.id ∈ ids) }

/-- All SSTables at a given level. -/
def level (m : Manifest) (level : ℕ) : List SsTableMeta := m.levels.getD level []

/-- Number of SSTables at a given level. -/
def levelCount (m : Manifest) (level : ℕ) : ℕ := (m.level level).length

/-- Total number of levels. -/
def numLevels (m : Manifest) : ℕ := m.levels.length

end Manifest

/-- What the manifest mutex guards, with the SSTable files of the directory. -/
structure Store where
  manifest : Manifest
  disk : Disk

end Scry.Lsm
