/-
  The write-ahead log in bytes (`wal.rs`).

  The log file is appended to through a `BufWriter`: bytes wait in its buffer until they
  are handed to the operating system.  A crash of the process loses the buffer and keeps
  the file.
-/
import Scry.Lib.Framing
import Scry.Lsm.Engine

namespace Scry.Lsm

namespace Bytes

def toList (b : Bytes) : List Byte := b

def ofList (l : List Byte) : Bytes := l

end Bytes

attribute [local instance] byte_neZero

def recordPut : Byte := 1
def recordDelete : Byte := 2

/-- The capacity of a `BufWriter`. -/
def bufCapacity : ℕ := 8 * 1024

/-- An append-only write-ahead log: the file and the buffer of its writer. -/
structure Wal where
  file : List Byte
  buffer : List Byte

namespace Wal

/-- Open or create a log; `none` is a file that does not exist. -/
def open_ (file : Option (List Byte)) : Wal := ⟨file.getD [], []⟩

/-- Everything written to the log so far. -/
def bytes (w : Wal) : List Byte := w.file ++ w.buffer

/-- `BufWriter::flush_buf`: hand the buffer to the operating system. -/
def flushBuf (w : Wal) : Wal := ⟨w.file ++ w.buffer, []⟩

/-- `BufWriter::write_all`. -/
def writeAll (w : Wal) (buf : List Byte) : Wal :=
  if buf.length < bufCapacity - w.buffer.length then { w with buffer := w.buffer ++ buf }
  else
    let w := if buf.length > bufCapacity - w.buffer.length then w.flushBuf else w
    if buf.length ≥ bufCapacity then { w with file := w.file ++ buf }
    else { w with buffer := w.buffer ++ buf }

/-- The parts in which a put record is written. -/
def putParts (key value : Bytes) : List (List Byte) :=
  [[recordPut], leBytes 4 key.len, key.toList, leBytes 4 value.len, value.toList]

/-- The parts in which a delete record is written; it has a zero-length value. -/
def deleteParts (key : Bytes) : List (List Byte) :=
  [[recordDelete], leBytes 4 key.len, key.toList, leBytes 4 0]

/-- Append a put record. -/
def appendPut (w : Wal) (key value : Bytes) : Wal := (putParts key value).foldl writeAll w

/-- Append a delete record. -/
def appendDelete (w : Wal) (key : Bytes) : Wal := (deleteParts key).foldl writeAll w

/-- Flush buffered writes to the file. -/
def sync (w : Wal) : Wal := w.flushBuf

/-- Truncate the log: flush, then open the file anew. -/
def truncate (w : Wal) : Wal := { w.flushBuf with file := [] }

/-- The parts in which a record is written. -/
def parts : WalRecord → List (List Byte)
  | .put key value => putParts key value
  | .delete key => deleteParts key

def append (w : Wal) : WalRecord → Wal
  | .put key value => w.appendPut key value
  | .delete key => w.appendDelete key

/-- Append records one after another. -/
def appendAll (w : Wal) (rs : List WalRecord) : Wal := rs.foldl append w

/-! ## Recovery -/

/-- Read one record: its type byte, the key and the value. -/
def readRecord (bs : List Byte) : Option ((Byte × Bytes × Bytes) × List Byte) := do
  let (type, bs) ← readExact 1 bs
  let (key, bs) ← readPrefixed bs
  let (value, bs) ← readPrefixed bs
  return ((type.headD 0, .ofList key, .ofList value), bs)

/-- What a record means. -/
def interpret : Byte × Bytes × Bytes → Result WalRecord
  | (type, key, value) =>
    if type = recordPut then .ok (.put key value)
    else if type = recordDelete then .ok (.delete key)
    else .error (.corruption ("unknown WAL record type: 0x" ++
      String.ofList (Nat.toDigits 16 type)))

/-- The loop of `recover`; `n` bounds the number of records. -/
def recoverLoop : ℕ → List Byte → List WalRecord → Result (List WalRecord)
  | 0, _, records => .ok records
  | n + 1, bs, records =>
    match readRecord bs with
    | none => .ok records -- EOF or incomplete record
    | some (raw, rest) => do
      let record ← interpret raw
      recoverLoop n rest (records ++ [record])

/-- Replay all records from the log file; incomplete trailing records are skipped. -/
def recover : Option (List Byte) → Result (List WalRecord)
  | none => .ok []
  | some file => recoverLoop file.length file []

end Wal

/-! ## Sessions -/

/-- A process that writes below the flush threshold: the memtable and the log. -/
structure Session (M : Type) where
  memtable : M
  wal : Wal
  flushThreshold : ℕ

namespace Session
variable {M : Type} [Memtable M]

/-- Open an engine on the directory of a log file: its records are replayed into the
    memtable, then the log is opened for appending. -/
def open_ (file : Option (List Byte)) (memtable : M) (config : EngineConfig) :
    Result (Session M) := do
  let records ← Wal.recover file
  return ⟨records.foldl LsmEngine.replay memtable, .open_ file, config.flushThreshold⟩

/-- A `put` or `delete` that returns Ok without a flush; `none` if it would flush. -/
def write (s : Session M) : WalRecord → Option (Session M)
  | .put key value =>
    let memtable := Memtable.insert s.memtable key value
    if Memtable.approximateBytes memtable ≥ s.flushThreshold then none
    else some { s with memtable := memtable, wal := s.wal.appendPut key value }
  | .delete key =>
    some { s with memtable := Memtable.delete s.memtable key, wal := s.wal.appendDelete key }

/-- A single-threaded sequence of writes below the flush threshold. -/
def run (s : Session M) (rs : List WalRecord) : Option (Session M) := rs.foldlM write s

/-- The log file after a crash in the next call, of which `i` of the parts of its record
    were written. -/
def crash (s : Session M) (next : WalRecord) (i : ℕ) : List Byte :=
  (((Wal.parts next).take i).foldl Wal.writeAll s.wal).file

end Session

end Scry.Lsm
