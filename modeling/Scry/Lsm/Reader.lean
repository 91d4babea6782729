/-
  The SSTable reader in machine arithmetic (`sstable/reader.rs`).

  The functions of `Layout` over arbitrary bytes: each addition and subtraction of
  offsets and lengths is one of `usize` or `u64` and may overflow, each slice may be out
  of range, each new vector may ask for more than it can hold, and each loop may fail to
  end.  Memory itself is not modelled: a request that a vector can hold is granted.
-/
import Scry.Lsm.Layout

namespace Scry.Lsm.Machine

open Layout (IndexEntry magic footerSize slice hex)

/-- The errors that reading returns. -/
inductive IoError where
  | invalidData (msg : String)
  | unexpectedEof
  /-- a seek to an offset that `i64` cannot hold -/
  | invalidInput
  deriving DecidableEq

/-- How a computation ends without a value. -/
inductive Stop where
  | err (e : IoError)
  | panicked
  | diverges
  deriving DecidableEq

abbrev Checked := Except Stop

/-- The computation ends with `Ok` or `Err`. -/
def Returns {α : Type} : Checked α → Prop
  | .ok _ => True
  | .error (.err _) => True
  | .error .panicked => False
  | .error .diverges => False

/-! ## Machine operations -/

/-- `isize::MAX`, which no slice and no vector exceeds. -/
def isizeMax : ℕ := 2 ^ 63 - 1

/-- `a + b` in 64 bits. -/
def add (a b : ℕ) : Checked ℕ := if a + b < 2 ^ 64 then .ok (a + b) else .error .panicked

/-- `a - b` in 64 bits. -/
def sub (a b : ℕ) : Checked ℕ := if b ≤ a then .ok (a - b) else .error .panicked

/-- `&buf[a..b]` -/
def sliceOf (buf : List Byte) (a b : ℕ) : Checked (List Byte) :=
  if a ≤ b ∧ b ≤ buf.length then .ok (slice buf a b) else .error .panicked

/-- Convert a slice to a fixed-size array. -/
def toArray (n : ℕ) (s : List Byte) : Checked (List Byte) :=
  if s.length = n then .ok s
  else .error (.err (.invalidData "unexpected byte slice length"))

/-- The number in the `w` bytes from `a` on. -/
def fromLeBytes (buf : List Byte) (a w : ℕ) : Checked ℕ := do
  let b ← add a w
  let s ← sliceOf buf a b
  let s ← toArray w s
  return ofLeBytes s

/-- A new vector with room for `n` values of `size` bytes. -/
def withCapacity (n size : ℕ) : Checked Unit :=
  if n * size ≤ isizeMax then .ok () else .error .panicked

/-- A file; its length is an `off_t`. -/
structure File where
  bytes : List Byte
  length_le : bytes.length ≤ isizeMax

namespace File

def len (f : File) : ℕ := f.bytes.length

/-- `seek(SeekFrom::Start(offset))` -/
def seek (_f : File) (offset : ℕ) : Checked ℕ :=
  if offset ≤ isizeMax then .ok offset else .error (.err .invalidInput)

/-- `read_exact` of `n` bytes at a position. -/
def readExact (f : File) (pos n : ℕ) : Checked (List Byte) :=
  if n = 0 ∨ pos + n ≤ f.len then .ok (slice f.bytes pos (pos + n))
  else .error (.err .unexpectedEof)

end File

/-! ## Parsing -/

/-- One turn of the loop of `parse_index`: the entry at the cursor and the next cursor,
    or `none` if the loop is left. -/
def indexEntryAt (buf : List Byte) (cursor : ℕ) : Checked (Option (IndexEntry × ℕ)) := do
  let stop ← add cursor 4
  if stop > buf.length then return none
  else
    let keyLen ← fromLeBytes buf cursor 4
    let cursor ← add cursor 4
    let stop ← add cursor keyLen
    let stop ← add stop 16
    if stop > buf.length then return none
    else
      let stop ← add cursor keyLen
      let firstKey ← sliceOf buf cursor stop
      let cursor ← add cursor keyLen
      let offset ← fromLeBytes buf cursor 8
      let cursor ← add cursor 8
      let blockLen ← fromLeBytes buf cursor 8
      let cursor ← add cursor 8
      return some (⟨.ofList firstKey, offset, blockLen⟩, cursor)

/-- The loop of `parse_index`, of at most `n` turns. -/
def parseIndexFrom (buf : List Byte) : ℕ → ℕ → List IndexEntry → Checked (List IndexEntry)
  | 0, _, _ => .error .diverges
  | n + 1, cursor, entries =>
    if cursor < buf.length then do
      match ← indexEntryAt buf cursor with
      | none => return entries
      | some (entry, cursor) => parseIndexFrom buf n cursor (entries ++ [entry])
    else .ok entries

/-- Parse the index block into index entries. -/
def parseIndex (buf : List Byte) : Checked (List IndexEntry) :=
  parseIndexFrom buf (buf.length + 1) 0 []

/-- Decode one key-value entry from a data block: key, value and the next cursor. -/
def decodeEntry (block : List Byte) (cursor : ℕ) : Checked (Bytes × Bytes × ℕ) := do
  let err := Stop.err (.invalidData "truncated entry in data block")
  let stop ← add cursor 4
  if stop > block.length then .error err
  else
    let keyLen ← fromLeBytes block cursor 4
    let pos ← add cursor 4
    let stop ← add pos keyLen
    let stop ← add stop 4
    if stop > block.length then .error err
    else
      let stop ← add pos keyLen
      let key ← sliceOf block pos stop
      let pos ← add pos keyLen
      let valLen ← fromLeBytes block pos 4
      let pos ← add pos 4
      let stop ← add pos valLen
      if stop > block.length then .error err
      else
        let value ← sliceOf block pos stop
        return (.ofList key, .ofList value, stop)

section
variable {α : Type} (p : α → Bool) (l : List α)

/-- The loop of `binary_search_by`: narrow `size` positions from `base` on down to one,
    in at most `n` turns. -/
def narrow : ℕ → ℕ → ℕ → ℕ
  | 0, base, _ => base
  | n + 1, base, size =>
    if size > 1 then
      let half := size / 2
      let mid := base + half
      narrow n (if l[mid]?.any p then mid else base) (size - half)
    else base

/-- `partition_point`, which is a binary search. -/
def partitionPoint : ℕ :=
  if l.isEmpty then 0
  else
    let base := narrow p l l.length 0 l.length
    if l[base]?.any p then base + 1 else base

end

/-- Search the index for the data block that might contain the key. -/
def findBlock (index : List IndexEntry) (key : Bytes) : Option ℕ :=
  match index with
  | [] => none
  | first :: _ =>
    let pos := partitionPoint (fun e => e.firstKey ≤ key) index
    if pos = 0 then if key < first.firstKey then none else some 0
    else some (pos - 1)

/-! ## Reader -/

/-- Reader for a single SSTable file. -/
structure SsTableReader where
  file : File
  index : List IndexEntry
  entryCount : ℕ

/-- The size of a pair of two vectors. -/
def pairSize : ℕ := 48

namespace SsTableReader

/-- Open an SSTable file and read its index into memory. -/
def open_ (file : File) : Checked SsTableReader := do
  let fileLen := file.len
  if fileLen < footerSize then
    .error (.err (.invalidData "file too small to be an SSTable"))
  else
    let footerBuf ← file.readExact (fileLen - footerSize) footerSize
    let indexOffset ← fromLeBytes footerBuf 0 8
    let entryCount ← fromLeBytes footerBuf 8 8
    let found ← fromLeBytes footerBuf 16 4
    if found ≠ magic then
      .error (.err (.invalidData
        ("bad SSTable magic: " ++ hex found ++ ", expected " ++ hex magic)))
    else
      let indexLen ← sub fileLen footerSize
      let indexLen ← sub indexLen indexOffset
      let pos ← file.seek indexOffset
      withCapacity indexLen 1
      let indexBuf ← file.readExact pos indexLen
      let index ← parseIndex indexBuf
      return ⟨file, index, entryCount⟩

/-- Read a data block from disk. -/
def readBlock (r : SsTableReader) (offset len : ℕ) : Checked (List Byte) := do
  let pos ← r.file.seek offset
  withCapacity len 1
  r.file.readExact pos len

/-- Scan a block for the key, in at most `n` turns. -/
def getFrom (block : List Byte) (key : Bytes) : ℕ → ℕ → Checked (Option Bytes)
  | 0, _ => .error .diverges
  | n + 1, cursor =>
    if cursor < block.length then do
      let (k, v, next) ← decodeEntry block cursor
      match compare k key with
      | .eq => return some v
      | .gt => return none -- past the key
      | .lt => getFrom block key n next
    else .ok none

/-- `index[i]` -/
def entryAt (r : SsTableReader) (i : ℕ) : Checked IndexEntry :=
  match r.index[i]? with
  | none => .error .panicked
  | some entry => .ok entry

/-- Point lookup: the value for a key, or `none` if absent. -/
def get (r : SsTableReader) (key : Bytes) : Checked (Option Bytes) :=
  match findBlock r.index key with
  | none => .ok none
  | some blockIdx => do
    let entry ← r.entryAt blockIdx
    let block ← r.readBlock entry.offset entry.blockLen
    getFrom block key (block.length + 1) 0

/-- Append the entries of a block from `cursor` on, in at most `n` turns. -/
def readEntries (block : List Byte) : ℕ → ℕ → List Entry → Checked (List Entry)
  | 0, _, _ => .error .diverges
  | n + 1, cursor, entries =>
    if cursor < block.length then do
      let (k, v, next) ← decodeEntry block cursor
      readEntries block n next (entries ++ [(k, v)])
    else .ok entries

/-- Append the entries of a block. -/
def readWhole (r : SsTableReader) (entries : List Entry) (ie : IndexEntry) :
    Checked (List Entry) := do
  let block ← r.readBlock ie.offset ie.blockLen
  readEntries block (block.length + 1) 0 entries

/-- Read all entries in sorted order. -/
def readAll (r : SsTableReader) : Checked (List Entry) := do
  withCapacity r.entryCount pairSize
  r.index.foldlM r.readWhole []

end SsTableReader

/-- A streaming iterator over SSTable entries, reading one block at a time. -/
structure SsTableScan where
  reader : SsTableReader
  blockIdx : ℕ
  blockBuf : List Byte
  cursor : ℕ

def SsTableReader.scan (r : SsTableReader) : SsTableScan := ⟨r, 0, [], 0⟩

namespace SsTableScan

/-- The loop of `next_entry`, of at most `n` turns: what it returns and the iterator that
    it leaves, also on an error. -/
def nextFrom : ℕ → SsTableScan → Checked (Option Entry) × SsTableScan
  | 0, s => (.error .diverges, s)
  | n + 1, s =>
    if s.cursor < s.blockBuf.length then
      match decodeEntry s.blockBuf s.cursor with
      | .error e => (.error e, s)
      | .ok (k, v, next) => (.ok (some (k, v)), { s with cursor := next })
    else
      match s.reader.index[s.blockIdx]? with
      | none => (.ok none, s) -- end of SSTable
      | some ie =>
        match s.reader.readBlock ie.offset ie.blockLen with
        | .error e => (.error e, s)
        | .ok block =>
          nextFrom n { s with blockBuf := block, cursor := 0, blockIdx := s.blockIdx + 1 }

/-- Yield the next key-value pair, or `none` at end of file. -/
def nextEntry (s : SsTableScan) : Checked (Option Entry) × SsTableScan :=
  nextFrom (s.reader.index.length + 2) s

/-- The iterator after `n` calls of `next_entry`. -/
def advance : ℕ → SsTableScan → SsTableScan
  | 0, s => s
  | n + 1, s => advance n s.nextEntry.2

/-- What the call number `n` of `next_entry` returns, counted from 0. -/
def nthEntry (n : ℕ) (s : SsTableScan) : Checked (Option Entry) := (s.advance n).nextEntry.1

end SsTableScan

end Scry.Lsm.Machine
