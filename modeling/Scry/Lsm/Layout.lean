/-
  The byte layout of SSTable files (`sstable/writer.rs`, `sstable/reader.rs`).

    [Data Block 0] ... [Data Block N] [Index Block] [Footer]

  A data block is a sequence of entries, the index has one entry for each block, and the
  footer is `[index_offset: u64 LE][entry_count: u64 LE][magic: u32 LE]`.
-/
import Scry.Lsm.Wal

namespace Scry.Lsm.Layout

/-- Magic number at the end of every SSTable file. -/
def magic : ℕ := 0x5353544C

/-- Footer size in bytes. -/
def footerSize : ℕ := 20

/-- An index entry pointing to a data block. -/
structure IndexEntry where
  firstKey : Bytes
  offset : ℕ
  blockLen : ℕ
  deriving DecidableEq

/-- How reading a file fails. -/
inductive Fault where
  | invalidData (msg : String)
  | unexpectedEof
  /-- the subtraction of two lengths overflows -/
  | panicked
  deriving DecidableEq

/-- `&buf[a..b]` -/
def slice (buf : List Byte) (a b : ℕ) : List Byte := (buf.drop a).take (b - a)

/-! ## Writer -/

/-- Builds an SSTable file from a sorted sequence of key-value pairs. -/
structure SsTableWriter where
  file : List Byte
  blockSize : ℕ
  blockBuf : List Byte
  blockFirstKey : Option Bytes
  blockOffset : ℕ
  index : List IndexEntry
  entryCount : ℕ
  minKey : Option Bytes
  maxKey : Option Bytes

namespace SsTableWriter

/-- A new writer with a custom target block size. -/
def withBlockSize (blockSize : ℕ) : SsTableWriter :=
  ⟨[], blockSize, [], none, 0, [], 0, none, none⟩

/-- Flush the current block buffer to disk and record an index entry. -/
def flushBlock (w : SsTableWriter) : SsTableWriter :=
  { w with
    file := w.file ++ w.blockBuf
    index :=
      match w.blockFirstKey with
      | some firstKey => w.index ++ [⟨firstKey, w.blockOffset, w.blockBuf.length⟩]
      | none => w.index
    blockFirstKey := none
    blockOffset := w.blockOffset + w.blockBuf.length
    blockBuf := [] }

/-- Add a key-value entry. -/
def add (w : SsTableWriter) (key value : Bytes) : SsTableWriter :=
  let w :=
    { w with
      minKey := if w.minKey.isNone then some key else w.minKey
      maxKey := some key
      blockFirstKey := if w.blockFirstKey.isNone then some key else w.blockFirstKey
      blockBuf := w.blockBuf ++ leBytes 4 key.len ++ key.toList ++ leBytes 4 value.len ++
        value.toList
      entryCount := w.entryCount + 1 }
  if w.blockBuf.length ≥ w.blockSize then w.flushBlock else w

/-- One entry of the index block. -/
def indexEntry (e : IndexEntry) : List Byte :=
  leBytes 4 e.firstKey.len ++ e.firstKey.toList ++ leBytes 8 e.offset ++ leBytes 8 e.blockLen

/-- Finish writing: the file, and `(entry_count, min_key, max_key)`. -/
def finish (w : SsTableWriter) : List Byte × ℕ × Bytes × Bytes :=
  let w := if w.blockBuf.isEmpty then w else w.flushBlock
  let indexOffset := w.blockOffset
  let file := w.file ++ w.index.flatMap indexEntry
  let file := file ++ leBytes 8 indexOffset ++ leBytes 8 w.entryCount ++ leBytes 4 magic
  (file, w.entryCount, w.minKey.getD .empty, w.maxKey.getD .empty)

end SsTableWriter

/-- Add all entries of a list to a new writer and finish. -/
def writeTable (blockSize : ℕ) (entries : List Entry) : List Byte × ℕ × Bytes × Bytes :=
  (entries.foldl (fun w e => w.add e.1 e.2) (SsTableWriter.withBlockSize blockSize)).finish

/-! ## Reader -/

/-- Reader for a single SSTable file. -/
structure SsTableReader where
  file : List Byte
  index : List IndexEntry
  entryCount : ℕ

/-- Parse the index block into index entries, from `cursor` on; `n` bounds their
    number. -/
def parseIndexFrom (buf : List Byte) : ℕ → ℕ → List IndexEntry → List IndexEntry
  | 0, _, entries => entries
  | n + 1, cursor, entries =>
    if cursor < buf.length then
      if cursor + 4 > buf.length then entries
      else
        let keyLen := ofLeBytes (slice buf cursor (cursor + 4))
        let cursor := cursor + 4
        if cursor + keyLen + 16 > buf.length then entries
        else
          let firstKey := slice buf cursor (cursor + keyLen)
          let cursor := cursor + keyLen
          let offset := ofLeBytes (slice buf cursor (cursor + 8))
          let cursor := cursor + 8
          let blockLen := ofLeBytes (slice buf cursor (cursor + 8))
          parseIndexFrom buf n (cursor + 8) (entries ++ [⟨.ofList firstKey, offset, blockLen⟩])
    else entries

def parseIndex (buf : List Byte) : List IndexEntry := parseIndexFrom buf buf.length 0 []

/-- Decode one key-value entry from a data block: key, value and the next cursor. -/
def decodeEntry (block : List Byte) (cursor : ℕ) : Except Fault (Bytes × Bytes × ℕ) :=
  let err := Fault.invalidData "truncated entry in data block"
  if cursor + 4 > block.length then .error err
  else
    let keyLen := ofLeBytes (slice block cursor (cursor + 4))
    let pos := cursor + 4
    if pos + keyLen + 4 > block.length then .error err
    else
      let key := slice block pos (pos + keyLen)
      let pos := pos + keyLen
      let valLen := ofLeBytes (slice block pos (pos + 4))
      let pos := pos + 4
      if pos + valLen > block.length then .error err
      else .ok (.ofList key, .ofList (slice block pos (pos + valLen)), pos + valLen)

/-- The position of the first element that a predicate does not hold of, for a list that
    is partitioned by it. -/
def partitionPoint {α : Type} (p : α → Bool) (l : List α) : ℕ := (l.takeWhile p).length

/-- Search the index for the data block that might contain the key. -/
def findBlock (index : List IndexEntry) (key : Bytes) : Option ℕ :=
  match index with
  | [] => none
  | first :: _ =>
    let pos := partitionPoint (fun e => e.firstKey ≤ key) index
    if pos = 0 then if key < first.firstKey then none else some 0
    else some (pos - 1)

/-- `{n:#x}` -/
def hex (n : ℕ) : String := "0x" ++ String.ofList (Nat.toDigits 16 n)

namespace SsTableReader

/-- Open an SSTable file and read its index into memory. -/
def open_ (file : List Byte) : Except Fault SsTableReader :=
  if file.length < footerSize then .error (.invalidData "file too small to be an SSTable")
  else
    let footer := file.drop (file.length - footerSize)
    let indexOffset := ofLeBytes (slice footer 0 8)
    let entryCount := ofLeBytes (slice footer 8 16)
    let found := ofLeBytes (slice footer 16 20)
    if found ≠ magic then
      .error (.invalidData ("bad SSTable magic: " ++ hex found ++ ", expected " ++ hex magic))
    else if file.length - footerSize < indexOffset then .error .panicked
    else
      let indexLen := file.length - footerSize - indexOffset
      .ok ⟨file, parseIndex (slice file indexOffset (indexOffset + indexLen)), entryCount⟩

/-- Read a data block from disk; nothing can be read from anywhere. -/
def readBlock (r : SsTableReader) (offset len : ℕ) : Except Fault (List Byte) :=
  if len = 0 ∨ offset + len ≤ r.file.length then .ok (slice r.file offset (offset + len))
  else .error .unexpectedEof

/-- Scan a block for the key; `n` bounds the number of entries. -/
def getFrom (block : List Byte) (key : Bytes) : ℕ → ℕ → Except Fault (Option Bytes)
  | 0, _ => .ok none
  | n + 1, cursor =>
    if cursor < block.length then do
      let (k, v, next) ← decodeEntry block cursor
      match compare k key with
      | .eq => .ok (some v)
      | .gt => .ok none -- past the key
      | .lt => getFrom block key n next
    else .ok none

/-- Point lookup: the value for a key, or `none` if absent. -/
def get (r : SsTableReader) (key : Bytes) : Except Fault (Option Bytes) :=
  match findBlock r.index key with
  | none => .ok none
  | some blockIdx =>
    match r.index[blockIdx]? with
    | none => .error .panicked -- index out of bounds
    | some entry => do
      let block ← r.readBlock entry.offset entry.blockLen
      getFrom block key block.length 0

/-- Append the entries of a block from `cursor` on; `n` bounds their number. -/
def readEntries (block : List Byte) : ℕ → ℕ → List Entry → Except Fault (List Entry)
  | 0, _, entries => .ok entries
  | n + 1, cursor, entries =>
    if cursor < block.length then do
      let (k, v, next) ← decodeEntry block cursor
      readEntries block n next (entries ++ [(k, v)])
    else .ok entries

/-- Read all entries in sorted order. -/
def readAll (r : SsTableReader) : Except Fault (List Entry) :=
  r.index.foldlM (fun entries ie => do
    let block ← r.readBlock ie.offset ie.blockLen
    readEntries block block.length 0 entries) []

end SsTableReader

/-- A streaming iterator over SSTable entries, reading one block at a time. -/
structure SsTableScan where
  reader : SsTableReader
  blockIdx : ℕ
  blockBuf : List Byte
  cursor : ℕ

def SsTableReader.scan (r : SsTableReader) : SsTableScan := ⟨r, 0, [], 0⟩

namespace SsTableScan

/-- The loop of `next_entry`; `n` bounds the number of blocks that it loads. -/
def nextFrom : ℕ → SsTableScan → Except Fault (Option Entry × SsTableScan)
  | 0, s => .ok (none, s)
  | n + 1, s =>
    if s.cursor < s.blockBuf.length then do
      let (k, v, next) ← decodeEntry s.blockBuf s.cursor
      .ok (some (k, v), { s with cursor := next })
    else
      match s.reader.index[s.blockIdx]? with
      | none => .ok (none, s) -- end of SSTable
      | some ie => do
        let block ← s.reader.readBlock ie.offset ie.blockLen
        nextFrom n { s with blockBuf := block, cursor := 0, blockIdx := s.blockIdx + 1 }

/-- Yield the next key-value pair, or `none` at end of file. -/
def nextEntry (s : SsTableScan) : Except Fault (Option Entry × SsTableScan) :=
  nextFrom (s.reader.index.length + 1 - s.blockIdx) s

/-- What the call number `i` of `next_entry` returns, counted from 0. -/
def nthEntry : ℕ → SsTableScan → Except Fault (Option Entry)
  | 0, s => s.nextEntry.map Prod.fst
  | i + 1, s => do
    let (_, s) ← s.nextEntry
    nthEntry i s

end SsTableScan

end Scry.Lsm.Layout
