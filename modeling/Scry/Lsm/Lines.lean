/-
  Ingestion of lines (`ingest_reader` in `engine.rs`).

  The input is the bytes that the reader yields.  `BufRead::lines` cuts it after each
  newline, wants each line to be UTF-8 and strips its end; a tab is one byte of a line, so
  that splitting a `str` at a tab is splitting its bytes.
-/
import Scry.Lsm.Wal

namespace Scry.Lsm

attribute [local instance] byte_neZero

/-! ## Text -/

namespace LsmEngine
variable {M : Type} [Memtable M]

end LsmEngine

end Scry.Lsm
