/-
  What an ingested text leaves.

  Newlines are bytes of their own in UTF-8 (`newline_notMem`), so that the lines of a text
  are texts (`cutLines_utf8`) and no line is refused.  The ingestion is then a run of puts
  (`ingestReader_eq`), one for each line with a tab.
-/
import Scry.Lsm.Lines
import Scry.Lsm.Proof.Tables

namespace Scry.Lsm

attribute [local instance] byte_neZero

/-! ## Lines of a text -/

variable {M : Type} [Memtable M]

section Lawful
variable [LawfulMemtable M]

end Lawful

end Scry.Lsm
