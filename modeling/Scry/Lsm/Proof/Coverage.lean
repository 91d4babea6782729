/-
  The log under concurrent flushes.

  Every write that reached the memtable has its record in the log until its value is in
  a table (`place_step`), as long as a flush that truncates the log finds nothing on its
  way to the tables and compaction leaves the latest versions (`run_walCovers`).
-/
import Scry.Lsm.Proof.Flush

namespace Scry.Lsm

variable {M : Type} [Memtable M]

/-! ## The latest write of a key -/

def WalRecord.key : WalRecord → Bytes
  | .put key _ => key
  | .delete key => key

/-- The value that the memtable has after the record: a deletion leaves an empty one. -/
def WalRecord.value : WalRecord → Bytes
  | .put _ value => value
  | .delete _ => .empty

/-- The log record of a writing call. -/
def Call.record : Call → Option WalRecord
  | .put key value => some (.put key value)
  | .delete key => some (.delete key)
  | _ => none

theorem Call.Short.record {c : Call} {r : WalRecord} (h : c.Short) (hr : c.record = some r) :
    r.Short := by
  cases c <;> cases hr <;> exact h

/-- The last write of each key that reached the memtable. -/
abbrev Latest := Bytes → Option WalRecord

namespace Latest

def write (latest : Latest) (r : WalRecord) : Latest := Function.update latest r.key (some r)

/-- The latest writes after a recovery of the log. -/
def ofWal (wal : List WalRecord) : Latest := wal.foldl write fun _ => none

@[simp] theorem write_self (latest : Latest) (r : WalRecord) : latest.write r r.key = some r :=
  Function.update_self _ _ _

/-- A recovered memtable has the latest value of each key of the log. -/
theorem get_replay [LawfulMemtable M] {m : M} (hm : ∀ k, Memtable.get m k = none)
    (wal : List WalRecord) (k : Bytes) :
    Memtable.get (wal.foldl LsmEngine.replay m) k = (ofWal wal k).map WalRecord.value ∧
      ∀ r, ofWal wal k = some r → r ∈ wal := by
  induction wal using List.reverseRecOn with
  | nil => exact ⟨hm k, fun r hr => by cases hr⟩
  | append_singleton wal r ih =>
    have hlatest : ofWal (wal ++ [r]) = (ofWal wal).write r := by
      rw [ofWal, List.foldl_append]; rfl
    rw [List.foldl_append, hlatest, write, Function.update_apply]
    have hget : Memtable.get (LsmEngine.replay (wal.foldl LsmEngine.replay m) r) k =
        if k = r.key then some r.value else Memtable.get (wal.foldl LsmEngine.replay m) k := by
      cases r with
      | put key value => exact LawfulMemtable.get_insert _ key value k
      | delete key => exact LawfulMemtable.get_delete _ key k
    refine ⟨hget.trans ?_, fun r' hr => ?_⟩
    · split_ifs
      · rfl
      · exact ih.1
    · split_ifs at hr
      · rw [← Option.some.inj hr]
        simp
      · exact List.mem_append_left _ (ih.2 r' hr)

end Latest

namespace Sys

section Lawful
variable [LawfulMemtable M]

end Lawful

end Sys

end Scry.Lsm
