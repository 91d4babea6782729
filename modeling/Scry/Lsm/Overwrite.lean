/-
  The learned memtable under concurrency (`memtable/learned.rs`).

  Any number of threads call `insert` and `get`.  One step of a thread is one operation of
  the learned index, or the update of the byte count.  A `delete` is an `insert` of an
  empty value.  The history of invocations and answers is part of the state, newest first.
-/
import Scry.Lsm.Memtables
import Scry.Lib.Run

namespace Scry.Lsm.Overwrite

/-- A call of the memtable's interface. -/
inductive Call where
  | insert (key value : Bytes)
  | get (key : Bytes)
  deriving DecidableEq

/-- Where a running call stands: the step it takes next. -/
inductive Pc where
  /-- the first insert -/
  | insert (key value : Bytes)
  /-- add the bytes of a new key to the count -/
  | count (key value : Bytes)
  /-- the key exists: remove it -/
  | remove (key value : Bytes)
  /-- insert it again -/
  | reinsert (key value : Bytes)
  /-- look the key up -/
  | get (key : Bytes)
  deriving DecidableEq

/-- The first step of a call. -/
def Call.start : Call → Pc
  | .insert key value => .insert key value
  | .get key => .get key

/-- What the history records. -/
inductive Event where
  | invoked (c : Call)
  | got (key : Bytes) (answer : Option Bytes)
  deriving DecidableEq

/-- The memtable, the running calls and the history. -/
structure Sys where
  map : SoundMap
  byteCount : ℕ
  threads : ℕ → Option Pc
  history : List Event

namespace Sys

/-- A memtable that no thread is using. -/
def init (m : LearnedMemtable) : Sys := ⟨m.map, m.byteCount, fun _ => none, []⟩

/-- A thread stands at a step, or has returned. -/
def set (s : Sys) (t : ℕ) (pc : Option Pc) : Sys :=
  { s with threads := Function.update s.threads t pc }

/-- Begin a call on an idle thread. -/
def invoke (s : Sys) (t : ℕ) (c : Call) : Option Sys :=
  match s.threads t with
  | none => some { s.set t (some c.start) with history := .invoked c :: s.history }
  | some _ => none

/-- One step of a running call. -/
def step (s : Sys) (t : ℕ) : Option Sys :=
  match s.threads t with
  | none => none
  | some (.insert key value) =>
    let (map, isNew) := s.map.insert key value
    some { s.set t (some (if isNew then .count key value else .remove key value)) with map := map }
  | some (.count key value) =>
    some { s.set t none with byteCount := s.byteCount + (key.len + value.len) }
  | some (.remove key value) =>
    some { s.set t (some (.reinsert key value)) with map := (s.map.remove key).1 }
  | some (.reinsert key value) =>
    some { s.set t none with map := (s.map.insert key value).1 }
  | some (.get key) =>
    some { s.set t none with history := .got key (s.map.get key) :: s.history }

end Sys

inductive Action where
  | call (t : ℕ) (c : Call)
  | step (t : ℕ)
  deriving DecidableEq

def act (s : Sys) : Action → Option Sys
  | .call t c => s.invoke t c
  | .step t => s.step t

/-- A run of a schedule; `none` if an action of it cannot be taken. -/
def Sys.run (s : Sys) (sched : List Action) : Option Sys := sched.foldlM act s

end Scry.Lsm.Overwrite
