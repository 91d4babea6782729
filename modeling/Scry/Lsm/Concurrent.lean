/-
  The engine under concurrency (`engine.rs`).

  Any number of threads call `put`, `delete`, `flush` and `get`.  One step of a thread
  is a WAL append or truncation, a memtable operation, or a part of the section that
  runs under the manifest lock; a step that must wait for the lock is not enabled.
  The history of invocations and replies is part of the state, newest first.
-/
import Scry.Lsm.Engine

namespace Scry.Lsm

/-- A call of the engine's interface. -/
inductive Call where
  | put (key value : Bytes)
  | delete (key : Bytes)
  | flush
  | get (key : Bytes)
  deriving DecidableEq

/-- The strings that a call writes fit their length fields. -/
def Call.Short : Call → Prop
  | .put key value => key.Short ∧ value.Short
  | .delete key => key.Short
  | _ => True

/-- Where a running call stands: the step it takes next. -/
inductive Pc where
  /-- append to the WAL -/
  | append
  /-- write to the memtable -/
  | insert
  /-- compare `approximate_bytes` with the threshold -/
  | check
  /-- drain the memtable -/
  | drain
  /-- take the manifest lock, write the drained entries as a table, register it -/
  | register (entries : List Entry)
  /-- truncate the WAL, under the manifest lock -/
  | truncate
  /-- compact and release the manifest lock -/
  | compact
  /-- look into the memtable -/
  | probe
  /-- search the SSTables under the manifest lock -/
  | search
  deriving DecidableEq

/-- The first step of a call. -/
def Call.start : Call → Pc
  | .put _ _ => .append
  | .delete _ => .append
  | .flush => .drain
  | .get _ => .probe

/-- A running call. -/
structure Thread where
  call : Call
  pc : Pc
  deriving DecidableEq

/-- What a call returns. -/
inductive Reply where
  | unit (r : Result Unit)
  | value (r : Result (Option Bytes))

/-- An entry of the history. -/
inductive Event where
  | inv (t : ℕ) (call : Call)
  | ret (t : ℕ) (call : Call) (reply : Reply)

def Event.thread : Event → ℕ
  | .inv t _ => t
  | .ret t _ _ => t

/-- The shared state, the running calls and the history. -/
structure Sys (M : Type) where
  memtable : M
  wal : List WalRecord
  store : Store
  flushThreshold : ℕ
  manifestLock : Option ℕ
  threads : ℕ → Option Thread
  history : List Event

namespace Sys
variable {M : Type} [Memtable M]

/-- An engine on an empty directory, no call running. -/
def init (m : M) (config : EngineConfig) : Sys M :=
  let e := LsmEngine.open_ Dir.empty m config
  ⟨e.memtable, e.wal, e.store, e.flushThreshold, none, fun _ => none, []⟩

/-- Thread `t` goes on at `pc`. -/
def goto (s : Sys M) (t : ℕ) (call : Call) (pc : Pc) : Sys M :=
  { s with threads := Function.update s.threads t (some ⟨call, pc⟩) }

/-- The call of thread `t` returns. -/
def reply (s : Sys M) (t : ℕ) (call : Call) (r : Reply) : Sys M :=
  { s with threads := Function.update s.threads t none, history := .ret t call r :: s.history }

/-- A thread that runs no call starts one. -/
def invoke (s : Sys M) (t : ℕ) (call : Call) : Option (Sys M) :=
  match s.threads t with
  | some _ => none
  | none => some (Sys.goto { s with history := .inv t call :: s.history } t call call.start)

/-- The WAL step of `put` and `delete`. -/
def stepAppend (s : Sys M) (t : ℕ) (call : Call) : Option (Sys M) :=
  match call with
  | .put key value =>
    some (Sys.goto { s with wal := s.wal ++ [WalRecord.put key value] } t call .insert)
  | .delete key =>
    some (Sys.goto { s with wal := s.wal ++ [WalRecord.delete key] } t call .insert)
  | _ => none

/-- The memtable step of `put` and `delete`; only `put` checks for a flush. -/
def stepInsert (s : Sys M) (t : ℕ) (call : Call) : Option (Sys M) :=
  match call with
  | .put key value =>
    some (Sys.goto { s with memtable := Memtable.insert s.memtable key value } t call .check)
  | .delete key =>
    some (Sys.reply { s with memtable := Memtable.delete s.memtable key } t call (.unit (.ok ())))
  | _ => none

/-- `maybe_flush`. -/
def stepCheck (s : Sys M) (t : ℕ) (call : Call) : Sys M :=
  if Memtable.approximateBytes s.memtable ≥ s.flushThreshold then s.goto t call .drain
  else s.reply t call (.unit (.ok ()))

/-- `flush_memtable` up to the manifest lock. -/
def stepDrain (s : Sys M) (t : ℕ) (call : Call) : Sys M :=
  let (entries, memtable) := Memtable.drainSorted s.memtable
  let s := { s with memtable := memtable }
  if entries.isEmpty then s.reply t call (.unit (.ok ())) else s.goto t call (.register entries)

/-- The new L0 table of `flush_memtable`. -/
def stepRegister (s : Sys M) (t : ℕ) (call : Call) (entries : List Entry) : Option (Sys M) :=
  match s.manifestLock with
  | some _ => none
  | none => some (Sys.goto { s with manifestLock := some t
                                    store := LsmEngine.addTable s.store entries } t call .truncate)

/-- The compaction at the end of `flush_memtable`. -/
def stepCompact (s : Sys M) (t : ℕ) (call : Call) : Sys M :=
  match maybeCompact s.store with
  | .ok store =>
    Sys.reply { s with manifestLock := none, store := store } t call (.unit (.ok ()))
  | .error e => Sys.reply { s with manifestLock := none } t call (.unit (.error (.io e)))

/-- The memtable part of `get`. -/
def stepProbe (s : Sys M) (t : ℕ) (call : Call) : Option (Sys M) :=
  match call with
  | .get key =>
    match Memtable.get s.memtable key with
    | some value => some (s.reply t call (.value (.ok (LsmEngine.decodeValue value))))
    | none => some (s.goto t call .search)
  | _ => none

/-- The SSTable part of `get`. -/
def stepSearch (s : Sys M) (t : ℕ) (call : Call) : Option (Sys M) :=
  match call with
  | .get key =>
    match s.manifestLock with
    | some _ => none
    | none => some (s.reply t call (.value (LsmEngine.getSstable s.store key)))
  | _ => none

/-- One step of the call that thread `t` runs; `none` if it runs none or waits for the
    manifest lock. -/
def step (s : Sys M) (t : ℕ) : Option (Sys M) :=
  match s.threads t with
  | none => none
  | some ⟨call, pc⟩ =>
    match pc with
    | .append => s.stepAppend t call
    | .insert => s.stepInsert t call
    | .check => some (s.stepCheck t call)
    | .drain => some (s.stepDrain t call)
    | .register entries => s.stepRegister t call entries
    | .truncate => some (Sys.goto { s with wal := [] } t call .compact)
    | .compact => some (s.stepCompact t call)
    | .probe => s.stepProbe t call
    | .search => s.stepSearch t call

/-- A scheduled action: a thread starts a call, or takes its next step. -/
inductive Act where
  | call (t : ℕ) (c : Call)
  | step (t : ℕ)

def act (s : Sys M) : Act → Option (Sys M)
  | .call t c => s.invoke t c
  | .step t => s.step t

/-- An interleaving: the scheduled actions one after another. -/
def run (s : Sys M) (sched : List Act) : Option (Sys M) := sched.foldlM act s

end Sys

end Scry.Lsm
