import Scry.Lib.SortedMap
import Scry.Lib.BinaryHeap
import Scry.Lib.Versions
import Scry.Lib.Framing
import Scry.Lib.Run
import Scry.Lib.Linear
import Scry.Lib.Cascade
import Scry.Lsm.Engine
import Scry.Lsm.Concurrent
import Scry.Lsm.Ingest
import Scry.Lsm.Fault
import Scry.Lsm.Wal
import Scry.Lsm.Layout
import Scry.Lsm.Reader
import Scry.Lsm.Proof.Merge
import Scry.Lsm.Proof.Store
import Scry.Lsm.Proof.Compaction
import Scry.Lsm.Proof.Engine
import Scry.Lsm.Proof.Ingest
import Scry.Lsm.Proof.Cascade
import Scry.Lsm.Proof.Tables
import Scry.Lsm.Proof.Fault
import Scry.Lsm.Proof.Concurrent
import Scry.Lsm.Proof.Flush
import Scry.Lsm.Proof.Coverage
import Scry.Lsm.Proof.Wal
import Scry.Lsm.Proof.Layout
import Scry.Lsm.Files
import Scry.Lsm.Proof.Files
import Scry.Lsm.Proof.Exact
import Scry.Lsm.Proof.Reader
import Scry.Lsm.Proof.Reads
import Scry.Lsm.Proof.Machine
import Scry.Lsm.Lines
import Scry.Lsm.Proof.Lines
import Scry.Index.Model
import Scry.Index.Node
import Scry.Index.Build
import Scry.Index.Update
import Scry.Index.Map
import Scry.Index.Range
import Scry.Index.Proof.Node
import Scry.Index.Proof.Build
import Scry.Index.Proof.Update
import Scry.Index.Proof.Map
import Scry.Index.Depth
import Scry.Index.Proof.Load
import Scry.Index.Proof.Range
import Scry.Index.Heap
import Scry.Index.Concurrent
import Scry.Index.Proof.Heap
import Scry.Index.Proof.Change
import Scry.Index.Proof.Walk
import Scry.Index.Proof.Thread
import Scry.Index.Proof.Step
import Scry.Index.Proof.Next
import Scry.Index.Proof.Runs
import Scry.Index.Proof.Sure
import Scry.Index.Proof.Vouch
import Scry.Index.Proof.Quiescent
import Scry.Index.Proof.Kept
import Scry.Index.Unwind
import Scry.Index.Proof.Unwind
import Scry.Index.Proof.Clear
import Scry.Index.Proof.Agree
import Scry.Index.Proof.HandOut
import Scry.Index.Proof.Find
import Scry.Index.Proof.Settle
import Scry.Index.Proof.Serial
import Scry.Index.Proof.Alters
import Scry.Index.Proof.Traverse
import Scry.Index.Proof.Snapshot
import Scry.Index.Proof.Headroom
import Scry.Index.Proof.Fmcd
import Scry.Index.Recursion
import Scry.Index.Proof.Recursion
import Scry.Index.Proof.Slices
import Scry.Index.Proof.Splits
import Scry.Lib.BigEndian
import Scry.Index.Bytes
import Scry.Index.Proof.Bytes
import Scry.Index.Proof.Tombstones
import Scry.Index.Proof.Moves
import Scry.Index.Proof.LifeCycle
import Scry.Index.Proof.Counters
import Scry.Index.Proof.Length
import Scry.Index.Proof.Tended
import Scry.Index.Proof.Alone
import Scry.Index.Proof.Attempt
import Scry.Index.Proof.Sequential
import Scry.Index.Proof.Depth
import Scry.Index.Proof.Shallow
import Scry.Index.Proof.Amortised
import Scry.Lsm.Memtables
import Scry.Lsm.Proof.Threshold
import Scry.Lsm.Overwrite
import Scry.Lsm.Proof.Overwrite
import Scry.Index.Proof.Turns
import Scry.Index.Proof.Effects
import Scry.Index.Proof.Points
import Scry.Index.Proof.Effects
