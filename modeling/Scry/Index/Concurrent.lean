/-
  The learned index under concurrency (`map.rs`, `insert.rs`, `remove.rs`, `lookup.rs`,
  `rebuild.rs`).

  Any number of threads run operations on one map.  One step of a thread is one access
  to shared memory: a load of a slot state (with the inline pair, which does not change
  once it is published), of a child pointer or of the root pointer, a CAS, the
  publication of a claimed slot, or an access to a counter.  A new tree is built by one
  thread alone, so its construction belongs to the step that makes it visible.  An
  operation that would build a tree without end has no next step.  The history of
  invocations and replies is part of the state, newest first.
-/
import Scry.Index.Heap

namespace Scry.Index

/-- An operation on the map. -/
inductive Call (K V : Type) where
  | get (key : K)
  | insert (key : K) (value : V)
  | getOrInsert (key : K) (value : V)
  | remove (key : K)
  | rebuild
  | drain
  | clear
  deriving DecidableEq

/-- A change of a slot that an update is about to make. -/
inductive Write (K V : Type) where
  /-- `EMPTY` to `DATA` -/
  | inline (key : K) (value : V)
  /-- `TOMBSTONE` or `DATA` to `CHILD_STALE` -/
  | attach (prev : SlotState) (child : Node K V) (isNew : Bool)
  /-- `DATA` to `TOMBSTONE` -/
  | bury

namespace Write
variable {K V : Type}

/-- The state that the CAS expects. -/
def prev : Write K V → SlotState
  | .inline _ _ => .empty
  | .attach prev _ _ => prev
  | .bury => .data

/-- The change adds a key that was absent, or removes one that was present. -/
def isNew : Write K V → Bool
  | .inline _ _ => true
  | .attach _ _ isNew => isNew
  | .bury => true

end Write

/-- The next step of a running operation. -/
inductive Pc (K V : Type) where
  /-- load the root pointer -/
  | loadRoot
  /-- load the state of the predicted slot -/
  | readSlot
  /-- load the child pointer of the slot -/
  | loadChild
  /-- CAS the state of the slot -/
  | claim
  /-- publish the claimed slot -/
  | publish
  /-- count the tombstone of the slot -/
  | countTombstone
  /-- compare the child of the first descent with the child pointer -/
  | validateChild
  /-- load the tombstone counter -/
  | checkRatio
  /-- the steps of `try_rebuild_subtree`: load the slot state and the child pointer,
      freeze it, collect the pairs of the child `c`, swap in a new child -/
  | subState
  | subLoad
  | subFreeze (c : NodeId)
  | subWalk (c : NodeId) (w : Walk K V)
  | subSwap (c : NodeId) (pairs : List (K × V))
  /-- load the child that `get_or_insert` attached -/
  | ownChild
  /-- a lookup: load the state of the predicted slot of `n`, load its child pointer -/
  | look (n : NodeId)
  | lookChild (n : NodeId)
  /-- compare the root of the attempt with the root pointer -/
  | validateRoot (isNew : Bool) (val : Option V)
  /-- count the added or removed key -/
  | count
  /-- the steps of `maybe_rebuild_root` -/
  | loadThreshold (newLen : ℕ)
  | casThreshold (threshold : ℕ)
  /-- the steps of `rebuild`, `drain` and `clear` -/
  | rootLoad
  | rootFreeze (r : NodeId)
  | rootWalk (r : NodeId) (w : Walk K V)
  | rootSwap (r : NodeId) (pairs : List (K × V))
  | subtract (n : ℕ)
  | storeThreshold (n : ℕ)

/-- A running operation: its local variables and its next step.  `was` is the `was_new`
    or `was_removed` of the map, `again` that of the tree; the first descent is also
    what a subtree rebuild takes. -/
structure Thread (K V : Type) where
  call : Call K V
  pc : Pc K V
  was : Bool
  again : Bool
  root : NodeId
  cur : NodeId
  idx : ℕ
  depth : ℕ
  first : Option (NodeId × ℕ × NodeId)
  write : Write K V
  reply : Reply K V

/-- How an operation goes on after a step. -/
inductive Next (K V : Type) where
  | goto (t : Thread K V)
  | ret (reply : Reply K V)

namespace Thread
variable {K V : Type}

/-- A new operation. -/
def start (call : Call K V) : Thread K V where
  call := call
  pc :=
    match call with
    | .rebuild => .rootLoad
    | .drain => .rootLoad
    | .clear => .rootLoad
    | _ => .loadRoot
  was := false
  again := false
  root := ⟨true, 0, []⟩
  cur := ⟨true, 0, []⟩
  idx := 0
  depth := 0
  first := none
  write := .bury
  reply :=
    match call with
    | .drain => .pairs []
    | _ => .unit

def goto (t : Thread K V) (pc : Pc K V) : Next K V := .goto { t with pc := pc }

/-- Start at the root of the attempt. -/
def retry (t : Thread K V) (again : Bool) : Next K V :=
  .goto { t with pc := .readSlot, again := again, cur := t.root, depth := 0, first := none }

/-- The tree operation is done, but for the lookup of `get_or_insert`. -/
def finish (t : Thread K V) : Next K V :=
  match t.call, t.write with
  | .getOrInsert _ value, .inline _ _ => t.goto (.validateRoot true (some value))
  | .getOrInsert _ _, _ => t.goto .ownChild
  | _, _ => t.goto (.validateRoot true none)

/-- The rebuild at the end of an insert that added a key below the threshold depth. -/
def afterInsert (config : Config) (t : Thread K V) : Next K V :=
  if config.autoRebuild ∧ t.depth > config.rebuildDepthThreshold ∧ t.first.isSome then
    t.goto .subState
  else t.finish

/-- A lookup found `val`. -/
def found (t : Thread K V) (val : Option V) : Next K V :=
  match t.call with
  | .getOrInsert _ _ =>
    match val with
    | some v => t.goto (.validateRoot true (some v))
    | none => t.goto .readSlot
  | _ => .ret (.option val)

/-- What an update returns. -/
def result (t : Thread K V) (did : Bool) (val : Option V) : Reply K V :=
  match t.call with
  | .getOrInsert _ _ =>
    match val with
    | some v => .value v
    | none => .unit
  | _ => .bool did

end Thread

section Steps
variable {K V : Type} [LinearOrder K] [Key K]

omit [LinearOrder K] [Key K] in
def stepLoadRoot (m : Mem K V) (t : Thread K V) : Next K V :=
  match t.call with
  | .get _ => t.goto (.look m.root.node)
  | _ =>
    if m.root.frozen then t.goto .loadRoot
    else Thread.retry { t with root := m.root.node } false

/-- The slot of an insert. -/
def readInsert (m : Mem K V) (t : Thread K V) (key : K) (value : V) : Option (Next K V) :=
  let c := m.cells t.cur
  let idx := c.head.predictSlot key
  let t := { t with idx := idx }
  let claim (w : Write K V) : Next K V := .goto { t with write := w, pc := .claim }
  match c.state idx with
  | .writing => some (t.goto .readSlot)
  | .empty => some (claim (.inline key value))
  | .tombstone => some (claim (.attach .tombstone (buildSingleEntryChild key value) true))
  | .data =>
    match c.inline idx with
    | none => none
    | some (existingKey, existingValue) =>
      if existingKey = key then
        some (claim (.attach .data (buildSingleEntryChild key value) false))
      else do
        let child ← buildConflictNode existingKey existingValue key value
        some (claim (.attach .data child true))
  | .child => some (t.goto .loadChild)
  | .childStale => some (t.goto .loadChild)

/-- The slot of a `get_or_insert`. -/
def readGetOrInsert (m : Mem K V) (t : Thread K V) (key : K) (value : V) : Option (Next K V) :=
  let c := m.cells t.cur
  let idx := c.head.predictSlot key
  let t := { t with idx := idx }
  let claim (w : Write K V) : Next K V := .goto { t with write := w, pc := .claim }
  match c.state idx with
  | .writing => some (t.goto .readSlot)
  | .empty => some (claim (.inline key value))
  | .tombstone => some (claim (.attach .tombstone (buildSingleEntryChild key value) true))
  | .data =>
    match c.inline idx with
    | none => none
    | some (existingKey, existingValue) =>
      if existingKey = key then some (t.goto (.validateRoot t.again (some existingValue)))
      else do
        let child ← buildConflictNode existingKey existingValue key value
        some (claim (.attach .data child true))
  | .child => some (t.goto .loadChild)
  | .childStale => some (t.goto .loadChild)

/-- The slot of a remove. -/
def readRemove (m : Mem K V) (t : Thread K V) (key : K) : Option (Next K V) :=
  let c := m.cells t.cur
  let idx := c.head.predictSlot key
  let t := { t with idx := idx }
  match c.state idx with
  | .writing => some (t.goto .readSlot)
  | .empty => some (t.goto (.validateRoot t.again none))
  | .tombstone => some (t.goto (.validateRoot t.again none))
  | .data =>
    match c.inline idx with
    | none => none
    | some (k, _) =>
      if k = key then some (.goto { t with write := .bury, pc := .claim })
      else some (t.goto (.validateRoot t.again none))
  | .child => some (t.goto .loadChild)
  | .childStale => some (t.goto .loadChild)

def stepReadSlot (m : Mem K V) (t : Thread K V) : Option (Next K V) :=
  match t.call with
  | .insert key value => readInsert m t key value
  | .getOrInsert key value => readGetOrInsert m t key value
  | .remove key => readRemove m t key
  | _ => none

omit [LinearOrder K] [Key K] in
/-- Descend into the child of the slot. -/
def stepLoadChild (m : Mem K V) (t : Thread K V) : Next K V :=
  match (m.cells t.cur).children t.idx with
  | none =>
    match t.call with
    | .remove _ => t.goto (.validateRoot t.again none)
    | _ => t.goto .readSlot
  | some p =>
    if p.frozen then t.goto .readSlot
    else .goto { t with pc := .readSlot, cur := p.node, depth := t.depth + 1
                        first := t.first.or (some (t.cur, t.idx, p.node)) }

omit [LinearOrder K] [Key K] in
def stepClaim (m : Mem K V) (t : Thread K V) : Mem K V × Next K V :=
  if (m.cells t.cur).state t.idx = t.write.prev then
    match t.write with
    | .bury => (m.modify t.cur fun c => c.bury t.idx, t.goto .countTombstone)
    | _ => (m.modify t.cur fun c => c.claim t.idx, t.goto .publish)
  else (m, t.goto .readSlot)

omit [LinearOrder K] [Key K] in
def stepPublish (m : Mem K V) (t : Thread K V) : Option (Mem K V × Next K V) :=
  match t.write with
  | .inline key value =>
    some (m.modify t.cur fun c => c.publishData t.idx key value, t.goto .validateChild)
  | .attach prev child _ =>
    some (m.placeChild t.cur t.idx child fun c n => c.publishChild t.idx n,
      t.goto (if prev = .tombstone then .countTombstone else .validateChild))
  | .bury => none

omit [LinearOrder K] [Key K] in
def stepCountTombstone (m : Mem K V) (t : Thread K V) : Mem K V × Next K V :=
  (m.modify t.cur fun c => c.addTombstones (match t.write with | .bury => 1 | _ => -1),
    t.goto .validateChild)

omit [LinearOrder K] [Key K] in
def stepValidateChild (config : Config) (m : Mem K V) (t : Thread K V) : Next K V :=
  let done : Next K V :=
    match t.write with
    | .bury => t.goto .checkRatio
    | w => if w.isNew then t.afterInsert config else t.goto (.validateRoot t.again none)
  match t.first with
  | none => done
  | some (p, i, c) =>
    if (m.cells p).children i = some ⟨c, false⟩ then done
    else t.retry (t.again || t.write.isNew)

omit [LinearOrder K] [Key K] in
def stepCheckRatio (config : Config) (m : Mem K V) (t : Thread K V) : Next K V :=
  let c := m.cells t.cur
  if config.autoRebuild ∧
      tombstoneRatio c.head.capacity c.numTombstones > config.tombstoneRatioThreshold ∧
      t.first.isSome then
    t.goto .subState
  else t.finish

/-! ### Subtree rebuilds -/

omit [LinearOrder K] [Key K] in
def stepSubState (m : Mem K V) (t : Thread K V) : Next K V :=
  match t.first with
  | none => t.finish
  | some (p, i, _) => if ((m.cells p).state i).isChild then t.goto .subLoad else t.finish

omit [LinearOrder K] [Key K] in
def stepSubLoad (m : Mem K V) (t : Thread K V) : Next K V :=
  match t.first with
  | none => t.finish
  | some (p, i, _) =>
    match (m.cells p).children i with
    | none => t.finish
    | some q => if q.frozen then t.finish else t.goto (.subFreeze q.node)

omit [LinearOrder K] [Key K] in
def stepSubFreeze (m : Mem K V) (t : Thread K V) (c : NodeId) : Mem K V × Next K V :=
  match t.first with
  | none => (m, t.finish)
  | some (p, i, _) =>
    if (m.cells p).children i = some ⟨c, false⟩ then
      (m.modify p fun cell => cell.setChild i ⟨c, true⟩, t.goto (.subWalk c (.start c)))
    else (m, t.finish)

omit [LinearOrder K] [Key K] in
def stepSubWalk (m : Mem K V) (t : Thread K V) (c : NodeId) (w : Walk K V) : Next K V :=
  match w.step m with
  | none => t.goto (.subSwap c w.pairs)
  | some w => t.goto (.subWalk c w)

/-- Swap in the new child, or unfreeze the old one. -/
def stepSubSwap (config : Config) (m : Mem K V) (t : Thread K V) (c : NodeId)
    (pairs : List (K × V)) : Option (Mem K V × Next K V) :=
  match t.first with
  | none => some (m, t.finish)
  | some (p, i, _) =>
    let frozen := (m.cells p).children i = some ⟨c, true⟩
    if pairs.length ≤ 1 then
      if frozen then some (m.modify p fun cell => cell.setChild i ⟨c, false⟩, t.finish)
      else some (m, t.finish)
    else do
      let boosted := { config with expansionFactor := min (config.expansionFactor * (3 / 2)) 4 }
      let newNode ← buildRecursive boosted pairs.length pairs
      if frozen then
        some (m.placeChild p i newNode fun cell n => cell.setChild i ⟨n, false⟩, t.finish)
      else some (m, t.finish)

/-! ### Lookups -/

omit [LinearOrder K] [Key K] in
def stepOwnChild (m : Mem K V) (t : Thread K V) : Next K V :=
  match (m.cells t.cur).children t.idx with
  | none => t.goto .readSlot
  | some p => t.goto (.look p.node)

def lookSlot (m : Mem K V) (t : Thread K V) (n : NodeId) (key : K) : Next K V :=
  let c := m.cells n
  let idx := c.head.predictSlot key
  match c.state idx with
  | .data =>
    match c.inline idx with
    | some (k, v) => if k = key then t.found (some v) else t.found none
    | none => t.found none
  | .child => t.goto (.lookChild n)
  | .childStale => t.goto (.lookChild n)
  | _ => t.found none -- EMPTY, WRITING, TOMBSTONE

def lookChild (m : Mem K V) (t : Thread K V) (n : NodeId) (key : K) : Next K V :=
  let c := m.cells n
  match c.children (c.head.predictSlot key) with
  | none => t.found none
  | some p => t.goto (.look p.node)

def stepLook (m : Mem K V) (t : Thread K V) (n : NodeId) : Option (Next K V) :=
  match t.call with
  | .get key => some (lookSlot m t n key)
  | .getOrInsert key _ => some (lookSlot m t n key)
  | _ => none

def stepLookChild (m : Mem K V) (t : Thread K V) (n : NodeId) : Option (Next K V) :=
  match t.call with
  | .get key => some (lookChild m t n key)
  | .getOrInsert key _ => some (lookChild m t n key)
  | _ => none

/-! ### The map -/

omit [LinearOrder K] [Key K] in
/-- The root was neither replaced nor frozen, or the update runs again. -/
def stepValidateRoot (m : Mem K V) (t : Thread K V) (isNew : Bool) (val : Option V) :
    Next K V :=
  if m.root = ⟨t.root, false⟩ then
    let did := isNew || t.was
    if did then .goto { t with pc := .count, reply := t.result did val }
    else .ret (t.result did val)
  else .goto { t with pc := .loadRoot, was := t.was || isNew }

omit [LinearOrder K] [Key K] in
def stepCount (config : Config) (m : Mem K V) (t : Thread K V) : Mem K V × Next K V :=
  match t.call with
  | .remove _ => ({ m with len := wrapUsize (m.len - 1) }, .ret t.reply)
  | _ =>
    let newLen := wrapUsize (m.len + 1)
    ({ m with len := newLen },
      if config.autoRebuild then t.goto (.loadThreshold newLen) else .ret t.reply)

omit [LinearOrder K] [Key K] in
def stepLoadThreshold (m : Mem K V) (t : Thread K V) (newLen : ℕ) : Next K V :=
  if newLen < m.nextRootRebuild then .ret t.reply else t.goto (.casThreshold m.nextRootRebuild)

omit [LinearOrder K] [Key K] in
def stepCasThreshold (m : Mem K V) (t : Thread K V) (threshold : ℕ) : Mem K V × Next K V :=
  if m.nextRootRebuild = threshold then
    ({ m with nextRootRebuild := saturatingMul threshold rootRebuildGrowthFactor },
      t.goto .rootLoad)
  else (m, .ret t.reply)

/-! ### Root rebuilds, drain and clear -/

omit [LinearOrder K] [Key K] in
def stepRootLoad (m : Mem K V) (t : Thread K V) : Next K V :=
  if m.root.frozen then .ret t.reply else t.goto (.rootFreeze m.root.node)

omit [LinearOrder K] [Key K] in
def stepRootFreeze (m : Mem K V) (t : Thread K V) (r : NodeId) : Mem K V × Next K V :=
  if m.root = ⟨r, false⟩ then
    ({ m with root := ⟨r, true⟩ }, t.goto (.rootWalk r (.start r)))
  else (m, .ret t.reply)

omit [LinearOrder K] [Key K] in
def stepRootWalk (m : Mem K V) (t : Thread K V) (r : NodeId) (w : Walk K V) : Next K V :=
  match w.step m with
  | none => t.goto (.rootSwap r w.pairs)
  | some w => t.goto (.rootWalk r w)

omit [LinearOrder K] [Key K] in
/-- The CAS that unfreezes the root. -/
def unfreezeRoot (m : Mem K V) (r : NodeId) : Mem K V :=
  if m.root = ⟨r, true⟩ then { m with root := ⟨r, false⟩ } else m

/-- Swap in the rebuilt root, or unfreeze the old one. -/
def swapRebuilt (config : Config) (m : Mem K V) (t : Thread K V) (r : NodeId)
    (pairs : List (K × V)) : Option (Mem K V × Next K V) :=
  if pairs.isEmpty then some (unfreezeRoot m r, .ret t.reply)
  else do
    let built ← bulkLoad { config with rangeHeadroom := 1 } pairs
    match built with
    | .error _ => some (unfreezeRoot m r, .ret t.reply)
    | .ok root =>
      if m.root = ⟨r, true⟩ then
        some (m.placeRoot root,
          t.goto (.storeThreshold (saturatingMul pairs.length rootRebuildGrowthFactor)))
      else some (m, .ret t.reply)

omit [LinearOrder K] [Key K] in
/-- Swap in an empty root. -/
def swapEmpty (m : Mem K V) (t : Thread K V) (r : NodeId) (pairs : List (K × V)) :
    Mem K V × Next K V :=
  let reply : Reply K V :=
    match t.call with
    | .drain => .pairs pairs
    | _ => t.reply
  if m.root = ⟨r, true⟩ then
    (m.placeRoot LearnedMap.emptyRoot,
      .goto { t with pc := .subtract pairs.length, reply := reply })
  else (m, .ret reply)

def stepRootSwap (config : Config) (m : Mem K V) (t : Thread K V) (r : NodeId)
    (pairs : List (K × V)) : Option (Mem K V × Next K V) :=
  match t.call with
  | .drain => some (swapEmpty m t r pairs)
  | .clear => some (swapEmpty m t r pairs)
  | _ => swapRebuilt config m t r pairs

/-- The next step of a running operation; `none` if it does not go on. -/
def Thread.step (config : Config) (m : Mem K V) (t : Thread K V) :
    Option (Mem K V × Next K V) :=
  match t.pc with
  | .loadRoot => some (m, stepLoadRoot m t)
  | .readSlot => (stepReadSlot m t).map fun n => (m, n)
  | .loadChild => some (m, stepLoadChild m t)
  | .claim => some (stepClaim m t)
  | .publish => stepPublish m t
  | .countTombstone => some (stepCountTombstone m t)
  | .validateChild => some (m, stepValidateChild config m t)
  | .checkRatio => some (m, stepCheckRatio config m t)
  | .subState => some (m, stepSubState m t)
  | .subLoad => some (m, stepSubLoad m t)
  | .subFreeze c => some (stepSubFreeze m t c)
  | .subWalk c w => some (m, stepSubWalk m t c w)
  | .subSwap c pairs => stepSubSwap config m t c pairs
  | .ownChild => some (m, stepOwnChild m t)
  | .look n => (stepLook m t n).map fun n => (m, n)
  | .lookChild n => (stepLookChild m t n).map fun n => (m, n)
  | .validateRoot isNew val => some (m, stepValidateRoot m t isNew val)
  | .count => some (stepCount config m t)
  | .loadThreshold newLen => some (m, stepLoadThreshold m t newLen)
  | .casThreshold threshold => some (stepCasThreshold m t threshold)
  | .rootLoad => some (m, stepRootLoad m t)
  | .rootFreeze r => some (stepRootFreeze m t r)
  | .rootWalk r w => some (m, stepRootWalk m t r w)
  | .rootSwap r pairs => stepRootSwap config m t r pairs
  | .subtract n => some ({ m with len := wrapUsize (m.len - n) },
      t.goto (.storeThreshold initialRootRebuildThreshold))
  | .storeThreshold n => some ({ m with nextRootRebuild := n }, .ret t.reply)

end Steps

/-! ## Interleavings -/

/-- An entry of the history. -/
inductive Event (K V : Type) where
  | inv (t : ℕ) (call : Call K V)
  | ret (t : ℕ) (call : Call K V) (reply : Reply K V)
  deriving DecidableEq

/-- The shared memory, the running operations and the history. -/
structure Sys (K V : Type) where
  mem : Mem K V
  config : Config
  threads : ℕ → Option (Thread K V)
  history : List (Event K V)

namespace Sys
variable {K V : Type}

/-- A map that no thread uses yet. -/
def init (map : LearnedMap K V) : Sys K V := ⟨.ofMap map, map.config, fun _ => none, []⟩

/-- Thread `t` starts an operation, if it runs none. -/
def invoke (s : Sys K V) (t : ℕ) (call : Call K V) : Option (Sys K V) :=
  match s.threads t with
  | some _ => none
  | none => some { s with threads := Function.update s.threads t (some (Thread.start call))
                          history := .inv t call :: s.history }

/-- What a step of thread `t`, which runs `call`, leads to. -/
def proceed (s : Sys K V) (t : ℕ) (call : Call K V) (m : Mem K V) : Next K V → Sys K V
  | .goto th => { s with mem := m, threads := Function.update s.threads t (some th) }
  | .ret reply => { s with mem := m, threads := Function.update s.threads t none
                           history := .ret t call reply :: s.history }

variable [LinearOrder K] [Key K]

/-- One step of the operation that thread `t` runs. -/
def step (s : Sys K V) (t : ℕ) : Option (Sys K V) :=
  match s.threads t with
  | none => none
  | some th => (th.step s.config s.mem).map fun r => s.proceed t th.call r.1 r.2

/-- A scheduled action: a thread starts an operation, or takes its next step. -/
inductive Act (K V : Type) where
  | call (t : ℕ) (c : Call K V)
  | step (t : ℕ)
  deriving DecidableEq

def act (s : Sys K V) : Act K V → Option (Sys K V)
  | .call t c => s.invoke t c
  | .step t => s.step t

/-- An interleaving: the scheduled actions one after another. -/
def run (s : Sys K V) (sched : List (Act K V)) : Option (Sys K V) := sched.foldlM act s

omit [LinearOrder K] [Key K] in
/-- No operation is in flight. -/
def Quiescent (s : Sys K V) : Prop := ∀ t, s.threads t = none

end Sys

end Scry.Index
