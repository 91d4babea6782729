/-
  Single-threaded runs of the engine.

  A lookup answers from the memtable, else from the visible version in the SSTables
  (`get_eq`).  Writes change that answer for their key only, flushes not at all, and
  compactions not when they are faithful; so a run whose compactions are all faithful
  answers with the last write (`run_lastWrite`).  The log always replays to the
  memtable, the manifest is lost on a restart (`restart_iff`).
-/
import Scry.Lsm.Proof.Compaction

namespace Scry.Lsm

variable {M : Type} [Memtable M]

/-! ## The compaction pass -/

/-- Every compaction of the pass over the levels of `s` is faithful. -/
def FaithfulPass (s : Store) : Prop :=
  ∀ i s', i < s.manifest.numLevels → (List.range i).foldlM compactIfFull s = .ok s' →
    s'.manifest.levelCount i ≥ maxTablesPerLevel → ∀ k, FaithfulAt s' i k

theorem compactIfFull_spec {s : Store} (hs : s.WF) (i : ℕ) :
    ∃ s', compactIfFull s i = .ok s' ∧ s'.WF ∧
      ((s.manifest.levelCount i ≥ maxTablesPerLevel → ∀ k, FaithfulAt s i k) →
        ∀ k, answer (s'.version k) = answer (s.version k)) := by
  unfold compactIfFull
  split_ifs with hfull
  · obtain ⟨s', hrun, hs', hiff⟩ := version_compactLevel hs i
    exact ⟨s', hrun, hs', fun hf k => (hiff k).2 (hf hfull k)⟩
  · exact ⟨s, rfl, hs, fun _ _ => rfl⟩

/-- **Run lemma of the pass**: what each level keeps, the whole pass keeps. -/
theorem maybeCompact_induct {s : Store} {P : Store → Prop} (h : P s)
    (hstep : ∀ i s', i < s.manifest.numLevels → (List.range i).foldlM compactIfFull s = .ok s' →
      P s' → ∃ s'', compactIfFull s' i = .ok s'' ∧ P s'') :
    ∃ s', maybeCompact s = .ok s' ∧ P s' := by
  have key : ∀ n, n ≤ s.manifest.numLevels →
      ∃ s', (List.range n).foldlM compactIfFull s = .ok s' ∧ P s' := by
    intro n
    induction n with
    | zero => exact fun _ => ⟨s, rfl, h⟩
    | succ n ih =>
      intro hn
      obtain ⟨s₁, hrun₁, h₁⟩ := ih (by omega)
      obtain ⟨s₂, hrun₂, h₂⟩ := hstep n s₁ (by omega) hrun₁ h₁
      refine ⟨s₂, ?_, h₂⟩
      rw [List.range_succ, List.foldlM_append, hrun₁]
      exact (bind_pure (compactIfFull s₁ n)).trans hrun₂
  exact key _ le_rfl

/-- **The compaction pass** never fails and keeps the store well-formed; if its
    compactions are faithful, it keeps every answer. -/
theorem maybeCompact_spec {s : Store} (hs : s.WF) :
    ∃ s', maybeCompact s = .ok s' ∧ s'.WF ∧
      (FaithfulPass s → ∀ k, answer (s'.version k) = answer (s.version k)) := by
  refine maybeCompact_induct (P := fun s' => s'.WF ∧
    (FaithfulPass s → ∀ k, answer (s'.version k) = answer (s.version k))) ⟨hs, fun _ _ => rfl⟩ ?_
  rintro i s₁ hi hrun₁ ⟨hs₁, hans₁⟩
  obtain ⟨s₂, hrun₂, hs₂, hans₂⟩ := compactIfFull_spec hs₁ i
  exact ⟨s₂, hrun₂, hs₂, fun hf k => (hans₂ (hf i s₁ hi hrun₁) k).trans (hans₁ hf k)⟩

/-- Where no level is full, a pass changes nothing. -/
theorem foldlM_compactIfFull {s : Store} (h : ∀ i, s.manifest.levelCount i < maxTablesPerLevel)
    (is : List ℕ) : is.foldlM compactIfFull s = .ok s := by
  induction is with
  | nil => rfl
  | cons i is ih =>
    rw [List.foldlM_cons, compactIfFull, if_neg (not_le.2 (h i))]
    exact ih

/-- A pass is faithful if the only level it compacts is level 0, without shared keys. -/
theorem faithfulPass_of_zero {s : Store}
    (h : ∀ i < s.manifest.numLevels, ((List.range i).foldlM compactIfFull s).toOption.all
      fun s' => s'.manifest.levelCount i < maxTablesPerLevel || i == 0)
    (h₀ : NoSharedKeys (s.tables 0)) (hh : isHighest s.manifest 0 = false) : FaithfulPass s := by
  intro i s' hi hrun hfull
  have := h i hi
  rw [hrun] at this
  simp only [Except.toOption, Option.all_some, Bool.or_eq_true, decide_eq_true_eq,
    beq_iff_eq] at this
  rcases this with hlt | rfl
  · omega
  · cases hrun
    exact fun k => (faithfulAt_iff_of_disjoint h₀ k).2 fun hr => by simp [hr.1] at hh

/-! ## Lookups -/

theorem version_congr {s s' : Store} (h : ∀ i, s'.tables i = s.tables i) (k : Bytes) :
    s'.version k = s.version k := by
  set n := max s.manifest.numLevels s'.manifest.numLevels
  rw [Store.version_eq (show s'.manifest.numLevels ≤ n by omega),
    Store.version_eq (show s.manifest.numLevels ≤ n by omega)]
  exact visible_congr fun i _ _ => by rw [h i]

/-- The version of a key that a lookup finds: the memtable's, else the SSTables'. -/
def LsmEngine.view (e : LsmEngine M) (k : Bytes) : Option Bytes :=
  (Memtable.get e.memtable k).or (e.store.version k)

theorem answer_or (m v : Option Bytes) :
    answer (m.or v) = if m.isSome then answer m else answer v := by
  cases m <;> simp

/-- **A lookup answers for the version in view.** -/
theorem get_eq {e : LsmEngine M} (hs : e.store.WF) (k : Bytes) :
    e.get k = .ok (answer (e.view k)) := by
  rw [LsmEngine.get, LsmEngine.view]
  rcases Memtable.get e.memtable k with _ | v
  · exact getSstable_eq hs k
  · rfl

theorem version_addTable {s : Store} (hs : s.WF) {es : List Entry} (ha : Ascending es)
    (k : Bytes) : (LsmEngine.addTable s es).version k = (es.lookup k).or (s.version k) := by
  obtain ⟨-, -, htab⟩ := addTable_spec hs ha
  set n := max s.manifest.numLevels (LsmEngine.addTable s es).manifest.numLevels
  rw [Store.version_eq (show s.manifest.numLevels ≤ n + 1 by omega),
    Store.version_eq (show (LsmEngine.addTable s es).manifest.numLevels ≤ n + 1 by omega),
    visible_succ, visible_succ, htab 0, if_pos rfl, newest_concat, Option.or_assoc]
  congr 2
  exact visible_congr fun i hi _ => by rw [htab i, if_neg (by omega)]

/-! ## Steps -/

/-- The store on which the compaction pass of a flush runs, if there is one. -/
def flushInput (e : LsmEngine M) : Option Store :=
  let entries := (Memtable.drainSorted e.memtable).1
  if entries.isEmpty then none else some (LsmEngine.addTable e.store entries)

/-- The store on which the compaction pass of an operation runs, if there is one. -/
def compactionInput (e : LsmEngine M) : Op → Option Store
  | .put key value =>
    let m := Memtable.insert e.memtable key value
    if Memtable.approximateBytes m ≥ e.flushThreshold then flushInput { e with memtable := m }
    else none
  | .delete _ => none
  | .flush => flushInput e

/-- The strings of a run fit their length fields, and every compaction of it is
    faithful. -/
def FaithfulRun (e : LsmEngine M) : List Op → Prop
  | [] => True
  | op :: ops => (op.Short ∧ ∀ s ∈ compactionInput e op, FaithfulPass s) ∧
      ∀ e', e.apply op = .ok e' → FaithfulRun e' ops

/-- The log replays to the memtable. -/
def LogCovers (e : LsmEngine M) : Prop :=
  ∀ m : M, (∀ k, Memtable.get m k = none) →
    ∀ k, Memtable.get (e.wal.foldl LsmEngine.replay m) k = Memtable.get e.memtable k

theorem flushMemtable_eq (e : LsmEngine M) : e.flushMemtable =
    if (Memtable.drainSorted e.memtable).1.isEmpty then
      .ok { e with memtable := (Memtable.drainSorted e.memtable).2 }
    else ((maybeCompact (LsmEngine.addTable e.store (Memtable.drainSorted e.memtable).1)).mapError
      .io).map fun store =>
        { e with memtable := (Memtable.drainSorted e.memtable).2, wal := [], store := store } :=
  rfl

/-- A new engine on an empty directory. -/
theorem open_empty_spec {m : M} (hm : ∀ k, Memtable.get m k = none) (config : EngineConfig) :
    (LsmEngine.open_ Dir.empty m config).store.WF ∧
      LogCovers (LsmEngine.open_ Dir.empty m config) ∧
      ∀ k, (LsmEngine.open_ Dir.empty m config).view k = none := by
  refine ⟨Store.wf_new _ _, fun m₀ hm₀ k => (hm₀ k).trans (hm k).symm, fun k => ?_⟩
  have hv : (LsmEngine.open_ Dir.empty m config).store.version k = none :=
    visible_eq_none.2 fun i _ _ => by
      rw [show (LsmEngine.open_ Dir.empty m config).store.tables i = [] from
        Store.tables_new _ _ _]
      rfl
  rw [LsmEngine.view, hv, Option.or_none]
  exact hm k

theorem FaithfulRun.cons {e e' : LsmEngine M} {op : Op} {ops : List Op} (h : e.apply op = .ok e')
    (hs : op.Short) (hp : ∀ s ∈ compactionInput e op, FaithfulPass s) (hr : FaithfulRun e' ops) :
    FaithfulRun e (op :: ops) :=
  ⟨⟨hs, hp⟩, fun e₁ h₁ => by rw [h] at h₁; cases h₁; exact hr⟩

theorem faithfulRun_append {e : LsmEngine M} {ops ops' : List Op}
    (h : FaithfulRun e (ops ++ ops')) : FaithfulRun e ops := by
  induction ops generalizing e with
  | nil => trivial
  | cons op ops ih => exact ⟨h.1, fun e' he' => ih (h.2 e' he')⟩

section Lawful
variable [LawfulMemtable M]

theorem get_eq_none_of_drain_empty {m : M} (h : (Memtable.drainSorted m).1.isEmpty = true)
    (k : Bytes) : Memtable.get m k = none := by
  rw [← LawfulMemtable.drain_lookup, List.isEmpty_iff.1 h]
  rfl

/-- **A flush** keeps the engine well-formed and, if its compactions are faithful, every
    answer. -/
theorem flushMemtable_spec {e : LsmEngine M} (hs : e.store.WF) :
    ∃ e', e.flushMemtable = .ok e' ∧ e'.store.WF ∧ (LogCovers e → LogCovers e') ∧
      ((∀ s ∈ flushInput e, FaithfulPass s) →
        ∀ k, answer (e'.view k) = answer (e.view k)) := by
  rw [flushMemtable_eq]
  unfold flushInput
  set entries := (Memtable.drainSorted e.memtable).1 with hentries
  set m := (Memtable.drainSorted e.memtable).2 with hm
  have hdrained : ∀ k, Memtable.get m k = none := LawfulMemtable.get_drain e.memtable
  have hlook : ∀ k, entries.lookup k = Memtable.get e.memtable k :=
    LawfulMemtable.drain_lookup e.memtable
  by_cases hempty : entries.isEmpty = true
  · have hsame : ∀ k, Memtable.get m k = Memtable.get e.memtable k := fun k => by
      rw [hdrained, get_eq_none_of_drain_empty hempty]
    refine ⟨{ e with memtable := m }, ?_, hs, fun hw m₀ hm₀ k => ?_, fun _ k => ?_⟩
    · rw [if_pos hempty]
    · exact (hw m₀ hm₀ k).trans (hsame k).symm
    · simp only [LsmEngine.view, hsame]
  · have hasc : Ascending entries := LawfulMemtable.drain_ascending e.memtable
    obtain ⟨hadd, -, -⟩ := addTable_spec hs hasc
    obtain ⟨s', hrun, hs', hans⟩ := maybeCompact_spec hadd
    refine ⟨{ e with memtable := m, wal := [], store := s' }, ?_, hs', fun _ m₀ hm₀ k => ?_,
      fun hf k => ?_⟩
    · rw [if_neg hempty, hrun]; rfl
    · exact (hm₀ k).trans (hdrained k).symm
    · rw [if_neg hempty] at hf
      simp only [LsmEngine.view, hdrained, Option.none_or]
      rw [hans (hf _ rfl) k, version_addTable hs hasc, hlook]

/-- What an operation does to the answer for `k`. -/
def Op.effect (k : Bytes) (v : Option Bytes) : Op → Option Bytes
  | .put key value => if k = key then some value else v
  | .delete key => if k = key then none else v
  | .flush => v

/-- The last write of `k` in a sequence of operations: the value put, or `none` if the
    key was deleted or never written. -/
def lastWrite (ops : List Op) (k : Bytes) : Option Bytes := ops.foldl (Op.effect k) none

/-- What an operation does to the answer for `k`, also if it puts an empty value. -/
def Op.answered (k : Bytes) (v : Option Bytes) : Op → Option Bytes
  | .put key value => if k = key then answer (some value) else v
  | .delete key => if k = key then none else v
  | .flush => v

theorem Op.effect_eq {op : Op} (hv : ∀ k v, op = .put k v → v ≠ .empty) (k : Bytes)
    (v : Option Bytes) : op.effect k v = op.answered k v := by
  cases op with
  | put key value => rw [effect, answered, answer_of_ne (hv key value rfl)]
  | delete key => rfl
  | flush => rfl

/-- **Step lemma**: an operation succeeds, and if its compactions are faithful the
    answers change as it says. -/
theorem apply_answered {e : LsmEngine M} (hs : e.store.WF) (op : Op) :
    ∃ e', e.apply op = .ok e' ∧ e'.store.WF ∧ (LogCovers e → LogCovers e') ∧
      ((∀ s ∈ compactionInput e op, FaithfulPass s) →
        ∀ k, answer (e'.view k) = op.answered k (answer (e.view k))) := by
  cases op with
  | flush =>
    obtain ⟨e', hrun, hs', hw', hans⟩ := flushMemtable_spec hs
    exact ⟨e', hrun, hs', hw', hans⟩
  | delete key =>
    refine ⟨_, rfl, hs, fun hw m hm k => ?_, fun _ k => ?_⟩
    · rw [List.foldl_append, List.foldl_cons, List.foldl_nil, LsmEngine.replay,
        LawfulMemtable.get_delete, LawfulMemtable.get_delete, hw m hm]
    · simp only [LsmEngine.view, LawfulMemtable.get_delete, Op.answered]
      by_cases hk : k = key
      · simp only [if_pos hk, Option.some_or, answer_tombstone]
      · simp only [if_neg hk]
  | put key value =>
    set e₁ : LsmEngine M := { e with wal := e.wal ++ [.put key value]
                                     memtable := Memtable.insert e.memtable key value } with he₁
    have hw₁ : LogCovers e → LogCovers e₁ := fun hw m hm k => by
      rw [he₁, List.foldl_append, List.foldl_cons, List.foldl_nil, LsmEngine.replay,
        LawfulMemtable.get_insert, LawfulMemtable.get_insert, hw m hm]
    have hans₁ : ∀ k, answer (e₁.view k) = (Op.put key value).answered k (answer (e.view k)) := by
      intro k
      simp only [he₁, LsmEngine.view, LawfulMemtable.get_insert, Op.answered]
      by_cases hk : k = key
      · simp only [if_pos hk, Option.some_or]
      · simp only [if_neg hk]
    have happly : e.apply (.put key value) = e₁.maybeFlush := rfl
    rw [happly, LsmEngine.maybeFlush, compactionInput]
    split_ifs with hfull
    · obtain ⟨e', hrun, hs', hw', hans⟩ := flushMemtable_spec (e := e₁) hs
      exact ⟨e', hrun, hs', fun hw => hw' (hw₁ hw), fun hf k => (hans hf k).trans (hans₁ k)⟩
    · exact ⟨e₁, rfl, hs, hw₁, fun _ => hans₁⟩

theorem apply_spec {e : LsmEngine M} (hs : e.store.WF) (op : Op)
    (hv : ∀ k v, op = .put k v → v ≠ .empty) :
    ∃ e', e.apply op = .ok e' ∧ e'.store.WF ∧ (LogCovers e → LogCovers e') ∧
      ((∀ s ∈ compactionInput e op, FaithfulPass s) →
        ∀ k, answer (e'.view k) = op.effect k (answer (e.view k))) := by
  obtain ⟨e', hrun, hs', hw, hans⟩ := apply_answered hs op
  exact ⟨e', hrun, hs', hw, fun hf k => (hans hf k).trans (Op.effect_eq hv k _).symm⟩

/-- **Run lemma**: a run succeeds, and if its compactions are faithful it changes the
    answers as its operations say. -/
theorem run_answered {e : LsmEngine M} (hs : e.store.WF) (ops : List Op) :
    ∃ e', e.run ops = .ok e' ∧ e'.store.WF ∧ (LogCovers e → LogCovers e') ∧
      (FaithfulRun e ops →
        ∀ k, answer (e'.view k) = ops.foldl (Op.answered k) (answer (e.view k))) := by
  induction ops generalizing e with
  | nil => exact ⟨e, rfl, hs, id, fun _ _ => rfl⟩
  | cons op ops ih =>
    obtain ⟨e₁, hrun₁, hs₁, hw₁, hans₁⟩ := apply_answered hs op
    obtain ⟨e₂, hrun₂, hs₂, hw₂, hans₂⟩ := ih hs₁
    refine ⟨e₂, ?_, hs₂, fun hw => hw₂ (hw₁ hw), fun hf k => ?_⟩
    · rw [LsmEngine.run, List.foldlM_cons, hrun₁]; exact hrun₂
    · rw [hans₂ (hf.2 e₁ hrun₁) k, hans₁ hf.1.2 k, List.foldl_cons]

theorem run_spec {e : LsmEngine M} (hs : e.store.WF) (ops : List Op)
    (hv : ∀ k v, Op.put k v ∈ ops → v ≠ .empty) :
    ∃ e', e.run ops = .ok e' ∧ e'.store.WF ∧ (LogCovers e → LogCovers e') ∧
      (FaithfulRun e ops → ∀ k, answer (e'.view k) = ops.foldl (Op.effect k) (answer (e.view k))) := by
  obtain ⟨e', hrun, hs', hw, hans⟩ := run_answered hs ops
  refine ⟨e', hrun, hs', hw, fun hf k => (hans hf k).trans ?_⟩
  refine List.foldl_ext _ _ _ fun v op hop => ?_
  exact (Op.effect_eq (fun k v h => hv k v (h ▸ hop)) k v).symm

/-- **Last writer wins in every state of a run whose strings are short and whose
    compactions are all faithful.** -/
theorem run_lastWrite {m : M} (hm : ∀ k, Memtable.get m k = none) (config : EngineConfig)
    {ops : List Op} (hv : ∀ k v, Op.put k v ∈ ops → v ≠ .empty)
    (hf : FaithfulRun (LsmEngine.open_ Dir.empty m config) ops) :
    ∀ pre, pre <+: ops → ∃ e, (LsmEngine.open_ Dir.empty m config).run pre = .ok e ∧
      ∀ k, e.get k = .ok (lastWrite pre k) := by
  rintro pre ⟨post, rfl⟩
  obtain ⟨hs, -, hview⟩ := open_empty_spec hm config
  obtain ⟨e, hrun, hs', -, hans⟩ :=
    run_spec hs pre fun k v h => hv k v (List.mem_append_left _ h)
  refine ⟨e, hrun, fun k => ?_⟩
  rw [get_eq hs', hans (faithfulRun_append hf), hview]
  rfl

/-- Four flushes, no key in two of them: the last one compacts level 0. -/
def distinctFlushes : List Op :=
  [.put (.singleton 1) (.singleton 1), .flush, .put (.singleton 2) (.singleton 2), .flush,
    .put (.singleton 3) (.singleton 3), .flush, .put (.singleton 4) (.singleton 4), .flush]

theorem run_lastWrite_distinctFlushes :
    ∃ e, (LsmEngine.open_ Dir.empty BTreeMemtable.new ⟨4 * 1024 * 1024⟩).run
        distinctFlushes = .ok e ∧
      ∀ k, e.get k = .ok (lastWrite distinctFlushes k) := by
  refine run_lastWrite (fun _ => rfl) _ (fun k v h => ?_) ?_ _ (List.prefix_refl _)
  · simp only [distinctFlushes, List.mem_cons, Op.put.injEq, reduceCtorEq, false_or,
      List.not_mem_nil, or_false] at h
    rcases h with ⟨-, rfl⟩ | ⟨-, rfl⟩ | ⟨-, rfl⟩ | ⟨-, rfl⟩ <;> decide
  · have hput : ∀ {e : LsmEngine BTreeMemtable} {k v : Bytes},
        compactionInput e (.put k v) = none →
        ∀ s ∈ compactionInput e (.put k v), FaithfulPass s := by
      intro e k v h s hs
      rw [h] at hs; cases hs
    have hflush : ∀ {e : LsmEngine BTreeMemtable} {s : Store},
        compactionInput e .flush = some s → FaithfulPass s →
        ∀ s ∈ compactionInput e .flush, FaithfulPass s := by
      intro e s h hs s' hs'
      rw [h] at hs'; cases hs'; exact hs
    iterate 4
      refine .cons rfl (And.intro (by decide) (by decide)) (hput rfl) (.cons rfl trivial (hflush rfl ?_) ?_)
      · exact faithfulPass_of_zero (by decide) (by decide) rfl
    trivial

/-- A key written in two flushes, and two more flushes: the compaction of level 0 that
    they trigger keeps the older value. -/
def overwriteAcrossCompaction : List Op :=
  [.put (.singleton 1) (.singleton 1), .flush, .put (.singleton 1) (.singleton 2), .flush,
    .put (.singleton 2) (.singleton 1), .flush, .put (.singleton 3) (.singleton 1), .flush]

theorem get_stale_after_compaction :
    (∀ k v, Op.put k v ∈ overwriteAcrossCompaction → v ≠ .empty) ∧
    lastWrite overwriteAcrossCompaction (.singleton 1) = some (.singleton 2) ∧
    ∃ e, (LsmEngine.open_ Dir.empty BTreeMemtable.new ⟨4 * 1024 * 1024⟩).run
        overwriteAcrossCompaction = .ok e ∧
      e.get (.singleton 1) = .ok (some (.singleton 1)) := by
  refine ⟨fun k v h => ?_, by decide, _, rfl, by decide⟩
  simp only [overwriteAcrossCompaction, List.mem_cons, Op.put.injEq, reduceCtorEq, false_or,
    List.not_mem_nil, or_false] at h
  rcases h with ⟨-, rfl⟩ | ⟨-, rfl⟩ | ⟨-, rfl⟩ | ⟨-, rfl⟩ <;> decide

/-! ## Restart -/

/-- The engine after a clean drop and a reopening of its directory. -/
def LsmEngine.restart (e : LsmEngine M) (m : M) (config : EngineConfig) : LsmEngine M :=
  LsmEngine.open_ e.drop m config

/-- The file `p` holds live data: it has the value that a lookup of some key answers. -/
def Live (e : LsmEngine M) (p : SstPath) : Prop :=
  ∃ k v L, ∃ t ∈ e.store.manifest.level L, t.path = p ∧ (k, v) ∈ e.store.entries t ∧
    Memtable.get e.memtable k = none ∧ e.store.version k = some v ∧ v ≠ .empty

/-- A restart keeps every lookup and later operations leave the live files alone. -/
structure RestartPreserves (e : LsmEngine M) (m : M) (config : EngineConfig) : Prop where
  gets : ∀ k, (e.restart m config).get k = e.get k
  files : ∀ p, Live e p → ∀ ops e', (e.restart m config).run ops = .ok e' →
    e'.store.disk p = e.store.disk p

/-- No lookup is answered from an SSTable. -/
def AnswersFromMemtable (e : LsmEngine M) : Prop :=
  ∀ k, Memtable.get e.memtable k = none → answer (e.store.version k) = none

omit [LawfulMemtable M] in
/-- A flush leaves the log as it is, or empties it. -/
theorem flushMemtable_wal {e e' : LsmEngine M} (h : e.flushMemtable = .ok e') :
    e'.wal = e.wal ∨ e'.wal = [] := by
  rw [flushMemtable_eq] at h
  split_ifs at h
  · cases h
    exact Or.inl rfl
  · cases hc : (maybeCompact
        (LsmEngine.addTable e.store (Memtable.drainSorted e.memtable).1)).mapError Error.io with
    | error err =>
      rw [hc] at h
      cases h
    | ok store =>
      rw [hc] at h
      cases h
      exact Or.inr rfl

omit [LawfulMemtable M] in
theorem apply_walShort {e e' : LsmEngine M} (hw : ∀ r ∈ e.wal, r.Short) {op : Op} (hop : op.Short)
    (h : e.apply op = .ok e') : ∀ r ∈ e'.wal, r.Short := by
  have hflush : ∀ {e₁ : LsmEngine M}, (∀ r ∈ e₁.wal, r.Short) → e₁.flushMemtable = .ok e' →
      ∀ r ∈ e'.wal, r.Short := by
    intro e₁ h₁ hf r hr
    rcases flushMemtable_wal hf with he | he
    · exact h₁ r (he ▸ hr)
    · rw [he] at hr
      cases hr
  have happend : ∀ {r : WalRecord}, r.Short → ∀ r' ∈ e.wal ++ [r], r'.Short := by
    intro r hr r' hm
    rcases List.mem_append.1 hm with hm | hm
    · exact hw r' hm
    · rw [List.mem_singleton.1 hm]
      exact hr
  cases op with
  | flush => exact hflush hw h
  | delete key =>
    cases h
    exact happend hop
  | put key value =>
    have h : LsmEngine.maybeFlush { e with wal := e.wal ++ [.put key value]
                                           memtable := Memtable.insert e.memtable key value } =
        .ok e' := h
    rw [LsmEngine.maybeFlush] at h
    split_ifs at h
    · exact hflush (happend (r := .put key value) hop) h
    · cases h
      exact happend (r := .put key value) hop

omit [LawfulMemtable M] in
/-- What a run of short strings leaves in the log is read back. -/
theorem run_walShort {e e' : LsmEngine M} (hw : ∀ r ∈ e.wal, r.Short) {ops : List Op}
    (hops : ∀ op ∈ ops, op.Short) (h : e.run ops = .ok e') : ∀ r ∈ e'.wal, r.Short := by
  induction ops generalizing e with
  | nil =>
    cases h
    exact hw
  | cons op ops ih =>
    rw [LsmEngine.run, List.foldlM_cons] at h
    cases hop : e.apply op with
    | error err =>
      rw [hop] at h
      cases h
    | ok e₁ =>
      rw [hop] at h
      exact ih (apply_walShort hw (hops op List.mem_cons_self) hop)
        (fun op' h' => hops op' (List.mem_cons_of_mem op h')) h

/-- **A restart preserves the store exactly when no lookup is answered from an
    SSTable**, after operations with short strings, whose log is read back whole. -/
theorem restart_iff {m₀ : M} (hm₀ : ∀ k, Memtable.get m₀ k = none) (config₀ : EngineConfig)
    {ops : List Op} (hops : ∀ op ∈ ops, op.Short) :
    ∃ e, (LsmEngine.open_ Dir.empty m₀ config₀).run ops = .ok e ∧ e.drop.Short ∧
      ∀ (m : M), (∀ k, Memtable.get m k = none) → ∀ config,
        RestartPreserves e m config ↔ AnswersFromMemtable e := by
  obtain ⟨hs, hw, -⟩ := open_empty_spec hm₀ config₀
  obtain ⟨e, hrun, hs', hw', -⟩ := run_answered hs ops
  have hshort : e.drop.Short := run_walShort (fun r hr => by cases hr) hops hrun
  refine ⟨e, hrun, hshort, fun m hm config => ?_⟩
  have hget : ∀ k, (e.restart m config).get k = .ok (answer (Memtable.get e.memtable k)) := by
    intro k
    have hv : (e.restart m config).store.version k = none :=
      visible_eq_none.2 fun i _ _ => by
        rw [show (e.restart m config).store.tables i = [] from Store.tables_new _ _ _]
        rfl
    rw [get_eq (Store.wf_new _ _), LsmEngine.view, hv, Option.or_none]
    exact congrArg (fun v => Except.ok (answer v)) (hw' hw m hm k)
  have hiff : (∀ k, (e.restart m config).get k = e.get k) ↔ AnswersFromMemtable e := by
    refine forall_congr' fun k => ?_
    rw [hget, get_eq hs', LsmEngine.view]
    rcases Memtable.get e.memtable k with _ | v
    · rw [Option.none_or, answer_none]
      exact ⟨fun h _ => (Except.ok.inj h).symm, fun h => congrArg Except.ok (h rfl).symm⟩
    · simp
  refine ⟨fun h => hiff.1 h.gets, fun h => ⟨hiff.2 h, fun p hp => ?_⟩⟩
  obtain ⟨k, v, L, t, -, -, -, hk, hvis, hne⟩ := hp
  have := h k hk
  rw [hvis, answer_of_ne hne] at this
  cases this

theorem restart_iff_putFlush :
    ∃ e, (LsmEngine.open_ Dir.empty BTreeMemtable.new ⟨4 * 1024 * 1024⟩).run
        [.put (.singleton 1) (.singleton 1), .flush] = .ok e ∧ e.drop.Short ∧
      ∀ (m : BTreeMemtable), (∀ k, Memtable.get m k = none) → ∀ config,
        RestartPreserves e m config ↔ AnswersFromMemtable e := by
  refine restart_iff (fun _ => rfl) _ fun op h => ?_
  simp only [List.mem_cons, List.not_mem_nil, or_false] at h
  rcases h with rfl | rfl
  · exact And.intro (by decide) (by decide)
  · trivial

/-- After a flush and a restart the key is gone, and the next flush overwrites the file
    that has its value. -/
theorem restart_loses_sstable :
    ∃ e, (LsmEngine.open_ Dir.empty BTreeMemtable.new ⟨4 * 1024 * 1024⟩).run
        [.put (.singleton 1) (.singleton 1), .flush] = .ok e ∧
      e.get (.singleton 1) = .ok (some (.singleton 1)) ∧
      (e.restart BTreeMemtable.new ⟨4 * 1024 * 1024⟩).get (.singleton 1) = .ok none ∧
      Live e ⟨0, 0⟩ ∧
      ∃ e', (e.restart BTreeMemtable.new ⟨4 * 1024 * 1024⟩).run
          [.put (.singleton 2) (.singleton 2), .flush] = .ok e' ∧
        e'.store.disk ⟨0, 0⟩ ≠ e.store.disk ⟨0, 0⟩ := by
  refine ⟨_, rfl, by decide, by decide, ⟨.singleton 1, .singleton 1, 0, _,
    List.mem_cons_self, rfl, List.mem_cons_self, rfl, by decide, by decide⟩, _, rfl, by decide⟩

end Lawful

end Scry.Lsm
