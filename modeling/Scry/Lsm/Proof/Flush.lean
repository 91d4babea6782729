/-
  Concurrent flushes.

  A flush drains the memtable before it takes the manifest lock, so flushes may register
  their tables in another order than they drained them; level 0 is in recency order as
  long as no flush overtakes one with an older version of a key (`run_inRecencyOrder`).
  A flush also truncates the log, whose records are then those of later writes; they are
  kept if at each truncation every write is in the tables (`run_walCovers`).
-/
import Scry.Lib.Run
import Scry.Lsm.Proof.Concurrent

namespace Scry.Lsm

variable {M : Type} [Memtable M]

/-! ## Level 0 under compaction -/

theorem compactIfFull_tables {s s' : Store} (hs : s.WF) {i : ℕ}
    (h : compactIfFull s i = .ok s') : s'.WF ∧
      (s'.tables 0 = if i = 0 ∧ s.manifest.levelCount 0 ≥ maxTablesPerLevel then []
        else s.tables 0) := by
  unfold compactIfFull at h
  split_ifs at h with hfull
  · obtain ⟨s₁, out, hrun, hs₁, htab, -, -⟩ := compactLevel_spec hs i
    obtain rfl := Except.ok.inj (hrun.symm.trans h)
    refine ⟨hs₁, ?_⟩
    rw [htab, pushDown]
    by_cases hi : i = 0
    · subst hi
      rw [if_pos rfl, if_pos ⟨rfl, hfull⟩]
    · rw [if_neg (Ne.symm hi), if_neg (Nat.succ_ne_zero i).symm, if_neg fun h => hi h.1]
  · cases h
    refine ⟨hs, (if_neg ?_).symm⟩
    rintro ⟨rfl, hf⟩
    exact hfull hf

theorem foldlM_compactIfFull_tables {is : List ℕ} (his : 0 ∉ is) {s s' : Store} (hs : s.WF)
    (h : is.foldlM compactIfFull s = .ok s') : s'.tables 0 = s.tables 0 := by
  induction is generalizing s with
  | nil => cases h; rfl
  | cons i is ih =>
    obtain ⟨hi, his⟩ := not_or.1 (mt List.mem_cons.2 his)
    rw [List.foldlM_cons] at h
    rcases hc : compactIfFull s i with e | s₁
    · rw [hc] at h; cases h
    rw [hc] at h
    obtain ⟨hs₁, htab⟩ := compactIfFull_tables hs hc
    rw [ih his hs₁ h, htab, if_neg fun h => hi h.1.symm]

/-- **The compaction pass empties a full level 0** and leaves another as it is. -/
theorem maybeCompact_tables {s s' : Store} (hs : s.WF) (h : maybeCompact s = .ok s') :
    s'.tables 0 = if s.manifest.levelCount 0 ≥ maxTablesPerLevel then [] else s.tables 0 := by
  unfold maybeCompact at h
  rcases hn : s.manifest.numLevels with _ | n
  · rw [hn] at h
    cases h
    rw [if_neg]
    rw [Store.levelCount_eq, Store.tables_of_le hn.le]
    decide
  · rw [hn, List.range_succ_eq_map, List.foldlM_cons] at h
    rcases hc : compactIfFull s 0 with e | s₁
    · rw [hc] at h; cases h
    rw [hc] at h
    obtain ⟨hs₁, htab⟩ := compactIfFull_tables hs hc
    rw [foldlM_compactIfFull_tables (by simp) hs₁ h, htab]
    simp only [true_and]

/-- A key has an entry in both lists. -/
def Overlap (es es' : List Entry) : Prop :=
  ∃ k, (es.lookup k).isSome ∧ (es'.lookup k).isSome

/-- What the flushes of a run did: the batches of entries in the order in which they left
    the memtable, the batch that a thread did not register yet, and the batches
    registered since level 0 was last merged, oldest first. -/
structure FlushLog where
  drained : List (List Entry)
  pending : ℕ → Option ℕ
  level0 : List ℕ

namespace FlushLog

def empty : FlushLog := ⟨[], fun _ => none, []⟩

/-- The entries of a batch. -/
def batch (log : FlushLog) (i : ℕ) : List Entry := log.drained.getD i []

/-- Thread `t` drained `entries`. -/
def drain (log : FlushLog) (t : ℕ) (entries : List Entry) : FlushLog :=
  { log with drained := log.drained ++ [entries]
             pending := Function.update log.pending t (some log.drained.length) }

/-- Thread `t` registered its batch. -/
def register (log : FlushLog) (t : ℕ) : FlushLog :=
  { log with pending := Function.update log.pending t none
             level0 := log.level0 ++ (log.pending t).toList }

theorem batch_drain_of_lt {log : FlushLog} {t i : ℕ} {es : List Entry}
    (h : i < log.drained.length) : (log.drain t es).batch i = log.batch i :=
  List.getD_append _ _ _ _ h

theorem batch_drain_self (log : FlushLog) (t : ℕ) (es : List Entry) :
    (log.drain t es).batch log.drained.length = es := by
  simp [batch, drain]

end FlushLog

namespace Sys

/-- An engine that runs no call. -/
def ofEngine (e : LsmEngine M) : Sys M :=
  ⟨e.memtable, e.wal, e.store, e.flushThreshold, none, fun _ => none, []⟩

/-- The record of the flushes after an action in state `s`. -/
def noteFlush (s : Sys M) (log : FlushLog) : Act → FlushLog
  | .call _ _ => log
  | .step t =>
    match s.threads t with
    | some ⟨_, .drain⟩ =>
      let entries := (Memtable.drainSorted s.memtable).1
      if entries.isEmpty then log else log.drain t entries
    | some ⟨_, .register _⟩ => log.register t
    | some ⟨_, .compact⟩ =>
      if s.store.manifest.levelCount 0 ≥ maxTablesPerLevel then { log with level0 := [] } else log
    | _ => log

/-- A flush that registers its batch writes short strings, and it overtakes no flush that
    drained another version of one of its keys before. -/
def NoOvertaking (p : Sys M × FlushLog) (a : Act) : Prop :=
  ∀ t i, a = .step t → p.2.pending t = some i → (∀ e ∈ p.2.batch i, e.Short) ∧
    ∀ t' j, t' ≠ t → p.2.pending t' = some j → Overlap (p.2.batch i) (p.2.batch j) → i < j

/-- Level 0 consists of the batches registered since it was last merged, and those with
    a key in common are in the order in which they were drained. -/
structure InRecencyOrder (s : Sys M) (log : FlushLog) : Prop where
  tables : s.store.tables 0 = log.level0.map log.batch
  ordered : log.level0.Pairwise fun i j => Overlap (log.batch i) (log.batch j) → i < j
  /-- The search of level 0 answers from the batch that was drained last. -/
  search : ∀ k v, ∀ j ∈ log.level0, (log.batch j).lookup k = some v →
    (∀ i ∈ log.level0, j < i → (log.batch i).lookup k = none) →
    LsmEngine.searchLevel s.store.disk k (s.store.manifest.level 0).reverse = .ok (some v)

/-- A step that reaches the registration drained a non-empty memtable. -/
theorem step_register {s s' : Sys M} {t : ℕ} (h : s.step t = some s') {c : Call}
    {es : List Entry} (h' : s'.threads t = some ⟨c, .register es⟩) :
    s.threads t = some ⟨c, .drain⟩ ∧ (Memtable.drainSorted s.memtable).1.isEmpty = false := by
  unfold step at h
  split at h
  · cases h
  rename_i c₁ pc ht
  rw [ht]
  cases pc with
  | append =>
    simp only [stepAppend] at h
    split at h <;> cases h <;> simp [goto] at h'
  | insert =>
    simp only [stepInsert] at h
    split at h <;> cases h <;> simp [goto, reply] at h'
  | check =>
    cases h
    unfold stepCheck at h'
    split_ifs at h' <;> simp [goto, reply] at h'
  | drain =>
    cases h
    unfold stepDrain at h'
    by_cases he : (Memtable.drainSorted s.memtable).1.isEmpty = true
    · dsimp only at h'
      rw [if_pos he] at h'
      simp [reply] at h'
    · dsimp only at h'
      rw [if_neg he] at h'
      simp only [goto, Function.update_self, Option.some.injEq, Thread.mk.injEq] at h'
      exact ⟨by rw [h'.1], Bool.eq_false_iff.2 he⟩
  | register es =>
    simp only [stepRegister] at h
    split at h <;> cases h
    simp [goto] at h'
  | truncate => cases h; simp [goto] at h'
  | compact =>
    cases h
    unfold stepCompact at h'
    split at h' <;> simp [reply] at h'
  | probe =>
    simp only [stepProbe] at h
    split at h
    · split at h <;> cases h <;> simp [goto, reply] at h'
    · cases h
  | search =>
    simp only [stepSearch] at h
    split at h
    · split at h <;> cases h
      simp [reply] at h'
    · cases h

/-- A drain hands the memtable's entries to its thread. -/
theorem step_drain {s s' : Sys M} {t : ℕ} {c : Call} (ht : s.threads t = some ⟨c, .drain⟩)
    (h : s.step t = some s') :
    s'.store = s.store ∧ s'.holding t = (Memtable.drainSorted s.memtable).1 := by
  simp only [step, ht, Option.some.injEq] at h
  subst h
  unfold stepDrain
  by_cases he : (Memtable.drainSorted s.memtable).1.isEmpty = true
  · simp [reply, holding, List.isEmpty_iff.1 he]
  · simp [he, goto, holding]

section Lawful
variable [LawfulMemtable M]

/-- The other steps than drain, registration and compaction leave the flushes alone. -/
theorem step_frame {s s' : Sys M} {t : ℕ} {c : Call} {pc : Pc} (ht : s.threads t = some ⟨c, pc⟩)
    (h : s.step t = some s') (hd : pc ≠ .drain) (hr : ∀ es, pc ≠ .register es)
    (hc : pc ≠ .compact) : s'.store = s.store ∧ s'.holding t = s.holding t := by
  obtain ⟨c', pc', ht', -, heff⟩ := step_cases h
  obtain ⟨rfl, rfl⟩ := Thread.mk.inj (Option.some.inj (ht.symm.trans ht'))
  cases heff with
  | quiet hpc hm hs hh => exact ⟨hs, hh⟩
  | insert hpc hm hs hh => exact ⟨hs, hh⟩
  | drain hpc => exact absurd hpc hd
  | register hpc => obtain ⟨es, hpc⟩ := hpc; exact absurd hpc (hr es)
  | compact hpc => exact absurd hpc hc

/-- The record of the flushes fits the state, and every batch that waits came after those
    of level 0 with which it shares a key. -/
structure FlushInv (s : Sys M) (log : FlushLog) : Prop where
  wf : s.WF
  tables : s.store.tables 0 = log.level0.map log.batch
  ordered : log.level0.Pairwise fun i j => Overlap (log.batch i) (log.batch j) → i < j
  bound : ∀ i ∈ log.level0, i < log.drained.length
  pending : ∀ t i, log.pending t = some i → i < log.drained.length ∧ log.batch i = s.holding t
  register : ∀ t c es, s.threads t = some ⟨c, .register es⟩ → (log.pending t).isSome
  waits : ∀ t j, log.pending t = some j →
    ∀ i ∈ log.level0, Overlap (log.batch i) (log.batch j) → i < j

omit [Memtable M] [LawfulMemtable M] in
theorem FlushInv.congr {s s' : Sys M} {log : FlushLog} (hs : FlushInv s log) (hwf : s'.WF)
    (hst : s'.store.tables 0 = s.store.tables 0) (hh : ∀ t, s'.holding t = s.holding t)
    (hr : ∀ t c es, s'.threads t = some ⟨c, .register es⟩ → (log.pending t).isSome) :
    FlushInv s' log :=
  ⟨hwf, hst.trans hs.tables, hs.ordered, hs.bound,
    fun t i hi => ⟨(hs.pending t i hi).1, (hs.pending t i hi).2.trans (hh t).symm⟩, hr, hs.waits⟩

/-- A step keeps the other threads and what they hold. -/
theorem step_other {s s' : Sys M} {t : ℕ} (h : s.step t = some s') {t' : ℕ} (htt : t' ≠ t) :
    s'.threads t' = s.threads t' ∧ s'.holding t' = s.holding t' := by
  obtain ⟨c, pc, ht, hmv, -⟩ := step_cases h
  refine ⟨?_, hmv.holding_ne htt⟩
  cases hmv with
  | goto next hth => rw [hth, Function.update_of_ne htt]
  | ret r hth => rw [hth, Function.update_of_ne htt]

theorem flushInv_drain {s s' : Sys M} {log : FlushLog} {t : ℕ} {c : Call} (hs : FlushInv s log)
    (ht : s.threads t = some ⟨c, .drain⟩) (h : s.step t = some s') :
    FlushInv s' (log.drain t (Memtable.drainSorted s.memtable).1) := by
  obtain ⟨hst, hh⟩ := step_drain ht h
  set es := (Memtable.drainSorted s.memtable).1
  have hbatch : ∀ i < log.drained.length, (log.drain t es).batch i = log.batch i :=
    fun i hi => FlushLog.batch_drain_of_lt hi
  have hlen : (log.drain t es).drained.length = log.drained.length + 1 := by
    simp [FlushLog.drain]
  have hself : ∀ {i}, (log.drain t es).pending t = some i → i = log.drained.length := fun hi =>
    (Option.some.inj ((Function.update_self t _ _).symm.trans hi)).symm
  have hother : ∀ {t'}, t' ≠ t → (log.drain t es).pending t' = log.pending t' := fun htt =>
    Function.update_of_ne htt _ _
  refine ⟨wf_step hs.wf h, ?_, ?_, fun i hi => ?_, fun t' i hi => ?_, fun t' c' es' h' => ?_,
    fun t' j hj i hi hov => ?_⟩
  · rw [hst, hs.tables]
    exact List.map_congr_left fun i hi => (hbatch i (hs.bound i hi)).symm
  · refine hs.ordered.imp_of_mem fun {i j} hi hj hij => ?_
    rwa [hbatch i (hs.bound i hi), hbatch j (hs.bound j hj)]
  · rw [hlen]
    exact Nat.lt_succ_of_lt (hs.bound i hi)
  · by_cases htt : t' = t
    · subst htt
      rw [hself hi, hlen]
      exact ⟨Nat.lt_succ_self _, (FlushLog.batch_drain_self log t' es).trans hh.symm⟩
    · obtain ⟨hlt, hb⟩ := hs.pending t' i (hother htt ▸ hi)
      rw [hlen, hbatch i hlt, hb, (step_other h htt).2]
      exact ⟨Nat.lt_succ_of_lt hlt, rfl⟩
  · by_cases htt : t' = t
    · subst htt
      exact Option.isSome_iff_exists.2 ⟨_, Function.update_self _ _ _⟩
    · rw [hother htt]
      exact hs.register t' c' es' ((step_other h htt).1 ▸ h')
  · have hi' := hs.bound i hi
    by_cases htt : t' = t
    · -- the new batch is the youngest
      subst htt
      rw [hself hj]
      exact hi'
    · have hj' : log.pending t' = some j := hother htt ▸ hj
      rw [hbatch i hi', hbatch j (hs.pending t' j hj').1] at hov
      exact hs.waits t' j hj' i hi hov

theorem flushInv_register {s s' : Sys M} {log : FlushLog} {t : ℕ} {c : Call} {es : List Entry}
    (hs : FlushInv s log) (ht : s.threads t = some ⟨c, .register es⟩)
    (hc : NoOvertaking (s, log) (.step t)) (h : s.step t = some s') :
    FlushInv s' (log.register t) := by
  obtain ⟨i, hi⟩ := Option.isSome_iff_exists.1 (hs.register t c es ht)
  obtain ⟨hlt, hb⟩ := hs.pending t i hi
  have hst : s'.store = LsmEngine.addTable s.store (s.holding t) := by
    simp only [step, ht, stepRegister] at h
    split at h <;> cases h
    simp [goto, holding, ht]
  have hlevel : (log.register t).level0 = log.level0 ++ [i] := by simp [FlushLog.register, hi]
  have hself : (log.register t).pending t = none := Function.update_self _ _ _
  have hother : ∀ {t'}, t' ≠ t → (log.register t).pending t' = log.pending t' := fun htt =>
    Function.update_of_ne htt _ _
  have hne : ∀ {t' j}, (log.register t).pending t' = some j → t' ≠ t ∧ log.pending t' = some j := by
    intro t' j hj
    have htt : t' ≠ t := by rintro rfl; rw [hself] at hj; cases hj
    exact ⟨htt, hother htt ▸ hj⟩
  refine ⟨wf_step hs.wf h, ?_, ?_, fun j hj => ?_, fun t' j hj => ?_, fun t' c' es' h' => ?_,
    fun t' j hj j' hj' hov => ?_⟩
  · rw [hst, (addTable_spec hs.wf.store (hs.wf.ascending t)).2.2, if_pos rfl, hs.tables, hlevel,
      List.map_append, ← hb]
    rfl
  · rw [hlevel]
    refine List.pairwise_append.2 ⟨hs.ordered, List.pairwise_singleton _ _, fun j hj j' hj' => ?_⟩
    rw [List.mem_singleton.1 hj']
    exact hs.waits t i hi j hj
  · rw [hlevel] at hj
    rcases List.mem_append.1 hj with hj | hj
    · exact hs.bound j hj
    · rw [List.mem_singleton.1 hj]
      exact hlt
  · obtain ⟨htt, hj⟩ := hne hj
    rw [(step_other h htt).2]
    exact hs.pending t' j hj
  · by_cases htt : t' = t
    · subst htt
      have := (step_register h h').1
      rw [ht] at this
      cases this
    · rw [hother htt]
      exact hs.register t' c' es' ((step_other h htt).1 ▸ h')
  · obtain ⟨htt, hj⟩ := hne hj
    rw [hlevel] at hj'
    rcases List.mem_append.1 hj' with hj' | hj'
    · exact hs.waits t' j hj j' hj' hov
    · obtain rfl := List.mem_singleton.1 hj'
      exact (hc t j' rfl hi).2 t' j htt hj hov

theorem flushInv_compact {s s' : Sys M} {log : FlushLog} {t : ℕ} {c : Call} (hs : FlushInv s log)
    (ht : s.threads t = some ⟨c, .compact⟩) (h : s.step t = some s') :
    FlushInv s' (if s.store.manifest.levelCount 0 ≥ maxTablesPerLevel then
      { log with level0 := [] } else log) := by
  have hwf := wf_step hs.wf h
  obtain ⟨st, hrun, -⟩ := maybeCompact_has hs.wf.store
  obtain ⟨hst, hth⟩ : s'.store = st ∧ s'.threads t = none := by
    simp only [step, ht, stepCompact, hrun, Option.some.injEq] at h
    subst h
    simp [reply]
  have hhold : ∀ t', s'.holding t' = s.holding t' := fun t' => by
    by_cases htt : t' = t
    · subst htt
      simp [holding, hth, ht]
    · exact (step_other h htt).2
  have hreg : ∀ t' c' es, s'.threads t' = some ⟨c', .register es⟩ → (log.pending t').isSome := by
    intro t' c' es h'
    have htt : t' ≠ t := by rintro rfl; rw [hth] at h'; cases h'
    exact hs.register t' c' es ((step_other h htt).1 ▸ h')
  have htab := maybeCompact_tables hs.wf.store hrun
  split_ifs with hfull
  · rw [if_pos hfull] at htab
    refine ⟨hwf, hst ▸ htab, List.Pairwise.nil, by simp, fun t' i hi => ?_, hreg, by simp⟩
    rw [hhold]
    exact hs.pending t' i hi
  · rw [if_neg hfull] at htab
    exact hs.congr hwf (hst ▸ htab) hhold hreg

theorem flushInv_quiet {s s' : Sys M} {log : FlushLog} {t : ℕ} {c : Call} {pc : Pc}
    (hs : FlushInv s log) (ht : s.threads t = some ⟨c, pc⟩) (h : s.step t = some s')
    (hst : s'.store = s.store) (hh : s'.holding t = s.holding t)
    (hr : ∀ c es, s'.threads t ≠ some ⟨c, .register es⟩) : FlushInv s' log := by
  refine hs.congr (wf_step hs.wf h) (by rw [hst]) (fun t' => ?_) fun t' c' es h' => ?_
  · by_cases htt : t' = t
    · rw [htt, hh]
    · exact (step_other h htt).2
  · have htt : t' ≠ t := by rintro rfl; exact hr c' es h'
    exact hs.register t' c' es ((step_other h htt).1 ▸ h')

/-- **Step lemma** of the flushes. -/
theorem flushInv_step {s s' : Sys M} {log : FlushLog} {t : ℕ} (hs : FlushInv s log)
    (hc : NoOvertaking (s, log) (.step t)) (h : s.step t = some s') :
    FlushInv s' (noteFlush s log (.step t)) := by
  obtain ⟨c, pc, ht, -⟩ := step_cases h
  have hquiet : pc ≠ .drain → (∀ es, pc ≠ .register es) → pc ≠ .compact → FlushInv s' log := by
    intro hd hr hc
    obtain ⟨hst, hh⟩ := step_frame ht h hd hr hc
    refine flushInv_quiet hs ht h hst hh fun c' es h' => ?_
    have := (step_register h h').1
    rw [ht, Option.some.injEq, Thread.mk.injEq] at this
    exact hd this.2
  simp only [noteFlush, ht]
  cases pc with
  | drain =>
    dsimp only
    by_cases he : (Memtable.drainSorted s.memtable).1.isEmpty = true
    · rw [if_pos he]
      obtain ⟨hst, hh⟩ := step_drain ht h
      refine flushInv_quiet hs ht h hst ?_ fun c' es h' => ?_
      · rw [hh, List.isEmpty_iff.1 he]
        simp [holding, ht]
      · rw [(step_register h h').2] at he
        cases he
    · rw [if_neg he]
      exact flushInv_drain hs ht h
  | register es => exact flushInv_register hs ht hc h
  | compact => exact flushInv_compact hs ht h
  | append => exact hquiet (by simp) (by simp) (by simp)
  | insert => exact hquiet (by simp) (by simp) (by simp)
  | check => exact hquiet (by simp) (by simp) (by simp)
  | truncate => exact hquiet (by simp) (by simp) (by simp)
  | probe => exact hquiet (by simp) (by simp) (by simp)
  | search => exact hquiet (by simp) (by simp) (by simp)

omit [Memtable M] [LawfulMemtable M] in
theorem FlushInv.inRecencyOrder {s : Sys M} {log : FlushLog} (hs : FlushInv s log) :
    InRecencyOrder s log := by
  refine ⟨hs.tables, hs.ordered, fun k v j hj hv hlast => ?_⟩
  rw [searchLevel_eq k fun t ht => hs.wf.store 0 t (List.mem_reverse.1 ht),
    List.map_reverse]
  change Except.ok (newest (s.store.tables 0) k) = _
  obtain ⟨older, younger, hsplit⟩ := List.append_of_mem hj
  have hord := hs.ordered
  rw [hsplit] at hord
  -- a younger table with the key would have been drained later
  have hnone : oldest (younger.map log.batch).reverse k = none := by
    refine oldest_eq_none.2 fun es hes => ?_
    obtain ⟨i, hi, rfl⟩ := List.mem_map.1 (List.mem_reverse.1 hes)
    have hij := (List.pairwise_cons.1 (List.pairwise_append.1 hord).2.1).1 i hi
    rcases hl : (log.batch i).lookup k with _ | w
    · rfl
    · rw [hlast i (by rw [hsplit]; simp [hi]) (hij ⟨k, by rw [hv]; rfl, by rw [hl]; rfl⟩)] at hl
      cases hl
  rw [hs.tables, hsplit, newest, List.map_append, List.reverse_append, List.map_cons,
    List.reverse_cons, oldest_append, oldest_append, hnone, oldest_cons, hv]
  rfl

/-- The step of the engine together with the record of its flushes. -/
def actFlush : Sys M × FlushLog → Act → Option (Sys M × FlushLog) := Run.recording act noteFlush

/-- **Level 0 is in the order of the drains, in every interleaving in which the flushes
    write short strings and none overtakes one that drained another version of one of its
    keys before.** -/
theorem run_inRecencyOrder {dir : Dir} {m : M} {config : EngineConfig} {sched : List Act}
    {s : Sys M} {log : FlushLog}
    (hrun : sched.foldlM actFlush (ofEngine (.open_ dir m config), .empty) = some (s, log))
    (hc : Run.Meets actFlush NoOvertaking (ofEngine (.open_ dir m config), .empty) sched) :
    InRecencyOrder s log := by
  have hinit : FlushInv (ofEngine (.open_ dir m config)) FlushLog.empty :=
    ⟨⟨Store.wf_new _ _, fun _ => ascending_nil⟩, Store.tables_new _ _ _, List.Pairwise.nil,
      by simp [FlushLog.empty], by simp [FlushLog.empty], by simp [ofEngine],
      by simp [FlushLog.empty]⟩
  have hinv := Run.run_induct (I := fun p => FlushInv p.1 p.2) (fun {p a p'} hs hc h => ?_)
    hinit hc hrun
  · exact hinv.inRecencyOrder
  obtain ⟨hact, hlog⟩ := Run.recording_eq_some.1 h
  rw [hlog]
  cases a with
  | call t c =>
    obtain ⟨ht, hth, -, -, hst, hh⟩ := invoke_cases hact
    refine FlushInv.congr hs ⟨hst ▸ hs.wf.store, fun t' => hh t' ▸ hs.wf.ascending t'⟩
      (by rw [hst]) hh fun t' c' es h' => ?_
    by_cases htt : t' = t
    · rw [hth, htt, Function.update_self] at h'
      cases c <;> cases h'
    · rw [hth, Function.update_of_ne htt] at h'
      exact hs.register t' c' es h'
  | step t => exact flushInv_step hs hc hact

/-- A flush drains the second value of a key and registers its table while the flush that
    drained the first value waits. -/
def overtakenFlush : List Act :=
  [.call 0 (.put (.singleton 1) (.singleton 1)), .step 0, .step 0, .step 0, .call 1 .flush,
    .step 1, .call 0 (.put (.singleton 1) (.singleton 2)), .step 0, .step 0, .step 0,
    .call 2 .flush, .step 2, .step 2, .step 2, .step 2, .step 1, .step 1, .step 1]

theorem flush_overtakes : ∃ (s : Sys BTreeMemtable) (log : FlushLog),
    overtakenFlush.foldlM actFlush (ofEngine (.open_ .empty BTreeMemtable.new
      ⟨4 * 1024 * 1024⟩), .empty) = some (s, log) ∧ ¬ InRecencyOrder s log ∧
      LsmEngine.getSstable s.store (.singleton 1) = .ok (some (.singleton 1)) := by
  refine ⟨_, _, rfl, fun h => ?_, rfl⟩
  have := List.pairwise_pair.1 h.ordered ⟨.singleton 1, rfl, rfl⟩
  exact absurd this (by decide)

/-- Two flushes one after the other. -/
def flushTwice : List Act :=
  [.call 0 (.put (.singleton 1) (.singleton 1)), .step 0, .step 0, .step 0, .call 1 .flush,
    .step 1, .step 1, .step 1, .step 1, .call 0 (.put (.singleton 1) (.singleton 2)), .step 0,
    .step 0, .step 0, .call 1 .flush, .step 1, .step 1, .step 1, .step 1]

theorem run_inRecencyOrder_flushTwice : ∃ (s : Sys BTreeMemtable) (log : FlushLog),
    flushTwice.foldlM actFlush (ofEngine (.open_ .empty BTreeMemtable.new
      ⟨4 * 1024 * 1024⟩), .empty) = some (s, log) ∧ InRecencyOrder s log := by
  refine ⟨_, _, rfl, run_inRecencyOrder
    (show flushTwice.foldlM actFlush (ofEngine (.open_ .empty BTreeMemtable.new
      ⟨4 * 1024 * 1024⟩), .empty) = some _ from rfl) ?_⟩
  iterate 18
    refine .cons rfl (fun t i ht hi => ⟨?_, fun t' j htt hj => ?_⟩) ?_
    · rcases t with _ | _ | n
      · cases hi
      · cases hi <;> decide
      · cases ht
    · rcases t' with _ | _ | n
      · cases hj
      · rcases t with _ | _ | n
        · cases hi
        · exact absurd rfl htt
        · cases ht
      · cases hj
  trivial

end Lawful

end Sys

end Scry.Lsm
