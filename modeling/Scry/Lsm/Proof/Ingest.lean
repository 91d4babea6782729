/-
  Last writer wins across the memtable and directly ingested tables.

  The memtable always shadows the tables, so an ingested pair is seen only where the
  memtable does not hold another value of its key (`runBulk_lastWrite_iff`).
-/
import Scry.Lsm.Ingest
import Scry.Lsm.Proof.Engine

namespace Scry.Lsm

variable {M : Type} [Memtable M]

/-! ## Stores without compactions -/

/-- All tables are in level 0. -/
def OnlyLevel0 (s : Store) : Prop := ∀ i, i ≠ 0 → s.tables i = []

/-- Fewer tables than trigger a compaction, all of them in level 0. -/
structure Few (s : Store) : Prop where
  count : s.manifest.levelCount 0 < maxTablesPerLevel
  level : OnlyLevel0 s

namespace Few
variable {s : Store}

theorem levelCount_lt (h : Few s) (i : ℕ) : s.manifest.levelCount i < maxTablesPerLevel := by
  by_cases hi : i = 0
  · rw [hi]; exact h.count
  · rw [Store.levelCount_eq, h.level i hi]; exact Nat.succ_pos 3

theorem maybeCompact (h : Few s) : maybeCompact s = .ok s :=
  foldlM_compactIfFull h.levelCount_lt _

theorem faithfulPass (h : Few s) : FaithfulPass s := by
  intro i s' _ hrun hfull
  rw [foldlM_compactIfFull h.levelCount_lt] at hrun
  cases hrun
  exact absurd hfull (not_le.2 (h.levelCount_lt i))

end Few

theorem onlyLevel0_addTable {s : Store} (hs : s.WF) (h : OnlyLevel0 s) {es : List Entry}
    (ha : Ascending es) : OnlyLevel0 (LsmEngine.addTable s es) := by
  intro i hi
  rw [(addTable_spec hs ha).2.2, if_neg hi]
  exact h i hi

/-! ## Ingestion -/

/-- The store on which the compaction pass of an operation runs, if there is one. -/
def bulkInput (e : LsmEngine M) : BulkOp → Option Store
  | .write op => compactionInput e op
  | .ingestSorted pairs => if pairs.isEmpty then none else some (LsmEngine.addTable e.store pairs)

/-- An accepted list ascends, and the writer received all of it. -/
theorem ingestPairs_ok {pairs : List Entry} :
    ∀ {w w' : SsTableWriter} {prevKey : Option Bytes},
      LsmEngine.ingestPairs w prevKey pairs = .ok w' →
      w' = LsmEngine.writeAll w pairs ∧ Ascending pairs ∧
        ∀ prev ∈ prevKey, ∀ a ∈ pairs, prev < a.1 := by
  induction pairs with
  | nil =>
    intro w w' prevKey h
    cases h
    exact ⟨rfl, ascending_nil, fun _ _ a ha => nomatch ha⟩
  | cons a rest ih =>
    obtain ⟨key, value⟩ := a
    intro w w' prevKey h
    rw [LsmEngine.ingestPairs] at h
    split_ifs at h with hprev
    obtain ⟨h₁, h₂, h₃⟩ := ih h
    refine ⟨h₁, ascending_cons.2 ⟨h₃ key rfl, h₂⟩, ?_⟩
    rintro prev rfl a ha
    have hlt : prev < key := by simpa using hprev
    rcases List.mem_cons.1 ha with rfl | ha
    · exact hlt
    · exact hlt.trans (h₃ key rfl a ha)

theorem ingestPairs_of_ascending {pairs : List Entry} :
    ∀ {w : SsTableWriter} {prevKey : Option Bytes}, Ascending pairs →
      (∀ prev ∈ prevKey, ∀ a ∈ pairs, prev < a.1) →
      LsmEngine.ingestPairs w prevKey pairs = .ok (LsmEngine.writeAll w pairs) := by
  induction pairs with
  | nil => exact fun _ _ => rfl
  | cons a rest ih =>
    obtain ⟨key, value⟩ := a
    intro w prevKey hl hprev
    obtain ⟨hlt, hl⟩ := ascending_cons.1 hl
    rw [LsmEngine.ingestPairs, if_neg]
    · exact ih hl (fun prev hp => by cases hp; exact hlt)
    · cases prevKey with
      | none => exact Bool.false_ne_true
      | some prev => simpa using hprev prev rfl _ List.mem_cons_self

/-- **An ingestion of no pairs** leaves the tables as they are. -/
theorem ingestSorted_nil {e : LsmEngine M} (hs : e.store.WF) :
    ∃ s, e.applyBulk (.ingestSorted []) = .ok { e with store := s } ∧ s.WF ∧
      ∀ i, s.tables i = e.store.tables i := by
  obtain ⟨hwf, -, htab⟩ := Store.create_spec hs 0
  refine ⟨⟨(e.store.create 0).manifest, ((SsTableWriter.new e.store.disk ⟨0,
    e.store.manifest.nextId⟩).1.finish (e.store.create 0).disk).2.remove
      ⟨0, e.store.manifest.nextId⟩⟩, rfl, ?_⟩
  -- the file that was created is none of those registered
  have hd : ∀ i, ∀ t ∈ (e.store.create 0).manifest.level i,
      (((SsTableWriter.new e.store.disk ⟨0, e.store.manifest.nextId⟩).1.finish
        (e.store.create 0).disk).2.remove ⟨0, e.store.manifest.nextId⟩) t.path =
        (e.store.create 0).disk t.path := by
    intro i t ht
    have hid := (hs i t ht).id_lt
    have hne : t.path ≠ ⟨0, e.store.manifest.nextId⟩ := by
      rw [(hs i t ht).path]
      exact fun he => hid.ne (SstPath.mk.inj he).2
    exact (if_neg hne).trans (Disk.write_of_ne _ _ hne)
  set s : Store := ⟨(e.store.create 0).manifest, ((SsTableWriter.new e.store.disk ⟨0,
    e.store.manifest.nextId⟩).1.finish (e.store.create 0).disk).2.remove
      ⟨0, e.store.manifest.nextId⟩⟩
  exact ⟨fun i => (Store.of_files s hwf le_rfl (hd i)).1,
    fun i => (Store.of_files s hwf le_rfl (hd i)).2.trans (htab i)⟩

/-- An ingestion of pairs in order adds them as a table. -/
theorem ingestSorted_eq {e : LsmEngine M} {pairs : List Entry} (hne : pairs ≠ [])
    (ha : Ascending pairs) : e.applyBulk (.ingestSorted pairs) =
      ((maybeCompact (LsmEngine.addTable e.store pairs)).mapError .io).map
        fun store => { e with store := store } := by
  set w := (SsTableWriter.new e.store.disk ⟨0, e.store.manifest.nextId⟩).1 with hw
  have hstep : e.applyBulk (.ingestSorted pairs) = (do
      let writer ← LsmEngine.ingestPairs w none pairs
      if writer.entryCount > 0 then
        let store ← (maybeCompact ⟨(e.store.create 0).manifest.add ⟨e.store.manifest.nextId, 0,
          ⟨0, e.store.manifest.nextId⟩, writer.entryCount, writer.minKey.getD .empty,
          writer.maxKey.getD .empty⟩,
          (e.store.create 0).disk.write writer.path (.finished writer.entries)⟩).mapError .io
        return ({ e with store := store }, writer.entryCount)
      else
        return ({ e with store := ⟨(e.store.create 0).manifest,
          ((e.store.create 0).disk.write writer.path (.finished writer.entries)).remove
            ⟨0, e.store.manifest.nextId⟩⟩ }, writer.entryCount) : Result (LsmEngine M × ℕ)).map
        Prod.fst := rfl
  obtain ⟨hok, hes, -⟩ := writeAll_spec w (SsTableWriter.Ok.new _ _) pairs
  have hcount : (LsmEngine.writeAll w pairs).entryCount > 0 := by
    rw [hok.count, hes]
    simpa [hw, SsTableWriter.new] using List.length_pos_iff_ne_nil.2 hne
  rw [hstep, ingestPairs_of_ascending ha fun _ hp => by cases hp]
  change Except.map Prod.fst (if (LsmEngine.writeAll w pairs).entryCount > 0 then _ else _) = _
  rw [if_pos hcount]
  change Except.map Prod.fst (((maybeCompact (LsmEngine.addTable e.store pairs)).mapError
    Error.io).bind fun store => .ok ({ e with store := store }, _)) = _
  cases maybeCompact (LsmEngine.addTable e.store pairs) <;> rfl

/-- A successful ingestion of pairs adds them as a table. -/
theorem ingestSorted_cons {e e' : LsmEngine M} {pairs : List Entry} (hne : pairs ≠ [])
    (h : e.applyBulk (.ingestSorted pairs) = .ok e') :
    Ascending pairs ∧ ∃ s, maybeCompact (LsmEngine.addTable e.store pairs) = .ok s ∧
      e' = { e with store := s } := by
  have ha : Ascending pairs := by
    obtain ⟨f, hf⟩ : ∃ f, e.applyBulk (.ingestSorted pairs) =
        ((LsmEngine.ingestPairs (SsTableWriter.new e.store.disk
          ⟨0, e.store.manifest.nextId⟩).1 none pairs).bind f).map Prod.fst := ⟨_, rfl⟩
    rw [hf] at h
    cases hp : LsmEngine.ingestPairs (SsTableWriter.new e.store.disk
      ⟨0, e.store.manifest.nextId⟩).1 none pairs with
    | error err => rw [hp] at h; cases h
    | ok writer => exact (ingestPairs_ok hp).2.1
  rw [ingestSorted_eq hne ha] at h
  refine ⟨ha, ?_⟩
  cases hc : maybeCompact (LsmEngine.addTable e.store pairs) with
  | error err => rw [hc] at h; cases h
  | ok s => rw [hc] at h; cases h; exact ⟨s, rfl, rfl⟩

/-! ## Steps -/

/-- What an operation does to the value of `k`. -/
def BulkOp.effect (k : Bytes) (v : Option Bytes) : BulkOp → Option Bytes
  | .write op => op.effect k v
  | .ingestSorted pairs => (pairs.lookup k).or v

/-- The most recent write of `k` by either path. -/
def lastBulkWrite (ops : List BulkOp) (k : Bytes) : Option Bytes :=
  ops.foldl (BulkOp.effect k) none

/-- No value that an operation writes is empty. -/
def BulkOp.NonEmpty : BulkOp → Prop
  | .write op => ∀ k v, op = .put k v → v ≠ .empty
  | .ingestSorted pairs => ∀ a ∈ pairs, a.2 ≠ .empty

/-- The strings of an operation fit their length fields, and no value that it writes is
    empty. -/
def BulkOp.Proper (op : BulkOp) : Prop := op.Short ∧ op.NonEmpty

/-- An operation finds fewer L0 tables than trigger a compaction. -/
def BelowTrigger (e : LsmEngine M) (op : BulkOp) : Prop :=
  ∀ s ∈ bulkInput e op, s.manifest.levelCount 0 < maxTablesPerLevel

/-- No ingested pair is shadowed: the memtable holds no other value of its key. -/
def Unshadowed (e : LsmEngine M) : BulkOp → Prop
  | .write _ => True
  | .ingestSorted pairs =>
    ∀ a ∈ pairs, Memtable.get e.memtable a.1 = none ∨ Memtable.get e.memtable a.1 = some a.2

section Lawful
variable [LawfulMemtable M]

theorem flushMemtable_onlyLevel0 {e e' : LsmEngine M} (hs : e.store.WF)
    (h₀ : OnlyLevel0 e.store)
    (hf : ∀ s ∈ flushInput e, s.manifest.levelCount 0 < maxTablesPerLevel)
    (h : e.flushMemtable = .ok e') :
    OnlyLevel0 e'.store ∧ ∀ s ∈ flushInput e, FaithfulPass s := by
  unfold flushInput at hf ⊢
  rw [flushMemtable_eq] at h
  split_ifs at h with hempty
  · cases h
    exact ⟨h₀, fun s hs => by rw [if_pos hempty] at hs; cases hs⟩
  · rw [if_neg hempty] at hf ⊢
    have hasc : Ascending (Memtable.drainSorted e.memtable).1 :=
      LawfulMemtable.drain_ascending e.memtable
    have hfew : Few (LsmEngine.addTable e.store (Memtable.drainSorted e.memtable).1) :=
      ⟨hf _ rfl, onlyLevel0_addTable hs h₀ hasc⟩
    rw [hfew.maybeCompact] at h
    cases h
    exact ⟨hfew.level, fun s hs => by cases hs; exact hfew.faithfulPass⟩

/-- An operation of the memtable path changes the answers as it says. -/
theorem apply_effect {e e' : LsmEngine M} {op : Op} (hs : e.store.WF) (h₀ : OnlyLevel0 e.store)
    (hv : ∀ k v, op = .put k v → v ≠ .empty) (hf : BelowTrigger e (.write op))
    (h : e.apply op = .ok e') :
    e'.store.WF ∧ OnlyLevel0 e'.store ∧ ∀ k, answer (e'.view k) = op.effect k (answer (e.view k)) := by
  obtain ⟨e₁, hrun, hs₁, -, hans⟩ := apply_spec hs op hv
  obtain rfl := Except.ok.inj (hrun.symm.trans h)
  have key : OnlyLevel0 e₁.store ∧ ∀ s ∈ compactionInput e op, FaithfulPass s := by
    cases op with
    | flush => exact flushMemtable_onlyLevel0 hs h₀ hf h
    | delete key => cases h; exact ⟨h₀, fun s hs => absurd hs (Option.not_mem_none s)⟩
    | put key value =>
      have hf' : ∀ s ∈ compactionInput e (.put key value),
        s.manifest.levelCount 0 < maxTablesPerLevel := hf
      have happly : e.apply (.put key value) = LsmEngine.maybeFlush
        { e with wal := e.wal ++ [.put key value]
                 memtable := Memtable.insert e.memtable key value } := rfl
      rw [happly, LsmEngine.maybeFlush] at h
      rw [compactionInput] at hf' ⊢
      split_ifs at h hf' ⊢ with hfull
      · exact flushMemtable_onlyLevel0 (e := { e with
          wal := e.wal ++ [.put key value]
          memtable := Memtable.insert e.memtable key value }) hs h₀ hf' h
      · cases h; exact ⟨h₀, fun s hs => absurd hs (Option.not_mem_none s)⟩
  exact ⟨hs₁, key.1, hans key.2⟩

omit [LawfulMemtable M] in
/-- An ingestion changes the tables only. -/
theorem ingestSorted_view {e e' : LsmEngine M} {pairs : List Entry} (hs : e.store.WF)
    (h₀ : OnlyLevel0 e.store) (hf : BelowTrigger e (.ingestSorted pairs))
    (h : e.applyBulk (.ingestSorted pairs) = .ok e') :
    e'.store.WF ∧ OnlyLevel0 e'.store ∧ Ascending pairs ∧
      ∀ k, e'.view k = (Memtable.get e.memtable k).or ((pairs.lookup k).or (e.store.version k)) := by
  by_cases hne : pairs = []
  · subst hne
    obtain ⟨s, hrun, hwf, htab⟩ := ingestSorted_nil hs
    obtain rfl := Except.ok.inj (hrun.symm.trans h)
    refine ⟨hwf, fun i hi => (htab i).trans (h₀ i hi), ascending_nil, fun k => ?_⟩
    rw [LsmEngine.view, version_congr htab]
    rfl
  · obtain ⟨hasc, s, hrun, rfl⟩ := ingestSorted_cons hne h
    have hfew : Few (LsmEngine.addTable e.store pairs) :=
      ⟨hf _ (if_neg (by simpa using hne)), onlyLevel0_addTable hs h₀ hasc⟩
    rw [hfew.maybeCompact] at hrun
    cases hrun
    refine ⟨(addTable_spec hs hasc).1, hfew.level, hasc, fun k => ?_⟩
    rw [LsmEngine.view, version_addTable hs hasc]

omit [LawfulMemtable M] in
/-- **An ingestion is seen exactly when no pair is shadowed.** -/
theorem ingestSorted_seen_iff {e e' : LsmEngine M} {pairs : List Entry} (hs : e.store.WF)
    (h₀ : OnlyLevel0 e.store) (hv : ∀ a ∈ pairs, a.2 ≠ .empty)
    (hf : BelowTrigger e (.ingestSorted pairs)) (h : e.applyBulk (.ingestSorted pairs) = .ok e') :
    (∀ k, answer (e'.view k) = (pairs.lookup k).or (answer (e.view k))) ↔
      Unshadowed e (.ingestSorted pairs) := by
  obtain ⟨-, -, hasc, hview⟩ := ingestSorted_view hs h₀ hf h
  constructor
  · rintro hseen ⟨k, v⟩ ha
    have hl : pairs.lookup k = some v := hasc.lookup_iff.2 ha
    have hk := hseen k
    rw [hview, hl, Option.some_or, answer_or] at hk
    cases hm : Memtable.get e.memtable k with
    | none => exact Or.inl rfl
    | some v' =>
      rw [hm] at hk
      exact Or.inr (congrArg some (answer_inj (hk.trans (answer_of_ne (hv _ ha)).symm)))
  · intro hun k
    rw [hview, LsmEngine.view]
    cases hl : pairs.lookup k with
    | none => rfl
    | some v =>
      have ha : (k, v) ∈ pairs := hasc.lookup_iff.1 hl
      rw [Option.some_or, Option.some_or, answer_or]
      rcases hun _ ha with hm | hm <;> rw [hm]
      · exact answer_of_ne (hv _ ha)
      · exact answer_of_ne (hv _ ha)

/-! ## Runs -/

/-- Every operation of a run meets a condition on the state it finds. -/
def Throughout (P : LsmEngine M → BulkOp → Prop) (e : LsmEngine M) : List BulkOp → Prop
  | [] => True
  | op :: ops => P e op ∧ ∀ e', e.applyBulk op = .ok e' → Throughout P e' ops

/-- In every state of a run the lookups answer with the most recent write, given the
    answers at its start. -/
def LastWins (e : LsmEngine M) (start : Bytes → Option Bytes) (ops : List BulkOp) : Prop :=
  ∀ pre, pre <+: ops → ∃ e', e.runBulk pre = .ok e' ∧
    ∀ k, e'.get k = .ok (pre.foldl (BulkOp.effect k) (start k))

omit [LawfulMemtable M] in
theorem lastWins_nil {e : LsmEngine M} {start : Bytes → Option Bytes} :
    LastWins e start [] ↔ ∀ k, e.get k = .ok (start k) := by
  constructor
  · intro h
    obtain ⟨e', hrun, hget⟩ := h [] (List.prefix_refl _)
    cases hrun
    exact hget
  · rintro h pre hpre
    rw [List.prefix_nil.1 hpre]
    exact ⟨e, rfl, h⟩

omit [LawfulMemtable M] in
theorem lastWins_cons {e e' : LsmEngine M} {start : Bytes → Option Bytes} {op : BulkOp}
    {ops : List BulkOp} (h : e.applyBulk op = .ok e') :
    LastWins e start (op :: ops) ↔ (∀ k, e.get k = .ok (start k)) ∧
      LastWins e' (fun k => op.effect k (start k)) ops := by
  have hrun : ∀ pre, e.runBulk (op :: pre) = e'.runBulk pre := fun pre => by
    rw [LsmEngine.runBulk, List.foldlM_cons, h]; rfl
  constructor
  · intro hl
    refine ⟨?_, fun pre hpre => ?_⟩
    · obtain ⟨e₁, hrun₁, hget⟩ := hl [] (List.nil_prefix)
      cases hrun₁
      exact hget
    · obtain ⟨e₁, hrun₁, hget⟩ := hl (op :: pre) (List.cons_prefix_cons.2 ⟨rfl, hpre⟩)
      exact ⟨e₁, (hrun pre).symm.trans hrun₁, hget⟩
  · rintro ⟨hstart, hl⟩ pre hpre
    cases pre with
    | nil => exact ⟨e, rfl, hstart⟩
    | cons op' pre =>
      obtain ⟨rfl, hpre'⟩ := List.cons_prefix_cons.1 hpre
      obtain ⟨e₁, hrun₁, hget⟩ := hl pre hpre'
      exact ⟨e₁, (hrun pre).trans hrun₁, hget⟩

omit [LawfulMemtable M] in
theorem LastWins.start {e : LsmEngine M} {start : Bytes → Option Bytes} {ops : List BulkOp}
    (h : LastWins e start ops) (k : Bytes) : e.get k = .ok (start k) := by
  obtain ⟨e', hrun, hget⟩ := h [] List.nil_prefix
  cases hrun
  exact hget k

/-- **Run lemma**: from answers that are right, they stay right exactly as long as no
    ingested pair is shadowed. -/
theorem lastWins_iff {ops : List BulkOp} :
    ∀ {e e' : LsmEngine M} {start : Bytes → Option Bytes}, e.store.WF → OnlyLevel0 e.store →
      (∀ k, answer (e.view k) = start k) → (∀ op ∈ ops, op.NonEmpty) →
      Throughout BelowTrigger e ops → e.runBulk ops = .ok e' →
      (LastWins e start ops ↔ Throughout Unshadowed e ops) := by
  induction ops with
  | nil =>
    intro e e' start hs _ hstart _ _ _
    exact iff_of_true (lastWins_nil.2 fun k => by rw [get_eq hs, hstart]) trivial
  | cons op ops ih =>
    intro e e' start hs h₀ hstart hv hf hrun
    rw [LsmEngine.runBulk, List.foldlM_cons] at hrun
    cases h₁ : e.applyBulk op with
    | error err => rw [h₁] at hrun; cases hrun
    | ok e₁ =>
      rw [h₁] at hrun
      have hget : ∀ k, e.get k = .ok (start k) := fun k => by rw [get_eq hs, hstart]
      have hv' : ∀ op ∈ ops, op.NonEmpty := fun op h => hv op (List.mem_cons_of_mem _ h)
      have hvop := hv op List.mem_cons_self
      -- what remains once the operation is known to have had its effect
      have go : e₁.store.WF → OnlyLevel0 e₁.store →
          ((∀ k, answer (e₁.view k) = op.effect k (start k)) ↔ Unshadowed e op) →
          (LastWins e start (op :: ops) ↔ Throughout Unshadowed e (op :: ops)) := by
        intro hs₁ h₀₁ hseen
        rw [lastWins_cons h₁]
        constructor
        · rintro ⟨-, hl⟩
          have hstart₁ : ∀ k, answer (e₁.view k) = op.effect k (start k) := fun k => by
            have := hl.start k
            rw [get_eq hs₁] at this
            exact Except.ok.inj this
          refine ⟨hseen.1 hstart₁, fun e₂ h₂ => ?_⟩
          obtain rfl := Except.ok.inj (h₁.symm.trans h₂)
          exact (ih hs₁ h₀₁ hstart₁ hv' (hf.2 e₁ h₁) hrun).1 hl
        · rintro ⟨hun, hrest⟩
          exact ⟨hget, (ih hs₁ h₀₁ (hseen.2 hun) hv' (hf.2 e₁ h₁) hrun).2 (hrest e₁ h₁)⟩
      cases op with
      | write op =>
        obtain ⟨hs₁, h₀₁, hans⟩ := apply_effect hs h₀ hvop hf.1 h₁
        refine go hs₁ h₀₁ (iff_of_true (fun k => ?_) trivial)
        rw [hans, hstart]
        rfl
      | ingestSorted pairs =>
        obtain ⟨hs₁, h₀₁, -, -⟩ := ingestSorted_view hs h₀ hf.1 h₁
        refine go hs₁ h₀₁ ?_
        rw [← ingestSorted_seen_iff hs h₀ hvop hf.1 h₁]
        simp only [hstart]
        rfl

/-- **Last writer wins across both write paths exactly when no ingested pair is
    shadowed.**  Below the compaction trigger the lookups of every state of a run, whose
    strings are short and whose values are not empty, answer with the most recent write,
    whichever path it took, if and only if no ingestion finds another value of one of its
    keys in the memtable. -/
theorem runBulk_lastWrite_iff {m : M} (hm : ∀ k, Memtable.get m k = none) (config : EngineConfig)
    {ops : List BulkOp} {e : LsmEngine M} (hops : ∀ op ∈ ops, op.Proper)
    (hf : Throughout BelowTrigger (LsmEngine.open_ Dir.empty m config) ops)
    (hrun : (LsmEngine.open_ Dir.empty m config).runBulk ops = .ok e) :
    (∀ pre, pre <+: ops → ∃ e', (LsmEngine.open_ Dir.empty m config).runBulk pre = .ok e' ∧
      ∀ k, e'.get k = .ok (lastBulkWrite pre k)) ↔
    Throughout Unshadowed (LsmEngine.open_ Dir.empty m config) ops := by
  obtain ⟨hs, -, hview⟩ := open_empty_spec hm config
  refine lastWins_iff hs (fun i _ => Store.tables_new _ _ i) (fun k => ?_)
    (fun op h => (hops op h).2) hf hrun
  rw [hview]
  rfl

/-- Ingested pairs, one of which is overwritten by a put, then a flush. -/
def mixedIngestAndPut : List BulkOp :=
  [.ingestSorted [(.singleton 1, .singleton 1), (.singleton 3, .singleton 1)],
    .write (.put (.singleton 2) (.singleton 2)), .write (.put (.singleton 1) (.singleton 2)),
    .write .flush]

theorem runBulk_lastWrite_iff_mixedIngestAndPut :
    (∀ pre, pre <+: mixedIngestAndPut → ∃ e',
      (LsmEngine.open_ Dir.empty BTreeMemtable.new {}).runBulk pre = .ok e' ∧
      ∀ k, e'.get k = .ok (lastBulkWrite pre k)) ↔
    Throughout Unshadowed (LsmEngine.open_ Dir.empty BTreeMemtable.new {}) mixedIngestAndPut := by
  have hput : ∀ {n m : ℕ} (k v : Bytes), Op.put (.singleton n) (.singleton m) = .put k v →
      v ≠ .empty := by
    intro n m k v h
    obtain ⟨-, rfl⟩ := Op.put.inj h
    exact List.cons_ne_nil _ _
  have hops : ∀ op ∈ mixedIngestAndPut, op.Proper := by
    intro op hop
    simp only [mixedIngestAndPut, List.mem_cons, List.not_mem_nil, or_false] at hop
    rcases hop with rfl | rfl | rfl | rfl
    · refine ⟨fun a ha => ?_, fun a ha => ?_⟩ <;>
        simp only [List.mem_cons, List.not_mem_nil, or_false] at ha
      · rcases ha with rfl | rfl <;> decide
      · rcases ha with rfl | rfl <;> exact List.cons_ne_nil _ _
    · exact ⟨And.intro (by decide) (by decide), hput⟩
    · exact ⟨And.intro (by decide) (by decide), hput⟩
    · exact ⟨trivial, fun k v h => by cases h⟩
  have hstep : ∀ {e e' : LsmEngine BTreeMemtable} {op : BulkOp} {ops : List BulkOp},
      e.applyBulk op = .ok e' → BelowTrigger e op → Throughout BelowTrigger e' ops →
      Throughout BelowTrigger e (op :: ops) := by
    intro e e' op ops h hb ht
    exact ⟨hb, fun e₁ h₁ => Except.ok.inj (h.symm.trans h₁) ▸ ht⟩
  refine runBulk_lastWrite_iff (fun _ => rfl) {} hops ?_ rfl
  refine hstep rfl (fun s hs => ?_) (hstep rfl (fun s hs => ?_) (hstep rfl (fun s hs => ?_)
    (hstep rfl (fun s hs => ?_) trivial)))
  · cases hs; decide
  · cases hs
  · cases hs
  · cases hs; decide

/-- A put, then an ingestion of another value of the same key: lookups answer with the
    older value, before and after a flush. -/
theorem ingest_shadowed : ∃ e e' : LsmEngine BTreeMemtable,
    (LsmEngine.open_ Dir.empty BTreeMemtable.new {}).runBulk
      [.write (.put (.singleton 1) (.singleton 1)),
        .ingestSorted [(.singleton 1, .singleton 2)]] = .ok e ∧
    e.applyBulk (.write .flush) = .ok e' ∧ e'.store.manifest.levelCount 0 < maxTablesPerLevel ∧
    lastBulkWrite [.write (.put (.singleton 1) (.singleton 1)),
        .ingestSorted [(.singleton 1, .singleton 2)]] (.singleton 1) = some (.singleton 2) ∧
    e.get (.singleton 1) = .ok (some (.singleton 1)) ∧
    e'.get (.singleton 1) = .ok (some (.singleton 1)) :=
  ⟨_, _, rfl, rfl, by decide, by decide, by decide, by decide⟩

end Lawful

end Scry.Lsm
