/-
  The registered tables.

  Flushes, ingestions and compactions register tables whose metadata is exact, under ids
  that are never used twice (`runAny_sound`).  A compaction takes no notice of the
  tables that its target level holds, so that their key ranges overlap unless the merged
  keys happen to fall beside them (`run_nonOverlapping_iff`).
-/
import Scry.Lib.Run
import Scry.Lsm.Proof.Cascade
import Scry.Lsm.Proof.Ingest

namespace Scry.Lsm

namespace Store

/-- The metadata of a table is exact: its file ascends, and the recorded count and range
    are those of the entries in it. -/
structure Exact (s : Store) (t : SsTableMeta) : Prop where
  file : s.disk t.path = some (.finished (s.entries t))
  ascending : Ascending (s.entries t)
  count : t.entryCount = (s.entries t).length
  min : (s.entries t).head?.map Prod.fst = some t.minKey
  max : (s.entries t).getLast?.map Prod.fst = some t.maxKey

/-- No two registered tables have the same id. -/
structure IdsDistinct (m : Manifest) : Prop where
  within (L : ℕ) : (m.level L).Pairwise fun t u => t.id ≠ u.id
  across {L L' : ℕ} : L ≠ L' → ∀ t ∈ m.level L, ∀ u ∈ m.level L', t.id ≠ u.id

/-- A well-formed store with exact tables. -/
structure Sound (s : Store) : Prop where
  wf : s.WF
  exact {L : ℕ} {t : SsTableMeta} : t ∈ s.manifest.level L → s.Exact t
  ids : IdsDistinct s.manifest

variable {s s' : Store} {t : SsTableMeta} {L : ℕ}

theorem Exact.of_disk (h : s.Exact t) (hd : s'.disk t.path = s.disk t.path) : s'.Exact t := by
  have he : s'.entries t = s.entries t := by rw [entries, hd, ← entries]
  exact ⟨by rw [hd, he]; exact h.file, he ▸ h.ascending, he ▸ h.count, he ▸ h.min, he ▸ h.max⟩

theorem Exact.ne_nil (h : s.Exact t) : s.entries t ≠ [] := by
  intro he
  have := h.min
  rw [he] at this
  cases this

/-- The recorded range is that of the keys. -/
theorem Exact.range (h : s.Exact t) : (∃ a ∈ s.entries t, a.1 = t.minKey) ∧
    (∃ a ∈ s.entries t, a.1 = t.maxKey) ∧
    ∀ a ∈ s.entries t, t.minKey ≤ a.1 ∧ a.1 ≤ t.maxKey := by
  obtain ⟨a, ha, hmin⟩ := Option.map_eq_some_iff.1 h.min
  obtain ⟨b, hb, hmax⟩ := Option.map_eq_some_iff.1 h.max
  refine ⟨⟨a, List.mem_of_head? ha, hmin⟩, ⟨b, List.mem_of_getLast? hb, hmax⟩, fun c hc => ⟨?_, ?_⟩⟩
  · obtain ⟨l, hl⟩ := List.head?_eq_some_iff.1 ha
    rw [← hmin]
    exact (hl ▸ h.ascending).head_le (hl ▸ hc)
  · obtain ⟨l, hl⟩ := List.getLast?_eq_some_iff.1 hb
    rw [← hmax]
    exact (hl ▸ h.ascending).le_getLast (hl ▸ hc)

theorem sound_new (n : ℕ) (d : Disk) : (⟨Manifest.new n, d⟩ : Store).Sound := by
  have hlevel := Manifest.level_new n
  refine ⟨wf_new n d, fun {L t} ht => ?_, fun L => ?_, fun {L L'} _ t ht => ?_⟩
  · rw [hlevel] at ht
    cases ht
  · rw [hlevel]
    exact List.Pairwise.nil
  · rw [hlevel] at ht
    cases ht

/-- The registered tables keep their files. -/
theorem Sound.of_disk (hs : s.Sound) (hlevel : ∀ i, s'.manifest.level i = s.manifest.level i)
    (hid : s.manifest.nextId ≤ s'.manifest.nextId)
    (hd : ∀ i, ∀ t ∈ s.manifest.level i, s'.disk t.path = s.disk t.path) : s'.Sound := by
  refine ⟨fun i t ht => ?_, fun {L t} ht => ?_, fun L => ?_, fun {L L'} hne t ht u hu => ?_⟩
  · rw [hlevel] at ht
    exact (of_files s' hs.wf hid (hd i)).1 t ht
  · rw [hlevel] at ht
    exact (hs.exact ht).of_disk (hd L t ht)
  · rw [hlevel]
    exact hs.ids.within L
  · rw [hlevel] at ht hu
    exact hs.ids.across hne t ht u hu

/-- A file that has never been registered is none of those registered. -/
theorem WF.path_ne (hs : s.WF) {i : ℕ} (ht : t ∈ s.manifest.level i) (L : ℕ) :
    t.path ≠ ⟨L, s.manifest.nextId⟩ := by
  rw [(hs i t ht).path]
  exact fun he => (hs i t ht).id_lt.ne (SstPath.mk.inj he).2

theorem Sound.create (hs : s.Sound) (L : ℕ) : (s.create L).Sound :=
  hs.of_disk (fun _ => rfl) (Nat.le_succ _) fun _ _ ht =>
    Disk.write_of_ne _ _ (hs.wf.path_ne ht L)

theorem level_clear (s : Store) (L i : ℕ) :
    (s.clear L).manifest.level i = if i = L then [] else s.manifest.level i := by
  rw [clear, Manifest.level_remove]
  split_ifs with hi
  · rw [hi]
    exact Manifest.filter_ids _
  · rfl

theorem Sound.clear (hs : s.Sound) (L : ℕ) : (s.clear L).Sound := by
  have hmem : ∀ {i t}, t ∈ (s.clear L).manifest.level i → i ≠ L ∧ t ∈ s.manifest.level i := by
    intro i t ht
    rw [level_clear] at ht
    split_ifs at ht with hi
    · cases ht
    · exact ⟨hi, ht⟩
  refine ⟨(clear_spec hs.wf L).1, fun {i t} ht => ?_, fun i => ?_, fun {i j} hne t ht u hu => ?_⟩
  · obtain ⟨hi, ht⟩ := hmem ht
    refine (hs.exact ht).of_disk ((Disk.foldl_remove _ _ _).trans (if_neg fun hm => ?_))
    obtain ⟨u, hu, he⟩ := List.mem_map.1 hm
    rw [(hs.wf L u hu).path, (hs.wf i t ht).path] at he
    exact hi (SstPath.mk.inj he).1.symm
  · rw [level_clear]
    split_ifs
    · exact List.Pairwise.nil
    · exact hs.ids.within i
  · exact hs.ids.across hne t (hmem ht).2 u (hmem hu).2

/-- The metadata that a finished writer is registered with. -/
def metaOf (L id : ℕ) (w : SsTableWriter) : SsTableMeta :=
  ⟨id, L, ⟨L, id⟩, w.entryCount, w.minKey.getD .empty, w.maxKey.getD .empty⟩

theorem level_register (s : Store) (L id : ℕ) (w : SsTableWriter) (i : ℕ) :
    (s.register L id w).manifest.level i =
      if i = L then s.manifest.level i ++ [metaOf L id w] else s.manifest.level i :=
  Manifest.level_add s.manifest (metaOf L id w) i

theorem entries_register (s : Store) (L id : ℕ) (w : SsTableWriter) :
    (s.register L id w).entries (metaOf L id w) = w.entries :=
  entries_eq (Disk.write_self _ _ _)

/-- The writer's bookkeeping is exact. -/
theorem exact_register {w : SsTableWriter} (hw : w.Ok) (ha : Ascending w.entries)
    (hne : w.entries ≠ []) (id : ℕ) : (s.register L id w).Exact (metaOf L id w) := by
  have he := entries_register s L id w
  refine ⟨?_, he ▸ ha, he ▸ hw.count, ?_, ?_⟩
  · rw [he]
    exact Disk.write_self _ _ _
  · rw [he, metaOf, hw.min]
    obtain ⟨a, l, hl⟩ := List.exists_cons_of_ne_nil hne
    rw [hl]
    rfl
  · rw [he, metaOf, hw.max, List.getLast?_eq_some_getLast hne]
    rfl

theorem Sound.register (hs : s.Sound) {L id : ℕ} {w : SsTableWriter} (hw : w.Ok)
    (ha : Ascending w.entries) (hne : w.entries ≠ []) (hid : id < s.manifest.nextId)
    (hfresh : ∀ i, ∀ t ∈ s.manifest.level i, t.id ≠ id) : (s.register L id w).Sound := by
  have hmem : ∀ {i t}, t ∈ (s.register L id w).manifest.level i →
      t ∈ s.manifest.level i ∨ i = L ∧ t = metaOf L id w := by
    intro i t ht
    rw [level_register] at ht
    split_ifs at ht with hi
    · exact (List.mem_append.1 ht).imp_right fun h => ⟨hi, List.mem_singleton.1 h⟩
    · exact Or.inl ht
  refine ⟨(register_spec hs.wf L id hw ha hid (hfresh L)).1, fun {i t} ht => ?_, fun i => ?_,
    fun {i j} hij t ht u hu => ?_⟩
  · rcases hmem ht with ht | ⟨-, rfl⟩
    · refine (hs.exact ht).of_disk (Disk.write_of_ne _ _ fun he => ?_)
      rw [(hs.wf i t ht).path] at he
      exact hfresh i t ht (SstPath.mk.inj he).2
    · exact exact_register hw ha hne id
  · rw [level_register]
    split_ifs
    · refine List.pairwise_append.2 ⟨hs.ids.within i, List.pairwise_singleton _ _, ?_⟩
      intro t ht u hu
      rw [List.mem_singleton.1 hu]
      exact hfresh i t ht
    · exact hs.ids.within i
  · rcases hmem ht with ht | ⟨hi, rfl⟩ <;> rcases hmem hu with hu | ⟨hj, rfl⟩
    · exact hs.ids.across hij t ht u hu
    · exact hfresh i t ht
    · exact (hfresh j u hu).symm
    · exact absurd (hi.trans hj.symm) hij

/-! ## Flushes and compactions -/

theorem Sound.addTable (hs : s.Sound) {es : List Entry} (ha : Ascending es) (hne : es ≠ []) :
    (LsmEngine.addTable s es).Sound := by
  obtain ⟨w, hok, hes, heq⟩ := addTable_eq s es
  rw [heq]
  exact (hs.create 0).register hok (hes.symm ▸ ha) (hes.symm ▸ hne) (Nat.lt_succ_self _)
    fun i t ht => (hs.wf i t ht).id_lt.ne

/-- What a compaction of a sound store leaves. -/
theorem Sound.compacted (hs : s.Sound) (L : ℕ) {w : SsTableWriter} (hw : w.Ok)
    (ha : Ascending w.entries) : (if w.entries.isEmpty then (s.create (L + 1)).clear L
      else ((s.create (L + 1)).clear L).register (L + 1) s.manifest.nextId w).Sound := by
  have hclear := (hs.create (L + 1)).clear L
  split_ifs with hempty
  · exact hclear
  · refine hclear.register hw ha (fun he => hempty (List.isEmpty_iff.2 he)) (Nat.lt_succ_self _)
      fun i t ht => ?_
    rw [level_clear] at ht
    split_ifs at ht
    · cases ht
    · exact (hs.wf i t ht).id_lt.ne

theorem Sound.compactIfFull (hs : s.Sound) (i : ℕ) :
    ∃ s', compactIfFull s i = .ok s' ∧ s'.Sound := by
  unfold Lsm.compactIfFull
  split_ifs with hfull
  · have hne : s.manifest.level i ≠ [] := by
      intro he
      rw [Manifest.levelCount, he] at hfull
      exact absurd hfull (by decide)
    obtain ⟨w, hw, ha, -, hrun⟩ := compactLevel_eq hs.wf hne
    exact ⟨_, hrun, hs.compacted i hw ha⟩
  · exact ⟨s, rfl, hs⟩

theorem Sound.maybeCompact (hs : s.Sound) : ∃ s', maybeCompact s = .ok s' ∧ s'.Sound :=
  maybeCompact_induct hs fun i _ _ _ h => h.compactIfFull i

end Store

/-! ## Operations -/

variable {M : Type} [Memtable M]

/-- The store on which the compaction pass of an operation runs, if there is one. -/
def passInput (e : LsmEngine M) : BulkOp → Option Store
  | .write op => compactionInput e op
  | .ingestSorted pairs =>
    if pairs.isEmpty ∨ ¬ Ascending pairs then none else some (LsmEngine.addTable e.store pairs)

/-- What an operation does to the store: it runs a pass on a store with one more table in
    level 0, or registers nothing. -/
structure Registers (e e' : LsmEngine M) (op : BulkOp) : Prop where
  pass (s : Store) : passInput e op = some s → ∃ es, Ascending es ∧ es ≠ [] ∧
    s = LsmEngine.addTable e.store es ∧ maybeCompact s = .ok e'.store
  quiet : passInput e op = none →
    (∀ i, e'.store.manifest.level i = e.store.manifest.level i) ∧
    e.store.manifest.nextId ≤ e'.store.manifest.nextId ∧
    ∀ p : SstPath, p ≠ ⟨0, e.store.manifest.nextId⟩ → e'.store.disk p = e.store.disk p

theorem Registers.of_same {e e' : LsmEngine M} {op : BulkOp} (h : passInput e op = none)
    (hs : e'.store = e.store) : Registers e e' op where
  pass s hp := by
    rw [h] at hp
    cases hp
  quiet _ := by
    rw [hs]
    exact ⟨fun _ => rfl, le_rfl, fun _ _ => rfl⟩

section Lawful
variable [LawfulMemtable M]

theorem flushMemtable_registers {e e₀ : LsmEngine M} (hs : e.store.Sound) {op : BulkOp}
    (hop : passInput e₀ op = flushInput e) (hstore : e.store = e₀.store) :
    ∃ e', e.flushMemtable = .ok e' ∧ Registers e₀ e' op := by
  rw [flushMemtable_eq]
  unfold flushInput at hop
  by_cases hempty : (Memtable.drainSorted e.memtable).1.isEmpty = true
  · rw [if_pos hempty] at hop ⊢
    exact ⟨_, rfl, .of_same hop hstore⟩
  · rw [if_neg hempty] at hop ⊢
    have ha : Ascending (Memtable.drainSorted e.memtable).1 :=
      LawfulMemtable.drain_ascending e.memtable
    have hne : (Memtable.drainSorted e.memtable).1 ≠ [] := fun h => hempty (List.isEmpty_iff.2 h)
    obtain ⟨s', hrun, -⟩ := (hs.addTable ha hne).maybeCompact
    rw [hrun]
    refine ⟨_, rfl, fun s hp => ?_, fun hp => ?_⟩
    · rw [hop] at hp
      cases hp
      exact ⟨_, ha, hne, by rw [hstore], hrun⟩
    · rw [hop] at hp
      cases hp

omit [LawfulMemtable M] in
theorem applyAny_of_ok {e e' : LsmEngine M} {op : BulkOp} (h : e.applyBulk op = .ok e') :
    e.applyAny op = some e' := by
  rw [LsmEngine.applyAny, h]

/-- The pairs are refused for their order only. -/
theorem ingestPairs_error {pairs : List Entry} {err : Error} :
    ∀ {w : SsTableWriter} {prevKey : Option Bytes},
      LsmEngine.ingestPairs w prevKey pairs = .error err → ∃ msg, err = .corruption msg := by
  induction pairs with
  | nil =>
    intro w prevKey h
    cases h
  | cons a rest ih =>
    intro w prevKey h
    rw [LsmEngine.ingestPairs] at h
    split_ifs at h with hprev
    · cases h
      exact ⟨_, rfl⟩
    · exact ih h

omit [LawfulMemtable M] in
/-- Pairs that do not ascend are refused. -/
theorem applyAny_refused {e : LsmEngine M} {pairs : List Entry} (ha : ¬ Ascending pairs) :
    e.applyAny (.ingestSorted pairs) = some e.ingestRefused := by
  set w := (SsTableWriter.new e.store.disk ⟨0, e.store.manifest.nextId⟩).1
  obtain ⟨f, hf⟩ : ∃ f, e.applyBulk (.ingestSorted pairs) =
      ((LsmEngine.ingestPairs w none pairs).bind f).map Prod.fst := ⟨_, rfl⟩
  cases hp : LsmEngine.ingestPairs w none pairs with
  | ok w' => exact absurd (ingestPairs_ok hp).2.1 ha
  | error err =>
    obtain ⟨msg, rfl⟩ := ingestPairs_error hp
    rw [LsmEngine.applyAny, hf, hp]
    rfl

/-- **Step lemma**: no operation fails on a sound store. -/
theorem applyAny_registers {e : LsmEngine M} (hs : e.store.Sound) (op : BulkOp) :
    ∃ e', e.applyAny op = some e' ∧ Registers e e' op := by
  cases op with
  | write op =>
    cases op with
    | flush =>
      have hflush : ∃ e', e.flushMemtable = .ok e' ∧ Registers e e' (.write .flush) :=
        flushMemtable_registers hs rfl rfl
      obtain ⟨e', hrun, hreg⟩ := hflush
      exact ⟨e', applyAny_of_ok hrun, hreg⟩
    | delete key => exact ⟨_, applyAny_of_ok rfl, .of_same rfl rfl⟩
    | put key value =>
      set e₁ : LsmEngine M := { e with wal := e.wal ++ [.put key value]
                                       memtable := Memtable.insert e.memtable key value }
      have happly : e.applyBulk (.write (.put key value)) = e₁.maybeFlush := rfl
      by_cases hfull : Memtable.approximateBytes e₁.memtable ≥ e₁.flushThreshold
      · have hflush : ∃ e', e₁.flushMemtable = .ok e' ∧ Registers e e' (.write (.put key value)) :=
          flushMemtable_registers (e := e₁) hs (if_pos hfull) rfl
        obtain ⟨e', hrun, hreg⟩ := hflush
        exact ⟨e', applyAny_of_ok (by rw [happly, LsmEngine.maybeFlush, if_pos hfull, hrun]), hreg⟩
      · refine ⟨e₁, applyAny_of_ok ?_, .of_same (if_neg hfull) rfl⟩
        rw [happly, LsmEngine.maybeFlush, if_neg hfull]
        rfl
  | ingestSorted pairs =>
    have hnew : ∀ p : SstPath, p ≠ ⟨0, e.store.manifest.nextId⟩ →
        (e.store.create 0).disk p = e.store.disk p := fun p hp => Disk.write_of_ne _ _ hp
    by_cases ha : Ascending pairs
    · by_cases hne : pairs = []
      · subst hne
        refine ⟨_, applyAny_of_ok rfl, ⟨fun s hp => ?_, fun _ =>
          ⟨fun _ => rfl, Nat.le_succ _, fun p hp => ?_⟩⟩⟩
        · cases hp
        · exact (if_neg hp).trans ((Disk.write_of_ne _ _ hp).trans (hnew p hp))
      · obtain ⟨s', hrun, -⟩ := (hs.addTable ha hne).maybeCompact
        have hpass : passInput e (.ingestSorted pairs) = some (LsmEngine.addTable e.store pairs) :=
          if_neg (by rw [List.isEmpty_iff, not_or, not_not]; exact ⟨hne, ha⟩)
        refine ⟨{ e with store := s' }, applyAny_of_ok (by rw [ingestSorted_eq hne ha, hrun]; rfl),
          fun s hp => ?_, fun hp => ?_⟩
        · rw [hpass] at hp
          cases hp
          exact ⟨pairs, ha, hne, rfl, hrun⟩
        · rw [hpass] at hp
          cases hp
    · refine ⟨_, applyAny_refused ha, ⟨fun s hp => ?_, fun _ =>
        ⟨fun _ => rfl, Nat.le_succ _, fun p hp => (if_neg hp).trans (hnew p hp)⟩⟩⟩
      rw [passInput, if_pos (Or.inr ha)] at hp
      cases hp

omit [LawfulMemtable M] in
theorem Registers.sound {e e' : LsmEngine M} {op : BulkOp} (hs : e.store.Sound)
    (h : Registers e e' op) : e'.store.Sound := by
  cases hp : passInput e op with
  | none =>
    obtain ⟨hlevel, hid, hd⟩ := h.quiet hp
    exact hs.of_disk hlevel hid fun i t ht => hd _ (hs.wf.path_ne ht 0)
  | some s =>
    obtain ⟨es, ha, hne, rfl, hrun⟩ := h.pass s hp
    obtain ⟨s', hrun', hs'⟩ := (hs.addTable ha hne).maybeCompact
    cases hrun.symm.trans hrun'
    exact hs'

/-- **Run lemma**: every run goes through, and leaves a sound store. -/
theorem runAny_sound {e : LsmEngine M} (hs : e.store.Sound) (ops : List BulkOp) :
    ∃ e', e.runAny ops = some e' ∧ e'.store.Sound := by
  induction ops generalizing e with
  | nil => exact ⟨e, rfl, hs⟩
  | cons op ops ih =>
    obtain ⟨e₁, hrun, hreg⟩ := applyAny_registers hs op
    obtain ⟨e₂, hrun', hs'⟩ := ih (hreg.sound hs)
    refine ⟨e₂, ?_, hs'⟩
    rw [LsmEngine.runAny, List.foldlM_cons, hrun]
    exact hrun'

end Lawful

/-! ## Overlaps in a level -/

/-- The key ranges of two tables are disjoint. -/
def Apart (t u : SsTableMeta) : Prop := t.maxKey < u.minKey ∨ u.maxKey < t.minKey

instance (t u : SsTableMeta) : Decidable (Apart t u) := inferInstanceAs (Decidable (_ ∨ _))

/-- The key ranges of the tables of a level are pairwise disjoint. -/
def NonOverlapping (s : Store) (L : ℕ) : Prop := (s.manifest.level L).Pairwise Apart

instance (s : Store) (L : ℕ) : Decidable (NonOverlapping s L) :=
  inferInstanceAs (Decidable (List.Pairwise _ _))

/-- A compaction of the level keeps an entry for the key. -/
def Kept (s : Store) (L : ℕ) (k : Bytes) : Prop :=
  ((oldest (s.tables L) k).filter (keep (isHighest s.manifest L))).isSome

/-- The keys that a compaction of the level keeps are on one side of each table of the
    next level. -/
def Beside (s : Store) (L : ℕ) : Prop :=
  ∀ t ∈ s.manifest.level (L + 1),
    (∀ k, Kept s L k → k < t.minKey) ∨ ∀ k, Kept s L k → t.maxKey < k

/-- Each compaction of a pass puts its table beside those of the next level, or the pass
    goes on to compact the next level. -/
def PassBeside (s : Store) : Prop :=
  ∀ i s₁, i < s.manifest.numLevels → (List.range i).foldlM compactIfFull s = .ok s₁ →
    s₁.manifest.levelCount i ≥ maxTablesPerLevel → Beside s₁ i ∨
      i + 1 < s.manifest.numLevels ∧ s₁.manifest.levelCount (i + 1) + 1 ≥ maxTablesPerLevel

variable {s s' : Store} {i : ℕ}

/-- **Step lemma**: a compaction keeps the next level free of overlaps exactly if it puts
    its table beside the others. -/
theorem compactIfFull_nonOverlapping (hs : s.Sound)
    (hfull : s.manifest.levelCount i ≥ maxTablesPerLevel) (h : compactIfFull s i = .ok s') :
    NonOverlapping s' (i + 1) ↔ NonOverlapping s (i + 1) ∧ Beside s i := by
  rw [compactIfFull, if_pos hfull] at h
  have hne : s.manifest.level i ≠ [] := by
    intro he
    rw [Manifest.levelCount, he] at hfull
    exact absurd hfull (by decide)
  obtain ⟨w, hw, ha, hlook, hrun⟩ := compactLevel_eq hs.wf hne
  obtain rfl := Except.ok.inj (hrun.symm.trans h)
  have hkept : ∀ k, Kept s i k ↔ ∃ a ∈ w.entries, a.1 = k := by
    intro k
    rw [Kept, ← hlook, lookup_isSome_iff, List.mem_map]
  have hclear : ((s.create (i + 1)).clear i).manifest.level (i + 1) = s.manifest.level (i + 1) :=
    (Store.level_clear _ _ _).trans (if_neg (by omega))
  by_cases hempty : w.entries.isEmpty = true
  · rw [if_pos hempty, NonOverlapping, hclear]
    refine ⟨fun h => ⟨h, fun t _ => Or.inl fun k hk => ?_⟩, And.left⟩
    obtain ⟨a, ha, -⟩ := (hkept k).1 hk
    rw [List.isEmpty_iff.1 hempty] at ha
    cases ha
  · rw [if_neg hempty, NonOverlapping, Store.level_register, if_pos rfl, hclear,
      List.pairwise_append]
    obtain ⟨⟨a, hma, hmin⟩, ⟨b, hmb, hmax⟩, hrange⟩ := (Store.exact_register
      (s := (s.create (i + 1)).clear i) (L := i + 1) hw ha
      (fun he => hempty (List.isEmpty_iff.2 he)) s.manifest.nextId).range
    rw [Store.entries_register] at hma hmb hrange
    constructor
    · rintro ⟨h₁, -, h₂⟩
      refine ⟨h₁, fun t ht => ?_⟩
      rcases h₂ t ht _ (List.mem_singleton_self _) with hlt | hlt
      · refine Or.inr fun k hk => ?_
        obtain ⟨c, hc, rfl⟩ := (hkept k).1 hk
        exact hlt.trans_le (hrange c hc).1
      · refine Or.inl fun k hk => ?_
        obtain ⟨c, hc, rfl⟩ := (hkept k).1 hk
        exact (hrange c hc).2.trans_lt hlt
    · rintro ⟨h₁, h₂⟩
      refine ⟨h₁, List.pairwise_singleton _ _, fun t ht u hu => ?_⟩
      rw [List.mem_singleton.1 hu]
      rcases h₂ t ht with hlt | hlt
      · exact Or.inr (hmax ▸ hlt b.1 ((hkept _).2 ⟨b, hmb, rfl⟩))
      · exact Or.inl (hmin ▸ hlt a.1 ((hkept _).2 ⟨a, hma, rfl⟩))

theorem PassSteps.run {S : ℕ → Store} {n : ℕ} (h : PassSteps S n) {i : ℕ} (hi : i ≤ n) :
    (List.range i).foldlM compactIfFull (S 0) = .ok (S i) := by
  induction i with
  | zero => rfl
  | succ i ih =>
    rw [List.range_succ, List.foldlM_append, ih (by omega)]
    exact (bind_pure (compactIfFull (S i) i)).trans (h i hi).1

theorem PassSteps.sound {S : ℕ → Store} {n : ℕ} (h : PassSteps S n) (hs : (S 0).Sound) {i : ℕ}
    (hi : i ≤ n) : (S i).Sound := by
  induction i with
  | zero => exact hs
  | succ i ih =>
    obtain ⟨s', hrun, hs'⟩ := (ih (by omega)).compactIfFull i
    obtain rfl := Except.ok.inj (hrun.symm.trans (h i hi).1)
    exact hs'

/-- Steps at other levels leave a level alone. -/
theorem PassSteps.level_eq {S : ℕ → Store} {n : ℕ} (h : PassSteps S n) {L i j : ℕ} (hij : i ≤ j)
    (hj : j ≤ n) (hL : ∀ m, i ≤ m → m < j → L ≠ m ∧ L ≠ m + 1) :
    (S j).manifest.level L = (S i).manifest.level L := by
  induction j, hij using Nat.le_induction with
  | base => rfl
  | succ j hij ih =>
    obtain ⟨h₁, h₂⟩ := hL j hij (Nat.lt_succ_self j)
    rw [(h j hj).2.others L h₁ h₂]
    exact ih (by omega) fun m hm hmj => hL m hm (by omega)

/-- What a pass leaves of the level below one that it goes through. -/
theorem PassSteps.level_end {S : ℕ → Store} {n : ℕ} (h : PassSteps S n) {L : ℕ} (hL : L < n) :
    (S n).manifest.level (L + 1) =
      if L + 1 < n ∧ (S (L + 1)).manifest.levelCount (L + 1) ≥ maxTablesPerLevel then []
      else (S (L + 1)).manifest.level (L + 1) := by
  by_cases hn : L + 1 < n
  · rw [h.level_eq (i := L + 2) (by omega) le_rfl fun m hm _ => ⟨by omega, by omega⟩,
      (h (L + 1) hn).2.self]
    simp only [hn, true_and]
  · rw [if_neg fun hc => hn hc.1, show n = L + 1 by omega]

/-- **A pass keeps the levels free of overlaps** exactly if each of its compactions puts
    its table beside the others, or the next level is merged on. -/
theorem maybeCompact_nonOverlapping_iff (hs : s.Sound) (h : maybeCompact s = .ok s')
    (hd : ∀ L ≥ 1, NonOverlapping s L) : (∀ L ≥ 1, NonOverlapping s' L) ↔ PassBeside s := by
  obtain ⟨-, -, S, rfl, rfl, hS⟩ := maybeCompact_bounds h
  set n := (S 0).manifest.numLevels
  -- a level is as it was when the pass comes to the one above
  have hold : ∀ L < n, (S L).manifest.level (L + 1) = (S 0).manifest.level (L + 1) := fun L hL =>
    hS.level_eq (Nat.zero_le L) hL.le fun m _ hm => ⟨by omega, by omega⟩
  have hbefore : ∀ L < n, NonOverlapping (S L) (L + 1) := fun L hL => by
    rw [NonOverlapping, hold L hL]
    exact hd (L + 1) (by omega)
  have hstep : ∀ L < n, (S L).manifest.levelCount L ≥ maxTablesPerLevel →
      (NonOverlapping (S (L + 1)) (L + 1) ↔ Beside (S L) L) := fun L hL hfull =>
    (compactIfFull_nonOverlapping (hS.sound hs hL.le) hfull (hS L hL).1).trans
      (and_iff_right (hbefore L hL))
  constructor
  · intro hend L s₁ hL hrun hfull
    obtain rfl := Except.ok.inj ((hS.run hL.le).symm.trans hrun)
    refine or_iff_not_imp_left.2 fun hbeside => ?_
    have hL' := hend (L + 1) (by omega)
    rw [NonOverlapping, hS.level_end hL] at hL'
    split_ifs at hL' with hmerged
    · refine ⟨hmerged.1, hmerged.2.trans ?_⟩
      obtain ⟨t, ht⟩ := (hS L hL).2.next
      rw [Manifest.levelCount, ht, List.length_append]
      exact Nat.add_le_add_left Option.length_toList_le _
    · exact absurd ((hstep L hL hfull).1 hL') hbeside
  · intro hpass L hL
    obtain ⟨L, rfl⟩ := Nat.exists_eq_add_of_le' hL
    rcases lt_or_ge L n with hLn | hLn
    · rw [NonOverlapping, hS.level_end hLn]
      split_ifs with hmerged
      · exact List.Pairwise.nil
      by_cases hfull : (S L).manifest.levelCount L ≥ maxTablesPerLevel
      · rcases hpass L (S L) hLn (hS.run hLn.le) hfull with hbeside | ⟨hn, hcount⟩
        · exact (hstep L hLn hfull).2 hbeside
        · -- the next level is not merged on, so that nothing was pushed into it
          obtain ⟨t, ht⟩ := (hS L hLn).2.next
          cases t with
          | none =>
            rw [ht, Option.toList_none, List.append_nil]
            exact hbefore L hLn
          | some t =>
            refine absurd ⟨hn, ?_⟩ hmerged
            rw [Manifest.levelCount, ht, List.length_append]
            exact hcount
      · have hsame := (hS L hLn).1
        rw [compactIfFull, if_neg hfull] at hsame
        rw [← Except.ok.inj hsame]
        exact hbefore L hLn
    · rw [NonOverlapping, hS.level_eq (Nat.zero_le n) le_rfl fun m _ hm => ⟨by omega, by omega⟩]
      exact hd (L + 1) hL

/-! ## Runs -/

theorem Registers.nonOverlapping_iff {e e' : LsmEngine M} {op : BulkOp} (hs : e.store.Sound)
    (h : Registers e e' op) (hd : ∀ L ≥ 1, NonOverlapping e.store L) :
    (∀ L ≥ 1, NonOverlapping e'.store L) ↔ ∀ s ∈ passInput e op, PassBeside s := by
  cases hp : passInput e op with
  | none =>
    obtain ⟨hlevel, -⟩ := h.quiet hp
    refine iff_of_true (fun L hL => ?_) fun s hs => by cases hs
    rw [NonOverlapping, hlevel]
    exact hd L hL
  | some s =>
    obtain ⟨es, ha, hne, rfl, hrun⟩ := h.pass s hp
    have hd' : ∀ L ≥ 1, NonOverlapping (LsmEngine.addTable e.store es) L := by
      intro L hL
      obtain ⟨w, -, -, heq⟩ := addTable_eq e.store es
      rw [NonOverlapping, heq, Store.level_register, if_neg (by omega)]
      exact hd L hL
    rw [maybeCompact_nonOverlapping_iff (hs.addTable ha hne) hrun hd']
    simp only [Option.mem_def, Option.some.injEq, forall_eq']

section Lawful
variable [LawfulMemtable M]

theorem runAny_nonOverlapping_iff {e : LsmEngine M} (hs : e.store.Sound)
    (hd : ∀ L ≥ 1, NonOverlapping e.store L) (ops : List BulkOp) :
    (∀ pre, pre <+: ops → ∃ e', e.runAny pre = some e' ∧ ∀ L ≥ 1, NonOverlapping e'.store L) ↔
      Run.Meets LsmEngine.applyAny (fun e op => ∀ s ∈ passInput e op, PassBeside s) e ops := by
  induction ops generalizing e with
  | nil =>
    refine ⟨fun _ => trivial, fun _ pre hpre => ?_⟩
    rw [List.prefix_nil.1 hpre]
    exact ⟨e, rfl, hd⟩
  | cons op ops ih =>
    obtain ⟨e₁, hrun, hreg⟩ := applyAny_registers hs op
    have hcons : ∀ pre, e.runAny (op :: pre) = e₁.runAny pre := fun pre => by
      rw [LsmEngine.runAny, List.foldlM_cons, hrun]
      rfl
    constructor
    · intro h
      have hd₁ : ∀ L ≥ 1, NonOverlapping e₁.store L := by
        obtain ⟨e', he', hd'⟩ := h [op] ⟨ops, rfl⟩
        rw [hcons] at he'
        cases he'
        exact hd'
      refine Run.Meets.cons hrun ((hreg.nonOverlapping_iff hs hd).1 hd₁)
        ((ih (hreg.sound hs) hd₁).1 fun pre hpre => ?_)
      rw [← hcons]
      exact h _ (List.cons_prefix_cons.2 ⟨rfl, hpre⟩)
    · rintro ⟨hc, hr⟩ pre hpre
      have hd₁ := (hreg.nonOverlapping_iff hs hd).2 hc
      cases pre with
      | nil => exact ⟨e, rfl, hd⟩
      | cons op' pre =>
        obtain ⟨rfl, hpre'⟩ := List.cons_prefix_cons.1 hpre
        rw [hcons]
        exact (ih (hreg.sound hs) hd₁).2 (hr e₁ hrun) pre hpre'

/-- **The higher levels are free of overlaps in every state of a run of short strings**
    exactly if each of its compactions puts its table beside the others. -/
theorem run_nonOverlapping_iff {dir : Dir} {m : M} {ops : List BulkOp} (h : ShortRun dir m ops)
    (config : EngineConfig) :
    (∀ pre, pre <+: ops → ∃ e, Reaches dir m config pre e ∧ ∀ L ≥ 1, NonOverlapping e.store L) ↔
    Run.Meets LsmEngine.applyAny (fun e op => ∀ s ∈ passInput e op, PassBeside s)
      (LsmEngine.open_ dir m config) ops := by
  have hlevel : ∀ L, (LsmEngine.open_ dir m config).store.manifest.level L = [] :=
    Manifest.level_new numLevels
  rw [← runAny_nonOverlapping_iff (Store.sound_new _ _) (fun L _ => by
    rw [NonOverlapping, hlevel]
    exact List.Pairwise.nil) ops]
  refine forall₂_congr fun pre hpre => exists_congr fun e => and_congr_left fun _ => ?_
  exact ⟨Reaches.run, fun hrun => ⟨⟨h.log, h.memtable, fun op hop => h.ops op
    (hpre.subset hop)⟩, hrun⟩⟩

/-- Two flushes of one key each. -/
def twoFlushes : List BulkOp :=
  [.write (.put (.singleton 1) .empty), .write .flush, .write (.put (.singleton 2) .empty),
    .write .flush]

theorem run_nonOverlapping_iff_twoFlushes :
    (∀ pre, pre <+: twoFlushes → ∃ e, Reaches Dir.empty BTreeMemtable.new {} pre e ∧
      ∀ L ≥ 1, NonOverlapping e.store L) ↔
    Run.Meets LsmEngine.applyAny (fun e op => ∀ s ∈ passInput e op, PassBeside s)
      (LsmEngine.open_ Dir.empty BTreeMemtable.new {}) twoFlushes := by
  refine run_nonOverlapping_iff ⟨fun r hr => ?_, fun k v h => ?_, fun op hop => ?_⟩ {}
  · cases hr
  · cases h
  · simp only [twoFlushes, List.mem_cons, List.not_mem_nil, or_false] at hop
    rcases hop with rfl | rfl | rfl | rfl
    · exact And.intro (by decide) (by decide)
    · trivial
    · exact And.intro (by decide) (by decide)
    · trivial

end Lawful

/-- Eight flushes of one key each: every four of them make a table of level 1. -/
def flushesTwiceOver : List BulkOp :=
  [1, 2, 3, 4, 1, 2, 3, 4].flatMap fun b =>
    [.write (.put (.singleton b) (.singleton b)), .write .flush]

/-- **Level 1 holds the same keys twice.** -/
theorem compactions_overlap : ∃ e,
    (LsmEngine.open_ Dir.empty BTreeMemtable.new {}).runAny flushesTwiceOver = some e ∧
      ¬ NonOverlapping e.store 1 := by
  have h : ((LsmEngine.open_ Dir.empty BTreeMemtable.new {}).runAny flushesTwiceOver).map
      (fun e => decide (NonOverlapping e.store 1)) = some false := by decide +kernel
  obtain ⟨e, hrun, he⟩ := Option.map_eq_some_iff.1 h
  exact ⟨e, hrun, of_decide_eq_false he⟩

end Scry.Lsm
