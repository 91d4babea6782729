/-
  The engine over bytes refines the engine over entries.

  A table of entries that fit their length fields is read back as it was given, so that a
  merge of such tables writes what the merge of their entries does (`merge_reads`), and a
  store of files stands for a store of entries (`Stands`).
-/
import Scry.Lsm.Files
import Scry.Lsm.Proof.Layout
import Scry.Lsm.Proof.Tables

namespace Scry.Lsm.Layout

/-! ## Outcomes -/

/-- The operation returns a value of which `P` holds, or a file was too large. -/
def Completes {α : Type} (x : Except Failure α) (P : α → Prop) : Prop :=
  (∃ a, x = .ok a ∧ P a) ∨ x = .error .fileTooLarge

namespace Completes
variable {α β : Type} {x : Except Failure α} {P : α → Prop} {Q : β → Prop}

theorem ok {a : α} (h : P a) : Completes (.ok a) P := Or.inl ⟨a, rfl, h⟩

theorem bind {f : α → Except Failure β} (h : Completes x P)
    (hf : ∀ a, P a → Completes (f a) Q) : Completes (x >>= f) Q := by
  rcases h with ⟨a, rfl, ha⟩ | rfl
  · exact hf a ha
  · exact Or.inr rfl

theorem mono {P' : α → Prop} (h : Completes x P) (hp : ∀ a, P a → P' a) : Completes x P' :=
  h.imp_left fun h => h.imp fun a ha => ⟨ha.1, hp a ha.2⟩

theorem map {f : α → β} (h : Completes x P) (hf : ∀ a, P a → Q (f a)) :
    Completes (x.map f) Q := by
  rcases h with ⟨a, rfl, ha⟩ | rfl
  · exact .ok (hf a ha)
  · exact Or.inr rfl

end Completes

/-! ## Scans -/

/-- The scan of a file reads the entries of the scan `y`. -/
def Reads (x : SsTableScan) (y : Lsm.SsTableScan) : Prop :=
  ∃ blocks, BlocksOk blocks ∧ ScanAt blocks x y.rest

theorem Reads.nextEntry {x : SsTableScan} {y : Lsm.SsTableScan} (h : Reads x y) :
    ∃ x', x.nextEntry = .ok (y.nextEntry.1, x') ∧ Reads x' y.nextEntry.2 := by
  obtain ⟨blocks, hb, hs⟩ := h
  obtain ⟨x', hn, hs'⟩ := nextEntry_eq hb hs
  exact ⟨x', hn, blocks, hb, hs'⟩

/-- Scans of files, each of which reads a scan of entries. -/
def AllRead (xs : List SsTableScan) (ys : List Lsm.SsTableScan) : Prop :=
  ∀ i : ℕ, Option.Rel Reads xs[i]? ys[i]?

theorem AllRead.set {xs : List SsTableScan} {ys : List Lsm.SsTableScan} (h : AllRead xs ys)
    (i : ℕ) {x : SsTableScan} {y : Lsm.SsTableScan} (hr : Reads x y) :
    AllRead (xs.set i x) (ys.set i y) := by
  intro j
  have hj := h j
  rw [List.getElem?_set, List.getElem?_set]
  by_cases hij : i = j
  · subst hij
    rw [if_pos rfl, if_pos rfl]
    cases hx : xs[i]? with
    | none =>
      rw [hx] at hj
      cases hy : ys[i]? with
      | some y => rw [hy] at hj; cases hj
      | none =>
        rw [List.getElem?_eq_none_iff] at hx hy
        rw [if_neg (not_lt.2 hx), if_neg (not_lt.2 hy)]
        exact .none
    | some x' =>
      rw [hx] at hj
      cases hy : ys[i]? with
      | none => rw [hy] at hj; cases hj
      | some y' =>
        rw [if_pos (List.getElem?_eq_some_iff.1 hx).1, if_pos (List.getElem?_eq_some_iff.1 hy).1]
        exact .some hr
  · rw [if_neg hij, if_neg hij]
    exact hj

theorem refill_reads {xs : List SsTableScan} {ys : List Lsm.SsTableScan} (h : AllRead xs ys)
    (heap : BinaryHeap MergeEntry) (i : ℕ) :
    ∃ xs', refill heap xs i = .ok ((Lsm.refill heap ys i).1, xs') ∧
      AllRead xs' (Lsm.refill heap ys i).2 := by
  have hi := h i
  unfold refill Lsm.refill
  cases hx : xs[i]? with
  | none =>
    rw [hx] at hi
    cases hy : ys[i]? with
    | some y => rw [hy] at hi; cases hi
    | none => exact ⟨xs, rfl, h⟩
  | some x =>
    rw [hx] at hi
    cases hy : ys[i]? with
    | none => rw [hy] at hi; cases hi
    | some y =>
      rw [hy] at hi
      cases hi with
      | some hr =>
      obtain ⟨x', hn, hr'⟩ := hr.nextEntry
      dsimp only
      rw [hn]
      cases he : y.nextEntry with
      | mk entry y' =>
        rw [he] at hr'
        cases entry with
        | none => exact ⟨_, rfl, h.set i hr'⟩
        | some e => exact ⟨_, rfl, h.set i hr'⟩

theorem seed_reads {xs : List SsTableScan} {ys : List Lsm.SsTableScan} (h : AllRead xs ys)
    (hlen : xs.length = ys.length) :
    ∃ xs', seed xs = .ok ((Lsm.seed ys).1, xs') ∧ AllRead xs' (Lsm.seed ys).2 := by
  unfold seed Lsm.seed
  rw [hlen]
  have key : ∀ n, ∃ xs', (List.range n).foldlM (fun p i => refill p.1 p.2 i)
      ((BinaryHeap.new : BinaryHeap MergeEntry), xs) =
        (.ok (((List.range n).foldl (fun p i => Lsm.refill p.1 p.2 i) (BinaryHeap.new, ys)).1, xs') :
          Except Fault _) ∧
      AllRead xs' ((List.range n).foldl (fun p i => Lsm.refill p.1 p.2 i) (BinaryHeap.new, ys)).2 := by
    intro n
    induction n with
    | zero => exact ⟨xs, rfl, h⟩
    | succ n ih =>
      obtain ⟨xs₁, hrun, h₁⟩ := ih
      obtain ⟨xs₂, hstep, h₂⟩ := refill_reads h₁
        ((List.range n).foldl (fun p i => Lsm.refill p.1 p.2 i) (BinaryHeap.new, ys)).1 n
      refine ⟨xs₂, ?_, ?_⟩
      · rw [List.range_succ, List.foldlM_append, hrun, List.foldl_append]
        exact (bind_pure _).trans hstep
      · rw [List.range_succ, List.foldl_append]
        exact h₂
  exact key ys.length

/-! ## The merge -/

/-- The writer of a table file that was given the entries. -/
def writerOf (es : List Entry) : SsTableWriter :=
  LsmEngine.writeAll (.withBlockSize defaultBlockSize) es

theorem writerOf_concat (es : List Entry) (k v : Bytes) :
    writerOf (es ++ [(k, v)]) = (writerOf es).add k v := by
  rw [writerOf, LsmEngine.writeAll, List.foldl_append]
  rfl

/-- The merge of files is where the merge of their entries is. -/
structure Merges (x : MergeState) (y : Lsm.MergeState) : Prop where
  heap : x.heap = y.heap
  scans : AllRead x.scans y.scans
  writer : x.writer = writerOf y.writer.entries
  lastKey : x.lastKey = y.lastKey
  wroteAny : x.wroteAny = y.wroteAny

theorem mergeStep_reads (isHighest : Bool) {x : MergeState} {y : Lsm.MergeState}
    (h : Merges x y) :
    ∃ r, mergeStep isHighest x = .ok r ∧ Option.Rel Merges r (Lsm.mergeStep isHighest y) := by
  unfold mergeStep Lsm.mergeStep
  rw [h.heap]
  cases hp : y.heap.pop with
  | none => exact ⟨none, rfl, .none⟩
  | some p =>
    obtain ⟨entry, heap⟩ := p
    obtain ⟨xs', hrefill, hread⟩ := refill_reads h.scans heap entry.source
    dsimp only
    rw [hrefill, h.lastKey]
    have hbind : ∀ {β : Type} (f : BinaryHeap MergeEntry × List SsTableScan → Except Fault β),
        ((Except.ok ((Lsm.refill heap y.scans entry.source).1, xs') : Except Fault _) >>= f) =
          f ((Lsm.refill heap y.scans entry.source).1, xs') := fun _ => rfl
    rw [hbind]
    dsimp only
    split_ifs
    · exact ⟨_, rfl, .some ⟨rfl, hread, h.writer, rfl, h.wroteAny⟩⟩
    · exact ⟨_, rfl, .some ⟨rfl, hread, h.writer, rfl, h.wroteAny⟩⟩
    · refine ⟨_, rfl, .some ⟨rfl, hread, ?_, rfl, rfl⟩⟩
      show x.writer.add _ _ = writerOf (y.writer.entries ++ [(entry.key, entry.value)])
      rw [writerOf_concat, h.writer]

theorem mergeLoop_reads (isHighest : Bool) (n : ℕ) {x : MergeState} {y : Lsm.MergeState}
    (h : Merges x y) : ∃ x', mergeLoop isHighest n x = .ok x' ∧
      Merges x' (Lsm.mergeLoop isHighest n y) := by
  induction n generalizing x y with
  | zero => exact ⟨x, rfl, h⟩
  | succ n ih =>
    obtain ⟨r, hstep, hr⟩ := mergeStep_reads isHighest h
    rw [mergeLoop, hstep, Lsm.mergeLoop]
    generalize Lsm.mergeStep isHighest y = r' at hr
    cases hr with
    | none => exact ⟨x, rfl, h⟩
    | some h' => exact ih h'

theorem dataLen_readerOf (blocks : List (List Entry)) :
    blocks.flatten.length ≤ dataLen (readerOf blocks) := by
  have key : ∀ (offset : ℕ) (bs : List (List Entry)),
      bs.flatten.length ≤ ((indexFrom offset bs).map (·.blockLen)).sum := by
    intro offset bs
    induction bs generalizing offset with
    | nil => exact Nat.zero_le _
    | cons b bs ih =>
      rw [List.flatten_cons, List.length_append, indexFrom, List.map_cons, List.sum_cons]
      exact Nat.add_le_add (length_le_blockBytes b) (ih _)
  exact key 0 blocks

/-- **A merge of readable files** writes what the merge of their entries does. -/
theorem merge_reads (isHighest : Bool) {bss : List (List (List Entry))}
    (hb : ∀ bs ∈ bss, BlocksOk bs) (ha : ∀ bs ∈ bss, Ascending bs.flatten)
    (w : Lsm.SsTableWriter) (hw : w.entries = []) :
    ∃ x, merge isHighest (bss.map readerOf) (writerOf []) = .ok x ∧
      Merges x (Lsm.merge isHighest (bss.map fun bs => ⟨bs.flatten⟩) w) := by
  set readers : List Lsm.SsTableReader := bss.map fun bs => ⟨bs.flatten⟩ with hr
  have hread : AllRead ((bss.map readerOf).map SsTableReader.scan)
      (readers.map Lsm.SsTableReader.scan) := by
    intro i
    rw [hr, List.map_map, List.map_map, List.getElem?_map, List.getElem?_map]
    cases hi : bss[i]? with
    | none => exact .none
    | some bs => exact .some ⟨bs, hb bs (List.mem_of_getElem? hi), rfl, Nat.zero_le _, [], [], rfl,
        rfl, by simp, rfl⟩
  obtain ⟨xs, hseed, hxs⟩ := seed_reads hread (by simp [hr])
  have hstart : Merges ⟨(Lsm.seed (readers.map Lsm.SsTableReader.scan)).1, xs, writerOf [], none,
      false⟩ ⟨(Lsm.seed (readers.map Lsm.SsTableReader.scan)).1,
        (Lsm.seed (readers.map Lsm.SsTableReader.scan)).2, w, none, false⟩ :=
    ⟨rfl, hxs, by rw [hw], rfl, rfl⟩
  have hsum : (readers.map fun r => r.entries.length).sum ≤
      ((bss.map readerOf).map dataLen).sum := by
    rw [hr, List.map_map, List.map_map]
    exact List.sum_le_sum fun bs _ => dataLen_readerOf bs
  have hasc : ∀ r ∈ readers, Ascending r.entries := by
    intro r hm
    obtain ⟨bs, hbs, rfl⟩ := List.mem_map.1 (hr ▸ hm)
    exact ha bs hbs
  obtain ⟨x, hrun, hx⟩ := mergeLoop_reads isHighest ((bss.map readerOf).map dataLen).sum hstart
  rw [merge_eq_mergeLoop isHighest readers w hasc hsum] at hx
  refine ⟨x, ?_, hx⟩
  rw [merge, hseed]
  exact hrun

/-! ## Stores -/

theorem Disk.write_self (d : Disk) (p : SstPath) (file : List Byte) :
    d.write p file p = some file := if_pos rfl

theorem Disk.write_of_ne (d : Disk) {p q : SstPath} (file : List Byte) (h : q ≠ p) :
    d.write p file q = d q := if_neg h

theorem Disk.foldl_remove (ps : List SstPath) (d : Disk) (q : SstPath) :
    ps.foldl Disk.remove d q = if q ∈ ps then none else d q := by
  induction ps generalizing d with
  | nil => rfl
  | cons p ps ih =>
    rw [List.foldl_cons, ih, Disk.remove]
    by_cases h : q = p
    · simp [h]
    · simp [h]

/-- The file of a registered table holds its entries. -/
def Holds (b : Store) (t : SsTableMeta) (es : List Entry) : Prop :=
  ∃ blocks, BlocksOk blocks ∧ blocks.flatten = es ∧ b.disk t.path = some (fileOf blocks)

/-- A store of files stands for a store of entries. -/
structure Stands (b : Store) (s : Lsm.Store) : Prop where
  manifest : b.manifest = s.manifest
  file {L : ℕ} {t : SsTableMeta} : t ∈ s.manifest.level L → Holds b t (s.entries t)

theorem Holds.valid {b : Store} {t : SsTableMeta} {es : List Entry} (h : Holds b t es) :
    ∀ e ∈ es, e.Short := by
  obtain ⟨blocks, hb, rfl, -⟩ := h
  exact hb.valid

namespace Store

/-- The store after `Manifest::next_sstable_path` and `SsTableWriter::new`. -/
def create (b : Store) (L : ℕ) : Store :=
  ⟨(b.manifest.nextSstablePath L).2, (Layout.create b.disk (b.manifest.nextSstablePath L).1.2).2⟩

/-- The store after the tables of a level left the manifest and the directory. -/
def clear (b : Store) (L : ℕ) : Store :=
  ⟨b.manifest.remove L ((b.manifest.level L).map SsTableMeta.id),
    ((b.manifest.level L).map SsTableMeta.path).foldl Disk.remove b.disk⟩

/-- The store after a finished file was registered. -/
def register (b : Store) (t : SsTableMeta) (file : List Byte) : Store :=
  ⟨b.manifest.add t, b.disk.write t.path file⟩

end Store

variable {b : Store} {s : Lsm.Store}

theorem entries_congr {s s' : Lsm.Store} {t : SsTableMeta} (h : s'.disk t.path = s.disk t.path) :
    s'.entries t = s.entries t := by
  rw [Lsm.Store.entries, h, ← Lsm.Store.entries]

/-- A store stands for the other as long as the registered tables keep their files. -/
theorem Stands.of_disk (h : Stands b s) {b' : Store} {s' : Lsm.Store}
    (hm : b'.manifest = s'.manifest)
    (hkeep : ∀ L, ∀ t ∈ s'.manifest.level L, t ∈ s.manifest.level L ∧
      s'.entries t = s.entries t ∧ b'.disk t.path = b.disk t.path) : Stands b' s' where
  manifest := hm
  file {L t} ht := by
    obtain ⟨ht, he, hd⟩ := hkeep L t ht
    obtain ⟨blocks, hb, hes, hf⟩ := h.file ht
    exact ⟨blocks, hb, hes.trans he.symm, hd.trans hf⟩

theorem Stands.create (hs : s.WF) (h : Stands b s) (L : ℕ) :
    Stands (b.create L) (s.create L) := by
  refine h.of_disk ?_ fun i t ht =>
    ⟨ht, entries_congr (Lsm.Disk.write_of_ne _ _ (hs.path_ne ht L)), ?_⟩
  · show (b.manifest.nextSstablePath L).2 = (s.manifest.nextSstablePath L).2
    rw [h.manifest]
  · refine Disk.write_of_ne _ _ ?_
    rw [h.manifest]
    exact hs.path_ne ht L

theorem Stands.clear (hs : s.WF) (h : Stands b s) (L : ℕ) : Stands (b.clear L) (s.clear L) := by
  refine h.of_disk ?_ fun i t ht => ?_
  · show b.manifest.remove L _ = s.manifest.remove L _
    rw [h.manifest]
  · rw [Lsm.Store.level_clear] at ht
    split_ifs at ht with hi
    · cases ht
    have hpath : t.path ∉ (s.manifest.level L).map SsTableMeta.path := by
      intro hm
      obtain ⟨u, hu, he⟩ := List.mem_map.1 hm
      rw [(hs L u hu).path, (hs i t ht).path] at he
      exact hi (SstPath.mk.inj he).1.symm
    refine ⟨ht, entries_congr ((Lsm.Disk.foldl_remove _ _ _).trans (if_neg hpath)), ?_⟩
    refine (Disk.foldl_remove _ _ _).trans (if_neg ?_)
    rw [h.manifest]
    exact hpath

/-- A finished file of entries that fit is registered. -/
theorem Stands.register (hs : s.WF) (h : Stands b s) (L id : ℕ) {w : Lsm.SsTableWriter}
    {blocks : List (List Entry)} (hb : BlocksOk blocks) (hes : blocks.flatten = w.entries)
    (hfresh : ∀ i, ∀ t ∈ s.manifest.level i, t.id ≠ id) :
    Stands (b.register (Lsm.Store.metaOf L id w) (fileOf blocks)) (s.register L id w) where
  manifest := by
    show b.manifest.add _ = s.manifest.add _
    rw [h.manifest]
    rfl
  file {i t} ht := by
    rw [Lsm.Store.level_register] at ht
    have hold : t ∈ s.manifest.level i → Holds (b.register (Lsm.Store.metaOf L id w)
        (fileOf blocks)) t ((s.register L id w).entries t) := fun ht => by
      have hne : t.path ≠ ⟨L, id⟩ := by
        rw [(hs i t ht).path]
        exact fun he => hfresh i t ht (SstPath.mk.inj he).2
      obtain ⟨bs, hbs, hbe, hf⟩ := h.file ht
      exact ⟨bs, hbs, hbe.trans (entries_congr (Lsm.Disk.write_of_ne _ _ hne)).symm,
        (Disk.write_of_ne _ _ hne).trans hf⟩
    split_ifs at ht
    · rcases List.mem_append.1 ht with ht | ht
      · exact hold ht
      · rw [List.mem_singleton.1 ht, Lsm.Store.entries_register]
        exact ⟨blocks, hb, hes, if_pos rfl⟩
    · exact hold ht

/-- A writer of entries that fit finishes with a file that holds them. -/
theorem finish_writerOf {w : Lsm.SsTableWriter} (hw : w.Ok) (hshort : ∀ e ∈ w.entries, e.Short)
    (d : Disk) (path : SstPath) : Completes (finish (writerOf w.entries) d path) fun r =>
      ∃ blocks, BlocksOk blocks ∧ blocks.flatten = w.entries ∧
        r = ((w.entryCount, w.minKey.getD .empty, w.maxKey.getD .empty),
          d.write path (fileOf blocks)) := by
  obtain ⟨blocks, hes, hne, hfile⟩ := writeTable_eq defaultBlockSize w.entries
  have hfin : (writerOf w.entries).finish = (fileOf blocks, w.entryCount, w.minKey.getD .empty,
      w.maxKey.getD .empty) := by
    rw [hw.count, hw.min, hw.max]
    exact hfile
  rw [finish, hfin]
  dsimp only
  by_cases hsize : (fileOf blocks).length ≤ maxFileSize
  · rw [if_pos hsize]
    refine .ok ⟨blocks, ⟨hes ▸ hshort, hne, ?_⟩, hes, rfl⟩
    exact lt_of_le_of_lt hsize (by norm_num [maxFileSize])
  · rw [if_neg hsize]
    exact Or.inr rfl

/-! ## Compaction -/

theorem Stands.openTable (h : Stands b s) {L : ℕ} {t : SsTableMeta}
    (ht : t ∈ s.manifest.level L) : ∃ blocks, BlocksOk blocks ∧ blocks.flatten = s.entries t ∧
      openTable b.disk t.path = .ok (readerOf blocks) := by
  obtain ⟨blocks, hb, hes, hf⟩ := h.file ht
  refine ⟨blocks, hb, hes, ?_⟩
  rw [Layout.openTable, hf]
  dsimp only
  rw [open_fileOf hb]
  rfl

/-- The files of a level open. -/
theorem mapM_openTable (h : Stands b s) {L : ℕ} {ts : List SsTableMeta}
    (hts : ∀ t ∈ ts, t ∈ s.manifest.level L) :
    ∃ bss : List (List (List Entry)),
      ts.mapM (fun t => openTable b.disk t.path) = .ok (bss.map readerOf) ∧
      (∀ bs ∈ bss, BlocksOk bs) ∧ bss.map List.flatten = ts.map s.entries := by
  induction ts with
  | nil => exact ⟨[], rfl, by simp, rfl⟩
  | cons t ts ih =>
    obtain ⟨bss, hrun, hok, hes⟩ := ih fun u hu => hts u (List.mem_cons_of_mem t hu)
    obtain ⟨bs, hb, hbe, hopen⟩ := h.openTable (hts t List.mem_cons_self)
    refine ⟨bs :: bss, ?_, fun bs' hbs' => ?_, ?_⟩
    · rw [List.mapM_cons, hopen, hrun]
      rfl
    · rcases List.mem_cons.1 hbs' with rfl | hbs'
      · exact hb
      · exact hok bs' hbs'
    · rw [List.map_cons, List.map_cons, hbe, hes]

/-- What a merge of tables writes fits its length fields. -/
theorem merged_short (hs : s.WF) (h : Stands b s) {L : ℕ} (hne : s.manifest.level L ≠ []) :
    ∀ e ∈ (s.merged L).writer.entries, e.Short := by
  obtain ⟨-, -, hasc, hlook, -⟩ := compactLevel_merged hs hne
  rintro ⟨k, v⟩ he
  have hv := hlook k
  rw [hasc.lookup_iff.2 he] at hv
  obtain ⟨es, hes, hlk⟩ := List.exists_of_findSome?_eq_some (Option.filter_eq_some_iff.1 hv.symm).1
  obtain ⟨t, ht, rfl⟩ := List.mem_map.1 hes
  exact (h.file ht).valid _ (mem_of_lookup hlk)

/-- **A compaction of files** does what that of their entries does. -/
theorem compactLevel_stands (hs : s.WF) (h : Stands b s) (L : ℕ) :
    ∃ s', Lsm.compactLevel s L = .ok s' ∧
      Completes (compactLevel b L) fun b' => Stands b' s' := by
  by_cases hne : s.manifest.level L = []
  · refine ⟨s, ?_, ?_⟩
    · unfold Lsm.compactLevel
      simp only [hne, List.isEmpty_nil, if_true]
      rfl
    · unfold compactLevel
      simp only [h.manifest, hne, List.isEmpty_nil, if_true]
      exact .ok h
  obtain ⟨hwrote, hok, hasc, -, hrun⟩ := compactLevel_merged hs hne
  refine ⟨_, hrun, ?_⟩
  have hempty : ¬ (s.manifest.level L).isEmpty = true := fun he => hne (List.isEmpty_iff.1 he)
  obtain ⟨bss, hopen, hblocks, hes⟩ := mapM_openTable h (fun _ ht => ht :
    ∀ t ∈ s.manifest.level L, t ∈ s.manifest.level L)
  have hasc' : ∀ bs ∈ bss, Ascending bs.flatten := fun bs hbs => by
    have hm : bs.flatten ∈ s.tables L := by
      rw [Lsm.Store.tables, ← hes]
      exact List.mem_map_of_mem hbs
    exact hs.ascending hm
  have hreaders : (bss.map fun bs => (⟨bs.flatten⟩ : Lsm.SsTableReader)) =
      (s.manifest.level L).map fun t => ⟨s.entries t⟩ := by
    have := congrArg (List.map Lsm.SsTableReader.mk) hes
    rwa [List.map_map, List.map_map] at this
  obtain ⟨x, hmerge, hx⟩ := merge_reads (isHighest s.manifest L) hblocks hasc'
    (Lsm.SsTableWriter.new s.disk (s.manifest.nextSstablePath (L + 1)).1.2).1 rfl
  rw [hreaders] at hx
  replace hx : Merges x (s.merged L) := hx
  have hcreate := h.create hs (L + 1)
  have hwf := (Lsm.Store.create_spec hs (L + 1)).1
  have hclear := hcreate.clear hwf L
  have hbytes : compactLevel b L = if x.wroteAny then
      (finish x.writer ((b.create (L + 1)).clear L).disk ⟨L + 1, s.manifest.nextId⟩).bind fun r =>
        .ok ⟨((b.create (L + 1)).clear L).manifest.add ⟨s.manifest.nextId, L + 1,
          ⟨L + 1, s.manifest.nextId⟩, r.1.1, r.1.2.1, r.1.2.2⟩, r.2⟩
      else .ok ((b.create (L + 1)).clear L) := by
    unfold compactLevel Store.create Store.clear
    simp only [h.manifest, hempty, Bool.false_eq_true, if_false, hopen]
    show ((merge (isHighest s.manifest L) (bss.map readerOf) (writerOf [])).mapError
      Failure.read).bind _ = _
    rw [hmerge]
    rfl
  rw [hbytes, hx.wroteAny, hwrote]
  cases hout : (s.merged L).writer.entries.isEmpty with
  | true => exact .ok hclear
  | false =>
    rw [hx.writer]
    refine (finish_writerOf hok (merged_short hs h hne) _ _).bind fun r hr => ?_
    obtain ⟨blocks, hb, hbe, rfl⟩ := hr
    refine .ok (hclear.register (Lsm.Store.clear_spec hwf L).1 (L + 1) _ hb hbe fun i t ht => ?_)
    rw [Lsm.Store.level_clear] at ht
    split_ifs at ht
    · cases ht
    · exact (hs i t ht).id_lt.ne

theorem compactIfFull_stands (hs : s.WF) (h : Stands b s) (L : ℕ) :
    ∃ s', Lsm.compactIfFull s L = .ok s' ∧
      Completes (compactIfFull b L) fun b' => Stands b' s' := by
  unfold compactIfFull Lsm.compactIfFull
  rw [h.manifest]
  split_ifs
  · exact compactLevel_stands hs h L
  · exact ⟨s, rfl, .ok h⟩

/-- **The compaction pass over files.** -/
theorem maybeCompact_stands (hs : s.Sound) (h : Stands b s) :
    ∃ s', Lsm.maybeCompact s = .ok s' ∧ s'.Sound ∧
      Completes (maybeCompact b) fun b' => Stands b' s' := by
  have key : ∀ is : List ℕ, ∃ s', is.foldlM Lsm.compactIfFull s = .ok s' ∧ s'.Sound ∧
      Completes (is.foldlM compactIfFull b) fun b' => Stands b' s' := by
    intro is
    induction is using List.reverseRecOn with
    | nil => exact ⟨s, rfl, hs, .ok h⟩
    | append_singleton is i ih =>
      obtain ⟨s₁, hrun, hs₁, hc⟩ := ih
      obtain ⟨s₂, hstep, hs₂⟩ := hs₁.compactIfFull i
      refine ⟨s₂, ?_, hs₂, ?_⟩
      · rw [List.foldlM_append, hrun]
        exact (bind_pure (Lsm.compactIfFull s₁ i)).trans hstep
      · rw [List.foldlM_append]
        refine hc.bind fun b₁ h₁ => ?_
        obtain ⟨s₂', hstep', hc'⟩ := compactIfFull_stands hs₁.wf h₁ i
        cases hstep.symm.trans hstep'
        rw [List.foldlM_cons]
        exact hc'.bind fun b₂ h₂ => .ok h₂
  unfold maybeCompact
  rw [h.manifest]
  exact key _

/-! ## Operations -/

variable {M : Type} [Memtable M]

/-- What a memtable holds fits the length fields. -/
def ShortMemtable (m : M) : Prop := ∀ k v, Memtable.get m k = some v → k.Short ∧ v.Short

/-- An engine over files stands for an engine over entries that fit. -/
structure Refines (x : LsmEngine M) (e : Lsm.LsmEngine M) : Prop where
  memtable : x.memtable = e.memtable
  store : Stands x.store e.store
  flushThreshold : x.flushThreshold = e.flushThreshold
  sound : e.store.Sound
  short : ShortMemtable e.memtable

/-- A new table of entries that fit. -/
theorem addTable_stands (hs : s.WF) (h : Stands b s) {es : List Entry}
    (hshort : ∀ e ∈ es, e.Short) :
    Completes (LsmEngine.addTable b es) fun b' => Stands b' (Lsm.LsmEngine.addTable s es) := by
  obtain ⟨w, hok, rfl, heq⟩ := addTable_eq s es
  have hcreate := h.create hs 0
  have hwf := (Lsm.Store.create_spec hs 0).1
  have hbytes : LsmEngine.addTable b w.entries =
      (finish (writerOf w.entries) (b.create 0).disk ⟨0, s.manifest.nextId⟩).bind fun r =>
        .ok ⟨(b.create 0).manifest.add ⟨s.manifest.nextId, 0, ⟨0, s.manifest.nextId⟩, r.1.1,
          r.1.2.1, r.1.2.2⟩, r.2⟩ := by
    unfold LsmEngine.addTable Store.create
    rw [h.manifest]
    rfl
  rw [hbytes, heq]
  refine (finish_writerOf hok hshort _ _).bind fun r hr => ?_
  obtain ⟨blocks, hb, hbe, rfl⟩ := hr
  exact .ok (hcreate.register hwf 0 _ hb hbe fun i t ht => (hs i t ht).id_lt.ne)

/-- A new table of entries that fit, and the compaction pass after it. -/
theorem addTable_maybeCompact (hs : s.Sound) (h : Stands b s) {es : List Entry}
    (ha : Ascending es) (hne : es ≠ []) (hshort : ∀ a ∈ es, a.Short) :
    ∃ s', Lsm.maybeCompact (Lsm.LsmEngine.addTable s es) = .ok s' ∧ s'.Sound ∧
      Completes (LsmEngine.addTable b es >>= maybeCompact) fun b' => Stands b' s' := by
  have hadd := hs.addTable ha hne
  obtain ⟨s', hrun, hs'⟩ := hadd.maybeCompact
  refine ⟨s', hrun, hs', (addTable_stands hs.wf h hshort).bind fun b₁ h₁ => ?_⟩
  obtain ⟨s'', hrun', -, hc⟩ := maybeCompact_stands hadd h₁
  cases hrun.symm.trans hrun'
  exact hc

section Lawful
variable [LawfulMemtable M] {x : LsmEngine M} {e : Lsm.LsmEngine M}

theorem flushMemtable_refines (h : Refines x e) : ∃ e', e.flushMemtable = .ok e' ∧
    Completes x.flushMemtable fun x' => Refines x' e' := by
  have hdrained : ShortMemtable (Memtable.drainSorted e.memtable).2 := fun k v hv => by
    rw [LawfulMemtable.get_drain] at hv
    cases hv
  rw [flushMemtable_eq]
  unfold LsmEngine.flushMemtable
  rw [h.memtable]
  by_cases hempty : (Memtable.drainSorted e.memtable).1.isEmpty = true
  · rw [if_pos hempty]
    refine ⟨_, rfl, ?_⟩
    simp only [hempty, if_true]
    exact .ok ⟨rfl, h.store, h.flushThreshold, h.sound, hdrained⟩
  · rw [if_neg hempty]
    have ha : Ascending (Memtable.drainSorted e.memtable).1 :=
      LawfulMemtable.drain_ascending e.memtable
    have hshort : ∀ a ∈ (Memtable.drainSorted e.memtable).1, a.Short := fun a hm =>
      h.short a.1 a.2 (by rw [← LawfulMemtable.drain_lookup]; exact ha.lookup_iff.2 hm)
    obtain ⟨s', hrun, hs', hc⟩ := addTable_maybeCompact h.sound h.store ha
      (fun he => hempty (List.isEmpty_iff.2 he)) hshort
    rw [hrun]
    refine ⟨_, rfl, ?_⟩
    simp only [hempty, Bool.false_eq_true, if_false]
    have hbytes : (LsmEngine.addTable x.store (Memtable.drainSorted e.memtable).1 >>= fun store =>
        maybeCompact store >>= fun store => (pure { x with
          memtable := (Memtable.drainSorted e.memtable).2, wal := x.wal.truncate,
          store := store } : Except Failure (LsmEngine M))) =
        (LsmEngine.addTable x.store (Memtable.drainSorted e.memtable).1 >>= maybeCompact) >>=
          fun store => pure { x with memtable := (Memtable.drainSorted e.memtable).2,
                                     wal := x.wal.truncate, store := store } :=
      (bind_assoc _ _ _).symm
    refine hbytes ▸ hc.bind fun b' hb' => ?_
    exact .ok ⟨rfl, hb', h.flushThreshold, hs', hdrained⟩

theorem maybeFlush_refines (h : Refines x e) : ∃ e', e.maybeFlush = .ok e' ∧
    Completes x.maybeFlush fun x' => Refines x' e' := by
  unfold LsmEngine.maybeFlush Lsm.LsmEngine.maybeFlush
  rw [h.memtable, h.flushThreshold]
  split_ifs
  · exact flushMemtable_refines h
  · exact ⟨e, rfl, .ok h⟩

theorem ShortMemtable.insert {m : M} (h : ShortMemtable m) {k v : Bytes} (hk : k.Short)
    (hv : v.Short) : ShortMemtable (Memtable.insert m k v) := by
  intro k' v' hget
  rw [LawfulMemtable.get_insert] at hget
  split_ifs at hget with he
  · cases hget
    exact ⟨he ▸ hk, hv⟩
  · exact h k' v' hget

theorem ShortMemtable.delete {m : M} (h : ShortMemtable m) {k : Bytes} (hk : k.Short) :
    ShortMemtable (Memtable.delete m k) := by
  intro k' v' hget
  rw [LawfulMemtable.get_delete] at hget
  split_ifs at hget with he
  · cases hget
    exact ⟨he ▸ hk, by decide⟩
  · exact h k' v' hget

omit [LawfulMemtable M] in
/-- The pairs that are accepted are added, the others refused. -/
theorem ingestPairs_refines {pairs : List Entry} {w : Lsm.SsTableWriter}
    {prevKey : Option Bytes} : LsmEngine.ingestPairs (writerOf w.entries) prevKey pairs =
      ((Lsm.LsmEngine.ingestPairs w prevKey pairs).map fun w' =>
        writerOf w'.entries).mapError .engine := by
  induction pairs generalizing w prevKey with
  | nil => rfl
  | cons a rest ih =>
    obtain ⟨key, value⟩ := a
    rw [LsmEngine.ingestPairs, Lsm.LsmEngine.ingestPairs]
    split_ifs
    · rfl
    · rw [← writerOf_concat]
      exact ih (w := w.add key value)

omit [Memtable M] [LawfulMemtable M] in
/-- A store that took an id for a file which it did not register. -/
theorem Stands.of_new (hs : s.WF) (h : Stands b s) {b' : Store} {s' : Lsm.Store}
    (hm : b'.manifest = (b.create 0).manifest) (hm' : s'.manifest = (s.create 0).manifest)
    (hd : ∀ p, p ≠ ⟨0, s.manifest.nextId⟩ → b'.disk p = b.disk p)
    (hd' : ∀ p, p ≠ ⟨0, s.manifest.nextId⟩ → s'.disk p = s.disk p) : Stands b' s' := by
  refine h.of_disk (by rw [hm, hm', (h.create hs 0).manifest]) fun i t ht => ?_
  rw [hm'] at ht
  exact ⟨ht, entries_congr (hd' _ (hs.path_ne ht 0)), hd _ (hs.path_ne ht 0)⟩

/-- The part of `ingest_sorted` after its loop. -/
def ingested (x : LsmEngine M) (w : SsTableWriter) : Except Failure (LsmEngine M × ℕ) := do
  let ((entryCount, minKey, maxKey), disk) ←
    finish w (x.store.create 0).disk ⟨0, x.store.manifest.nextId⟩
  if entryCount > 0 then
    let store ← maybeCompact ⟨(x.store.create 0).manifest.add ⟨x.store.manifest.nextId, 0,
      ⟨0, x.store.manifest.nextId⟩, entryCount, minKey, maxKey⟩, disk⟩
    return ({ x with store := store }, entryCount)
  else
    return ({ x with store := ⟨(x.store.create 0).manifest,
      disk.remove ⟨0, x.store.manifest.nextId⟩⟩ }, entryCount)

omit [Memtable M] [LawfulMemtable M] in
theorem ingestSorted_eq (x : LsmEngine M) (pairs : List Entry) :
    x.ingestSorted pairs = LsmEngine.ingestPairs (writerOf []) none pairs >>= ingested x := rfl

/-- An ingestion of pairs in order. -/
theorem ingested_refines (h : Refines x e) {pairs : List Entry} (ha : Ascending pairs)
    (hshort : ∀ a ∈ pairs, a.Short) : ∃ e', e.applyBulk (.ingestSorted pairs) = .ok e' ∧
      Completes ((ingested x (writerOf pairs)).map Prod.fst) fun x' => Refines x' e' := by
  have hm := h.store.manifest
  by_cases hne : pairs = []
  · subst hne
    refine ⟨_, rfl, ?_⟩
    refine Completes.map (P := fun p => Refines p.1 _) ?_ fun p hp => hp
    refine (finish_writerOf (Lsm.SsTableWriter.Ok.new e.store.disk ⟨0, 0⟩) (by simp
      [Lsm.SsTableWriter.new]) _ _).bind fun r hr => ?_
    obtain ⟨blocks, -, -, rfl⟩ := hr
    refine .ok ⟨h.memtable, ?_, h.flushThreshold, ?_, h.short⟩
    · refine h.store.of_new h.sound.wf rfl rfl (fun p hp => ?_) fun p hp => ?_
      · rw [← hm] at hp
        exact (if_neg hp).trans ((if_neg hp).trans (if_neg hp))
      · exact (if_neg hp).trans ((if_neg hp).trans (if_neg hp))
    · obtain ⟨e', hrun, hreg⟩ := applyAny_registers h.sound (.ingestSorted [])
      cases hrun
      exact hreg.sound h.sound
  · obtain ⟨w, hok, rfl, heq⟩ := addTable_eq e.store pairs
    have hadd := h.sound.addTable ha hne
    obtain ⟨s', hrun, hs'⟩ := hadd.maybeCompact
    refine ⟨{ e with store := s' }, by rw [Lsm.ingestSorted_eq hne ha, hrun]; rfl, ?_⟩
    refine Completes.map (P := fun p => Refines p.1 _) ?_ fun p hp => hp
    refine (finish_writerOf hok hshort _ _).bind fun r hr => ?_
    obtain ⟨blocks, hb, hbe, rfl⟩ := hr
    have hcount : w.entryCount > 0 := by
      rw [hok.count]
      exact List.length_pos_iff.2 hne
    have hstands := (h.store.create h.sound.wf 0).register
      (Lsm.Store.create_spec h.sound.wf 0).1 0 e.store.manifest.nextId hb hbe
      fun i t ht => (h.sound.wf i t ht).id_lt.ne
    rw [← heq] at hstands
    obtain ⟨s'', hrun', -, hc⟩ := maybeCompact_stands hadd hstands
    cases hrun.symm.trans hrun'
    dsimp only
    rw [if_pos hcount, hm]
    exact hc.bind fun b' hb' => .ok ⟨h.memtable, hb', h.flushThreshold, hs', h.short⟩

/-- **Step lemma**: an operation on files does what it does to their entries. -/
theorem applyAny_refines (h : Refines x e) {op : BulkOp} (hop : op.Short) :
    ∃ e', e.applyAny op = some e' ∧ Completes (x.applyAny op) fun x' => Refines x' e' := by
  -- an operation that is accepted
  have accepted : ∀ {e'}, e.applyBulk op = .ok e' →
      (Completes (x.apply op) fun x' => Refines x' e') →
      ∃ e', e.applyAny op = some e' ∧ Completes (x.applyAny op) fun x' => Refines x' e' := by
    intro e' happly hc
    refine ⟨e', applyAny_of_ok happly, ?_⟩
    rw [LsmEngine.applyAny]
    rcases hc with ⟨x', hx, hr⟩ | hx
    · rw [hx]
      exact .ok hr
    · rw [hx]
      exact Or.inr rfl
  cases op with
  | write op =>
    cases op with
    | flush =>
      obtain ⟨e', hrun, hc⟩ := flushMemtable_refines h
      exact accepted hrun hc
    | delete key =>
      exact accepted rfl (.ok ⟨congrArg (Memtable.delete · key) h.memtable, h.store,
        h.flushThreshold, h.sound, h.short.delete hop⟩)
    | put key value =>
      have hput : Refines { x with wal := x.wal.appendPut key value
                                   memtable := Memtable.insert x.memtable key value }
          { e with wal := e.wal ++ [.put key value]
                   memtable := Memtable.insert e.memtable key value } :=
        ⟨congrArg (Memtable.insert · key value) h.memtable, h.store, h.flushThreshold, h.sound,
          h.short.insert hop.1 hop.2⟩
      obtain ⟨e', hrun, hc⟩ := maybeFlush_refines hput
      exact accepted hrun hc
  | ingestSorted pairs =>
    set w : Lsm.SsTableWriter := (Lsm.SsTableWriter.new e.store.disk
      ⟨0, e.store.manifest.nextId⟩).1
    have hpairs : LsmEngine.ingestPairs (writerOf []) none pairs = _ :=
      ingestPairs_refines (w := w)
    by_cases ha : Ascending pairs
    · obtain ⟨-, hes, -⟩ := writeAll_spec w (Lsm.SsTableWriter.Ok.new _ _) pairs
      obtain ⟨e', hrun, hc⟩ := ingested_refines h ha hop
      refine accepted hrun ?_
      rw [ingestPairs_of_ascending ha fun _ hp => by cases hp] at hpairs
      replace hpairs : LsmEngine.ingestPairs (writerOf []) none pairs = .ok (writerOf pairs) := by
        rw [hpairs]
        show Except.ok (writerOf (Lsm.LsmEngine.writeAll w pairs).entries) = _
        rw [hes]
        rfl
      rw [LsmEngine.apply, ingestSorted_eq, hpairs]
      exact hc
    · refine ⟨_, applyAny_refused ha, ?_⟩
      cases hp : Lsm.LsmEngine.ingestPairs w none pairs with
      | ok w' => exact absurd (ingestPairs_ok hp).2.1 ha
      | error err =>
        obtain ⟨msg, rfl⟩ := ingestPairs_error hp
        rw [hp] at hpairs
        have happly : x.apply (.ingestSorted pairs) =
            .error (.engine (.corruption msg)) := by
          rw [LsmEngine.apply, ingestSorted_eq, hpairs]
          rfl
        rw [LsmEngine.applyAny, happly]
        refine .ok ⟨h.memtable, ?_, h.flushThreshold, ?_, h.short⟩
        · refine h.store.of_new h.sound.wf rfl rfl (fun p hp => ?_) fun p hp => ?_
          · rw [← h.store.manifest] at hp
            exact (if_neg hp).trans (if_neg hp)
          · exact (if_neg hp).trans (if_neg hp)
        · obtain ⟨e', hrun, hreg⟩ := applyAny_registers h.sound (.ingestSorted pairs)
          cases (applyAny_refused ha).symm.trans hrun
          exact hreg.sound h.sound

/-- **Run lemma**: a run on files does what it does to their entries. -/
theorem runAny_refines (h : Refines x e) {ops : List BulkOp} (hops : ∀ op ∈ ops, op.Short)
    {e' : Lsm.LsmEngine M} (hrun : e.runAny ops = some e') :
    Completes (x.runAny ops) fun x' => Refines x' e' := by
  induction ops generalizing x e with
  | nil =>
    cases hrun
    exact .ok h
  | cons op ops ih =>
    obtain ⟨e₁, hstep, hc⟩ := applyAny_refines h (hops op List.mem_cons_self)
    rw [Lsm.LsmEngine.runAny, List.foldlM_cons, hstep] at hrun
    rw [LsmEngine.runAny, List.foldlM_cons]
    exact hc.bind fun x₁ h₁ => ih h₁ (fun o ho => hops o (List.mem_cons_of_mem op ho)) hrun

end Lawful

end Scry.Lsm.Layout
