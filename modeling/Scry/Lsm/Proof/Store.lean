/-
  The SSTables as leveled tables.

  In a well-formed store every registered table has its file, with the entries in
  ascending order and inside the recorded key range.  Then the SSTable part of a
  lookup is a search of leveled tables (`getSstable_eq`), a flush appends a table
  to level 0 (`addTable_spec`) and a compaction pushes a level down
  (`compactLevel_spec`).
-/
import Scry.Lsm.Engine
import Scry.Lsm.Proof.Merge

namespace Scry.Lsm

/-! ## Files -/

@[simp] theorem Disk.write_self (d : Disk) (p : SstPath) (f : SstFile) :
    d.write p f p = some f := if_pos rfl

theorem Disk.write_of_ne (d : Disk) {p q : SstPath} (f : SstFile) (h : q ≠ p) :
    d.write p f q = d q := if_neg h

theorem Disk.foldl_remove (ps : List SstPath) (d : Disk) (q : SstPath) :
    ps.foldl Disk.remove d q = if q ∈ ps then none else d q := by
  induction ps generalizing d with
  | nil => rfl
  | cons p ps ih =>
    rw [List.foldl_cons, ih, Disk.remove]
    by_cases h : q = p
    · simp [h]
    · simp [h]

/-! ## The manifest -/

namespace Manifest

theorem level_of_le {m : Manifest} {i : ℕ} (h : m.numLevels ≤ i) : m.level i = [] := by
  rw [level, List.getD_eq_getElem?_getD, List.getElem?_eq_none h]
  rfl

theorem getD_resize (l : List (List SsTableMeta)) (n i : ℕ) :
    (resize l n).getD i [] = l.getD i [] := by
  simp only [resize, List.getD_eq_getElem?_getD, List.getElem?_append]
  split_ifs with h
  · rfl
  · rw [List.getElem?_replicate, List.getElem?_eq_none (by omega)]
    split_ifs <;> rfl

@[simp] theorem level_new (n i : ℕ) : (Manifest.new n).level i = [] := by
  simp only [level, Manifest.new, List.getD_eq_getElem?_getD, List.getElem?_replicate]
  split_ifs <;> rfl

@[simp] theorem level_add (m : Manifest) (t : SsTableMeta) (i : ℕ) :
    (m.add t).level i = if i = t.level then m.level i ++ [t] else m.level i := by
  have hlen : t.level < (resize m.levels (t.level + 1)).length := by
    simp only [resize, List.length_append, List.length_replicate]; omega
  simp only [level, ← getD_resize m.levels (t.level + 1) i]
  simp only [add, List.getD_eq_getElem?_getD, List.getElem?_modify]
  by_cases h : i = t.level
  · subst h
    simp [List.getElem?_eq_getElem hlen]
  · simp [h, Ne.symm h]

@[simp] theorem level_remove (m : Manifest) (L : ℕ) (ids : List ℕ) (i : ℕ) :
    (m.remove L ids).level i =
      if i = L then (m.level i).filter (fun t => ¬ t.id ∈ ids) else m.level i := by
  simp only [level, remove, List.getD_eq_getElem?_getD, List.getElem?_modify]
  by_cases h : i = L
  · subst h
    rcases m.levels[i]? with _ | ts <;> simp
  · simp [h, Ne.symm h]

theorem numLevels_remove (m : Manifest) (L : ℕ) (ids : List ℕ) :
    (m.remove L ids).numLevels = m.numLevels := by
  simp [numLevels, remove]

theorem numLevels_add (m : Manifest) (t : SsTableMeta) :
    (m.add t).numLevels = max m.numLevels (t.level + 1) := by
  simp only [numLevels, add, resize, List.length_modify, List.length_append,
    List.length_replicate]
  omega

/-- Removing all ids of a level empties it. -/
theorem filter_ids (ts : List SsTableMeta) :
    ts.filter (fun t => ¬ t.id ∈ ts.map (·.id)) = [] := by
  rw [List.filter_eq_nil_iff]
  intro t ht
  simpa using ⟨t, ht, rfl⟩

end Manifest

/-! ## Well-formed stores -/

namespace Store

/-- The entries of a registered table. -/
def entries (s : Store) (t : SsTableMeta) : List Entry :=
  match s.disk t.path with
  | some (.finished es) => es
  | _ => []

/-- The tables of a level, oldest first. -/
def tables (s : Store) (L : ℕ) : List (List Entry) := (s.manifest.level L).map s.entries

/-- A table registered at level `L` has a complete file, in ascending order and inside
    the recorded range. -/
structure TableOk (s : Store) (L : ℕ) (t : SsTableMeta) : Prop where
  level : t.level = L
  path : t.path = ⟨L, t.id⟩
  id_lt : t.id < s.manifest.nextId
  file : s.disk t.path = some (.finished (s.entries t))
  ascending : Ascending (s.entries t)
  range : ∀ a ∈ s.entries t, t.minKey ≤ a.1 ∧ a.1 ≤ t.maxKey

/-- Every registered table is as its metadata says. -/
def WF (s : Store) : Prop := ∀ L, ∀ t ∈ s.manifest.level L, s.TableOk L t

theorem entries_eq {s : Store} {t : SsTableMeta} {es : List Entry}
    (h : s.disk t.path = some (.finished es)) : s.entries t = es := by
  rw [entries, h]

theorem WF.ascending {s : Store} (hs : s.WF) {L : ℕ} {es : List Entry} (h : es ∈ s.tables L) :
    Ascending es := by
  obtain ⟨t, ht, rfl⟩ := List.mem_map.1 h
  exact (hs L t ht).ascending

theorem tables_of_le {s : Store} {i : ℕ} (h : s.manifest.numLevels ≤ i) : s.tables i = [] := by
  rw [tables, Manifest.level_of_le h]; rfl

theorem levelCount_eq (s : Store) (L : ℕ) : s.manifest.levelCount L = (s.tables L).length := by
  rw [Manifest.levelCount, Store.tables, List.length_map]

/-- A table keeps its content and its invariant when its file stays. -/
theorem TableOk.of_disk {s s' : Store} {L : ℕ} {t : SsTableMeta} (h : s.TableOk L t)
    (hd : s'.disk t.path = s.disk t.path) (hid : s.manifest.nextId ≤ s'.manifest.nextId) :
    s'.TableOk L t ∧ s'.entries t = s.entries t := by
  have he : s'.entries t = s.entries t := by rw [entries, hd, ← entries]
  exact ⟨⟨h.level, h.path, h.id_lt.trans_le hid, by rw [hd, he]; exact h.file,
    he ▸ h.ascending, he ▸ h.range⟩, he⟩

/-- The store of a new engine. -/
theorem wf_new (n : ℕ) (d : Disk) : (⟨Manifest.new n, d⟩ : Store).WF := by
  intro L t ht
  rw [Manifest.level_new] at ht
  cases ht

theorem tables_new (n : ℕ) (d : Disk) (L : ℕ) : (⟨Manifest.new n, d⟩ : Store).tables L = [] := by
  rw [tables, Manifest.level_new]
  rfl

/-! ## Searching -/

/-- The version of a key in the SSTables. -/
def version (s : Store) (k : Bytes) : Option Bytes := visible s.tables 0 s.manifest.numLevels k

theorem version_eq {s : Store} {n : ℕ} (hn : s.manifest.numLevels ≤ n) (k : Bytes) :
    s.version k = visible s.tables 0 n k :=
  (visible_of_le hn fun _ h => tables_of_le (by omega)).symm

end Store

/-- A reader stops at the first larger key, which in an ascending file is past the
    searched one. -/
theorem getFrom_eq_lookup (k : Bytes) {es : List Entry} (h : Ascending es) :
    SsTableReader.getFrom k es = es.lookup k := by
  induction es with
  | nil => rfl
  | cons a es ih =>
    obtain ⟨k', v'⟩ := a
    obtain ⟨hlt, hes⟩ := ascending_cons.1 h
    rw [SsTableReader.getFrom, lookup_cons_ite]
    rcases lt_trichotomy k' k with hk | rfl | hk
    · rw [compare_lt_iff_lt.2 hk, if_neg hk.ne', ih hes]
    · rw [compare_eq_iff_eq.2 rfl, if_pos rfl]
    · rw [compare_gt_iff_gt.2 hk, if_neg hk.ne]
      exact (lookup_of_lt fun a ha => hk.trans (hlt a ha)).symm

theorem open_of_ok {s : Store} {L : ℕ} {t : SsTableMeta} (h : s.TableOk L t) :
    SsTableReader.open_ s.disk t.path = .ok ⟨s.entries t⟩ := by
  rw [SsTableReader.open_, h.file]

theorem searchLevel_eq {s : Store} {L : ℕ} (k : Bytes) {ts : List SsTableMeta}
    (h : ∀ t ∈ ts, s.TableOk L t) :
    LsmEngine.searchLevel s.disk k ts = .ok (oldest (ts.map s.entries) k) := by
  induction ts with
  | nil => rfl
  | cons t ts ih =>
    have ht := h t List.mem_cons_self
    rw [LsmEngine.searchLevel, List.map_cons, oldest_cons, open_of_ok ht,
      ih fun t' ht' => h t' (List.mem_cons_of_mem _ ht')]
    split_ifs with hk
    · -- the range filter skips only tables without the key
      have hn : (s.entries t).lookup k = none := by
        rw [lookup_eq_none]
        intro hm
        obtain ⟨a, ha, rfl⟩ := List.mem_map.1 hm
        have hr := ht.range a ha
        exact hk.elim (fun h => absurd hr.1 (not_le.2 h)) fun h => absurd hr.2 (not_le.2 h)
      rw [hn, Option.none_or]
    · simp only [bind, Except.bind, SsTableReader.get, getFrom_eq_lookup k ht.ascending]
      cases (s.entries t).lookup k <;> rfl

theorem searchLevels_eq {s : Store} (hs : s.WF) (k : Bytes) :
    LsmEngine.searchLevels s.disk k s.manifest.levels = .ok (s.version k) := by
  have key : ∀ (n i : ℕ), i + n = s.manifest.numLevels →
      LsmEngine.searchLevels s.disk k (s.manifest.levels.drop i) =
        .ok (visible s.tables i n k) := by
    intro n
    induction n with
    | zero =>
      intro i hi
      rw [List.drop_eq_nil_of_le (by simp only [Manifest.numLevels] at hi; omega)]
      rfl
    | succ n ih =>
      intro i hi
      have hlt : i < s.manifest.levels.length := by simp only [Manifest.numLevels] at hi; omega
      have hlevel : s.manifest.levels[i] = s.manifest.level i := by
        rw [Manifest.level, List.getD_eq_getElem _ _ hlt]
      have hok : ∀ t ∈ s.manifest.levels[i].reverse, s.TableOk i t := fun t ht =>
        hs i t (by rw [← hlevel]; exact List.mem_reverse.1 ht)
      rw [List.drop_eq_getElem_cons hlt, LsmEngine.searchLevels, searchLevel_eq k hok,
        visible_succ, List.map_reverse, hlevel]
      have hnew : oldest ((s.manifest.level i).map s.entries).reverse k = newest (s.tables i) k :=
        rfl
      simp only [bind, Except.bind, hnew, ih (i + 1) (by omega)]
      cases newest (s.tables i) k <;> rfl
  exact key s.manifest.numLevels 0 (Nat.zero_add _)

/-- **The SSTable part of a lookup decodes the visible version of the key.** -/
theorem getSstable_eq {s : Store} (hs : s.WF) (k : Bytes) :
    LsmEngine.getSstable s k = .ok ((s.version k).bind LsmEngine.decodeValue) := by
  rw [LsmEngine.getSstable, searchLevels_eq hs]
  rfl

/-! ## Flushing -/

theorem writeAll_spec (w : SsTableWriter) (hw : w.Ok) (es : List Entry) :
    (LsmEngine.writeAll w es).Ok ∧ (LsmEngine.writeAll w es).entries = w.entries ++ es ∧
      (LsmEngine.writeAll w es).path = w.path := by
  induction es generalizing w with
  | nil => exact ⟨hw, by simp [LsmEngine.writeAll], rfl⟩
  | cons a es ih =>
    obtain ⟨h₁, h₂, h₃⟩ := ih (w.add a.1 a.2) (hw.add _ _)
    refine ⟨h₁, ?_, h₃⟩
    rw [LsmEngine.writeAll, List.foldl_cons, ← LsmEngine.writeAll, h₂]
    simp [SsTableWriter.add]

/-- The range a writer records bounds an ascending file. -/
theorem SsTableWriter.Ok.range {w : SsTableWriter} (hw : w.Ok) (ha : Ascending w.entries) :
    ∀ a ∈ w.entries, w.minKey.getD .empty ≤ a.1 ∧ a.1 ≤ w.maxKey.getD .empty := by
  intro a hm
  rw [hw.min, hw.max]
  constructor
  · cases hw' : w.entries with
    | nil => rw [hw'] at hm; simp at hm
    | cons b es =>
      rw [hw'] at hm ha
      rcases List.mem_cons.1 hm with rfl | hm
      · exact le_rfl
      · exact ((ascending_cons.1 ha).1 a hm).le
  · rcases List.eq_nil_or_concat w.entries with hw' | ⟨es, b, hw'⟩
    · rw [hw'] at hm; simp at hm
    · rw [hw', List.concat_eq_append] at hm ha ⊢
      rw [List.getLast?_concat]
      rcases List.mem_append.1 hm with hm | hm
      · exact ((ascending_append.1 ha).2.2 a hm b (List.mem_singleton_self b)).le
      · rw [List.mem_singleton.1 hm]; exact le_rfl

/-! ## Creating, registering and removing tables -/

namespace Store

/-- The store after `Manifest::next_sstable_path` and `SsTableWriter::new`. -/
def create (s : Store) (L : ℕ) : Store :=
  ⟨(s.manifest.nextSstablePath L).2, (SsTableWriter.new s.disk (s.manifest.nextSstablePath L).1.2).2⟩

/-- The store after `SsTableWriter::finish` and `Manifest::add`. -/
def register (s : Store) (L id : ℕ) (w : SsTableWriter) : Store :=
  ⟨s.manifest.add ⟨id, L, ⟨L, id⟩, w.entryCount, w.minKey.getD .empty, w.maxKey.getD .empty⟩,
    s.disk.write ⟨L, id⟩ (.finished w.entries)⟩

/-- The store after the tables of a level left the manifest and the directory. -/
def clear (s : Store) (L : ℕ) : Store :=
  ⟨s.manifest.remove L ((s.manifest.level L).map SsTableMeta.id),
    ((s.manifest.level L).map SsTableMeta.path).foldl Disk.remove s.disk⟩

/-- Levels whose tables keep their files keep their content. -/
theorem of_files {s : Store} (s' : Store) (hs : s.WF) (hid : s.manifest.nextId ≤ s'.manifest.nextId)
    {i : ℕ} (hd : ∀ t ∈ s.manifest.level i, s'.disk t.path = s.disk t.path) :
    (∀ t ∈ s.manifest.level i, s'.TableOk i t) ∧
      (s.manifest.level i).map s'.entries = s.tables i :=
  ⟨fun t ht => ((hs i t ht).of_disk (hd t ht) hid).1,
    List.map_congr_left fun t ht => ((hs i t ht).of_disk (hd t ht) hid).2⟩

theorem create_spec {s : Store} (hs : s.WF) (L : ℕ) :
    (s.create L).WF ∧ (s.create L).manifest.nextId = s.manifest.nextId + 1 ∧
      ∀ i, (s.create L).tables i = s.tables i := by
  have hd : ∀ i, ∀ t ∈ s.manifest.level i, (s.create L).disk t.path = s.disk t.path := by
    intro i t ht
    refine Disk.write_of_ne _ _ fun he => ?_
    have hid := (hs i t ht).id_lt
    rw [(hs i t ht).path] at he
    exact hid.ne (SstPath.mk.inj he).2
  have h := fun i => of_files (s.create L) hs (Nat.le_succ _) (hd i)
  exact ⟨fun i => (h i).1, rfl, fun i => (h i).2⟩

theorem clear_spec {s : Store} (hs : s.WF) (L : ℕ) :
    (s.clear L).WF ∧ (s.clear L).manifest.nextId = s.manifest.nextId ∧
      ∀ i, (s.clear L).tables i = if i = L then [] else s.tables i := by
  have hlevel : ∀ i, (s.clear L).manifest.level i = if i = L then [] else s.manifest.level i := by
    intro i
    rw [clear, Manifest.level_remove]
    split_ifs with hi
    · rw [hi]; exact Manifest.filter_ids _
    · rfl
  have hd : ∀ i, i ≠ L → ∀ t ∈ s.manifest.level i, (s.clear L).disk t.path = s.disk t.path := by
    intro i hi t ht
    refine (Disk.foldl_remove _ _ _).trans (if_neg fun hm => ?_)
    obtain ⟨u, hu, he⟩ := List.mem_map.1 hm
    rw [(hs L u hu).path, (hs i t ht).path] at he
    exact hi (SstPath.mk.inj he).1.symm
  have h := fun i hi => of_files (s.clear L) hs le_rfl (hd i hi)
  refine ⟨fun i t ht => ?_, rfl, fun i => ?_⟩
  · rw [hlevel] at ht
    split_ifs at ht with hi
    · simp at ht
    · exact (h i hi).1 t ht
  · rw [tables, hlevel]
    split_ifs with hi
    · rfl
    · exact (h i hi).2

theorem register_spec {s : Store} (hs : s.WF) (L id : ℕ) {w : SsTableWriter} (hw : w.Ok)
    (ha : Ascending w.entries) (hid : id < s.manifest.nextId)
    (hfresh : ∀ t ∈ s.manifest.level L, t.id ≠ id) :
    (s.register L id w).WF ∧ ∀ i, (s.register L id w).tables i =
      if i = L then s.tables L ++ [w.entries] else s.tables i := by
  set t : SsTableMeta := ⟨id, L, ⟨L, id⟩, w.entryCount, w.minKey.getD .empty, w.maxKey.getD .empty⟩
  set s' := s.register L id w
  have hlevel : ∀ i, s'.manifest.level i =
      if i = L then s.manifest.level i ++ [t] else s.manifest.level i :=
    Manifest.level_add s.manifest t
  have hd : ∀ i, ∀ u ∈ s.manifest.level i, s'.disk u.path = s.disk u.path := by
    intro i u hu
    refine Disk.write_of_ne _ _ fun he => ?_
    rw [(hs i u hu).path] at he
    obtain ⟨hi, hu'⟩ := SstPath.mk.inj he
    exact hfresh u (hi ▸ hu) hu'
  have hold := fun i => of_files s' hs le_rfl (hd i)
  have hfile : s'.disk t.path = some (.finished w.entries) := Disk.write_self _ _ _
  have hent : s'.entries t = w.entries := entries_eq hfile
  have hnew : s'.TableOk L t :=
    ⟨rfl, rfl, hid, hent ▸ hfile, hent ▸ ha, hent ▸ hw.range ha⟩
  refine ⟨fun i u hu => ?_, fun i => ?_⟩
  · rw [hlevel] at hu
    split_ifs at hu with hi
    · rcases List.mem_append.1 hu with hu | hu
      · exact (hold i).1 u hu
      · rw [List.mem_singleton.1 hu, hi]; exact hnew
    · exact (hold i).1 u hu
  · rw [tables, hlevel]
    split_ifs with hi
    · rw [List.map_append, List.map_singleton, hent, (hold i).2, hi]
    · exact (hold i).2

end Store

theorem addTable_eq (s : Store) (es : List Entry) : ∃ w : SsTableWriter, w.Ok ∧ w.entries = es ∧
    LsmEngine.addTable s es = (s.create 0).register 0 s.manifest.nextId w := by
  set p := (s.manifest.nextSstablePath 0).1.2
  set w := LsmEngine.writeAll (SsTableWriter.new s.disk p).1 es with hw
  obtain ⟨hok, hes, hpath⟩ := writeAll_spec (SsTableWriter.new s.disk p).1
    (SsTableWriter.Ok.new s.disk p) es
  rw [← hw] at hok hes hpath
  have heq : LsmEngine.addTable s es = ⟨((s.create 0).register 0 s.manifest.nextId w).manifest,
      (s.create 0).disk.write w.path (.finished w.entries)⟩ := rfl
  exact ⟨w, hok, hes, by rw [heq, hpath]; rfl⟩

/-- **A flush appends its entries to level 0.** -/
theorem addTable_spec {s : Store} (hs : s.WF) {es : List Entry} (ha : Ascending es) :
    (LsmEngine.addTable s es).WF ∧
      (LsmEngine.addTable s es).manifest.nextId = s.manifest.nextId + 1 ∧
      ∀ i, (LsmEngine.addTable s es).tables i =
        if i = 0 then s.tables 0 ++ [es] else s.tables i := by
  obtain ⟨w, hok, hes, heq⟩ := addTable_eq s es
  obtain ⟨hwf, hid, htab⟩ := Store.create_spec hs 0
  obtain ⟨hwf', htab'⟩ := Store.register_spec hwf 0 s.manifest.nextId hok
    (hes.symm ▸ ha) (by omega) fun t ht => (hs 0 t ht).id_lt.ne
  rw [heq]
  refine ⟨hwf', hid, fun i => ?_⟩
  rw [htab' i, htab 0, htab i, hes]

/-! ## Compacting -/

theorem mapM_open {s : Store} {L : ℕ} {ts : List SsTableMeta} (h : ∀ t ∈ ts, s.TableOk L t) :
    ts.mapM (fun t => SsTableReader.open_ s.disk t.path) =
      Except.ok (ts.map fun t => (⟨s.entries t⟩ : SsTableReader)) := by
  induction ts with
  | nil => rfl
  | cons t ts ih =>
    rw [List.mapM_cons, open_of_ok (h t List.mem_cons_self),
      ih fun t' ht' => h t' (List.mem_cons_of_mem _ ht')]
    rfl

/-- The merge of a level. -/
def Store.merged (s : Store) (L : ℕ) : MergeState :=
  merge (isHighest s.manifest L) ((s.manifest.level L).map fun t => ⟨s.entries t⟩)
    (SsTableWriter.new s.disk (s.manifest.nextSstablePath (L + 1)).1.2).1

/-- What a compaction of a level with tables does, step by step. -/
theorem compactLevel_merged {s : Store} (hs : s.WF) {L : ℕ} (hne : s.manifest.level L ≠ []) :
    (s.merged L).wroteAny = !(s.merged L).writer.entries.isEmpty ∧ (s.merged L).writer.Ok ∧
      Ascending (s.merged L).writer.entries ∧
      (∀ k, (s.merged L).writer.entries.lookup k =
        (oldest (s.tables L) k).filter (keep (isHighest s.manifest L))) ∧
      compactLevel s L = .ok (if (s.merged L).writer.entries.isEmpty then
        (s.create (L + 1)).clear L
        else ((s.create (L + 1)).clear L).register (L + 1) s.manifest.nextId
          (s.merged L).writer) := by
  set p := (s.manifest.nextSstablePath (L + 1)).1.2 with hp
  set readers := (s.manifest.level L).map fun t => (⟨s.entries t⟩ : SsTableReader) with hreaders
  have hentries : readers.map SsTableReader.entries = s.tables L := by
    rw [hreaders, List.map_map]; rfl
  obtain ⟨out, ho⟩ := merge_spec (isHighest s.manifest L) readers
    (SsTableWriter.new s.disk p).1 fun r hr =>
      hs.ascending (L := L) (hentries ▸ List.mem_map_of_mem hr)
  have hmerged : s.merged L = merge (isHighest s.manifest L) readers
    (SsTableWriter.new s.disk p).1 := rfl
  rw [← hmerged] at ho
  have hes : (s.merged L).writer.entries = out := ho.entries
  have hwrote : (s.merged L).wroteAny = !(s.merged L).writer.entries.isEmpty :=
    hes.symm ▸ ho.wrote
  have hempty : ¬ (s.manifest.level L).isEmpty = true := fun h => hne (List.isEmpty_iff.1 h)
  have hrun : compactLevel s L = if (s.merged L).wroteAny then
      .ok ⟨(((s.create (L + 1)).clear L).register (L + 1) s.manifest.nextId
        (s.merged L).writer).manifest,
        ((s.create (L + 1)).clear L).disk.write (s.merged L).writer.path
          (.finished (s.merged L).writer.entries)⟩
      else .ok ((s.create (L + 1)).clear L) := by
    unfold compactLevel
    simp only [hempty, Bool.false_eq_true, if_false, mapM_open (hs L)]
    rfl
  refine ⟨hwrote, ho.ok (SsTableWriter.Ok.new s.disk p), hes ▸ ho.ascending, fun k => ?_, ?_⟩
  · rw [hes, ho.lookup, ← hentries]
    rfl
  · rw [hrun, show (s.merged L).writer.path = p from ho.path, hwrote]
    cases (s.merged L).writer.entries.isEmpty <;> rfl

theorem compactLevel_eq {s : Store} (hs : s.WF) {L : ℕ} (hne : s.manifest.level L ≠ []) :
    ∃ w : SsTableWriter, w.Ok ∧ Ascending w.entries ∧
      (∀ k, w.entries.lookup k = (oldest (s.tables L) k).filter (keep (isHighest s.manifest L))) ∧
      compactLevel s L = .ok (if w.entries.isEmpty then (s.create (L + 1)).clear L
        else ((s.create (L + 1)).clear L).register (L + 1) s.manifest.nextId w) :=
  ⟨(s.merged L).writer, (compactLevel_merged hs hne).2⟩

/-- **Compaction pushes a level down**: it writes the oldest version of each key of the
    level, without the tombstones if the target counts as the highest level. -/
theorem compactLevel_spec {s : Store} (hs : s.WF) (L : ℕ) :
    ∃ s' out, compactLevel s L = .ok s' ∧ s'.WF ∧ (∀ i, s'.tables i = pushDown s.tables L out i) ∧
      Ascending out ∧
      ∀ k, out.lookup k = (oldest (s.tables L) k).filter (keep (isHighest s.manifest L)) := by
  by_cases hempty : (s.manifest.level L).isEmpty = true
  · have hL : s.tables L = [] := by
      rw [Store.tables, List.isEmpty_iff.1 hempty]; rfl
    refine ⟨s, [], ?_, hs, fun i => ?_, ascending_nil, fun k => by simp [hL]⟩
    · unfold compactLevel
      simp only [hempty, if_true]
      rfl
    · unfold pushDown
      by_cases h₁ : i = L
      · rw [if_pos h₁, h₁, hL]
      · rw [if_neg h₁]
        simp
  · obtain ⟨w, hok, hasc, hlook, hrun⟩ :=
      compactLevel_eq hs fun h => hempty (List.isEmpty_iff.2 h)
    obtain ⟨hwf, hid, htab⟩ := Store.create_spec hs (L + 1)
    obtain ⟨hwf', hid', htab'⟩ := Store.clear_spec hwf L
    have hclear : ∀ i, ((s.create (L + 1)).clear L).tables i =
        if i = L then [] else s.tables i := fun i => by rw [htab', htab]
    by_cases hout : w.entries.isEmpty = true
    · rw [if_pos hout] at hrun
      refine ⟨_, w.entries, hrun, hwf', fun i => ?_, hasc, hlook⟩
      rw [hclear, pushDown, if_pos hout, List.append_nil]
      split_ifs <;> rfl
    · rw [if_neg hout] at hrun
      -- the id of the new table is larger than those registered before
      have hfresh : ∀ t ∈ ((s.create (L + 1)).clear L).manifest.level (L + 1),
          t.id ≠ s.manifest.nextId := by
        intro t ht
        rw [Store.clear, Manifest.level_remove, if_neg (by omega)] at ht
        exact (hs (L + 1) t ht).id_lt.ne
      obtain ⟨hwf'', htab''⟩ := Store.register_spec hwf' (L + 1) s.manifest.nextId hok hasc
        (by omega) hfresh
      refine ⟨_, w.entries, hrun, hwf'', fun i => ?_, hasc, hlook⟩
      rw [htab'', hclear, hclear, pushDown, if_neg hout, if_neg (by omega : ¬ L + 1 = L)]
      by_cases hi : i = L
      · rw [if_neg (by omega), if_pos hi, if_pos hi]
      · by_cases hi' : i = L + 1
        · rw [if_pos hi', if_neg hi, if_pos hi', hi']
        · rw [if_neg hi', if_neg hi, if_neg hi, if_neg hi']

end Scry.Lsm
