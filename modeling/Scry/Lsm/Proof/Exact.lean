/-
  Runs over the bytes of the files.

  From the directory on, a run of short keys and values does what it does to their entries
  (`run_refines`), so that the files of its tables are what their metadata say
  (`run_filesExact`).  The length of a longer value is cut to its field: what follows it in
  the file is read as further entries (`put_tearsTable`).
-/
import Scry.Lsm.Proof.Files

namespace Scry.Lsm.Layout

attribute [local instance] byte_neZero

/-! ## Opening -/

theorem interpret_short {raw : Byte × Bytes × Bytes} {r : WalRecord}
    (h : Wal.rawFrame.valid raw) (hi : Wal.interpret raw = .ok r) : r.Short := by
  obtain ⟨type, key, value⟩ := raw
  rw [Wal.interpret] at hi
  split_ifs at hi
  · cases hi
    exact h
  · cases hi
    exact h.1

/-- What a log is read as fits its length fields. -/
theorem recoverLoop_short {n : ℕ} {bs : List Byte} {acc rs : List WalRecord}
    (h : Wal.recoverLoop n bs acc = .ok rs) (hacc : ∀ r ∈ acc, r.Short) : ∀ r ∈ rs, r.Short := by
  induction n generalizing bs acc with
  | zero =>
    cases h
    exact hacc
  | succ n ih =>
    rw [Wal.recoverLoop] at h
    cases hd : Wal.readRecord bs with
    | none =>
      rw [hd] at h
      cases h
      exact hacc
    | some p =>
      obtain ⟨raw, rest⟩ := p
      rw [hd] at h
      have hvalid : Wal.rawFrame.valid raw := ((Wal.rawFrame.decode_iff bs raw rest).1 hd).1
      cases hi : Wal.interpret raw with
      | error err =>
        simp only [hi] at h
        cases h
      | ok r =>
        simp only [hi] at h
        refine ih h fun r' hr' => ?_
        rcases List.mem_append.1 hr' with hr' | hr'
        · exact hacc r' hr'
        · rw [List.mem_singleton.1 hr']
          exact interpret_short hvalid hi

theorem recover_short {file : Option (List Byte)} {rs : List WalRecord}
    (h : Wal.recover file = .ok rs) : ∀ r ∈ rs, r.Short := by
  cases file with
  | none =>
    cases h
    exact fun r hr => by cases hr
  | some file => exact recoverLoop_short h fun r hr => by cases hr

variable {M : Type} [Memtable M] [LawfulMemtable M]

theorem ShortMemtable.replay {m : M} (h : ShortMemtable m) {rs : List WalRecord}
    (hrs : ∀ r ∈ rs, r.Short) : ShortMemtable (rs.foldl Lsm.LsmEngine.replay m) := by
  induction rs generalizing m with
  | nil => exact h
  | cons r rs ih =>
    refine ih ?_ fun r' hr' => hrs r' (List.mem_cons_of_mem r hr')
    have hr := hrs r List.mem_cons_self
    cases r with
    | put key value => exact h.insert hr.1 hr.2
    | delete key => exact h.delete hr

/-- The directory as the log is read. -/
def readDir (records : List WalRecord) : Lsm.Dir := ⟨some records, fun _ => none⟩

theorem open_refines {dir : Dir} {m : M} {config : EngineConfig} {x : LsmEngine M}
    (hm : ShortMemtable m) (hopen : LsmEngine.open_ dir m config = .ok x) :
    ∃ records, Wal.recover dir.wal = .ok records ∧
      Refines x (Lsm.LsmEngine.open_ (readDir records) m config) := by
  rw [LsmEngine.open_] at hopen
  cases hrec : Wal.recover dir.wal with
  | error err =>
    rw [hrec] at hopen
    cases hopen
  | ok records =>
    rw [hrec] at hopen
    cases hopen
    refine ⟨records, rfl, rfl, ⟨rfl, fun {L t} ht => ?_⟩, rfl, Lsm.Store.sound_new _ _,
      hm.replay (recover_short hrec)⟩
    replace ht : t ∈ (Manifest.new numLevels).level L := ht
    rw [Manifest.level_new] at ht
    cases ht

/-! ## Lookups -/

section Lookup
variable {b : Store} {s : Lsm.Store}

/-- The search of a level reads in the files what is in the entries. -/
theorem searchLevel_stands (hs : s.WF) (h : Stands b s) (k : Bytes) {L : ℕ}
    {ts : List SsTableMeta} (hts : ∀ t ∈ ts, t ∈ s.manifest.level L) :
    ∃ v, Lsm.LsmEngine.searchLevel s.disk k ts = .ok v ∧
      LsmEngine.searchLevel b.disk k ts = .ok v := by
  induction ts with
  | nil => exact ⟨none, rfl, rfl⟩
  | cons t ts ih =>
    have ht := hts t List.mem_cons_self
    obtain ⟨v, hv, hv'⟩ := ih fun u hu => hts u (List.mem_cons_of_mem t hu)
    rw [Lsm.LsmEngine.searchLevel, LsmEngine.searchLevel]
    by_cases hrange : k < t.minKey ∨ k > t.maxKey
    · rw [if_pos hrange, if_pos hrange]
      exact ⟨v, hv, hv'⟩
    · rw [if_neg hrange, if_neg hrange]
      obtain ⟨blocks, hb, hes, hopen⟩ := h.openTable ht
      have hok := hs L t ht
      rw [open_of_ok hok, hopen]
      have hget : ((readerOf blocks).get k).mapError Failure.read =
          .ok ((⟨s.entries t⟩ : Lsm.SsTableReader).get k) := by
        rw [get_eq hb (hes ▸ hok.ascending), hes, Lsm.SsTableReader.get,
          getFrom_eq_lookup k hok.ascending]
        rfl
      simp only [bind, Except.bind, hget]
      cases (⟨s.entries t⟩ : Lsm.SsTableReader).get k with
      | none => exact ⟨v, hv, hv'⟩
      | some w => exact ⟨some w, rfl, rfl⟩

theorem searchLevels_stands (hs : s.WF) (h : Stands b s) (k : Bytes)
    {tss : List (List SsTableMeta)} (htss : tss <:+ s.manifest.levels) :
    ∃ v, Lsm.LsmEngine.searchLevels s.disk k tss = .ok v ∧
      LsmEngine.searchLevels b.disk k tss = .ok v := by
  induction tss with
  | nil => exact ⟨none, rfl, rfl⟩
  | cons ts tss ih =>
    obtain ⟨v, hv, hv'⟩ := ih ((List.suffix_cons ts tss).trans htss)
    obtain ⟨L, hL⟩ := List.mem_iff_getElem?.1 (htss.subset List.mem_cons_self)
    have hlevel : s.manifest.level L = ts := by
      rw [Manifest.level, List.getD_eq_getElem?_getD, hL]
      rfl
    have hmem : ∀ t ∈ ts.reverse, t ∈ s.manifest.level L := fun t ht =>
      hlevel ▸ List.mem_reverse.1 ht
    obtain ⟨w, hw, hw'⟩ := searchLevel_stands hs h k hmem
    rw [Lsm.LsmEngine.searchLevels, LsmEngine.searchLevels, hw, hw']
    simp only [bind, Except.bind]
    cases w with
    | none => exact ⟨v, hv, hv'⟩
    | some w => exact ⟨some w, rfl, rfl⟩

end Lookup

omit [LawfulMemtable M] in
/-- **A lookup in the files** answers as one in their entries. -/
theorem get_refines {x : LsmEngine M} {e : Lsm.LsmEngine M} (h : Refines x e) (k : Bytes) :
    ∃ v, e.get k = .ok v ∧ x.get k = .ok v := by
  rw [Lsm.LsmEngine.get, LsmEngine.get, h.memtable]
  cases Memtable.get e.memtable k with
  | some v => exact ⟨_, rfl, rfl⟩
  | none =>
    obtain ⟨v, hv, hv'⟩ := searchLevels_stands h.sound.wf h.store k (List.suffix_refl _)
    refine ⟨v.bind Lsm.LsmEngine.decodeValue, ?_, ?_⟩
    · simp only [Lsm.LsmEngine.getSstable, hv]
      rfl
    · simp only [h.store.manifest, hv']
      rfl

/-! ## Runs -/

/-- **A run of short keys and values on files** answers every lookup as the run on their
    entries does. -/
theorem run_refines {dir : Dir} {m : M} {config : EngineConfig} {x : LsmEngine M}
    (hm : ShortMemtable m) (hopen : LsmEngine.open_ dir m config = .ok x) {ops : List BulkOp}
    (hops : ∀ op ∈ ops, op.Short) : Completes (x.runAny ops) fun x' =>
      ∃ records e', Wal.recover dir.wal = .ok records ∧
        (Lsm.LsmEngine.open_ (readDir records) m config).runAny ops = some e' ∧
        ∀ k, ∃ v, e'.get k = .ok v ∧ x'.get k = .ok v := by
  obtain ⟨records, hrec, href⟩ := open_refines hm hopen
  obtain ⟨e', hrun, -⟩ := runAny_sound href.sound ops
  exact (runAny_refines href hops hrun).mono fun x' h => ⟨records, e', hrec, hrun, get_refines h⟩

/-- The metadata of a registered table say what is read in its file: the file ascends, its
    count and range are recorded, and a lookup finds the entries that it holds. -/
structure Exact (b : Store) (t : SsTableMeta) (r : SsTableReader) (es : List Entry) : Prop where
  opens : openTable b.disk t.path = .ok r
  readAll : r.readAll = .ok es
  get (k : Bytes) : r.get k = .ok (es.lookup k)
  ascending : Ascending es
  count : t.entryCount = es.length
  min : es.head?.map Prod.fst = some t.minKey
  max : es.getLast?.map Prod.fst = some t.maxKey
  /-- the range filter of a lookup does not skip it -/
  range {k : Bytes} : (es.lookup k).isSome → ¬ (k < t.minKey ∨ k > t.maxKey)

/-- The registered tables are exact, under ids of their own. -/
structure TablesExact (b : Store) : Prop where
  exact {L : ℕ} {t : SsTableMeta} : t ∈ b.manifest.level L → ∃ r es, Exact b t r es
  ids : Lsm.Store.IdsDistinct b.manifest

theorem Stands.tablesExact {b : Store} {s : Lsm.Store} (hs : s.Sound) (h : Stands b s) :
    TablesExact b where
  exact {L t} ht := by
    rw [h.manifest] at ht
    obtain ⟨blocks, hb, hes, hopen⟩ := h.openTable ht
    have hex := hs.exact ht
    obtain ⟨-, -, hrange⟩ := hex.range
    refine ⟨readerOf blocks, blocks.flatten, hopen, readAll_eq hb _, get_eq hb ?_, ?_, ?_, ?_, ?_,
      fun {k} hk => ?_⟩
    · exact hes ▸ hex.ascending
    · exact hes ▸ hex.ascending
    · exact hes ▸ hex.count
    · exact hes ▸ hex.min
    · exact hes ▸ hex.max
    · obtain ⟨a, ha, rfl⟩ := List.mem_map.1 (lookup_isSome_iff.1 hk)
      have hr := hrange a (hes ▸ ha)
      exact not_or.2 ⟨not_lt.2 hr.1, not_lt.2 hr.2⟩
  ids := h.manifest ▸ hs.ids

/-- **The tables are exact in every state of a run** of short keys and values. -/
theorem run_filesExact {dir : Dir} {m : M} {config : EngineConfig} {x : LsmEngine M}
    (hm : ShortMemtable m) (hopen : LsmEngine.open_ dir m config = .ok x) {ops : List BulkOp}
    (hops : ∀ op ∈ ops, op.Short) : Completes (x.runAny ops) fun x' => TablesExact x'.store := by
  obtain ⟨records, -, href⟩ := open_refines hm hopen
  obtain ⟨e', hrun, -⟩ := runAny_sound href.sound ops
  exact (runAny_refines href hops hrun).mono fun x' h => h.store.tablesExact h.sound

/-- An engine that was opened in an empty directory. -/
def newEngine : LsmEngine BTreeMemtable where
  memtable := .new
  wal := .open_ none
  store := ⟨Manifest.new numLevels, fun _ => none⟩
  flushThreshold := ({} : EngineConfig).flushThreshold

theorem open_empty : LsmEngine.open_ Dir.empty BTreeMemtable.new {} = .ok newEngine := rfl

/-- Flushes, a refused and an accepted ingestion, and the compaction of their tables. -/
def fourTables : List BulkOp :=
  [.write (.put (.singleton 1) (.singleton 7)), .write .flush,
    .ingestSorted [(.singleton 2, .empty), (.singleton 2, .empty)],
    .ingestSorted [(.singleton 2, .singleton 8)],
    .write (.put (.singleton 3) .empty), .write .flush,
    .write (.delete (.singleton 1)), .write .flush]

theorem fourTables_short : ∀ op ∈ fourTables, op.Short := by
  intro op hop
  simp only [fourTables, List.mem_cons, List.not_mem_nil, or_false] at hop
  rcases hop with rfl | rfl | rfl | rfl | rfl | rfl | rfl | rfl
  · exact And.intro (by decide) (by decide)
  · trivial
  · show ∀ e ∈ [_, _], Entry.Short e
    decide
  · show ∀ e ∈ [_], Entry.Short e
    decide
  · exact And.intro (by decide) (by decide)
  · trivial
  · show Bytes.Short _
    decide
  · trivial

theorem shortMemtable_new : ShortMemtable BTreeMemtable.new := fun k v h => by cases h

/-- None of the files is too large. -/
theorem fourTables_ok : (newEngine.runAny fourTables).isOk = true := by decide +kernel

theorem run_filesExact_fourTables :
    ∃ x, newEngine.runAny fourTables = .ok x ∧ TablesExact x.store := by
  rcases run_filesExact shortMemtable_new open_empty fourTables_short with ⟨x, hrun, hx⟩ | hrun
  · exact ⟨x, hrun, hx⟩
  · have hok := fourTables_ok
    rw [hrun] at hok
    cases hok

theorem run_refines_fourTables : ∃ x e', newEngine.runAny fourTables = .ok x ∧
    (Lsm.LsmEngine.open_ (readDir []) BTreeMemtable.new {}).runAny fourTables = some e' ∧
    ∀ k, ∃ v, e'.get k = .ok v ∧ x.get k = .ok v := by
  rcases run_refines shortMemtable_new open_empty fourTables_short with ⟨x, hrun, hx⟩ | hrun
  · obtain ⟨records, e', hrec, hrun', hget⟩ := hx
    cases hrec
    exact ⟨x, e', hrun, hrun', hget⟩
  · have hok := fourTables_ok
    rw [hrun] at hok
    cases hok

/-! ## A length that does not fit -/

/-- A value of `n` zero bytes. -/
def zeros (n : ℕ) : Bytes := .ofList (List.replicate n 0)

/-- What is read of a table of the key and `8 * m` zero bytes when their number is cut
    to 0: the value is read as entries of its own. -/
def tornEntries (k : Bytes) (m : ℕ) : List Entry :=
  (k, .empty) :: List.replicate m (.empty, .empty)

theorem blockBytes_replicate (m : ℕ) :
    blockBytes (List.replicate m (.empty, .empty)) = List.replicate (8 * m) 0 := by
  induction m with
  | zero => rfl
  | succ m ih =>
    rw [List.replicate_succ, blockBytes_cons, ih, Nat.mul_succ, Nat.add_comm, List.replicate_add]
    rfl

theorem blockBytes_torn (k : Bytes) {m : ℕ} (hm : 8 * m % 2 ^ 32 = 0) :
    blockBytes [(k, zeros (8 * m))] = blockBytes (tornEntries k m) := by
  have hlen : leBytes 4 (8 * m) = leBytes 4 0 := by
    rw [← leBytes_mod, show (256 : ℕ) ^ 4 = 2 ^ 32 by norm_num, hm]
  have hv : prefixed (zeros (8 * m)).toList = leBytes 4 0 ++ List.replicate (8 * m) 0 := by
    show leBytes 4 (List.replicate (8 * m) (0 : Byte)).length ++ _ = _
    rw [List.length_replicate, hlen]
    rfl
  rw [tornEntries, blockBytes_cons, blockBytes_cons, blockBytes_replicate, blockBytes_nil]
  show prefixed k.toList ++ prefixed _ ++ [] = prefixed k.toList ++ (leBytes 4 0 ++ []) ++ _
  rw [hv]
  simp only [List.append_assoc, List.append_nil]

/-- The table of one entry has one block. -/
theorem writerOf_one (k v : Bytes) : (writerOf [(k, v)]).finish = (fileOf [[(k, v)]], 1, k, k) := by
  obtain ⟨blocks, hflat, hne, hfile⟩ := writeTable_eq defaultBlockSize [(k, v)]
  have hone : blocks = [[(k, v)]] := by
    cases blocks with
    | nil => cases hflat
    | cons b bs =>
      obtain ⟨a, l, rfl⟩ := List.exists_cons_of_ne_nil (hne b List.mem_cons_self)
      obtain ⟨rfl, hrest⟩ := List.cons.inj hflat
      obtain ⟨rfl, hbs⟩ := List.append_eq_nil_iff.1 hrest
      cases bs with
      | nil => rfl
      | cons b' bs =>
        refine absurd ?_ (hne b' (by simp))
        exact List.flatten_eq_nil_iff.1 hbs b' List.mem_cons_self
  rw [← hone]
  exact hfile

section Torn
variable {k : Bytes} {m : ℕ} (hm : 8 * m % 2 ^ 32 = 0)
include hm

/-- The file counts one entry and holds one for every eight bytes of the value. -/
theorem fileOf_torn : fileOf [[(k, zeros (8 * m))]] = fileWith 1 [tornEntries k m] := by
  have hbytes := blockBytes_torn k hm
  have hindex : indexBytes [[(k, zeros (8 * m))]] = indexBytes [tornEntries k m] := by
    rw [indexBytes, indexBytes, indexFrom, indexFrom, hbytes]
    rfl
  rw [fileOf, fileWith, fileWith, List.flatten_singleton, List.flatten_singleton, hbytes, hindex]
  rfl

variable (hk : k.Short) (hsize : 8 * m ≤ 2 ^ 40)
include hk hsize

theorem length_fileOf_torn : (fileOf [[(k, zeros (8 * m))]]).length ≤ 2 ^ 41 := by
  have hk' : k.toList.length < 2 ^ 32 := hk
  rw [fileOf_torn hm, length_fileWith, indexBytes, indexFrom, indexFrom, List.flatten_singleton,
    List.flatMap_singleton, length_indexEntry, tornEntries, blockBytes_cons, List.length_append,
    length_encode, blockBytes_replicate, List.length_replicate]
  show 4 + k.toList.length + (4 + 0) + 8 * m + (4 + k.toList.length + 8 + 8) + 20 ≤ _
  omega

theorem blocksOk_torn : BlocksOk [tornEntries k m] := by
  have hlen := length_fileOf_torn hm hk hsize
  rw [fileOf_torn hm, length_fileWith] at hlen
  refine ⟨fun e he => ?_, fun b hb => ?_, ?_⟩
  · rw [List.flatten_singleton, tornEntries, List.mem_cons, List.mem_replicate] at he
    rcases he with rfl | ⟨-, rfl⟩
    · exact ⟨hk, Nat.two_pow_pos 32⟩
    · exact ⟨Nat.two_pow_pos 32, Nat.two_pow_pos 32⟩
  · rw [List.mem_singleton.1 hb]
    exact List.cons_ne_nil _ _
  · rw [fileOf, length_fileWith]
    exact lt_of_le_of_lt hlen (by norm_num)

end Torn

theorem maybeCompact_notFull {b : Store}
    (h : ∀ L, b.manifest.levelCount L < maxTablesPerLevel) : maybeCompact b = .ok b := by
  have key : ∀ is : List ℕ, is.foldlM compactIfFull b = .ok b := by
    intro is
    induction is with
    | nil => rfl
    | cons i is ih =>
      rw [List.foldlM_cons, compactIfFull, if_neg (not_le.2 (h i))]
      exact ih
  exact key _

/-- A put that brings the memtable to the threshold is the whole of a new table. -/
theorem put_flushes {k v : Bytes} (hbig : newEngine.flushThreshold ≤ v.len)
    (hsize : (fileOf [[(k, v)]]).length ≤ maxFileSize) : ∃ x,
      newEngine.runAny [.write (.put k v)] = .ok x ∧ ∃ t ∈ x.store.manifest.level 0,
        t.entryCount = 1 ∧ x.store.disk t.path = some (fileOf [[(k, v)]]) := by
  let t : SsTableMeta := ⟨0, 0, ⟨0, 0⟩, 1, k, k⟩
  let b : Store := (newEngine.store.create 0).register t (fileOf [[(k, v)]])
  have hadd : LsmEngine.addTable newEngine.store [(k, v)] = .ok b := by
    have hfin : ∀ d path, finish (writerOf [(k, v)]) d path =
        .ok ((1, k, k), d.write path (fileOf [[(k, v)]])) := by
      intro d path
      rw [finish, writerOf_one]
      exact if_pos hsize
    show ((finish (writerOf [(k, v)]) _ _).bind _ : Except Failure Store) = _
    rw [hfin]
    rfl
  have hcompact : maybeCompact b = .ok b := by
    refine maybeCompact_notFull fun L => ?_
    show (((Manifest.new numLevels).add t).level L).length < maxTablesPerLevel
    rw [Manifest.level_add, Manifest.level_new]
    split_ifs
    · exact Nat.lt_of_lt_of_eq (show 1 < 4 by decide) rfl
    · decide
  let e : LsmEngine BTreeMemtable :=
    { newEngine with wal := newEngine.wal.appendPut k v
                     memtable := Memtable.insert newEngine.memtable k v }
  have hflush : e.flushMemtable =
      .ok { e with memtable := .new, wal := e.wal.truncate, store := b } := by
    show (LsmEngine.addTable newEngine.store [(k, v)] >>= fun store => maybeCompact store >>=
      fun store => _ : Except Failure (LsmEngine BTreeMemtable)) = _
    rw [hadd]
    show (maybeCompact b >>= _ : Except Failure (LsmEngine BTreeMemtable)) = _
    rw [hcompact]
    rfl
  have hput : newEngine.put k v = e.flushMemtable := by
    refine if_pos ?_
    show newEngine.flushThreshold ≤ 0 + (k.len + v.len)
    omega
  refine ⟨{ e with memtable := .new, wal := e.wal.truncate, store := b }, ?_, t, ?_, rfl, ?_⟩
  · rw [LsmEngine.runAny, List.foldlM_cons, LsmEngine.applyAny, LsmEngine.apply, hput, hflush]
    rfl
  · exact List.mem_singleton_self t
  · exact Disk.write_self (newEngine.store.create 0).disk t.path _

/-- A value whose length is cut to 0. -/
theorem put_torn {m n : ℕ} (hn : 8 * m = n) (hm : n % 2 ^ 32 = 0)
    (hbig : newEngine.flushThreshold ≤ n) (hsize : n ≤ 2 ^ 40) : ∃ x,
      newEngine.runAny [.write (.put (.singleton 1) (zeros n))] = .ok x ∧
        ∃ t ∈ x.store.manifest.level 0, ∃ r es, openTable x.store.disk t.path = .ok r ∧
          r.readAll = .ok es ∧ t.entryCount = 1 ∧ es.length = m + 1 ∧ ¬ Ascending es := by
  subst hn
  have hk : (Bytes.singleton 1).Short := by decide
  have hlen : 8 * m = (zeros (8 * m)).len := List.length_replicate.symm
  obtain ⟨x, hrun, t, ht, hcount, hfile⟩ := put_flushes (k := .singleton 1)
    (hbig.trans hlen.le) ((length_fileOf_torn hm hk hsize).trans (by norm_num [maxFileSize]))
  have hb := blocksOk_torn hm hk hsize
  refine ⟨x, hrun, t, ht, readerWith 1 [tornEntries (.singleton 1) m], _, ?_, readAll_eq hb 1,
    hcount, ?_, ?_⟩
  · rw [openTable, hfile, fileOf_torn hm]
    dsimp only
    rw [open_fileWith hb (by norm_num)]
    rfl
  · rw [List.flatten_singleton, tornEntries, List.length_cons, List.length_replicate]
  · -- the key is followed by an empty one
    rw [List.flatten_singleton]
    intro ha
    have hm0 : m ≠ 0 := by
      rintro rfl
      exact absurd hbig (by decide)
    have hlt := (ascending_cons.1 ha).1 (.empty, .empty) (List.mem_replicate.2 ⟨hm0, rfl⟩)
    exact absurd hlt (by decide)

/-- **The count of a table is wrong, and its keys do not ascend**: a value of `2 ^ 32`
    zero bytes and a flush that the size of the memtable brings about. -/
theorem put_tearsTable : ∃ x₀ x, LsmEngine.open_ Dir.empty BTreeMemtable.new {} = .ok x₀ ∧
    x₀.runAny [.write (.put (.singleton 1) (zeros (2 ^ 32)))] = .ok x ∧
      ∃ t ∈ x.store.manifest.level 0, ∃ r es, openTable x.store.disk t.path = .ok r ∧
        r.readAll = .ok es ∧ t.entryCount = 1 ∧ es.length = 2 ^ 29 + 1 ∧ ¬ Ascending es := by
  refine ⟨newEngine, ?_⟩
  obtain ⟨x, hrun, h⟩ := put_torn (m := 2 ^ 29) (n := 2 ^ 32) (by norm_num) (by norm_num)
    (show 4 * 1024 * 1024 ≤ 2 ^ 32 by norm_num) (by norm_num)
  exact ⟨x, open_empty, hrun, h⟩

end Scry.Lsm.Layout
