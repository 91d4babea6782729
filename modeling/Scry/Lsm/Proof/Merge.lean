/-
  The k-way merge of compaction.

  The heap holds the first pending entry of each source and the scans the others
  (`Loaded`).  Popping an entry takes a smallest pending key, and among equal keys
  the one of the lowest source, so the writer receives for each key the version of
  the oldest table (`merge_spec`).
-/
import Scry.Lib.Versions
import Scry.Lsm.Compaction

namespace Scry.Lsm

/-! ## The order of the heap -/

theorem compare_mergeEntry (a b : MergeEntry) :
    compare a b = (compare b.key a.key).then (compare b.source a.source) := rfl

theorem isLE_mergeEntry {a b : MergeEntry} :
    (compare a b).isLE ↔ b.key < a.key ∨ b.key = a.key ∧ b.source ≤ a.source := by
  rw [compare_mergeEntry, Ordering.isLE_then_iff_or, compare_lt_iff_lt, compare_eq_iff_eq,
    Std.isLE_compare]

instance : Std.TransOrd MergeEntry where
  eq_swap {a b} := by
    rw [compare_mergeEntry, compare_mergeEntry, Ordering.swap_then,
      ← Std.OrientedOrd.eq_swap, ← Std.OrientedOrd.eq_swap]
  isLE_trans {a b c} := by
    simp only [isLE_mergeEntry]
    rintro (h | ⟨h, h'⟩) (g | ⟨g, g'⟩)
    · exact Or.inl (g.trans h)
    · exact Or.inl (g ▸ h)
    · exact Or.inl (h ▸ g)
    · exact Or.inr ⟨g.trans h, g'.trans h'⟩

/-! ## Heap and scans -/

/-- The heap and the scans hold the pending entries `ts`: of a source in `D` the
    first one is in the heap, the others are still in the scan. -/
structure Loaded (D : ℕ → Bool) (heap : BinaryHeap MergeEntry) (scans : List SsTableScan)
    (ts : List (List Entry)) : Prop where
  scan : ∀ i, scans[i]? = ts[i]?.map fun t => (⟨if D i then t.tail else t⟩ : SsTableScan)
  mem : ∀ e, e ∈ heap.elems ↔
    D e.source = true ∧ ts[e.source]?.bind List.head? = some (e.key, e.value)
  nodup : heap.elems.Nodup

theorem Loaded.refill {D : ℕ → Bool} {heap : BinaryHeap MergeEntry} {scans : List SsTableScan}
    {ts : List (List Entry)} (h : Loaded D heap scans ts) {i : ℕ} (hi : D i = false) :
    Loaded (fun j => D j || j == i) (refill heap scans i).1 (refill heap scans i).2 ts := by
  unfold Lsm.refill
  have hs := h.scan i
  rcases ht : ts[i]? with _ | t
  · rw [ht] at hs
    simp only [hs, Option.map_none]
    refine ⟨fun j => ?_, fun e => ?_, h.nodup⟩
    · rw [h.scan j]
      by_cases hj : j = i
      · subst hj; simp [ht]
      · simp [hj]
    · rw [h.mem e]
      by_cases hj : e.source = i
      · simp [hj, ht]
      · simp [hj]
  · rw [ht] at hs
    simp only [hs, Option.map_some, hi, Bool.false_eq_true, if_false, SsTableScan.nextEntry]
    have hscan : ∀ j, (scans.set i ⟨t.tail⟩)[j]? =
        ts[j]?.map fun t => (⟨if (D j || j == i) = true then t.tail else t⟩ : SsTableScan) := by
      intro j
      by_cases hj : j = i
      · subst hj
        rw [List.getElem?_set_self (List.getElem?_eq_some_iff.1 hs).choose, ht]
        simp
      · rw [List.getElem?_set_ne (Ne.symm hj), h.scan j]
        simp [hj]
    rcases t with _ | ⟨⟨k, v⟩, t⟩
    · refine ⟨hscan, fun e => ?_, h.nodup⟩
      simp only [List.head?_nil, h.mem e]
      by_cases hj : e.source = i
      · simp [hj, ht]
      · simp [hj]
    · refine ⟨hscan, fun e => ?_, ?_⟩
      · simp only [List.head?_cons, BinaryHeap.push, List.mem_cons, h.mem e]
        by_cases hj : e.source = i
        · obtain ⟨ek, ev, es⟩ := e
          simp only at hj
          subst hj
          simp [ht, hi, eq_comm]
        · have : e ≠ ⟨k, v, i⟩ := fun he => hj (by rw [he])
          simp [hj, this]
      · refine List.nodup_cons.2 ⟨fun hm => ?_, h.nodup⟩
        have := ((h.mem _).1 hm).1
        simp [hi] at this

theorem seed_loaded (readers : List SsTableReader) :
    Loaded (fun _ => true) (seed (readers.map SsTableReader.scan)).1
      (seed (readers.map SsTableReader.scan)).2 (readers.map SsTableReader.entries) := by
  set ts := readers.map SsTableReader.entries with hts
  set scans := readers.map SsTableReader.scan with hscans
  have key : ∀ n, Loaded (fun j => decide (j < n))
      ((List.range n).foldl (fun p i => refill p.1 p.2 i) (BinaryHeap.new, scans)).1
      ((List.range n).foldl (fun p i => refill p.1 p.2 i) (BinaryHeap.new, scans)).2 ts := by
    intro n
    induction n with
    | zero =>
      refine ⟨fun i => ?_, fun e => ?_, List.nodup_nil⟩
      · simp only [hscans, hts, List.range_zero, List.foldl_nil, List.getElem?_map, Option.map_map]
        rfl
      · simp [BinaryHeap.new]
    | succ n ih =>
      rw [List.range_succ, List.foldl_append, List.foldl_cons, List.foldl_nil]
      have := ih.refill (i := n) (by simp)
      have hD : (fun j => decide (j < n) || j == n) = fun j => decide (j < n + 1) := by
        funext j
        rw [Bool.eq_iff_iff]
        simp only [Bool.or_eq_true, decide_eq_true_eq, beq_iff_eq]
        omega
      rwa [hD] at this
  have h := key scans.length
  have hlen : scans.length = ts.length := by simp [scans, ts]
  rw [hlen] at h
  have hin : ∀ i, ¬ i < ts.length → ts[i]? = none := fun i hi => by simpa using hi
  unfold seed
  rw [hlen]
  refine ⟨fun i => ?_, fun e => ?_, h.nodup⟩
  · rw [h.scan i]
    by_cases hi : i < ts.length
    · simp only [hi, decide_true]
    · rw [hin i hi]; rfl
  · rw [h.mem e]
    by_cases hi : e.source < ts.length
    · simp only [hi, decide_true]
    · rw [hin e.source hi]; simp

/-- **Popping the heap**: the popped entry is pending first in its source, no pending
    key is smaller, and no earlier source holds the same key. -/
theorem Loaded.pop {heap heap' : BinaryHeap MergeEntry} {scans : List SsTableScan}
    {ts : List (List Entry)} (h : Loaded (fun _ => true) heap scans ts)
    (hs : ∀ t ∈ ts, Ascending t) {e : MergeEntry} (hp : heap.pop = some (e, heap')) :
    ∃ t, ts[e.source]? = some ((e.key, e.value) :: t) ∧
      Loaded (fun j => j != e.source) heap' scans (ts.set e.source t) ∧
      (∀ t' ∈ ts, ∀ a ∈ t', e.key ≤ a.1) ∧
      ∀ j t', j < e.source → ts[j]? = some t' → t'.lookup e.key = none := by
  have hperm := BinaryHeap.pop_perm hp
  have hnd := hperm.symm.nodup h.nodup
  obtain ⟨hne, hnd'⟩ := List.nodup_cons.1 hnd
  have hmem : ∀ f, f ∈ heap.elems ↔ f = e ∨ f ∈ heap'.elems := fun f => by
    rw [← hperm.mem_iff, List.mem_cons]
  have hhead := ((h.mem e).1 ((hmem e).2 (Or.inl rfl))).2
  rw [Option.bind_eq_some_iff] at hhead
  obtain ⟨s, hse, hsh⟩ := hhead
  obtain ⟨t, rfl⟩ : ∃ t, s = (e.key, e.value) :: t := by
    cases s with
    | nil => simp at hsh
    | cons a t => simp at hsh; exact ⟨t, by rw [hsh]⟩
  -- every source's first entry is at most as great as `e` in the heap's order
  have hle : ∀ j a t', ts[j]? = some (a :: t') →
      e.key < a.1 ∨ e.key = a.1 ∧ e.source ≤ j := by
    intro j a t' hj
    have hm : (⟨a.1, a.2, j⟩ : MergeEntry) ∈ heap.elems := (h.mem _).2 ⟨rfl, by simp [hj]⟩
    rcases (hmem _).1 hm with he | hm
    · exact Or.inr ⟨by rw [← he], by rw [← he]⟩
    · exact isLE_mergeEntry.1 (BinaryHeap.pop_max hp _ hm)
  have hmin : ∀ t' ∈ ts, ∀ a ∈ t', e.key ≤ a.1 := by
    intro t' ht' a ha
    obtain ⟨j, hj⟩ := List.mem_iff_getElem?.1 ht'
    cases t' with
    | nil => simp at ha
    | cons b t' =>
      have hb : e.key ≤ b.1 := (hle j b t' hj).elim le_of_lt fun h => le_of_eq h.1
      rcases List.mem_cons.1 ha with rfl | ha
      · exact hb
      · exact hb.trans ((ascending_cons.1 (hs _ ht')).1 a ha).le
  refine ⟨t, hse, ⟨fun i => ?_, fun f => ?_, hnd'⟩, hmin, fun j t' hj ht' => ?_⟩
  · rw [h.scan i]
    by_cases hi : i = e.source
    · subst hi
      have hlt : e.source < ts.length := (List.getElem?_eq_some_iff.1 hse).choose
      rw [hse, List.getElem?_set_self hlt]
      simp
    · rw [List.getElem?_set_ne (Ne.symm hi)]
      simp [hi]
  · by_cases hf : f.source = e.source
    · refine ⟨fun hm => ?_, fun hm => by simp [hf] at hm⟩
      have := ((h.mem f).1 ((hmem f).2 (Or.inr hm))).2
      rw [hf, hse] at this
      simp only [Option.bind_some, List.head?_cons, Option.some.injEq, Prod.mk.injEq] at this
      have hfe : f = e := by
        obtain ⟨fk, fv, fs⟩ := f
        obtain ⟨ek, ev, es⟩ := e
        simp only at hf this
        rw [hf, this.1, this.2]
      exact absurd (hfe ▸ hm) hne
    · rw [List.getElem?_set_ne (Ne.symm hf)]
      have := h.mem f
      rw [hmem f] at this
      have hfe : f ≠ e := fun he => hf (by rw [he])
      simpa [hfe, hf] using this
  · cases t' with
    | nil => rfl
    | cons b t' =>
      have hb := (hle j b t' ht').resolve_right fun h => absurd h.2 (by omega)
      refine lookup_of_lt fun a ha => ?_
      rcases List.mem_cons.1 ha with rfl | ha
      · exact hb
      · exact hb.trans ((ascending_cons.1 (hs _ (List.mem_of_getElem? ht'))).1 a ha)

/-! ## What the loop writes -/

/-- The entries a merge keeps: at the highest level tombstones are dropped. -/
def keep (isHighest : Bool) (v : Bytes) : Bool := !(isHighest && v.isEmpty)

/-- The writer's bookkeeping agrees with the entries it received. -/
structure SsTableWriter.Ok (w : SsTableWriter) : Prop where
  count : w.entryCount = w.entries.length
  min : w.minKey = w.entries.head?.map Prod.fst
  max : w.maxKey = w.entries.getLast?.map Prod.fst

theorem SsTableWriter.Ok.new (d : Disk) (p : SstPath) : (SsTableWriter.new d p).1.Ok :=
  ⟨rfl, rfl, rfl⟩

theorem SsTableWriter.Ok.add {w : SsTableWriter} (h : w.Ok) (k v : Bytes) : (w.add k v).Ok := by
  refine ⟨by simp [SsTableWriter.add, h.count], ?_, by simp [SsTableWriter.add]⟩
  simp only [SsTableWriter.add, h.min]
  cases w.entries <;> simp

/-- What one run of the loop adds to the writer. -/
structure LoopSpec (isHighest : Bool) (ts : List (List Entry)) (s s' : MergeState)
    (out : List Entry) : Prop where
  done : s'.heap.elems = []
  entries : s'.writer.entries = s.writer.entries ++ out
  path : s'.writer.path = s.writer.path
  ok : s.writer.Ok → s'.writer.Ok
  wrote : s'.wroteAny = (s.wroteAny || !out.isEmpty)
  ascending : Ascending out
  above : ∀ lk, s.lastKey = some lk → ∀ a ∈ out, lk < a.1
  lookup : ∀ k, out.lookup k =
    if s.lastKey = some k then none else (oldest ts k).filter (keep isHighest)

theorem filter_keep (isHighest : Bool) (v : Bytes) :
    (some v).filter (keep isHighest) = if isHighest && v.isEmpty then none else some v := by
  unfold keep
  cases h : (isHighest && v.isEmpty) <;> simp [Option.filter, h]

theorem sum_length_set {ts : List (List Entry)} {i : ℕ} {a : Entry} {t : List Entry}
    (h : ts[i]? = some (a :: t)) :
    ((ts.set i t).map List.length).sum + 1 = (ts.map List.length).sum := by
  induction ts generalizing i with
  | nil => simp at h
  | cons s ts ih =>
    cases i with
    | zero => simp at h; subst h; simp; omega
    | succ i =>
      have := ih (i := i) (by simpa using h)
      simp only [List.set_cons_succ, List.map_cons, List.sum_cons]
      omega

theorem mergeLoop_spec (isHighest : Bool) : ∀ (n : ℕ) (s : MergeState) (ts : List (List Entry)),
    Loaded (fun _ => true) s.heap s.scans ts → (∀ t ∈ ts, Ascending t) →
    (∀ lk, s.lastKey = some lk → ∀ t ∈ ts, ∀ a ∈ t, lk ≤ a.1) →
    (ts.map List.length).sum ≤ n →
    ∃ out, LoopSpec isHighest ts s (mergeLoop isHighest n s) out := by
  intro n
  induction n with
  | zero =>
    intro s ts hl hs hlk hn
    have hempty : ∀ t ∈ ts, t = [] := fun t ht => by
      have := List.single_le_sum (l := ts.map List.length) (by simp) t.length
        (List.mem_map_of_mem ht)
      exact List.length_eq_zero_iff.1 (by omega)
    have hold : ∀ k, oldest ts k = none := fun k =>
      oldest_eq_none.2 fun t ht => by rw [hempty t ht]; rfl
    refine ⟨[], ⟨?_, by simp [mergeLoop], rfl, id, by simp [mergeLoop], ascending_nil, by simp,
      fun k => by simp [hold k]⟩⟩
    refine List.eq_nil_iff_forall_not_mem.2 fun e he => ?_
    obtain ⟨-, hh⟩ := (hl.mem e).1 he
    obtain ⟨t, ht, hh⟩ := Option.bind_eq_some_iff.1 hh
    rw [hempty t (List.mem_of_getElem? ht)] at hh
    simp at hh
  | succ n ih =>
    intro s ts hl hs hlk hn
    unfold mergeLoop mergeStep
    rcases hp : s.heap.pop with _ | ⟨e, heap'⟩
    · have hheap := BinaryHeap.pop_eq_none hp
      have hempty : ∀ t ∈ ts, t = [] := fun t ht => by
        obtain ⟨i, hi⟩ := List.mem_iff_getElem?.1 ht
        cases t with
        | nil => rfl
        | cons a t =>
          have := (hl.mem ⟨a.1, a.2, i⟩).2 ⟨rfl, by simp [hi]⟩
          simp [hheap] at this
      have hold : ∀ k, oldest ts k = none := fun k =>
        oldest_eq_none.2 fun t ht => by rw [hempty t ht]; rfl
      exact ⟨[], ⟨hheap, by simp, rfl, id, by simp, ascending_nil, by simp,
        fun k => by simp [hold k]⟩⟩
    · obtain ⟨t, hts, hl', hmin, hfirst⟩ := hl.pop hs hp
      set ts' := ts.set e.source t with hts'
      have hsub : ∀ t' ∈ ts', t' ∈ ts ∨ t' = t := fun t' ht' => List.mem_or_eq_of_mem_set ht'
      have hasc := ascending_cons.1 (hs _ (List.mem_of_getElem? hts))
      have hs' : ∀ t' ∈ ts', Ascending t' := fun t' ht' => by
        rcases hsub t' ht' with h | rfl
        exacts [hs t' h, hasc.2]
      have hmin' : ∀ t' ∈ ts', ∀ a ∈ t', e.key ≤ a.1 := fun t' ht' a ha => by
        rcases hsub t' ht' with h | rfl
        exacts [hmin t' h a ha, (hasc.1 a ha).le]
      have hsum : (ts'.map List.length).sum ≤ n := by
        have : (ts'.map List.length).sum + 1 = (ts.map List.length).sum := sum_length_set hts
        omega
      have hload : Loaded (fun _ => true) (refill heap' s.scans e.source).1
          (refill heap' s.scans e.source).2 ts' := by
        have := hl'.refill (i := e.source) (by simp)
        have hD : (fun j => j != e.source || j == e.source) = fun _ => true := by
          funext j; by_cases h : j = e.source <;> simp [h]
        rwa [hD] at this
      have hold : oldest ts e.key = some e.value :=
        oldest_of_first hts (by simp) hfirst
      have hrest : ∀ k, k ≠ e.key → oldest ts' k = oldest ts k := fun k hk =>
        oldest_set hts (by rw [lookup_cons_ite, if_neg hk])
      simp only
      by_cases hdup : s.lastKey = some e.key
      · -- a key already treated: its remaining versions are skipped
        rw [if_pos hdup]
        obtain ⟨out, ho⟩ := ih { s with heap := _, scans := _ } ts' hload hs'
          (fun lk h => by
            rw [hdup, Option.some.injEq] at h; subst h; exact hmin') hsum
        refine ⟨out, ⟨ho.done, ho.entries, ho.path, ho.ok, ho.wrote, ho.ascending, ho.above,
          fun k => ?_⟩⟩
        rw [ho.lookup k]
        by_cases hk : s.lastKey = some k
        · rw [if_pos hk, if_pos hk]
        · rw [if_neg hk, if_neg hk, hrest k fun h => hk (h ▸ hdup)]
      · rw [if_neg hdup]
        -- the keys up to the previous one have no pending version left
        have hlast : ∀ k, s.lastKey = some k → oldest ts' k = none := fun k hk => by
          have hlt : k < e.key := lt_of_le_of_ne
            (hlk k hk _ (List.mem_of_getElem? hts) _ List.mem_cons_self)
            fun h => hdup (h ▸ hk)
          exact oldest_eq_none.2 fun t' ht' =>
            lookup_of_lt fun a ha => hlt.trans_le (hmin' t' ht' a ha)
        by_cases hdrop : (isHighest && e.value.isEmpty) = true
        · -- a tombstone dropped at the highest level
          rw [if_pos hdrop]
          obtain ⟨out, ho⟩ := ih ⟨_, _, s.writer, some e.key, s.wroteAny⟩ ts' hload hs'
            (fun lk h => by simp only [Option.some.injEq] at h; subst h; exact hmin') hsum
          refine ⟨out, ⟨ho.done, ho.entries, ho.path, ho.ok, ho.wrote, ho.ascending,
            fun lk h a ha => ?_, fun k => ?_⟩⟩
          · exact (hlk lk h _ (List.mem_of_getElem? hts) _ List.mem_cons_self).trans_lt
              (ho.above _ rfl a ha)
          · rw [ho.lookup k]
            by_cases hk : k = e.key
            · subst hk
              rw [if_pos rfl, if_neg hdup, hold, filter_keep, if_pos hdrop]
            · have : ¬ (some e.key = some k) := fun h => hk (Option.some.inj h).symm
              rw [if_neg this]
              split_ifs with hlk'
              · rw [hlast k hlk']; rfl
              · rw [hrest k hk]
        · -- the version of the lowest source is written
          rw [if_neg hdrop]
          obtain ⟨out, ho⟩ := ih ⟨_, _, s.writer.add e.key e.value, some e.key, true⟩ ts' hload
            hs' (fun lk h => by simp only [Option.some.injEq] at h; subst h; exact hmin') hsum
          refine ⟨(e.key, e.value) :: out, ⟨ho.done, ?_, ho.path, fun h => ho.ok (h.add _ _),
            by rw [ho.wrote]; simp, ascending_cons.2 ⟨ho.above _ rfl, ho.ascending⟩,
            fun lk h a ha => ?_, fun k => ?_⟩⟩
          · rw [ho.entries]; simp [SsTableWriter.add]
          · have hlt : lk < e.key := lt_of_le_of_ne
              (hlk lk h _ (List.mem_of_getElem? hts) _ List.mem_cons_self)
              fun h' => hdup (h' ▸ h)
            rcases List.mem_cons.1 ha with rfl | ha
            · exact hlt
            · exact hlt.trans (ho.above _ rfl a ha)
          · rw [lookup_cons_ite, ho.lookup k]
            by_cases hk : k = e.key
            · subst hk
              rw [if_pos rfl, if_neg hdup, hold, filter_keep, if_neg hdrop]
            · have : ¬ (some e.key = some k) := fun h => hk (Option.some.inj h).symm
              rw [if_neg hk, if_neg this]
              split_ifs with hlk'
              · rw [hlast k hlk']; rfl
              · rw [hrest k hk]

/-- More turns of the loop go on where it was. -/
theorem mergeLoop_add (isHighest : Bool) (n d : ℕ) (s : MergeState) :
    mergeLoop isHighest (n + d) s = mergeLoop isHighest d (mergeLoop isHighest n s) := by
  induction n generalizing s with
  | zero => rw [Nat.zero_add, mergeLoop]
  | succ n ih =>
    rw [Nat.add_right_comm, mergeLoop, mergeLoop]
    cases hstep : mergeStep isHighest s with
    | some s' => exact ih s'
    | none =>
      -- the loop has ended
      cases d with
      | zero => rfl
      | succ d => rw [mergeLoop, hstep]

/-- **The merge writes, for each key, the version of the oldest table.** -/
theorem merge_spec (isHighest : Bool) (readers : List SsTableReader) (w : SsTableWriter)
    (hs : ∀ r ∈ readers, Ascending r.entries) :
    ∃ out, LoopSpec isHighest (readers.map SsTableReader.entries)
      ⟨(seed (readers.map SsTableReader.scan)).1, (seed (readers.map SsTableReader.scan)).2, w,
        none, false⟩ (merge isHighest readers w) out := by
  refine mergeLoop_spec isHighest _ _ _ (seed_loaded readers) (fun t ht => ?_) (by simp) ?_
  · obtain ⟨r, hr, rfl⟩ := List.mem_map.1 ht
    exact hs r hr
  · rw [List.map_map]; rfl

/-- The merge is done after as many turns as there are entries. -/
theorem merge_eq_mergeLoop (isHighest : Bool) (readers : List SsTableReader) (w : SsTableWriter)
    (hs : ∀ r ∈ readers, Ascending r.entries) {n : ℕ}
    (hn : (readers.map fun r => r.entries.length).sum ≤ n) :
    mergeLoop isHighest n ⟨(seed (readers.map SsTableReader.scan)).1,
      (seed (readers.map SsTableReader.scan)).2, w, none, false⟩ = merge isHighest readers w := by
  obtain ⟨out, ho⟩ := merge_spec isHighest readers w hs
  obtain ⟨d, rfl⟩ := Nat.exists_eq_add_of_le hn
  have hmerge : mergeLoop isHighest (readers.map fun r => r.entries.length).sum
      ⟨(seed (readers.map SsTableReader.scan)).1, (seed (readers.map SsTableReader.scan)).2, w,
        none, false⟩ = merge isHighest readers w := rfl
  rw [mergeLoop_add, hmerge]
  cases d with
  | zero => rfl
  | succ d =>
    have hpop : (merge isHighest readers w).heap.pop = none := by
      rw [BinaryHeap.pop, ho.done]
      rfl
    rw [mergeLoop, mergeStep, hpop]

end Scry.Lsm
