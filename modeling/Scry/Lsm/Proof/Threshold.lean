/-
  What the flush threshold bounds.

  A put checks the count of the memtable and a delete checks nothing.  After one call the
  memtable holds less than the threshold exactly if there was room for the pair or the
  count made the engine flush (`apply_bounded_iff`); where every insert is counted, the
  count is never below what the memtable holds, so that puts need no condition.
-/
import Scry.Lsm.Memtables
import Scry.Lsm.Proof.Engine
import Scry.Lib.Run

namespace Scry.Lsm

/-! ## What a memtable holds -/

/-- The lengths of all keys and values. -/
def bytesOf (l : List Entry) : ℕ := (l.map fun e => e.1.len + e.2.len).sum

theorem bytesOf_cons (e : Entry) (l : List Entry) :
    bytesOf (e :: l) = e.1.len + e.2.len + bytesOf l := by
  rw [bytesOf, List.map_cons, List.sum_cons, bytesOf]

/-- The other keys. -/
def others (k : Bytes) (l : List Entry) : List Entry := l.filter fun e => e.1 ≠ k

theorem others_of_lt {k : Bytes} {l : List Entry} (h : ∀ e ∈ l, k < e.1) : others k l = l :=
  List.filter_eq_self.2 fun e he => decide_eq_true (h e he).ne'

theorem others_cons (k : Bytes) (e : Entry) (l : List Entry) :
    others k (e :: l) = if e.1 = k then others k l else e :: others k l := by
  by_cases h : e.1 = k
  · rw [if_pos h, others, List.filter_cons_of_neg (by simp [h])]
    rfl
  · rw [if_neg h, others, List.filter_cons_of_pos (by simp [h])]
    rfl

theorem bytesOf_others_le (k : Bytes) (l : List Entry) : bytesOf (others k l) ≤ bytesOf l := by
  induction l with
  | nil => exact le_rfl
  | cons e l ih =>
    rw [others_cons, bytesOf_cons]
    split_ifs
    · omega
    · rw [bytesOf_cons]
      omega

/-- **An insert replaces the bytes of its key.** -/
theorem bytesOf_insertList (k v : Bytes) {l : List Entry} (hl : Ascending l) :
    bytesOf (SortedMap.insertList k v l) = bytesOf (others k l) + (k.len + v.len) := by
  induction l with
  | nil =>
    rw [SortedMap.insertList, bytesOf_cons]
    exact Nat.add_comm _ _
  | cons e l ih =>
    obtain ⟨k', v'⟩ := e
    obtain ⟨hlt, hl⟩ := ascending_cons.1 hl
    rw [SortedMap.insertList]
    split_ifs with h₁ h₂
    · have hall : ∀ e ∈ (k', v') :: l, k < e.1 := by
        intro e he
        rcases List.mem_cons.1 he with rfl | he
        · exact h₁
        · exact h₁.trans (hlt e he)
      rw [others_of_lt hall, bytesOf_cons]
      exact Nat.add_comm _ _
    · subst h₂
      rw [others_cons, if_pos rfl, others_of_lt hlt, bytesOf_cons]
      exact Nat.add_comm _ _
    · rw [others_cons, if_neg fun h => h₂ h.symm, bytesOf_cons, bytesOf_cons, ih hl]
      exact (Nat.add_assoc _ _ _).symm

variable {M : Type} [Memtable M]

/-- The entries of a memtable, which are those that a drain returns. -/
def contents (m : M) : List Entry := (Memtable.drainSorted m).1

section Lawful
variable [LawfulMemtable M]

theorem contents_ascending (m : M) : Ascending (contents m) := LawfulMemtable.drain_ascending m

theorem contents_insert (m : M) (k v : Bytes) :
    contents (Memtable.insert m k v) = SortedMap.insertList k v (contents m) := by
  have hasc := contents_ascending m
  refine (contents_ascending _).eq_of_lookup (SortedMap.insertList_ascending k v hasc) fun k₀ => ?_
  rw [SortedMap.lookup_insertList k v k₀ hasc, contents, contents, LawfulMemtable.drain_lookup,
    LawfulMemtable.drain_lookup, LawfulMemtable.get_insert]

theorem contents_delete (m : M) (k : Bytes) :
    contents (Memtable.delete m k) = SortedMap.insertList k .empty (contents m) := by
  have hasc := contents_ascending m
  refine (contents_ascending _).eq_of_lookup (SortedMap.insertList_ascending k _ hasc) fun k₀ => ?_
  rw [SortedMap.lookup_insertList k _ k₀ hasc, contents, contents, LawfulMemtable.drain_lookup,
    LawfulMemtable.drain_lookup, LawfulMemtable.get_delete]

theorem contents_drained (m : M) : contents (Memtable.drainSorted m).2 = [] := by
  refine (contents_ascending _).eq_of_lookup ascending_nil fun k => ?_
  rw [contents, LawfulMemtable.drain_lookup, LawfulMemtable.get_drain]
  rfl

end Lawful

/-! ## One call -/

/-- Beside the other keys there is room for a pair below the threshold. -/
def Room (e : LsmEngine M) (k v : Bytes) : Prop :=
  bytesOf (others k (contents e.memtable)) + (k.len + v.len) < e.flushThreshold

/-- The memtable holds less than the threshold. -/
def Bounded (e : LsmEngine M) : Prop := bytesOf (contents e.memtable) < e.flushThreshold

instance (e : LsmEngine M) : Decidable (Bounded e) := inferInstanceAs (Decidable (_ < _))

/-- The count of a memtable after a put reaches the threshold. -/
def Triggers (e : LsmEngine M) (k v : Bytes) : Prop :=
  e.flushThreshold ≤ Memtable.approximateBytes (Memtable.insert e.memtable k v)

/-- There is room for what is written, or the engine flushes. -/
def RoomOrFlush (e : LsmEngine M) : Op → Prop
  | .put k v => Room e k v ∨ Triggers e k v
  | .delete k => Room e k .empty
  | .flush => True

theorem flushMemtable_memtable {e e' : LsmEngine M} (h : e.flushMemtable = .ok e') :
    e'.memtable = (Memtable.drainSorted e.memtable).2 ∧ e'.flushThreshold = e.flushThreshold := by
  rw [flushMemtable_eq] at h
  split_ifs at h
  · cases h
    exact ⟨rfl, rfl⟩
  · cases hrun : maybeCompact (LsmEngine.addTable e.store (Memtable.drainSorted e.memtable).1) with
    | error err =>
      rw [hrun] at h
      cases h
    | ok store =>
      rw [hrun] at h
      cases h
      exact ⟨rfl, rfl⟩

theorem apply_threshold {e e' : LsmEngine M} {op : Op} (h : e.apply op = .ok e') :
    e'.flushThreshold = e.flushThreshold := by
  cases op with
  | flush => exact (flushMemtable_memtable h).2
  | delete k =>
    cases h
    rfl
  | put k v =>
    rw [LsmEngine.apply, LsmEngine.put, LsmEngine.maybeFlush] at h
    split_ifs at h
    · exact (flushMemtable_memtable h).2
    · cases h
      rfl

section Lawful
variable [LawfulMemtable M]

theorem flushMemtable_bounded {e e' : LsmEngine M} (hT : 1 ≤ e.flushThreshold)
    (h : e.flushMemtable = .ok e') : Bounded e' := by
  obtain ⟨hm, ht⟩ := flushMemtable_memtable h
  rw [Bounded, hm, ht, contents_drained]
  exact hT

/-- **Step lemma**: after a call the memtable holds less than the threshold exactly if
    there was room, or the engine flushed. -/
theorem apply_bounded_iff {e e' : LsmEngine M} {op : Op} (hT : 1 ≤ e.flushThreshold)
    (h : e.apply op = .ok e') : Bounded e' ↔ RoomOrFlush e op := by
  cases op with
  | flush => exact iff_of_true (flushMemtable_bounded hT h) trivial
  | delete k =>
    cases h
    rw [Bounded, RoomOrFlush, Room, contents_delete,
      bytesOf_insertList k _ (contents_ascending e.memtable)]
  | put k v =>
    rw [LsmEngine.apply, LsmEngine.put, LsmEngine.maybeFlush] at h
    split_ifs at h with hfull
    · exact iff_of_true (flushMemtable_bounded (by exact hT) h) (Or.inr hfull)
    · cases h
      rw [Bounded, RoomOrFlush, contents_insert,
        bytesOf_insertList k v (contents_ascending e.memtable)]
      exact ⟨Or.inl, fun h => h.resolve_right hfull⟩

end Lawful

/-! ## Runs -/

/-- A call, if it returns `Ok`. -/
def LsmEngine.tryApply (e : LsmEngine M) (op : Op) : Option (LsmEngine M) := (e.apply op).toOption

/-- After each call of a run that returned `Ok` the memtable holds less than the
    threshold. -/
def StaysBounded (e : LsmEngine M) (ops : List Op) : Prop :=
  ∀ pre e', pre <+: ops → pre ≠ [] → e.run pre = .ok e' → Bounded e'

section Lawful
variable [LawfulMemtable M]

/-- **Run lemma**: a condition on each call that is exact under an invariant is exact for
    runs. -/
theorem staysBounded_iff {I : LsmEngine M → Prop} {C : LsmEngine M → Op → Prop}
    (hI : ∀ {e e' : LsmEngine M} {op}, I e → e.apply op = .ok e' → I e')
    (hC : ∀ {e : LsmEngine M} {op}, I e → (RoomOrFlush e op ↔ C e op))
    {e : LsmEngine M} (hs : e.store.WF) (hT : 1 ≤ e.flushThreshold) (he : I e) (ops : List Op) :
    StaysBounded e ops ↔ Run.Meets LsmEngine.tryApply C e ops := by
  induction ops generalizing e with
  | nil => exact iff_of_true (fun pre e' hpre hne => absurd (List.prefix_nil.1 hpre) hne) trivial
  | cons op ops ih =>
    obtain ⟨e₁, h₁, hs₁, -⟩ := apply_answered hs op
    have htry : e.tryApply op = some e₁ := by rw [LsmEngine.tryApply, h₁]; rfl
    have hcons (pre : List Op) : e.run (op :: pre) = e₁.run pre := by
      rw [LsmEngine.run, List.foldlM_cons, h₁]
      rfl
    have hstep := (apply_bounded_iff hT h₁).trans (hC he)
    have ih := ih hs₁ (apply_threshold h₁ ▸ hT) (hI he h₁)
    constructor
    · intro h
      refine Run.Meets.cons htry (hstep.1 (h [op] e₁ ⟨ops, rfl⟩ (List.cons_ne_nil _ _) ?_))
        (ih.1 fun pre e' hpre _ hrun => ?_)
      · exact hcons []
      · exact h (op :: pre) e' (List.cons_prefix_cons.2 ⟨rfl, hpre⟩) (List.cons_ne_nil _ _)
          ((hcons pre).trans hrun)
    · rintro ⟨hc, hr⟩ pre e' hpre hne hrun
      cases pre with
      | nil => exact absurd rfl hne
      | cons op' pre =>
        obtain ⟨rfl, hpre'⟩ := List.cons_prefix_cons.1 hpre
        rw [hcons] at hrun
        cases pre with
        | nil =>
          cases hrun
          exact hstep.2 hc
        | cons op₂ pre => exact ih.2 (hr e₁ htry) _ e' hpre' (List.cons_ne_nil _ _) hrun

end Lawful

/-! ## The three memtables -/

/-- A memtable that counts the bytes of every insert. -/
class CountsInserts (M : Type) [Memtable M] : Prop where
  count_insert (m : M) (k v : Bytes) : Memtable.approximateBytes (Memtable.insert m k v) =
    Memtable.approximateBytes m + (k.len + v.len)
  count_delete (m : M) (k : Bytes) : Memtable.approximateBytes (Memtable.delete m k) =
    Memtable.approximateBytes m + (k.len + Bytes.len .empty)

instance : CountsInserts BTreeMemtable := ⟨fun _ _ _ => rfl, fun _ _ => rfl⟩

instance : CountsInserts SkipListMemtable := ⟨fun _ _ _ => rfl, fun _ _ => rfl⟩

/-- The count is not below what the memtable holds. -/
def Counted (m : M) : Prop := bytesOf (contents m) ≤ Memtable.approximateBytes m

/-- A delete needs room, since it flushes nothing. -/
def RoomToDelete (e : LsmEngine M) : Op → Prop
  | .delete k => Room e k .empty
  | .put _ _ => True
  | .flush => True

section Counting
variable [LawfulMemtable M] [CountsInserts M]

theorem Counted.insert {m : M} (h : Counted m) (k v : Bytes) : Counted (Memtable.insert m k v) := by
  rw [Counted, contents_insert, bytesOf_insertList k v (contents_ascending m),
    CountsInserts.count_insert]
  exact Nat.add_le_add_right ((bytesOf_others_le _ _).trans h) _

theorem Counted.delete {m : M} (h : Counted m) (k : Bytes) : Counted (Memtable.delete m k) := by
  rw [Counted, contents_delete, bytesOf_insertList k _ (contents_ascending m),
    CountsInserts.count_delete]
  exact Nat.add_le_add_right ((bytesOf_others_le _ _).trans h) _

omit [CountsInserts M] in
theorem Counted.drained (m : M) : Counted (Memtable.drainSorted m).2 := by
  rw [Counted, contents_drained]
  exact Nat.zero_le _

theorem Counted.replay {m : M} (h : Counted m) (rs : List WalRecord) :
    Counted (rs.foldl LsmEngine.replay m) := by
  induction rs generalizing m with
  | nil => exact h
  | cons r rs ih =>
    cases r with
    | put k v => exact ih (h.insert k v)
    | delete k => exact ih (h.delete k)

theorem Counted.apply {e e' : LsmEngine M} {op : Op} (h : Counted e.memtable)
    (hrun : e.apply op = .ok e') : Counted e'.memtable := by
  cases op with
  | flush =>
    rw [(flushMemtable_memtable hrun).1]
    exact .drained _
  | delete k =>
    cases hrun
    exact h.delete k
  | put k v =>
    rw [LsmEngine.apply, LsmEngine.put, LsmEngine.maybeFlush] at hrun
    split_ifs at hrun
    · rw [(flushMemtable_memtable hrun).1]
      exact .drained _
    · cases hrun
      exact h.insert k v

omit [LawfulMemtable M] in
/-- **With every insert counted, a put leaves room or flushes.** -/
theorem roomOrFlush_iff {e : LsmEngine M} {op : Op} (h : Counted e.memtable) :
    RoomOrFlush e op ↔ RoomToDelete e op := by
  cases op with
  | flush => exact Iff.rfl
  | delete k => exact Iff.rfl
  | put k v =>
    refine iff_of_true ?_ trivial
    by_cases hfull : Triggers e k v
    · exact Or.inr hfull
    · left
      rw [Triggers, CountsInserts.count_insert, not_le] at hfull
      have hle := bytesOf_others_le k (contents e.memtable)
      rw [Counted] at h
      rw [Room]
      omega

theorem staysBounded_counting {m : M} (hm : Counted m) (dir : Dir) (config : EngineConfig)
    (hT : 1 ≤ config.flushThreshold) (ops : List Op) :
    StaysBounded (LsmEngine.open_ dir m config) ops ↔
      Run.Meets LsmEngine.tryApply RoomToDelete (LsmEngine.open_ dir m config) ops :=
  staysBounded_iff (I := fun e => Counted e.memtable) (fun h hrun => h.apply hrun)
    (fun h => roomOrFlush_iff h) (Store.wf_new _ _) hT (hm.replay _) ops

end Counting

/-- In the learned memtable a put needs room too, unless the count, which an overwrite
    leaves alone, makes the engine flush. -/
def RoomOrCounted (e : LsmEngine LearnedMemtable) : Op → Prop
  | .put k v => Room e k v ∨ e.flushThreshold ≤
      if (e.memtable.map.get k).isNone then e.memtable.byteCount + (k.len + v.len)
      else e.memtable.byteCount
  | .delete k => Room e k .empty
  | .flush => True

theorem roomOrFlush_learned {e : LsmEngine LearnedMemtable} {op : Op} :
    RoomOrFlush e op ↔ RoomOrCounted e op := by
  cases op with
  | flush => exact Iff.rfl
  | delete k => exact Iff.rfl
  | put k v =>
    have hcount := (LearnedMemtable.insert_spec e.memtable k v).2
    rw [RoomOrFlush, RoomOrCounted, Triggers, ← hcount]
    rfl

/-- **The threshold bounds the memtable after each call of a run** exactly if there is
    room for each tombstone, and in the learned memtable also for each value that the
    count does not make the engine flush. -/
theorem run_staysBounded_iff (dir : Dir) (config : EngineConfig) (hT : 1 ≤ config.flushThreshold)
    (ops : List Op) :
    (StaysBounded (LsmEngine.open_ dir BTreeMemtable.new config) ops ↔
      Run.Meets LsmEngine.tryApply RoomToDelete
        (LsmEngine.open_ dir BTreeMemtable.new config) ops) ∧
    (StaysBounded (LsmEngine.open_ dir SkipListMemtable.new config) ops ↔
      Run.Meets LsmEngine.tryApply RoomToDelete
        (LsmEngine.open_ dir SkipListMemtable.new config) ops) ∧
    (StaysBounded (LsmEngine.open_ dir LearnedMemtable.new config) ops ↔
      Run.Meets LsmEngine.tryApply RoomOrCounted
        (LsmEngine.open_ dir LearnedMemtable.new config) ops) :=
  ⟨staysBounded_counting (show Counted BTreeMemtable.new from Nat.zero_le 0) dir config hT ops,
    staysBounded_counting (show Counted SkipListMemtable.new from Nat.zero_le 0) dir config hT ops,
    staysBounded_iff (I := fun _ => True) (fun _ _ => trivial) (fun _ => roomOrFlush_learned)
      (Store.wf_new _ _) hT trivial ops⟩

theorem run_staysBounded_iff_putDelete :
    (StaysBounded (LsmEngine.open_ Dir.empty BTreeMemtable.new ⟨8⟩)
        [.put (.singleton 1) (.singleton 2), .delete (.singleton 1)] ↔
      Run.Meets LsmEngine.tryApply RoomToDelete
        (LsmEngine.open_ Dir.empty BTreeMemtable.new ⟨8⟩)
        [.put (.singleton 1) (.singleton 2), .delete (.singleton 1)]) ∧
    (StaysBounded (LsmEngine.open_ Dir.empty SkipListMemtable.new ⟨8⟩)
        [.put (.singleton 1) (.singleton 2), .delete (.singleton 1)] ↔
      Run.Meets LsmEngine.tryApply RoomToDelete
        (LsmEngine.open_ Dir.empty SkipListMemtable.new ⟨8⟩)
        [.put (.singleton 1) (.singleton 2), .delete (.singleton 1)]) ∧
    (StaysBounded (LsmEngine.open_ Dir.empty LearnedMemtable.new ⟨8⟩)
        [.put (.singleton 1) (.singleton 2), .delete (.singleton 1)] ↔
      Run.Meets LsmEngine.tryApply RoomOrCounted
        (LsmEngine.open_ Dir.empty LearnedMemtable.new ⟨8⟩)
        [.put (.singleton 1) (.singleton 2), .delete (.singleton 1)]) :=
  run_staysBounded_iff Dir.empty ⟨8⟩ (show 1 ≤ 8 by decide) _

theorem not_staysBounded {e : LsmEngine M} {ops : List Op} (hne : ops ≠ [])
    (h : ((e.run ops).toOption.map fun e => decide (Bounded e)) = some false) :
    ¬ StaysBounded e ops := by
  obtain ⟨e', hrun, he'⟩ := Option.map_eq_some_iff.1 h
  intro hb
  refine of_decide_eq_false he' (hb ops e' (List.prefix_refl ops) hne ?_)
  cases hr : e.run ops with
  | error err =>
    rw [hr] at hrun
    cases hrun
  | ok e₁ =>
    rw [hr] at hrun
    cases hrun
    rfl

/-- A value of four bytes. -/
def fourBytes : Bytes := (List.replicate 4 (Bytes.singleton 1)).flatten

/-- **A delete passes the threshold** in each memtable, and an overwrite in the learned
    one. -/
theorem memtables_pass_threshold :
    ¬ StaysBounded (LsmEngine.open_ Dir.empty BTreeMemtable.new ⟨1⟩) [.delete (.singleton 1)] ∧
    ¬ StaysBounded (LsmEngine.open_ Dir.empty SkipListMemtable.new ⟨1⟩) [.delete (.singleton 1)] ∧
    ¬ StaysBounded (LsmEngine.open_ Dir.empty LearnedMemtable.new ⟨1⟩) [.delete (.singleton 1)] ∧
    ¬ StaysBounded (LsmEngine.open_ Dir.empty LearnedMemtable.new ⟨4⟩)
      [.put (.singleton 1) .empty, .put (.singleton 1) fourBytes] := by
  refine ⟨?_, ?_, ?_, ?_⟩ <;> refine not_staysBounded (List.cons_ne_nil _ _) ?_
  · decide +kernel
  · decide +kernel
  · decide +kernel
  · decide +kernel

end Scry.Lsm
