/-
  Reads across a concurrent flush.

  A value that a `put` wrote moves from the memtable to the drained entries of a flush
  and from there to a table; it never leaves these three places (`copy_step`).  A
  lookup looks at two of them, so it finds the value unless a flush holds it at the
  moment of the table search (`get_sees_put`).
-/
import Scry.Lsm.Concurrent
import Scry.Lsm.Proof.Engine

namespace Scry.Lsm

variable {M : Type} [Memtable M]

/-! ## The values of a key in the tables -/

/-- Some table has the value `w` for `k`. -/
def Store.Has (s : Store) (k w : Bytes) : Prop := ∃ L, ∃ es ∈ s.tables L, es.lookup k = some w

theorem Store.has_addTable {s : Store} (hs : s.WF) {es : List Entry} (ha : Ascending es)
    {k w : Bytes} : (LsmEngine.addTable s es).Has k w ↔ es.lookup k = some w ∨ s.Has k w := by
  obtain ⟨-, -, htab⟩ := addTable_spec hs ha
  constructor
  · rintro ⟨L, es', hes', hw⟩
    rw [htab] at hes'
    split_ifs at hes' with hL
    · rcases List.mem_append.1 hes' with hes' | hes'
      · exact Or.inr ⟨0, es', hes', hw⟩
      · rw [List.mem_singleton.1 hes'] at hw; exact Or.inl hw
    · exact Or.inr ⟨L, es', hes', hw⟩
  · rintro (hw | ⟨L, es', hes', hw⟩)
    · exact ⟨0, es, by rw [htab, if_pos rfl]; simp, hw⟩
    · refine ⟨L, es', ?_, hw⟩
      rw [htab]
      split_ifs with hL
      · rw [hL] at hes'; exact List.mem_append_left _ hes'
      · exact hes'

theorem Store.has_of_version {s : Store} {k w : Bytes} (h : s.version k = some w) : s.Has k w := by
  obtain ⟨L, -, hL⟩ := List.exists_of_findSome?_eq_some h
  obtain ⟨es, hes, hw⟩ := List.exists_of_findSome?_eq_some hL
  exact ⟨L, es, List.mem_reverse.1 hes, hw⟩

/-- A search finds the only value of a key. -/
theorem Store.version_of_has {s : Store} {k v : Bytes} (h : s.Has k v)
    (huniq : ∀ w, s.Has k w → w = v) : s.version k = some v := by
  obtain ⟨L, es, hes, hv⟩ := h
  rcases hver : s.version k with _ | w
  · have hL : L < s.manifest.numLevels := by
      by_contra hL
      rw [Store.tables_of_le (not_lt.1 hL)] at hes
      exact List.not_mem_nil hes
    have := newest_eq_none.1 (visible_eq_none.1 hver L (Nat.zero_le _) (by omega)) es hes
    rw [hv] at this; cases this
  · rw [huniq w (Store.has_of_version hver)]

theorem oldest_mem {ts : List (List Entry)} {k w : Bytes} (h : oldest ts k = some w) :
    ∃ es ∈ ts, es.lookup k = some w := List.exists_of_findSome?_eq_some h

/-- **Compaction adds no value of a key, and it keeps an only value that is not empty.** -/
theorem compactIfFull_has {s : Store} (hs : s.WF) (i : ℕ) :
    ∃ s', compactIfFull s i = .ok s' ∧ s'.WF ∧ ∀ k, (∀ w, s'.Has k w → s.Has k w) ∧
      ∀ v, v ≠ .empty → (∀ w, s.Has k w → w = v) → s.Has k v → s'.Has k v := by
  unfold compactIfFull
  split_ifs with hfull
  swap
  · exact ⟨s, rfl, hs, fun k => ⟨fun _ h => h, fun _ _ _ h => h⟩⟩
  obtain ⟨s', out, hrun, hs', htab, -, hout⟩ := compactLevel_spec hs i
  refine ⟨s', hrun, hs', fun k => ⟨fun w => ?_, fun v hv huniq => ?_⟩⟩
  · rintro ⟨L, es, hes, hw⟩
    rw [htab, pushDown] at hes
    split_ifs at hes with h₁ h₂ h₃
    · simp at hes
    · exact ⟨L, es, by simpa using hes, hw⟩
    · rcases List.mem_append.1 hes with hes | hes
      · exact ⟨L, es, hes, hw⟩
      · rw [List.mem_singleton.1 hes, hout, Option.filter_eq_some_iff] at hw
        obtain ⟨es', hes', hw'⟩ := oldest_mem hw.1
        exact ⟨i, es', hes', hw'⟩
    · exact ⟨L, es, hes, hw⟩
  · rintro ⟨L, es, hes, hw⟩
    by_cases hL : L = i
    · -- the level is merged: its oldest version is the only value
      subst hL
      obtain ⟨w, ho⟩ := Option.isSome_iff_exists.1 (oldest_isSome_iff.2
        ⟨es, hes, lookup_isSome_iff.1 (hw ▸ rfl : (es.lookup k).isSome)⟩)
      obtain ⟨es', hes', hw'⟩ := oldest_mem ho
      obtain rfl := huniq w ⟨L, es', hes', hw'⟩
      have hl : out.lookup k = some w := by
        rw [hout, ho, Option.filter_some, if_pos (keep_iff.2 fun h => hv h.2)]
      refine ⟨L + 1, out, ?_, hl⟩
      rw [htab, pushDown, if_neg (by omega), if_pos rfl, if_neg]
      · simp
      · intro h
        rw [List.isEmpty_iff.1 h] at hl; cases hl
    · refine ⟨L, es, ?_, hw⟩
      rw [htab, pushDown, if_neg hL]
      split_ifs with h₁ h₂
      · simpa using hes
      · exact List.mem_append_left _ hes
      · exact hes

theorem maybeCompact_has {s : Store} (hs : s.WF) :
    ∃ s', maybeCompact s = .ok s' ∧ s'.WF ∧ ∀ k, (∀ w, s'.Has k w → s.Has k w) ∧
      ∀ v, v ≠ .empty → (∀ w, s.Has k w → w = v) → s.Has k v → s'.Has k v := by
  refine maybeCompact_induct (P := fun s' => s'.WF ∧ ∀ k, (∀ w, s'.Has k w → s.Has k w) ∧
    ∀ v, v ≠ .empty → (∀ w, s.Has k w → w = v) → s.Has k v → s'.Has k v)
    ⟨hs, fun k => ⟨fun _ h => h, fun _ _ _ h => h⟩⟩ ?_
  rintro i s₁ - - ⟨hs₁, h₁⟩
  obtain ⟨s₂, hrun₂, hs₂, h₂⟩ := compactIfFull_has hs₁ i
  refine ⟨s₂, hrun₂, hs₂, fun k => ⟨fun w h => (h₁ k).1 w ((h₂ k).1 w h), fun v hv huniq h => ?_⟩⟩
  exact (h₂ k).2 v hv (fun w h => huniq w ((h₁ k).1 w h)) ((h₁ k).2 v hv huniq h)

/-! ## Steps -/

/-- The call writes the key. -/
def Call.writes (k : Bytes) : Call → Bool
  | .put key _ => key = k
  | .delete key => key = k
  | _ => false

/-- The value that a writing call puts in the memtable. -/
def Call.value : Call → Bytes
  | .put _ value => value
  | _ => .empty

namespace Sys

/-- The entries that the flush of thread `t` drained and did not register yet. -/
def holding (s : Sys M) (t : ℕ) : List Entry :=
  match s.threads t with
  | some ⟨_, .register es⟩ => es
  | _ => []

/-- Where the call `c` of thread `t` goes from `pc`: to another step or, with a reply,
    out of the engine. -/
inductive Moves (s s' : Sys M) (t : ℕ) (c : Call) (pc : Pc) : Prop
  | goto (next : Pc) (hth : s'.threads = Function.update s.threads t (some ⟨c, next⟩))
      (hh : s'.history = s.history) (ha : next ≠ .append) (hi : next = .insert ↔ pc = .append)
      (hg : ∀ key, c = .get key → pc = .probe →
        next = .search ∧ Memtable.get s.memtable key = none)
      (hs : pc ≠ .search)
  | ret (r : Reply) (hth : s'.threads = Function.update s.threads t none)
      (hh : s'.history = .ret t c r :: s.history) (ha : pc ≠ .append)
      (hi : pc = .insert → ∀ key value, c ≠ .put key value)
      (hp : pc = .probe → ∃ key value, c = .get key ∧ Memtable.get s.memtable key = some value ∧
        r = .value (.ok (LsmEngine.decodeValue value)))
      (hs : pc = .search → ∃ key, c = .get key ∧ r = .value (LsmEngine.getSstable s.store key))

/-- What a step from `pc` of thread `t` does to the places where values are. -/
inductive Effect (s s' : Sys M) (t : ℕ) (c : Call) (pc : Pc) : Prop
  | quiet (hpc : pc ≠ .insert) (hm : s'.memtable = s.memtable) (hs : s'.store = s.store)
      (hh : s'.holding t = s.holding t)
  | insert (hpc : pc = .insert)
      (hm : ∀ k, Memtable.get s'.memtable k =
        if c.writes k then some c.value else Memtable.get s.memtable k)
      (hs : s'.store = s.store) (hh : s'.holding t = s.holding t)
  | drain (hpc : pc = .drain) (hm : ∀ k, Memtable.get s'.memtable k = none)
      (hs : s'.store = s.store) (hh : s.holding t = []) (ha : Ascending (s'.holding t))
      (hl : ∀ k, (s'.holding t).lookup k = Memtable.get s.memtable k)
  | register (hpc : ∃ es, pc = .register es) (hm : s'.memtable = s.memtable)
      (hs : s'.store = LsmEngine.addTable s.store (s.holding t)) (hh : s'.holding t = [])
  | compact (hpc : pc = .compact) (hm : s'.memtable = s.memtable)
      (hs : maybeCompact s.store = .ok s'.store) (hh : s'.holding t = s.holding t)

theorem Moves.holding_ne {s s' : Sys M} {t : ℕ} {c : Call} {pc : Pc} (h : Moves s s' t c pc) {t' : ℕ}
    (ht : t' ≠ t) : s'.holding t' = s.holding t' := by
  cases h with
  | goto next hth => simp [holding, hth, ht]
  | ret r hth => simp [holding, hth, ht]

omit [Memtable M] in
/-- Starting a call moves no value. -/
theorem invoke_cases {s s' : Sys M} {t : ℕ} {c : Call} (h : s.invoke t c = some s') :
    s.threads t = none ∧ s'.threads = Function.update s.threads t (some ⟨c, c.start⟩) ∧
      s'.history = .inv t c :: s.history ∧ s'.memtable = s.memtable ∧ s'.store = s.store ∧
      ∀ t', s'.holding t' = s.holding t' := by
  unfold invoke at h
  split at h <;> cases h
  rename_i ht
  refine ⟨ht, rfl, rfl, rfl, rfl, fun t' => ?_⟩
  by_cases htt : t' = t
  · subst htt
    cases c <;> simp [holding, goto, ht, Call.start]
  · simp [holding, goto, htt]

section Lawful
variable [LawfulMemtable M]

/-- **Step inversion**: everything a step can do. -/
theorem step_cases {s s' : Sys M} {t : ℕ} (h : s.step t = some s') :
    ∃ c pc, s.threads t = some ⟨c, pc⟩ ∧ Moves s s' t c pc ∧ Effect s s' t c pc := by
  unfold step at h
  split at h
  · cases h
  rename_i c pc ht
  refine ⟨c, pc, ht, ?_⟩
  cases pc with
  | append =>
    simp only [stepAppend] at h
    split at h <;> cases h <;>
      exact ⟨.goto _ rfl rfl (by simp) (by simp) (by simp) (by simp), .quiet (by simp) rfl rfl (by simp [holding, goto, ht])⟩
  | insert =>
    simp only [stepInsert] at h
    split at h <;> cases h
    · refine ⟨.goto _ rfl rfl (by simp) (by simp) (by simp) (by simp), .insert rfl (fun k => ?_) rfl (by simp [holding, goto, ht])⟩
      simp only [goto, LawfulMemtable.get_insert, Call.writes, Call.value, decide_eq_true_eq]
      simp only [eq_comm]
    · refine ⟨.ret _ rfl rfl (by simp) (by simp) (by simp) (by simp), .insert rfl (fun k => ?_) rfl (by simp [holding, reply, ht])⟩
      simp only [reply, LawfulMemtable.get_delete, Call.writes, Call.value, decide_eq_true_eq]
      simp only [eq_comm]
  | check =>
    cases h
    unfold stepCheck
    split_ifs
    · exact ⟨.goto _ rfl rfl (by simp) (by simp) (by simp) (by simp), .quiet (by simp) rfl rfl (by simp [holding, goto, ht])⟩
    · exact ⟨.ret _ rfl rfl (by simp) (by simp) (by simp) (by simp), .quiet (by simp) rfl rfl (by simp [holding, reply, ht])⟩
  | drain =>
    cases h
    have hold : s.holding t = [] := by simp [holding, ht]
    by_cases he : (Memtable.drainSorted s.memtable).1.isEmpty = true
    · have hs' : s.stepDrain t c = Sys.reply
          { s with memtable := (Memtable.drainSorted s.memtable).2 } t c (.unit (.ok ())) :=
        if_pos he
      have hnew : (s.stepDrain t c).holding t = [] := by simp [hs', holding, reply]
      rw [hs'] at hnew ⊢
      refine ⟨.ret _ rfl rfl (by simp) (by simp) (by simp) (by simp), .drain rfl (LawfulMemtable.get_drain s.memtable) rfl hold
        (by rw [hnew]; exact ascending_nil) fun k => ?_⟩
      rw [hnew, get_eq_none_of_drain_empty he]
      rfl
    · have hs' : s.stepDrain t c = Sys.goto
          { s with memtable := (Memtable.drainSorted s.memtable).2 } t c
          (.register (Memtable.drainSorted s.memtable).1) := if_neg he
      have hnew : (s.stepDrain t c).holding t = (Memtable.drainSorted s.memtable).1 := by
        simp [hs', holding, goto]
      rw [hs'] at hnew ⊢
      refine ⟨.goto _ rfl rfl (by simp) (by simp) (by simp) (by simp), .drain rfl (LawfulMemtable.get_drain s.memtable) rfl hold
        (by rw [hnew]; exact LawfulMemtable.drain_ascending _) fun k => ?_⟩
      rw [hnew, LawfulMemtable.drain_lookup]
  | register es =>
    simp only [stepRegister] at h
    split at h <;> cases h
    exact ⟨.goto _ rfl rfl (by simp) (by simp) (by simp) (by simp), .register ⟨_, rfl⟩ rfl (by simp [holding, goto, ht])
      (by simp [holding, goto])⟩
  | truncate =>
    cases h
    exact ⟨.goto _ rfl rfl (by simp) (by simp) (by simp) (by simp), .quiet (by simp) rfl rfl (by simp [holding, goto, ht])⟩
  | compact =>
    cases h
    unfold stepCompact
    split
    · rename_i store hc
      exact ⟨.ret _ rfl rfl (by simp) (by simp) (by simp) (by simp), .compact rfl rfl hc (by simp [holding, reply, ht])⟩
    · exact ⟨.ret _ rfl rfl (by simp) (by simp) (by simp) (by simp), .quiet (by simp) rfl rfl (by simp [holding, reply, ht])⟩
  | probe =>
    simp only [stepProbe] at h
    split at h
    · split at h <;> cases h
      · rename_i key _ value hv
        exact ⟨.ret _ rfl rfl (by simp) (by simp) (fun _ => ⟨key, value, rfl, hv, rfl⟩) (by simp),
          .quiet (by simp) rfl rfl (by simp [holding, reply, ht])⟩
      · rename_i key _ hv
        refine ⟨.goto _ rfl rfl (by simp) (by simp) (fun key' hk _ => ⟨rfl, ?_⟩) (by simp),
          .quiet (by simp) rfl rfl (by simp [holding, goto, ht])⟩
        rwa [← Call.get.inj hk]
    · cases h
  | search =>
    simp only [stepSearch] at h
    split at h
    · split at h <;> cases h
      exact ⟨.ret _ rfl rfl (by simp) (by simp) (by simp) (by simp), .quiet (by simp) rfl rfl (by simp [holding, reply, ht])⟩
    · cases h

/-! ## Where the values of a key are -/

/-- The tables are well-formed and drained entries in order. -/
structure WF (s : Sys M) : Prop where
  store : s.store.WF
  ascending : ∀ t, Ascending (s.holding t)

/-- The value `w` of `k` is in the memtable, held by a flush, or in a table. -/
def Copy (s : Sys M) (k w : Bytes) : Prop :=
  Memtable.get s.memtable k = some w ∨ (∃ t, (s.holding t).lookup k = some w) ∨ s.store.Has k w

/-- The next step of thread `t` writes `k` to the memtable. -/
def Inserts (s : Sys M) (t : ℕ) (k : Bytes) : Prop :=
  ∃ c, s.threads t = some ⟨c, .insert⟩ ∧ c.writes k = true

theorem wf_step {s s' : Sys M} {t : ℕ} (hs : s.WF) (h : s.step t = some s') : s'.WF := by
  obtain ⟨c, pc, -, hmv, heff⟩ := step_cases h
  have hasc : Ascending (s'.holding t) → ∀ t', Ascending (s'.holding t') := fun h t' => by
    by_cases ht : t' = t
    · rw [ht]; exact h
    · rw [hmv.holding_ne ht]; exact hs.ascending t'
  cases heff with
  | quiet hpc hm hst hh => exact ⟨hst ▸ hs.store, hasc (hh ▸ hs.ascending t)⟩
  | insert hpc hm hst hh => exact ⟨hst ▸ hs.store, hasc (hh ▸ hs.ascending t)⟩
  | drain hpc hm hst hh ha hl => exact ⟨hst ▸ hs.store, hasc ha⟩
  | register hpc hm hst hh =>
    exact ⟨hst ▸ (addTable_spec hs.store (hs.ascending t)).1, hasc (hh ▸ ascending_nil)⟩
  | compact hpc hm hst hh =>
    obtain ⟨st, hrun, hwf, -⟩ := maybeCompact_has hs.store
    rw [hrun] at hst
    exact ⟨Except.ok.inj hst ▸ hwf, hasc (hh ▸ hs.ascending t)⟩

/-- **No step but its insertion adds a value of a key, and an only value that is not
    empty stays in one of its places.** -/
theorem copy_step {s s' : Sys M} {t : ℕ} (hs : s.WF) (h : s.step t = some s') {k : Bytes}
    (hins : ¬ s.Inserts t k) :
    (∀ w, s'.Copy k w → s.Copy k w) ∧
      ∀ v, v ≠ .empty → (∀ w, s.Copy k w → w = v) → s.Copy k v → s'.Copy k v := by
  obtain ⟨c, pc, ht, hmv, heff⟩ := step_cases h
  -- a step that keeps the memtable's value, the tables and what is held
  have hsame : Memtable.get s'.memtable k = Memtable.get s.memtable k → s'.store = s.store →
      s'.holding t = s.holding t → ∀ w, s'.Copy k w ↔ s.Copy k w := by
    intro hm hst hh w
    have hhold : ∀ t', s'.holding t' = s.holding t' := fun t' => by
      by_cases ht : t' = t
      · rw [ht, hh]
      · exact hmv.holding_ne ht
    simp only [Copy, hm, hst, hhold]
  cases heff with
  | quiet hpc hm hst hh =>
    have h := hsame (by rw [hm]) hst hh
    exact ⟨fun w => (h w).1, fun v _ _ => (h v).2⟩
  | insert hpc hm hst hh =>
    have hne : ¬ c.writes k = true := fun hc => hins ⟨c, hpc ▸ ht, hc⟩
    have h := hsame (by rw [hm, if_neg hne]) hst hh
    exact ⟨fun w => (h w).1, fun v _ _ => (h v).2⟩
  | drain hpc hm hst hh ha hl =>
    constructor
    · rintro w (hw | ⟨t', hw⟩ | hw)
      · rw [hm] at hw; cases hw
      · by_cases ht : t' = t
        · rw [ht, hl] at hw; exact Or.inl hw
        · rw [hmv.holding_ne ht] at hw; exact Or.inr (Or.inl ⟨t', hw⟩)
      · exact Or.inr (Or.inr (hst ▸ hw))
    · rintro v - - (hw | ⟨t', hw⟩ | hw)
      · exact Or.inr (Or.inl ⟨t, by rw [hl]; exact hw⟩)
      · have ht : t' ≠ t := by
          rintro rfl
          rw [hh] at hw; cases hw
        exact Or.inr (Or.inl ⟨t', by rw [hmv.holding_ne ht]; exact hw⟩)
      · exact Or.inr (Or.inr (hst ▸ hw))
  | register hpc hm hst hh =>
    have hhas := fun w => Store.has_addTable hs.store (hs.ascending t) (k := k) (w := w)
    constructor
    · rintro w (hw | ⟨t', hw⟩ | hw)
      · exact Or.inl (hm ▸ hw)
      · have ht : t' ≠ t := by
          rintro rfl
          rw [hh] at hw; cases hw
        exact Or.inr (Or.inl ⟨t', by rw [← hmv.holding_ne ht]; exact hw⟩)
      · rw [hst, hhas] at hw
        exact Or.inr (hw.imp (fun hw => ⟨t, hw⟩) id)
    · rintro v - - (hw | ⟨t', hw⟩ | hw)
      · exact Or.inl (hm ▸ hw)
      · by_cases ht : t' = t
        · exact Or.inr (Or.inr (by rw [hst, hhas]; exact Or.inl (ht ▸ hw)))
        · exact Or.inr (Or.inl ⟨t', by rw [hmv.holding_ne ht]; exact hw⟩)
      · exact Or.inr (Or.inr (by rw [hst, hhas]; exact Or.inr hw))
  | compact hpc hm hst hh =>
    obtain ⟨st, hrun, -, hhas⟩ := maybeCompact_has hs.store
    rw [hrun] at hst
    obtain rfl := Except.ok.inj hst
    have hhold : ∀ t', s'.holding t' = s.holding t' := fun t' => by
      by_cases ht : t' = t
      · rw [ht, hh]
      · exact hmv.holding_ne ht
    constructor
    · rintro w (hw | hw | hw)
      · exact Or.inl (hm ▸ hw)
      · simp only [hhold] at hw; exact Or.inr (Or.inl hw)
      · exact Or.inr (Or.inr ((hhas k).1 w hw))
    · rintro v hv huniq (hw | hw | hw)
      · exact Or.inl (by rw [hm]; exact hw)
      · exact Or.inr (Or.inl (by simpa only [hhold] using hw))
      · exact Or.inr (Or.inr ((hhas k).2 v hv (fun w h => huniq w (Or.inr (Or.inr h))) hw))

/-! ## Histories -/

/-- The invocations that write `k`. -/
def writesOf (k : Bytes) (h : List Event) : List Event :=
  h.filter fun e => match e with
    | .inv _ c => c.writes k
    | .ret _ _ _ => false

/-- The running call of thread `t` is the `get` of `k`, invoked after `put k v`
    returned Ok; the history is newest first. -/
def After (k v : Bytes) (t : ℕ) (h : List Event) : Prop :=
  ∃ h₁ t', h.dropWhile (fun e => e.thread ≠ t) = .inv t (.get k) :: h₁ ∧
    .ret t' (.put k v) (.unit (.ok ())) ∈ h₁

/-- The running call of thread `t` is a `get` of `k` that must see `put k v`: no other
    write to `k` was invoked. -/
def MustSee (k v : Bytes) (t : ℕ) (h : List Event) : Prop :=
  (∃ t', writesOf k h = [.inv t' (.put k v)]) ∧ After k v t h

/-- Every `get` that must see `put k v` returned `v`. -/
def SeesPut (k v : Bytes) (h : List Event) : Prop :=
  ∀ t r h', (.ret t (.get k) r :: h') <:+ h → MustSee k v t h' → r = .value (.ok (some v))

/-- Running calls and returned calls were invoked; a running `get` is at one of its
    two steps. -/
structure Hist (s : Sys M) : Prop where
  running : ∀ t c pc, s.threads t = some ⟨c, pc⟩ →
    ∃ h, s.history.dropWhile (fun e => e.thread ≠ t) = .inv t c :: h
  returned : ∀ t c r, .ret t c r ∈ s.history → .inv t c ∈ s.history
  get : ∀ t k pc, s.threads t = some ⟨.get k, pc⟩ → pc = .probe ∨ pc = .search

omit [Memtable M] [LawfulMemtable M] in
theorem Hist.mem {s : Sys M} (hs : s.Hist) {t : ℕ} {c : Call} {pc : Pc}
    (h : s.threads t = some ⟨c, pc⟩) : .inv t c ∈ s.history := by
  obtain ⟨h', hd⟩ := hs.running t c pc h
  exact (List.dropWhile_sublist _).subset (hd ▸ List.mem_cons_self)

omit [Memtable M] [LawfulMemtable M] in
theorem dropWhile_cons_ne {e : Event} {t : ℕ} (h : e.thread ≠ t) (l : List Event) :
    (e :: l).dropWhile (fun e => e.thread ≠ t) = l.dropWhile fun e => e.thread ≠ t := by
  simp [h]

omit [Memtable M] [LawfulMemtable M] in
theorem hist_invoke {s s' : Sys M} {t : ℕ} {c : Call} (hs : s.Hist)
    (h : s.invoke t c = some s') : s'.Hist := by
  obtain ⟨-, hth, hh, -⟩ := invoke_cases h
  refine ⟨fun t' c' pc ht => ?_, fun t' c' r hr => ?_, fun t' k pc ht => ?_⟩
  · rw [hth] at ht
    by_cases htt : t' = t
    · subst htt
      simp only [Function.update_self, Option.some.injEq, Thread.mk.injEq] at ht
      exact ⟨s.history, by rw [hh, ht.1]; simp [Event.thread]⟩
    · rw [Function.update_of_ne htt] at ht
      rw [hh, dropWhile_cons_ne (Ne.symm htt)]
      exact hs.running t' c' pc ht
  · rw [hh] at hr ⊢
    rcases List.mem_cons.1 hr with hr | hr
    · cases hr
    · exact List.mem_cons_of_mem _ (hs.returned t' c' r hr)
  · rw [hth] at ht
    by_cases htt : t' = t
    · subst htt
      simp only [Function.update_self, Option.some.injEq, Thread.mk.injEq] at ht
      obtain ⟨rfl, rfl⟩ := ht
      exact Or.inl rfl
    · rw [Function.update_of_ne htt] at ht
      exact hs.get t' k pc ht

theorem hist_step {s s' : Sys M} {t : ℕ} (hs : s.Hist) (h : s.step t = some s') : s'.Hist := by
  obtain ⟨c, pc, ht, hmv, -⟩ := step_cases h
  cases hmv with
  | goto next hth hh ha hi hg hse =>
    refine ⟨fun t' c' pc' ht' => ?_, by rw [hh]; exact hs.returned, fun t' k pc' ht' => ?_⟩
    · rw [hth] at ht'
      rw [hh]
      by_cases htt : t' = t
      · subst htt
        simp only [Function.update_self, Option.some.injEq, Thread.mk.injEq] at ht'
        exact ht'.1 ▸ hs.running t' c pc ht
      · rw [Function.update_of_ne htt] at ht'
        exact hs.running t' c' pc' ht'
    · rw [hth] at ht'
      by_cases htt : t' = t
      · subst htt
        simp only [Function.update_self, Option.some.injEq, Thread.mk.injEq] at ht'
        obtain ⟨rfl, rfl⟩ := ht'
        rcases hs.get t' k pc ht with rfl | rfl
        · exact Or.inr (hg k rfl rfl).1
        · exact absurd rfl hse
      · rw [Function.update_of_ne htt] at ht'
        exact hs.get t' k pc' ht'
  | ret r hth hh =>
    have hrun : ∀ t' c' pc', s'.threads t' = some ⟨c', pc'⟩ →
        t' ≠ t ∧ s.threads t' = some ⟨c', pc'⟩ := fun t' c' pc' ht' => by
      rw [hth] at ht'
      by_cases htt : t' = t
      · subst htt; simp at ht'
      · rw [Function.update_of_ne htt] at ht'; exact ⟨htt, ht'⟩
    refine ⟨fun t' c' pc' ht' => ?_, fun t' c' r' hr => ?_, fun t' k pc' ht' => ?_⟩
    · obtain ⟨htt, ht'⟩ := hrun t' c' pc' ht'
      rw [hh, dropWhile_cons_ne (Ne.symm htt)]
      exact hs.running t' c' pc' ht'
    · rw [hh] at hr ⊢
      rcases List.mem_cons.1 hr with hr | hr
      · cases hr; exact List.mem_cons_of_mem _ (hs.mem ht)
      · exact List.mem_cons_of_mem _ (hs.returned t' c' r' hr)
    · exact hs.get t' k pc' (hrun t' _ pc' ht').2

/-! ## The way of a value -/

/-- The put of `v` by thread `t` is invoked and not yet in the memtable. -/
structure Pending (s : Sys M) (k v : Bytes) (t : ℕ) : Prop where
  copy : ∀ w, ¬ s.Copy k w
  pc : ∀ pc, s.threads t = some ⟨.put k v, pc⟩ → pc = .append ∨ pc = .insert
  ret : ∀ t' r, .ret t' (.put k v) r ∉ s.history

/-- The put of `v` by thread `t` took effect; a lookup that came after it and missed
    the memtable will not find the key there again. -/
structure Placed (s : Sys M) (k v : Bytes) (t : ℕ) : Prop where
  copy : ∀ w, s.Copy k w ↔ w = v
  pc : ∀ pc, s.threads t = some ⟨.put k v, pc⟩ → pc ≠ .append ∧ pc ≠ .insert
  search : ∀ t', s.threads t' = some ⟨.get k, .search⟩ → After k v t' s.history →
    Memtable.get s.memtable k = none

/-- **The invariant**: a key without writes is nowhere, a key with one put is pending or
    placed. -/
structure Inv (k v : Bytes) (s : Sys M) : Prop where
  wf : s.WF
  hist : s.Hist
  unwritten : writesOf k s.history = [] → ∀ w, ¬ s.Copy k w
  written : ∀ t, writesOf k s.history = [.inv t (.put k v)] → s.Pending k v t ∨ s.Placed k v t
  sees : SeesPut k v s.history

omit [Memtable M] [LawfulMemtable M] in
theorem mem_writesOf {k : Bytes} {h : List Event} {t : ℕ} {c : Call} (hi : .inv t c ∈ h)
    (hc : c.writes k = true) : .inv t c ∈ writesOf k h := List.mem_filter.2 ⟨hi, hc⟩

omit [Memtable M] [LawfulMemtable M] in
/-- With one write, only its own thread inserts the key. -/
theorem inserts_iff {s : Sys M} (hs : s.Hist) {k v : Bytes} {t : ℕ}
    (hw : writesOf k s.history = [.inv t (.put k v)]) (t' : ℕ) :
    s.Inserts t' k ↔ t' = t ∧ s.threads t = some ⟨.put k v, .insert⟩ := by
  constructor
  · rintro ⟨c, ht, hc⟩
    have := mem_writesOf (hs.mem ht) hc
    rw [hw, List.mem_singleton, Event.inv.injEq] at this
    obtain ⟨rfl, rfl⟩ := this
    exact ⟨rfl, ht⟩
  · rintro ⟨rfl, ht⟩
    exact ⟨_, ht, by simp [Call.writes]⟩

omit [LawfulMemtable M] in
theorem copy_invoke {s s' : Sys M} {t : ℕ} {c : Call} (h : s.invoke t c = some s') (k w : Bytes) :
    s'.Copy k w ↔ s.Copy k w := by
  obtain ⟨-, -, -, hm, hst, hh⟩ := invoke_cases h
  simp only [Copy, hm, hst, hh]

omit [Memtable M] [LawfulMemtable M] in
theorem sees_cons {k v : Bytes} {e : Event} {h : List Event} (hs : SeesPut k v h)
    (he : ∀ t r, e = .ret t (.get k) r → MustSee k v t h → r = .value (.ok (some v))) :
    SeesPut k v (e :: h) := by
  intro t r h' hsuf hmust
  rcases List.suffix_cons_iff.1 hsuf with heq | hsuf
  · cases heq
    exact he t r rfl hmust
  · exact hs t r h' hsuf hmust

omit [Memtable M] [LawfulMemtable M] in
/-- An event of another thread does not change which call a thread runs. -/
theorem after_cons_ne {k v : Bytes} {t : ℕ} {e : Event} (he : e.thread ≠ t) (h : List Event) :
    After k v t (e :: h) ↔ After k v t h := by
  rw [After, After, dropWhile_cons_ne he]

omit [LawfulMemtable M] in
theorem inv_invoke {k v : Bytes} {s s' : Sys M} {t : ℕ} {c : Call} (hs : Inv k v s)
    (h : s.invoke t c = some s') : Inv k v s' := by
  obtain ⟨hidle, hth, hh, hm, hst, hhold⟩ := invoke_cases h
  have hcopy := copy_invoke h k
  have hwr : writesOf k s'.history =
      if c.writes k then .inv t c :: writesOf k s.history else writesOf k s.history := by
    rw [hh, writesOf, List.filter_cons]
    rfl
  refine ⟨⟨hst ▸ hs.wf.store, fun t' => hhold t' ▸ hs.wf.ascending t'⟩, hist_invoke hs.hist h,
    fun hw w => ?_, fun t₀ hw => ?_, hh ▸ sees_cons hs.sees fun t' r he => by cases he⟩
  · rw [hcopy]
    rw [hwr] at hw
    split_ifs at hw
    exact hs.unwritten hw w
  · rw [hwr] at hw
    split_ifs at hw with hc
    · -- the put itself starts
      rw [List.cons.injEq, Event.inv.injEq] at hw
      obtain ⟨⟨rfl, rfl⟩, hnil⟩ := hw
      refine Or.inl ⟨fun w hw => hs.unwritten hnil w ((hcopy w).1 hw), fun pc hpc => ?_,
        fun t' r hr => ?_⟩
      · rw [hth, Function.update_self, Option.some.injEq, Thread.mk.injEq] at hpc
        exact Or.inl hpc.2.symm
      · rw [hh] at hr
        rcases List.mem_cons.1 hr with hr | hr
        · cases hr
        · have := mem_writesOf (hs.hist.returned _ _ _ hr) (k := k) (by simp [Call.writes])
          rw [hnil] at this; cases this
    · have hne : ∀ pc, s'.threads t₀ = some ⟨.put k v, pc⟩ →
          s.threads t₀ = some ⟨.put k v, pc⟩ := fun pc hpc => by
        rw [hth] at hpc
        by_cases htt : t₀ = t
        · subst htt
          simp only [Function.update_self, Option.some.injEq, Thread.mk.injEq] at hpc
          exact absurd (hpc.1 ▸ by simp [Call.writes]) hc
        · rwa [Function.update_of_ne htt] at hpc
      rcases hs.written t₀ hw with hp | hp
      · refine Or.inl ⟨fun w hw => hp.copy w ((hcopy w).1 hw), fun pc hpc => hp.pc pc (hne pc hpc),
          fun t' r hr => ?_⟩
        rw [hh] at hr
        rcases List.mem_cons.1 hr with hr | hr
        · cases hr
        · exact hp.ret t' r hr
      · refine Or.inr ⟨fun w => (hcopy w).trans (hp.copy w), fun pc hpc => hp.pc pc (hne pc hpc),
          fun t' ht' ha => ?_⟩
        rw [hth] at ht'
        by_cases htt : t' = t
        · subst htt
          simp only [Function.update_self, Option.some.injEq, Thread.mk.injEq] at ht'
          obtain ⟨rfl, hstart⟩ := ht'
          cases hstart
        · rw [Function.update_of_ne htt] at ht'
          rw [hm]
          rw [hh, after_cons_ne (Ne.symm htt)] at ha
          exact hp.search t' ht' ha

/-- A search of `get k` that must see `put k v` meets no flush that holds the key. -/
def SearchClear (k v : Bytes) (s : Sys M) (t : ℕ) : Prop :=
  s.threads t = some ⟨.get k, .search⟩ → MustSee k v t s.history →
    ∀ t', (s.holding t').lookup k = none

theorem mem_step {s s' : Sys M} {t : ℕ} (h : s.step t = some s') {k : Bytes}
    (hins : ¬ s.Inserts t k) (hk : Memtable.get s.memtable k = none) :
    Memtable.get s'.memtable k = none := by
  obtain ⟨c, pc, ht, -, heff⟩ := step_cases h
  cases heff with
  | quiet hpc hm => rw [hm, hk]
  | insert hpc hm => rw [hm, if_neg fun hc => hins ⟨c, hpc ▸ ht, hc⟩, hk]
  | drain hpc hm => exact hm k
  | register hpc hm => rw [hm, hk]
  | compact hpc hm => rw [hm, hk]

theorem writesOf_step {s s' : Sys M} {t : ℕ} (h : s.step t = some s') (k : Bytes) :
    writesOf k s'.history = writesOf k s.history := by
  obtain ⟨c, pc, -, hmv, -⟩ := step_cases h
  cases hmv with
  | goto next hth hh => rw [hh]
  | ret r hth hh => rw [hh]; rfl

/-- The reply of a lookup that must see the put. -/
theorem reply_of_mustSee {k v : Bytes} (hv : v ≠ .empty) {s s' : Sys M} {t : ℕ} {r : Reply}
    (hs : Inv k v s) (h : s.step t = some s') (hc : SearchClear k v s t)
    (hr : s'.history = .ret t (.get k) r :: s.history) (hmust : MustSee k v t s.history) :
    r = .value (.ok (some v)) := by
  obtain ⟨c, pc, ht, hmv, -⟩ := step_cases h
  obtain ⟨⟨t₀, hw⟩, hafter⟩ := hmust
  obtain ⟨h₁, t₁, hd, hput⟩ := id hafter
  -- the put returned, so it took effect
  have hp : s.Placed k v t₀ := (hs.written t₀ hw).resolve_left fun hp =>
    hp.ret t₁ _ ((List.dropWhile_sublist _).subset (hd ▸ List.mem_cons_of_mem _ hput))
  cases hmv with
  | goto next hth hh => rw [hh] at hr; simp at hr
  | ret r' hth hh ha hi hprobe hsearch =>
    rw [hh, List.cons.injEq, Event.ret.injEq] at hr
    obtain ⟨⟨-, rfl, rfl⟩, -⟩ := hr
    rcases hs.hist.get t k pc ht with rfl | rfl
    · obtain ⟨key, value, hkey, hmem, rfl⟩ := hprobe rfl
      cases hkey
      rw [(hp.copy value).1 (Or.inl hmem)]
      exact congrArg (fun v => Reply.value (.ok v)) (answer_of_ne hv)
    · obtain ⟨key, hkey, rfl⟩ := hsearch rfl
      cases hkey
      have hhas : s.store.Has k v := by
        rcases (hp.copy v).2 rfl with hm | ⟨t', hm⟩ | hm
        · rw [hp.search t ht hafter] at hm; cases hm
        · rw [hc ht ⟨⟨t₀, hw⟩, hafter⟩ t'] at hm; cases hm
        · exact hm
      rw [getSstable_eq hs.wf.store,
        Store.version_of_has hhas fun w h => (hp.copy w).1 (Or.inr (Or.inr h))]
      exact congrArg (fun v => Reply.value (.ok v)) (answer_of_ne hv)

/-- A pending put stays pending until its own thread inserts it. -/
theorem pending_step {k v : Bytes} {s s' : Sys M} {t t₀ : ℕ} (hwf : s.WF) (hs : s.Hist)
    (hw : writesOf k s.history = [.inv t₀ (.put k v)]) (hp : s.Pending k v t₀)
    (h : s.step t = some s') : s'.Pending k v t₀ ∨ s'.Placed k v t₀ := by
  have hcopy := copy_step hwf h (k := k)
  obtain ⟨c, pc, ht, hmv, heff⟩ := step_cases h
  by_cases hins : s.Inserts t k
  · obtain ⟨rfl, ht'⟩ := (inserts_iff hs hw t).1 hins
    obtain ⟨rfl, rfl⟩ := Thread.mk.inj (Option.some.inj (ht.symm.trans ht'))
    obtain ⟨hm, hst, hh⟩ : Memtable.get s'.memtable k = some v ∧ s'.store = s.store ∧
        s'.holding t = s.holding t := by
      cases heff with
      | quiet hpc => exact absurd rfl hpc
      | insert hpc hm hst hh =>
        exact ⟨by rw [hm, if_pos (by simp [Call.writes])]; rfl, hst, hh⟩
      | drain hpc => cases hpc
      | register hpc => obtain ⟨es, hpc⟩ := hpc; cases hpc
      | compact hpc => cases hpc
    cases hmv with
    | ret r hth hhist ha hi => exact absurd rfl (hi rfl k v)
    | goto next hth hhist ha hi =>
      refine Or.inr ⟨fun w => ⟨?_, ?_⟩, fun pc hpc => ?_, fun t' _ ha' => ?_⟩
      · rintro (hcw | ⟨t', hcw⟩ | hcw)
        · rw [hm] at hcw; exact (Option.some.inj hcw).symm
        · refine absurd (Or.inr (Or.inl ⟨t', ?_⟩)) (hp.copy w)
          by_cases htt : t' = t
          · rw [htt, ← hh, ← htt]; exact hcw
          · rw [← Moves.holding_ne (.goto next hth hhist ha hi (by simp) (by simp)) htt]
            exact hcw
        · exact absurd (Or.inr (Or.inr (hst ▸ hcw))) (hp.copy w)
      · rintro rfl; exact Or.inl hm
      · rw [hth, Function.update_self, Option.some.injEq, Thread.mk.injEq] at hpc
        obtain ⟨-, rfl⟩ := hpc
        exact ⟨ha, fun hn => by cases hi.1 hn⟩
      · -- no lookup came after a put that did not return
        obtain ⟨h₁, t₁, hd, hput⟩ := ha'
        rw [hhist] at hd
        exact absurd ((List.dropWhile_sublist _).subset (hd ▸ List.mem_cons_of_mem _ hput))
          (hp.ret t₁ _)
  · refine Or.inl ⟨fun w hcw => hp.copy w ((hcopy hins).1 w hcw), fun pc' hpc => ?_,
      fun t' r hr => ?_⟩
    · cases hmv with
      | goto next hth hhist ha hi =>
        rw [hth] at hpc
        by_cases htt : t₀ = t
        · subst htt
          simp only [Function.update_self, Option.some.injEq, Thread.mk.injEq] at hpc
          obtain ⟨rfl, rfl⟩ := hpc
          refine Or.inr (hi.2 ((hp.pc pc ht).resolve_right fun hpc => ?_))
          exact hins ((inserts_iff hs hw t₀).2 ⟨rfl, hpc ▸ ht⟩)
        · rw [Function.update_of_ne htt] at hpc
          exact hp.pc pc' hpc
      | ret r hth =>
        rw [hth] at hpc
        by_cases htt : t₀ = t
        · subst htt; simp at hpc
        · rw [Function.update_of_ne htt] at hpc
          exact hp.pc pc' hpc
    · cases hmv with
      | goto next hth hhist => rw [hhist] at hr; exact hp.ret t' r hr
      | ret r' hth hhist ha hi =>
        rw [hhist] at hr
        rcases List.mem_cons.1 hr with hr | hr
        · obtain ⟨rfl, rfl, rfl⟩ := Event.ret.inj hr
          have := mem_writesOf (hs.mem ht) (k := k) (by simp [Call.writes])
          rw [hw, List.mem_singleton, Event.inv.injEq] at this
          obtain ⟨rfl, -⟩ := this
          rcases hp.pc pc ht with rfl | rfl
          · exact ha rfl
          · exact hi rfl k v rfl
        · exact hp.ret t' r hr

/-- A placed value stays placed. -/
theorem placed_step {k v : Bytes} (hv : v ≠ .empty) {s s' : Sys M} {t t₀ : ℕ} (hwf : s.WF)
    (hs : s.Hist) (hw : writesOf k s.history = [.inv t₀ (.put k v)]) (hp : s.Placed k v t₀)
    (h : s.step t = some s') : s'.Placed k v t₀ := by
  have hins : ¬ s.Inserts t k := fun hins =>
    (hp.pc _ ((inserts_iff hs hw t).1 hins).2).2 rfl
  obtain ⟨hsub, hkeep⟩ := copy_step hwf h hins
  have hmem := mem_step h hins
  obtain ⟨c, pc, ht, hmv, -⟩ := step_cases h
  refine ⟨fun w => ⟨fun hcw => (hp.copy w).1 (hsub w hcw), ?_⟩, fun pc' hpc => ?_,
    fun t' ht' ha' => ?_⟩
  · rintro rfl
    exact hkeep w hv (fun w' => (hp.copy w').1) ((hp.copy w).2 rfl)
  · cases hmv with
    | goto next hth hhist ha hi =>
      rw [hth] at hpc
      by_cases htt : t₀ = t
      · subst htt
        simp only [Function.update_self, Option.some.injEq, Thread.mk.injEq] at hpc
        obtain ⟨rfl, rfl⟩ := hpc
        exact ⟨ha, fun hn => (hp.pc pc ht).1 (hi.1 hn)⟩
      · rw [Function.update_of_ne htt] at hpc
        exact hp.pc pc' hpc
    | ret r hth =>
      rw [hth] at hpc
      by_cases htt : t₀ = t
      · subst htt; simp at hpc
      · rw [Function.update_of_ne htt] at hpc
        exact hp.pc pc' hpc
  · cases hmv with
    | goto next hth hhist ha hi hg hse =>
      rw [hth] at ht'
      rw [hhist] at ha'
      by_cases htt : t' = t
      · subst htt
        simp only [Function.update_self, Option.some.injEq, Thread.mk.injEq] at ht'
        obtain ⟨rfl, -⟩ := ht'
        exact hmem (hg k rfl ((hs.get t' k pc ht).resolve_right hse)).2
      · rw [Function.update_of_ne htt] at ht'
        exact hmem (hp.search t' ht' ha')
    | ret r hth hhist =>
      rw [hth] at ht'
      by_cases htt : t' = t
      · subst htt; simp at ht'
      · rw [Function.update_of_ne htt] at ht'
        rw [hhist, after_cons_ne (Ne.symm htt)] at ha'
        exact hmem (hp.search t' ht' ha')

/-- **Step lemma.** -/
theorem inv_step {k v : Bytes} (hv : v ≠ .empty) {s s' : Sys M} {t : ℕ} (hs : Inv k v s)
    (h : s.step t = some s') (hc : SearchClear k v s t) : Inv k v s' := by
  have hsee : ∀ t' r, s'.history = .ret t' (.get k) r :: s.history → MustSee k v t' s.history →
      r = .value (.ok (some v)) := by
    intro t' r hr hmust
    obtain ⟨c, pc, ht, hmv, -⟩ := step_cases h
    cases hmv with
    | goto next hth hh => rw [hh] at hr; simp at hr
    | ret r' hth hh =>
      have := hh.symm.trans hr
      rw [List.cons.injEq, Event.ret.injEq] at this
      obtain ⟨⟨rfl, -⟩, -⟩ := this
      exact reply_of_mustSee hv hs h hc hr hmust
  have hcopy := fun hins => copy_step hs.wf h (k := k) hins
  have hmem := fun hins => mem_step h (k := k) hins
  have hhist := hist_step hs.hist h
  have hwr := writesOf_step h k
  obtain ⟨c, pc, ht, hmv, heff⟩ := step_cases h
  refine ⟨wf_step hs.wf h, hhist, fun hw w hcw => ?_, fun t₀ hw => ?_, ?_⟩
  · rw [hwr] at hw
    refine hs.unwritten hw w ((hcopy ?_).1 w hcw)
    rintro ⟨c', ht', hc'⟩
    have := mem_writesOf (hs.hist.mem ht') hc'
    rw [hw] at this; cases this
  · rw [hwr] at hw
    rcases hs.written t₀ hw with hp | hp
    · exact pending_step hs.wf hs.hist hw hp h
    · exact Or.inr (placed_step hv hs.wf hs.hist hw hp h)
  · cases hmv with
    | goto next hth hh => rw [hh]; exact hs.sees
    | ret r hth hh =>
      rw [hh]
      refine sees_cons hs.sees fun t' r' he hmust => hsee t' r' ?_ hmust
      rw [hh, he]

/-- The calls of the interleaving write short strings, and every step at which a `get` of
    `k` that must see `put k v` searches the tables meets no flush that holds the key. -/
def ClearRun (k v : Bytes) (s : Sys M) : List Act → Prop
  | [] => True
  | a :: as => ((∀ t c, a = .call t c → c.Short) ∧ ∀ t, a = .step t → SearchClear k v s t) ∧
      ∀ s', s.act a = some s' → ClearRun k v s' as

omit [LawfulMemtable M] in
theorem ClearRun.call {k v : Bytes} {s s' : Sys M} {t : ℕ} {c : Call} {as : List Act}
    (h : s.act (.call t c) = some s') (hc : c.Short) (hr : ClearRun k v s' as) :
    ClearRun k v s (.call t c :: as) :=
  ⟨⟨fun t' c' he => by cases he; exact hc, fun t' he => by cases he⟩,
    fun s₁ h₁ => by rw [h] at h₁; cases h₁; exact hr⟩

omit [LawfulMemtable M] in
theorem ClearRun.step {k v : Bytes} {s s' : Sys M} {t : ℕ} {as : List Act}
    (h : s.act (.step t) = some s') (hc : SearchClear k v s t) (hr : ClearRun k v s' as) :
    ClearRun k v s (.step t :: as) :=
  ⟨⟨fun t' c he => (by cases he), fun t' he => by cases he; exact hc⟩,
    fun s₁ h₁ => by rw [h] at h₁; cases h₁; exact hr⟩

omit [LawfulMemtable M] in
theorem inv_init {m : M} (hm : ∀ k, Memtable.get m k = none) (config : EngineConfig)
    (k v : Bytes) : Inv k v (init m config) := by
  refine ⟨⟨Store.wf_new _ _, fun _ => ascending_nil⟩, ⟨by simp [init], by simp [init], by simp [init]⟩,
    fun _ w => ?_, fun t hw => ?_, fun t r h' hsuf => ?_⟩
  · rintro (hw | ⟨t, hw⟩ | ⟨L, es, hes, hw⟩)
    · exact absurd ((hm k).symm.trans hw) (by simp)
    · cases hw
    · rw [show (init m config).store.tables L = [] from Store.tables_new _ _ _] at hes
      cases hes
  · cases hw
  · cases List.suffix_nil.1 hsuf

/-- **A get that must see a put returns its value, in every interleaving of calls with
    short strings in which such gets never search while a flush holds the key.** -/
theorem run_seesPut {m : M} (hm : ∀ k, Memtable.get m k = none) (config : EngineConfig)
    {k v : Bytes} (hv : v ≠ .empty) {sched : List Act} {s : Sys M}
    (hrun : (init m config).run sched = some s) (hc : ClearRun k v (init m config) sched) :
    SeesPut k v s.history := by
  suffices h : ∀ (sched : List Act) (s₀ : Sys M), Inv k v s₀ → ClearRun k v s₀ sched →
      s₀.run sched = some s → Inv k v s from (h sched _ (inv_init hm config k v) hc hrun).sees
  intro sched
  induction sched with
  | nil =>
    intro s₀ hs₀ _ hrun
    cases hrun
    exact hs₀
  | cons a as ih =>
    intro s₀ hs₀ hc hrun
    rw [run, List.foldlM_cons, Option.bind_eq_bind, Option.bind_eq_some_iff] at hrun
    obtain ⟨s₁, hact, hrun⟩ := hrun
    refine ih s₁ ?_ (hc.2 s₁ hact) hrun
    cases a with
    | call t c => exact inv_invoke hs₀ hact
    | step t => exact inv_step hv hs₀ hact (hc.1.2 t rfl)

/-- A get probes the memtable after a flush drained it and searches the tables before
    the flush registers its table. -/
def getDuringFlush : List Act :=
  [.call 0 (.put (.singleton 1) (.singleton 1)), .step 0, .step 0, .step 0, .call 1 .flush,
    .step 1, .call 0 (.get (.singleton 1)), .step 0, .step 0]

theorem get_misses_put : ∃ s : Sys BTreeMemtable,
    (init BTreeMemtable.new ⟨4 * 1024 * 1024⟩).run getDuringFlush = some s ∧
      ¬ SeesPut (.singleton 1) (.singleton 1) s.history := by
  refine ⟨_, rfl, fun h => ?_⟩
  have := h 0 (.value (.ok none)) _ (List.suffix_refl _)
    ⟨⟨0, rfl⟩, _, 0, rfl, List.mem_cons_of_mem _ List.mem_cons_self⟩
  simp at this

/-- A get after a whole flush. -/
def getAfterFlush : List Act :=
  [.call 0 (.put (.singleton 1) (.singleton 1)), .step 0, .step 0, .step 0, .call 1 .flush,
    .step 1, .step 1, .step 1, .step 1, .call 0 (.get (.singleton 1)), .step 0, .step 0]

theorem run_seesPut_getAfterFlush : ∃ s : Sys BTreeMemtable,
    (init BTreeMemtable.new ⟨4 * 1024 * 1024⟩).run getAfterFlush = some s ∧
      SeesPut (.singleton 1) (.singleton 1) s.history := by
  refine ⟨_, rfl, run_seesPut (fun _ => rfl) ⟨4 * 1024 * 1024⟩ (by decide)
    (show (init BTreeMemtable.new ⟨4 * 1024 * 1024⟩).run getAfterFlush = some _ from rfl) ?_⟩
  have hpc : ∀ {s : Sys BTreeMemtable} {t : ℕ}, s.threads t ≠ some ⟨.get (.singleton 1), .search⟩ →
      SearchClear (.singleton 1) (.singleton 1) s t := fun h hs => absurd hs h
  refine .call rfl (And.intro (by decide) (by decide)) ?_
  iterate 3
    refine .step rfl (hpc (by decide)) ?_
  refine .call rfl trivial ?_
  iterate 4
    refine .step rfl (hpc (by decide)) ?_
  refine .call rfl trivial (.step rfl (hpc (by decide)) ?_)
  -- the search of the get
  refine .step rfl (fun hs hmust t' => ?_) trivial
  rcases t' with _ | _ | n <;> rfl

end Lawful

end Sys

end Scry.Lsm
