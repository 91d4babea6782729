/-
  The compaction pass over the levels.

  The pass goes through the levels once, from the top, and stops at the number of levels
  that there are when it begins.  A compaction empties its level and pushes at most one
  table into the next, so that no level is full afterwards (`maybeCompact_bounds`).
  Nothing is assumed of the tables but that their files open.  Where they are well formed,
  the tables before the pass say what it merges (`foldlM_compactIfFull_cascaded`).
-/
import Scry.Lib.Cascade
import Scry.Lsm.Proof.Engine

namespace Scry.Lsm

/-- The manifest without the tables of a level, with one more id taken. -/
def Manifest.cleared (m : Manifest) (L : ℕ) : Manifest :=
  (m.nextSstablePath (L + 1)).2.remove L ((m.level L).map (·.id))

theorem Manifest.level_cleared (m : Manifest) (L i : ℕ) :
    (m.cleared L).level i = if i = L then [] else m.level i := by
  rw [cleared, level_remove]
  split_ifs with h
  · subst h
    exact filter_ids (m.level i)
  · rfl

/-- **What a compaction does to the manifest.** -/
theorem compactLevel_manifest {s s' : Store} {L : ℕ} (hne : s.manifest.level L ≠ [])
    (h : compactLevel s L = .ok s') : s'.manifest = s.manifest.cleared L ∨
      ∃ t : SsTableMeta, t.level = L + 1 ∧ s'.manifest = (s.manifest.cleared L).add t := by
  unfold compactLevel at h
  rw [if_neg (by rw [List.isEmpty_iff]; exact hne)] at h
  cases hopen : (s.manifest.level L).mapM fun t => SsTableReader.open_ s.disk t.path with
  | error e =>
    rw [hopen] at h
    cases h
  | ok readers =>
    rw [hopen] at h
    dsimp only [bind, Except.bind, pure, Except.pure] at h
    split_ifs at h
    · cases h
      exact Or.inr ⟨_, rfl, rfl⟩
    · cases h
      exact Or.inl rfl

/-- A step of the pass at level `i` empties the level if it is full, pushes at most one
    table into the next and does nothing to the others. -/
structure Pushes (s s' : Store) (i : ℕ) : Prop where
  self : s'.manifest.level i =
    if s.manifest.levelCount i ≥ maxTablesPerLevel then [] else s.manifest.level i
  next : ∃ t : Option SsTableMeta,
    s'.manifest.level (i + 1) = s.manifest.level (i + 1) ++ t.toList
  others (L : ℕ) : L ≠ i → L ≠ i + 1 → s'.manifest.level L = s.manifest.level L

/-- **Step lemma**: a step leaves its level below the trigger. -/
theorem compactIfFull_pushes {s s' : Store} {i : ℕ} (h : compactIfFull s i = .ok s') :
    Pushes s s' i ∧ s.manifest.numLevels ≤ s'.manifest.numLevels ∧
      s'.manifest.numLevels ≤ max s.manifest.numLevels (i + 2) := by
  unfold compactIfFull at h
  by_cases hfull : s.manifest.levelCount i ≥ maxTablesPerLevel
  · rw [if_pos hfull] at h
    have hne : s.manifest.level i ≠ [] := by
      intro he
      rw [Manifest.levelCount, he] at hfull
      exact absurd hfull (by decide)
    have hnum : (s.manifest.cleared i).numLevels = s.manifest.numLevels :=
      Manifest.numLevels_remove _ _ _
    rcases compactLevel_manifest hne h with hm | ⟨t, ht, hm⟩
    · have hlevel : ∀ L, s'.manifest.level L = if L = i then [] else s.manifest.level L := by
        rw [hm]
        exact s.manifest.level_cleared i
      refine ⟨⟨?_, ⟨none, ?_⟩, fun L hL _ => ?_⟩, by rw [hm, hnum], by rw [hm, hnum]; omega⟩
      · rw [hlevel, if_pos rfl, if_pos hfull]
      · rw [hlevel, if_neg (by omega)]
        exact (List.append_nil _).symm
      · rw [hlevel, if_neg hL]
    · have hlevel : ∀ L, s'.manifest.level L = if L = i + 1 then s.manifest.level L ++ [t]
          else if L = i then [] else s.manifest.level L := by
        intro L
        rw [hm, Manifest.level_add, ht, s.manifest.level_cleared i]
        by_cases hL : L = i + 1
        · rw [if_pos hL, if_pos hL, if_neg (by omega)]
        · rw [if_neg hL, if_neg hL]
      refine ⟨⟨?_, ⟨some t, ?_⟩, fun L hL hL' => ?_⟩, ?_, ?_⟩
      · rw [hlevel, if_neg (by omega), if_pos rfl, if_pos hfull]
      · rw [hlevel, if_pos rfl]
        rfl
      · rw [hlevel, if_neg hL', if_neg hL]
      · rw [hm, Manifest.numLevels_add, hnum]
        exact le_max_left _ _
      · rw [hm, Manifest.numLevels_add, hnum, ht]
  · rw [if_neg hfull] at h
    cases h
    exact ⟨⟨(if_neg hfull).symm, ⟨none, (List.append_nil _).symm⟩, fun _ _ _ => rfl⟩, le_rfl,
      le_max_left _ _⟩

/-- A step leaves its level below the trigger. -/
theorem Pushes.levelCount_lt {s s' : Store} {i : ℕ} (h : Pushes s s' i) :
    s'.manifest.levelCount i < maxTablesPerLevel := by
  rw [Manifest.levelCount, h.self]
  split_ifs with hfull
  · decide
  · exact not_le.1 hfull

/-- A pass goes through the stores `S 0`, ..., `S n`. -/
def PassSteps (S : ℕ → Store) (n : ℕ) : Prop :=
  ∀ i < n, compactIfFull (S i) i = .ok (S (i + 1)) ∧ Pushes (S i) (S (i + 1)) i

/-- What holds when a pass that began in `s` has gone through the levels below `n`. -/
structure Passed (s s' : Store) (n : ℕ) : Prop where
  low (L : ℕ) : L < n → s'.manifest.levelCount L < maxTablesPerLevel
  ge : s.manifest.numLevels ≤ s'.manifest.numLevels
  le : s'.manifest.numLevels ≤ max s.manifest.numLevels (n + 1)
  grown : s.manifest.numLevels < s'.manifest.numLevels →
    n = s.manifest.numLevels ∧ s'.manifest.levelCount n ≤ 1
  steps : ∃ S : ℕ → Store, S 0 = s ∧ S n = s' ∧ PassSteps S n

theorem Passed.zero (s : Store) : Passed s s 0 where
  low _ hL := absurd hL (Nat.not_lt_zero _)
  ge := le_rfl
  le := le_max_left _ _
  grown hlt := absurd hlt (lt_irrefl _)
  steps := ⟨fun _ => s, rfl, rfl, fun _ hi => absurd hi (Nat.not_lt_zero _)⟩

theorem Passed.succ {s s₁ s' : Store} {n : ℕ} (hn : n < s.manifest.numLevels) (h : Passed s s₁ n)
    (hstep : compactIfFull s₁ n = .ok s') : Passed s s' (n + 1) := by
  obtain ⟨hpush, hge, hle⟩ := compactIfFull_pushes hstep
  have hnum : s₁.manifest.numLevels = s.manifest.numLevels := by
    refine le_antisymm (not_lt.1 fun hlt => ?_) h.ge
    exact hn.ne (h.grown hlt).1
  obtain ⟨S, h₀, hS, hsteps⟩ := h.steps
  refine ⟨fun L hL => ?_, hnum ▸ hge, hnum ▸ hle, fun hlt => ?_, fun i => if i ≤ n then S i else s',
    (if_pos (Nat.zero_le _)).trans h₀, if_neg (by omega), fun i hi => ?_⟩
  · rcases Nat.lt_succ_iff_lt_or_eq.1 hL with hL | rfl
    · -- a later step does not push into a level that was dealt with
      rw [Manifest.levelCount, hpush.others L (by omega) (by omega)]
      exact h.low L hL
    · exact hpush.levelCount_lt
  · refine ⟨by omega, ?_⟩
    obtain ⟨t, ht⟩ := hpush.next
    rw [Manifest.levelCount, ht, Manifest.level_of_le (by omega), List.nil_append]
    exact Option.length_toList_le
  · rcases Nat.lt_succ_iff_lt_or_eq.1 hi with hi | rfl
    · simp only [if_pos hi.le, if_pos (Nat.succ_le_of_lt hi)]
      exact hsteps i hi
    · simp only [if_pos le_rfl, if_neg (Nat.not_succ_le_self i), hS]
      exact ⟨hstep, hpush⟩

/-- **Run lemma**: each level that the pass goes through is dealt with. -/
theorem foldlM_compactIfFull_passed {s s' : Store} {n : ℕ} (hn : n ≤ s.manifest.numLevels)
    (h : (List.range n).foldlM compactIfFull s = .ok s') : Passed s s' n := by
  induction n generalizing s' with
  | zero =>
    cases h
    exact .zero s
  | succ n ih =>
    rw [List.range_succ, List.foldlM_append] at h
    rcases hpre : (List.range n).foldlM compactIfFull s with e | s₁
    · rw [hpre] at h
      cases h
    rw [hpre] at h
    exact (ih (by omega) hpre).succ hn ((bind_pure (compactIfFull s₁ n)).symm.trans h)

/-- **The pass bounds every level**, adds at most one level, and pushes at most one table
    into each. -/
theorem maybeCompact_bounds {s s' : Store} (h : maybeCompact s = .ok s') :
    (∀ L, s'.manifest.levelCount L < maxTablesPerLevel) ∧
      s'.manifest.numLevels ≤ s.manifest.numLevels + 1 ∧
      ∃ S : ℕ → Store, S 0 = s ∧ S s.manifest.numLevels = s' ∧
        PassSteps S s.manifest.numLevels := by
  have hp := foldlM_compactIfFull_passed le_rfl h
  have hle : s'.manifest.numLevels ≤ s.manifest.numLevels + 1 := by
    have := hp.le
    omega
  refine ⟨fun L => ?_, hle, hp.steps⟩
  rcases lt_or_ge L s.manifest.numLevels with hL | hL
  · exact hp.low L hL
  rcases lt_or_ge L s'.manifest.numLevels with hL' | hL'
  · -- the level is the one that the last step has added
    have hone := (hp.grown (by omega)).2
    rw [show L = s.manifest.numLevels by omega]
    exact lt_of_le_of_lt hone (by decide)
  · rw [Manifest.levelCount, Manifest.level_of_le hL']
    decide

/-- A manifest with a single level, which four flushes have filled. -/
def fullStore : Store :=
  [1, 2, 3, 4].foldl (fun s b => LsmEngine.addTable s [(.singleton b, .singleton b)])
    ⟨Manifest.new 1, fun _ => none⟩

/-- The pass adds a second level. -/
theorem maybeCompact_bounds_fullStore : ∃ s', maybeCompact fullStore = .ok s' ∧
    s'.manifest.numLevels = 2 ∧ ∀ L, s'.manifest.levelCount L < maxTablesPerLevel := by
  have hwf : fullStore.WF := (addTable_spec (addTable_spec (addTable_spec (addTable_spec
    (Store.wf_new 1 _) (by decide)).1 (by decide)).1 (by decide)).1 (by decide)).1
  obtain ⟨s', h, -⟩ := maybeCompact_spec hwf
  refine ⟨s', h, ?_, (maybeCompact_bounds h).1⟩
  have hnum : (maybeCompact fullStore).toOption.map (·.manifest.numLevels) = some 2 := by
    decide +kernel
  rw [h] at hnum
  exact Option.some.inj hnum

/-! ## What the pass merges -/

theorem isHighest_mono {m : Manifest} {i L : ℕ} (h : i ≤ L) (hi : isHighest m i = true) :
    isHighest m L = true := by
  simp only [isHighest, ge_iff_le, decide_eq_true_eq] at hi ⊢
  omega

theorem keep_mono {m : Manifest} {i L : ℕ} (h : i ≤ L) {v : Bytes}
    (hv : keep (isHighest m L) v = true) : keep (isHighest m i) v = true :=
  keep_iff.2 fun hd => keep_iff.1 hv ⟨isHighest_mono h hd.1, hd.2⟩

/-- What the merge of a level keeps. -/
def keptAt (m : Manifest) (i : ℕ) (v : Bytes) : Bool := keep (isHighest m i) v

/-- **The pass over the levels below `n`** has merged the full ones one into the other. -/
theorem foldlM_compactIfFull_cascaded {s s' : Store} (hs : s.WF) {n : ℕ}
    (hn : n ≤ s.manifest.numLevels) (h : (List.range n).foldlM compactIfFull s = .ok s') :
    s'.WF ∧ Cascade.Cascaded maxTablesPerLevel (keptAt s.manifest) s.tables s'.tables n := by
  induction n generalizing s' with
  | zero =>
    cases h
    exact ⟨hs, .zero _⟩
  | succ n ih =>
    rw [List.range_succ, List.foldlM_append] at h
    rcases hpre : (List.range n).foldlM compactIfFull s with e | s₁
    · rw [hpre] at h
      cases h
    rw [hpre] at h
    have hstep : compactIfFull s₁ n = .ok s' := (bind_pure (compactIfFull s₁ n)).symm.trans h
    obtain ⟨hs₁, hc⟩ := ih (by omega) hpre
    have hp := foldlM_compactIfFull_passed (by omega) hpre
    have hnum : s₁.manifest.numLevels = s.manifest.numLevels :=
      le_antisymm (not_lt.1 fun hlt => absurd (hp.grown hlt).1 (by omega)) hp.ge
    have hhigh : isHighest s₁.manifest n = isHighest s.manifest n := by
      rw [isHighest, isHighest, hnum]
    rw [compactIfFull, Store.levelCount_eq] at hstep
    split_ifs at hstep with hfull
    · obtain ⟨s₂, out, hrun, hs₂, htab, -, hout⟩ := compactLevel_spec hs₁ n
      cases hrun.symm.trans hstep
      rw [show s'.tables = pushDown s₁.tables n out from funext htab]
      refine ⟨hs₂, hc.merge (fun i v hi => keep_mono hi.le) hfull fun k => ?_⟩
      rw [hout, hhigh]
      rfl
    · cases hstep
      exact ⟨hs₁, hc.skip hfull⟩

end Scry.Lsm
