/-
  What failed compactions and flushes lose.

  A compaction that fails while it reads or writes entries leaves its sources alone; one
  that fails in `finish` has removed them before (`compactLevelAt_keeps_iff`).  A flush
  drains the memtable before its first step that can fail (`call_keeps_iff`).
-/
import Scry.Lsm.Fault
import Scry.Lsm.Proof.Cascade

namespace Scry.Lsm

/-! ## Steps -/

section Attempt
variable {σ : Type} [DecidableEq σ] {fault : Option (Fault σ)} {step : σ} {e : IoError}

theorem attempt_error (h : attempt fault step = .error e) :
    ∃ f, fault = some f ∧ f.step = step := by
  cases fault with
  | none => cases h
  | some f =>
    rw [attempt] at h
    split_ifs at h with hf
    exact ⟨f, rfl, hf⟩

theorem attempt_ok (h : attempt fault step = .ok ()) : ∀ f ∈ fault, f.step ≠ step := by
  rintro f rfl hf
  rw [attempt, if_pos hf] at h
  cases h

end Attempt

/-! ## Compaction -/

variable {fault : Option (Fault CompactIo)}

/-- A failure before the sources are removed. -/
def BeforeRemoval (fault : Option (Fault CompactIo)) : Prop := ∃ f, fault = some f ∧ f.step ≠ .finish

variable (fault) in
theorem openSources_spec {d : Disk} {ts : List SsTableMeta} (i : ℕ) {readers : List SsTableReader}
    (ho : ts.mapM (fun t => SsTableReader.open_ d t.path) = Except.ok readers) :
    openSources fault d i ts = .ok readers ∨
      ∃ e, openSources fault d i ts = .error e ∧ BeforeRemoval fault := by
  induction ts generalizing i readers with
  | nil => cases ho; exact Or.inl rfl
  | cons t ts ih =>
    rw [List.mapM_cons] at ho
    cases hr : SsTableReader.open_ d t.path with
    | error e => rw [hr] at ho; cases ho
    | ok reader =>
      rw [hr] at ho
      cases hrs : ts.mapM (fun t => SsTableReader.open_ d t.path) with
      | error e => rw [hrs] at ho; cases ho
      | ok rs =>
        rw [hrs] at ho
        cases ho
        rw [openSources, hr]
        cases ha : attempt fault (.openSource i) with
        | error e =>
          obtain ⟨f, hf, hstep⟩ := attempt_error ha
          exact Or.inr ⟨e, rfl, f, hf, by rw [hstep]; nofun⟩
        | ok u =>
          rcases ih (i + 1) hrs with h | ⟨e, h, hb⟩
          · left; rw [h]; rfl
          · right; rw [h]; exact ⟨e, rfl, hb⟩

variable (fault) in
theorem forM_attempt_spec (is : List ℕ) {step : ℕ → CompactIo} (hstep : ∀ i, step i ≠ .finish) :
    (is.forM fun i => attempt fault (step i)) = .ok () ∨
      ∃ e, (is.forM fun i => attempt fault (step i)) = .error e ∧ BeforeRemoval fault := by
  induction is with
  | nil => exact Or.inl rfl
  | cons i is ih =>
    have hcons : ((i :: is).forM fun i => attempt fault (step i)) =
      (attempt fault (step i)).bind fun _ => is.forM fun i => attempt fault (step i) := rfl
    rw [hcons]
    cases ha : attempt fault (step i) with
    | error e =>
      obtain ⟨f, hf, hs⟩ := attempt_error ha
      exact Or.inr ⟨e, rfl, f, hf, by rw [hs]; exact hstep i⟩
    | ok u => exact ih

variable (fault) in
theorem startSources_spec {d : Disk} {ts : List SsTableMeta} {readers : List SsTableReader}
    (ho : ts.mapM (fun t => SsTableReader.open_ d t.path) = Except.ok readers) :
    startSources fault d ts = .ok readers ∨
      ∃ e, startSources fault d ts = .error e ∧ BeforeRemoval fault := by
  rw [startSources]
  rcases openSources_spec fault 0 ho with h | ⟨e, h, hb⟩
  · rw [h]
    have hseed : ∀ i, CompactIo.seed i ≠ .finish := nofun
    rcases forM_attempt_spec fault (List.range readers.length) hseed with h' | ⟨e, h', hb⟩
    · left
      show (((List.range readers.length).forM fun i => attempt fault (.seed i)).bind fun _ => _) = _
      rw [h']; rfl
    · right
      refine ⟨e, ?_, hb⟩
      show (((List.range readers.length).forM fun i => attempt fault (.seed i)).bind fun _ => _) = _
      rw [h']; rfl
  · right
    rw [h]
    exact ⟨e, rfl, hb⟩

theorem mergeLoopAt_spec (isHighest : Bool) (n : ℕ) : ∀ (i : ℕ) (s : MergeState),
    mergeLoopAt fault isHighest n i s = .ok (mergeLoop isHighest n s) ∨
      ∃ e, mergeLoopAt fault isHighest n i s = .error e ∧ BeforeRemoval fault := by
  induction n with
  | zero => exact fun i s => Or.inl rfl
  | succ n ih =>
    intro i s
    rw [mergeLoopAt, mergeLoop]
    cases mergeStep isHighest s with
    | none => exact Or.inl rfl
    | some s' =>
      dsimp only
      cases ha : attempt fault (.next i) with
      | error e =>
        obtain ⟨f, hf, hs⟩ := attempt_error ha
        exact Or.inr ⟨e, rfl, f, hf, by rw [hs]; rintro ⟨⟩⟩
      | ok u =>
        by_cases hw : s'.writer.entryCount ≠ s.writer.entryCount
        · rw [if_pos hw]
          cases ha' : attempt fault (.add i) with
          | error e =>
            obtain ⟨f, hf, hs⟩ := attempt_error ha'
            exact Or.inr ⟨e, rfl, f, hf, by rw [hs]; rintro ⟨⟩⟩
          | ok u => exact ih (i + 1) s'
        · rw [if_neg hw]
          exact ih (i + 1) s'

variable (fault) in
theorem mergeAt_spec (isHighest : Bool) (readers : List SsTableReader) (w : SsTableWriter) :
    mergeAt fault isHighest readers w = .ok (merge isHighest readers w) ∨
      ∃ e, mergeAt fault isHighest readers w = .error e ∧ BeforeRemoval fault :=
  mergeLoopAt_spec isHighest _ 0 _

/-- The store after an id was taken for the output. -/
def Store.takeId (s : Store) (L : ℕ) : Store := ⟨(s.manifest.nextSstablePath L).2, s.disk⟩

theorem Store.takeId_spec {s : Store} (hs : s.WF) (L : ℕ) :
    (s.takeId L).WF ∧ ∀ i, (s.takeId L).tables i = s.tables i :=
  ⟨fun _ => (Store.of_files (s.takeId L) hs (Nat.le_succ _) (fun _ _ => rfl)).1, fun _ => rfl⟩

/-- What a compaction does when a step of it may fail. -/
inductive CompactEnd (fault : Option (Fault CompactIo)) (s : Store) (L : ℕ) :
    Store × Except IoError Unit → Prop
  /-- no step failed -/
  | done {s' : Store} (h : compactLevel s L = .ok s') : CompactEnd fault s L (s', .ok ())
  /-- a step failed before the sources were removed -/
  | kept {s' : Store} {e : IoError} (hb : BeforeRemoval fault)
      (h : s' = s ∨ s' = s.takeId (L + 1) ∨ s' = s.create (L + 1)) :
      CompactEnd fault s L (s', .error e)
  /-- the output could not be finished -/
  | lost {f : Fault CompactIo} {e : IoError} (hf : fault = some f) (h : f.step = .finish) :
      CompactEnd fault s L ((s.create (L + 1)).clear L, .error e)

/-- **Inversion of a compaction that may fail.** -/
theorem compactLevelAt_end {s : Store} (hs : s.WF) (fault : Option (Fault CompactIo)) (L : ℕ) :
    CompactEnd fault s L (compactLevelAt fault s L) := by
  unfold compactLevelAt
  by_cases hempty : (s.manifest.level L).isEmpty = true
  · simp only [hempty, if_true]
    refine .done ?_
    unfold compactLevel
    simp only [hempty, if_true]
    rfl
  · have hopen := mapM_open (hs L)
    set readers := (s.manifest.level L).map fun t => (⟨s.entries t⟩ : SsTableReader) with hr
    simp only [hempty, Bool.false_eq_true, if_false]
    rcases startSources_spec fault hopen with h | ⟨e, h, hb⟩
    swap
    · rw [h]; exact .kept hb (Or.inl rfl)
    rw [h]
    dsimp only
    cases hc : attempt fault .create with
    | error e =>
      obtain ⟨f, hf, hstep⟩ := attempt_error hc
      exact .kept ⟨f, hf, by rw [hstep]; rintro ⟨⟩⟩ (Or.inr (Or.inl rfl))
    | ok u =>
      dsimp only
      set w := (SsTableWriter.new s.disk (s.manifest.nextSstablePath (L + 1)).1.2).1 with hw
      rcases mergeAt_spec fault (isHighest s.manifest L) readers w with hm | ⟨e, hm, hb⟩
      swap
      · rw [hm]; exact .kept hb (Or.inr (Or.inr rfl))
      have hrun : compactLevel s L =
          let merged := merge (isHighest s.manifest L) readers w
          if merged.wroteAny then
            let done := merged.writer.finish ((s.create (L + 1)).clear L).disk
            .ok ⟨((s.create (L + 1)).clear L).manifest.add ⟨s.manifest.nextId, L + 1,
              (s.manifest.nextSstablePath (L + 1)).1.2, done.1.1, done.1.2.1, done.1.2.2⟩, done.2⟩
          else .ok ((s.create (L + 1)).clear L) := by
        unfold compactLevel
        simp only [hempty, Bool.false_eq_true, if_false, hopen]
        rfl
      rw [hm]
      generalize merge (isHighest s.manifest L) readers w = merged at hrun ⊢
      dsimp only at hrun ⊢
      by_cases hany : merged.wroteAny = true
      · rw [if_pos hany] at hrun ⊢
        cases hfin : attempt fault .finish with
        | error e =>
          obtain ⟨f, hf, hstep⟩ := attempt_error hfin
          exact .lost hf hstep
        | ok u => exact .done hrun
      · rw [if_neg hany] at hrun ⊢
        exact .done hrun

/-- The version of a key that a search finds without the tables of a level. -/
def Store.without (s : Store) (L : ℕ) (k : Bytes) : Option Bytes :=
  (visible s.tables 0 L k).or (visible s.tables (L + 1) s.manifest.numLevels k)

theorem visible_around (T : ℕ → List (List Entry)) (L n : ℕ) (k : Bytes) :
    visible T 0 (L + (n + 1)) k =
      (visible T 0 L k).or ((newest (T L) k).or (visible T (L + 1) n k)) := by
  rw [visible_add, Nat.zero_add, visible_succ T L]

theorem version_around (s : Store) (L : ℕ) (k : Bytes) : s.version k =
    (visible s.tables 0 L k).or
      ((newest (s.tables L) k).or (visible s.tables (L + 1) s.manifest.numLevels k)) := by
  rw [Store.version_eq (show s.manifest.numLevels ≤ L + (s.manifest.numLevels + 1) by omega),
    visible_around]

theorem version_clear {s : Store} (hs : s.WF) (L : ℕ) (k : Bytes) :
    ((s.create (L + 1)).clear L).version k = s.without L k := by
  obtain ⟨hwf, -, htab⟩ := Store.create_spec hs (L + 1)
  obtain ⟨-, -, htab'⟩ := Store.clear_spec hwf L
  set s' := (s.create (L + 1)).clear L
  have hT : ∀ i, s'.tables i = if i = L then [] else s.tables i := fun i => by rw [htab', htab]
  have hn : s'.manifest.numLevels = s.manifest.numLevels := Manifest.numLevels_remove _ _ _
  have hlow : visible s'.tables 0 L k = visible s.tables 0 L k :=
    visible_congr fun i _ hi => by rw [hT, if_neg (by omega)]
  have hhigh : visible s'.tables (L + 1) s.manifest.numLevels k =
      visible s.tables (L + 1) s.manifest.numLevels k :=
    visible_congr fun i hi _ => by rw [hT, if_neg (by omega)]
  have hL : newest (s'.tables L) k = none := by rw [hT, if_pos rfl]; rfl
  rw [version_around s' L, hn, hlow, hhigh, hL, Option.none_or, Store.without]

/-- The level can be spared: its tables do not decide what a lookup of `k` answers. -/
def Spare (s : Store) (L : ℕ) (k : Bytes) : Prop :=
  (visible s.tables 0 L k).isSome ∨ newest (s.tables L) k = none ∨
    answer (newest (s.tables L) k) = answer (visible s.tables (L + 1) s.manifest.numLevels k)

theorem spare_iff (s : Store) (L : ℕ) (k : Bytes) :
    answer (s.without L k) = answer (s.version k) ↔ Spare s L k := by
  rw [version_around s L, Store.without, Spare]
  cases visible s.tables 0 L k with
  | some v => simp
  | none =>
    cases newest (s.tables L) k with
    | none => simp
    | some v => simp [eq_comm]

/-- A failed compaction leaves a well-formed store. -/
theorem CompactEnd.wf {s s' : Store} (hs : s.WF) {L : ℕ} {e : IoError}
    (h : CompactEnd fault s L (s', .error e)) : s'.WF := by
  cases h with
  | kept hb h =>
    rcases h with rfl | rfl | rfl
    · exact hs
    · exact (Store.takeId_spec hs _).1
    · exact (Store.create_spec hs _).1
  | lost hf h => exact (Store.clear_spec (Store.create_spec hs _).1 L).1

/-- **What a failed compaction leaves of a key.** -/
theorem CompactEnd.version {s s' : Store} (hs : s.WF) {L : ℕ} {e : IoError} {f : Fault CompactIo}
    (h : CompactEnd (some f) s L (s', .error e)) (k : Bytes) :
    s'.version k = if f.step = .finish then s.without L k else s.version k := by
  cases h with
  | kept hb h =>
    obtain ⟨f', hf', hstep⟩ := hb
    cases hf'
    rw [if_neg hstep]
    rcases h with rfl | rfl | rfl
    · rfl
    · exact version_congr (Store.takeId_spec hs _).2 k
    · exact version_congr (Store.create_spec hs _).2.2 k
  | lost hf h =>
    cases hf
    rw [if_pos h, version_clear hs]

/-- **A failed compaction loses nothing exactly when it fails before `finish`, or the
    level can be spared.** -/
theorem compactLevelAt_keeps_iff {s : Store} (hs : s.WF) (f : Fault CompactIo) (L : ℕ)
    {s' : Store} {e : IoError} (h : compactLevelAt (some f) s L = (s', .error e)) :
    ((∀ i, ∀ t ∈ s'.manifest.level i, ∃ es, s'.disk t.path = some (.finished es)) ∧
      ∀ k, LsmEngine.getSstable s' k = LsmEngine.getSstable s k) ↔
    (f.step ≠ .finish ∨ ∀ k, Spare s L k) := by
  have hend := compactLevelAt_end hs (some f) L
  rw [h] at hend
  have hwf := hend.wf hs
  have hget : ∀ k, LsmEngine.getSstable s' k = LsmEngine.getSstable s k ↔
      (f.step = .finish → Spare s L k) := fun k => by
    have hiff : answer (s'.version k) = answer (s.version k) ↔
        (f.step = .finish → Spare s L k) := by
      rw [hend.version hs k]
      split_ifs with hstep
      · rw [spare_iff]
        exact ⟨fun h _ => h, fun h => h hstep⟩
      · exact iff_of_true rfl fun h => absurd h hstep
    rw [getSstable_eq hwf, getSstable_eq hs, ← hiff]
    exact ⟨Except.ok.inj, congrArg Except.ok⟩
  constructor
  · rintro ⟨-, hk⟩
    by_cases hstep : f.step = .finish
    · exact Or.inr fun k => (hget k).1 (hk k) hstep
    · exact Or.inl hstep
  · intro hk
    refine ⟨fun i t ht => ⟨_, (hwf i t ht).file⟩, fun k => (hget k).2 fun hstep => ?_⟩
    rcases hk with hk | hk
    · exact absurd hstep hk
    · exact hk k

/-- A compaction that fails in its first `add`. -/
theorem compactLevelAt_keeps_iff_add : ∃ s',
    compactLevelAt (some ⟨.add 0, .invalidData "write"⟩) overwrittenStore 0 =
      (s', .error (.invalidData "write")) ∧
    ∀ k, LsmEngine.getSstable s' k = LsmEngine.getSstable overwrittenStore k :=
  ⟨_, rfl, ((compactLevelAt_keeps_iff overwrittenStore_wf ⟨.add 0, .invalidData "write"⟩ 0 rfl).2
    (Or.inl nofun)).2⟩

/-- A compaction that fails in `finish` has removed its sources. -/
theorem compactLevelAt_finish_loses : overwrittenStore.WF ∧ ∃ s',
    compactLevelAt (some ⟨.finish, .invalidData "write"⟩) overwrittenStore 0 =
      (s', .error (.invalidData "write")) ∧
    LsmEngine.getSstable overwrittenStore (.singleton 1) = .ok (some (.singleton 2)) ∧
    LsmEngine.getSstable s' (.singleton 1) = .ok none :=
  ⟨overwrittenStore_wf, _, rfl, by decide, by decide⟩

/-! ## A pass that fails -/

/-- The version of a key that the merge of level `a` prefers, by the tables before the
    pass: the full levels below have been merged into it. -/
def preferred (m : Manifest) (T : ℕ → List (List Entry)) (a : ℕ) (k : Bytes) : Option Bytes :=
  oldest (Cascade.sources maxTablesPerLevel (keptAt m) T a) k

/-- The merge of level `a` leaves the answer of the version `w` of a key: it prefers that
    version, or it drops a tombstone over a table that gives the same answer. -/
def MergeStands (m : Manifest) (T : ℕ → List (List Entry)) (a : ℕ) (k w : Bytes) : Prop :=
  if isHighest m a = true ∧ preferred m T a k = some .empty then
    answer (newest (T (a + 1)) k) = answer (some w)
  else preferred m T a k = some w

/-- A pass over the tables `T` that ends in level `L`, and has lost the tables there or
    not, keeps the answer for a key: its newest version is above level `L`, or the merges
    that carried it on leave its answer; if it was carried to the lost tables, the levels
    above give the same answer. -/
def PassKeeps (m : Manifest) (T : ℕ → List (List Entry)) (L : ℕ) (lost : Bool) (k : Bytes) : Prop :=
  ∀ l w, l ≤ L → (∀ i < l, newest (T i) k = none) → newest (T l) k = some w →
    ∃ b, Cascade.Carries maxTablesPerLevel (keptAt m) T L l b ∧
      if lost = true ∧ b = L then answer (visible T (L + 1) m.numLevels k) = answer (some w)
      else ∀ a, l ≤ a → b = a + 1 → MergeStands m T a k w

/-- The version that a search finds without the tables of level `L`, or with them. -/
def Store.found (s : Store) (L : ℕ) (lost : Bool) (k : Bytes) : Option Bytes :=
  if lost = true then s.without L k else s.version k

/-- A lost level, or one without the key, is passed over. -/
theorem Store.found_skip {s : Store} {L : ℕ} {lost : Bool} {k : Bytes}
    (hlow : ∀ j < L, newest (s.tables j) k = none)
    (h : lost = true ∨ newest (s.tables L) k = none) :
    s.found L lost k = visible s.tables (L + 1) s.manifest.numLevels k := by
  have hnone : visible s.tables 0 L k = none := visible_eq_none.2 fun j _ hj => hlow j (by omega)
  cases lost with
  | true => rw [Store.found, if_pos rfl, Store.without, hnone, Option.none_or]
  | false =>
    have hL := h.resolve_left (by simp)
    rw [Store.found, if_neg (by simp), version_around s L, hnone, hL, Option.none_or,
      Option.none_or]

/-- The lowest level that holds the key answers, unless it is lost. -/
theorem Store.found_some {s : Store} {L b : ℕ} {lost : Bool} {k v : Bytes}
    (hlow : ∀ j < b, newest (s.tables j) k = none) (hv : newest (s.tables b) k = some v)
    (hb : b ≤ L) (hlost : ¬ (lost = true ∧ b = L)) : s.found L lost k = some v := by
  have hbelow : ∀ n, visible s.tables 0 (b + (n + 1)) k = some v := fun n => by
    rw [visible_skip hlow, visible_succ, hv, Option.some_or]
  cases lost with
  | true =>
    have hbL : b < L := lt_of_le_of_ne hb fun he => hlost ⟨rfl, he⟩
    rw [Store.found, if_pos rfl, Store.without, show L = b + (L - b - 1 + 1) by omega, hbelow,
      Option.some_or]
  | false =>
    rw [Store.found, if_neg (by simp),
      Store.version_eq (show s.manifest.numLevels ≤ b + (s.manifest.numLevels + 1) by omega), hbelow]

/-- Where the newest version of the key is, and where it is carried, decides. -/
theorem passKeeps_at {m : Manifest} {T : ℕ → List (List Entry)} {L l b : ℕ} {k w : Bytes}
    (hl : l ≤ L) (hfirst : ∀ i < l, newest (T i) k = none) (hw : newest (T l) k = some w)
    (hb : Cascade.Carries maxTablesPerLevel (keptAt m) T L l b) (lost : Bool) :
    PassKeeps m T L lost k ↔
      if lost = true ∧ b = L then answer (visible T (L + 1) m.numLevels k) = answer (some w)
      else ∀ a, l ≤ a → b = a + 1 → MergeStands m T a k w := by
  constructor
  · intro h
    obtain ⟨b', hb', hkeep⟩ := h l w hl hfirst hw
    rwa [hb'.unique hb] at hkeep
  · intro hkeep l' w' _ hfirst' hw'
    obtain rfl : l' = l := by
      refine le_antisymm (not_lt.1 fun hlt => ?_) (not_lt.1 fun hlt => ?_)
      · rw [hfirst' l hlt] at hw
        cases hw
      · rw [hfirst l' hlt] at hw'
        cases hw'
    obtain rfl := Option.some.inj (hw'.symm.trans hw)
    exact ⟨b, hb, hkeep⟩

/-- A pass that fails in the first level before the sources are removed has changed nothing. -/
theorem passKeeps_first {m : Manifest} {T : ℕ → List (List Entry)} {k : Bytes} :
    PassKeeps m T 0 false k := by
  intro l w hl _ _
  obtain ⟨b, hb⟩ : ∃ b, Cascade.Carries maxTablesPerLevel (keptAt m) T 0 l b :=
    Cascade.exists_carries hl
  refine ⟨b, hb, ?_⟩
  rw [if_neg (by simp)]
  intro a _ hab
  have := hb.le_end
  omega

/-- **What a pass that fails in a level keeps**, said by the tables before the pass. -/
theorem passKeeps_iff {s s' : Store} (hs : s.WF) {L : ℕ} (hL : L < s.manifest.numLevels)
    (h : (List.range L).foldlM compactIfFull s = .ok s') (lost : Bool) (k : Bytes) :
    answer (s'.found L lost k) = answer (s.version k) ↔
      PassKeeps s.manifest s.tables L lost k := by
  obtain ⟨-, hc⟩ := foldlM_compactIfFull_cascaded hs hL.le h
  have hp := foldlM_compactIfFull_passed hL.le h
  have hnum : s'.manifest.numLevels = s.manifest.numLevels :=
    le_antisymm (not_lt.1 fun hlt => hL.ne (hp.grown hlt).1) hp.ge
  have habove : visible s'.tables (L + 1) s'.manifest.numLevels k =
      visible s.tables (L + 1) s.manifest.numLevels k := by
    rw [hnum]
    exact visible_congr fun j hj _ => by rw [hc.above j (by omega)]
  by_cases hex : ∃ l, l ≤ L ∧ newest (s.tables l) k ≠ none
  swap
  · -- the pass has not come to a level with the key
    have hnone : ∀ i ≤ L, newest (s.tables i) k = none := fun i hi =>
      not_not.1 fun hne => hex ⟨i, hi, hne⟩
    have hnone' := hc.newest_eq_none hnone
    have hver : s.version k = s.found L false k := rfl
    rw [hver, Store.found_skip (fun j hj => hnone' j hj.le) (Or.inr (hnone' L le_rfl)),
      Store.found_skip (fun j hj => hnone j hj.le) (Or.inr (hnone L le_rfl)), habove]
    refine iff_of_true rfl fun l w hl _ hw => ?_
    rw [hnone l hl] at hw
    cases hw
  classical
  obtain ⟨l, hl, hlL, hfirst⟩ : ∃ l, newest (s.tables l) k ≠ none ∧ l ≤ L ∧
      ∀ i < l, newest (s.tables i) k = none :=
    ⟨Nat.find hex, (Nat.find_spec hex).2, (Nat.find_spec hex).1, fun i hi =>
      not_not.1 fun hne => Nat.find_min hex hi ⟨hi.le.trans (Nat.find_spec hex).1, hne⟩⟩
  obtain ⟨w, hw⟩ := Option.ne_none_iff_exists'.1 hl
  have hver : s.version k = some w :=
    show s.found l false k = some w from Store.found_some hfirst hw le_rfl (by simp)
  obtain ⟨b, hb⟩ : ∃ b, Cascade.Carries maxTablesPerLevel (keptAt s.manifest) s.tables L l b :=
    Cascade.exists_carries hlL
  obtain ⟨hlow, hat⟩ := hc.newest_eq hfirst hb
  rw [passKeeps_at hlL hfirst hw hb, hver]
  by_cases hlost : lost = true ∧ b = L
  · obtain ⟨rfl, rfl⟩ := hlost
    rw [if_pos ⟨rfl, rfl⟩, Store.found_skip hlow (Or.inl rfl), habove]
  rw [if_neg hlost]
  rcases Nat.lt_or_eq_of_le hb.le with hlb | rfl
  swap
  · -- the level was not merged
    have hv : newest (s'.tables l) k = some w := by
      rw [hat, Cascade.arriving_eq_none hfirst, Option.none_or, hw]
    rw [Store.found_some hlow hv hb.le_end hlost]
    exact iff_of_true rfl fun a _ _ => by omega
  obtain ⟨a, rfl⟩ : ∃ a, b = a + 1 := ⟨b - 1, by omega⟩
  have hmerged : ∀ i, l ≤ i → i < a → Cascade.merges maxTablesPerLevel (keptAt s.manifest)
      s.tables i = true := fun i hi hia => hb.merged i hi (by omega)
  obtain ⟨x, hx⟩ := Option.isSome_iff_exists.1 <|
    Cascade.oldest_sources_isSome (hw ▸ rfl : (newest (s.tables l) k).isSome) (by omega) hmerged
  have hstands : (∀ a', l ≤ a' → a + 1 = a' + 1 → MergeStands s.manifest s.tables a' k w) ↔
      MergeStands s.manifest s.tables a k w :=
    ⟨fun h => h a (by omega) rfl, fun h a' _ ha => by rwa [← Nat.succ.inj ha]⟩
  rw [Cascade.arriving, if_pos (hb.merged a (by omega) (by omega)), hx] at hat
  rw [hstands, MergeStands, preferred, hx]
  by_cases hdrop : isHighest s.manifest a = true ∧ x = .empty
  · -- the tombstone is dropped in the last level but one
    obtain ⟨hhigh, rfl⟩ := hdrop
    have hle := isHighest_le hhigh
    have hLa : L = a + 1 := le_antisymm (by omega) hb.le_end
    subst hLa
    have hkept : keptAt s.manifest a .empty = false := by
      rw [keptAt, ← Bool.not_eq_true, keep_iff, not_not]
      exact ⟨hhigh, rfl⟩
    have hnot : lost = false := by simpa using hlost
    rw [Option.filter_some, hkept, if_neg (by simp), Option.none_or] at hat
    rw [if_pos ⟨hhigh, rfl⟩, ← hat]
    cases hn : newest (s'.tables (a + 1)) k with
    | some v => rw [Store.found_some hlow hn le_rfl hlost]
    | none =>
      have htop : visible s'.tables (a + 1 + 1) s'.manifest.numLevels k = none :=
        visible_eq_none.2 fun j hj _ => by rw [Store.tables_of_le (by omega)]; rfl
      rw [Store.found_skip hlow (Or.inr hn), htop]
  · have hkept : keptAt s.manifest a x = true := keep_iff.2 hdrop
    rw [Option.filter_some, if_pos hkept, Option.some_or] at hat
    rw [if_neg fun h => hdrop ⟨h.1, Option.some.inj h.2⟩,
      Store.found_some hlow hat hb.le_end hlost]
    exact ⟨fun h => congrArg some (answer_inj h), fun h => congrArg answer h⟩

/-! ## Flush -/

section Flush
variable {M : Type} [Memtable M] {fault : Option (Fault FlushIo)}

variable (fault) in
/-- The adds of a flush succeed, or one of them fails. -/
theorem writeAllAt_spec (es : List Entry) : ∀ (i : ℕ) (w : SsTableWriter),
    (writeAllAt fault i w es = .ok (LsmEngine.writeAll w es) ∧
      ∀ f ∈ fault, ∀ j, f.step = .add j → ¬ (i ≤ j ∧ j < i + es.length)) ∨
    ∃ f ∈ fault, ∃ j, f.step = .add j ∧ i ≤ j ∧ j < i + es.length ∧
      writeAllAt fault i w es = .error f.error := by
  induction es with
  | nil => exact fun i w => Or.inl ⟨rfl, fun f _ j _ h => by simp at h; omega⟩
  | cons a es ih =>
    intro i w
    rw [writeAllAt, List.length_cons]
    cases ha : attempt fault (.add i) with
    | error e =>
      obtain ⟨f, rfl, hstep⟩ := attempt_error ha
      refine Or.inr ⟨f, rfl, i, hstep, le_rfl, by omega, ?_⟩
      rw [attempt, if_pos hstep] at ha
      cases ha
      rfl
    | ok u =>
      rcases ih (i + 1) (w.add a.1 a.2) with ⟨h, hno⟩ | ⟨f, hf, j, hstep, h₁, h₂, h⟩
      · refine Or.inl ⟨h, fun f hf j hstep hj => ?_⟩
        by_cases hij : j = i
        · subst hij
          cases hf
          rw [attempt, if_pos hstep] at ha
          cases ha
        · exact hno f hf j hstep (by omega)
      · exact Or.inr ⟨f, hf, j, hstep, by omega, by omega, h⟩

variable (fault) in
/-- A compaction pass succeeds, or the compaction of one level fails. -/
theorem compactLevelsAt_spec (is : List ℕ) : ∀ {s : Store}, s.WF →
    (∃ s', compactLevelsAt fault is s = (s', .ok ()) ∧ is.foldlM compactIfFull s = .ok s') ∨
    ∃ pre L post s₁ s' e f step, is = pre ++ L :: post ∧ pre.foldlM compactIfFull s = .ok s₁ ∧
      s₁.WF ∧ f ∈ fault ∧ f.step = .compact L step ∧
      CompactEnd (some ⟨step, f.error⟩) s₁ L (s', .error e) ∧
      compactLevelsAt fault is s = (s', .error e) := by
  induction is with
  | nil => exact fun {s} _ => Or.inl ⟨s, rfl, rfl⟩
  | cons i is ih =>
    intro s hs
    rw [compactLevelsAt]
    -- the rest of the pass, once this level is done
    have go : ∀ s₁, compactIfFull s i = .ok s₁ → s₁.WF →
        (∃ s', compactLevelsAt fault is s₁ = (s', .ok ()) ∧
          (i :: is).foldlM compactIfFull s = .ok s') ∨
        ∃ pre L post s₂ s' e f step, i :: is = pre ++ L :: post ∧
          pre.foldlM compactIfFull s = .ok s₂ ∧ s₂.WF ∧ f ∈ fault ∧ f.step = .compact L step ∧
          CompactEnd (some ⟨step, f.error⟩) s₂ L (s', .error e) ∧
          compactLevelsAt fault is s₁ = (s', .error e) := by
      intro s₁ h₁ hs₁
      rcases ih hs₁ with ⟨s', h, hrun⟩ | ⟨pre, L, post, s₂, s', e, f, step, hsplit, hpre, hrest⟩
      · refine Or.inl ⟨s', h, ?_⟩
        rw [List.foldlM_cons, h₁]
        exact hrun
      · refine Or.inr ⟨i :: pre, L, post, s₂, s', e, f, step, by rw [hsplit]; rfl, ?_, hrest⟩
        rw [List.foldlM_cons, h₁]
        exact hpre
    obtain ⟨s₁, h₁, hs₁, -⟩ := compactIfFull_spec hs i
    by_cases hfull : s.manifest.levelCount i ≥ maxTablesPerLevel
    · rw [if_pos hfull]
      have hend := compactLevelAt_end hs (fault.bind (Fault.within i)) i
      rcases hc : compactLevelAt (fault.bind (Fault.within i)) s i with ⟨s', r⟩
      rw [hc] at hend
      cases r with
      | ok u =>
        cases hend with
        | done h =>
          refine go s' ?_ ?_
          · rw [compactIfFull, if_pos hfull, h]
          · rw [compactIfFull, if_pos hfull, h] at h₁
            cases h₁
            exact hs₁
      | error e =>
        -- the error is that of the step the fault names
        have hin : ∃ f' , fault.bind (Fault.within i) = some f' := by
          cases hend with
          | kept hb _ => exact ⟨hb.choose, hb.choose_spec.1⟩
          | lost hf _ => exact ⟨_, hf⟩
        obtain ⟨f', hf'⟩ := hin
        obtain ⟨f, hf, hw⟩ := Option.bind_eq_some_iff.1 hf'
        rw [Fault.within] at hw
        split at hw
        · rename_i l step hstep
          split_ifs at hw with hl
          cases hw
          subst hl
          rw [hf'] at hend
          exact Or.inr ⟨[], l, is, s, s', e, f, step, rfl, rfl, hs, hf, hstep, hend, rfl⟩
        · cases hw
    · rw [if_neg hfull]
      rw [compactIfFull, if_neg hfull] at h₁
      cases h₁
      exact go s (by rw [compactIfFull, if_neg hfull]; rfl) hs

theorem range_eq_append_cons {n L : ℕ} {pre post : List ℕ} (h : List.range n = pre ++ L :: post) :
    pre = List.range L := by
  have hlen : pre.length < n := by
    have := congrArg List.length h
    simp at this
    omega
  have hL : L = pre.length := by
    have := congrArg (fun l => l[pre.length]?) h
    simpa [hlen] using this.symm
  have hp : pre = (List.range n).take pre.length := by rw [h, List.take_left]
  rw [hp, List.take_range, hL, Nat.min_eq_left hlen.le]

/-- The tables alone answer for `k` as the memtable does. -/
def Shown (e : LsmEngine M) (k : Bytes) : Prop :=
  Memtable.get e.memtable k = none ∨
    answer (Memtable.get e.memtable k) = answer (e.store.version k)

/-- The tables of the levels once a flush has registered its own. -/
def flushedTables (g : Locked M) : ℕ → List (List Entry) :=
  Function.update g.store.tables 0 (g.store.tables 0 ++ [(Memtable.drainSorted g.memtable).1])

/-- A flush that fails keeps the answer for `k`, by the point at which it fails: with a
    poisoned manifest lock or before the new table is registered, in the log, or in the
    compaction of a level. -/
def FlushKeeps (fault : Option (Fault FlushIo)) (g : Locked M) (k : Bytes) : Prop :=
  if g.manifestPoisoned then Memtable.get g.memtable k = none
  else
    match fault.map Fault.step with
    | some .create => Shown g.toLsmEngine k
    | some (.add i) => i < (Memtable.drainSorted g.memtable).1.length → Shown g.toLsmEngine k
    | some .finish => Shown g.toLsmEngine k
    | some (.compact L step) => g.walPoisoned = false →
      PassKeeps g.store.manifest (flushedTables g) L (decide (step = .finish)) k
    | _ => True

section Lawful
variable [LawfulMemtable M]

omit [LawfulMemtable M] in
theorem Locked.get_eq {g : Locked M} (hs : g.store.WF) (k : Bytes) : g.get k =
    if (Memtable.get g.memtable k).isNone ∧ g.manifestPoisoned then .error .poisoned
    else .ok (answer (g.toLsmEngine.view k)) := by
  rw [Locked.get, LsmEngine.view]
  rcases Memtable.get g.memtable k with _ | v
  · rw [getSstable_eq hs]
    simp [answer]
  · simp [answer]

/-- The rest of a flush, once its table is registered. -/
def Locked.settle (fault : Option (Fault FlushIo)) (g : Locked M) : Locked M × Result Unit :=
  if g.walPoisoned then (g, .error .poisoned)
  else
    match attempt fault .truncate with
    | .error e => (g, .error (.io e))
    | .ok () =>
      match maybeCompactAt fault g.store with
      | (store, .error e) => (Locked.setStore { g with wal := [] } store, .error (.io e))
      | (store, .ok ()) => (Locked.setStore { g with wal := [] } store, .ok ())

omit [Memtable M] [LawfulMemtable M] in
/-- How a flush ends whose table is registered. -/
theorem Locked.settle_cases {g g' : Locked M} {r : Result Unit}
    (h : Locked.settle fault g = (g', r)) :
    (g.walPoisoned = true ∧ g' = g ∧ r = .error .poisoned) ∨
    (∃ e, g.walPoisoned = false ∧ attempt fault .truncate = .error e ∧ g' = g ∧
      r = .error (.io e)) ∨
    (∃ u store e, g.walPoisoned = false ∧ attempt fault .truncate = .ok u ∧
      maybeCompactAt fault g.store = (store, .error e) ∧
      g' = Locked.setStore { g with wal := [] } store ∧ r = .error (.io e)) ∨
    (∃ u store, g.walPoisoned = false ∧ attempt fault .truncate = .ok u ∧
      maybeCompactAt fault g.store = (store, .ok ()) ∧
      g' = Locked.setStore { g with wal := [] } store ∧ r = .ok ()) := by
  rw [Locked.settle] at h
  by_cases hwal : g.walPoisoned = true
  · rw [if_pos hwal] at h
    cases h
    exact Or.inl ⟨hwal, rfl, rfl⟩
  rw [if_neg hwal] at h
  have hwal : g.walPoisoned = false := by simpa using hwal
  cases htrunc : attempt fault .truncate with
  | error e =>
    rw [htrunc] at h
    cases h
    exact Or.inr (Or.inl ⟨e, hwal, rfl, rfl, rfl⟩)
  | ok u =>
    rw [htrunc] at h
    dsimp only at h
    obtain ⟨store, r', hc⟩ : ∃ store r', maybeCompactAt fault g.store = (store, r') := ⟨_, _, rfl⟩
    rw [hc] at h
    cases r' with
    | error e =>
      cases h
      exact Or.inr (Or.inr (Or.inl ⟨u, store, e, hwal, rfl, hc, rfl, rfl⟩))
    | ok u' =>
      cases h
      exact Or.inr (Or.inr (Or.inr ⟨u, store, hwal, rfl, hc, rfl, rfl⟩))

omit [LawfulMemtable M] in
/-- The new table adds a level at most to a manifest without any. -/
theorem passKeeps_addTable {g : Locked M} (hs : g.store.WF)
    (hasc : Ascending (Memtable.drainSorted g.memtable).1) {L : ℕ} {lost : Bool} {k : Bytes} :
    PassKeeps (LsmEngine.addTable g.store (Memtable.drainSorted g.memtable).1).manifest
      (LsmEngine.addTable g.store (Memtable.drainSorted g.memtable).1).tables L lost k ↔
    PassKeeps g.store.manifest (flushedTables g) L lost k := by
  obtain ⟨-, -, htab⟩ := addTable_spec hs hasc
  set s := LsmEngine.addTable g.store (Memtable.drainSorted g.memtable).1
  have hT : s.tables = flushedTables g := by
    funext i
    rw [htab, flushedTables, Function.update_apply]
  have hnum : s.manifest.numLevels = max g.store.manifest.numLevels 1 :=
    Manifest.numLevels_add _ _
  have hhigh : isHighest s.manifest = isHighest g.store.manifest := by
    funext i
    rw [isHighest, isHighest, hnum]
    exact decide_eq_decide.2 (by omega)
  have hkept : keptAt s.manifest = keptAt g.store.manifest := by
    funext i v
    rw [keptAt, keptAt, hhigh]
  have hvis : visible s.tables (L + 1) s.manifest.numLevels k =
      visible s.tables (L + 1) g.store.manifest.numLevels k :=
    visible_of_le (by omega) fun i hi => Store.tables_of_le (by omega)
  rw [hT] at hvis ⊢
  unfold PassKeeps MergeStands preferred
  rw [hhigh, hkept, hvis]

/-- What a flush that fails leaves behind. -/
structure FlushFailed (fault : Option (Fault FlushIo)) (g g' : Locked M) : Prop where
  wf : g'.store.WF
  drained : ∀ k, Memtable.get g'.memtable k = none
  poisoned : g'.manifestPoisoned = g.manifestPoisoned
  version : g.manifestPoisoned = false → ∀ k,
    answer (g'.store.version k) = answer (g.toLsmEngine.view k) ↔ FlushKeeps fault g k

omit [LawfulMemtable M] in
theorem shown_iff {e : LsmEngine M} {k : Bytes} :
    answer (e.store.version k) = answer (e.view k) ↔ Shown e k := by
  rw [LsmEngine.view, answer_or, Shown]
  cases Memtable.get e.memtable k with
  | none => simp
  | some v => simp [eq_comm]

/-- **A flush that fails.** -/
theorem flushMemtable_failed {g g' : Locked M} (hs : g.store.WF) {err : Error}
    (h : g.flushMemtable fault = (g', .error err)) : FlushFailed fault g g' := by
  have hdrained : ∀ k, Memtable.get (Memtable.drainSorted g.memtable).2 k = none :=
    LawfulMemtable.get_drain g.memtable
  have hasc : Ascending (Memtable.drainSorted g.memtable).1 :=
    LawfulMemtable.drain_ascending g.memtable
  have hview : ∀ k, (LsmEngine.addTable g.store (Memtable.drainSorted g.memtable).1).version k =
      g.toLsmEngine.view k := fun k => by
    rw [version_addTable hs hasc, LawfulMemtable.drain_lookup]
    rfl
  unfold Locked.flushMemtable at h
  dsimp only at h
  by_cases hempty : (Memtable.drainSorted g.memtable).1.isEmpty = true
  · rw [if_pos hempty] at h
    cases h
  rw [if_neg hempty] at h
  by_cases hp : g.manifestPoisoned = true
  · rw [if_pos hp] at h
    cases h
    exact ⟨hs, hdrained, rfl, fun hp' => by rw [hp] at hp'; cases hp'⟩
  rw [if_neg hp] at h
  have hp : g.manifestPoisoned = false := by simpa using hp
  -- before the table is registered the store keeps its tables
  have unwritten : ∀ {s : Store}, s.WF → (∀ i, s.tables i = g.store.tables i) →
      (∀ k, FlushKeeps fault g k ↔ Shown g.toLsmEngine k) → FlushFailed fault g
        (Locked.setStore { g with memtable := (Memtable.drainSorted g.memtable).2 } s) := by
    intro s hwf htab hk
    exact ⟨hwf, hdrained, rfl, fun _ k => by
      rw [hk, ← shown_iff]
      exact (congrArg (fun v => answer v = _) (version_congr htab k)).to_iff⟩
  cases hcreate : attempt fault .create with
  | error e =>
    rw [hcreate] at h
    cases h
    obtain ⟨f, rfl, hstep⟩ := attempt_error hcreate
    refine unwritten (Store.takeId_spec hs 0).1 (Store.takeId_spec hs 0).2 fun k => ?_
    simp [FlushKeeps, hp, hstep]
  | ok u =>
  rw [hcreate] at h
  dsimp only at h
  rcases writeAllAt_spec fault (Memtable.drainSorted g.memtable).1 0
    (SsTableWriter.new g.store.disk (g.store.manifest.nextSstablePath 0).1.2).1 with
    ⟨hw, hadd⟩ | ⟨f, hf, j, hstep, -, hj, hw⟩
  swap
  · rw [hw] at h
    cases h
    refine unwritten (Store.create_spec hs 0).1 (Store.create_spec hs 0).2.2 fun k => ?_
    cases hf
    have hj : j < (Memtable.drainSorted g.memtable).1.length := by omega
    simp [FlushKeeps, hp, hstep, hj]
  rw [hw] at h
  dsimp only at h
  cases hfinish : attempt fault .finish with
  | error e =>
    rw [hfinish] at h
    cases h
    obtain ⟨f, rfl, hstep⟩ := attempt_error hfinish
    refine unwritten (Store.create_spec hs 0).1 (Store.create_spec hs 0).2.2 fun k => ?_
    simp [FlushKeeps, hp, hstep]
  | ok u =>
  rw [hfinish] at h
  dsimp only at h
  have hadd_wf := (addTable_spec hs hasc).1
  -- once it is registered, only a compaction can change the answers
  have registered : (∀ f ∈ fault, ∀ L step, f.step = .compact L step → g.walPoisoned = true) →
      ∀ k, FlushKeeps fault g k := by
    intro hc k
    cases fault with
    | none => simp [FlushKeeps, hp]
    | some f =>
      obtain ⟨step, error⟩ := f
      cases step with
      | create => exact absurd rfl (attempt_ok hcreate _ rfl)
      | finish => exact absurd rfl (attempt_ok hfinish _ rfl)
      | add j =>
        have := hadd _ rfl j rfl
        simp only [FlushKeeps, hp, Option.map_some, Bool.false_eq_true, if_false]
        intro hj
        exact absurd ⟨Nat.zero_le _, by omega⟩ this
      | compact L step =>
        have := hc _ rfl L step rfl
        simp [FlushKeeps, hp, this]
      | append | truncate => simp [FlushKeeps, hp]
  change Locked.settle fault (Locked.setStore { g with
    memtable := (Memtable.drainSorted g.memtable).2 }
      (LsmEngine.addTable g.store (Memtable.drainSorted g.memtable).1)) = _ at h
  rcases Locked.settle_cases h with ⟨hwal, rfl, -⟩ | ⟨e, -, htrunc, rfl, -⟩ |
    ⟨u, store, e, hwal, htrunc, hcompact, rfl, -⟩ | ⟨_, _, _, _, _, _, hr⟩
  · exact ⟨hadd_wf, hdrained, rfl, fun _ k =>
      iff_of_true (congrArg answer (hview k)) (registered (fun _ _ _ _ _ => hwal) k)⟩
  · obtain ⟨f, rfl, hstep⟩ := attempt_error htrunc
    refine ⟨hadd_wf, hdrained, rfl, fun _ k =>
      iff_of_true (congrArg answer (hview k)) (registered ?_ k)⟩
    rintro f' hf' L step hstep'
    cases hf'
    rw [hstep] at hstep'
    cases hstep'
  swap
  · cases hr
  replace hwal : g.walPoisoned = false := hwal
  rcases compactLevelsAt_spec fault (List.range
    (LsmEngine.addTable g.store (Memtable.drainSorted g.memtable).1).manifest.numLevels) hadd_wf with
    ⟨s', hc, -⟩ | ⟨pre, L, post, s₁, s', e, f, step, hsplit, hpre, hs₁, hf, hstep, hend, hc⟩
  · cases hcompact.symm.trans hc
  · cases hcompact.symm.trans hc
    cases hf
    refine ⟨hend.wf hs₁, hdrained, rfl, fun _ k => ?_⟩
    rw [range_eq_append_cons hsplit] at hpre
    have hL : L < (LsmEngine.addTable g.store
        (Memtable.drainSorted g.memtable).1).manifest.numLevels :=
      List.mem_range.1 (hsplit ▸ List.mem_append_right _ List.mem_cons_self)
    have hkeep : FlushKeeps (some f) g k ↔
        PassKeeps g.store.manifest (flushedTables g) L (decide (step = .finish)) k := by
      simp only [FlushKeeps, hp, Bool.false_eq_true, if_false, Option.map_some, hstep, hwal,
        true_implies]
    have hversion : store.version k = s₁.found L (decide (step = .finish)) k := by
      rw [hend.version hs₁ k, Store.found]
      simp
    rw [hkeep, ← passKeeps_addTable hs hasc, ← passKeeps_iff hadd_wf hL hpre, ← hversion, hview]
    rfl

/-- **A flush in which no step fails** is that of the engine. -/
theorem flushMemtable_done {g g' : Locked M} (hs : g.store.WF)
    (h : g.flushMemtable fault = (g', .ok ())) :
    g.toLsmEngine.flushMemtable = .ok g'.toLsmEngine := by
  rw [flushMemtable_eq]
  unfold Locked.flushMemtable at h
  dsimp only at h
  by_cases hempty : (Memtable.drainSorted g.memtable).1.isEmpty = true
  · rw [if_pos hempty] at h ⊢
    cases h
    rfl
  rw [if_neg hempty] at h ⊢
  by_cases hp : g.manifestPoisoned = true
  · rw [if_pos hp] at h
    cases h
  rw [if_neg hp] at h
  cases hcreate : attempt fault .create with
  | error e => rw [hcreate] at h; cases h
  | ok u =>
  rw [hcreate] at h
  dsimp only at h
  rcases writeAllAt_spec fault (Memtable.drainSorted g.memtable).1 0
    (SsTableWriter.new g.store.disk (g.store.manifest.nextSstablePath 0).1.2).1 with
    ⟨hw, -⟩ | ⟨f, -, j, -, -, -, hw⟩
  swap
  · rw [hw] at h; cases h
  rw [hw] at h
  dsimp only at h
  cases hfinish : attempt fault .finish with
  | error e => rw [hfinish] at h; cases h
  | ok u =>
  rw [hfinish] at h
  dsimp only at h
  change Locked.settle fault (Locked.setStore { g with
    memtable := (Memtable.drainSorted g.memtable).2 }
      (LsmEngine.addTable g.store (Memtable.drainSorted g.memtable).1)) = _ at h
  rcases Locked.settle_cases h with ⟨_, _, hr⟩ | ⟨_, _, _, _, hr⟩ | ⟨_, _, _, _, _, _, _, hr⟩ |
    ⟨u, store, -, -, hcompact, rfl, -⟩
  · cases hr
  · cases hr
  · cases hr
  rcases compactLevelsAt_spec fault (List.range
    (LsmEngine.addTable g.store (Memtable.drainSorted g.memtable).1).manifest.numLevels)
    (addTable_spec hs (LawfulMemtable.drain_ascending g.memtable)).1 with
    ⟨s', hc, hrun⟩ | ⟨_, _, _, _, s', e, _, _, _, _, _, _, _, _, hc⟩
  · cases hcompact.symm.trans hc
    rw [maybeCompact, hrun]
    rfl
  · cases hcompact.symm.trans hc

/-! ## Calls -/

/-- **A call in which no step fails** is that of the engine. -/
theorem apply_done {g g' : Locked M} (hs : g.store.WF) {op : Op}
    (h : g.apply fault op = (g', .ok ())) : g.toLsmEngine.apply op = .ok g'.toLsmEngine := by
  cases op with
  | flush => exact flushMemtable_done hs h
  | delete key =>
    rw [Locked.apply, Locked.delete] at h
    split_ifs at h
    · cases h
    · split at h
      · cases h
      · cases h; rfl
  | put key value =>
    rw [Locked.apply, Locked.put] at h
    split_ifs at h
    · cases h
    · split at h
      · cases h
      · rw [LsmEngine.apply, LsmEngine.put, LsmEngine.maybeFlush]
        rw [Locked.maybeFlush] at h
        by_cases hfull :
            Memtable.approximateBytes (g.written key value).memtable ≥ (g.written key value).flushThreshold
        · rw [if_pos hfull] at h
          exact (if_pos hfull).trans (flushMemtable_done (g := g.written key value) hs h)
        · rw [if_neg hfull] at h
          cases h
          exact if_neg hfull

/-- The key that an operation writes. -/
def Op.key? : Op → Option Bytes
  | .put key _ => some key
  | .delete key => some key
  | .flush => none

/-- A call that fails keeps the answer for `k`: it fails in the log, or the flush that
    follows its write keeps it. -/
def CallKeeps (fault : Option (Fault FlushIo)) (g : Locked M) (op : Op) (k : Bytes) : Prop :=
  match op with
  | .put key value =>
    (g.walPoisoned = false ∧ fault.map Fault.step ≠ some .append) →
      FlushKeeps fault (g.written key value) k
  | .delete _ => True
  | .flush => FlushKeeps fault g k

/-- What a failed call leaves behind. -/
structure CallFailed (fault : Option (Fault FlushIo)) (g g' : Locked M) (op : Op) : Prop where
  wf : g'.store.WF
  poisoned : g'.manifestPoisoned = g.manifestPoisoned
  get : ∀ k, some k ≠ op.key? → (g'.get k = g.get k ↔ CallKeeps fault g op k)

omit [LawfulMemtable M] in
theorem FlushFailed.get {g g' : Locked M} (hs : g.store.WF) (h : FlushFailed fault g g')
    (k : Bytes) : g'.get k = g.get k ↔ FlushKeeps fault g k := by
  rw [Locked.get_eq hs, Locked.get_eq h.wf, h.drained, h.poisoned]
  have hview : g'.toLsmEngine.view k = g'.store.version k := by
    rw [LsmEngine.view, h.drained, Option.none_or]
  cases hp : g.manifestPoisoned with
  | true =>
    have hk : FlushKeeps fault g k ↔ Memtable.get g.memtable k = none := by
      simp [FlushKeeps, hp]
    rw [hk]
    cases Memtable.get g.memtable k <;> simp
  | false =>
    rw [← h.version hp, hview]
    simp

omit [LawfulMemtable M] in
theorem CallFailed.of_unchanged {g : Locked M} (hs : g.store.WF) {op : Op}
    (h : ∀ k, CallKeeps fault g op k) : CallFailed fault g g op :=
  ⟨hs, rfl, fun k _ => iff_of_true rfl (h k)⟩

/-- **A call that fails.** -/
theorem apply_failed {g g' : Locked M} (hs : g.store.WF) {op : Op} {err : Error}
    (h : g.apply fault op = (g', .error err)) : CallFailed fault g g' op := by
  cases op with
  | flush =>
    have hf := flushMemtable_failed hs h
    exact ⟨hf.wf, hf.poisoned, fun k _ => hf.get hs k⟩
  | delete key =>
    rw [Locked.apply, Locked.delete] at h
    split_ifs at h
    · cases h; exact .of_unchanged hs fun _ => trivial
    · split at h
      · cases h; exact .of_unchanged hs fun _ => trivial
      · cases h
  | put key value =>
    rw [Locked.apply, Locked.put] at h
    split_ifs at h with hwal
    · cases h
      exact .of_unchanged hs fun k hk => by rw [hwal] at hk; cases hk.1
    · cases ha : attempt fault .append with
      | error e =>
        rw [ha] at h
        cases h
        obtain ⟨f, rfl, hstep⟩ := attempt_error ha
        exact .of_unchanged hs fun k hk => absurd (congrArg some hstep) hk.2
      | ok u =>
        rw [ha] at h
        dsimp only at h
        rw [Locked.maybeFlush] at h
        by_cases hfull :
            Memtable.approximateBytes (g.written key value).memtable ≥ (g.written key value).flushThreshold
        swap
        · rw [if_neg hfull] at h; cases h
        rw [if_pos hfull] at h
        have hs₁ : (g.written key value).store.WF := hs
        have hf := flushMemtable_failed hs₁ h
        refine ⟨hf.wf, hf.poisoned, fun k hk => ?_⟩
        have hk : k ≠ key := fun he => hk (congrArg some he)
        have hsame : (g.written key value).get k = g.get k := by
          rw [Locked.get, Locked.get, Locked.written]
          dsimp only
          rw [LawfulMemtable.get_insert, if_neg hk]
        have hlog : fault.map Fault.step ≠ some .append := by
          intro he
          obtain ⟨f, hf, hstep⟩ := Option.map_eq_some_iff.1 he
          exact attempt_ok ha f hf hstep
        rw [← hsame, hf.get hs₁]
        exact ⟨fun h _ => h, fun h => h ⟨by simpa using hwal, hlog⟩⟩

/-- What a failed call must not do: change the answer for a key it does not write, now or
    after later operations. -/
structure LosesNothing (g g' : Locked M) (op : Op) : Prop where
  now : ∀ k, some k ≠ op.key? → g'.get k = g.get k
  later : g.manifestPoisoned = false → ∀ ops, (∀ k v, Op.put k v ∈ ops → v ≠ .empty) →
    FaithfulRun g'.toLsmEngine ops → ∃ e', g'.toLsmEngine.run ops = .ok e' ∧
      ∀ k, some k ≠ op.key? → ∀ v, g.get k = .ok v → e'.get k = .ok (ops.foldl (Op.effect k) v)

/-- The store is well formed, and what the memtable holds and the operation writes fits its
    length fields. -/
structure Fits (g : Locked M) (op : Op) : Prop where
  store : g.store.WF
  memtable (k v : Bytes) : Memtable.get g.memtable k = some v → k.Short ∧ v.Short
  op : op.Short

/-- **A failed call loses nothing exactly when it fails where it keeps the answers.** -/
theorem losesNothing_iff {g g' : Locked M} {op : Op} (hg : Fits g op) {err : Error}
    (h : g.apply fault op = (g', .error err)) :
    LosesNothing g g' op ↔ ∀ k, some k ≠ op.key? → CallKeeps fault g op k := by
  have hf := apply_failed hg.store h
  constructor
  · exact fun hl k hk => (hf.get k hk).1 (hl.now k hk)
  · intro hkeep
    have now : ∀ k, some k ≠ op.key? → g'.get k = g.get k := fun k hk => (hf.get k hk).2 (hkeep k hk)
    refine ⟨now, fun hp ops hv hfaith => ?_⟩
    obtain ⟨e', hrun, hs', -, hans⟩ := run_spec hf.wf ops hv
    refine ⟨e', hrun, fun k hk v hget => ?_⟩
    have hview : answer (g'.toLsmEngine.view k) = v := by
      rw [← now k hk, Locked.get_eq hf.wf, hf.poisoned, hp] at hget
      simpa using hget
    rw [get_eq hs', hans hfaith, hview]

/-- An engine that holds one key in its memtable. -/
def oneWrite : Locked BTreeMemtable where
  memtable := Memtable.insert BTreeMemtable.new (.singleton 1) (.singleton 1)
  wal := [.put (.singleton 1) (.singleton 1)]
  store := ⟨Manifest.new numLevels, fun _ => none⟩
  flushThreshold := 4 * 1024 * 1024
  manifestPoisoned := false
  walPoisoned := false

/-- Three flushes, and a fourth key in the memtable. -/
def threeFlushes : Locked BTreeMemtable where
  memtable := Memtable.insert BTreeMemtable.new (.singleton 4) (.singleton 4)
  wal := [.put (.singleton 4) (.singleton 4)]
  store := [1, 2, 3].foldl (fun s b => LsmEngine.addTable s [(.singleton b, .singleton b)])
    ⟨Manifest.new numLevels, fun _ => none⟩
  flushThreshold := 4 * 1024 * 1024
  manifestPoisoned := false
  walPoisoned := false

theorem threeFlushes_fits : Fits threeFlushes .flush where
  store := (addTable_spec (addTable_spec (addTable_spec (Store.wf_new _ _) (by decide)).1
    (by decide)).1 (by decide)).1
  memtable k v h := by
    have hmem : (k, v) ∈ [(Bytes.singleton 4, Bytes.singleton 4)] := mem_of_lookup h
    cases List.mem_singleton.1 hmem
    exact And.intro (by decide) (by decide)
  op := trivial

/-- A flush whose compaction cannot create its output. -/
theorem losesNothing_iff_compact : ∃ g',
    threeFlushes.apply (some ⟨.compact 0 .create, .invalidData "write"⟩) .flush =
      (g', .error (.io (.invalidData "write"))) ∧ LosesNothing threeFlushes g' .flush :=
  have h : threeFlushes.apply (some ⟨.compact 0 .create, .invalidData "write"⟩) .flush =
      (_, .error (.io (.invalidData "write"))) := rfl
  ⟨_, h, (losesNothing_iff threeFlushes_fits h).2 fun _ _ _ => passKeeps_first⟩

/-- A flush that cannot create its table has already emptied the memtable. -/
theorem flush_create_loses : ∃ g',
    oneWrite.apply (some ⟨.create, .invalidData "write"⟩) .flush =
      (g', .error (.io (.invalidData "write"))) ∧
    oneWrite.get (.singleton 1) = .ok (some (.singleton 1)) ∧ g'.get (.singleton 1) = .ok none ∧
    ∃ g'', (g'.apply none (.put (.singleton 2) (.singleton 2))).1.apply none .flush = (g'', .ok ()) ∧
      g''.wal = [] ∧ g''.get (.singleton 1) = .ok none :=
  ⟨_, rfl, by decide, by decide, _, rfl, rfl, by decide⟩

end Lawful

end Flush

end Scry.Lsm
