/-
  What compaction keeps and what it changes.

  The merge keeps the oldest version of a key, so a compaction keeps the newest one
  exactly when the two agree (`compactLevel_keepsNewest_iff`).  A lookup is the same
  before and after a compaction of a level exactly when `FaithfulAt` holds of the key
  (`compactLevel_get_iff`); without duplicates in the level the only way to fail is a
  dropped tombstone that hid a value of the target level
  (`compactLevel_get_iff_of_disjoint`).
-/
import Scry.Lsm.Proof.Store

namespace Scry.Lsm

/-! ## Which version is kept -/

/-- A compaction of level `L` wrote the entries `out`: they are the only new table of
    the next level, unless there are none. -/
def Writes (s s' : Store) (L : ℕ) (out : List Entry) : Prop :=
  s'.tables (L + 1) = s.tables (L + 1) ++ (if out.isEmpty then [] else [out])

/-- The entries `out` are the newest versions in the tables `ts`, without the
    tombstones if the target counts as the highest level. -/
structure KeepsNewest (highest : Bool) (ts : List (List Entry)) (out : List Entry) : Prop where
  ascending : Ascending out
  keys : ∀ k, k ∈ out.map Prod.fst ↔
    (∃ t ∈ ts, k ∈ t.map Prod.fst) ∧ ¬ (highest = true ∧ newest ts k = some .empty)
  values : ∀ k v, (k, v) ∈ out → newest ts k = some v

theorem newest_isSome_iff {ts : List (List Entry)} {k : Bytes} :
    (newest ts k).isSome ↔ ∃ t ∈ ts, k ∈ t.map Prod.fst := by
  rw [newest, oldest_isSome_iff]
  simp only [List.mem_reverse]

theorem keep_iff {highest : Bool} {v : Bytes} :
    keep highest v = true ↔ ¬ (highest = true ∧ v = .empty) := by
  unfold keep
  rw [Bool.not_eq_true', Bool.and_eq_false_iff, not_and_or, Bool.not_eq_true]
  exact or_congr Iff.rfl (by rw [← Bool.not_eq_true, Bytes.isEmpty_iff])

/-- Entries that are the kept oldest versions are the newest ones if and only if
    oldest and newest agree. -/
theorem keepsNewest_iff {highest : Bool} {ts : List (List Entry)} {out : List Entry}
    (ha : Ascending out) (hout : ∀ k, out.lookup k = (oldest ts k).filter (keep highest)) :
    KeepsNewest highest ts out ↔ ∀ k, oldest ts k = newest ts k := by
  constructor
  · intro h k
    rcases ho : oldest ts k with _ | v
    · rcases hn : newest ts k with _ | v
      · rfl
      · have := newest_isSome_iff.1 (hn ▸ rfl : (newest ts k).isSome)
        rw [← oldest_isSome_iff, ho] at this
        cases this
    · by_cases hk : keep highest v = true
      · have hl : out.lookup k = some v := by rw [hout, ho, Option.filter_some, if_pos hk]
        exact (h.values k v (mem_of_lookup hl)).symm
      · -- a dropped key must have been a tombstone in its newest version
        have hl : out.lookup k = none := by rw [hout, ho, Option.filter_some, if_neg hk]
        have hdrop := (not_congr (h.keys k)).1 (lookup_eq_none.1 hl)
        have hmem := oldest_isSome_iff.1 (ho ▸ rfl : (oldest ts k).isSome)
        have hn := (not_not.1 fun hc => hdrop ⟨hmem, hc⟩).2
        rw [hn, (not_not.1 fun hc => hk (keep_iff.2 hc)).2]
  · intro h
    refine ⟨ha, fun k => ?_, fun k v hm => ?_⟩
    · rw [← lookup_isSome_iff, hout, h, ← newest_isSome_iff]
      rcases newest ts k with _ | v
      · simp
      · rw [Option.filter_some]
        by_cases hk : keep highest v = true
        · rw [if_pos hk]
          simpa using keep_iff.1 hk
        · rw [if_neg hk]
          simpa using not_not.1 fun hc => hk (keep_iff.2 hc)
    · have := ha.lookup_iff.2 hm
      rw [hout, h, Option.filter_eq_some_iff] at this
      exact this.1

/-- **Compaction keeps the newest versions exactly when they are the oldest ones**, for
    every level of every store. -/
theorem compactLevel_keepsNewest_iff {s : Store} (hs : s.WF) (L : ℕ) :
    ∃ s' out, compactLevel s L = .ok s' ∧ Writes s s' L out ∧
      (KeepsNewest (isHighest s.manifest L) (s.tables L) out ↔
        ∀ k, oldest (s.tables L) k = newest (s.tables L) k) := by
  obtain ⟨s', out, hrun, -, htab, ha, hout⟩ := compactLevel_spec hs L
  refine ⟨s', out, hrun, ?_, keepsNewest_iff ha hout⟩
  rw [Writes, htab, pushDown, if_neg (by omega), if_pos rfl]

/-- Two flushes of one key. -/
def overwrittenStore : Store :=
  LsmEngine.addTable (LsmEngine.addTable ⟨Manifest.new numLevels, fun _ => none⟩
    [(.singleton 1, .singleton 1)]) [(.singleton 1, .singleton 2)]

theorem overwrittenStore_wf : overwrittenStore.WF :=
  (addTable_spec (addTable_spec (Store.wf_new _ _) (by decide)).1 (by decide)).1

/-- Compacting two versions of a key writes the older one. -/
theorem compactLevel_keeps_oldest : overwrittenStore.WF ∧
    newest (overwrittenStore.tables 0) (.singleton 1) = some (.singleton 2) ∧
    ∃ s', compactLevel overwrittenStore 0 = .ok s' ∧
      Writes overwrittenStore s' 0 [(.singleton 1, .singleton 1)] ∧
      ¬ KeepsNewest (isHighest overwrittenStore.manifest 0) (overwrittenStore.tables 0)
        [(.singleton 1, .singleton 1)] := by
  refine ⟨overwrittenStore_wf, by decide, _, rfl, rfl, fun h => ?_⟩
  have := h.values (.singleton 1) (.singleton 1) List.mem_cons_self
  revert this
  decide

theorem compactLevel_keepsNewest_iff_overwrittenStore :
    ∃ s' out, compactLevel overwrittenStore 0 = .ok s' ∧ Writes overwrittenStore s' 0 out ∧
      (KeepsNewest (isHighest overwrittenStore.manifest 0) (overwrittenStore.tables 0) out ↔
        ∀ k, oldest (overwrittenStore.tables 0) k = newest (overwrittenStore.tables 0) k) :=
  compactLevel_keepsNewest_iff overwrittenStore_wf 0

/-! ## Lookups across a compaction -/

/-- What a lookup answers for a version. -/
def answer (v : Option Bytes) : Option Bytes := v.bind LsmEngine.decodeValue

theorem answer_none : answer none = none := rfl

theorem answer_tombstone : answer (some .empty) = none := rfl

theorem answer_of_ne {v : Bytes} (h : v ≠ .empty) : answer (some v) = some v := by
  unfold answer LsmEngine.decodeValue
  rw [Option.bind_some, if_neg (by rwa [Bytes.isEmpty_iff])]

theorem answer_inj {v v' : Bytes} (h : answer (some v) = answer (some v')) : v = v' := by
  by_cases hv : v = .empty
  · by_cases hv' : v' = .empty
    · rw [hv, hv']
    · rw [hv, answer_tombstone, answer_of_ne hv'] at h; cases h
  · by_cases hv' : v' = .empty
    · rw [hv', answer_tombstone, answer_of_ne hv] at h; cases h
    · rw [answer_of_ne hv, answer_of_ne hv'] at h; exact Option.some.inj h

/-- Compacting level `L` does not change what a lookup of `k` answers: a level below
    holds the key; or the version kept is the newest one; or it is a dropped tombstone
    and the next level answers the same as the newest version of level `L`. -/
def FaithfulAt (s : Store) (L : ℕ) (k : Bytes) : Prop :=
  (∀ i < L, newest (s.tables i) k = none) →
    if isHighest s.manifest L = true ∧ oldest (s.tables L) k = some .empty then
      answer (newest (s.tables (L + 1)) k) = answer (newest (s.tables L) k)
    else oldest (s.tables L) k = newest (s.tables L) k

theorem isHighest_le {m : Manifest} {L : ℕ} (h : isHighest m L = true) : m.numLevels ≤ L + 2 := by
  simp only [isHighest, ge_iff_le, decide_eq_true_eq] at h
  omega

/-- **What a search finds across a compaction**: the levels below come first, then the
    level or what its merge left of it, the next level, and the levels above. -/
theorem version_compactLevel_eq {s : Store} (hs : s.WF) (L : ℕ) :
    ∃ s', compactLevel s L = .ok s' ∧ s'.WF ∧ ∀ k, ∃ low above : Option Bytes,
      (low = none ↔ ∀ i < L, newest (s.tables i) k = none) ∧
      (isHighest s.manifest L = true → above = none) ∧
      s.version k = low.or ((newest (s.tables L) k).or
        ((newest (s.tables (L + 1)) k).or above)) ∧
      s'.version k = low.or (((oldest (s.tables L) k).filter (keep (isHighest s.manifest L))).or
        ((newest (s.tables (L + 1)) k).or above)) := by
  obtain ⟨s', out, hrun, hs', htab, -, hout⟩ := compactLevel_spec hs L
  refine ⟨s', hrun, hs', fun k => ?_⟩
  set n := max s.manifest.numLevels s'.manifest.numLevels
  have hn : s.version k = visible s.tables 0 (L + (n + 1 + 1)) k :=
    Store.version_eq (by omega) k
  have hn' : s'.version k = visible (pushDown s.tables L out) 0 (L + (n + 1 + 1)) k := by
    rw [Store.version_eq (s := s') (n := L + (n + 1 + 1)) (by omega) k]
    exact visible_congr fun i _ _ => by rw [htab]
  refine ⟨visible s.tables 0 L k, visible s.tables (L + 2) n k, ?_, fun hh => ?_, ?_, ?_⟩
  · rw [visible_eq_none]
    simp
  · -- nothing lies above the target level
    exact visible_eq_none.2 fun i hi _ => by
      rw [Store.tables_of_le ((isHighest_le hh).trans hi)]; rfl
  · rw [hn, visible_split]
  · rw [hn', visible_pushDown, hout]

theorem newest_eq_none_of_oldest {ts : List (List Entry)} {k : Bytes} (h : oldest ts k = none) :
    newest ts k = none := newest_eq_none.2 (oldest_eq_none.1 h)

/-- A merge keeps the oldest version, unless that is a tombstone at the highest level. -/
theorem filter_keep_some {highest : Bool} {v : Bytes} :
    (some v).filter (keep highest) =
      if highest = true ∧ some v = some .empty then none else some v := by
  rw [Option.filter_some]
  by_cases hk : keep highest v = true
  · rw [if_pos hk, if_neg fun h => keep_iff.1 hk ⟨h.1, Option.some.inj h.2⟩]
  · obtain ⟨hh, rfl⟩ := not_not.1 fun hc => hk (keep_iff.2 hc)
    rw [if_neg hk, if_pos ⟨hh, rfl⟩]

/-- **A lookup survives a compaction exactly when the compaction is faithful to the
    key.** -/
theorem version_compactLevel {s : Store} (hs : s.WF) (L : ℕ) :
    ∃ s', compactLevel s L = .ok s' ∧ s'.WF ∧
      ∀ k, answer (s'.version k) = answer (s.version k) ↔ FaithfulAt s L k := by
  obtain ⟨s', hrun, hs', heq⟩ := version_compactLevel_eq hs L
  refine ⟨s', hrun, hs', fun k => ?_⟩
  obtain ⟨low, above, hlow, habove, hv, hv'⟩ := heq k
  rw [hv, hv', FaithfulAt, ← hlow]
  rcases low with _ | v
  swap
  · simp
  simp only [Option.none_or, true_imp_iff]
  rcases ho : oldest (s.tables L) k with _ | v
  · simp [newest_eq_none_of_oldest ho]
  obtain ⟨v', hn⟩ : ∃ v', newest (s.tables L) k = some v' := by
    rw [← Option.isSome_iff_exists, newest_isSome_iff, ← oldest_isSome_iff, ho]
    rfl
  rw [hn, filter_keep_some]
  split_ifs with hdrop
  · rw [habove hdrop.1, Option.none_or, Option.or_none, Option.some_or]
  · rw [Option.some_or, Option.some_or]
    exact ⟨fun h => congrArg some (answer_inj h), fun h => congrArg answer h⟩

/-- No key occurs in two tables. -/
def NoSharedKeys (ts : List (List Entry)) : Prop :=
  ts.Pairwise fun t t' => ∀ a ∈ t, ∀ b ∈ t', a.1 ≠ b.1

instance (ts : List (List Entry)) : Decidable (NoSharedKeys ts) :=
  inferInstanceAs (Decidable (ts.Pairwise _))

/-- Compacting level `L` brings a deleted key back: the tombstone of `k` is dropped
    while the target level still holds a value of it. -/
def Resurrects (s : Store) (L : ℕ) (k : Bytes) : Prop :=
  isHighest s.manifest L = true ∧ newest (s.tables L) k = some .empty ∧
    (∀ i < L, newest (s.tables i) k = none) ∧
    ∃ v, v ≠ .empty ∧ newest (s.tables (L + 1)) k = some v

/-- Without shared keys the only unfaithful compactions are the resurrecting ones. -/
theorem faithfulAt_iff_of_disjoint {s : Store} {L : ℕ} (h : NoSharedKeys (s.tables L)) (k : Bytes) :
    FaithfulAt s L k ↔ ¬ Resurrects s L k := by
  have heq : oldest (s.tables L) k = newest (s.tables L) k :=
    oldest_eq_newest_of_disjoint (h.imp fun {t t'} h => by
      by_contra hc
      rw [not_or, ← Ne, ← Ne, Option.ne_none_iff_exists', Option.ne_none_iff_exists'] at hc
      obtain ⟨⟨v, hv⟩, v', hv'⟩ := hc
      exact h _ (mem_of_lookup hv) _ (mem_of_lookup hv') rfl)
  unfold FaithfulAt Resurrects
  rw [heq]
  constructor
  · rintro hf ⟨hh, hn, hlow, v, hv, hv'⟩
    have := hf hlow
    rw [if_pos ⟨hh, hn⟩, hn, hv', answer_tombstone, answer_of_ne hv] at this
    cases this
  · intro hr hlow
    split_ifs with hc
    · obtain ⟨hh, hn⟩ := hc
      rw [hn, answer_tombstone]
      by_contra hne
      rcases hv : newest (s.tables (L + 1)) k with _ | v
      · rw [hv] at hne; exact hne answer_none
      · rw [hv] at hne
        exact hr ⟨hh, hn, hlow, v, fun he => hne (by rw [he, answer_tombstone]), hv⟩
    · rfl

/-- **Without shared keys in the level, a lookup is the same before and after its
    compaction exactly when no deleted key comes back.** -/
theorem compactLevel_get_iff {s : Store} (hs : s.WF) (L : ℕ) (h : NoSharedKeys (s.tables L)) :
    ∃ s', compactLevel s L = .ok s' ∧
      ∀ k, LsmEngine.getSstable s' k = LsmEngine.getSstable s k ↔ ¬ Resurrects s L k := by
  obtain ⟨s', hrun, hs', hget⟩ := version_compactLevel hs L
  refine ⟨s', hrun, fun k => ?_⟩
  rw [getSstable_eq hs', getSstable_eq hs, ← faithfulAt_iff_of_disjoint h, ← hget k]
  exact ⟨fun h => Except.ok.inj h, fun h => congrArg Except.ok h⟩

/-- A tombstone in level 2, an older value of the same key in level 3. -/
def tombstoneOverValue : Store where
  manifest := ⟨[[], [], [⟨1, 2, ⟨2, 1⟩, 1, .singleton 1, .singleton 1⟩],
    [⟨0, 3, ⟨3, 0⟩, 1, .singleton 1, .singleton 1⟩]], 2⟩
  disk := Disk.write (Disk.write (fun _ => none)
    ⟨3, 0⟩ (.finished [(.singleton 1, .singleton 7)])) ⟨2, 1⟩ (.finished [(.singleton 1, .empty)])

theorem tombstoneOverValue_wf : tombstoneOverValue.WF := by
  intro L t ht
  match L, ht with
  | 2, ht =>
    obtain rfl := List.mem_singleton.1 ht
    refine ⟨rfl, rfl, by decide, rfl, by decide, by decide⟩
  | 3, ht =>
    obtain rfl := List.mem_singleton.1 ht
    refine ⟨rfl, rfl, by decide, rfl, by decide, by decide⟩

theorem tombstoneOverValue_noSharedKeys : NoSharedKeys (tombstoneOverValue.tables 2) :=
  List.pairwise_singleton _ _

/-- Compacting level 2 drops the tombstone: the deleted key has its old value again. -/
theorem compactLevel_resurrects : tombstoneOverValue.WF ∧
    NoSharedKeys (tombstoneOverValue.tables 2) ∧
    LsmEngine.getSstable tombstoneOverValue (.singleton 1) = .ok none ∧
    ∃ s', compactLevel tombstoneOverValue 2 = .ok s' ∧
      LsmEngine.getSstable s' (.singleton 1) = .ok (some (.singleton 7)) :=
  ⟨tombstoneOverValue_wf, tombstoneOverValue_noSharedKeys, by decide, _, rfl, by decide⟩

theorem compactLevel_get_iff_tombstoneOverValue :
    ∃ s', compactLevel tombstoneOverValue 2 = .ok s' ∧
      ∀ k, LsmEngine.getSstable s' k = LsmEngine.getSstable tombstoneOverValue k ↔
        ¬ Resurrects tombstoneOverValue 2 k :=
  compactLevel_get_iff tombstoneOverValue_wf 2 tombstoneOverValue_noSharedKeys

end Scry.Lsm
