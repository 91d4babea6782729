/-
  A pass over leveled tables that merges the full levels.

  The pass goes through the levels once, from the lowest on, and merges the tables of a
  full level into one new table of the next; the merge takes the oldest version of a key.
  What a merge reads is then said by the tables before the pass: those of its level and,
  behind them, those of the level below if that was merged too (`sources`).  So is what a
  search finds once the pass has come to a level (`Cascaded.visible_eq`).
-/
import Scry.Lib.Versions

namespace Scry.Cascade

variable {K V : Type*} [LinearOrder K]

theorem newest_append (ts ts' : List (List (K × V))) (k : K) :
    newest (ts ++ ts') k = (newest ts' k).or (newest ts k) := by
  rw [newest, List.reverse_append, oldest_append]
  rfl

theorem oldest_eq_none_iff_newest {ts : List (List (K × V))} {k : K} :
    oldest ts k = none ↔ newest ts k = none := by
  rw [oldest_eq_none, newest_eq_none]

/-! ## What a merge reads -/

/-- A merge of `ts` that keeps what `p` accepts leaves an entry. -/
def leaves (p : V → Bool) (ts : List (List (K × V))) : Bool :=
  ts.flatten.any fun a => (oldest ts a.1).any p

theorem isEmpty_eq_not_leaves {p : V → Bool} {ts : List (List (K × V))} {out : List (K × V)}
    (h : ∀ k, out.lookup k = (oldest ts k).filter p) : out.isEmpty = !leaves p ts := by
  cases out with
  | nil =>
    symm
    rw [List.isEmpty_nil, Bool.not_eq_true', leaves, List.any_eq_false]
    intro a ha
    have hnone := Option.filter_eq_none_iff.1 (h a.1).symm
    rw [Option.any_eq_true]
    rintro ⟨v, hv, hp⟩
    exact hnone v hv hp
  | cons a out =>
    obtain ⟨k, v⟩ := a
    have hk : (oldest ts k).filter p = some v := by rw [← h, List.lookup_cons_self]
    obtain ⟨hv, hp⟩ := Option.filter_eq_some_iff.1 hk
    obtain ⟨t, ht, hmem⟩ := oldest_isSome_iff.1 (hv ▸ rfl : (oldest ts k).isSome)
    obtain ⟨e, he, rfl⟩ := List.mem_map.1 hmem
    symm
    rw [List.isEmpty_cons, Bool.not_eq_false', leaves, List.any_eq_true]
    exact ⟨e, List.mem_flatten.2 ⟨t, ht, he⟩, by rw [hv]; exact hp⟩

section
variable (full : ℕ) (keep : ℕ → V → Bool) (T : ℕ → List (List (K × V)))

/-- The tables that the pass merges at level `i`, the preferred ones first, and whether
    the level is full when the pass comes to it. -/
def pass : ℕ → List (List (K × V)) × Bool
  | 0 => (T 0, decide (full ≤ (T 0).length))
  | i + 1 =>
    (T (i + 1) ++ (if (pass i).2 then (pass i).1 else []),
      decide (full ≤ (T (i + 1)).length + ((pass i).2 && leaves (keep i) (pass i).1).toNat))

def sources (i : ℕ) : List (List (K × V)) := (pass full keep T i).1

def merges (i : ℕ) : Bool := (pass full keep T i).2

/-- A table has arrived at the level when the pass comes to it. -/
def arrives : ℕ → Bool
  | 0 => false
  | i + 1 => merges full keep T i && leaves (keep i) (sources full keep T i)

/-- The version of a key in the table that has arrived. -/
def arriving : ℕ → K → Option V
  | 0, _ => none
  | i + 1, k =>
    if merges full keep T i then (oldest (sources full keep T i) k).filter (keep i) else none

end

variable {full : ℕ} {keep : ℕ → V → Bool} {T : ℕ → List (List (K × V))}

theorem merges_iff {i : ℕ} : merges full keep T i = true ↔
    full ≤ (T i).length + (arrives full keep T i).toNat := by
  cases i <;> exact decide_eq_true_iff

theorem sources_succ (i : ℕ) : sources full keep T (i + 1) =
    T (i + 1) ++ (if merges full keep T i then sources full keep T i else []) := rfl

/-- What is dropped on the way to a level would be dropped by its merge too. -/
theorem filter_oldest_sources {L : ℕ}
    (hkeep : ∀ i v, i < L → keep L v = true → keep i v = true) (k : K) :
    (oldest (sources full keep T L) k).filter (keep L) =
      ((oldest (T L) k).or (arriving full keep T L k)).filter (keep L) := by
  cases L with
  | zero => exact congrArg _ Option.or_none.symm
  | succ i =>
    rw [sources_succ, oldest_append, arriving]
    cases oldest (T (i + 1)) k with
    | some v => rfl
    | none =>
      rw [Option.none_or, Option.none_or]
      split_ifs
      · have hboth : (fun v => keep i v && keep (i + 1) v) = keep (i + 1) := funext fun v => by
          have hv := hkeep i v (Nat.lt_succ_self i)
          cases h : keep (i + 1) v with
          | false => exact Bool.and_false _
          | true => rw [hv h, Bool.true_and]
        rw [Option.filter_filter, hboth]
      · rfl

/-- A key that no level up to `L` holds does not arrive. -/
theorem oldest_sources_eq_none {L : ℕ} {k : K} (h : ∀ i ≤ L, newest (T i) k = none) :
    oldest (sources full keep T L) k = none := by
  induction L with
  | zero => exact oldest_eq_none_iff_newest.2 (h 0 le_rfl)
  | succ i ih =>
    rw [sources_succ, oldest_append, oldest_eq_none_iff_newest.2 (h (i + 1) le_rfl), Option.none_or]
    split_ifs
    · exact ih fun j hj => h j (by omega)
    · rfl

theorem arriving_eq_none {L : ℕ} {k : K} (h : ∀ i < L, newest (T i) k = none) :
    arriving full keep T L k = none := by
  cases L with
  | zero => rfl
  | succ i =>
    rw [arriving, oldest_sources_eq_none fun j hj => h j (by omega)]
    simp

/-- Merges without a gap carry a key on. -/
theorem oldest_sources_isSome {m L : ℕ} {k : K} (hm : (newest (T m) k).isSome) (hmL : m ≤ L)
    (h : ∀ i, m ≤ i → i < L → merges full keep T i = true) :
    (oldest (sources full keep T L) k).isSome := by
  have hold : (oldest (T m) k).isSome := by
    rw [← Option.ne_none_iff_isSome] at hm ⊢
    exact fun hc => hm (oldest_eq_none_iff_newest.1 hc)
  induction L, hmL using Nat.le_induction with
  | base =>
    cases m with
    | zero => exact hold
    | succ i =>
      rw [sources_succ, oldest_append, Option.isSome_or, hold, Bool.true_or]
  | succ i hi ih =>
    rw [sources_succ, oldest_append, if_pos (h i hi (Nat.lt_succ_self i)), Option.isSome_or,
      ih fun j hj hji => h j hj (by omega), Bool.or_true]

/-! ## The pass -/

/-- `T'` are the tables when the pass that began with `T` comes to level `L`. -/
structure Cascaded (full : ℕ) (keep : ℕ → V → Bool) (T T' : ℕ → List (List (K × V))) (L : ℕ) :
    Prop where
  above (j : ℕ) : L < j → T' j = T j
  here : ∃ ts, T' L = T L ++ ts ∧ ts.length = (arrives full keep T L).toNat ∧
    ∀ k, oldest ts k = arriving full keep T L k
  below (j : ℕ) (k : K) : j < L → newest (T' j) k =
    if merges full keep T j then none else (arriving full keep T j k).or (newest (T j) k)

theorem Cascaded.zero (T : ℕ → List (List (K × V))) : Cascaded full keep T T 0 where
  above _ _ := rfl
  here := ⟨[], (List.append_nil _).symm, rfl, fun _ => rfl⟩
  below _ _ hj := absurd hj (Nat.not_lt_zero _)

variable {T' : ℕ → List (List (K × V))} {L : ℕ}

/-- A single table has one version of a key. -/
theorem newest_eq_oldest_of_length_le {ts : List (List (K × V))} (h : ts.length ≤ 1) (k : K) :
    newest ts k = oldest ts k := by
  rcases ts with _ | ⟨t, _ | ⟨t', ts⟩⟩
  · rfl
  · rfl
  · simp at h

theorem Cascaded.newest_here (h : Cascaded full keep T T' L) (k : K) :
    newest (T' L) k = (arriving full keep T L k).or (newest (T L) k) := by
  obtain ⟨ts, hts, hlen, hold⟩ := h.here
  have hone : ts.length ≤ 1 := hlen ▸ Bool.toNat_le _
  rw [hts, newest_append, newest_eq_oldest_of_length_le hone, hold]

theorem Cascaded.filter_oldest_here (h : Cascaded full keep T T' L)
    (hkeep : ∀ i v, i < L → keep L v = true → keep i v = true) (k : K) :
    (oldest (T' L) k).filter (keep L) = (oldest (sources full keep T L) k).filter (keep L) := by
  obtain ⟨ts, hts, -, hold⟩ := h.here
  rw [hts, oldest_append, hold, filter_oldest_sources hkeep]

/-- The pass finds the level full if and only if it merges it. -/
theorem Cascaded.full_iff (h : Cascaded full keep T T' L) :
    full ≤ (T' L).length ↔ merges full keep T L = true := by
  obtain ⟨ts, hts, hlen, -⟩ := h.here
  rw [hts, List.length_append, hlen, merges_iff]

/-- A level that is not full stays. -/
theorem Cascaded.skip (h : Cascaded full keep T T' L) (hfull : ¬ full ≤ (T' L).length) :
    Cascaded full keep T T' (L + 1) := by
  have hm : merges full keep T L = false := by
    rw [← Bool.not_eq_true, ← h.full_iff]
    exact hfull
  refine ⟨fun j hj => h.above j (by omega), ⟨[], ?_, ?_, fun k => ?_⟩, fun j k hj => ?_⟩
  · rw [h.above (L + 1) (Nat.lt_succ_self L), List.append_nil]
  · rw [arrives, hm]
    rfl
  · rw [arriving, hm]
    rfl
  · rcases Nat.lt_succ_iff_lt_or_eq.1 hj with hj | rfl
    · exact h.below j k hj
    · rw [h.newest_here, hm]
      rfl

/-- A full level is merged. -/
theorem Cascaded.merge (h : Cascaded full keep T T' L)
    (hkeep : ∀ i v, i < L → keep L v = true → keep i v = true) (hfull : full ≤ (T' L).length)
    {out : List (K × V)}
    (hout : ∀ k, out.lookup k = (oldest (T' L) k).filter (keep L)) :
    Cascaded full keep T (pushDown T' L out) (L + 1) := by
  have hm : merges full keep T L = true := h.full_iff.1 hfull
  have hlook : ∀ k, out.lookup k = (oldest (sources full keep T L) k).filter (keep L) :=
    fun k => by rw [hout, h.filter_oldest_here hkeep]
  refine ⟨fun j hj => ?_, ⟨if out.isEmpty then [] else [out], ?_, ?_, fun k => ?_⟩,
    fun j k hj => ?_⟩
  · rw [pushDown, if_neg (by omega), if_neg (by omega)]
    exact h.above j (by omega)
  · rw [pushDown, if_neg (by omega), if_pos rfl, h.above (L + 1) (Nat.lt_succ_self L)]
  · rw [arrives, hm, isEmpty_eq_not_leaves hlook]
    cases leaves (keep L) (sources full keep T L) <;> rfl
  · rw [arriving, if_pos hm, ← hlook]
    cases out <;> simp
  · rw [pushDown]
    rcases Nat.lt_succ_iff_lt_or_eq.1 hj with hj | rfl
    · rw [if_neg (by omega), if_neg (by omega)]
      exact h.below j k hj
    · rw [if_pos rfl, if_pos hm]
      rfl

/-! ## Searches -/

/-- The pass carries what level `m` holds to level `b`, if it ends at level `L`. -/
structure Carries (full : ℕ) (keep : ℕ → V → Bool) (T : ℕ → List (List (K × V))) (L m b : ℕ) :
    Prop where
  le : m ≤ b
  le_end : b ≤ L
  merged (i : ℕ) : m ≤ i → i < b → merges full keep T i = true
  stays : b = L ∨ merges full keep T b = false

theorem exists_carries {m : ℕ} (h : m ≤ L) : ∃ b, Carries full keep T L m b := by
  induction L, h using Nat.le_induction with
  | base => exact ⟨m, le_rfl, le_rfl, fun i h h' => absurd h' (by omega), Or.inl rfl⟩
  | succ n hn ih =>
    obtain ⟨b, hb⟩ := ih
    by_cases hm : merges full keep T b = true
    · -- only the end of the pass has kept the versions there
      have hbn : b = n := hb.stays.resolve_right (by simp [hm])
      subst hbn
      refine ⟨b + 1, by omega, le_rfl, fun i h h' => ?_, Or.inl rfl⟩
      rcases Nat.lt_succ_iff_lt_or_eq.1 h' with h' | rfl
      · exact hb.merged i h h'
      · exact hm
    · exact ⟨b, hb.le, by have := hb.le_end; omega, hb.merged, Or.inr (by simpa using hm)⟩

theorem Carries.unique {m b b' : ℕ} (h : Carries full keep T L m b)
    (h' : Carries full keep T L m b') : b = b' := by
  have key : ∀ {b b' : ℕ}, Carries full keep T L m b → Carries full keep T L m b' → ¬ b < b' := by
    intro b b' h h' hlt
    rcases h.stays with rfl | hs
    · exact absurd h'.le_end (by omega)
    · rw [h'.merged b h.le hlt] at hs
      cases hs
  exact le_antisymm (not_lt.1 (key h' h)) (not_lt.1 (key h h'))

/-- A key that no level up to `L` holds is found as before. -/
theorem Cascaded.newest_eq_none (h : Cascaded full keep T T' L) {k : K}
    (hk : ∀ i ≤ L, newest (T i) k = none) (j : ℕ) (hj : j ≤ L) : newest (T' j) k = none := by
  have harr : (arriving full keep T j k).or (newest (T j) k) = none := by
    rw [arriving_eq_none fun i hi => hk i (by omega), hk j hj]
    rfl
  rcases Nat.lt_or_eq_of_le hj with hj | rfl
  · rw [h.below j k hj, harr, ite_self]
  · rw [h.newest_here, harr]

/-- **What a search finds when the pass has come to level `L`**: the version that has
    arrived where the lowest level with the key has been carried, or else what was found
    from there on. -/
theorem Cascaded.newest_eq (h : Cascaded full keep T T' L) {m b : ℕ} {k : K}
    (hfirst : ∀ i < m, newest (T i) k = none) (hb : Carries full keep T L m b) :
    (∀ j < b, newest (T' j) k = none) ∧
      newest (T' b) k = (arriving full keep T b k).or (newest (T b) k) := by
  constructor
  · intro j hj
    rw [h.below j k (by have := hb.le_end; omega)]
    rcases lt_or_ge j m with hjm | hjm
    · rw [arriving_eq_none fun i hi => hfirst i (by omega), hfirst j hjm]
      exact ite_self _
    · rw [if_pos (hb.merged j hjm hj)]
  · rcases hb.stays with rfl | hstay
    · exact h.newest_here k
    · rcases Nat.lt_or_eq_of_le hb.le_end with hlt | rfl
      · rw [h.below b k hlt, hstay]
        rfl
      · exact h.newest_here k

end Scry.Cascade
