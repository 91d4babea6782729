/-
  Bulk loads are exact: which lists are accepted, and what the loaded map holds.
-/
import Scry.Index.Proof.Map

namespace Scry.Index

variable {K V : Type} [LinearOrder K]

/-! ## Removing duplicates -/

/-- The pairs that no later pair with the same key replaces. -/
def keepLast : List (K × V) → List (K × V)
  | [] => []
  | a :: l => if l.any fun b => b.1 = a.1 then keepLast l else a :: keepLast l

/-- The keys of the list do not descend. -/
def NonDescending (l : List (K × V)) : Prop := l.Pairwise fun a b => a.1 ≤ b.1

theorem nonDescending_iff_isChain {l : List (K × V)} :
    (l.IsChain fun a b => a.1 ≤ b.1) ↔ NonDescending l := by
  have htrans : IsTrans (K × V) fun a b => a.1 ≤ b.1 := ⟨fun _ _ _ => le_trans⟩
  exact List.isChain_iff_pairwise

theorem ascending_iff_isChain {l : List (K × V)} :
    (l.IsChain fun a b => a.1 < b.1) ↔ Ascending l := by
  have htrans : IsTrans (K × V) fun a b => a.1 < b.1 := ⟨fun _ _ _ => lt_trans⟩
  exact List.isChain_iff_pairwise

theorem mem_of_mem_keepLast {l : List (K × V)} {a : K × V} (ha : a ∈ keepLast l) : a ∈ l := by
  induction l with
  | nil => exact ha
  | cons b l ih =>
    rw [keepLast] at ha
    split_ifs at ha
    · exact List.mem_cons_of_mem _ (ih ha)
    · rcases List.mem_cons.1 ha with rfl | ha
      · exact List.mem_cons_self
      · exact List.mem_cons_of_mem _ (ih ha)

theorem keepLast_ascending {l : List (K × V)} (hl : NonDescending l) : Ascending (keepLast l) := by
  induction l with
  | nil => exact ascending_nil
  | cons a l ih =>
    obtain ⟨hle, hl⟩ := List.pairwise_cons.1 hl
    rw [keepLast]
    split_ifs with hany
    · exact ih hl
    · refine ascending_cons.2 ⟨fun b hb => ?_, ih hl⟩
      have hb := mem_of_mem_keepLast hb
      refine lt_of_le_of_ne (hle b hb) fun he => hany ?_
      exact List.any_eq_true.2 ⟨b, hb, by simp [he]⟩

theorem keepLast_ne_nil {l : List (K × V)} (hl : l ≠ []) : keepLast l ≠ [] := by
  induction l with
  | nil => exact hl
  | cons a l ih =>
    rw [keepLast]
    split_ifs with hany
    · exact ih fun he => by rw [he] at hany; simp at hany
    · exact List.cons_ne_nil _ _

/-- Among pairs that do not descend, a key that occurs again is that of the next pair. -/
theorem any_eq_head {a b : K × V} {l : List (K × V)} (hl : NonDescending (a :: b :: l)) :
    ((b :: l).any fun c => c.1 = a.1) ↔ a.1 = b.1 := by
  obtain ⟨hle, hl⟩ := List.pairwise_cons.1 hl
  constructor
  · intro h
    obtain ⟨c, hc, he⟩ := List.any_eq_true.1 h
    have he : c.1 = a.1 := by simpa using he
    refine le_antisymm (hle b List.mem_cons_self) ?_
    rcases List.mem_cons.1 hc with rfl | hc
    · exact he.le
    · exact ((List.pairwise_cons.1 hl).1 c hc).trans he.le
  · intro h
    exact List.any_eq_true.2 ⟨b, List.mem_cons_self, by simp [h]⟩

theorem dedup_cons (a b : K × V) (l : List (K × V)) :
    LearnedMap.dedup (a :: b :: l) =
      if a.1 = b.1 then LearnedMap.dedup (b :: l) else a :: LearnedMap.dedup (b :: l) := by
  have hlast : (a :: b :: l).getLast? = (b :: l).getLast? := List.getLast?_cons_cons
  simp only [LearnedMap.dedup, List.tail_cons, List.zip_cons_cons, List.filter_cons, hlast]
  split_ifs <;> simp_all

/-- **Duplicates are removed as documented.** -/
theorem dedup_eq_keepLast {l : List (K × V)} (hl : NonDescending l) :
    LearnedMap.dedup l = keepLast l := by
  induction l with
  | nil => rfl
  | cons a l ih =>
    cases l with
    | nil => rfl
    | cons b l =>
      rw [dedup_cons, keepLast, ih (List.pairwise_cons.1 hl).2]
      simp only [any_eq_head hl]

/-! ## Loading -/

variable [Key K]

/-- **Which lists a bulk load accepts, and what it loads.** -/
structure Loads (config : Config) (pairs : List (K × V)) : Prop where
  emptyData : LearnedMap.bulkLoadWithConfig pairs config = some (.error .emptyData) ↔ pairs = []
  notSorted : LearnedMap.bulkLoadWithConfig pairs config = some (.error .notSorted) ↔
    pairs ≠ [] ∧ ¬ Ascending pairs
  loads : pairs ≠ [] → Ascending pairs →
    ∃ m, LearnedMap.bulkLoadWithConfig pairs config = some (.ok m) ∧
      (∀ a ∈ pairs, m.get a.1 = some a.2) ∧ (∀ k, k ∉ pairs.map Prod.fst → m.get k = none) ∧
      m.iter = pairs ∧ m.len = pairs.length

theorem bulkLoadWithConfig_sorted [LawfulKey K] {config : Config} (hc : config.Valid)
    {pairs : List (K × V)} (hne : pairs ≠ []) (hl : Ascending pairs) :
    ∃ m, LearnedMap.bulkLoadWithConfig pairs config = some (.ok m) ∧
      (∀ a ∈ pairs, m.get a.1 = some a.2) ∧ (∀ k, k ∉ pairs.map Prod.fst → m.get k = none) ∧
      m.iter = pairs ∧ m.len = pairs.length := by
  have hc' : ({ config with rangeHeadroom := max config.rangeHeadroom 1 } : Config).Valid :=
    ⟨hc.expansion, zero_le_one.trans (le_max_right _ _)⟩
  obtain ⟨n, h₁, hw, hg⟩ := bulkLoad_holds hc' hne hl
  refine ⟨_, by rw [LearnedMap.bulkLoadWithConfig, h₁]; rfl, fun a ha => ?_, fun k hk => ?_, ?_, rfl⟩
  · exact (hg a.1).trans (hl.lookup_iff.2 ha)
  · exact (hg k).trans (lookup_eq_none.2 hk)
  · exact hw.sortedPairs_eq.trans (hw.entries_eq hl hg)

theorem bulkLoadWithConfig_nil (config : Config) :
    LearnedMap.bulkLoadWithConfig ([] : List (K × V)) config = some (.error .emptyData) := rfl

theorem bulkLoadWithConfig_unsorted (config : Config) {pairs : List (K × V)} (hne : pairs ≠ [])
    (hl : ¬ Ascending pairs) :
    LearnedMap.bulkLoadWithConfig pairs config = some (.error .notSorted) := by
  rw [LearnedMap.bulkLoadWithConfig, bulkLoad, if_neg (by simpa using hne),
    if_pos (mt ascending_iff_isChain.1 hl)]
  rfl

theorem bulkLoad_loads [LawfulKey K] {config : Config} (hc : config.Valid) (pairs : List (K × V)) :
    Loads config pairs := by
  by_cases hne : pairs = []
  · subst hne
    have h := bulkLoadWithConfig_nil (K := K) (V := V) config
    exact ⟨by simp [h], by simp [h], fun h => absurd rfl h⟩
  by_cases hl : Ascending pairs
  · obtain ⟨m, hm, hrest⟩ := bulkLoadWithConfig_sorted hc hne hl
    exact ⟨by simp [hm, hne], by simp [hm, hl], fun _ _ => ⟨m, hm, hrest⟩⟩
  · have h := bulkLoadWithConfig_unsorted config hne hl
    exact ⟨by simp [h, hne], by simp [h, hne, hl], fun _ h => absurd h hl⟩

/-- **Bulk loads are exact.**  A bulk load accepts the strictly ascending lists and holds
    exactly their pairs; with duplicates it accepts the lists that do not descend, and
    loads them without the pairs that a later one replaces. -/
theorem bulkLoad_exact [LawfulKey K] {config : Config} (hc : config.Valid)
    (pairs : List (K × V)) :
    Loads config pairs ∧
    (LearnedMap.bulkLoadDedupWithConfig pairs config = some (.error .emptyData) ↔ pairs = []) ∧
    (LearnedMap.bulkLoadDedupWithConfig pairs config = some (.error .notSorted) ↔
      pairs ≠ [] ∧ ¬ NonDescending pairs) ∧
    (pairs ≠ [] → NonDescending pairs →
      (∃ m, LearnedMap.bulkLoadDedupWithConfig pairs config = some (.ok m)) ∧
      LearnedMap.bulkLoadDedupWithConfig pairs config =
        LearnedMap.bulkLoadWithConfig (keepLast pairs) config) := by
  refine ⟨bulkLoad_loads hc pairs, ?_⟩
  rw [LearnedMap.bulkLoadDedupWithConfig]
  by_cases hne : pairs = []
  · simp [hne]
  rw [if_neg (by simpa using hne)]
  by_cases hl : NonDescending pairs
  · rw [if_neg (not_not.2 (nonDescending_iff_isChain.2 hl))]
    have hd := dedup_eq_keepLast hl
    have hk := keepLast_ne_nil hne
    obtain ⟨m, hm, -⟩ := (bulkLoad_loads hc (keepLast pairs)).loads hk (keepLast_ascending hl)
    rw [hd, if_neg (by simpa using hk), hm]
    simp [hne, hl]
  · rw [if_pos (mt nonDescending_iff_isChain.1 hl)]
    simp [hne, hl]

/-- A list of bytes with a duplicate. -/
theorem bulkLoad_exact_bytes :
    ∃ m : LearnedMap (Fin (2 ^ 8)) ℕ,
      LearnedMap.bulkLoadDedupWithConfig
        [(⟨3, by decide⟩, 1), (⟨3, by decide⟩, 2), (⟨5, by decide⟩, 4)] {} = some (.ok m) ∧
      m.get ⟨3, by decide⟩ = some 2 ∧ m.get ⟨4, by decide⟩ = none ∧
      m.iter = [(⟨3, by decide⟩, 2), (⟨5, by decide⟩, 4)] ∧ m.len = 2 := by
  have := lawfulKey_unsigned (show 8 ≤ 64 by decide)
  have hc : ({} : Config).Valid := ⟨one_le_two, le_rfl⟩
  obtain ⟨-, -, -, hload⟩ := bulkLoad_exact (K := Fin (2 ^ 8)) hc
    [(⟨3, by decide⟩, 1), (⟨3, by decide⟩, 2), (⟨5, by decide⟩, 4)]
  obtain ⟨-, hdedup⟩ := hload (by decide) (by unfold NonDescending; decide)
  obtain ⟨⟨-, -, hexact⟩, -⟩ := bulkLoad_exact (K := Fin (2 ^ 8)) hc
    [(⟨3, by decide⟩, 2), (⟨5, by decide⟩, 4)]
  obtain ⟨m, hm, hget, hnone, hiter, hlen⟩ := hexact (by decide) (by decide)
  exact ⟨m, hdedup.trans hm, hget _ List.mem_cons_self, hnone _ (by decide), hiter, hlen⟩

end Scry.Index
