/-
  The learned index refines a sorted map.

  The simulation relation (`Refines`) fixes the lookups of the tree; one operation is
  one step of the reference map, so every run returns what the reference map returns.
-/
import Scry.Index.Map
import Scry.Index.Proof.Update

namespace Scry.Index

variable {K V : Type} [LinearOrder K] [Key K]

/-- The map stands for a sorted map. -/
structure Refines (m : LearnedMap K V) (s : SortedMap K V) : Prop where
  wf : m.root.WF
  get (k : K) : m.root.get k = s.get k
  len : m.len = s.len
  config : m.config.Valid

namespace Refines
variable {m : LearnedMap K V} {s : SortedMap K V}

theorem entries [LawfulKey K] (h : Refines m s) : m.root.entries = s.toList :=
  h.wf.entries_eq s.ascending h.get

theorem sortedPairs [LawfulKey K] (h : Refines m s) : m.root.sortedPairs = s.toList :=
  h.wf.sortedPairs_eq.trans h.entries

theorem empty {config : Config} (hc : config.Valid) (n : ℕ) :
    Refines (⟨LearnedMap.emptyRoot, 0, config, n⟩ : LearnedMap K V) .empty where
  wf := (Node.withHeader_built ⟨Nat.succ_pos 63, zero_le_one⟩).wf
  get := fun _ => rfl
  len := rfl
  config := hc

/-- After an update of the root the reference map is updated accordingly. -/
theorem update (h : Refines m s) {root : Node K V} {key : K} {w : Option V}
    (hu : Updates m.root root key w) {s' : SortedMap K V} {n : ℕ}
    (hs : ∀ k, s'.get k = if k = key then w else s.get k) (hn : n = s'.len) :
    Refines { m with root := root, len := n } s' where
  wf := hu.wf
  get := fun k => by rw [hu.get, hs, h.get]
  len := hn
  config := h.config

/-! ## Root rebuilds -/

/-- **A rebuild keeps the map.** -/
theorem rebuild [LawfulKey K] (h : Refines m s) : ∃ m', m.rebuild = some m' ∧ Refines m' s := by
  rw [LearnedMap.rebuild, h.sortedPairs]
  by_cases he : s.toList.isEmpty
  · rw [if_pos he]
    exact ⟨m, rfl, h⟩
  · rw [if_neg he]
    have hc : ({ m.config with rangeHeadroom := 1 } : Config).Valid :=
      ⟨h.config.expansion, zero_le_one⟩
    obtain ⟨n, h₁, h₂⟩ := bulkLoad_holds hc (by simpa using he) s.ascending
    rw [h₁]
    exact ⟨_, rfl, h₂.wf, h₂.get, h.len, h.config⟩

theorem maybeRebuildRoot [LawfulKey K] (h : Refines m s) (currentLen : ℕ) :
    ∃ m', m.maybeRebuildRoot currentLen = some m' ∧ Refines m' s := by
  rw [LearnedMap.maybeRebuildRoot]
  split_ifs
  · exact ⟨m, rfl, h⟩
  · exact rebuild ⟨h.wf, h.get, h.len, h.config⟩
  · exact ⟨m, rfl, h⟩

/-! ## Operations -/

/-- The counter and the root rebuild after an insert. -/
theorem countNew [LawfulKey K] (h : Refines m s) {root : Node K V} {key : K} {value : V}
    (hu : Updates m.root root key (some value)) (isNew : Bool) (hnew : isNew = (s.get key).isNone) :
    ∃ m', LearnedMap.countNew { m with root := root } isNew = some m' ∧
      Refines m' (s.insert key value) := by
  have hget := s.get_insert key value
  have hlen := s.len_insert key value
  rw [LearnedMap.countNew]
  cases hk : s.get key with
  | none =>
    rw [hk] at hnew hlen
    subst hnew
    exact maybeRebuildRoot (h.update hu hget (by rw [hlen, h.len]; rfl)) _
  | some v =>
    rw [hk] at hnew hlen
    subst hnew
    exact ⟨_, rfl, h.update hu hget (by rw [hlen, h.len]; rfl)⟩

theorem isNew_iff (old : Option V) : decide (insertResult old = .inserted) = old.isNone := by
  cases old <;> rfl

theorem insert [LawfulKey K] (h : Refines m s) (key : K) (value : V) :
    ∃ m', m.insert key value = some (m', (s.get key).isNone) ∧
      Refines m' (s.insert key value) := by
  obtain ⟨root, h₁, hu⟩ := insert_updates h.config h.wf key value
  obtain ⟨m', h₂, h₃⟩ := h.countNew hu _ rfl
  refine ⟨m', ?_, h₃⟩
  rw [LearnedMap.insert, h₁]
  simp only [Option.bind_eq_bind, Option.bind_some, isNew_iff, h.get, h₂]

theorem getOrInsert [LawfulKey K] (h : Refines m s) (key : K) (value : V) :
    ∃ m', m.getOrInsert key value = some (m', (s.get key).getD value) ∧
      Refines m' (s.insert key ((s.get key).getD value)) := by
  obtain ⟨root, h₁, hu⟩ := getOrInsert_updates h.config h.wf key value
  rw [h.get] at h₁ hu
  obtain ⟨m', h₂, h₃⟩ := h.countNew hu _ rfl
  refine ⟨m', ?_, h₃⟩
  rw [LearnedMap.getOrInsert, h₁]
  simp only [Option.bind_eq_bind, Option.bind_some, isNew_iff, h₂]

theorem remove [LawfulKey K] (h : Refines m s) (key : K) :
    ∃ m', m.remove key = some (m', (s.get key).isSome) ∧ Refines m' (s.erase key) := by
  obtain ⟨root, h₁, hu⟩ := remove_updates h.config h.wf key
  rw [h.get] at h₁
  refine ⟨_, by rw [LearnedMap.remove, h₁]; rfl, h.update hu (s.get_erase key) ?_⟩
  rw [s.len_erase, h.len]

/-- **One operation is one step of the reference map.** -/
theorem step [LawfulKey K] (h : Refines m s) (op : Op K V) :
    ∃ m', m.step op = some (m', (refStep s op).2) ∧ Refines m' (refStep s op).1 := by
  cases op with
  | insert key value =>
    obtain ⟨m', h₁, h₂⟩ := h.insert key value
    exact ⟨m', by rw [LearnedMap.step, h₁]; rfl, h₂⟩
  | remove key =>
    obtain ⟨m', h₁, h₂⟩ := h.remove key
    exact ⟨m', by rw [LearnedMap.step, h₁]; rfl, h₂⟩
  | get key =>
    exact ⟨m, by rw [LearnedMap.step, LearnedMap.get, h.get]; rfl, h⟩
  | getOrInsert key value =>
    obtain ⟨m', h₁, h₂⟩ := h.getOrInsert key value
    rw [LearnedMap.step, h₁, refStep]
    cases hk : s.get key with
    | none => rw [hk] at h₂; exact ⟨m', rfl, h₂⟩
    | some v =>
      rw [hk] at h₂
      exact ⟨m', rfl, SortedMap.insert_of_get_eq_some hk ▸ h₂⟩
  | rebuild =>
    obtain ⟨m', h₁, h₂⟩ := h.rebuild
    exact ⟨m', by rw [LearnedMap.step, h₁]; rfl, h₂⟩
  | drain =>
    refine ⟨_, by rw [LearnedMap.step, LearnedMap.drain, h.sortedPairs]; rfl, ?_⟩
    have hlen : m.len - s.toList.length = 0 := by rw [h.len]; exact Nat.sub_self _
    rw [hlen]
    exact empty h.config _
  | clear =>
    refine ⟨_, by rw [LearnedMap.step, LearnedMap.clear, h.sortedPairs]; rfl, ?_⟩
    have hlen : m.len - s.toList.length = 0 := by rw [h.len]; exact Nat.sub_self _
    rw [hlen]
    exact empty h.config _
  | len => exact ⟨m, by rw [LearnedMap.step, h.len]; rfl, h⟩
  | iter => exact ⟨m, by rw [LearnedMap.step, LearnedMap.iter, h.sortedPairs]; rfl, h⟩
  | firstKeyValue =>
    refine ⟨m, ?_, h⟩
    rw [LearnedMap.step, LearnedMap.firstKeyValue, h.wf.firstEntry_eq, h.entries]
    rfl
  | lastKeyValue =>
    refine ⟨m, ?_, h⟩
    rw [LearnedMap.step, LearnedMap.lastKeyValue, h.wf.lastEntry_eq, h.entries]
    rfl

/-- **A run of operations is a run of the reference map.** -/
theorem run [LawfulKey K] (ops : List (Op K V)) :
    ∀ {m : LearnedMap K V} {s : SortedMap K V}, Refines m s →
      ∃ m', m.run ops = some (m', (refRun s ops).2) ∧ Refines m' (refRun s ops).1 := by
  induction ops with
  | nil => exact fun {m s} h => ⟨m, rfl, h⟩
  | cons op ops ih =>
    intro m s h
    obtain ⟨m₁, h₁, hr₁⟩ := h.step op
    obtain ⟨m₂, h₂, hr₂⟩ := ih hr₁
    refine ⟨m₂, ?_, hr₂⟩
    rw [LearnedMap.run, h₁]
    simp only [Option.bind_eq_bind, Option.bind_some, h₂]
    rfl

end Refines

/-- The tree of a start is well-formed. -/
theorem Starts.root_wf [LawfulKey K] {config : Config} {m : LearnedMap K V}
    {pairs : List (K × V)} (hs : Starts config m pairs) : m.config = config ∧ m.root.WF := by
  cases hs with
  | withConfig => exact ⟨rfl, (Node.withHeader_built ⟨Nat.succ_pos 63, zero_le_one⟩).wf⟩
  | bulk h =>
    obtain ⟨built, hb, h⟩ := Option.bind_eq_some_iff.1 h
    cases built with
    | error e => cases h
    | ok root =>
      cases h
      exact ⟨rfl, (holds_of_bulkLoad (zero_le_one.trans (le_max_right _ _)) hb).wf⟩

/-- Every start is a sorted map. -/
theorem Starts.refines [LawfulKey K] {config : Config} (hc : config.Valid) {m : LearnedMap K V}
    {pairs : List (K × V)} (hs : Starts config m pairs) :
    ∃ s : SortedMap K V, s.toList = pairs ∧ Refines m s := by
  cases hs with
  | withConfig => exact ⟨.empty, rfl, Refines.empty hc _⟩
  | bulk h =>
    have hc' : ({ config with rangeHeadroom := max config.rangeHeadroom 1 } : Config).Valid :=
      ⟨hc.expansion, zero_le_one.trans (le_max_right _ _)⟩
    rw [LearnedMap.bulkLoadWithConfig] at h
    cases hb : bulkLoad { config with rangeHeadroom := max config.rangeHeadroom 1 } pairs with
    | none => rw [hb] at h; cases h
    | some built =>
      rw [hb] at h
      cases built with
      | error e => cases h
      | ok root =>
        cases h
        obtain ⟨hne, hasc⟩ := bulkLoad_ok hb
        obtain ⟨n, h₁, h₂⟩ := bulkLoad_holds hc' hne hasc
        cases hb.symm.trans h₁
        exact ⟨⟨pairs, hasc⟩, rfl, h₂.wf, h₂.get, rfl, hc⟩

/-- **Sequential refinement of a sorted map.**  Every operation returns, and it returns
    what the reference map returns, whatever rebuilds run along the way. -/
theorem run_refines_sortedMap [LawfulKey K] {config : Config} (hc : config.Valid)
    {start : LearnedMap K V} {pairs : List (K × V)} (hs : Starts config start pairs)
    (ops : List (Op K V)) :
    ∃ s : SortedMap K V, s.toList = pairs ∧
      ∃ m, start.run ops = some (m, (refRun s ops).2) := by
  obtain ⟨s, hp, hr⟩ := hs.refines hc
  obtain ⟨m, hm, -⟩ := Refines.run ops hr
  exact ⟨s, hp, m, hm⟩

/-- Two inserts of a byte, a remove of another one, and the listing. -/
theorem run_refines_sortedMap_bytes :
    ∃ m, (LearnedMap.withConfig {} : LearnedMap (Fin (2 ^ 8)) ℕ).run
        [.insert ⟨5, by decide⟩ 1, .insert ⟨5, by decide⟩ 2, .insert ⟨3, by decide⟩ 4,
          .remove ⟨7, by decide⟩, .len, .iter] =
      some (m, [.bool true, .bool false, .bool true, .bool false, .size 2,
        .pairs [(⟨3, by decide⟩, 4), (⟨5, by decide⟩, 2)]]) := by
  have := lawfulKey_unsigned (show 8 ≤ 64 by decide)
  have hc : ({} : Config).Valid := ⟨one_le_two, le_rfl⟩
  obtain ⟨s, hs, m, hm⟩ := run_refines_sortedMap (K := Fin (2 ^ 8)) (V := ℕ) hc .withConfig
    [.insert ⟨5, by decide⟩ 1, .insert ⟨5, by decide⟩ 2, .insert ⟨3, by decide⟩ 4,
      .remove ⟨7, by decide⟩, .len, .iter]
  obtain rfl : s = .empty := SortedMap.ext_get fun k => by rw [SortedMap.get, hs]; rfl
  exact ⟨m, hm⟩

end Scry.Index
