/-
  Automatic root rebuilds are amortised linear.

  The cost of a run is what its snapshots re-insert.  It never exceeds the size at which
  the next rebuild is due (`Amortised`), and a rebuild at a size doubles that size.
-/
import Scry.Lib.Run
import Scry.Index.Depth
import Scry.Index.Proof.Map

namespace Scry.Index

/-- All operations but those that rebuild or empty the map. -/
def Op.keepsSchedule {K V : Type} : Op K V → Bool
  | .rebuild => false
  | .drain => false
  | .clear => false
  | _ => true

/-- What the automatic root rebuilds of a run have cost. -/
structure Cost where
  /-- the pairs that were re-inserted -/
  total : ℕ
  /-- the largest length before an operation -/
  maxLen : ℕ

namespace LearnedMap
variable {K V : Type} [LinearOrder K] [Key K]

/-! ## Costs -/

omit [LinearOrder K] [Key K] in
/-- The size of the snapshot that `maybe_rebuild_root` takes. -/
def snapshotSize (m : LearnedMap K V) (currentLen : ℕ) : ℕ :=
  if ¬ m.config.autoRebuild then 0
  else if currentLen < m.nextRootRebuild then 0
  else m.root.sortedPairs.length

omit [LinearOrder K] [Key K] in
/-- That of an insert, which left this root. -/
def countNewCost (m : LearnedMap K V) (root : Node K V) (isNew : Bool) : ℕ :=
  if isNew then snapshotSize { m with root := root, len := m.len + 1 } (m.len + 1) else 0

/-- That of an operation. -/
def rebuildCost (m : LearnedMap K V) : Op K V → ℕ
  | .insert key value =>
    ((Index.insert m.config m.root key value).map fun r =>
      m.countNewCost r.1 (decide (r.2 = .inserted))).getD 0
  | .getOrInsert key value =>
    ((Index.getOrInsert m.config m.root key value).map fun r =>
      m.countNewCost r.1 (decide (r.2.2 = .inserted))).getD 0
  | _ => 0

def noteCost (m : LearnedMap K V) (c : Cost) (op : Op K V) : Cost :=
  ⟨c.total + m.rebuildCost op, max c.maxLen m.len⟩

/-! ## The schedule -/

/-- What an operation does to the schedule: nothing, or it re-inserts all pairs and the next
    rebuild is due at twice their number. -/
def Scheduled (m m' : LearnedMap K V) (cost : ℕ) : Prop :=
  (cost = 0 ∧ m'.nextRootRebuild = m.nextRootRebuild) ∨
    (cost = m'.len ∧ m.nextRootRebuild ≤ m'.len ∧
      m'.nextRootRebuild = saturatingMul m'.len rootRebuildGrowthFactor)

variable [LawfulKey K] {m m' : LearnedMap K V} {s : SortedMap K V}

theorem maybeRebuildRoot_scheduled (h : Refines m s) (hpos : 0 < m.len)
    (hm : m.maybeRebuildRoot m.len = some m') : Scheduled m m' (m.snapshotSize m.len) := by
  have hlen : m.root.sortedPairs.length = m.len := by rw [h.sortedPairs, h.len]; rfl
  unfold maybeRebuildRoot at hm
  unfold snapshotSize
  by_cases hauto : m.config.autoRebuild
  · rw [if_neg (not_not.2 hauto)] at hm ⊢
    by_cases hlt : m.len < m.nextRootRebuild
    · rw [if_pos hlt] at hm ⊢
      cases hm
      exact Or.inl ⟨rfl, rfl⟩
    · rw [if_neg hlt] at hm ⊢
      have hne : m.root.sortedPairs ≠ [] := List.length_pos_iff_ne_nil.1 (hlen ▸ hpos)
      have hc : ({ m.config with rangeHeadroom := 1 } : Config).Valid :=
        ⟨h.config.expansion, zero_le_one⟩
      have hasc : Ascending m.root.sortedPairs := h.sortedPairs ▸ s.ascending
      obtain ⟨n, hload, -⟩ := bulkLoad_holds hc hne hasc
      rw [rebuild, if_neg (by simpa using hne)] at hm
      dsimp only at hm
      rw [hload] at hm
      cases hm
      exact Or.inr ⟨hlen, not_lt.1 hlt, by rw [hlen]⟩
  · rw [if_pos hauto] at hm ⊢
    cases hm
    exact Or.inl ⟨rfl, rfl⟩

theorem countNew_scheduled (h : Refines m s) {root : Node K V} {key : K} {value : V}
    (hu : Updates m.root root key (some value)) {isNew : Bool} (hnew : isNew = (s.get key).isNone)
    (hm : countNew { m with root := root } isNew = some m') :
    Scheduled m m' (m.countNewCost root isNew) := by
  have hlen := s.len_insert key value
  unfold countNew at hm
  unfold countNewCost
  cases hk : s.get key with
  | some v =>
    rw [hk] at hnew
    subst hnew
    cases hm
    exact Or.inl ⟨rfl, rfl⟩
  | none =>
    rw [hk] at hnew hlen
    subst hnew
    have h' : Refines { m with root := root, len := m.len + 1 } (s.insert key value) :=
      h.update hu (s.get_insert key value) (by rw [hlen, h.len]; rfl)
    exact maybeRebuildRoot_scheduled h' (Nat.succ_pos _) hm

/-- **An operation costs nothing or what the schedule allows.** -/
theorem act_scheduled (h : Refines m s) {op : Op K V} (hop : op.keepsSchedule) :
    ∃ m', m.act op = some m' ∧ (∃ s', Refines m' s') ∧ Scheduled m m' (m.rebuildCost op) := by
  cases op with
  | insert key value =>
    obtain ⟨root, hins, hu⟩ := insert_updates h.config h.wf key value
    obtain ⟨m', hcount, hr⟩ := h.countNew hu _ rfl
    rw [← h.get, ← Refines.isNew_iff] at hcount
    refine ⟨m', ?_, ⟨_, hr⟩, ?_⟩
    · rw [act, step, LearnedMap.insert, hins]
      simp only [Option.bind_eq_bind, Option.bind_some, hcount]
      rfl
    · rw [rebuildCost, hins]
      exact countNew_scheduled h hu (by rw [Refines.isNew_iff, h.get]) hcount
  | getOrInsert key value =>
    obtain ⟨root, hins, hu⟩ := getOrInsert_updates h.config h.wf key value
    obtain ⟨m', hcount, hr⟩ := h.countNew hu _ rfl
    rw [← h.get, ← Refines.isNew_iff] at hcount
    refine ⟨m', ?_, ⟨_, hr⟩, ?_⟩
    · rw [act, step, LearnedMap.getOrInsert, hins]
      simp only [Option.bind_eq_bind, Option.bind_some, hcount]
      rfl
    · rw [rebuildCost, hins]
      exact countNew_scheduled h hu (by rw [Refines.isNew_iff, h.get]) hcount
  | remove key =>
    obtain ⟨root, hrem, -⟩ := remove_updates h.config h.wf key
    obtain ⟨m', hm', hr⟩ := h.remove key
    refine ⟨m', by rw [act, step, hm']; rfl, ⟨_, hr⟩, Or.inl ⟨rfl, ?_⟩⟩
    rw [h.get] at hrem
    rw [LearnedMap.remove, hrem] at hm'
    cases hm'
    rfl
  | get | len | iter | firstKeyValue | lastKeyValue =>
    exact ⟨m, rfl, ⟨s, h⟩, Or.inl ⟨rfl, rfl⟩⟩
  | rebuild | drain | clear => cases hop

/-! ## Runs -/

/-- The largest length of a run so far. -/
def reached (p : LearnedMap K V × Cost) : ℕ := max p.2.maxLen p.1.len

/-- The cost of a run: unless the counter is about to overflow, it exceeds neither twice the
    largest length nor the length at which the next rebuild is due. -/
structure Amortised (p : LearnedMap K V × Cost) : Prop where
  refines : ∃ s, Refines p.1 s
  bound : reached p < 2 ^ 64 - 1 → p.2.total ≤ 2 * reached p ∧
    (p.2.total ≤ p.1.nextRootRebuild ∨ p.1.nextRootRebuild = 2 ^ 64 - 1)

theorem Amortised.act {p : LearnedMap K V × Cost} (h : Amortised p) {op : Op K V}
    (hop : op.keepsSchedule) :
    ∃ p', Run.recording LearnedMap.act noteCost p op = some p' ∧ Amortised p' := by
  obtain ⟨s, hs⟩ := h.refines
  obtain ⟨m', hact, hr, hsched⟩ := act_scheduled hs hop
  refine ⟨(m', noteCost p.1 p.2 op), Run.recording_eq_some.2 ⟨hact, rfl⟩, hr, fun hmax => ?_⟩
  have hreached : reached (m', noteCost p.1 p.2 op) = max (reached p) m'.len := rfl
  have htotal : (noteCost p.1 p.2 op).total = p.2.total + p.1.rebuildCost op := rfl
  rw [hreached] at hmax ⊢
  rw [htotal]
  obtain ⟨hle, hnext⟩ := h.bound (by omega)
  rcases hsched with ⟨hzero, hsame⟩ | ⟨hcost, hdue, hdouble⟩
  · rw [hzero, hsame]
    exact ⟨by omega, hnext⟩
  · -- the cost so far is at most the length, which is at most what is re-inserted
    rw [hcost, hdouble, saturatingMul, rootRebuildGrowthFactor]
    have : p.2.total ≤ m'.len := by omega
    constructor <;> omega

/-- **Automatic root rebuilds are amortised linear**: what the snapshots of a run re-insert
    is at most twice the largest length of the map. -/
theorem run_amortised {config : Config} (hc : config.Valid) {ops : List (Op K V)}
    (hops : ∀ op ∈ ops, op.keepsSchedule) :
    ∃ p, ops.foldlM (Run.recording LearnedMap.act noteCost) (withConfig config, ⟨0, 0⟩) = some p ∧
      (reached p < 2 ^ 64 - 1 → p.2.total ≤ 2 * reached p) := by
  have hstart : Amortised ((withConfig config, ⟨0, 0⟩) : LearnedMap K V × Cost) :=
    ⟨⟨_, Refines.empty hc _⟩, fun _ => ⟨Nat.zero_le _, Or.inl (Nat.zero_le _)⟩⟩
  obtain ⟨p, hrun, hp⟩ := Run.run_total (fun h hop => h.act hop) hstart hops
  exact ⟨p, hrun, fun hmax => (hp.bound hmax).1⟩

end LearnedMap

/-- All bytes one after the other, with rebuilds at 64, 128 and 256 of them. -/
theorem run_amortised_bytes :
    ∃ p : LearnedMap (Fin (2 ^ 8)) Unit × Cost,
      ((List.finRange (2 ^ 8)).map fun k => Op.insert k ()).foldlM
        (Run.recording LearnedMap.act LearnedMap.noteCost) (.withConfig {}, ⟨0, 0⟩) = some p ∧
      (LearnedMap.reached p < 2 ^ 64 - 1 → p.2.total ≤ 2 * LearnedMap.reached p) := by
  have := lawfulKey_unsigned (show 8 ≤ 64 by decide)
  refine LearnedMap.run_amortised (show ({} : Config).Valid from ⟨one_le_two, le_rfl⟩) fun op hop => ?_
  obtain ⟨k, -, rfl⟩ := List.mem_map.1 hop
  rfl

end Scry.Index
