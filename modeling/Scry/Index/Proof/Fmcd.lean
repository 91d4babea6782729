/-
  What a fit reports is true of the model that it returns.

  The search counts conflicts between neighbours.  Slots ascend with the inputs, so this
  is the number of inputs less that of the slots that are taken (`countConflictsFast_add_card`),
  which is also what a count over all slots finds (`countConflicts_add_card`).
-/
import Scry.Index.Proof.Build
import Scry.Index.Proof.Headroom

namespace Scry.Index

section Count
variable {n : ℕ} {keyInput : ℕ → ℚ} {model : LinearModel} {arraySize : ℕ}

/-! ## Conflicts -/

/-- Count the keys whose slot is already occupied, for keys in any order. -/
def countConflicts (n : ℕ) (keyInput : ℕ → ℚ) (model : LinearModel) (arraySize : ℕ) : ℕ :=
  ((List.range n).foldl (fun (acc : Finset ℕ × ℕ) i =>
    let slot := model.predictRaw (keyInput i) arraySize
    if slot ∈ acc.1 then (acc.1, acc.2 + 1) else (Insert.insert slot acc.1, acc.2)) (∅, 0)).2

/-- The slots that the inputs are predicted to. -/
def slotsTaken (n : ℕ) (keyInput : ℕ → ℚ) (model : LinearModel) (arraySize : ℕ) : Finset ℕ :=
  (Finset.range n).image fun i => model.predictRaw (keyInput i) arraySize

theorem slotsTaken_succ (n : ℕ) : slotsTaken (n + 1) keyInput model arraySize =
    Insert.insert (model.predictRaw (keyInput n) arraySize) (slotsTaken n keyInput model arraySize) := by
  rw [slotsTaken, Finset.range_add_one, Finset.image_insert]
  rfl

/-- **The full count**: each input is in conflict or takes a slot of its own. -/
theorem countConflicts_add_card (n : ℕ) : countConflicts n keyInput model arraySize +
    (slotsTaken n keyInput model arraySize).card = n := by
  suffices h : ((List.range n).foldl (fun (acc : Finset ℕ × ℕ) i =>
      let slot := model.predictRaw (keyInput i) arraySize
      if slot ∈ acc.1 then (acc.1, acc.2 + 1) else (Insert.insert slot acc.1, acc.2)) (∅, 0)) =
        (slotsTaken n keyInput model arraySize,
          n - (slotsTaken n keyInput model arraySize).card) by
    have hle : (slotsTaken n keyInput model arraySize).card ≤ n :=
      Finset.card_image_le.trans (Finset.card_range n).le
    rw [countConflicts, h]
    exact Nat.sub_add_cancel hle
  induction n with
  | zero => rfl
  | succ n ih =>
    have hle : (slotsTaken n keyInput model arraySize).card ≤ n :=
      Finset.card_image_le.trans (Finset.card_range n).le
    rw [List.range_succ, List.foldl_append, ih, slotsTaken_succ]
    simp only [List.foldl_cons, List.foldl_nil]
    split_ifs with hmem
    · rw [Finset.insert_eq_of_mem hmem, Nat.sub_add_comm hle]
    · rw [Finset.card_insert_of_notMem hmem, Nat.add_sub_add_right]

theorem countConflictsFast_succ (n : ℕ) : countConflictsFast (n + 2) keyInput model arraySize =
    countConflictsFast (n + 1) keyInput model arraySize +
      if model.predictRaw (keyInput (n + 1)) arraySize = model.predictRaw (keyInput n) arraySize
      then 1 else 0 := by
  rw [countConflictsFast, show n + 2 - 1 = n + 1 by omega, List.range_succ, List.filter_append,
    List.length_append]
  congr 1
  by_cases h : model.predictRaw (keyInput (n + 1)) arraySize = model.predictRaw (keyInput n) arraySize
  · rw [if_pos h, List.filter_singleton, decide_eq_true h]
    rfl
  · rw [if_neg h, List.filter_singleton, decide_eq_false h]
    rfl

/-- **The count of neighbours** finds all conflicts of sorted inputs. -/
theorem countConflictsFast_add_card (hm : 0 ≤ model.slope) (hk : InputsSorted n keyInput)
    (hn : 0 < n) : countConflictsFast n keyInput model arraySize +
      (slotsTaken n keyInput model arraySize).card = n := by
  induction n with
  | zero => omega
  | succ n ih =>
    cases n with
    | zero => rfl
    | succ n =>
      have ih := ih (fun i j hij hj => hk i j hij (by omega)) (Nat.succ_pos n)
      rw [countConflictsFast_succ, slotsTaken_succ]
      have hmem : model.predictRaw (keyInput n) arraySize ∈
          slotsTaken (n + 1) keyInput model arraySize :=
        Finset.mem_image_of_mem _ (Finset.mem_range.2 (Nat.lt_succ_self n))
      split_ifs with heq
      · rw [heq, Finset.insert_eq_of_mem hmem]
        omega
      · -- the last slot is beyond those of all inputs before
        have hlt : model.predictRaw (keyInput n) arraySize <
            model.predictRaw (keyInput (n + 1)) arraySize :=
          lt_of_le_of_ne (LinearModel.predictRaw_mono hm (hk _ _ (by omega) (by omega)) _)
            (Ne.symm heq)
        have hnew : model.predictRaw (keyInput (n + 1)) arraySize ∉
            slotsTaken (n + 1) keyInput model arraySize := by
          intro h
          obtain ⟨i, hi, he⟩ := Finset.mem_image.1 h
          have hi : i ≤ n := Nat.lt_succ_iff.1 (Finset.mem_range.1 hi)
          have := LinearModel.predictRaw_mono hm (hk i n hi (by omega)) arraySize
          omega
        rw [Finset.card_insert_of_notMem hnew]
        omega

/-- Of sorted inputs both counts find the same. -/
theorem countConflictsFast_eq (hm : 0 ≤ model.slope) (hk : InputsSorted n keyInput) (hn : 0 < n) :
    countConflictsFast n keyInput model arraySize = countConflicts n keyInput model arraySize := by
  have h₁ : countConflictsFast n keyInput model arraySize +
      (slotsTaken n keyInput model arraySize).card = n := countConflictsFast_add_card hm hk hn
  have h₂ : countConflicts n keyInput model arraySize +
      (slotsTaken n keyInput model arraySize).card = n := countConflicts_add_card n
  omega

end Count

/-! ## The fit -/

section Fit
variable {n : ℕ} {keyInput : ℕ → ℚ} {ef hr : ℚ} {r : FmcdResult}

/-- The search only takes what has fewer conflicts. -/
theorem tryCandidates_le {size : ℕ} {gap maxSlope : ℚ} (js : List ℕ) (best : LinearModel × ℕ) :
    (tryCandidates n keyInput size gap maxSlope js best).2 ≤ best.2 := by
  induction js generalizing best with
  | nil => exact le_rfl
  | cons j js ih =>
    rw [tryCandidates]
    dsimp only
    split_ifs with h₁ h₂ h₃ h₃
    · exact le_rfl
    · exact h₂.le
    · exact (ih _).trans h₂.le
    · exact le_rfl
    · exact ih _

/-- Plain linear interpolation. -/
def linearModel (n : ℕ) (keyInput : ℕ → ℚ) (ef hr : ℚ) : LinearModel :=
  .new (baseSlope n keyInput ef hr) (-baseSlope n keyInput ef hr * keyInput 0)

theorem le_fmcdSize (n : ℕ) (ef hr : ℚ) : n ≤ fmcdSize n ef hr := by
  rw [fmcdSize]
  omega

/-- A model that maps all inputs to one slot. -/
theorem countConflictsFast_flat (intercept : ℚ) (size : ℕ) :
    countConflictsFast n keyInput (.new 0 intercept) size = n - 1 := by
  rw [countConflictsFast, List.filter_eq_self.2, List.length_range]
  intro i _
  simp [LinearModel.predictRaw, LinearModel.new]

/-- What a fit returns on each of its ways: the array is large enough, the conflicts are
    those of its model, and no more than those of linear interpolation. -/
structure Reported (n : ℕ) (keyInput : ℕ → ℚ) (ef hr : ℚ) (r : FmcdResult) : Prop where
  size : n ≤ r.arraySize
  counted : r.conflicts = countConflictsFast n keyInput r.model r.arraySize
  baseline : 2 ≤ n → epsilon ≤ |keyInput (n - 1) - keyInput 0| → r.arraySize = fmcdSize n ef hr ∧
    r.conflicts ≤ countConflictsFast n keyInput (linearModel n keyInput ef hr) (fmcdSize n ef hr)

theorem fitFmcd_reported (h : fitFmcd n keyInput ef hr = some r) : Reported n keyInput ef hr r := by
  unfold fitFmcd at h
  by_cases h0 : n = 0 ∨ ef < 1
  · rw [if_pos h0] at h
    cases h
  rw [if_neg h0] at h
  by_cases h1 : n = 1
  · rw [if_pos h1] at h
    cases h
    subst h1
    exact ⟨le_rfl, rfl, fun hn => by omega⟩
  rw [if_neg h1] at h
  have hn2 : 2 ≤ n := by omega
  by_cases heps : |keyInput (n - 1) - keyInput 0| < epsilon
  · rw [if_pos heps] at h
    cases h
    exact ⟨le_fmcdSize n ef hr, (countConflictsFast_flat _ _).symm, fun _ hle =>
      absurd heps (not_lt.2 hle)⟩
  rw [if_neg heps] at h
  set size := fmcdSize n ef hr with hsize
  set base := baseSlope n keyInput ef hr with hbase
  -- all ways on return a line through the first key that the search found no worse
  have line : ∀ slope, slopeConflicts n keyInput size slope ≤ slopeConflicts n keyInput size base →
      Reported n keyInput ef hr ⟨(lineOf n keyInput size slope).1, size,
        (lineOf n keyInput size slope).2⟩ := fun slope hle =>
    ⟨le_fmcdSize n ef hr, rfl, fun _ _ => ⟨rfl, hle⟩⟩
  replace h : (if slopeConflicts n keyInput size base = 0 then
      some ⟨(lineOf n keyInput size base).1, size, 0⟩
    else some ⟨(if maxGap n keyInput > epsilon then tryCandidates n keyInput size (maxGap n keyInput)
      (edgeSlope n keyInput ef hr) (List.range' 1 maxFmcdCandidates) (lineOf n keyInput size base)
      else lineOf n keyInput size base).1, size, (if maxGap n keyInput > epsilon then
        tryCandidates n keyInput size (maxGap n keyInput) (edgeSlope n keyInput ef hr)
          (List.range' 1 maxFmcdCandidates) (lineOf n keyInput size base)
      else lineOf n keyInput size base).2⟩) = some r := h
  split_ifs at h with hzero hgap
  · cases h
    have hrep := line base le_rfl
    rwa [show (lineOf n keyInput size base).2 = 0 from hzero] at hrep
  · obtain ⟨slope, hslope⟩ : ∃ slope, tryCandidates n keyInput size (maxGap n keyInput)
        (edgeSlope n keyInput ef hr) (List.range' 1 maxFmcdCandidates) (lineOf n keyInput size base) =
          lineOf n keyInput size slope := tryCandidates_line _ _
    have hle : (tryCandidates n keyInput size (maxGap n keyInput) (edgeSlope n keyInput ef hr)
        (List.range' 1 maxFmcdCandidates) (lineOf n keyInput size base)).2 ≤
          (lineOf n keyInput size base).2 := tryCandidates_le _ _
    rw [hslope] at h hle
    cases h
    exact line slope hle
  · cases h
    exact line base le_rfl

/-- The truth about a fit: it leaves room for all keys, its slope is not negative, its
    conflicts are those that a count over all slots finds, no more than those of linear
    interpolation, and a leaf that is built on a fit without conflicts has a slot for each
    pair. -/
structure Truthful (n : ℕ) (keyInput : ℕ → ℚ) (ef hr : ℚ) (r : FmcdResult) : Prop where
  size : n ≤ r.arraySize
  slope : 0 ≤ r.model.slope
  distinct : r.conflicts = n - (slotsTaken n keyInput r.model r.arraySize).card
  full : r.conflicts = countConflicts n keyInput r.model r.arraySize
  baseline : 2 ≤ n → epsilon ≤ |keyInput (n - 1) - keyInput 0| → r.arraySize = fmcdSize n ef hr ∧
    r.conflicts ≤ countConflicts n keyInput (linearModel n keyInput ef hr) r.arraySize
  leaf {K V : Type} [LinearOrder K] [Key K] (pairs : List (K × V)) : pairs.length = n →
    (∀ i, i < n → Index.keyInput pairs i = keyInput i) → r.conflicts = 0 →
      (pairs.map fun p => (Node.withCapacity r.model r.arraySize : Node K V).predictSlot p.1).Nodup

/-- The baseline is not descending. -/
theorem linearModel_slope (hk : InputsSorted n keyInput) (hn : 0 < n) (hhr : 0 ≤ hr) :
    0 ≤ (linearModel n keyInput ef hr).slope := by
  have hrange : 0 ≤ keyInput (n - 1) - keyInput 0 :=
    sub_nonneg.2 (hk 0 (n - 1) (Nat.zero_le _) (by omega))
  exact div_nonneg (Nat.cast_nonneg _) (mul_nonneg hrange (by linarith))

section Leaf
variable {K V : Type} [LinearOrder K] [Key K] {pairs : List (K × V)}

/-- The slots of a node without conflicts. -/
theorem predictSlot_nodup (hfit : Fits n keyInput r) (hlen : pairs.length = n)
    (hin : ∀ i, i < n → Index.keyInput pairs i = keyInput i)
    (hfull : countConflicts n keyInput r.model r.arraySize = 0) :
    (pairs.map fun p =>
      (Node.withCapacity r.model r.arraySize : Node K V).predictSlot p.1).Nodup := by
  have hcount : countConflicts n keyInput r.model r.arraySize +
      (slotsTaken n keyInput r.model r.arraySize).card = n := countConflicts_add_card n
  have hcard : (slotsTaken n keyInput r.model r.arraySize).card = (Finset.range n).card := by
    rw [Finset.card_range]
    omega
  have hinj := Finset.card_image_iff.1 hcard
  have hslot (i : ℕ) (hi : i < pairs.length) :
      (Node.withCapacity r.model r.arraySize : Node K V).predictSlot pairs[i].1 =
        r.model.predictRaw (keyInput i) r.arraySize := by
    rw [← hin i (hlen ▸ hi), keyInput_eq hi]
    simp only [Node.withCapacity, Node.withHeader, Node.predictSlot, Header.predictSlot,
      LinearModel.predict, hfit.midpoint]
  rw [List.Nodup, List.pairwise_map, List.pairwise_iff_getElem]
  intro i j hi hj hij heq
  rw [hslot i hi, hslot j hj] at heq
  have := hinj (Finset.mem_coe.2 (Finset.mem_range.2 (hlen ▸ hi)))
    (Finset.mem_coe.2 (Finset.mem_range.2 (hlen ▸ hj))) heq
  omega

end Leaf

/-- **A fit reports the truth** about the model that it returns. -/
theorem fitFmcd_truthful (hk : InputsSorted n keyInput) (hn : 0 < n) (hef : 1 ≤ ef) (hhr : 0 ≤ hr) :
    ∃ r, fitFmcd n keyInput ef hr = some r ∧ Truthful n keyInput ef hr r := by
  obtain ⟨r, h, hfit⟩ := fitFmcd_fits hk hn hef hhr
  have hrep := fitFmcd_reported h
  have hcount : countConflictsFast n keyInput r.model r.arraySize =
      countConflicts n keyInput r.model r.arraySize := countConflictsFast_eq hfit.slope_nonneg hk hn
  have htaken : countConflicts n keyInput r.model r.arraySize +
      (slotsTaken n keyInput r.model r.arraySize).card = n := countConflicts_add_card n
  have hfull := hrep.counted.trans hcount
  refine ⟨r, h, hrep.size, hfit.slope_nonneg, by omega, hfull, fun h2 heps => ?_,
    fun pairs hlen hin hc => predictSlot_nodup hfit hlen hin (hfull ▸ hc)⟩
  obtain ⟨hsize, hle⟩ := hrep.baseline h2 heps
  refine ⟨hsize, hle.trans ?_⟩
  rw [hsize]
  exact (countConflictsFast_eq (linearModel_slope hk hn hhr) hk hn).le

theorem fitFmcd_truthful_two :
    ∃ r, fitFmcd 2 twoInputs 2 1 = some r ∧ Truthful 2 twoInputs 2 1 r := by
  refine fitFmcd_truthful ?_ Nat.zero_lt_two one_le_two zero_le_one
  intro i j hij _
  exact Nat.cast_le.2 hij

end Fit

end Scry.Index
