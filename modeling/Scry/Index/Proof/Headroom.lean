/-
  Whether a fit leaves the promised headroom.

  All models of a fit are lines through the first key, so that the headroom is left
  exactly by those that are not steeper than the baseline (`leavesHeadroom_iff`).  The
  search takes a steeper candidate exactly if one has fewer conflicts than all lines that
  are not (`tryCandidates_steeper_iff`).
-/
import Scry.Index.Proof.Model

namespace Scry.Index

section Headroom
variable {n size : ℕ} {keyInput : ℕ → ℚ} {gap maxSlope lin : ℚ}

/-- The conflicts of the line of this slope through the first key. -/
def slopeConflicts (n : ℕ) (keyInput : ℕ → ℚ) (size : ℕ) (slope : ℚ) : ℕ :=
  countConflictsFast n keyInput (.new slope (-slope * keyInput 0)) size

/-- The line of this slope with its conflicts. -/
def lineOf (n : ℕ) (keyInput : ℕ → ℚ) (size : ℕ) (slope : ℚ) : LinearModel × ℕ :=
  (.new slope (-slope * keyInput 0), slopeConflicts n keyInput size slope)

/-! ## The search -/

/-- The better of two slopes, the current one if they are equally good. -/
def betterSlope (n : ℕ) (keyInput : ℕ → ℚ) (size : ℕ) (candidate slope : ℚ) : ℚ :=
  if slopeConflicts n keyInput size candidate < slopeConflicts n keyInput size slope then candidate
  else slope

theorem slopeConflicts_betterSlope (candidate slope : ℚ) :
    slopeConflicts n keyInput size (betterSlope n keyInput size candidate slope) =
      min (slopeConflicts n keyInput size candidate) (slopeConflicts n keyInput size slope) := by
  rw [betterSlope]
  split_ifs with h
  · exact (min_eq_left h.le).symm
  · exact (min_eq_right (not_lt.1 h)).symm

theorem tryCandidates_cons (j : ℕ) (js : List ℕ) (slope : ℚ) :
    tryCandidates n keyInput size gap maxSlope (j :: js) (lineOf n keyInput size slope) =
      if j / gap > maxSlope then lineOf n keyInput size slope
      else if slopeConflicts n keyInput size (betterSlope n keyInput size (j / gap) slope) = 0 then
        lineOf n keyInput size (betterSlope n keyInput size (j / gap) slope)
      else tryCandidates n keyInput size gap maxSlope js
        (lineOf n keyInput size (betterSlope n keyInput size (j / gap) slope)) := by
  have hbest : (if slopeConflicts n keyInput size (j / gap) < slopeConflicts n keyInput size slope
      then lineOf n keyInput size (j / gap) else lineOf n keyInput size slope) =
      lineOf n keyInput size (betterSlope n keyInput size (j / gap) slope) := by
    rw [betterSlope]
    split_ifs <;> rfl
  rw [tryCandidates, show slopeConflicts n keyInput size (betterSlope n keyInput size (j / gap) slope) =
    (lineOf n keyInput size (betterSlope n keyInput size (j / gap) slope)).2 from rfl, ← hbest]
  rfl

/-- The search returns a line. -/
theorem tryCandidates_line (js : List ℕ) (slope : ℚ) : ∃ slope',
    tryCandidates n keyInput size gap maxSlope js (lineOf n keyInput size slope) =
      lineOf n keyInput size slope' := by
  induction js generalizing slope with
  | nil => exact ⟨slope, rfl⟩
  | cons j js ih =>
    rw [tryCandidates_cons]
    split_ifs
    · exact ⟨_, rfl⟩
    · exact ⟨_, rfl⟩
    · exact ih _

/-- From a line steeper than `lin` the search returns one. -/
theorem tryCandidates_stays {js : List ℕ} (hjs : ∀ j ∈ js, lin < j / gap)
    {slope : ℚ} (hslope : lin < slope) :
    lin < (tryCandidates n keyInput size gap maxSlope js (lineOf n keyInput size slope)).1.slope := by
  induction js generalizing slope with
  | nil => exact hslope
  | cons j js ih =>
    have hbetter : lin < betterSlope n keyInput size (j / gap) slope := by
      rw [betterSlope]
      split_ifs
      · exact hjs j List.mem_cons_self
      · exact hslope
    rw [tryCandidates_cons]
    split_ifs
    · exact hslope
    · exact hbetter
    · exact ih (fun i hi => hjs i (List.mem_cons_of_mem j hi)) hbetter

/-- Among steeper candidates the search takes one exactly if one has fewer conflicts. -/
theorem tryCandidates_steep {js : List ℕ} (hgap : 0 < gap) (hasc : js.Pairwise (· < ·))
    (hjs : ∀ j ∈ js, lin < j / gap) {slope : ℚ} (hslope : slope ≤ lin) :
    lin < (tryCandidates n keyInput size gap maxSlope js (lineOf n keyInput size slope)).1.slope ↔
      ∃ j ∈ js, (j : ℚ) / gap ≤ maxSlope ∧
        slopeConflicts n keyInput size (j / gap) < slopeConflicts n keyInput size slope := by
  induction js generalizing slope with
  | nil => exact iff_of_false (not_lt.2 hslope) (by rintro ⟨j, hj, -⟩; cases hj)
  | cons j js ih =>
    obtain ⟨hlt, hasc⟩ := List.pairwise_cons.1 hasc
    have hjs' : ∀ i ∈ js, lin < i / gap := fun i hi => hjs i (List.mem_cons_of_mem j hi)
    rw [tryCandidates_cons]
    by_cases hmax : (j : ℚ) / gap > maxSlope
    · -- no later candidate is tried
      rw [if_pos hmax]
      refine iff_of_false (not_lt.2 hslope) ?_
      rintro ⟨i, hi, hle, -⟩
      have hji : (j : ℚ) / gap ≤ i / gap := by
        refine div_le_div_of_nonneg_right ?_ hgap.le
        rcases List.mem_cons.1 hi with rfl | hi
        · exact le_rfl
        · exact_mod_cast (hlt i hi).le
      exact absurd (hji.trans hle) (not_le.2 hmax)
    · rw [if_neg hmax]
      by_cases hbetter : slopeConflicts n keyInput size (j / gap) < slopeConflicts n keyInput size slope
      · have hb : betterSlope n keyInput size (j / gap) slope = j / gap := if_pos hbetter
        rw [hb]
        refine iff_of_true ?_ ⟨j, List.mem_cons_self, not_lt.1 hmax, hbetter⟩
        split_ifs
        · exact hjs j List.mem_cons_self
        · exact tryCandidates_stays hjs' (hjs j List.mem_cons_self)
      · have hb : betterSlope n keyInput size (j / gap) slope = slope := if_neg hbetter
        rw [hb]
        have hcons : (∃ i ∈ j :: js, (i : ℚ) / gap ≤ maxSlope ∧
            slopeConflicts n keyInput size (i / gap) < slopeConflicts n keyInput size slope) ↔
            ∃ i ∈ js, (i : ℚ) / gap ≤ maxSlope ∧
              slopeConflicts n keyInput size (i / gap) < slopeConflicts n keyInput size slope := by
          constructor
          · rintro ⟨i, hi, hle, hc⟩
            rcases List.mem_cons.1 hi with rfl | hi
            · exact absurd hc hbetter
            · exact ⟨i, hi, hle, hc⟩
          · rintro ⟨i, hi, h⟩
            exact ⟨i, List.mem_cons_of_mem j hi, h⟩
        rw [hcons]
        split_ifs with hzero
        · refine iff_of_false (not_lt.2 hslope) ?_
          rintro ⟨i, -, -, hc⟩
          omega
        · exact ih hasc hjs' hslope

/-- A candidate steeper than `lin` is tried and has fewer conflicts than the line of
    slope `slope` and than each candidate that is not steeper. -/
def SteeperWins (n : ℕ) (keyInput : ℕ → ℚ) (size : ℕ) (gap maxSlope lin slope : ℚ) (js : List ℕ) :
    Prop :=
  ∃ j ∈ js, lin < (j : ℚ) / gap ∧ (j : ℚ) / gap ≤ maxSlope ∧
    slopeConflicts n keyInput size (j / gap) < slopeConflicts n keyInput size slope ∧
    ∀ i ∈ js, (i : ℚ) / gap ≤ lin →
      slopeConflicts n keyInput size (j / gap) < slopeConflicts n keyInput size (i / gap)

/-- **The search takes a line steeper than `lin`** exactly if a steeper candidate beats all
    lines that are not. -/
theorem tryCandidates_steeper_iff {js : List ℕ} (hgap : 0 < gap) (hasc : js.Pairwise (· < ·))
    (hlin : lin ≤ maxSlope) {slope : ℚ} (hslope : slope ≤ lin) :
    lin < (tryCandidates n keyInput size gap maxSlope js (lineOf n keyInput size slope)).1.slope ↔
      SteeperWins n keyInput size gap maxSlope lin slope js := by
  induction js generalizing slope with
  | nil => exact iff_of_false (not_lt.2 hslope) (by rintro ⟨j, hj, -⟩; cases hj)
  | cons j js ih =>
    have hpair := hasc
    obtain ⟨hlt, hasc⟩ := List.pairwise_cons.1 hasc
    by_cases hj : (j : ℚ) / gap ≤ lin
    · rw [tryCandidates_cons, if_neg (not_lt.2 (hj.trans hlin))]
      have hbetter : betterSlope n keyInput size (j / gap) slope ≤ lin := by
        rw [betterSlope]
        split_ifs
        · exact hj
        · exact hslope
      have hconf : slopeConflicts n keyInput size (betterSlope n keyInput size (j / gap) slope) =
          min (slopeConflicts n keyInput size (j / gap)) (slopeConflicts n keyInput size slope) :=
        slopeConflicts_betterSlope _ _
      -- what beats both beats the better of them
      have hcons : SteeperWins n keyInput size gap maxSlope lin slope (j :: js) ↔
          SteeperWins n keyInput size gap maxSlope lin
            (betterSlope n keyInput size (j / gap) slope) js := by
        unfold SteeperWins
        rw [hconf]
        constructor
        · rintro ⟨i, hi, hs, hm, hc, hall⟩
          rcases List.mem_cons.1 hi with rfl | hi
          · exact absurd hs (not_lt.2 hj)
          · exact ⟨i, hi, hs, hm, lt_min (hall j List.mem_cons_self hj) hc,
              fun i' hi' => hall i' (List.mem_cons_of_mem j hi')⟩
        · rintro ⟨i, hi, hs, hm, hc, hall⟩
          refine ⟨i, List.mem_cons_of_mem j hi, hs, hm, (lt_min_iff.1 hc).2, fun i' hi' hle => ?_⟩
          rcases List.mem_cons.1 hi' with rfl | hi'
          · exact (lt_min_iff.1 hc).1
          · exact hall i' hi' hle
      rw [hcons]
      split_ifs with hzero
      · refine iff_of_false (not_lt.2 hbetter) ?_
        rintro ⟨i, -, -, -, hc, -⟩
        omega
      · exact ih hasc hbetter
    · have hsteep : ∀ i ∈ j :: js, lin < (i : ℚ) / gap := by
        intro i hi
        refine (not_le.1 hj).trans_le (div_le_div_of_nonneg_right ?_ hgap.le)
        rcases List.mem_cons.1 hi with rfl | hi
        · exact le_rfl
        · exact_mod_cast (hlt i hi).le
      rw [tryCandidates_steep hgap hpair hsteep hslope]
      constructor
      · rintro ⟨i, hi, hm, hc⟩
        exact ⟨i, hi, hsteep i hi, hm, hc, fun i' hi' hle => absurd (hsteep i' hi') (not_lt.2 hle)⟩
      · rintro ⟨i, hi, -, hm, hc, -⟩
        exact ⟨i, hi, hm, hc⟩

end Headroom

/-! ## The fit -/

section Fit
variable {n : ℕ} {keyInput : ℕ → ℚ} {ef hr : ℚ}

/-- The size of the array of a fit. -/
def fmcdSize (n : ℕ) (ef hr : ℚ) : ℕ := (max ⌈n * ef * (1 + hr)⌉ n).toNat

/-- The slope of the baseline. -/
def baseSlope (n : ℕ) (keyInput : ℕ → ℚ) (ef hr : ℚ) : ℚ :=
  ((fmcdSize n ef hr - 1 : ℕ) : ℚ) / ((keyInput (n - 1) - keyInput 0) * (1 + hr))

/-- The slope at which the last key is predicted to the last slot. -/
def edgeSlope (n : ℕ) (keyInput : ℕ → ℚ) (ef hr : ℚ) : ℚ :=
  ((fmcdSize n ef hr - 1 : ℕ) : ℚ) / (keyInput (n - 1) - keyInput 0)

/-- A candidate slope beyond the baseline has fewer conflicts than the baseline and than
    each candidate that is not beyond it. -/
def BeyondBaseline (n : ℕ) (keyInput : ℕ → ℚ) (ef hr : ℚ) : Prop :=
  maxGap n keyInput > epsilon ∧
    SteeperWins n keyInput (fmcdSize n ef hr) (maxGap n keyInput) (edgeSlope n keyInput ef hr)
      (baseSlope n keyInput ef hr) (baseSlope n keyInput ef hr) (List.range' 1 maxFmcdCandidates)

/-- Every input within the headroom gets a position before the end of the array. -/
def LeavesHeadroom (n : ℕ) (keyInput : ℕ → ℚ) (hr : ℚ) (r : FmcdResult) : Prop :=
  ∀ x, keyInput 0 ≤ x → x ≤ keyInput 0 + (1 + hr) * (keyInput (n - 1) - keyInput 0) →
    r.model.slope * x + r.model.intercept ≤ r.arraySize - 1

/-- **A line leaves the headroom** exactly if it is not steeper than the baseline. -/
theorem leavesHeadroom_iff {slope range a : ℚ} {size : ℕ} (hs : 1 ≤ size) (hrange : 0 < range) :
    (∀ x, a ≤ x → x ≤ a + range → slope * x + -slope * a ≤ size - 1) ↔
      slope ≤ ((size - 1 : ℕ) : ℚ) / range := by
  have hcast : ((size - 1 : ℕ) : ℚ) = size - 1 := by rw [Nat.cast_sub hs, Nat.cast_one]
  rw [le_div_iff₀ hrange, hcast]
  constructor
  · intro h
    have hend := h (a + range) (le_add_of_nonneg_right hrange.le) le_rfl
    linarith
  · intro h x hx hx'
    have hsize : (0 : ℚ) ≤ size - 1 := by
      rw [← hcast]
      exact Nat.cast_nonneg _
    have hpos : slope * x + -slope * a = slope * (x - a) := by ring
    rw [hpos]
    rcases le_or_gt 0 slope with h₀ | h₀
    · exact (mul_le_mul_of_nonneg_left (by linarith) h₀).trans h
    · exact (mul_nonpos_of_nonpos_of_nonneg h₀.le (by linarith)).trans hsize

/-- **A fit honours the headroom** exactly if no candidate slope beyond the baseline wins
    the search. -/
theorem fitFmcd_headroom_iff (hn : 2 ≤ n) (heps : epsilon ≤ keyInput (n - 1) - keyInput 0)
    (hef : 1 ≤ ef) (hhr : 0 ≤ hr) :
    ∃ r, fitFmcd n keyInput ef hr = some r ∧
      (LeavesHeadroom n keyInput hr r ↔ ¬ BeyondBaseline n keyInput ef hr) := by
  have hrange : 0 < keyInput (n - 1) - keyInput 0 := epsilon_pos.trans_le heps
  have hmult : (0 : ℚ) < 1 + hr := by linarith
  have heff : 0 < (keyInput (n - 1) - keyInput 0) * (1 + hr) := mul_pos hrange hmult
  have hsize : 1 ≤ fmcdSize n ef hr := by
    rw [fmcdSize]
    omega
  have hline (slope : ℚ) (c : ℕ) : LeavesHeadroom n keyInput hr
      ⟨.new slope (-slope * keyInput 0), fmcdSize n ef hr, c⟩ ↔
        slope ≤ baseSlope n keyInput ef hr := by
    rw [LeavesHeadroom, mul_comm (1 + hr)]
    exact leavesHeadroom_iff hsize heff
  have hbase : baseSlope n keyInput ef hr ≤ edgeSlope n keyInput ef hr := by
    rw [baseSlope, edgeSlope]
    refine div_le_div_of_nonneg_left (Nat.cast_nonneg _) hrange ?_
    exact le_mul_of_one_le_right hrange.le (by linarith)
  unfold fitFmcd
  rw [if_neg (by rintro (h | h); exacts [by omega, absurd hef (not_le.2 h)]), if_neg (by omega)]
  rw [if_neg (by rw [abs_of_pos hrange]; exact not_lt.2 heps)]
  by_cases hzero : slopeConflicts n keyInput (fmcdSize n ef hr) (baseSlope n keyInput ef hr) = 0
  · refine ⟨_, if_pos hzero, ?_⟩
    refine (hline (baseSlope n keyInput ef hr) 0).trans (iff_of_true le_rfl ?_)
    rintro ⟨-, j, -, -, -, hc, -⟩
    omega
  · by_cases hgap : maxGap n keyInput > epsilon
    · obtain ⟨slope, hslope⟩ : ∃ slope, tryCandidates n keyInput (fmcdSize n ef hr)
          (maxGap n keyInput) (edgeSlope n keyInput ef hr) (List.range' 1 maxFmcdCandidates)
          (lineOf n keyInput (fmcdSize n ef hr) (baseSlope n keyInput ef hr)) =
            lineOf n keyInput (fmcdSize n ef hr) slope := tryCandidates_line _ _
      have hasc : (List.range' 1 maxFmcdCandidates).Pairwise (· < ·) := List.pairwise_lt_range'
      have hiff : baseSlope n keyInput ef hr < (tryCandidates n keyInput (fmcdSize n ef hr) _ _ _
          (lineOf n keyInput (fmcdSize n ef hr) (baseSlope n keyInput ef hr))).1.slope ↔ _ :=
        tryCandidates_steeper_iff (epsilon_pos.trans hgap) hasc hbase le_rfl
      rw [hslope] at hiff
      refine ⟨_, (if_neg hzero).trans (congrArg (fun best : LinearModel × ℕ => some (FmcdResult.mk best.1
        (fmcdSize n ef hr) best.2)) ((if_pos hgap).trans hslope)), ?_⟩
      rw [BeyondBaseline, and_iff_right hgap, ← hiff, not_lt]
      exact hline slope _
    · refine ⟨_, (if_neg hzero).trans (congrArg (fun best : LinearModel × ℕ => some (FmcdResult.mk best.1
        (fmcdSize n ef hr) best.2)) (if_neg hgap)), ?_⟩
      exact (hline (baseSlope n keyInput ef hr) _).trans (iff_of_true le_rfl fun h => hgap h.1)

/-- Without headroom the baseline goes to the edge, and no candidate is beyond it. -/
theorem not_beyondBaseline_zero : ¬ BeyondBaseline n keyInput ef 0 := by
  rintro ⟨-, j, -, hlt, hle, -⟩
  have hedge : baseSlope n keyInput ef 0 = edgeSlope n keyInput ef 0 := by
    rw [baseSlope, edgeSlope, add_zero, mul_one]
  exact absurd hle (not_le.2 (hedge ▸ hlt))

/-- Two keys. -/
def twoInputs : ℕ → ℚ := fun i => i

theorem fitFmcd_headroom_iff_two : ∃ r, fitFmcd 2 twoInputs 2 1 = some r ∧
    (LeavesHeadroom 2 twoInputs 1 r ↔ ¬ BeyondBaseline 2 twoInputs 2 1) :=
  fitFmcd_headroom_iff le_rfl (by norm_num [twoInputs, epsilon]) one_le_two zero_le_one

/-- Three keys, the last one far from the others. -/
def farInputs : ℕ → ℚ
  | 0 => 0
  | 1 => 1
  | _ => 12

/-- **A fit gives up its headroom** for one conflict less: the end of the promised range,
    at 24, has a position beyond the array of 12 slots. -/
theorem farInputs_beyond : ∃ r, fitFmcd 3 farInputs 2 1 = some r ∧ r.arraySize = 12 ∧
    r.model.slope * 24 + r.model.intercept > 12 ∧ ¬ LeavesHeadroom 3 farInputs 1 r := by
  have h : (fitFmcd 3 farInputs 2 1).map (fun r => (r.model.slope, r.model.intercept, r.arraySize)) =
      some (6 / 11, 0, 12) := by decide +kernel
  obtain ⟨r, hr, he⟩ := Option.map_eq_some_iff.1 h
  obtain ⟨hslope, he⟩ := Prod.mk.inj he
  obtain ⟨hintercept, hsize⟩ := Prod.mk.inj he
  refine ⟨r, hr, hsize, by rw [hslope, hintercept]; norm_num, fun hl => ?_⟩
  have hend := hl 24 (by norm_num [farInputs]) (by norm_num [farInputs])
  rw [hslope, hintercept, hsize] at hend
  norm_num at hend

end Fit

end Scry.Index
