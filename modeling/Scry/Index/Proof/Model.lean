/-
  Proofs about the linear models: predictions are monotone and inside the array, FMCD
  separates the first key from the last, and midpoints separate ordinals.
-/
import Scry.Index.Node

namespace Scry.Index

/-! ## Keys -/

/-- The integers of at most 64 bits keep the contract of `Key`. -/
theorem lawfulKey_unsigned {w : ℕ} (hw : w ≤ 64) : LawfulKey (Fin (2 ^ w)) := by
  have hlt : ∀ a : Fin (2 ^ w), (a.val : ℤ) < 2 ^ 64 := fun a => by
    exact_mod_cast a.isLt.trans_le (Nat.pow_le_pow_right Nat.two_pos hw)
  refine ⟨fun a b hab => ?_, fun a b hab => ?_, fun a => ?_, fun a b _ => ?_⟩
  · show (a.val : ℚ) ≤ b.val
    exact_mod_cast hab
  · show (a.val : ℤ) ≤ b.val
    exact_mod_cast hab
  · show -2 ^ 127 ≤ (a.val : ℤ) ∧ (a.val : ℤ) < 2 ^ 127
    have := hlt a
    omega
  · show |(b.val : ℤ) - a.val| < 2 ^ 127
    have ha := hlt a
    have hb := hlt b
    rw [abs_lt]
    omega

theorem LawfulKey.monotone {K : Type} [LinearOrder K] [Key K] [LawfulKey K] :
    Monotone (Key.toModelInput : K → ℚ) := fun a b => modelInput_mono a b

/-- The contract of `Key` without a bound on how far ordinals are apart. -/
structure KeyContract (K : Type) [LinearOrder K] [Key K] : Prop where
  modelInput_mono : Monotone (Key.toModelInput : K → ℚ)
  ordinal_mono : Monotone (Key.toExactOrdinal : K → ℤ)
  ordinal_range (a : K) : -2 ^ 127 ≤ Key.toExactOrdinal a ∧ Key.toExactOrdinal a < 2 ^ 127

theorem LawfulKey.contract {K : Type} [LinearOrder K] [Key K] [LawfulKey K] : KeyContract K :=
  ⟨monotone, fun a b => ordinal_mono a b, ordinal_range⟩

/-! ## Rounding and prediction -/

theorem roundAway_nonneg {x : ℚ} (hx : 0 ≤ x) : roundAway x = ⌊x + 1 / 2⌋ :=
  if_neg (not_lt.2 hx)

theorem roundAway_nonpos {x : ℚ} (hx : x < 0) : roundAway x ≤ 0 := by
  rw [roundAway, if_pos hx]
  have : 0 ≤ ⌊-x + 1 / 2⌋ := Int.floor_nonneg.2 (by linarith)
  omega

/-- Below zero all positions are clamped to slot 0. -/
theorem roundAway_mono {x y : ℚ} (hxy : x ≤ y) : max (roundAway x) 0 ≤ max (roundAway y) 0 := by
  by_cases hx : x < 0
  · rw [max_eq_right (roundAway_nonpos hx)]
    exact le_max_right _ _
  · have hx := not_lt.1 hx
    rw [roundAway_nonneg hx, roundAway_nonneg (hx.trans hxy)]
    exact max_le_max (Int.floor_le_floor (by linarith)) le_rfl

theorem one_le_roundAway {x : ℚ} (hx : 1 ≤ x) : 1 ≤ roundAway x := by
  rw [roundAway_nonneg (by linarith)]
  exact Int.le_floor.2 (by push_cast; linarith)

namespace LinearModel
variable {m : LinearModel}

theorem predictRaw_lt (v : ℚ) {size : ℕ} (hs : 0 < size) : m.predictRaw v size < size := by
  simp only [predictRaw]
  omega

theorem predictRaw_mono (hm : 0 ≤ m.slope) {v w : ℚ} (hvw : v ≤ w) (size : ℕ) :
    m.predictRaw v size ≤ m.predictRaw w size := by
  have h : m.slope * v + m.intercept ≤ m.slope * w + m.intercept := by
    have := mul_le_mul_of_nonneg_left hvw hm
    linarith
  exact min_le_min (Int.toNat_le_toNat (roundAway_mono h)) le_rfl

/-- The model whose line passes through zero at `first`. -/
theorem predictRaw_first (slope first : ℚ) (size : ℕ) :
    (new slope (-slope * first)).predictRaw first size = 0 := by
  have h : slope * first + -slope * first = 0 := by ring
  simp only [predictRaw, new, h, roundAway_nonneg le_rfl]
  norm_num

theorem one_le_predictRaw {slope first v : ℚ} {size : ℕ} (hv : 1 ≤ slope * (v - first))
    (hs : 2 ≤ size) : 1 ≤ (new slope (-slope * first)).predictRaw v size := by
  have h : slope * v + -slope * first = slope * (v - first) := by ring
  have := one_le_roundAway hv
  simp only [predictRaw, new, h]
  omega

variable {K : Type} [LinearOrder K] [Key K]

theorem predict_lt (key : K) {size : ℕ} (hs : 0 < size) : m.predict key size < size := by
  unfold predict
  cases m.midpoint with
  | none => exact predictRaw_lt _ hs
  | some mid => dsimp only; split_ifs <;> omega

theorem predict_mono [LawfulKey K] (hm : 0 ≤ m.slope) {a b : K} (hab : a ≤ b) (size : ℕ) :
    m.predict a size ≤ m.predict b size := by
  unfold predict
  cases m.midpoint with
  | none => exact predictRaw_mono hm (LawfulKey.modelInput_mono a b hab) size
  | some mid =>
    have := LawfulKey.ordinal_mono a b hab
    dsimp only
    split_ifs with ha hb
    · exact le_rfl
    · exact Nat.zero_le _
    · exact absurd (this.trans ‹_›) ha
    · exact le_rfl

end LinearModel

/-! ## Headers -/

namespace Header
variable {K : Type}

/-- A header that a constructor can produce. -/
structure Valid (h : Header K) : Prop where
  capacity_pos : 0 < h.capacity
  slope_nonneg : 0 ≤ h.model.slope

variable [LinearOrder K] [Key K] {h : Header K}

theorem predictSlot_lt (hpos : 0 < h.capacity) (key : K) : h.predictSlot key < h.capacity := by
  unfold predictSlot
  cases h.splitKey with
  | none => exact LinearModel.predict_lt key hpos
  | some sk => dsimp only; split_ifs <;> omega

theorem Valid.predictSlot_lt (hv : h.Valid) (key : K) : h.predictSlot key < h.capacity :=
  Header.predictSlot_lt hv.capacity_pos key

/-- **Predictions follow the order of the keys.** -/
theorem Valid.predictSlot_mono [LawfulKey K] (hv : h.Valid) {a b : K} (hab : a ≤ b) :
    h.predictSlot a ≤ h.predictSlot b := by
  unfold predictSlot
  cases h.splitKey with
  | none => exact LinearModel.predict_mono hv.slope_nonneg hab _
  | some sk =>
    dsimp only
    split_ifs with ha hb
    · exact le_rfl
    · exact Nat.zero_le _
    · exact absurd (hab.trans ‹_›) ha
    · exact le_rfl

theorem Valid.lt_of_predictSlot_lt [LawfulKey K] (hv : h.Valid) {a b : K}
    (hlt : h.predictSlot a < h.predictSlot b) : a < b :=
  not_le.1 fun hba => absurd (hv.predictSlot_mono hba) (not_le.2 hlt)

end Header

/-! ## Midpoints -/

theorem wrapI128_eq {x : ℤ} (h₁ : -2 ^ 127 ≤ x) (h₂ : x < 2 ^ 127) : wrapI128 x = x := by
  rw [wrapI128]
  norm_num at h₁ h₂ ⊢
  exact Int.bmod_eq_of_le (by omega) (by omega)

/-- **A midpoint separates two ordinals** that are less than `2^127` apart. -/
theorem midpoint_between {lo hi : ℤ} (hlo : -2 ^ 127 ≤ lo) (hhi : hi < 2 ^ 127) (hlt : lo < hi)
    (hnear : hi - lo < 2 ^ 127) : lo ≤ midpoint lo hi ∧ midpoint lo hi < hi := by
  have hdiv : (hi - lo).tdiv 2 = (hi - lo) / 2 := Int.tdiv_eq_ediv_of_nonneg (by omega)
  have hmid : midpoint lo hi = lo + (hi - lo) / 2 := by
    rw [midpoint, wrapI128_eq (by omega) hnear, hdiv, wrapI128_eq (by omega) (by omega)]
  rw [hmid]
  omega

/-! ## FMCD -/

section Fmcd
variable {n : ℕ} {keyInput : ℕ → ℚ}

/-- The inputs of sorted keys. -/
def InputsSorted (n : ℕ) (keyInput : ℕ → ℚ) : Prop :=
  ∀ i j, i ≤ j → j < n → keyInput i ≤ keyInput j

/-- A model that a fit may return for an array of this size, with its conflicts. -/
structure Candidate (n : ℕ) (keyInput : ℕ → ℚ) (size : ℕ) (best : LinearModel × ℕ) : Prop where
  slope_nonneg : 0 ≤ best.1.slope
  midpoint : best.1.midpoint = none
  first : best.1.predictRaw (keyInput 0) size = 0
  last : 1 ≤ best.1.predictRaw (keyInput (n - 1)) size
  counted : best.2 = countConflictsFast n keyInput best.1 size

theorem countConflictsFast_eq_zero {m : LinearModel} {size : ℕ} :
    countConflictsFast n keyInput m size = 0 ↔
      ∀ i, i + 1 < n → m.predictRaw (keyInput (i + 1)) size ≠ m.predictRaw (keyInput i) size := by
  rw [countConflictsFast, List.length_eq_zero_iff, List.filter_eq_nil_iff]
  simp only [List.mem_range, decide_eq_true_eq]
  exact forall_congr' fun i => by rw [Nat.lt_sub_iff_add_lt]

/-- The line of slope `slope` through the first key, if it reaches slot 1 at the last. -/
theorem Candidate.of_slope {size : ℕ} (slope : ℚ) (hs : 2 ≤ size) (h₀ : 0 ≤ slope)
    (h₁ : 1 ≤ slope * (keyInput (n - 1) - keyInput 0)) :
    Candidate n keyInput size (.new slope (-slope * keyInput 0),
      countConflictsFast n keyInput (.new slope (-slope * keyInput 0)) size) :=
  ⟨h₀, rfl, LinearModel.predictRaw_first _ _ _, LinearModel.one_le_predictRaw h₁ hs, rfl⟩

theorem foldl_max_le {f : ℕ → ℚ} {b : ℚ} (l : List ℕ) :
    ∀ a, a ≤ b → (∀ i ∈ l, f i ≤ b) → l.foldl (fun gap i => max gap (f i)) a ≤ b := by
  induction l with
  | nil => exact fun a ha _ => ha
  | cons i l ih =>
    intro a ha hf
    exact ih _ (max_le ha (hf i List.mem_cons_self)) fun j hj => hf j (List.mem_cons_of_mem _ hj)

/-- No gap exceeds the range of the keys. -/
theorem maxGap_le (hk : InputsSorted n keyInput) (hn : 0 < n) :
    maxGap n keyInput ≤ keyInput (n - 1) - keyInput 0 := by
  refine foldl_max_le _ _ (sub_nonneg.2 (hk _ _ (Nat.zero_le _) (by omega))) fun i hi => ?_
  have hi := List.mem_range.1 hi
  have h₁ := hk 0 i (Nat.zero_le _) (by omega)
  have h₂ := hk (i + 1) (n - 1) (by omega) (by omega)
  linarith

/-- The search through the candidate slopes returns a candidate. -/
theorem tryCandidates_candidate {size : ℕ} {gap maxSlope : ℚ} (hs : 2 ≤ size) (hgap : 0 < gap)
    (hrange : gap ≤ keyInput (n - 1) - keyInput 0) (js : List ℕ) :
    ∀ best, (∀ j ∈ js, 1 ≤ j) → Candidate n keyInput size best →
      Candidate n keyInput size (tryCandidates n keyInput size gap maxSlope js best) := by
  induction js with
  | nil => exact fun best _ hb => hb
  | cons j js ih =>
    intro best hj hb
    have hj₁ : (1 : ℚ) ≤ j := by exact_mod_cast hj j List.mem_cons_self
    have hslope : 1 ≤ (j : ℚ) / gap * (keyInput (n - 1) - keyInput 0) :=
      calc (1 : ℚ) ≤ j := hj₁
        _ = j / gap * gap := (div_mul_cancel₀ _ hgap.ne').symm
        _ ≤ _ := mul_le_mul_of_nonneg_left hrange (by positivity)
    have hc := Candidate.of_slope (n := n) _ hs (by positivity) hslope
    rw [tryCandidates]
    dsimp only
    split_ifs with h₁ h₂ h₃ h₃
    · exact hb
    · exact hc
    · exact ih _ (fun j hj' => hj j (List.mem_cons_of_mem _ hj')) hc
    · exact hb
    · exact ih _ (fun j hj' => hj j (List.mem_cons_of_mem _ hj')) hb

/-- What `build_recursive` relies on: predictions are monotone, an array without conflicts
    has no two adjacent keys in one slot, and keys that do not all have one model input do
    not all get one slot. -/
structure Fits (n : ℕ) (keyInput : ℕ → ℚ) (r : FmcdResult) : Prop where
  size_pos : 0 < r.arraySize
  slope_nonneg : 0 ≤ r.model.slope
  midpoint : r.model.midpoint = none
  conflicts : r.conflicts = 0 → ∀ i, i + 1 < n →
    r.model.predictRaw (keyInput (i + 1)) r.arraySize ≠ r.model.predictRaw (keyInput i) r.arraySize
  separates : 2 ≤ n → epsilon ≤ |keyInput (n - 1) - keyInput 0| →
    r.model.predictRaw (keyInput 0) r.arraySize = 0 ∧
      1 ≤ r.model.predictRaw (keyInput (n - 1)) r.arraySize

theorem Candidate.fits {size c : ℕ} {best : LinearModel × ℕ} (hb : Candidate n keyInput size best)
    (hs : 2 ≤ size) (hc : best.2 = c) : Fits n keyInput ⟨best.1, size, c⟩ :=
  ⟨by dsimp only; omega, hb.slope_nonneg, hb.midpoint,
    fun h => countConflictsFast_eq_zero.1 (hb.counted ▸ hc.trans h), fun _ _ => ⟨hb.first, hb.last⟩⟩

theorem epsilon_pos : 0 < epsilon := by norm_num [epsilon]

/-- The array of a fit leaves `1 + headroom` slots to each key. -/
theorem le_arraySize {ef hr : ℚ} (hef : 1 ≤ ef) (hhr : 0 ≤ hr) (n : ℕ) :
    (n : ℚ) * (1 + hr) ≤ (((max ⌈n * ef * (1 + hr)⌉ n).toNat : ℕ) : ℚ) := by
  have hpos : (0 : ℚ) ≤ n * (1 + hr) := by positivity
  have h₁ : (n : ℚ) * (1 + hr) ≤ n * ef * (1 + hr) := by nlinarith
  have h₂ := Int.le_ceil ((n : ℚ) * ef * (1 + hr))
  have h₃ : (⌈n * ef * (1 + hr)⌉ : ℚ) ≤ (((max ⌈n * ef * (1 + hr)⌉ n).toNat : ℤ) : ℚ) := by
    exact_mod_cast (le_max_left _ _).trans (Int.self_le_toNat _)
  push_cast at h₃ ⊢
  linarith

/-- **A fit of sorted keys succeeds and can be built on.** -/
theorem fitFmcd_fits {ef hr : ℚ} (hk : InputsSorted n keyInput) (hn : 0 < n) (hef : 1 ≤ ef)
    (hhr : 0 ≤ hr) : ∃ r, fitFmcd n keyInput ef hr = some r ∧ Fits n keyInput r := by
  unfold fitFmcd
  rw [if_neg (by rintro (h | h); exacts [hn.ne' h, absurd hef (not_le.2 h)])]
  by_cases h1 : n = 1
  · rw [if_pos h1]
    refine ⟨_, rfl, Nat.one_pos, le_rfl, rfl, fun _ i hi => ?_, fun h _ => ?_⟩ <;> omega
  · rw [if_neg h1]
    have hn2 : 2 ≤ n := by omega
    have hn2' : (2 : ℚ) ≤ n := by exact_mod_cast hn2
    set size := (max ⌈n * ef * (1 + hr)⌉ n).toNat with hsize
    have hle : (n : ℚ) * (1 + hr) ≤ size := le_arraySize hef hhr n
    have hs : 2 ≤ size := by
      have : (2 : ℚ) ≤ size := by nlinarith
      exact_mod_cast this
    have hs' : ((size - 1 : ℕ) : ℚ) = size - 1 := by rw [Nat.cast_sub (by omega)]; simp
    by_cases heps : |keyInput (n - 1) - keyInput 0| < epsilon
    · rw [if_pos heps]
      exact ⟨_, rfl, by dsimp only; omega, le_rfl, rfl, fun h => by dsimp only at h; omega,
        fun _ h => absurd h (not_le.2 heps)⟩
    · rw [if_neg heps]
      have hnn := sub_nonneg.2 (hk 0 (n - 1) (Nat.zero_le _) (by omega))
      have hrange : 0 < keyInput (n - 1) - keyInput 0 := by
        rw [abs_of_nonneg hnn, not_lt] at heps
        exact epsilon_pos.trans_le heps
      -- linear interpolation takes the last key to `(size - 1) / (1 + hr) ≥ 1`
      have hlin : Candidate n keyInput size (_, _) :=
        Candidate.of_slope (((size - 1 : ℕ) : ℚ) / ((keyInput (n - 1) - keyInput 0) * (1 + hr))) hs
          (by positivity) (by
            rw [div_mul_eq_mul_div, le_div_iff₀ (by positivity), hs', one_mul, mul_comm]
            refine mul_le_mul_of_nonneg_right ?_ hrange.le
            nlinarith)
      dsimp only
      split_ifs with hc hgap
      · exact ⟨_, rfl, hlin.fits hs hc⟩
      · refine ⟨_, rfl, (tryCandidates_candidate hs (epsilon_pos.trans hgap) (maxGap_le hk hn) _ _
          (fun j hj => ?_) hlin).fits hs rfl⟩
        exact (List.mem_range'_1.1 hj).1
      · exact ⟨_, rfl, hlin.fits hs rfl⟩

end Fmcd

end Scry.Index
