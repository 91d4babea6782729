/-
  Whether a split separates its keys.

  A split computes `lo + (hi - lo) / 2` on `i128`, where the difference alone overflows
  for ordinals that are `2^127` apart or more (`midpointFits_iff`).
-/
import Scry.Index.Proof.Build

namespace Scry.Index

/-! ## Midpoints -/

/-- The number is an `i128`. -/
def IsI128 (x : ℤ) : Prop := -2 ^ 127 ≤ x ∧ x < 2 ^ 127

/-- No step of `lo + (hi - lo) / 2` overflows. -/
def MidpointFits (lo hi : ℤ) : Prop := IsI128 (hi - lo) ∧ IsI128 (lo + (hi - lo).tdiv 2)

theorem midpointFits_iff {lo hi : ℤ} (hlo : IsI128 lo) (hhi : IsI128 hi) (hle : lo ≤ hi) :
    MidpointFits lo hi ↔ hi - lo < 2 ^ 127 := by
  have hdiv : (hi - lo).tdiv 2 = (hi - lo) / 2 := Int.tdiv_eq_ediv_of_nonneg (by omega)
  rw [MidpointFits, hdiv]
  unfold IsI128 at hlo hhi ⊢
  omega

variable {K V : Type} [LinearOrder K] [Key K]

/-- The split of two keys computes no midpoint, or one that does not overflow. -/
def SplitFits (lo hi : K) : Prop :=
  Key.toExactOrdinal lo ≠ Key.toExactOrdinal hi →
    MidpointFits (Key.toExactOrdinal lo) (Key.toExactOrdinal hi)

theorem splitFits_iff (hK : KeyContract K) {lo hi : K} (hlt : lo < hi) :
    SplitFits lo hi ↔ Key.toExactOrdinal hi - Key.toExactOrdinal lo < 2 ^ 127 := by
  have hle := hK.ordinal_mono hlt.le
  rw [SplitFits, midpointFits_iff (hK.ordinal_range lo) (hK.ordinal_range hi) hle]
  refine ⟨fun h => ?_, fun h _ => h⟩
  by_cases he : Key.toExactOrdinal lo = Key.toExactOrdinal hi
  · rw [he, sub_self]
    norm_num
  · exact h he

/-! ## Conflicts -/

/-- The split of a conflict: nothing overflows, the keys get different slots, and the node
    is built, whichever key comes first. -/
structure ConflictSeparates (V : Type) (lo hi : K) : Prop where
  fits : |Key.toModelInput hi - Key.toModelInput lo| < epsilon → SplitFits lo hi
  differ : (conflictNode lo hi : Node K V).predictSlot lo ≠
    (conflictNode lo hi : Node K V).predictSlot hi
  built (loV hiV : V) : (buildConflictNode lo loV hi hiV).isSome ∧
    (buildConflictNode hi hiV lo loV).isSome

/-- A conflict node is built if it separates its keys. -/
theorem buildConflictNode_isSome {lo hi : K} (hlt : lo < hi)
    (hne : (conflictNode lo hi : Node K V).predictSlot lo ≠
      (conflictNode lo hi : Node K V).predictSlot hi) (loV hiV : V) :
    (buildConflictNode lo loV hi hiV).isSome ∧ (buildConflictNode hi hiV lo loV).isSome := by
  have hbuilt : (let node : Node K V := conflictNode lo hi
      if node.predictSlot lo = node.predictSlot hi then none
      else some ((node.storeData (node.predictSlot lo) lo loV).storeData (node.predictSlot hi)
        hi hiV)).isSome := by
    dsimp only
    rw [if_neg hne]
    rfl
  constructor
  · rw [buildConflictNode, if_pos hlt]
    exact hbuilt
  · rw [buildConflictNode, if_neg hlt.not_gt]
    exact hbuilt

theorem conflictSeparates_iff (hK : KeyContract K) {lo hi : K} (hlt : lo < hi) :
    ConflictSeparates V lo hi ↔ epsilon ≤ |Key.toModelInput hi - Key.toModelInput lo| ∨
      Key.toExactOrdinal hi - Key.toExactOrdinal lo < 2 ^ 127 := by
  constructor
  · intro h
    by_cases heps : epsilon ≤ |Key.toModelInput hi - Key.toModelInput lo|
    · exact Or.inl heps
    · exact Or.inr ((splitFits_iff hK hlt).1 (h.fits (not_le.1 heps)))
  · intro h
    have hnear : |Key.toModelInput hi - Key.toModelInput lo| < epsilon → SplitFits lo hi :=
      fun heps => (splitFits_iff hK hlt).2 (h.resolve_left (not_le.2 heps))
    obtain ⟨n, hn, -, hne⟩ := conflictNode_separates (V := V) hK hlt fun heps => by
      have hle := hK.ordinal_mono hlt.le
      rw [OrdinalsNear, abs_of_nonneg (sub_nonneg.2 hle)]
      exact (splitFits_iff hK hlt).1 (hnear heps)
    have hdiffer : (conflictNode lo hi : Node K V).predictSlot lo ≠
        (conflictNode lo hi : Node K V).predictSlot hi := by
      rw [hn]
      exact hne
    exact ⟨hnear, hdiffer, buildConflictNode_isSome hlt hdiffer⟩

/-! ## Degenerate groups -/

/-- The split of a degenerate group: nothing overflows, and each half has its slot. -/
structure HalvesSeparate (l : List (K × V)) (lo hi : K × V) : Prop where
  fits : SplitFits lo.1 hi.1
  lower : ∀ a ∈ l.take (l.length / 2), (splitNode lo.1 hi.1 2 : Node K V).predictSlot a.1 = 0
  upper : ∀ a ∈ l.drop (l.length / 2), (splitNode lo.1 hi.1 2 : Node K V).predictSlot a.1 = 1

theorem halvesSeparate_iff (hK : KeyContract K) {l : List (K × V)} (hl : Ascending l) {lo hi : K × V}
    (hlo : (l.take (l.length / 2)).getLast? = some lo)
    (hhi : (l.drop (l.length / 2)).head? = some hi) : HalvesSeparate l lo hi ↔
      Key.toExactOrdinal hi.1 - Key.toExactOrdinal lo.1 < 2 ^ 127 := by
  obtain ⟨lower, hlower⟩ := List.getLast?_eq_some_iff.1 hlo
  obtain ⟨upper, hupper⟩ := List.head?_eq_some_iff.1 hhi
  have hcat : (lower ++ [lo]) ++ (hi :: upper) = l := by
    rw [← hlower, ← hupper, List.take_append_drop]
  rw [← hcat] at hl
  obtain ⟨hal, hah, hlt⟩ := ascending_append.1 hl
  have hlt := hlt lo (List.mem_append_right _ List.mem_cons_self) hi List.mem_cons_self
  refine ⟨fun h => (splitFits_iff hK hlt).1 h.fits, fun h => ?_⟩
  obtain ⟨n, hn, hs⟩ := splitNode_splits (V := V) hK hlt (by
    rwa [OrdinalsNear, abs_of_nonneg (sub_nonneg.2 (hK.ordinal_mono hlt.le))]) Nat.zero_lt_two
  refine ⟨(splitFits_iff hK hlt).2 h, fun a ha => ?_, fun a ha => ?_⟩
  · rw [hlower] at ha
    rw [hn]
    exact hs.below _ (Ascending.le_getLast hal ha)
  · rw [hupper] at ha
    rw [hn]
    exact hs.above _ (Ascending.head_le hah ha)

/-- **When splits separate**: a conflict node does exactly for keys whose model inputs are
    told apart or whose ordinals are less than `2^127` apart, and a degenerate group exactly
    if the ordinals on both sides of its middle are. -/
theorem splits_separate_iff (hK : KeyContract K) :
    (∀ lo hi : K, lo < hi → (ConflictSeparates V lo hi ↔
      epsilon ≤ |Key.toModelInput hi - Key.toModelInput lo| ∨
        Key.toExactOrdinal hi - Key.toExactOrdinal lo < 2 ^ 127)) ∧
    ∀ l : List (K × V), 2 ≤ l.length → Ascending l → ∃ lo hi,
      (l.take (l.length / 2)).getLast? = some lo ∧ (l.drop (l.length / 2)).head? = some hi ∧
        (HalvesSeparate l lo hi ↔ Key.toExactOrdinal hi.1 - Key.toExactOrdinal lo.1 < 2 ^ 127) := by
  refine ⟨fun lo hi hlt => conflictSeparates_iff hK hlt, fun l h2 hl => ?_⟩
  obtain ⟨htake, hdrop⟩ := halves_ne_nil h2
  have hlo := List.getLast?_eq_some_getLast htake
  have hhi := List.head?_eq_some_head hdrop
  exact ⟨_, _, hlo, hhi, halvesSeparate_iff hK hl hlo hhi⟩

theorem splits_separate_iff_byte :
    (∀ lo hi : Fin (2 ^ 8), lo < hi → (ConflictSeparates Unit lo hi ↔
      epsilon ≤ |Key.toModelInput hi - Key.toModelInput lo| ∨
        Key.toExactOrdinal hi - Key.toExactOrdinal lo < 2 ^ 127)) ∧
    ∀ l : List (Fin (2 ^ 8) × Unit), 2 ≤ l.length → Ascending l → ∃ lo hi,
      (l.take (l.length / 2)).getLast? = some lo ∧ (l.drop (l.length / 2)).head? = some hi ∧
        (HalvesSeparate l lo hi ↔ Key.toExactOrdinal hi.1 - Key.toExactOrdinal lo.1 < 2 ^ 127) :=
  splits_separate_iff (lawfulKey_unsigned (w := 8) (by decide)).contract

/-! ## Ordinals far apart -/

/-- The `i128` as keys with one model input. -/
def WideKey : Type := {x : ℤ // IsI128 x}

instance : LinearOrder WideKey := inferInstanceAs (LinearOrder {x : ℤ // IsI128 x})

instance : Key WideKey where
  toModelInput _ := 0
  toExactOrdinal k := k.val

theorem wideKey_contract : KeyContract WideKey where
  modelInput_mono _ _ _ := le_rfl
  ordinal_mono _ _ h := h
  ordinal_range k := k.2

namespace WideKey

def least : WideKey := ⟨-2 ^ 127, le_rfl, by norm_num⟩

def zero : WideKey := ⟨0, by norm_num, by norm_num⟩

end WideKey

/-- **A split that separates nothing**: the difference of the ordinals overflows, both keys
    get one slot, and no conflict node comes of them. -/
theorem wideKey_collides : KeyContract WideKey ∧ WideKey.least < WideKey.zero ∧
    ¬ MidpointFits (Key.toExactOrdinal WideKey.least) (Key.toExactOrdinal WideKey.zero) ∧
    (conflictNode WideKey.least WideKey.zero : Node WideKey Unit).predictSlot WideKey.least =
      (conflictNode WideKey.least WideKey.zero : Node WideKey Unit).predictSlot WideKey.zero ∧
    (buildConflictNode WideKey.least () WideKey.zero ()).isNone ∧
    (splitNode WideKey.least WideKey.zero 2 : Node WideKey Unit).predictSlot WideKey.zero = 0 := by
  refine ⟨wideKey_contract, by decide +kernel, fun h => ?_, by decide +kernel, by decide +kernel,
    by decide +kernel⟩
  exact absurd h.1.2 (by decide)

end Scry.Index
