/-
  Keys, configuration and the linear models of the learned index (`key.rs`,
  `config.rs`, `model.rs`).

  Slot prediction is exact: `f64` is modelled by the rationals, `usize` by the
  naturals.  Exact ordinals are `i128` values, whose arithmetic wraps.
-/
import Mathlib

namespace Scry.Index

/-! ## Keys -/

/-- The `Key` trait: an ordered type with a model input and an exact ordinal. -/
class Key (K : Type) [LinearOrder K] where
  toModelInput : K → ℚ
  toExactOrdinal : K → ℤ

/-- `f64::EPSILON`. -/
def epsilon : ℚ := 1 / 2 ^ 52

/-- The contract of `Key`: both maps are monotone, though distinct keys may have the
    same image; ordinals are `i128` values, and those of keys with nearly the same
    model input are less than `2^127` apart. -/
class LawfulKey (K : Type) [LinearOrder K] [Key K] : Prop where
  modelInput_mono (a b : K) : a ≤ b → Key.toModelInput a ≤ Key.toModelInput b
  ordinal_mono (a b : K) : a ≤ b → Key.toExactOrdinal a ≤ Key.toExactOrdinal b
  ordinal_range (a : K) : -2 ^ 127 ≤ Key.toExactOrdinal a ∧ Key.toExactOrdinal a < 2 ^ 127
  ordinal_near (a b : K) : |Key.toModelInput b - Key.toModelInput a| < epsilon →
    |Key.toExactOrdinal b - Key.toExactOrdinal a| < 2 ^ 127

/-- `impl_key_unsigned!`: the unsigned integers of `w` bits. -/
instance keyUnsigned (w : ℕ) : Key (Fin (2 ^ w)) where
  toModelInput a := (a.val : ℚ)
  toExactOrdinal a := (a.val : ℤ)

/-- The `i128` value of an integer: it wraps around. -/
def wrapI128 (x : ℤ) : ℤ := Int.bmod x (2 ^ 128)

/-- `lo + (hi - lo) / 2` on `i128`. -/
def midpoint (lo hi : ℤ) : ℤ := wrapI128 (lo + (wrapI128 (hi - lo)).tdiv 2)

/-! ## Configuration -/

/-- Configuration parameters for `LearnedMap`. -/
structure Config where
  expansionFactor : ℚ := 2
  autoRebuild : Bool := true
  rebuildDepthThreshold : ℕ := 8
  tombstoneRatioThreshold : ℚ := 1 / 2
  rangeHeadroom : ℚ := 0

/-- What the documentation of the fields requires. -/
structure Config.Valid (c : Config) : Prop where
  expansion : 1 ≤ c.expansionFactor
  headroom : 0 ≤ c.rangeHeadroom

/-! ## Linear models -/

/-- A linear model that predicts slot positions from keys; a `midpoint` overrides the
    linear formula with a binary split of the exact ordinals. -/
structure LinearModel where
  slope : ℚ
  intercept : ℚ
  midpoint : Option ℤ

/-- `f64::round`: half-way cases away from zero. -/
def roundAway (x : ℚ) : ℤ := if x < 0 then -⌊-x + 1 / 2⌋ else ⌊x + 1 / 2⌋

namespace LinearModel

def new (slope intercept : ℚ) : LinearModel := ⟨slope, intercept, none⟩

/-- A model that separates keys at the given ordinal. -/
def binarySplit (midpoint : ℤ) : LinearModel := ⟨0, 0, some midpoint⟩

/-- A model that maps a single key to slot 0. -/
def constant : LinearModel := ⟨0, 0, none⟩

/-- The predicted slot of a model input, clamped to `[0, arraySize - 1]`. -/
def predictRaw (m : LinearModel) (value : ℚ) (arraySize : ℕ) : ℕ :=
  let pos := (max (roundAway (m.slope * value + m.intercept)) 0).toNat
  min pos (arraySize - 1)

/-- The predicted slot of a key. -/
def predict {K : Type} [LinearOrder K] [Key K] (m : LinearModel) (key : K)
    (arraySize : ℕ) : ℕ :=
  match m.midpoint with
  | some mid => if Key.toExactOrdinal key ≤ mid then 0 else arraySize - 1
  | none => m.predictRaw (Key.toModelInput key) arraySize

end LinearModel

/-! ## FMCD model fitting -/

/-- Result of FMCD model fitting. -/
structure FmcdResult where
  model : LinearModel
  arraySize : ℕ
  conflicts : ℕ

/-- Maximum number of candidate slopes to try in FMCD. -/
def maxFmcdCandidates : ℕ := 32

/-- Count the adjacent keys that map to the same slot. -/
def countConflictsFast (n : ℕ) (keyInput : ℕ → ℚ) (model : LinearModel) (arraySize : ℕ) : ℕ :=
  ((List.range (n - 1)).filter fun i =>
    model.predictRaw (keyInput (i + 1)) arraySize = model.predictRaw (keyInput i) arraySize).length

/-- The maximum gap between adjacent keys. -/
def maxGap (n : ℕ) (keyInput : ℕ → ℚ) : ℚ :=
  (List.range (n - 1)).foldl (fun gap i => max gap (keyInput (i + 1) - keyInput i)) 0

/-- Try the candidate slopes `j / gap` for the given `j`, in this order, until one exceeds
    `maxSlope` or has no conflicts. -/
def tryCandidates (n : ℕ) (keyInput : ℕ → ℚ) (arraySize : ℕ) (gap maxSlope : ℚ) :
    List ℕ → LinearModel × ℕ → LinearModel × ℕ
  | [], best => best
  | j :: js, best =>
    let slope := j / gap
    if slope > maxSlope then best
    else
      let model := LinearModel.new slope (-slope * keyInput 0)
      let conflicts := countConflictsFast n keyInput model arraySize
      let best := if conflicts < best.2 then (model, conflicts) else best
      if best.2 = 0 then best else tryCandidates n keyInput arraySize gap maxSlope js best

/-- Fit a linear model to `n` sorted keys, given by their model inputs; `none` where the
    assertions fail. -/
def fitFmcd (n : ℕ) (keyInput : ℕ → ℚ) (expansionFactor rangeHeadroom : ℚ) :
    Option FmcdResult :=
  if n = 0 ∨ expansionFactor < 1 then none
  else if n = 1 then some ⟨.constant, 1, 0⟩
  else
    let headroomMult := 1 + rangeHeadroom
    let arraySize := (max ⌈n * expansionFactor * headroomMult⌉ n).toNat
    let first := keyInput 0
    let last := keyInput (n - 1)
    let keyRange := last - first
    if |keyRange| < epsilon then
      -- all keys are the same value: map all to the middle
      some ⟨.new 0 ((arraySize / 2 : ℕ) : ℚ), arraySize, n - 1⟩
    else
      let effectiveRange := keyRange * headroomMult
      -- linear interpolation is the baseline
      let linSlope := ((arraySize - 1 : ℕ) : ℚ) / effectiveRange
      let linModel := LinearModel.new linSlope (-linSlope * first)
      let linConflicts := countConflictsFast n keyInput linModel arraySize
      if linConflicts = 0 then some ⟨linModel, arraySize, 0⟩
      else
        let gap := maxGap n keyInput
        let best :=
          if gap > epsilon then
            -- the slope at which the last key is predicted to the last slot
            let maxSlope := ((arraySize - 1 : ℕ) : ℚ) / keyRange
            tryCandidates n keyInput arraySize gap maxSlope
              (List.range' 1 maxFmcdCandidates) (linModel, linConflicts)
          else (linModel, linConflicts)
        some ⟨best.1, arraySize, best.2⟩

end Scry.Index
