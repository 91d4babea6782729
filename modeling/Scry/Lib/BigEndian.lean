/-
  Numbers whose digits are listed from the highest down.

  Digit lists of one length are ordered lexicographically as their numbers are
  (`value_lt_iff`), and cutting or zero-padding lists to one length keeps their
  lexicographic order (`pad_mono`).
-/
import Mathlib.Data.List.Lex
import Mathlib.Tactic

namespace Scry.BigEndian

variable {b : ℕ}

/-- The number with the given digits, highest first. -/
def value (ds : List (Fin b)) : ℕ := ds.foldl (fun acc (d : Fin b) => acc * b + d.val) 0

theorem foldl_value (ds : List (Fin b)) (acc : ℕ) :
    ds.foldl (fun acc (d : Fin b) => acc * b + d.val) acc = acc * b ^ ds.length + value ds := by
  induction ds generalizing acc with
  | nil => simp [value]
  | cons d ds ih =>
    simp only [value, List.foldl_cons, List.length_cons] at ih ⊢
    rw [ih, ih (0 * b + d), pow_succ]
    ring

@[simp] theorem value_nil : value ([] : List (Fin b)) = 0 := rfl

theorem value_cons (d : Fin b) (ds : List (Fin b)) :
    value (d :: ds) = d * b ^ ds.length + value ds := by
  rw [value, List.foldl_cons, foldl_value, zero_mul, zero_add]

theorem value_lt (ds : List (Fin b)) : value ds < b ^ ds.length := by
  induction ds with
  | nil => simp
  | cons d ds ih =>
    rw [value_cons, List.length_cons, pow_succ, mul_comm _ b]
    calc d * b ^ ds.length + value ds < d * b ^ ds.length + b ^ ds.length := by omega
      _ = (d + 1) * b ^ ds.length := by ring
      _ ≤ b * b ^ ds.length := Nat.mul_le_mul_right _ d.isLt

/-- **Lists of one length are ordered as their numbers.** -/
theorem value_lt_iff {xs ys : List (Fin b)} (hlen : xs.length = ys.length) :
    value xs < value ys ↔ xs < ys := by
  induction xs generalizing ys with
  | nil =>
    obtain rfl := List.length_eq_zero_iff.1 hlen.symm
    simp
  | cons x xs ih =>
    cases ys with
    | nil => cases hlen
    | cons y ys =>
      have hlen : xs.length = ys.length := Nat.succ.inj hlen
      have hx := value_lt xs
      have hy := value_lt ys
      rw [value_cons, value_cons, List.cons_lt_cons_iff, ← ih hlen, ← hlen]
      rw [← hlen] at hy
      rcases lt_trichotomy x y with hxy | rfl | hxy
      · have hstep : (x + 1) * b ^ xs.length ≤ y * b ^ xs.length := Nat.mul_le_mul_right _ hxy
        refine ⟨fun _ => Or.inl hxy, fun _ => ?_⟩
        rw [add_mul, one_mul] at hstep
        omega
      · simp
      · have hstep : (y + 1) * b ^ xs.length ≤ x * b ^ xs.length := Nat.mul_le_mul_right _ hxy
        rw [add_mul, one_mul] at hstep
        refine ⟨fun h => by omega, fun h => ?_⟩
        rcases h with h | ⟨rfl, -⟩
        · exact absurd hxy (not_lt.2 h.le)
        · exact absurd hxy (lt_irrefl _)

theorem value_le_iff {xs ys : List (Fin b)} (hlen : xs.length = ys.length) :
    value xs ≤ value ys ↔ xs ≤ ys := by
  rw [← not_lt, value_lt_iff hlen.symm, not_lt]

theorem value_inj {xs ys : List (Fin b)} (hlen : xs.length = ys.length) :
    value xs = value ys ↔ xs = ys := by
  rw [le_antisymm_iff, value_le_iff hlen, value_le_iff hlen.symm, ← le_antisymm_iff]

/-! ## Padding -/

variable [NeZero b]

/-- The first `n` digits; zeros stand for those that are missing. -/
def pad (n : ℕ) (ds : List (Fin b)) : List (Fin b) :=
  ds.take n ++ List.replicate (n - ds.length) 0

@[simp] theorem length_pad (n : ℕ) (ds : List (Fin b)) : (pad n ds).length = n := by
  rw [pad, List.length_append, List.length_take, List.length_replicate]
  omega

theorem pad_succ_nil (n : ℕ) : pad (n + 1) ([] : List (Fin b)) = 0 :: pad n [] := by
  simp [pad, List.replicate_succ]

theorem pad_succ_cons (n : ℕ) (d : Fin b) (ds : List (Fin b)) :
    pad (n + 1) (d :: ds) = d :: pad n ds := by
  simp [pad]

omit [NeZero b] in
theorem cons_le_cons_iff {x y : Fin b} {xs ys : List (Fin b)} :
    x :: xs ≤ y :: ys ↔ x < y ∨ x = y ∧ xs ≤ ys := by
  rw [le_iff_lt_or_eq, List.cons_lt_cons_iff, le_iff_lt_or_eq, List.cons_eq_cons]
  tauto

theorem pad_nil_le (n : ℕ) (ys : List (Fin b)) : pad n [] ≤ pad n ys := by
  induction n generalizing ys with
  | zero => simp [pad]
  | succ n ih =>
    cases ys with
    | nil => exact le_rfl
    | cons y ys =>
      rw [pad_succ_nil, pad_succ_cons, cons_le_cons_iff]
      rcases (Fin.zero_le y).lt_or_eq with hy | hy
      · exact Or.inl hy
      · exact Or.inr ⟨hy, ih ys⟩

/-- **Padding keeps the lexicographic order.** -/
theorem pad_mono (n : ℕ) {xs ys : List (Fin b)} (h : xs ≤ ys) : pad n xs ≤ pad n ys := by
  induction n generalizing xs ys with
  | zero => simp [pad]
  | succ n ih =>
    cases xs with
    | nil => exact pad_nil_le _ _
    | cons x xs =>
      cases ys with
      | nil => exact absurd h (not_le.2 (List.nil_lt_cons x xs))
      | cons y ys =>
        rw [pad_succ_cons, pad_succ_cons, cons_le_cons_iff]
        rcases cons_le_cons_iff.1 h with hxy | ⟨hxy, h⟩
        · exact Or.inl hxy
        · exact Or.inr ⟨hxy, ih h⟩

/-- The digits after the first `n` do not matter to the number of those. -/
theorem value_pad_add (n k : ℕ) (ds : List (Fin b)) :
    value (pad (n + k) ds) = value (pad n ds) * b ^ k + value (pad k (ds.drop n)) := by
  induction n generalizing ds with
  | zero => simp [pad]
  | succ n ih =>
    rw [show n + 1 + k = n + k + 1 by omega]
    cases ds with
    | nil =>
      have := ih []
      rw [List.drop_nil] at this ⊢
      rw [pad_succ_nil, pad_succ_nil, value_cons, value_cons, this]
      simp
    | cons d ds =>
      rw [pad_succ_cons, pad_succ_cons, value_cons, value_cons, ih, length_pad, length_pad,
        List.drop_succ_cons, pow_add]
      ring

end Scry.BigEndian
