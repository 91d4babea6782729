/-
  The projections of byte keys keep their order.
-/
import Scry.Index.Bytes

namespace Scry.Index

open BigEndian

attribute [local instance] byte_neZero

/-! ## The sign flip -/

theorem xor_two_pow_of_lt {v n : ℕ} (h : n < 2 ^ v) : n ^^^ 2 ^ v = 2 ^ v + n := by
  refine Nat.eq_of_testBit_eq fun j => ?_
  rw [Nat.testBit_xor, Nat.testBit_two_pow]
  rcases lt_trichotomy j v with hj | rfl | hj
  · rw [Nat.testBit_two_pow_add_gt hj, decide_eq_false hj.ne', Bool.xor_false]
  · rw [Nat.testBit_two_pow_add_eq, Nat.testBit_lt_two_pow h, decide_eq_true rfl]
    rfl
  · have hpow : 2 ^ (v + 1) ≤ 2 ^ j := Nat.pow_le_pow_right Nat.two_pos hj
    rw [pow_succ] at hpow
    rw [Nat.testBit_lt_two_pow (show n < 2 ^ j by omega),
      Nat.testBit_lt_two_pow (show 2 ^ v + n < 2 ^ j by omega), decide_eq_false hj.ne]
    rfl

/-- **Flipping the sign bit shifts all numbers by the same amount.** -/
theorem flipSign_eq (x : BitVec 128) : flipSign x = x.toNat - 2 ^ 127 := by
  have hx := x.isLt
  have hy : (x ^^^ BitVec.intMin 128).toNat = x.toNat ^^^ 2 ^ 127 := by
    rw [BitVec.toNat_xor, BitVec.toNat_intMin_of_pos (by decide)]
  rw [flipSign, BitVec.toInt_eq_toNat_cond, hy]
  by_cases h : x.toNat < 2 ^ 127
  · rw [xor_two_pow_of_lt h, if_neg (by omega)]
    push_cast
    omega
  · obtain ⟨r, hr⟩ := Nat.exists_eq_add_of_le (not_lt.1 h)
    have hflip : (2 ^ 127 + r) ^^^ 2 ^ 127 = r := by
      rw [← xor_two_pow_of_lt (show r < 2 ^ 127 by omega), Nat.xor_assoc, Nat.xor_self, Nat.xor_zero]
    rw [hr, hflip, if_pos (by omega)]
    push_cast
    omega

theorem flipSign_lt_iff {x y : BitVec 128} : flipSign x < flipSign y ↔ x.toNat < y.toNat := by
  rw [flipSign_eq, flipSign_eq]
  omega

/-! ## Byte strings -/

variable {a b : ByteString}

theorem toNat_bytesToU128 (a : ByteString) : (bytesToU128 a).toNat = value (pad 16 a) := by
  have h := value_lt (pad 16 a)
  rw [length_pad] at h
  exact Nat.mod_eq_of_lt h

theorem bytesToExactOrdinal_eq (a : ByteString) :
    bytesToExactOrdinal a = value (pad 16 a) - 2 ^ 127 := by
  rw [bytesToExactOrdinal, flipSign_eq, toNat_bytesToU128]

theorem bytesToU64_mono (h : a ≤ b) : bytesToU64 a ≤ bytesToU64 b :=
  (value_le_iff (by rw [length_pad, length_pad])).2 (pad_mono 8 h)

theorem bytesToExactOrdinal_mono (h : a ≤ b) : bytesToExactOrdinal a ≤ bytesToExactOrdinal b := by
  have hle : value (pad 16 a) ≤ value (pad 16 b) :=
    (value_le_iff (by rw [length_pad, length_pad])).2 (pad_mono 16 h)
  rw [bytesToExactOrdinal_eq, bytesToExactOrdinal_eq]
  omega

theorem bytesToExactOrdinal_inj :
    bytesToExactOrdinal a = bytesToExactOrdinal b ↔ pad 16 a = pad 16 b := by
  rw [← value_inj (by rw [length_pad, length_pad]), bytesToExactOrdinal_eq, bytesToExactOrdinal_eq]
  omega

/-- **Byte keys keep the contract of `Key`**: those with one model input share their first 8
    bytes, so their ordinals are less than `2^64` apart. -/
instance lawfulKey_bytes : LawfulKey ByteString where
  modelInput_mono a b h := Nat.cast_le.2 (bytesToU64_mono h)
  ordinal_mono a b h := bytesToExactOrdinal_mono h
  ordinal_range a := by
    have h := value_lt (pad 16 a)
    rw [length_pad] at h
    show -2 ^ 127 ≤ bytesToExactOrdinal a ∧ bytesToExactOrdinal a < 2 ^ 127
    rw [bytesToExactOrdinal_eq]
    omega
  ordinal_near a b h := by
    have hnear : |((bytesToU64 b : ℤ) : ℚ) - ((bytesToU64 a : ℤ) : ℚ)| < 1 :=
      h.trans (by norm_num [epsilon])
    have hnear : |(bytesToU64 b : ℤ) - bytesToU64 a| < 1 := by exact_mod_cast hnear
    have heq : value (pad 8 b) = value (pad 8 a) := by
      have := Int.abs_lt_one_iff.1 hnear
      simp only [bytesToU64] at this
      omega
    have ha := value_lt (pad 8 (a.drop 8))
    have hb := value_lt (pad 8 (b.drop 8))
    rw [length_pad] at ha hb
    show |bytesToExactOrdinal b - bytesToExactOrdinal a| < 2 ^ 127
    rw [bytesToExactOrdinal_eq, bytesToExactOrdinal_eq, value_pad_add 8 8, value_pad_add 8 8, heq,
      abs_lt]
    push_cast
    omega

/-- **The projections of byte keys keep their order**, and the ordinals tell strings apart
    whose first 16 bytes, padded with zeros, differ; so does that of `u128` keys. -/
theorem byteProjections_mono :
    (∀ a b : ByteString, a ≤ b → bytesToExactOrdinal a ≤ bytesToExactOrdinal b ∧
      bytesToU64 a ≤ bytesToU64 b) ∧
    (∀ a b : ByteString, bytesToExactOrdinal a = bytesToExactOrdinal b ↔ pad 16 a = pad 16 b) ∧
    ∀ x y : BitVec 128, x < y → u128ToExactOrdinal x < u128ToExactOrdinal y :=
  ⟨fun _ _ h => ⟨bytesToExactOrdinal_mono h, bytesToU64_mono h⟩, fun _ _ => bytesToExactOrdinal_inj,
    fun _ _ h => flipSign_lt_iff.2 h⟩

end Scry.Index
