/-
  Keys that are byte strings, and `u128` keys (`key.rs`).

  A byte string is projected to its first 8 bytes, the model input, and to its first 16
  bytes, the exact ordinal; both are big-endian numbers.  The ordinal of a `u128` is its
  `i128` reinterpretation with the sign bit flipped.
-/
import Scry.Lib.BigEndian
import Scry.Lib.Framing
import Scry.Index.Model

namespace Scry.Index

attribute [local instance] byte_neZero

/-- A byte string (`Vec<u8>`), compared lexicographically. -/
abbrev ByteString := List (Fin 256)

/-- `u64::from_be_bytes` of the first 8 bytes, zero-padded on the right. -/
def bytesToU64 (bytes : ByteString) : ℕ := BigEndian.value (BigEndian.pad 8 bytes)

def bytesToModelInput (bytes : ByteString) : ℚ := bytesToU64 bytes

/-- `(x as i128) ^ i128::MIN` of a `u128`. -/
def flipSign (x : BitVec 128) : ℤ := (x ^^^ BitVec.intMin 128).toInt

/-- The ordinal of a `u128` key. -/
def u128ToExactOrdinal (key : BitVec 128) : ℤ := flipSign key

/-- `u128::from_be_bytes` of the first 16 bytes, zero-padded on the right. -/
def bytesToU128 (bytes : ByteString) : BitVec 128 :=
  BitVec.ofNat 128 (BigEndian.value (BigEndian.pad 16 bytes))

def bytesToExactOrdinal (bytes : ByteString) : ℤ := flipSign (bytesToU128 bytes)

instance keyBytes : Key ByteString where
  toModelInput := bytesToModelInput
  toExactOrdinal := bytesToExactOrdinal

end Scry.Index
