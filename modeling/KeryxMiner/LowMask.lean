import Mathlib.Data.Nat.Basic
import Mathlib.Tactic.Ring

/-!
# Words cut at a bit

A mask of the low `k` bits cuts a word in two: `x &&& m` is the remainder by `2 ^ k`, and
`x &&& ~~~m` the rest, a multiple of `2 ^ k`.
-/

namespace KeryxMiner

variable {k : Nat} {m x y : UInt64}

/-! ## Bits -/

theorem word_ext (h : ∀ i (hi : i < 64), x.toBitVec[i] = y.toBitVec[i]) : x = y :=
  UInt64.toBitVec_inj.mp (BitVec.eq_of_getElem_eq h)

theorem and_and_not : (x &&& m) &&& (y &&& ~~~m) = 0 := by
  apply word_ext
  intro i hi
  cases h : m.toBitVec[i] <;> simp [h]

theorem and_or_and_not : (x &&& m) ||| (x &&& ~~~m) = x := by
  apply word_ext
  intro i hi
  cases h : m.toBitVec[i] <;> simp [h]

theorem and_or_and_not_right : ((x &&& m) ||| y) &&& ~~~m = y &&& ~~~m := by
  apply word_ext
  intro i hi
  cases h : m.toBitVec[i] <;> simp [h]

/-- Words without a common bit are added by `|||`. -/
theorem toNat_or_of_and (h : x &&& y = 0) : (x ||| y).toNat = x.toNat + y.toNat := by
  have hbits : x.toBitVec &&& y.toBitVec = 0#64 := congrArg UInt64.toBitVec h
  calc (x ||| y).toNat = (x.toBitVec ||| y.toBitVec).toNat := rfl
    _ = (x.toBitVec + y.toBitVec).toNat := by rw [BitVec.add_eq_or_of_and_eq_zero _ _ hbits]
    _ = x.toNat + y.toNat := BitVec.toNat_add_of_and_eq_zero hbits

/-- The two parts of a word. -/
theorem toNat_and_add : (x &&& m).toNat + (x &&& ~~~m).toNat = x.toNat := by
  rw [← toNat_or_of_and and_and_not, and_or_and_not]

/-! ## Masks of low bits -/

/-- `m` has the low `k` bits set and no others. -/
def LowMask (k : Nat) (m : UInt64) : Prop := k ≤ 64 ∧ m.toNat = 2 ^ k - 1

namespace LowMask

theorem full : LowMask 64 (-1) := ⟨Nat.le_refl _, rfl⟩

theorem toNat_and (h : LowMask k m) : (x &&& m).toNat = x.toNat % 2 ^ k := by
  rw [UInt64.toNat_and, h.2, Nat.and_two_pow_sub_one_eq_mod]

theorem toNat_and_not (h : LowMask k m) : (x &&& ~~~m).toNat = 2 ^ k * (x.toNat / 2 ^ k) := by
  have hparts := toNat_and_add (x := x) (m := m)
  rw [h.toNat_and] at hparts
  have := Nat.mod_add_div x.toNat (2 ^ k)
  omega

/-- The rest is decided by the quotient. -/
theorem and_not_eq_iff (h : LowMask k m) :
    x &&& ~~~m = y &&& ~~~m ↔ x.toNat / 2 ^ k = y.toNat / 2 ^ k := by
  rw [← UInt64.toNat_inj, h.toNat_and_not, h.toNat_and_not]
  exact Nat.mul_right_inj (Nat.two_pow_pos k).ne'

/-- A word is its rest and its remainder. -/
theorem toNat_or (h : LowMask k m) {free : UInt64} (hfree : free &&& m = free) :
    (free ||| (y &&& ~~~m)).toNat = free.toNat + 2 ^ k * (y.toNat / 2 ^ k) := by
  rw [← hfree, toNat_or_of_and and_and_not, h.toNat_and_not, hfree]

end LowMask

end KeryxMiner
