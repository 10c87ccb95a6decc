import KeryxMiner.Work.Basic
import KeryxMiner.LowMask

/-!
# Nonce ranges

The range which `set_extranonce` assigns, and the place of a batch in it.
-/

namespace KeryxMiner.Work

open Stratum

/-! ## `set_extranonce` -/

section Extranonce

variable {s : Session} {extranonce : String} {nonceSize : UInt32}

/-- An accepted extranonce leaves the low `nonceSize` bytes to the miner and fixes the others. -/
def ExtranonceRight (s : Session) (extranonce : String) (nonceSize : UInt32) : Prop :=
  ∀ s', s.setExtranonce extranonce nonceSize = (s', .ok ()) →
    ∃ n, Session.parseHexU64 extranonce = some n ∧
      s'.handler.nonceMask.toNat = 2 ^ (8 * nonceSize.toNat) - 1 ∧
      s'.handler.nonceFixed.toNat = n.toNat * 2 ^ (8 * nonceSize.toNat) ∧
      s'.handler.nonceMask &&& s'.handler.nonceFixed = 0

/-- The extranonce and the bytes left to the miner fit into a nonce. -/
def ExtranonceFits (extranonce : String) (nonceSize : UInt32) : Prop :=
  ∀ n, Session.parseHexU64 extranonce = some n →
    nonceSize.toNat < 8 ∧ n.toNat < 2 ^ (64 - 8 * nonceSize.toNat)

theorem toNat_one_shiftLeft {shift : UInt64} : (1 <<< shift).toNat = 2 ^ (shift.toNat % 64) := by
  have hlt : 2 ^ (shift.toNat % 64) < 2 ^ 64 :=
    Nat.pow_lt_pow_right (by decide) (Nat.mod_lt _ (by decide))
  rw [UInt64.toNat_shiftLeft]
  change 1 <<< (shift.toNat % 64) % 2 ^ 64 = _
  rw [Nat.one_shiftLeft, Nat.mod_eq_of_lt hlt]

theorem lowMask_shift {shift : UInt64} : LowMask (shift.toNat % 64) ((1 <<< shift) - 1) := by
  refine ⟨(Nat.mod_lt _ (by decide)).le, ?_⟩
  have hone : (1 : UInt64) ≤ 1 <<< shift := by
    rw [UInt64.le_iff_toNat_le, toNat_one_shiftLeft]
    exact Nat.one_le_two_pow
  rw [UInt64.toNat_sub_of_le _ _ hone, toNat_one_shiftLeft]
  rfl

/-- The shift distance as the processor takes it. -/
theorem shift_mod : (nonceSize * 8).toUInt64.toNat % 64 = 8 * nonceSize.toNat % 64 := by
  rw [UInt32.toNat_toUInt64, UInt32.toNat_mul]
  change nonceSize.toNat * 8 % 2 ^ 32 % 64 = _
  omega

theorem extranonceRight_iff :
    ExtranonceRight s extranonce nonceSize ↔ ExtranonceFits extranonce nonceSize := by
  cases hn : Session.parseHexU64 extranonce with
  | none => simp [ExtranonceRight, ExtranonceFits, Session.setExtranonce, hn]
  | some n =>
    have hmask : LowMask (8 * nonceSize.toNat % 64) ((1 <<< (nonceSize * 8).toUInt64) - 1) := by
      rw [← shift_mod]
      exact lowMask_shift
    have hfixed : (n <<< (nonceSize * 8).toUInt64).toNat =
        n.toNat * 2 ^ (8 * nonceSize.toNat % 64) % 2 ^ 64 := by
      rw [UInt64.toNat_shiftLeft, shift_mod, Nat.shiftLeft_eq]
    simp only [ExtranonceRight, ExtranonceFits, Session.setExtranonce, hn, Option.some.injEq,
      Prod.mk.injEq, and_true, forall_eq', exists_eq_left', hmask.2, hfixed]
    constructor
    · rintro ⟨h, hshift, -⟩
      have hsize : nonceSize.toNat < 8 := by
        by_contra hge
        have hlt : 2 ^ (8 * nonceSize.toNat % 64) < 2 ^ (8 * nonceSize.toNat) :=
          Nat.pow_lt_pow_right (by decide) (by omega)
        have := Nat.two_pow_pos (8 * nonceSize.toNat % 64)
        omega
      refine ⟨hsize, ?_⟩
      have hpow : 2 ^ (64 - 8 * nonceSize.toNat) * 2 ^ (8 * nonceSize.toNat) = 2 ^ 64 := by
        rw [← Nat.pow_add]
        congr 1
        omega
      have hbound : n.toNat * 2 ^ (8 * nonceSize.toNat) < 2 ^ 64 :=
        hshift ▸ Nat.mod_lt _ (by decide)
      exact Nat.lt_of_mul_lt_mul_right (hpow ▸ hbound)
    · rintro ⟨hsize, hlt⟩
      have hmod : 8 * nonceSize.toNat % 64 = 8 * nonceSize.toNat := Nat.mod_eq_of_lt (by omega)
      have hpow : 2 ^ (64 - 8 * nonceSize.toNat) * 2 ^ (8 * nonceSize.toNat) = 2 ^ 64 := by
        rw [← Nat.pow_add]
        congr 1
        omega
      have hbound : n.toNat * 2 ^ (8 * nonceSize.toNat) < 2 ^ 64 :=
        hpow ▸ Nat.mul_lt_mul_of_pos_right hlt (Nat.two_pow_pos _)
      rw [hmod] at hfixed hmask ⊢
      refine ⟨rfl, Nat.mod_eq_of_lt hbound, ?_⟩
      rw [Nat.mod_eq_of_lt hbound] at hfixed
      apply UInt64.toNat_inj.mp
      rw [UInt64.and_comm, hmask.toNat_and, hfixed, Nat.mul_mod_left]
      rfl

/-- Whatever the pool sends, the mask is one of low bits. -/
theorem setExtranonce_lowMask (h : ∃ k, LowMask k s.handler.nonceMask) :
    ∃ k, LowMask k (s.setExtranonce extranonce nonceSize).1.handler.nonceMask := by
  simp only [Session.setExtranonce]
  split
  · exact h
  · exact ⟨_, lowMask_shift⟩

end Extranonce

/-! ## `pom_batch_start` -/

section Batch

variable {k : Nat} {cursor batch mask fixed : UInt64}

/-- The first nonce of the range. -/
def rangeStart (mask fixed : UInt64) : UInt64 := fixed &&& ~~~mask

theorem toNat_saturatingPred : (saturatingPred batch).toNat = batch.toNat - 1 := by
  rw [saturatingPred]
  split
  · next h => simp [h]
  · next h =>
    have hone : 1 ≤ batch := by
      rw [UInt64.le_iff_toNat_le]
      exact Nat.one_le_iff_ne_zero.mpr fun h0 => h (UInt64.toNat_inj.mp h0)
    rw [UInt64.toNat_sub_of_le _ _ hone]
    rfl

/-- `checked_sub` and `is_none_or`: the batch does not fit behind `free`. -/
theorem noRoom_iff {free last : UInt64} :
    mask < last ∨ mask - last < free ↔ mask.toNat < free.toNat + last.toNat := by
  rw [UInt64.lt_iff_toNat_lt]
  by_cases hle : last ≤ mask
  · rw [UInt64.lt_iff_toNat_lt, UInt64.toNat_sub_of_le _ _ hle]
    rw [UInt64.le_iff_toNat_le] at hle
    omega
  · rw [UInt64.le_iff_toNat_le] at hle
    omega

/-- The remainder at which the batch starts: that of the cursor, or zero when the batch would not
fit behind it. -/
theorem pomBatchStart_spec (cursor batch fixed : UInt64) (hm : LowMask k mask) (hfull : mask ≠ -1) :
    ∃ free, (pomBatchStart cursor batch mask fixed).toNat =
        free + (rangeStart mask fixed).toNat ∧
      (free = cursor.toNat % 2 ^ k ∧ free + (batch.toNat - 1) < 2 ^ k ∨
        free = 0 ∧ 2 ^ k ≤ cursor.toNat % 2 ^ k + (batch.toNat - 1)) := by
  have hand : (cursor &&& mask).toNat = cursor.toNat % 2 ^ k := hm.toNat_and
  have hlt : cursor.toNat % 2 ^ k < 2 ^ k := Nat.mod_lt _ (Nat.two_pow_pos k)
  have hstart (free : UInt64) (hfree : free &&& mask = free) :
      (free ||| (fixed &&& ~~~mask)).toNat = free.toNat + (rangeStart mask fixed).toNat := by
    rw [hm.toNat_or hfree, rangeStart, hm.toNat_and_not]
  have hmask := hm.2
  rw [pomBatchStart, if_neg hfull]
  dsimp only
  split
  · next h =>
    rw [noRoom_iff, toNat_saturatingPred, hand] at h
    exact ⟨0, hstart 0 (UInt64.zero_and), Or.inr ⟨rfl, by omega⟩⟩
  · next h =>
    rw [noRoom_iff, toNat_saturatingPred, hand] at h
    refine ⟨cursor.toNat % 2 ^ k, ?_, Or.inl ⟨rfl, by omega⟩⟩
    rw [hstart _ (by rw [UInt64.and_assoc, UInt64.and_self]), hand]

/-- Every nonce of a batch which is not larger than the range is in the range. -/
theorem pomBatchStart_inRange (hm : LowMask k mask) {size i : Nat} (hsize : size ≤ batch.toNat)
    (hrange : size ≤ 2 ^ k) (hi : i < size) :
    (pomBatchStart cursor batch mask fixed + UInt64.ofNat i) &&& ~~~mask = fixed &&& ~~~mask := by
  by_cases hfull : mask = -1
  · subst hfull
    simp
  obtain ⟨free, hstart, hfree⟩ := pomBatchStart_spec cursor batch fixed hm hfull
  have hi64 : i < 2 ^ 64 := hi.trans_le (hsize.trans (UInt64.toNat_lt _).le)
  have hin : free + i < 2 ^ k := by omega
  have hbase : (rangeStart mask fixed).toNat = 2 ^ k * (fixed.toNat / 2 ^ k) := hm.toNat_and_not
  have hroom : 2 ^ k * (fixed.toNat / 2 ^ k) + 2 ^ k ≤ 2 ^ 64 := by
    have hq : fixed.toNat / 2 ^ k < 2 ^ (64 - k) := by
      apply Nat.div_lt_of_lt_mul
      rw [← Nat.pow_add, Nat.add_sub_cancel' hm.1]
      exact UInt64.toNat_lt _
    calc 2 ^ k * (fixed.toNat / 2 ^ k) + 2 ^ k = 2 ^ k * (fixed.toNat / 2 ^ k + 1) := by ring
      _ ≤ 2 ^ k * 2 ^ (64 - k) := Nat.mul_le_mul_left _ hq
      _ = 2 ^ 64 := by rw [← Nat.pow_add, Nat.add_sub_cancel' hm.1]
  have hsum : (pomBatchStart cursor batch mask fixed + UInt64.ofNat i).toNat =
      free + i + 2 ^ k * (fixed.toNat / 2 ^ k) := by
    rw [UInt64.toNat_add, hstart, hbase, UInt64.toNat_ofNat', Nat.mod_eq_of_lt hi64]
    rw [Nat.mod_eq_of_lt (by omega)]
    omega
  rw [hm.and_not_eq_iff, hsum, Nat.add_mul_div_left _ _ (Nat.two_pow_pos k),
    Nat.div_eq_of_lt hin, Nat.zero_add]

end Batch

end KeryxMiner.Work
