import KeryxMiner.Inference.BlockTree
import Mathlib.Data.Set.Basic
import Mathlib.Order.Bounds.Defs

/-!
# The sizes of a block

The loop of `fit` ends because its products grow, so it needs a unit that is not zero, and no
product overflows only for units below `2 ^ 63`; the check for a zero unit comes after the loop. On
these units it finds the largest power of two that fits.
-/

namespace KeryxMiner.Inference

/-- The loop of `fit` from `n` on ends at `m`, and no product that it computes overflows. -/
inductive FitEnds (unit : UInt64) : UInt64 → UInt64 → Prop
  | stop (hn : 2 * n.toNat < 2 ^ 64) (hlt : 2 * n.toNat * unit.toNat < 2 ^ 64)
      (h : ¬2 * n * unit ≤ blockBudget) : FitEnds unit n n
  | step (hn : 2 * n.toNat < 2 ^ 64) (hlt : 2 * n.toNat * unit.toNat < 2 ^ 64)
      (h : 2 * n * unit ≤ blockBudget) : FitEnds unit (2 * n) m → FitEnds unit n m

/-- The powers of two of units that fit the budget. -/
def fitting (unit : UInt64) : Set Nat :=
  { n | (∃ k, n = 2 ^ k) ∧ n * unit.toNat ≤ blockBudget.toNat }

/-- No block of the format fits the budget. -/
def NoBlock (rowBytes partialBytes : UInt64) : Prop :=
  rowBytes = 0 ∨ blockBudget < rowBytes ∨ blockBudget.toNat < 2 * partialBytes.toNat

/-- The parameters are found without an overflow, and they are the largest that fit. -/
structure ParamsRight (rowBytes partialBytes : UInt64) : Prop where
  rowsEnd : ∃ c, FitEnds rowBytes 1 c
  partialsEnd : ∀ c, fit rowBytes = some (some c) → ∃ b, FitEnds partialBytes 1 b
  refuses : NoBlock rowBytes partialBytes → blockParams rowBytes partialBytes = some none
  finds : ¬NoBlock rowBytes partialBytes →
    ∃ c b, blockParams rowBytes partialBytes = some (some (c, b)) ∧
      IsGreatest (fitting rowBytes) c.toNat ∧ IsGreatest (fitting partialBytes) b.toNat

section

variable {unit n m : UInt64} {k rounds : Nat} {rowBytes partialBytes : UInt64}

theorem toNat_blockBudget : blockBudget.toNat = 98304 := rfl

theorem FitEnds.pos (h : FitEnds unit n m) : 0 < unit := by
  induction h with
  | stop hn hlt h =>
    rw [UInt64.pos_iff_ne_zero]
    rintro rfl
    rw [UInt64.mul_zero] at h
    exact h UInt64.zero_le
  | step _ _ _ _ ih => exact ih

theorem FitEnds.lt (h : FitEnds unit 1 m) : unit.toNat < 2 ^ 63 := by
  cases h with
  | stop hn hlt h => rw [UInt64.toNat_one] at hlt; omega
  | step hn hlt h => rw [UInt64.toNat_one] at hlt; omega

theorem isGreatest_fitting (hm : m.toNat = 2 ^ k) (hle : 2 ^ k * unit.toNat ≤ blockBudget.toNat)
    (hlt : blockBudget.toNat < 2 ^ (k + 1) * unit.toNat) : IsGreatest (fitting unit) m.toNat := by
  refine ⟨⟨⟨k, hm⟩, hm ▸ hle⟩, ?_⟩
  rintro _ ⟨⟨j, rfl⟩, hj⟩
  rw [hm]
  apply Nat.pow_le_pow_right (by decide)
  by_contra hjk
  have hpow : 2 ^ (k + 1) ≤ 2 ^ j := Nat.pow_le_pow_right (by decide) (Nat.lt_of_not_le hjk)
  have hmul := Nat.mul_le_mul_right unit.toNat hpow
  omega

/-- While `2 ^ k` units fit, the next product does not overflow. -/
theorem toNat_product (hpos : 0 < unit.toNat) (hn : n.toNat = 2 ^ k)
    (hle : 2 ^ k * unit.toNat ≤ blockBudget.toNat) :
    2 * n.toNat < 2 ^ 64 ∧ 2 * n.toNat * unit.toNat < 2 ^ 64 ∧ (2 * n).toNat = 2 ^ (k + 1) ∧
      (2 * n * unit).toNat = 2 ^ (k + 1) * unit.toNat := by
  rw [toNat_blockBudget] at hle
  have hmul : 2 ^ k ≤ 2 ^ k * unit.toNat := Nat.le_mul_of_pos_right _ hpos
  have hdouble : (2 * n).toNat = 2 * 2 ^ k := by
    rw [UInt64.toNat_mul, hn]
    exact Nat.mod_eq_of_lt (by change 2 * 2 ^ k < 2 ^ 64; omega)
  have hproduct : (2 * n * unit).toNat = 2 * 2 ^ k * unit.toNat := by
    rw [UInt64.toNat_mul, hdouble, Nat.mul_assoc]
    exact Nat.mod_eq_of_lt (by omega)
  have hpow : 2 ^ (k + 1) = 2 * 2 ^ k := Nat.pow_succ'
  rw [hn, hpow]
  exact ⟨by omega, by rw [Nat.mul_assoc]; omega, hdouble, hproduct⟩

/-- The loop ends at the largest power of two that fits: while a product fits, it is not past
`2 ^ 16`. -/
theorem exists_fitLoop (hpos : 0 < unit.toNat) (hn : n.toNat = 2 ^ k)
    (hle : 2 ^ k * unit.toNat ≤ blockBudget.toNat) (hrounds : 17 ≤ rounds + k) :
    ∃ m, fitLoop unit rounds n = some m ∧ FitEnds unit n m ∧
      m.toNat * unit.toNat ≤ blockBudget.toNat ∧ m * unit ≤ blockBudget ∧
        IsGreatest (fitting unit) m.toNat := by
  obtain ⟨hn', hlt, hdouble, hproduct⟩ := toNat_product hpos hn hle
  induction rounds generalizing n k with
  | zero =>
    have hpow : 2 ^ 17 ≤ 2 ^ k := Nat.pow_le_pow_right (by decide) (by omega)
    have hmul : 2 ^ k ≤ 2 ^ k * unit.toNat := Nat.le_mul_of_pos_right _ hpos
    rw [toNat_blockBudget] at hle
    omega
  | succ rounds ih =>
    rw [fitLoop]
    split
    · next hfits =>
      have hfits' := UInt64.le_iff_toNat_le.mp hfits
      rw [hproduct] at hfits'
      obtain ⟨hn'', hlt', hdouble', hproduct'⟩ := toNat_product hpos hdouble hfits'
      obtain ⟨m, hloop, hends, hm⟩ :=
        ih hdouble hfits' (by omega) hn'' hlt' hdouble' hproduct'
      exact ⟨m, hloop, .step hn' hlt hfits hends, hm⟩
    · next hstop =>
      have hstop' := UInt64.le_iff_toNat_le.not.mp hstop
      rw [hproduct] at hstop'
      have hmul : (n * unit).toNat = n.toNat * unit.toNat := by
        rw [UInt64.toNat_mul, hn]
        exact Nat.mod_eq_of_lt (hle.trans_lt (by decide))
      refine ⟨n, rfl, .stop hn' hlt hstop, hn ▸ hle, ?_,
        isGreatest_fitting hn hle (Nat.lt_of_not_le hstop')⟩
      rw [UInt64.le_iff_toNat_le, hmul, hn]
      exact hle

/-- A unit within the budget. -/
theorem fit_of_le (hpos : 0 < unit) (hle : unit ≤ blockBudget) :
    ∃ m, fit unit = some (some m) ∧ FitEnds unit 1 m ∧ m.toNat * unit.toNat ≤ blockBudget.toNat ∧
      IsGreatest (fitting unit) m.toNat := by
  have hle' : 2 ^ 0 * unit.toNat ≤ blockBudget.toNat := by
    rw [Nat.pow_zero, Nat.one_mul]
    exact UInt64.le_iff_toNat_le.mp hle
  obtain ⟨m, hloop, hends, hm, hfits, hgreatest⟩ :=
    @exists_fitLoop unit 1 0 65 (UInt64.lt_iff_toNat_lt.mp hpos) rfl hle' (by decide)
  refine ⟨m, ?_, hends, hm, hgreatest⟩
  rw [fit, hloop, Option.map_some, if_pos ⟨hpos, hfits⟩]

/-- A unit that the budget cannot hold once. -/
theorem fit_of_lt (hgt : blockBudget < unit) (hlt : unit.toNat < 2 ^ 63) :
    fit unit = some none ∧ FitEnds unit 1 1 := by
  have hgt' := UInt64.lt_iff_toNat_lt.mp hgt
  have hstop : ¬2 * 1 * unit ≤ blockBudget := by
    have htwo : (2 * 1 * unit).toNat = 2 * unit.toNat := by
      rw [UInt64.toNat_mul]
      exact Nat.mod_eq_of_lt (by change 2 * unit.toNat < 2 ^ 64; omega)
    rw [UInt64.le_iff_toNat_le, htwo]
    omega
  refine ⟨?_, .stop (by decide) (by rw [UInt64.toNat_one]; omega) hstop⟩
  have hnot : ¬(0 < unit ∧ 1 * unit ≤ blockBudget) := by
    rw [UInt64.one_mul, not_and, UInt64.not_le]
    exact fun _ => hgt
  rw [fit, fitLoop, if_neg hstop, Option.map_some, if_neg hnot]

/-- The parameters are right for rows that are not empty and, where a row fits, for partials that
are not empty, both so small that twice their size is a number. -/
theorem paramsRight_iff (rowBytes partialBytes : UInt64) :
    ParamsRight rowBytes partialBytes ↔ 0 < rowBytes ∧ rowBytes.toNat < 2 ^ 63 ∧
      (rowBytes ≤ blockBudget → 0 < partialBytes ∧ partialBytes.toNat < 2 ^ 63) := by
  constructor
  · intro h
    obtain ⟨c, hc⟩ := h.rowsEnd
    refine ⟨hc.pos, hc.lt, ?_⟩
    intro hle
    obtain ⟨c', hfit, -⟩ := fit_of_le hc.pos hle
    obtain ⟨b, hb⟩ := h.partialsEnd c' hfit
    exact ⟨hb.pos, hb.lt⟩
  · rintro ⟨hpos, hlt, hpartial⟩
    by_cases hle : rowBytes ≤ blockBudget
    · obtain ⟨hpos', hlt'⟩ := hpartial hle
      obtain ⟨c, hfit, hends, -, hgreatest⟩ := fit_of_le hpos hle
      have hzero : rowBytes ≠ 0 := UInt64.pos_iff_ne_zero.mp hpos
      by_cases hle' : partialBytes ≤ blockBudget
      · obtain ⟨b, hfit', hends', hb, hgreatest'⟩ := fit_of_le hpos' hle'
        have htwo : 2 ≤ b ↔ 2 * partialBytes.toNat ≤ blockBudget.toNat := by
          rw [UInt64.le_iff_toNat_le]
          constructor
          · intro h2
            exact (Nat.mul_le_mul_right _ h2).trans hb
          · intro h2
            exact hgreatest'.2 ⟨⟨1, rfl⟩, h2⟩
        have hparams : blockParams rowBytes partialBytes =
            some (if 2 ≤ b then some (c, b) else none) := by
          rw [blockParams, hfit]
          simp only [Option.bind_eq_bind, Option.bind_some, hfit']
        refine ⟨⟨c, hends⟩, fun _ _ => ⟨b, hends'⟩, ?_, ?_⟩
        · rintro (h | h | h)
          · exact absurd h hzero
          · exact absurd h (UInt64.not_lt.mpr hle)
          · rw [hparams, if_neg (htwo.not.mpr (Nat.not_le.mpr h))]
        · intro hnone
          have htwo' : 2 ≤ b := htwo.mpr (Nat.le_of_not_lt fun h => hnone (.inr (.inr h)))
          exact ⟨c, b, by rw [hparams, if_pos htwo'], hgreatest, hgreatest'⟩
      · obtain ⟨hfit', hends'⟩ := fit_of_lt (UInt64.not_le.mp hle') hlt'
        have hparams : blockParams rowBytes partialBytes = some none := by
          rw [blockParams, hfit]
          simp only [Option.bind_eq_bind, Option.bind_some, hfit']
        have hmore := UInt64.lt_iff_toNat_lt.mp (UInt64.not_le.mp hle')
        exact ⟨⟨c, hends⟩, fun _ _ => ⟨1, hends'⟩, fun _ => hparams,
          fun h => absurd (.inr (.inr (by omega))) h⟩
    · obtain ⟨hfit, hends⟩ := fit_of_lt (UInt64.not_le.mp hle) hlt
      have hparams : blockParams rowBytes partialBytes = some none := by
        rw [blockParams, hfit]
        rfl
      refine ⟨⟨1, hends⟩, ?_, fun _ => hparams, fun h => absurd (.inr (.inl (UInt64.not_le.mp hle))) h⟩
      intro c hc
      rw [hfit] at hc
      cases hc

/-- With rows of no bytes the loop does not end. -/
theorem not_paramsRight_zero : ¬ParamsRight 0 8 ∧ blockParams 0 8 = none := by
  refine ⟨?_, by decide +kernel⟩
  rintro ⟨⟨c, hends⟩, -⟩
  exact absurd hends.pos (by decide)

end

end KeryxMiner.Inference
