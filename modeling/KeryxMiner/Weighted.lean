import Mathlib.Algebra.BigOperators.Group.List.Basic
import Mathlib.Order.Interval.Finset.Nat
import Mathlib.Tactic.Ring

/-!
# Weighted picks

A loop that takes weights off a number, one after the other, until one is larger than what is left.
It finds one for the numbers below the sum of the weights (`isSome_pick`), and for each weight that
many of them (`card_pick`).
-/

namespace KeryxMiner.Weighted

variable {w x i k : Nat} {ws : List Nat}

/-- The place of the weight that `x` falls in. -/
def pick : List Nat → Nat → Option Nat
  | [], _ => none
  | w :: ws, x => if x < w then some 0 else (pick ws (x - w)).map (· + 1)

theorem isSome_pick : (pick ws x).isSome ↔ x < ws.sum := by
  induction ws generalizing x with
  | nil => simp [pick]
  | cons w ws ih =>
    rw [pick, List.sum_cons]
    split
    · next h => exact iff_of_true rfl (by omega)
    · next h =>
      rw [Option.isSome_map, ih]
      omega

/-- The numbers a weight is picked for are those behind the weights before it. -/
theorem pick_eq_some : pick ws x = some i ↔
    i < ws.length ∧ (ws.take i).sum ≤ x ∧ x < (ws.take (i + 1)).sum := by
  induction ws generalizing x i with
  | nil => simp [pick]
  | cons w ws ih =>
    rw [pick]
    cases i with
    | zero =>
      split
      · next h => simpa using h
      · next h => simpa using h
    | succ i =>
      have hsum : ∀ n, ((w :: ws).take (n + 1)).sum = w + (ws.take n).sum := fun n => by
        rw [List.take_succ_cons, List.sum_cons]
      rw [hsum, hsum, List.length_cons]
      split
      · next h =>
        refine iff_of_false nofun ?_
        omega
      · next h =>
        rw [Option.map_eq_some_iff]
        constructor
        · rintro ⟨i', hi', heq⟩
          obtain rfl := Nat.succ.inj heq
          obtain ⟨hlt, hle, hx⟩ := ih.mp hi'
          omega
        · rintro ⟨hlt, hle, hx⟩
          exact ⟨i, ih.mpr ⟨by omega, by omega, by omega⟩, rfl⟩

/-- Each weight is picked for as many numbers as it says. -/
theorem card_pick (hi : i < ws.length) :
    ((Finset.range ws.sum).filter fun x => pick ws x = some i).card = ws[i] := by
  have hnext : (ws.take (i + 1)).sum = (ws.take i).sum + ws[i] := by
    rw [List.take_succ_eq_append_getElem hi, List.sum_append, List.sum_singleton]
  have hle : (ws.take (i + 1)).sum ≤ ws.sum := by
    conv_rhs => rw [← List.take_append_drop (i + 1) ws, List.sum_append]
    exact Nat.le_add_right ..
  have hfilter : ((Finset.range ws.sum).filter fun x => pick ws x = some i) =
      Finset.Ico (ws.take i).sum (ws.take (i + 1)).sum := by
    ext x
    rw [Finset.mem_filter, Finset.mem_range, pick_eq_some, Finset.mem_Ico]
    constructor
    · rintro ⟨-, -, hx⟩
      exact hx
    · rintro ⟨hx, hlt⟩
      exact ⟨by omega, hi, hx, hlt⟩
  rw [hfilter, Nat.card_Ico, hnext, Nat.add_sub_cancel_left]

/-! ## Weights counted down -/

/-- The weights `k`, ..., 1. -/
def countdown : Nat → List Nat
  | 0 => []
  | k + 1 => (k + 1) :: countdown k

@[simp] theorem length_countdown : (countdown k).length = k := by
  induction k with
  | zero => rfl
  | succ k ih => rw [countdown, List.length_cons, ih]

theorem getElem_countdown (hi : i < (countdown k).length) : (countdown k)[i] = k - i := by
  induction k generalizing i with
  | zero => simp at hi
  | succ k ih =>
    cases i with
    | zero => rfl
    | succ i =>
      have hlt : i < (countdown k).length := by simpa using hi
      have hrest : (countdown (k + 1))[i + 1] = (countdown k)[i] := rfl
      rw [hrest, ih hlt]
      omega

theorem sum_countdown : (countdown k).sum = k * (k + 1) / 2 := by
  have hdouble : 2 * (countdown k).sum = k * (k + 1) := by
    induction k with
    | zero => rfl
    | succ k ih =>
      rw [countdown, List.sum_cons, Nat.mul_add, ih]
      ring
  omega

end KeryxMiner.Weighted
