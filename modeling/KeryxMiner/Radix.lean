import Mathlib.Data.List.TakeWhile
import Mathlib.Data.Nat.Digits.Lemmas

/-!
# Texts of a number with leading zeros

Digits, most significant first, are a number and how many zeros stand before it. `positional`
writes the two down, and a list of digits is what is written of its own two (`positional_eq`).
-/

namespace KeryxMiner

variable {b v z : Nat} {ds : List Nat}

def leadingZeros (ds : List Nat) : Nat := (ds.takeWhile (· = 0)).length

/-- The number of digits, the first one being the most significant. -/
def radixValue (b : Nat) (ds : List Nat) : Nat := Nat.ofDigits b ds.reverse

/-- `z` zeros and the digits of `v`. -/
def positional (b z v : Nat) : List Nat := List.replicate z 0 ++ (Nat.digits b v).reverse

theorem head_digits_reverse {d : Nat} (hd : (Nat.digits b v).reverse.head? = some d) : d ≠ 0 := by
  rw [List.head?_reverse] at hd
  obtain ⟨hne, rfl⟩ := List.mem_getLast?_eq_getLast hd
  exact Nat.getLast_digit_ne_zero b (Nat.digits_ne_nil_iff_ne_zero.mp hne)

theorem leadingZeros_replicate (h : ∀ d ∈ ds.head?, d ≠ 0) :
    leadingZeros (List.replicate z 0 ++ ds) = z := by
  induction z with
  | zero =>
    cases ds with
    | nil => rfl
    | cons d ds =>
      have hd : d ≠ 0 := h d rfl
      simp [leadingZeros, hd]
  | succ z ih =>
    rw [List.replicate_succ, List.cons_append, leadingZeros, List.takeWhile_cons_of_pos rfl,
      List.length_cons]
    exact congrArg (· + 1) ih

theorem radixValue_replicate : radixValue b (List.replicate z 0 ++ ds) = radixValue b ds := by
  rw [radixValue, List.reverse_append, List.reverse_replicate, Nat.ofDigits_append_replicate_zero]
  rfl

@[simp] theorem leadingZeros_positional : leadingZeros (positional b z v) = z :=
  leadingZeros_replicate fun _ hd => head_digits_reverse hd

@[simp] theorem radixValue_positional : radixValue b (positional b z v) = v := by
  rw [positional, radixValue_replicate, radixValue, List.reverse_reverse, Nat.ofDigits_digits]

/-- The digits are those of their number behind their zeros. -/
theorem positional_eq (hb : 1 < b) (hds : ∀ d ∈ ds, d < b) :
    positional b (leadingZeros ds) (radixValue b ds) = ds := by
  have hsplit : ds = List.replicate (leadingZeros ds) 0 ++ ds.dropWhile (· = 0) := by
    have hzeros : ds.takeWhile (· = 0) = List.replicate (leadingZeros ds) 0 := by
      apply List.eq_replicate_iff.mpr
      exact ⟨rfl, fun d hd => by simpa using List.mem_takeWhile_imp hd⟩
    rw [← hzeros, List.takeWhile_append_dropWhile]
  have hvalue : radixValue b ds = radixValue b (ds.dropWhile (· = 0)) := by
    conv_lhs => rw [hsplit, radixValue_replicate]
  have hdigits : Nat.digits b (radixValue b (ds.dropWhile (· = 0))) =
      (ds.dropWhile (· = 0)).reverse := by
    apply Nat.digits_ofDigits b hb
    · intro d hd
      exact hds d ((List.dropWhile_sublist _).subset (List.mem_reverse.mp hd))
    · intro hne
      rw [List.getLast_reverse]
      have hhead := List.head_dropWhile_not (fun d => decide (d = 0)) (l := ds)
        (by simpa using hne)
      simpa using hhead
  rw [positional, hvalue, hdigits, List.reverse_reverse, ← hsplit]

/-- Only zeros have the value zero. -/
theorem radixValue_eq_zero (hb : 1 < b) (hds : ∀ d ∈ ds, d < b) :
    radixValue b ds = 0 ↔ ∀ d ∈ ds, d = 0 := by
  constructor
  · intro h d hd
    rw [← positional_eq hb hds, h, positional, Nat.digits_zero, List.reverse_nil, List.append_nil]
      at hd
    exact List.eq_of_mem_replicate hd
  · intro h
    have hzeros : ds = List.replicate ds.length 0 ++ [] := by
      rw [List.append_nil]
      exact List.eq_replicate_iff.mpr ⟨rfl, h⟩
    rw [hzeros, radixValue_replicate]
    rfl

end KeryxMiner
