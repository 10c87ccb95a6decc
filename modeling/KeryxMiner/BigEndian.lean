import Mathlib.Data.List.Induction
import Mathlib.Data.Nat.Init

/-!
# Numbers from their digits

Digits in a base, the most significant one first: `ofDigitsBE` reads a number and `digitsBE` writes
its lowest digits. The two are inverse to each other for digits below the base.
-/

namespace KeryxMiner

variable {b n x acc d : Nat} {ds ds' : List Nat}

/-- The number whose digits follow those of `acc`. -/
def ofDigitsBE (b : Nat) : (acc : Nat) → List Nat → Nat
  | acc, [] => acc
  | acc, d :: ds => ofDigitsBE b (acc * b + d) ds

/-- The lowest `n` digits of a number. -/
def digitsBE (b : Nat) : (n x : Nat) → List Nat
  | 0, _ => []
  | n + 1, x => digitsBE b n (x / b) ++ [x % b]

@[simp] theorem length_digitsBE : (digitsBE b n x).length = n := by
  induction n generalizing x with
  | zero => rfl
  | succ n ih => rw [digitsBE, List.length_append, ih, List.length_singleton]

theorem digitsBE_lt (hb : 0 < b) : ∀ d ∈ digitsBE b n x, d < b := by
  induction n generalizing x with
  | zero => exact nofun
  | succ n ih =>
    intro d hd
    rw [digitsBE, List.mem_append, List.mem_singleton] at hd
    obtain hd | rfl := hd
    · exact ih d hd
    · exact Nat.mod_lt x hb

theorem ofDigitsBE_append : ofDigitsBE b acc (ds ++ ds') = ofDigitsBE b (ofDigitsBE b acc ds) ds' := by
  induction ds generalizing acc with
  | nil => rfl
  | cons d ds ih => exact ih

theorem ofDigitsBE_concat : ofDigitsBE b acc (ds ++ [d]) = ofDigitsBE b acc ds * b + d :=
  ofDigitsBE_append

theorem digitsBE_ofDigitsBE (h : ∀ d ∈ ds, d < b) : digitsBE b ds.length (ofDigitsBE b 0 ds) = ds := by
  induction ds using List.reverseRecOn with
  | nil => rfl
  | append_singleton ds d ih =>
    have hd : d < b := h d (List.mem_append_right _ List.mem_cons_self)
    have hpos : 0 < b := Nat.lt_of_le_of_lt (Nat.zero_le d) hd
    have hdiv : (ofDigitsBE b 0 ds * b + d) / b = ofDigitsBE b 0 ds := by
      rw [Nat.mul_comm, Nat.mul_add_div hpos, Nat.div_eq_of_lt hd, Nat.add_zero]
    have hmod : (ofDigitsBE b 0 ds * b + d) % b = d := by
      rw [Nat.mul_comm, Nat.mul_add_mod, Nat.mod_eq_of_lt hd]
    rw [List.length_append, List.length_singleton, digitsBE, ofDigitsBE_concat, hdiv, hmod,
      ih fun d' hd' => h d' (List.mem_append_left _ hd')]

end KeryxMiner
