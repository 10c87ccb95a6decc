import Mathlib.Data.Nat.Digits.Lemmas

/-!
# Numbers in words

A number in 64-bit words, the lowest first. A word is set by what it adds (`ofWords_set`), the
halves of a shifted word make up its product by the power of two (`toNat_shiftLeft_carry`), and the
order of the words from the highest down is that of the numbers (`compare_words`).
-/

namespace KeryxMiner

variable {ws vs : List UInt64} {w v : UInt64} {i b n : Nat}

/-- The number that the words make up. -/
def ofWords (ws : List UInt64) : Nat := Nat.ofDigits (2 ^ 64) (ws.map UInt64.toNat)

@[simp] theorem ofWords_nil : ofWords [] = 0 := rfl

theorem ofWords_cons : ofWords (w :: ws) = w.toNat + 2 ^ 64 * ofWords ws := by
  rw [ofWords, List.map_cons, Nat.ofDigits_cons, ofWords]

variable (ws) in
theorem ofWords_lt : ofWords ws < 2 ^ (64 * ws.length) := by
  induction ws with
  | nil => exact Nat.one_pos
  | cons w ws ih =>
    have hw := w.toNat_lt
    rw [ofWords_cons, List.length_cons, Nat.mul_succ, Nat.pow_add, Nat.mul_comm (2 ^ _) (2 ^ 64)]
    calc w.toNat + 2 ^ 64 * ofWords ws < 2 ^ 64 + 2 ^ 64 * ofWords ws := Nat.add_lt_add_right hw _
      _ = 2 ^ 64 * (ofWords ws + 1) := by rw [Nat.mul_succ, Nat.add_comm]
      _ ≤ 2 ^ 64 * 2 ^ (64 * ws.length) := Nat.mul_le_mul_left _ ih

theorem ofWords_replicate_zero : ofWords (List.replicate n 0) = 0 := by
  induction n with
  | zero => rfl
  | succ n ih => rw [List.replicate_succ, ofWords_cons, ih, UInt64.toNat_zero, Nat.mul_zero]

theorem ofWords_inj (hlen : ws.length = vs.length) (h : ofWords ws = ofWords vs) : ws = vs := by
  have hmap : Function.Injective (List.map UInt64.toNat) :=
    List.map_injective_iff.mpr fun _ _ => UInt64.toNat_inj.mp
  have hlt (l : List UInt64) : ∀ d ∈ l.map UInt64.toNat, d < 2 ^ 64 := by
    intro d hd
    obtain ⟨w, -, rfl⟩ := List.mem_map.mp hd
    exact w.toNat_lt
  apply hmap
  exact Nat.ofDigits_inj_of_len_eq (by decide) (by rw [List.length_map, List.length_map, hlen])
    (hlt ws) (hlt vs) h

variable (ws w) in
/-- A word that is set counts for what it was before. -/
theorem ofWords_set (hi : i < ws.length) :
    ofWords (ws.set i w) + ws[i].toNat * 2 ^ (64 * i) = ofWords ws + w.toNat * 2 ^ (64 * i) := by
  induction ws generalizing i with
  | nil => exact absurd hi (Nat.not_lt_zero i)
  | cons u ws ih =>
    cases i with
    | zero =>
      rw [List.set_cons_zero, ofWords_cons, ofWords_cons, List.getElem_cons_zero]
      omega
    | succ i =>
      have hset := ih (Nat.lt_of_succ_lt_succ hi)
      rw [List.set_cons_succ, ofWords_cons, ofWords_cons, List.getElem_cons_succ, Nat.mul_succ,
        Nat.add_comm (64 * i), Nat.pow_add, Nat.mul_left_comm, Nat.mul_left_comm w.toNat,
        Nat.add_assoc, ← Nat.mul_add, hset, Nat.mul_add, Nat.add_assoc]

/-! ## Shifted words -/

theorem toNat_shiftLeft (hb : b < 64) :
    (w <<< UInt64.ofNat b).toNat = w.toNat * 2 ^ b % 2 ^ 64 := by
  have hmod : b % 2 ^ 64 % 64 = b := by omega
  rw [UInt64.toNat_shiftLeft, UInt64.toNat_ofNat', hmod, Nat.shiftLeft_eq]

theorem toNat_shiftRight (hb : b < 64) : (w >>> UInt64.ofNat b).toNat = w.toNat / 2 ^ b := by
  have hmod : b % 2 ^ 64 % 64 = b := by omega
  rw [UInt64.toNat_shiftRight, UInt64.toNat_ofNat', hmod, Nat.shiftRight_eq_div_pow]

theorem two_pow_split (hb : b < 64) : 2 ^ 64 = 2 ^ b * 2 ^ (64 - b) := by
  rw [← Nat.pow_add, Nat.add_sub_cancel' hb.le]

/-- What a shifted word loses is what the shift by the remaining bits leaves. -/
theorem toNat_shiftLeft_carry (hpos : 0 < b) (hb : b < 64) :
    (w <<< UInt64.ofNat b).toNat + (w >>> UInt64.ofNat (64 - b)).toNat * 2 ^ 64 =
      w.toNat * 2 ^ b := by
  have hdiv : w.toNat * 2 ^ b / 2 ^ 64 = w.toNat / 2 ^ (64 - b) := by
    rw [two_pow_split hb, Nat.mul_comm, Nat.mul_div_mul_left _ _ (Nat.two_pow_pos b)]
  rw [toNat_shiftLeft hb, toNat_shiftRight (by omega), ← hdiv, Nat.mod_add_div']

/-- The low bits of a shifted word are free. -/
theorem toNat_shiftLeft_add_le (hb : b < 64) : (w <<< UInt64.ofNat b).toNat + 2 ^ b ≤ 2 ^ 64 := by
  have hlt : w.toNat % 2 ^ (64 - b) < 2 ^ (64 - b) := Nat.mod_lt _ (Nat.two_pow_pos _)
  rw [toNat_shiftLeft hb, two_pow_split hb, Nat.mul_comm w.toNat, Nat.mul_mod_mul_left]
  calc 2 ^ b * (w.toNat % 2 ^ (64 - b)) + 2 ^ b
      = 2 ^ b * (w.toNat % 2 ^ (64 - b) + 1) := (Nat.mul_succ ..).symm
    _ ≤ 2 ^ b * 2 ^ (64 - b) := Nat.mul_le_mul_left _ hlt

theorem toNat_shiftRight_lt (hpos : 0 < b) (hb : b < 64) :
    (w >>> UInt64.ofNat (64 - b)).toNat < 2 ^ b := by
  rw [toNat_shiftRight (by omega)]
  apply Nat.div_lt_of_lt_mul
  rw [Nat.mul_comm, ← two_pow_split hb]
  exact w.toNat_lt

/-! ## The order -/

/-- The order of two lists from the front, as of two iterators. -/
def compareFront : List UInt64 → List UInt64 → Ordering
  | [], [] => .eq
  | [], _ => .lt
  | _, [] => .gt
  | w :: ws, v :: vs => (compare w v).then (compareFront ws vs)

theorem compareFront_concat (hlen : ws.length = vs.length) :
    compareFront (ws ++ [w]) (vs ++ [v]) = (compareFront ws vs).then (compare w v) := by
  induction ws generalizing vs with
  | nil =>
    obtain rfl := List.eq_nil_of_length_eq_zero hlen.symm
    exact Ordering.then_eq
  | cons u ws ih =>
    cases vs with
    | nil => cases hlen
    | cons t vs =>
      rw [List.cons_append, List.cons_append, compareFront, compareFront, ih (Nat.succ.inj hlen),
        Ordering.then_assoc]

theorem compare_toNat : compare w v = compare w.toNat v.toNat := by
  simp only [compare, compareOfLessAndEq, UInt64.lt_iff_toNat_lt, UInt64.toNat_inj]

/-- The higher part decides, the lowest word where they are equal. -/
theorem compare_cons : compare (ofWords (w :: ws)) (ofWords (v :: vs)) =
    (compare (ofWords ws) (ofWords vs)).then (compare w v) := by
  have hw := w.toNat_lt
  have hv := v.toNat_lt
  rw [ofWords_cons, ofWords_cons, compare_toNat]
  rcases Nat.lt_trichotomy (ofWords ws) (ofWords vs) with hlt | heq | hgt
  · rw [Nat.compare_eq_lt.mpr hlt, Nat.compare_eq_lt.mpr (by omega)]
    rfl
  · rw [heq, Nat.compare_eq_eq.mpr rfl]
    simp only [Ordering.then, Nat.compare_eq_ite_le, Nat.add_le_add_iff_right]
  · rw [Nat.compare_eq_gt.mpr hgt, Nat.compare_eq_gt.mpr (by omega)]
    rfl

theorem compare_words (hlen : ws.length = vs.length) :
    compareFront ws.reverse vs.reverse = compare (ofWords ws) (ofWords vs) := by
  induction ws generalizing vs with
  | nil =>
    obtain rfl := List.eq_nil_of_length_eq_zero hlen.symm
    rfl
  | cons w ws ih =>
    cases vs with
    | nil => cases hlen
    | cons v vs =>
      have hrest := Nat.succ.inj hlen
      rw [List.reverse_cons, List.reverse_cons, compareFront_concat (by simpa using hrest),
        ih hrest, compare_cons]

/-- A word where two numbers differ decides, else what is behind it. -/
theorem decide_word {rest : Bool} {o : Ordering} (h : rest = (o != .gt)) :
    (if w ≠ v then decide (w < v) else rest) = ((compare w v).then o != .gt) := by
  rw [compare_toNat]
  rcases Nat.lt_trichotomy w.toNat v.toNat with hlt | heq | hgt
  · have hne : w ≠ v := fun heq => hlt.ne (congrArg UInt64.toNat heq)
    rw [if_pos hne, Nat.compare_eq_lt.mpr hlt, decide_eq_true (UInt64.lt_iff_toNat_lt.mpr hlt)]
    rfl
  · rw [if_neg (not_not.mpr (UInt64.toNat_inj.mp heq)), Nat.compare_eq_eq.mpr heq, h]
    rfl
  · have hne : w ≠ v := fun heq => hgt.ne (congrArg UInt64.toNat heq.symm)
    have hge : ¬ w < v := fun hlt => Nat.lt_asymm hgt (UInt64.lt_iff_toNat_lt.mp hlt)
    rw [if_pos hne, Nat.compare_eq_gt.mpr hgt, decide_eq_false hge]
    rfl

end KeryxMiner
