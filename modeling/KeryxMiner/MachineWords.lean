import KeryxMiner.Blocks
import KeryxMiner.Bytes
import Mathlib.Data.Nat.Bitwise
import Mathlib.Tactic.Linarith
import Mathlib.Tactic.Ring

/-!
# Words in halves and bytes

What programs do with words of one size when they have only smaller ones: the high word of a product
from the products of the halves (`high_product`), a remainder from a reciprocal (`reciprocal_spec`),
a product of which only the low bits matter (`mul_mod_two_pow`). A word of 32 bits is its four bytes
(`bytes32_pack`), one of 64 bits its halves (`halves_join`).
-/

namespace KeryxMiner

variable {n x W : Nat}

/-! ## Products and remainders -/

/-- The quotient from a rounded reciprocal is the right one or one less. -/
theorem reciprocal_spec (hn : 0 < n) (hx : x < W) :
    x * ((W - 1) / n) / W * n ≤ x ∧ x < x * ((W - 1) / n) / W * n + 2 * n := by
  have hW : 0 < W := Nat.zero_lt_of_lt hx
  have hinv : (W - 1) / n * n ≤ W - 1 := Nat.div_mul_le_self ..
  have hrem : W - 1 < (W - 1) / n * n + n := Nat.lt_div_mul_add hn
  generalize (W - 1) / n = inv at hinv hrem ⊢
  have hlow : x * inv / W * W ≤ x * inv := Nat.div_mul_le_self ..
  have hhigh : x * inv < x * inv / W * W + W := Nat.lt_div_mul_add hW
  generalize x * inv / W = q at hlow hhigh ⊢
  constructor
  · apply Nat.le_of_mul_le_mul_right _ hW
    calc q * n * W = q * W * n := Nat.mul_right_comm ..
      _ ≤ x * inv * n := Nat.mul_le_mul_right n hlow
      _ = x * (inv * n) := Nat.mul_assoc ..
      _ ≤ x * W := Nat.mul_le_mul_left x (by omega)
  · apply Nat.lt_of_mul_lt_mul_right (a := W)
    have hxn : x * n < W * n := Nat.mul_lt_mul_of_pos_right hx hn
    have hq : x * inv * n < (q * W + W) * n := Nat.mul_lt_mul_of_pos_right hhigh hn
    calc x * W ≤ x * (inv * n + n) := Nat.mul_le_mul_left x (by omega)
      _ = x * inv * n + x * n := by rw [Nat.mul_add, Nat.mul_assoc]
      _ < (q * W + W) * n + W * n := Nat.add_lt_add hq hxn
      _ = (q * n + 2 * n) * W := by ring

/-- The remainder after one correction. -/
theorem reciprocal_mod (hn : 0 < n) (hx : x < W) :
    (if n ≤ x - x * ((W - 1) / n) / W * n then x - x * ((W - 1) / n) / W * n - n
      else x - x * ((W - 1) / n) / W * n) = x % n := by
  obtain ⟨hle, hlt⟩ := reciprocal_spec hn hx
  generalize x * ((W - 1) / n) / W = q at hle hlt ⊢
  have hmod : x % n = (x - q * n) % n := by
    conv_lhs => rw [← Nat.sub_add_cancel hle, Nat.add_mul_mod_self_right]
  have hr : x - q * n < 2 * n := by omega
  rw [hmod]
  generalize x - q * n = r at hr ⊢
  split
  · next h => rw [Nat.mod_eq_sub_mod h, Nat.mod_eq_of_lt (by omega)]
  · next h => rw [Nat.mod_eq_of_lt (by omega)]

/-- The product of two words, from the four products of their halves. -/
theorem product_halves {a0 a1 b0 b1 h : Nat} : (a1 * h + a0) * (b1 * h + b0) =
    a1 * b1 * (h * h) + (a0 * b1 + a1 * b0) * h + a0 * b0 := by
  ring

/-- The low bits of a product come from the low bits of its factors. -/
theorem mul_mod_two_pow {a b k : Nat} : (a % 2 ^ k) * (b % 2 ^ k) % 2 ^ k = a * b % 2 ^ k :=
  (Nat.mul_mod ..).symm

/-- The low `k` bits of `a ^ (a >> s)` come from the low `k + s` bits of `a`. -/
theorem xorShift_mod_two_pow {a b k s : Nat} (h : a % 2 ^ (k + s) = b % 2 ^ (k + s)) :
    (a ^^^ a >>> s) % 2 ^ k = (b ^^^ b >>> s) % 2 ^ k := by
  apply Nat.eq_of_testBit_eq
  intro i
  have hbit : ∀ j < k + s, a.testBit j = b.testBit j := by
    intro j hj
    have hj' := congrArg (Nat.testBit · j) h
    simpa [Nat.testBit_mod_two_pow, hj] using hj'
  simp only [Nat.testBit_mod_two_pow, Nat.testBit_xor, Nat.testBit_shiftRight]
  by_cases hi : i < k
  · rw [hbit i (by omega), hbit (s + i) (by omega)]
  · simp [hi]

/-! ## Halves -/

theorem or_shiftLeft {a b k : Nat} (ha : a < 2 ^ k) : a ||| b <<< k = a + b * 2 ^ k := by
  rw [Nat.or_comm, ← Nat.shiftLeft_add_eq_or_of_lt ha, Nat.shiftLeft_eq, Nat.add_comm]

theorem toNat_halves (lo hi : UInt32) :
    (lo.toUInt64 ||| hi.toUInt64 <<< 32).toNat = lo.toNat + hi.toNat * 2 ^ 32 := by
  have hlo : lo.toNat < 2 ^ 32 := lo.toNat_lt
  have hhi : hi.toNat < 2 ^ 32 := hi.toNat_lt
  have hshift : (hi.toUInt64 <<< 32).toNat = hi.toNat <<< 32 := by
    have h32 : (32 : UInt64).toNat % 64 = 32 := rfl
    rw [UInt64.toNat_shiftLeft, UInt32.toNat_toUInt64, h32, Nat.shiftLeft_eq]
    omega
  rw [UInt64.toNat_or, UInt32.toNat_toUInt64, hshift, or_shiftLeft hlo]

theorem toNat_eq_halves (w : UInt64) :
    w.toNat = w.toUInt32.toNat + (w >>> 32).toUInt32.toNat * 2 ^ 32 := by
  have h32 : (32 : UInt64).toNat % 64 = 32 := rfl
  have hw : w.toNat < 2 ^ 64 := w.toNat_lt
  rw [UInt64.toNat_toUInt32, UInt64.toNat_toUInt32, UInt64.toNat_shiftRight, h32,
    Nat.shiftRight_eq_div_pow]
  omega

theorem halves_join (w : UInt64) :
    w.toUInt32.toUInt64 ||| (w >>> 32).toUInt32.toUInt64 <<< 32 = w := by
  rw [← UInt64.toNat_inj, toNat_halves, ← toNat_eq_halves]

/-! ## Bytes -/

def wordBytes32 (w : UInt32) : List UInt8 := toLe 4 w.toNat

@[simp] theorem length_wordBytes32 {w : UInt32} : (wordBytes32 w).length = 4 := length_toLe

theorem ofLe_wordBytes32 {w : UInt32} : ofLe (wordBytes32 w) = w.toNat :=
  ofLe_toLe w.toNat_lt

/-- The bytes of some words. -/
def wordsBytes (ws : List UInt32) : List UInt8 := ws.flatMap wordBytes32

@[simp] theorem wordsBytes_nil : wordsBytes [] = [] := rfl

@[simp] theorem wordsBytes_cons {w : UInt32} {ws : List UInt32} :
    wordsBytes (w :: ws) = wordBytes32 w ++ wordsBytes ws := rfl

theorem wordsBytes_append {ws vs : List UInt32} :
    wordsBytes (ws ++ vs) = wordsBytes ws ++ wordsBytes vs := List.flatMap_append

theorem length_wordsBytes {ws : List UInt32} : (wordsBytes ws).length = ws.length * 4 := by
  induction ws with
  | nil => rfl
  | cons w ws ih =>
    rw [wordsBytes_cons, List.length_append, length_wordBytes32, ih, List.length_cons]
    omega

theorem block_wordsBytes {ws : List UInt32} {i : Nat} (hi : i < ws.length) :
    block 4 (wordsBytes ws) i = wordBytes32 ws[i] := by
  induction ws generalizing i with
  | nil => cases hi
  | cons w ws ih =>
    have hlen : (wordBytes32 w).length = 4 := length_wordBytes32
    rw [wordsBytes_cons]
    cases i with
    | zero =>
      rw [block, Nat.zero_mul, List.drop_zero, List.take_append_of_le_length hlen.ge,
        List.take_of_length_le hlen.le]
      rfl
    | succ i =>
      have hdrop : (i + 1) * 4 = (wordBytes32 w).length + i * 4 := by omega
      rw [block, hdrop, List.drop_length_add_append]
      exact ih (Nat.lt_of_succ_lt_succ hi)

/-- The words that some bytes are. -/
theorem wordsBytes_ofLe {bytes : List UInt8} (hlen : bytes.length = n * 4) :
    wordsBytes ((List.range n).map fun i => UInt32.ofNat (ofLe (block 4 bytes i))) = bytes := by
  conv_rhs => rw [← flatMap_block hlen]
  rw [wordsBytes, List.flatMap_map]
  apply List.flatMap_congr
  intro i hi
  have hle : (i + 1) * 4 ≤ n * 4 := Nat.mul_le_mul_right _ (List.mem_range.mp hi)
  have hblock : (block 4 bytes i).length = 4 := length_block (hlen ▸ hle)
  have hlt : ofLe (block 4 bytes i) < 2 ^ 32 := by
    have hlt := ofLe_lt (block 4 bytes i)
    rwa [hblock] at hlt
  have hbytes := toLe_ofLe (block 4 bytes i)
  rw [hblock] at hbytes
  rw [wordBytes32, UInt32.toNat_ofNat_of_lt' hlt, hbytes]

theorem wordBytes_eq (w : UInt64) :
    wordBytes w = wordBytes32 w.toUInt32 ++ wordBytes32 (w >>> 32).toUInt32 := by
  have hnat : ofLe (wordBytes32 w.toUInt32 ++ wordBytes32 (w >>> 32).toUInt32) = w.toNat := by
    rw [ofLe_append, ofLe_wordBytes32, ofLe_wordBytes32, length_wordBytes32, toNat_eq_halves w,
      Nat.mul_comm]
    rfl
  have hbytes := toLe_ofLe (wordBytes32 w.toUInt32 ++ wordBytes32 (w >>> 32).toUInt32)
  rw [hnat, List.length_append, length_wordBytes32, length_wordBytes32] at hbytes
  exact hbytes

/-- The two bytes in the low half of a word. -/
theorem toNat_pair (r s : UInt8) :
    (r.toUInt32 ||| s.toUInt32 <<< 8).toNat = r.toNat + s.toNat * 2 ^ 8 := by
  have hr : r.toNat < 2 ^ 8 := r.toNat_lt
  have hs : s.toNat < 2 ^ 8 := s.toNat_lt
  have h8 : (8 : UInt32).toNat % 32 = 8 := rfl
  have hshift : (s.toUInt32 <<< 8).toNat = s.toNat <<< 8 := by
    rw [UInt32.toNat_shiftLeft, UInt8.toNat_toUInt32, h8, Nat.shiftLeft_eq]
    omega
  rw [UInt32.toNat_or, UInt8.toNat_toUInt32, hshift, or_shiftLeft hr]

/-- Four bytes packed in two halves. -/
theorem wordBytes32_pack (r0 r1 r2 r3 : UInt8) :
    wordBytes32 (r0.toUInt32 ||| r1.toUInt32 <<< 8 ||| (r2.toUInt32 ||| r3.toUInt32 <<< 8) <<< 16) =
      [r0, r1, r2, r3] := by
  have h01 := toNat_pair r0 r1
  have h23 := toNat_pair r2 r3
  generalize r0.toUInt32 ||| r1.toUInt32 <<< 8 = lo at h01 ⊢
  generalize r2.toUInt32 ||| r3.toUInt32 <<< 8 = hi at h23 ⊢
  have hr0 : r0.toNat < 2 ^ 8 := r0.toNat_lt
  have hr1 : r1.toNat < 2 ^ 8 := r1.toNat_lt
  have hr2 : r2.toNat < 2 ^ 8 := r2.toNat_lt
  have hr3 : r3.toNat < 2 ^ 8 := r3.toNat_lt
  have h16 : (16 : UInt32).toNat % 32 = 16 := rfl
  have hshift : (hi <<< 16).toNat = hi.toNat <<< 16 := by
    rw [UInt32.toNat_shiftLeft, h16, Nat.shiftLeft_eq]
    omega
  have hle : (lo ||| hi <<< 16).toNat = ofLe [r0, r1, r2, r3] := by
    rw [UInt32.toNat_or, hshift, or_shiftLeft (by omega), h01, h23]
    simp only [ofLe]
    omega
  rw [wordBytes32, hle]
  exact toLe_ofLe [r0, r1, r2, r3]

end KeryxMiner
