import Mathlib.Algebra.Group.Nat.Defs
import Mathlib.Data.List.Basic

/-!
# Little-endian bytes

`ofLe` reads any number of bytes, `toLe` writes a number in a given count of bytes. A number that
fits is read back (`ofLe_toLe`), and so are the bytes (`toLe_ofLe`).
-/

namespace KeryxMiner

def ofLe : List UInt8 → Nat
  | [] => 0
  | b :: bs => b.toNat + 256 * ofLe bs

def toLe : (count n : Nat) → List UInt8
  | 0, _ => []
  | count + 1, n => UInt8.ofNat n :: toLe count (n / 256)

@[simp] theorem length_toLe {count n : Nat} : (toLe count n).length = count := by
  induction count generalizing n with
  | zero => rfl
  | succ count ih => rw [toLe, List.length_cons, ih]

theorem ofLe_toLe {count n : Nat} (h : n < 256 ^ count) : ofLe (toLe count n) = n := by
  induction count generalizing n with
  | zero => rw [Nat.pow_zero] at h; rw [toLe, ofLe]; omega
  | succ count ih =>
    have hdiv : n / 256 < 256 ^ count := by
      rw [Nat.pow_succ] at h
      omega
    rw [toLe, ofLe, ih hdiv, UInt8.toNat_ofNat']
    omega

theorem ofLe_toLe_mod {count n : Nat} : ofLe (toLe count n) = n % 256 ^ count := by
  induction count generalizing n with
  | zero => rw [Nat.pow_zero, Nat.mod_one, toLe, ofLe]
  | succ count ih =>
    have hmod : n % (256 * 256 ^ count) = n % 256 + 256 * (n / 256 % 256 ^ count) := Nat.mod_mul
    have hpow : 256 ^ (count + 1) = 256 * 256 ^ count := Nat.pow_succ'
    rw [toLe, ofLe, ih, UInt8.toNat_ofNat', hpow, hmod]

theorem ofLe_lt (bs : List UInt8) : ofLe bs < 256 ^ bs.length := by
  induction bs with
  | nil => decide
  | cons b bs ih =>
    have hb : b.toNat < 256 := b.toNat_lt
    rw [ofLe, List.length_cons, Nat.pow_succ]
    omega

theorem ofLe_replicate_zero {n : Nat} : ofLe (List.replicate n 0) = 0 := by
  induction n with
  | zero => rfl
  | succ n ih => rw [List.replicate_succ, ofLe, ih]; rfl

theorem toLe_ofLe (bs : List UInt8) : toLe bs.length (ofLe bs) = bs := by
  induction bs with
  | nil => rfl
  | cons b bs ih =>
    have hb : b.toNat < 256 := b.toNat_lt
    have hdiv : (b.toNat + 256 * ofLe bs) / 256 = ofLe bs := by omega
    have hmod : UInt8.ofNat (b.toNat + 256 * ofLe bs) = b := by
      rw [← UInt8.toNat_inj, UInt8.toNat_ofNat']
      omega
    rw [ofLe, List.length_cons, toLe, hdiv, ih, hmod]

theorem ofLe_append (bs cs : List UInt8) :
    ofLe (bs ++ cs) = ofLe bs + 256 ^ bs.length * ofLe cs := by
  induction bs with
  | nil => simp [ofLe]
  | cons b bs ih =>
    rw [List.cons_append, ofLe, ih, ofLe, List.length_cons, Nat.pow_succ', Nat.mul_add,
      Nat.mul_assoc, Nat.add_assoc]

end KeryxMiner
