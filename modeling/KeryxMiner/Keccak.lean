import Mathlib.Data.Fintype.Basic
import Mathlib.Data.Nat.Log
import Mathlib.Tactic.FinCases
import KeryxMiner.BigEndian
import KeryxMiner.Bytes

/-!
# Keccak

The permutation Keccak-f[1600] by the bits of its state, as the standard defines it, and by the
lanes of 64 bits that programs compute with, which is the same (`bitsOf_f1600`). The sponge over it
takes bytes in blocks and cSHAKE256 starts it with a block that names what it is used for; a block
that is given by its words is added to the lanes word by word (`addBlock_words`), so what is hashed
after that block is hashed from a fixed state (`cshake256_of_lt`).
-/

namespace KeryxMiner.Keccak

/-! ## The permutation by bits -/

/-- The bits `A[x, y, z]` of a state. -/
abbrev Bits := Fin 5 → Fin 5 → Fin 64 → Bool

namespace Bits

variable (A : Bits)

def parity (x : Fin 5) (z : Fin 64) : Bool := A x 0 z ^^ A x 1 z ^^ A x 2 z ^^ A x 3 z ^^ A x 4 z

def theta : Bits := fun x y z => A x y z ^^ (parity A (x - 1) z ^^ parity A (x + 1) (z - 1))

/-- The lane that `rho` comes to after `t` steps. -/
def rhoLane : Nat → Fin 5 × Fin 5
  | 0 => (1, 0)
  | t + 1 => ((rhoLane t).2, 2 * (rhoLane t).1 + 3 * (rhoLane t).2)

/-- How far `rho` turns a lane. -/
def offset (x y : Fin 5) : Nat :=
  match (List.range 24).find? fun t => rhoLane t = (x, y) with
  | some t => (t + 1) * (t + 2) / 2
  | none => 0

def rho : Bits := fun x y z => A x y (z - Fin.ofNat 64 (offset x y))

def pi : Bits := fun x y z => A (x + 3 * y) x z

def chi : Bits := fun x y z => A x y z ^^ (!A (x + 1) y z && A (x + 2) y z)

/-- A step of the register of `rc`, of eight bits. -/
def rcStep : List Bool → List Bool
  | [r0, r1, r2, r3, r4, r5, r6, r7] => [r7, r0, r1, r2, r3 ^^ r7, r4 ^^ r7, r5 ^^ r7, r6]
  | r => r

def rc (t : Nat) : Bool :=
  (rcStep^[t % 255] [true, false, false, false, false, false, false, false]).headD false

/-- The bits of a round constant. -/
def roundConstant (ir : Nat) (z : Fin 64) : Bool :=
  (List.range 7).any fun j => z.val = 2 ^ j - 1 && rc (j + 7 * ir)

def iota (ir : Nat) : Bits := fun x y z =>
  if x = 0 ∧ y = 0 then A x y z ^^ roundConstant ir z else A x y z

def round (ir : Nat) : Bits := iota (chi (pi (rho (theta A)))) ir

/-- Keccak-f[1600]. -/
def f1600 : Bits := (List.range 24).foldl round A

end Bits

/-! ## The permutation by lanes -/

/-- Lane `x, y` has number `x + 5 * y`. -/
abbrev Lanes := Vector UInt64 25

def rotl (w : UInt64) (n : Nat) : UInt64 := ⟨w.toBitVec.rotateLeft n⟩

namespace Lanes

def lane (a : Lanes) (x y : Fin 5) : UInt64 := a.get ⟨x.val + 5 * y.val, by omega⟩

def ofLanes (f : Fin 5 → Fin 5 → UInt64) : Lanes :=
  #v[f 0 0, f 1 0, f 2 0, f 3 0, f 4 0, f 0 1, f 1 1, f 2 1, f 3 1, f 4 1, f 0 2, f 1 2, f 2 2,
    f 3 2, f 4 2, f 0 3, f 1 3, f 2 3, f 3 3, f 4 3, f 0 4, f 1 4, f 2 4, f 3 4, f 4 4]

def parity (a : Lanes) (x : Fin 5) : UInt64 :=
  lane a x 0 ^^^ lane a x 1 ^^^ lane a x 2 ^^^ lane a x 3 ^^^ lane a x 4

def theta (a : Lanes) : Lanes :=
  ofLanes fun x y => lane a x y ^^^ (parity a (x - 1) ^^^ rotl (parity a (x + 1)) 1)

def rotations : Vector Nat 25 :=
  #v[0, 1, 62, 28, 27, 36, 44, 6, 55, 20, 3, 10, 43, 25, 39, 41, 45, 15, 21, 8, 18, 2, 61, 56, 14]

def rho (a : Lanes) : Lanes :=
  ofLanes fun x y => rotl (lane a x y) (rotations.get ⟨x.val + 5 * y.val, by omega⟩)

def pi (a : Lanes) : Lanes := ofLanes fun x y => lane a (x + 3 * y) x

def chi (a : Lanes) : Lanes :=
  ofLanes fun x y => lane a x y ^^^ (~~~lane a (x + 1) y &&& lane a (x + 2) y)

def roundConstants : List UInt64 :=
  [0x0000000000000001, 0x0000000000008082, 0x800000000000808a, 0x8000000080008000,
    0x000000000000808b, 0x0000000080000001, 0x8000000080008081, 0x8000000000008009,
    0x000000000000008a, 0x0000000000000088, 0x0000000080008009, 0x000000008000000a,
    0x000000008000808b, 0x800000000000008b, 0x8000000000008089, 0x8000000000008003,
    0x8000000000008002, 0x8000000000000080, 0x000000000000800a, 0x800000008000000a,
    0x8000000080008081, 0x8000000000008080, 0x0000000080000001, 0x8000000080008008]

def iota (a : Lanes) (c : UInt64) : Lanes :=
  ofLanes fun x y => if x = 0 ∧ y = 0 then lane a x y ^^^ c else lane a x y

def round (a : Lanes) (c : UInt64) : Lanes := iota (chi (pi (rho (theta a)))) c

def f1600 (a : Lanes) : Lanes := roundConstants.foldl round a

/-- The bits of the lanes. -/
def bitsOf (a : Lanes) : Bits := fun x y z => (lane a x y).toBitVec.getLsbD z

end Lanes

section

open Lanes

variable {a : Lanes} {f : Fin 5 → Fin 5 → UInt64} {x y : Fin 5} {z : Fin 64} {w v : UInt64}

theorem lane_ofLanes : lane (ofLanes f) x y = f x y := by
  fin_cases x <;> fin_cases y <;> rfl

theorem bit_rotl {n : Nat} :
    (rotl w n).toBitVec.getLsbD z = w.toBitVec.getLsbD (z - Fin.ofNat 64 n).val := by
  have hz := z.isLt
  have hval : (z - Fin.ofNat 64 n).val = (64 - n % 64 + z.val) % 64 := rfl
  rw [rotl, hval, BitVec.getLsbD_rotateLeft]
  by_cases hlt : z.val < n % 64
  · have hmod : (64 - n % 64 + z.val) % 64 = 64 - n % 64 + z.val := Nat.mod_eq_of_lt (by omega)
    rw [decide_eq_true hlt, Bool.cond_true, hmod]
  · have hmod : (64 - n % 64 + z.val) % 64 = z.val - n % 64 := by omega
    rw [decide_eq_false hlt, Bool.cond_false, decide_eq_true hz, Bool.true_and, hmod]

theorem bit_xor : (w ^^^ v).toBitVec.getLsbD z = (w.toBitVec.getLsbD z ^^ v.toBitVec.getLsbD z) := by
  rw [UInt64.toBitVec_xor, BitVec.getLsbD_xor]

theorem bit_and : (w &&& v).toBitVec.getLsbD z = (w.toBitVec.getLsbD z && v.toBitVec.getLsbD z) := by
  rw [UInt64.toBitVec_and, BitVec.getLsbD_and]

theorem bit_not : (~~~w).toBitVec.getLsbD z = !w.toBitVec.getLsbD z := by
  rw [UInt64.toBitVec_not, BitVec.getLsbD_not, decide_eq_true z.isLt, Bool.true_and]

theorem bit_parity : (parity a x).toBitVec.getLsbD z = (bitsOf a).parity x z := by
  simp only [parity, bit_xor]
  rfl

theorem bitsOf_theta : bitsOf (theta a) = (bitsOf a).theta := by
  funext x y z
  rw [bitsOf, theta, lane_ofLanes, bit_xor, bit_xor, bit_rotl, bit_parity, bit_parity]
  rfl

theorem rotations_eq : ∀ x y : Fin 5,
    Fin.ofNat 64 (rotations.get ⟨x.val + 5 * y.val, by omega⟩) = Fin.ofNat 64 (Bits.offset x y) := by
  decide +kernel

theorem bitsOf_rho : bitsOf (rho a) = (bitsOf a).rho := by
  funext x y z
  rw [bitsOf, rho, lane_ofLanes, bit_rotl, rotations_eq]
  rfl

theorem bitsOf_pi : bitsOf (pi a) = (bitsOf a).pi := by
  funext x y z
  rw [bitsOf, pi, lane_ofLanes]
  rfl

theorem bitsOf_chi : bitsOf (chi a) = (bitsOf a).chi := by
  funext x y z
  rw [bitsOf, chi, lane_ofLanes, bit_xor, bit_and, bit_not]
  rfl

theorem roundConstants_eq : ∀ (ir : Fin 24) (z : Fin 64),
    (roundConstants.getD ir 0).toBitVec.getLsbD z = Bits.roundConstant ir z := by
  decide +kernel

theorem bitsOf_iota (ir : Fin 24) : bitsOf (iota a (roundConstants.getD ir 0)) = (bitsOf a).iota ir := by
  funext x y z
  rw [bitsOf, iota, lane_ofLanes, Bits.iota]
  split_ifs
  · rw [bit_xor, roundConstants_eq]
    rfl
  · rfl

theorem bitsOf_round (ir : Fin 24) :
    bitsOf (Lanes.round a (roundConstants.getD ir 0)) = (bitsOf a).round ir := by
  rw [Lanes.round, bitsOf_iota, bitsOf_chi, bitsOf_pi, bitsOf_rho, bitsOf_theta, Bits.round]

/-- The permutation by lanes is the standard's. -/
theorem bitsOf_f1600 : bitsOf (f1600 a) = (bitsOf a).f1600 := by
  have hrounds (rs : List (Fin 24)) : ∀ a : Lanes,
      bitsOf ((rs.map fun ir : Fin 24 => roundConstants.getD ir 0).foldl Lanes.round a) =
        (rs.map Fin.val).foldl Bits.round (bitsOf a) := by
    induction rs with
    | nil => exact fun _ => rfl
    | cons ir rs ih =>
      intro a
      rw [List.map_cons, List.foldl_cons, ih, bitsOf_round, List.map_cons, List.foldl_cons]
  exact hrounds (List.finRange 24) a

end

/-! ## The sponge -/

/-- The bytes of a block of the sponge with capacity 512. -/
def rate : Nat := 136

/-- The word in eight bytes of a block, with zeros after its end. -/
def blockWord (block : List UInt8) (i : Nat) : UInt64 := UInt64.ofNat (leAt 8 block (8 * i))

def addBlock (a : Lanes) (block : List UInt8) : Lanes :=
  Vector.ofFn fun i => a.get i ^^^ blockWord block i

def absorb (a : Lanes) (m : List UInt8) : Lanes :=
  (List.range (m.length / rate)).foldl
    (fun a i => Lanes.f1600 (addBlock a ((m.drop (rate * i)).take rate))) a

/-- `n` blocks of output. -/
def squeeze : (n : Nat) → Lanes → List UInt8
  | 0, _ => []
  | n + 1, a => (a.toList.flatMap wordBytes).take rate ++ squeeze n (Lanes.f1600 a)

/-- The padding after bits that end the domain, in whole bytes. -/
def pad (domain : UInt8) (m : List UInt8) : List UInt8 :=
  match rate - m.length % rate with
  | q + 2 => m ++ [domain] ++ List.replicate q 0 ++ [0x80]
  | _ => m ++ [domain ||| 0x80]

/-- `count` bytes of the sponge with capacity 512. -/
def keccak512 (domain : UInt8) (m : List UInt8) (count : Nat) : List UInt8 :=
  (squeeze ((count + rate - 1) / rate) (absorb (Vector.replicate 25 0) (pad domain m))).take count

def leftEncode (n : Nat) : List UInt8 :=
  let count := Nat.log 256 n + 1
  (count :: digitsBE 256 count n).map UInt8.ofNat

def encodeString (s : List UInt8) : List UInt8 := leftEncode (8 * s.length) ++ s

def bytepad (x : List UInt8) (w : Nat) : List UInt8 :=
  let z := leftEncode w ++ x
  z ++ List.replicate ((w - z.length % w) % w) 0

/-- The hash of `x` for the function `n` and the customization `s`. -/
def cshake256 (x n s : List UInt8) (count : Nat) : List UInt8 :=
  if n = [] ∧ s = [] then keccak512 0x1f x count
  else keccak512 0x04 (bytepad (encodeString n ++ encodeString s) rate ++ x) count

section

variable {a : Lanes} {ws : List UInt64} {block x s : List UInt8}

/-- A block of words is added to the lanes word by word. -/
theorem addBlock_words :
    addBlock a (ws.flatMap wordBytes) = Vector.ofFn fun i => a.get i ^^^ ws.getD i 0 := by
  simp only [addBlock, blockWord, leAt_wordBytes, UInt64.ofNat_toNat]

theorem absorb_of_lt (h : block.length < rate) : absorb a block = a := by
  rw [absorb, Nat.div_eq_of_lt h]
  rfl

/-- The blocks are taken one after the other. -/
theorem absorb_append (h : block.length = rate) :
    absorb a (block ++ x) = absorb (Lanes.f1600 (addBlock a block)) x := by
  have hlen : (block ++ x).length / rate = x.length / rate + 1 := by
    rw [List.length_append, h, Nat.add_div_left _ (by decide)]
  have hfirst : ((block ++ x).drop (rate * 0)).take rate = block := by
    rw [Nat.mul_zero, List.drop_zero, List.take_left' h]
  have hnext (i : Nat) : (block ++ x).drop (rate * (i + 1)) = x.drop (rate * i) := by
    rw [Nat.mul_succ, Nat.add_comm, ← List.drop_drop, List.drop_left' h]
  rw [absorb, hlen, List.range_succ_eq_map, List.foldl_cons, List.foldl_map, hfirst]
  simp only [Nat.succ_eq_add_one, hnext]
  rfl

theorem absorb_block (h : block.length = rate) :
    absorb a block = Lanes.f1600 (addBlock a block) := by
  have happend := absorb_append (a := a) (x := []) h
  rw [List.append_nil] at happend
  rw [happend, absorb_of_lt (by decide)]

theorem pad_append {domain : UInt8} (h : block.length = rate) :
    pad domain (block ++ x) = block ++ pad domain x := by
  have hmod : (block ++ x).length % rate = x.length % rate := by
    rw [List.length_append, h, Nat.add_mod_left]
  rw [pad, pad, hmod]
  split <;> simp only [List.append_assoc]

theorem pad_of_lt {domain : UInt8} (h : x.length + 1 < rate) :
    pad domain x = x ++ [domain] ++ List.replicate (rate - x.length - 2) 0 ++ [0x80] := by
  have hfree : rate - x.length % rate = rate - x.length - 2 + 2 := by
    rw [Nat.mod_eq_of_lt (by omega)]
    omega
  rw [pad, hfree]

theorem leftEncode_of_lt {n : Nat} (h : n < 256) : leftEncode n = [1, UInt8.ofNat n] := by
  rw [leftEncode, Nat.log_of_lt h]
  simp [digitsBE, Nat.mod_eq_of_lt h]

/-- The block that names a customization. -/
theorem bytepad_of_lt (h : s.length < 32) : bytepad (encodeString [] ++ encodeString s) rate =
    [1, 136, 1, 0, 1, UInt8.ofNat (8 * s.length)] ++ s ++ List.replicate (130 - s.length) 0 := by
  have hrate : leftEncode rate = [1, 136] := leftEncode_of_lt (by decide)
  have hnil : leftEncode (8 * ([] : List UInt8).length) = [1, 0] := leftEncode_of_lt (by decide)
  have hs : leftEncode (8 * s.length) = [1, UInt8.ofNat (8 * s.length)] :=
    leftEncode_of_lt (by omega)
  have hz : leftEncode rate ++ (encodeString [] ++ encodeString s) =
      [1, 136, 1, 0, 1, UInt8.ofNat (8 * s.length)] ++ s := by
    rw [encodeString, encodeString, hrate, hnil, hs]
    rfl
  have hlen : ([1, 136, 1, 0, 1, UInt8.ofNat (8 * s.length)] ++ s).length = 6 + s.length :=
    List.length_append
  have hfree : (rate - (6 + s.length) % rate) % rate = 130 - s.length := by
    rw [rate]
    omega
  rw [bytepad, hz, hlen, hfree]

/-- The words of a hash of 32 bytes. -/
theorem take_words : (a.toList.flatMap wordBytes).take 32 = (a.toList.take 4).flatMap wordBytes := by
  have hlen : (a.toList.take 4).length = 4 := by
    rw [List.length_take, Vector.length_toList]
    rfl
  have hbytes : ((a.toList.take 4).flatMap wordBytes).length = 32 := by
    simp [List.length_flatMap]
  rw [← List.take_append_drop 4 a.toList, List.flatMap_append, List.take_left' hbytes,
    List.take_append_drop]

/-- What fits one block is hashed by one permutation of the state of its customization. -/
theorem cshake256_of_lt (hs : s.length < 32) (hne : s ≠ []) (hx : x.length + 1 < rate) :
    cshake256 x [] s 32 = ((Lanes.f1600 (addBlock (Lanes.f1600 (addBlock (Vector.replicate 25 0)
      (bytepad (encodeString [] ++ encodeString s) rate))) (pad 0x04 x))).toList.take 4).flatMap
        wordBytes := by
  have hblock : (bytepad (encodeString [] ++ encodeString s) rate).length = rate := by
    rw [bytepad_of_lt hs, List.length_append, List.length_append, List.length_replicate, rate]
    simp only [List.length_cons, List.length_nil]
    omega
  have hpad : (pad 0x04 x).length = rate := by
    rw [pad_of_lt hx]
    simp only [List.length_append, List.length_replicate, List.length_singleton]
    omega
  have hfirst (a : Lanes) : (squeeze 1 a).take 32 = (a.toList.flatMap wordBytes).take 32 := by
    rw [squeeze, squeeze, List.append_nil, List.take_take]
    rfl
  rw [cshake256, if_neg fun h => hne h.2, keccak512, pad_append hblock, absorb_append hblock,
    absorb_block hpad, ← take_words]
  exact hfirst _

end

end KeryxMiner.Keccak
