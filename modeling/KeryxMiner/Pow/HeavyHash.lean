import KeryxMiner.Packing
import KeryxMiner.Pow.Hasher

/-!
# kHeavyHash

The hash of a block before the walk: `PowHasher`, a product with a matrix of 4-bit entries, four
rounds of additions, rotations and xors, and `HeavyHasher`. The matrix comes from a generator seeded
with the salted hash of the block; whether it has full rank is decided in floating point, which is
the parameter `rank` here.
-/

namespace KeryxMiner.Pow

open Keccak Stratum

/-! ## The matrix -/

def KERYX_MATRIX_SALT_V1 : List UInt8 := "KERYX:KeryxHash-v1:2026-04-12:xx".toUTF8.toList
def KERYX_MATRIX_SALT_V2 : List UInt8 := "KERYX:KeryxHash-v2:2026-05-29:xx".toUTF8.toList
def KERYX_MATRIX_SALT_V4 : List UInt8 := "KERYX:KeryxHash-v4:2026-06-07:xx".toUTF8.toList

def powSaltV2ActivationDaa (isTestnet : Bool) : UInt64 := if isTestnet then 0 else 17275000

def powSaltV4ActivationDaa (isTestnet : Bool) : UInt64 := if isTestnet then 0 else 21932751

def activeSaltVersion (isTestnet : Bool) (daaScore : UInt64) : UInt8 :=
  if powSaltV4ActivationDaa isTestnet ≤ daaScore then 4
  else if powSaltV2ActivationDaa isTestnet ≤ daaScore then 2
  else 1

structure XoShiRo256PlusPlus where
  s0 : UInt64
  s1 : UInt64
  s2 : UInt64
  s3 : UInt64

namespace XoShiRo256PlusPlus

attribute [local instance] neZero_four

def new (hash : Uint256) : XoShiRo256PlusPlus :=
  ⟨hash.words.get 0, hash.words.get 1, hash.words.get 2, hash.words.get 3⟩

/-- The number drawn, and the generator after it. -/
def u64 (g : XoShiRo256PlusPlus) : UInt64 × XoShiRo256PlusPlus :=
  let res := g.s0 + rotl (g.s0 + g.s3) 23
  let t := g.s1 <<< 17
  let s2 := g.s2 ^^^ g.s0
  let s3 := g.s3 ^^^ g.s1
  let s1 := g.s1 ^^^ s2
  let s0 := g.s0 ^^^ s3
  (res, ⟨s0, s1, s2 ^^^ t, rotl s3 45⟩)

end XoShiRo256PlusPlus

/-- The rows of 64 entries each. -/
abbrev Matrix := List (List UInt16)

namespace Matrix

/-- The 16 entries of a number that is drawn, the lowest bits first. -/
def entries (val : UInt64) : List UInt16 :=
  (List.range 16).map fun shift => ((val >>> UInt64.ofNat (4 * shift)) &&& 0x0F).toUInt16

/-- `n` numbers drawn in a row. -/
def draws : Nat → XoShiRo256PlusPlus → List UInt64 × XoShiRo256PlusPlus
  | 0, g => ([], g)
  | n + 1, g =>
    let d := g.u64
    let rest := draws n d.2
    (d.1 :: rest.1, rest.2)

def randRow (g : XoShiRo256PlusPlus) : List UInt16 × XoShiRo256PlusPlus :=
  let d := draws 4 g
  (d.1.flatMap entries, d.2)

def randRows : Nat → XoShiRo256PlusPlus → Matrix × XoShiRo256PlusPlus
  | 0, g => ([], g)
  | n + 1, g =>
    let row := randRow g
    let rest := randRows n row.2
    (row.1 :: rest.1, rest.2)

def randMatrixNoRankCheck (g : XoShiRo256PlusPlus) : Matrix × XoShiRo256PlusPlus := randRows 64 g

/-- The loop of `generate`, for `fuel` matrices at most. -/
def generateLoop (rank : Matrix → Nat) : (fuel : Nat) → XoShiRo256PlusPlus → Option Matrix
  | 0, _ => none
  | fuel + 1, g =>
    let mat := randMatrixNoRankCheck g
    if rank mat.1 = 64 then some mat.1 else generateLoop rank fuel mat.2

def generate (rank : Matrix → Nat) (fuel : Nat) (hash : Uint256) (saltVersion : UInt8) :
    Option Matrix :=
  let salt := if saltVersion = 1 then KERYX_MATRIX_SALT_V1
    else if saltVersion = 2 then KERYX_MATRIX_SALT_V2
    else KERYX_MATRIX_SALT_V4
  let bytes := List.zipWith (· ^^^ ·) hash.toLeBytes salt
  let salted : Uint256 := ⟨Vector.ofFn fun i => UInt64.ofNat (leAt 8 bytes (8 * i))⟩
  generateLoop rank fuel (XoShiRo256PlusPlus.new salted)

end Matrix

/-! ## The hash -/

def WAVE_MIX_KEYS : List UInt64 :=
  [0x9e3779b97f4a7c15, 0x6c62272e07bb0142, 0xb5ad4eceda1ce2a9, 0x243f6a8885a308d3]

def WAVE_MIX_ROTATIONS : List Nat := [17, 31, 47, 13]

structure WaveWords where
  w0 : UInt64
  w1 : UInt64
  w2 : UInt64
  w3 : UInt64

/-- One round on the four words. -/
def waveMixRound (w : WaveWords) (r : Nat) : WaveWords :=
  let key (i : Nat) := WAVE_MIX_KEYS.getD ((r + i) &&& 3) 0
  let rotation (i : Nat) := WAVE_MIX_ROTATIONS.getD i 0
  let w0 := rotl (w.w0 + w.w1) (rotation 0) ^^^ key 0
  let w2 := rotl (w.w2 + w.w3) (rotation 2) ^^^ key 2
  let w1 := rotl (w.w1 + w2) (rotation 1) ^^^ key 1
  let w3 := rotl (w.w3 + w0) (rotation 3) ^^^ key 3
  ⟨w0, w1, w2, w3⟩

/-- The word with number `i` of some bytes. -/
def wordOf (bytes : List UInt8) (i : Nat) : UInt64 := UInt64.ofNat (leAt 8 bytes (8 * i))

def waveMix (bytes : List UInt8) : List UInt8 :=
  let w := (List.range 4).foldl waveMixRound
    ⟨wordOf bytes 0, wordOf bytes 1, wordOf bytes 2, wordOf bytes 3⟩
  wordBytes w.w0 ++ wordBytes w.w1 ++ wordBytes w.w2 ++ wordBytes w.w3

/-- The high and the low half of each byte. -/
def nibbles (hash : List UInt8) : List UInt8 := hash.flatMap fun (b : UInt8) => [b >>> 4, b &&& 0x0F]

namespace Matrix

def rowSum (row : List UInt16) (vec : List UInt8) : UInt16 :=
  (row.zip vec).foldl (fun sum p => sum + p.1 * p.2.toUInt16) 0

/-- The product with the halves, four bits of each entry kept. -/
def product (m : Matrix) (hash : List UInt8) : List UInt8 :=
  let vec := nibbles hash
  (List.range 32).map fun i =>
    let sum1 := rowSum (m.getD (2 * i) []) vec
    let sum2 := rowSum (m.getD (2 * i + 1) []) vec
    ((sum1 >>> 10) <<< 4).toUInt8 ||| (sum2 >>> 10).toUInt8

def heavyHash (m : Matrix) (hash : Uint256) : Uint256 :=
  let bytes := hash.toLeBytes
  let product := waveMix (List.zipWith (· ^^^ ·) (m.product bytes) bytes)
  HeavyHasher.hash ⟨Vector.ofFn fun i => wordOf product i⟩

end Matrix

/-! ## The job -/

/-- What the job of a block or a share is hashed and tested with. -/
structure State where
  matrix : Matrix
  target : Uint256
  powHashHeader : List UInt8
  hasher : PowHasher
  nonceMask : UInt64
  nonceFixed : UInt64

/-- The part of `State::new` behind the hash of the header. -/
def State.new (rank : Matrix → Nat) (fuel : Nat) (isTestnet : Bool) (prePowHash : Uint256)
    (headerTimestamp : UInt64) (headerTarget : Uint256) (nonceMask nonceFixed daaScore : UInt64) :
    Option State := do
  let saltVersion := activeSaltVersion isTestnet daaScore
  let matrix ← Matrix.generate rank fuel prePowHash saltVersion
  return {
    matrix
    target := headerTarget
    powHashHeader := prePowHash.toLeBytes ++ wordBytes headerTimestamp ++ List.replicate 32 0
    hasher := PowHasher.new prePowHash headerTimestamp
    nonceMask
    nonceFixed }

namespace State

def calculatePow (s : State) (nonce : UInt64) : Uint256 :=
  s.matrix.heavyHash (s.hasher.finalizeWithNonce nonce)

def checkPow (s : State) (nonce : UInt64) : Bool := (s.calculatePow nonce).cmp s.target != .gt

end State

/-! ## Four bits an entry -/

namespace Matrix

/-- 64 rows of 64 entries of four bits. -/
structure FourBit (m : Matrix) : Prop where
  rows : m.length = 64
  cols : ∀ row ∈ m, row.length = 64
  entry : ∀ row ∈ m, ∀ x ∈ row, x.toNat < 16

theorem length_draws {n : Nat} {g : XoShiRo256PlusPlus} : (draws n g).1.length = n := by
  induction n generalizing g with
  | zero => rfl
  | succ n ih => exact congrArg Nat.succ ih

theorem length_randRow {g : XoShiRo256PlusPlus} : (randRow g).1.length = 64 := by
  have hentries : ∀ val ∈ (draws 4 g).1, (entries val).length = 16 := fun val _ => by
    rw [entries, List.length_map, List.length_range]
  rw [randRow, List.length_flatMap, List.map_congr_left hentries, List.map_const', List.sum_replicate,
    length_draws]
  rfl

theorem randRow_lt {g : XoShiRo256PlusPlus} {x : UInt16} (hx : x ∈ (randRow g).1) : x.toNat < 16 := by
  obtain ⟨val, -, hx⟩ := List.mem_flatMap.mp hx
  obtain ⟨shift, -, rfl⟩ := List.mem_map.mp hx
  rw [UInt64.toNat_toUInt16, UInt64.toNat_and]
  have hlt := Nat.and_lt_two_pow (val >>> UInt64.ofNat (4 * shift)).toNat (show 15 < 2 ^ 4 by decide)
  exact Nat.lt_of_le_of_lt (Nat.mod_le ..) hlt

theorem fourBit_randRows (n : Nat) (g : XoShiRo256PlusPlus) :
    (randRows n g).1.length = n ∧
      ∀ row ∈ (randRows n g).1, row.length = 64 ∧ ∀ x ∈ row, x.toNat < 16 := by
  induction n generalizing g with
  | zero => exact ⟨rfl, fun _ hrow => absurd hrow List.not_mem_nil⟩
  | succ n ih =>
    obtain ⟨hlen, hrest⟩ := ih (randRow g).2
    refine ⟨congrArg Nat.succ hlen, fun row hrow => ?_⟩
    obtain rfl | hrow := List.mem_cons.mp hrow
    · exact ⟨length_randRow, fun x hx => randRow_lt hx⟩
    · exact hrest row hrow

theorem fourBit_generateLoop {rank : Matrix → Nat} {fuel : Nat} {g : XoShiRo256PlusPlus} {m : Matrix}
    (h : generateLoop rank fuel g = some m) : m.FourBit := by
  induction fuel generalizing g with
  | zero => cases h
  | succ fuel ih =>
    rw [generateLoop] at h
    split_ifs at h
    · cases h
      obtain ⟨hlen, hrows⟩ := fourBit_randRows 64 g
      exact ⟨hlen, fun row hrow => (hrows row hrow).1, fun row hrow => (hrows row hrow).2⟩
    · exact ih h

/-- The sum of a row is that of the numbers: it does not overflow. -/
theorem toNat_rowSum {row : List UInt16} {vec : List UInt8} (hrow : row.length = 64)
    (hvec : vec.length = 64) (hx : ∀ x ∈ row, x.toNat < 16) (hv : ∀ b ∈ vec, b.toNat < 16) :
    (rowSum row vec).toNat =
      ((List.range 64).map fun j => (row.getD j 0).toNat * (vec.getD j 0).toNat).sum := by
  have hzip : row.zip vec = (List.range 64).map fun j => (row.getD j 0, vec.getD j 0) := by
    apply List.ext_getElem
    · simp [hrow, hvec]
    · intro j hj _
      rw [List.length_zip, hrow, hvec] at hj
      have hj : j < 64 := hj
      simp [hrow, hvec, hj]
  have hterm : ∀ j ∈ List.range 64, (row.getD j 0).toNat * (vec.getD j 0).toNat ≤ 15 * 15 := by
    intro j hj
    have hj := List.mem_range.mp hj
    rw [List.getD_eq_getElem _ _ (by omega), List.getD_eq_getElem _ _ (by omega)]
    exact Nat.mul_le_mul (Nat.le_of_lt_succ (hx _ (List.getElem_mem _)))
      (Nat.le_of_lt_succ (hv _ (List.getElem_mem _)))
  have hmap : (List.range 64).map (fun j => (row.getD j 0 * (vec.getD j 0).toUInt16).toNat) =
      (List.range 64).map fun j => (row.getD j 0).toNat * (vec.getD j 0).toNat := by
    apply List.map_congr_left
    intro j hj
    have hle := hterm j hj
    rw [UInt16.toNat_mul, UInt8.toNat_toUInt16]
    omega
  have hsum := sum_map_le hterm
  rw [List.length_range] at hsum
  rw [rowSum, toNat_foldl_add UInt16.toNat UInt16.toNat_add rfl, hzip, List.map_map]
  change (0 + ((List.range 64).map fun j => (row.getD j 0 * (vec.getD j 0).toUInt16).toNat).sum) % _ = _
  rw [hmap]
  omega

end Matrix

theorem State.new_eq_some {rank : Matrix → Nat} {fuel : Nat} {isTestnet : Bool}
    {prePowHash target : Uint256} {timestamp nonceMask nonceFixed daaScore : UInt64} {s : State}
    (h : State.new rank fuel isTestnet prePowHash timestamp target nonceMask nonceFixed daaScore =
      some s) :
    s.matrix.FourBit ∧ s.hasher = PowHasher.new prePowHash timestamp ∧
      s.powHashHeader = (prePowHash.words.toList ++ [timestamp, 0, 0, 0, 0]).flatMap wordBytes := by
  rw [State.new] at h
  obtain ⟨m, hm, hs⟩ := Option.bind_eq_some_iff.mp h
  cases hs
  refine ⟨Matrix.fourBit_generateLoop hm, rfl, ?_⟩
  have hzeros : List.replicate 32 0 = [0, 0, 0, 0].flatMap wordBytes := rfl
  simp [Uint256.toLeBytes, hzeros]

end KeryxMiner.Pow
