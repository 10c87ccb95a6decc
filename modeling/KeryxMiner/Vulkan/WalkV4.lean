import KeryxMiner.MachineWords
import KeryxMiner.Pom.Walk
import KeryxMiner.SharedMemory

/-!
# The walk shader

One nonce of the walk shader in its build for packed dot products: 32 invocations, each with a row of
the state in registers and a column of the next tile, over the shared memory of their slot. Between
two barriers they run in lockstep, so a phase stores what all of them have computed from the memory
before it.
-/

namespace KeryxMiner.Vulkan

open Pom

/-- The push constants that a walk reads. -/
structure WalkPush where
  nTiles : UInt64
  invN : UInt64
  zero : UInt32
  nPad : UInt64
  invP : UInt64
  kPad : UInt32

/-! ## Arithmetic -/

/-- The high and the low word of a product. -/
def umulExtended (a b : UInt32) : UInt32 × UInt32 :=
  let p := a.toUInt64 * b.toUInt64
  ((p >>> 32).toUInt32, p.toUInt32)

def mulhi64 (a b : UInt64) : UInt64 :=
  let a0 := a.toUInt32
  let a1 := (a >>> 32).toUInt32
  let b0 := b.toUInt32
  let b1 := (b >>> 32).toUInt32
  let (h00, _) := umulExtended a0 b0
  let (h01, l01) := umulExtended a0 b1
  let (h10, l10) := umulExtended a1 b0
  let (h11, l11) := umulExtended a1 b1
  let mid := h00.toUInt64 + l01.toUInt64 + l10.toUInt64
  ((h11.toUInt64 <<< 32) ||| l11.toUInt64) + h01.toUInt64 + h10.toUInt64 + (mid >>> 32)

/-- `x % n` with the reciprocal `inv` of `n`. -/
def modBy (inv n x : UInt64) : UInt64 :=
  let r := x - mulhi64 x inv * n
  if n ≤ r then r - n else r

def modTiles (pc : WalkPush) (x : UInt64) : UInt64 := modBy pc.invN pc.nTiles x

def modPad (pc : WalkPush) (x : UInt64) : UInt64 := modBy pc.invP pc.nPad x

def v5Offset (pc : WalkPush) (rawIn : UInt64) (step : UInt32) : UInt64 :=
  let raw := mix64 rawIn
  if ((step + 1) * pc.kPad) >>> 8 ≠ (step * pc.kPad) >>> 8 then pc.nTiles + modPad pc raw
  else modTiles pc raw

def bitfieldExtract (value offset bits : UInt32) : UInt32 := (value >>> offset) &&& ((1 <<< bits) - 1)

def rho8 (pc : WalkPush) (acc : Int) (tweak : UInt32) : UInt32 :=
  let z := UInt32.ofInt acc ^^^ tweak
  let z := z * 0x9E3779B9
  let z := z ^^^ (z >>> 16)
  let z := bitfieldExtract z pc.zero 24
  let z := z * (0x85EBCA6B &&& 0xFFFFFF)
  let z := z ^^^ (z >>> 13)
  z &&& 0xff

/-- The four signed bytes of a word. -/
def signed4x8 (a : UInt32) : List Int := (wordBytes32 a).map fun b => b.toInt8.toInt

def dotPacked4x8AccSat (a b : UInt32) (acc : Int) : Int :=
  max (-2 ^ 31) (min (2 ^ 31 - 1) (acc + (List.zipWith (· * ·) (signed4x8 a) (signed4x8 b)).sum))

/-- The hash of one block of 16 words, of which the first `blockLen` bytes count. -/
def b3OneBlock (blake : List UInt8 → Bytes32) (m : List UInt32) (blockLen : Nat) : List UInt32 :=
  let hash := blake ((m.flatMap wordBytes32).take blockLen)
  (List.range 8).map fun i => UInt32.ofNat (ofLe (block 4 hash.toList i))

/-! ## The slot of a nonce -/

abbrev ChunkWords := UInt64 × UInt64 × UInt64 × UInt64

/-- The registers of an invocation: its row of the state, the offset of the next tile and the words
of its column there. -/
structure Invocation where
  row4 : List UInt32
  off : UInt64
  w : ChunkWords

structure Slot where
  mem : Vector UInt32 512
  inv : Fin 32 → Invocation

variable (pc : WalkPush) (look : UInt64 → ChunkWords) (seed : UInt64)

def keystream (h : UInt64) : Nat → List UInt32
  | 0 => []
  | k + 1 => (mix64 h).toUInt32 :: keystream (mix64 h) k

/-- Before the first step; the memory has anything. -/
def Slot.start (mem : Vector UInt32 512) : Slot where
  mem := mem
  inv x :=
    let off := modTiles pc (mix64 (seed ^^^ v4OffsetFirstSalt))
    { row4 := keystream (mix64 (seed ^^^ (v4S0RowSalt + UInt64.ofNat x))) 8
      off := off
      w := look (off * 32 + UInt64.ofNat x) }

/-- A column in words of 32 bits. -/
def columnWords : ChunkWords → List UInt32
  | (w0, w1, w2, w3) =>
    [w0.toUInt32, (w0 >>> 32).toUInt32, w1.toUInt32, (w1 >>> 32).toUInt32,
      w2.toUInt32, (w2 >>> 32).toUInt32, w3.toUInt32, (w3 >>> 32).toUInt32]

/-- The reduction over the invocations of a nonce. -/
def clusteredXor (f : Fin 32 → UInt32) : UInt32 :=
  (List.finRange 32).foldl (fun acc x => acc ^^^ f x) 0

def v5StateFold (inv : Fin 32 → Invocation) : UInt64 :=
  let h (x : Fin 32) :=
    let lo := (inv x).row4.getD 0 0
    let hi := (inv x).row4.getD 1 0
    mix64 ((hi.toUInt64 <<< 32 ||| lo.toUInt64) ^^^ UInt64.ofNat x)
  (clusteredXor fun x => (h x).toUInt32).toUInt64 |||
    (clusteredXor fun x => (h x >>> 32).toUInt32).toUInt64 <<< 32

/-- The offset after `step`, from the snippet of the tile in memory and the rows before the step. -/
def nextOff (step : UInt32) (mem : Vector UInt32 512) (inv : Fin 32 → Invocation) : UInt64 :=
  let sf := (load mem 0 8).foldl (fun sf w => mix64 (sf ^^^ w.toUInt64)) 0
  let rawIn := seed ^^^ ((step + 1).toUInt64 * v4OffsetStepSalt) ^^^ sf
  if pc.nPad ≠ 0 then v5Offset pc (rawIn ^^^ v5StateFold inv) step else modTiles pc (mix64 rawIn)

/-- The product of a row with column `j` of the tile in memory. -/
def dotColumn (mem : Vector UInt32 512) (row4 : List UInt32) (j : Nat) : Int :=
  (row4.zip (load mem (j * 8) 8)).foldl (fun acc p => dotPacked4x8AccSat p.1 p.2 acc) 0

/-- Four bytes of the next row, packed. -/
def nextWord (mem : Vector UInt32 512) (row4 : List UInt32) (tweak0 : UInt32) (j4 : Nat) : UInt32 :=
  let r jj :=
    let j := j4 * 4 + jj
    rho8 pc (dotColumn mem row4 j) (tweak0 + UInt32.ofNat j * 0x85EBCA6B)
  (r 0 ||| r 1 <<< 8) ||| (r 2 ||| r 3 <<< 8) <<< 16

def nextRow (mem : Vector UInt32 512) (row4 : List UInt32) (tweak0 : UInt32) : List UInt32 :=
  (List.range 8).map (nextWord pc mem row4 tweak0)

/-- One step: the columns are stored, and behind a barrier the next column is read and the next row
computed, which goes through the invocation's own words of the memory. -/
def Slot.step (step : UInt32) (s : Slot) : Slot :=
  let tile := storeRows s.mem 0 8 fun x => columnWords (s.inv x).w
  let off := nextOff pc seed step tile s.inv
  let mem := storeRows tile 256 8 fun x =>
    nextRow pc tile (s.inv x).row4 (step * 0x9E3779B9 + UInt32.ofNat x * 0xC2B2AE35)
  { mem := mem
    inv x :=
      let row4 := load mem (256 + x * 8) 8
      if step < 256 then ⟨row4, off, look (off * 32 + UInt64.ofNat x)⟩
      else { s.inv x with row4 } }

/-- After `t` steps. -/
def slotAt (mem : Vector UInt32 512) : Nat → Slot
  | 0 => Slot.start pc look seed mem
  | t + 1 => (slotAt mem t).step pc look seed (UInt32.ofNat (t + 1))

/-! ## The tree -/

variable (blake : List UInt8 → Bytes32)

/-- The memory, and where a level is read and the next one stored. -/
structure TreeScratch where
  mem : Vector UInt32 512
  src : Nat
  dst : Nat

/-- The row leaves. -/
def TreeScratch.start (s : Slot) : TreeScratch where
  mem := storeRows s.mem 0 8 fun x => b3OneBlock blake ((s.inv x).row4 ++ List.replicate 8 0) 32
  src := 0
  dst := 256

/-- One level of `n` nodes. -/
def TreeScratch.level (t : TreeScratch) (n : Nat) : TreeScratch where
  mem := storeRows t.mem t.dst 8 fun x : Fin (n / 2) =>
    b3OneBlock blake (load t.mem (t.src + x * 16) 16) 64
  src := t.dst
  dst := t.src

/-- The value that is compared with the target, from the memory `mem` on. -/
def walkValue (mem : Vector UInt32 512) : UInt64 :=
  let t := [32, 16, 8, 4, 2].foldl (TreeScratch.level blake)
    (TreeScratch.start blake (slotAt pc look seed mem v4K))
  let root := load t.mem t.src 2
  (root.getD 0 0).toUInt64 ||| (root.getD 1 0).toUInt64 <<< 32

/-! ## The host -/

/-- `v5_pad_steps` of the dispatch. -/
def hostPadSteps (weightTiles padTiles : UInt64) : UInt32 :=
  let n := weightTiles + padTiles
  let steps := (256 * padTiles + n / 2) / n
  (if steps < 1 then 1 else if 255 < steps then 255 else steps).toUInt32

/-- The push constants of a dispatch. -/
def walkPush (nTiles nPad : UInt64) : WalkPush where
  nTiles := nTiles
  invN := 0xffffffffffffffff / nTiles
  zero := 0
  nPad := nPad
  invP := if nPad = 0 then 0 else 0xffffffffffffffff / nPad
  kPad := if nPad = 0 then 0 else hostPadSteps nTiles nPad

end KeryxMiner.Vulkan
