import KeryxMiner.Blocks
import KeryxMiner.LittleEndian
import KeryxMiner.ReadWalk
import KeryxMiner.Pom.Index
import Mathlib.Algebra.Ring.Int.Defs

/-!
# The walks

The walks of the fourth and the fifth proof of model and their proofs. A nonce's seed gives a state
of 32 rows and a first tile; each of 256 steps multiplies the state with the tile it reads, and the
tile gives the next one. The fifth walk also reads tiles of a pad, which is computed from a seed, at
steps spread over the walk.
-/

namespace KeryxMiner.Pom

/-! ## Mixing -/

def mix64 (x : UInt64) : UInt64 :=
  let x := x ^^^ (x >>> 30)
  let x := x * 0xbf58476d1ce4e5b9
  let x := x ^^^ (x >>> 27)
  let x := x * 0x94d049bb133111eb
  x ^^^ (x >>> 31)

/-- `u64::from_le_bytes` of the first eight bytes. -/
def word64 (bytes : List UInt8) : UInt64 := UInt64.ofNat (ofLe (bytes.take 8))

def fold64 (root : Bytes32) : UInt64 := word64 root.toList

def rho8 (acc : Int) (tweak : UInt32) : UInt8 :=
  let z := UInt32.ofInt acc ^^^ tweak
  let z := z * 0x9E3779B9
  let z := z ^^^ (z >>> 16)
  let z := z * 0x85EBCA6B
  let z := z ^^^ (z >>> 13)
  (z &&& 0xff).toUInt8

def rhoTweak (step row col : UInt32) : UInt32 :=
  step * 0x9E3779B9 + row * 0xC2B2AE35 + col * 0x85EBCA6B

def dotI8 (row col : List UInt8) : Int :=
  ((row.zip col).map fun (a, b) => a.toInt8.toInt * b.toInt8.toInt).sum

/-- A fold over the eight 32-bit words of a snippet. -/
def snippetFold (snippet : List UInt8) : UInt64 :=
  (List.range 8).foldl (fun sf i =>
    mix64 (sf ^^^ UInt64.ofNat (ofLe ((snippet.drop (i * 4)).take 4)))) 0

/-! ## The fourth walk -/

def v4D := 32
def v4K := 256
def v4TileBytes := v4D * v4D
def v4TileChunks := v4TileBytes / 32
def v4SnippetBytes := 32
def v4TileSubtreeDepth := 5
def v4S0RowSalt : UInt64 := 0x03421325594C3C51
def v4OffsetFirstSalt : UInt64 := 0x6D1CCF96AC4D76F9
def v4OffsetStepSalt : UInt64 := 0x89050E78D34609EF

structure PomV4RangeProof where
  path : List Bytes32

structure PomProofV4 where
  tier : UInt8
  tiles : List (List UInt8)
  merkle : List PomV4RangeProof

def v4FirstOffset (seed : UInt64) (nTiles : Nat) : Nat :=
  (mix64 (seed ^^^ v4OffsetFirstSalt)).toNat % nTiles

def v4NextOffset (seed : UInt64) (step : Nat) (snippet : List UInt8) (nTiles : Nat) : Nat :=
  (mix64 (seed ^^^ UInt64.ofNat (step + 1) * v4OffsetStepSalt ^^^ snippetFold snippet)).toNat % nTiles

/-- The words of a row, four bytes each. -/
def initialRow (h : UInt64) : Nat → List UInt8
  | 0 => []
  | k4 + 1 =>
    let h := mix64 h
    toLe 4 h.toUInt32.toNat ++ initialRow h k4

def v4InitialState (seed : UInt64) : List UInt8 :=
  (List.range v4D).flatMap fun r =>
    initialRow (mix64 (seed ^^^ (v4S0RowSalt + UInt64.ofNat r))) (v4D / 4)

/-- Row `i` of a state, or column `i` of a tile. -/
def slice32 (bytes : List UInt8) (i : Nat) : List UInt8 := block v4D bytes i

def v4Transition (state tile : List UInt8) (step : UInt32) : List UInt8 :=
  (List.range v4D).flatMap fun x => (List.range v4D).map fun j =>
    rho8 (dotI8 (slice32 state x) (slice32 tile j))
      (rhoTweak step (UInt32.ofNat x) (UInt32.ofNat j))

variable (blake : List UInt8 → Bytes32)

def v4StateRoot (state : List UInt8) : Bytes32 :=
  merkleRoot blake ((List.range v4D).map fun r => blake (slice32 state r))

/-- The chunks of a tile; the last one may be shorter. -/
def tileChunks (tile : List UInt8) : List (List UInt8) :=
  (List.range ((tile.length + 31) / 32)).map (slice32 tile)

def v4TileSubtreeRoot (tile : List UInt8) : Bytes32 :=
  merkleRoot blake ((tileChunks tile).map blake)

namespace WeightIndex

/-- The chunks of tile `off`, as both walks read them. -/
def tile (idx : WeightIndex) (off : Nat) : List UInt8 :=
  (List.range v4TileChunks).flatMap fun c => (idx.readChunkBytes (off * v4TileChunks + c)).toList

/-- The path from the root of tile `off`. -/
def tilePath (idx : WeightIndex) (off : Nat) : List Bytes32 :=
  (idx.merklePath blake (off * v4TileChunks)).drop v4TileSubtreeDepth

end WeightIndex

/-- The steps of the fourth walk; the last one draws no next tile. -/
def v4Walk (seed : UInt64) (nTiles : Nat) : ReadWalk (List UInt8) Nat (List UInt8) where
  advance i state tile := v4Transition state tile (UInt32.ofNat (i + 1))
  next i _ tile off :=
    if i + 1 < v4K then v4NextOffset seed (i + 1) (tile.take v4SnippetBytes) nTiles else off

variable {σ : Type}

/-- The loop which the three functions of the fourth walk share, over what each does with a tile. -/
def v4Run (seed : UInt64) (nTiles : Nat) (fetch : σ → Nat → Nat → Except String (σ × List UInt8))
    (f : σ) : Except String (σ × UInt64) := do
  let (f, state) ← (v4Walk seed nTiles).run fetch v4K 0 f (v4InitialState seed)
    (v4FirstOffset seed nTiles)
  return (f, fold64 (v4StateRoot blake state))

def walkFinalV4 (seed : UInt64) (idx : WeightIndex) : Except String UInt64 := do
  let nTiles := idx.nChunks / v4TileChunks
  if nTiles = 0 then throw "blob too small for the v4 walk"
  let ((), fs) ← v4Run blake seed nTiles (fun () _ off => .ok ((), idx.tile off)) ()
  return fs

def buildProofV4 (tier : UInt8) (seed : UInt64) (idx : WeightIndex) :
    Except String (PomProofV4 × UInt64) := do
  let nTiles := idx.nChunks / v4TileChunks
  if nTiles = 0 then throw "blob too small for the v4 walk"
  v4Run blake seed nTiles (fun proof _ off =>
    .ok ({ proof with tiles := proof.tiles ++ [idx.tile off]
                      merkle := proof.merkle ++ [⟨idx.tilePath blake off⟩] }, idx.tile off))
    ⟨tier, [], []⟩

/-- What `verify_proof_v4` does with step `i`. -/
def verifyFetchV4 (proof : PomProofV4) (rT : Bytes32) (i off : Nat) :
    Except String (Unit × List UInt8) := do
  let tile := proof.tiles.getD i []
  if tile.length ≠ v4TileBytes then throw "v4 tile wrong shape"
  if !verifyMerkle blake (v4TileSubtreeRoot blake tile) off (proof.merkle.getD i ⟨[]⟩).path rT then
    throw s!"v4 tile fails range proof at step {i + 1}"
  return ((), tile)

def verifyProofV4 (seed : UInt64) (proof : PomProofV4) (rT : Bytes32) (nChunks : Nat) :
    Except String UInt64 := do
  if proof.tiles.length ≠ v4K ∨ proof.merkle.length ≠ v4K then throw "v4 proof wrong shape"
  let nTiles := nChunks / v4TileChunks
  if nTiles = 0 then throw "blob too small"
  let ((), fs) ← v4Run blake seed nTiles (fun () => verifyFetchV4 blake proof rT) ()
  return fs

/-! ## The pad -/

def padIV : List UInt64 :=
  [0x510e527fade682d1, 0x9b05688c2b3e6c1f, 0x1f83d9abfb41bd6b, 0x5be0cd19137e2179]

def v5TileEntries := v4TileBytes / 32
def v5PRounds := 1920

def rotateLeft (x : UInt64) (n : UInt64) : UInt64 := (x <<< n) ||| (x >>> (64 - n))

abbrev PadWords := UInt64 × UInt64 × UInt64 × UInt64

def round4 : PadWords → PadWords
  | (a, b, c, d) =>
    let a := a + b
    let d := rotateLeft (d ^^^ a) 32
    let c := c + d
    let b := rotateLeft (b ^^^ c) 24
    let a := a + b
    let d := rotateLeft (d ^^^ a) 16
    let c := c + d
    let b := rotateLeft (b ^^^ c) 63
    (a, b, c, d)

def v5PadSeedWords (padSeed : Bytes32) : PadWords :=
  let w i := word64 (padSeed.toList.drop (i * 8)) ^^^ padIV.getD i 0
  (w 0, w 1, w 2, w 3)

def padEntry : PadWords → UInt64 → List UInt8
  | (a, b, c, d), index =>
    let (a, b, c, d) := round4^[v5PRounds] (a, b ^^^ index, c, d)
    toLe 8 a.toNat ++ toLe 8 b.toNat ++ toLe 8 c.toNat ++ toLe 8 d.toNat

def v5PadTile (padSeed : Bytes32) (tile : Nat) : List UInt8 :=
  (List.range v5TileEntries).flatMap fun k =>
    padEntry (v5PadSeedWords padSeed) (UInt64.ofNat (tile * v5TileEntries + k))

/-! ## The fifth walk -/

/-- The sums and the product wrap; a sum of zero is a panic of the source. -/
def v5PadSteps (weightTiles padTiles : Nat) : Except String Nat :=
  let n := (weightTiles + padTiles) % 2 ^ 64
  if n = 0 then .error "attempt to divide by zero"
  else .ok (max 1 (min ((v4K * padTiles % 2 ^ 64 + n / 2) % 2 ^ 64 / n) (v4K - 1)))

def v5IsPadStep (step padSteps : Nat) : Bool :=
  step * padSteps / v4K ≠ (step - 1) * padSteps / v4K

def v5StateFold (state : List UInt8) : UInt64 :=
  (List.range v4D).foldl (fun h r => h ^^^ mix64 (word64 (slice32 state r) ^^^ UInt64.ofNat r)) 0

def v5FirstOffset (seed : UInt64) (weightTiles : Nat) : Nat := v4FirstOffset seed weightTiles

def v5NextOffset (seed : UInt64) (step : Nat) (snippet : List UInt8) (stateFold : UInt64)
    (weightTiles padTiles padSteps : Nat) : Nat :=
  let raw := mix64 (seed ^^^ UInt64.ofNat (step + 1) * v4OffsetStepSalt ^^^ snippetFold snippet ^^^
    stateFold)
  if v5IsPadStep (step + 1) padSteps then (weightTiles + raw.toNat % padTiles) % 2 ^ 64
  else raw.toNat % weightTiles

/-- The steps of the fifth walk; the next tile is drawn before the state moves on. -/
def v5Walk (seed : UInt64) (weightTiles padTiles padSteps : Nat) :
    ReadWalk (List UInt8) Nat (List UInt8) where
  advance i state tile := v4Transition state tile (UInt32.ofNat (i + 1))
  next i state tile off :=
    if i + 1 < v4K then v5NextOffset seed (i + 1) (tile.take v4SnippetBytes) (v5StateFold state)
      weightTiles padTiles padSteps
    else off

def walk (seed : UInt64) (weightTiles padTiles : Nat) (padSeed : Bytes32)
    (fetch : σ → Nat → Nat → Except String (σ × Option (List UInt8))) (f : σ) :
    Except String (σ × UInt64) := do
  if weightTiles = 0 ∨ padTiles = 0 then throw "no tile space for the v5 walk"
  let padSteps ← v5PadSteps weightTiles padTiles
  let read f i off := do
    let (f, t) ← fetch f i off
    return (f, t.getD (v5PadTile padSeed (off - weightTiles)))
  let (f, state) ← (v5Walk seed weightTiles padTiles padSteps).run read v4K 0 f
    (v4InitialState seed) (v5FirstOffset seed weightTiles)
  return (f, fold64 (v4StateRoot blake state))

def walkFinalV5 (seed : UInt64) (idx : WeightIndex) (padSeed : Bytes32) (padTiles : Nat) :
    Except String UInt64 := do
  let weightTiles := idx.nChunks / v4TileChunks
  let ((), fs) ← walk blake seed weightTiles padTiles padSeed
    (fun () _ off => .ok ((), if off ≥ weightTiles then none else some (idx.tile off))) ()
  return fs

def buildProofV5 (tier : UInt8) (seed : UInt64) (idx : WeightIndex) (padSeed : Bytes32)
    (padTiles : Nat) : Except String (PomProofV4 × UInt64) :=
  let weightTiles := idx.nChunks / v4TileChunks
  walk blake seed weightTiles padTiles padSeed (fun proof _ off =>
    if off < weightTiles then
      .ok ({ proof with tiles := proof.tiles ++ [idx.tile off]
                        merkle := proof.merkle ++ [⟨idx.tilePath blake off⟩] },
        some (idx.tile off))
    else
      .ok ({ proof with tiles := proof.tiles ++ [[]], merkle := proof.merkle ++ [⟨[]⟩] }, none))
    ⟨tier, [], []⟩

/-- What `verify_proof_v5` does with step `i`. -/
def verifyFetchV5 (proof : PomProofV4) (rT : Bytes32) (weightTiles i off : Nat) :
    Except String (Unit × Option (List UInt8)) := do
  let tile := proof.tiles.getD i []
  let path := (proof.merkle.getD i ⟨[]⟩).path
  if off < weightTiles then
    if tile.length ≠ v4TileBytes then throw s!"v5 weight tile wrong shape at step {i + 1}"
    if !verifyMerkle blake (v4TileSubtreeRoot blake tile) off path rT then
      throw s!"v5 tile fails range proof at step {i + 1}"
    return ((), some tile)
  else
    if !tile.isEmpty || !path.isEmpty then throw s!"v5 pad position not empty at step {i + 1}"
    return ((), none)

def verifyProofV5 (seed : UInt64) (proof : PomProofV4) (rT : Bytes32) (nChunks : Nat)
    (padSeed : Bytes32) (padTiles : Nat) : Except String UInt64 := do
  if proof.tiles.length ≠ v4K ∨ proof.merkle.length ≠ v4K then throw "v5 proof wrong shape"
  let weightTiles := nChunks / v4TileChunks
  let ((), fs) ← walk blake seed weightTiles padTiles padSeed
    (fun () => verifyFetchV5 blake proof rT weightTiles) ()
  return fs

end KeryxMiner.Pom
