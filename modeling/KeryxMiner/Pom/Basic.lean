import KeryxMiner.MerkleTree

/-!
# The weight index

The Merkle tree over the 32-byte chunks of a model. `merkleRoot` and `merkleProof` compute it from
all leaves. The index has a file instead with every sixth level, which `build` writes while it
reads the model, and recomputes the levels between from the chunks or from the stored level below.
The hash is a parameter.
-/

namespace KeryxMiner.Pom

open Merkle

abbrev Bytes32 := Vector UInt8 32

def checkpointInterval := 6

variable (blake : List UInt8 → Bytes32)

def hashPair (left right : Bytes32) : Bytes32 := blake (left.toList ++ right.toList)

/-! ## The dense tree -/

/-- The loop of `merkle_root`; `nextLevel` is its inner loop. -/
def merkleRootLoop : Nat → List Bytes32 → List Bytes32
  | 0, level => level
  | fuel + 1, level =>
    if level.length > 1 then merkleRootLoop fuel (nextLevel (hashPair blake) level) else level

def merkleRoot (leaves : List Bytes32) : Bytes32 :=
  (merkleRootLoop blake leaves.length leaves).headD default

/-- The loop of `merkle_proof`. -/
def merkleProofLoop : Nat → List Bytes32 → Nat → List Bytes32
  | 0, _, _ => []
  | fuel + 1, level, idx =>
    if level.length > 1 then
      let sibIdx := if idx % 2 = 0 then idx + 1 else idx - 1
      let sib := if sibIdx < level.length then level.getD sibIdx default else level.getD idx default
      sib :: merkleProofLoop fuel (nextLevel (hashPair blake) level) (idx / 2)
    else []

def merkleProof (leaves : List Bytes32) (index : Nat) : List Bytes32 :=
  merkleProofLoop blake leaves.length leaves index

/-- The loop of `verify_merkle`. -/
def verifyMerkleLoop (acc : Bytes32) (idx : Nat) : List Bytes32 → Bytes32
  | [] => acc
  | sib :: path =>
    let acc := if idx % 2 = 0 then hashPair blake acc sib else hashPair blake sib acc
    verifyMerkleLoop acc (idx / 2) path

def verifyMerkle (leaf : Bytes32) (index : Nat) (path : List Bytes32) (root : Bytes32) : Bool :=
  verifyMerkleLoop blake leaf index path = root

/-- `batch` reduced by exactly `rounds` levels. -/
def foldLevels (batch : List Bytes32) (rounds : Nat) : Bytes32 :=
  ((nextLevel (hashPair blake))^[rounds] batch).headD default

/-! ## The checkpoint file -/

/-- A level in the checkpoint file; `offset` is in bytes. -/
structure StoredLevel where
  level : Nat
  offset : Nat
  count : Nat
  deriving DecidableEq, Repr

/-- The loop of `compute_checkpoint_offsets`. -/
def checkpointLoop : (fuel count off level : Nat) → List StoredLevel × Nat
  | 0, _, _, level => ([], level + 1)
  | fuel + 1, count, off, level =>
    let isCheckpoint := (0 < level ∧ level % checkpointInterval = 0) ∨ count = 1
    let stored := if isCheckpoint then [⟨level, off, count⟩] else []
    if count = 1 then (stored, level + 1)
    else
      let off := if isCheckpoint then off + count * 32 else off
      let (checkpoints, totalLevels) := checkpointLoop fuel ((count + 1) / 2) off (level + 1)
      (stored ++ checkpoints, totalLevels)

/-- The stored levels over `nChunks` leaves, and the number of levels of the tree. -/
def computeCheckpointOffsets (nChunks : Nat) : List StoredLevel × Nat :=
  checkpointLoop nChunks nChunks 0 0

/-- `read_exact_at` of a node; the file holds nodes of 32 bytes. -/
def readNode (file : List Bytes32) (pos : Nat) : Bytes32 := file.getD (pos / 32) default

/-- The parents which `finalize_checkpoint_upper` writes for one level, from node `readIdx` on. -/
def foldBatches (file : List Bytes32) (prev : StoredLevel) (rounds : Nat) :
    (fuel readIdx : Nat) → List Bytes32
  | 0, _ => []
  | fuel + 1, readIdx =>
    if readIdx < prev.count then
      let take := min (2 ^ rounds) (prev.count - readIdx)
      let batch := (List.range take).map fun i => readNode file (prev.offset + (readIdx + i) * 32)
      foldLevels blake batch rounds :: foldBatches file prev rounds fuel (readIdx + take)
    else []

/-- The levels above `prev` are appended to the file. -/
def finalizeLevels (prev : StoredLevel) : List StoredLevel → List Bytes32 → List Bytes32
  | [], file => file
  | cp :: checkpoints, file =>
    let parents := foldBatches blake file prev (cp.level - prev.level) prev.count 0
    finalizeLevels cp checkpoints (file ++ parents)

/-! ## The index -/

structure WeightIndex where
  nChunks : Nat
  rT : Bytes32
  /-- The chunks in canonical order, which the source reads from the model file. -/
  chunks : List Bytes32
  treeFile : List Bytes32
  checkpoints : List StoredLevel
  totalLevels : Nat

/-- The 32-byte chunks of a tensor; a tail is left out. -/
def chunksOf (bytes : List UInt8) : List Bytes32 :=
  (List.range (bytes.length / 32)).map fun c => Vector.ofFn fun i => bytes.getD (c * 32 + i) 0

/-- What a leaf does to the file and the batch in the first phase of `build_from_gguf`. -/
def pushLeaf (p : List Bytes32 × List Bytes32) (leaf : Bytes32) : List Bytes32 × List Bytes32 :=
  let batch := p.2 ++ [leaf]
  if batch.length = 2 ^ checkpointInterval then
    (p.1 ++ [foldLevels blake batch checkpointInterval], [])
  else (p.1, batch)

/-- The file after the first phase, the last batch included. -/
def levelK (leaves : List Bytes32) : List Bytes32 :=
  let (file, batch) := leaves.foldl (pushLeaf blake) ([], [])
  if batch.isEmpty then file else file ++ [foldLevels blake batch checkpointInterval]

def leafHash (chunk : Bytes32) : Bytes32 := blake chunk.toList

/-- `build_from_gguf` over the tensors in the order of their names. -/
def WeightIndex.build (tensors : List (List UInt8)) : Option WeightIndex :=
  let chunks := tensors.flatMap chunksOf
  let file := levelK blake (chunks.map (leafHash blake))
  if chunks.length = 0 then none
  else
    let (checkpoints, totalLevels) := computeCheckpointOffsets chunks.length
    match checkpoints with
    | [] => none
    | first :: rest =>
      let file := finalizeLevels blake first rest file
      let root := (first :: rest).getLastD first
      some { nChunks := chunks.length, rT := readNode file root.offset, chunks, treeFile := file
             checkpoints, totalLevels }

namespace WeightIndex

variable (idx : WeightIndex)

def readChunkBytes (off : Nat) : Bytes32 := idx.chunks.getD off default

def findCheckpoint (level : Nat) : StoredLevel :=
  (idx.checkpoints.find? (·.level = level)).getD ⟨0, 0, 0⟩

def countAtLevel (level : Nat) : Nat := (fun count => (count + 1) / 2)^[level] idx.nChunks

/-- The node `rounds` levels above the nodes from `start` on; the source gets `rounds` as the
number of trailing zeros of `span`. -/
def computeSubtreeHash (start rounds srcLevel : Nat) : Bytes32 :=
  let span := 2 ^ rounds
  let sourceCount := if srcLevel = 0 then idx.nChunks else (idx.findCheckpoint srcLevel).count
  if sourceCount ≤ start then default
  else
    let stop := min (start + span) sourceCount
    let nodes := (List.range' start (stop - start)).map fun i =>
      if srcLevel = 0 then leafHash blake (idx.readChunkBytes i)
      else readNode idx.treeFile ((idx.findCheckpoint srcLevel).offset + i * 32)
    foldLevels blake nodes rounds

/-- The sibling of node `i` of a level, as `merkle_path` gets it. -/
def siblingAt (level i : Nat) : Bytes32 :=
  let sibIdx := i ^^^ 1
  let isStored := 0 < level ∧ (level % checkpointInterval = 0 ∨ level = idx.totalLevels - 1)
  if isStored then
    let cp := idx.findCheckpoint level
    let realIdx := if sibIdx < cp.count then sibIdx else i
    readNode idx.treeFile (cp.offset + realIdx * 32)
  else
    let realSibIdx := if sibIdx < idx.countAtLevel level then sibIdx else i
    let srcLevel := level / checkpointInterval * checkpointInterval
    let rounds := level - srcLevel
    idx.computeSubtreeHash blake (realSibIdx * 2 ^ rounds) rounds srcLevel

def merklePath (off : Nat) : List Bytes32 :=
  (List.range (idx.totalLevels - 1)).map fun level => idx.siblingAt blake level (off / 2 ^ level)

end WeightIndex

end KeryxMiner.Pom
