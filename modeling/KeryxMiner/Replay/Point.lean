import KeryxMiner.Replay.Record

/-!
# Points of the miner

The point that the miner draws from a seed and the opening that it builds of it from the captured
input and output of the point's product.
-/

namespace KeryxMiner.Replay

open Inference Manifest
open Openings (EntryOpening ChunkRange ExpertIds Point Weights)

variable {h : Blake3} (m : TierManifest h) (rec : TraceRecord h)

/-- One drawn point: the manifest entry, the gate of its pair, the position and the output row. -/
structure PointSpec where
  rank : Nat
  gRank : Nat
  t : Nat
  row : Nat
  /-- Rows per leaf: active experts, heads, or 1. -/
  nUsed : Nat
  slot : Nat
  /-- The output leaf ends with the expert ids of its slots. -/
  experts : Bool

namespace PointSpec

variable (p : PointSpec)

def leafX : UInt32 := 2 * UInt32.ofNat p.gRank

def leafY : UInt32 := 2 * UInt32.ofNat p.gRank + 1

end PointSpec

/-- Rows per leaf of the product `g`; `none` for a product with several in a stage-1 manifest. -/
def usedRows (g : Entry) (heads : Bool) : Option Nat :=
  if g.nExp ≠ 1 ∧ m.chain.isNone then none
  else if 1 < g.nExp ∧ ¬ heads then m.chain.map fun c => c.nUsed.toNat
  else if heads then some g.nExp.toNat
  else some 1

/-- Point `i` of the draw of `seed`. -/
def drawPoint (nPrompt nPos : UInt32) (seed : Hash) (i : UInt32) : Option PointSpec :=
  if nPos = 0 ∨ nPrompt = 0 ∨ nPos < nPrompt then none
  else do
    let d := Draw.point h seed i
    let rank := d 1 % m.np
    let e0 ← m.entry rank
    let nTraced := nPos.toNat
    let t :=
      if e0.role = roleOutput then
        let firstPos := nPrompt.toNat - 1
        firstPos + d 0 % (nTraced - firstPos)
      else d 0 % nTraced
    let gRank := if e0.gluForm = formPairUp then e0.partner.toNat else rank
    let g ← m.entry gRank
    let heads := decide (e0.role = roleHeads)
    let nUsed ← usedRows m g heads
    let mOut := g.mOut
    if mOut = 0 ∨ nUsed = 0 then none
    else
      some { rank, gRank, t, row := d 2 % mOut, nUsed
             slot := if 1 < nUsed then d 3 / 2 ^ 32 % nUsed else 0
             experts := decide (1 < g.nExp) && !heads }

/-- The opened chunks of row `row` of expert `exp`. -/
def rowRange (index : Pom.WeightIndex) (e : Entry) (exp row : Nat) : Option ChunkRange := do
  let (first, last, _) ← e.rowChunks exp row
  rangeProof (blake3 h) index first last

/-- The expert whose row a point opens, from the output `y` of its gate. -/
def pointExpert (p : PointSpec) (g : Entry) (y : List UInt8) : Option Nat :=
  let body := p.nUsed * g.mOut * 4
  let total := body + if p.experts then 4 * p.nUsed else 0
  if y.length ≠ total ∨ rec.nPos.toNat ≤ p.t ∨ p.nUsed ≤ p.slot then none
  else
    let exp :=
      if p.experts then ofLe ((y.drop (body + 4 * p.slot)).take 4)
      else if 1 < p.nUsed then p.slot
      else 0
    if g.nExp.toNat ≤ exp then none else some exp

/-- The opened rows of the gate `g` and the other entry of its pair. -/
def pointRows (index : Pom.WeightIndex) (p : PointSpec) (g : Entry) (exp : Nat) :
    Option (List ChunkRange × Option EntryOpening) := do
  let row ← rowRange (h := h) index g exp p.row
  if g.gluForm = formNone then some ([row], none)
  else if g.gluForm = formSplit then do
    let up ← rowRange (h := h) index g exp (p.row + g.mOut)
    some ([row, up], none)
  else if g.gluForm = formPairGate then do
    let upRank := g.partner.toNat
    let up ← rowRange (h := h) index (← m.entry upRank) exp p.row
    let partner ← m.entryOpening (if p.rank = p.gRank then upRank else p.gRank)
    some ([row, up], some partner)
  else none

/-- The opened bias of the gate `g`. -/
def pointBias (index : Pom.WeightIndex) (p : PointSpec) (g : Entry) : Option (Option Weights) :=
  if g.bias = noneIndex then some none
  else do
    let b ← m.entry g.bias.toNat
    let first := b.chunkBase.toNat + p.row * 4 / 32
    let entry ← m.entryOpening g.bias.toNat
    let range ← rangeProof (blake3 h) index first first
    some (some (entry, range))

/-- The opening of `p` from the captured input bytes `x` and output vector `y` of its gate. -/
def buildPoint (p : PointSpec) (x y : List UInt8) (index : Pom.WeightIndex) : Option Point := do
  let g ← m.entry p.gRank
  let exp ← pointExpert rec p g y
  let (rows, partner) ← pointRows m index p g exp
  let bias ← pointBias m index p g
  let posLeaves := rec.leavesAt p.t
  let c := (p.slot * g.mOut + p.row) * 4 / b3Chunk
  let (yChunk, yChunkPath) ← chunkWithPath h y c
  let nUbatch ← rec.ubatch[p.t]?
  let entry ← m.entryOpening p.rank
  some { nUbatch, posPath := rec.posPath p.t
         metaPath := b3Path h.toMerges posLeaves (rec.nLeaves - 1)
         entry, partner, bias, rows, x
         xPath := b3Path h.toMerges posLeaves p.leafX.toNat
         yTotalLen := UInt32.ofNat y.length, yChunkIndex := UInt32.ofNat c, yChunk, yChunkPath
         yPath := b3Path h.toMerges posLeaves p.leafY.toNat }

/-- The expert ids that close an expert output leaf `y` of `nUsed` slots. -/
def expertIds (h : Blake3) (y : List UInt8) (nUsed : Nat) : Option ExpertIds :=
  if y.length < 4 * nUsed then none
  else
    let body := y.length - 4 * nUsed
    if body % b3Chunk ≠ 0 then none
    else
      match chunkWithPath h y (body / b3Chunk) with
      | none => none
      | some (chunk, chunkPath) => some { chunk, chunkPath }

end KeryxMiner.Replay
