import KeryxMiner.Inference.Draws
import KeryxMiner.Inference.RangeProof

/-!
# Verification of opened points

`verify_point_at`, in the order of its checks: the draw with the entries that it needs (`drawSite`),
the input and the position (`openInput`), the output (`openOutput`) and the recomputed value
(`recompute`), whose arithmetic is that of `Numerics`.
-/

namespace KeryxMiner.Inference

open Openings (EntryOpening ChunkRange ExpertIds Point)
open Manifest

variable (h : Blake3) (num : Numerics) (tier : TierCtx) (resp : ResponseCtx) (shape : PosShape)

def openEntry (e : EntryOpening) (expected : Nat) : Except Fail Entry := do
  refuse (e.index.toNat ≠ expected ∨
    verifyEntry h tier.mT tier.nEntries expected e.bytes e.path = false) .manifest
  let (entry, len) ← orFail (Entry.parse e.bytes) .manifest
  refuse (len ≠ e.bytes.length) .manifest
  return entry

/-- Tensor bytes proven against the model root. -/
def openBytes (entry : Entry) (r : ChunkRange) (offset len : Nat) : Except Fail (List UInt8) := do
  let stop := offset + len
  refuse (len = 0 ∨ entry.nBytes.toNat / 32 * 32 < stop) .shape
  let first := entry.chunkBase.toNat + offset / 32
  let last := entry.chunkBase.toNat + (stop - 1) / 32
  refuse (r.firstChunk.toNat ≠ first ∨ r.chunks.length ≠ (last - first + 1) * 32) .shape
  let leaves := (Pom.chunksOf r.chunks).map (Pom.leafHash (blake3 h))
  refuse (rtVerifyRange (blake3 h) tier.rT tier.nChunks first leaves r.proof = false) .weights
  return (r.chunks.drop (offset % 32)).take len

def openExpertRow (entry : Entry) (r : ChunkRange) (exp row : Nat) : Except Fail (List UInt8) := do
  refuse (entry.m.toNat ≤ row ∨ entry.nExp.toNat ≤ exp) .shape
  openBytes h tier entry r ((exp * entry.m.toNat + row) * entry.rowBytes.toNat)
    entry.rowBytes.toNat

/-- What a point opens: its product, the gate of its pair, the position and the output row. -/
structure Site where
  rank : Nat
  t : Nat
  first : Entry
  gate : Entry
  gRank : Nat
  up : Option Entry
  experts : Bool
  nUsed : Nat
  slot : Nat
  mOut : Nat
  row : Nat

/-- The position of a product of role `role`. -/
def drawPosition (role : UInt8) (d0 : Nat) : Except Fail Nat :=
  let nTraced := resp.nPos.toNat
  if role = roleOutput then
    let firstPos := resp.nPrompt.toNat - 1
    if resp.nPrompt = 0 ∨ nTraced ≤ firstPos then .error .shape
    else .ok (firstPos + d0 % (nTraced - firstPos))
  else .ok (d0 % nTraced)

/-- The gate of the drawn product with its rank, and the up product of a pair. -/
def openGate (first : Entry) (rank : Nat) (partner : Option EntryOpening) :
    Except Fail (Entry × Nat × Option Entry) :=
  if first.gluForm = formNone ∨ first.gluForm = formSplit then do
    refuse (partner.isSome = true) .shape
    return (first, rank, none)
  else if first.gluForm = formPairGate ∨ first.gluForm = formPairUp then do
    let po ← orFail partner .shape
    let other ← openEntry h tier po first.partner.toNat
    refuse (other.partner.toNat ≠ rank ∨ other.k ≠ first.k ∨ other.m ≠ first.m) .manifest
    if first.gluForm = formPairGate then return (first, rank, some other)
    else return (other, first.partner.toNat, some first)
  else .error .unsupported

/-- Rows of the output of `gate`, half of them gates in a split product. -/
def Entry.mOut (gate : Entry) : Nat :=
  if gate.gluForm = formSplit then gate.m.toNat / 2 else gate.m.toNat

def drawSite (seed : Hash) (i : UInt32) (p : Point) (ids : Option ExpertIds) :
    Except Fail Site := do
  refuse (resp.nPos = 0 ∨ resp.nPrompt = 0 ∨ resp.nPos < resp.nPrompt) .shape
  refuse (tier.nProducts = 0 ∨ tier.nEntries < tier.nProducts) .shape
  let d := Draw.point h seed i
  let rank := d 1 % tier.nProducts
  let first ← openEntry h tier p.entry rank
  let heads := first.role = roleHeads
  refuse (first.role ≠ roleProduct ∧ first.role ≠ roleOutput ∧ ¬ heads) .manifest
  let t ← drawPosition resp first.role (d 0)
  let (gate, gRank, up) ← openGate h tier first rank p.partner
  let experts := decide (1 < gate.nExp ∧ ¬ heads)
  refuse (experts ≠ ids.isSome ∨ (experts = true ∧ shape.nUsed = 0) ∨
    (heads ∧ (gate.nExp < 2 ∨ up.isSome = true))) .shape
  refuse (∃ u ∈ up, u.nExp ≠ gate.nExp) .manifest
  let nUsed := if experts then shape.nUsed.toNat else if heads then gate.nExp.toNat else 1
  let slot := if 1 < nUsed then d 3 / 2 ^ 32 % nUsed else 0
  let mOut := gate.mOut
  refuse (mOut = 0) .shape
  return { rank, t, first, gate, gRank, up, experts, nUsed, slot, mOut, row := d 2 % mOut }

/-- The input row of the slot, its layout and the root of the position. -/
def openInput (s : Site) (p : Point) : Except Fail (List UInt8 × UInt8 × Hash) := do
  let layout := inputLayout s.first.role p.nUbatch s.gate.wtype
  let xOne := xLen s.gate.k.toNat layout
  refuse (p.x.length ≠ xOne ∧ ¬ (1 < s.nUsed ∧ p.x.length = s.nUsed * xOne)) .shape
  let x := if p.x.length = xOne then p.x else (p.x.drop (s.slot * xOne)).take xOne
  let posRoot ← orFail (b3Fold h.toMerges shape.nLeaves (2 * s.gRank) (blake3 h p.x) p.xPath) .trace
  refuse (b3Verify h.toMerges resp.traceRoot resp.nPos.toNat s.t posRoot p.posPath = false) .trace
  refuse (p.nUbatch ≠ expectedUbatch s.t resp.nPrompt) .mismatch
  refuse (b3Verify h.toMerges posRoot shape.nLeaves shape.metaIndex
    (blake3 h (shape.metaBytes s.t p.nUbatch)) p.metaPath = false) .trace
  return (x, layout, posRoot)

/-- The value of the output row and the expert of the slot. -/
def openOutput (s : Site) (p : Point) (posRoot : Hash) (ids : Option ExpertIds) :
    Except Fail (List UInt8 × Nat) := do
  let body := s.nUsed * s.mOut * 4
  refuse (s.experts = true ∧ body % b3Chunk ≠ 0) .shape
  let yOff := (s.slot * s.mOut + s.row) * 4
  let yTotal := body + if s.experts then 4 * s.nUsed else 0
  refuse (p.yTotalLen.toNat ≠ yTotal ∨ p.yChunkIndex.toNat ≠ yOff / b3Chunk) .shape
  let yLeaf ← orFail
    (b3LeafFromChunk h p.yTotalLen.toNat p.yChunkIndex.toNat p.yChunk p.yChunkPath) .trace
  refuse (b3Verify h.toMerges posRoot shape.nLeaves (2 * s.gRank + 1) yLeaf p.yPath = false) .trace
  let y := (p.yChunk.drop (yOff % b3Chunk)).take 4
  match ids with
  | none => return (y, s.slot)
  | some e =>
    refuse (b3LeafFromChunk h yTotal (body / b3Chunk) e.chunk e.chunkPath ≠ some yLeaf) .trace
    refuse (e.chunk.length < 4 * s.slot + 4) .shape
    let id := ofLe ((e.chunk.drop (4 * s.slot)).take 4)
    refuse (s.gate.nExp.toNat ≤ id) .mismatch
    return (y, id)

/-- The opened bias of a product, if it has one. -/
def openBias (s : Site) (p : Point) : Except Fail (Option (List UInt8)) :=
  match decide (s.gate.bias = noneIndex), p.bias with
  | true, none => .ok none
  | false, some (be, br) => do
    let entry ← openEntry h tier be s.gate.bias.toNat
    refuse (entry.role ≠ roleBias ∨ entry.wtype ≠ 0 ∨ entry.k ≠ s.gate.m) .manifest
    return some (← openBytes h tier entry br (s.row * 4) 4)
  | _, _ => .error .shape

/-- The output row against its recomputation from the input `x`. -/
def recompute (s : Site) (p : Point) (x : List UInt8) (layout : UInt8) (y : List UInt8)
    (exp : Nat) : Except Fail Unit := do
  let k := s.gate.k.toNat
  refuse (num.sumsConsistent x layout k = false) .mismatch
  let dotRow (entry : Entry) (r : ChunkRange) (row : Nat) : Except Fail num.Value := do
    let bytes ← openExpertRow h tier entry r exp row
    orFail (num.canonicalDot entry.wtype bytes k x layout) .unsupported
  if s.gate.gluForm = formNone then
    match p.rows with
    | [r] =>
      let v ← dotRow s.gate r s.row
      let b ← openBias h tier s p
      refuse (num.plainWithin y v b = false) .mismatch
    | _ => .error .shape
  else
    match p.rows, p.bias with
    | [rg, ru], none =>
      let vg ← dotRow s.gate rg s.row
      let vu ←
        if s.gate.gluForm = formSplit then dotRow s.gate ru (s.row + s.mOut)
        else do
          let up ← orFail s.up .unsupported
          dotRow up ru s.row
      refuse (s.gate.gluOp ≠ gluSwiglu ∧ s.gate.gluOp ≠ gluGeglu) .unsupported
      refuse (num.gluWithin s.gate.gluOp y vg vu = false) .mismatch
    | _, _ => .error .shape

/-- What a verified point leaves for further checks at its position. -/
structure Opened where
  posRoot : Hash
  input : Entry
  layout : UInt8
  slot : Nat
  expert : Nat

def verifyPointAt (seed : Hash) (i : UInt32) (p : Point) (ids : Option ExpertIds) :
    Except Fail (Site × Opened) := do
  let s ← drawSite h tier resp shape seed i p ids
  let (x, layout, posRoot) ← openInput h resp shape s p
  let (y, expert) ← openOutput h shape s p posRoot ids
  recompute h num tier s p x layout y expert
  return (s, { posRoot, input := s.gate, layout, slot := s.slot, expert })

end KeryxMiner.Inference
