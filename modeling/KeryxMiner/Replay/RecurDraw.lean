import KeryxMiner.Inference.Recurrent
import KeryxMiner.Replay.SeqParts

/-!
# Recurrent openings of the miner

The recurrent point that the miner draws, the captures and spans that its opening needs, and the
opening built of them.
-/

namespace KeryxMiner.Replay

open Inference Manifest
open Openings hiding Hash

variable {h : Blake3} (m : TierManifest h) (rec : TraceRecord h) (seq : SeqTrace)
  (index : Pom.WeightIndex)

/-- What the recurrent point of a seed opens. -/
structure RecurDraw where
  layer : Nat
  slot : Nat
  head : Nat
  segment : Nat
  first : Nat
  stop : Nat
  row0 : Nat
  anchor : Nat
  links : RecurLinks
  proj : UInt32

/-- The recurrent point of `seed`; `none` where the source would divide by zero. -/
def drawRecur (seed : Hash) : Option RecurDraw := do
  let ctx ← m.chain
  if ctx.nRecur = 0 then none
  else do
    let nPos := rec.nPos.toNat
    let d := Draw.point h seed Draw.recurPoint
    let slot := d 1 % ctx.nRecur.toNat
    let (layer, ll, r) ← findLayer m ctx fun ll => ll.recur.filter (·.slot.toNat = slot)
    let iv := r.interval.toNat
    let segment := d 0 % ((nPos + iv - 1) / iv)
    let first := segment * iv
    let stop := min ((segment + 1) * iv) nPos
    if iv = 0 ∨ r.nVHeads = 0 ∨ r.headDim.toNat < recurRows then none
    else
      some { layer, slot, head := d 2 % r.nVHeads.toNat, segment, first, stop
             row0 := d 3 % (r.headDim.toNat / recurRows) * recurRows
             anchor := first + d 3 / 2 ^ 32 % (stop - first), links := r, proj := ll.proj }

namespace RecurDraw

variable (d : RecurDraw)

def kda : Bool := d.links.kind = recurKda

/-- Value offsets of the query, key and value channels of the drawn head in their projections. -/
def offsets : List Nat :=
  let hd := d.links.headDim.toNat
  let nk := d.links.nKHeads.toNat
  if d.kda then [d.head * hd, d.head * hd, d.head * hd]
  else
    let hk := d.head % nk
    [hk * hd, (nk + hk) * hd, 2 * nk * hd + d.head * hd]

/-- The positions that the convolution reaches, oldest first. -/
def taps : List Nat :=
  let n := min (d.anchor + 1) d.links.convLen.toNat
  (List.range n).map fun j => d.anchor + 1 - n + j

/-- The captures that the opening needs. -/
def captures : List (UInt32 × UInt32) :=
  let r := d.links
  let srcs := if d.kda then [r.q, r.k, r.v] else [r.q]
  d.taps.flatMap (fun p => srcs.map fun src => captureKey p (2 * src + 1)) ++
    [captureKey d.anchor (2 * r.beta + 1), captureKey d.anchor (2 * r.decay + 1),
      captureKey d.anchor (2 * r.gate + 1), captureKey d.anchor (2 * d.proj)]

/-- The checkpoints whose rows the opening needs: at the start of the segment and, for a whole
segment, at its end. -/
def checkpoints : List Nat :=
  (if 0 < d.segment then [d.segment] else []) ++
    if d.stop - d.first = d.links.interval.toNat then [d.segment + 1] else []

/-- The sequence spans that the opening needs: records, then the start and end state rows that
exist. -/
def spans (nPos : Nat) : Option (List SpanPlan) := do
  let layout := seqLayout (← m.chain)
  let r := d.links
  let hd := r.headDim.toNat
  let rl := recordLen r.kind hd
  let records ← SpanPlan.new (← layout.record d.slot d.head) (nPos * rl) (d.first * rl) (d.stop * rl)
  let ck ← layout.checkpoint d.slot d.head
  let ckLen := checkpointLen hd nPos r.interval.toNat
  let rows ← d.checkpoints.mapM' fun c =>
    let (lo, hi) := checkpointRows hd c d.row0 recurRows
    SpanPlan.new ck ckLen lo hi
  some (records :: rows)

end RecurDraw

/-! ## The opening -/

/-- The chunk of leaf `leaf` at position `p` that holds value `off`. -/
def chunkAt (caps : UInt32 × UInt32 → Option (List UInt8)) (p : Nat) (leaf : UInt32) (off : Nat)
    (e : String) : Except String LeafChunk :=
  orFail ((caps (captureKey p leaf)).bind fun bytes =>
    leafChunk rec p leaf bytes (4 * off / b3Chunk)) e

def recurTap (d : RecurDraw) (caps : UInt32 × UInt32 → Option (List UInt8)) (p : Nat) :
    Except String RecurTap := do
  let r := d.links
  let offs := d.offsets
  let q ← chunkAt rec caps p (2 * r.q + 1) (offs.getD 0 0) "query tap"
  let k ← chunkAt rec caps p (2 * r.k + 1) (offs.getD 1 0) "key tap"
  let v ← chunkAt rec caps p (2 * r.v + 1) (offs.getD 2 0) "value tap"
  return { posPath := rec.posPath p, q, k, v }

/-- Values of the decay of one head. -/
def RecurDraw.decayLen (d : RecurDraw) : Nat := if d.kda then d.links.headDim.toNat else 1

/-- Convolution weights of the query, key and value channels, then the decay bias, the decay scale
and the output norm. -/
def recurWeights (d : RecurDraw) : Except String (List Weights) := do
  let r := d.links
  let hd := r.headDim.toNat
  let cl := r.convLen.toNat
  let gw := d.decayLen
  let conv ← orFail (([r.convQ, r.convK, r.convV].zip d.offsets).mapM' fun w =>
    bytesRange m index w.1.toNat (4 * w.2 * cl) (4 * hd * cl)) "convolution weights"
  let dt ← orFail (bytesRange m index r.dt.toNat (4 * d.head * gw) (4 * gw)) "decay bias"
  let a ← orFail (bytesRange m index r.a.toNat (4 * d.head) 4) "decay scale"
  let norm ← orFail (bytesRange m index r.norm.toNat 0 (4 * hd)) "output norm"
  return conv ++ [dt, a, norm]

/-- The recurrent opening of `d`. -/
def recurOpening (d : RecurDraw) (caps : UInt32 × UInt32 → Option (List UInt8))
    (spans : List SeqCapture) (responseTxid : Hash) : Except String RecurOpening := do
  let r := d.links
  let hd := r.headDim.toNat
  let taps ← d.taps.mapM' fun p => recurTap rec d caps p
  let weights ← recurWeights m index d
  let plans ← orFail (d.spans m rec.nPos.toNat) "no recurrent spans"
  refuse (spans.length ≠ plans.length) s!"{spans.length} spans captured for {plans.length}"
  let records ← captured (h := h) seq plans[0]? spans[0]? "no record span"
  let startRows ← partIf (0 < d.segment) (captured (h := h) seq plans[1]? spans[1]? "no start rows")
  let next := if 0 < d.segment then 2 else 1
  let endRows ← partIf (d.stop - d.first = r.interval.toNat)
    (captured (h := h) seq plans[next]? spans[next]? "no end rows")
  let ctx ← orFail m.chain "no chain context"
  let layer ← orFail (m.entryOpening (ctx.layerBase.toNat + d.layer)) "no layer entry"
  let outEntry ← orFail (m.entryOpening d.proj.toNat) "no output entry"
  let decayEntry ← orFail (m.entryOpening r.decay.toNat) "no decay entry"
  let beta ← chunkAt rec caps d.anchor (2 * r.beta + 1) d.head "beta chunk"
  let decay ← chunkAt rec caps d.anchor (2 * r.decay + 1) (d.head * d.decayLen) "decay chunk"
  let gate ← chunkAt rec caps d.anchor (2 * r.gate + 1) (d.head * hd) "gate chunk"
  let out ← orFail (caps (captureKey d.anchor (2 * d.proj))) "no output capture"
  return { responseTxid, posRoot := rec.traceRoot, seqRoot := seq.root, layer, outEntry, decayEntry
           weights, records, startRows, endRows, taps, beta, decay, gate
           out := leafBytes rec d.anchor (2 * d.proj) out }

end KeryxMiner.Replay
