import KeryxMiner.Inference.Attention

/-!
# Verification of recurrent points

`verify_recur_point`: one segment of one head of a recurrent layer, from the state rows of the
checkpoint before it to those of the checkpoint behind it, and the record of one of its positions
against the projections of the layer. Activations stand as their bytes; what is computed of them is
in `RecurNumerics`.
-/

namespace KeryxMiner.Inference

open Openings hiding Hash
open Manifest

def recurGda : UInt32 := 0
def recurKda : UInt32 := 1

/-- State rows recomputed per point. -/
def recurRows : Nat := 16

/-- Bytes of the record of one recurrent head at one position. -/
def recordLen (kind : UInt32) (hd : Nat) : Nat :=
  4 * 2 * hd + 4 + if kind = recurKda then 2 * hd else 4

/-- Bytes of a checkpoint leaf: the state after every `interval` positions, the last partial
interval excluded. -/
def checkpointLen (hd nPos interval : Nat) : Nat := nPos / interval * hd * hd * 4

/-- Byte span of the state rows from `r0` to `r0 + n` of checkpoint `m`. -/
def checkpointRows (hd m r0 n : Nat) : Nat × Nat :=
  let base := (m - 1) * hd * hd * 4
  (base + r0 * hd * 4, base + (r0 + n) * hd * 4)

/-- The floating-point arithmetic of the recurrent checks. -/
structure RecurNumerics where
  Record : Type
  /-- The drawn rows of a state. -/
  State : Type
  decode : (kind : UInt32) → (hd : Nat) → List UInt8 → Option Record
  zero : (hd : Nat) → State
  /-- The rows of a checkpoint, if they are finite and not too large. -/
  rows : (hd : Nat) → List UInt8 → Option State
  /-- The state behind a record whose output it has. -/
  step : (kda : Bool) → (hd r0 : Nat) → State → Record → Option State
  closeTo : State → State → Bool
  /-- The convolution of the windows is what a record starts from. -/
  inputsMatch : (cl : Nat) → (weights : List (List UInt8)) → (windows : List (List (List UInt8))) →
    Record → Bool
  betaMatches : List UInt8 → Record → Bool
  decayMatches : (decay scale : List UInt8) → (bias : Option (List UInt8)) → Record → Bool
  outputMatches : (out : List UInt8) → (layout : UInt8) → (nOut head : Nat) → (kda : Bool) →
    (gate norm : List UInt8) → Record → Bool

/-- Drawn recurrent point: a segment of the positions from `first` to `stop`, the first drawn state
row and the drawn position. -/
structure RecurSite where
  layer : Nat
  ll : LayerLinks
  r : RecurLinks
  slot : Nat
  head : Nat
  segment : Nat
  first : Nat
  stop : Nat
  row0 : Nat
  p : Nat

variable (h : Blake3) (num : RecurNumerics) (tier : TierCtx) (ctx : ChainCtx) (resp : ResponseCtx)

def recurSite (seed : Hash) (op : RecurOpening) : Except Fail RecurSite := do
  let nPos := resp.nPos.toNat
  refuse (resp.nPos = 0 ∨ ctx.nRecur = 0 ∨ ctx.seqHeads = 0) .unsupported
  refuse (seqTraceRoot h op.posRoot op.seqRoot ≠ some resp.traceRoot) .trace
  let d := Draw.point h seed Draw.recurPoint
  let slot := d 1 % ctx.nRecur.toNat
  let (layer, ll) ← openLayer h tier ctx op.layer
  let r ← orFail ll.recur .shape
  let hd := r.headDim.toNat
  let nv := r.nVHeads.toNat
  let nk := r.nKHeads.toNat
  let iv := r.interval.toNat
  refuse (r.slot.toNat ≠ slot) .manifest
  refuse (¬ (r.kind = recurGda ∨ r.kind = recurKda) ∨ ¬ (1 ≤ r.convLen ∧ r.convLen ≤ 8) ∨ iv = 0)
    .unsupported
  refuse (hd = 0 ∨ hd % 32 ≠ 0 ∨ hd % recurRows ≠ 0 ∨ nk = 0 ∨ nv % nk ≠ 0 ∨
    ctx.seqHeads.toNat < nv ∨ (r.kind = recurKda ∧ nk ≠ nv)) .manifest
  let segment := d 0 % ((nPos + iv - 1) / iv)
  let first := segment * iv
  let stop := min ((segment + 1) * iv) nPos
  return { layer, ll, r, slot, head := d 2 % nv, segment, first, stop
           row0 := d 3 % (hd / recurRows) * recurRows, p := first + d 3 / 2 ^ 32 % (stop - first) }

namespace RecurSite

variable (s : RecurSite)

def kda : Bool := s.r.kind = recurKda

def hd : Nat := s.r.headDim.toNat

def nv : Nat := s.r.nVHeads.toNat

def nk : Nat := s.r.nKHeads.toNat

/-- Byte span of the records of the segment. -/
def recordBounds : Nat × Nat :=
  (s.first * recordLen s.r.kind s.hd, s.stop * recordLen s.r.kind s.hd)

/-- Byte span of the drawn rows of checkpoint `m`. -/
def rowBounds (m : Nat) : Nat × Nat := checkpointRows s.hd m s.row0 recurRows

/-- How many positions the convolution reaches. -/
def nTaps : Nat := min (s.p + 1) s.r.convLen.toNat

/-- Position of tap `j`. -/
def tapPosition (j : Nat) : Nat := s.p + 1 + j - s.nTaps

/-- Value offsets of the query, key and value channels of the head, and how many channels there
are. -/
def channels : List Nat × Nat :=
  if s.kda then ([s.head * s.hd, s.head * s.hd, s.head * s.hd], s.nv * s.hd)
  else
    let hk := s.head % s.nk
    ([hk * s.hd, (s.nk + hk) * s.hd, 2 * s.nk * s.hd + s.head * s.hd], (2 * s.nk + s.nv) * s.hd)

/-- Values of the decay of one head. -/
def decayLen : Nat := if s.kda then s.hd else 1

end RecurSite

/-! ## The segment -/

/-- The rows of checkpoint `m`. -/
def rowsAt (op : RecurOpening) (s : RecurSite) (m : Nat) (rows : SeqSpan) :
    Except Fail num.State := do
  let leaf ← orFail ((seqLayout ctx).checkpoint s.slot s.head) .shape
  let (lo, hi) := s.rowBounds m
  let bytes ← orFail (openSpan h op.seqRoot (seqLayout ctx) leaf
    (checkpointLen s.hd resp.nPos.toNat s.r.interval.toNat) lo hi rows) .trace
  orFail (num.rows s.hd bytes) .mismatch

/-- The records of the segment. -/
def segmentRecords (op : RecurOpening) (s : RecurSite) : Except Fail (List num.Record) := do
  let rl := recordLen s.r.kind s.hd
  let leaf ← orFail ((seqLayout ctx).record s.slot s.head) .shape
  let (lo, hi) := s.recordBounds
  let bytes ← orFail (openSpan h op.seqRoot (seqLayout ctx) leaf (resp.nPos.toNat * rl) lo hi
    op.records) .trace
  orFail ((List.range (bytes.length / rl)).mapM' fun i =>
    num.decode s.r.kind s.hd ((bytes.drop (i * rl)).take rl)) .shape

/-- The records of the segment, which lead from its first state to its last. -/
def verifySegment (op : RecurOpening) (s : RecurSite) : Except Fail (List num.Record) := do
  let recs ← segmentRecords h num ctx resp op s
  let start ←
    if s.segment = 0 then do
      refuse (op.startRows ≠ default) .shape
      pure (num.zero s.hd)
    else rowsAt h num ctx resp op s s.segment op.startRows
  let state ← recs.foldlM (fun state rec =>
    orFail (num.step s.kda s.hd s.row0 state rec) .mismatch) start
  if s.stop - s.first = s.r.interval.toNat then do
    let want ← rowsAt h num ctx resp op s (s.segment + 1) op.endRows
    refuse (num.closeTo state want = false) .mismatch
  else refuse (op.endRows ≠ default) .shape
  return recs

/-! ## The anchor -/

/-- `n` values of a leaf of `total` bytes from value `off` on, held in one opened chunk, and the
position root that the chunk reaches. -/
def chunkValues (shape : PosShape) (leaf : Nat) (c : LeafChunk) (total off n : Nat) :
    Except Fail (Hash × List UInt8) := do
  let per := b3Chunk / 4
  refuse (per < off % per + n) .manifest
  let cv ← chunkLeaf h c total (off / per)
  let root ← orFail (b3Fold h.toMerges shape.nLeaves leaf cv c.leafPath) .trace
  refuse (c.chunk.length / 4 < off % per + n) .shape
  return (root, (c.chunk.drop (4 * (off % per))).take (4 * n))

/-- The query, key and value channels at one position and the root of the position. -/
def tapValues (op : RecurOpening) (s : RecurSite) (j : Nat) (tap : RecurTap) :
    Except Fail (Hash × List (List UInt8)) := do
  let shape := shapeAny tier ctx
  let (offs, n) := s.channels
  let (root, q) ← chunkValues h shape (2 * s.r.q.toNat + 1) tap.q (4 * n) (offs.getD 0 0) s.hd
  let (rootK, k) ← chunkValues h shape (2 * s.r.k.toNat + 1) tap.k (4 * n) (offs.getD 1 0) s.hd
  refuse (rootK ≠ root) .trace
  let (rootV, v) ← chunkValues h shape (2 * s.r.v.toNat + 1) tap.v (4 * n) (offs.getD 2 0) s.hd
  refuse (rootV ≠ root) .trace
  refuse (b3Verify h.toMerges op.posRoot resp.nPos.toNat (s.tapPosition j) root tap.posPath = false)
    .trace
  return (root, [q, k, v])

/-- Values of the chunk `c` at the position whose root is `root`. -/
def anchorValues (root : Hash) (leaf : UInt32) (c : LeafChunk) (total off n : Nat) :
    Except Fail (List UInt8) := do
  let (rt, values) ← chunkValues h (shapeAny tier ctx) (2 * leaf.toNat + 1) c (4 * total) off n
  refuse (rt ≠ root) .trace
  return values

/-- The record of the drawn position against what the layer computes there. -/
def verifyAnchor (op : RecurOpening) (s : RecurSite) (rec : num.Record) : Except Fail Unit := do
  let r := s.r
  let cl := r.convLen.toNat
  refuse (op.taps.length ≠ s.nTaps ∨ op.weights.length ≠ 6) .shape
  let taps ← op.taps.zipIdx.mapM' fun tj => tapValues h tier ctx resp op s tj.2 tj.1
  let root ← orFail (taps.getLast?.map Prod.fst) .shape
  let (offs, n) := s.channels
  let weight (x : Nat) (index : UInt32) (k offset len : Nat) : Except Fail (List UInt8) := do
    f32Weights h tier (← orFail op.weights[x]? .shape) index k offset len
  let conv ← (([r.convQ, r.convK, r.convV].zip offs).zipIdx).mapM' fun w =>
    weight w.2 w.1.1 (cl * n) (w.1.2 * cl) (s.hd * cl)
  refuse (num.inputsMatch cl conv (taps.map Prod.snd) rec = false) .mismatch
  let beta ← anchorValues h tier ctx root r.beta op.beta s.nv s.head 1
  refuse (num.betaMatches beta rec = false) .mismatch
  let de ← openEntry h tier op.decayEntry r.decay.toNat
  refuse (de.role ≠ roleProduct) .manifest
  let gw := s.decayLen
  let decay ← anchorValues h tier ctx root r.decay op.decay (s.nv * gw) (s.head * gw) gw
  let bias ← weight 3 r.dt (s.nv * gw) (s.head * gw) gw
  let scale ← weight 4 r.a s.nv s.head 1
  refuse (num.decayMatches decay scale (if de.bias = noneIndex then some bias else none) rec = false)
    .mismatch
  let gate ← anchorValues h tier ctx root r.gate op.gate (s.nv * s.hd) (s.head * s.hd) s.hd
  let norm ← weight 5 r.norm s.hd 0 s.hd
  let oe ← openEntry h tier op.outEntry s.ll.proj.toNat
  refuse (oe.k.toNat ≠ s.nv * s.hd) .manifest
  let layout := layoutFor (expectedUbatch s.p resp.nPrompt) oe.wtype
  refuse (op.out.bytes.length ≠ xLen oe.k.toNat layout) .shape
  refuse (b3Verify h.toMerges root (shapeAny tier ctx).nLeaves (2 * s.ll.proj.toNat)
    (blake3 h op.out.bytes) op.out.leafPath = false) .trace
  refuse (num.outputMatches op.out.bytes layout (s.nv * s.hd) (s.head * s.hd / 32) s.kda gate norm rec
    = false) .mismatch

/-- Recurrent point of a response whose trace commits sequence leaves. -/
def verifyRecurPoint (seed : Hash) (op : RecurOpening) : Except Fail Unit := do
  let s ← recurSite h tier ctx resp seed op
  let recs ← verifySegment h num ctx resp op s
  -- the drawn position is one of the segment, whose records have all been decoded
  let rec ← orFail recs[s.p - s.first]? .shape
  verifyAnchor h num tier ctx resp op s rec

end KeryxMiner.Inference
