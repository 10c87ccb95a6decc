import KeryxMiner.Outcome
import KeryxMiner.Assign
import KeryxMiner.Blocks
import KeryxMiner.LittleEndian
import KeryxMiner.Engine.SeqSpec
import KeryxMiner.Inference.Spans

/-!
# The sequence leaves of a traced run

The leaves of the attention layers come out of the cache and the softmax masses when the run is over;
those of the recurrent layers grow with each batch from the records that the backend takes.
-/

namespace KeryxMiner.Engine

open Inference (Blake3 Hash blake3 leafSlice)

inductive SeqError where
  | masses (len lseLayers nPos : Nat)
  | noCache (layer : Nat)
  | cacheRows (layer kRow vRow nkv hb : Nat)
  | noMass (layer position head : Nat)
  | recordsUnavailable (rc : Int)
  | records (n nTokens : Nat)
  | checkpoint (due : Bool) (pos : Nat)
  | recordsEnd (pos nCkpt nPos : Nat)
  /-- An index or a slice out of range. -/
  | panic
deriving DecidableEq

/-- The bytes `lo` to `hi`. -/
def slice (b : List UInt8) (lo hi : Nat) : Except SeqError (List UInt8) :=
  if lo ≤ hi ∧ hi ≤ b.length then .ok (leafSlice b lo hi) else .error .panic

theorem slice_of_le {b : List UInt8} {lo hi : Nat} (hlo : lo ≤ hi) (hhi : hi ≤ b.length) :
    slice b lo hi = .ok (leafSlice b lo hi) := if_pos ⟨hlo, hhi⟩

/-- One of several parts in a row. -/
theorem slice_part {b : List UInt8} {i n : Nat} (hi : (i + 1) * n ≤ b.length) :
    slice b (i * n) ((i + 1) * n) = .ok (block n b i) := by
  have hlen : (i + 1) * n - i * n = n := by
    rw [Nat.succ_mul, Nat.add_sub_cancel_left]
  rw [slice_of_le (Nat.mul_le_mul_right _ (Nat.le_succ i)) hi, leafSlice, hlen]
  rfl

/-- The q8_0 key and value cache rows of one layer, every position end to end. -/
structure LayerCache where
  k : List UInt8
  v : List UInt8
  kRow : Nat
  vRow : Nat

/-! ## The attention layers -/

/-- Whether a `f32` with these bits is finite. -/
def isFinite (x : UInt32) : Bool := (x >>> 23) &&& 0xff ≠ 0xff

/-- The masses of the query heads of one group at one position. -/
def massRow (lse : List UInt32) (lseHeads nPos : Nat) (a : SeqAttn) (h g t : Nat) :
    Except SeqError (List (List UInt8)) :=
  (List.range g).mapM' fun qi => do
    let x ← orFail lse[(a.layer * nPos + t) * lseHeads + h * g + qi]? .panic
    refuse (isFinite x = false) (.noMass a.layer t (h * g + qi))
    return toLe 4 x.toNat

/-- The rows of key/value head `h` at one position. -/
def headRows (lc : LayerCache) (lse : List UInt32) (lseHeads nPos : Nat) (a : SeqAttn) (h hb g t : Nat) :
    Except SeqError (List UInt8 × List UInt8 × List UInt8) := do
  let k ← slice lc.k (t * lc.kRow + h * hb) (t * lc.kRow + (h + 1) * hb)
  let v ← slice lc.v (t * lc.vRow + h * hb) (t * lc.vRow + (h + 1) * hb)
  let m ← massRow lse lseHeads nPos a h g t
  return (k, v, m.flatten)

/-- The assignments to the three leaves of a head. -/
def headLeaves (spec : SeqSpec) (lc : LayerCache) (lse : List UInt32) (nPos : Nat) (a : SeqAttn)
    (h : Nat) : Except SeqError (List (Nat × List UInt8)) := do
  let hb := a.headDim / 32 * 34
  let g := a.nHead / a.nHeadKv
  let kl := 2 * (a.slot * spec.heads + h)
  let rows ← (List.range nPos).mapM' (headRows lc lse spec.lseShape.2 nPos a h hb g)
  return [(kl, rows.flatMap (·.1)), (kl + 1, rows.flatMap (·.2.1)),
    (2 * spec.heads * (spec.nAttn + spec.nRecur) + a.slot * spec.heads + h, rows.flatMap (·.2.2))]

/-- The cache of a layer: by its slot when there is one for each attention layer. -/
def cacheAt (spec : SeqSpec) (cache : List LayerCache) (a : SeqAttn) : Option LayerCache :=
  cache[if cache.length = spec.attn.length then a.slot else a.layer]?

def layerLeaves (spec : SeqSpec) (cache : List LayerCache) (lse : List UInt32) (nPos : Nat)
    (a : SeqAttn) : Except SeqError (List (List (Nat × List UInt8))) := do
  let lc ← orFail (cacheAt spec cache a) (.noCache a.layer)
  let hb := a.headDim / 32 * 34
  refuse (lc.kRow ≠ a.nHeadKv * hb ∨ lc.vRow ≠ a.nHeadKv * hb)
    (.cacheRows a.layer lc.kRow lc.vRow a.nHeadKv hb)
  (List.range a.nHeadKv).mapM' (headLeaves spec lc lse nPos a)

/-- The bytes of every sequence leaf; the loops' assignments to them are made at the end. -/
def seqLeafBytes (spec : SeqSpec) (cache : List LayerCache) (lse : List UInt32) (nPos : Nat) :
    Except SeqError (List (List UInt8)) := do
  refuse (lse.length ≠ spec.lseShape.1 * nPos * spec.lseShape.2)
    (.masses lse.length spec.lseShape.1 nPos)
  let leaves ← spec.attn.mapM' (layerLeaves spec cache lse nPos)
  return assign leaves.flatten.flatten (List.replicate spec.nLeaves [])

/-! ## The recurrent layers -/

/-- What the backend returns after a batch, with what it leaves in the two buffers. -/
structure RecurRead where
  rc : Int
  n : Nat
  hasCkpt : Bool
  bufRec : List UInt8
  bufCkpt : List UInt8

/-- The recurrent leaves as they grow: a hasher is the bytes it was given, and the leaves `keep` are
kept whole. -/
structure RecurSink where
  nRecur : Nat
  heads : Nat
  seqHeads : Nat
  nAttn : Nat
  recLen : Nat
  stateLen : Nat
  interval : Nat
  record : List (List UInt8)
  ckpt : List (List UInt8)
  keep : List (Nat × List UInt8)
  pos : Nat
  nCkpt : Nat

namespace RecurSink

/-- Whether `leaf` is a record, and which head's, if it is a written recurrent leaf. -/
def slotHead (sink : RecurSink) (leaf : Nat) : Option (Bool × Nat) :=
  let base := 2 * sink.seqHeads * sink.nAttn
  if leaf < base then none
  else
    let i := leaf - base
    let sh := i / 2
    let slot := sh / sink.seqHeads
    let h := sh % sink.seqHeads
    if slot < sink.nRecur ∧ h < sink.heads then some (i % 2 = 0, slot * sink.heads + h) else none

/-- A sink for the recurrent leaves, if there is a recurrent layer. -/
def new (spec : SeqSpec) (keep : List Nat) : Option RecurSink :=
  match spec.recur.head? with
  | none => none
  | some first =>
    let sink : RecurSink := {
      nRecur := spec.recur.length
      heads := first.nVHeads
      seqHeads := spec.heads
      nAttn := spec.nAttn
      recLen := spec.recordLen
      stateLen := first.headDim * first.headDim * 4
      interval := spec.interval
      record := List.replicate (spec.recur.length * first.nVHeads) []
      ckpt := List.replicate (spec.recur.length * first.nVHeads) []
      keep := []
      pos := 0
      nCkpt := 0 }
    let leaves := (keep.filter fun l => (sink.slotHead l).isSome).mergeSort.dedup
    some { sink with keep := leaves.map (·, []) }

/-- Gives each hasher its part of a buffer. -/
def update (hashers : List (List UInt8)) (buf : List UInt8) (len : Nat) :
    Except SeqError (List (List UInt8)) :=
  hashers.zipIdx.mapM' fun x => (x.1 ++ ·) <$> slice buf (x.2 * len) ((x.2 + 1) * len)

/-- What a kept leaf gets of a batch. -/
def keepPart (sink : RecurSink) (r : RecurRead) (per : Nat) (due : Bool) (leaf : Nat) :
    Except SeqError (List UInt8) :=
  match sink.slotHead leaf with
  | none => .error .panic
  | some (isRec, i) =>
    if isRec then slice r.bufRec (i * per) ((i + 1) * per)
    else if due then slice r.bufCkpt (i * sink.stateLen) ((i + 1) * sink.stateLen)
    else .ok []

/-- Takes the records (and checkpoint) of the batch of `nTokens` just decoded. -/
def afterBatch (sink : RecurSink) (r : RecurRead) (nTokens : Nat) : Except SeqError RecurSink := do
  refuse (r.rc ≠ 0) (.recordsUnavailable r.rc)
  refuse (r.n ≠ nTokens) (.records r.n nTokens)
  let pos := sink.pos + nTokens
  let due : Bool := pos % sink.interval = 0
  refuse (r.hasCkpt ≠ due) (.checkpoint due pos)
  let per := nTokens * sink.recLen
  let record ← update sink.record r.bufRec per
  let ckpt ← (if due then update sink.ckpt r.bufCkpt sink.stateLen else .ok sink.ckpt)
  let keep ← sink.keep.mapM' fun l =>
    (fun part => (l.1, l.2 ++ part)) <$> sink.keepPart r per due l.1
  return { sink with
    record, ckpt, keep, pos
    nCkpt := if due then sink.nCkpt + 1 else sink.nCkpt }

/-- Checks the evaluation covered `nPos` positions. -/
def checkEnd (sink : RecurSink) (nPos : Nat) : Except SeqError Unit :=
  refuse (sink.pos ≠ nPos ∨ sink.nCkpt ≠ nPos / sink.interval)
    (.recordsEnd sink.pos sink.nCkpt nPos)

/-- The hashes of the recurrent leaves into `leaves` (every sequence leaf, in order). -/
def hashesInto (h : Blake3) (sink : RecurSink) (leaves : List Hash) : List Hash :=
  let base := 2 * sink.seqHeads * sink.nAttn
  assign ((List.range sink.nRecur).flatMap fun slot => (List.range sink.heads).flatMap fun head =>
    let i := slot * sink.heads + head
    let leaf := base + 2 * (slot * sink.seqHeads + head)
    [(leaf, blake3 h (sink.record.getD i [])), (leaf + 1, blake3 h (sink.ckpt.getD i []))]) leaves

/-- The whole bytes of kept leaf `leaf`. -/
def kept (sink : RecurSink) (leaf : Nat) : Option (List UInt8) := sink.keep.lookup leaf

end RecurSink

/-! ## The run -/

/-- The records of the batches, one after the other, with the number of their tokens. -/
def takeRecords : List (RecurRead × Nat) → Option RecurSink → Except SeqError (Option RecurSink)
  | _, none => .ok none
  | [], some sink => .ok (some sink)
  | (r, nTokens) :: reads, some sink => do takeRecords reads (some (← sink.afterBatch r nTokens))

/-- The committed leaves, as `generate_traced` puts them together. -/
def seqHashes (h : Blake3) (spec : SeqSpec) (cache : List LayerCache) (lse : List UInt32) (nPos : Nat)
    (sink : Option RecurSink) : Except SeqError (List Hash) := do
  let hashes := (← seqLeafBytes spec cache lse nPos).map (blake3 h)
  match sink with
  | none => return hashes
  | some sink => do
    sink.checkEnd nPos
    return sink.hashesInto h hashes

/-- The leaves which `replay_seq` returns. -/
def replayedLeaves (spec : SeqSpec) (cache : List LayerCache) (lse : List UInt32) (nPos : Nat)
    (sink : Option RecurSink) (leaves : List Nat) : Except SeqError (List (List UInt8)) := do
  let all ← seqLeafBytes spec cache lse nPos
  (match sink with
    | none => .ok ()
    | some sink => sink.checkEnd nPos : Except SeqError Unit)
  leaves.mapM' fun l => match sink.bind (·.kept l) with
    | some bytes => .ok bytes
    | none => orFail all[l]? .panic

end KeryxMiner.Engine
