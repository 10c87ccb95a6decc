import KeryxMiner.Replay.SeqParts

/-!
# Attention openings of the miner

The attention point that the miner draws, the captures and spans that a phase of it needs, the
opening built of them, and its reduction to the fields of the phase.
-/

namespace KeryxMiner.Replay

open Inference Manifest
open Openings hiding Hash

variable {h : Blake3} (m : TierManifest h) (rec : TraceRecord h) (seq : SeqTrace)
  (index : Pom.WeightIndex)

/-- What the attention point of a seed opens. -/
structure AttnDraw where
  layer : Nat
  slot : Nat
  t : Nat
  /-- Key/value head, or the query head of a latent-cache layer. -/
  head : Nat
  /-- Query head whose partials the phases open. -/
  qh : Nat
  start : Nat
  tree : BlockTree
  /-- Values per partial. -/
  dv : Nat
  anchorDraw : Nat
  links : AttnLinks
  proj : UInt32

/-- Key/value head and query head of a layer, from the draw `d2`. -/
def drawHeads (a : AttnLinks) (d2 : Nat) : Nat × Nat :=
  if 0 < a.mlaRank then (d2 % a.nHead.toNat, d2 % a.nHead.toNat)
  else
    let nkv := a.nHeadKv.toNat
    let g := a.nHead.toNat / nkv
    (d2 % nkv, d2 % nkv * g + d2 / nkv % g)

/-- The attention point of `seed`. -/
def drawAttn (seed : Hash) : Option AttnDraw := do
  let ctx ← m.chain
  if ctx.nAttn = 0 then none
  else do
    let d := Draw.point h seed Draw.attnPoint
    let slot := d 1 % ctx.nAttn.toNat
    let (layer, ll, a) ← findLayer m ctx fun ll => ll.attn.filter (·.slot.toNat = slot)
    let t ← (residPosition ctx rec.responseCtx layer (d 0)).toOption
    let (head, qh) := drawHeads a (d 2)
    let start := if ¬ 0 < a.mlaRank ∧ 0 < a.swaWindow then t + 1 - a.swaWindow.toNat else 0
    let row := a.headDim.toNat / 32 * 34
    let (row, dv) := if 0 < a.mlaRank then (row, a.mlaRank.toNat) else (2 * row, a.headDim.toNat)
    let (c, b) ← (blockParams (.ofNat row) (.ofNat (partialLen dv))).join
    let tree ← BlockTree.new start (t + 1) c.toNat b.toNat
    let proj := if 0 < a.mlaRank ∧ a.out ≠ noneIndex then a.out else ll.proj
    some { layer, slot, t, head, qh, start, tree, dv, anchorDraw := d 3, links := a, proj }

/-- Chunks of the leaf `leaf` at position `t` covering its `n` values from `lo` on. -/
def valueChunks (t : Nat) (leaf : UInt32) (bytes : List UInt8) (lo n : Nat) :
    Option (List LeafChunk) :=
  let c0 := 4 * lo / b3Chunk
  let c1 := (4 * (lo + n) - 1) / b3Chunk
  (List.range (c1 + 1 - c0)).mapM' fun i => leafChunk rec t leaf bytes (c0 + i)

namespace AttnDraw

variable (d : AttnDraw)

/-- Whether the phase of `path` opens a leaf. -/
def leaf (path : List UInt64) : Bool := path.length = d.tree.depth

/-- Anchor position of the leaf of `path`. -/
def anchor (path : List UInt64) : Option Nat :=
  (d.tree.node path).map fun p => p.1 + d.anchorDraw % (p.2 - p.1)

/-- The captures the phase of `path` needs: the query, the output at the first phase, the anchor at
the last. -/
def captures (path : List UInt64) : Option (List (UInt32 × UInt32)) := do
  let a := d.links
  let query := [captureKey d.t (2 * a.q + 1)]
  let output := if path = [] then [captureKey d.t (2 * d.proj)] else []
  let latent := if 0 < a.mlaRank then [captureKey d.t (2 * a.absorb + 1)] else []
  if d.leaf path then do
    let ps ← d.anchor path
    let value := if a.mlaRank = 0 ∧ a.v ≠ a.k then [captureKey ps (2 * a.v + 1)] else []
    some (query ++ output ++ latent ++ [captureKey ps (2 * a.k + 1)] ++ value)
  else some (query ++ output ++ latent)

/-- The head of the cache leaves. -/
def cacheHead : Nat := if 0 < d.links.mlaRank then 0 else d.head

/-- How many query heads share the mass leaf, and which of them is drawn. -/
def lseGroup : Nat × Nat :=
  let a := d.links
  if 0 < a.mlaRank then (a.nHead.toNat, d.qh)
  else
    let g := a.nHead.toNat / a.nHeadKv.toNat
    (g, d.qh - d.cacheHead * g)

/-- The cache spans of the positions of the node of `path`: keys, then values (none for a latent
cache), then the mass at the first phase. -/
def spans (nPos : Nat) (path : List UInt64) : Option (List SpanPlan) := do
  let layout := seqLayout (← m.chain)
  let a := d.links
  let bb := a.headDim.toNat / 32 * 34
  let (p0, p1) ← d.tree.node path
  let keys ← SpanPlan.new (← layout.kcache d.slot d.cacheHead) (nPos * bb) (p0 * bb) (p1 * bb)
  let values ←
    if a.mlaRank = 0 then do
      let plan ← SpanPlan.new (← layout.vcache d.slot d.cacheHead) (nPos * bb) (p0 * bb) (p1 * bb)
      some [plan]
    else some []
  let mass ←
    if path = [] then do
      let (g, qi) := d.lseGroup
      let lo := (d.t * g + qi) * 4
      let plan ← SpanPlan.new (← layout.lse d.slot d.cacheHead) (nPos * g * 4) lo (lo + 4)
      some [plan]
    else some []
  some (keys :: values ++ mass)

/-- `op` reduced to the fields the phase of `path` carries, with `partials` before the last. -/
def phaseFields (op : AttnOpening) (path : List UInt64) (partials : List UInt8) : AttnOpening :=
  if d.leaf path then op
  else
    let base : AttnOpening := { (default : AttnOpening) with
      responseTxid := op.responseTxid, posRoot := op.posRoot, seqRoot := op.seqRoot
      layer := op.layer, path := op.path, parent := op.parent, parentPath := op.parentPath
      partials }
    if path = [] then
      { base with qEntry := op.qEntry, oEntry := op.oEntry, posPath := op.posPath, q := op.q
                  out := op.out, lse := op.lse }
    else base

end AttnDraw

/-! ## The opening -/

/-- Captured leaf bytes, by position and leaf. -/
abbrev Captures := UInt32 × UInt32 → Option (List UInt8)

/-- The parts of an opening that depend on the kind of its layer. -/
structure AttnParts where
  q : List LeafChunk
  absorb : List LeafChunk
  anchorK : List LeafChunk
  anchorV : List LeafChunk
  norms : List Weights

/-- The values of leaf `leaf` at the anchor `ps`, if the phase has one. -/
def anchorChunks (caps : Captures) (ps : Option Nat) (leaf : UInt32) (lo n : Nat)
    (noCapture noChunks : String) : Except String (List LeafChunk) :=
  match ps with
  | none => .ok []
  | some ps => do
    let bytes ← orFail (caps (captureKey ps leaf)) noCapture
    orFail (valueChunks rec ps leaf bytes lo n) noChunks

def mlaParts (d : AttnDraw) (caps : Captures) (ps : Option Nat) (qBytes : List UInt8) (qm : Nat) :
    Except String AttnParts := do
  let a := d.links
  let hd := a.headDim.toNat
  let r := a.mlaRank.toNat
  let width := qm / a.nHead.toNat
  let rope := hd - r
  let q ← orFail (valueChunks rec d.t (2 * a.q + 1) qBytes (d.head * width + (width - rope)) rope)
    "query chunks"
  let latent ← orFail (caps (captureKey d.t (2 * a.absorb + 1))) "no latent query capture"
  let absorb ← orFail (valueChunks rec d.t (2 * a.absorb + 1) latent (d.head * r) r)
    "latent query chunks"
  let anchorK ← anchorChunks rec caps ps (2 * a.k + 1) 0 hd "no anchor capture" "anchor chunks"
  let norm ← orFail (bytesRange m index a.kNorm.toNat 0 (4 * r)) "latent norm weights"
  return { q, absorb, anchorK, anchorV := [], norms := [norm] }

def gqaParts (d : AttnDraw) (caps : Captures) (ps : Option Nat) (qBytes : List UInt8) :
    Except String AttnParts := do
  let a := d.links
  let hd := a.headDim.toNat
  let qw := 1 + a.gated.toNat
  let q ← orFail (valueChunks rec d.t (2 * a.q + 1) qBytes (d.qh * hd * qw) (hd * qw))
    "query chunks"
  let anchorK ← anchorChunks rec caps ps (2 * a.k + 1) (d.head * hd) hd "no key anchor capture"
    "key anchor chunks"
  let anchorV ← partIf (a.v ≠ a.k) (anchorChunks rec caps ps (2 * a.v + 1) (d.head * hd) hd
    "no value anchor capture" "value anchor chunks")
  let declared := [(a.qNorm, hd), (a.kNorm, hd), (a.ropeFreqs, a.nRot.toNat / 2)]
  let norms ← orFail ((declared.filter fun w => w.1 ≠ noneIndex).mapM' fun w =>
    bytesRange m index w.1.toNat 0 (4 * w.2)) "norm weights"
  return { q, absorb := [], anchorK, anchorV, norms }

/-- The parts of the opening of a leaf whose anchor is `ps`, or of another node. -/
def attnParts (d : AttnDraw) (caps : Captures) (ps : Option Nat) (qBytes : List UInt8) (qm : Nat) :
    Except String AttnParts :=
  if 0 < d.links.mlaRank then mlaParts m rec index d caps ps qBytes qm
  else gqaParts m rec index d caps ps qBytes

/-- The parent of the node of `path`, from the partials `prev` of the phase before. -/
def parentOpening (h : Blake3) (d : AttnDraw) (path : List UInt64) (prev : Option (List UInt8)) :
    Except String (List UInt8 × List Hash) :=
  match path.getLast?, prev with
  | some i, some b => orFail (partialOpening h b d.dv i.toNat) "no parent partial"
  | none, none => .ok ([], [])
  | _, _ => .error "the parent partials do not match the path"

/-- Every field the phase of `path` of `d` may need; partials are left to the caller. -/
def attnOpening (d : AttnDraw) (caps : Captures) (spans : List SeqCapture) (responseTxid : Hash)
    (path : List UInt64) (prev : Option (List UInt8)) : Except String AttnOpening := do
  let a := d.links
  let first := path = []
  let mla := 0 < a.mlaRank
  let ps ← partIf (d.leaf path) ((orFail (d.anchor path) "no anchor").map some)
  let qBytes ← orFail (caps (captureKey d.t (2 * a.q + 1))) "no query capture"
  let qe ← orFail (m.entry a.q.toNat) "no query entry"
  let parts ← attnParts m rec index d caps ps qBytes qe.m.toNat
  let plans ← orFail (d.spans m rec.nPos.toNat path) "no cache spans"
  refuse (spans.length ≠ plans.length) s!"{spans.length} spans captured for {plans.length}"
  let kcache ← captured (h := h) seq plans[0]? spans[0]? "no cache spans"
  let vcache ← partIf (¬ mla) (captured (h := h) seq plans[1]? spans[1]? "no cache spans")
  let lse ← partIf first (captured (h := h) seq plans.getLast? spans.getLast? "no mass span")
  let (parent, parentPath) ← parentOpening h d path prev
  let ctx ← orFail m.chain "no chain context"
  let layer ← orFail (m.entryOpening (ctx.layerBase.toNat + d.layer)) "no layer entry"
  let qEntry ← orFail (m.entryOpening a.q.toNat) "no query entry"
  let oEntry ← partIf first (orFail (m.entryOpening d.proj.toNat) "no output entry")
  let out ← partIf first ((orFail (caps (captureKey d.t (2 * d.proj))) "no output capture").map
    (leafBytes rec d.t (2 * d.proj)))
  return { responseTxid, posRoot := rec.traceRoot, seqRoot := seq.root, layer, qEntry, oEntry
           norms := parts.norms, posPath := rec.posPath d.t, q := parts.q, out, kcache, vcache
           anchorPosPath := (ps.map rec.posPath).getD [], anchorK := parts.anchorK
           anchorV := parts.anchorV, absorb := parts.absorb, path, parent, parentPath
           partials := [], lse }

end KeryxMiner.Replay
