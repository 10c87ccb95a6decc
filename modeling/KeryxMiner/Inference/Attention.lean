import KeryxMiner.Inference.BlockTree
import KeryxMiner.Inference.Spans
import KeryxMiner.Inference.Verify

/-!
# Verification of attention phases

`verify_attn_phase`: what a phase draws (`attnSite`), which fields of its opening it keeps
(`AttnOpening.kept`), and the checks of grouped-query and latent-cache layers. Activations stand as
their bytes; what is computed of them is in `AttnNumerics`.
-/

namespace KeryxMiner.Inference

open Openings hiding Hash
open Manifest

def ropeNorm : UInt32 := 0
def ropeNeox : UInt32 := 1

/-- Weights that a grouped-query layer declares for its query norm, key norm and frequencies. -/
structure GqaNorms where
  qNorm : Option (List UInt8)
  kNorm : Option (List UInt8)
  freqs : Option (List UInt8)

/-- The floating-point arithmetic of the attention checks. -/
structure AttnNumerics where
  Partial : Type
  Query : Type
  finite : List UInt8 → Bool
  decodePartial : List UInt8 → Option Partial
  childWeights : List Partial → Option (List UInt16)
  checkNode : Partial → List Partial → Bool
  /-- The factors of the frequencies are finite and positive. -/
  freqsFit : List UInt8 → Bool
  gqaQuery : AttnLinks → GqaNorms → List UInt8 → Nat → Query
  mlaQuery : (latent rope : List UInt8) → Query
  /-- The partial of a query over cache rows agrees with a claimed one. -/
  checkLeaf : AttnLinks → Query → (keys values : List (List UInt8)) → Partial → Bool
  /-- The partial over the rows of a whole opening is the committed output of a head. -/
  checkWhole : AttnLinks → Query → (keys values : List (List UInt8)) → (out : List UInt8) →
    (layout : UInt8) → (nOut head : Nat) → (gate : Option (List UInt8)) → (mass : List UInt8) → Bool
  /-- The committed output of a head carries the partials of the children. -/
  checkRootLse : (out : List UInt8) → (layout : UInt8) → (nOut head : Nat) → List Partial →
    (gate : Option (List UInt8)) → (mass : List UInt8) → Bool
  gqaKeyMatches : AttnLinks → GqaNorms → (row projection : List UInt8) → Nat → Bool
  gqaValueMatches : AttnLinks → (row projection : List UInt8) → Bool
  mlaKeyMatches : AttnLinks → (norm row projection : List UInt8) → Bool

/-! ## The site -/

/-- Trace root over the roots of the position tree and the sequence tree. -/
def seqTraceRoot (h : Blake3) (posRoot seqRoot : Hash) : Option Hash :=
  b3Root h.toMerges [posRoot, seqRoot]

def seqLayout (ctx : ChainCtx) : SeqLayout :=
  ⟨ctx.nAttn.toNat, ctx.nRecur.toNat, ctx.seqHeads.toNat⟩

/-- First attended position of a layer with a sliding window. -/
def windowStart (a : AttnLinks) (t : Nat) : Nat :=
  if 0 < a.swaWindow then t + 1 - a.swaWindow.toNat else 0

/-- Bytes of a cache row of one head. -/
def cacheRowLen (a : AttnLinks) : Nat := a.headDim.toNat / 32 * 34

/-- Drawn attention point: layer links, query position, draws and the block tree of the attended
positions. -/
structure AttnSite where
  layer : Nat
  ll : LayerLinks
  a : AttnLinks
  slot : Nat
  t : Nat
  d : Nat → Nat
  tree : BlockTree
  /-- Values per partial. -/
  dv : Nat

variable (h : Blake3) (num : AttnNumerics) (tier : TierCtx) (ctx : ChainCtx) (resp : ResponseCtx)

/-- The links of the layer that an opening names, which lie at the index it opens. -/
def openLayer (op : EntryOpening) : Except Fail (Nat × LayerLinks) := do
  refuse (op.index.toNat < ctx.layerBase.toNat) .manifest
  let layer := op.index.toNat - ctx.layerBase.toNat
  refuse (ctx.nLayers.toNat ≤ layer) .manifest
  let le ← openEntry h tier op (ctx.layerBase.toNat + layer)
  let ll ← orFail le.layer .manifest
  refuse (le.role ≠ roleLayer ∨ ll.layer.toNat ≠ layer) .manifest
  return (layer, ll)

def attnSite (seed : Hash) (op : AttnOpening) : Except Fail AttnSite := do
  refuse (resp.nPos = 0 ∨ ctx.nLayers = 0 ∨ ctx.nAttn = 0 ∨ ctx.nLayers < ctx.nAttn ∨
    ctx.seqHeads = 0) .unsupported
  refuse (seqTraceRoot h op.posRoot op.seqRoot ≠ some resp.traceRoot) .trace
  let d := Draw.point h seed Draw.attnPoint
  let slot := d 1 % ctx.nAttn.toNat
  let (layer, ll) ← openLayer h tier ctx op.layer
  let a ← orFail ll.attn .shape
  refuse (a.slot.toNat ≠ slot) .manifest
  let t ← residPosition ctx resp layer (d 0)
  refuse (a.softcap ≠ 0 ∨ 1 < a.vNorm ∨ 1 < a.gated) .unsupported
  let hd := a.headDim.toNat
  refuse (hd = 0 ∨ hd % 32 ≠ 0) .manifest
  let (start, row, dv) := if a.mlaRank ≠ 0 then (0, cacheRowLen a, a.mlaRank.toNat)
    else (windowStart a t, 2 * cacheRowLen a, hd)
  let (c, b) ← orFail (blockParams (.ofNat row) (.ofNat (partialLen dv))).join .manifest
  let tree ← orFail (BlockTree.new start (t + 1) c.toNat b.toNat) .manifest
  return { layer, ll, a, slot, t, d, tree, dv }

/-- Query heads per key/value head, for a consistent shape. -/
def gqaGroup (a : AttnLinks) : Option Nat :=
  if 0 < a.nHeadKv ∧ a.nHead.toNat % a.nHeadKv.toNat = 0 ∧ a.nRot ≤ a.headDim ∧
      a.nRot.toNat % 2 = 0 ∧ (a.ropeKind = ropeNorm ∨ a.ropeKind = ropeNeox) then
    some (a.nHead.toNat / a.nHeadKv.toNat)
  else none

namespace AttnSite

variable (s : AttnSite)

/-- Key/value head and query head of a grouped-query point. -/
def gqaHeads (g : Nat) : Nat × Nat :=
  let kv := s.d 2 % s.a.nHeadKv.toNat
  (kv, kv * g + s.d 2 / s.a.nHeadKv.toNat % g)

/-- Query head of a latent-cache point. -/
def mlaHead : Nat := s.d 2 % s.a.nHead.toNat

/-- The drawn position among those from `p0` to `p1`. -/
def anchor (p0 p1 : Nat) : Nat := p0 + s.d 3 % (p1 - p0)

/-- The bytes of the drawn position's mass in the leaf of `g` query heads: of head `qi` of them. -/
def lseBounds (g qi : Nat) : Nat × Nat := ((s.t * g + qi) * 4, (s.t * g + qi) * 4 + 4)

end AttnSite

/-- The bytes of the positions from `p0` to `p1` in a cache leaf. -/
def cacheBounds (a : AttnLinks) (p0 p1 : Nat) : Nat × Nat :=
  (p0 * cacheRowLen a, p1 * cacheRowLen a)

/-! ## Kept fields -/

/-- `op` reduced to the fields that a phase keeps: the query and its path at the first phase and the
last, the output and the mass at the first, the rows and the anchor at the last, and the partials
before it. -/
def keptFields (op : AttnOpening) (path : List UInt64) (last : Bool) : AttnOpening :=
  let base : AttnOpening := { (default : AttnOpening) with
    responseTxid := op.responseTxid, posRoot := op.posRoot, seqRoot := op.seqRoot
    layer := op.layer, path := op.path, parent := op.parent, parentPath := op.parentPath }
  let keep := if path = [] ∨ last then
    { base with qEntry := op.qEntry, posPath := op.posPath, q := op.q } else base
  let keep := if path = [] then
    { keep with oEntry := op.oEntry, out := op.out, lse := op.lse } else keep
  if last then
    { keep with norms := op.norms, kcache := op.kcache, vcache := op.vcache
                anchorPosPath := op.anchorPosPath, anchorK := op.anchorK, anchorV := op.anchorV
                absorb := op.absorb }
  else { keep with partials := op.partials }

/-! ## Parts of the checks -/

/-- `len` values of norm weights from `offset` on. -/
def f32Weights (w : Weights) (index : UInt32) (k offset len : Nat) : Except Fail (List UInt8) := do
  let e ← openEntry h tier w.1 index.toNat
  refuse (e.role ≠ roleNorm ∨ e.wtype ≠ 0 ∨ e.k.toNat ≠ k) .manifest
  openBytes h tier e w.2 (4 * offset) (4 * len)

def chunkLeaf (c : LeafChunk) (totalLen index : Nat) : Except Fail Hash := do
  refuse (c.totalLen.toNat ≠ totalLen ∨ c.index.toNat ≠ index) .shape
  orFail (b3LeafFromChunk h totalLen index c.chunk c.chunkPath) .trace

/-- Root of position `t` that the first of `chunks` reaches. -/
def anchorRoot (posRoot : Hash) (t : Nat) (shape : PosShape) (leaf : Nat) (chunks : List LeafChunk)
    (total : Nat) (path : List Hash) : Except Fail Hash := do
  let c ← orFail chunks.head? .shape
  let cv ← chunkLeaf h c total c.index.toNat
  let root ← orFail (b3Fold h.toMerges shape.nLeaves leaf cv c.leafPath) .trace
  refuse (b3Verify h.toMerges posRoot resp.nPos.toNat t root path = false) .trace
  return root

/-- The values of one chunk, put at their places among `len` values from `lo` on. -/
def placeChunk (lo : Nat) (c : LeafChunk) (out : List (Option (List UInt8))) :
    List (Option (List UInt8)) :=
  let base := c.index.toNat * b3Chunk / 4
  out.mapIdx fun i old =>
    if base ≤ lo + i ∧ lo + i - base < c.chunk.length / 4 then
      some ((c.chunk.drop (4 * (lo + i - base))).take 4)
    else old

/-- `len` values of the leaf `leaf` from `lo` on, from its opened chunks. -/
def headFromChunks (root : Hash) (shape : PosShape) (leaf : Nat) (chunks : List LeafChunk)
    (total lo len : Nat) : Except Fail (List UInt8) := do
  let out ← chunks.foldlM (fun out c => do
    let cv ← chunkLeaf h c total c.index.toNat
    refuse (b3Verify h.toMerges root shape.nLeaves leaf cv c.leafPath = false) .trace
    refuse (num.finite c.chunk = false) .mismatch
    return placeChunk lo c out) (List.replicate len none)
  let values ← orFail (out.mapM' id) .shape
  return values.flatten

/-- The rows of the positions from `p0` to `p1` of a cache leaf. -/
def cacheRows (a : AttnLinks) (seqRoot : Hash) (leaf : Option Nat) (p0 p1 : Nat) (s : SeqSpan) :
    Except Fail (List (List UInt8)) := do
  let leaf ← orFail leaf .shape
  let (lo, hi) := cacheBounds a p0 p1
  let bytes ← orFail (openSpan h seqRoot (seqLayout ctx) leaf (resp.nPos.toNat * cacheRowLen a) lo
    hi s) .trace
  return (List.range (p1 - p0)).map fun i => (bytes.drop (i * cacheRowLen a)).take (cacheRowLen a)

/-- Committed log mass of query head `qi` of the `g` that share key/value head `kv`. -/
def committedLse (op : AttnOpening) (s : AttnSite) (kv g qi : Nat) : Except Fail (List UInt8) := do
  let leaf ← orFail ((seqLayout ctx).lse s.slot kv) .shape
  let (lo, hi) := s.lseBounds g qi
  orFail (openSpan h op.seqRoot (seqLayout ctx) leaf (resp.nPos.toNat * g * 4) lo hi op.lse) .trace

/-- The weights that a grouped-query layer declares, with how many values each has. -/
def declaredNorms (a : AttnLinks) : List (UInt32 × Nat) :=
  [(a.qNorm, a.headDim.toNat), (a.kNorm, a.headDim.toNat),
    (a.ropeFreqs, a.nRot.toNat / 2)].filter fun d => d.1 ≠ noneIndex

/-- The first of the weights that are left, if it is declared. -/
def takeNorm (i : UInt32) (weights : List (List UInt8)) :
    Option (List UInt8) × List (List UInt8) :=
  if i = noneIndex then (none, weights) else (weights.head?, weights.tail)

def gqaNorms (a : AttnLinks) (norms : List Weights) : Except Fail GqaNorms := do
  let declared := declaredNorms a
  refuse (norms.length ≠ declared.length) .shape
  let weights ← (declared.zip norms).mapM' fun dw =>
    f32Weights h tier dw.2 dw.1.1 dw.1.2 0 dw.1.2
  let (qNorm, weights) := takeNorm a.qNorm weights
  let (kNorm, weights) := takeNorm a.kNorm weights
  let (freqs, _) := takeNorm a.ropeFreqs weights
  return { qNorm, kNorm, freqs }

/-- Leaf layout of a position, independent of its token. -/
def shapeAny : PosShape := .chain tier.nProducts ctx 0

/-- Layout of the attention-output input and the position root that its opened leaf reaches. -/
def outRoot (op : AttnOpening) (s : AttnSite) (rank wtype : UInt32) :
    Except Fail (UInt8 × Hash) := do
  let layout := layoutFor (expectedUbatch s.t resp.nPrompt) wtype
  let root ← orFail (b3Fold h.toMerges (shapeAny tier ctx).nLeaves (2 * rank.toNat)
    (blake3 h op.out.bytes) op.out.leafPath) .trace
  refuse (b3Verify h.toMerges op.posRoot resp.nPos.toNat s.t root op.posPath = false) .trace
  return (layout, root)

/-! ## Grouped-query layers -/

/-- What a grouped-query layer demands of the fields of any opening. -/
def GqaFields (a : AttnLinks) (op : AttnOpening) : Prop :=
  a.absorb = noneIndex ∧ a.out = noneIndex ∧ op.absorb = []

instance (a : AttnLinks) (op : AttnOpening) : Decidable (GqaFields a op) :=
  inferInstanceAs (Decidable (_ ∧ _ ∧ _))

/-- The anchor of a leaf against the cache rows of its position. -/
def gqaAnchor (op : AttnOpening) (s : AttnSite) (norms : GqaNorms) (kv p0 p1 : Nat)
    (krows vrows : List (List UInt8)) : Except Fail Unit := do
  let hd := s.a.headDim.toNat
  let ps := s.anchor p0 p1
  let total := 4 * (s.a.nHeadKv.toNat * hd)
  let kLeaf := 2 * s.a.k.toNat + 1
  let vLeaf := 2 * s.a.v.toNat + 1
  let pshape := shapeAny tier ctx
  let root ← anchorRoot h resp op.posRoot ps pshape kLeaf op.anchorK total op.anchorPosPath
  let kProj ← headFromChunks h num root pshape kLeaf op.anchorK total (kv * hd) hd
  let vProj ←
    if s.a.v = s.a.k then do
      refuse (op.anchorV ≠ []) .shape
      pure kProj
    else headFromChunks h num root pshape vLeaf op.anchorV total (kv * hd) hd
  refuse (num.gqaKeyMatches s.a norms (krows.getD (ps - p0) []) kProj ps = false ∨
    num.gqaValueMatches s.a (vrows.getD (ps - p0) []) vProj = false) .mismatch

def gqaPhase (op : AttnOpening) (s : AttnSite) (path : List UInt64) (parent : Option num.Partial)
    (children : Option (List num.Partial)) : Except Fail Unit := do
  let a := s.a
  refuse (¬ GqaFields a op) .shape
  let g ← orFail (gqaGroup a) .manifest
  let nHead := a.nHead.toNat
  let hd := a.headDim.toNat
  let qw := 1 + a.gated.toNat
  let (kv, qh) := s.gqaHeads g
  let qe ← openEntry h tier op.qEntry a.q.toNat
  let total := 4 * qe.m.toNat
  refuse (qe.m.toNat ≠ nHead * hd * qw) .manifest
  let pshape := shapeAny tier ctx
  let qLeaf := 2 * a.q.toNat + 1
  let (rootT, layout) ←
    if path = [] then do
      let oe ← openEntry h tier op.oEntry s.ll.proj.toNat
      refuse (oe.k.toNat ≠ nHead * hd) .manifest
      let (layout, root) ← outRoot h tier ctx resp op s s.ll.proj oe.wtype
      refuse (op.out.bytes.length ≠ xLen oe.k.toNat layout) .shape
      pure (root, layout)
    else do
      let root ← anchorRoot h resp op.posRoot s.t pshape qLeaf op.q total op.posPath
      pure (root, mmvq)
  match children with
  | some ch =>
    let gate ←
      if 1 < qw then
        (headFromChunks h num rootT pshape qLeaf op.q total (qh * hd * qw + hd) hd).map some
      else pure none
    let mass ← committedLse h ctx resp op s kv g (qh - kv * g)
    refuse (num.checkRootLse op.out.bytes layout (nHead * hd) qh ch gate mass = false) .mismatch
  | none =>
    let norms ← gqaNorms h tier a op.norms
    refuse (norms.freqs.any (num.freqsFit · = false)) .manifest
    let (p0, p1) ← orFail (s.tree.node path) .shape
    let krows ← cacheRows h ctx resp a op.seqRoot ((seqLayout ctx).kcache s.slot kv) p0 p1 op.kcache
    let vrows ← cacheRows h ctx resp a op.seqRoot ((seqLayout ctx).vcache s.slot kv) p0 p1 op.vcache
    match parent with
    | some p =>
      let root ← anchorRoot h resp op.posRoot s.t pshape qLeaf op.q total op.posPath
      let raw ← headFromChunks h num root pshape qLeaf op.q total (qh * hd * qw) hd
      refuse (num.checkLeaf a (num.gqaQuery a norms raw s.t) krows vrows p = false) .mismatch
    | none =>
      let raw ← headFromChunks h num rootT pshape qLeaf op.q total (qh * hd * qw) (hd * qw)
      let gate := if 1 < qw then some (raw.drop (4 * hd)) else none
      let mass ← committedLse h ctx resp op s kv g (qh - kv * g)
      refuse (num.checkWhole a (num.gqaQuery a norms (raw.take (4 * hd)) s.t) krows vrows
        op.out.bytes layout (nHead * hd) qh gate mass = false) .mismatch
    gqaAnchor h num tier ctx resp op s norms kv p0 p1 krows vrows

/-! ## Latent-cache layers -/

/-- What a latent-cache layer demands of the fields of any opening. -/
def MlaFields (op : AttnOpening) : Prop := op.anchorV = [] ∧ op.vcache = default

instance (op : AttnOpening) : Decidable (MlaFields op) := inferInstanceAs (Decidable (_ ∧ _))

def mlaQueryOf (op : AttnOpening) (s : AttnSite) (qm : Nat) : Except Fail num.Query := do
  let a := s.a
  let r := a.mlaRank.toNat
  let rope := a.headDim.toNat - r
  let width := qm / a.nHead.toNat
  let pshape := shapeAny tier ctx
  let qLeaf := 2 * a.q.toNat + 1
  let root ← anchorRoot h resp op.posRoot s.t pshape qLeaf op.q (4 * qm) op.posPath
  let latent ← headFromChunks h num root pshape (2 * a.absorb.toNat + 1) op.absorb
    (4 * (a.nHead.toNat * r)) (s.mlaHead * r) r
  let part ← headFromChunks h num root pshape qLeaf op.q (4 * qm)
    (s.mlaHead * width + (width - rope)) rope
  return num.mlaQuery latent part

/-- The output row of the drawn head with its layout, at the first phase. -/
def mlaOutput (op : AttnOpening) (s : AttnSite) : Except Fail (List UInt8 × UInt8) := do
  let a := s.a
  let rank := if a.out = noneIndex then s.ll.proj else a.out
  let oe ← openEntry h tier op.oEntry rank.toNat
  refuse (oe.k.toNat ≠ a.mlaRank.toNat ∨ oe.nExp ≠ a.nHead ∨ oe.role ≠ roleHeads) .manifest
  let (layout, _) ← outRoot h tier ctx resp op s rank oe.wtype
  let xOne := xLen oe.k.toNat layout
  refuse (op.out.bytes.length ≠ a.nHead.toNat * xOne) .shape
  return ((op.out.bytes.drop (s.mlaHead * xOne)).take xOne, layout)

/-- The rows of a leaf against the query and the anchor. -/
def mlaLeaf (op : AttnOpening) (s : AttnSite) (path : List UInt64) (qm : Nat)
    (parent : Option num.Partial) (out : Option (List UInt8 × UInt8)) : Except Fail Unit := do
  let a := s.a
  let hd := a.headDim.toNat
  let r := a.mlaRank.toNat
  match op.norms with
  | [w] =>
    let norm ← f32Weights h tier w a.kNorm r 0 r
    let q ← mlaQueryOf h num tier ctx resp op s qm
    let (p0, p1) ← orFail (s.tree.node path) .shape
    let rows ← cacheRows h ctx resp a op.seqRoot ((seqLayout ctx).kcache s.slot 0) p0 p1 op.kcache
    match parent, out with
    | some p, _ => refuse (num.checkLeaf a q rows rows p = false) .mismatch
    | none, some (x, layout) =>
      let mass ← committedLse h ctx resp op s 0 a.nHead.toNat s.mlaHead
      refuse (num.checkWhole a q rows rows x layout r 0 none mass = false) .mismatch
    | none, none => .error .mismatch
    let ps := s.anchor p0 p1
    let kLeaf := 2 * a.k.toNat + 1
    let pshape := shapeAny tier ctx
    let root ← anchorRoot h resp op.posRoot ps pshape kLeaf op.anchorK (4 * hd) op.anchorPosPath
    let key ← headFromChunks h num root pshape kLeaf op.anchorK (4 * hd) 0 hd
    refuse (num.mlaKeyMatches a norm (rows.getD (ps - p0) []) key = false) .mismatch
  | _ => .error .shape

def mlaPhase (op : AttnOpening) (s : AttnSite) (path : List UInt64) (parent : Option num.Partial)
    (children : Option (List num.Partial)) : Except Fail Unit := do
  let a := s.a
  let r := a.mlaRank.toNat
  refuse (a.headDim.toNat < r ∨ r % 32 ≠ 0) .manifest
  refuse (a.nHeadKv ≠ 1 ∨ a.nRot ≠ 0 ∨ a.swaWindow ≠ 0 ∨ a.gated ≠ 0 ∨ a.vNorm ≠ 0 ∨
    a.qNorm ≠ noneIndex ∨ a.ropeFreqs ≠ noneIndex) .unsupported
  refuse (a.v ≠ noneIndex ∨ a.kNorm = noneIndex ∨ a.absorb = noneIndex ∨ a.nHead = 0) .manifest
  let qe ← openEntry h tier op.qEntry a.q.toNat
  let qm := qe.m.toNat
  refuse (qm % a.nHead.toNat ≠ 0 ∨ qm / a.nHead.toNat ≤ a.headDim.toNat - r) .manifest
  refuse (¬ MlaFields op) .shape
  let out ← if path = [] then (mlaOutput h tier ctx resp op s).map some else pure none
  match children with
  | some ch =>
    let (x, layout) ← orFail out .shape
    let mass ← committedLse h ctx resp op s 0 a.nHead.toNat s.mlaHead
    refuse (num.checkRootLse x layout r 0 ch none mass = false) .mismatch
  | none => mlaLeaf h num tier ctx resp op s path qm parent out

/-! ## A phase -/

/-- Partials of `d` values end to end. -/
def decodePartials (bytes : List UInt8) (d : Nat) : Option (List num.Partial) :=
  let n := partialLen d
  if d = 0 ∨ bytes = [] ∨ bytes.length % n ≠ 0 then none
  else (List.range (bytes.length / n)).mapM' fun i =>
    num.decodePartial ((bytes.drop (i * n)).take n)

def partialLeaves (bytes : List UInt8) (d : Nat) : Option (List Hash) :=
  let n := partialLen d
  if d = 0 ∨ bytes = [] ∨ bytes.length % n ≠ 0 then none
  else some ((List.range (bytes.length / n)).map fun i => blake3 h ((bytes.drop (i * n)).take n))

/-- Root over the encoded partials of `d` values, one leaf per partial. -/
def partialsRoot (bytes : List UInt8) (d : Nat) : Option Hash :=
  (partialLeaves h bytes d).bind (b3Root h.toMerges)

/-- Encoded partial `i` and its path under `partialsRoot`. -/
def partialOpening (bytes : List UInt8) (d i : Nat) : Option (List UInt8 × List Hash) := do
  let leaves ← partialLeaves h bytes d
  if i < leaves.length then
    some ((bytes.drop (i * partialLen d)).take (partialLen d), b3Path h.toMerges leaves i)
  else none

/-- Partial `i` of the `n` committed under `root`, from its encoding and path. -/
def openPartial (root : Hash) (n i : Nat) (bytes : List UInt8) (path : List Hash) (d : Nat) :
    Option num.Partial :=
  if bytes.length ≠ partialLen d ∨ b3Verify h.toMerges root n i (blake3 h bytes) path = false then
    none
  else (decodePartials num bytes d).bind List.getLast?

/-- The parent of the node of `path`, opened under the root of the partials of the phase before. -/
def openParent (s : AttnSite) (path : List UInt64) (parentRoot : Option Hash) (op : AttnOpening) :
    Except Fail (Option num.Partial) :=
  match path.getLast?, parentRoot with
  | none, none => if op.parent = [] ∧ op.parentPath = [] then .ok none else .error .shape
  | some i, some root => do
    let children ← orFail (s.tree.children path.dropLast) .shape
    let p ← orFail (openPartial h num root children.length i.toNat op.parent op.parentPath s.dv)
      .trace
    return some p
  | _, _ => .error .shape

inductive AttnStep
  | done
  /-- The next phase opens one of the `n` children whose partials this phase committed under `root`,
  drawn under `weights`. -/
  | next (root : Hash) (n : Nat) (weights : List UInt16)

/-- Phase `path.length` of the attention point of a response. -/
def verifyAttnPhase (seed : Hash) (path : List UInt64) (parentRoot : Option Hash)
    (op : AttnOpening) : Except Fail AttnStep := do
  let s ← attnSite h tier ctx resp seed op
  refuse (op.path ≠ path ∨ s.tree.depth < path.length) .shape
  let parent ← openParent h num s path parentRoot op
  let last := decide (path.length = s.tree.depth)
  refuse (op ≠ keptFields op path last) .shape
  let children ←
    if last then pure none
    else do
      let nodes ← orFail (s.tree.children path) .shape
      let ch ← orFail ((decodePartials num op.partials s.dv).filter (·.length = nodes.length)) .shape
      pure (some ch)
  match parent, children with
  | some p, some ch => refuse (num.checkNode p ch = false) .mismatch
  | _, _ =>
    if s.a.mlaRank ≠ 0 then mlaPhase h num tier ctx resp op s path parent children
    else gqaPhase h num tier ctx resp op s path parent children
  match children with
  | none => return .done
  | some ch =>
    let root ← orFail (partialsRoot h op.partials s.dv) .shape
    let weights ← orFail (num.childWeights ch) .shape
    return .next root ch.length weights

end KeryxMiner.Inference
