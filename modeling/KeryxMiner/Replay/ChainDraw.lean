import KeryxMiner.Replay.Point

/-!
# Stage-2 draws of the miner

Everything that a stage-2 opening opens: the points with the leaves that their links read, the
prefix position and the residual point. `captures` are the leaves that the replay records for it.
-/

namespace KeryxMiner.Replay

open Inference Manifest

/-- Consensus data of a tier's prefix, without the factors of its floating-point checks. -/
structure PrefixCtx where
  /-- Token id of each byte value. -/
  table : Vector UInt32 256
  offset : UInt32
  embdEntry : UInt32
  normEntry : UInt32

/-- `PREFIX_LEN`. -/
def prefixLen : Nat := 32

/-- The prefix position a seed draws. -/
def drawPrefix (h : Blake3) (ctx : PrefixCtx) (seed : Hash) : Nat :=
  ctx.offset.toNat + Draw.point h seed Draw.prefixPoint 0 % prefixLen

/-- The token the request id puts at prefix position `t`. -/
def expectedToken (ctx : PrefixCtx) (requestHash : Hash) (t : Nat) : Option UInt32 :=
  if t < ctx.offset.toNat then none
  else (requestHash.toList[t - ctx.offset.toNat]?).map fun b => ctx.table.toList.getD b.toNat 0

/-- The residual point of a stage-2 draw. -/
structure ResidDraw where
  t : Nat
  layer : Nat
  kind : Resid
  /-- Product whose output is added. -/
  rank : UInt32
  c : Nat
  /-- Routed experts added with it. -/
  moe : Option MoeLinks

namespace ResidDraw

variable (r : ResidDraw)

def dstLeaf (np : Nat) : UInt32 := UInt32.ofNat (residLeaf np r.layer r.kind)

def srcLeaf (np : Nat) : Option UInt32 :=
  match r.kind with
  | .attn => if r.layer = 0 then none else some (UInt32.ofNat (residLeaf np (r.layer - 1) .out))
  | .out => some (UInt32.ofNat (residLeaf np r.layer .attn))

end ResidDraw

/-- Everything a stage-2 opening of a seed opens. -/
structure ChainDraw where
  /-- Each point with the leaf its input link reads at the point's position. -/
  points : List (PointSpec × Option UInt32)
  prefixT : Nat
  resid : ResidDraw
  nLayers : Nat

variable {h : Blake3} (m : TierManifest h)

/-- The leaf that the link of a product reads, if it reads one. -/
def linkLeaf (ctx : ChainCtx) (gRank : Nat) : Option (Option UInt32) := do
  let pl ← (← m.entry gRank).product
  let layer := pl.layer.toNat
  let resid layer kind := some (some (UInt32.ofNat (residLeaf m.np layer kind)))
  if pl.link = linkNone then some none
  else if pl.link = linkAttnIn then if layer = 0 then some none else resid (layer - 1) .out
  else if pl.link = linkFfnIn then resid layer .attn
  else if pl.link = linkHead then
    if ctx.nLayers = 0 then none else resid (ctx.nLayers.toNat - 1) .out
  else if pl.link = linkGlu ∨ pl.link = linkDirect ∨ pl.link = linkHeadSlice then
    some (some (2 * pl.src + 1))
  else none

/-- The links of layer `layer`. -/
def layerLinks (ctx : ChainCtx) (layer : Nat) : Option LayerLinks := do
  (← m.entry (ctx.layerBase.toNat + layer)).layer

/-- The residual point of the stage-2 draw of `seed`. -/
def drawResid (ctx : ChainCtx) (rec : TraceRecord h) (seed : Hash) : Option ResidDraw := do
  let nLayers := ctx.nLayers.toNat
  if nLayers = 0 then none
  else do
    let d := Draw.point h seed Draw.residPoint
    let sel := residSite (d 1) (2 * nLayers)
    let layer := sel / 2
    let kind := if sel % 2 = 0 then Resid.attn else .out
    let t ← (residPosition ctx rec.responseCtx layer (d 0)).toOption
    let ll ← layerLinks m ctx layer
    if ll.layer.toNat ≠ layer then none
    else do
      let moe := ll.moe.filter fun _ => kind = .out ∧ ll.postFfn = noneIndex
      let rank := if kind = .attn then ll.proj else ll.down
      let dim := (← m.entry rank.toNat).m.toNat
      some { t, layer, kind, rank, c := d 2 % max (chunkCount (4 * dim)) 1, moe }

def drawLinked (ctx : ChainCtx) (rec : TraceRecord h) (seed : Hash) (i : Nat) :
    Option (PointSpec × Option UInt32) := do
  let p ← drawPoint m rec.nPrompt rec.nPos seed (UInt32.ofNat i)
  some (p, ← linkLeaf m ctx p.gRank)

/-- The stage-2 draw of `seed`. -/
def drawChain (pctx : PrefixCtx) (rec : TraceRecord h) (seed : Hash) : Option ChainDraw := do
  let ctx ← m.chain
  let points ← (List.range Draw.points).mapM' (drawLinked m ctx rec seed)
  let resid ← drawResid m ctx rec seed
  some { points, prefixT := drawPrefix h pctx seed, resid, nLayers := ctx.nLayers.toNat }

/-- A position with a leaf. -/
def captureKey (t : Nat) (leaf : UInt32) : UInt32 × UInt32 := (UInt32.ofNat t, leaf)

/-- `add` of `captures`. -/
def addCapture (out : List (UInt32 × UInt32)) (key : UInt32 × UInt32) : List (UInt32 × UInt32) :=
  if key ∈ out then out else out ++ [key]

namespace ChainDraw

variable (d : ChainDraw)

/-- The captures of one point. -/
def pointKeys (pl : PointSpec × Option UInt32) : List (UInt32 × UInt32) :=
  [captureKey pl.1.t pl.1.leafX, captureKey pl.1.t pl.1.leafY] ++
    pl.2.toList.map (captureKey pl.1.t)

/-- The captures of the residual point. -/
def residKeys (np : Nat) : List (UInt32 × UInt32) :=
  let r := d.resid
  (r.dstLeaf np :: (r.srcLeaf np).toList ++ [2 * r.rank, 2 * r.rank + 1] ++
    match r.moe with
    | none => []
    | some moe => [2 * moe.downExps, 2 * moe.downExps + 1,
        UInt32.ofNat (routerLeaf np d.nLayers r.layer)]).map (captureKey r.t)

/-- The `(position, leaf)` captures the opening needs, deduplicated. -/
def captures (np : Nat) : List (UInt32 × UInt32) :=
  (d.points.flatMap pointKeys ++ [captureKey d.prefixT 0] ++ d.residKeys np).foldl addCapture []

end ChainDraw

/-! ## What is captured -/

section

variable {d : ChainDraw} {pctx : PrefixCtx} {rec : TraceRecord h} {seed : Hash} {np : Nat}
  {key : UInt32 × UInt32} {out keys : List (UInt32 × UInt32)}

theorem mem_foldl_addCapture : key ∈ keys.foldl addCapture out ↔ key ∈ out ∨ key ∈ keys := by
  induction keys generalizing out with
  | nil => simp
  | cons k keys ih =>
    rw [List.foldl_cons, ih, addCapture]
    split
    · next hk =>
      constructor
      · rintro (h | h)
        · exact .inl h
        · exact .inr (List.mem_cons_of_mem _ h)
      · rintro (h | h)
        · exact .inl h
        · rcases List.mem_cons.mp h with rfl | h
          · exact .inl hk
          · exact .inr h
    · rw [List.mem_append, List.mem_singleton, List.mem_cons, or_assoc]

/-- Deduplication loses no capture. -/
theorem ChainDraw.mem_captures : key ∈ d.captures np ↔
    (∃ pl ∈ d.points, key ∈ pointKeys pl) ∨ key = captureKey d.prefixT 0 ∨
      key ∈ d.residKeys np := by
  rw [captures, mem_foldl_addCapture]
  simp

/-- Routed experts are added behind the feed-forward part only. -/
theorem kind_of_drawResid {ctx : ChainCtx} {r : ResidDraw} {moe : MoeLinks}
    (h : drawResid m ctx rec seed = some r) (hmoe : r.moe = some moe) : r.kind = .out := by
  rw [drawResid] at h
  split at h
  · cases h
  simp only [Option.bind_eq_bind, Option.bind_eq_some_iff] at h
  obtain ⟨t, -, ll, -, h⟩ := h
  split at h
  · cases h
  simp only [Option.bind_eq_some_iff] at h
  obtain ⟨e, -, h⟩ := h
  cases h
  obtain ⟨-, hkind⟩ := Option.filter_eq_some_iff.mp hmoe
  simp only [decide_eq_true_eq] at hkind
  exact hkind.1

theorem drawChain_resid (hd : drawChain m pctx rec seed = some d) :
    ∃ ctx, m.chain = some ctx ∧ drawResid m ctx rec seed = some d.resid ∧
      d.nLayers = ctx.nLayers.toNat := by
  simp only [drawChain, Option.bind_eq_bind, Option.bind_eq_some_iff] at hd
  obtain ⟨ctx, hctx, points, -, resid, hresid, hd⟩ := hd
  cases hd
  exact ⟨ctx, hctx, hresid, rfl⟩

end

end KeryxMiner.Replay
