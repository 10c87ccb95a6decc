import KeryxMiner.Lookups
import KeryxMiner.Replay.ChainDraw

/-!
# Stage-2 openings of the miner

`chain_opening` as a program that looks up captured leaves. What it asks for, whatever it is
answered, are the captures of its draw.
-/

namespace KeryxMiner.Replay

open Inference Manifest Lookups
open Openings hiding Hash

variable {h : Blake3} (num : Numerics) (m : TierManifest h) (rec : TraceRecord h)
  (index : Pom.WeightIndex) (tokens : List UInt32) (seed : Hash)

/-- A program over captured leaf bytes, by position and leaf. -/
abbrev WithCaptures (α : Type) := Lookups (UInt32 × UInt32) (List UInt8) α

/-- The captured leaf `leaf` of position `t`. -/
def cap (t : Nat) (leaf : UInt32) : WithCaptures (List UInt8) := get (captureKey t leaf)

/-! ## Parts of an opening -/

def bytesRange (entry offset len : Nat) : Option Weights := do
  let e ← m.entry entry
  if len = 0 then none
  else do
    let first := e.chunkBase.toNat + offset / 32
    let last := e.chunkBase.toNat + (offset + len - 1) / 32
    let opening ← m.entryOpening entry
    let range ← rangeProof (blake3 h) index first last
    some (opening, range)

def rowOpening (entry row : Nat) : Option Weights := do
  let e ← m.entry entry
  let range ← rowRange (h := h) index e 0 row
  let opening ← m.entryOpening entry
  some (opening, range)

def normFragmentOpening (entry block : Nat) : Option Weights := do
  let k := (← m.entry entry).k.toNat
  let (b0, n) := normFragment block k
  bytesRange m index entry (4 * b0 * 32) (4 * min (n * 32) (k - b0 * 32))

def leafBytes (t : Nat) (leaf : UInt32) (bytes : List UInt8) : LeafBytes where
  bytes := bytes
  leafPath := b3Path h.toMerges (rec.leavesAt t) leaf.toNat

def leafChunk (t : Nat) (leaf : UInt32) (b : List UInt8) (c : Nat) : Option LeafChunk := do
  let (chunk, chunkPath) ← chunkWithPath h b c
  some { totalLen := UInt32.ofNat b.length, index := UInt32.ofNat c, chunk, chunkPath
         leafPath := b3Path h.toMerges (rec.leavesAt t) leaf.toNat }

/-- Bytes `[lo, lo + n)` of `b`, if it is that long. -/
def slice (b : List UInt8) (lo n : Nat) : Option (List UInt8) :=
  if b.length < lo + n then none else some ((b.drop lo).take n)

/-! ## Points and links -/

/-- The blocks that the links of a point check: of its slot and of the whole input. -/
def linkBlocks (i : Nat) (p : PointSpec) (g : Entry) (point : Point) : Option (Option Nat × Option Nat) :=
  let layout := inputLayout g.role point.nUbatch g.wtype
  let k := g.k.toNat
  let xOne := xLen k layout
  let block x := linkBlock h num seed (UInt32.ofNat i) x layout k
  (if point.x.length = xOne then some point.x else slice point.x (p.slot * xOne) xOne).map fun xs =>
    (block xs, block point.x)

/-- The opened link of a point whose input is committed at `leaf`. -/
def sourceLink (p : PointSpec) (g : Entry) (pl : ProductLink) (block : Option Nat)
    (leaf : UInt32) (y : List UInt8) : Option LinkOpening := do
  if pl.link = linkGlu ∧ p.experts then do
    let perSlot := g.k.toNat * 4 / b3Chunk
    if perSlot = 0 then none
    else do
      let c := p.slot * perSlot + (← block) / 8
      some (.source (← m.entryOpening pl.src.toNat) (← leafChunk rec p.t leaf y c)
        (some (← expertIds h y p.nUsed)))
  else if pl.link = linkHeadSlice then do
    let src ← m.entry pl.src.toNat
    let nHead := g.nExp.toNat
    if nHead < 2 ∨ src.m.toNat % nHead ≠ 0 ∨ g.k.toNat < 32 then none
    else do
      let c := (p.slot * (src.m.toNat / nHead) + (← block) * 32) / (b3Chunk / 4)
      some (.source (← m.entryOpening pl.src.toNat) (← leafChunk rec p.t leaf y c) none)
  else if pl.link = linkGlu ∨ pl.link = linkDirect then do
    let c := (← block) / 8
    some (.source (← m.entryOpening pl.src.toNat) (← leafChunk rec p.t leaf y c) none)
  else
    some (.norm (leafBytes rec p.t leaf y)
      (← normFragmentOpening m index pl.norm.toNat (← block)))

/-- The opened link of a point whose input is not committed at a leaf. -/
def rootLink (ctx : ChainCtx) (p : PointSpec) (pl : ProductLink) (block : Option Nat) :
    Option LinkOpening := do
  if pl.link = linkNone then some .none
  else if pl.link = linkAttnIn then do
    let tok ← tokens[p.t]?
    some (.token (← rowOpening m index ctx.embdEntry.toNat tok.toNat)
      (← normFragmentOpening m index pl.norm.toNat (← block)))
  else none

def openLink (ctx : ChainCtx) (p : PointSpec) (g : Entry) (pl : ProductLink)
    (blocks : Option Nat × Option Nat) : Option UInt32 → WithCaptures LinkOpening
  | none => ofOption (rootLink m index tokens ctx p pl blocks.2)
  | some leaf => do
    let y ← cap p.t leaf
    ofOption (sourceLink m rec index p g pl blocks.1 leaf y)

/-- The ids of the experts of a point's output. -/
def pointIds (h : Blake3) (p : PointSpec) (y : List UInt8) : Option (Option ExpertIds) :=
  if p.experts then (expertIds h y p.nUsed).map some else some none

/-- Point `i` with the token and the link of its input and the ids of its experts. -/
def openPoint (ctx : ChainCtx) (i : Nat) (pl : PointSpec × Option UInt32) :
    WithCaptures (Point × (UInt32 × LinkOpening) × Option ExpertIds) := do
  let p := pl.1
  let y ← cap p.t p.leafY
  let x ← cap p.t p.leafX
  let point ← ofOption (buildPoint m rec p x y index)
  let experts ← ofOption (pointIds h p y)
  let g ← ofOption (m.entry p.gRank)
  let product ← ofOption g.product
  let blocks ← ofOption (linkBlocks (h := h) num seed i p g point)
  let link ← openLink m rec index tokens ctx p g product blocks pl.2
  let tok ← ofOption tokens[p.t]?
  return (point, (tok, link), experts)

/-! ## The prefix point -/

def openPrefix (pctx : PrefixCtx) (requestHash : Hash) (t : Nat) : WithCaptures PrefixPoint := do
  let nUbatch ← ofOption rec.ubatch[t]?
  let ptok ← ofOption (expectedToken pctx requestHash t)
  let x ← cap t 0
  let e0 ← ofOption (m.entry 0)
  let block ← ofOption (linkBlock h num seed Draw.prefixPoint x
    (inputLayout e0.role nUbatch e0.wtype) e0.k.toNat)
  let entry ← ofOption (m.entryOpening 0)
  let embd ← ofOption (rowOpening m index pctx.embdEntry.toNat ptok.toNat)
  let norm ← ofOption (normFragmentOpening m index pctx.normEntry.toNat block)
  return { nUbatch, posPath := rec.posPath t
           metaPath := b3Path h.toMerges (rec.leavesAt t) (rec.nLeaves - 1)
           entry, x, xPath := b3Path h.toMerges (rec.leavesAt t) 0, embd, norm }

/-! ## The residual point -/

def openResidSrc (ctx : ChainCtx) (r : ResidDraw) (tok : UInt32) :
    Option UInt32 → WithCaptures ResidSrc
  | none => do
    let w ← ofOption (rowOpening m index ctx.embdEntry.toNat tok.toNat)
    return .token w.1 w.2
  | some leaf => do
    let b ← cap r.t leaf
    let c ← ofOption (leafChunk rec r.t leaf b r.c)
    return .chunk c

/-- The routed experts and the shared one, whose output is `y`. -/
def openMoe (ctx : ChainCtx) (r : ResidDraw) (moe : MoeLinks) (y : List UInt8) :
    WithCaptures MoeAdd := do
  let nUsed := ctx.nUsed.toNat
  let dim := (← ofOption (m.entry r.rank.toNat)).m.toNat
  let perSlot := dim * 4 / b3Chunk
  let nExp := (← ofOption (m.entry moe.router.toNat)).m.toNat
  let downLeaf := 2 * moe.downExps + 1
  let downY ← cap r.t downLeaf
  let slots ← ofOption ((List.range nUsed).mapM' fun sl =>
    leafChunk rec r.t downLeaf downY (sl * perSlot + r.c))
  let scoresLeaf := UInt32.ofNat (routerLeaf m.np ctx.nLayers.toNat r.layer)
  let row := Draw.point h seed Draw.residPoint 3 % nExp
  let attnLeaf := UInt32.ofNat (residLeaf m.np r.layer .attn)
  let scores ← cap r.t scoresLeaf
  let bias ← ofOption (bytesRange m index moe.probsBias.toNat 0 (4 * nExp))
  let ids ← ofOption (expertIds h downY nUsed)
  let shexp ← ofOption (leafChunk rec r.t (2 * r.rank + 1) y r.c)
  let routerRow ← ofOption (bytesRange m index moe.router.toNat (row * 4 * dim) (4 * dim))
  let resid ← cap r.t attnLeaf
  let norm ← ofOption (bytesRange m index moe.ffnNorm.toNat 0 (4 * dim))
  return { scores := leafBytes rec r.t scoresLeaf scores, bias, ids, slots, shexp, routerRow
           resid := leafBytes rec r.t attnLeaf resid, norm }

/-- The addition of a layer without routed experts; `post` is the norm of what is added. -/
def plainAdd (r : ResidDraw) (post : UInt32) (dst y : List UInt8) : Option ResidAdd := do
  let yLeaf := 2 * r.rank + 1
  if post = noneIndex then some (.chunk (← leafChunk rec r.t yLeaf y r.c))
  else do
    let off := r.c * b3Chunk / 4
    if dst.length / 4 < off then none
    else do
      let n := min (dst.length / 4 - off) (b3Chunk / 4)
      some (.normed (leafBytes rec r.t yLeaf y)
        (← bytesRange m index post.toNat (4 * off) (4 * n)))

def openAdd (ctx : ChainCtx) (r : ResidDraw) (ll : LayerLinks) (dst y : List UInt8) :
    WithCaptures ResidAdd :=
  match r.moe with
  | some moe => do return .moe (← openMoe m rec index seed ctx r moe y)
  | none =>
    ofOption (plainAdd m rec index r (if r.kind = .attn then ll.postAttn else ll.postFfn) dst y)

def openResid (ctx : ChainCtx) (r : ResidDraw) : WithCaptures ResidPoint := do
  let ll ← ofOption (layerLinks m ctx r.layer)
  let tok ← ofOption tokens[r.t]?
  let dst ← cap r.t (r.dstLeaf m.np)
  let src ← openResidSrc m rec index ctx r tok (r.srcLeaf m.np)
  let y ← cap r.t (2 * r.rank + 1)
  let add ← openAdd m rec index seed ctx r ll dst y
  let nUbatch ← ofOption rec.ubatch[r.t]?
  let layer ← ofOption (m.entryOpening (ctx.layerBase.toNat + r.layer))
  let product ← ofOption (m.entryOpening r.rank.toNat)
  let dst ← ofOption (leafChunk rec r.t (r.dstLeaf m.np) dst r.c)
  return { nUbatch, tok, posPath := rec.posPath r.t
           metaPath := b3Path h.toMerges (rec.leavesAt r.t) (rec.nLeaves - 1)
           layer, product, dst, src, add }

/-- The row of the residual's product that is opened with it. -/
def feedRow (r : ResidDraw) : Option Nat := do
  let pe ← m.entry r.rank.toNat
  let lo := r.c * (b3Chunk / 4)
  if pe.m.toNat ≤ lo then none
  else
    some (lo + Draw.point h seed Draw.residPoint 3 / 2 ^ 32 % min (b3Chunk / 4) (pe.m.toNat - lo))

/-- The bias of the opened row. -/
def feedBias (r : ResidDraw) (row : Nat) : Option (Option Weights) := do
  let pe ← m.entry r.rank.toNat
  if pe.bias = noneIndex then some none
  else (bytesRange m index pe.bias.toNat (row * 4) 4).map some

def openFeed (r : ResidDraw) (row : Nat) : WithCaptures FeedRow := do
  let x ← cap r.t (2 * r.rank)
  let opened ← ofOption (rowOpening m index r.rank.toNat row)
  let bias ← ofOption (feedBias m index r row)
  return { x, xPath := b3Path h.toMerges (rec.leavesAt r.t) (2 * r.rank).toNat, row := opened.2
           bias }

/-- The id of the drawn slot in the output `y` of the routed experts. -/
def slotId (y : List UInt8) (nUsed : Nat) : Option Nat :=
  let slot := Draw.point h seed Draw.residPoint 3 / 2 ^ 48 % max nUsed 1
  if y.length < 4 * nUsed then none
  else (slice y (y.length - 4 * nUsed + 4 * slot) 4).map ofLe

def openExpert (ctx : ChainCtx) (r : ResidDraw) (row : Nat) :
    Option MoeLinks → WithCaptures (Option ExpertRow)
  | none => return none
  | some moe => do
    let downY ← cap r.t (2 * moe.downExps + 1)
    let id ← ofOption (slotId (h := h) seed downY ctx.nUsed.toNat)
    let e ← ofOption (m.entry moe.downExps.toNat)
    let range ← ofOption (rowRange (h := h) index e id row)
    let entry ← ofOption (m.entryOpening moe.downExps.toNat)
    let x ← cap r.t (2 * moe.downExps)
    return some { entry, x, row := range
                  xPath := b3Path h.toMerges (rec.leavesAt r.t) (2 * moe.downExps).toNat }

/-! ## The opening -/

/-- Stage-2 opening of `d` without its residual point, and its residual opening. -/
def chainOpening (pctx : PrefixCtx) (requestHash responseTxid : Hash) (d : ChainDraw) :
    WithCaptures (Opening × ResidOpening) := do
  let ctx ← ofOption m.chain
  let points ← d.points.zipIdx.mapM' fun pi =>
    openPoint num m rec index tokens seed ctx pi.2 pi.1
  let prefixPoint ← openPrefix num m rec index seed pctx requestHash d.prefixT
  let resid ← openResid m rec index tokens seed ctx d.resid
  let row ← ofOption (feedRow m seed d.resid)
  let feed ← openFeed m rec index d.resid row
  let expert ← openExpert m rec index seed ctx d.resid row d.resid.moe
  return ({ responseTxid, points := points.map (·.1), prefixPoint := some prefixPoint
            links := points.map (·.2.1), experts := points.map (·.2.2), resid := none
            roots := none },
    { responseTxid, roots := none, resid, feed, expert })

/-! ## What an opening asks for -/

section

variable {num m rec index tokens seed} {S : UInt32 × UInt32 → Prop} {ctx : ChainCtx} {t i : Nat}
  {leaf : UInt32} {r : ResidDraw}

theorem within_cap (hkey : S (captureKey t leaf)) : (cap t leaf).Within S := within_get hkey

theorem within_openLink {p : PointSpec} {g : Entry} {pl : ProductLink}
    {blocks : Option Nat × Option Nat} {link : Option UInt32}
    (hlink : ∀ leaf ∈ link, S (captureKey p.t leaf)) :
    (openLink m rec index tokens ctx p g pl blocks link).Within S := by
  cases link with
  | none => exact within_ofOption _
  | some leaf => exact (within_cap (hlink leaf rfl)).bind fun y => within_ofOption _

theorem within_openPoint {pl : PointSpec × Option UInt32}
    (hkeys : ∀ key ∈ ChainDraw.pointKeys pl, S key) :
    (openPoint num m rec index tokens seed ctx i pl).Within S := by
  obtain ⟨p, link⟩ := pl
  have hx : S (captureKey p.t p.leafX) := hkeys _ (by simp [ChainDraw.pointKeys])
  have hy : S (captureKey p.t p.leafY) := hkeys _ (by simp [ChainDraw.pointKeys])
  have hlink : ∀ leaf ∈ link, S (captureKey p.t leaf) := by
    rintro leaf ⟨⟩
    exact hkeys _ (by simp [ChainDraw.pointKeys])
  refine (within_cap hy).bind fun y => (within_cap hx).bind fun x => ?_
  refine (within_ofOption _).bind fun point => (within_ofOption _).bind fun experts => ?_
  refine (within_ofOption _).bind fun g => (within_ofOption _).bind fun product => ?_
  refine (within_ofOption _).bind fun blocks => (within_openLink hlink).bind fun link => ?_
  exact (within_ofOption _).bind fun tok => within_pure _

theorem within_openPrefix {pctx : PrefixCtx} {requestHash : Hash} (hkey : S (captureKey t 0)) :
    (openPrefix num m rec index seed pctx requestHash t).Within S := by
  refine (within_ofOption _).bind fun nUbatch => (within_ofOption _).bind fun ptok => ?_
  refine (within_cap hkey).bind fun x => (within_ofOption _).bind fun e0 => ?_
  refine (within_ofOption _).bind fun block => (within_ofOption _).bind fun entry => ?_
  exact (within_ofOption _).bind fun embd => (within_ofOption _).bind fun norm => within_pure _

theorem within_openResidSrc {tok : UInt32} {leaf : Option UInt32}
    (hleaf : ∀ l ∈ leaf, S (captureKey r.t l)) :
    (openResidSrc m rec index ctx r tok leaf).Within S := by
  cases leaf with
  | none => exact (within_ofOption _).bind fun w => within_pure _
  | some l =>
    exact (within_cap (hleaf l rfl)).bind fun b => (within_ofOption _).bind fun c => within_pure _

/-- The routed experts of a layer are read at its down and router leaves and at the residual that
the feed-forward part adds to. -/
theorem within_openMoe {moe : MoeLinks} {y : List UInt8}
    (hdown : S (captureKey r.t (2 * moe.downExps + 1)))
    (hrouter : S (captureKey r.t (UInt32.ofNat (routerLeaf m.np ctx.nLayers.toNat r.layer))))
    (hattn : S (captureKey r.t (UInt32.ofNat (residLeaf m.np r.layer .attn)))) :
    (openMoe m rec index seed ctx r moe y).Within S := by
  refine (within_ofOption _).bind fun e => (within_ofOption _).bind fun router => ?_
  refine (within_cap hdown).bind fun downY => (within_ofOption _).bind fun slots => ?_
  refine (within_cap hrouter).bind fun scores => (within_ofOption _).bind fun bias => ?_
  refine (within_ofOption _).bind fun ids => (within_ofOption _).bind fun shexp => ?_
  refine (within_ofOption _).bind fun routerRow => (within_cap hattn).bind fun resid => ?_
  exact (within_ofOption _).bind fun norm => within_pure _

theorem within_openFeed {row : Nat} (hkey : S (captureKey r.t (2 * r.rank))) :
    (openFeed m rec index r row).Within S := by
  refine (within_cap hkey).bind fun x => (within_ofOption _).bind fun opened => ?_
  exact (within_ofOption _).bind fun bias => within_pure _

theorem within_openExpert {row : Nat} {moe : Option MoeLinks}
    (hdown : ∀ l ∈ moe, S (captureKey r.t (2 * l.downExps)))
    (hdown' : ∀ l ∈ moe, S (captureKey r.t (2 * l.downExps + 1))) :
    (openExpert m rec index seed ctx r row moe).Within S := by
  cases moe with
  | none => exact within_pure _
  | some l =>
    refine (within_cap (hdown' l rfl)).bind fun downY => (within_ofOption _).bind fun id => ?_
    refine (within_ofOption _).bind fun e => (within_ofOption _).bind fun range => ?_
    exact (within_ofOption _).bind fun entry => (within_cap (hdown l rfl)).bind fun x =>
      within_pure _

/-- The leaves of the residual point are among its captures. -/
theorem within_residKeys {d : ChainDraw} (hresid : drawResid m ctx rec seed = some d.resid)
    (hlayers : d.nLayers = ctx.nLayers.toNat) :
    (openResid m rec index tokens seed ctx d.resid).Within (· ∈ d.residKeys m.np) := by
  have hmem : ∀ {leaf}, leaf ∈ (d.resid.dstLeaf m.np :: (d.resid.srcLeaf m.np).toList ++
      [2 * d.resid.rank, 2 * d.resid.rank + 1]) → captureKey d.resid.t leaf ∈ d.residKeys m.np :=
    fun hleaf => List.mem_map_of_mem (List.mem_append_left _ hleaf)
  refine (within_ofOption _).bind fun ll => (within_ofOption _).bind fun tok => ?_
  refine (within_cap (hmem (by simp))).bind fun dst => ?_
  refine (within_openResidSrc ?_).bind fun src => ?_
  · rintro leaf hleaf
    exact hmem (by simp [Option.mem_def.mp hleaf])
  refine (within_cap (hmem (by simp))).bind fun y => ?_
  refine Within.bind ?_ fun add => ?_
  · rw [openAdd]
    cases hmoe : d.resid.moe with
    | none => exact within_ofOption _
    | some moe =>
      have hmoeKeys : ∀ {leaf}, leaf ∈ [2 * moe.downExps, 2 * moe.downExps + 1,
          UInt32.ofNat (routerLeaf m.np d.nLayers d.resid.layer)] →
          captureKey d.resid.t leaf ∈ d.residKeys m.np := by
        intro leaf hleaf
        rw [ChainDraw.residKeys, hmoe]
        exact List.mem_map_of_mem (List.mem_append_right _ hleaf)
      have hsrc : d.resid.srcLeaf m.np =
          some (UInt32.ofNat (residLeaf m.np d.resid.layer .attn)) := by
        rw [ResidDraw.srcLeaf, kind_of_drawResid m hresid hmoe]
      refine (within_openMoe (hmoeKeys (by simp)) (hmoeKeys ?_) (hmem ?_)).bind fun a =>
        within_pure _
      · simp [hlayers]
      · simp [hsrc]
  refine (within_ofOption _).bind fun nUbatch => (within_ofOption _).bind fun layer => ?_
  exact (within_ofOption _).bind fun product => (within_ofOption _).bind fun dst => within_pure _

theorem within_chainOpening {d : ChainDraw} {pctx : PrefixCtx} {requestHash responseTxid : Hash}
    (hd : drawChain m pctx rec seed = some d) :
    (chainOpening num m rec index tokens seed pctx requestHash responseTxid d).Within
      (· ∈ d.captures m.np) := by
  obtain ⟨ctx, hctx, hresid, hlayers⟩ := drawChain_resid m hd
  have hresidKeys : ∀ key ∈ d.residKeys m.np, key ∈ d.captures m.np := fun key hkey =>
    ChainDraw.mem_captures.mpr (.inr (.inr hkey))
  have hrank : ∀ {leaf}, leaf ∈ [2 * d.resid.rank, 2 * d.resid.rank + 1] →
      captureKey d.resid.t leaf ∈ d.captures m.np := fun hleaf =>
    hresidKeys _ (List.mem_map_of_mem (List.mem_append_left _ (List.mem_append_right _ hleaf)))
  have hdown : ∀ moe ∈ d.resid.moe, ∀ leaf ∈ [2 * moe.downExps, 2 * moe.downExps + 1],
      captureKey d.resid.t leaf ∈ d.captures m.np := by
    intro moe hmoe leaf hleaf
    apply hresidKeys
    rw [ChainDraw.residKeys, Option.mem_def.mp hmoe]
    exact List.mem_map_of_mem (List.mem_append_right _ (by simp at hleaf ⊢; tauto))
  rw [chainOpening, hctx]
  change (Lookups.bind (done ctx) _).Within _
  rw [Lookups.bind]
  refine Within.bind (within_mapM fun pi hpi => within_openPoint fun key hkey => ?_) fun points => ?_
  · exact ChainDraw.mem_captures.mpr (.inl ⟨pi.1, List.fst_mem_of_mem_zipIdx hpi, hkey⟩)
  refine (within_openPrefix (ChainDraw.mem_captures.mpr (.inr (.inl rfl)))).bind fun prefixPt => ?_
  refine ((within_residKeys hresid hlayers).mono hresidKeys).bind fun resid => ?_
  refine (within_ofOption _).bind fun row => ?_
  refine (within_openFeed (hrank (by simp))).bind fun feed => ?_
  refine Within.bind (within_openExpert (fun moe hmoe => ?_) fun moe hmoe => ?_) fun expert =>
    within_pure _
  · exact hdown moe hmoe _ (by simp)
  · exact hdown moe hmoe _ (by simp)

/-- The captures of a draw have every leaf that its opening reads, so that no opening fails for a
missing one. -/
theorem captures_cover (num : Numerics) (m : TierManifest h) (rec : TraceRecord h)
    (index : Pom.WeightIndex) (tokens : List UInt32) (pctx : PrefixCtx)
    (seed requestHash responseTxid : Hash) (d : ChainDraw)
    (hd : drawChain m pctx rec seed = some d) :
    (chainOpening num m rec index tokens seed pctx requestHash responseTxid d).Within
        (· ∈ d.captures m.np) ∧
      ∀ caps : UInt32 × UInt32 → Option (List UInt8),
        (∀ key ∈ d.captures m.np, (caps key).isSome) →
        ∀ key, (chainOpening num m rec index tokens seed pctx requestHash responseTxid d).run caps ≠
          .error (.missing key) := by
  have hwithin := @within_chainOpening h num m rec index tokens seed d pctx requestHash responseTxid
    hd
  exact ⟨hwithin, fun caps hcaps key => run_ne_missing hwithin hcaps⟩

end

/-- The bytes of a product of one row, without a link. -/
def productRaw : List UInt8 :=
  [0, 0] ++ toLe 4 0 ++ toLe 8 32 ++ toLe 8 1 ++ toLe 4 1 ++ toLe 8 0 ++ toLe 8 128 ++ toLe 4 128 ++
    [roleProduct, 0, formNone] ++ toLe 4 noneIndex.toNat ++ toLe 4 noneIndex.toNat ++
    [tagProduct] ++ toLe 4 0 ++ [linkNone] ++ toLe 4 noneIndex.toNat ++ toLe 4 noneIndex.toNat

def productEntry : Entry where
  name := ""
  wtype := 0
  k := 32
  m := 1
  nExp := 1
  chunkBase := 0
  nBytes := 128
  rowBytes := 128
  role := roleProduct
  gluOp := 0
  gluForm := formNone
  partner := noneIndex
  bias := noneIndex
  chain := .product ⟨0, linkNone, noneIndex, noneIndex⟩

def layerEntry : Entry where
  name := ""
  wtype := 0
  k := 0
  m := 0
  nExp := 0
  chunkBase := 0
  nBytes := 0
  rowBytes := 0
  role := roleLayer
  gluOp := 0
  gluForm := formNone
  partner := noneIndex
  bias := noneIndex
  chain := .layer ⟨0, 0, 0, noneIndex, noneIndex, noneIndex, none, none, none⟩

theorem toNat_one_pos : 0 < (1 : UInt32).toNat := by decide

theorem toNat_two_pos : 0 < (2 : UInt32).toNat := by decide

theorem toNat_one_le : (1 : UInt32).toNat ≤ (1 : UInt32).toNat := le_rfl

theorem length_one : ([1] : List UInt32).length = (1 : UInt32).toNat := rfl

/-- The bytes of a product of four experts that reads the attention output of its layer. -/
def expertRaw : List UInt8 :=
  [0, 0] ++ toLe 4 0 ++ toLe 8 32 ++ toLe 8 1 ++ toLe 4 4 ++ toLe 8 0 ++ toLe 8 512 ++ toLe 4 128 ++
    [roleProduct, 0, formNone] ++ toLe 4 noneIndex.toNat ++ toLe 4 noneIndex.toNat ++
    [tagProduct] ++ toLe 4 0 ++ [linkFfnIn] ++ toLe 4 noneIndex.toNat ++ toLe 4 noneIndex.toNat

def expertEntry : Entry :=
  { productEntry with nExp := 4, nBytes := 512, chain := .product ⟨0, linkFfnIn, noneIndex, noneIndex⟩ }

/-- Product 0 goes into the state of one recurrent head, product 1 has the experts. -/
def expertLinks : LayerLinks where
  layer := 0
  proj := 0
  down := 1
  postAttn := noneIndex
  postFfn := noneIndex
  scale := noneIndex
  moe := some ⟨1, 0, noneIndex, noneIndex, noneIndex, noneIndex⟩
  attn := none
  recur := some ⟨1, 0, 1, 1, 32, 0, 0, 0, 0, 0, 0, 0, 0, 0, 0, 0, 0, 2, 1⟩

/-- The bytes of the layer. -/
def expertLayerRaw : List UInt8 :=
  [0, 0] ++ toLe 4 0 ++ toLe 8 0 ++ toLe 8 0 ++ toLe 4 0 ++ toLe 8 0 ++ toLe 8 0 ++ toLe 4 0 ++
    [roleLayer, 0, formNone] ++ toLe 4 noneIndex.toNat ++ toLe 4 noneIndex.toNat ++
    [tagRecurMoeLayer] ++ ([0, 0, 1, noneIndex, noneIndex, noneIndex, 1, 0, noneIndex, noneIndex,
      noneIndex, noneIndex, 1, 0, 1, 1, 32, 0, 0, 0, 0, 0, 0, 0, 0, 0, 0, 0, 0, 2,
      1] : List UInt32).flatMap fun x => toLe 4 x.toNat

def expertLayerEntry : Entry := { layerEntry with chain := .layer expertLinks }

/-- A manifest of one recurrent layer with routed experts. -/
def oneExpertLayer : TierManifest (byteHash 1) where
  entries := [(productEntry, productRaw), (expertEntry, expertRaw), (expertLayerEntry, expertLayerRaw)]
  nProducts := 2
  mT := Vector.replicate 32 1
  chain := some ⟨1, 2, 2, false, 2, 0, 1, 1⟩
  products_pos := toNat_two_pos
  products_le := by decide
  entries_lt := by decide
  parsed := by
    rintro er (_ | ⟨_, _ | ⟨_, _ | ⟨_, ⟨⟩⟩⟩⟩)
    · decide
    · decide +kernel
    · decide +kernel
  root := by
    simp only [rtRangeProof, Entry.leaf, blake3_byteHash, List.map_cons, List.map_nil]
    exact RangeTree.Shape.root_replicate (n := 2) _ fun _ => blake3_byteHash

/-- The record of one position whose eight leaves are all ones. -/
def expertRecord : TraceRecord (byteHash 1) where
  stage := 2
  nPrompt := 1
  nPos := 1
  ubatch := [1]
  nLeaves := 8
  leaves := List.replicate 8 (Vector.replicate 32 1)
  posRoots := [Vector.replicate 32 1]
  traceRoot := Vector.replicate 32 1
  tokensRoot := none
  prompt_pos := toNat_one_pos
  prompt_le := toNat_one_le
  length_ubatch := length_one
  length_leaves := by decide
  nLeaves_lt := by decide
  roots := by
    have hroot : b3Root (byteHash 1).toMerges (List.replicate 8 (Vector.replicate 32 1)) =
        some (Vector.replicate 32 1) :=
      RangeTree.Shape.root_replicate (n := 7) _ fun top => by cases top <;> rfl
    change (List.range 1).mapM' _ = _
    rw [List.range_one, List.mapM'_cons]
    change (b3Root (byteHash 1).toMerges (List.replicate 8 (Vector.replicate 32 1)) >>= _) = _
    rw [hroot]
    rfl
  root := by simp [b3Root, RangeTree.Shape.root]

/-- Both points read the experts, and the residual point is the output of the layer. -/
def expertDraw : ChainDraw where
  points := List.replicate 2 (⟨1, 1, 0, 0, 2, 1, true⟩, some 4)
  prefixT := 1
  resid := ⟨0, 0, .out, 1, 0, expertLinks.moe⟩
  nLayers := 1

theorem drawChain_oneExpertLayer (seed : Hash) :
    drawChain oneExpertLayer ⟨Vector.replicate 256 0, 0, 0, 0⟩ expertRecord seed = some expertDraw := by
  have hlinked : ∀ ctx, drawLinked oneExpertLayer ctx expertRecord seed =
      fun _ => some (⟨1, 1, 0, 0, 2, 1, true⟩, some 4) := by
    intro ctx
    funext i
    simp only [drawLinked, drawPoint, Draw.point, blake3_byteHash]
    rfl
  have hresid : ∀ ctx ∈ oneExpertLayer.chain, drawResid oneExpertLayer ctx expertRecord seed =
      some expertDraw.resid := by
    rintro ctx ⟨⟩
    simp only [drawResid, Draw.point, blake3_byteHash]
    rfl
  have hpre : drawPrefix (byteHash 1) ⟨Vector.replicate 256 0, 0, 0, 0⟩ seed = 1 := by
    simp only [drawPrefix, Draw.point, blake3_byteHash]
    rfl
  rw [drawChain, hpre]
  change Option.bind (some _) _ = _
  rw [Option.bind_some, hresid _ rfl, hlinked]
  rfl

theorem captures_cover_oneExpertLayer :
    let z : Hash := Vector.replicate 32 0
    let pctx : PrefixCtx := ⟨Vector.replicate 256 0, 0, 0, 0⟩
    let num : Numerics := ⟨Unit, fun _ _ _ => true, fun _ _ _ _ _ => some (), fun _ _ _ => true,
      fun _ _ _ _ => true, fun _ _ _ => none⟩
    drawChain oneExpertLayer pctx expertRecord z = some expertDraw ∧
      expertDraw.captures oneExpertLayer.np = [(0, 2), (0, 3), (0, 4), (1, 0), (0, 5), (0, 6)] ∧
      ∀ index caps, (∀ key ∈ expertDraw.captures oneExpertLayer.np, (caps key).isSome) → ∀ key,
        (chainOpening num oneExpertLayer expertRecord index [0] z pctx z z expertDraw).run caps ≠
          .error (.missing key) := by
  intro z pctx num
  refine ⟨drawChain_oneExpertLayer z, by decide, ?_⟩
  intro index
  exact (captures_cover num oneExpertLayer expertRecord index [0] pctx z z z expertDraw
    (drawChain_oneExpertLayer z)).2

end KeryxMiner.Replay
