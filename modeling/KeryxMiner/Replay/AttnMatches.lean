import KeryxMiner.Replay.AttnDraw

/-!
# Attention phases on both sides

The opening that the miner builds for a phase has the fields that the verifier keeps
(`keptFields_phaseFields`), and the verifier draws the miner's point from it (`ends_attnSite`).
-/

namespace KeryxMiner.Replay

open Inference Manifest
open Openings hiding Hash

variable {h : Blake3} {m : TierManifest h} {rec : TraceRecord h} {seq : SeqTrace}
  {index : Pom.WeightIndex} {ctx : ChainCtx} {seed : Hash} {d : AttnDraw} {ll : LayerLinks}
  {path : List UInt64} {op : AttnOpening}

/-! ## The draw -/

/-- What the miner draws, in the layer of the links `ll`. -/
structure DrawnAttn (m : TierManifest h) (rec : TraceRecord h) (ctx : ChainCtx) (seed : Hash)
    (ll : LayerLinks) (d : AttnDraw) : Prop where
  chain : m.chain = some ctx
  layer_lt : d.layer < ctx.nLayers.toNat
  layer : layerLinks m ctx d.layer = some ll
  links : ll.attn = some d.links
  nAttn : ctx.nAttn ≠ 0
  slot : d.slot = Draw.point h seed Draw.attnPoint 1 % ctx.nAttn.toNat
  slot_links : d.links.slot.toNat = d.slot
  t : residPosition ctx rec.responseCtx d.layer (Draw.point h seed Draw.attnPoint 0) = .ok d.t
  heads : (d.head, d.qh) = drawHeads d.links (Draw.point h seed Draw.attnPoint 2)
  anchor : d.anchorDraw = Draw.point h seed Draw.attnPoint 3
  proj : d.proj =
    if 0 < d.links.mlaRank ∧ d.links.out ≠ noneIndex then d.links.out else ll.proj
  dv : d.dv = if 0 < d.links.mlaRank then d.links.mlaRank.toNat else d.links.headDim.toNat
  tree : ∃ c b, (blockParams (.ofNat (if 0 < d.links.mlaRank then cacheRowLen d.links
      else 2 * cacheRowLen d.links)) (.ofNat (partialLen d.dv))).join = some (c, b) ∧
    BlockTree.new (if 0 < d.links.mlaRank then 0 else windowStart d.links d.t) (d.t + 1) c.toNat
      b.toNat = some d.tree

theorem drawnAttn_of_drawAttn (hd : drawAttn m rec seed = some d) :
    ∃ ctx ll, DrawnAttn m rec ctx seed ll d := by
  simp only [drawAttn, Option.bind_eq_bind, Option.bind_eq_some_iff] at hd
  obtain ⟨ctx, hctx, hd⟩ := hd
  split at hd
  · cases hd
  next hnAttn =>
  obtain ⟨⟨layer, ll, a⟩, hfind, hd⟩ := Option.bind_eq_some_iff.mp hd
  obtain ⟨hlt, hll, hpick⟩ := of_findLayer hfind
  obtain ⟨hattn, hslot⟩ := Option.filter_eq_some_iff.mp hpick
  simp only [Option.bind_eq_some_iff] at hd
  obtain ⟨t, ht, ⟨c, b⟩, hparams, tree, htree, hd⟩ := hd
  cases hd
  refine ⟨ctx, ll, hctx, hlt, hll, hattn, hnAttn, rfl, of_decide_eq_true hslot, ?_, rfl, rfl, rfl, ?_, c,
    b, ?_⟩
  · cases hres : residPosition ctx rec.responseCtx layer (Draw.point h seed Draw.attnPoint 0) with
    | error e =>
      rw [hres] at ht
      cases ht
    | ok t' =>
      rw [hres] at ht
      cases ht
      rfl
  · dsimp only
    split <;> rfl
  · by_cases hmla : 0 < a.mlaRank
    · simp only [if_pos hmla] at hparams ⊢
      rw [if_neg (fun hstart => hstart.1 hmla)] at htree
      exact ⟨hparams, htree⟩
    · simp only [hmla, not_false_eq_true, true_and] at hparams htree ⊢
      exact ⟨hparams, htree⟩

/-! ## The verifier's draw -/

/-- The plan of the bytes `lo` to `hi` of a leaf of `total` bytes. -/
def leafPlan (leaf : Option Nat) (total lo hi : Nat) : Option SpanPlan :=
  leaf.bind fun leaf => SpanPlan.new leaf total lo hi

/-- The plans of what the verifier opens of the leaves of key/value head `kv`: the rows of the
positions `p` and, at the first phase, the mass of head `qi` of the `g` that share it. -/
def openedPlans (ctx : ChainCtx) (nPos : Nat) (s : AttnSite) (first : Bool) (kv g qi : Nat)
    (p : Nat × Nat) : Option (List SpanPlan) :=
  let layout := seqLayout ctx
  let (lo, hi) := cacheBounds s.a p.1 p.2
  let rows leaf := leafPlan leaf (nPos * cacheRowLen s.a) lo hi
  let mass := leafPlan (layout.lse s.slot kv) (nPos * g * 4) (s.lseBounds g qi).1 (s.lseBounds g qi).2
  ([rows (layout.kcache s.slot kv)] ++
    (if s.a.mlaRank = 0 then [rows (layout.vcache s.slot kv)] else []) ++
    (if first then [mass] else [])).mapM' id

/-- The point that the verifier draws is the one of the miner, at the node of `path`. -/
structure SameAttn (m : TierManifest h) (nPos : Nat) (ctx : ChainCtx) (d : AttnDraw)
    (path : List UInt64) (s : AttnSite) : Prop where
  layer : s.layer = d.layer
  slot : s.slot = d.slot
  t : s.t = d.t
  links : s.a = d.links
  tree : s.tree = d.tree
  dv : s.dv = d.dv
  proj : d.proj =
    if s.a.mlaRank ≠ 0 ∧ s.a.out ≠ noneIndex then s.a.out else s.ll.proj
  anchor : ∀ p ∈ s.tree.node path, d.anchor path = some (s.anchor p.1 p.2)
  gqa : s.a.mlaRank = 0 → ∀ g ∈ gqaGroup s.a, s.gqaHeads g = (d.head, d.qh) ∧
    ∀ p ∈ s.tree.node path, d.spans m nPos path =
      openedPlans ctx nPos s (path = []) (s.gqaHeads g).1 g
        ((s.gqaHeads g).2 - (s.gqaHeads g).1 * g) p
  mla : s.a.mlaRank ≠ 0 → s.mlaHead = d.head ∧ s.mlaHead = d.qh ∧
    ∀ p ∈ s.tree.node path, d.spans m nPos path =
      openedPlans ctx nPos s (path = []) 0 s.a.nHead.toNat s.mlaHead p

theorem gqaGroup_eq {a : AttnLinks} {g : Nat} (hg : gqaGroup a = some g) :
    g = a.nHead.toNat / a.nHeadKv.toNat := by
  rw [gqaGroup] at hg
  split at hg
  · cases hg
    rfl
  · cases hg

/-- What the miner plans, with the heads of its draw. -/
theorem spans_eq (hctx : m.chain = some ctx) {nPos : Nat} {p : Nat × Nat} {s : AttnSite}
    (hslot : s.slot = d.slot) (ht : s.t = d.t) (hlinks : s.a = d.links)
    (hp : d.tree.node path = some p) :
    d.spans m nPos path =
      openedPlans ctx nPos s (path = []) d.cacheHead d.lseGroup.1 d.lseGroup.2 p := by
  rw [AttnDraw.spans, hctx, hp, openedPlans, AttnSite.lseBounds, hslot, ht, hlinks, cacheBounds,
    cacheRowLen]
  simp only [Option.bind_eq_bind, Option.bind_some, leafPlan]
  by_cases hmla : d.links.mlaRank = 0 <;> by_cases hpath : path = [] <;>
    simp [hmla, hpath, Option.bind_assoc]

theorem DrawnAttn.same {s : AttnSite} (hd : DrawnAttn m rec ctx seed ll d)
    (hlayer : s.layer = d.layer) (hll : s.ll = ll) (hslot : s.slot = d.slot) (ht : s.t = d.t)
    (hlinks : s.a = d.links)
    (hdraw : s.d = Draw.point h seed Draw.attnPoint) (htree : s.tree = d.tree) (hdv : s.dv = d.dv) :
    SameAttn m rec.nPos.toNat ctx d path s := by
  have hheads := hd.heads
  refine ⟨hlayer, hslot, ht, hlinks, htree, hdv, ?_, fun p hp => ?_, fun hmla g hg => ?_,
    fun hmla => ?_⟩
  · simp only [hd.proj, hlinks, hll, UInt32.pos_iff_ne_zero]
  · rw [htree, Option.mem_def] at hp
    rw [AttnDraw.anchor, hp, AttnSite.anchor, hdraw, hd.anchor]
    rfl
  · rw [hlinks] at hmla hg
    have hzero : ¬ 0 < d.links.mlaRank := by
      rw [hmla]
      decide
    rw [drawHeads, if_neg hzero] at hheads
    obtain rfl := gqaGroup_eq hg
    have hsame : s.gqaHeads (d.links.nHead.toNat / d.links.nHeadKv.toNat) = (d.head, d.qh) := by
      rw [AttnSite.gqaHeads, hdraw, hlinks]
      exact hheads.symm
    refine ⟨hsame, fun p hp => ?_⟩
    rw [htree] at hp
    rw [spans_eq hd.chain hslot ht hlinks hp, hsame, AttnDraw.lseGroup, AttnDraw.cacheHead,
      if_neg hzero, if_neg hzero]
  · rw [hlinks] at hmla
    have hpos := UInt32.pos_iff_ne_zero.mpr hmla
    rw [drawHeads, if_pos hpos] at hheads
    have hhead : s.mlaHead = d.head := by
      rw [AttnSite.mlaHead, hdraw, hlinks]
      exact (congrArg Prod.fst hheads).symm
    have hqh : s.mlaHead = d.qh := by
      rw [AttnSite.mlaHead, hdraw, hlinks]
      exact (congrArg Prod.snd hheads).symm
    refine ⟨hhead, hqh, fun p hp => ?_⟩
    rw [htree] at hp
    rw [spans_eq hd.chain hslot ht hlinks hp, AttnDraw.lseGroup, AttnDraw.cacheHead, if_pos hpos,
      if_pos hpos, hqh, hlinks]

/-- What the verifier supports of an attention layer. -/
structure AttnSupported (m : TierManifest h) (ctx : ChainCtx) (nPos : UInt32) (d : AttnDraw) : Prop
    where
  nPos : nPos ≠ 0
  nLayers : ctx.nLayers ≠ 0
  nAttn : ¬ ctx.nLayers < ctx.nAttn
  seqHeads : ctx.seqHeads ≠ 0
  layer : LayerPlaced m ctx d.layer
  arithmetic : d.links.softcap = 0 ∧ ¬ 1 < d.links.vNorm ∧ ¬ 1 < d.links.gated
  headDim : d.links.headDim.toNat ≠ 0 ∧ d.links.headDim.toNat % 32 = 0

/-- The verifier draws the miner's point, in every layer that it supports. -/
theorem ends_attnSite {resp : ResponseCtx} (hd : DrawnAttn m rec ctx seed ll d)
    (hresp : resp ∈ seqResponseCtx rec seq) (hpos : op.posRoot = rec.traceRoot)
    (hseq : op.seqRoot = seq.root)
    (hlayer : m.entryOpening (ctx.layerBase.toNat + d.layer) = some op.layer) :
    Ends (fun _ => ¬ AttnSupported m ctx rec.nPos d) (SameAttn m rec.nPos.toNat ctx d path)
      (attnSite h (m.tierCtx index) ctx resp seed op) := by
  obtain ⟨root, hroot, rfl⟩ := Option.map_eq_some_iff.mp hresp
  have hnAttn := hd.nAttn
  refine Ends.bind (ends_refuse fun hbad hsupp => ?_) fun _ _ => ?_
  · obtain hbad | hbad | hbad | hbad | hbad := hbad
    · exact hsupp.nPos hbad
    · exact hsupp.nLayers hbad
    · exact hnAttn hbad
    · exact hsupp.nAttn hbad
    · exact hsupp.seqHeads hbad
  refine Ends.bind_ok (refuse_of_not (by rw [hpos, hseq, hroot]; simp)) ?_
  have hopen := ends_openLayer index hd.layer_lt hd.layer hlayer
  refine Ends.bind (hopen.mono_error fun _ hne hsupp => hne hsupp.layer) ?_
  rintro _ rfl
  refine Ends.bind_ok (orFail_eq_ok.mpr hd.links) ?_
  refine Ends.bind_ok (refuse_of_not (by rw [hd.slot_links, hd.slot]; simp)) ?_
  refine Ends.bind_ok hd.t ?_
  refine Ends.bind (ends_refuse fun hbad hsupp => ?_) fun _ _ => ?_
  · obtain ⟨hsoftcap, hvNorm, hgated⟩ := hsupp.arithmetic
    obtain hbad | hbad | hbad := hbad
    · exact hbad hsoftcap
    · exact hvNorm hbad
    · exact hgated hbad
  refine Ends.bind (ends_refuse fun hbad hsupp => ?_) fun _ _ => ?_
  · obtain hbad | hbad := hbad
    · exact hsupp.headDim.1 hbad
    · exact hbad hsupp.headDim.2
  obtain ⟨c, b, hparams, htree⟩ := hd.tree
  have hdv := hd.dv
  by_cases hmla : 0 < d.links.mlaRank
  · rw [if_pos hmla] at hparams htree hdv
    rw [if_pos (UInt32.pos_iff_ne_zero.mp hmla)]
    rw [hdv] at hparams
    refine Ends.bind_ok (orFail_eq_ok.mpr hparams) (Ends.bind_ok (orFail_eq_ok.mpr htree) ?_)
    exact Ends.pure (hd.same rfl rfl hd.slot.symm rfl rfl rfl rfl hdv.symm)
  · rw [if_neg hmla] at hparams htree hdv
    rw [if_neg fun hne => hmla (UInt32.pos_iff_ne_zero.mpr hne)]
    rw [hdv] at hparams
    refine Ends.bind_ok (orFail_eq_ok.mpr hparams) (Ends.bind_ok (orFail_eq_ok.mpr htree) ?_)
    exact Ends.pure (hd.same rfl rfl hd.slot.symm rfl rfl rfl rfl hdv.symm)

/-! ## The fields -/

variable {caps : Captures} {spans : List SeqCapture} {responseTxid : Hash}
  {prev : Option (List UInt8)}

/-- What the miner opens for the phase of `path`, before it is reduced to the fields of the phase. -/
structure OpenedAttn (m : TierManifest h) (rec : TraceRecord h) (seq : SeqTrace) (d : AttnDraw)
    (path : List UInt64) (prev : Option (List UInt8)) (op : AttnOpening) : Prop where
  posRoot : op.posRoot = rec.traceRoot
  seqRoot : op.seqRoot = seq.root
  layer : ∀ ctx ∈ m.chain, m.entryOpening (ctx.layerBase.toNat + d.layer) = some op.layer
  node : op.path = path
  partials : op.partials = []
  parent : parentOpening h d path prev = .ok (op.parent, op.parentPath)
  first : path ≠ [] → op.oEntry = default ∧ op.out = default ∧ op.lse = default
  gqa : d.links.mlaRank = 0 → op.absorb = [] ∧ (d.links.v = d.links.k → op.anchorV = []) ∧
    op.norms.length = (declaredNorms d.links).length
  mla : d.links.mlaRank ≠ 0 → MlaFields op ∧ op.norms.length = 1

theorem of_mlaParts {ps : Option Nat} {qBytes : List UInt8} {qm : Nat} {parts : AttnParts}
    (hparts : mlaParts m rec index d caps ps qBytes qm = .ok parts) :
    parts.anchorV = [] ∧ parts.norms.length = 1 := by
  simp only [mlaParts, bind_eq_ok] at hparts
  obtain ⟨q, -, latent, -, absorb, -, anchorK, -, norm, -, hparts⟩ := hparts
  cases hparts
  exact ⟨rfl, rfl⟩

theorem of_gqaParts {ps : Option Nat} {qBytes : List UInt8} {parts : AttnParts}
    (hparts : gqaParts m rec index d caps ps qBytes = .ok parts) :
    parts.absorb = [] ∧ (d.links.v = d.links.k → parts.anchorV = []) ∧
      parts.norms.length = (declaredNorms d.links).length := by
  simp only [gqaParts, bind_eq_ok, orFail_eq_ok, partIf_eq_ok] at hparts
  obtain ⟨q, -, anchorK, -, anchorV, hvalue, norms, hnorms, hparts⟩ := hparts
  cases hparts
  refine ⟨rfl, fun hsame => ?_, length_mapM' hnorms⟩
  obtain ⟨hne, -⟩ | ⟨-, rfl⟩ := hvalue
  · exact absurd hsame hne
  · rfl

theorem openedAttn (hop : attnOpening m rec seq index d caps spans responseTxid path prev = .ok op) :
    OpenedAttn m rec seq d path prev op := by
  simp only [attnOpening, bind_eq_ok, orFail_eq_ok, partIf_eq_ok] at hop
  obtain ⟨ps, -, qBytes, -, qe, -, parts, hparts, plans, -, -, -, kcache, -, vcache, hvcache, lse,
    hlse, parent, hparent, ctx, hctx, layer, hlayer, qEntry, -, oEntry, hoEntry, out, hout, hop⟩ := hop
  cases hop
  refine ⟨rfl, rfl, fun ctx' hctx' => ?_, rfl, rfl, hparent, fun hpath => ?_, fun hmla => ?_,
    fun hmla => ?_⟩
  · cases hctx.symm.trans hctx'
    exact hlayer
  · simp only [hpath, false_and, not_false_eq_true, true_and, false_or] at hoEntry hout hlse
    exact ⟨hoEntry, hout, hlse⟩
  · rw [attnParts, if_neg (by rw [hmla]; decide)] at hparts
    exact of_gqaParts hparts
  · have hpos := UInt32.pos_iff_ne_zero.mpr hmla
    rw [attnParts, if_pos hpos] at hparts
    obtain ⟨hanchor, hnorms⟩ := of_mlaParts hparts
    obtain ⟨hnot, -⟩ | ⟨-, hdefault⟩ := hvcache
    · exact absurd hpos hnot
    · exact ⟨⟨hanchor, hdefault⟩, hnorms⟩

/-- The parent that is opened at the node of `path`: none at the root, else the last child among the
partials before. -/
def ParentOf (h : Blake3) (dv : Nat) (path : List UInt64) (prev : Option (List UInt8))
    (parent : List UInt8) (parentPath : List Hash) : Prop :=
  match path.getLast?, prev with
  | some i, some b => partialOpening h b dv i.toNat = some (parent, parentPath)
  | none, none => parent = [] ∧ parentPath = []
  | _, _ => False

/-- The fields that the verifier demands at the phase of `path`. -/
structure PhaseOpening (h : Blake3) (d : AttnDraw) (path : List UInt64)
    (prev : Option (List UInt8)) (partials : List UInt8) (op : AttnOpening) : Prop where
  kept : keptFields op path (path.length = d.tree.depth) = op
  node : op.path = path
  partials : op.partials = if path.length = d.tree.depth then [] else partials
  parent : ParentOf h d.dv path prev op.parent op.parentPath
  gqa : d.links.mlaRank = 0 → op.absorb = [] ∧ (d.links.v = d.links.k → op.anchorV = []) ∧
    (path.length = d.tree.depth → op.norms.length = (declaredNorms d.links).length)
  mla : d.links.mlaRank ≠ 0 → MlaFields op ∧ (path.length = d.tree.depth → op.norms.length = 1)

theorem keptFields_leaf (hpartials : op.partials = [])
    (hfirst : path ≠ [] → op.oEntry = default ∧ op.out = default ∧ op.lse = default) :
    keptFields op path true = op := by
  cases op
  dsimp only at hpartials hfirst
  subst hpartials
  by_cases hpath : path = []
  · simp only [keptFields, hpath, if_true, true_or]
    rfl
  · obtain ⟨rfl, rfl, rfl⟩ := hfirst hpath
    simp only [keptFields, hpath, if_false, or_true, if_true]
    rfl

theorem AttnDraw.phaseFields_base (d : AttnDraw) {partials : List UInt8} :
    (d.phaseFields op path partials).posRoot = op.posRoot ∧
      (d.phaseFields op path partials).seqRoot = op.seqRoot ∧
      (d.phaseFields op path partials).layer = op.layer := by
  rw [phaseFields]
  split
  · exact ⟨rfl, rfl, rfl⟩
  split <;> exact ⟨rfl, rfl, rfl⟩

theorem keptFields_node {partials : List UInt8} (hleaf : ¬ d.leaf path) :
    keptFields (d.phaseFields op path partials) path false = d.phaseFields op path partials := by
  rw [AttnDraw.phaseFields, if_neg hleaf]
  by_cases hpath : path = []
  · simp only [keptFields, hpath, if_true, true_or]
    rfl
  · simp only [keptFields, hpath, if_false]
    rfl

theorem of_parentOpening {parent : List UInt8} {parentPath : List Hash}
    (hparent : parentOpening h d path prev = .ok (parent, parentPath)) :
    ParentOf h d.dv path prev parent parentPath := by
  unfold parentOpening at hparent
  unfold ParentOf
  generalize path.getLast? = last at hparent ⊢
  cases last with
  | none =>
    cases prev with
    | none =>
      cases hparent
      exact ⟨rfl, rfl⟩
    | some b => cases hparent
  | some i =>
    cases prev with
    | none => cases hparent
    | some b => exact orFail_eq_ok.mp hparent

theorem OpenedAttn.phase {partials : List UInt8} (hop : OpenedAttn m rec seq d path prev op) :
    PhaseOpening h d path prev partials (d.phaseFields op path partials) := by
  have hparent := of_parentOpening hop.parent
  by_cases hleaf : path.length = d.tree.depth
  · have hop' : d.phaseFields op path partials = op := if_pos (decide_eq_true hleaf)
    rw [hop']
    refine ⟨?_, hop.node, ?_, hparent, fun hmla => ?_, fun hmla => ?_⟩
    · rw [decide_eq_true hleaf]
      exact keptFields_leaf hop.partials hop.first
    · rw [if_pos hleaf]
      exact hop.partials
    · obtain ⟨habsorb, hanchor, hnorms⟩ := hop.gqa hmla
      exact ⟨habsorb, hanchor, fun _ => hnorms⟩
    · exact ⟨(hop.mla hmla).1, fun _ => (hop.mla hmla).2⟩
  · have hnode : ¬ d.leaf path := fun hleaf' => hleaf (of_decide_eq_true hleaf')
    have hkept := @keptFields_node d path op partials hnode
    rw [AttnDraw.phaseFields, if_neg hnode] at hkept ⊢
    by_cases hpath : path = []
    · rw [if_pos hpath] at hkept ⊢
      refine ⟨?_, hop.node, ?_, hparent, fun _ => ⟨rfl, fun _ => rfl, fun h => absurd h hleaf⟩,
        fun _ => ⟨⟨rfl, rfl⟩, fun h => absurd h hleaf⟩⟩
      · rw [decide_eq_false hleaf]
        exact hkept
      · rw [if_neg hleaf]
    · rw [if_neg hpath] at hkept ⊢
      refine ⟨?_, hop.node, ?_, hparent, fun _ => ⟨rfl, fun _ => rfl, fun h => absurd h hleaf⟩,
        fun _ => ⟨⟨rfl, rfl⟩, fun h => absurd h hleaf⟩⟩
      · rw [decide_eq_false hleaf]
        exact hkept
      · rw [if_neg hleaf]

end KeryxMiner.Replay
