import KeryxMiner.Pom.Proofs
import KeryxMiner.Replay.AttnChecks

/-!
# Attention phases before the verifier

The opening that the miner builds for a phase has every part that `verify_attn_phase` asks for at
that phase, and each part is accepted: the verifier refuses it for its arithmetic only, or steps to
the children whose partials it commits.
-/

namespace KeryxMiner.Replay

open Inference Manifest
open Openings hiding Hash

variable {h : Blake3} {m : TierManifest h} {rec : TraceRecord h} {seq : SeqTrace}
  {index : Pom.WeightIndex} {ctx : ChainCtx} {resp : ResponseCtx} {seed : Hash} {d : AttnDraw}
  {ll : LayerLinks} {path : List UInt64} {op o : AttnOpening} {caps : Captures}
  {num : AttnNumerics} {s : AttnSite} {prev : Option (List UInt8)} {b : List UInt8}

/-! ## A phase -/

/-- What the verifier steps to behind the phase of `path`: behind a leaf it is done, else it draws one
of the children whose partials the opening commits. -/
inductive StepOf (h : Blake3) (num : AttnNumerics) (d : AttnDraw) (path : List UInt64)
    (partials : List UInt8) : AttnStep → Prop
  | done (hleaf : d.leaf path) : StepOf h num d path partials .done
  | next {root : Hash} {nodes : List (Nat × Nat)} {ch : List num.Partial} {weights : List UInt16}
      (hinner : ¬ d.leaf path) (hroot : partialsRoot h partials d.dv = some root)
      (hnodes : d.tree.children path = some nodes) (hcount : ch.length = nodes.length)
      (hch : decodePartials num partials d.dv = some ch)
      (hweights : num.childWeights ch = some weights) :
      StepOf h num d path partials (.next root nodes.length weights)

/-- What the entries and weights of the model are for the checks of the drawn layer. -/
structure AttnFits (m : TierManifest h) (index : Pom.WeightIndex) (num : AttnNumerics)
    (d : AttnDraw) (nPos : Nat) : Prop where
  gqa : d.links.mlaRank = 0 → GqaFits m index num d.links d.proj
  mla : d.links.mlaRank ≠ 0 → MlaFits m d.links d.proj
  rows : nPos * cacheRowLen d.links < 2 ^ 42
  masses : nPos * d.links.nHead.toNat * 4 < 2 ^ 42

theorem BuiltAttn.exists_node (hb : BuiltAttn m rec seq index d caps path o) :
    ∃ p, d.tree.node path = some p := by
  obtain ⟨plans, hplans, -⟩ := hb.spans
  simp only [AttnDraw.spans, Option.mem_def, Option.bind_eq_bind, Option.bind_eq_some_iff] at hplans
  obtain ⟨-, -, p, hnode, -⟩ := hplans
  exact ⟨p, hnode⟩

theorem PhaseSite.ends_layer (hp : PhaseSite m rec seq index ctx resp seed ll d caps path s o)
    {partials : List UInt8} (hphase : PhaseOpening h d path prev partials o)
    (hfits : AttnFits m index num d rec.nPos.toNat) (hdim : 0 < d.links.headDim.toNat)
    {parent : Option num.Partial} {children : Option (List num.Partial)} {p : Nat × Nat}
    (hnode : p ∈ s.tree.node path) (hparent : parent = none ↔ path = [])
    (hlast : children = none ↔ d.leaf path) (hquery : path = [] ∨ d.leaf path)
    {Q : AttnStep → Prop} {step : Unit → Except Fail AttnStep}
    (hstep : ∀ u, Ends (· = Fail.mismatch) Q (step u)) :
    Ends (· = .mismatch) Q
      (if s.a.mlaRank ≠ 0 then
        mlaPhase h num (m.tierCtx index) ctx resp o s path parent children >>= step
      else gqaPhase h num (m.tierCtx index) ctx resp o s path parent children >>= step) := by
  rw [hp.same.links]
  split
  · next hmla =>
    exact Ends.bind (hp.ends_mlaPhase (hfits.mla hmla) hmla (hphase.mla hmla).1 hnode hparent hlast
      hquery) fun u _ => hstep u
  · next hmla =>
    rw [not_not] at hmla
    obtain ⟨habsorb, hanchorV, -⟩ := hphase.gqa hmla
    exact Ends.bind (hp.ends_gqaPhase (hfits.gqa hmla) hmla hdim habsorb hanchorV hnode hparent hlast
      hquery) fun u _ => hstep u

/-- The checks of a phase, whichever they are, are refused for their arithmetic only. -/
theorem PhaseSite.ends_checks (hp : PhaseSite m rec seq index ctx resp seed ll d caps path s o)
    {partials : List UInt8} (hphase : PhaseOpening h d path prev partials o)
    (hfits : AttnFits m index num d rec.nPos.toNat) (hdim : 0 < d.links.headDim.toNat)
    {parent : Option num.Partial} {children : Option (List num.Partial)} {p : Nat × Nat}
    (hnode : p ∈ s.tree.node path) (hparent : parent = none ↔ path = [])
    (hlast : children = none ↔ d.leaf path)
    {Q : AttnStep → Prop} {step : Unit → Except Fail AttnStep}
    (hstep : ∀ u, Ends (· = Fail.mismatch) Q (step u)) :
    Ends (· = .mismatch) Q
      (match parent, children with
      | some p, some ch => refuse (num.checkNode p ch = false) Fail.mismatch >>= step
      | _, _ =>
        if s.a.mlaRank ≠ 0 then
          mlaPhase h num (m.tierCtx index) ctx resp o s path parent children >>= step
        else gqaPhase h num (m.tierCtx index) ctx resp o s path parent children >>= step) := by
  cases parent with
  | none =>
    exact hp.ends_layer hphase hfits hdim hnode hparent hlast (.inl (hparent.mp rfl)) hstep
  | some claimed =>
    cases children with
    | none =>
      exact hp.ends_layer hphase hfits hdim hnode hparent hlast (.inr (hlast.mp rfl)) hstep
    | some ch => exact Ends.bind ends_mismatch fun u _ => hstep u

/-- The verifier refuses an opening of the miner for its arithmetic only, or steps on. -/
theorem ends_verifyAttnPhase {partials : List UInt8} (ha : Answered m rec seq index ctx caps)
    (hd : DrawnAttn m rec ctx seed ll d) (hresp : resp ∈ seqResponseCtx rec seq)
    (hsite : Ends (fun _ => ¬ AttnSupported m ctx rec.nPos d)
      (SameAttn m rec.nPos.toNat ctx d path) (attnSite h (m.tierCtx index) ctx resp seed o))
    (hb : BuiltAttn m rec seq index d caps path o)
    (hphase : PhaseOpening h d path prev partials o) (hsupp : AttnSupported m ctx rec.nPos d)
    (hfits : AttnFits m index num d rec.nPos.toNat)
    (hprev : ∀ b ∈ prev, PartialsFit num d path.dropLast b)
    (hpartials : ¬ d.leaf path → PartialsFit num d path partials) :
    Ends (· = .mismatch) (StepOf h num d path partials)
      (verifyAttnPhase h num (m.tierCtx index) ctx resp seed path
        (prev.bind fun b => partialsRoot h b d.dv) o) := by
  obtain ⟨hnPrompt, hnPos⟩ : resp.nPrompt = rec.nPrompt ∧ resp.nPos = rec.nPos := by
    obtain ⟨root, -, rfl⟩ := Option.map_eq_some_iff.mp hresp
    exact ⟨rfl, rfl⟩
  obtain ⟨p, hnode⟩ := hb.exists_node
  have hdepth : path.length ≤ d.tree.depth := by
    obtain ⟨az, hrange, -⟩ := Option.map_eq_some_iff.mp hnode
    exact (BlockTree.isNode_leafRange hrange).level_le
  refine Ends.bind (hsite.mono_error fun _ hne => absurd hsupp hne) fun s hs => ?_
  have hp : PhaseSite m rec seq index ctx resp seed ll d caps path s o :=
    ⟨ha, hd, hs, hb, hnPrompt, hnPos, hfits.rows, hfits.masses⟩
  have hdim : 0 < d.links.headDim.toNat := Nat.pos_of_ne_zero hsupp.headDim.1
  obtain ⟨parent, hopen, hparent⟩ := exists_openParent hs.tree hs.dv hphase.parent hprev
  have hnode' : p ∈ s.tree.node path := hs.tree ▸ hnode
  rw [hs.tree]
  refine Ends.bind_ok (refuse_of_not ?_) (Ends.bind_ok hopen ?_)
  · rintro (hne | hlt)
    · exact hne hphase.node
    · omega
  refine Ends.bind_ok (refuse_of_not (not_not.mpr hphase.kept.symm)) ?_
  by_cases hleaf : path.length = d.tree.depth
  · rw [if_pos (decide_eq_true hleaf)]
    have hlast : d.leaf path = true := decide_eq_true hleaf
    refine Ends.bind_ok rfl (hp.ends_checks hphase hfits hdim hnode' hparent
      (iff_of_true rfl hlast) fun _ => ?_)
    exact StepOf.done hlast
  · have hinner : ¬ d.leaf path = true := fun htrue => hleaf (of_decide_eq_true htrue)
    obtain ⟨-, nodes, ch, weights, hnodes, hch, hcount, hweights⟩ := hpartials hinner
    obtain ⟨leaves, root, hleaves, -, -, hroot⟩ := exists_partialsRoot (h := h) hch
    have hroot' : partialsRoot h partials d.dv = some root := by
      rw [partialsRoot, hleaves]
      exact hroot
    have hfilter : (decodePartials num partials d.dv).filter (·.length = nodes.length) = some ch := by
      rw [hch, Option.filter_some, if_pos (decide_eq_true hcount)]
    have hsame : o.partials = partials := by rw [hphase.partials, if_neg hleaf]
    rw [if_neg (by simpa using hleaf), hs.dv, hsame]
    refine Ends.bind_ok (orFail_eq_ok.mpr hnodes) (Ends.bind_ok (orFail_eq_ok.mpr hfilter) ?_)
    refine Ends.bind_ok rfl (hp.ends_checks hphase hfits hdim hnode' hparent
      (iff_of_false (Option.some_ne_none ch) hinner) fun _ => ?_)
    refine Ends.bind_ok (orFail_eq_ok.mpr hroot') (Ends.bind_ok (orFail_eq_ok.mpr hweights) ?_)
    rw [hcount]
    exact StepOf.next hinner hroot' hnodes hcount hch hweights

/-- The opening of a phase has the fields that the verifier keeps, the verifier draws from it the point
of the miner, and over the captures of an answer and a model that fits the layer every part that the
phase asks for is there and accepted. -/
theorem attnOpening_matches (m : TierManifest h) (rec : TraceRecord h) (seq : SeqTrace)
    (index : Pom.WeightIndex) (seed responseTxid : Hash) (d : AttnDraw)
    (hd : drawAttn m rec seed = some d) (caps : Captures) (spans : List SeqCapture)
    (path : List UInt64) (prev : Option (List UInt8)) (op : AttnOpening)
    (hop : attnOpening m rec seq index d caps spans responseTxid path prev = .ok op)
    (partials : List UInt8) :
    let o := d.phaseFields op path partials
    PhaseOpening h d path prev partials o ∧
      ∀ ctx ∈ m.chain, ∀ resp ∈ seqResponseCtx rec seq,
        Ends (fun _ => ¬ AttnSupported m ctx rec.nPos d) (SameAttn m rec.nPos.toNat ctx d path)
          (attnSite h (m.tierCtx index) ctx resp seed o) ∧
        ∀ num : AttnNumerics, Answered m rec seq index ctx caps →
          AttnSupported m ctx rec.nPos d → AttnFits m index num d rec.nPos.toNat →
          (∀ b ∈ prev, PartialsFit num d path.dropLast b) →
          (¬ d.leaf path → PartialsFit num d path partials) →
          Ends (· = .mismatch) (StepOf h num d path partials)
            (verifyAttnPhase h num (m.tierCtx index) ctx resp seed path
              (prev.bind fun b => partialsRoot h b d.dv) o) := by
  intro o
  have hopened := openedAttn hop
  have hphase : PhaseOpening h d path prev partials o := hopened.phase
  refine ⟨hphase, fun ctx hctx resp hresp => ?_⟩
  obtain ⟨ctx', ll, hdrawn⟩ := drawnAttn_of_drawAttn hd
  obtain rfl : ctx' = ctx := Option.some_inj.mp (hdrawn.chain.symm.trans hctx)
  have hsame : o.posRoot = op.posRoot ∧ o.seqRoot = op.seqRoot ∧ o.layer = op.layer :=
    d.phaseFields_base
  have hsite : Ends (fun _ => ¬ AttnSupported m ctx' rec.nPos d)
      (SameAttn m rec.nPos.toNat ctx' d path) (attnSite h (m.tierCtx index) ctx' resp seed o) := by
    refine ends_attnSite hdrawn hresp (hsame.1.trans hopened.posRoot)
      (hsame.2.1.trans hopened.seqRoot) ?_
    rw [hsame.2.2]
    exact hopened.layer _ hctx
  refine ⟨hsite, fun num ha hsupp hfits hprev hpartials => ?_⟩
  exact ends_verifyAttnPhase ha hdrawn hresp hsite (builtAttn_of_attnOpening hop).phase hphase hsupp
    hfits hprev hpartials

/-- One head over the first product, without weights of its own. -/
def oneHead : AttnLinks where
  q := 0
  k := 0
  v := 0
  qNorm := noneIndex
  kNorm := noneIndex
  nHead := 1
  nHeadKv := 1
  headDim := 32
  ropeKind := ropeNorm
  nRot := 0
  ropeBase := 0
  kqScale := 0
  swaWindow := 0
  softcap := 0
  ropeFreqs := noneIndex
  vNorm := 0
  gated := 0
  slot := 0
  mlaRank := 0
  absorb := noneIndex
  out := noneIndex

/-- The bytes of a layer of one head. -/
def attnRaw : List UInt8 :=
  [0, 0] ++ toLe 4 0 ++ toLe 8 0 ++ toLe 8 0 ++ toLe 4 0 ++ toLe 8 0 ++ toLe 8 0 ++ toLe 4 0 ++
    [roleLayer, 0, formNone] ++ toLe 4 noneIndex.toNat ++ toLe 4 noneIndex.toNat ++
    [tagAttnLayer] ++ toLe 4 0 ++ toLe 4 0 ++ toLe 4 0 ++ toLe 4 noneIndex.toNat ++
    toLe 4 noneIndex.toNat ++ toLe 4 noneIndex.toNat ++
    ([0, 0, 0, noneIndex, noneIndex, 1, 1, 32, 0, 0, 0, 0, 0, 0, noneIndex, 0, 0, 0, 0, noneIndex,
      noneIndex] : List UInt32).flatMap fun x => toLe 4 x.toNat

def attnEntry : Entry :=
  { layerEntry with
    chain := .layer ⟨0, 0, 0, noneIndex, noneIndex, noneIndex, none, some oneHead, none⟩ }

theorem parse_attnRaw : Entry.parse attnRaw = some (attnEntry, attnRaw.length) := by
  decide +kernel

/-- The bytes of a product of 32 rows, without a link. -/
def squareRaw : List UInt8 :=
  [0, 0] ++ toLe 4 0 ++ toLe 8 32 ++ toLe 8 32 ++ toLe 4 1 ++ toLe 8 0 ++ toLe 8 4096 ++
    toLe 4 128 ++ [roleProduct, 0, formNone] ++ toLe 4 noneIndex.toNat ++ toLe 4 noneIndex.toNat ++
    [tagProduct] ++ toLe 4 0 ++ [linkNone] ++ toLe 4 noneIndex.toNat ++ toLe 4 noneIndex.toNat

def squareEntry : Entry := { productEntry with m := 32, nBytes := 4096 }

theorem parse_squareRaw : Entry.parse squareRaw = some (squareEntry, squareRaw.length) := by
  decide +kernel

/-- A manifest of one attention layer with one product. -/
def oneAttn : TierManifest zeroHash where
  entries := [(squareEntry, squareRaw), (attnEntry, attnRaw)]
  nProducts := 1
  mT := Vector.replicate 32 0
  chain := some ⟨1, 1, 1, false, 0, 1, 0, 1⟩
  products_pos := toNat_one_pos
  products_le := by decide
  entries_lt := by decide
  parsed := by
    rintro er (_ | ⟨_, _ | ⟨_, ⟨⟩⟩⟩)
    · exact parse_squareRaw
    · exact parse_attnRaw
  root := by
    simp only [rtRangeProof, Entry.leaf, blake3_zeroHash, List.map_cons, List.map_nil]
    exact RangeTree.Shape.root_replicate (n := 1) _ fun _ => blake3_zeroHash

def oneAttnDraw : AttnDraw where
  layer := 0
  slot := 0
  t := 0
  head := 0
  qh := 0
  start := 0
  tree := ⟨0, 1, 1024, 1024, by decide, by decide, by decide⟩
  dv := 32
  anchorDraw := 0
  links := oneHead
  proj := 0

theorem depth_oneAttn : oneAttnDraw.tree.depth = 0 := by
  rw [BlockTree.depth, BlockTree.depthLoop]
  rfl

/-- The record of one position whose `n + 1` leaves are all zero. -/
def zeroRecord (n : Nat) (hn : n + 1 < 2 ^ 64) : TraceRecord zeroHash where
  stage := 2
  nPrompt := 1
  nPos := 1
  ubatch := [1]
  nLeaves := n + 1
  leaves := List.replicate (n + 1) (Vector.replicate 32 0)
  posRoots := [Vector.replicate 32 0]
  traceRoot := Vector.replicate 32 0
  tokensRoot := none
  prompt_pos := toNat_one_pos
  prompt_le := toNat_one_le
  length_ubatch := length_one
  length_leaves := by rw [List.length_replicate]; exact (Nat.one_mul _).symm
  nLeaves_lt := hn
  roots := by
    have hblock : block (n + 1) (List.replicate (n + 1) (Vector.replicate 32 0 : Hash)) 0 =
        List.replicate (n + 1) (Vector.replicate 32 0) := by
      simp [block]
    have hroot : b3Root zeroHash.toMerges (List.replicate (n + 1) (Vector.replicate 32 0)) =
        some (Vector.replicate 32 0) :=
      RangeTree.Shape.root_replicate (n := n) _ fun top => by cases top <;> rfl
    change (List.range 1).mapM' _ = _
    rw [List.range_one, List.mapM'_cons, hblock, hroot]
    rfl
  root := by simp [b3Root, RangeTree.Shape.root]

/-- The record of one position of the layer. -/
def attnRecord : TraceRecord zeroHash := zeroRecord 4 (by decide)

/-- The captures of the product at the position. -/
def squareCaptures : Captures := fun key =>
  if key.1 = 0 ∧ key.2 = 0 then some (List.replicate 576 0)
  else if key.1 = 0 ∧ key.2 = 1 then some (List.replicate 128 0)
  else none

/-- The index of a model of 33 chunks. -/
def zeroWeights : Pom.WeightIndex :=
  Pom.WeightIndex.indexOf (blake3 zeroHash) (Pom.chunksOf Pom.zeroTensor)

theorem indexed_zeroWeights : Indexed zeroHash zeroWeights := by
  have hn : zeroWeights.nChunks = 33 := Pom.nChunks_zeroTensor _
  exact ⟨Pom.WeightIndex.build_built (Pom.build_zeroTensor _), by omega, by omega⟩

theorem drawAttn_oneAttn (seed : Hash) : drawAttn oneAttn attnRecord seed = some oneAttnDraw := by
  rw [drawAttn, Draw.point_zeroHash]
  rfl

def zeroSeq (n : Nat) : SeqTrace := ⟨List.replicate n (Vector.replicate 32 0), Vector.replicate 32 0⟩

def zeroCaptures (bytes : Nat) : SeqCapture := ⟨List.replicate bytes 0, [Vector.replicate 32 0]⟩

theorem spans_oneAttn : AttnDraw.spans oneAttn oneAttnDraw 1 [] =
    some [⟨0, 34, 0, 34⟩, ⟨1, 34, 0, 34⟩, ⟨2, 4, 0, 4⟩] := by
  rfl

theorem captured_zeroSeq {leaf : UInt32} {count n : Nat} {e : String} (hleaf : leaf.toNat < count)
    (hn : n ≤ b3Chunk) : ∃ s,
    captured (h := zeroHash) (zeroSeq count) (some ⟨leaf, n, 0, n⟩) (some (zeroCaptures n)) e = .ok s := by
  have hget : (zeroSeq count).leaves[leaf.toNat]? = some (Vector.replicate 32 0) :=
    List.getElem?_replicate_of_lt hleaf
  have hone : SpanPlan.nChunks ⟨leaf, n, 0, n⟩ = 1 := by
    rw [SpanPlan.nChunks, chunkCount_eq]
    rw [b3Chunk] at hn
    dsimp only
    omega
  have hproof : spanProof zeroHash ⟨leaf, n, 0, n⟩ (zeroCaptures n) (Vector.replicate 32 0) =
      .ok [] := by
    rw [spanProof, hone]
    simp
  have hspan : ∃ s, span zeroHash ⟨leaf, n, 0, n⟩ (zeroCaptures n) (zeroSeq count) = .ok s := by
    rw [span, hget]
    dsimp only
    rw [if_neg (by simp [zeroCaptures]), hproof]
    exact ⟨_, rfl⟩
  obtain ⟨s, hs⟩ := hspan
  exact ⟨s, bind_eq_ok.mpr ⟨_, rfl, bind_eq_ok.mpr ⟨_, rfl, hs⟩⟩⟩

theorem valueChunks_zero {rec : TraceRecord zeroHash} {leaf : UInt32} :
    ∃ chunks, valueChunks rec 0 leaf (List.replicate 128 0) 0 32 = some chunks := by
  have hchunk : ∃ chunk, leafChunk rec 0 leaf (List.replicate 128 0) 0 = some chunk := by
    simp only [leafChunk, chunkWithPath, List.length_replicate]
    exact ⟨_, rfl⟩
  obtain ⟨chunk, hchunk⟩ := hchunk
  change ∃ chunks, (List.range 1).mapM' (fun i =>
    leafChunk rec 0 leaf (List.replicate 128 0) (0 + i)) = some chunks
  rw [List.range_one, List.mapM'_cons, hchunk]
  exact ⟨_, rfl⟩

theorem exists_attnOpening : ∃ op,
    attnOpening oneAttn attnRecord (zeroSeq 3) zeroWeights oneAttnDraw squareCaptures
      [zeroCaptures 34, zeroCaptures 34, zeroCaptures 4] (Vector.replicate 32 0) [] none =
        .ok op := by
  obtain ⟨keys, hkeys⟩ := @captured_zeroSeq 0 3 34 "no cache spans" (by decide) (by decide)
  obtain ⟨values, hvalues⟩ := @captured_zeroSeq 1 3 34 "no cache spans" (by decide) (by decide)
  obtain ⟨mass, hmass⟩ := @captured_zeroSeq 2 3 4 "no mass span" (by decide) (by decide)
  obtain ⟨chunks, hchunks⟩ := @valueChunks_zero attnRecord 1
  have hleaf : oneAttnDraw.leaf [] = true := by
    rw [AttnDraw.leaf, depth_oneAttn]
    rfl
  have hparts : attnParts oneAttn attnRecord zeroWeights oneAttnDraw squareCaptures (some 0)
      (List.replicate 128 0) 32 = .ok ⟨chunks, [], chunks, [], []⟩ := by
    have hq : orFail (valueChunks attnRecord 0 1 (List.replicate 128 0) 0 32) "query chunks" =
      .ok chunks := orFail_eq_ok.mpr hchunks
    have hk : orFail (valueChunks attnRecord 0 1 (List.replicate 128 0) 0 32)
      "key anchor chunks" = .ok chunks := orFail_eq_ok.mpr hchunks
    refine bind_eq_ok.mpr ⟨_, hq, bind_eq_ok.mpr ⟨_, ?_, rfl⟩⟩
    exact bind_eq_ok.mpr ⟨_, rfl, hk⟩
  simp only [attnOpening, bind_eq_ok, hleaf]
  refine ⟨_, _, rfl, _, rfl, _, rfl, _, hparts, _, orFail_eq_ok.mpr spans_oneAttn, (), rfl, _, hkeys,
    _, hvalues, _, hmass, _, rfl, _, rfl, _, rfl, _, rfl, _, rfl, _, rfl, rfl⟩

theorem mem_seqResponseCtx_zeroSeq {rec : TraceRecord zeroHash} {n : Nat} (hpos : rec.nPos = 1)
    (hprompt : rec.nPrompt = 1) (hroot : rec.traceRoot = Vector.replicate 32 0) :
    ⟨Vector.replicate 32 0, 1, 1⟩ ∈ seqResponseCtx rec (zeroSeq n) := by
  have hpair : seqTraceRoot zeroHash rec.traceRoot (zeroSeq n).root =
      some (Vector.replicate 32 0) := by
    rw [hroot]
    exact RangeTree.Shape.root_replicate (n := 1) _ fun top => by cases top <;> rfl
  rw [seqResponseCtx, hpair, hpos, hprompt]
  rfl

/-- The context of the one layer. -/
def oneCtx : ChainCtx := ⟨1, 1, 1, false, 0, 1, 0, 1⟩

theorem entry_oneAttn {r : UInt32} (hr : r.toNat < oneAttn.np) {e : Entry}
    (he : e ∈ oneAttn.entry r.toNat) : r = 0 ∧ e = squareEntry := by
  obtain rfl : r = 0 := UInt32.toNat_inj.mp (Nat.lt_one_iff.mp hr)
  cases he
  exact ⟨rfl, rfl⟩

theorem rows_squareCaptures : WholeRows oneAttn attnRecord squareCaptures where
  committed t ht leaf bytes hbytes := by
    obtain rfl : t = 0 := Nat.lt_one_iff.mp ht
    have hleaves : attnRecord.leavesAt 0 = List.replicate 5 (Vector.replicate 32 0) := by decide
    rw [hleaves, blake3_zeroHash]
    unfold squareCaptures at hbytes
    rw [Option.mem_def] at hbytes
    split at hbytes
    · next hkey =>
      cases hbytes
      obtain ⟨-, rfl⟩ := hkey
      exact ⟨by decide, by rw [List.length_replicate]; decide⟩
    split at hbytes
    · next hkey =>
      cases hbytes
      obtain ⟨-, rfl⟩ := hkey
      exact ⟨by decide, by rw [List.length_replicate]; decide⟩
    · cases hbytes
  input t ht r hr e he _ bytes hbytes := by
    obtain rfl : t = 0 := Nat.lt_one_iff.mp ht
    obtain ⟨rfl, rfl⟩ := entry_oneAttn hr he
    cases hbytes
    rw [List.length_replicate]
    decide
  output t ht r hr e he _ bytes hbytes := by
    obtain rfl : t = 0 := Nat.lt_one_iff.mp ht
    obtain ⟨rfl, rfl⟩ := entry_oneAttn hr he
    cases hbytes
    rw [List.length_replicate]
    decide

/-- Numbers that agree with everything. -/
def agreeing : AttnNumerics where
  Partial := Unit
  Query := Unit
  finite _ := true
  decodePartial _ := some ()
  childWeights ch := some (ch.map fun _ => 1)
  checkNode _ _ := true
  freqsFit _ := true
  gqaQuery _ _ _ _ := ()
  mlaQuery _ _ := ()
  checkLeaf _ _ _ _ _ := true
  checkWhole _ _ _ _ _ _ _ _ _ _ := true
  checkRootLse _ _ _ _ _ _ _ := true
  gqaKeyMatches _ _ _ _ _ := true
  gqaValueMatches _ _ _ := true
  mlaKeyMatches _ _ _ _ := true

theorem answered_squareCaptures :
    Answered oneAttn attnRecord (zeroSeq 3) zeroWeights oneCtx squareCaptures where
  chain := rfl
  products_le := by decide
  nLeaves := by decide
  indexed := indexed_zeroWeights
  rows := rows_squareCaptures
  seqLeaves := by decide
  seqLeaves_le := by decide
  seqRoot := RangeTree.Shape.root_replicate (n := 2) _ fun top => by cases top <;> rfl

theorem outputs_oneAttn : Outputs oneAttn 0 32 := by
  refine ⟨by decide, fun e he => ?_⟩
  cases he
  exact ⟨.inl rfl, by decide⟩

theorem fits_oneAttn : AttnFits oneAttn zeroWeights agreeing oneAttnDraw 1 where
  gqa _ := {
    links := ⟨rfl, rfl⟩
    group := by decide
    heads := by decide
    query := outputs_oneAttn
    width := by
      rintro e ⟨⟩
      decide
    keys := outputs_oneAttn
    values := fun hne => absurd rfl hne
    output := by
      refine ⟨by decide, ?_⟩
      rintro e ⟨⟩
      decide
    norms := by
      rintro w hw
      cases hw
    freqs := fun hne => absurd rfl hne }
  mla hmla := absurd rfl hmla
  rows := by decide
  masses := by decide

/-- The opening of the one head, over a record of one position, is refused for its arithmetic only. -/
theorem attnOpening_matches_oneAttn : ∃ op,
    attnOpening oneAttn attnRecord (zeroSeq 3) zeroWeights oneAttnDraw squareCaptures
        [zeroCaptures 34, zeroCaptures 34, zeroCaptures 4] (Vector.replicate 32 0) [] none =
          .ok op ∧
      PhaseOpening zeroHash oneAttnDraw [] none [] (oneAttnDraw.phaseFields op [] []) ∧
      (∃ s, attnSite zeroHash (oneAttn.tierCtx zeroWeights) oneCtx ⟨Vector.replicate 32 0, 1, 1⟩
          (Vector.replicate 32 0) (oneAttnDraw.phaseFields op [] []) = .ok s ∧
        SameAttn oneAttn 1 oneCtx oneAttnDraw [] s) ∧
      Ends (· = .mismatch) (StepOf zeroHash agreeing oneAttnDraw [] [])
        (verifyAttnPhase zeroHash agreeing (oneAttn.tierCtx zeroWeights) oneCtx
          ⟨Vector.replicate 32 0, 1, 1⟩ (Vector.replicate 32 0) [] none
          (oneAttnDraw.phaseFields op [] [])) := by
  obtain ⟨op, hop⟩ := exists_attnOpening
  obtain ⟨hphase, hsame⟩ := attnOpening_matches oneAttn attnRecord (zeroSeq 3) zeroWeights
    (Vector.replicate 32 0) _ oneAttnDraw (drawAttn_oneAttn _) _ _ [] none op hop []
  obtain ⟨hends, haccepted⟩ := hsame oneCtx rfl _ (mem_seqResponseCtx_zeroSeq rfl rfl rfl)
  have hsupp : AttnSupported oneAttn oneCtx attnRecord.nPos oneAttnDraw := by
    refine ⟨by decide, by decide, by decide, by decide, ?_, by decide, by decide⟩
    rintro e ⟨⟩
    exact ⟨rfl, by rintro ll ⟨⟩; rfl⟩
  have hleaf : oneAttnDraw.leaf [] = true := by
    rw [AttnDraw.leaf, depth_oneAttn]
    rfl
  refine ⟨op, hop, hphase, ?_, haccepted agreeing answered_squareCaptures hsupp fits_oneAttn nofun
    fun hinner => absurd hleaf hinner⟩
  revert hends
  cases attnSite zeroHash (oneAttn.tierCtx zeroWeights) _ _ _ _ with
  | ok s => exact fun hs => ⟨s, rfl, hs⟩
  | error e => exact fun hne => absurd hsupp hne

end KeryxMiner.Replay
