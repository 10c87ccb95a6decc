import KeryxMiner.Replay.AttnMatches
import KeryxMiner.Inference.BlockPartition
import KeryxMiner.Inference.LeafSites
import KeryxMiner.Replay.Leaves

/-!
# The checks of attention phases

The parent, the rows, the mass, the output and the anchor that the miner opens for a phase are
accepted (`BuiltAttn` has which of them a phase has), so that the checks of a grouped-query layer
(`PhaseSite.ends_gqaPhase`) and of a latent-cache layer (`PhaseSite.ends_mlaPhase`) refuse it for its
arithmetic only.
-/

namespace KeryxMiner.Replay

open Inference Manifest
open Openings hiding Hash

variable {h : Blake3} {m : TierManifest h} {rec : TraceRecord h} {seq : SeqTrace}
  {index : Pom.WeightIndex} {ctx : ChainCtx} {resp : ResponseCtx} {seed : Hash} {d : AttnDraw}
  {ll : LayerLinks} {path : List UInt64} {op o : AttnOpening} {caps : Captures}
  {num : AttnNumerics} {s : AttnSite} {prev : Option (List UInt8)} {b : List UInt8}

/-! ## Partials -/

theorem decodePartials_eq_some {dv : Nat} {ch : List num.Partial} :
    decodePartials num b dv = some ch ↔ ¬ (dv = 0 ∨ b = [] ∨ b.length % partialLen dv ≠ 0) ∧
      ((List.range (b.length / partialLen dv)).mapM' fun i =>
        num.decodePartial ((b.drop (i * partialLen dv)).take (partialLen dv))) = some ch := by
  rw [decodePartials]
  exact Option.ite_none_left_eq_some

/-- Partials that decode have a root. -/
theorem exists_partialsRoot {dv : Nat} {ch : List num.Partial}
    (hch : decodePartials num b dv = some ch) : ∃ leaves root, partialLeaves h b dv = some leaves ∧
      leaves.length = ch.length ∧ ch.length = b.length / partialLen dv ∧
        b3Root h.toMerges leaves = some root := by
  obtain ⟨hfit, hch⟩ := decodePartials_eq_some.mp hch
  have hcount := length_mapM' hch
  rw [List.length_range] at hcount
  obtain ⟨leaves, hleaves, hsize⟩ : ∃ leaves, partialLeaves h b dv = some leaves ∧
      leaves.length = ch.length := by
    rw [partialLeaves, if_neg hfit]
    exact ⟨_, rfl, by rw [List.length_map, List.length_range, hcount]⟩
  simp only [not_or, not_not] at hfit
  obtain ⟨-, hne, hmod⟩ := hfit
  have hpos : 0 < b.length / partialLen dv := by
    have hlen := List.length_pos_iff.mpr hne
    exact Nat.div_pos (Nat.le_of_dvd hlen (Nat.dvd_of_mod_eq_zero hmod)) (Nat.succ_pos _)
  obtain ⟨root, hroot⟩ := (b3Shape h.toMerges).exists_root
    (List.ne_nil_of_length_pos (hsize.trans hcount ▸ hpos))
  exact ⟨leaves, root, hleaves, hsize, hcount, hroot⟩

/-- A partial that the miner opens is one of those committed. -/
theorem openPartial_partialOpening {dv i : Nat} {ch : List num.Partial} {bytes : List UInt8}
    {proof : List Hash} (hch : decodePartials num b dv = some ch) (hlen : b.length < 2 ^ 64)
    (hopen : partialOpening h b dv i = some (bytes, proof)) :
    ∃ root p, partialsRoot h b dv = some root ∧
      openPartial h num root ch.length i bytes proof dv = some p := by
  obtain ⟨leaves, root, hleaves, hcount, hsize, hroot⟩ := exists_partialsRoot (h := h) hch
  obtain ⟨hfit, hdecode⟩ := decodePartials_eq_some.mp hch
  rw [partialOpening, hleaves] at hopen
  obtain ⟨hi, hopen⟩ := Option.ite_none_right_eq_some.mp hopen
  obtain ⟨rfl, rfl⟩ := Prod.mk.inj (Option.some.inj hopen)
  have hget : leaves[i]? = some (blake3 h ((b.drop (i * partialLen dv)).take (partialLen dv))) := by
    rw [partialLeaves, if_neg hfit] at hleaves
    cases hleaves
    rw [List.length_map, List.length_range] at hi
    rw [List.getElem?_map, List.getElem?_range hi]
    rfl
  have hdiv : i < b.length / partialLen dv := by omega
  have hbytes : ((b.drop (i * partialLen dv)).take (partialLen dv)).length = partialLen dv := by
    have hle : (i + 1) * partialLen dv ≤ b.length :=
      (Nat.le_div_iff_mul_le (Nat.succ_pos _)).mp hdiv
    rw [Nat.add_mul] at hle
    rw [List.length_take, List.length_drop]
    omega
  have hverify : b3Verify h.toMerges root ch.length i
      (blake3 h ((b.drop (i * partialLen dv)).take (partialLen dv)))
      (b3Path h.toMerges leaves i) = true := by
    have hle := Nat.div_le_self b.length (partialLen dv)
    rw [b3Verify, ← hcount, b3Fold_b3Path (by omega) hget, hroot, beq_self_eq_true]
  obtain ⟨p, hp⟩ : ∃ p, num.decodePartial ((b.drop (i * partialLen dv)).take (partialLen dv)) =
      some p := by
    rw [getElem?_mapM' hdecode (List.getElem?_range hdiv), List.getElem?_eq_getElem (by omega)]
    exact ⟨_, rfl⟩
  refine ⟨root, p, ?_, ?_⟩
  · rw [partialsRoot, hleaves]
    exact hroot
  · have hone : decodePartials num ((b.drop (i * partialLen dv)).take (partialLen dv)) dv =
        some [p] := by
      have hpos : 0 < partialLen dv := Nat.succ_pos _
      rw [decodePartials_eq_some, hbytes, Nat.div_self hpos, List.range_one]
      refine ⟨?_, ?_⟩
      · simp only [not_or] at hfit ⊢
        exact ⟨hfit.1, List.ne_nil_of_length_pos (hbytes.symm ▸ hpos :), by simp⟩
      · rw [List.mapM'_cons, Nat.zero_mul, List.drop_zero, List.take_of_length_le hbytes.le, hp]
        rfl
    rw [openPartial, if_neg (by simp [hbytes, hverify]), hone]
    rfl

/-- The bytes `b` are the partials of the children of the node of `path`, as the engine encodes
them. -/
structure PartialsFit (num : AttnNumerics) (d : AttnDraw) (path : List UInt64) (b : List UInt8) :
    Prop where
  size : b.length < 2 ^ 64
  decode : ∃ nodes ch weights, d.tree.children path = some nodes ∧
    decodePartials num b d.dv = some ch ∧ ch.length = nodes.length ∧
      num.childWeights ch = some weights

/-- The verifier opens the parent of the miner. -/
theorem exists_openParent (htree : s.tree = d.tree) (hdv : s.dv = d.dv)
    (hparent : ParentOf h d.dv path prev o.parent o.parentPath)
    (hprev : ∀ b ∈ prev, PartialsFit num d path.dropLast b) :
    ∃ parent, openParent h num s path (prev.bind fun b => partialsRoot h b d.dv) o = .ok parent ∧
      (parent = none ↔ path = []) := by
  unfold openParent
  unfold ParentOf at hparent
  rw [htree, hdv]
  cases hlast : path.getLast? with
  | none =>
    rw [hlast] at hparent
    cases prev with
    | none => exact ⟨none, if_pos hparent, by simpa using hlast⟩
    | some b => exact hparent.elim
  | some i =>
    rw [hlast] at hparent
    have hne : path ≠ [] := by
      rintro rfl
      cases hlast
    cases prev with
    | none => exact hparent.elim
    | some b =>
      obtain ⟨hsize, nodes, ch, weights, hnodes, hch, hcount, -⟩ := hprev b rfl
      obtain ⟨root, p, hroot, hp⟩ := openPartial_partialOpening hch hsize hparent
      refine ⟨some p, ?_, by simpa using hne⟩
      rw [Option.bind_some, hroot, hnodes]
      rw [hcount] at hp
      exact bind_eq_ok.mpr ⟨nodes, rfl, bind_eq_ok.mpr ⟨p, orFail_eq_ok.mpr hp, rfl⟩⟩

/-! ## Spans -/

theorem of_openedPlans {nPos kv g qi : Nat} {first : Bool} {p : Nat × Nat} {plans : List SpanPlan}
    (hplans : openedPlans ctx nPos s first kv g qi p = some plans) :
    let bounds := cacheBounds s.a p.1 p.2
    plans[0]? =
        leafPlan ((seqLayout ctx).kcache s.slot kv) (nPos * cacheRowLen s.a) bounds.1 bounds.2 ∧
      (s.a.mlaRank = 0 → plans[1]? =
        leafPlan ((seqLayout ctx).vcache s.slot kv) (nPos * cacheRowLen s.a) bounds.1 bounds.2) ∧
      (first = true → plans.getLast? = leafPlan ((seqLayout ctx).lse s.slot kv) (nPos * g * 4)
        (s.lseBounds g qi).1 (s.lseBounds g qi).2) := by
  have hlen := length_mapM' hplans
  have hget := fun i x => getElem?_mapM' (i := i) (x := x) hplans
  dsimp only
  rw [List.getLast?_eq_getElem?]
  by_cases hmla : s.a.mlaRank = 0 <;> cases first <;>
    simp only [hmla, if_true, if_false, List.append_nil, List.length_cons,
      List.length_nil, Bool.false_eq_true, List.cons_append] at hlen hget <;>
    rw [hlen] <;>
    refine ⟨(hget 0 _ rfl).symm, ?_, ?_⟩
  · exact fun _ => (hget 1 _ rfl).symm
  · exact nofun
  · exact fun _ => (hget 1 _ rfl).symm
  · exact fun _ => (hget 2 _ rfl).symm
  · exact fun hzero => absurd hzero hmla
  · exact nofun
  · exact fun hzero => absurd hzero hmla
  · exact fun _ => (hget 1 _ rfl).symm

/-- The miner's rows, as the verifier cuts them. -/
theorem exists_cacheRows {a : AttnLinks} {leaf : Option Nat} {p0 p1 : Nat}
    {span : Openings.SeqSpan} (hpos : resp.nPos = rec.nPos)
    (hspan : SpanOpens h ctx seq leaf (rec.nPos.toNat * cacheRowLen a) (cacheBounds a p0 p1).1
      (cacheBounds a p0 p1).2 span) :
    ∃ rows, cacheRows h ctx resp a seq.root leaf p0 p1 span = .ok rows := by
  obtain ⟨i, hi, bytes, hbytes, -⟩ := hspan
  refine ⟨_, bind_eq_ok.mpr ⟨i, orFail_eq_ok.mpr hi, bind_eq_ok.mpr ⟨bytes, ?_, rfl⟩⟩⟩
  rw [hpos]
  exact orFail_eq_ok.mpr hbytes

theorem exists_committedLse {kv g qi : Nat} (hpos : resp.nPos = rec.nPos)
    (hroot : o.seqRoot = seq.root)
    (hspan : SpanOpens h ctx seq ((seqLayout ctx).lse s.slot kv) (rec.nPos.toNat * g * 4)
      (s.lseBounds g qi).1 (s.lseBounds g qi).2 o.lse) :
    ∃ mass, committedLse h ctx resp o s kv g qi = .ok mass := by
  obtain ⟨i, hi, mass, hmass, -⟩ := hspan
  refine ⟨mass, bind_eq_ok.mpr ⟨i, orFail_eq_ok.mpr hi, ?_⟩⟩
  dsimp only
  rw [hpos, hroot]
  exact orFail_eq_ok.mpr hmass

/-! ## The parts of an opening -/

/-- What the opening of the phase of `path` has, and which captures stand behind it: the query at the
first phase and the last, the output and the mass at the first, the rows and the anchor at the
last. -/
structure BuiltAttn (m : TierManifest h) (rec : TraceRecord h) (seq : SeqTrace)
    (index : Pom.WeightIndex) (d : AttnDraw) (caps : Captures) (path : List UInt64)
    (o : AttnOpening) : Prop where
  posRoot : o.posRoot = rec.traceRoot
  seqRoot : o.seqRoot = seq.root
  posPath : path = [] ∨ d.leaf path → o.posPath = rec.posPath d.t
  qEntry : path = [] ∨ d.leaf path → m.entryOpening d.links.q.toNat = some o.qEntry
  oEntry : path = [] → m.entryOpening d.proj.toNat = some o.oEntry
  out : path = [] → ∃ bytes ∈ caps (captureKey d.t (2 * d.proj)),
    o.out = leafBytes rec d.t (2 * d.proj) bytes
  anchorPosPath : d.leaf path → ∀ ps ∈ d.anchor path, o.anchorPosPath = rec.posPath ps
  parts : ∃ ps, ∃ qBytes ∈ caps (captureKey d.t (2 * d.links.q + 1)),
    ∃ qe ∈ m.entry d.links.q.toNat, ∃ parts, (d.leaf path → ps = d.anchor path) ∧
      attnParts m rec index d caps ps qBytes qe.m.toNat = .ok parts ∧
      (path = [] ∨ d.leaf path → o.q = parts.q) ∧
      (d.leaf path →
        parts = ⟨parts.q, o.absorb, o.anchorK, o.anchorV, o.norms⟩)
  spans : ∃ plans ∈ d.spans m rec.nPos.toNat path,
    (d.leaf path → ∃ cap e, captured (h := h) seq plans[0]? cap e = .ok o.kcache) ∧
      (d.leaf path → d.links.mlaRank = 0 →
        ∃ cap e, captured (h := h) seq plans[1]? cap e = .ok o.vcache) ∧
      (path = [] → ∃ cap e, captured (h := h) seq plans.getLast? cap e = .ok o.lse)

theorem builtAttn_of_attnOpening {spans : List SeqCapture} {responseTxid : Hash}
    (hop : attnOpening m rec seq index d caps spans responseTxid path prev = .ok op) :
    BuiltAttn m rec seq index d caps path op := by
  simp only [attnOpening, bind_eq_ok, orFail_eq_ok] at hop
  obtain ⟨ps, hps, qBytes, hqBytes, qe, hqe, parts, hparts, plans, hplans, -, -, kcache, hkcache,
    vcache, hvcache, lse, hlse, parent, -, ctx, -, layer, -, qEntry, hqEntry, oEntry, hoEntry, out,
    hout, hop⟩ := hop
  cases hop
  simp only [partIf_eq_ok, orFail_eq_ok] at hps hvcache hlse hoEntry hout
  have hanchor : d.leaf path → ps = d.anchor path := by
    intro hleaf
    obtain ⟨-, hps⟩ := hps.resolve_right fun hnot => hnot.1 hleaf
    cases hanchor : d.anchor path with
    | none =>
      rw [hanchor] at hps
      cases hps
    | some ps' =>
      rw [hanchor] at hps
      cases hps
      rfl
  refine ⟨rfl, rfl, fun _ => rfl, fun _ => hqEntry, fun hpath => ?_, fun hpath => ?_,
    fun hleaf ps' hps' => ?_,
    ⟨ps, qBytes, hqBytes, qe, hqe, parts, hanchor, hparts, fun _ => rfl, fun _ => rfl⟩,
    plans, hplans, fun _ => ⟨_, _, hkcache⟩, fun _ hmla => ?_, fun hpath => ?_⟩
  · exact (hoEntry.resolve_right fun hnot => hnot.1 hpath).2
  · obtain ⟨-, hout⟩ := hout.resolve_right fun hnot => hnot.1 hpath
    cases hbytes : caps (captureKey d.t (2 * d.proj)) with
    | none =>
      rw [hbytes] at hout
      cases hout
    | some bytes =>
      rw [hbytes] at hout
      cases hout
      exact ⟨bytes, rfl, rfl⟩
  · rw [hanchor hleaf, Option.mem_def.mp hps']
    rfl
  · have hnot : ¬ 0 < d.links.mlaRank := by
      rw [hmla]
      decide
    exact ⟨_, _, (hvcache.resolve_right fun hneg => hneg.1 hnot).2⟩
  · exact ⟨_, _, (hlse.resolve_right fun hneg => hneg.1 hpath).2⟩

/-- Reduced to the fields of its phase, an opening has the parts of the phase. -/
theorem BuiltAttn.phase {partials : List UInt8} (hop : BuiltAttn m rec seq index d caps path op) :
    BuiltAttn m rec seq index d caps path (d.phaseFields op path partials) := by
  rw [AttnDraw.phaseFields]
  split
  · exact hop
  next hleaf =>
  obtain ⟨ps, qBytes, hqBytes, qe, hqe, parts, hps, hparts, hq, -⟩ := hop.parts
  obtain ⟨plans, hplans, -, -, hlse⟩ := hop.spans
  split
  · exact ⟨hop.posRoot, hop.seqRoot, hop.posPath, hop.qEntry, hop.oEntry, hop.out,
      fun hleaf' => absurd hleaf' hleaf,
      ⟨ps, qBytes, hqBytes, qe, hqe, parts, hps, hparts, hq, fun hleaf' => absurd hleaf' hleaf⟩,
      plans, hplans, fun hleaf' => absurd hleaf' hleaf, fun hleaf' => absurd hleaf' hleaf, hlse⟩
  next hpath =>
  have hnone : ¬ (path = [] ∨ d.leaf path) := not_or.mpr ⟨hpath, hleaf⟩
  exact ⟨hop.posRoot, hop.seqRoot, fun hquery => absurd hquery hnone,
    fun hquery => absurd hquery hnone, fun hpath' => absurd hpath' hpath,
    fun hpath' => absurd hpath' hpath, fun hleaf' => absurd hleaf' hleaf,
    ⟨ps, qBytes, hqBytes, qe, hqe, parts, hps, hparts, fun hquery => absurd hquery hnone,
      fun hleaf' => absurd hleaf' hleaf⟩,
    plans, hplans, fun hleaf' => absurd hleaf' hleaf, fun hleaf' => absurd hleaf' hleaf,
    fun hpath' => absurd hpath' hpath⟩

/-! ## Grouped-query layers -/

/-- What the entries and weights of the model are for the checks of a grouped-query layer. -/
structure GqaFits (m : TierManifest h) (index : Pom.WeightIndex) (num : AttnNumerics)
    (a : AttnLinks) (proj : UInt32) : Prop where
  links : a.absorb = noneIndex ∧ a.out = noneIndex
  group : (gqaGroup a).isSome
  heads : a.nHead ≠ 0
  query : Outputs m a.q (a.nHead.toNat * a.headDim.toNat * (1 + a.gated.toNat))
  width : ∀ e ∈ m.entry a.q.toNat,
    e.m.toNat = a.nHead.toNat * a.headDim.toNat * (1 + a.gated.toNat)
  keys : Outputs m a.k (a.nHeadKv.toNat * a.headDim.toNat)
  values : a.v ≠ a.k → Outputs m a.v (a.nHeadKv.toNat * a.headDim.toNat)
  output : proj.toNat < m.np ∧ ∀ e ∈ m.entry proj.toNat,
    e.role = roleProduct ∧ e.nExp = 1 ∧ e.k.toNat = a.nHead.toNat * a.headDim.toNat
  norms : ∀ w ∈ declaredNorms a, NormEntry m w.1 w.2
  freqs : a.ropeFreqs ≠ noneIndex →
    ∀ w ∈ bytesRange m index a.ropeFreqs.toNat 0 (4 * (a.nRot.toNat / 2)),
      num.freqsFit (w.2.chunks.take (4 * (a.nRot.toNat / 2))) = true

/-- The activations and weights of a grouped-query opening. -/
structure GqaBuilt (m : TierManifest h) (rec : TraceRecord h) (index : Pom.WeightIndex)
    (d : AttnDraw) (path : List UInt64) (o : AttnOpening) : Prop where
  q : path = [] ∨ d.leaf path → OutputChunks rec d.t d.links.q
    (d.links.nHead.toNat * d.links.headDim.toNat * (1 + d.links.gated.toNat))
    (d.qh * d.links.headDim.toNat * (1 + d.links.gated.toNat))
    (d.links.headDim.toNat * (1 + d.links.gated.toNat)) o.q
  anchorK : d.leaf path → ∀ ps ∈ d.anchor path, ps < rec.nPos.toNat → OutputChunks rec ps d.links.k
    (d.links.nHeadKv.toNat * d.links.headDim.toNat) (d.head * d.links.headDim.toNat)
    d.links.headDim.toNat o.anchorK
  anchorV : d.leaf path → d.links.v ≠ d.links.k → ∀ ps ∈ d.anchor path, ps < rec.nPos.toNat →
    OutputChunks rec ps d.links.v (d.links.nHeadKv.toNat * d.links.headDim.toNat)
      (d.head * d.links.headDim.toNat) d.links.headDim.toNat o.anchorV
  norms : d.leaf path → (declaredNorms d.links).mapM' (fun w =>
    bytesRange m index w.1.toNat 0 (4 * w.2)) = some o.norms

theorem BuiltAttn.gqa (hb : BuiltAttn m rec seq index d caps path o)
    (ha : Answered m rec seq index ctx caps) (hfits : GqaFits m index num d.links d.proj)
    (hmla : d.links.mlaRank = 0) (ht : d.t < rec.nPos.toNat) : GqaBuilt m rec index d path o := by
  obtain ⟨ps, qBytes, hqBytes, qe, hqe, parts, hps, hparts, hq, hleaf⟩ := hb.parts
  rw [attnParts, if_neg (by rw [hmla]; decide)] at hparts
  simp only [gqaParts, bind_eq_ok, orFail_eq_ok, partIf_eq_ok] at hparts
  obtain ⟨q, hchunks, anchorK, hk, anchorV, hv, norms, hnorms, hparts⟩ := hparts
  cases hparts
  refine ⟨fun hquery => ?_, fun hpath ps' hps' hlt => ?_, fun hpath hne ps' hps' hlt => ?_,
    fun hpath => ?_⟩
  · rw [hq hquery]
    exact ha.outputChunks ht hfits.query hqBytes hchunks
  · obtain rfl := (hps hpath).trans hps'
    simp only [anchorChunks, bind_eq_ok, orFail_eq_ok] at hk
    obtain ⟨bytes, hbytes, hk⟩ := hk
    rw [show o.anchorK = anchorK from (congrArg AttnParts.anchorK (hleaf hpath)).symm]
    exact ha.outputChunks hlt hfits.keys hbytes hk
  · obtain rfl := (hps hpath).trans hps'
    obtain ⟨-, hv⟩ := hv.resolve_right fun hnot => hnot.1 hne
    simp only [anchorChunks, bind_eq_ok, orFail_eq_ok] at hv
    obtain ⟨bytes, hbytes, hv⟩ := hv
    rw [show o.anchorV = anchorV from (congrArg AttnParts.anchorV (hleaf hpath)).symm]
    exact ha.outputChunks hlt (hfits.values hne) hbytes hv
  · rw [show o.norms = norms from (congrArg AttnParts.norms (hleaf hpath)).symm]
    exact hnorms

/-! ## The phase at the verifier -/

/-- An opening of the miner at the verifier, which has drawn the site `s`. -/
structure PhaseSite (m : TierManifest h) (rec : TraceRecord h) (seq : SeqTrace)
    (index : Pom.WeightIndex) (ctx : ChainCtx) (resp : ResponseCtx) (seed : Hash) (ll : LayerLinks)
    (d : AttnDraw) (caps : Captures) (path : List UInt64) (s : AttnSite) (o : AttnOpening) :
    Prop where
  answered : Answered m rec seq index ctx caps
  drawn : DrawnAttn m rec ctx seed ll d
  same : SameAttn m rec.nPos.toNat ctx d path s
  built : BuiltAttn m rec seq index d caps path o
  nPrompt : resp.nPrompt = rec.nPrompt
  nPos : resp.nPos = rec.nPos
  rows : rec.nPos.toNat * cacheRowLen d.links < 2 ^ 42
  masses : rec.nPos.toNat * d.links.nHead.toNat * 4 < 2 ^ 42

theorem ends_map {α β ε : Type} {E : ε → Prop} {P : α → Prop} {Q : β → Prop} {r : Except ε α}
    {f : α → β} (hr : Ends E P r) (hf : ∀ a, Q (f a)) : Ends E Q (r.map f) := by
  cases r with
  | ok a => exact hf a
  | error e => exact hr

theorem ends_mismatch {bad : Prop} [Decidable bad] :
    Ends (· = Fail.mismatch) (fun _ => True) (refuse bad .mismatch) := by
  have hends : Ends (· = Fail.mismatch) (fun _ => ¬ bad) (refuse bad .mismatch) :=
    ends_refuse fun _ => rfl
  exact hends.mono fun _ _ => trivial

theorem residPosition_lt {layer d0 t : Nat}
    (ht : residPosition ctx rec.responseCtx layer d0 = .ok t) : t < rec.nPos.toNat := by
  have hpos : 0 < rec.nPos.toNat := Nat.lt_of_lt_of_le rec.prompt_pos rec.prompt_le
  unfold residPosition TraceRecord.responseCtx at ht
  dsimp only at ht
  split at ht
  · split at ht
    · cases ht
    next hfirst =>
    simp only [not_or, Nat.not_le] at hfirst
    have hmod := Nat.mod_lt d0 (Nat.sub_pos_of_lt hfirst.2)
    cases ht
    omega
  · cases ht
    exact Nat.mod_lt _ hpos

theorem DrawnAttn.t_lt (hd : DrawnAttn m rec ctx seed ll d) : d.t < rec.nPos.toNat :=
  residPosition_lt hd.t

/-- The anchor is a position of the response. -/
theorem DrawnAttn.anchor_lt (hd : DrawnAttn m rec ctx seed ll d) {ps : Nat}
    (hps : ps ∈ d.anchor path) : ps < rec.nPos.toNat := by
  obtain ⟨p, hnode, rfl⟩ := Option.map_eq_some_iff.mp hps
  obtain ⟨az, hrange, rfl⟩ := Option.map_eq_some_iff.mp hnode
  have hlt := BlockTree.positions_lt (BlockTree.isNode_leafRange hrange).start_lt
    (BlockTree.isNode_leafRange hrange).stop_le
  have hhi : (d.tree.positions az.1 az.2).2 ≤ d.tree.hi := Nat.min_le_left ..
  have hmod := Nat.mod_lt d.anchorDraw (Nat.sub_pos_of_lt hlt)
  obtain ⟨c, b, -, htree⟩ := hd.tree
  obtain ⟨hwhole, hnew⟩ := Option.dite_none_right_eq_some.mp htree
  have ht := hd.t_lt
  have hstop : d.tree.hi = d.t + 1 := (congrArg BlockTree.hi (Option.some.inj hnew)).symm
  omega

namespace PhaseSite

variable {p : Nat × Nat}

/-- The spans of the opening, before the verifier's checks. -/
theorem spans (hp : PhaseSite m rec seq index ctx resp seed ll d caps path s o) {kv g qi : Nat}
    (hplans : d.spans m rec.nPos.toNat path =
      openedPlans ctx rec.nPos.toNat s (path = []) kv g qi p) (hg : g ≤ d.links.nHead.toNat) :
    (d.leaf path → ∃ rows, cacheRows h ctx resp s.a o.seqRoot
      ((seqLayout ctx).kcache s.slot kv) p.1 p.2 o.kcache = .ok rows) ∧
    (d.leaf path → d.links.mlaRank = 0 → ∃ rows, cacheRows h ctx resp s.a o.seqRoot
      ((seqLayout ctx).vcache s.slot kv) p.1 p.2 o.vcache = .ok rows) ∧
    (path = [] → ∃ mass, committedLse h ctx resp o s kv g qi = .ok mass) := by
  obtain ⟨plans, hspans, hkcache, hvcache, hlse⟩ := hp.built.spans
  obtain ⟨hk, hv, hmass⟩ := of_openedPlans (hplans.symm.trans hspans)
  have hrows := hp.rows
  rw [← hp.same.links] at hrows hvcache ⊢
  rw [hp.built.seqRoot]
  refine ⟨fun hleaf => ?_, fun hleaf hmla => ?_, fun hpath => ?_⟩
  · obtain ⟨cap, e, hs⟩ := hkcache hleaf
    rw [hk] at hs
    exact exists_cacheRows hp.nPos (hp.answered.spanOpens hs
      (fun i hi => SeqLayout.leaf_lt_of_eq_some (s := ⟨.kcache, s.slot, kv⟩) hi) hrows)
  · obtain ⟨cap, e, hs⟩ := hvcache hleaf hmla
    rw [hv hmla] at hs
    exact exists_cacheRows hp.nPos (hp.answered.spanOpens hs
      (fun i hi => SeqLayout.leaf_lt_of_eq_some (s := ⟨.vcache, s.slot, kv⟩) hi) hrows)
  · obtain ⟨cap, e, hs⟩ := hlse hpath
    rw [hmass (decide_eq_true hpath)] at hs
    refine exists_committedLse hp.nPos hp.built.seqRoot (hp.answered.spanOpens hs
      (fun i hi => SeqLayout.leaf_lt_of_eq_some (s := ⟨.lse, s.slot, kv⟩) hi) ?_)
    have hmasses := hp.masses
    have hle := Nat.mul_le_mul_left rec.nPos.toNat hg
    omega

/-- The output row of the first phase leads to the root of its position. -/
theorem outRoot (hp : PhaseSite m rec seq index ctx resp seed ll d caps path s o) (hpath : path = [])
    {root : Hash} (hroot : PositionRoot rec d.t root) (hproj : d.proj.toNat < m.np)
    (wtype : UInt32) : outRoot h (m.tierCtx index) ctx resp o s d.proj wtype =
      .ok (layoutFor (expectedUbatch d.t rec.nPrompt) wtype, root) := by
  obtain ⟨bytes, hbytes, hout⟩ := hp.built.out hpath
  obtain ⟨hleaf, -⟩ := hp.answered.rows.committed d.t hp.drawn.t_lt _ _ hbytes
  have hnumber := (hp.answered.leaf_toNat hproj).1
  rw [Inference.outRoot, hp.same.t, hp.nPrompt, hp.nPos, hp.built.posRoot,
    hp.built.posPath (.inl hpath), hout, hp.answered.shape_nLeaves, ← hnumber]
  refine bind_eq_ok.mpr ⟨root, orFail_eq_ok.mpr (hroot.fold _ _ hleaf), ?_⟩
  exact bind_eq_ok.mpr ⟨(), refuse_of_not (by rw [hroot.verify]; simp), rfl⟩

/-- The output has a row for each of its heads. -/
theorem length_out (hp : PhaseSite m rec seq index ctx resp seed ll d caps path s o)
    (hpath : path = []) (hproj : d.proj.toNat < m.np) {e : Entry} (he : m.entry d.proj.toNat = some e)
    (hone : e.nExp = 1 ∨ e.role = roleHeads) (hrole : e.role ≠ roleOutput) :
    o.out.bytes.length =
      rowHeads e * xLen e.k.toNat (layoutFor (expectedUbatch d.t rec.nPrompt) e.wtype) := by
  obtain ⟨bytes, hbytes, hout⟩ := hp.built.out hpath
  have hlen := hp.answered.rows.input d.t hp.drawn.t_lt _ hproj e he hone bytes hbytes
  rwa [inputLayout, if_neg hrole, show bytes = o.out.bytes by rw [hout]; rfl] at hlen

end PhaseSite

/-! ## Grouped-query layers at the verifier -/

/-- The frequencies behind the norms that are declared, which are those of the model. -/
theorem takeNorm_freqs {a : AttnLinks} {norms : List Weights}
    (hnorms : ((declaredNorms a).mapM' fun w => bytesRange m index w.1.toNat 0 (4 * w.2)) =
      some norms) {freqs : List UInt8} :
    let weights := ((declaredNorms a).zip norms).map fun dw => dw.2.2.chunks.take (4 * dw.1.2)
    freqs ∈ (takeNorm a.ropeFreqs (takeNorm a.kNorm (takeNorm a.qNorm weights).2).2).1 →
      a.ropeFreqs ≠ noneIndex ∧
        ∃ w ∈ bytesRange m index a.ropeFreqs.toNat 0 (4 * (a.nRot.toNat / 2)),
          freqs = w.2.chunks.take (4 * (a.nRot.toNat / 2)) := by
  intro weights hmem
  by_cases hfreqs : a.ropeFreqs = noneIndex
  · rw [takeNorm, if_pos hfreqs] at hmem
    cases hmem
  refine ⟨hfreqs, ?_⟩
  by_cases hq : a.qNorm = noneIndex <;> by_cases hk : a.kNorm = noneIndex <;>
    simp [declaredNorms, takeNorm, hq, hk, hfreqs, weights, Option.bind_eq_some_iff] at hnorms hmem
  · obtain ⟨_, _, hw, rfl⟩ := hnorms
    exact ⟨_, hw, by simpa [eq_comm] using hmem⟩
  · obtain ⟨_, _, -, _, _, hw, rfl⟩ := hnorms
    exact ⟨_, hw, by simpa [eq_comm] using hmem⟩
  · obtain ⟨_, _, -, _, _, hw, rfl⟩ := hnorms
    exact ⟨_, hw, by simpa [eq_comm] using hmem⟩
  · obtain ⟨_, _, -, _, _, _, _, ⟨-, hw⟩, rfl⟩ := hnorms
    exact ⟨_, hw, by simpa [eq_comm] using hmem⟩

/-- The values of the declared weights, as the verifier reads them. -/
theorem exists_gqaNorms {a : AttnLinks} {proj : UInt32} {norms : List Weights}
    (hindex : Indexed h index) (hfits : GqaFits m index num a proj)
    (hnorms : ((declaredNorms a).mapM' fun w => bytesRange m index w.1.toNat 0 (4 * w.2)) =
      some norms) :
    ∃ n, gqaNorms h (m.tierCtx index) a norms = .ok n ∧
      ¬ n.freqs.any (num.freqsFit · = false) = true := by
  have hcount := length_mapM' hnorms
  have hweights : ((declaredNorms a).zip norms).mapM' (fun dw =>
      f32Weights h (m.tierCtx index) dw.2 dw.1.1 dw.1.2 0 dw.1.2) =
      .ok (((declaredNorms a).zip norms).map fun dw => dw.2.2.chunks.take (4 * dw.1.2)) := by
    refine mapM'_eq_ok.mpr (List.forall₂_map_right_iff.mpr (List.forall₂_same.mpr fun dw hmem => ?_))
    obtain ⟨i, hi⟩ := List.mem_iff_getElem?.mp hmem
    obtain ⟨hdecl, hnorm⟩ := List.getElem?_zip_eq_some.mp hi
    have hrange := (getElem?_mapM' hnorms hdecl).trans hnorm
    exact f32Weights_bytesRange hindex (hfits.norms _ (List.mem_of_getElem? hdecl)) (by omega) hrange
  refine ⟨⟨_, _, _⟩, bind_eq_ok.mpr ⟨(), refuse_of_not (by simp [hcount]),
    bind_eq_ok.mpr ⟨_, hweights, rfl⟩⟩, ?_⟩
  intro hany
  obtain ⟨freqs, hmem, hunfit⟩ := (Option.any_eq_true _ _).mp hany
  obtain ⟨hne, w, hw, rfl⟩ := takeNorm_freqs hnorms hmem
  rw [hfits.freqs hne w hw] at hunfit
  cases hunfit

/-- The heads of a draw are heads of the layer. -/
theorem DrawnAttn.gqa_heads (hd : DrawnAttn m rec ctx seed ll d) (hmla : d.links.mlaRank = 0) {g : Nat}
    (hg : gqaGroup d.links = some g) (hheads : d.links.nHead ≠ 0) :
    d.head < d.links.nHeadKv.toNat ∧ d.qh < d.links.nHead.toNat ∧ g ≤ d.links.nHead.toNat := by
  have hdraw := hd.heads
  rw [drawHeads, if_neg (by rw [hmla]; decide), Prod.mk.injEq] at hdraw
  obtain ⟨hhead, hqh⟩ := hdraw
  rw [gqaGroup, Option.ite_none_right_eq_some] at hg
  obtain ⟨⟨hpos, hmod, -⟩, hg⟩ := hg
  obtain rfl := Option.some.inj hg
  have hnkv : 0 < d.links.nHeadKv.toNat := hpos
  have hn : d.links.nHead.toNat = d.links.nHeadKv.toNat * (d.links.nHead.toNat / d.links.nHeadKv.toNat) :=
    (Nat.mul_div_cancel' (Nat.dvd_of_mod_eq_zero hmod)).symm
  have hnz : 0 < d.links.nHead.toNat := UInt32.pos_iff_ne_zero.mpr hheads
  have hgpos : 0 < d.links.nHead.toNat / d.links.nHeadKv.toNat := by
    rw [hn] at hnz
    exact Nat.pos_of_mul_pos_left hnz
  have hlt : d.head < d.links.nHeadKv.toNat := hhead ▸ Nat.mod_lt _ hnkv
  refine ⟨hlt, ?_, Nat.div_le_self _ _⟩
  have hslot := Nat.mod_lt (Draw.point h seed Draw.attnPoint 2 / d.links.nHeadKv.toNat) hgpos
  rw [hqh, ← hhead]
  calc d.head * (d.links.nHead.toNat / d.links.nHeadKv.toNat) +
        Draw.point h seed Draw.attnPoint 2 / d.links.nHeadKv.toNat %
          (d.links.nHead.toNat / d.links.nHeadKv.toNat)
      < (d.head + 1) * (d.links.nHead.toNat / d.links.nHeadKv.toNat) := by
        rw [Nat.succ_mul]
        omega
    _ ≤ d.links.nHeadKv.toNat * (d.links.nHead.toNat / d.links.nHeadKv.toNat) :=
        Nat.mul_le_mul_right _ hlt
    _ = d.links.nHead.toNat := hn.symm

namespace PhaseSite

variable {p : Nat × Nat} {parent : Option num.Partial} {children : Option (List num.Partial)}

/-- The anchor of a leaf is refused for its arithmetic only. -/
theorem ends_gqaAnchor (hp : PhaseSite m rec seq index ctx resp seed ll d caps path s o)
    (hbuilt : GqaBuilt m rec index d path o) (hhead : d.head < d.links.nHeadKv.toNat)
    (hdim : 0 < d.links.headDim.toNat) (hanchorV : d.links.v = d.links.k → o.anchorV = [])
    (hleaf : d.leaf path) (hnode : p ∈ s.tree.node path) (norms : GqaNorms)
    (krows vrows : List (List UInt8)) :
    Ends (· = .mismatch) (fun _ => True)
      (gqaAnchor h num (m.tierCtx index) ctx resp o s norms d.head p.1 p.2 krows vrows) := by
  have hps := hp.same.anchor p hnode
  have hlt := hp.drawn.anchor_lt hps
  have hle := mul_add_le (k := d.links.headDim.toNat) hhead
  have hshape := hp.answered.shape_nLeaves
  obtain ⟨root, hroot⟩ := exists_positionRoot hlt
  have hk := hbuilt.anchorK hleaf _ hps hlt
  rw [gqaAnchor, hp.same.links, hp.built.posRoot, hp.built.anchorPosPath hleaf _ hps]
  refine Ends.bind_ok (hk.anchorRoot hdim hroot hshape hp.nPos) ?_
  refine Ends.bind (hk.headFromChunks hroot hshape (Nat.le_refl _) (Nat.le_refl _) hle)
    fun kProj _ => ?_
  split
  · next hsame =>
    exact Ends.bind_ok (refuse_of_not (not_not.mpr (hanchorV hsame))) ends_mismatch
  · next hne =>
    refine Ends.bind ((hbuilt.anchorV hleaf hne _ hps hlt).headFromChunks hroot hshape
      (Nat.le_refl _) (Nat.le_refl _) hle) fun vProj _ => ?_
    exact ends_mismatch

/-- The query of the first phase or the last leads to the root of its position. -/
theorem queryRoot (hp : PhaseSite m rec seq index ctx resp seed ll d caps path s o)
    {n lo len : Nat} (hq : OutputChunks rec d.t d.links.q n lo len o.q) (hlen : 0 < len)
    (hquery : path = [] ∨ d.leaf path) {root : Hash} (hroot : PositionRoot rec d.t root) :
    anchorRoot h resp o.posRoot s.t (shapeAny (m.tierCtx index) ctx) (2 * s.a.q.toNat + 1) o.q
      (4 * n) o.posPath = .ok root := by
  rw [hp.same.links, hp.same.t, hp.built.posRoot, hp.built.posPath hquery]
  exact hq.anchorRoot hlen hroot hp.answered.shape_nLeaves hp.nPos

/-- The projection that the first phase opens, and its row in the output. -/
theorem gqa_output (hp : PhaseSite m rec seq index ctx resp seed ll d caps path s o)
    (hfits : GqaFits m index num d.links d.proj) (hmla : d.links.mlaRank = 0) (hpath : path = [])
    {root : Hash} (hroot : PositionRoot rec d.t root) :
    ∃ oe layout, openEntry h (m.tierCtx index) o.oEntry s.ll.proj.toNat = .ok oe ∧
      oe.k.toNat = d.links.nHead.toNat * d.links.headDim.toNat ∧
      Inference.outRoot h (m.tierCtx index) ctx resp o s s.ll.proj oe.wtype = .ok (layout, root) ∧
      o.out.bytes.length = xLen oe.k.toNat layout := by
  obtain ⟨hproj, hentry⟩ := hfits.output
  obtain ⟨oe, hoe⟩ := m.exists_entry hproj
  obtain ⟨hrole, hexp, hk⟩ := hentry oe hoe
  have hplain : oe.role ≠ roleHeads ∧ oe.role ≠ roleOutput := by
    rw [hrole]
    decide
  have hsame : s.ll.proj = d.proj := by
    rw [hp.same.proj, if_neg fun hne => hne.1 (by rw [hp.same.links]; exact hmla)]
  have hout := hp.length_out hpath hproj hoe (.inl hexp) hplain.2
  rw [rowHeads, if_neg hplain.1, Nat.one_mul] at hout
  rw [hsame]
  exact ⟨oe, _, openEntry_entryOpening hoe (hp.built.oEntry hpath), hk,
    hp.outRoot hpath hroot hproj oe.wtype, hout⟩

/-- The phase of a grouped-query layer that the miner opens is refused for its arithmetic only. -/
theorem ends_gqaPhase (hp : PhaseSite m rec seq index ctx resp seed ll d caps path s o)
    (hfits : GqaFits m index num d.links d.proj) (hmla : d.links.mlaRank = 0)
    (hdim : 0 < d.links.headDim.toNat) (hfields : o.absorb = [])
    (hanchorV : d.links.v = d.links.k → o.anchorV = []) (hnode : p ∈ s.tree.node path)
    (hparent : parent = none ↔ path = []) (hlast : children = none ↔ d.leaf path)
    (hquery : path = [] ∨ d.leaf path) :
    Ends (· = .mismatch) (fun _ => True)
      (gqaPhase h num (m.tierCtx index) ctx resp o s path parent children) := by
  obtain ⟨g, hg⟩ := Option.isSome_iff_exists.mp hfits.group
  obtain ⟨hhead, hqh, hgle⟩ := hp.drawn.gqa_heads hmla hg hfits.heads
  have hbuilt := hp.built.gqa hp.answered hfits hmla hp.drawn.t_lt
  have hshape := hp.answered.shape_nLeaves
  obtain ⟨hheads, hplans⟩ := hp.same.gqa (by rw [hp.same.links]; exact hmla) g
    (by rw [hp.same.links]; exact hg)
  obtain ⟨root, hroot⟩ := exists_positionRoot hp.drawn.t_lt
  obtain ⟨qe, hqe⟩ := m.exists_entry hfits.query.product
  have hwidth := hfits.width qe hqe
  obtain ⟨hkrows, hvrows, hmass⟩ := hp.spans (hplans p hnode) hgle
  rw [hheads] at hkrows hvrows hmass
  -- The query of one head, and where its gate is.
  have hq := hbuilt.q hquery
  have hone : d.links.headDim.toNat ≤ d.links.headDim.toNat * (1 + d.links.gated.toNat) :=
    Nat.le_mul_of_pos_right _ (Nat.add_pos_left Nat.one_pos _)
  have hall : d.qh * d.links.headDim.toNat * (1 + d.links.gated.toNat) +
      d.links.headDim.toNat * (1 + d.links.gated.toNat) ≤
        d.links.nHead.toNat * d.links.headDim.toNat * (1 + d.links.gated.toNat) := by
    have hle := mul_add_le (k := d.links.headDim.toNat * (1 + d.links.gated.toNat)) hqh
    rwa [← Nat.mul_assoc, ← Nat.mul_assoc] at hle
  have hqroot := hp.queryRoot hq (Nat.lt_of_lt_of_le hdim hone) hquery hroot
  rw [hp.same.links] at hkrows hvrows hqroot
  rw [gqaPhase]
  dsimp only
  rw [hp.same.links]
  refine Ends.bind_ok (refuse_of_not (not_not.mpr ⟨hfits.links.1, hfits.links.2, hfields⟩)) ?_
  refine Ends.bind_ok (orFail_eq_ok.mpr hg) ?_
  rw [hheads]
  refine Ends.bind_ok (openEntry_entryOpening hqe (hp.built.qEntry hquery)) ?_
  refine Ends.bind_ok (refuse_of_not (not_not.mpr hwidth)) ?_
  rw [hwidth]
  by_cases hpath : path = []
  · obtain ⟨oe, layout, hoe, hk, hlayout, hout⟩ := hp.gqa_output hfits hmla hpath hroot
    obtain ⟨mass, hmass⟩ := hmass hpath
    rw [if_pos hpath]
    refine Ends.bind_ok hoe (Ends.bind_ok (refuse_of_not (not_not.mpr hk)) ?_)
    refine Ends.bind_ok hlayout (Ends.bind_ok (refuse_of_not (not_not.mpr hout)) ?_)
    refine Ends.bind_ok rfl ?_
    cases children with
    | some ch =>
      dsimp only
      split
      · next hgated =>
        have htwo := Nat.mul_le_mul_left d.links.headDim.toNat (Nat.succ_le_of_lt hgated)
        refine Ends.bind (P := fun _ => True) (ends_map (hq.headFromChunks hroot hshape
          (Nat.le_add_right _ _) (by omega) hall) fun _ => trivial) fun gate _ => ?_
        exact Ends.bind_ok hmass ends_mismatch
      · exact Ends.bind_ok rfl (Ends.bind_ok hmass ends_mismatch)
    | none =>
      have hleaf := hlast.mp rfl
      obtain rfl := hparent.mpr hpath
      obtain ⟨krows, hkrows⟩ := hkrows hleaf
      obtain ⟨vrows, hvrows⟩ := hvrows hleaf hmla
      obtain ⟨norms, hnorms, hfreqs⟩ :=
        exists_gqaNorms hp.answered.indexed hfits (hbuilt.norms hleaf)
      refine Ends.bind_ok hnorms (Ends.bind_ok (refuse_of_not hfreqs) ?_)
      refine Ends.bind_ok (orFail_eq_ok.mpr hnode) ?_
      refine Ends.bind_ok hkrows (Ends.bind_ok hvrows ?_)
      refine Ends.bind (hq.headFromChunks hroot hshape (Nat.le_refl _) (Nat.le_refl _) hall)
        fun raw _ => ?_
      refine Ends.bind_ok hmass (Ends.bind ends_mismatch fun _ _ => ?_)
      exact hp.ends_gqaAnchor hbuilt hhead hdim hanchorV hleaf hnode norms krows vrows
  · have hleaf := hquery.resolve_left hpath
    obtain rfl := hlast.mpr hleaf
    obtain ⟨krows, hkrows⟩ := hkrows hleaf
    obtain ⟨vrows, hvrows⟩ := hvrows hleaf hmla
    obtain ⟨norms, hnorms, hfreqs⟩ :=
      exists_gqaNorms hp.answered.indexed hfits (hbuilt.norms hleaf)
    obtain ⟨claimed, rfl⟩ := Option.ne_none_iff_exists'.mp fun hnone => hpath (hparent.mp hnone)
    rw [if_neg hpath]
    refine Ends.bind_ok hqroot (Ends.bind_ok rfl ?_)
    refine Ends.bind_ok hnorms (Ends.bind_ok (refuse_of_not hfreqs) ?_)
    refine Ends.bind_ok (orFail_eq_ok.mpr hnode) ?_
    refine Ends.bind_ok hkrows (Ends.bind_ok hvrows (Ends.bind_ok hqroot ?_))
    refine Ends.bind (hq.headFromChunks hroot hshape (Nat.le_refl _) (Nat.add_le_add_left hone _)
      hall) fun raw _ => Ends.bind ends_mismatch fun _ _ => ?_
    exact hp.ends_gqaAnchor hbuilt hhead hdim hanchorV hleaf hnode norms krows vrows

end PhaseSite

/-! ## Latent-cache layers -/

/-- What the entries and weights of the model are for the checks of a latent-cache layer. -/
structure MlaFits (m : TierManifest h) (a : AttnLinks) (proj : UInt32) : Prop where
  rank : a.mlaRank.toNat < a.headDim.toNat ∧ a.mlaRank.toNat % 32 = 0
  kind : a.nHeadKv = 1 ∧ a.nRot = 0 ∧ a.swaWindow = 0 ∧ a.gated = 0 ∧ a.vNorm = 0 ∧
    a.qNorm = noneIndex ∧ a.ropeFreqs = noneIndex
  links : a.v = noneIndex ∧ a.kNorm ≠ noneIndex ∧ a.absorb ≠ noneIndex ∧ a.nHead ≠ 0
  query : a.q.toNat < m.np ∧ ∀ e ∈ m.entry a.q.toNat, Outputs m a.q e.m.toNat ∧
    e.m.toNat % a.nHead.toNat = 0 ∧ a.headDim.toNat - a.mlaRank.toNat < e.m.toNat / a.nHead.toNat
  latent : Outputs m a.absorb (a.nHead.toNat * a.mlaRank.toNat)
  keys : Outputs m a.k a.headDim.toNat
  output : proj.toNat < m.np ∧ ∀ e ∈ m.entry proj.toNat,
    e.role = roleHeads ∧ e.nExp = a.nHead ∧ e.k.toNat = a.mlaRank.toNat
  norm : NormEntry m a.kNorm a.mlaRank.toNat

/-- The activations and weights of a latent-cache opening, whose query has `qm` values. -/
structure MlaBuilt (m : TierManifest h) (rec : TraceRecord h) (index : Pom.WeightIndex)
    (d : AttnDraw) (path : List UInt64) (o : AttnOpening) (qm : Nat) : Prop where
  q : OutputChunks rec d.t d.links.q qm (d.head * (qm / d.links.nHead.toNat) +
      (qm / d.links.nHead.toNat - (d.links.headDim.toNat - d.links.mlaRank.toNat)))
    (d.links.headDim.toNat - d.links.mlaRank.toNat) o.q
  absorb : OutputChunks rec d.t d.links.absorb (d.links.nHead.toNat * d.links.mlaRank.toNat)
    (d.head * d.links.mlaRank.toNat) d.links.mlaRank.toNat o.absorb
  anchorK : ∀ ps ∈ d.anchor path, ps < rec.nPos.toNat → OutputChunks rec ps d.links.k
    d.links.headDim.toNat 0 d.links.headDim.toNat o.anchorK
  norms : ∃ w, o.norms = [w] ∧
    bytesRange m index d.links.kNorm.toNat 0 (4 * d.links.mlaRank.toNat) = some w

theorem BuiltAttn.mla (hb : BuiltAttn m rec seq index d caps path o)
    (ha : Answered m rec seq index ctx caps) (hfits : MlaFits m d.links d.proj)
    (hmla : d.links.mlaRank ≠ 0) (ht : d.t < rec.nPos.toNat) (hleaf : d.leaf path) {qe : Entry}
    (hqe : m.entry d.links.q.toNat = some qe) : MlaBuilt m rec index d path o qe.m.toNat := by
  obtain ⟨ps, qBytes, hqBytes, qe', hqe', parts, hps, hparts, hq, hparts'⟩ := hb.parts
  obtain rfl := Option.some.inj (hqe'.symm.trans hqe)
  rw [attnParts, if_pos (UInt32.pos_iff_ne_zero.mpr hmla)] at hparts
  simp only [mlaParts, bind_eq_ok, orFail_eq_ok] at hparts
  obtain ⟨q, hchunks, latent, hlatent, absorb, habsorb, anchorK, hk, norm, hnorm, hparts⟩ := hparts
  cases hparts
  have hsame := hparts' hleaf
  refine ⟨?_, ?_, fun ps' hps' hlt => ?_, norm, ?_, hnorm⟩
  · rw [hq (.inr hleaf)]
    exact ha.outputChunks ht (hfits.query.2 _ hqe).1 hqBytes hchunks
  · rw [show o.absorb = absorb from (congrArg AttnParts.absorb hsame).symm]
    exact ha.outputChunks ht hfits.latent hlatent habsorb
  · obtain rfl := (hps hleaf).trans hps'
    simp only [anchorChunks, bind_eq_ok, orFail_eq_ok] at hk
    obtain ⟨bytes, hbytes, hk⟩ := hk
    rw [show o.anchorK = anchorK from (congrArg AttnParts.anchorK hsame).symm]
    exact ha.outputChunks hlt hfits.keys hbytes hk
  · exact (congrArg AttnParts.norms hsame).symm

namespace PhaseSite

variable {p : Nat × Nat} {parent : Option num.Partial} {children : Option (List num.Partial)}

/-- The query of a leaf. -/
theorem ends_mlaQueryOf (hp : PhaseSite m rec seq index ctx resp seed ll d caps path s o)
    (hfits : MlaFits m d.links d.proj) (hhead : s.mlaHead = d.head)
    (hlt : d.head < d.links.nHead.toNat) (hleaf : d.leaf path) {qe : Entry}
    (hqe : m.entry d.links.q.toNat = some qe) (hbuilt : MlaBuilt m rec index d path o qe.m.toNat) :
    Ends (· = .mismatch) (fun _ => True)
      (mlaQueryOf h num (m.tierCtx index) ctx resp o s qe.m.toNat) := by
  obtain ⟨root, hroot⟩ := exists_positionRoot hp.drawn.t_lt
  obtain ⟨-, hmod, hwidth⟩ := hfits.query.2 _ hqe
  have hshape := hp.answered.shape_nLeaves
  have hrope := hfits.rank.1
  have hqroot := hp.queryRoot hbuilt.q (by omega) (.inr hleaf) hroot
  have hle := mul_add_le (k := qe.m.toNat / d.links.nHead.toNat) hlt
  rw [Nat.mul_div_cancel' (Nat.dvd_of_mod_eq_zero hmod)] at hle
  rw [hp.same.links] at hqroot
  rw [mlaQueryOf, hp.same.links, hhead]
  refine Ends.bind_ok hqroot ?_
  refine Ends.bind (hbuilt.absorb.headFromChunks hroot hshape (Nat.le_refl _) (Nat.le_refl _)
    (mul_add_le hlt)) fun latent _ => ?_
  refine Ends.bind (hbuilt.q.headFromChunks hroot hshape (Nat.le_refl _) (Nat.le_refl _) ?_)
    fun part _ => Ends.pure trivial
  omega

/-- The output row of the drawn head. -/
theorem ends_mlaOutput (hp : PhaseSite m rec seq index ctx resp seed ll d caps path s o)
    (hfits : MlaFits m d.links d.proj) (hmla : d.links.mlaRank ≠ 0) (hpath : path = []) :
    Ends (· = .mismatch) (fun _ => True) (mlaOutput h (m.tierCtx index) ctx resp o s) := by
  obtain ⟨root, hroot⟩ := exists_positionRoot hp.drawn.t_lt
  obtain ⟨hproj, hentry⟩ := hfits.output
  obtain ⟨oe, hoe⟩ := m.exists_entry hproj
  obtain ⟨hrole, hexp, hk⟩ := hentry oe hoe
  have hplain : oe.role ≠ roleOutput := by
    rw [hrole]
    decide
  have hout := hp.length_out hpath hproj hoe (.inr hrole) hplain
  rw [rowHeads, if_pos hrole, hexp] at hout
  have hrank : (if d.links.out = noneIndex then s.ll.proj else d.links.out) = d.proj := by
    rw [hp.same.proj, hp.same.links]
    split
    · next hnone => rw [if_neg fun hne => hne.2 hnone]
    · next hsome => rw [if_pos ⟨hmla, hsome⟩]
  rw [mlaOutput, hp.same.links]
  dsimp only
  rw [hrank]
  refine Ends.bind_ok (openEntry_entryOpening hoe (hp.built.oEntry hpath)) ?_
  refine Ends.bind_ok (refuse_of_not (by simp [hk, hexp, hrole])) ?_
  refine Ends.bind_ok (hp.outRoot hpath hroot hproj oe.wtype) ?_
  exact Ends.bind_ok (refuse_of_not (not_not.mpr hout)) trivial

theorem mla_head (hp : PhaseSite m rec seq index ctx resp seed ll d caps path s o)
    (hfits : MlaFits m d.links d.proj) (hmla : d.links.mlaRank ≠ 0) :
    s.mlaHead = d.head ∧ d.head < d.links.nHead.toNat := by
  obtain ⟨hhead, -, -⟩ := hp.same.mla (by rw [hp.same.links]; exact hmla)
  refine ⟨hhead, ?_⟩
  rw [← hhead, AttnSite.mlaHead, hp.same.links]
  exact Nat.mod_lt _ (UInt32.pos_iff_ne_zero.mpr hfits.links.2.2.2)

/-- The leaf of a latent cache is refused for its arithmetic only. -/
theorem ends_mlaLeaf (hp : PhaseSite m rec seq index ctx resp seed ll d caps path s o)
    (hfits : MlaFits m d.links d.proj) (hmla : d.links.mlaRank ≠ 0) (hnode : p ∈ s.tree.node path)
    (hleaf : d.leaf path) (hparent : parent = none ↔ path = [])
    {out : Option (List UInt8 × UInt8)} (hout : path = [] → out ≠ none) {qe : Entry}
    (hqe : m.entry d.links.q.toNat = some qe) :
    Ends (· = .mismatch) (fun _ => True)
      (mlaLeaf h num (m.tierCtx index) ctx resp o s path qe.m.toNat parent out) := by
  obtain ⟨hhead, hlt⟩ := hp.mla_head hfits hmla
  have hbuilt := hp.built.mla hp.answered hfits hmla hp.drawn.t_lt hleaf hqe
  obtain ⟨w, hnorms, hw⟩ := hbuilt.norms
  obtain ⟨-, -, hplans⟩ := hp.same.mla (by rw [hp.same.links]; exact hmla)
  obtain ⟨hkrows, -, hmass⟩ := hp.spans (hplans p hnode) (by rw [hp.same.links])
  obtain ⟨rows, hrows⟩ := hkrows hleaf
  have hps := hp.same.anchor p hnode
  have hanchor := hp.drawn.anchor_lt hps
  obtain ⟨root, hroot⟩ := exists_positionRoot hanchor
  have hk := hbuilt.anchorK _ hps hanchor
  have hshape := hp.answered.shape_nLeaves
  have hdim : 0 < d.links.headDim.toNat := Nat.zero_lt_of_lt hfits.rank.1
  have hkroot := hk.anchorRoot hdim hroot hshape hp.nPos
  have hkey : ∀ f : List UInt8 → Except Fail Unit, (∀ key, Ends (· = .mismatch) (fun _ => True)
      (f key)) → Ends (· = .mismatch) (fun _ => True) (do
        let root ← anchorRoot h resp o.posRoot (s.anchor p.1 p.2)
          (shapeAny (m.tierCtx index) ctx) (2 * d.links.k.toNat + 1) o.anchorK
          (4 * d.links.headDim.toNat) o.anchorPosPath
        f (← headFromChunks h num root (shapeAny (m.tierCtx index) ctx)
          (2 * d.links.k.toNat + 1) o.anchorK (4 * d.links.headDim.toNat) 0
          d.links.headDim.toNat)) := by
    intro f hf
    rw [hp.built.posRoot, hp.built.anchorPosPath hleaf _ hps]
    refine Ends.bind_ok hkroot (Ends.bind (P := fun _ => True) ?_ fun key _ => hf key)
    exact hk.headFromChunks hroot hshape (Nat.le_refl _) (Nat.le_refl _) (by omega)
  rw [hp.same.links] at hrows hmass
  rw [mlaLeaf, hp.same.links, hnorms]
  dsimp only
  refine Ends.bind_ok (f32Weights_bytesRange hp.answered.indexed hfits.norm (by omega) hw) ?_
  refine Ends.bind (hp.ends_mlaQueryOf hfits hhead hlt hleaf hqe hbuilt) fun q _ => ?_
  refine Ends.bind_ok (orFail_eq_ok.mpr hnode) (Ends.bind_ok hrows ?_)
  cases parent with
  | some claimed => exact Ends.bind ends_mismatch fun _ _ => hkey _ fun _ => ends_mismatch
  | none =>
    have hpath := hparent.mp rfl
    obtain ⟨⟨x, layout⟩, rfl⟩ := Option.ne_none_iff_exists'.mp (hout hpath)
    obtain ⟨mass, hmass⟩ := hmass hpath
    refine Ends.bind_ok hmass (Ends.bind ends_mismatch fun _ _ => ?_)
    exact hkey _ fun _ => ends_mismatch

/-- The phase of a latent-cache layer that the miner opens is refused for its arithmetic only. -/
theorem ends_mlaPhase (hp : PhaseSite m rec seq index ctx resp seed ll d caps path s o)
    (hfits : MlaFits m d.links d.proj) (hmla : d.links.mlaRank ≠ 0) (hfields : MlaFields o)
    (hnode : p ∈ s.tree.node path) (hparent : parent = none ↔ path = [])
    (hlast : children = none ↔ d.leaf path) (hquery : path = [] ∨ d.leaf path) :
    Ends (· = .mismatch) (fun _ => True)
      (mlaPhase h num (m.tierCtx index) ctx resp o s path parent children) := by
  obtain ⟨hq, hentry⟩ := hfits.query
  obtain ⟨qe, hqe⟩ := m.exists_entry hq
  obtain ⟨-, hmod, hwidth⟩ := hentry qe hqe
  have hrank := hfits.rank
  obtain ⟨hkv, hrot, hswa, hgated, hvNorm, hqNorm, hfreqs⟩ := hfits.kind
  obtain ⟨hv, hkNorm, habsorb, hheads⟩ := hfits.links
  obtain ⟨-, -, hplans⟩ := hp.same.mla (by rw [hp.same.links]; exact hmla)
  obtain ⟨-, -, hmass⟩ := hp.spans (hplans p hnode) (by rw [hp.same.links])
  rw [mlaPhase, hp.same.links]
  refine Ends.bind_ok (refuse_of_not (by omega)) ?_
  refine Ends.bind_ok
    (refuse_of_not (by simp [hkv, hrot, hswa, hgated, hvNorm, hqNorm, hfreqs])) ?_
  refine Ends.bind_ok (refuse_of_not (by simp [hv, hkNorm, habsorb, hheads])) ?_
  refine Ends.bind_ok (openEntry_entryOpening hqe (hp.built.qEntry hquery)) ?_
  refine Ends.bind_ok (refuse_of_not (by omega)) ?_
  refine Ends.bind_ok (refuse_of_not (not_not.mpr hfields)) ?_
  by_cases hpath : path = []
  · obtain ⟨mass, hmass⟩ := hmass hpath
    rw [hp.same.links] at hmass
    rw [if_pos hpath]
    refine Ends.bind (P := (· ≠ none)) (ends_map (hp.ends_mlaOutput hfits hmla hpath)
      Option.some_ne_none) fun out hout => ?_
    cases children with
    | some ch =>
      obtain ⟨⟨x, layout⟩, rfl⟩ := Option.ne_none_iff_exists'.mp hout
      exact Ends.bind_ok rfl (Ends.bind_ok hmass ends_mismatch)
    | none =>
      exact hp.ends_mlaLeaf hfits hmla hnode (hlast.mp rfl) hparent (fun _ => hout) hqe
  · have hleaf := hquery.resolve_left hpath
    obtain rfl := hlast.mpr hleaf
    rw [if_neg hpath]
    exact Ends.bind_ok rfl (hp.ends_mlaLeaf hfits hmla hnode hleaf hparent
      (fun hfirst => absurd hfirst hpath) hqe)

end PhaseSite

end KeryxMiner.Replay
