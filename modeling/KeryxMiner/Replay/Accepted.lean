import KeryxMiner.Replay.ChainOpening
import KeryxMiner.Replay.Site

/-!
# Points of the miner before the verifier

The opening that `build_point` makes of a drawn point passes every check of `verify_point_at` but
those of the arithmetic: behind the draw, the input, the output and the rows open too.
-/

namespace KeryxMiner.Replay

open Inference Manifest
open Openings hiding Hash

variable {h : Blake3} {m : TierManifest h} {index : Pom.WeightIndex} {rec : TraceRecord h}
  {shape : Nat → PosShape} {p : PointSpec} {e g : Entry} {o : Point} {ids : Option ExpertIds}
  {nPrompt nPos : UInt32} {seed : Hash} {j : UInt32} {exp : Nat} {x y : List UInt8} {r : ChunkRange}

/-! ## The opening -/

/-- What the opening `o` of `p` is made of. -/
structure Opens (m : TierManifest h) (rec : TraceRecord h) (index : Pom.WeightIndex) (p : PointSpec)
    (g : Entry) (x y : List UInt8) (exp : Nat) (o : Point) : Prop where
  expert : pointExpert rec p g y = some exp
  rows : pointRows m index p g exp = some (o.rows, o.partner)
  bias : pointBias m index p g = some o.bias
  yChunk : chunkWithPath h y ((p.slot * g.mOut + p.row) * 4 / b3Chunk) =
    some (o.yChunk, o.yChunkPath)
  nUbatch : rec.ubatch[p.t]? = some o.nUbatch
  entry : m.entryOpening p.rank = some o.entry
  input : o.x = x
  xPath : o.xPath = b3Path h.toMerges (rec.leavesAt p.t) p.leafX.toNat
  yTotalLen : o.yTotalLen = UInt32.ofNat y.length
  yChunkIndex : o.yChunkIndex = UInt32.ofNat ((p.slot * g.mOut + p.row) * 4 / b3Chunk)
  yPath : o.yPath = b3Path h.toMerges (rec.leavesAt p.t) p.leafY.toNat
  posPath : o.posPath = rec.posPath p.t
  metaPath : o.metaPath = b3Path h.toMerges (rec.leavesAt p.t) (rec.nLeaves - 1)

theorem opens_of_buildPoint (hg : m.entry p.gRank = some g)
    (ho : buildPoint m rec p x y index = some o) : ∃ exp, Opens m rec index p g x y exp o := by
  simp only [buildPoint, Option.bind_eq_bind, Option.bind_eq_some_iff] at ho
  obtain ⟨g', hg', exp, hexp, ⟨rows, partner⟩, hrows, bias, hbias, ho⟩ := ho
  rw [hg] at hg'
  cases hg'
  simp only at ho
  obtain ⟨⟨yChunk, yChunkPath⟩, hchunk, nUbatch, hubatch, entry, hentry, ho⟩ := ho
  cases ho
  exact ⟨exp, hexp, hrows, hbias, hchunk, hubatch, hentry, rfl, rfl, rfl, rfl, rfl, rfl, rfl⟩

/-- The leaves of a product are numbered by it. -/
theorem Drawn.leaf_toNat (hm : WellFormed m) (hd : Drawn m nPrompt nPos seed j p e g) :
    p.leafX.toNat = 2 * p.gRank ∧ p.leafY.toNat = 2 * p.gRank + 1 := by
  have hlt : p.gRank < m.np := by
    rw [hd.gRank]
    split
    · next hup => exact ((hm.products p.rank hd.rank_lt e hd.first).partner (.inr hup)).1
    · exact hd.rank_lt
  have hle := hm.products_le
  have htwo : (2 : UInt32).toNat = 2 := rfl
  have hone : (1 : UInt32).toNat = 1 := rfl
  have hrank : (UInt32.ofNat p.gRank).toNat = p.gRank :=
    UInt32.toNat_ofNat_of_lt' (Nat.lt_of_lt_of_le (Nat.lt_of_lt_of_le hlt hle) (by decide))
  rw [PointSpec.leafX, PointSpec.leafY, UInt32.toNat_add, UInt32.toNat_mul, hrank, htwo, hone]
  omega

/-- The failures that are not about the structure of an opening. -/
def Numeric (f : Fail) : Prop := f = .unsupported ∨ f = .mismatch

/-- The input has one row, or one for every slot. -/
def InputFits (m : TierManifest h) (rec : TraceRecord h) (p : PointSpec) (x : List UInt8) : Prop :=
  ∀ e ∈ m.entry p.rank, ∀ g ∈ m.entry p.gRank, ∀ nUbatch ∈ rec.ubatch[p.t]?,
    let xOne := xLen g.k.toNat (inputLayout e.role nUbatch g.wtype)
    x.length = xOne ∨ (1 < p.nUsed ∧ x.length = p.nUsed * xOne)

variable {posRoot : Hash}

theorem ends_openInput (hm : WellFormed m) (hrec : Recorded m rec shape)
    (hd : Drawn m nPrompt rec.nPos seed j p e g) (ho : Opens m rec index p g x y exp o)
    (hx : (rec.leavesAt p.t)[p.leafX.toNat]? = some (blake3 h x))
    (hfits : InputFits m rec p x)
    (hverify : b3Verify h.toMerges rec.traceRoot rec.nPos.toNat p.t posRoot (rec.posPath p.t) = true)
    (hleaf : ∀ i leaf, (rec.leavesAt p.t)[i]? = some leaf →
      b3Fold h.toMerges rec.nLeaves i leaf (b3Path h.toMerges (rec.leavesAt p.t) i) =
        some posRoot) :
    Ends Numeric (fun r => r.2.2 = posRoot)
      (openInput h rec.responseCtx (shape p.t) (p.site m e g) o) := by
  obtain ⟨hnLeaves, hmeta⟩ := @Recorded.shape_nLeaves _ _ _ p.t _ hrec
  have hmetaLeaf := hrec.metaLeaf hd.t_lt
  have hubatch : rec.ubatch.getD p.t 0 = o.nUbatch := by
    rw [List.getD_eq_getElem?_getD, ho.nUbatch, Option.getD_some]
  rw [hubatch] at hmetaLeaf
  rw [openInput]
  refine Ends.bind_ok (refuse_of_not ?_) ?_
  · rw [ho.input]
    rintro ⟨hone, hmany⟩
    rcases hfits e hd.first g hd.gate _ ho.nUbatch with hfits | hfits
    · exact hone hfits
    · exact hmany hfits
  have hfold : b3Fold h.toMerges (shape p.t).nLeaves (2 * p.gRank) (blake3 h o.x) o.xPath =
      some posRoot := by
    rw [ho.input, ho.xPath, hnLeaves, ← (hd.leaf_toNat hm).1]
    exact hleaf _ _ hx
  refine Ends.bind_ok (orFail_eq_ok.mpr hfold) ?_
  refine Ends.bind_ok (refuse_of_not ?_) ?_
  · rw [ho.posPath]
    exact fun hfalse => Bool.noConfusion (hverify.symm.trans hfalse)
  refine Ends.bind (ends_refuse fun _ => .inr rfl) fun _ _ => ?_
  refine Ends.bind_ok (refuse_of_not ?_) rfl
  · rw [ho.metaPath, hnLeaves, hmeta, b3Verify, PointSpec.site, hleaf _ _ hmetaLeaf]
    simp

/-- The output of a point is as long as its slots with their expert ids. -/
theorem length_of_pointExpert (hexp : pointExpert rec p g y = some exp) :
    y.length = p.nUsed * g.mOut * 4 + (if p.experts then 4 * p.nUsed else 0) ∧
      exp < g.nExp.toNat ∧
      exp = if p.experts then ofLe ((y.drop (p.nUsed * g.mOut * 4 + 4 * p.slot)).take 4)
        else if 1 < p.nUsed then p.slot else 0 := by
  simp only [pointExpert, Option.ite_none_left_eq_some, Option.some.injEq, not_or, not_not]
    at hexp
  obtain ⟨⟨hlen, -⟩, hlt, rfl⟩ := hexp
  exact ⟨hlen, Nat.lt_of_not_le hlt, rfl⟩

/-- The chunk of a path has what of the bytes is there. -/
theorem chunkWithPath_eq_some {b chunk : List UInt8} {c : Nat} {path : List Hash}
    (hlen : b.length < 2 ^ 64) (hchunk : chunkWithPath h b c = some (chunk, path)) :
    chunk = chunkBytes b c 1 ∧ b3LeafFromChunk h b.length c chunk path = some (blake3 h b) := by
  have hchunk' := hchunk
  simp only [chunkWithPath, Option.ite_none_left_eq_some, Option.some.injEq, Prod.mk.injEq]
    at hchunk'
  obtain ⟨hc, hbytes, -⟩ := hchunk'
  obtain ⟨chunk', path', hpath, hleaf⟩ :=
    @b3LeafFromChunk_chunkWithPath h b c hlen (Nat.lt_of_not_le hc)
  rw [hchunk] at hpath
  cases hpath
  exact ⟨hbytes.symm, hleaf⟩

theorem expertIds_eq_some {nUsed : Nat} {ids : ExpertIds} (hids : expertIds h y nUsed = some ids) :
    (y.length - 4 * nUsed) % b3Chunk = 0 ∧
      chunkWithPath h y ((y.length - 4 * nUsed) / b3Chunk) = some (ids.chunk, ids.chunkPath) := by
  simp only [expertIds, Option.ite_none_left_eq_some, not_not] at hids
  obtain ⟨-, hmod, hids⟩ := hids
  refine ⟨hmod, ?_⟩
  split at hids
  · cases hids
  · next hchunk =>
    cases hids
    exact hchunk

/-- The ids of the experts of an output are in one chunk. -/
theorem Drawn.nUsed_le (hm : WellFormed m) (hd : Drawn m nPrompt nPos seed j p e g)
    (hexp : p.experts = true) : p.nUsed ≤ 256 := by
  have hused := hd.used
  rw [hd.experts] at hexp
  simp only [Bool.and_eq_true, Bool.not_eq_true', decide_eq_true_eq, decide_eq_false_iff_not] at hexp
  simp only [usedRows, Option.ite_none_left_eq_some] at hused
  rw [if_pos (by simpa using hexp), Option.map_eq_some_iff] at hused
  obtain ⟨-, ctx, hctx, hused⟩ := hused
  exact hused ▸ hm.nUsed ctx hctx

/-- The id of a slot behind an output. -/
theorem take_drop_chunkBytes {body slot : Nat} (hmod : body % b3Chunk = 0) (hslot : slot < 256) :
    ((chunkBytes y (body / b3Chunk) 1).drop (4 * slot)).take 4 = (y.drop (body + 4 * slot)).take 4 := by
  have hbody : body / b3Chunk * b3Chunk = body := Nat.div_mul_cancel (Nat.dvd_of_mod_eq_zero hmod)
  rw [chunkBytes, hbody, List.drop_take, List.drop_drop, List.take_take]
  congr 1
  rw [b3Chunk]
  omega

theorem openOutput_built (hm : WellFormed m) (hrec : Recorded m rec shape)
    (hd : Drawn m nPrompt rec.nPos seed j p e g) (ho : Opens m rec index p g x y exp o)
    (hy : (rec.leavesAt p.t)[p.leafY.toNat]? = some (blake3 h y)) (hlen : y.length < 2 ^ 32)
    (hids : pointIds h p y = some ids)
    (hleaf : ∀ i leaf, (rec.leavesAt p.t)[i]? = some leaf →
      b3Fold h.toMerges rec.nLeaves i leaf (b3Path h.toMerges (rec.leavesAt p.t) i) =
        some posRoot) :
    openOutput h (shape p.t) (p.site m e g) o posRoot ids =
      .ok ((o.yChunk.drop ((p.slot * g.mOut + p.row) * 4 % b3Chunk)).take 4, exp) := by
  obtain ⟨hnLeaves, -⟩ := @Recorded.shape_nLeaves _ _ _ p.t _ hrec
  obtain ⟨hyLen, hlt, hexp⟩ := length_of_pointExpert ho.expert
  have hlen' : y.length < 2 ^ 64 := Nat.lt_trans hlen (by decide)
  have hslot := hd.slot_lt
  have hrow := hd.row_lt
  have hbody : p.slot * g.mOut + p.row < p.nUsed * g.mOut := by
    calc p.slot * g.mOut + p.row < p.slot * g.mOut + g.mOut := by omega
      _ = (p.slot + 1) * g.mOut := by rw [Nat.succ_mul]
      _ ≤ p.nUsed * g.mOut := Nat.mul_le_mul_right _ hslot
  have htotal : o.yTotalLen.toNat = y.length := by
    rw [ho.yTotalLen]
    exact UInt32.toNat_ofNat_of_lt' hlen
  have hindex : o.yChunkIndex.toNat = (p.slot * g.mOut + p.row) * 4 / b3Chunk := by
    rw [ho.yChunkIndex]
    apply UInt32.toNat_ofNat_of_lt'
    refine Nat.lt_of_le_of_lt (Nat.div_le_self _ _) (Nat.lt_of_lt_of_le ?_ hlen.le)
    rw [hyLen]
    omega
  obtain ⟨-, hyLeaf⟩ := chunkWithPath_eq_some hlen' ho.yChunk
  have hyFold : b3Fold h.toMerges (shape p.t).nLeaves (2 * p.gRank + 1) (blake3 h y) o.yPath =
      some posRoot := by
    rw [ho.yPath, hnLeaves, ← (hd.leaf_toNat hm).2]
    exact hleaf _ _ hy
  have hverify : b3Verify h.toMerges posRoot (shape p.t).nLeaves (2 * p.gRank + 1) (blake3 h y)
      o.yPath = true := by
    rw [b3Verify, hyFold, beq_self_eq_true]
  have hyLeaf' : b3LeafFromChunk h o.yTotalLen.toNat o.yChunkIndex.toNat o.yChunk o.yChunkPath =
      some (blake3 h y) := by
    rw [htotal, hindex]
    exact hyLeaf
  have hmod : p.experts = true → p.nUsed * g.mOut * 4 % b3Chunk = 0 := by
    intro hexperts
    rw [pointIds, if_pos hexperts, Option.map_eq_some_iff] at hids
    obtain ⟨ids, hids, -⟩ := hids
    have hmod := (expertIds_eq_some hids).1
    rwa [hyLen, if_pos hexperts, Nat.add_sub_cancel] at hmod
  rw [openOutput]
  refine bind_eq_ok.mpr ⟨(), refuse_of_not fun hbad => hbad.2 (hmod hbad.1), ?_⟩
  refine bind_eq_ok.mpr ⟨(), refuse_of_not ?_, ?_⟩
  · rw [htotal, hindex, hyLen]
    rintro (hne | hne)
    · exact hne rfl
    · exact hne rfl
  refine bind_eq_ok.mpr ⟨blake3 h y, orFail_eq_ok.mpr hyLeaf', ?_⟩
  refine bind_eq_ok.mpr ⟨(), refuse_of_not fun hfalse => Bool.noConfusion (hverify.symm.trans hfalse), ?_⟩
  rw [pointIds] at hids
  by_cases hexperts : p.experts = true
  · rw [if_pos hexperts, Option.map_eq_some_iff] at hids
    obtain ⟨idChunk, hids, rfl⟩ := hids
    rw [if_pos hexperts] at hexp hyLen
    have hmany := hd.nUsed_le hm hexperts
    obtain ⟨-, hchunk⟩ := expertIds_eq_some hids
    rw [hyLen, Nat.add_sub_cancel] at hchunk
    obtain ⟨hbytes, hidLeaf⟩ := chunkWithPath_eq_some hlen' hchunk
    have hid : ofLe ((idChunk.chunk.drop (4 * p.slot)).take 4) = exp := by
      rw [hbytes, take_drop_chunkBytes (hmod hexperts) (by omega), hexp]
    have hlength : ¬ idChunk.chunk.length < 4 * p.slot + 4 := by
      have hbody : p.nUsed * g.mOut * 4 / b3Chunk * b3Chunk = p.nUsed * g.mOut * 4 :=
        Nat.div_mul_cancel (Nat.dvd_of_mod_eq_zero (hmod hexperts))
      rw [hbytes, length_chunkBytes, hbody, hyLen, b3Chunk]
      omega
    refine bind_eq_ok.mpr ⟨(), refuse_of_not ?_, bind_eq_ok.mpr ⟨(), refuse_of_not hlength, ?_⟩⟩
    · rw [not_not, ← hidLeaf, hyLen]
      simp [hexperts]
    have hknown : ¬ g.nExp.toNat ≤ ofLe ((idChunk.chunk.drop (4 * p.slot)).take 4) := by
      rw [hid]
      exact Nat.not_le_of_lt hlt
    refine bind_eq_ok.mpr ⟨(), refuse_of_not hknown, ?_⟩
    rw [PointSpec.site, hid]
    rfl
  · rw [if_neg hexperts] at hids hexp
    cases hids
    have hslot : p.slot = exp := by
      rw [hexp]
      split
      · rfl
      · next hfew => exact hd.slot.trans (if_neg hfew)
    rw [← hslot]
    rfl

/-- The gate is a well-formed product itself. -/
theorem Drawn.gate_wf (hm : WellFormed m) (hd : Drawn m nPrompt nPos seed j p e g) :
    WellFormedProduct m p.gRank g := by
  have hlt : p.gRank < m.np := by
    rw [hd.gRank]
    split
    · next hup => exact ((hm.products p.rank hd.rank_lt e hd.first).partner (.inr hup)).1
    · exact hd.rank_lt
  exact hm.products p.gRank hlt g hd.gate

theorem ends_dotRow {num : Numerics} {row : Nat} {layout : UInt8} {k : Nat}
    (hindex : Indexed h index) (hrow : 0 < e.rowBytes.toNat)
    (hr : rowRange (h := h) index e exp row = some r) :
    Ends Numeric (fun _ => True) (do
      let bytes ← openExpertRow h (m.tierCtx index) e r exp row
      orFail (num.canonicalDot e.wtype bytes k x layout) .unsupported) := by
  obtain ⟨bytes, hbytes⟩ := @openExpertRow_rowRange h m index e r exp row hindex hrow hr
  refine Ends.bind_ok hbytes ?_
  cases num.canonicalDot e.wtype bytes k x layout with
  | none => exact .inl rfl
  | some v => trivial

/-- The bias that the miner opens is the bias that the verifier asks for. -/
theorem openBias_pointBias (hindex : Indexed h index) (hwf : WellFormedProduct m p.gRank g)
    (hrow : p.row < g.mOut) (hbias : pointBias m index p g = some o.bias) :
    ∃ b, openBias h (m.tierCtx index) (p.site m e g) o = .ok b := by
  rw [pointBias] at hbias
  split at hbias
  · next hnone =>
    rw [openBias, PointSpec.site, ← Option.some.inj hbias]
    simp [hnone]
  · next hsome =>
    simp only [Option.bind_eq_bind, Option.bind_eq_some_iff] at hbias
    obtain ⟨b, hb, be, hbe, br, hbr, hbias⟩ := hbias
    obtain ⟨b', hb', hrole, hwtype, hk, hsize⟩ := hwf.bias hsome
    rw [hb] at hb'
    cases hb'
    have hrowLt : p.row < g.m.toNat := by
      rw [Entry.mOut] at hrow
      split at hrow <;> omega
    have hlast : (p.row * 4 + 4 - 1) / 32 = p.row * 4 / 32 := by omega
    have hbytes := @openBytes_rangeProof h m index b br (p.row * 4) 4 hindex (by decide) (by omega)
      (by rw [hlast]; exact hbr)
    rw [openBias, PointSpec.site, ← Option.some.inj hbias]
    simp only [hsome, decide_false]
    refine ⟨some ((br.chunks.drop (p.row * 4 % 32)).take 4),
      bind_eq_ok.mpr ⟨b, openEntry_entryOpening hb hbe, ?_⟩⟩
    refine bind_eq_ok.mpr ⟨(), refuse_of_not (by simp [hrole, hwtype, hk]), ?_⟩
    exact bind_eq_ok.mpr ⟨_, hbytes, rfl⟩

theorem ends_recompute {num : Numerics} {layout : UInt8} {value : List UInt8}
    (hindex : Indexed h index) (hm : WellFormed m) (hd : Drawn m nPrompt nPos seed j p e g)
    (hrows : pointRows m index p g exp = some (o.rows, o.partner))
    (hbias : pointBias m index p g = some o.bias) :
    Ends Numeric (fun _ => True)
      (recompute h num (m.tierCtx index) (p.site m e g) o x layout value exp) := by
  have hwf := hd.gate_wf hm
  rw [recompute]
  dsimp only [PointSpec.site]
  refine Ends.bind (ends_refuse fun _ => .inr rfl) fun _ _ => ?_
  have hnoBias : g.gluForm ≠ formNone → o.bias = none := by
    intro hgated
    rw [pointBias, if_pos (hwf.gluBias hgated)] at hbias
    exact (Option.some.inj hbias).symm
  have hglu : ∀ vg vu, Ends Numeric (fun _ => True) (do
      refuse (g.gluOp ≠ gluSwiglu ∧ g.gluOp ≠ gluGeglu) .unsupported
      refuse (num.gluWithin g.gluOp value vg vu = false) .mismatch) := fun vg vu =>
    Ends.bind (ends_refuse fun _ => .inl rfl) fun _ _ =>
      Ends.mono (ends_refuse fun _ => .inr rfl) fun _ _ => trivial
  obtain ⟨r, hr, hnone | hsplit | hpair⟩ := pointRows_cases hrows
  · obtain ⟨hform, hlist, -⟩ := hnone
    rw [if_pos hform, hlist]
    refine Ends.bind (ends_dotRow hindex hwf.rowBytes hr) fun v _ => ?_
    obtain ⟨b, hb⟩ := openBias_pointBias (e := e) hindex hwf hd.row_lt hbias
    exact Ends.bind_ok hb (Ends.mono (ends_refuse fun _ => .inr rfl) fun _ _ => trivial)
  · obtain ⟨hform, -, u, hu, hlist⟩ := hsplit
    have hgated : g.gluForm ≠ formNone := by
      rw [hform]
      decide
    rw [if_neg hgated, hlist, hnoBias hgated]
    refine Ends.bind (ends_dotRow hindex hwf.rowBytes hr) fun vg _ => ?_
    rw [if_pos hform]
    refine Ends.bind (ends_dotRow hindex hwf.rowBytes hu) fun vu _ => ?_
    exact hglu vg vu
  · obtain ⟨hform, up, u, po, hup, hu, hlist, -⟩ := hpair
    have hgated : g.gluForm ≠ formNone := by
      rw [hform]
      decide
    have hupEntry : upEntry m g = some up := by
      rw [upEntry, if_pos hform, hup]
    have hupWf := hm.products _ (hwf.partner (.inl hform)).1 up hup
    rw [if_neg hgated, hlist, hnoBias hgated]
    refine Ends.bind (ends_dotRow hindex hwf.rowBytes hr) fun vg _ => ?_
    rw [if_neg (by rw [hform]; decide)]
    refine Ends.bind_ok (orFail_eq_ok.mpr hupEntry) ?_
    refine Ends.bind (ends_dotRow hindex hupWf.rowBytes hu) fun vu _ => ?_
    exact hglu vg vu

/-- The opening of a drawn point from captures that match the committed leaves is refused for its
arithmetic at most: the verifier draws the product, position, row and slot that the miner drew, reads
the same leaves, and finds the same expert in the output. -/
theorem buildPoint_accepted (num : Numerics) (m : TierManifest h) (rec : TraceRecord h)
    (shape : Nat → PosShape) (tensors : List (List UInt8)) (index : Pom.WeightIndex) (seed : Hash)
    (i : UInt32) (p : PointSpec) (x y : List UInt8) (o : Point) (ids : Option ExpertIds)
    (hm : WellFormed m) (hrec : Recorded m rec shape)
    (hindex : Pom.WeightIndex.build (blake3 h) tensors = some index) (hmany : 32 < index.nChunks)
    (hsize : index.nChunks < 2 ^ 64) (hp : drawPoint m rec.nPrompt rec.nPos seed i = some p)
    (hx : (rec.leavesAt p.t)[p.leafX.toNat]? = some (blake3 h x))
    (hy : (rec.leavesAt p.t)[p.leafY.toNat]? = some (blake3 h y)) (hfits : InputFits m rec p x)
    (hlen : y.length < 2 ^ 32) (ho : buildPoint m rec p x y index = some o)
    (hids : pointIds h p y = some ids) :
    ∃ s exp value posRoot,
      drawSite h (m.tierCtx index) rec.responseCtx (shape p.t) seed i o ids = .ok s ∧
      s.rank = p.rank ∧ s.gRank = p.gRank ∧ s.t = p.t ∧ s.row = p.row ∧ s.slot = p.slot ∧
      s.nUsed = p.nUsed ∧ s.experts = p.experts ∧
      2 * s.gRank = p.leafX.toNat ∧ 2 * s.gRank + 1 = p.leafY.toNat ∧
      rec.posRoots[p.t]? = some posRoot ∧ pointExpert rec p s.gate y = some exp ∧
      openOutput h (shape p.t) s o posRoot ids = .ok (value, exp) ∧
      Ends Numeric (fun r => r.1 = s ∧ r.2.posRoot = posRoot ∧ r.2.expert = exp)
        (verifyPointAt h num (m.tierCtx index) rec.responseCtx (shape p.t) seed i o ids) := by
  have hindexed : Indexed h index := ⟨Pom.WeightIndex.build_built hindex, hmany, hsize⟩
  obtain ⟨e, g, hd⟩ := drawn_of_drawPoint hp
  obtain ⟨exp, hopens⟩ := opens_of_buildPoint hd.gate ho
  obtain ⟨posRoot, hposRoot, hverify, hleaf⟩ := TraceRecord.exists_posRoot hd.t_lt
  have hexperts : ids.isSome = p.experts := by
    rw [pointIds] at hids
    split at hids
    · next hexperts =>
      obtain ⟨e, -, rfl⟩ := Option.map_eq_some_iff.mp hids
      rw [hexperts]
      rfl
    · next hexperts =>
      cases hids
      exact (Bool.eq_false_iff.mpr hexperts).symm
  have hsite := drawSite_drawn hm hrec hd hopens.entry hopens.rows hexperts
  have houtput := openOutput_built hm hrec hd hopens hy hlen hids hleaf
  obtain ⟨hleafX, hleafY⟩ := hd.leaf_toNat hm
  refine ⟨p.site m e g, exp, _, posRoot, hsite, rfl, rfl, rfl, rfl, rfl, rfl, rfl, hleafX.symm,
    hleafY.symm, hposRoot, hopens.expert, houtput, ?_⟩
  rw [verifyPointAt]
  refine Ends.bind_ok hsite ?_
  refine Ends.bind (ends_openInput hm hrec hd hopens hx hfits hverify hleaf) fun r hr => ?_
  obtain ⟨row, layout, root⟩ := r
  cases hr
  refine Ends.bind_ok houtput ?_
  refine Ends.bind (ends_recompute hindexed hm hd hopens.rows hopens.bias) fun _ _ => ?_
  exact ⟨rfl, rfl, rfl⟩

/-- A manifest of one product. -/
def oneProduct : TierManifest (byteHash 1) where
  entries := [(productEntry, productRaw)]
  nProducts := 1
  mT := Vector.replicate 32 1
  chain := none
  products_pos := toNat_one_pos
  products_le := by decide
  entries_lt := by decide
  parsed := by decide
  root := by
    simp only [rtRangeProof, Entry.leaf, blake3_byteHash, List.map_cons, List.map_nil]
    simp [RangeTree.Shape.root]

theorem wellFormed_oneProduct : WellFormed oneProduct where
  products_le := by decide
  products := by
    rintro rank hrank e he
    obtain rfl : rank = 0 := Nat.lt_one_iff.mp hrank
    cases he
    exact { role := by decide, heads := by decide, rowBytes := by decide, partner := by decide
            gluBias := by decide, bias := by decide }
  nUsed := by rintro ctx ⟨⟩

def onePoint : PointSpec := ⟨0, 0, 0, 0, 1, 0, false⟩

def ones : Hash := Vector.replicate 32 1

theorem drawPoint_oneProduct : drawPoint oneProduct 1 1 (Vector.replicate 32 0) 0 =
    some onePoint := by
  rw [drawPoint]
  simp only [Draw.point, blake3_byteHash]
  rfl

/-- The record of one position whose leaves are `ones`. -/
theorem exists_record_oneProduct : ∃ rec,
    TraceRecord.new oneProduct 1 [1] (List.replicate 3 ones) = some rec ∧ rec.nPrompt = 1 ∧
      rec.nPos = 1 ∧ rec.ubatch = [1] ∧ ∀ i < 3, (rec.leavesAt 0)[i]? = some ones := by
  have hfilled : TraceRecord.filled (h := byteHash 1) oneProduct.nLeaves 1
      (fun t => TraceRecord.fillProducts oneProduct (t + 1 < (1 : UInt32).toNat))
      (fun t => (PosShape.stage1 oneProduct.np).metaBytes t ([1].getD t 0))
      (List.replicate 3 ones) = List.replicate 3 ones := by
    simp only [TraceRecord.filled, blake3_byteHash]
    rfl
  obtain ⟨rec, hrec⟩ := @TraceRecord.exists_ofLeaves (byteHash 1) (List.replicate 3 ones)
    oneProduct.nLeaves 1 1 [1] none (by decide) (by decide) (by decide) (by decide) (by decide)
    (by decide) (by decide)
  obtain ⟨hprompt, hubatch, hnLeaves, hleaves⟩ := TraceRecord.ofLeaves_eq_some hrec
  refine ⟨rec, ?_, hprompt, ?_, hubatch, ?_⟩
  · rw [TraceRecord.new, if_neg (by decide)]
    simp only [List.length_singleton] at *
    rw [hfilled]
    exact hrec
  · rw [← UInt32.toNat_inj, ← rec.length_ubatch, hubatch]
    rfl
  · intro i hi
    rw [TraceRecord.leavesAt, hnLeaves, hleaves]
    have hcases : i = 0 ∨ i = 1 ∨ i = 2 := by omega
    rcases hcases with rfl | rfl | rfl <;> rfl

theorem exists_buildPoint_oneProduct {rec : TraceRecord (byteHash 1)} (x : List UInt8)
    (hpos : rec.nPos = 1) (hubatch : rec.ubatch = [1]) :
    ∃ o, buildPoint oneProduct rec onePoint x [0, 0, 0, 0] (Pom.WeightIndex.indexOf
      (blake3 (byteHash 1)) (Pom.chunksOf Pom.zeroTensor)) = some o := by
  have hn := Pom.nChunks_zeroTensor (blake3 (byteHash 1))
  obtain ⟨r, hr, -⟩ := @rangeProof_accepted _ _ 0 3
    (Pom.WeightIndex.build_built (Pom.build_zeroTensor (blake3 (byteHash 1)))) (by omega)
    (by omega) (Nat.zero_le 3) (by omega)
  have hexp : pointExpert rec onePoint productEntry [0, 0, 0, 0] = some 0 := by
    rw [pointExpert, hpos]
    rfl
  have hrows : pointRows oneProduct (Pom.WeightIndex.indexOf (blake3 (byteHash 1))
      (Pom.chunksOf Pom.zeroTensor)) onePoint productEntry 0 = some ([r], none) := by
    rw [pointRows, rowRange]
    change Option.bind (rangeProof _ _ 0 3) _ = _
    rw [hr]
    rfl
  have hbias : pointBias oneProduct (Pom.WeightIndex.indexOf (blake3 (byteHash 1))
      (Pom.chunksOf Pom.zeroTensor)) onePoint productEntry = some none := rfl
  have hgate : oneProduct.entry onePoint.gRank = some productEntry := rfl
  have hchunk : chunkWithPath (byteHash 1) [0, 0, 0, 0]
      ((onePoint.slot * productEntry.mOut + onePoint.row) * 4 / b3Chunk) =
      some ([0, 0, 0, 0], []) := rfl
  have hat : rec.ubatch[onePoint.t]? = some 1 := by
    rw [hubatch]
    rfl
  obtain ⟨eo, heo⟩ := TierManifest.exists_entryOpening hgate
  simp only [buildPoint, Option.bind_eq_bind, hgate, Option.bind_some, hexp, hrows, hbias, hchunk,
    hat]
  rw [show onePoint.rank = onePoint.gRank from rfl, heo]
  exact ⟨_, rfl⟩

/-- A point with an input of one row. -/
theorem buildPoint_accepted_oneProduct :
    ∃ (rec : TraceRecord (byteHash 1)) (o : Point),
      let index := Pom.WeightIndex.indexOf (blake3 (byteHash 1)) (Pom.chunksOf Pom.zeroTensor)
      TraceRecord.new oneProduct 1 [1] (List.replicate 3 ones) = some rec ∧
      drawPoint oneProduct 1 1 (Vector.replicate 32 0) 0 = some onePoint ∧
      buildPoint oneProduct rec onePoint (List.replicate 576 0) [0, 0, 0, 0] index = some o ∧
      ∀ num f, ¬ Numeric f →
        verifyPointAt (byteHash 1) num (oneProduct.tierCtx index) rec.responseCtx
          (.stage1 oneProduct.np) (Vector.replicate 32 0) 0 o none ≠ .error f := by
  obtain ⟨rec, hrec, hprompt, hpos, hubatch, hleaf⟩ := exists_record_oneProduct
  obtain ⟨o, ho⟩ := exists_buildPoint_oneProduct (List.replicate 576 0) hpos hubatch
  refine ⟨rec, o, hrec, drawPoint_oneProduct, ho, fun num f hf => ?_⟩
  have hdraw : drawPoint oneProduct rec.nPrompt rec.nPos (Vector.replicate 32 0) 0 =
      some onePoint := by
    rw [hprompt, hpos]
    exact drawPoint_oneProduct
  have hfits : InputFits oneProduct rec onePoint (List.replicate 576 0) := by
    rintro e ⟨⟩ g ⟨⟩ nUbatch hn
    rw [hubatch] at hn
    cases hn
    exact .inl List.length_replicate
  have hn := Pom.nChunks_zeroTensor (blake3 (byteHash 1))
  obtain ⟨s, exp, value, posRoot, hsite, -, -, -, -, -, -, -, -, -, -, -, -, hends⟩ :=
    buildPoint_accepted num oneProduct rec _ [Pom.zeroTensor] _ (Vector.replicate 32 0) 0 onePoint
      (List.replicate 576 0) [0, 0, 0, 0] o none wellFormed_oneProduct (.stage1 rfl hrec)
      (Pom.build_zeroTensor _) (by omega) (by omega) hdraw
      ((hleaf 0 (by decide)).trans (by rw [blake3_byteHash]; rfl))
      ((hleaf 1 (by decide)).trans (by rw [blake3_byteHash]; rfl))
      hfits (by decide) ho rfl
  exact hends.ne_error hf

/-- An input whose hash is committed but which is no row is refused for its length. -/
theorem buildPoint_refused :
    ∃ (rec : TraceRecord (byteHash 1)) (o : Point),
      let index := Pom.WeightIndex.indexOf (blake3 (byteHash 1)) (Pom.chunksOf Pom.zeroTensor)
      WellFormed oneProduct ∧
      Pom.WeightIndex.build (blake3 (byteHash 1)) [Pom.zeroTensor] = some index ∧
      32 < index.nChunks ∧ TraceRecord.new oneProduct 1 [1] (List.replicate 3 ones) = some rec ∧
      drawPoint oneProduct rec.nPrompt rec.nPos (Vector.replicate 32 0) 0 = some onePoint ∧
      (rec.leavesAt 0)[onePoint.leafX.toNat]? = some (blake3 (byteHash 1) []) ∧
      (rec.leavesAt 0)[onePoint.leafY.toNat]? = some (blake3 (byteHash 1) [0, 0, 0, 0]) ∧
      buildPoint oneProduct rec onePoint [] [0, 0, 0, 0] index = some o ∧
      pointIds (byteHash 1) onePoint [0, 0, 0, 0] = some none ∧
      ∀ num, verifyPointAt (byteHash 1) num (oneProduct.tierCtx index) rec.responseCtx
        (.stage1 oneProduct.np) (Vector.replicate 32 0) 0 o none = .error .shape := by
  obtain ⟨rec, hrec, hprompt, hpos, hubatch, hleaf⟩ := exists_record_oneProduct
  obtain ⟨o, ho⟩ := exists_buildPoint_oneProduct [] hpos hubatch
  have hdraw : drawPoint oneProduct rec.nPrompt rec.nPos (Vector.replicate 32 0) 0 =
      some onePoint := by
    rw [hprompt, hpos]
    exact drawPoint_oneProduct
  have hn := Pom.nChunks_zeroTensor (blake3 (byteHash 1))
  refine ⟨rec, o, wellFormed_oneProduct, Pom.build_zeroTensor _, by omega, hrec, hdraw,
    (hleaf 0 (by decide)).trans (by rw [blake3_byteHash]; rfl),
    (hleaf 1 (by decide)).trans (by rw [blake3_byteHash]; rfl), ho, rfl, fun num => ?_⟩
  obtain ⟨e, g, hd⟩ := drawn_of_drawPoint hdraw
  obtain ⟨exp, hopens⟩ := opens_of_buildPoint hd.gate ho
  have hids : (none : Option ExpertIds).isSome = onePoint.experts := rfl
  have hsite := drawSite_drawn wellFormed_oneProduct (.stage1 rfl hrec) hd hopens.entry hopens.rows
    hids
  have hshort : openInput (byteHash 1) rec.responseCtx (.stage1 oneProduct.np)
      (onePoint.site oneProduct e g) o = .error .shape := by
    obtain rfl : g = productEntry := (Option.some.inj hd.gate).symm
    obtain rfl : e = productEntry := (Option.some.inj hd.first).symm
    have hnUbatch := hopens.nUbatch
    rw [hubatch] at hnUbatch
    have hone : o.nUbatch = 1 := (Option.some.inj hnUbatch).symm
    rw [openInput, hopens.input, hone]
    rfl
  rw [verifyPointAt, hsite]
  change (openInput _ _ _ _ _ >>= _) = _
  rw [hshort]
  rfl

end KeryxMiner.Replay
