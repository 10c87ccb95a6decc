import KeryxMiner.Replay.AttnAccepted
import KeryxMiner.Replay.RecurMatches

/-!
# Recurrent points before the verifier

The opening that the miner builds of a recurrent point has every part that `verify_recur_point` asks
for: the verifier draws the miner's point from it, opens the spans, the taps and the anchor, and
refuses it for its arithmetic only.
-/

namespace KeryxMiner.Replay

open Inference Manifest
open Openings hiding Hash

variable {h : Blake3} {m : TierManifest h} {rec : TraceRecord h} {seq : SeqTrace}
  {index : Pom.WeightIndex} {ctx : ChainCtx} {resp : ResponseCtx} {seed : Hash} {d : RecurDraw}
  {ll : LayerLinks} {op : RecurOpening} {caps : Captures} {num : RecurNumerics}

/-! ## The parts of an opening -/

/-- What the miner opens of a recurrent point, and which captures stand behind it. -/
structure BuiltRecur (m : TierManifest h) (rec : TraceRecord h) (seq : SeqTrace)
    (index : Pom.WeightIndex) (d : RecurDraw) (caps : Captures) (op : RecurOpening) : Prop where
  posRoot : op.posRoot = rec.traceRoot
  seqRoot : op.seqRoot = seq.root
  taps : d.taps.mapM' (fun p => recurTap rec d caps p) = .ok op.taps
  weights : recurWeights m index d = .ok op.weights
  spans : ∃ plans ∈ d.spans m rec.nPos.toNat,
    (∃ cap e, captured (h := h) seq plans[0]? cap e = .ok op.records) ∧
      (0 < d.segment → ∃ cap e, captured (h := h) seq plans[1]? cap e = .ok op.startRows) ∧
      (¬ 0 < d.segment → op.startRows = default) ∧
      (d.stop - d.first = d.links.interval.toNat → ∃ cap e,
        captured (h := h) seq plans[if 0 < d.segment then 2 else 1]? cap e = .ok op.endRows) ∧
      (d.stop - d.first ≠ d.links.interval.toNat → op.endRows = default)
  outEntry : m.entryOpening d.proj.toNat = some op.outEntry
  decayEntry : m.entryOpening d.links.decay.toNat = some op.decayEntry
  beta : ∃ e, chunkAt rec caps d.anchor (2 * d.links.beta + 1) d.head e = .ok op.beta
  decay : ∃ e, chunkAt rec caps d.anchor (2 * d.links.decay + 1) (d.head * d.decayLen) e =
    .ok op.decay
  gate : ∃ e, chunkAt rec caps d.anchor (2 * d.links.gate + 1)
    (d.head * d.links.headDim.toNat) e = .ok op.gate
  out : ∃ bytes ∈ caps (captureKey d.anchor (2 * d.proj)),
    op.out = leafBytes rec d.anchor (2 * d.proj) bytes

theorem builtRecur_of_recurOpening {spans : List SeqCapture} {responseTxid : Hash}
    (hop : recurOpening m rec seq index d caps spans responseTxid = .ok op) :
    BuiltRecur m rec seq index d caps op := by
  simp only [recurOpening, bind_eq_ok, orFail_eq_ok] at hop
  obtain ⟨taps, htaps, weights, hweights, plans, hplans, -, -, records, hrecords, startRows, hstart,
    endRows, hstop, ctx, -, layer, -, outEntry, houtEntry, decayEntry, hdecayEntry, beta, hbeta,
    decay, hdecay, gate, hgate, out, hout, hop⟩ := hop
  cases hop
  rw [partIf_eq_ok] at hstart hstop
  refine ⟨rfl, rfl, htaps, hweights, ⟨plans, hplans, ⟨_, _, hrecords⟩, fun hsegment => ?_,
    fun hzero => ?_, fun hwhole => ?_, fun hcut => ?_⟩, houtEntry, hdecayEntry, ⟨_, hbeta⟩,
    ⟨_, hdecay⟩, ⟨_, hgate⟩, out, hout, rfl⟩
  · exact ⟨_, _, (hstart.resolve_right fun hnot => hnot.1 hsegment).2⟩
  · exact (hstart.resolve_left fun hthere => hzero hthere.1).2
  · exact ⟨_, _, (hstop.resolve_right fun hnot => hnot.1 hwhole).2⟩
  · exact (hstop.resolve_left fun hthere => hcut hthere.1).2

/-- What the entries and weights of the model are for the checks of a recurrent layer, and how its
leaves and the values of the drawn head lie. -/
structure RecurFits (m : TierManifest h) (d : RecurDraw) (ll : LayerLinks) (nPos : Nat) : Prop where
  q : Outputs m d.links.q (d.site ll).channels.2
  k : Outputs m d.links.k (d.site ll).channels.2
  v : Outputs m d.links.v (d.site ll).channels.2
  beta : Outputs m d.links.beta d.links.nVHeads.toNat
  decay : Outputs m d.links.decay (d.links.nVHeads.toNat * d.decayLen)
  decayRole : ∀ e ∈ m.entry d.links.decay.toNat, e.role = roleProduct
  gate : Outputs m d.links.gate (d.links.nVHeads.toNat * d.links.headDim.toNat)
  conv : ∀ i ∈ [d.links.convQ, d.links.convK, d.links.convV],
    NormEntry m i (d.links.convLen.toNat * (d.site ll).channels.2)
  dt : NormEntry m d.links.dt (d.links.nVHeads.toNat * d.decayLen)
  a : NormEntry m d.links.a d.links.nVHeads.toNat
  norm : NormEntry m d.links.norm d.links.headDim.toNat
  output : d.proj.toNat < m.np ∧ ∀ e ∈ m.entry d.proj.toNat, e.role = roleProduct ∧ e.nExp = 1 ∧
    e.k.toNat = d.links.nVHeads.toNat * d.links.headDim.toNat
  /-- The values of the drawn head are in one chunk each. -/
  chunks : ∀ off ∈ d.head * d.links.headDim.toNat :: d.offsets,
    off % (b3Chunk / 4) + d.links.headDim.toNat ≤ b3Chunk / 4
  records : nPos * recordLen d.links.kind d.links.headDim.toNat < 2 ^ 42
  checkpoints : checkpointLen d.links.headDim.toNat nPos d.links.interval.toNat < 2 ^ 42

/-- The records of the segment decode, which those of finite values do. -/
def RecordsDecode (h : Blake3) (num : RecurNumerics) (ctx : ChainCtx) (seq : SeqTrace) (nPos : Nat)
    (s : RecurSite) (op : RecurOpening) : Prop :=
  let rl := recordLen s.r.kind s.hd
  ∀ leaf ∈ (seqLayout ctx).record s.slot s.head, ∀ bytes ∈ openSpan h seq.root (seqLayout ctx) leaf
    (nPos * rl) s.recordBounds.1 s.recordBounds.2 op.records,
    ∀ i < bytes.length / rl, (num.decode s.r.kind s.hd ((bytes.drop (i * rl)).take rl)).isSome

/-- An opening of the miner at the verifier. -/
structure RecurTurn (m : TierManifest h) (rec : TraceRecord h) (seq : SeqTrace)
    (index : Pom.WeightIndex) (ctx : ChainCtx) (resp : ResponseCtx) (seed : Hash) (ll : LayerLinks)
    (d : RecurDraw) (caps : Captures) (op : RecurOpening) : Prop where
  answered : Answered m rec seq index ctx caps
  drawn : DrawnRecur m rec ctx seed ll d
  built : BuiltRecur m rec seq index d caps op
  supported : RecurSupported m ctx rec.nPos d
  fits : RecurFits m d ll rec.nPos.toNat
  nPrompt : resp.nPrompt = rec.nPrompt
  nPos : resp.nPos = rec.nPos

/-- The channels of the head, as the miner and the verifier have them. -/
theorem RecurDraw.exists_offsets (d : RecurDraw) (ll : LayerLinks) : ∃ o0 o1 o2 n,
    d.offsets = [o0, o1, o2] ∧ (d.site ll).channels = ([o0, o1, o2], n) := by
  rw [RecurSite.channels, offsets]
  change ∃ o0 o1 o2 n, _ ∧ (if d.kda = true then _ else _ : List Nat × Nat) = _
  split <;> exact ⟨_, _, _, _, rfl, rfl⟩

/-! ## Values of one chunk -/

/-- The values of a chunk that the miner opens, which is one of the output of product `r`. -/
theorem Answered.exists_chunkValues (ha : Answered m rec seq index ctx caps) {p n off len : Nat}
    {r : UInt32} {e : String} {c : LeafChunk} {root : Hash} {shape : PosShape}
    (hp : p < rec.nPos.toNat) (hout : Outputs m r n)
    (hc : chunkAt rec caps p (2 * r + 1) off e = .ok c) (hroot : PositionRoot rec p root)
    (hshape : shape.nLeaves = rec.nLeaves) (hchunk : off % 256 + len ≤ 256) (hle : off + len ≤ n) :
    ∃ values, chunkValues h shape (2 * r.toNat + 1) c (4 * n) off len = .ok (root, values) := by
  obtain ⟨bytes, hbytes, hc⟩ := Option.bind_eq_some_iff.mp (orFail_eq_ok.mp hc)
  obtain ⟨entry, he⟩ := m.exists_entry hout.product
  obtain ⟨hone, hn⟩ := hout.rows entry he
  obtain ⟨hleaf, hlt⟩ := ha.rows.committed p hp _ _ hbytes
  have hlen := ha.rows.output p hp r hout.product entry he hone bytes hbytes
  have hnumber := (ha.leaf_toNat hout.product).2
  have hopened := openedChunk_of_leafChunk hlt hc
  have hindex : 4 * off / b3Chunk = off / (b3Chunk / 4) := by
    rw [b3Chunk]
    omega
  have hvalue := hopened.value
  rw [hlen, hn, hindex] at hvalue
  have hfold := hopened.verify hroot hleaf
  rw [hnumber, ← hshape] at hfold
  have hsize : ¬ c.chunk.length / 4 < off % (b3Chunk / 4) + len := by
    rw [hopened.chunk, length_chunkBytes, hlen, hn, b3Chunk]
    omega
  refine ⟨_, bind_eq_ok.mpr ⟨(), refuse_of_not ?_, bind_eq_ok.mpr ⟨_, hvalue, bind_eq_ok.mpr
    ⟨root, orFail_eq_ok.mpr hfold, bind_eq_ok.mpr ⟨(), refuse_of_not hsize, rfl⟩⟩⟩⟩⟩
  rw [b3Chunk]
  omega

/-! ## The segment -/

theorem exists_mapM'_ok {α β ε : Type} {f : α → Except ε β} {l : List α}
    (hf : ∀ x ∈ l, ∃ b, f x = .ok b) : ∃ l', l.mapM' f = .ok l' := by
  induction l with
  | nil => exact ⟨[], rfl⟩
  | cons x l ih =>
    obtain ⟨b, hb⟩ := hf x List.mem_cons_self
    obtain ⟨bs, hbs⟩ := ih fun y hy => hf y (List.mem_cons_of_mem _ hy)
    exact ⟨b :: bs, by rw [List.mapM'_cons, hb, hbs]; rfl⟩

theorem ends_foldlM {α β ε : Type} {E : ε → Prop} {f : β → α → Except ε β} {l : List α} {b : β}
    (hf : ∀ b a, Ends E (fun _ => True) (f b a)) : Ends E (fun _ => True) (l.foldlM f b) := by
  induction l generalizing b with
  | nil => trivial
  | cons a l ih =>
    rw [List.foldlM_cons]
    exact Ends.bind (hf b a) fun _ _ => ih

theorem ends_orMismatch {α : Type} {o : Option α} :
    Ends (· = Fail.mismatch) (fun _ => True) (orFail o .mismatch) := by
  cases o with
  | some a => trivial
  | none => rfl

namespace RecurTurn

variable (ht : RecurTurn m rec seq index ctx resp seed ll d caps op)

include ht

/-- The rows of a checkpoint that the miner opens. -/
theorem ends_rowsAt {plan : Option SpanPlan} {cap : Option SeqCapture} {e : String} {c : Nat}
    {rows : SeqSpan} (hrows : captured (h := h) seq plan cap e = .ok rows)
    (hplan : plan = checkpointPlan ctx rec.nPos.toNat (d.site ll) c) :
    Ends (· = .mismatch) (fun _ => True) (rowsAt h num ctx resp op (d.site ll) c rows) := by
  rw [hplan] at hrows
  obtain ⟨leaf, hleaf, bytes, hbytes, -⟩ := ht.answered.spanOpens hrows
    (fun i hi => SeqLayout.leaf_lt_of_eq_some (s := ⟨.checkpoint, d.slot, d.head⟩) hi)
    ht.fits.checkpoints
  refine Ends.bind_ok (orFail_eq_ok.mpr hleaf) ?_
  rw [ht.nPos, ht.built.seqRoot]
  exact Ends.bind_ok (orFail_eq_ok.mpr hbytes) ends_orMismatch

theorem ends_segmentRecords
    (hdecode : RecordsDecode h num ctx seq rec.nPos.toNat (d.site ll) op) :
    Ends (· = .mismatch) (fun recs => recs.length = d.stop - d.first)
      (segmentRecords h num ctx resp op (d.site ll)) := by
  obtain ⟨plans, hplans, ⟨cap, e, hrecords⟩, -⟩ := ht.built.spans
  obtain ⟨hplan, -, -⟩ := of_recurSpans ht.drawn.chain hplans ll
  rw [hplan] at hrecords
  obtain ⟨leaf, hleaf, bytes, hbytes, hlen⟩ := ht.answered.spanOpens hrecords
    (fun i hi => SeqLayout.leaf_lt_of_eq_some (s := ⟨.record, d.slot, d.head⟩) hi) ht.fits.records
  have hpos : 0 < recordLen (d.site ll).r.kind (d.site ll).hd := by
    rw [recordLen]
    omega
  have hcount : bytes.length / recordLen (d.site ll).r.kind (d.site ll).hd =
      (d.site ll).stop - (d.site ll).first := by
    rw [hlen, RecurSite.recordBounds, ← Nat.sub_mul, Nat.mul_div_cancel _ hpos]
  obtain ⟨recs, hrecs⟩ := exists_mapM' (l := List.range ((d.site ll).stop - (d.site ll).first))
    (f := fun i => num.decode (d.site ll).r.kind (d.site ll).hd
      ((bytes.drop (i * recordLen (d.site ll).r.kind (d.site ll).hd)).take
        (recordLen (d.site ll).r.kind (d.site ll).hd))) fun i hi => by
    exact Option.isSome_iff_exists.mp (hdecode leaf hleaf bytes hbytes i
      (hcount.symm ▸ List.mem_range.mp hi))
  refine Ends.bind_ok (orFail_eq_ok.mpr hleaf) ?_
  rw [ht.nPos, ht.built.seqRoot]
  refine Ends.bind_ok (orFail_eq_ok.mpr hbytes) ?_
  rw [hcount, orFail_eq_ok.mpr hrecs]
  exact (length_mapM' hrecs).trans List.length_range

/-- The records of the segment lead from state to state, or the arithmetic fails. -/
theorem ends_verifySegment
    (hdecode : RecordsDecode h num ctx seq rec.nPos.toNat (d.site ll) op) :
    Ends (· = .mismatch) (fun recs => recs.length = d.stop - d.first)
      (verifySegment h num ctx resp op (d.site ll)) := by
  obtain ⟨plans, hplans, -, hstart, hnone, hstop, hcut⟩ := ht.built.spans
  obtain ⟨-, hplanStart, hplanStop⟩ := of_recurSpans ht.drawn.chain hplans ll
  refine Ends.bind (ht.ends_segmentRecords hdecode) fun recs hcount => ?_
  have hsteps : ∀ start : num.State, Ends (· = Fail.mismatch) (fun recs => recs.length = d.stop - d.first) (do
      let state ← recs.foldlM (fun state rec =>
        orFail (num.step (d.site ll).kda (d.site ll).hd (d.site ll).row0 state rec) .mismatch) start
      if (d.site ll).stop - (d.site ll).first = (d.site ll).r.interval.toNat then do
        let want ← rowsAt h num ctx resp op (d.site ll) ((d.site ll).segment + 1) op.endRows
        refuse (num.closeTo state want = false) .mismatch
      else refuse (op.endRows ≠ default) .shape
      return recs) := by
    intro start
    refine Ends.bind (ends_foldlM fun _ _ => ends_orMismatch) fun state _ => ?_
    by_cases hwhole : d.stop - d.first = d.links.interval.toNat
    · obtain ⟨cap, e, hrows⟩ := hstop hwhole
      refine (congrArg (Ends _ _) (if_pos hwhole)).mpr ?_
      refine Ends.bind (ht.ends_rowsAt hrows (hplanStop hwhole)) fun want _ => ?_
      exact Ends.bind ends_mismatch fun _ _ => Ends.pure hcount
    · refine (congrArg (Ends _ _) (if_neg hwhole)).mpr ?_
      exact Ends.bind_ok (refuse_of_not (not_not.mpr (hcut hwhole))) (Ends.pure hcount)
  by_cases hsegment : d.segment = 0
  · refine (congrArg (Ends _ _) (if_pos hsegment)).mpr ?_
    have hzero : op.startRows = default := hnone (by omega)
    exact Ends.bind_ok (refuse_of_not (not_not.mpr hzero)) (Ends.bind_ok rfl (hsteps _))
  · refine (congrArg (Ends _ _) (if_neg hsegment)).mpr ?_
    have hpos : 0 < d.segment := Nat.pos_of_ne_zero hsegment
    obtain ⟨cap, e, hrows⟩ := hstart hpos
    exact Ends.bind (ht.ends_rowsAt hrows (hplanStart hpos)) fun start _ => hsteps start

/-! ## The anchor -/

theorem anchor_lt : d.anchor < rec.nPos.toNat :=
  Nat.lt_of_lt_of_le ht.drawn.anchor_mem.2 ht.drawn.stop_le

/-- The values of a tap are there, at the root of its position. -/
theorem exists_tapValues {j : Nat} {tap : RecurTap} (hj : j < (d.site ll).nTaps)
    (htap : recurTap rec d caps ((d.site ll).tapPosition j) = .ok tap) {root : Hash}
    (hroot : PositionRoot rec ((d.site ll).tapPosition j) root) :
    ∃ values, tapValues h (m.tierCtx index) ctx resp op (d.site ll) j tap = .ok (root, values) := by
  have hinside := ht.drawn.inside ht.supported
  have hlt : (d.site ll).tapPosition j < rec.nPos.toNat :=
    Nat.lt_of_le_of_lt (hinside.taps j hj) ht.anchor_lt
  have hshape := ht.answered.shape_nLeaves
  obtain ⟨o0, o1, o2, n, hoffsets, hchannels⟩ := d.exists_offsets ll
  have hchunks := ht.fits.chunks
  have hbounds := hinside.channels
  obtain ⟨hfq, hfk, hfv⟩ : Outputs m d.links.q n ∧ Outputs m d.links.k n ∧ Outputs m d.links.v n := by
    have hfits := And.intro ht.fits.q (And.intro ht.fits.k ht.fits.v)
    rwa [hchannels] at hfits
  rw [hoffsets] at hchunks
  rw [hchannels] at hbounds
  simp only [recurTap, hoffsets, bind_eq_ok] at htap
  obtain ⟨q, hq, k, hk, v, hv, htap⟩ := htap
  cases htap
  obtain ⟨qs, hqs⟩ := ht.answered.exists_chunkValues hlt hfq hq hroot hshape
    (hchunks o0 (by simp)) (hbounds o0 (by simp))
  obtain ⟨ks, hks⟩ := ht.answered.exists_chunkValues hlt hfk hk hroot hshape
    (hchunks o1 (by simp)) (hbounds o1 (by simp))
  obtain ⟨vs, hvs⟩ := ht.answered.exists_chunkValues hlt hfv hv hroot hshape
    (hchunks o2 (by simp)) (hbounds o2 (by simp))
  have hverify : ¬ b3Verify h.toMerges op.posRoot resp.nPos.toNat ((d.site ll).tapPosition j) root
      (rec.posPath ((d.site ll).tapPosition j)) = false := by
    rw [ht.built.posRoot, ht.nPos, hroot.verify]
    simp
  refine ⟨[qs, ks, vs], ?_⟩
  rw [tapValues, hchannels]
  refine bind_eq_ok.mpr ⟨_, hqs, bind_eq_ok.mpr ⟨_, hks, ?_⟩⟩
  refine bind_eq_ok.mpr ⟨(), refuse_of_not (not_not.mpr rfl), bind_eq_ok.mpr ⟨_, hvs, ?_⟩⟩
  refine bind_eq_ok.mpr ⟨(), refuse_of_not (not_not.mpr rfl), ?_⟩
  exact bind_eq_ok.mpr ⟨(), refuse_of_not hverify, rfl⟩

/-- Tap `j` of the opening is the one of its position. -/
theorem recurTap_of_get {j : Nat} {tap : RecurTap} (hj : op.taps[j]? = some tap) :
    j < (d.site ll).nTaps ∧ recurTap rec d caps ((d.site ll).tapPosition j) = .ok tap := by
  have htaps := mapM'_eq_ok.mp ht.built.taps
  obtain ⟨hlt, rfl⟩ := List.getElem?_eq_some_iff.mp hj
  have hpos : j < d.taps.length := htaps.length_eq ▸ hlt
  have hbuilt := htaps.get hpos hlt
  rw [List.get_eq_getElem, List.get_eq_getElem] at hbuilt
  refine ⟨@length_taps d ll ▸ hpos, ?_⟩
  rw [← getElem?_taps ll (List.getElem?_eq_getElem hpos)]
  exact hbuilt

theorem nTaps_pos : 0 < (d.site ll).nTaps := by
  have hconv : 1 ≤ d.links.convLen.toNat := ht.supported.convLen.1
  exact Nat.lt_min.mpr ⟨Nat.succ_pos _, hconv⟩

/-- The taps lead to the drawn position. -/
theorem exists_taps : ∃ taps root, op.taps.zipIdx.mapM' (fun tj =>
      tapValues h (m.tierCtx index) ctx resp op (d.site ll) tj.2 tj.1) = .ok taps ∧
    taps.getLast?.map Prod.fst = some root ∧ PositionRoot rec d.anchor root := by
  have hinside := ht.drawn.inside ht.supported
  have hpos := ht.nTaps_pos
  have htap : ∀ tj ∈ op.taps.zipIdx, ∃ value,
      tapValues h (m.tierCtx index) ctx resp op (d.site ll) tj.2 tj.1 = .ok value := by
    intro tj hmem
    obtain ⟨hj, hbuilt⟩ := ht.recurTap_of_get (List.mk_mem_zipIdx_iff_getElem?.mp hmem)
    obtain ⟨root, hroot⟩ := exists_positionRoot
      (Nat.lt_of_le_of_lt (hinside.taps tj.2 hj) ht.anchor_lt)
    obtain ⟨values, hvalues⟩ := ht.exists_tapValues hj hbuilt hroot
    exact ⟨_, hvalues⟩
  obtain ⟨taps, htaps⟩ := exists_mapM'_ok htap
  obtain ⟨root, hroot⟩ := exists_positionRoot ht.anchor_lt
  have hcount : op.taps.length = (d.site ll).nTaps := by
    rw [← (mapM'_eq_ok.mp ht.built.taps).length_eq, @length_taps d ll]
  have hall := mapM'_eq_ok.mp htaps
  have hsize := hall.length_eq
  rw [List.length_zipIdx] at hsize
  -- The last tap is the one of the drawn position.
  have hlast : op.taps.length - 1 < op.taps.length := by omega
  have hlast' : op.taps.length - 1 < taps.length := by omega
  have hposition : (d.site ll).tapPosition (op.taps.length - 1) = d.anchor := by
    rw [hcount, RecurSite.tapPosition]
    change d.anchor + 1 + ((d.site ll).nTaps - 1) - (d.site ll).nTaps = d.anchor
    omega
  obtain ⟨hj, hbuilt⟩ := ht.recurTap_of_get (List.getElem?_eq_getElem hlast)
  obtain ⟨values, hvalues⟩ := ht.exists_tapValues hj hbuilt (hposition.symm ▸ hroot)
  have hget := hall.get (by rw [List.length_zipIdx]; exact hlast) hlast'
  rw [List.get_eq_getElem, List.get_eq_getElem, List.getElem_zipIdx, Nat.zero_add, hvalues,
    Except.ok.injEq] at hget
  refine ⟨taps, root, htaps, ?_, hroot⟩
  rw [List.getLast?_eq_getElem?, ← hsize, List.getElem?_eq_getElem hlast', ← hget]
  rfl

/-- The weights of the opening are those of the model. -/
theorem exists_weights {o0 o1 o2 n : Nat} (hoffsets : d.offsets = [o0, o1, o2])
    (hchannels : (d.site ll).channels = ([o0, o1, o2], n)) :
    ∃ w0 w1 w2 dt a norm, op.weights = [w0, w1, w2, dt, a, norm] ∧
      (∃ b, f32Weights h (m.tierCtx index) w0 d.links.convQ (d.links.convLen.toNat * n)
        (o0 * d.links.convLen.toNat) (d.links.headDim.toNat * d.links.convLen.toNat) = .ok b) ∧
      (∃ b, f32Weights h (m.tierCtx index) w1 d.links.convK (d.links.convLen.toNat * n)
        (o1 * d.links.convLen.toNat) (d.links.headDim.toNat * d.links.convLen.toNat) = .ok b) ∧
      (∃ b, f32Weights h (m.tierCtx index) w2 d.links.convV (d.links.convLen.toNat * n)
        (o2 * d.links.convLen.toNat) (d.links.headDim.toNat * d.links.convLen.toNat) = .ok b) ∧
      (∃ b, f32Weights h (m.tierCtx index) dt d.links.dt (d.links.nVHeads.toNat * d.decayLen)
        (d.head * d.decayLen) d.decayLen = .ok b) ∧
      (∃ b, f32Weights h (m.tierCtx index) a d.links.a d.links.nVHeads.toNat d.head 1 = .ok b) ∧
      ∃ b, f32Weights h (m.tierCtx index) norm d.links.norm d.links.headDim.toNat 0
        d.links.headDim.toNat = .ok b := by
  have hweights := ht.built.weights
  simp only [recurWeights, hoffsets, List.zip_cons_cons, List.zip_nil_right, List.mapM'_cons,
    List.mapM'_nil, bind_eq_ok, orFail_eq_ok, Option.bind_eq_bind, Option.bind_eq_some_iff] at hweights
  obtain ⟨conv, ⟨w0, hw0, conv1, ⟨w1, hw1, conv2, ⟨w2, hw2, conv3, hnil, hconv2⟩, hconv1⟩, hconv⟩,
    dt, hdt, a, ha, norm, hnorm, hweights⟩ := hweights
  cases hnil
  cases hconv2
  cases hconv1
  cases hconv
  have hinside := ht.drawn.inside ht.supported
  have hbounds := hinside.channels
  rw [hchannels] at hbounds
  have hconvs := ht.fits.conv
  rw [hchannels] at hconvs
  have hhead := ht.drawn.head_lt
  have hconv : ∀ (i : UInt32) (o : Nat) (w : Weights), NormEntry m i (d.links.convLen.toNat * n) →
      o + d.links.headDim.toNat ≤ n →
      bytesRange m index i.toNat (4 * o * d.links.convLen.toNat)
        (4 * d.links.headDim.toNat * d.links.convLen.toNat) = some w →
      ∃ b, f32Weights h (m.tierCtx index) w i (d.links.convLen.toNat * n)
        (o * d.links.convLen.toNat) (d.links.headDim.toNat * d.links.convLen.toNat) = .ok b := by
    intro i o w hentry hle hw
    rw [Nat.mul_assoc, Nat.mul_assoc] at hw
    refine ⟨_, f32Weights_bytesRange ht.answered.indexed hentry ?_ hw⟩
    rw [← Nat.add_mul, Nat.mul_comm d.links.convLen.toNat]
    exact Nat.mul_le_mul_right _ hle
  refine ⟨w0, w1, w2, dt, a, norm, (Except.ok.inj hweights).symm,
    hconv _ _ _ (hconvs _ (by simp)) (hbounds o0 (by simp)) hw0,
    hconv _ _ _ (hconvs _ (by simp)) (hbounds o1 (by simp)) hw1,
    hconv _ _ _ (hconvs _ (by simp)) (hbounds o2 (by simp)) hw2,
    ⟨_, f32Weights_bytesRange ht.answered.indexed ht.fits.dt (mul_add_le hhead) ?_⟩,
    ⟨_, f32Weights_bytesRange ht.answered.indexed ht.fits.a (Nat.succ_le_of_lt hhead) ha⟩,
    ⟨_, f32Weights_bytesRange ht.answered.indexed ht.fits.norm (Nat.zero_add _).le hnorm⟩⟩
  rwa [Nat.mul_assoc] at hdt

/-- The values of a chunk at the drawn position. -/
theorem exists_anchorValues {r : UInt32} {n off len : Nat} {e : String} {c : LeafChunk}
    {root : Hash} (hout : Outputs m r n)
    (hc : chunkAt rec caps d.anchor (2 * r + 1) off e = .ok c) (hroot : PositionRoot rec d.anchor root)
    (hchunk : off % 256 + len ≤ 256) (hle : off + len ≤ n) :
    ∃ values, anchorValues h (m.tierCtx index) ctx root r c n off len = .ok values := by
  obtain ⟨values, hvalues⟩ := ht.answered.exists_chunkValues ht.anchor_lt hout hc hroot
    ht.answered.shape_nLeaves hchunk hle
  exact ⟨values, bind_eq_ok.mpr ⟨_, hvalues,
    bind_eq_ok.mpr ⟨(), refuse_of_not (not_not.mpr rfl), rfl⟩⟩⟩

/-- The output row of the drawn position. -/
theorem output {oe : Entry} (hoe : m.entry d.proj.toNat = some oe) {root : Hash}
    (hroot : PositionRoot rec d.anchor root) :
    op.out.bytes.length =
        xLen oe.k.toNat (layoutFor (expectedUbatch d.anchor rec.nPrompt) oe.wtype) ∧
      b3Verify h.toMerges root (shapeAny (m.tierCtx index) ctx).nLeaves (2 * d.proj.toNat)
        (blake3 h op.out.bytes) op.out.leafPath = true := by
  obtain ⟨hproj, hentry⟩ := ht.fits.output
  obtain ⟨hrole, hexp, -⟩ := hentry oe hoe
  have hplain : oe.role ≠ roleHeads ∧ oe.role ≠ roleOutput := by
    rw [hrole]
    decide
  obtain ⟨bytes, hbytes, hout⟩ := ht.built.out
  obtain ⟨hleaf, -⟩ := ht.answered.rows.committed d.anchor ht.anchor_lt _ _ hbytes
  have hlen := ht.answered.rows.input d.anchor ht.anchor_lt _ hproj oe hoe (.inl hexp) bytes hbytes
  rw [rowHeads, if_neg hplain.1, Nat.one_mul, inputLayout, if_neg hplain.2] at hlen
  have hfold := hroot.fold _ _ hleaf
  rw [(ht.answered.leaf_toNat hproj).1] at hfold
  rw [hout, ht.answered.shape_nLeaves, b3Verify]
  refine ⟨hlen, ?_⟩
  change (b3Fold h.toMerges rec.nLeaves (2 * d.proj.toNat) (blake3 h bytes)
    (b3Path h.toMerges (rec.leavesAt d.anchor) (2 * d.proj).toNat) == some root) = true
  rw [(ht.answered.leaf_toNat hproj).1, hfold, beq_self_eq_true]

/-- The record of the drawn position is refused for its arithmetic only. -/
theorem ends_verifyAnchor (record : num.Record) :
    Ends (· = .mismatch) (fun _ => True)
      (verifyAnchor h num (m.tierCtx index) ctx resp op (d.site ll) record) := by
  obtain ⟨o0, o1, o2, n, hoffsets, hchannels⟩ := d.exists_offsets ll
  obtain ⟨w0, w1, w2, dt, a, norm, hweights, ⟨b0, hb0⟩, ⟨b1, hb1⟩, ⟨b2, hb2⟩, ⟨bias, hbias⟩,
    ⟨scale, hscale⟩, ⟨normed, hnormed⟩⟩ := ht.exists_weights hoffsets hchannels
  obtain ⟨taps, root, htaps, hlast, hroot⟩ := ht.exists_taps
  have hcount : op.taps.length = (d.site ll).nTaps := by
    rw [← (mapM'_eq_ok.mp ht.built.taps).length_eq, @length_taps d ll]
  rw [verifyAnchor]
  refine Ends.bind_ok (refuse_of_not (by rw [hcount, hweights]; simp)) ?_
  refine Ends.bind_ok htaps (Ends.bind_ok (orFail_eq_ok.mpr hlast) ?_)
  rw [hchannels, hweights]
  have hconv : (([d.links.convQ, d.links.convK, d.links.convV].zip [o0, o1, o2]).zipIdx).mapM'
      (fun w => do
        f32Weights h (m.tierCtx index) (← orFail [w0, w1, w2, dt, a, norm][w.2]? Fail.shape) w.1.1
          (d.links.convLen.toNat * n) (w.1.2 * d.links.convLen.toNat)
          (d.links.headDim.toNat * d.links.convLen.toNat)) = .ok [b0, b1, b2] :=
    mapM'_eq_ok.mpr (.cons hb0 (.cons hb1 (.cons hb2 .nil)))
  have hhead := ht.drawn.head_lt
  have hchunks := ht.fits.chunks _ List.mem_cons_self
  have hdecayChunk : d.head * d.decayLen % 256 + d.decayLen ≤ 256 := by
    rw [RecurDraw.decayLen]
    split
    · exact hchunks
    · omega
  have hone : d.head % 256 + 1 ≤ 256 := by omega
  obtain ⟨e, hbeta⟩ := ht.built.beta
  obtain ⟨beta, hbeta⟩ := ht.exists_anchorValues ht.fits.beta hbeta hroot hone
    (Nat.succ_le_of_lt hhead)
  obtain ⟨e, hdecay⟩ := ht.built.decay
  obtain ⟨decay, hdecay⟩ := ht.exists_anchorValues ht.fits.decay hdecay hroot hdecayChunk
    (mul_add_le hhead)
  obtain ⟨e, hgate⟩ := ht.built.gate
  obtain ⟨gate, hgate⟩ := ht.exists_anchorValues ht.fits.gate hgate hroot hchunks
    (mul_add_le hhead)
  obtain ⟨de, hde⟩ := m.exists_entry ht.fits.decay.product
  obtain ⟨oe, hoe⟩ := m.exists_entry ht.fits.output.1
  obtain ⟨hlen, hverify⟩ := ht.output hoe hroot
  dsimp only
  refine Ends.bind_ok hconv (Ends.bind ends_mismatch fun _ _ => ?_)
  refine Ends.bind_ok hbeta (Ends.bind ends_mismatch fun _ _ => ?_)
  refine Ends.bind_ok (openEntry_entryOpening hde ht.built.decayEntry) ?_
  refine Ends.bind_ok (refuse_of_not (not_not.mpr (ht.fits.decayRole de hde))) ?_
  refine Ends.bind_ok hdecay (Ends.bind_ok hbias (Ends.bind_ok hscale ?_))
  refine Ends.bind ends_mismatch fun _ _ => ?_
  refine Ends.bind_ok hgate (Ends.bind_ok hnormed ?_)
  rw [show (d.site ll).ll.proj = d.proj from ht.drawn.proj.symm]
  refine Ends.bind_ok (openEntry_entryOpening hoe ht.built.outEntry) ?_
  refine Ends.bind_ok (refuse_of_not (not_not.mpr (ht.fits.output.2 oe hoe).2.2)) ?_
  rw [ht.nPrompt]
  refine Ends.bind_ok (refuse_of_not (not_not.mpr hlen)) ?_
  exact Ends.bind_ok (refuse_of_not (by rw [hverify]; simp)) ends_mismatch

/-- The verifier refuses the opening of the miner for its arithmetic only. -/
theorem ends_verifyRecurPoint
    (hsite : Ends (fun _ => ¬ RecurSupported m ctx rec.nPos d) (· = d.site ll)
      (recurSite h (m.tierCtx index) ctx resp seed op))
    (hdecode : RecordsDecode h num ctx seq rec.nPos.toNat (d.site ll) op) :
    Ends (· = .mismatch) (fun _ => True)
      (verifyRecurPoint h num (m.tierCtx index) ctx resp seed op) := by
  refine Ends.bind (hsite.mono_error fun _ hne => absurd ht.supported hne) ?_
  rintro _ rfl
  refine Ends.bind (ht.ends_verifySegment hdecode) fun recs hcount => ?_
  obtain ⟨hle, hlt⟩ := ht.drawn.anchor_mem
  have hpast : d.anchor - d.first < recs.length := by omega
  have hget : recs[(d.site ll).p - (d.site ll).first]? = some recs[d.anchor - d.first] :=
    List.getElem?_eq_getElem hpast
  exact Ends.bind_ok (orFail_eq_ok.mpr hget) (ht.ends_verifyAnchor _)

end RecurTurn

/-- The verifier draws the miner's point in every layer that it supports, where the spans of the
point are in their leaves, the miner's opening has the spans and taps that it demands, and over the
captures of an answer and a model that fits the layer it refuses them for their arithmetic only. -/
theorem recurOpening_matches (m : TierManifest h) (rec : TraceRecord h) (seq : SeqTrace)
    (index : Pom.WeightIndex) (seed : Hash) (d : RecurDraw)
    (hd : drawRecur m rec seed = some d) :
    ∃ ctx ∈ m.chain, ∃ ll ∈ layerLinks m ctx d.layer,
      (RecurSupported m ctx rec.nPos d →
        RecurInside rec.nPos.toNat ctx (d.site ll) ∧ (d.spans m rec.nPos.toNat).isSome) ∧
      ∀ caps spans responseTxid op,
        recurOpening m rec seq index d caps spans responseTxid = .ok op →
          RecurDemands rec seq ctx (d.site ll) op ∧
          ∀ resp ∈ seqResponseCtx rec seq,
            Ends (fun _ => ¬ RecurSupported m ctx rec.nPos d) (· = d.site ll)
              (recurSite h (m.tierCtx index) ctx resp seed op) ∧
            ∀ num : RecurNumerics, Answered m rec seq index ctx caps →
              RecurSupported m ctx rec.nPos d → RecurFits m d ll rec.nPos.toNat →
              RecordsDecode h num ctx seq rec.nPos.toNat (d.site ll) op →
              Ends (· = .mismatch) (fun _ => True)
                (verifyRecurPoint h num (m.tierCtx index) ctx resp seed op) := by
  obtain ⟨ctx, ll, hdrawn⟩ := drawnRecur_of_drawRecur hd
  refine ⟨ctx, hdrawn.chain, ll, hdrawn.layer, fun hsupp => ?_, ?_⟩
  · exact ⟨hdrawn.inside hsupp, hdrawn.exists_spans hsupp⟩
  · intro caps spans responseTxid op hop
    obtain ⟨hpos, hseq, hlayer⟩ := roots_recurOpening hop
    refine ⟨hdrawn.demands hop, fun resp hresp => ?_⟩
    have hsite := @ends_recurSite _ _ _ _ index _ _ _ _ _ _ hdrawn hresp hpos hseq
      (hlayer ctx hdrawn.chain)
    refine ⟨hsite, fun num ha hsupp hfits hdecode => ?_⟩
    obtain ⟨hnPrompt, hnPos⟩ : resp.nPrompt = rec.nPrompt ∧ resp.nPos = rec.nPos := by
      obtain ⟨root, -, rfl⟩ := Option.map_eq_some_iff.mp hresp
      exact ⟨rfl, rfl⟩
    have hturn : RecurTurn m rec seq index ctx resp seed ll d caps op :=
      ⟨ha, hdrawn, builtRecur_of_recurOpening hop, hsupp, hfits, hnPrompt, hnPos⟩
    exact hturn.ends_verifyRecurPoint hsite hdecode

/-- One recurrent head: its projections are product 0, its strength product 1, its weights the norms
2 and 3. -/
def oneState : RecurLinks where
  kind := recurKda
  slot := 0
  nVHeads := 1
  nKHeads := 1
  headDim := 32
  q := 0
  k := 0
  v := 0
  convQ := 2
  convK := 2
  convV := 2
  beta := 1
  decay := 0
  dt := 2
  a := 3
  norm := 2
  gate := 0
  interval := 2
  convLen := 1

/-- The bytes of a norm of `k` values. -/
def normRaw (k size : Nat) : List UInt8 :=
  [0, 0] ++ toLe 4 0 ++ toLe 8 k ++ toLe 8 1 ++ toLe 4 1 ++ toLe 8 0 ++ toLe 8 size ++
    toLe 4 (4 * k) ++ [roleNorm, 0, formNone] ++ toLe 4 noneIndex.toNat ++
    toLe 4 noneIndex.toNat ++ [tagNone]

def normEntry (k size : UInt64) (rowBytes : UInt32) : Entry :=
  { layerEntry with k, m := 1, nExp := 1, nBytes := size, rowBytes, role := roleNorm, chain := .none }

/-- The bytes of a layer of one recurrent head. -/
def recurRaw : List UInt8 :=
  [0, 0] ++ toLe 4 0 ++ toLe 8 0 ++ toLe 8 0 ++ toLe 4 0 ++ toLe 8 0 ++ toLe 8 0 ++ toLe 4 0 ++
    [roleLayer, 0, formNone] ++ toLe 4 noneIndex.toNat ++ toLe 4 noneIndex.toNat ++
    [tagRecurLayer] ++ toLe 4 0 ++ toLe 4 0 ++ toLe 4 0 ++ toLe 4 noneIndex.toNat ++
    toLe 4 noneIndex.toNat ++ toLe 4 noneIndex.toNat ++
    ([1, 0, 1, 1, 32, 0, 0, 0, 2, 2, 2, 1, 0, 2, 3, 2, 0, 2, 1] : List UInt32).flatMap
      fun x => toLe 4 x.toNat

def recurEntry : Entry :=
  { layerEntry with
    chain := .layer ⟨0, 0, 0, noneIndex, noneIndex, noneIndex, none, none, some oneState⟩ }

theorem parse_recurRaw : Entry.parse recurRaw = some (recurEntry, recurRaw.length) := by
  decide +kernel

theorem parse_normRaw : Entry.parse (normRaw 32 128) = some (normEntry 32 128 128, 58) ∧
    Entry.parse (normRaw 1 32) = some (normEntry 1 32 4, 58) := by
  decide +kernel

/-- A manifest of one recurrent layer with two products. -/
def oneRecur : TierManifest zeroHash where
  entries := [(squareEntry, squareRaw), (productEntry, productRaw),
    (normEntry 32 128 128, normRaw 32 128), (normEntry 1 32 4, normRaw 1 32),
    (recurEntry, recurRaw)]
  nProducts := 2
  mT := Vector.replicate 32 0
  chain := some ⟨1, 4, 1, false, 0, 0, 1, 1⟩
  products_pos := toNat_two_pos
  products_le := by decide
  entries_lt := by decide
  parsed := by
    rintro er (_ | ⟨_, _ | ⟨_, _ | ⟨_, _ | ⟨_, _ | ⟨_, ⟨⟩⟩⟩⟩⟩⟩)
    · exact parse_squareRaw
    · decide
    · exact parse_normRaw.1
    · exact parse_normRaw.2
    · exact parse_recurRaw
  root := by
    simp only [rtRangeProof, Entry.leaf, blake3_zeroHash, List.map_cons, List.map_nil]
    exact RangeTree.Shape.root_replicate (n := 4) _ fun _ => blake3_zeroHash

/-- The first half of a segment. -/
def oneRecurDraw : RecurDraw where
  layer := 0
  slot := 0
  head := 0
  segment := 0
  first := 0
  stop := 1
  row0 := 0
  anchor := 0
  links := oneState
  proj := 0

/-- The record of one position of the layer. -/
def recurRecord : TraceRecord zeroHash := zeroRecord 6 (by decide)

theorem drawRecur_oneRecur (seed : Hash) :
    drawRecur oneRecur recurRecord seed = some oneRecurDraw := by
  rw [drawRecur, Draw.point_zeroHash]
  rfl

/-- The captures of the products at the position. -/
def recurCaptures : Captures := fun key =>
  if key.1 = 0 ∧ key.2 = 3 then some (List.replicate 4 0) else squareCaptures key

theorem exists_leafChunk {rec : TraceRecord zeroHash} {leaf : UInt32} {n : Nat} (hn : n = 128 ∨ n = 4) :
    ∃ chunk, leafChunk rec 0 leaf (List.replicate n 0) 0 = some chunk := by
  obtain rfl | rfl := hn <;> simp only [leafChunk, chunkWithPath, List.length_replicate] <;>
    exact ⟨_, rfl⟩

theorem exists_chunkAt {leaf : UInt32} {n : Nat} {e : String} (hn : n = 128 ∨ n = 4)
    (hcap : recurCaptures (captureKey 0 leaf) = some (List.replicate n 0)) : ∃ chunk,
    chunkAt recurRecord recurCaptures 0 leaf 0 e = .ok chunk := by
  obtain ⟨chunk, hchunk⟩ := @exists_leafChunk recurRecord leaf n hn
  refine ⟨chunk, ?_⟩
  rw [chunkAt, hcap, Option.bind_some, Nat.mul_zero, Nat.zero_div, hchunk]
  rfl

/-- Of the weights, four chunks and one are opened. -/
theorem exists_ranges : ∃ row value, rangeProof (blake3 zeroHash) zeroWeights 0 3 = some row ∧
    rangeProof (blake3 zeroHash) zeroWeights 0 0 = some value := by
  have hindex := indexed_zeroWeights
  have hmany := hindex.many
  have hsize := hindex.size
  obtain ⟨row, hrow, -⟩ := @rangeProof_accepted _ _ 0 3 hindex.built hmany hsize (by omega)
    (by omega)
  obtain ⟨value, hvalue, -⟩ := @rangeProof_accepted _ _ 0 0 hindex.built hmany hsize
    (Nat.le_refl 0) (by omega)
  exact ⟨row, value, hrow, hvalue⟩

/-- The first `n` bytes of an entry at the first chunk. -/
theorem exists_bytesRange {i n : Nat} {e : Entry} {range : ChunkRange}
    (he : oneRecur.entry i = some e) (hbase : e.chunkBase.toNat = 0) (hn : n ≠ 0)
    (hrange : rangeProof (blake3 zeroHash) zeroWeights 0 ((n - 1) / 32) = some range) :
    ∃ w, bytesRange oneRecur zeroWeights i 0 n = some w := by
  obtain ⟨eo, heo⟩ := TierManifest.exists_entryOpening he
  refine ⟨(eo, range), ?_⟩
  rw [bytesRange, he, Option.bind_eq_bind, Option.bind_some, if_neg hn, heo, hbase, Nat.zero_div,
    Nat.zero_add, Nat.zero_add, Nat.zero_add]
  exact congrArg (Option.bind · fun range => some (eo, range)) hrange

theorem exists_recurWeights : ∃ weights,
    recurWeights oneRecur zeroWeights oneRecurDraw = .ok weights := by
  obtain ⟨row, value, hrow, hvalue⟩ := exists_ranges
  obtain ⟨norm, hnorm⟩ := @exists_bytesRange 2 128 (normEntry 32 128 128) row rfl rfl (by decide) hrow
  obtain ⟨scale, hscale⟩ := @exists_bytesRange 3 4 (normEntry 1 32 4) value rfl rfl (by decide) hvalue
  have hconv : bytesRange oneRecur zeroWeights (2 : UInt32).toNat
      (4 * 0 * oneRecurDraw.links.convLen.toNat) (4 * oneRecurDraw.links.headDim.toNat *
        oneRecurDraw.links.convLen.toNat) = some norm := hnorm
  have hoffsets : oneRecurDraw.offsets = [0, 0, 0] := by decide
  refine ⟨[norm, norm, norm, norm, scale, norm], ?_⟩
  simp only [recurWeights, bind_eq_ok, orFail_eq_ok]
  refine ⟨[norm, norm, norm], ?_, _, hnorm, _, hscale, _, hnorm, rfl⟩
  rw [hoffsets]
  change List.mapM' _ [((2 : UInt32), 0), (2, 0), (2, 0)] = _
  simp only [List.mapM'_cons, List.mapM'_nil, hconv]
  rfl

theorem exists_recurOpening : ∃ op, recurOpening oneRecur recurRecord (zeroSeq 2) zeroWeights
    oneRecurDraw recurCaptures [zeroCaptures 324] (Vector.replicate 32 0) = .ok op := by
  obtain ⟨layer, hlayer⟩ := TierManifest.exists_entryOpening
    (show oneRecur.entry 4 = some recurEntry from rfl)
  obtain ⟨eo, heo⟩ := TierManifest.exists_entryOpening
    (show oneRecur.entry 0 = some squareEntry from rfl)
  obtain ⟨weights, hweights⟩ := exists_recurWeights
  obtain ⟨records, hrecords⟩ := @captured_zeroSeq 0 2 324 "no record span" (by decide) (by decide)
  obtain ⟨q, hq⟩ := @exists_chunkAt 1 128 "query tap" (.inl rfl) rfl
  obtain ⟨k, hk⟩ := @exists_chunkAt 1 128 "key tap" (.inl rfl) rfl
  obtain ⟨v, hv⟩ := @exists_chunkAt 1 128 "value tap" (.inl rfl) rfl
  obtain ⟨beta, hbeta⟩ := @exists_chunkAt 3 4 "beta chunk" (.inr rfl) rfl
  obtain ⟨decay, hdecay⟩ := @exists_chunkAt 1 128 "decay chunk" (.inl rfl) rfl
  obtain ⟨gate, hgate⟩ := @exists_chunkAt 1 128 "gate chunk" (.inl rfl) rfl
  have htap : recurTap recurRecord oneRecurDraw recurCaptures 0 =
      .ok ⟨recurRecord.posPath 0, q, k, v⟩ :=
    bind_eq_ok.mpr ⟨q, hq, bind_eq_ok.mpr ⟨k, hk, bind_eq_ok.mpr ⟨v, hv, rfl⟩⟩⟩
  have hspans : RecurDraw.spans oneRecur oneRecurDraw 1 = some [⟨0, 324, 0, 324⟩] := rfl
  simp only [recurOpening, bind_eq_ok, orFail_eq_ok, mapM'_eq_ok]
  exact ⟨_, _, .cons htap .nil, _, hweights, _, hspans, (), rfl, _, hrecords, _, rfl, _, rfl, _, rfl,
    _, hlayer, _, heo, _, heo, _, hbeta, _, hdecay, _, hgate, _, rfl, rfl⟩

/-- The context of the one layer. -/
def recurCtx : ChainCtx := ⟨1, 4, 1, false, 0, 0, 1, 1⟩

theorem entry_oneRecur {r : UInt32} (hr : r.toNat < oneRecur.np) {e : Entry}
    (he : e ∈ oneRecur.entry r.toNat) : r = 0 ∧ e = squareEntry ∨ r = 1 ∧ e = productEntry := by
  have hcases : r.toNat = 0 ∨ r.toNat = 1 := by
    have hlt : r.toNat < 2 := hr
    omega
  obtain hr | hr := hcases
  · obtain rfl : r = 0 := UInt32.toNat_inj.mp hr
    cases he
    exact .inl ⟨rfl, rfl⟩
  · obtain rfl : r = 1 := UInt32.toNat_inj.mp hr
    cases he
    exact .inr ⟨rfl, rfl⟩

theorem rows_recurCaptures : WholeRows oneRecur recurRecord recurCaptures where
  committed t ht leaf bytes hbytes := by
    obtain rfl : t = 0 := Nat.lt_one_iff.mp ht
    have hleaves : recurRecord.leavesAt 0 = List.replicate 7 (Vector.replicate 32 0) := by decide
    rw [hleaves, blake3_zeroHash]
    unfold recurCaptures squareCaptures at hbytes
    rw [Option.mem_def] at hbytes
    have hleaf : (leaf = 3 ∨ leaf = 0 ∨ leaf = 1) ∧ bytes.length < 2 ^ 32 := by
      split at hbytes
      · next hkey =>
        cases hbytes
        exact ⟨.inl hkey.2, by rw [List.length_replicate]; decide⟩
      split at hbytes
      · next hkey =>
        cases hbytes
        exact ⟨.inr (.inl hkey.2), by rw [List.length_replicate]; decide⟩
      split at hbytes
      · next hkey =>
        cases hbytes
        exact ⟨.inr (.inr hkey.2), by rw [List.length_replicate]; decide⟩
      · cases hbytes
    refine ⟨?_, hleaf.2⟩
    obtain rfl | rfl | rfl := hleaf.1 <;> decide
  input t ht r hr e he _ bytes hbytes := by
    obtain rfl : t = 0 := Nat.lt_one_iff.mp ht
    obtain ⟨rfl, rfl⟩ | ⟨rfl, rfl⟩ := entry_oneRecur hr he
    · cases hbytes
      rw [List.length_replicate]
      decide
    · cases hbytes
  output t ht r hr e he _ bytes hbytes := by
    obtain rfl : t = 0 := Nat.lt_one_iff.mp ht
    obtain ⟨rfl, rfl⟩ | ⟨rfl, rfl⟩ := entry_oneRecur hr he
    · cases hbytes
      rw [List.length_replicate]
      decide
    · cases hbytes
      decide

theorem answered_recurCaptures :
    Answered oneRecur recurRecord (zeroSeq 2) zeroWeights recurCtx recurCaptures where
  chain := rfl
  products_le := by decide
  nLeaves := by decide
  indexed := indexed_zeroWeights
  rows := rows_recurCaptures
  seqLeaves := by decide
  seqLeaves_le := by decide
  seqRoot := RangeTree.Shape.root_replicate (n := 1) _ fun top => by cases top <;> rfl

theorem norm_oneRecur : NormEntry oneRecur 2 32 ∧ NormEntry oneRecur 3 1 := by
  constructor <;> rintro e ⟨⟩ <;> decide

theorem outputs_oneRecur : Outputs oneRecur 0 32 ∧ Outputs oneRecur 1 1 := by
  refine ⟨⟨by decide, ?_⟩, ⟨by decide, ?_⟩⟩ <;> rintro e ⟨⟩ <;> exact ⟨.inl rfl, by decide⟩

theorem fits_oneRecur {ll : LayerLinks} : RecurFits oneRecur oneRecurDraw ll 1 where
  q := outputs_oneRecur.1
  k := outputs_oneRecur.1
  v := outputs_oneRecur.1
  beta := outputs_oneRecur.2
  decay := outputs_oneRecur.1
  decayRole := by
    rintro e ⟨⟩
    rfl
  gate := outputs_oneRecur.1
  conv := by
    intro i hi
    obtain rfl : i = 2 := by simpa [oneRecurDraw, oneState] using hi
    exact norm_oneRecur.1
  dt := norm_oneRecur.1
  a := norm_oneRecur.2
  norm := norm_oneRecur.1
  output := by
    refine ⟨by decide, ?_⟩
    rintro e ⟨⟩
    decide
  chunks := by decide
  records := by decide
  checkpoints := by decide

/-- Numbers that agree with everything. -/
def recurAgreeing : RecurNumerics where
  Record := Unit
  State := Unit
  decode _ _ _ := some ()
  zero _ := ()
  rows _ _ := some ()
  step _ _ _ _ _ := some ()
  closeTo _ _ := true
  inputsMatch _ _ _ _ := true
  betaMatches _ _ := true
  decayMatches _ _ _ _ := true
  outputMatches _ _ _ _ _ _ _ _ := true

/-- The opening of the one head, over a record of one position, is refused for its arithmetic only. -/
theorem recurOpening_matches_oneRecur : ∃ op ll,
    recurOpening oneRecur recurRecord (zeroSeq 2) zeroWeights oneRecurDraw recurCaptures
        [zeroCaptures 324] (Vector.replicate 32 0) = .ok op ∧
      RecurDemands recurRecord (zeroSeq 2) recurCtx (oneRecurDraw.site ll) op ∧
      recurSite zeroHash (oneRecur.tierCtx zeroWeights) recurCtx ⟨Vector.replicate 32 0, 1, 1⟩
        (Vector.replicate 32 0) op = .ok (oneRecurDraw.site ll) ∧
      Ends (· = .mismatch) (fun _ => True)
        (verifyRecurPoint zeroHash recurAgreeing (oneRecur.tierCtx zeroWeights) recurCtx
          ⟨Vector.replicate 32 0, 1, 1⟩ (Vector.replicate 32 0) op) := by
  obtain ⟨op, hop⟩ := exists_recurOpening
  obtain ⟨ctx, hctx, ll, -, -, hopening⟩ := recurOpening_matches oneRecur recurRecord (zeroSeq 2)
    zeroWeights (Vector.replicate 32 0) oneRecurDraw (drawRecur_oneRecur _)
  obtain rfl : recurCtx = ctx := Option.some.inj hctx
  obtain ⟨hdemands, hends⟩ := hopening _ _ _ op hop
  have hsupp : RecurSupported oneRecur recurCtx recurRecord.nPos oneRecurDraw := by
    refine ⟨by decide, by decide, ?_, by decide, by decide, by decide, by decide, by decide,
      by decide⟩
    rintro e ⟨⟩
    exact ⟨rfl, by rintro ll ⟨⟩; rfl⟩
  obtain ⟨hsite, haccepted⟩ := hends _ (mem_seqResponseCtx_zeroSeq rfl rfl rfl)
  refine ⟨op, ll, hop, hdemands, ?_, haccepted recurAgreeing answered_recurCaptures hsupp
    fits_oneRecur fun _ _ _ _ _ _ => rfl⟩
  revert hsite
  cases recurSite zeroHash (oneRecur.tierCtx zeroWeights) recurCtx _ _ _ with
  | ok s =>
    rintro rfl
    rfl
  | error e => exact fun hne => absurd hsupp hne

end KeryxMiner.Replay
