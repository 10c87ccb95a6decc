import KeryxMiner.Replay.AttnMatches
import KeryxMiner.Replay.RecurDraw

/-!
# Recurrent points on both sides

The verifier draws the miner's recurrent point (`ends_recurSite`), the spans and channels of a drawn
point are in their leaves (`exists_spans`), and the opening that the miner builds has the spans and
taps that the verifier demands.
-/

namespace KeryxMiner.Replay

open Inference Manifest
open Openings hiding Hash

variable {h : Blake3} {m : TierManifest h} {rec : TraceRecord h} {seq : SeqTrace}
  {index : Pom.WeightIndex} {ctx : ChainCtx} {seed : Hash} {d : RecurDraw} {ll : LayerLinks}
  {op : RecurOpening}

/-! ## The draw -/

/-- What the miner draws, in the layer of the links `ll`. -/
structure DrawnRecur (m : TierManifest h) (rec : TraceRecord h) (ctx : ChainCtx) (seed : Hash)
    (ll : LayerLinks) (d : RecurDraw) : Prop where
  chain : m.chain = some ctx
  nRecur : ctx.nRecur ≠ 0
  layer_lt : d.layer < ctx.nLayers.toNat
  layer : layerLinks m ctx d.layer = some ll
  links : ll.recur = some d.links
  proj : d.proj = ll.proj
  slot : d.slot = Draw.point h seed Draw.recurPoint 1 % ctx.nRecur.toNat
  slot_links : d.links.slot.toNat = d.slot
  interval : d.links.interval.toNat ≠ 0
  nVHeads : d.links.nVHeads.toNat ≠ 0
  headDim : recurRows ≤ d.links.headDim.toNat
  head : d.head = Draw.point h seed Draw.recurPoint 2 % d.links.nVHeads.toNat
  segment : d.segment = Draw.point h seed Draw.recurPoint 0 %
    ((rec.nPos.toNat + d.links.interval.toNat - 1) / d.links.interval.toNat)
  first : d.first = d.segment * d.links.interval.toNat
  stop : d.stop = min ((d.segment + 1) * d.links.interval.toNat) rec.nPos.toNat
  row0 : d.row0 =
    Draw.point h seed Draw.recurPoint 3 % (d.links.headDim.toNat / recurRows) * recurRows
  anchor : d.anchor =
    d.first + Draw.point h seed Draw.recurPoint 3 / 2 ^ 32 % (d.stop - d.first)

theorem drawnRecur_of_drawRecur (hd : drawRecur m rec seed = some d) :
    ∃ ctx ll, DrawnRecur m rec ctx seed ll d := by
  simp only [drawRecur, Option.bind_eq_bind, Option.bind_eq_some_iff] at hd
  obtain ⟨ctx, hctx, hd⟩ := hd
  split at hd
  · cases hd
  next hnRecur =>
  obtain ⟨⟨layer, ll, r⟩, hfind, hd⟩ := Option.bind_eq_some_iff.mp hd
  obtain ⟨hlt, hll, hpick⟩ := of_findLayer hfind
  obtain ⟨hrecur, hslot⟩ := Option.filter_eq_some_iff.mp hpick
  dsimp only at hd
  split at hd
  · cases hd
  next hzero =>
  simp only [not_or, Nat.not_lt] at hzero
  obtain ⟨hinterval, hheads, hdim⟩ := hzero
  cases hd
  refine ⟨ctx, ll, hctx, hnRecur, hlt, hll, hrecur, rfl, rfl, of_decide_eq_true hslot, hinterval,
    fun hzero => hheads (UInt32.toNat_inj.mp hzero), hdim, rfl, rfl, rfl, rfl, rfl, rfl⟩

namespace DrawnRecur

variable (hd : DrawnRecur m rec ctx seed ll d)

include hd

theorem slot_lt : d.slot < ctx.nRecur.toNat := by
  rw [hd.slot]
  exact Nat.mod_lt _ (Nat.pos_of_ne_zero fun hzero => hd.nRecur (UInt32.toNat_inj.mp hzero))

theorem head_lt : d.head < d.links.nVHeads.toNat := by
  rw [hd.head]
  exact Nat.mod_lt _ (Nat.pos_of_ne_zero hd.nVHeads)

/-- A segment begins at a position of the trace. -/
theorem first_lt : d.first < rec.nPos.toNat := by
  have hinterval := hd.interval
  have hpos := rec.prompt_pos
  have hle := rec.prompt_le
  have hceil : 0 < (rec.nPos.toNat + d.links.interval.toNat - 1) / d.links.interval.toNat :=
    Nat.div_pos (by omega) (by omega)
  have hsegment : d.segment + 1 ≤
      (rec.nPos.toNat + d.links.interval.toNat - 1) / d.links.interval.toNat := by
    rw [hd.segment]
    exact Nat.mod_lt _ hceil
  have hmul := (Nat.le_div_iff_mul_le (by omega)).mp hsegment
  rw [Nat.add_mul, Nat.one_mul] at hmul
  rw [hd.first]
  omega

theorem first_lt_stop : d.first < d.stop := by
  have hinterval := hd.interval
  have hlt := hd.first_lt
  have hfirst := hd.first
  rw [hd.stop, Nat.add_mul, Nat.one_mul, ← hfirst]
  omega

theorem stop_le : d.stop ≤ rec.nPos.toNat := by
  rw [hd.stop]
  exact Nat.min_le_right ..

/-- The drawn position is one of the segment. -/
theorem anchor_mem : d.first ≤ d.anchor ∧ d.anchor < d.stop := by
  have hlt := hd.first_lt_stop
  have hmod := Nat.mod_lt (Draw.point h seed Draw.recurPoint 3 / 2 ^ 32)
    (show 0 < d.stop - d.first by omega)
  rw [hd.anchor]
  omega

/-- The drawn rows are rows of the state. -/
theorem row0_le : d.row0 + recurRows ≤ d.links.headDim.toNat := by
  have hdim := hd.headDim
  have hmod := Nat.mod_lt (Draw.point h seed Draw.recurPoint 3)
    (Nat.div_pos hdim (by decide : 0 < recurRows))
  have hmul := Nat.div_mul_le_self d.links.headDim.toNat recurRows
  have hle := Nat.mul_le_mul_right recurRows (Nat.succ_le_of_lt hmod)
  rw [Nat.succ_mul] at hle
  rw [hd.row0]
  omega

/-- A needed checkpoint is one of the trace. -/
theorem checkpoint_mem {c : Nat} (hc : c ∈ d.checkpoints) :
    1 ≤ c ∧ c ≤ rec.nPos.toNat / d.links.interval.toNat := by
  have hinterval := hd.interval
  have hfirst := hd.first
  have hlt := hd.first_lt_stop
  have hle := hd.stop_le
  rw [RecurDraw.checkpoints, List.mem_append] at hc
  obtain hc | hc := hc
  · split at hc
    · next hpos =>
      obtain rfl := List.mem_singleton.mp hc
      refine ⟨hpos, (Nat.le_div_iff_mul_le (by omega)).mpr ?_⟩
      omega
    · cases hc
  · split at hc
    · next hwhole =>
      obtain rfl := List.mem_singleton.mp hc
      refine ⟨by omega, (Nat.le_div_iff_mul_le (by omega)).mpr ?_⟩
      rw [Nat.add_mul, Nat.one_mul]
      omega
    · cases hc

end DrawnRecur

theorem RecurDraw.segment_mem_checkpoints (hsegment : 0 < d.segment) :
    d.segment ∈ d.checkpoints := by
  rw [checkpoints, if_pos hsegment]
  exact List.mem_append_left _ (List.mem_singleton.mpr rfl)

theorem RecurDraw.next_mem_checkpoints (hwhole : d.stop - d.first = d.links.interval.toNat) :
    d.segment + 1 ∈ d.checkpoints := by
  rw [checkpoints, if_pos hwhole]
  exact List.mem_append_right _ (List.mem_singleton.mpr rfl)

/-! ## The site -/

/-- The point as the verifier draws it. -/
def RecurDraw.site (d : RecurDraw) (ll : LayerLinks) : RecurSite where
  layer := d.layer
  ll := ll
  r := d.links
  slot := d.slot
  head := d.head
  segment := d.segment
  first := d.first
  stop := d.stop
  row0 := d.row0
  p := d.anchor

/-- What the verifier supports of a recurrent layer. -/
structure RecurSupported (m : TierManifest h) (ctx : ChainCtx) (nPos : UInt32) (d : RecurDraw) :
    Prop where
  nPos : nPos ≠ 0
  seqHeads : ctx.seqHeads ≠ 0
  layer : LayerPlaced m ctx d.layer
  kind : d.links.kind = recurGda ∨ d.links.kind = recurKda
  convLen : 1 ≤ d.links.convLen ∧ d.links.convLen ≤ 8
  headDim : d.links.headDim.toNat % 32 = 0 ∧ d.links.headDim.toNat % recurRows = 0
  heads : d.links.nKHeads.toNat ≠ 0 ∧ d.links.nVHeads.toNat % d.links.nKHeads.toNat = 0
  heads_le : d.links.nVHeads.toNat ≤ ctx.seqHeads.toNat
  kda : d.links.kind = recurKda → d.links.nKHeads.toNat = d.links.nVHeads.toNat

/-- The verifier draws the miner's point, in every layer that it supports. -/
theorem ends_recurSite {resp : ResponseCtx} (hd : DrawnRecur m rec ctx seed ll d)
    (hresp : resp ∈ seqResponseCtx rec seq) (hpos : op.posRoot = rec.traceRoot)
    (hseq : op.seqRoot = seq.root)
    (hlayer : m.entryOpening (ctx.layerBase.toNat + d.layer) = some op.layer) :
    Ends (fun _ => ¬ RecurSupported m ctx rec.nPos d) (· = d.site ll)
      (recurSite h (m.tierCtx index) ctx resp seed op) := by
  obtain ⟨root, hroot, rfl⟩ := Option.map_eq_some_iff.mp hresp
  refine Ends.bind (ends_refuse fun hbad hsupp => ?_) fun _ _ => ?_
  · obtain hbad | hbad | hbad := hbad
    · exact hsupp.nPos hbad
    · exact hd.nRecur hbad
    · exact hsupp.seqHeads hbad
  refine Ends.bind_ok (refuse_of_not (by rw [hpos, hseq, hroot]; simp)) ?_
  have hopen := ends_openLayer index hd.layer_lt hd.layer hlayer
  refine Ends.bind (hopen.mono_error fun _ hne hsupp => hne hsupp.layer) ?_
  rintro _ rfl
  refine Ends.bind_ok (orFail_eq_ok.mpr hd.links) ?_
  refine Ends.bind_ok (refuse_of_not (by rw [hd.slot_links, hd.slot]; simp)) ?_
  refine Ends.bind (ends_refuse fun hbad hsupp => ?_) fun _ _ => ?_
  · obtain hbad | hbad | hbad := hbad
    · exact hbad hsupp.kind
    · exact hbad hsupp.convLen
    · exact hd.interval hbad
  refine Ends.bind (ends_refuse fun hbad hsupp => ?_) fun _ _ => ?_
  · obtain hbad | hbad | hbad | hbad | hbad | hbad | ⟨hkda, hbad⟩ := hbad
    · have hdim := hd.headDim
      rw [hbad] at hdim
      exact absurd hdim (by decide)
    · exact hbad hsupp.headDim.1
    · exact hbad hsupp.headDim.2
    · exact hsupp.heads.1 hbad
    · exact hbad hsupp.heads.2
    · have hle := hsupp.heads_le
      omega
    · exact hbad (hsupp.kda hkda)
  refine Ends.pure ?_
  have hsegment := hd.segment
  have hfirst := hd.first
  have hstop := hd.stop
  have hanchor := hd.anchor
  rw [hsegment] at hfirst hstop
  rw [hfirst, hstop] at hanchor
  rw [RecurDraw.site, RecurSite.mk.injEq]
  exact ⟨rfl, rfl, rfl, hd.slot.symm, hd.head.symm, hsegment.symm, hfirst.symm, hstop.symm,
    hd.row0.symm, hanchor.symm⟩

/-! ## Spans in their leaves -/

/-- A drawn point is in the trace and its spans and channels are in their leaves. -/
structure RecurInside (nPos : Nat) (ctx : ChainCtx) (s : RecurSite) : Prop where
  anchor : s.first ≤ s.p ∧ s.p < s.stop ∧ s.stop ≤ nPos
  taps : ∀ j < s.nTaps, s.tapPosition j ≤ s.p
  leaves : ∃ leaf, (seqLayout ctx).record s.slot s.head = some leaf ∧ leaf + 1 < (seqLayout ctx).nLeaves
  records : s.recordBounds.1 < s.recordBounds.2 ∧
    s.recordBounds.2 ≤ nPos * recordLen s.r.kind s.hd
  start : s.segment ≠ 0 → (s.rowBounds s.segment).1 < (s.rowBounds s.segment).2 ∧
    (s.rowBounds s.segment).2 ≤ checkpointLen s.hd nPos s.r.interval.toNat
  stop : s.stop - s.first = s.r.interval.toNat →
    (s.rowBounds (s.segment + 1)).1 < (s.rowBounds (s.segment + 1)).2 ∧
    (s.rowBounds (s.segment + 1)).2 ≤ checkpointLen s.hd nPos s.r.interval.toNat
  channels : ∀ off ∈ s.channels.1, off + s.hd ≤ s.channels.2
  head : s.head < s.nv

theorem checkpointRows_le {hd nPos interval c r0 n : Nat} (hpos : 1 ≤ c)
    (hle : c ≤ nPos / interval) (hn : 0 < n) (hrow : r0 + n ≤ hd) :
    (checkpointRows hd c r0 n).1 < (checkpointRows hd c r0 n).2 ∧
      (checkpointRows hd c r0 n).2 ≤ checkpointLen hd nPos interval := by
  obtain ⟨c, rfl⟩ := Nat.exists_eq_add_of_le' hpos
  have hdim : 0 < n * hd := Nat.mul_pos hn (by omega)
  have hrows : (r0 + n) * hd ≤ hd * hd := Nat.mul_le_mul_right hd hrow
  have hstate : (c + 1) * (hd * hd) ≤ nPos / interval * (hd * hd) := Nat.mul_le_mul_right _ hle
  rw [checkpointRows, checkpointLen, Nat.add_sub_cancel, Nat.mul_assoc c, Nat.mul_assoc (nPos / _)]
  rw [Nat.add_mul] at hrows
  rw [Nat.add_mul, Nat.one_mul] at hstate
  dsimp only
  rw [Nat.add_mul r0]
  omega

theorem SeqLayout.exists_record {l : SeqLayout} {slot head : Nat} (hslot : slot < l.nRecur)
    (hhead : head < l.heads) : ∃ leaf, l.record slot head = some leaf ∧ leaf + 1 < l.nLeaves := by
  have hmul := Nat.mul_le_mul_right l.heads (Nat.succ_le_of_lt hslot)
  rw [Nat.succ_mul, Nat.mul_comm l.nRecur] at hmul
  have hsplit : 2 * l.heads * (l.nAttn + l.nRecur) =
      2 * l.heads * l.nAttn + 2 * (l.heads * l.nRecur) := by
    rw [Nat.mul_add, Nat.mul_assoc 2 l.heads l.nRecur]
  refine ⟨_, if_pos ⟨hslot, hhead⟩, ?_⟩
  rw [SeqLayout.nLeaves, hsplit]
  omega

/-- Every span of a drawn point is in its leaf, if the verifier supports its layer. -/
theorem DrawnRecur.inside (hd : DrawnRecur m rec ctx seed ll d)
    (hsupp : RecurSupported m ctx rec.nPos d) :
    RecurInside rec.nPos.toNat ctx (d.site ll) := by
  have hhead := hd.head_lt
  have hrow := hd.row0_le
  obtain ⟨hle, hlt⟩ := hd.anchor_mem
  refine ⟨⟨hle, hlt, hd.stop_le⟩, fun j hj => ?_, ?_, ?_, fun hsegment => ?_, fun hwhole => ?_, ?_,
    hhead⟩
  · rw [RecurSite.tapPosition]
    omega
  · exact SeqLayout.exists_record hd.slot_lt (Nat.lt_of_lt_of_le hhead hsupp.heads_le)
  · have hpos : 0 < recordLen d.links.kind d.links.headDim.toNat := by
      rw [recordLen]
      omega
    exact ⟨Nat.mul_lt_mul_of_pos_right hd.first_lt_stop hpos, Nat.mul_le_mul_right _ hd.stop_le⟩
  · obtain ⟨hone, hmem⟩ := hd.checkpoint_mem
      (RecurDraw.segment_mem_checkpoints (Nat.pos_of_ne_zero hsegment))
    exact checkpointRows_le hone hmem (by decide) hrow
  · obtain ⟨hone, hmem⟩ := hd.checkpoint_mem (RecurDraw.next_mem_checkpoints hwhole)
    exact checkpointRows_le hone hmem (by decide) hrow
  · intro off hoff
    have hvalue := @mul_add_le d.head _ d.links.headDim.toNat hhead
    rw [RecurSite.channels] at hoff ⊢
    split at hoff
    · next hkda =>
      rw [if_pos hkda]
      simp only [List.mem_cons, List.not_mem_nil, or_false, or_self] at hoff
      rw [hoff]
      exact hvalue
    · next hkda =>
      rw [if_neg hkda]
      have hkey := @mul_add_le (d.head % d.links.nKHeads.toNat) _ d.links.headDim.toNat
        (Nat.mod_lt _ (Nat.pos_of_ne_zero hsupp.heads.1))
      have hsum : (2 * d.links.nKHeads.toNat + d.links.nVHeads.toNat) * d.links.headDim.toNat =
          2 * d.links.nKHeads.toNat * d.links.headDim.toNat +
            d.links.nVHeads.toNat * d.links.headDim.toNat := Nat.add_mul ..
      have htwo : 2 * d.links.nKHeads.toNat * d.links.headDim.toNat =
          2 * (d.links.nKHeads.toNat * d.links.headDim.toNat) := Nat.mul_assoc ..
      change off + d.links.headDim.toNat ≤
        (2 * d.links.nKHeads.toNat + d.links.nVHeads.toNat) * d.links.headDim.toNat
      rw [hsum]
      simp only [List.mem_cons, List.not_mem_nil, or_false] at hoff
      obtain rfl | rfl | rfl := hoff
      · change d.head % d.links.nKHeads.toNat * d.links.headDim.toNat + _ ≤ _
        omega
      · change (d.links.nKHeads.toNat + d.head % d.links.nKHeads.toNat) * d.links.headDim.toNat + _ ≤ _
        rw [Nat.add_mul]
        omega
      · change 2 * d.links.nKHeads.toNat * d.links.headDim.toNat + d.head * d.links.headDim.toNat + _ ≤ _
        omega

/-! ## The opening -/

/-- The plan of the records of a segment. -/
def recordPlan (ctx : ChainCtx) (nPos : Nat) (s : RecurSite) : Option SpanPlan :=
  leafPlan ((seqLayout ctx).record s.slot s.head) (nPos * recordLen s.r.kind s.hd)
    s.recordBounds.1 s.recordBounds.2

/-- The plan of the drawn rows of checkpoint `c`. -/
def checkpointPlan (ctx : ChainCtx) (nPos : Nat) (s : RecurSite) (c : Nat) : Option SpanPlan :=
  leafPlan ((seqLayout ctx).checkpoint s.slot s.head)
    (checkpointLen s.hd nPos s.r.interval.toNat) (s.rowBounds c).1 (s.rowBounds c).2

/-- `s` is a captured span of `plan`. -/
def Planned (h : Blake3) (seq : SeqTrace) (plan : Option SpanPlan) (s : SeqSpan) : Prop :=
  ∃ p cap, plan = some p ∧ span h p cap seq = .ok s

/-- The chunk of an activation leaf that holds value `off`. -/
def valueChunk (off : Nat) : UInt32 := UInt32.ofNat (off / (b3Chunk / 4))

/-- What the verifier demands of the opening of the point `s`. -/
structure RecurDemands (rec : TraceRecord h) (seq : SeqTrace) (ctx : ChainCtx) (s : RecurSite)
    (op : RecurOpening) : Prop where
  records : Planned h seq (recordPlan ctx rec.nPos.toNat s) op.records
  start : op.startRows ≠ default ↔ s.segment ≠ 0
  startRows : s.segment ≠ 0 →
    Planned h seq (checkpointPlan ctx rec.nPos.toNat s s.segment) op.startRows
  stop : op.endRows ≠ default ↔ s.stop - s.first = s.r.interval.toNat
  endRows : s.stop - s.first = s.r.interval.toNat →
    Planned h seq (checkpointPlan ctx rec.nPos.toNat s (s.segment + 1)) op.endRows
  nTaps : op.taps.length = s.nTaps
  taps : ∀ j tap, op.taps[j]? = some tap → tap.posPath = rec.posPath (s.tapPosition j) ∧
    [tap.q.index, tap.k.index, tap.v.index] = s.channels.1.map valueChunk
  weights : op.weights.length = 6
  anchor : op.beta.index = valueChunk s.head ∧
    op.decay.index = valueChunk (s.head * s.decayLen) ∧ op.gate.index = valueChunk (s.head * s.hd)

theorem length_bytes_span {plan : SpanPlan} {cap : SeqCapture} {s : SeqSpan}
    (hs : span h plan cap seq = .ok s) : s.bytes.length = plan.hi - plan.lo := by
  rw [span] at hs
  split at hs
  · cases hs
  split at hs
  · cases hs
  next hlen =>
  cases hproof : spanProof h plan cap _ with
  | error e =>
    rw [hproof] at hs
    cases hs
  | ok proof =>
    rw [hproof] at hs
    cases hs
    exact not_not.mp hlen

theorem SpanPlan.of_new {leaf total lo hi : Nat} {plan : SpanPlan}
    (hplan : SpanPlan.new leaf total lo hi = some plan) :
    lo < hi ∧ hi ≤ total ∧ plan.lo = chunkFloor lo ∧ plan.hi = chunkCeil total hi := by
  rw [SpanPlan.new] at hplan
  split at hplan
  · next hspan =>
    cases hplan
    exact ⟨hspan.1, hspan.2, rfl, rfl⟩
  · cases hplan

/-- A captured span has bytes. -/
theorem Planned.ne_default {leaf : Option Nat} {total lo hi : Nat} {s : SeqSpan}
    (hs : Planned h seq (leafPlan leaf total lo hi) s) : s ≠ default := by
  obtain ⟨plan, cap, hplan, hs⟩ := hs
  obtain ⟨leaf, -, hplan⟩ := Option.bind_eq_some_iff.mp hplan
  obtain ⟨hlt, hle, hlo, hhi⟩ := SpanPlan.of_new hplan
  rintro rfl
  have hlen := length_bytes_span hs
  rw [hlo, hhi, chunkFloor_eq, chunkCeil_eq] at hlen
  change 0 = _ at hlen
  omega

theorem planned_of_captured {plan : Option SpanPlan} {cap : Option SeqCapture} {e : String}
    {s : SeqSpan} (hs : captured (h := h) seq plan cap e = .ok s) : Planned h seq plan s := by
  simp only [captured, bind_eq_ok, orFail_eq_ok] at hs
  obtain ⟨p, hp, c, -, hs⟩ := hs
  exact ⟨p, c, hp, hs⟩

/-- A part that is captured if it is there is there exactly if it has bytes. -/
theorem planned_of_partIf {there : Prop} [Decidable there] {plan : Option SpanPlan}
    {cap : Option SeqCapture} {e : String} {leaf : Option Nat} {total lo hi : Nat} {s : SeqSpan}
    (hs : there ∧ captured (h := h) seq plan cap e = .ok s ∨ ¬ there ∧ s = default)
    (hplan : there → plan = leafPlan leaf total lo hi) :
    (s ≠ default ↔ there) ∧ (there → Planned h seq (leafPlan leaf total lo hi) s) := by
  obtain ⟨hthere, hs⟩ | ⟨hthere, rfl⟩ := hs
  · rw [hplan hthere] at hs
    have hplanned := planned_of_captured hs
    exact ⟨iff_of_true hplanned.ne_default hthere, fun _ => hplanned⟩
  · exact ⟨iff_of_false (fun hne => hne rfl) hthere, fun h => absurd h hthere⟩

/-- The spans that the miner plans are the verifier's: records, then the rows of the checkpoints. -/
theorem recurSpans_eq (ll : LayerLinks) (hctx : m.chain = some ctx) {nPos : Nat} :
    d.spans m nPos = (recordPlan ctx nPos (d.site ll)).bind fun records =>
      (d.checkpoints.mapM' (checkpointPlan ctx nPos (d.site ll))).map (records :: ·) := by
  rw [RecurDraw.spans, hctx]
  cases hrecord : (seqLayout ctx).record d.slot d.head with
  | none =>
    have hplan : recordPlan ctx nPos (d.site ll) = none := congrArg (Option.bind · _) hrecord
    rw [hplan]
    simp only [Option.bind_eq_bind, Option.bind_some, hrecord]
    rfl
  | some leaf =>
    have hck : (seqLayout ctx).checkpoint d.slot d.head = some (leaf + 1) := by
      rw [SeqLayout.checkpoint, hrecord]
      rfl
    have hplan : checkpointPlan ctx nPos (d.site ll) = fun c =>
        SpanPlan.new (leaf + 1) (checkpointLen d.links.headDim.toNat nPos d.links.interval.toNat)
          (checkpointRows d.links.headDim.toNat c d.row0 recurRows).1
          (checkpointRows d.links.headDim.toNat c d.row0 recurRows).2 := by
      funext c
      change leafPlan ((seqLayout ctx).checkpoint d.slot d.head) _ _ _ = _
      rw [hck]
      rfl
    have hrecordPlan : recordPlan ctx nPos (d.site ll) = SpanPlan.new leaf _ _ _ :=
      congrArg (Option.bind · _) hrecord
    rw [hrecordPlan]
    simp only [Option.bind_eq_bind, Option.bind_some, hrecord, hck, hplan, Option.map_eq_bind]
    rfl

/-- The plans of the miner in their order. -/
theorem of_recurSpans (hctx : m.chain = some ctx) {nPos : Nat} {plans : List SpanPlan}
    (hplans : d.spans m nPos = some plans) (ll : LayerLinks) :
    plans[0]? = recordPlan ctx nPos (d.site ll) ∧
      (0 < d.segment → plans[1]? = checkpointPlan ctx nPos (d.site ll) d.segment) ∧
      (d.stop - d.first = d.links.interval.toNat → plans[if 0 < d.segment then 2 else 1]? =
        checkpointPlan ctx nPos (d.site ll) (d.segment + 1)) := by
  rw [recurSpans_eq ll hctx, Option.bind_eq_some_iff] at hplans
  obtain ⟨records, hrecords, hplans⟩ := hplans
  obtain ⟨rows, hrows, rfl⟩ := Option.map_eq_some_iff.mp hplans
  refine ⟨hrecords.symm, fun hsegment => ?_, fun hwhole => ?_⟩
  · have hget : d.checkpoints[0]? = some d.segment := by
      rw [RecurDraw.checkpoints, if_pos hsegment]
      rfl
    exact (getElem?_mapM' hrows hget).symm
  · by_cases hsegment : 0 < d.segment
    · have hget : d.checkpoints[1]? = some (d.segment + 1) := by
        rw [RecurDraw.checkpoints, if_pos hsegment, if_pos hwhole]
        rfl
      rw [if_pos hsegment]
      exact (getElem?_mapM' hrows hget).symm
    · have hget : d.checkpoints[0]? = some (d.segment + 1) := by
        rw [RecurDraw.checkpoints, if_neg hsegment, if_pos hwhole]
        rfl
      rw [if_neg hsegment]
      exact (getElem?_mapM' hrows hget).symm

/-- The spans of a drawn point are planned, if the verifier supports its layer. -/
theorem DrawnRecur.exists_spans (hd : DrawnRecur m rec ctx seed ll d)
    (hsupp : RecurSupported m ctx rec.nPos d) : (d.spans m rec.nPos.toNat).isSome := by
  have hinside := hd.inside hsupp
  obtain ⟨leaf, hleaf, -⟩ := hinside.leaves
  have hck : (seqLayout ctx).checkpoint d.slot d.head = some (leaf + 1) := by
    rw [SeqLayout.checkpoint]
    exact congrArg (Option.map (· + 1)) hleaf
  have hrows : ∀ c ∈ d.checkpoints, ∃ plan,
      checkpointPlan ctx rec.nPos.toNat (d.site ll) c = some plan := by
    intro c hc
    obtain ⟨hone, hmem⟩ := hd.checkpoint_mem hc
    have hspan := checkpointRows_le hone hmem (by decide : 0 < recurRows) hd.row0_le
    change ∃ plan, leafPlan ((seqLayout ctx).checkpoint d.slot d.head) _ _ _ = some plan
    rw [hck]
    exact ⟨_, if_pos hspan⟩
  obtain ⟨rows, hrows⟩ := exists_mapM' hrows
  have hrecords : recordPlan ctx rec.nPos.toNat (d.site ll) = SpanPlan.new leaf _ _ _ :=
    congrArg (Option.bind · _) hleaf
  have hplan : SpanPlan.new leaf (rec.nPos.toNat * recordLen (d.site ll).r.kind (d.site ll).hd)
      (d.site ll).recordBounds.1 (d.site ll).recordBounds.2 = some _ := if_pos hinside.records
  rw [recurSpans_eq ll hd.chain, hrecords, hplan, hrows]
  rfl

section

variable {caps : UInt32 × UInt32 → Option (List UInt8)} {spans : List SeqCapture}
  {responseTxid : Hash} {p off : Nat} {leaf : UInt32} {e : String} {c : LeafChunk}
  {tap : RecurTap} {weights : List Weights}

theorem index_chunkAt (hc : chunkAt rec caps p leaf off e = .ok c) : c.index = valueChunk off := by
  obtain ⟨bytes, -, hc⟩ := Option.bind_eq_some_iff.mp (orFail_eq_ok.mp hc)
  simp only [leafChunk, Option.bind_eq_bind, Option.bind_eq_some_iff] at hc
  obtain ⟨chunk, -, hc⟩ := hc
  cases hc
  change UInt32.ofNat (4 * off / b3Chunk) = valueChunk off
  rw [valueChunk, b3Chunk]
  congr 1
  omega

theorem of_recurTap (htap : recurTap rec d caps p = .ok tap) :
    tap.posPath = rec.posPath p ∧
      [tap.q.index, tap.k.index, tap.v.index] = (d.site ll).channels.1.map valueChunk := by
  simp only [recurTap, bind_eq_ok] at htap
  obtain ⟨q, hq, k, hk, v, hv, htap⟩ := htap
  cases htap
  refine ⟨rfl, ?_⟩
  rw [index_chunkAt hq, index_chunkAt hk, index_chunkAt hv]
  rw [RecurSite.channels, RecurDraw.offsets]
  change _ = (if d.kda = true then _ else _ : List Nat × Nat).1.map valueChunk
  split <;> rfl

theorem length_recurWeights (hweights : recurWeights m index d = .ok weights) :
    weights.length = 6 := by
  simp only [recurWeights, bind_eq_ok, orFail_eq_ok] at hweights
  obtain ⟨conv, hconv, dt, -, a, -, norm, -, hweights⟩ := hweights
  cases hweights
  rw [List.length_append, length_mapM' hconv, List.length_zip, RecurDraw.offsets]
  split <;> rfl

theorem length_taps : d.taps.length = (d.site ll).nTaps := by
  rw [RecurDraw.taps, List.length_map, List.length_range]
  rfl

theorem getElem?_taps (ll : LayerLinks) {j t : Nat} (ht : d.taps[j]? = some t) : t = (d.site ll).tapPosition j := by
  rw [RecurDraw.taps, List.getElem?_map, Option.map_eq_some_iff] at ht
  obtain ⟨i, hi, rfl⟩ := ht
  obtain ⟨hlt, rfl⟩ := List.getElem?_eq_some_iff.mp hi
  rw [List.getElem_range]
  change _ = d.anchor + 1 + j - min (d.anchor + 1) d.links.convLen.toNat
  omega

/-- The opening of the miner is what the verifier demands. -/
theorem DrawnRecur.demands (hd : DrawnRecur m rec ctx seed ll d)
    (hop : recurOpening m rec seq index d caps spans responseTxid = .ok op) :
    RecurDemands rec seq ctx (d.site ll) op := by
  simp only [recurOpening, bind_eq_ok, orFail_eq_ok, partIf_eq_ok, mapM'_eq_ok] at hop
  obtain ⟨taps, htaps, weights, hweights, plans, hplans, -, -, records, hrecords, startRows, hstart,
    endRows, hstop, ctx', -, layer, -, outEntry, -, decayEntry, -, beta, hbeta, decay, hdecay, gate,
    hgate, out, -, hop⟩ := hop
  cases hop
  obtain ⟨hplanRecords, hplanStart, hplanStop⟩ := of_recurSpans hd.chain hplans ll
  have hrecords := planned_of_captured hrecords
  rw [hplanRecords] at hrecords
  obtain ⟨hstart, hstartRows⟩ := planned_of_partIf hstart hplanStart
  obtain ⟨hstop, hstopRows⟩ := planned_of_partIf hstop hplanStop
  refine ⟨hrecords, hstart.trans Nat.pos_iff_ne_zero,
    fun hsegment => hstartRows (Nat.pos_of_ne_zero hsegment), hstop, hstopRows, ?_, ?_,
    length_recurWeights hweights, index_chunkAt hbeta, index_chunkAt hdecay, index_chunkAt hgate⟩
  · exact htaps.length_eq.symm.trans length_taps
  · intro j tap htap
    obtain ⟨hlt, rfl⟩ := List.getElem?_eq_some_iff.mp htap
    have hpos : j < d.taps.length := htaps.length_eq ▸ hlt
    have hbuilt := htaps.get hpos hlt
    have ht := getElem?_taps ll (List.getElem?_eq_getElem hpos)
    rw [List.get_eq_getElem, List.get_eq_getElem] at hbuilt
    rw [← ht]
    exact of_recurTap hbuilt

theorem roots_recurOpening (hop : recurOpening m rec seq index d caps spans responseTxid = .ok op) :
    op.posRoot = rec.traceRoot ∧ op.seqRoot = seq.root ∧
      ∀ ctx ∈ m.chain, m.entryOpening (ctx.layerBase.toNat + d.layer) = some op.layer := by
  simp only [recurOpening, bind_eq_ok, orFail_eq_ok] at hop
  obtain ⟨taps, -, weights, -, plans, -, -, -, records, -, startRows, -, endRows, -, ctx, hctx, layer,
    hlayer, outEntry, -, decayEntry, -, beta, -, decay, -, gate, -, out, -, hop⟩ := hop
  cases hop
  refine ⟨rfl, rfl, fun ctx' hctx' => ?_⟩
  cases hctx.symm.trans hctx'
  exact hlayer

end

end KeryxMiner.Replay
