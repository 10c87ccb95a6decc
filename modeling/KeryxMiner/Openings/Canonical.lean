import KeryxMiner.Openings.RoundTrip

/-!
# Canonical openings

What the readers of `R` accept is what the writers of `W` write, so that the bodies of three kinds
are the encodings of their openings. A point is the exception: any flag but one stands for a partner
or a bias that is not there, and is written back as zero. So is a chain with nothing in it, which is
written back in the version without a chain.
-/

namespace KeryxMiner.Openings

open Reader

/-! ## Exact readers -/

section

variable {α : Type}

theorem exact_u8 : R.u8.Exact W.u8 fun _ => True := by
  unfold R.u8
  apply ExactAfter.exact
  refine exact_le.andThen fun k hlt => ?_
  refine exactAfter_pure trivial ?_
  rw [List.nil_append, W.u8, UInt8.toNat_ofNat_of_lt' hlt]

theorem exact_u16 : R.u16.Exact W.u16 fun _ => True := by
  unfold R.u16
  apply ExactAfter.exact
  refine exact_le.andThen fun k hlt => ?_
  refine exactAfter_pure trivial ?_
  rw [List.nil_append, W.u16, UInt16.toNat_ofNat_of_lt' hlt]

theorem exact_u32 : R.u32.Exact W.u32 fun _ => True := by
  unfold R.u32
  apply ExactAfter.exact
  refine exact_le.andThen fun k hlt => ?_
  refine exactAfter_pure trivial ?_
  rw [List.nil_append, W.u32, UInt32.toNat_ofNat_of_lt' hlt]

theorem exact_u64 : R.u64.Exact W.u64 fun _ => True := by
  unfold R.u64
  apply ExactAfter.exact
  refine exact_le.andThen fun k hlt => ?_
  refine exactAfter_pure trivial ?_
  rw [List.nil_append, W.u64, UInt64.toNat_ofNat_of_lt' hlt]

theorem exact_hash : R.hash.Exact W.hash fun _ => True := by
  unfold R.hash
  apply ExactAfter.exact
  refine exact_take.andThen fun b hlen => ?_
  rw [R.toHash, dif_pos hlen]
  exact exactAfter_pure trivial rfl

theorem exact_bytes32 : R.bytes32.Exact W.bytes32 Fits := by
  unfold R.bytes32
  apply ExactAfter.exact
  refine exact_u32.andThen fun n _ => ?_
  refine exact_take.after fun b hlen => ⟨?_, ?_⟩
  · rw [Fits, hlen]
    exact n.toNat_lt
  · rw [W.bytes32, hlen, UInt32.ofNat_toNat]
    rfl

theorem exact_list {put : α → List UInt8} {r : Reader α} {P : α → Prop} (hr : r.Exact put P) :
    (R.list r).Exact (W.list put) (ShortOf P) := by
  unfold R.list
  apply ExactAfter.exact
  refine exact_u8.andThen fun n _ => ?_
  refine (exact_many hr).after fun l hl => ⟨⟨?_, hl.2⟩, ?_⟩
  · have hlt := n.toNat_lt
    have hlen := hl.1
    rw [Short]
    omega
  · rw [W.list, hl.1, UInt8.ofNat_toNat]
    rfl

theorem exact_hashes : R.hashes.Exact W.hashes Short := by
  intro bytes l rest h
  obtain ⟨⟨hshort, -⟩, rfl⟩ := exact_list exact_hash h
  exact ⟨hshort, rfl⟩

theorem exact_option {put : α → List UInt8} {r : Reader α} {P : α → Prop} (hr : r.Exact put P) :
    (R.option r).Exact (W.option put) (AllOf P) := by
  unfold R.option
  apply ExactAfter.exact
  refine exact_u8.andThen fun flag _ => ?_
  split
  · exact exactAfter_pure allOf_none rfl
  · refine hr.andThen fun b hP => ?_
    refine exactAfter_pure ?_ ?_
    · rintro x ⟨⟩
      exact hP
    · rfl
  · exact exactAfter_fail

theorem exact_entry : R.entry.Exact W.entry EntryOpening.WellFormed := by
  unfold R.entry
  apply ExactAfter.exact
  refine exact_u32.andThen fun index _ => ?_
  refine exact_u16.andThen fun n _ => ?_
  refine exact_take.andThen fun b hlen => ?_
  refine exact_hashes.andThen fun path hshort => ?_
  refine exactAfter_pure ⟨hlen ▸ n.toNat_lt, hshort⟩ ?_
  simp [W.entry, hlen]

theorem exact_range : R.range.Exact W.range ChunkRange.WellFormed := by
  unfold R.range
  apply ExactAfter.exact
  refine exact_u64.andThen fun first _ => ?_
  refine exact_u32.andThen fun n _ => ?_
  refine exact_take.andThen fun chunks hlen => ?_
  refine exact_hashes.andThen fun proof hshort => ?_
  have hcount : chunks.length / 32 = n.toNat := by
    rw [hlen]
    exact Nat.mul_div_cancel _ (by decide)
  refine exactAfter_pure ⟨⟨n.toNat, by rw [hlen, Nat.mul_comm]⟩, hcount ▸ n.toNat_lt, hshort⟩ ?_
  simp [W.range, hcount]

theorem exact_weights : R.weights.Exact W.weights Weights.WellFormed := by
  unfold R.weights
  apply ExactAfter.exact
  refine exact_entry.andThen fun e hentry => ?_
  refine exact_range.andThen fun r hrange => ?_
  exact exactAfter_pure ⟨hentry, hrange⟩ (by simp [W.weights])

theorem exact_leafChunk : R.leafChunk.Exact W.leafChunk LeafChunk.WellFormed := by
  unfold R.leafChunk
  apply ExactAfter.exact
  refine exact_u32.andThen fun total _ => ?_
  refine exact_u32.andThen fun index _ => ?_
  refine exact_bytes32.andThen fun chunk hfits => ?_
  refine exact_hashes.andThen fun path hshort => ?_
  refine exact_hashes.andThen fun leaf hshort' => ?_
  exact exactAfter_pure ⟨hfits, hshort, hshort'⟩ (by simp [W.leafChunk])

theorem exact_leafBytes : R.leafBytes.Exact W.leafBytes LeafBytes.WellFormed := by
  unfold R.leafBytes
  apply ExactAfter.exact
  refine exact_bytes32.andThen fun b hfits => ?_
  refine exact_hashes.andThen fun path hshort => ?_
  exact exactAfter_pure ⟨hfits, hshort⟩ (by simp [W.leafBytes])

theorem exact_seqSpan : R.seqSpan.Exact W.seqSpan SeqSpan.WellFormed := by
  unfold R.seqSpan
  apply ExactAfter.exact
  refine exact_u32.andThen fun first _ => ?_
  refine exact_bytes32.andThen fun b hfits => ?_
  refine exact_hashes.andThen fun proof hshort => ?_
  refine exact_hashes.andThen fun path hshort' => ?_
  exact exactAfter_pure ⟨hfits, hshort, hshort'⟩ (by simp [W.seqSpan])

theorem exact_expertIds : R.expertIds.Exact W.expertIds ExpertIds.WellFormed := by
  unfold R.expertIds
  apply ExactAfter.exact
  refine exact_bytes32.andThen fun b hfits => ?_
  refine exact_hashes.andThen fun path hshort => ?_
  exact exactAfter_pure ⟨hfits, hshort⟩ (by simp [W.expertIds])

theorem exact_link : R.link.Exact W.link LinkOpening.WellFormed := by
  unfold R.link
  apply ExactAfter.exact
  refine exact_u8.andThen fun tag _ => ?_
  split
  · exact exactAfter_pure trivial rfl
  · refine exact_leafBytes.andThen fun src hsrc => ?_
    refine exact_weights.andThen fun norm hnorm => ?_
    exact exactAfter_pure ⟨hsrc, hnorm⟩ (by simp [W.link])
  · refine exact_weights.andThen fun embd hembd => ?_
    refine exact_weights.andThen fun norm hnorm => ?_
    exact exactAfter_pure ⟨hembd, hnorm⟩ (by simp [W.link])
  · refine exact_entry.andThen fun src hsrc => ?_
    refine exact_leafChunk.andThen fun y hy => ?_
    refine (exact_option exact_expertIds).andThen fun ids hids => ?_
    exact exactAfter_pure ⟨hsrc, hy, hids⟩ (by simp [W.link])
  · exact exactAfter_fail

theorem exact_residSrc : R.residSrc.Exact W.residSrc ResidSrc.WellFormed := by
  unfold R.residSrc
  apply ExactAfter.exact
  refine exact_u8.andThen fun tag _ => ?_
  split
  · refine exact_leafChunk.andThen fun c hc => ?_
    exact exactAfter_pure hc (by simp [W.residSrc])
  · refine exact_entry.andThen fun e he => ?_
    refine exact_range.andThen fun r hr => ?_
    exact exactAfter_pure ⟨he, hr⟩ (by simp [W.residSrc])
  · exact exactAfter_fail

theorem exact_moeAdd : R.moeAdd.Exact (fun m => W.leafBytes m.scores ++ W.weights m.bias ++
    W.bytes32 m.ids.chunk ++ W.hashes m.ids.chunkPath ++ W.list W.leafChunk m.slots ++
    W.leafChunk m.shexp ++ W.weights m.routerRow ++ W.leafBytes m.resid ++ W.weights m.norm)
    MoeAdd.WellFormed := by
  unfold R.moeAdd
  apply ExactAfter.exact
  refine exact_leafBytes.andThen fun scores hscores => ?_
  refine exact_weights.andThen fun bias hbias => ?_
  refine exact_bytes32.andThen fun chunk hchunk => ?_
  refine exact_hashes.andThen fun path hpath => ?_
  refine (exact_list exact_leafChunk).andThen fun slots hslots => ?_
  refine exact_leafChunk.andThen fun shexp hshexp => ?_
  refine exact_weights.andThen fun row hrow => ?_
  refine exact_leafBytes.andThen fun resid hresid => ?_
  refine exact_weights.andThen fun norm hnorm => ?_
  exact exactAfter_pure ⟨hscores, hbias, ⟨hchunk, hpath⟩, hslots, hshexp, hrow, hresid, hnorm⟩
    (by simp)

theorem exact_residAdd : R.residAdd.Exact W.residAdd ResidAdd.WellFormed := by
  unfold R.residAdd
  apply ExactAfter.exact
  refine exact_u8.andThen fun tag _ => ?_
  split
  · refine exact_leafChunk.andThen fun c hc => ?_
    exact exactAfter_pure hc (by simp [W.residAdd])
  · refine exact_leafBytes.andThen fun y hy => ?_
    refine exact_weights.andThen fun norm hnorm => ?_
    exact exactAfter_pure ⟨hy, hnorm⟩ (by simp [W.residAdd])
  · refine exact_moeAdd.andThen fun m hm => ?_
    exact exactAfter_pure hm (by simp [W.residAdd])
  · exact exactAfter_fail

theorem exact_resid : R.resid.Exact W.resid ResidPoint.WellFormed := by
  unfold R.resid
  apply ExactAfter.exact
  refine exact_u32.andThen fun ubatch _ => ?_
  refine exact_u32.andThen fun tok _ => ?_
  refine exact_hashes.andThen fun pos hpos => ?_
  refine exact_hashes.andThen fun metaPath hmeta => ?_
  refine exact_entry.andThen fun layer hlayer => ?_
  refine exact_entry.andThen fun product hproduct => ?_
  refine exact_leafChunk.andThen fun dst hdst => ?_
  refine exact_residSrc.andThen fun src hsrc => ?_
  refine exact_residAdd.andThen fun add hadd => ?_
  exact exactAfter_pure ⟨hpos, hmeta, hlayer, hproduct, hdst, hsrc, hadd⟩ (by simp [W.resid])

theorem exact_linkExperts : R.linkExperts.Exact Opening.putLinkExperts fun l =>
    l.1.2.WellFormed ∧ AllOf ExpertIds.WellFormed l.2 := by
  unfold R.linkExperts
  apply ExactAfter.exact
  refine exact_u32.andThen fun tok _ => ?_
  refine exact_link.andThen fun link hlink => ?_
  refine (exact_option exact_expertIds).andThen fun ids hids => ?_
  exact exactAfter_pure ⟨hlink, hids⟩ (by simp [Opening.putLinkExperts])

theorem exact_prefixPoint : R.prefixPoint.Exact W.prefixPoint PrefixPoint.WellFormed := by
  unfold R.prefixPoint
  apply ExactAfter.exact
  refine exact_u32.andThen fun ubatch _ => ?_
  refine exact_hashes.andThen fun pos hpos => ?_
  refine exact_hashes.andThen fun metaPath hmeta => ?_
  refine exact_entry.andThen fun entry hentry => ?_
  refine exact_bytes32.andThen fun x hx => ?_
  refine exact_hashes.andThen fun xPath hxPath => ?_
  refine exact_entry.andThen fun embd hembd => ?_
  refine exact_range.andThen fun embdRange hembdRange => ?_
  refine exact_entry.andThen fun norm hnorm => ?_
  refine exact_range.andThen fun normRange hnormRange => ?_
  exact exactAfter_pure
    ⟨hpos, hmeta, hentry, hx, hxPath, ⟨hembd, hembdRange⟩, hnorm, hnormRange⟩ (by simp [W.prefixPoint])

/-- The body of a kind with one version is written as it was read. -/
theorem of_decodeAs {version : UInt8} {r : Reader α} {put : α → List UInt8} {P : α → Prop} {a : α}
    {b : List UInt8} (hr : r.Exact put P) (h : decodeAs version r b = some a) :
    b = W.u8 version ++ put a := by
  rw [decodeAs.eq_def] at h
  split at h
  · next v b =>
    split at h
    · next hv =>
      obtain ⟨-, hb⟩ := hr (all_eq_some_iff.mp h)
      rw [hb, hv, List.append_nil]
      simp [W.u8, toLe]
    · cases h
  · cases h

end

/-! ## Kinds with one version -/

namespace ResidOpening

theorem exact_expert : getExpert.Exact putExpert ExpertRow.WellFormed := by
  unfold getExpert
  apply ExactAfter.exact
  refine exact_entry.andThen fun entry hentry => ?_
  refine exact_bytes32.andThen fun x hx => ?_
  refine exact_hashes.andThen fun xPath hxPath => ?_
  refine exact_range.andThen fun row hrow => ?_
  exact exactAfter_pure ⟨hentry, hx, hxPath, hrow⟩ (by simp [putExpert])

theorem exact_roots : getRoots.Exact putRoots fun _ => True := by
  unfold getRoots
  apply ExactAfter.exact
  refine exact_hash.andThen fun p _ => ?_
  refine exact_hash.andThen fun q _ => ?_
  exact exactAfter_pure trivial (by simp [putRoots])

/-- The body stands behind the version. -/
theorem exact_body : body.Exact (·.encode.drop 1) fun _ => True := by
  simp only [body, getFeed, bind_assoc, pure_bind]
  apply ExactAfter.exact
  refine exact_hash.andThen fun txid _ => ?_
  refine (exact_option exact_roots).andThen fun roots _ => ?_
  refine exact_resid.andThen fun resid _ => ?_
  refine exact_bytes32.andThen fun x _ => ?_
  refine exact_hashes.andThen fun xPath _ => ?_
  refine exact_range.andThen fun row _ => ?_
  refine (exact_option exact_weights).andThen fun bias _ => ?_
  refine (exact_option exact_expert).andThen fun expert _ => ?_
  exact exactAfter_pure trivial (by simp [encode, W.u8, toLe])

theorem encode_of_decode {b : List UInt8} {o : ResidOpening} (h : decode b = some o) :
    o.encode = b := by
  rw [of_decodeAs exact_body h]
  simp [encode, W.u8, toLe]

end ResidOpening

namespace AttnOpening

theorem exact_body : body.Exact (·.encode.drop 1) fun _ => True := by
  unfold body
  apply ExactAfter.exact
  refine exact_hash.andThen fun txid _ => ?_
  refine exact_hash.andThen fun posRoot _ => ?_
  refine exact_hash.andThen fun seqRoot _ => ?_
  refine exact_entry.andThen fun layer _ => ?_
  refine exact_entry.andThen fun q _ => ?_
  refine exact_entry.andThen fun oEntry _ => ?_
  refine (exact_list exact_weights).andThen fun norms _ => ?_
  refine exact_hashes.andThen fun pos _ => ?_
  refine (exact_list exact_leafChunk).andThen fun qs _ => ?_
  refine exact_leafBytes.andThen fun out _ => ?_
  refine exact_seqSpan.andThen fun k _ => ?_
  refine exact_seqSpan.andThen fun v _ => ?_
  refine exact_hashes.andThen fun anchor _ => ?_
  refine (exact_list exact_leafChunk).andThen fun anchorK _ => ?_
  refine (exact_list exact_leafChunk).andThen fun anchorV _ => ?_
  refine (exact_list exact_leafChunk).andThen fun absorb _ => ?_
  refine (exact_list exact_u64).andThen fun path _ => ?_
  refine exact_bytes32.andThen fun parent _ => ?_
  refine exact_hashes.andThen fun parentPath _ => ?_
  refine exact_bytes32.andThen fun partials _ => ?_
  refine exact_seqSpan.andThen fun lse _ => ?_
  exact exactAfter_pure trivial (by simp [encode, W.u8, toLe])

theorem encode_of_decode {b : List UInt8} {o : AttnOpening} (h : decode b = some o) :
    o.encode = b := by
  rw [of_decodeAs exact_body h]
  simp [encode, W.u8, toLe]

end AttnOpening

namespace RecurOpening

theorem exact_tap : getTap.Exact putTap RecurTap.WellFormed := by
  unfold getTap
  apply ExactAfter.exact
  refine exact_hashes.andThen fun pos hpos => ?_
  refine exact_leafChunk.andThen fun q hq => ?_
  refine exact_leafChunk.andThen fun k hk => ?_
  refine exact_leafChunk.andThen fun v hv => ?_
  exact exactAfter_pure ⟨hpos, hq, hk, hv⟩ (by simp [putTap])

theorem exact_body : body.Exact (·.encode.drop 1) fun _ => True := by
  unfold body
  apply ExactAfter.exact
  refine exact_hash.andThen fun txid _ => ?_
  refine exact_hash.andThen fun posRoot _ => ?_
  refine exact_hash.andThen fun seqRoot _ => ?_
  refine exact_entry.andThen fun layer _ => ?_
  refine exact_entry.andThen fun out _ => ?_
  refine exact_entry.andThen fun decay _ => ?_
  refine (exact_list exact_weights).andThen fun weights _ => ?_
  refine exact_seqSpan.andThen fun records _ => ?_
  refine exact_seqSpan.andThen fun start _ => ?_
  refine exact_seqSpan.andThen fun stop _ => ?_
  refine (exact_list exact_tap).andThen fun taps _ => ?_
  refine exact_leafChunk.andThen fun beta _ => ?_
  refine exact_leafChunk.andThen fun decayChunk _ => ?_
  refine exact_leafChunk.andThen fun gate _ => ?_
  refine exact_leafBytes.andThen fun outBytes _ => ?_
  exact exactAfter_pure trivial (by simp [encode, W.u8, toLe])

theorem encode_of_decode {b : List UInt8} {o : RecurOpening} (h : decode b = some o) :
    o.encode = b := by
  rw [of_decodeAs exact_body h]
  simp [encode, W.u8, toLe]

end RecurOpening

/-! ## The kind with points -/

/-- A point whose flags must be zero or one. -/
def R.pointStrict : Reader Point := do
  let nUbatch ← u32
  let posPath ← hashes
  let metaPath ← hashes
  let entry ← entry
  let partner ← option R.entry
  let bias ← option weights
  let rows ← list range
  return { nUbatch, posPath, metaPath, entry, partner, bias, rows, x := ← bytes32, xPath := ← hashes
           yTotalLen := ← u32, yChunkIndex := ← u32, yChunk := ← bytes32, yChunkPath := ← hashes
           yPath := ← hashes }

namespace Opening

/-- The version and the points of a body. -/
def strictPoints : Reader (UInt8 × List Point) := do
  let version ← R.u8
  let _ ← R.hash
  let _ ← getRoots version
  let n ← R.u8
  return (version, ← Reader.many R.pointStrict n.toNat)

/-- The versions that link the points to their chain. -/
def Chained (v : UInt8) : Prop := v = versionChain ∨ v = versionRoots

instance (v : UInt8) : Decidable (Chained v) := inferInstanceAs (Decidable (_ ∨ _))

/-- The flags of the points are zero or one, and in a version with a chain a body without points has
bytes behind its prefix point. -/
def Strict (b : List UInt8) : Prop :=
  ∃ v points rest, strictPoints.run b = some ((v, points), rest) ∧
    (Chained v → points = [] →
      ∃ p rest', R.prefixPoint.run rest = some (p, rest') ∧ rest' ≠ [])

theorem exact_pointStrict : R.pointStrict.Exact W.point Point.WellFormed := by
  unfold R.pointStrict
  apply ExactAfter.exact
  refine exact_u32.andThen fun ubatch _ => ?_
  refine exact_hashes.andThen fun pos hpos => ?_
  refine exact_hashes.andThen fun metaPath hmeta => ?_
  refine exact_entry.andThen fun entry hentry => ?_
  refine (exact_option exact_entry).andThen fun partner hpartner => ?_
  refine (exact_option exact_weights).andThen fun bias hbias => ?_
  refine (exact_list exact_range).andThen fun rows hrows => ?_
  refine exact_bytes32.andThen fun x hx => ?_
  refine exact_hashes.andThen fun xPath hxPath => ?_
  refine exact_u32.andThen fun total _ => ?_
  refine exact_u32.andThen fun index _ => ?_
  refine exact_bytes32.andThen fun y hy => ?_
  refine exact_hashes.andThen fun yChunkPath hyChunkPath => ?_
  refine exact_hashes.andThen fun yPath hyPath => ?_
  exact exactAfter_pure
    ⟨hpos, hmeta, hentry, hpartner, hbias, hrows, hx, hxPath, hy, hyChunkPath, hyPath⟩
    (by simp [W.point])

theorem run_pointStrict {p : Point} {t : List UInt8} (h : p.WellFormed) :
    R.pointStrict.run (W.point p ++ t) = some (p, t) := by
  obtain ⟨hpos, hmeta, hentry, hpartner, hbias, hrows, hx, hxPath, hy, hyChunk, hyPath⟩ := h
  simp only [W.point, List.append_assoc]
  rw [R.pointStrict, run_bind (run_u32 _), run_bind (run_hashes hpos), run_bind (run_hashes hmeta),
    run_bind (run_entry hentry), run_bind (run_option hpartner fun _ h _ => run_entry h),
    run_bind (run_option hbias fun _ h _ => run_weights h),
    run_bind (run_list hrows fun _ h _ => run_range h), run_bind (run_bytes32 hx),
    run_bind (run_hashes hxPath), run_bind (run_u32 _), run_bind (run_u32 _),
    run_bind (run_bytes32 hy), run_bind (run_hashes hyChunk), run_bind (run_hashes hyPath)]
  rfl

/-- What `r` reads satisfies `P`, from as many bytes as `put` writes for it. -/
def Sized {α : Type} (r : Reader α) (put : α → List UInt8) (P : α → Prop) : Prop :=
  ∀ ⦃bytes a rest⦄, r.run bytes = some (a, rest) →
    P a ∧ ∃ read, bytes = read ++ rest ∧ read.length = (put a).length

theorem sized_optionOne {α : Type} {put : α → List UInt8} {r : Reader α} {P : α → Prop}
    (hr : r.Exact put P) : Sized (R.optionOne r) (W.option put) (AllOf P) := by
  intro bytes a rest h
  rw [R.optionOne, run_bind_eq_some] at h
  obtain ⟨flag, mid, hflag, h⟩ := h
  obtain ⟨-, rfl⟩ := exact_u8 hflag
  split at h
  · rw [run_bind_eq_some] at h
    obtain ⟨b, _, hb, h⟩ := h
    cases h
    obtain ⟨hP, rfl⟩ := hr hb
    refine ⟨?_, W.u8 flag ++ put b, by rw [List.append_assoc], rfl⟩
    rintro x ⟨⟩
    exact hP
  · cases h
    exact ⟨allOf_none, W.u8 flag, rfl, rfl⟩

theorem sized_point : Sized R.point W.point Point.WellFormed := by
  intro bytes p rest h
  simp only [R.point, run_bind_eq_some] at h
  obtain ⟨ubatch, _, hubatch, pos, _, hpos, metaPath, _, hmeta, entry, _, hentry, partner, _,
    hpartner, bias, _, hbias, rows, _, hrows, x, _, hx, xPath, _, hxPath, total, _, htotal, index,
    _, hindex, y, _, hy, yChunkPath, _, hyChunkPath, yPath, _, hyPath, h⟩ := h
  cases h
  obtain ⟨-, rfl⟩ := exact_u32 hubatch
  obtain ⟨hpos', rfl⟩ := exact_hashes hpos
  obtain ⟨hmeta', rfl⟩ := exact_hashes hmeta
  obtain ⟨hentry', rfl⟩ := exact_entry hentry
  obtain ⟨hpartner', partnerBytes, rfl, hpartnerLen⟩ := sized_optionOne exact_entry hpartner
  obtain ⟨hbias', biasBytes, rfl, hbiasLen⟩ := sized_optionOne exact_weights hbias
  obtain ⟨hrows', rfl⟩ := exact_list exact_range hrows
  obtain ⟨hx', rfl⟩ := exact_bytes32 hx
  obtain ⟨hxPath', rfl⟩ := exact_hashes hxPath
  obtain ⟨-, rfl⟩ := exact_u32 htotal
  obtain ⟨-, rfl⟩ := exact_u32 hindex
  obtain ⟨hy', rfl⟩ := exact_bytes32 hy
  obtain ⟨hyChunkPath', rfl⟩ := exact_hashes hyChunkPath
  obtain ⟨hyPath', rfl⟩ := exact_hashes hyPath
  refine ⟨⟨hpos', hmeta', hentry', hpartner', hbias', hrows', hx', hxPath', hy', hyChunkPath',
    hyPath'⟩, W.u32 ubatch ++ W.hashes pos ++ W.hashes metaPath ++ W.entry entry ++ partnerBytes ++
      biasBytes ++ W.list W.range rows ++ W.bytes32 x ++ W.hashes xPath ++ W.u32 total ++
      W.u32 index ++ W.bytes32 y ++ W.hashes yChunkPath ++ W.hashes yPath, by simp, ?_⟩
  simp only [W.point, List.length_append, hpartnerLen, hbiasLen]

theorem sized_many {α : Type} {put : α → List UInt8} {r : Reader α} {P : α → Prop}
    (hr : Sized r put P) (n : Nat) :
    Sized (Reader.many r n) (·.flatMap put) fun as => as.length = n ∧ ∀ a ∈ as, P a := by
  induction n with
  | zero =>
    intro bytes as rest h
    cases h
    exact ⟨⟨rfl, nofun⟩, [], rfl, rfl⟩
  | succ n ih =>
    intro bytes as rest h
    simp only [many, run_bind_eq_some] at h
    obtain ⟨a, mid, ha, as', mid', has, h⟩ := h
    cases h
    obtain ⟨hP, read, rfl, hread⟩ := hr ha
    obtain ⟨⟨hlen, hall⟩, reads, rfl, hreads⟩ := ih has
    refine ⟨⟨by rw [List.length_cons, hlen], List.forall_mem_cons.mpr ⟨hP, hall⟩⟩,
      read ++ reads, by rw [List.append_assoc], ?_⟩
    show _ = ((a :: as').flatMap put).length
    rw [List.flatMap_cons, List.length_append, List.length_append, hread, hreads]

/-! ### Bodies -/

variable {v : UInt8} {b rest : List UInt8} {o : Opening}

/-- What a body says before its points. -/
def putHead (v : UInt8) (o : Opening) (n : UInt8) : List UInt8 :=
  W.u8 v ++ W.hash o.responseTxid ++ o.roots.elim [] ResidOpening.putRoots ++ W.u8 n

/-- What a body says behind its points. -/
def putTail (o : Opening) : List UInt8 :=
  (o.links.zip o.experts).flatMap putLinkExperts ++ o.prefixPoint.elim [] W.prefixPoint ++
    o.resid.elim [] W.resid

/-- The parts that a body of version `v` with `n` points has. -/
structure HasParts (v n : UInt8) (o : Opening) : Prop where
  known : v ∈ [version, versionPrefix, versionChain, versionRoots]
  roots : o.roots.isSome ↔ v = versionRoots
  prefixPoint : o.prefixPoint.isSome ↔ v ≠ version
  wellFormed : AllOf PrefixPoint.WellFormed o.prefixPoint
  links : o.links.length = if Chained v then n.toNat else 0
  experts : o.experts.length = o.links.length
  resid : o.resid.isSome → Chained v

theorem exact_getRoots : (getRoots v).Exact (·.elim [] ResidOpening.putRoots)
    fun roots => roots.isSome ↔ v = versionRoots := by
  apply ExactAfter.exact
  rw [getRoots]
  split
  · next hv =>
    refine exact_hash.andThen fun p _ => ?_
    refine exact_hash.andThen fun q _ => ?_
    exact exactAfter_pure (by simp [hv]) (by simp [ResidOpening.putRoots])
  · next hv =>
    exact exactAfter_pure (by simp [hv]) rfl

theorem exact_getResid {chain : Bool} : (getResid chain).Exact (·.elim [] W.resid)
    fun resid => resid.isSome → chain := by
  intro bytes resid rest h
  simp only [getResid, run_bind_eq_some] at h
  obtain ⟨read, _, hread, h⟩ := h
  cases hread
  split at h
  · next hif =>
    rw [run_bind_eq_some] at h
    obtain ⟨p, _, hp, h⟩ := h
    cases h
    obtain ⟨-, rfl⟩ := exact_resid hp
    exact ⟨fun _ => hif.1, rfl⟩
  · cases h
    exact ⟨fun hsome => absurd hsome Bool.false_ne_true, rfl⟩

/-- A body is its head, the bytes of its points and its tail. -/
theorem body_eq_some (h : body.run b = some (o, [])) :
    ∃ v n points, HasParts v n o ∧ b = putHead v o n ++ points ++ o.putTail ∧
      (Reader.many R.point n.toNat).run (points ++ o.putTail) = some (o.points, o.putTail) := by
  simp only [body, run_bind_eq_some] at h
  obtain ⟨v, mid, hv, h⟩ := h
  split at h
  · cases h
  · next hknown =>
  rw [not_not] at hknown
  simp only [run_bind_eq_some] at h
  obtain ⟨txid, _, htxid, roots, _, hroots, n, _, hn, points, tail, hpoints, h⟩ := h
  obtain ⟨-, rfl⟩ := exact_u8 hv
  obtain ⟨-, rfl⟩ := exact_hash htxid
  obtain ⟨hroots', rfl⟩ := exact_getRoots hroots
  obtain ⟨-, rfl⟩ := exact_u8 hn
  have hpoints' := hpoints
  obtain ⟨-, read, rfl, -⟩ := sized_many sized_point _ hpoints
  suffices htail : tail = o.putTail ∧ HasParts v n o ∧ o.responseTxid = txid ∧ o.roots = roots ∧
      o.points = points by
    obtain ⟨htail, hparts, rfl, rfl, rfl⟩ := htail
    rw [← htail]
    refine ⟨v, n, read, hparts, ?_, hpoints⟩
    simp [putHead]
  split at h
  · next hchain =>
    simp only [Bool.or_eq_true, beq_iff_eq] at hchain
    have hle : versionPrefix ≤ v := by rcases hchain with rfl | rfl <;> decide
    have hne : v ≠ version := by rcases hchain with rfl | rfl <;> decide
    simp only [run_bind_eq_some, if_pos hle] at h
    obtain ⟨ls, _, hls, p, _, hp, resid, _, hresid, h⟩ := h
    cases h
    rw [map_eq_pure_bind, run_bind_eq_some] at hp
    obtain ⟨p, _, hp, hp'⟩ := hp
    cases hp'
    obtain ⟨⟨hlen, -⟩, rfl⟩ := exact_many exact_linkExperts hls
    obtain ⟨hpre, rfl⟩ := exact_prefixPoint hp
    obtain ⟨-, rfl⟩ := exact_getResid hresid
    refine ⟨?_, ⟨hknown, hroots', iff_of_true rfl hne, ?_, ?_, by simp, fun _ => hchain⟩, rfl, rfl,
      rfl⟩
    · simp [putTail, List.zip_map']
    · rintro x ⟨⟩
      exact hpre
    · simp [Chained, hchain, hlen]
  · next hchain =>
    simp only [Bool.or_eq_true, beq_iff_eq] at hchain
    rw [run_bind_eq_some] at h
    obtain ⟨ls, _, hls, h⟩ := h
    cases hls
    split at h
    · next hle =>
      have hne : v ≠ version := by rintro rfl; exact absurd hle (by decide)
      simp only [run_bind_eq_some] at h
      obtain ⟨p, _, hp, resid, _, hresid, h⟩ := h
      cases h
      rw [map_eq_pure_bind, run_bind_eq_some] at hp
      obtain ⟨p, _, hp, hp'⟩ := hp
      cases hp'
      obtain ⟨hpre, rfl⟩ := exact_prefixPoint hp
      obtain ⟨hresid', rfl⟩ := exact_getResid hresid
      refine ⟨?_, ⟨hknown, hroots', iff_of_true rfl hne, ?_, ?_, by simp, ?_⟩, rfl, rfl, rfl⟩
      · simp [putTail]
      · rintro x ⟨⟩
        exact hpre
      · simp [Chained, hchain]
      · intro hsome
        simpa [Chained] using hresid' hsome
    · next hle =>
      have heq : v = version := by
        simp only [List.mem_cons, List.not_mem_nil, or_false] at hknown
        rcases hknown with rfl | rfl | rfl | rfl
        · rfl
        · exact absurd (by decide) hle
        · exact absurd (by decide) hle
        · exact absurd (by decide) hle
      simp only [run_bind_eq_some] at h
      obtain ⟨p, _, hp, resid, _, hresid, h⟩ := h
      cases hp
      cases h
      obtain ⟨hresid', rfl⟩ := exact_getResid hresid
      refine ⟨?_, ⟨hknown, hroots', iff_of_false Bool.false_ne_true (not_not.mpr heq), allOf_none,
        ?_, by simp, ?_⟩, rfl, rfl, rfl⟩
      · simp [putTail]
      · simp [Chained, hchain]
      · intro hsome
        simpa [Chained] using hresid' hsome

theorem HasParts.chain_iff {n : UInt8} (h : HasParts v n o) :
    o.chain ↔ Chained v ∧ (n ≠ 0 ∨ o.resid.isSome) := by
  have hlinks := h.links
  have hresid := h.resid
  have hn : n.toNat = 0 ↔ n = 0 := by rw [← UInt8.toNat_inj]; rfl
  rw [chain, Bool.or_eq_true, Bool.not_eq_true', List.isEmpty_eq_false_iff, ← List.length_pos_iff,
    hlinks]
  split
  · next hv => simp [hv, Nat.pos_iff_ne_zero, hn]
  · next hv =>
    have hnone : ¬ o.resid.isSome := fun hsome => hv (hresid hsome)
    simp [hv, hnone]

theorem HasParts.wireVersion_iff {n : UInt8} (h : HasParts v n o) :
    o.wireVersion = v ↔ (Chained v → o.chain) := by
  have hroots := h.roots
  have hpre := h.prefixPoint
  have hchain := h.chain_iff
  have hknown := h.known
  simp only [List.mem_cons, List.not_mem_nil, or_false] at hknown
  rw [wireVersion]
  rcases hknown with rfl | rfl | rfl | rfl
  · have hnone : o.chain = false :=
      Bool.eq_false_iff.mpr fun hc => absurd (hchain.mp hc).1 (by decide)
    have hp : ¬ o.prefixPoint.isSome := fun hp => hpre.mp hp rfl
    simp [hnone, hp, show ¬ Chained version by decide]
  · have hnone : o.chain = false :=
      Bool.eq_false_iff.mpr fun hc => absurd (hchain.mp hc).1 (by decide)
    have hp : o.prefixPoint.isSome := hpre.mpr (by decide)
    simp [hnone, hp, show ¬ Chained versionPrefix by decide]
  · have hr : o.roots.isSome = false :=
      Bool.eq_false_iff.mpr fun hr => absurd (hroots.mp hr) (by decide)
    have hp : o.prefixPoint.isSome := hpre.mpr (by decide)
    cases hc : o.chain <;> simp +decide [hr, hp]
  · have hr : o.roots.isSome := hroots.mpr rfl
    have hp : o.prefixPoint.isSome := hpre.mpr (by decide)
    cases hc : o.chain <;> simp +decide [hr, hp]

theorem HasParts.encode_eq {n : UInt8} (h : HasParts v n o) (hv : o.wireVersion = v) :
    o.encode = putHead v o (UInt8.ofNat o.points.length) ++ o.points.flatMap W.point ++
      o.putTail := by
  have hlinks : (if o.chain then (o.links.mapIdx o.putLink).flatten else []) =
      (o.links.zip o.experts).flatMap putLinkExperts := by
    split
    · exact putLinks_eq h.experts
    · next hc =>
      have hnil : o.links = [] := by
        rw [chain, Bool.or_eq_true, not_or] at hc
        simpa using hc.1
      rw [hnil]
      rfl
  rw [encode, hlinks, hv, putHead, putTail, W.list]
  cases hr : o.roots with
  | none => simp
  | some r =>
    have hchain : o.chain := h.wireVersion_iff.mp hv (.inr (h.roots.mp (by rw [hr]; rfl)))
    simp [hchain, ResidOpening.putRoots]

theorem head?_encode : o.encode.head? = some o.wireVersion := by
  simp [encode, W.u8, toLe]

theorem head?_putHead (n : UInt8) : (putHead v o n ++ b).head? = some v := by
  simp [putHead, W.u8, toLe]

/-- The points of a body are read strictly if they are read at all. -/
theorem run_strictPoints {n : UInt8} (h : o.roots.isSome ↔ v = versionRoots) :
    strictPoints.run (putHead v o n ++ b) = ((Reader.many R.pointStrict n.toNat).run b).map
      fun read => ((v, read.1), read.2) := by
  have hroots : ∀ t, (getRoots v).run (o.roots.elim [] ResidOpening.putRoots ++ t) =
      some (o.roots, t) := by
    intro t
    rw [getRoots]
    cases hr : o.roots with
    | none =>
      rw [if_neg fun hv => by rw [← h, hr] at hv; cases hv]
      rfl
    | some r =>
      rw [if_pos (h.mp (by rw [hr]; rfl))]
      simp [ResidOpening.putRoots]
  simp only [putHead, List.append_assoc]
  rw [strictPoints, run_bind (run_u8 v), run_bind (run_hash _), run_bind (hroots _),
    run_bind (run_u8 n), StateT.run_bind]
  cases (R.pointStrict.many n.toNat).run b <;> rfl

theorem resid_elim_ne_nil : o.resid.elim [] W.resid ≠ [] ↔ o.resid.isSome := by
  cases o.resid with
  | none => simp
  | some p => simp [resid_ne_nil]

/-- A prefix point is all that stands behind the points of a version with a chain if there are no
points and no residual. -/
theorem HasParts.run_putTail {n : UInt8} (h : HasParts v n o) (hv : Chained v) (hn : n = 0) :
    ∃ p, R.prefixPoint.run o.putTail = some (p, o.resid.elim [] W.resid) := by
  have hne : v ≠ version := by rcases hv with rfl | rfl <;> decide
  obtain ⟨p, hp⟩ := Option.isSome_iff_exists.mp (h.prefixPoint.mpr hne)
  have hlinks : o.links = [] := by
    rw [← List.length_eq_zero_iff, h.links, if_pos hv, hn]
    rfl
  refine ⟨p, ?_⟩
  rw [putTail, hlinks, hp]
  exact run_prefixPoint (h.wellFormed p hp)

/-- The encoding of a decoded body is the body if and only if the body is strict. -/
theorem encode_eq_iff_strict (h : body.run b = some (o, [])) : o.encode = b ↔ Strict b := by
  obtain ⟨v, n, points, hparts, rfl, hpoints⟩ := body_eq_some h
  obtain ⟨⟨hlen, hwf⟩, read, hread, hsize⟩ := sized_many sized_point _ hpoints
  obtain rfl := List.append_cancel_right hread
  have hn : UInt8.ofNat o.points.length = n := by rw [hlen, UInt8.ofNat_toNat]
  have hnil : o.points = [] ↔ n = 0 := by
    rw [← List.length_eq_zero_iff, hlen, ← UInt8.toNat_inj]
    rfl
  constructor
  · intro heq
    have hv : o.wireVersion = v := by
      have hhead := congrArg List.head? heq
      rw [head?_encode, List.append_assoc, head?_putHead] at hhead
      exact Option.some.inj hhead
    rw [hparts.encode_eq hv, hn, List.append_assoc, List.append_assoc] at heq
    have hsame := List.append_cancel_right (List.append_cancel_left heq)
    refine ⟨v, o.points, o.putTail, ?_, ?_⟩
    · rw [List.append_assoc, run_strictPoints hparts.roots, ← hlen, ← hsame,
        run_many fun p hp rest => run_pointStrict (hwf p hp)]
      rfl
    · intro hchained hempty
      have hn0 := hnil.mp hempty
      obtain ⟨p, hp⟩ := hparts.run_putTail hchained hn0
      obtain ⟨-, hmore⟩ := hparts.chain_iff.mp (hparts.wireVersion_iff.mp hv hchained)
      exact ⟨p, _, hp, resid_elim_ne_nil.mpr (hmore.resolve_left (absurd hn0))⟩
  · rintro ⟨v', points', rest, hstrict, hresid⟩
    rw [List.append_assoc, run_strictPoints hparts.roots, Option.map_eq_some_iff] at hstrict
    obtain ⟨⟨ps, t⟩, hps, heq⟩ := hstrict
    cases heq
    obtain ⟨⟨hlen', hwf'⟩, hbytes⟩ := exact_many exact_pointStrict hps
    -- what is read strictly is what was read
    have hread := @run_many _ _ t _ _ fun p hp rest => run_point (t := rest) (hwf' p hp)
    rw [hlen', ← hbytes, hpoints] at hread
    cases hread
    have hv : o.wireVersion = v := by
      rw [hparts.wireVersion_iff]
      intro hchained
      rw [hparts.chain_iff]
      refine ⟨hchained, ?_⟩
      by_cases hn0 : n = 0
      · obtain ⟨p, hp⟩ := hparts.run_putTail hchained hn0
        obtain ⟨p', rest', hp', hrest⟩ := hresid hchained (hnil.mpr hn0)
        rw [hp] at hp'
        cases hp'
        exact .inr (resid_elim_ne_nil.mp hrest)
      · exact .inl hn0
    rw [hparts.encode_eq hv, hn, List.append_cancel_right hbytes]

end Opening

/-- For every body without a seed envelope, the encoding of what it decodes to is the body: always
for residual, attention and recurrent openings, and for openings of points if and only if the body
is strict. -/
theorem decode_canonical {b : List UInt8} (hb : b.head? ≠ some versionSeeded) :
    (∀ o, Opening.decode b = some o → (o.encode = b ↔ Opening.Strict b)) ∧
    (∀ o, ResidOpening.decode b = some o → o.encode = b) ∧
    (∀ o, AttnOpening.decode b = some o → o.encode = b) ∧
    (∀ o, RecurOpening.decode b = some o → o.encode = b) := by
  refine ⟨?_, fun o => ResidOpening.encode_of_decode, fun o => AttnOpening.encode_of_decode,
    fun o => RecurOpening.encode_of_decode⟩
  intro o h
  rw [Opening.decode, if_neg hb] at h
  exact Opening.encode_eq_iff_strict (all_eq_some_iff.mp h)

/-- A body of one point with nothing in it, whose flag of a partner is `flag`. -/
def flagged (flag : UInt8) : List UInt8 :=
  version :: List.replicate 32 0 ++ 1 :: List.replicate 13 0 ++ flag :: List.replicate 21 0

theorem decode_canonical_flagged :
    ∃ o, Opening.decode (flagged 0) = some o ∧ o.encode = flagged 0 :=
  ⟨_, rfl, ((decode_canonical (by decide)).1 _ rfl).mpr 
    ⟨version, _, _, rfl, fun h => absurd h (by decide)⟩⟩

/-- A flag of two is taken for zero, so that two bodies decode to one opening. -/
theorem decode_flagged : ∃ o, flagged 2 ≠ flagged 0 ∧ (flagged 2).head? ≠ some versionSeeded ∧
    Opening.decode (flagged 2) = some o ∧ Opening.decode (flagged 0) = some o ∧
    o.encode ≠ flagged 2 :=
  ⟨_, by decide, by decide, rfl, rfl, by decide⟩

end KeryxMiner.Openings
