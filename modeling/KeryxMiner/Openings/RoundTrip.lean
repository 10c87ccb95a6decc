import KeryxMiner.Openings.Codec

/-!
# Round trips of the openings

A well-formed opening is one whose lengths fit the fields they are written in and whose parts are
those that its version has. Each reader of `R` takes back what the writer of the same name in `W`
wrote, whatever comes behind it, so that a well-formed opening is decoded from its encoding.
-/

namespace KeryxMiner.Openings

/-! ## Well-formed values -/

/-- The length fits one byte. -/
def Short {α : Type} (l : List α) : Prop := l.length ≤ 255

/-- The length fits four bytes. -/
def Fits (b : List UInt8) : Prop := b.length < 2 ^ 32

def AllOf {α : Type} (P : α → Prop) (a : Option α) : Prop := ∀ x ∈ a, P x

theorem allOf_none {α : Type} {P : α → Prop} : AllOf P none :=
  fun x hx => absurd hx (Option.not_mem_none x)

/-- A list behind a byte length of values that each satisfy `P`. -/
def ShortOf {α : Type} (P : α → Prop) (l : List α) : Prop := Short l ∧ ∀ x ∈ l, P x

def EntryOpening.WellFormed (e : EntryOpening) : Prop := e.bytes.length < 2 ^ 16 ∧ Short e.path

/-- The chunks are whole and their number fits four bytes. -/
def ChunkRange.WellFormed (r : ChunkRange) : Prop :=
  32 ∣ r.chunks.length ∧ r.chunks.length / 32 < 2 ^ 32 ∧ Short r.proof

def Weights.WellFormed (w : Weights) : Prop := w.1.WellFormed ∧ w.2.WellFormed

def ExpertIds.WellFormed (e : ExpertIds) : Prop := Fits e.chunk ∧ Short e.chunkPath

def LeafChunk.WellFormed (c : LeafChunk) : Prop :=
  Fits c.chunk ∧ Short c.chunkPath ∧ Short c.leafPath

def LeafBytes.WellFormed (l : LeafBytes) : Prop := Fits l.bytes ∧ Short l.leafPath

def SeqSpan.WellFormed (s : SeqSpan) : Prop := Fits s.bytes ∧ Short s.chunkProof ∧ Short s.leafPath

def LinkOpening.WellFormed : LinkOpening → Prop
  | .none => True
  | .norm src w => src.WellFormed ∧ Weights.WellFormed w
  | .token embd w => Weights.WellFormed embd ∧ Weights.WellFormed w
  | .source src y ids => src.WellFormed ∧ y.WellFormed ∧ AllOf ExpertIds.WellFormed ids

def ResidSrc.WellFormed : ResidSrc → Prop
  | .chunk c => c.WellFormed
  | .token e r => e.WellFormed ∧ r.WellFormed

def MoeAdd.WellFormed (m : MoeAdd) : Prop :=
  m.scores.WellFormed ∧ Weights.WellFormed m.bias ∧ m.ids.WellFormed ∧
    ShortOf LeafChunk.WellFormed m.slots ∧ m.shexp.WellFormed ∧ Weights.WellFormed m.routerRow ∧
    m.resid.WellFormed ∧ Weights.WellFormed m.norm

def ResidAdd.WellFormed : ResidAdd → Prop
  | .chunk c => c.WellFormed
  | .normed y norm => y.WellFormed ∧ Weights.WellFormed norm
  | .moe m => m.WellFormed

def ResidPoint.WellFormed (p : ResidPoint) : Prop :=
  Short p.posPath ∧ Short p.metaPath ∧ p.layer.WellFormed ∧ p.product.WellFormed ∧
    p.dst.WellFormed ∧ p.src.WellFormed ∧ p.add.WellFormed

def Point.WellFormed (p : Point) : Prop :=
  Short p.posPath ∧ Short p.metaPath ∧ p.entry.WellFormed ∧
    AllOf EntryOpening.WellFormed p.partner ∧ AllOf Weights.WellFormed p.bias ∧
    ShortOf ChunkRange.WellFormed p.rows ∧ Fits p.x ∧ Short p.xPath ∧ Fits p.yChunk ∧
    Short p.yChunkPath ∧ Short p.yPath

def PrefixPoint.WellFormed (p : PrefixPoint) : Prop :=
  Short p.posPath ∧ Short p.metaPath ∧ p.entry.WellFormed ∧ Fits p.x ∧ Short p.xPath ∧
    Weights.WellFormed p.embd ∧ Weights.WellFormed p.norm

namespace Opening

variable (o : Opening)

/-- The parts that the versions of a residual chain have and the others have not. -/
def ChainParts : Prop :=
  if o.chain then
    o.prefixPoint.isSome ∧ o.links.length = o.points.length ∧ o.experts.length = o.links.length
  else o.experts = [] ∧ o.roots = none

def WellFormed : Prop :=
  ShortOf Point.WellFormed o.points ∧ AllOf PrefixPoint.WellFormed o.prefixPoint ∧
    (∀ link ∈ o.links, link.2.WellFormed) ∧
    (∀ e ∈ o.experts, AllOf ExpertIds.WellFormed e) ∧
    AllOf ResidPoint.WellFormed o.resid ∧ o.ChainParts

end Opening

def FeedRow.WellFormed (f : FeedRow) : Prop :=
  Fits f.x ∧ Short f.xPath ∧ f.row.WellFormed ∧ AllOf Weights.WellFormed f.bias

def ExpertRow.WellFormed (e : ExpertRow) : Prop :=
  e.entry.WellFormed ∧ Fits e.x ∧ Short e.xPath ∧ e.row.WellFormed

def ResidOpening.WellFormed (o : ResidOpening) : Prop :=
  o.resid.WellFormed ∧ o.feed.WellFormed ∧ AllOf ExpertRow.WellFormed o.expert

def AttnOpening.WellFormed (o : AttnOpening) : Prop :=
  o.layer.WellFormed ∧ o.qEntry.WellFormed ∧ o.oEntry.WellFormed ∧
    ShortOf Weights.WellFormed o.norms ∧ Short o.posPath ∧ ShortOf LeafChunk.WellFormed o.q ∧
    o.out.WellFormed ∧ o.kcache.WellFormed ∧ o.vcache.WellFormed ∧ Short o.anchorPosPath ∧
    ShortOf LeafChunk.WellFormed o.anchorK ∧ ShortOf LeafChunk.WellFormed o.anchorV ∧
    ShortOf LeafChunk.WellFormed o.absorb ∧ Short o.path ∧ Fits o.parent ∧ Short o.parentPath ∧
    Fits o.partials ∧ o.lse.WellFormed

def RecurTap.WellFormed (t : RecurTap) : Prop :=
  Short t.posPath ∧ t.q.WellFormed ∧ t.k.WellFormed ∧ t.v.WellFormed

def RecurOpening.WellFormed (o : RecurOpening) : Prop :=
  o.layer.WellFormed ∧ o.outEntry.WellFormed ∧ o.decayEntry.WellFormed ∧
    ShortOf Weights.WellFormed o.weights ∧ o.records.WellFormed ∧ o.startRows.WellFormed ∧
    o.endRows.WellFormed ∧ ShortOf RecurTap.WellFormed o.taps ∧ o.beta.WellFormed ∧
    o.decay.WellFormed ∧ o.gate.WellFormed ∧ o.out.WellFormed

/-! ## Readers and writers -/

section

variable {α : Type} {t : List UInt8}

@[simp] theorem run_u8 (v : UInt8) : R.u8.run (W.u8 v ++ t) = some (v, t) := by
  simp [R.u8, W.u8, v.toNat_lt]

@[simp] theorem run_u16 (v : UInt16) : R.u16.run (W.u16 v ++ t) = some (v, t) := by
  simp [R.u16, W.u16, v.toNat_lt]

@[simp] theorem run_u32 (v : UInt32) : R.u32.run (W.u32 v ++ t) = some (v, t) := by
  simp [R.u32, W.u32, v.toNat_lt]

@[simp] theorem run_u64 (v : UInt64) : R.u64.run (W.u64 v ++ t) = some (v, t) := by
  simp [R.u64, W.u64, v.toNat_lt]

@[simp] theorem run_hash (h : Hash) : R.hash.run (W.hash h ++ t) = some (h, t) := by
  simp [R.hash, W.hash, R.toHash, Reader.run_take, Vector.toArray_toList]

@[simp] theorem run_bytes32 {b : List UInt8} (h : Fits b) :
    R.bytes32.run (W.bytes32 b ++ t) = some (b, t) := by
  have hlen : (UInt32.ofNat b.length).toNat = b.length := UInt32.toNat_ofNat_of_lt' h
  simp [R.bytes32, W.bytes32, Reader.run_take, hlen]

/-- What is read where each value of a list stands is the value. -/
@[simp] theorem run_list {put : α → List UInt8} {r : Reader α} {P : α → Prop} {l : List α}
    (h : ShortOf P l) (hr : ∀ a, P a → ∀ t, r.run (put a ++ t) = some (a, t)) :
    (R.list r).run (W.list put l ++ t) = some (l, t) := by
  have hlen : (UInt8.ofNat l.length).toNat = l.length :=
    UInt8.toNat_ofNat_of_lt' (Nat.lt_succ_of_le h.1)
  have hmany := @Reader.run_many α r t put l fun a ha => hr a (h.2 a ha)
  simp [R.list, W.list, hlen, hmany]

@[simp] theorem run_hashes {hs : List Hash} (h : Short hs) :
    R.hashes.run (W.hashes hs ++ t) = some (hs, t) :=
  run_list (P := fun _ => True) ⟨h, fun _ _ => trivial⟩ fun a _ _ => run_hash a

@[simp] theorem run_option {put : α → List UInt8} {r : Reader α} {P : α → Prop} {a : Option α}
    (h : AllOf P a) (hr : ∀ a, P a → ∀ t, r.run (put a ++ t) = some (a, t)) :
    (R.option r).run (W.option put a ++ t) = some (a, t) := by
  cases a with
  | none => simp [R.option, W.option]
  | some a => simp [R.option, W.option, hr a (h a rfl)]

@[simp] theorem run_optionOne {put : α → List UInt8} {r : Reader α} {P : α → Prop} {a : Option α}
    (h : AllOf P a) (hr : ∀ a, P a → ∀ t, r.run (put a ++ t) = some (a, t)) :
    (R.optionOne r).run (W.option put a ++ t) = some (a, t) := by
  cases a with
  | none => simp [R.optionOne, W.option]
  | some a => simp [R.optionOne, W.option, hr a (h a rfl)]

@[simp] theorem run_entry {e : EntryOpening} (h : e.WellFormed) :
    R.entry.run (W.entry e ++ t) = some (e, t) := by
  obtain ⟨hbytes, hpath⟩ := h
  have hlen : (UInt16.ofNat e.bytes.length).toNat = e.bytes.length :=
    UInt16.toNat_ofNat_of_lt' hbytes
  simp [R.entry, W.entry, Reader.run_take, hlen, hpath]

@[simp] theorem run_range {c : ChunkRange} (h : c.WellFormed) :
    R.range.run (W.range c ++ t) = some (c, t) := by
  obtain ⟨hwhole, hcount, hproof⟩ := h
  have hlen : c.chunks.length / 32 % 4294967296 = c.chunks.length / 32 := Nat.mod_eq_of_lt hcount
  simp [R.range, W.range, Reader.run_take, hlen, Nat.div_mul_cancel hwhole, hproof]

@[simp] theorem run_weights {w : Weights} (h : w.WellFormed) :
    R.weights.run (W.weights w ++ t) = some (w, t) := by
  obtain ⟨hentry, hrange⟩ := h
  simp [R.weights, W.weights, hentry, hrange]

@[simp] theorem run_leafChunk {c : LeafChunk} (h : c.WellFormed) :
    R.leafChunk.run (W.leafChunk c ++ t) = some (c, t) := by
  obtain ⟨hchunk, hchunkPath, hleafPath⟩ := h
  simp [R.leafChunk, W.leafChunk, hchunk, hchunkPath, hleafPath]

@[simp] theorem run_leafBytes {l : LeafBytes} (h : l.WellFormed) :
    R.leafBytes.run (W.leafBytes l ++ t) = some (l, t) := by
  obtain ⟨hbytes, hpath⟩ := h
  simp [R.leafBytes, W.leafBytes, hbytes, hpath]

@[simp] theorem run_seqSpan {s : SeqSpan} (h : s.WellFormed) :
    R.seqSpan.run (W.seqSpan s ++ t) = some (s, t) := by
  obtain ⟨hbytes, hproof, hpath⟩ := h
  simp [R.seqSpan, W.seqSpan, hbytes, hproof, hpath]

@[simp] theorem run_expertIds {e : ExpertIds} (h : e.WellFormed) :
    R.expertIds.run (W.expertIds e ++ t) = some (e, t) := by
  obtain ⟨hchunk, hpath⟩ := h
  simp [R.expertIds, W.expertIds, hchunk, hpath]

@[simp] theorem run_link {l : LinkOpening} (h : l.WellFormed) :
    R.link.run (W.link l ++ t) = some (l, t) := by
  cases l with
  | none => simp [R.link, W.link]
  | norm src w =>
    obtain ⟨hsrc, hw⟩ := h
    simp [R.link, W.link, hsrc, hw]
  | token embd w =>
    obtain ⟨hembd, hw⟩ := h
    simp [R.link, W.link, hembd, hw]
  | source src y ids =>
    obtain ⟨hsrc, hy, hids⟩ := h
    simp [R.link, W.link, hsrc, hy, run_option hids fun _ h _ => run_expertIds h]

@[simp] theorem run_residSrc {s : ResidSrc} (h : s.WellFormed) :
    R.residSrc.run (W.residSrc s ++ t) = some (s, t) := by
  cases s with
  | chunk c =>
    have hc : c.WellFormed := h
    simp [R.residSrc, W.residSrc, hc]
  | token e r =>
    obtain ⟨he, hr⟩ := h
    simp [R.residSrc, W.residSrc, he, hr]

@[simp] theorem run_residAdd {a : ResidAdd} (h : a.WellFormed) :
    R.residAdd.run (W.residAdd a ++ t) = some (a, t) := by
  cases a with
  | chunk c =>
    have hc : c.WellFormed := h
    simp [R.residAdd, W.residAdd, hc]
  | normed y w =>
    obtain ⟨hy, hw⟩ := h
    simp [R.residAdd, W.residAdd, hy, hw]
  | moe m =>
    obtain ⟨hscores, hbias, ⟨hids, hidsPath⟩, hslots, hshexp, hrow, hresid, hnorm⟩ := h
    have hlist := fun t => run_list (t := t) hslots fun _ h _ => run_leafChunk h
    simp [R.residAdd, W.residAdd, R.moeAdd, hscores, hbias, hids, hidsPath, hlist, hshexp, hrow,
      hresid, hnorm]

@[simp] theorem run_resid {p : ResidPoint} (h : p.WellFormed) :
    R.resid.run (W.resid p ++ t) = some (p, t) := by
  obtain ⟨hpos, hmeta, hlayer, hproduct, hdst, hsrc, hadd⟩ := h
  simp [R.resid, W.resid, hpos, hmeta, hlayer, hproduct, hdst, hsrc, hadd]

@[simp] theorem run_point {p : Point} (h : p.WellFormed) :
    R.point.run (W.point p ++ t) = some (p, t) := by
  obtain ⟨hpos, hmeta, hentry, hpartner, hbias, hrows, hx, hxPath, hy, hyChunk, hyPath⟩ := h
  simp only [W.point, List.append_assoc]
  rw [R.point, Reader.run_bind (run_u32 _), Reader.run_bind (run_hashes hpos),
    Reader.run_bind (run_hashes hmeta), Reader.run_bind (run_entry hentry),
    Reader.run_bind (run_optionOne hpartner fun _ h _ => run_entry h),
    Reader.run_bind (run_optionOne hbias fun _ h _ => run_weights h),
    Reader.run_bind (run_list hrows fun _ h _ => run_range h), Reader.run_bind (run_bytes32 hx),
    Reader.run_bind (run_hashes hxPath), Reader.run_bind (run_u32 _), Reader.run_bind (run_u32 _),
    Reader.run_bind (run_bytes32 hy), Reader.run_bind (run_hashes hyChunk),
    Reader.run_bind (run_hashes hyPath)]
  rfl

@[simp] theorem run_prefixPoint {p : PrefixPoint} (h : p.WellFormed) :
    R.prefixPoint.run (W.prefixPoint p ++ t) = some (p, t) := by
  obtain ⟨hpos, hmeta, hentry, hx, hxPath, ⟨hembd, hembdRange⟩, hnorm, hnormRange⟩ := h
  simp [R.prefixPoint, W.prefixPoint, hpos, hmeta, hentry, hx, hxPath, hembd, hembdRange, hnorm,
    hnormRange]

/-- A kind with one version is read back where its parts are. -/
theorem decodeAs_eq {version : UInt8} {r : Reader α} {parts : List UInt8} {a : α}
    (h : r.run parts = some (a, [])) : decodeAs version r (W.u8 version ++ parts) = some a := by
  have hcons : W.u8 version ++ parts = version :: parts := by simp [W.u8, toLe]
  rw [hcons, decodeAs, if_pos rfl]
  exact Reader.all_eq_some_iff.mpr h

end

/-! ## The opening kinds -/

namespace Opening

variable {o : Opening}

/-- A link and the experts at its index. -/
def putLinkExperts (l : (UInt32 × LinkOpening) × Option ExpertIds) : List UInt8 :=
  W.u32 l.1.1 ++ W.link l.1.2 ++ W.option W.expertIds l.2

theorem run_linkExperts {l : (UInt32 × LinkOpening) × Option ExpertIds}
    (hlink : l.1.2.WellFormed) (hexperts : AllOf ExpertIds.WellFormed l.2) (rest : List UInt8) :
    R.linkExperts.run (putLinkExperts l ++ rest) = some (l, rest) := by
  simp [R.linkExperts, putLinkExperts, hlink,
    run_option hexperts fun _ h _ => run_expertIds h]

theorem putLinks_eq (h : o.experts.length = o.links.length) :
    (o.links.mapIdx o.putLink).flatten = (o.links.zip o.experts).flatMap putLinkExperts := by
  have hmap : o.links.mapIdx o.putLink = (o.links.zip o.experts).map putLinkExperts := by
    apply List.ext_getElem
    · simp [h]
    · intro i hi hi'
      simp only [List.length_mapIdx] at hi
      have he : i < o.experts.length := h ▸ hi
      simp [putLink, putLinkExperts, List.getElem?_eq_getElem he]
  rw [hmap, List.flatMap_def]

theorem resid_ne_nil (p : ResidPoint) : W.resid p ≠ [] := by
  simp [W.resid, W.u32, toLe]

theorem run_getResid (h : AllOf ResidPoint.WellFormed o.resid) :
    (getResid true).run (o.resid.elim [] W.resid) = some (o.resid, []) := by
  cases hr : o.resid with
  | none => simp [getResid]
  | some p =>
    have hp : p.WellFormed := h p hr
    have hrun := run_resid (t := []) hp
    rw [List.append_nil] at hrun
    simp [getResid, resid_ne_nil, hrun]

/-- The links and experts of a residual chain. -/
theorem run_links (h : o.WellFormed) (hchain : o.chain) (rest : List UInt8) :
    (Reader.many R.linkExperts o.points.length).run
      ((o.links.mapIdx o.putLink).flatten ++ rest) = some (o.links.zip o.experts, rest) := by
  obtain ⟨-, -, hlinks, hexperts, -, hparts⟩ := h
  rw [ChainParts, if_pos hchain] at hparts
  obtain ⟨-, hpoints, hlen⟩ := hparts
  have hzip : (o.links.zip o.experts).length = o.points.length := by simp [hlen, hpoints]
  rw [putLinks_eq hlen, ← hzip]
  apply Reader.run_many
  intro l hl
  exact run_linkExperts (hlinks _ (List.of_mem_zip hl).1) (hexperts _ (List.of_mem_zip hl).2)

theorem run_points (h : o.WellFormed) (rest : List UInt8) :
    (Reader.many R.point o.points.length).run (o.points.flatMap W.point ++ rest) =
      some (o.points, rest) :=
  Reader.run_many fun p hp _ => run_point (h.1.2 p hp)

theorem length_points (h : o.WellFormed) : o.points.length % 256 = o.points.length :=
  Nat.mod_eq_of_lt (Nat.lt_succ_of_le h.1.1)

/-- The parts that stand behind the version of a residual chain. -/
theorem run_body_of_chain (h : o.WellFormed) (hchain : o.chain) {v : UInt8}
    {rootsBytes : List UInt8} (hv : v = versionChain ∨ v = versionRoots)
    (hroots : ∀ rest, (getRoots v).run (rootsBytes ++ rest) = some (o.roots, rest)) :
    body.run (W.u8 v ++ (W.hash o.responseTxid ++ (rootsBytes ++ (W.list W.point o.points ++
      ((o.links.mapIdx o.putLink).flatten ++
        (o.prefixPoint.elim [] W.prefixPoint ++ o.resid.elim [] W.resid)))))) = some (o, []) := by
  have hlinks := run_links h hchain
  have hpoints := run_points h
  have hlen := length_points h
  obtain ⟨-, hpre, -, -, hresid, hparts⟩ := h
  rw [ChainParts, if_pos hchain] at hparts
  obtain ⟨hsome, -, hexperts⟩ := hparts
  obtain ⟨p, hp⟩ := Option.isSome_iff_exists.mp hsome
  have hfst : (o.links.zip o.experts).map Prod.fst = o.links := List.map_fst_zip (by omega)
  have hsnd : (o.links.zip o.experts).map Prod.snd = o.experts := List.map_snd_zip (by omega)
  have hversion : ¬(¬v = version ∧ ¬v = versionPrefix ∧ ¬v = versionChain ∧ ¬v = versionRoots) := by
    rcases hv with rfl | rfl <;> simp
  have hchainVersion : (v == versionChain || v == versionRoots) = true := by simpa using hv
  have hprefixVersion : versionPrefix ≤ v := by rcases hv with rfl | rfl <;> decide
  simp [body, W.list, hversion, hv, hchainVersion, hprefixVersion, hroots, hpoints, hlinks, hlen,
    run_getResid hresid, hp, hpre p hp, hfst, hsnd]
  rw [← hp]

theorem body_encode_of_chain (h : o.WellFormed) (hchain : o.chain) :
    body.run o.encode = some (o, []) := by
  cases hroots : o.roots with
  | none =>
    have hversion : o.wireVersion = versionChain := by simp [wireVersion, hchain, hroots]
    have hget : ∀ rest, (getRoots versionChain).run ([] ++ rest) = some (o.roots, rest) := by
      simp [getRoots, hroots, versionChain, versionRoots]
    have hbody := run_body_of_chain h hchain (.inl rfl) hget
    simpa [encode, hversion, hchain, hroots] using hbody
  | some roots =>
    have hversion : o.wireVersion = versionRoots := by simp [wireVersion, hchain, hroots]
    have hget : ∀ rest, (getRoots versionRoots).run
        ((W.hash roots.1 ++ W.hash roots.2) ++ rest) = some (o.roots, rest) := by
      simp [getRoots, hroots]
    have hbody := run_body_of_chain h hchain (.inr rfl) hget
    simpa [encode, hversion, hchain, hroots] using hbody

/-- Without a chain, nothing but the points and the prefix point is there. -/
theorem body_encode_of_not_chain (h : o.WellFormed) (hchain : o.chain = false) :
    body.run o.encode = some (o, []) := by
  have hlen := length_points h
  have hparts := h.2.2.2.2.2
  rw [ChainParts, if_neg (by simp [hchain])] at hparts
  obtain ⟨hexperts, hroots⟩ := hparts
  have hnone : o.links = [] ∧ o.resid = none := by simpa [chain] using hchain
  obtain ⟨hlinks, hresid⟩ := hnone
  cases hp : o.prefixPoint with
  | none =>
    have hversion : o.wireVersion = version := by simp [wireVersion, hchain, hp]
    have hpoints := run_points h []
    rw [List.append_nil] at hpoints
    simp [body, encode, W.list, getRoots, getResid, hversion, hchain, hroots, hpoints, hresid, hlen,
      hp, versionChain, versionRoots, versionPrefix, version]
    rw [← hp, ← hroots, ← hlinks, ← hexperts, ← hresid]
  | some p =>
    have hversion : o.wireVersion = versionPrefix := by simp [wireVersion, hchain, hp]
    have hpoints := run_points h
    have hpre := run_prefixPoint (t := []) (h.2.1 p hp)
    rw [List.append_nil] at hpre
    simp [body, encode, W.list, getRoots, getResid, hversion, hchain, hroots, hpoints, hresid, hlen,
      hp, hpre, versionChain, versionRoots, versionPrefix]
    rw [← hp, ← hroots, ← hlinks, ← hexperts, ← hresid]

theorem decode_eq (h : o.WellFormed) : decode o.encode = some o := by
  have hbody : body.run o.encode = some (o, []) := by
    cases hchain : o.chain with
    | true => exact body_encode_of_chain h hchain
    | false => exact body_encode_of_not_chain h hchain
  have hhead : o.encode.head? ≠ some versionSeeded := by
    have hversion : o.encode.head? = some o.wireVersion := by simp [encode, W.u8, toLe]
    rw [hversion, wireVersion]
    split_ifs <;> decide
  rw [decode, if_neg hhead]
  exact Reader.all_eq_some_iff.mpr hbody

end Opening

namespace ResidOpening

variable {o : ResidOpening}

theorem run_expert {e : ExpertRow} (h : e.WellFormed) (rest : List UInt8) :
    getExpert.run (putExpert e ++ rest) = some (e, rest) := by
  obtain ⟨hentry, hx, hxPath, hrow⟩ := h
  simp [getExpert, putExpert, hentry, hx, hxPath, hrow]

theorem decode_eq (h : o.WellFormed) : decode o.encode = some o := by
  obtain ⟨hresid, ⟨hx, hxPath, hrow, hbias⟩, hexpert⟩ := h
  have hroots : AllOf (fun _ => True) o.roots := fun _ _ => trivial
  have hrootsRun := fun t => @run_option _ t putRoots getRoots _ _ hroots fun a _ rest => by
    simp [getRoots, putRoots]
  have hexpertRun := run_option (t := []) hexpert fun _ => run_expert
  rw [List.append_nil] at hexpertRun
  simp only [decode, encode, List.flatten_cons, List.flatten_nil, List.append_nil]
  apply decodeAs_eq
  simp [body, getFeed, hresid, hx, hxPath, hrow, hrootsRun, hexpertRun,
    run_option hbias fun _ h _ => run_weights h]

end ResidOpening

namespace AttnOpening

variable {o : AttnOpening}

theorem decode_eq (h : o.WellFormed) : decode o.encode = some o := by
  obtain ⟨hlayer, hq, ho, hnorms, hpos, hqs, hout, hk, hv, hanchor, hanchorK, hanchorV, habsorb,
    hpath, hparent, hparentPath, hpartials, hlse⟩ := h
  have hwords : ShortOf (fun _ => True) o.path := ⟨hpath, fun _ _ => trivial⟩
  have hlist := fun (l : List LeafChunk) (hl : ShortOf LeafChunk.WellFormed l) (rest : List UInt8) =>
    run_list (t := rest) hl fun _ h _ => run_leafChunk h
  have hlseRun := run_seqSpan (t := []) hlse
  rw [List.append_nil] at hlseRun
  simp only [decode, encode, List.flatten_cons, List.flatten_nil, List.append_nil]
  apply decodeAs_eq
  -- The parts one after the other, in the order they are written in.
  rw [body, Reader.run_bind (run_hash _), Reader.run_bind (run_hash _),
    Reader.run_bind (run_hash _), Reader.run_bind (run_entry hlayer),
    Reader.run_bind (run_entry hq), Reader.run_bind (run_entry ho),
    Reader.run_bind (run_list hnorms fun _ h _ => run_weights h), Reader.run_bind (run_hashes hpos),
    Reader.run_bind (hlist _ hqs _), Reader.run_bind (run_leafBytes hout),
    Reader.run_bind (run_seqSpan hk), Reader.run_bind (run_seqSpan hv),
    Reader.run_bind (run_hashes hanchor), Reader.run_bind (hlist _ hanchorK _),
    Reader.run_bind (hlist _ hanchorV _), Reader.run_bind (hlist _ habsorb _),
    Reader.run_bind (run_list hwords fun a _ _ => run_u64 a),
    Reader.run_bind (run_bytes32 hparent), Reader.run_bind (run_hashes hparentPath),
    Reader.run_bind (run_bytes32 hpartials), Reader.run_bind hlseRun]
  rfl

end AttnOpening

namespace RecurOpening

variable {o : RecurOpening}

theorem run_tap {t : RecurTap} (h : t.WellFormed) (rest : List UInt8) :
    getTap.run (putTap t ++ rest) = some (t, rest) := by
  obtain ⟨hpos, hq, hk, hv⟩ := h
  simp [getTap, putTap, hpos, hq, hk, hv]

theorem decode_eq (h : o.WellFormed) : decode o.encode = some o := by
  obtain ⟨hlayer, hout, hdecay, hweights, hrecords, hstart, hend, htaps, hbeta, hdecayChunk, hgate,
    houtBytes⟩ := h
  have hgateRun := run_leafBytes (t := []) houtBytes
  rw [List.append_nil] at hgateRun
  simp only [decode, encode, List.flatten_cons, List.flatten_nil, List.append_nil]
  apply decodeAs_eq
  rw [body, Reader.run_bind (run_hash _), Reader.run_bind (run_hash _),
    Reader.run_bind (run_hash _), Reader.run_bind (run_entry hlayer),
    Reader.run_bind (run_entry hout), Reader.run_bind (run_entry hdecay),
    Reader.run_bind (run_list hweights fun _ h _ => run_weights h),
    Reader.run_bind (run_seqSpan hrecords), Reader.run_bind (run_seqSpan hstart),
    Reader.run_bind (run_seqSpan hend), Reader.run_bind (run_list htaps fun _ => run_tap),
    Reader.run_bind (run_leafChunk hbeta), Reader.run_bind (run_leafChunk hdecayChunk),
    Reader.run_bind (run_leafChunk hgate), Reader.run_bind hgateRun]
  rfl

end RecurOpening

/-- A well-formed opening of any kind is decoded from its encoding. -/
theorem kinds_decode_encode :
    (∀ o : Opening, o.WellFormed → Opening.decode o.encode = some o) ∧
      (∀ o : AttnOpening, o.WellFormed → AttnOpening.decode o.encode = some o) ∧
      (∀ o : RecurOpening, o.WellFormed → RecurOpening.decode o.encode = some o) ∧
      ∀ o : ResidOpening, o.WellFormed → ResidOpening.decode o.encode = some o :=
  ⟨fun _ => Opening.decode_eq, fun _ => AttnOpening.decode_eq, fun _ => RecurOpening.decode_eq,
    fun _ => ResidOpening.decode_eq⟩

def someHash : Hash := Vector.replicate 32 4
def someEntry : EntryOpening := ⟨1, [2, 3], [someHash]⟩
def someWeights : Weights := (someEntry, ⟨6, List.replicate 32 5, []⟩)
def someChunk : LeafChunk := ⟨9000, 7, [7], [someHash], []⟩
def someBytes : LeafBytes := ⟨[8, 8], []⟩
def someSpan : SeqSpan := ⟨9, [9], [someHash], []⟩

def someResid : ResidPoint :=
  { nUbatch := 1, tok := 2, posPath := [someHash], metaPath := [], layer := someEntry
    product := someEntry, dst := someChunk, src := .token someEntry someWeights.2
    add := .moe ⟨someBytes, someWeights, ⟨[3], []⟩, [someChunk], someChunk, someWeights, someBytes,
      someWeights⟩ }

/-- A chain of one point with its link, experts, residual and roots. -/
def someOpening : Opening :=
  { responseTxid := someHash
    points := [
      { nUbatch := 1, posPath := [someHash], metaPath := [], entry := someEntry
        partner := some someEntry, bias := none, rows := [someWeights.2], x := [1], xPath := []
        yTotalLen := 4, yChunkIndex := 0, yChunk := [2], yChunkPath := [], yPath := [someHash] }]
    prefixPoint := some
      { nUbatch := 1, posPath := [], metaPath := [], entry := someEntry, x := [], xPath := []
        embd := someWeights, norm := someWeights }
    links := [(5, .source someEntry someChunk (some ⟨[3], []⟩))]
    experts := [none]
    resid := some someResid
    roots := some (someHash, someHash) }

def someAttn : AttnOpening :=
  { responseTxid := someHash, posRoot := someHash, seqRoot := someHash, layer := someEntry
    qEntry := someEntry, oEntry := someEntry, norms := [someWeights], posPath := [], q := [someChunk]
    out := someBytes, kcache := someSpan, vcache := someSpan, anchorPosPath := [someHash]
    anchorK := [], anchorV := [someChunk], absorb := [], path := [1], parent := [1], parentPath := []
    partials := [2, 2, 2, 2], lse := someSpan }

def someRecur : RecurOpening :=
  { responseTxid := someHash, posRoot := someHash, seqRoot := someHash, layer := someEntry
    outEntry := someEntry, decayEntry := someEntry, weights := [someWeights], records := someSpan
    startRows := someSpan, endRows := someSpan, taps := [⟨[], someChunk, someChunk, someChunk⟩]
    beta := someChunk, decay := someChunk, gate := someChunk, out := someBytes }

def someResidOpening : ResidOpening :=
  { responseTxid := someHash, roots := some (someHash, someHash), resid := someResid
    feed := ⟨[1], [someHash], someWeights.2, some someWeights⟩
    expert := some ⟨someEntry, [], [], someWeights.2⟩ }

theorem kinds_decode_encode_some :
    Opening.decode someOpening.encode = some someOpening ∧
      AttnOpening.decode someAttn.encode = some someAttn ∧
      RecurOpening.decode someRecur.encode = some someRecur ∧
      ResidOpening.decode someResidOpening.encode = some someResidOpening := by
  have hentry : someEntry.WellFormed := ⟨by decide, by simp [Short, someEntry]⟩
  have hrange : someWeights.2.WellFormed := by
    simp [ChunkRange.WellFormed, Short, someWeights]
  have hweights : someWeights.WellFormed := ⟨hentry, hrange⟩
  have hchunk : someChunk.WellFormed := by simp [LeafChunk.WellFormed, Short, Fits, someChunk]
  have hbytes : someBytes.WellFormed := by simp [LeafBytes.WellFormed, Short, Fits, someBytes]
  have hspan : someSpan.WellFormed := by simp [SeqSpan.WellFormed, Short, Fits, someSpan]
  have hresid : someResid.WellFormed := by
    simp [ResidPoint.WellFormed, ResidSrc.WellFormed, ResidAdd.WellFormed, MoeAdd.WellFormed,
      ExpertIds.WellFormed, ShortOf, Short, Fits, someResid, hentry, hrange, hweights, hchunk,
      hbytes]
  refine ⟨kinds_decode_encode.1 _ ?_, kinds_decode_encode.2.1 _ ?_, kinds_decode_encode.2.2.1 _ ?_,
    kinds_decode_encode.2.2.2 _ ?_⟩
  · simp [Opening.WellFormed, Opening.ChainParts, Opening.chain, Point.WellFormed,
      PrefixPoint.WellFormed, LinkOpening.WellFormed, ExpertIds.WellFormed, AllOf, ShortOf, Short,
      Fits, someOpening, hentry, hrange, hweights, hchunk, hresid]
  · simp [AttnOpening.WellFormed, ShortOf, Short, Fits, someAttn, hentry, hweights, hchunk, hbytes,
      hspan]
  · simp [RecurOpening.WellFormed, RecurTap.WellFormed, ShortOf, Short, someRecur, hentry, hweights,
      hchunk, hbytes, hspan]
  · simp [ResidOpening.WellFormed, FeedRow.WellFormed, ExpertRow.WellFormed, AllOf, Short, Fits,
      someResidOpening, hentry, hrange, hweights, hresid]

end KeryxMiner.Openings
