import KeryxMiner.Replay.Point
import KeryxMiner.Replay.Recorded

/-!
# The draw of a point on both sides

The verifier draws from the entries that a point opens what the miner drew from its manifest
(`drawSite_drawn`), and the entries and weights that the miner opens are accepted under the roots of
the manifest and the model.
-/

namespace KeryxMiner.Replay

open Inference Manifest
open Openings hiding Hash

variable {h : Blake3} {m : TierManifest h} {index : Pom.WeightIndex} {e : Entry}
  {eo : EntryOpening} {r : ChunkRange} {i : Nat}

/-! ## Entries and weights -/

theorem TierManifest.entry_eq_some : m.entry i = some e ↔ ∃ raw, m.entries[i]? = some (e, raw) := by
  rw [entry, Option.map_eq_some_iff]
  constructor
  · rintro ⟨⟨e, raw⟩, h, rfl⟩
    exact ⟨raw, h⟩
  · rintro ⟨raw, h⟩
    exact ⟨(e, raw), h, rfl⟩

theorem TierManifest.exists_entryOpening (he : m.entry i = some e) :
    ∃ eo, m.entryOpening i = some eo := by
  obtain ⟨raw, hraw⟩ := entry_eq_some.mp he
  rw [entryOpening, hraw]
  exact ⟨_, rfl⟩

/-- An entry opens under the root of its manifest. -/
theorem openEntry_entryOpening (he : m.entry i = some e) (heo : m.entryOpening i = some eo) :
    openEntry h (m.tierCtx index) eo i = .ok e := by
  obtain ⟨raw, hraw⟩ := TierManifest.entry_eq_some.mp he
  rw [TierManifest.entryOpening, hraw] at heo
  cases heo
  obtain ⟨hlt, -⟩ := List.getElem?_eq_some_iff.mp hraw
  have hlen : m.leaves.length = m.entries.length := List.length_map ..
  have hindex : (UInt32.ofNat i).toNat = i :=
    UInt32.toNat_ofNat_of_lt' (Nat.lt_trans hlt m.entries_lt)
  have hleaf : (m.leaves.drop i).take 1 = [Entry.leaf h raw] := by
    have hget : m.leaves[i]? = some (Entry.leaf h raw) := by
      rw [TierManifest.leaves, List.getElem?_map, hraw]
      rfl
    obtain ⟨hlt', hget⟩ := List.getElem?_eq_some_iff.mp hget
    rw [List.drop_eq_getElem_cons hlt', hget, List.take_succ_cons, List.take_zero]
  have hverify : verifyEntry h m.mT m.entries.length i raw
      (rtRangeProof (blake3 h) m.leaves i 1).2 = true := by
    have hrange := @rtVerifyRange_rtRangeProof (blake3 h) m.leaves m.mT i 1
      (by have := m.entries_lt; omega) (Nat.le_refl 1) (by omega) m.root
    rwa [hleaf, hlen] at hrange
  have hparse := m.parsed _ (List.mem_of_getElem? hraw)
  refine bind_eq_ok.mpr ⟨(), refuse_of_not ?_, ?_⟩
  · rw [TierManifest.tierCtx]
    dsimp only
    rw [hindex, hverify]
    simp
  · refine bind_eq_ok.mpr ⟨(e, raw.length), orFail_eq_ok.mpr hparse, ?_⟩
    exact bind_eq_ok.mpr ⟨(), refuse_of_not (by simp), rfl⟩

/-- An index over the whole model, from 33 chunks on. -/
structure Indexed (h : Blake3) (index : Pom.WeightIndex) : Prop where
  built : index.Built (blake3 h)
  many : 32 < index.nChunks
  size : index.nChunks < 2 ^ 64

/-- Bytes of a tensor open under the root of the model. -/
theorem openBytes_rangeProof {off len : Nat} (hindex : Indexed h index) (hlen : 0 < len)
    (hstop : off + len ≤ e.nBytes.toNat / 32 * 32)
    (hr : rangeProof (blake3 h) index (e.chunkBase.toNat + off / 32)
      (e.chunkBase.toNat + (off + len - 1) / 32) = some r) :
    openBytes h (m.tierCtx index) e r off len = .ok ((r.chunks.drop (off % 32)).take len) := by
  have hbounds : e.chunkBase.toNat + (off + len - 1) / 32 < index.nChunks := by
    rw [rangeProof] at hr
    split at hr
    · cases hr
    · next hguard =>
      simp only [Bool.or_eq_true, decide_eq_true_eq, not_or] at hguard
      omega
  obtain ⟨r', hr', hfirst, hchunks, -, hverify⟩ :=
    rangeProof_accepted hindex.built hindex.many hindex.size
      (show e.chunkBase.toNat + off / 32 ≤ e.chunkBase.toNat + (off + len - 1) / 32 by omega) hbounds
  rw [hr] at hr'
  cases hr'
  refine bind_eq_ok.mpr ⟨(), refuse_of_not ?_, bind_eq_ok.mpr ⟨(), refuse_of_not ?_, ?_⟩⟩
  · omega
  · rw [hfirst, hchunks]
    simp
  · refine bind_eq_ok.mpr ⟨(), refuse_of_not ?_, rfl⟩
    rw [TierManifest.tierCtx, hverify]
    simp

theorem openExpertRow_rowRange {exp row : Nat} (hindex : Indexed h index)
    (hrow : 0 < e.rowBytes.toNat) (hr : rowRange (h := h) index e exp row = some r) :
    ∃ bytes, openExpertRow h (m.tierCtx index) e r exp row = .ok bytes := by
  rw [rowRange, Option.bind_eq_bind, Option.bind_eq_some_iff] at hr
  obtain ⟨⟨first, last, off⟩, hchunks, hr⟩ := hr
  rw [Entry.rowChunks] at hchunks
  split at hchunks
  · cases hchunks
  · next hin =>
    dsimp only at hchunks
    split at hchunks
    · cases hchunks
    · next hstop =>
      cases hchunks
      have hbytes := @openBytes_rangeProof h m index e r _ _ hindex hrow (Nat.not_lt.mp hstop) hr
      exact ⟨_, bind_eq_ok.mpr ⟨(), refuse_of_not hin, hbytes⟩⟩

/-! ## Draws -/

/-- What the miner draws, with the drawn product `e` and the gate `g` of its pair. -/
structure Drawn (m : TierManifest h) (nPrompt nPos : UInt32) (seed : Hash) (i : UInt32)
    (p : PointSpec) (e g : Entry) : Prop where
  prompt : ¬ (nPos = 0 ∨ nPrompt = 0 ∨ nPos < nPrompt)
  rank : p.rank = Draw.point h seed i 1 % m.np
  first : m.entry p.rank = some e
  t : p.t =
    if e.role = roleOutput then
      nPrompt.toNat - 1 + Draw.point h seed i 0 % (nPos.toNat - (nPrompt.toNat - 1))
    else Draw.point h seed i 0 % nPos.toNat
  gRank : p.gRank = if e.gluForm = formPairUp then e.partner.toNat else p.rank
  gate : m.entry p.gRank = some g
  used : usedRows m g (decide (e.role = roleHeads)) = some p.nUsed
  mOut : g.mOut ≠ 0
  nUsed : p.nUsed ≠ 0
  row : p.row = Draw.point h seed i 2 % g.mOut
  slot : p.slot = if 1 < p.nUsed then Draw.point h seed i 3 / 2 ^ 32 % p.nUsed else 0
  experts : p.experts = (decide (1 < g.nExp) && !decide (e.role = roleHeads))

variable {nPrompt nPos : UInt32} {seed : Hash} {j : UInt32} {p : PointSpec} {g : Entry}

theorem drawn_of_drawPoint (hp : drawPoint m nPrompt nPos seed j = some p) :
    ∃ e g, Drawn m nPrompt nPos seed j p e g := by
  rw [drawPoint] at hp
  split at hp
  · cases hp
  next hprompt =>
  simp only [Option.bind_eq_bind, Option.bind_eq_some_iff] at hp
  obtain ⟨e, he, g, hg, nUsed, hused, hp⟩ := hp
  split at hp
  · cases hp
  next hpos =>
  rw [not_or] at hpos
  cases hp
  exact ⟨e, g, hprompt, rfl, he, rfl, rfl, hg, hused, hpos.1, hpos.2, rfl, rfl, rfl⟩

/-- A drawn position is one of the trace. -/
theorem Drawn.t_lt (hd : Drawn m nPrompt nPos seed j p e g) : p.t < nPos.toNat := by
  have hprompt := hd.prompt
  simp only [not_or, ← UInt32.toNat_inj, UInt32.lt_iff_toNat_lt, UInt32.toNat_zero] at hprompt
  rw [hd.t]
  split
  · have hlt := Nat.mod_lt (Draw.point h seed j 0)
      (show 0 < nPos.toNat - (nPrompt.toNat - 1) by omega)
    omega
  · exact Nat.mod_lt _ (by omega)

theorem Drawn.slot_lt (hd : Drawn m nPrompt nPos seed j p e g) : p.slot < p.nUsed := by
  rw [hd.slot]
  split
  · exact Nat.mod_lt _ (by omega)
  · exact Nat.pos_of_ne_zero hd.nUsed

theorem Drawn.row_lt (hd : Drawn m nPrompt nPos seed j p e g) : p.row < g.mOut := by
  rw [hd.row]
  exact Nat.mod_lt _ (Nat.pos_of_ne_zero hd.mOut)

theorem Drawn.rank_lt (hd : Drawn m nPrompt nPos seed j p e g) : p.rank < m.np := by
  rw [hd.rank]
  exact Nat.mod_lt _ m.products_pos

/-! ## Well-formed manifests -/

/-- What the manifests of the miner keep for product `rank`. -/
structure WellFormedProduct (m : TierManifest h) (rank : Nat) (e : Entry) : Prop where
  role : e.role = roleProduct ∨ e.role = roleOutput ∨ e.role = roleHeads
  heads : e.role = roleHeads → 1 < e.nExp ∧ e.gluForm ≠ formPairGate ∧ e.gluForm ≠ formPairUp
  rowBytes : 0 < e.rowBytes.toNat
  /-- The partners of a pair name each other, and one of them is the gate. -/
  partner : e.gluForm = formPairGate ∨ e.gluForm = formPairUp → e.partner.toNat < m.np ∧
    ∃ o, m.entry e.partner.toNat = some o ∧ o.partner.toNat = rank ∧ o.k = e.k ∧ o.m = e.m ∧
      o.nExp = e.nExp ∧ o.gluForm = if e.gluForm = formPairGate then formPairUp else formPairGate
  gluBias : e.gluForm ≠ formNone → e.bias = noneIndex
  bias : e.bias ≠ noneIndex → ∃ b, m.entry e.bias.toNat = some b ∧ b.role = roleBias ∧
    b.wtype = 0 ∧ b.k = e.m ∧ 4 * e.m.toNat ≤ b.nBytes.toNat / 32 * 32

structure WellFormed (m : TierManifest h) : Prop where
  products_le : m.np ≤ 2 ^ 31
  products : ∀ rank < m.np, ∀ e ∈ m.entry rank, WellFormedProduct m rank e
  /-- The expert ids of an output are in one chunk. -/
  nUsed : ∀ ctx ∈ m.chain, ctx.nUsed.toNat ≤ 256

/-! ## The site -/

/-- The up product of the pair of `g`. -/
def upEntry (m : TierManifest h) (g : Entry) : Option Entry :=
  if g.gluForm = formPairGate then m.entry g.partner.toNat else none

variable {exp : Nat} {rows : List ChunkRange} {partner : Option EntryOpening}

/-- What the miner opens of a pair: a row of the gate and, if it is gated, a second one, which the
gate has itself or the up product. -/
theorem pointRows_cases (hrows : pointRows m index p g exp = some (rows, partner)) :
    ∃ r, rowRange (h := h) index g exp p.row = some r ∧
      (g.gluForm = formNone ∧ rows = [r] ∧ partner = none ∨
      g.gluForm = formSplit ∧ partner = none ∧ (∃ u,
        rowRange (h := h) index g exp (p.row + g.mOut) = some u ∧ rows = [r, u]) ∨
      g.gluForm = formPairGate ∧ ∃ up u po, m.entry g.partner.toNat = some up ∧
        rowRange (h := h) index up exp p.row = some u ∧ rows = [r, u] ∧ partner = some po ∧
        m.entryOpening (if p.rank = p.gRank then g.partner.toNat else p.gRank) = some po) := by
  simp only [pointRows, Option.bind_eq_bind, Option.bind_eq_some_iff] at hrows
  obtain ⟨r, hr, hrows⟩ := hrows
  refine ⟨r, hr, ?_⟩
  split at hrows
  · next hnone =>
    cases hrows
    exact .inl ⟨hnone, rfl, rfl⟩
  split at hrows
  · next hsplit =>
    simp only [Option.bind_eq_some_iff] at hrows
    obtain ⟨u, hu, hrows⟩ := hrows
    cases hrows
    exact .inr (.inl ⟨hsplit, rfl, u, hu, rfl⟩)
  split at hrows
  · next hpair =>
    simp only [Option.bind_eq_some_iff] at hrows
    obtain ⟨up, hup, u, hu, po, hpo, hrows⟩ := hrows
    cases hrows
    exact .inr (.inr ⟨hpair, up, u, po, hup, hu, rfl, rfl, hpo⟩)
  · cases hrows

/-- The entry that is opened with the drawn one: the other entry of a pair. -/
theorem partner_of_pointRows (hrows : pointRows m index p g exp = some (rows, partner)) :
    if g.gluForm = formPairGate then
      ∃ po, partner = some po ∧
        m.entryOpening (if p.rank = p.gRank then g.partner.toNat else p.gRank) = some po
    else partner = none := by
  obtain ⟨r, -, hnone | hsplit | hpair⟩ := pointRows_cases hrows
  · obtain ⟨hform, -, rfl⟩ := hnone
    rw [hform, if_neg (by decide)]
  · obtain ⟨hform, rfl, -⟩ := hsplit
    rw [hform, if_neg (by decide)]
  · obtain ⟨hform, up, u, po, -, -, -, rfl, hpo⟩ := hpair
    rw [if_pos hform]
    exact ⟨po, rfl, hpo⟩

/-- The verifier finds the gate and the up product that the miner opened. -/
theorem openGate_pointRows (hm : WellFormed m) (hd : Drawn m nPrompt nPos seed j p e g)
    (hrows : pointRows m index p g exp = some (rows, partner)) :
    openGate h (m.tierCtx index) e p.rank partner = .ok (g, p.gRank, upEntry m g) := by
  have hwf := hm.products p.rank hd.rank_lt e hd.first
  have hpartner := partner_of_pointRows hrows
  have hgRank := hd.gRank
  have hgate := hd.gate
  by_cases hup : e.gluForm = formPairUp
  · obtain ⟨-, o, ho, hback, hk, hmul, -, hform⟩ := hwf.partner (.inr hup)
    rw [if_pos hup] at hgRank
    rw [hgRank, ho] at hgate
    cases hgate
    rw [hup, if_neg (by decide)] at hform
    rw [if_pos hform] at hpartner
    have hne : p.rank ≠ p.gRank := by
      intro heq
      have hsame := hd.first
      rw [heq, hgRank, ho] at hsame
      cases hsame
      rw [hup] at hform
      exact absurd hform (by decide)
    obtain ⟨po, rfl, hpo⟩ := hpartner
    rw [if_neg hne, hgRank] at hpo
    rw [openGate, if_neg (by rw [hup]; decide), if_pos (.inr hup)]
    refine bind_eq_ok.mpr ⟨po, rfl, bind_eq_ok.mpr ⟨g, openEntry_entryOpening ho hpo, ?_⟩⟩
    refine bind_eq_ok.mpr ⟨(), refuse_of_not (by simp [hback, hk, hmul]), ?_⟩
    rw [if_neg (by rw [hup]; decide), upEntry, if_pos hform, hback, hd.first, hgRank]
    rfl
  · rw [if_neg hup] at hgRank
    rw [hgRank, hd.first] at hgate
    cases hgate
    by_cases hpair : e.gluForm = formPairGate
    · obtain ⟨-, o, ho, hback, hk, hmul, -⟩ := hwf.partner (.inl hpair)
      rw [if_pos hpair] at hpartner
      obtain ⟨po, rfl, hpo⟩ := hpartner
      rw [if_pos hgRank.symm] at hpo
      rw [openGate, if_neg (by rw [hpair]; decide), if_pos (.inl hpair)]
      refine bind_eq_ok.mpr ⟨po, rfl, bind_eq_ok.mpr ⟨o, openEntry_entryOpening ho hpo, ?_⟩⟩
      refine bind_eq_ok.mpr ⟨(), refuse_of_not (by simp [hback, hk, hmul]), ?_⟩
      rw [if_pos hpair, upEntry, if_pos hpair, ho, hgRank]
      rfl
    · rw [if_neg hpair] at hpartner
      cases hpartner
      have hform : e.gluForm = formNone ∨ e.gluForm = formSplit := by
        obtain ⟨r, -, hnone | hsplit | hgate⟩ := pointRows_cases hrows
        · exact .inl hnone.1
        · exact .inr hsplit.1
        · exact absurd hgate.1 hpair
      rw [openGate, if_pos hform, upEntry, if_neg hpair, hgRank]
      rfl

/-- What the verifier draws for a point of the miner. -/
abbrev PointSpec.site (m : TierManifest h) (p : PointSpec) (e g : Entry) : Site where
  rank := p.rank
  t := p.t
  first := e
  gate := g
  gRank := p.gRank
  up := upEntry m g
  experts := p.experts
  nUsed := p.nUsed
  slot := p.slot
  mOut := g.mOut
  row := p.row

variable {rec : TraceRecord h} {shape : Nat → PosShape} {o : Point} {ids : Option ExpertIds}
  {x y : List UInt8}

/-- The rows per leaf are those of the shape. -/
theorem Drawn.nUsed_eq (hd : Drawn m nPrompt nPos seed j p e g) (hrec : Recorded m rec shape) :
    p.nUsed = if p.experts then (shape p.t).nUsed.toNat
      else if e.role = roleHeads then g.nExp.toNat else 1 := by
  have hused := hd.used
  rw [usedRows] at hused
  split at hused
  · cases hused
  rw [hd.experts]
  split at hused
  · next hexp =>
    rw [Option.map_eq_some_iff] at hused
    obtain ⟨ctx, hctx, hused⟩ := hused
    rw [hrec.shape_nUsed hctx, ← hused]
    simp only [decide_eq_true_eq] at hexp
    simp [hexp]
  · next hexp =>
    simp only [decide_eq_true_eq, not_and, not_not] at hexp
    split at hused
    · next hheads =>
      simp only [decide_eq_true_eq] at hheads
      simpa [hheads] using (Option.some.inj hused).symm
    · next hheads =>
      simp only [decide_eq_true_eq] at hheads
      have hone : ¬ 1 < g.nExp := fun hlt => hheads (hexp hlt)
      simpa [hheads, hone] using (Option.some.inj hused).symm

theorem drawPosition_eq (hd : Drawn m rec.nPrompt rec.nPos seed j p e g) :
    drawPosition rec.responseCtx e.role (Draw.point h seed j 0) = .ok p.t := by
  have hprompt := hd.prompt
  simp only [not_or, ← UInt32.toNat_inj, UInt32.lt_iff_toNat_lt, UInt32.toNat_zero] at hprompt
  have hguard : ¬ (rec.nPrompt = 0 ∨ rec.nPos.toNat ≤ rec.nPrompt.toNat - 1) := by
    rw [← UInt32.toNat_inj, UInt32.toNat_zero]
    omega
  rw [drawPosition, hd.t]
  split
  · exact if_neg hguard
  · rfl

/-- The gate of a pair and the product of heads are of their kinds. -/
theorem Drawn.gate_kind (hm : WellFormed m) (hd : Drawn m nPrompt nPos seed j p e g) :
    (e.role = roleHeads → 1 < g.nExp ∧ upEntry m g = none) ∧
      ∀ u ∈ upEntry m g, u.nExp = g.nExp := by
  have hwf := hm.products p.rank hd.rank_lt e hd.first
  have hgRank := hd.gRank
  have hgate := hd.gate
  constructor
  · intro hheads
    obtain ⟨hexp, hpair, hup⟩ := hwf.heads hheads
    rw [if_neg hup] at hgRank
    rw [hgRank, hd.first] at hgate
    cases hgate
    exact ⟨hexp, if_neg hpair⟩
  · intro u hu
    rw [upEntry] at hu
    split at hu
    · next hpair =>
      by_cases hup : e.gluForm = formPairUp
      · obtain ⟨-, o, ho, hback, -, -, hexp, -⟩ := hwf.partner (.inr hup)
        rw [if_pos hup] at hgRank
        rw [hgRank, ho] at hgate
        cases hgate
        rw [hback, hd.first] at hu
        cases hu
        exact hexp.symm
      · rw [if_neg hup] at hgRank
        rw [hgRank, hd.first] at hgate
        cases hgate
        obtain ⟨-, o, ho, -, -, -, hexp, -⟩ := hwf.partner (.inl hpair)
        rw [ho] at hu
        cases hu
        exact hexp
    · cases hu

/-- The verifier draws what the miner drew. -/
theorem drawSite_drawn (hm : WellFormed m) (hrec : Recorded m rec shape)
    (hd : Drawn m rec.nPrompt rec.nPos seed j p e g)
    (hentry : m.entryOpening p.rank = some o.entry)
    (hrows : pointRows m index p g exp = some (rows, o.partner)) (hids : ids.isSome = p.experts) :
    drawSite h (m.tierCtx index) rec.responseCtx (shape p.t) seed j o ids =
      .ok (p.site m e g) := by
  have hwf := hm.products p.rank hd.rank_lt e hd.first
  have hpos := m.products_pos
  have hle := m.products_le
  have hnUsed := hd.nUsed_eq hrec
  obtain ⟨hheads, hup⟩ := hd.gate_kind hm
  rw [drawSite]
  refine bind_eq_ok.mpr ⟨(), refuse_of_not hd.prompt, ?_⟩
  refine bind_eq_ok.mpr ⟨(), refuse_of_not ?_, ?_⟩
  · dsimp only [TierManifest.tierCtx, TierManifest.np]
    omega
  refine bind_eq_ok.mpr ⟨e, ?_, ?_⟩
  · have hopen := @openEntry_entryOpening h m index e o.entry p.rank hd.first hentry
    rwa [hd.rank] at hopen
  refine bind_eq_ok.mpr ⟨(), refuse_of_not ?_, ?_⟩
  · rintro ⟨hproduct, houtput, hnot⟩
    rcases hwf.role with hrole | hrole | hrole
    · exact hproduct hrole
    · exact houtput hrole
    · exact hnot hrole
  refine bind_eq_ok.mpr ⟨p.t, drawPosition_eq hd, ?_⟩
  refine bind_eq_ok.mpr ⟨(g, p.gRank, upEntry m g), ?_, ?_⟩
  · have hgate := openGate_pointRows hm hd hrows
    rwa [hd.rank] at hgate
  have hexperts : decide (1 < g.nExp ∧ ¬ e.role = roleHeads) = p.experts := by
    rw [hd.experts]
    simp
  dsimp only
  rw [hexperts]
  refine bind_eq_ok.mpr ⟨(), refuse_of_not ?_, ?_⟩
  · rintro (hne | ⟨hexp, hzero⟩ | ⟨hrole, hbad⟩)
    · exact hne hids.symm
    · rw [if_pos hexp, hzero] at hnUsed
      exact hd.nUsed hnUsed
    · obtain ⟨hmany, hnone⟩ := hheads hrole
      rw [hnone] at hbad
      rcases hbad with hfew | hsome
      · rw [UInt32.lt_iff_toNat_lt] at hmany hfew
        have hone : (1 : UInt32).toNat = 1 := rfl
        have htwo : (2 : UInt32).toNat = 2 := rfl
        omega
      · cases hsome
  refine bind_eq_ok.mpr ⟨(), refuse_of_not ?_, ?_⟩
  · rintro ⟨u, hu, hne⟩
    exact hne (hup u hu)
  rw [← hnUsed]
  refine bind_eq_ok.mpr ⟨(), refuse_of_not hd.mOut, ?_⟩
  have hrow := hd.row
  have hslot := hd.slot
  have hrank := hd.rank
  rw [PointSpec.site, hrow, hslot, hrank]
  rfl

end KeryxMiner.Replay
