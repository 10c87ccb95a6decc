import KeryxMiner.Replay.Accepted
import KeryxMiner.Replay.AttnDraw

/-!
# Captured leaves before the verifier

Chunks of a captured leaf lead the verifier to the root of its position and give it the values that
they cover (`OutputChunks.anchorRoot`, `OutputChunks.headFromChunks`), captured spans open under the
root of the sequence leaves (`Answered.spanOpens`), and opened weights are those of the model
(`f32Weights_bytesRange`).
-/

namespace KeryxMiner.Replay

open Inference Manifest
open Openings hiding Hash

variable {h : Blake3} {m : TierManifest h} {rec : TraceRecord h} {index : Pom.WeightIndex}
  {bytes : List UInt8} {leaf : UInt32} {lc : LeafChunk} {cs : List LeafChunk} {root : Hash}
  {shape : PosShape} {t c lo n : Nat} {seq : SeqTrace} {ctx : ChainCtx} {caps : Captures}

/-! ## Captures of whole rows -/

/-- How many rows a leaf of a product has: one for each of its heads. -/
def rowHeads (e : Entry) : Nat := if e.role = roleHeads then e.nExp.toNat else 1

/-- The captures are committed leaves, and those of a product without experts are its rows. -/
structure WholeRows (m : TierManifest h) (rec : TraceRecord h) (caps : Captures) : Prop where
  committed : ∀ t < rec.nPos.toNat, ∀ leaf, ∀ bytes ∈ caps (captureKey t leaf),
    (rec.leavesAt t)[leaf.toNat]? = some (blake3 h bytes) ∧ bytes.length < 2 ^ 32
  input : ∀ t < rec.nPos.toNat, ∀ r : UInt32, r.toNat < m.np → ∀ e ∈ m.entry r.toNat,
    e.nExp = 1 ∨ e.role = roleHeads → ∀ bytes ∈ caps (captureKey t (2 * r)),
      bytes.length = rowHeads e *
        xLen e.k.toNat (inputLayout e.role (expectedUbatch t rec.nPrompt) e.wtype)
  output : ∀ t < rec.nPos.toNat, ∀ r : UInt32, r.toNat < m.np → ∀ e ∈ m.entry r.toNat,
    e.nExp = 1 ∨ e.role = roleHeads → ∀ bytes ∈ caps (captureKey t (2 * r + 1)),
      bytes.length = 4 * (rowHeads e * e.mOut)

/-- The root of a position opens under the root of the trace, and its leaves open under it. -/
structure PositionRoot (rec : TraceRecord h) (t : Nat) (root : Hash) : Prop where
  verify : b3Verify h.toMerges rec.traceRoot rec.nPos.toNat t root (rec.posPath t) = true
  fold : ∀ i leaf, (rec.leavesAt t)[i]? = some leaf →
    b3Fold h.toMerges rec.nLeaves i leaf (b3Path h.toMerges (rec.leavesAt t) i) = some root

theorem exists_positionRoot (ht : t < rec.nPos.toNat) : ∃ root, PositionRoot rec t root := by
  obtain ⟨root, -, hverify, hfold⟩ := TraceRecord.exists_posRoot ht
  exact ⟨root, hverify, hfold⟩

/-! ## Chunks -/

/-- Chunk `c` of a captured leaf, before the verifier. -/
structure OpenedChunk (rec : TraceRecord h) (t : Nat) (leaf : UInt32) (bytes : List UInt8) (c : Nat)
    (lc : LeafChunk) : Prop where
  value : chunkLeaf h lc bytes.length c = .ok (blake3 h bytes)
  index : lc.index.toNat = c
  chunk : lc.chunk = chunkBytes bytes c 1
  path : lc.leafPath = b3Path h.toMerges (rec.leavesAt t) leaf.toNat

theorem openedChunk_of_leafChunk (hlen : bytes.length < 2 ^ 32)
    (hlc : leafChunk rec t leaf bytes c = some lc) : OpenedChunk rec t leaf bytes c lc := by
  simp only [leafChunk, Option.bind_eq_bind, Option.bind_eq_some_iff] at hlc
  obtain ⟨⟨chunk, path⟩, hchunk, hlc⟩ := hlc
  cases hlc
  obtain ⟨hbytes, hleaf⟩ := chunkWithPath_eq_some (Nat.lt_trans hlen (by decide)) hchunk
  have hc : c < 2 ^ 32 := by
    simp only [chunkWithPath, Option.ite_none_left_eq_some, chunkCount_eq] at hchunk
    omega
  have hindex : (UInt32.ofNat c).toNat = c := UInt32.toNat_ofNat_of_lt' hc
  refine ⟨?_, hindex, hbytes, rfl⟩
  refine bind_eq_ok.mpr ⟨(), refuse_of_not ?_, orFail_eq_ok.mpr hleaf⟩
  dsimp only
  rw [hindex, UInt32.toNat_ofNat_of_lt' hlen]
  simp

/-- The opened chunk leads to the root of its position. -/
theorem OpenedChunk.verify (hc : OpenedChunk rec t leaf bytes c lc)
    (hroot : PositionRoot rec t root) (hleaf : (rec.leavesAt t)[leaf.toNat]? = some (blake3 h bytes)) :
    b3Fold h.toMerges rec.nLeaves leaf.toNat (blake3 h bytes) lc.leafPath = some root := by
  rw [hc.path]
  exact hroot.fold _ _ hleaf

/-- The chunks that cover the values from `lo` to `lo + n` of a captured leaf. -/
structure Covers (rec : TraceRecord h) (t : Nat) (leaf : UInt32) (bytes : List UInt8) (lo n : Nat)
    (cs : List LeafChunk) : Prop where
  opened : ∀ lc ∈ cs, ∃ c, OpenedChunk rec t leaf bytes c lc
  covers : ∀ i < n, ∃ lc ∈ cs, OpenedChunk rec t leaf bytes ((lo + i) / 256) lc

theorem covers_of_valueChunks (hlen : bytes.length < 2 ^ 32)
    (hcs : valueChunks rec t leaf bytes lo n = some cs) : Covers rec t leaf bytes lo n cs := by
  have hchunks := fun i hi => getElem?_mapM' (i := i) hcs (List.getElem?_range hi)
  have hcount := length_mapM' hcs
  rw [List.length_range] at hcount
  rw [b3Chunk] at hchunks hcount
  constructor
  · intro lc hmem
    obtain ⟨i, hi⟩ := List.mem_iff_getElem?.mp hmem
    have hlt := (List.getElem?_eq_some_iff.mp hi).1
    exact ⟨_, openedChunk_of_leafChunk hlen ((hchunks i (hcount ▸ hlt)).trans hi)⟩
  · intro i hi
    have hlt : (lo + i) / 256 - 4 * lo / 1024 <
        (4 * (lo + n) - 1) / 1024 + 1 - 4 * lo / 1024 := by omega
    refine ⟨_, List.getElem_mem (hcount.symm ▸ hlt), openedChunk_of_leafChunk hlen ?_⟩
    have hchunk := hchunks _ hlt
    rw [List.getElem?_eq_getElem (hcount.symm ▸ hlt),
      show 4 * lo / 1024 + ((lo + i) / 256 - 4 * lo / 1024) = (lo + i) / 256 by omega] at hchunk
    exact hchunk

theorem Covers.ne_nil (hcs : Covers rec t leaf bytes lo n cs) (hn : 0 < n) : cs ≠ [] := by
  rintro rfl
  obtain ⟨lc, hmem, -⟩ := hcs.covers 0 hn
  exact List.not_mem_nil hmem

/-- The first chunk leads to the root of the position. -/
theorem Covers.anchorRoot {resp : ResponseCtx} (hcs : Covers rec t leaf bytes lo n cs) (hn : 0 < n)
    (hroot : PositionRoot rec t root)
    (hleaf : (rec.leavesAt t)[leaf.toNat]? = some (blake3 h bytes))
    (hshape : shape.nLeaves = rec.nLeaves) (hpos : resp.nPos = rec.nPos) :
    anchorRoot h resp rec.traceRoot t shape leaf.toNat cs bytes.length (rec.posPath t) =
      .ok root := by
  obtain ⟨lc, cs', rfl⟩ := List.exists_cons_of_ne_nil (hcs.ne_nil hn)
  obtain ⟨c, hc⟩ := hcs.opened lc List.mem_cons_self
  have hvalue := hc.value
  rw [← hc.index] at hvalue
  refine bind_eq_ok.mpr ⟨lc, rfl, bind_eq_ok.mpr ⟨_, hvalue, bind_eq_ok.mpr ⟨root, ?_, ?_⟩⟩⟩
  · exact orFail_eq_ok.mpr (hshape ▸ hc.verify hroot hleaf)
  · refine bind_eq_ok.mpr ⟨(), refuse_of_not ?_, rfl⟩
    rw [hpos, hroot.verify]
    simp

/-! ## Values -/

theorem length_placeChunk {out : List (Option (List UInt8))} :
    (placeChunk lo lc out).length = out.length := by
  rw [placeChunk, List.length_mapIdx]

/-- A chunk puts its values and keeps the others. -/
theorem placeChunk_isSome {out : List (Option (List UInt8))} {i : Nat} {old : Option (List UInt8)}
    (hi : out[i]? = some old)
    (hsome : old.isSome ∨ lc.index.toNat * b3Chunk / 4 ≤ lo + i ∧
      lo + i - lc.index.toNat * b3Chunk / 4 < lc.chunk.length / 4) :
    ∃ value, (placeChunk lo lc out)[i]? = some (some value) := by
  simp only [placeChunk, List.getElem?_mapIdx, hi, Option.map_some]
  split
  · exact ⟨_, rfl⟩
  · next hout =>
    obtain ⟨value, rfl⟩ := Option.isSome_iff_exists.mp (hsome.resolve_right hout)
    exact ⟨value, rfl⟩

/-- The step of `headFromChunks`. -/
abbrev headStep (h : Blake3) (num : AttnNumerics) (root : Hash) (shape : PosShape) (leaf total lo : Nat)
    (out : List (Option (List UInt8))) (c : LeafChunk) : Except Fail (List (Option (List UInt8))) := do
  let cv ← chunkLeaf h c total c.index.toNat
  refuse (b3Verify h.toMerges root shape.nLeaves leaf cv c.leafPath = false) .trace
  refuse (num.finite c.chunk = false) .mismatch
  return placeChunk lo c out

/-- What is placed, or in one of the chunks, is placed behind them. -/
theorem ends_foldlM_headStep {num : AttnNumerics} {len : Nat} {out : List (Option (List UInt8))}
    (hopened : ∀ lc ∈ cs, ∃ c, OpenedChunk rec t leaf bytes c lc) (hroot : PositionRoot rec t root)
    (hleaf : (rec.leavesAt t)[leaf.toNat]? = some (blake3 h bytes))
    (hshape : shape.nLeaves = rec.nLeaves) (hlen : out.length = len)
    (hsome : ∀ i < len, (∃ value, out[i]? = some (some value)) ∨ ∃ lc ∈ cs,
      lc.index.toNat * b3Chunk / 4 ≤ lo + i ∧
        lo + i - lc.index.toNat * b3Chunk / 4 < lc.chunk.length / 4) :
    Ends (· = .mismatch) (fun out => out.length = len ∧ ∀ i < len, ∃ value, out[i]? = some (some value))
      (cs.foldlM (headStep h num root shape leaf.toNat bytes.length lo) out) := by
  induction cs generalizing out with
  | nil =>
    refine Ends.pure ⟨hlen, fun i hi => (hsome i hi).resolve_right ?_⟩
    rintro ⟨lc, hmem, -⟩
    exact List.not_mem_nil hmem
  | cons lc cs ih =>
    rw [List.foldlM_cons]
    obtain ⟨c, hc⟩ := hopened lc List.mem_cons_self
    have hvalue := hc.value
    rw [← hc.index] at hvalue
    have hverify := hc.verify hroot hleaf
    have hstep : Ends (· = .mismatch) (· = placeChunk lo lc out)
        (headStep h num root shape leaf.toNat bytes.length lo out lc) := by
      refine Ends.bind_ok hvalue (Ends.bind_ok (refuse_of_not ?_) ?_)
      · rw [b3Verify, hshape, hverify]
        simp
      · exact Ends.bind (ends_refuse fun _ => rfl) fun _ _ => Ends.pure rfl
    refine Ends.bind hstep ?_
    rintro _ rfl
    refine ih (fun lc' hmem => hopened lc' (List.mem_cons_of_mem _ hmem))
      (length_placeChunk.trans hlen) fun i hi => ?_
    have hget : out[i]? = some (out.get ⟨i, hlen ▸ hi⟩) := List.getElem?_eq_getElem (hlen ▸ hi)
    rcases hsome i hi with ⟨value, hplaced⟩ | ⟨lc', hmem, hin⟩
    · exact .inl (placeChunk_isSome hplaced (.inl rfl))
    · rcases List.mem_cons.mp hmem with rfl | hmem
      · exact .inl (placeChunk_isSome hget (.inr hin))
      · exact .inr ⟨lc', hmem, hin⟩

/-- The chunks have their values. -/
theorem Covers.headFromChunks {num : AttnNumerics} {lo' n' : Nat}
    (hcs : Covers rec t leaf bytes lo n cs) (hroot : PositionRoot rec t root)
    (hleaf : (rec.leavesAt t)[leaf.toNat]? = some (blake3 h bytes))
    (hshape : shape.nLeaves = rec.nLeaves) (hlo : lo ≤ lo') (hstop : lo' + n' ≤ lo + n)
    (hlen : 4 * (lo + n) ≤ bytes.length) :
    Ends (· = .mismatch) (fun _ => True)
      (headFromChunks h num root shape leaf.toNat cs bytes.length lo' n') := by
  have hsome : ∀ i < n', (∃ value, (List.replicate n' (none : Option (List UInt8)))[i]? =
      some (some value)) ∨ ∃ lc ∈ cs,
      lc.index.toNat * b3Chunk / 4 ≤ lo' + i ∧
        lo' + i - lc.index.toNat * b3Chunk / 4 < lc.chunk.length / 4 := by
    intro i hi
    obtain ⟨lc, hmem, hc⟩ := hcs.covers (lo' + i - lo) (by omega)
    refine .inr ⟨lc, hmem, ?_⟩
    rw [hc.index, hc.chunk, length_chunkBytes, b3Chunk]
    omega
  refine Ends.bind (ends_foldlM_headStep hcs.opened hroot hleaf hshape List.length_replicate hsome) ?_
  rintro out ⟨hcount, hplaced⟩
  obtain ⟨values, hvalues⟩ := exists_mapM' (f := id) (l := out) fun value hmem => by
    obtain ⟨i, hi⟩ := List.mem_iff_getElem?.mp hmem
    have hlt := (List.getElem?_eq_some_iff.mp hi).1
    obtain ⟨value', hvalue⟩ := hplaced i (hcount ▸ hlt)
    exact ⟨value', Option.some.inj (hi.symm.trans hvalue)⟩
  exact Ends.bind_ok (orFail_eq_ok.mpr hvalues) trivial

/-! ## Answers -/

/-- The record, the captures and the sequence leaves are those of one answer, over the weights of
the model. -/
structure Answered (m : TierManifest h) (rec : TraceRecord h) (seq : SeqTrace)
    (index : Pom.WeightIndex) (ctx : ChainCtx) (caps : Captures) : Prop where
  chain : m.chain = some ctx
  products_le : m.np ≤ 2 ^ 31
  nLeaves : rec.nLeaves = m.nLeaves
  indexed : Indexed h index
  rows : WholeRows m rec caps
  seqLeaves : seq.leaves.length = (seqLayout ctx).nLeaves
  seqLeaves_le : seq.leaves.length ≤ 2 ^ 32
  seqRoot : b3Root h.toMerges seq.leaves = some seq.root

/-- Product `r` puts out `n` values at a position. -/
structure Outputs (m : TierManifest h) (r : UInt32) (n : Nat) : Prop where
  product : r.toNat < m.np
  rows : ∀ e ∈ m.entry r.toNat, (e.nExp = 1 ∨ e.role = roleHeads) ∧ rowHeads e * e.mOut = n

theorem TierManifest.exists_entry {i : Nat} (hi : i < m.np) : ∃ e, m.entry i = some e := by
  have hlt : i < m.entries.length := Nat.lt_of_lt_of_le hi m.products_le
  rw [entry, List.getElem?_eq_getElem hlt]
  exact ⟨_, rfl⟩

theorem Answered.shape_nLeaves (ha : Answered m rec seq index ctx caps) :
    (shapeAny (m.tierCtx index) ctx).nLeaves = rec.nLeaves := by
  simp [ha.nLeaves, TierManifest.nLeaves, ha.chain, shapeAny, PosShape.chain, TierManifest.tierCtx]

/-- The leaves of a product are numbered by it. -/
theorem Answered.leaf_toNat (ha : Answered m rec seq index ctx caps) {r : UInt32}
    (hr : r.toNat < m.np) : (2 * r).toNat = 2 * r.toNat ∧ (2 * r + 1).toNat = 2 * r.toNat + 1 := by
  have hle := ha.products_le
  have htwo : (2 : UInt32).toNat = 2 := rfl
  have hone : (1 : UInt32).toNat = 1 := rfl
  rw [UInt32.toNat_add, UInt32.toNat_mul, htwo, hone]
  omega

/-- Chunks of the `n` values that product `r` puts out at position `t`, which cover `len` of them
from `lo` on. -/
def OutputChunks (rec : TraceRecord h) (t : Nat) (r : UInt32) (n lo len : Nat)
    (cs : List LeafChunk) : Prop :=
  ∃ bytes, bytes.length = 4 * n ∧ (rec.leavesAt t)[(2 * r + 1).toNat]? = some (blake3 h bytes) ∧
    (2 * r + 1).toNat = 2 * r.toNat + 1 ∧ Covers rec t (2 * r + 1) bytes lo len cs

/-- What the miner opens of the output of a product. -/
theorem Answered.outputChunks (ha : Answered m rec seq index ctx caps) (ht : t < rec.nPos.toNat)
    {r : UInt32} (hout : Outputs m r n) (hbytes : caps (captureKey t (2 * r + 1)) = some bytes)
    {len : Nat} (hcs : valueChunks rec t (2 * r + 1) bytes lo len = some cs) :
    OutputChunks rec t r n lo len cs := by
  obtain ⟨e, he⟩ := m.exists_entry hout.product
  obtain ⟨hone, hn⟩ := hout.rows e he
  obtain ⟨hleaf, hlt⟩ := ha.rows.committed t ht _ _ hbytes
  have hlen := ha.rows.output t ht r hout.product e he hone bytes hbytes
  exact ⟨bytes, hlen.trans (by rw [hn]), hleaf, (ha.leaf_toNat hout.product).2,
    covers_of_valueChunks hlt hcs⟩

namespace OutputChunks

variable {r : UInt32} {len : Nat}

theorem anchorRoot {resp : ResponseCtx} (hcs : OutputChunks rec t r n lo len cs) (hlen : 0 < len)
    (hroot : PositionRoot rec t root) (hshape : shape.nLeaves = rec.nLeaves)
    (hpos : resp.nPos = rec.nPos) :
    anchorRoot h resp rec.traceRoot t shape (2 * r.toNat + 1) cs (4 * n) (rec.posPath t) =
      .ok root := by
  obtain ⟨bytes, hbytes, hleaf, hr, hcovers⟩ := hcs
  rw [← hbytes, ← hr]
  exact hcovers.anchorRoot hlen hroot hleaf hshape hpos

/-- The verifier has the values, if they are finite. -/
theorem headFromChunks {num : AttnNumerics} {lo' n' : Nat}
    (hcs : OutputChunks rec t r n lo len cs) (hroot : PositionRoot rec t root)
    (hshape : shape.nLeaves = rec.nLeaves) (hlo : lo ≤ lo') (hstop : lo' + n' ≤ lo + len)
    (hle : lo + len ≤ n) :
    Ends (· = .mismatch) (fun _ => True)
      (headFromChunks h num root shape (2 * r.toNat + 1) cs (4 * n) lo' n') := by
  obtain ⟨bytes, hbytes, hleaf, hr, hcovers⟩ := hcs
  rw [← hbytes, ← hr]
  exact hcovers.headFromChunks hroot hleaf hshape hlo hstop (by omega)

end OutputChunks

/-- The span opens the bytes `lo` to `hi` of the leaf `leaf`, of `total` bytes. -/
def SpanOpens (h : Blake3) (ctx : ChainCtx) (seq : SeqTrace) (leaf : Option Nat)
    (total lo hi : Nat) (s : SeqSpan) : Prop :=
  ∃ i ∈ leaf, ∃ bytes, openSpan h seq.root (seqLayout ctx) i total lo hi s = some bytes ∧
    bytes.length = hi - lo

/-- A span of the miner opens a leaf of fewer than `2 ^ 32` chunks. -/
theorem Answered.spanOpens (ha : Answered m rec seq index ctx caps) {leaf : Option Nat}
    {total hi : Nat} {cap : Option SeqCapture} {error : String} {s : SeqSpan}
    (hs : captured (h := h) seq (leaf.bind fun i => SpanPlan.new i total lo hi) cap error = .ok s)
    (hleaf : ∀ i ∈ leaf, i < (seqLayout ctx).nLeaves) (htotal : total < 2 ^ 42) :
    SpanOpens h ctx seq leaf total lo hi s := by
  simp only [captured, bind_eq_ok, orFail_eq_ok, Option.bind_eq_some_iff] at hs
  obtain ⟨plan, ⟨i, hi, hplan⟩, cap, -, hs⟩ := hs
  have hcount := ha.seqLeaves_le
  have hlt : i < 2 ^ 32 := Nat.lt_of_lt_of_le (hleaf i hi) (ha.seqLeaves ▸ hcount)
  have hlo : lo / b3Chunk < 2 ^ 32 := by
    rw [SpanPlan.new, Option.ite_none_right_eq_some] at hplan
    rw [b3Chunk]
    omega
  exact ⟨i, hi, openSpan_span hplan hs ha.seqLeaves (by omega) ha.seqRoot (by omega) hlo hlt⟩

/-! ## Weights -/

/-- A norm of the manifest of `k` values. -/
def NormEntry (m : TierManifest h) (i : UInt32) (k : Nat) : Prop :=
  ∀ e ∈ m.entry i.toNat, e.role = roleNorm ∧ e.wtype = 0 ∧ e.k.toNat = k ∧
    4 * k ≤ e.nBytes.toNat / 32 * 32

/-- Weights that the miner opens are those of the model. -/
theorem f32Weights_bytesRange {i : UInt32} {k offset len : Nat} {w : Weights} (hindex : Indexed h index)
    (hnorm : NormEntry m i k) (hle : offset + len ≤ k)
    (hw : bytesRange m index i.toNat (4 * offset) (4 * len) = some w) :
    f32Weights h (m.tierCtx index) w i k offset len =
      .ok ((w.2.chunks.drop (4 * offset % 32)).take (4 * len)) := by
  simp only [bytesRange, Option.bind_eq_bind, Option.bind_eq_some_iff] at hw
  obtain ⟨e, he, hw⟩ := hw
  split at hw
  · cases hw
  next hpos =>
  simp only [Option.bind_eq_some_iff] at hw
  obtain ⟨eo, heo, r, hr, hw⟩ := hw
  cases hw
  obtain ⟨hrole, hwtype, hk, hsize⟩ := hnorm e he
  refine bind_eq_ok.mpr ⟨e, openEntry_entryOpening he heo, ?_⟩
  refine bind_eq_ok.mpr ⟨(), refuse_of_not (by simp [hrole, hwtype, hk]), ?_⟩
  exact openBytes_rangeProof hindex (Nat.pos_of_ne_zero hpos) (by omega) hr

end KeryxMiner.Replay
