import KeryxMiner.Replay.Record

/-!
# Recorded positions

What the constructors of a record commit to: the root of every position opens under the root of the
trace, the leaves of a position open under its root, and the last leaf of a position is the hash of
the meta bytes that its shape expects.
-/

namespace KeryxMiner.Replay

open Inference

section

variable {α β : Type} {f : α → Option β} {l : List α} {l' : List β} {x : α} {i : Nat}

/-- Element `i` of a list that is mapped as a whole. -/
theorem getElem?_mapM' (h : l.mapM' f = some l') (hx : l[i]? = some x) : f x = l'[i]? := by
  induction l generalizing l' i with
  | nil => cases hx
  | cons y l ih =>
    simp only [List.mapM'_cons, Option.bind_eq_bind, Option.bind_eq_some_iff] at h
    obtain ⟨b, hb, bs, hbs, h⟩ := h
    cases h
    cases i with
    | zero =>
      cases hx
      exact hb
    | succ i =>
      rw [List.getElem?_cons_succ] at hx ⊢
      exact ih hbs hx

theorem length_mapM' (h : l.mapM' f = some l') : l'.length = l.length := by
  induction l generalizing l' with
  | nil =>
    cases h
    rfl
  | cons y l ih =>
    simp only [List.mapM'_cons, Option.bind_eq_bind, Option.bind_eq_some_iff] at h
    obtain ⟨b, -, bs, hbs, h⟩ := h
    cases h
    rw [List.length_cons, List.length_cons, ih hbs]

theorem exists_mapM' (h : ∀ x ∈ l, ∃ b, f x = some b) : ∃ l', l.mapM' f = some l' := by
  induction l with
  | nil => exact ⟨[], rfl⟩
  | cons y l ih =>
    obtain ⟨b, hb⟩ := h y List.mem_cons_self
    obtain ⟨bs, hbs⟩ := ih fun x hx => h x (List.mem_cons_of_mem _ hx)
    exact ⟨b :: bs, by rw [List.mapM'_cons, hb, hbs]; rfl⟩

end

variable {h : Blake3} {m : TierManifest h} {rec : TraceRecord h} {t i : Nat}

namespace TraceRecord

theorem length_posRoots : rec.posRoots.length = rec.nPos.toNat := by
  rw [length_mapM' rec.roots, List.length_range]

theorem length_leavesAt (ht : t < rec.nPos.toNat) : (rec.leavesAt t).length = rec.nLeaves := by
  apply length_block
  rw [rec.length_leaves]
  exact Nat.mul_le_mul_right _ ht

/-- A position opens under the root of the trace and its leaves open under its root. -/
theorem exists_posRoot (ht : t < rec.nPos.toNat) : ∃ posRoot,
    rec.posRoots[t]? = some posRoot ∧
    b3Verify h.toMerges rec.traceRoot rec.nPos.toNat t posRoot (rec.posPath t) = true ∧
    ∀ i leaf, (rec.leavesAt t)[i]? = some leaf →
      b3Fold h.toMerges rec.nLeaves i leaf (b3Path h.toMerges (rec.leavesAt t) i) =
        some posRoot := by
  have hlt : t < rec.posRoots.length := length_posRoots.symm ▸ ht
  have hget : rec.posRoots[t]? = some rec.posRoots[t] := List.getElem?_eq_getElem hlt
  have hroot := getElem?_mapM' rec.roots (List.getElem?_range ht)
  have hpos : rec.posRoots.length < 2 ^ 64 := by
    rw [length_posRoots]
    exact Nat.lt_trans rec.nPos.toNat_lt (by decide)
  refine ⟨rec.posRoots[t], hget, ?_, ?_⟩
  · have hfold := @b3Fold_b3Path h.toMerges rec.posRoots rec.posRoots[t] t hpos hget
    rw [rec.root, length_posRoots] at hfold
    rw [b3Verify, posPath, hfold, beq_self_eq_true]
  · intro i leaf hleaf
    have hlen := length_leavesAt ht
    have hfold := @b3Fold_b3Path h.toMerges (rec.leavesAt t) leaf i (hlen ▸ rec.nLeaves_lt) hleaf
    rw [hlen] at hfold
    rw [hfold, ← hget, ← hroot]
    rfl

/-! ## Filled leaves -/

variable {ctx : ChainCtx} {before : Bool} {pos leaves : List Hash} {nLeaves nPos : Nat}

theorem length_foldl_keep {α β : Type} {f : List α → β → List α}
    (h : ∀ l b, (f l b).length = l.length) {bs : List β} {l : List α} :
    (bs.foldl f l).length = l.length := by
  induction bs generalizing l with
  | nil => rfl
  | cons b bs ih => rw [List.foldl_cons, ih, h]

theorem length_fillProducts : (fillProducts m before pos).length = pos.length := by
  apply length_foldl_keep
  intro l r
  rw [fillProduct]
  cases m.entry r with
  | none => rfl
  | some e =>
    dsimp only
    split <;> split <;> simp

theorem length_fillTrimmed : (fillTrimmed m ctx before pos).length = pos.length := by
  rw [fillTrimmed]
  split <;> simp

theorem length_fillRouters : (fillRouters m ctx before pos).length = pos.length := by
  rw [fillRouters]
  split
  · apply length_foldl_keep
    intro l r
    split <;> simp
  · rfl

/-- The last leaf of a filled position is the hash of its meta bytes. -/
theorem getElem?_filled {fill : Nat → List Hash → List Hash} {metaBytes : Nat → List UInt8}
    (hfill : ∀ t pos, (fill t pos).length = pos.length) (hlen : leaves.length = nPos * nLeaves)
    (hpos : 0 < nLeaves) (ht : t < nPos) :
    (block nLeaves (filled (h := h) nLeaves nPos fill metaBytes leaves) t)[nLeaves - 1]? =
      some (blake3 h (metaBytes t)) := by
  have hblock : ∀ t < nPos, (block nLeaves leaves t).length = nLeaves := by
    intro t ht
    apply length_block
    rw [hlen]
    exact Nat.mul_le_mul_right _ ht
  have hset : ∀ t < nPos, ((fill t (block nLeaves leaves t)).set (nLeaves - 1)
      (blake3 h (metaBytes t))).length = nLeaves := by
    intro t ht
    rw [List.length_set, hfill, hblock t ht]
  rw [filled, block_flatMap hset ht, List.getElem?_set_self]
  rw [hfill, hblock t ht]
  omega

/-- What `ofLeaves` takes over. -/
theorem ofLeaves_eq_some {stage : UInt8} {nPrompt : UInt32} {ubatch : List UInt32}
    {tokensRoot : Option Hash}
    (hrec : ofLeaves h stage nPrompt ubatch nLeaves leaves tokensRoot = some rec) :
    rec.nPrompt = nPrompt ∧ rec.ubatch = ubatch ∧ rec.nLeaves = nLeaves ∧ rec.leaves = leaves := by
  rw [ofLeaves] at hrec
  split at hrec
  · split at hrec
    · cases hrec
    · split at hrec
      · cases hrec
      · split at hrec
        · cases hrec
        · cases hrec
          exact ⟨rfl, rfl, rfl, rfl⟩
  · cases hrec

/-- There is a record of leaves that are all written. -/
theorem exists_ofLeaves {stage : UInt8} {nPrompt : UInt32} {ubatch : List UInt32}
    {tokensRoot : Option Hash} (hprompt : 0 < nPrompt.toNat) (hle : nPrompt.toNat ≤ ubatch.length)
    (hsize : ubatch.length < 2 ^ 32) (hlen : leaves.length = ubatch.length * nLeaves)
    (hpos : 0 < nLeaves) (hnLeaves : nLeaves < 2 ^ 64)
    (hwritten : Vector.replicate 32 0 ∉ leaves) :
    ∃ rec : TraceRecord h, ofLeaves h stage nPrompt ubatch nLeaves leaves tokensRoot = some rec := by
  have hblock : ∀ t < ubatch.length,
      ∃ root, b3Root h.toMerges (block nLeaves leaves t) = some root := by
    intro t ht
    apply RangeTree.Shape.exists_root
    rw [← List.length_pos_iff, length_block]
    · exact hpos
    · rw [hlen]
      exact Nat.mul_le_mul_right _ ht
  obtain ⟨posRoots, hroots⟩ := exists_mapM' fun t ht => hblock t (List.mem_range.mp ht)
  have hne : posRoots ≠ [] := by
    have hcount := length_mapM' hroots
    rw [List.length_range] at hcount
    rw [← List.length_pos_iff, hcount]
    omega
  obtain ⟨root, hroot⟩ := (b3Shape h.toMerges).exists_root hne
  rw [ofLeaves, dif_pos ⟨hprompt, hle, hsize, hlen, hnLeaves⟩, if_neg hwritten]
  split
  · next hnone =>
    rw [hroots] at hnone
    cases hnone
  · next posRoots' hroots' =>
    rw [hroots] at hroots'
    cases hroots'
    split
    · next hnone =>
      rw [b3Root, hroot] at hnone
      cases hnone
    · exact ⟨_, rfl⟩

end TraceRecord

/-! ## Shapes -/

/-- The record is one that the miner makes of a response, and its positions have the shapes. -/
inductive Recorded (m : TierManifest h) (rec : TraceRecord h) : (Nat → PosShape) → Prop
  | stage1 {nPrompt : UInt32} {ubatch : List UInt32} {leaves : List Hash}
      (hchain : m.chain = none) (hnew : TraceRecord.new m nPrompt ubatch leaves = some rec) :
      Recorded m rec fun _ => .stage1 m.np
  | chain {ctx : ChainCtx} {nPrompt : UInt32} {ubatch : List UInt32} {leaves : List Hash}
      {tokens : List UInt32} (hchain : m.chain = some ctx)
      (hnew : TraceRecord.newChain m nPrompt ubatch leaves tokens = some rec) :
      Recorded m rec fun t => .chain m.np ctx (tokens.getD t 0)

/-- The leaves of a product are among those of a position. -/
theorem TierManifest.products_lt_nLeaves : 2 * m.np < m.nLeaves := by
  rw [nLeaves]
  split
  · rw [nPosLeaves]
    omega
  · omega

namespace Recorded

variable {shape : Nat → PosShape}

theorem nLeaves (hrec : Recorded m rec shape) : rec.nLeaves = m.nLeaves := by
  cases hrec with
  | stage1 hchain hnew =>
    rw [TraceRecord.new] at hnew
    split at hnew
    · cases hnew
    · exact (TraceRecord.ofLeaves_eq_some hnew).2.2.1
  | chain hchain hnew =>
    rw [TraceRecord.newChain, hchain] at hnew
    dsimp only at hnew
    split at hnew
    · cases hnew
    · exact (TraceRecord.ofLeaves_eq_some hnew).2.2.1

theorem shape_nLeaves (hrec : Recorded m rec shape) :
    (shape t).nLeaves = rec.nLeaves ∧ (shape t).metaIndex = rec.nLeaves - 1 := by
  rw [hrec.nLeaves]
  cases hrec with
  | stage1 hchain hnew => simp [TierManifest.nLeaves, hchain, PosShape.stage1]
  | chain hchain hnew =>
    simp [TierManifest.nLeaves, hchain, PosShape.chain, nPosLeaves, metaLeafIndex]

theorem shape_nUsed (hrec : Recorded m rec shape) {ctx : ChainCtx} (hctx : m.chain = some ctx) :
    (shape t).nUsed = ctx.nUsed := by
  cases hrec with
  | stage1 hchain hnew =>
    rw [hchain] at hctx
    cases hctx
  | chain hchain hnew =>
    rw [hchain] at hctx
    cases hctx
    rfl

/-- The last leaf of a position is the hash of the meta bytes of its shape. -/
theorem metaLeaf (hrec : Recorded m rec shape) (ht : t < rec.nPos.toNat) :
    (rec.leavesAt t)[rec.nLeaves - 1]? =
      some (blake3 h ((shape t).metaBytes t (rec.ubatch.getD t 0))) := by
  have hpos : 0 < m.nLeaves := Nat.lt_of_le_of_lt (Nat.zero_le _)
    TierManifest.products_lt_nLeaves
  rw [TraceRecord.leavesAt, hrec.nLeaves]
  rw [← rec.length_ubatch] at ht
  cases hrec with
  | stage1 hchain hnew =>
    rw [TraceRecord.new] at hnew
    split at hnew
    · cases hnew
    · next hlen =>
      obtain ⟨-, hubatch, -, hleaves⟩ := TraceRecord.ofLeaves_eq_some hnew
      rw [hubatch] at ht
      rw [hleaves, hubatch]
      exact TraceRecord.getElem?_filled (fun _ _ => TraceRecord.length_fillProducts)
        (not_not.mp hlen) hpos ht
  | chain hchain hnew =>
    rw [TraceRecord.newChain, hchain] at hnew
    dsimp only at hnew
    split at hnew
    · cases hnew
    · next hlen =>
      obtain ⟨-, hubatch, -, hleaves⟩ := TraceRecord.ofLeaves_eq_some hnew
      rw [hubatch] at ht
      rw [hleaves, hubatch]
      refine TraceRecord.getElem?_filled (fun _ _ => ?_) (by tauto) hpos ht
      rw [TraceRecord.length_fillRouters, TraceRecord.length_fillTrimmed,
        TraceRecord.length_fillProducts]

end Recorded

end KeryxMiner.Replay
