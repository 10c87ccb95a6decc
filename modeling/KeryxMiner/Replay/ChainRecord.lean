import KeryxMiner.Replay.Accepted

/-!
# Records of a chain

What a record over a chain manifest commits to: every leaf of every position is written, and opens
under the root of its position, which opens under the root of the trace (`newChain_opens`).
-/

namespace KeryxMiner.Replay

open Inference

namespace TraceRecord

variable {h : Blake3} {m : TierManifest h} {rec : TraceRecord h} {nPrompt : UInt32}
  {ubatch tokens : List UInt32} {leaves : List Hash} {tokensRoot : Option Hash} {nLeaves t : Nat}

/-- The value of a leaf that the engine has not written. -/
def unwritten : Hash := Vector.replicate 32 0

theorem written_of_ofLeaves {stage : UInt8}
    (hrec : ofLeaves h stage nPrompt ubatch nLeaves leaves tokensRoot = some rec) :
    unwritten ∉ rec.leaves := by
  have hleaves := (ofLeaves_eq_some hrec).2.2.2
  rw [ofLeaves] at hrec
  split at hrec
  · split at hrec
    · cases hrec
    · next hwritten => exact hleaves ▸ hwritten
  · cases hrec

theorem written_of_newChain (hnew : newChain m nPrompt ubatch leaves tokens = some rec) :
    unwritten ∉ rec.leaves := by
  rw [newChain] at hnew
  split at hnew
  · cases hnew
  · split at hnew
    · cases hnew
    · exact written_of_ofLeaves hnew

/-- **Every leaf of a chain record is written, and opens in two steps under the root of the trace.** -/
theorem newChain_opens (m : TierManifest h) (nPrompt : UInt32) (ubatch : List UInt32)
    (leaves : List Hash) (tokens : List UInt32) (rec : TraceRecord h)
    (hnew : newChain m nPrompt ubatch leaves tokens = some rec) :
    ∀ t < rec.nPos.toNat, ∃ posRoot, rec.posRoots[t]? = some posRoot ∧
      b3Fold h.toMerges rec.nPos.toNat t posRoot (rec.posPath t) = some rec.traceRoot ∧
      ∀ i < rec.nLeaves, ∃ leaf, (rec.leavesAt t)[i]? = some leaf ∧ leaf ≠ unwritten ∧
        b3Fold h.toMerges rec.nLeaves i leaf (b3Path h.toMerges (rec.leavesAt t) i) =
          some posRoot := by
  intro t ht
  obtain ⟨posRoot, hget, hverify, hleaf⟩ := exists_posRoot ht
  refine ⟨posRoot, hget, eq_of_beq hverify, ?_⟩
  intro i hi
  have hlt : i < (rec.leavesAt t).length := (length_leavesAt ht).symm ▸ hi
  have hsome : (rec.leavesAt t)[i]? = some (rec.leavesAt t)[i] := List.getElem?_eq_getElem hlt
  refine ⟨(rec.leavesAt t)[i], hsome, ?_, hleaf i _ hsome⟩
  intro hunwritten
  have hmem : (rec.leavesAt t)[i] ∈ rec.leaves :=
    List.mem_of_mem_drop (List.mem_of_mem_take (List.getElem_mem hlt))
  rw [hunwritten] at hmem
  exact written_of_newChain hnew hmem

/-- `oneProduct` as the only product of a chain of one layer. -/
def oneLink : TierManifest (byteHash 1) :=
  { oneProduct with chain := some ⟨1, 0, 0, false, 0, 0, 0, 0⟩ }

theorem exists_record_oneLink : ∃ rec,
    newChain oneLink 1 [1, 1, 1] (List.replicate 15 ones) [7, 8, 9] = some rec ∧ rec.nPos = 3 ∧
      rec.nLeaves = 5 := by
  have hfilled : filled (h := byteHash 1) oneLink.nLeaves 3
      (fun t pos => fillRouters oneLink ⟨1, 0, 0, false, 0, 0, 0, 0⟩ (t + 1 < (1 : UInt32).toNat)
        (fillTrimmed oneLink ⟨1, 0, 0, false, 0, 0, 0, 0⟩ (t + 1 < (1 : UInt32).toNat)
          (fillProducts oneLink (t + 1 < (1 : UInt32).toNat) pos)))
      (fun t => chainMeta (UInt32.ofNat t) ([1, 1, 1].getD t 0) ([7, 8, 9].getD t 0))
      (List.replicate 15 ones) = List.replicate 15 ones := by
    simp only [filled, blake3_byteHash]
    rfl
  obtain ⟨rec, hrec⟩ := @exists_ofLeaves (byteHash 1) (List.replicate 15 ones)
    oneLink.nLeaves 2 1 [1, 1, 1] (some ones) (by decide) (by decide) (by decide) (by decide)
    (by decide) (by decide) (by decide)
  obtain ⟨-, hubatch, hnLeaves, -⟩ := ofLeaves_eq_some hrec
  refine ⟨rec, ?_, ?_, hnLeaves⟩
  · rw [newChain]
    change (if _ then none else _) = _
    rw [if_neg (by decide)]
    simp only [List.length_cons, List.length_nil] at *
    rw [hfilled, blake3_byteHash]
    exact hrec
  · rw [← UInt32.toNat_inj, ← rec.length_ubatch, hubatch]
    rfl

/-- Three positions, the one asked for folded through both levels of their tree. -/
theorem newChain_opens_oneLink : ∃ rec,
    newChain oneLink 1 [1, 1, 1] (List.replicate 15 ones) [7, 8, 9] = some rec ∧
      ∃ posRoot, rec.posRoots[1]? = some posRoot ∧
        b3Fold (byteHash 1).toMerges 3 1 posRoot (rec.posPath 1) = some rec.traceRoot ∧
        ∃ leaf, (rec.leavesAt 1)[4]? = some leaf ∧ leaf ≠ unwritten ∧
          b3Fold (byteHash 1).toMerges 5 4 leaf (b3Path (byteHash 1).toMerges (rec.leavesAt 1) 4) =
            some posRoot := by
  obtain ⟨rec, hrec, hpos, hleaves⟩ := exists_record_oneLink
  refine ⟨rec, hrec, ?_⟩
  obtain ⟨posRoot, hget, hfold, hleaf⟩ := newChain_opens oneLink 1 [1, 1, 1]
    (List.replicate 15 ones) [7, 8, 9] rec hrec 1 (by rw [hpos]; decide)
  have hleaf' := hleaf 4 (by rw [hleaves]; decide)
  rw [hleaves] at hleaf'
  rw [hpos] at hfold
  exact ⟨posRoot, hget, hfold, hleaf'⟩

end TraceRecord

end KeryxMiner.Replay
