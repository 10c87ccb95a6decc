import KeryxMiner.Inference.Merkle
import KeryxMiner.Openings.Basic
import KeryxMiner.Pom.Proofs

/-!
# Range proofs of the miner

The range proof that the miner makes of chunks of the resident model. It takes the siblings from the
paths of the two ends, which the sparse index reads or recomputes; they are the siblings that the
verifier's loop consumes.
-/

namespace KeryxMiner.Inference

open RangeTree Merkle
open Openings (ChunkRange)

/-- The node of a level of the path, where it is needed. -/
def siblingIf (needed : Prop) [Decidable needed] (path : List Hash) (level : Nat) :
    Option (List Hash) :=
  if needed then path[level]?.map ([·]) else some []

/-- The siblings on the levels from `level` on, of which the path of the first leaf has those in
front and the path of the last leaf those behind. -/
def rangeProofLoop (pathFirst pathLast : List Hash) (lo hi n level : Nat) : Option (List Hash) :=
  if n ≤ 1 then some []
  else do
    let front ← siblingIf (lo % 2 = 1) pathFirst level
    let back ← siblingIf (hi % 2 = 0 ∧ hi + 1 < n) pathLast level
    let above ← rangeProofLoop pathFirst pathLast (lo / 2) (hi / 2) ((n + 1) / 2) (level + 1)
    some (front ++ back ++ above)
termination_by n

/-- Chunks `first` to `last` of the resident model with their range proof. -/
def rangeProof (blake : List UInt8 → Hash) (index : Pom.WeightIndex) (first last : Nat) :
    Option ChunkRange :=
  if last < first || index.nChunks ≤ last then none
  else do
    let chunks := (List.range (last - first + 1)).flatMap fun i =>
      (index.readChunkBytes (first + i)).toList
    let pathFirst := index.merklePath blake first
    let pathLast := if last = first then pathFirst else index.merklePath blake last
    let proof ← rangeProofLoop pathFirst pathLast first last index.nChunks 0
    some { firstChunk := UInt64.ofNat first, chunks, proof }

section

variable {blake : List UInt8 → Hash} {l : List Hash} {lo hi level : Nat}

theorem rt_parents {top : Bool} : (rtShape blake).parents top l =
    nextLevel (Pom.hashPair blake) l := by
  induction l using nextLevel.induct with
  | case1 => rfl
  | case2 x => rfl
  | case3 x y l ih => rw [Shape.parents, nextLevel, ih]; rfl

theorem rt_root (hne : l ≠ []) : (rtShape blake).root l = some (Pom.merkleRoot blake l) := by
  suffices h : (rtShape blake).root l =
      (Merkle.level (Pom.hashPair blake) l (depth l.length)).head? by
    rw [h, Pom.level_depth hne]
    rfl
  induction l using Shape.root.induct (rtShape blake) with
  | case1 l hone => rw [Shape.root, if_pos hone, depth_of_le_one hone, level_zero]
  | case2 l hmany ih =>
    have hup : (rtShape blake).above l ≠ [] := by
      rw [← List.length_pos_iff, Shape.above, Shape.length_parents]
      omega
    rw [Shape.root, if_neg hmany, ih hup, Shape.above, rt_parents, length_nextLevel,
      @depth_of_two_le l.length (by omega), level_succ]

/-- The paths of the two ends have the siblings that the range needs. -/
theorem rangeProofLoop_eq {pathFirst pathLast : List Hash} (hlo : lo ≤ hi) (hhi : hi < l.length)
    (hfirst : pathFirst.drop level = path (Pom.hashPair blake) l lo (depth l.length))
    (hlast : pathLast.drop level = path (Pom.hashPair blake) l hi (depth l.length)) :
    rangeProofLoop pathFirst pathLast lo hi l.length level =
      some ((rtShape blake).rangeProof l lo hi) := by
  induction l, lo, hi using Shape.rangeProof.induct (rtShape blake) generalizing level with
  | case1 l lo hi hone => rw [rangeProofLoop, Shape.rangeProof, if_pos hone, if_pos hone]
  | case2 l lo hi hmany ih =>
    rw [depth_of_two_le (by omega)] at hfirst hlast
    obtain ⟨s, hs, hpath⟩ := path_succ (Pom.hashPair blake) (depth ((l.length + 1) / 2))
      (show lo < l.length by omega)
    obtain ⟨s', hs', hpath'⟩ := path_succ (Pom.hashPair blake) (depth ((l.length + 1) / 2)) hhi
    rw [hpath] at hfirst
    rw [hpath'] at hlast
    have hnext : (nextLevel (Pom.hashPair blake) l).length = (l.length + 1) / 2 := length_nextLevel
    have hdrop : ∀ {p : List Hash} {x : Hash} {rest : List Hash}, p.drop level = x :: rest →
        p[level]? = some x ∧ p.drop (level + 1) = rest := by
      intro p x rest h
      rw [← List.head?_drop, ← List.tail_drop, h]
      exact ⟨rfl, rfl⟩
    obtain ⟨hget, hrest⟩ := hdrop hfirst
    obtain ⟨hget', hrest'⟩ := hdrop hlast
    have habove := @ih (level + 1) (by omega)
      (by rw [Shape.above, Shape.length_parents]; omega)
      (by rw [Shape.above, rt_parents, hnext]; exact hrest)
      (by rw [Shape.above, rt_parents, hnext]; exact hrest')
    rw [Shape.above, Shape.length_parents] at habove
    have hfront : siblingIf (lo % 2 = 1) pathFirst level =
        some (if lo % 2 = 1 then l[lo - 1]?.toList else []) := by
      rw [siblingIf]
      split
      · next hodd =>
        rw [sibling, if_neg (by omega)] at hs
        rw [hget, hs]
        rfl
      · rfl
    have hback : siblingIf (hi % 2 = 0 ∧ hi + 1 < l.length) pathLast level =
        some (if hi % 2 = 0 ∧ hi + 1 < l.length then l[hi + 1]?.toList else []) := by
      rw [siblingIf]
      split
      · next heven =>
        rw [sibling, if_pos heven.1, List.getElem?_eq_getElem heven.2] at hs'
        rw [hget', List.getElem?_eq_getElem heven.2]
        exact congrArg _ (congrArg _ (Option.some.inj hs').symm)
      · rfl
    rw [rangeProofLoop, Shape.rangeProof, if_neg hmany, if_neg hmany, hfront, hback, habove]
    rfl

/-- The bytes of some chunks are cut into the chunks. -/
theorem chunksOf_flatMap (f : Nat → Hash) (m : Nat) :
    Pom.chunksOf ((List.range m).flatMap fun i => (f i).toList) = (List.range m).map f := by
  have hlen : ((List.range m).flatMap fun i => (f i).toList).length = m * 32 :=
    length_flatMap_range fun _ _ => Vector.length_toList
  rw [Pom.chunksOf, hlen, Nat.mul_div_cancel m (by decide)]
  apply List.map_congr_left
  intro c hc
  have hblock := @block_flatMap _ (fun i => (f i).toList) c m 32
    (fun _ _ => Vector.length_toList) (List.mem_range.mp hc)
  ext i hi
  rw [Vector.getElem_ofFn, List.getD_eq_getElem?_getD]
  have hget := congrArg (fun l => l[i]?) hblock
  rw [block, List.getElem?_take_of_lt hi, List.getElem?_drop] at hget
  rw [hget]
  simp [hi]

/-- The range proof of the miner is the verifier's, and it is accepted under the root of the index
from 33 chunks on. -/
theorem rangeProof_accepted {index : Pom.WeightIndex} {first last : Nat}
    (hb : index.Built blake) (hn : 32 < index.nChunks) (hsize : index.nChunks < 2 ^ 64)
    (hle : first ≤ last) (hlast : last < index.nChunks) :
    ∃ r, rangeProof blake index first last = some r ∧ r.firstChunk.toNat = first ∧
      r.chunks.length = (last - first + 1) * 32 ∧
      r.proof = (rtRangeProof blake (index.chunks.map (Pom.leafHash blake)) first
        (last - first + 1)).2 ∧
      rtVerifyRange blake index.rT index.nChunks first
        ((Pom.chunksOf r.chunks).map (Pom.leafHash blake)) r.proof = true := by
  have hleaves : index.leaves blake = index.chunks.map (Pom.leafHash blake) := rfl
  have hlen : (index.leaves blake).length = index.nChunks := hb.nChunks.symm
  have hfirst := Pom.WeightIndex.merklePath_eq hb (show first < index.nChunks by omega)
  have hlast' := Pom.WeightIndex.merklePath_eq hb hlast
  have hloop := @rangeProofLoop_eq blake (index.leaves blake) first last 0
    (index.merklePath blake first) (index.merklePath blake last) hle (by omega) hfirst hlast'
  have hproof : rangeProof blake index first last = some
      { firstChunk := UInt64.ofNat first
        chunks := (List.range (last - first + 1)).flatMap fun i =>
          (index.readChunkBytes (first + i)).toList
        proof := (rtShape blake).rangeProof (index.leaves blake) first last } := by
    have hpath : (if last = first then index.merklePath blake first
        else index.merklePath blake last) = index.merklePath blake last := by
      split
      · next heq => rw [heq]
      · rfl
    rw [rangeProof, if_neg (by simp; omega)]
    dsimp only
    rw [hpath, ← hlen, hloop]
    rfl
  have hrt : (rtRangeProof blake (index.leaves blake) first (last - first + 1)).2 =
      (rtShape blake).rangeProof (index.leaves blake) first last := by
    rw [rtRangeProof, show first + (last - first + 1) - 1 = last by omega]
  refine ⟨_, hproof, UInt64.toNat_ofNat_of_lt (show first < 2 ^ 64 by omega), ?_,
    hrt.symm, ?_⟩
  · exact length_flatMap_range fun _ _ => Vector.length_toList
  have hroot : (rtRangeProof blake (index.leaves blake) first (last - first + 1)).1 =
      some index.rT := by
    rw [Pom.WeightIndex.rT_eq_of_lt hb hn]
    exact rt_root hb.ne_nil
  have hchunks : (Pom.chunksOf ((List.range (last - first + 1)).flatMap fun i =>
      (index.readChunkBytes (first + i)).toList)).map (Pom.leafHash blake) =
      ((index.leaves blake).drop first).take (last - first + 1) := by
    rw [chunksOf_flatMap fun i => index.readChunkBytes (first + i), List.map_map]
    apply List.ext_getElem?
    intro i
    rw [List.getElem?_map, List.getElem?_take, List.getElem?_drop]
    split
    · next hi =>
      rw [List.getElem?_range hi, Pom.WeightIndex.leaf_eq (by omega)]
      rfl
    · next hi => rw [List.getElem?_eq_none (by rw [List.length_range]; omega)]; rfl
  dsimp only
  rw [hchunks, ← hlen, ← hrt]
  exact rtVerifyRange_rtRangeProof (by omega) (by omega) (by omega) hroot

/-- The range proof of the miner is the verifier's, and it is accepted under the root of the
index. -/
theorem range_proofs_match (blake : List UInt8 → Hash) (tensors : List (List UInt8))
    (index : Pom.WeightIndex) (first last : Nat) (h : Pom.WeightIndex.build blake tensors = some index)
    (hn : 32 < index.nChunks) (hsize : index.nChunks < 2 ^ 64) (hle : first ≤ last)
    (hlast : last < index.nChunks) :
    ∃ r, rangeProof blake index first last = some r ∧ r.firstChunk.toNat = first ∧
      r.proof = (rtRangeProof blake (index.chunks.map (Pom.leafHash blake)) first
        (last - first + 1)).2 ∧
      rtVerifyRange blake index.rT index.nChunks first
        ((Pom.chunksOf r.chunks).map (Pom.leafHash blake)) r.proof = true := by
  obtain ⟨r, hr, hfirst, -, hproof, hverify⟩ :=
    rangeProof_accepted (Pom.WeightIndex.build_built h) hn hsize hle hlast
  exact ⟨r, hr, hfirst, hproof, hverify⟩

theorem range_proofs_match_tensor :
    let index := Pom.WeightIndex.indexOf Pom.WeightIndex.lengthHash (Pom.chunksOf Pom.zeroTensor)
    ∃ r, rangeProof Pom.WeightIndex.lengthHash index 1 4 = some r ∧ r.firstChunk.toNat = 1 ∧
      r.proof = (rtRangeProof Pom.WeightIndex.lengthHash
        (index.chunks.map (Pom.leafHash Pom.WeightIndex.lengthHash)) 1 4).2 ∧
      rtVerifyRange Pom.WeightIndex.lengthHash index.rT index.nChunks 1
        ((Pom.chunksOf r.chunks).map (Pom.leafHash Pom.WeightIndex.lengthHash)) r.proof = true := by
  intro index
  have hn : index.nChunks = 33 := Pom.nChunks_zeroTensor _
  exact range_proofs_match _ _ index 1 4 (Pom.build_zeroTensor _) (by omega) (by omega) (by decide)
    (by omega)

end

end KeryxMiner.Inference
