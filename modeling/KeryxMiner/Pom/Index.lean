import KeryxMiner.Pom.Basic

/-!
# The index and the dense tree

The index against the tree over all leaves. Every stored level is the level of the tree
(`build_built`), so `merklePath` finds the siblings of the tree on every level, whether it reads
or recomputes them (`sibling_level`), and is the path which `merkleProof` computes. The root is
read from the last stored level; below 33 chunks the file has only a node of level six, above the
root of the tree.
-/

namespace KeryxMiner.Pom

open Merkle

variable {blake : List UInt8 → Bytes32}

section

variable {leaves l : List Bytes32}

/-! ## The dense tree -/

theorem depth_le (n : Nat) : depth n ≤ n := Nat.clog_le_of_le_pow Nat.lt_two_pow_self.le

/-- The loop shrinks the leaves to the root. -/
theorem merkleRootLoop_eq {fuel : Nat} (h : depth l.length ≤ fuel) :
    merkleRootLoop blake fuel l = level (hashPair blake) l (depth l.length) := by
  induction fuel generalizing l with
  | zero => rw [Nat.le_zero.mp h, merkleRootLoop, level_zero]
  | succ fuel ih =>
    rw [merkleRootLoop]
    split
    · next hl =>
      rw [depth_of_two_le hl] at h ⊢
      rw [level_succ, ih (by rw [length_nextLevel]; omega), length_nextLevel]
    · next hl => rw [depth_of_le_one (by omega), level_zero]

theorem level_depth (h : leaves ≠ []) :
    level (hashPair blake) leaves (depth leaves.length) = [merkleRoot blake leaves] := by
  obtain ⟨root, hroot⟩ := List.length_eq_one_iff.mp (length_level_depth (hashPair blake) h)
  rw [merkleRoot, merkleRootLoop_eq (depth_le _), hroot]
  rfl

theorem xor_one (i : Nat) : i ^^^ 1 = if i % 2 = 0 then i + 1 else i - 1 := by
  have hdiv : (i ^^^ 1) / 2 = i / 2 := by simp [Nat.xor_div_two]
  have hmod := @Nat.xor_mod_two_eq_one i 1
  split <;> omega

/-- A node off the end of its level is its own sibling. -/
theorem sibling_eq {i : Nat} (hi : i < l.length) :
    sibling l i = l[if i ^^^ 1 < l.length then i ^^^ 1 else i]? := by
  rw [sibling, xor_one]
  by_cases heven : i % 2 = 0
  · rw [if_pos heven, if_pos heven]
    split
    · next hnext => simp [hnext]
    · next hnext => simp [List.getElem?_eq_none (Nat.not_lt.mp hnext)]
  · rw [if_neg heven, if_neg heven, if_pos (by omega)]

/-- The loop collects the siblings on the way up. -/
theorem merkleProofLoop_eq {fuel i : Nat} (h : depth l.length ≤ fuel) (hi : i < l.length) :
    merkleProofLoop blake fuel l i = path (hashPair blake) l i (depth l.length) := by
  induction fuel generalizing l i with
  | zero => rw [Nat.le_zero.mp h, merkleProofLoop]; rfl
  | succ fuel ih =>
    rw [merkleProofLoop]
    split
    · next hl =>
      rw [depth_of_two_le hl] at h ⊢
      obtain ⟨s, hs, hpath⟩ := path_succ (hashPair blake) (depth ((l.length + 1) / 2)) hi
      have hsib : (if (if i % 2 = 0 then i + 1 else i - 1) < l.length
          then l.getD (if i % 2 = 0 then i + 1 else i - 1) default else l.getD i default) = s := by
        rw [sibling_eq hi, xor_one] at hs
        generalize (if i % 2 = 0 then i + 1 else i - 1) = sibIdx at hs ⊢
        split <;> simp_all
      have hnext : (nextLevel (hashPair blake) l).length = (l.length + 1) / 2 := length_nextLevel
      rw [hpath, ih (by rw [hnext]; omega) (by omega), hnext]
      simp only [hsib]
    · next hl => rw [depth_of_le_one (by omega)]; rfl

theorem merkleProof_eq {i : Nat} (hi : i < leaves.length) :
    merkleProof blake leaves i = path (hashPair blake) leaves i (depth leaves.length) :=
  merkleProofLoop_eq (depth_le _) hi

theorem verifyMerkleLoop_eq {leaf : Bytes32} {i : Nat} {p : List Bytes32} :
    verifyMerkleLoop blake leaf i p = climb (hashPair blake) leaf i p := by
  induction p generalizing leaf i with
  | nil => rfl
  | cons s p ih => rw [verifyMerkleLoop, climb, ih, up]

/-- The path of the tree is accepted with the root of the tree. -/
theorem verifyMerkle_path {i : Nat} {leaf : Bytes32} (h : leaves[i]? = some leaf) :
    verifyMerkle blake leaf i (path (hashPair blake) leaves i (depth leaves.length))
      (merkleRoot blake leaves) = true := by
  have hi : i < leaves.length := (List.getElem?_eq_some_iff.mp h).1
  have hne : leaves ≠ [] := List.ne_nil_of_length_pos (Nat.zero_lt_of_lt hi)
  have hzero : i / 2 ^ depth leaves.length = 0 :=
    Nat.div_eq_of_lt (hi.trans_le (Nat.le_pow_clog (by decide) _))
  have hclimb := climb_path (hashPair blake) (depth leaves.length) h
  rw [level_depth hne, hzero] at hclimb
  rw [verifyMerkle, verifyMerkleLoop_eq, decide_eq_true_iff]
  exact (Option.some.inj hclimb).symm

/-! ## Batches -/

/-- Up to `2 ^ rounds` nodes are folded to the node above them. -/
theorem foldLevels_eq (blake : List UInt8 → Bytes32) (l : List Bytes32) {rounds : Nat}
    (h : l ≠ []) (hle : l.length ≤ 2 ^ rounds) :
    level (hashPair blake) l rounds = [foldLevels blake l rounds] := by
  obtain ⟨x, hx⟩ := List.length_eq_one_iff.mp (length_level_of_le (hashPair blake) h hle)
  rw [hx, foldLevels, show (nextLevel (hashPair blake))^[rounds] l = [x] from hx]
  rfl

/-- A lone node carried up by one level. -/
def carry (blake : List UInt8 → Bytes32) (node : Bytes32) : Bytes32 := hashPair blake node node

theorem level_singleton (x : Bytes32) (k : Nat) :
    level (hashPair blake) [x] k = [(carry blake)^[k] x] := by
  induction k generalizing x with
  | zero => rfl
  | succ k ih => exact ih _

/-- The batches of leaves make the sixth level. -/
theorem levelK_eq : levelK blake leaves = level (hashPair blake) leaves checkpointInterval := by
  -- over the leaves to come, from any file and any batch which is not full
  have key (file batch : List Bytes32) (hbatch : batch.length < 2 ^ checkpointInterval) :
      (let s := leaves.foldl (pushLeaf blake) (file, batch)
        if s.2.isEmpty then s.1 else s.1 ++ [foldLevels blake s.2 checkpointInterval]) =
      file ++ level (hashPair blake) (batch ++ leaves) checkpointInterval := by
    induction leaves generalizing file batch with
    | nil =>
      rw [List.foldl_nil, List.append_nil]
      rcases batch.eq_nil_or_concat with rfl | ⟨rest, leaf, rfl⟩
      · simp [level_nil]
      · rw [foldLevels_eq blake _ (by simp) hbatch.le]
        simp
    | cons leaf leaves ih =>
      have hbatches : batch ++ leaf :: leaves = batch ++ [leaf] ++ leaves := by simp
      by_cases hfull : (batch ++ [leaf]).length = 2 ^ checkpointInterval
      · have hpush : pushLeaf blake (file, batch) leaf =
            (file ++ [foldLevels blake (batch ++ [leaf]) checkpointInterval], []) := if_pos hfull
        have hfold := foldLevels_eq blake (batch ++ [leaf]) (by simp) hfull.le
        rw [List.foldl_cons, hpush, ih _ [] (by decide), List.nil_append, hbatches,
          level_append (hfull.symm ▸ Nat.dvd_refl _), hfold, List.append_assoc]
      · have hpush : pushLeaf blake (file, batch) leaf = (file, batch ++ [leaf]) := if_neg hfull
        rw [List.foldl_cons, hpush, hbatches]
        apply ih
        rw [List.length_append, List.length_singleton] at hfull ⊢
        omega
  exact key [] [] (by decide)

/-! ## The stored levels -/

/-- Whether a level of the tree over `n` leaves is in the file. -/
def isStored (n k : Nat) : Bool := (0 < k ∧ k % checkpointInterval = 0) ∨ k = depth n

section

variable (blake leaves)

/-- The nodes of the stored levels below level `k`. -/
def nodesBelow (k : Nat) : List Bytes32 :=
  ((List.range k).filter (isStored leaves.length)).flatMap (level (hashPair blake) leaves)

/-- A stored level, behind all lower ones. -/
def storedAt (k : Nat) : StoredLevel :=
  ⟨k, 32 * (nodesBelow blake leaves k).length, (level (hashPair blake) leaves k).length⟩

end

theorem nodesBelow_succ {k : Nat} : nodesBelow blake leaves (k + 1) = nodesBelow blake leaves k ++
    if isStored leaves.length k then level (hashPair blake) leaves k else [] := by
  rw [nodesBelow, List.range_succ, List.filter_append, List.flatMap_append, List.filter_cons]
  split <;> simp [nodesBelow]

theorem nodesBelow_below {j k : Nat} (h : j ≤ k) :
    nodesBelow blake leaves j <+: nodesBelow blake leaves k := by
  induction h with
  | refl => exact List.prefix_rfl
  | step _ ih => exact ih.trans (nodesBelow_succ ▸ List.prefix_append ..)

/-- A node of a stored level is at its place in every file that has the level. -/
theorem readNode_storedAt {j k i : Nat} {file : List Bytes32} (hj : isStored leaves.length j)
    (hjk : j < k) (hfile : nodesBelow blake leaves k <+: file)
    (hi : i < (level (hashPair blake) leaves j).length) :
    (level (hashPair blake) leaves j)[i]? =
      some (readNode file ((storedAt blake leaves j).offset + i * 32)) := by
  obtain ⟨rest, hrest⟩ := (nodesBelow_below hjk).trans hfile
  have hpos : (32 * (nodesBelow blake leaves j).length + i * 32) / 32 =
      (nodesBelow blake leaves j).length + i := by omega
  rw [nodesBelow_succ, if_pos hj, List.append_assoc] at hrest
  rw [readNode, storedAt, hpos, ← hrest, List.getD_eq_getElem?_getD,
    List.getElem?_append_right (Nat.le_add_right ..), Nat.add_sub_cancel_left,
    List.getElem?_append_left hi, List.getElem?_eq_getElem hi, Option.getD_some]

/-- Only the root is alone on its level. -/
theorem length_level_eq_one_iff (blake : List UInt8 → Bytes32) {k : Nat} (h : leaves ≠ []) (hk : k ≤ depth leaves.length) :
    (level (hashPair blake) leaves k).length = 1 ↔ k = depth leaves.length := by
  constructor
  · intro hone
    by_contra hne
    have := one_lt_length_level (hashPair blake) (Nat.lt_of_le_of_ne hk hne)
    omega
  · rintro rfl
    exact length_level_depth _ h

/-- From a level on, the loop stores the levels up to the root. -/
theorem checkpointLoop_eq {fuel k : Nat} (h : leaves ≠ []) (hk : k ≤ depth leaves.length)
    (hfuel : depth leaves.length - k < fuel) :
    checkpointLoop fuel (level (hashPair blake) leaves k).length
        (32 * (nodesBelow blake leaves k).length) k =
      (((List.range' k (depth leaves.length + 1 - k)).filter (isStored leaves.length)).map
        (storedAt blake leaves), depth leaves.length + 1) := by
  induction fuel generalizing k with
  | zero => omega
  | succ fuel ih =>
    have hroot := length_level_eq_one_iff blake h hk
    have hstored : ((0 < k ∧ k % checkpointInterval = 0) ∨ k = depth leaves.length) ↔
        isStored leaves.length k := by
      rw [isStored, decide_eq_true_iff]
    have hrange : List.range' k (depth leaves.length + 1 - k) =
        k :: List.range' (k + 1) (depth leaves.length + 1 - (k + 1)) := by
      rw [← List.range'_succ]
      congr 1
      omega
    have hnext : ((level (hashPair blake) leaves k).length + 1) / 2 =
        (level (hashPair blake) leaves (k + 1)).length := by
      rw [level_succ', length_nextLevel]
    simp only [checkpointLoop, hroot, hstored, hnext, hrange, List.filter_cons]
    by_cases hlast : k = depth leaves.length
    · have hk : isStored leaves.length k := decide_eq_true (.inr hlast)
      rw [if_pos hlast, if_pos hk, if_pos hk, hlast, Nat.sub_self]
      rfl
    · have hoff : (if isStored leaves.length k then 32 * (nodesBelow blake leaves k).length +
          (level (hashPair blake) leaves k).length * 32 else 32 * (nodesBelow blake leaves k).length)
          = 32 * (nodesBelow blake leaves (k + 1)).length := by
        rw [nodesBelow_succ]
        split
        · rw [List.length_append]
          omega
        · rw [List.append_nil]
      rw [if_neg hlast, hoff, ih (by omega) (by omega)]
      split <;> rfl

/-- The stored levels are those of the tree. -/
theorem computeCheckpointOffsets_eq (blake : List UInt8 → Bytes32) (h : leaves ≠ []) :
    computeCheckpointOffsets leaves.length =
      (((List.range (depth leaves.length + 1)).filter (isStored leaves.length)).map
        (storedAt blake leaves), depth leaves.length + 1) := by
  have hpos := List.length_pos_iff.mpr h
  have hlt : depth leaves.length ≤ leaves.length - 1 := by
    apply Nat.clog_le_of_le_pow
    have := @Nat.lt_two_pow_self (leaves.length - 1)
    omega
  rw [List.range_eq_range']
  exact checkpointLoop_eq h (Nat.zero_le _) (by omega)

/-! ## The file -/

/-- Nodes read one after the other. -/
theorem map_range'_eq {read : Nat → Bytes32} {start n : Nat}
    (hread : ∀ i < l.length, l[i]? = some (read i)) (hn : start + n ≤ l.length) :
    (List.range' start n).map read = (l.drop start).take n := by
  apply List.ext_getElem?
  intro i
  rw [List.getElem?_map, List.getElem?_take, List.getElem?_drop]
  split
  · next hi => rw [hread _ (by omega), List.getElem?_range' hi, Nat.one_mul]; rfl
  · next hi => rw [List.getElem?_eq_none (by rw [List.length_range']; omega)]; rfl

theorem foldBatches_eq {nodes file : List Bytes32} {prev : StoredLevel} {rounds fuel readIdx : Nat}
    (hcount : prev.count = nodes.length)
    (hread : ∀ i < nodes.length, nodes[i]? = some (readNode file (prev.offset + i * 32)))
    (hfuel : nodes.length - readIdx ≤ fuel) :
    foldBatches blake file prev rounds fuel readIdx =
      level (hashPair blake) (nodes.drop readIdx) rounds := by
  induction fuel generalizing readIdx with
  | zero =>
    rw [List.drop_eq_nil_of_le (by omega), level_nil]
    rfl
  | succ fuel ih =>
    rw [foldBatches, hcount]
    split
    · next hlt =>
      have hpow := Nat.two_pow_pos rounds
      have htake : (nodes.drop readIdx).take (2 ^ rounds) =
          (nodes.drop readIdx).take (min (2 ^ rounds) (nodes.length - readIdx)) := by
        rw [← List.length_drop, ← List.take_take, List.take_length]
      have hdrop : (nodes.drop readIdx).drop (2 ^ rounds) =
          nodes.drop (readIdx + min (2 ^ rounds) (nodes.length - readIdx)) := by
        rw [List.drop_drop]
        rcases Nat.le_total (2 ^ rounds) (nodes.length - readIdx) with hle | hle
        · rw [Nat.min_eq_left hle]
        · rw [Nat.min_eq_right hle, List.drop_eq_nil_of_le (by omega),
            List.drop_eq_nil_of_le (by omega)]
      have hbatch : ((List.range (min (2 ^ rounds) (nodes.length - readIdx))).map fun i =>
          readNode file (prev.offset + (readIdx + i) * 32)) =
          (nodes.drop readIdx).take (2 ^ rounds) := by
        rw [htake, ← map_range'_eq hread (by omega), List.range'_eq_map_range, List.map_map]
        rfl
      have hne : (nodes.drop readIdx).take (2 ^ rounds) ≠ [] := by
        rw [Ne, List.take_eq_nil_iff, List.drop_eq_nil_iff]
        omega
      simp only [hbatch]
      rw [level_take_drop, hdrop, foldLevels_eq blake _ hne (List.length_take_le ..), ih (by omega)]
      rfl
    · next hge => rw [List.drop_eq_nil_of_le (by omega), level_nil]

/-- Above a stored level the file grows by the stored levels. -/
theorem finalizeLevels_eq {j k r : Nat} (hj : isStored leaves.length j) (hjk : j < k) :
    finalizeLevels blake (storedAt blake leaves j)
        (((List.range' k r).filter (isStored leaves.length)).map (storedAt blake leaves))
        (nodesBelow blake leaves k) = nodesBelow blake leaves (k + r) := by
  induction r generalizing j k with
  | zero => rfl
  | succ r ih =>
    rw [List.range'_succ, List.filter_cons]
    by_cases hk : isStored leaves.length k
    · have hrounds : j + ((storedAt blake leaves k).level - (storedAt blake leaves j).level) = k :=
        Nat.add_sub_of_le hjk.le
      have hparents : foldBatches blake (nodesBelow blake leaves k) (storedAt blake leaves j)
          ((storedAt blake leaves k).level - (storedAt blake leaves j).level)
          (storedAt blake leaves j).count 0 = level (hashPair blake) leaves k := by
        rw [foldBatches_eq rfl (fun i hi => readNode_storedAt hj hjk List.prefix_rfl hi) (by rfl),
          List.drop_zero, ← level_add, hrounds]
      have hfile : nodesBelow blake leaves k ++ level (hashPair blake) leaves k =
          nodesBelow blake leaves (k + 1) := by rw [nodesBelow_succ, if_pos hk]
      rw [if_pos hk, List.map_cons, finalizeLevels, hparents, hfile, ih hk k.lt_add_one,
        Nat.add_right_comm, Nat.add_assoc]
    · have hsame : nodesBelow blake leaves (k + 1) = nodesBelow blake leaves k := by
        rw [nodesBelow_succ, if_neg hk, List.append_nil]
      rw [if_neg hk, ← hsame, ih hj (by omega), Nat.add_right_comm, Nat.add_assoc]

end

/-! ## The index -/

namespace WeightIndex

def leaves (blake : List UInt8 → Bytes32) (idx : WeightIndex) : List Bytes32 :=
  idx.chunks.map (leafHash blake)

/-- What an index has of the tree over its chunks. -/
structure Built (blake : List UInt8 → Bytes32) (idx : WeightIndex) : Prop where
  ne_nil : idx.leaves blake ≠ []
  nChunks : idx.nChunks = (idx.leaves blake).length
  totalLevels : idx.totalLevels = depth (idx.leaves blake).length + 1
  /-- The root which the build reads is above the root of a tree of less than six levels. -/
  rT : level (hashPair blake) (idx.leaves blake)
    (max checkpointInterval (depth (idx.leaves blake).length)) = [idx.rT]
  count {k : Nat} (hpos : 0 < k) (hk : k % checkpointInterval = 0)
    (hlt : k < depth (idx.leaves blake).length) :
    (idx.findCheckpoint k).count = (level (hashPair blake) (idx.leaves blake) k).length
  node {k i : Nat} (hpos : 0 < k) (hk : k % checkpointInterval = 0)
    (hlt : k < depth (idx.leaves blake).length)
    (hi : i < (level (hashPair blake) (idx.leaves blake) k).length) :
    (level (hashPair blake) (idx.leaves blake) k)[i]? =
      some (readNode idx.treeFile ((idx.findCheckpoint k).offset + i * 32))

theorem isStored_of_lt {n k : Nat} (hk : isStored n k) (h6 : k < checkpointInterval) :
    k = depth n := by
  have hk' : (0 < k ∧ k % checkpointInterval = 0) ∨ k = depth n := of_decide_eq_true hk
  rw [Nat.mod_eq_of_lt h6] at hk'
  omega

/-- No level below the first checkpoint or the root is stored. -/
theorem filter_range_isStored {n k : Nat} (h6 : k ≤ checkpointInterval) (hk : k ≤ depth n) :
    (List.range k).filter (isStored n) = [] := by
  rw [List.filter_eq_nil_iff]
  intro j hj hstored
  rw [List.mem_range] at hj
  have := isStored_of_lt hstored (hj.trans_le h6)
  omega

/-- The first stored level is the sixth or, below it, the root. -/
theorem filter_isStored (n : Nat) : (List.range (depth n + 1)).filter (isStored n) =
    min checkpointInterval (depth n) ::
      (List.range' (checkpointInterval + 1) (depth n - checkpointInterval)).filter (isStored n) := by
  rcases Nat.le_total checkpointInterval (depth n) with h6 | h6
  · have hrange : List.range (depth n + 1) = List.range checkpointInterval ++
        checkpointInterval :: List.range' (checkpointInterval + 1) (depth n - checkpointInterval) := by
      have hsplit := @List.range'_append_1 0 checkpointInterval (depth n - checkpointInterval + 1)
      rw [Nat.zero_add] at hsplit
      rw [← List.range'_succ, List.range_eq_range', List.range_eq_range', hsplit]
      congr 1
      omega
    have h6' : isStored n checkpointInterval := decide_eq_true (.inl ⟨by decide, Nat.mod_self _⟩)
    rw [hrange, List.filter_append, filter_range_isStored le_rfl h6, List.nil_append,
      List.filter_cons, if_pos h6', Nat.min_eq_left h6]
  · have hroot : isStored n (depth n) := decide_eq_true (.inr rfl)
    rw [List.range_succ, List.filter_append, filter_range_isStored h6 le_rfl, List.filter_singleton,
      hroot, Nat.min_eq_right h6, Nat.sub_eq_zero_of_le h6]
    rfl

theorem findCheckpoint_eq {idx : WeightIndex} {leaves : List Bytes32} {k : Nat}
    (h : idx.checkpoints = ((List.range (depth leaves.length + 1)).filter
      (isStored leaves.length)).map (storedAt blake leaves))
    (hk : isStored leaves.length k) (hle : k ≤ depth leaves.length) :
    idx.findCheckpoint k = storedAt blake leaves k := by
  have hmem : storedAt blake leaves k ∈ idx.checkpoints := by
    rw [h]
    apply List.mem_map_of_mem
    rw [List.mem_filter, List.mem_range]
    exact ⟨by omega, hk⟩
  obtain ⟨cp, hcp⟩ : ∃ cp, idx.checkpoints.find? (·.level = k) = some cp := by
    rw [← Option.isSome_iff_exists, List.find?_isSome]
    exact ⟨_, hmem, decide_eq_true rfl⟩
  have hlevel : cp.level = k := by simpa using List.find?_some hcp
  have hcp' := List.mem_of_find?_eq_some hcp
  rw [h, List.mem_map] at hcp'
  obtain ⟨j, -, rfl⟩ := hcp'
  rw [findCheckpoint, hcp, Option.getD_some, show j = k from hlevel]

/-- The file which the build leaves for the leaves. -/
def fileOf (blake : List UInt8 → Bytes32) (leaves : List Bytes32) : List Bytes32 :=
  finalizeLevels blake (storedAt blake leaves (min checkpointInterval (depth leaves.length)))
    (((List.range' (checkpointInterval + 1) (depth leaves.length - checkpointInterval)).filter
      (isStored leaves.length)).map (storedAt blake leaves))
    (level (hashPair blake) leaves checkpointInterval)

/-- The index over the chunks. -/
def indexOf (blake : List UInt8 → Bytes32) (chunks : List Bytes32) : WeightIndex :=
  let leaves := chunks.map (leafHash blake)
  { nChunks := leaves.length
    rT := readNode (fileOf blake leaves) (storedAt blake leaves (depth leaves.length)).offset
    chunks
    treeFile := fileOf blake leaves
    checkpoints := ((List.range (depth leaves.length + 1)).filter (isStored leaves.length)).map
      (storedAt blake leaves)
    totalLevels := depth leaves.length + 1 }

theorem build_of_ne_nil {tensors : List (List UInt8)} (h : tensors.flatMap chunksOf ≠ []) :
    build blake tensors = some (indexOf blake (tensors.flatMap chunksOf)) := by
  generalize hchunks : tensors.flatMap chunksOf = chunks at h ⊢
  obtain ⟨leaves, hleaves⟩ : ∃ leaves, chunks.map (leafHash blake) = leaves := ⟨_, rfl⟩
  have hlen : chunks.length = leaves.length := by rw [← hleaves, List.length_map]
  have hn : leaves.length ≠ 0 := by rwa [← hlen, Ne, List.length_eq_zero_iff]
  have hcps : computeCheckpointOffsets leaves.length = _ :=
    computeCheckpointOffsets_eq blake (mt List.length_eq_zero_iff.mpr hn)
  have hfirst := filter_isStored leaves.length
  have hlast (first : StoredLevel) : (((List.range (depth leaves.length + 1)).filter
      (isStored leaves.length)).map (storedAt blake leaves)).getLastD first =
      storedAt blake leaves (depth leaves.length) := by
    have hroot : isStored leaves.length (depth leaves.length) := decide_eq_true (.inr rfl)
    rw [List.range_succ, List.filter_append, List.filter_singleton, hroot, List.map_append]
    exact List.getLastD_concat ..
  rw [hfirst, List.map_cons] at hlast
  rw [build, hchunks, hleaves, hlen, if_neg hn, hcps, hfirst, List.map_cons, levelK_eq, indexOf,
    hleaves, hfirst]
  dsimp only
  rw [hlast]
  rfl

theorem build_eq {tensors : List (List UInt8)} {idx : WeightIndex}
    (h : build blake tensors = some idx) :
    idx.chunks ≠ [] ∧ idx = indexOf blake idx.chunks := by
  by_cases hne : tensors.flatMap chunksOf = []
  · rw [build, hne] at h
    cases h
  · rw [build_of_ne_nil hne] at h
    cases h
    exact ⟨hne, rfl⟩

theorem nodesBelow_eq_nil {leaves : List Bytes32} {k : Nat} (h6 : k ≤ checkpointInterval)
    (hk : k ≤ depth leaves.length) : nodesBelow blake leaves k = [] := by
  rw [nodesBelow, filter_range_isStored h6 hk]
  rfl

theorem fileOf_of_le {leaves : List Bytes32} (h6 : checkpointInterval ≤ depth leaves.length) :
    fileOf blake leaves = nodesBelow blake leaves (depth leaves.length + 1) := by
  have hstored : isStored leaves.length checkpointInterval :=
    decide_eq_true (.inl ⟨by decide, Nat.mod_self _⟩)
  have hfirst : level (hashPair blake) leaves checkpointInterval =
      nodesBelow blake leaves (checkpointInterval + 1) := by
    rw [nodesBelow_succ, nodesBelow_eq_nil le_rfl h6, if_pos hstored, List.nil_append]
  rw [fileOf, Nat.min_eq_left h6, hfirst, finalizeLevels_eq hstored (Nat.lt_add_one _)]
  congr 1
  omega

theorem fileOf_of_lt {leaves : List Bytes32} (h6 : depth leaves.length < checkpointInterval) :
    fileOf blake leaves = level (hashPair blake) leaves checkpointInterval := by
  rw [fileOf, Nat.sub_eq_zero_of_le h6.le]
  rfl

/-- The node read as the root. -/
theorem level_root {leaves : List Bytes32} (h : leaves ≠ []) :
    level (hashPair blake) leaves (max checkpointInterval (depth leaves.length)) =
      [readNode (fileOf blake leaves) (storedAt blake leaves (depth leaves.length)).offset] := by
  rcases Nat.lt_or_ge (depth leaves.length) checkpointInterval with h6 | h6
  · have hle : leaves.length ≤ 2 ^ checkpointInterval :=
      (Nat.le_pow_clog (by decide) _).trans (Nat.pow_le_pow_right (by decide) h6.le)
    obtain ⟨x, hx⟩ := List.length_eq_one_iff.mp (length_level_of_le (hashPair blake) h hle)
    rw [Nat.max_eq_left h6.le, fileOf_of_lt h6, hx, storedAt, nodesBelow_eq_nil h6.le le_rfl,
      List.length_nil, readNode, Nat.mul_zero, Nat.zero_div, List.getD_cons_zero]
  · have hroot : isStored leaves.length (depth leaves.length) := decide_eq_true (.inr rfl)
    obtain ⟨x, hx⟩ := List.length_eq_one_iff.mp (length_level_depth (hashPair blake) h)
    have hnode : some x = some (readNode (nodesBelow blake leaves (depth leaves.length + 1))
        ((storedAt blake leaves (depth leaves.length)).offset + 0 * 32)) := by
      rw [← readNode_storedAt hroot (Nat.lt_add_one _) List.prefix_rfl (hx ▸ Nat.one_pos), hx]
      rfl
    simp only [Nat.zero_mul, Nat.add_zero] at hnode
    rw [Nat.max_eq_right h6, fileOf_of_le h6, hx, ← Option.some.inj hnode]

theorem build_built {tensors : List (List UInt8)} {idx : WeightIndex}
    (h : build blake tensors = some idx) : idx.Built blake := by
  obtain ⟨hchunks, hidx⟩ := build_eq h
  have hne : idx.leaves blake ≠ [] := mt List.map_eq_nil_iff.mp hchunks
  have hcp {k : Nat} (hpos : 0 < k) (hk : k % checkpointInterval = 0)
      (hlt : k < depth (idx.leaves blake).length) :
      idx.findCheckpoint k = storedAt blake (idx.leaves blake) k :=
    findCheckpoint_eq (congrArg checkpoints hidx) (decide_eq_true (.inl ⟨hpos, hk⟩)) hlt.le
  exact {
    ne_nil := hne
    nChunks := congrArg nChunks hidx
    totalLevels := congrArg totalLevels hidx
    rT := by
      rw [level_root hne]
      exact congrArg (fun idx => [WeightIndex.rT idx]) hidx.symm
    count := by
      intro k hpos hk hlt
      rw [hcp hpos hk hlt, storedAt]
    node := by
      intro k i hpos hk hlt hi
      have h6 : checkpointInterval ≤ depth (idx.leaves blake).length := by
        have := Nat.le_of_dvd hpos (Nat.dvd_of_mod_eq_zero hk)
        omega
      have hfile : idx.treeFile = nodesBelow blake (idx.leaves blake)
          (depth (idx.leaves blake).length + 1) := (congrArg treeFile hidx).trans (fileOf_of_le h6)
      rw [hcp hpos hk hlt, hfile]
      exact readNode_storedAt (decide_eq_true (.inl ⟨hpos, hk⟩)) (by omega) List.prefix_rfl hi }

/-! ## Paths -/

theorem countAtLevel_eq {idx : WeightIndex} (h : idx.Built blake) (k : Nat) :
    idx.countAtLevel k = (level (hashPair blake) (idx.leaves blake) k).length := by
  induction k with
  | zero => exact h.nChunks
  | succ k ih =>
    rw [countAtLevel] at ih ⊢
    rw [Function.iterate_succ_apply', ih, level_succ', length_nextLevel]

theorem leaf_eq {idx : WeightIndex} {i : Nat} (hi : i < (idx.leaves blake).length) :
    (idx.leaves blake)[i]? = some (leafHash blake (idx.readChunkBytes i)) := by
  have hi' : i < idx.chunks.length := by rwa [leaves, List.length_map] at hi
  rw [leaves, List.getElem?_map, readChunkBytes, List.getD_eq_getElem?_getD,
    List.getElem?_eq_getElem hi']
  rfl

/-- The nodes from which `merklePath` computes the levels which are not stored. -/
theorem source_eq {idx : WeightIndex} (h : idx.Built blake) {k i : Nat}
    (hk : k % checkpointInterval = 0) (hlt : k < depth (idx.leaves blake).length)
    (hi : i < (level (hashPair blake) (idx.leaves blake) k).length) :
    (level (hashPair blake) (idx.leaves blake) k)[i]? =
      some (if k = 0 then leafHash blake (idx.readChunkBytes i)
        else readNode idx.treeFile ((idx.findCheckpoint k).offset + i * 32)) := by
  split
  · next h0 =>
    subst h0
    exact leaf_eq hi
  · next h0 => exact h.node (Nat.pos_of_ne_zero h0) hk hlt hi

/-- Above the sources the nodes are recomputed from what is below them. -/
theorem computeSubtreeHash_eq {idx : WeightIndex} (h : idx.Built blake) {i k r : Nat}
    (hk : k % checkpointInterval = 0) (hlt : k < depth (idx.leaves blake).length)
    (hi : i * 2 ^ r < (level (hashPair blake) (idx.leaves blake) k).length) :
    (level (hashPair blake) (idx.leaves blake) (k + r))[i]? =
      some (idx.computeSubtreeHash blake (i * 2 ^ r) r k) := by
  have hread := fun j hj => source_eq (i := j) h hk hlt hj
  have hcount : (if k = 0 then idx.nChunks else (idx.findCheckpoint k).count) =
      (level (hashPair blake) (idx.leaves blake) k).length := by
    split
    · next h0 => subst h0; exact h.nChunks
    · next h0 => exact h.count (Nat.pos_of_ne_zero h0) hk hlt
  rw [level_add]
  generalize level (hashPair blake) (idx.leaves blake) k = source at hi hread hcount ⊢
  have hnodes : ((List.range' (i * 2 ^ r)
      (min (i * 2 ^ r + 2 ^ r) source.length - i * 2 ^ r)).map fun j =>
      if k = 0 then leafHash blake (idx.readChunkBytes j)
      else readNode idx.treeFile ((idx.findCheckpoint k).offset + j * 32)) = slice source i r := by
    rw [map_range'_eq hread (by omega), slice, List.take_eq_take_iff, List.length_drop]
    generalize i * 2 ^ r = start, 2 ^ r = span at hi ⊢
    omega
  have hfold := foldLevels_eq blake _ (slice_ne_nil hi) (List.length_take_le ..)
  rw [level_slice _ hi] at hfold
  simp only [computeSubtreeHash, hcount]
  rw [if_neg (Nat.not_le.mpr hi), hnodes]
  exact Option.toList_eq_singleton_iff.mp hfold

/-- The sibling on a level, stored or recomputed. -/
theorem sibling_level {idx : WeightIndex} (h : idx.Built blake) {k i : Nat}
    (hlt : k < depth (idx.leaves blake).length)
    (hi : i < (level (hashPair blake) (idx.leaves blake) k).length) :
    sibling (level (hashPair blake) (idx.leaves blake) k) i = some (idx.siblingAt blake k i) := by
  rw [sibling_eq hi]
  have hreal : (if i ^^^ 1 < (level (hashPair blake) (idx.leaves blake) k).length then i ^^^ 1
      else i) < (level (hashPair blake) (idx.leaves blake) k).length := by
    split <;> assumption
  have hroot : k ≠ idx.totalLevels - 1 := by
    rw [h.totalLevels]
    omega
  by_cases hstored : 0 < k ∧ k % checkpointInterval = 0
  · simp only [siblingAt, hroot, or_false, if_pos hstored]
    rw [h.count hstored.1 hstored.2 hlt]
    exact h.node hstored.1 hstored.2 hlt hreal
  · simp only [siblingAt, hroot, or_false, if_neg hstored]
    rw [countAtLevel_eq h]
    generalize (if i ^^^ 1 < (level (hashPair blake) (idx.leaves blake) k).length then i ^^^ 1
      else i) = j at hreal ⊢
    generalize hsrc : k / checkpointInterval * checkpointInterval = src
    have hdvd : src % checkpointInterval = 0 := hsrc ▸ Nat.mul_mod_left ..
    have hle : src ≤ k := hsrc ▸ Nat.div_mul_le_self ..
    have hk : src + (k - src) = k := Nat.add_sub_of_le hle
    have hj : j * 2 ^ (k - src) < (level (hashPair blake) (idx.leaves blake) src).length := by
      rwa [← lt_length_level_iff, ← level_add, hk]
    rw [← computeSubtreeHash_eq h hdvd (by omega) hj, hk]

/-- The path of the index is the path of the tree. -/
theorem merklePath_eq {idx : WeightIndex} (h : idx.Built blake) {off : Nat}
    (hoff : off < idx.nChunks) : idx.merklePath blake off =
      path (hashPair blake) (idx.leaves blake) off (depth (idx.leaves blake).length) := by
  rw [merklePath, path, h.totalLevels, Nat.add_sub_cancel, ← List.filterMap_eq_map]
  apply List.filterMap_congr
  intro k hk
  rw [List.mem_range] at hk
  rw [sibling_level h hk (div_lt_length_level _ k (h.nChunks ▸ hoff))]
  rfl

/-! ## Against the dense tree -/

/-- The sparse index gives the path of the dense tree, which the dense root accepts. -/
theorem merklePath_dense (blake : List UInt8 → Bytes32) (tensors : List (List UInt8))
    (idx : WeightIndex) (off : Nat) (h : build blake tensors = some idx) (hoff : off < idx.nChunks) :
    idx.merklePath blake off = merkleProof blake (idx.chunks.map (leafHash blake)) off ∧
      verifyMerkle blake (leafHash blake (idx.readChunkBytes off)) off (idx.merklePath blake off)
        (merkleRoot blake (idx.chunks.map (leafHash blake))) = true := by
  have hb := build_built h
  have hlen : off < (idx.leaves blake).length := hb.nChunks ▸ hoff
  have hpath := merklePath_eq hb hoff
  refine ⟨hpath.trans (merkleProof_eq hlen).symm, ?_⟩
  rw [hpath]
  exact verifyMerkle_path (leaf_eq hlen)

/-- A hash for examples, which tells inputs of different lengths apart. -/
def lengthHash (bytes : List UInt8) : Bytes32 := Vector.replicate 32 (UInt8.ofNat bytes.length)

/-- The last but one chunk of 72, of two tensors the first of which ends within a chunk: the sibling on
level 6 is read from the file, those below are recomputed from the chunks. -/
theorem merklePath_dense_ragged :
    let tensors : List (List UInt8) := [List.replicate 2245 0, List.replicate 64 1]
    let idx := indexOf lengthHash (tensors.flatMap chunksOf)
    build lengthHash tensors = some idx ∧ idx.nChunks = 72 ∧
      idx.merklePath lengthHash 70 =
        merkleProof lengthHash (idx.chunks.map (leafHash lengthHash)) 70 ∧
      verifyMerkle lengthHash (leafHash lengthHash (idx.readChunkBytes 70)) 70
        (idx.merklePath lengthHash 70)
        (merkleRoot lengthHash (idx.chunks.map (leafHash lengthHash))) = true := by
  intro tensors idx
  have hchunks : (tensors.flatMap chunksOf).length = 72 := by
    simp only [tensors, chunksOf, List.flatMap_cons, List.flatMap_nil, List.length_append,
      List.length_map, List.length_range, List.length_replicate, List.length_nil]
  have hn : idx.nChunks = 72 := by
    simp only [idx, indexOf, List.length_map]
    exact hchunks
  have hbuild : build lengthHash tensors = some idx := by
    refine build_of_ne_nil fun hnil => ?_
    rw [hnil] at hchunks
    cases hchunks
  exact ⟨hbuild, hn, merklePath_dense _ _ _ 70 hbuild (by rw [hn]; decide)⟩

/-- The root of the index is the root of the tree, carried up to the sixth level. -/
theorem rT_eq_carry {idx : WeightIndex} (h : idx.Built blake) :
    idx.rT = (carry blake)^[checkpointInterval - depth (idx.leaves blake).length]
      (merkleRoot blake (idx.leaves blake)) := by
  have hmax : max checkpointInterval (depth (idx.leaves blake).length) =
      depth (idx.leaves blake).length +
        (checkpointInterval - depth (idx.leaves blake).length) := by omega
  have hroot := h.rT
  rw [hmax, level_add, level_depth h.ne_nil, level_singleton] at hroot
  exact (List.singleton_inj.mp hroot).symm

/-- From 33 chunks on the tree has all of the six levels. -/
theorem lt_nChunks_iff {idx : WeightIndex} :
    32 < idx.nChunks ↔ checkpointInterval - depth idx.nChunks = 0 := by
  have hclog : 5 < depth idx.nChunks ↔ 2 ^ 5 < idx.nChunks := Nat.lt_clog_iff_pow_lt (by decide)
  rw [checkpointInterval]
  omega

theorem rT_eq_of_lt {idx : WeightIndex} (h : idx.Built blake) (hn : 32 < idx.nChunks) :
    idx.rT = merkleRoot blake (idx.leaves blake) := by
  rw [rT_eq_carry h, ← h.nChunks, lt_nChunks_iff.mp hn]
  rfl

/-- The sparse build finds the dense root exactly from 33 chunks on, unless the root of a smaller
tree is the same some levels further up. -/
theorem rT_eq_merkleRoot_iff (blake : List UInt8 → Bytes32) (tensors : List (List UInt8))
    (idx : WeightIndex) (h : build blake tensors = some idx) :
    idx.rT = merkleRoot blake (idx.chunks.map (leafHash blake)) ↔
      32 < idx.nChunks ∨ (carry blake)^[checkpointInterval - depth idx.nChunks]
        (merkleRoot blake (idx.chunks.map (leafHash blake))) =
          merkleRoot blake (idx.chunks.map (leafHash blake)) := by
  have hb := build_built h
  have hcarry := rT_eq_carry hb
  rw [← hb.nChunks] at hcarry
  constructor
  · intro heq
    rw [hcarry] at heq
    exact .inr heq
  · rintro (hn | heq)
    · exact rT_eq_of_lt hb hn
    · rw [hcarry]
      exact heq

theorem rT_eq_merkleRoot_iff_one :
    let idx := indexOf lengthHash (chunksOf (List.replicate 32 0))
    idx.rT = merkleRoot lengthHash (idx.chunks.map (leafHash lengthHash)) ↔
      32 < idx.nChunks ∨ (carry lengthHash)^[checkpointInterval - depth idx.nChunks]
        (merkleRoot lengthHash (idx.chunks.map (leafHash lengthHash))) =
          merkleRoot lengthHash (idx.chunks.map (leafHash lengthHash)) := by
  have hbuild : build lengthHash [List.replicate 32 0] = some (indexOf lengthHash
      (chunksOf (List.replicate 32 0))) := build_of_ne_nil (by decide)
  exact rT_eq_merkleRoot_iff _ _ _ hbuild

/-- The root over one chunk is not the root of the tree, which is the leaf. -/
theorem rT_ne_merkleRoot : ¬ ∀ blake tensors idx, build blake tensors = some idx →
    idx.rT = merkleRoot blake (idx.chunks.map (leafHash blake)) := by
  intro h
  have hbuild : build lengthHash [List.replicate 32 0] = some (indexOf lengthHash
      (chunksOf (List.replicate 32 0))) := build_of_ne_nil (by decide)
  have hroot := h _ _ _ hbuild
  have hcarry := rT_eq_carry (build_built hbuild)
  rw [hroot] at hcarry
  revert hcarry
  decide

end WeightIndex

end KeryxMiner.Pom
