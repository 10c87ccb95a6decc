import KeryxMiner.MerkleBinding
import KeryxMiner.Pom.Walk

/-!
# Tiles under the root

A tile of an index is a full subtree of five levels. The path which the index gives from it is
accepted when the tree has at least six levels (`verifyMerkle_tile`), and a tile that is accepted
with a path of any length is the tile of the index (`tile_of_verify`), as long as the inputs hashed
for the tree and for the opening do not collide.
-/

namespace KeryxMiner.Pom

open Merkle

variable {blake : List UInt8 → Bytes32}

theorem tileChunks_eq {tile : List UInt8} (h : tile.length = v4TileBytes) :
    tileChunks tile = (List.range 32).map (block 32 tile) := by
  rw [tileChunks, h]
  rfl

/-- A tile is its chunks, one after the other. -/
theorem flatten_tileChunks {tile : List UInt8} (h : tile.length = v4TileBytes) :
    (tileChunks tile).flatten = tile := by
  rw [tileChunks_eq h, ← List.flatMap_def]
  exact flatMap_block h

theorem length_of_mem_tileChunks {tile chunk : List UInt8} (h : tile.length = v4TileBytes)
    (hc : chunk ∈ tileChunks tile) : chunk.length = 32 := by
  rw [tileChunks_eq h, List.mem_map] at hc
  obtain ⟨i, hi, rfl⟩ := hc
  have htile : tile.length = 1024 := h
  rw [List.mem_range] at hi
  exact length_block (by omega)

/-- The root of a tile is the only node five levels above its chunks. -/
theorem level_tile {tile : List UInt8} (h : tile.length = v4TileBytes) :
    level (hashPair blake) ((tileChunks tile).map blake) v4TileSubtreeDepth =
      [v4TileSubtreeRoot blake tile] := by
  have hlen : ((tileChunks tile).map blake).length = 32 := by
    rw [List.length_map, tileChunks_eq h, List.length_map, List.length_range]
  have hdepth : depth ((tileChunks tile).map blake).length = v4TileSubtreeDepth := by
    rw [hlen]
    decide
  rw [v4TileSubtreeRoot, ← level_depth, hdepth]
  exact List.ne_nil_of_length_pos (by omega)

namespace WeightIndex

variable {idx : WeightIndex} {off : Nat}

theorem length_tile : (idx.tile off).length = v4TileBytes :=
  length_flatMap_range fun _ _ => Vector.length_toList

theorem tileChunks_tile : tileChunks (idx.tile off) =
    (List.range 32).map fun c => (idx.readChunkBytes (off * 32 + c)).toList := by
  rw [tileChunks_eq length_tile]
  apply List.map_congr_left
  intro c hc
  exact block_flatMap (fun _ _ => Vector.length_toList) (List.mem_range.mp hc)

/-- The chunks of a tile are a slice of the chunks of the index. -/
theorem tile_leaves (h : idx.Built blake) (hoff : off < idx.nChunks / v4TileChunks) :
    (tileChunks (idx.tile off)).map blake = slice (idx.leaves blake) off v4TileSubtreeDepth := by
  have hlt : off < idx.nChunks / 32 := hoff
  have hle : off * 32 + 32 ≤ (idx.leaves blake).length := by
    rw [← h.nChunks]
    omega
  have hchunks : (List.range' (off * 32) 32).map (fun i => leafHash blake (idx.readChunkBytes i)) =
      slice (idx.leaves blake) off v4TileSubtreeDepth :=
    map_range'_eq (fun i hi => leaf_eq hi) hle
  rw [← hchunks, tileChunks_tile, List.map_map, List.range'_eq_map_range, List.map_map]
  rfl

/-- The root of a tile is a node of the tree. -/
theorem tile_node (h : idx.Built blake) (hoff : off < idx.nChunks / v4TileChunks) :
    (level (hashPair blake) (idx.leaves blake) v4TileSubtreeDepth)[off]? =
      some (v4TileSubtreeRoot blake (idx.tile off)) := by
  have hlt : off * 2 ^ v4TileSubtreeDepth < (idx.leaves blake).length := by
    have hlt' : off < idx.nChunks / 32 := hoff
    have hpow : 2 ^ v4TileSubtreeDepth = 32 := rfl
    rw [← h.nChunks, hpow]
    omega
  have hnode := level_slice (hashPair blake) hlt
  rw [← tile_leaves h hoff, level_tile length_tile] at hnode
  exact Option.toList_eq_singleton_iff.mp hnode.symm

/-- From six levels on, the path of a tile is the path from its root. -/
theorem tilePath_eq (h : idx.Built blake) (hoff : off < idx.nChunks / v4TileChunks)
    (h6 : 32 < idx.nChunks) : ∃ r, v4TileSubtreeDepth + r =
        max checkpointInterval (depth (idx.leaves blake).length) ∧
      idx.tilePath blake off = path (hashPair blake)
        (level (hashPair blake) (idx.leaves blake) v4TileSubtreeDepth) off r := by
  have hdepth : checkpointInterval ≤ depth (idx.leaves blake).length := by
    have hclog : 5 < depth idx.nChunks ↔ 2 ^ 5 < idx.nChunks := Nat.lt_clog_iff_pow_lt (by decide)
    rw [← h.nChunks]
    exact hclog.mpr h6
  obtain ⟨r, hr⟩ : ∃ r, depth (idx.leaves blake).length = v4TileSubtreeDepth + r :=
    Nat.exists_eq_add_of_le ((by decide : v4TileSubtreeDepth ≤ checkpointInterval).trans hdepth)
  have hlt : off * v4TileChunks < idx.nChunks := by
    have hlt' : off < idx.nChunks / 32 := hoff
    change off * 32 < idx.nChunks
    omega
  have hoff' : off * v4TileChunks / 2 ^ v4TileSubtreeDepth = off :=
    Nat.mul_div_cancel off (by decide)
  refine ⟨r, by rw [Nat.max_eq_right hdepth, hr], ?_⟩
  rw [tilePath, merklePath_eq h hlt, hr, drop_path (h.nChunks ▸ hlt), hoff']

/-- From six levels on, the index opens its tiles. -/
theorem verifyMerkle_tile (h : idx.Built blake) (hoff : off < idx.nChunks / v4TileChunks)
    (h6 : 32 < idx.nChunks) : verifyMerkle blake (v4TileSubtreeRoot blake (idx.tile off)) off
      (idx.tilePath blake off) idx.rT = true := by
  obtain ⟨r, hr, hpath⟩ := tilePath_eq h hoff h6
  have hroot := h.rT
  rw [← hr, level_add] at hroot
  have hzero : off / 2 ^ r = 0 := by
    have hnode := div_lt_length_level (hashPair blake) r
      (List.getElem?_eq_some_iff.mp (tile_node h hoff)).1
    rw [hroot, List.length_singleton] at hnode
    exact Nat.lt_one_iff.mp hnode
  have hclimb := climb_path (hashPair blake) r (tile_node h hoff)
  rw [hroot, hzero] at hclimb
  rw [verifyMerkle, verifyMerkleLoop_eq, hpath, decide_eq_true_iff]
  exact (Option.some.inj hclimb).symm

end WeightIndex

/-! ## Openings -/

/-- The bytes which are hashed for a pair. -/
def pairBytes (a : Bytes32 × Bytes32) : List UInt8 := a.1.toList ++ a.2.toList

theorem pairBytes_inj {a b : Bytes32 × Bytes32} (h : pairBytes a = pairBytes b) : a = b := by
  have hlen : a.1.toList.length = b.1.toList.length := by
    rw [Vector.length_toList, Vector.length_toList]
  obtain ⟨h1, h2⟩ := List.append_inj h hlen
  exact Prod.ext (Vector.toList_inj.mp h1) (Vector.toList_inj.mp h2)

theorem length_pairBytes (a : Bytes32 × Bytes32) : (pairBytes a).length = 64 := by
  rw [pairBytes, List.length_append, Vector.length_toList, Vector.length_toList]

/-- The pairs hashed for the tree up to the root of the index. -/
def WeightIndex.pairs (blake : List UInt8 → Bytes32) (idx : WeightIndex) :
    List (Bytes32 × Bytes32) :=
  treeInputs (hashPair blake) (idx.leaves blake)
    (max checkpointInterval (depth (idx.leaves blake).length))

/-- The pairs hashed when a tile is verified. -/
def openingPairs (blake : List UInt8 → Bytes32) (tile : List UInt8) (off : Nat)
    (path : List Bytes32) : List (Bytes32 × Bytes32) :=
  treeInputs (hashPair blake) ((tileChunks tile).map blake) v4TileSubtreeDepth ++
    climbInputs (hashPair blake) (v4TileSubtreeRoot blake tile) off path

/-- The inputs hashed for an index. -/
def WeightIndex.hashed (blake : List UInt8 → Bytes32) (idx : WeightIndex) : List (List UInt8) :=
  idx.chunks.map (·.toList) ++ (idx.pairs blake).map pairBytes

/-- The inputs hashed when a tile is verified. -/
def openingHashed (blake : List UInt8 → Bytes32) (tile : List UInt8) (off : Nat)
    (path : List Bytes32) : List (List UInt8) :=
  tileChunks tile ++ (openingPairs blake tile off path).map pairBytes

section

variable {inputs : List (List UInt8)} {pairs : List (Bytes32 × Bytes32)}
  (hfree : CollisionFree blake inputs) (hpairs : ∀ a ∈ pairs, pairBytes a ∈ inputs)

include hfree hpairs

theorem collisionFree_pairs : CollisionFree (fun a => hashPair blake a.1 a.2) pairs := by
  intro a ha b hb heq
  exact pairBytes_inj (hfree _ (hpairs a ha) _ (hpairs b hb) heq)

/-- A chunk has 32 bytes and a pair has 64. -/
theorem hashPair_ne_leaf {chunk : List UInt8} (hc : chunk ∈ inputs) (hlen : chunk.length = 32)
    {a : Bytes32 × Bytes32} (ha : a ∈ pairs) : hashPair blake a.1 a.2 ≠ blake chunk := by
  intro heq
  have hsame : pairBytes a = chunk := hfree _ (hpairs a ha) _ hc heq
  have h64 := length_pairBytes a
  rw [hsame] at h64
  omega

end

/-- A tile which is accepted below the root of the index is the tile of the index, whatever path it
comes with. -/
theorem WeightIndex.tile_of_verify {idx : WeightIndex} {off : Nat} {tile : List UInt8}
    {path : List Bytes32} (h : idx.Built blake) (hoff : off < idx.nChunks / v4TileChunks)
    (hlen : tile.length = v4TileBytes)
    (hverify : verifyMerkle blake (v4TileSubtreeRoot blake tile) off path idx.rT = true)
    (hfree : CollisionFree blake (idx.hashed blake ++ openingHashed blake tile off path)) :
    tile = idx.tile off := by
  have hpairs : ∀ a ∈ idx.pairs blake ++ openingPairs blake tile off path,
      pairBytes a ∈ idx.hashed blake ++ openingHashed blake tile off path := by
    intro a ha
    rw [hashed, openingHashed, List.mem_append, List.mem_append, List.mem_append]
    rcases List.mem_append.mp ha with ha | ha
    · exact .inl (.inr (List.mem_map_of_mem ha))
    · exact .inr (.inr (List.mem_map_of_mem ha))
  have htile : ∀ c ∈ tileChunks tile,
      c ∈ idx.hashed blake ++ openingHashed blake tile off path := by
    intro c hc
    exact List.mem_append_right _ (List.mem_append_left _ hc)
  have hchunk : ∀ c ∈ tileChunks (idx.tile off),
      c ∈ idx.hashed blake ++ openingHashed blake tile off path := by
    intro c hc
    have hlt : off < idx.nChunks / 32 := hoff
    have hn : idx.nChunks = idx.chunks.length := h.nChunks.trans (List.length_map _)
    rw [tileChunks_tile] at hc
    obtain ⟨i, hi, rfl⟩ := List.mem_map.mp hc
    rw [List.mem_range] at hi
    apply List.mem_append_left _ (List.mem_append_left _ (List.mem_map_of_mem _))
    rw [readChunkBytes, List.getD_eq_getElem?_getD, List.getElem?_eq_getElem (by omega)]
    exact List.getElem_mem _
  have hleaf : ∀ y, y ∈ idx.leaves blake ∨ y ∈ (tileChunks tile).map blake →
      ∀ a ∈ idx.pairs blake ++ openingPairs blake tile off path, hashPair blake a.1 a.2 ≠ y := by
    rintro y (hy | hy) a ha
    · obtain ⟨c, hc, rfl⟩ := List.mem_map.mp hy
      apply hashPair_ne_leaf hfree hpairs _ Vector.length_toList ha
      exact List.mem_append_left _ (List.mem_append_left _ (List.mem_map_of_mem hc))
    · obtain ⟨c, hc, rfl⟩ := List.mem_map.mp hy
      exact hashPair_ne_leaf hfree hpairs (htile c hc) (length_of_mem_tileChunks hlen hc) ha
  have hsub : (tileChunks (idx.tile off)).map blake = (tileChunks tile).map blake := by
    rw [tile_leaves h hoff]
    have hroot : climb (hashPair blake) (v4TileSubtreeRoot blake tile) off path = idx.rT := by
      rw [← verifyMerkleLoop_eq]
      exact of_decide_eq_true hverify
    apply slice_eq_of_climb (collisionFree_pairs hfree hpairs) hleaf _ _ _ h.rT (level_tile hlen)
      _ ((by decide : v4TileSubtreeDepth ≤ checkpointInterval).trans (le_max_left ..))
      hroot
    · rw [← h.nChunks]
      have hlt : off < idx.nChunks / 32 := hoff
      change (off + 1) * 32 ≤ idx.nChunks
      omega
    · intro a ha
      exact List.mem_append_left _ ha
    · intro a ha
      exact List.mem_append_right _ (List.mem_append_left _ ha)
    · intro a ha
      exact List.mem_append_right _ (List.mem_append_right _ ha)
    · rw [List.length_map, tileChunks_eq hlen, List.length_map, List.length_range]
      rfl
  have heq : tileChunks (idx.tile off) = tileChunks tile := hfree.map_inj hchunk htile hsub
  rw [← flatten_tileChunks hlen, ← heq, flatten_tileChunks length_tile]

end KeryxMiner.Pom
