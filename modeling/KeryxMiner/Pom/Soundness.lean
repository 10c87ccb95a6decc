import KeryxMiner.Pom.Proofs

/-!
# Accepted proofs

Whatever tiles and paths a proof has, when the check accepts it against the root of an index its
tiles are those of the index at the offsets of the walk, and its state is that of the walk. blake3
is assumed to have no collision among the inputs that are hashed for the index and by the check.
-/

namespace KeryxMiner.Pom

open Merkle ReadWalk

variable {blake : List UInt8 → Bytes32} {seed fs : UInt64} {idx : WeightIndex}
  {proof : PomProofV4} {padSeed : Bytes32} {padTiles padSteps : Nat}

/-- What opening `i` of a proof says about tile `off`. -/
structure OpeningOk (blake : List UInt8 → Bytes32) (proof : PomProofV4) (rT : Bytes32)
    (i off : Nat) : Prop where
  length : (proof.tiles.getD i []).length = v4TileBytes
  verify : verifyMerkle blake (v4TileSubtreeRoot blake (proof.tiles.getD i [])) off
    (proof.merkle.getD i ⟨[]⟩).path rT = true

/-- The inputs which the check of opening `i` hashes. -/
def proofHashed (blake : List UInt8 → Bytes32) (proof : PomProofV4) (i off : Nat) :
    List (List UInt8) :=
  openingHashed blake (proof.tiles.getD i []) off (proof.merkle.getD i ⟨[]⟩).path

theorem OpeningOk.tile_eq {hashed : List (List UInt8)} {i off : Nat}
    (hok : OpeningOk blake proof idx.rT i off) (hb : idx.Built blake)
    (hoff : off < idx.nChunks / v4TileChunks)
    (hfree : CollisionFree blake (idx.hashed blake ++ hashed))
    (hsub : ∀ b ∈ proofHashed blake proof i off, b ∈ hashed) :
    proof.tiles.getD i [] = idx.tile off := by
  apply WeightIndex.tile_of_verify hb hoff hok.length hok.verify
  apply hfree.mono
  intro b hmem
  exact (List.mem_append.mp hmem).elim (List.mem_append_left _)
    (fun h => List.mem_append_right _ (hsub b h))

theorem eq_map_of_getD {tiles : List (List UInt8)} {offs : List Nat} {tile : Nat → List UInt8}
    (hlen : tiles.length = offs.length)
    (h : ∀ i off, offs[i]? = some off → tiles.getD i [] = tile off) : tiles = offs.map tile := by
  apply List.ext_getElem
  · rw [hlen, List.length_map]
  · intro i hi hi'
    have hi'' : i < offs.length := hlen ▸ hi
    have htile := h i offs[i] (List.getElem?_eq_getElem hi'')
    rwa [List.getD_eq_getElem?_getD, List.getElem?_eq_getElem hi, Option.getD_some,
      ← List.getElem_map tile (h := hi')] at htile

/-! ## The fifth walk -/

/-- What the check reads at a tile. -/
def proofReadV5 (proof : PomProofV4) (padSeed : Bytes32) (weightTiles i off : Nat) : List UInt8 :=
  if off < weightTiles then proof.tiles.getD i [] else v5PadTile padSeed (off - weightTiles)

/-- The offsets which `verify_proof_v5` draws. -/
def verifyOffsetsV5 (seed : UInt64) (proof : PomProofV4) (weightTiles : Nat) (padSeed : Bytes32)
    (padTiles padSteps : Nat) : List Nat :=
  (v5Walk seed weightTiles padTiles padSteps).draws (proofReadV5 proof padSeed weightTiles) v4K 0
    (v4InitialState seed) (v5FirstOffset seed weightTiles)

/-- The inputs which `verify_proof_v5` hashes for the tiles of a proof. -/
def verifyHashedV5 (blake : List UInt8 → Bytes32) (seed : UInt64) (proof : PomProofV4)
    (weightTiles : Nat) (padSeed : Bytes32) (padTiles padSteps : Nat) : List (List UInt8) :=
  (verifyOffsetsV5 seed proof weightTiles padSeed padTiles padSteps).zipIdx.flatMap
    fun (off, i) => if off < weightTiles then proofHashed blake proof i off else []

theorem walk_ok {σ : Type} {weightTiles : Nat} {f f' : σ}
    {fetch : σ → Nat → Nat → Except String (σ × Option (List UInt8))}
    (h : walk blake seed weightTiles padTiles padSeed fetch f = .ok (f', fs)) :
    weightTiles ≠ 0 ∧ padTiles ≠ 0 ∧ ∃ padSteps, v5PadSteps weightTiles padTiles = .ok padSteps := by
  rw [walk, check_ok, not_or] at h
  refine ⟨h.1.1, h.1.2, ?_⟩
  cases hps : v5PadSteps weightTiles padTiles with
  | ok padSteps => exact ⟨padSteps, rfl⟩
  | error e =>
    rw [hps] at h
    cases h.2

theorem map_ok {ε α β : Type} {x : Except ε α} {f : α → β} {b : β} (h : x.map f = .ok b) :
    ∃ a, x = .ok a ∧ f a = b := by
  cases x with
  | error e => cases h
  | ok a => exact ⟨a, rfl, Except.ok.inj h⟩

/-- A step of the check that goes on has read an opening or a pad tile. -/
theorem verifyFetchV5_read {rT : Bytes32} {weightTiles i off : Nat} {tile : List UInt8}
    (h : ((verifyFetchV5 blake proof rT weightTiles i off).map fun (f, t) =>
      (f, t.getD (v5PadTile padSeed (off - weightTiles)))) = .ok ((), tile)) :
    tile = proofReadV5 proof padSeed weightTiles i off ∧
      if off < weightTiles then OpeningOk blake proof rT i off else proof.tiles.getD i [] = [] := by
  obtain ⟨⟨⟨⟩, t⟩, hfetch, htile⟩ := map_ok h
  cases htile
  rw [proofReadV5]
  rcases Nat.lt_or_ge off weightTiles with hlt | hge
  · obtain ⟨hlen, hverify, rfl⟩ := (verifyFetchV5_weight hlt).mp hfetch
    rw [if_pos hlt, if_pos hlt]
    exact ⟨rfl, hlen, hverify⟩
  · obtain ⟨htile, -, rfl⟩ := (verifyFetchV5_pad hge).mp hfetch
    rw [if_neg (Nat.not_lt.mpr hge), if_neg (Nat.not_lt.mpr hge)]
    exact ⟨Option.getD_none, htile⟩

/-- What an accepted proof says about each offset that the check draws, and where the check ends. -/
theorem draws_of_verifyV5 (hps : v5PadSteps (idx.nChunks / v4TileChunks) padTiles = .ok padSteps)
    (h : verifyProofV5 blake seed proof idx.rT idx.nChunks padSeed padTiles = .ok fs) :
    fs = fold64 (v4StateRoot blake ((v5Walk seed (idx.nChunks / v4TileChunks) padTiles
        padSteps).last (proofReadV5 proof padSeed (idx.nChunks / v4TileChunks)) v4K 0
          (v4InitialState seed) (v5FirstOffset seed (idx.nChunks / v4TileChunks)))) ∧
      ∀ i off, (verifyOffsetsV5 seed proof (idx.nChunks / v4TileChunks) padSeed padTiles
          padSteps)[i]? = some off →
        if off < idx.nChunks / v4TileChunks then OpeningOk blake proof idx.rT i off
        else proof.tiles.getD i [] = [] := by
  have hwalk := (verifyProofV5_ok.mp h).2
  obtain ⟨hw, hp, -⟩ := walk_ok hwalk
  rw [walk_eq hw hp hps] at hwalk
  obtain ⟨⟨⟨⟩, state⟩, hrun, hfs⟩ := map_ok hwalk
  cases hfs
  obtain ⟨hlast, hdraws⟩ := draws_of_run (proofReadV5 proof padSeed (idx.nChunks / v4TileChunks))
    (fun i off => if off < idx.nChunks / v4TileChunks then OpeningOk blake proof idx.rT i off
      else proof.tiles.getD i [] = []) (fun _ _ _ _ _ => verifyFetchV5_read) hrun
  rw [hlast]
  refine ⟨rfl, ?_⟩
  intro i off hoff
  rw [← Nat.zero_add i]
  exact hdraws i off hoff

theorem verifyV5_sound (hb : idx.Built blake)
    (hps : v5PadSteps (idx.nChunks / v4TileChunks) padTiles = .ok padSteps)
    (hfree : CollisionFree blake (idx.hashed blake ++ verifyHashedV5 blake seed proof
      (idx.nChunks / v4TileChunks) padSeed padTiles padSteps))
    (h : verifyProofV5 blake seed proof idx.rT idx.nChunks padSeed padTiles = .ok fs) :
    fs = finalV5 blake seed idx padSeed padTiles padSteps ∧
      proof.tiles = (offsetsV5 seed idx padSeed padTiles padSteps).map fun off =>
        if off < idx.nChunks / v4TileChunks then idx.tile off else [] := by
  obtain ⟨hfs, hopen⟩ := draws_of_verifyV5 hps h
  -- by the openings, the check has read the tiles of the index
  have htile (i off : Nat) (hoff : (verifyOffsetsV5 seed proof (idx.nChunks / v4TileChunks) padSeed
      padTiles padSteps)[i]? = some off) (hlt : off < idx.nChunks / v4TileChunks) :
      proof.tiles.getD i [] = idx.tile off := by
    have hok := hopen i off hoff
    rw [if_pos hlt] at hok
    apply hok.tile_eq hb hlt hfree
    intro b hmem
    rw [verifyHashedV5, List.mem_flatMap]
    refine ⟨(off, i), List.mk_mem_zipIdx_iff_getElem?.mpr hoff, ?_⟩
    dsimp only
    rwa [if_pos hlt]
  have hread : ∀ i off, (verifyOffsetsV5 seed proof (idx.nChunks / v4TileChunks) padSeed padTiles
      padSteps)[i]? = some off → proofReadV5 proof padSeed (idx.nChunks / v4TileChunks) (0 + i) off =
        readV5 idx padSeed (0 + i) off := by
    intro i off hoff
    rw [Nat.zero_add, proofReadV5, readV5]
    split
    · next hlt => exact htile i off hoff hlt
    · rfl
  obtain ⟨hdraws, hlast⟩ := draws_congr (readV5 idx padSeed) hread
  refine ⟨by rw [hfs, hlast, finalV5], ?_⟩
  rw [offsetsV5, ← hdraws]
  apply eq_map_of_getD
  · rw [length_draws]
    exact (verifyProofV5_ok.mp h).1.1
  · intro i off hoff
    have hok := hopen i off hoff
    split at hok
    · next hlt => rw [if_pos hlt, htile i off hoff hlt]
    · next hge => rw [if_neg hge, hok]

/-! ## The fourth walk -/

/-- The offsets which `verify_proof_v4` draws. -/
def verifyOffsetsV4 (seed : UInt64) (proof : PomProofV4) (nTiles : Nat) : List Nat :=
  (v4Walk seed nTiles).draws (fun i _ => proof.tiles.getD i []) v4K 0 (v4InitialState seed)
    (v4FirstOffset seed nTiles)

/-- The inputs which `verify_proof_v4` hashes for the tiles of a proof. -/
def verifyHashedV4 (blake : List UInt8 → Bytes32) (seed : UInt64) (proof : PomProofV4)
    (nTiles : Nat) : List (List UInt8) :=
  (verifyOffsetsV4 seed proof nTiles).zipIdx.flatMap fun (off, i) => proofHashed blake proof i off

theorem verifyV4_sound (hb : idx.Built blake)
    (hfree : CollisionFree blake (idx.hashed blake ++ verifyHashedV4 blake seed proof
      (idx.nChunks / v4TileChunks)))
    (h : verifyProofV4 blake seed proof idx.rT idx.nChunks = .ok fs) :
    fs = finalV4 blake seed idx ∧ proof.tiles = (offsetsV4 seed idx).map idx.tile := by
  obtain ⟨⟨hlen, -⟩, hw, hv4⟩ := verifyProofV4_ok.mp h
  rw [v4Run_eq] at hv4
  obtain ⟨⟨⟨⟩, state⟩, hrun, hfs⟩ := map_ok hv4
  cases hfs
  obtain ⟨hstate, hopen⟩ := draws_of_run (fun i _ => proof.tiles.getD i [])
    (OpeningOk blake proof idx.rT) (fun _ i off _ tile hfetch => by
      obtain ⟨hlen, hverify, htile⟩ := verifyFetchV4_ok.mp hfetch
      exact ⟨htile.symm, hlen, hverify⟩) hrun
  -- by the openings, the check has read the tiles of the index
  have htile : ∀ i off, (verifyOffsetsV4 seed proof (idx.nChunks / v4TileChunks))[i]? = some off →
      proof.tiles.getD (0 + i) [] = idx.tile off := by
    intro i off hoff
    rw [Nat.zero_add]
    apply (Nat.zero_add i ▸ hopen i off hoff).tile_eq hb (draws_v4_lt hw hoff) hfree
    intro b hmem
    rw [verifyHashedV4, List.mem_flatMap]
    exact ⟨(off, i), List.mk_mem_zipIdx_iff_getElem?.mpr hoff, hmem⟩
  obtain ⟨hdraws, hlast⟩ := draws_congr (fun _ => idx.tile) htile
  refine ⟨by rw [hstate, hlast, finalV4], ?_⟩
  rw [offsetsV4, ← hdraws]
  apply eq_map_of_getD
  · rw [hlen, length_draws]
  · intro i off hoff
    rw [← Nat.zero_add i]
    exact htile i off hoff

/-- The pad steps which the check of the fifth walk takes. -/
def padStepsOf (weightTiles padTiles : Nat) : Nat :=
  (v5PadSteps weightTiles padTiles).toOption.getD 0

/-- What the check accepts is the honest proof, in both walks. -/
theorem verifyProof_sound (blake : List UInt8 → Bytes32) (tensors : List (List UInt8))
    (idx : WeightIndex) (seed : UInt64) (padSeed : Bytes32) (padTiles : Nat)
    (hbuild : WeightIndex.build blake tensors = some idx) :
    (∀ proof fs,
      CollisionFree blake (idx.hashed blake ++ verifyHashedV5 blake seed proof
        (idx.nChunks / v4TileChunks) padSeed padTiles
        (padStepsOf (idx.nChunks / v4TileChunks) padTiles)) →
      verifyProofV5 blake seed proof idx.rT idx.nChunks padSeed padTiles = .ok fs →
      walkFinalV5 blake seed idx padSeed padTiles = .ok fs ∧
        ∃ offs, drawnOffsetsV5 blake seed idx padSeed padTiles = .ok offs ∧
          proof.tiles =
            offs.map fun off => if off < idx.nChunks / v4TileChunks then idx.tile off else []) ∧
    ∀ proof fs,
      CollisionFree blake (idx.hashed blake ++ verifyHashedV4 blake seed proof
        (idx.nChunks / v4TileChunks)) →
      verifyProofV4 blake seed proof idx.rT idx.nChunks = .ok fs →
      walkFinalV4 blake seed idx = .ok fs ∧
        ∃ offs, drawnOffsetsV4 blake seed idx = .ok offs ∧ proof.tiles = offs.map idx.tile := by
  have hb := WeightIndex.build_built hbuild
  constructor
  · intro proof fs hfree h
    obtain ⟨hw, hp, padSteps, hps⟩ := walk_ok (verifyProofV5_ok.mp h).2
    rw [padStepsOf, hps] at hfree
    obtain ⟨rfl, htiles⟩ := verifyV5_sound hb hps hfree h
    exact ⟨walkFinalV5_eq hw hp hps, _, drawnOffsetsV5_eq hw hp hps, htiles⟩
  · intro proof fs hfree h
    have hw := (verifyProofV4_ok.mp h).2.1
    obtain ⟨rfl, htiles⟩ := verifyV4_sound hb hfree h
    exact ⟨walkFinalV4_eq hw, _, drawnOffsetsV4_eq hw, htiles⟩

/-! ## The honest proof -/

theorem mem_verifyHashedV5 {tier : UInt8} {b : List UInt8}
    (h : b ∈ verifyHashedV5 blake seed (proofOf blake tier idx (offsetsV5 seed idx padSeed padTiles
      padSteps)) (idx.nChunks / v4TileChunks) padSeed padTiles padSteps) :
    ∃ off < idx.nChunks / v4TileChunks,
      b ∈ openingHashed blake (idx.tile off) off (idx.tilePath blake off) := by
  have hread : ∀ i off, (offsetsV5 seed idx padSeed padTiles padSteps)[i]? = some off →
      readV5 idx padSeed (0 + i) off = proofReadV5 (proofOf blake tier idx (offsetsV5 seed idx padSeed
        padTiles padSteps)) padSeed (idx.nChunks / v4TileChunks) (0 + i) off := by
    intro i off hoff
    rw [Nat.zero_add, proofReadV5, tiles_proofOf blake tier idx hoff, readV5]
    split <;> rfl
  have hoffs : verifyOffsetsV5 seed (proofOf blake tier idx (offsetsV5 seed idx padSeed padTiles
      padSteps)) (idx.nChunks / v4TileChunks) padSeed padTiles padSteps =
      offsetsV5 seed idx padSeed padTiles padSteps := (draws_congr _ hread).1.symm
  rw [verifyHashedV5, hoffs, List.mem_flatMap] at h
  obtain ⟨⟨off, i⟩, hmem, hb⟩ := h
  have hoff := List.mk_mem_zipIdx_iff_getElem?.mp hmem
  dsimp only at hb
  split at hb
  · next hlt =>
    rw [proofHashed, tiles_proofOf blake tier idx hoff, path_proofOf blake tier idx hoff, if_pos hlt,
      if_pos hlt] at hb
    exact ⟨off, hlt, hb⟩
  · cases hb

theorem mem_verifyHashedV4 {tier : UInt8} {b : List UInt8} (hw : idx.nChunks / v4TileChunks ≠ 0)
    (h : b ∈ verifyHashedV4 blake seed (proofOfV4 blake tier idx (offsetsV4 seed idx))
      (idx.nChunks / v4TileChunks)) :
    ∃ off < idx.nChunks / v4TileChunks,
      b ∈ openingHashed blake (idx.tile off) off (idx.tilePath blake off) := by
  have hread : ∀ i off, (offsetsV4 seed idx)[i]? = some off →
      idx.tile off = (proofOfV4 blake tier idx (offsetsV4 seed idx)).tiles.getD (0 + i) [] := by
    intro i off hoff
    rw [Nat.zero_add, tiles_proofOfV4 blake tier idx hoff]
  have hoffs : verifyOffsetsV4 seed (proofOfV4 blake tier idx (offsetsV4 seed idx))
      (idx.nChunks / v4TileChunks) = offsetsV4 seed idx :=
    (draws_congr (fun i _ =>
      (proofOfV4 blake tier idx (offsetsV4 seed idx)).tiles.getD i []) hread).1.symm
  rw [verifyHashedV4, hoffs, List.mem_flatMap] at h
  obtain ⟨⟨off, i⟩, hmem, hb⟩ := h
  have hoff := List.mk_mem_zipIdx_iff_getElem?.mp hmem
  dsimp only at hb
  rw [proofHashed, tiles_proofOfV4 blake tier idx hoff, path_proofOfV4 blake tier idx hoff] at hb
  exact ⟨off, draws_v4_lt hw hoff, hb⟩

/-! ## An index without collisions -/

/-- A hash under which a tree of equal chunks of zeros has another node on each level. -/
def heightHash (bytes : List UInt8) : Bytes32 :=
  Vector.replicate 32 (if bytes.length = 64 then bytes.headD 0 + 1 else 1)

/-- What is hashed in a tree over chunks of zeros. -/
def IsHeight (bytes : List UInt8) : Prop :=
  bytes = List.replicate 32 0 ∨ ∃ k < 6, bytes = List.replicate 64 (UInt8.ofNat (k + 1))

theorem heightHash_inj {a b : List UInt8} (ha : IsHeight a) (hb : IsHeight b)
    (h : heightHash a = heightHash b) : a = b := by
  have hhead {u v : UInt8} (h : Vector.replicate 32 u = Vector.replicate 32 v) : u = v :=
    congrArg (fun digest => digest[0]) h
  have hheight : ∀ j < 6, ∀ k < 6,
      UInt8.ofNat (j + 1) + 1 = UInt8.ofNat (k + 1) + 1 → j = k := by decide
  have hzero : ∀ k < 6, (1 : UInt8) ≠ UInt8.ofNat (k + 1) + 1 := by decide
  rcases ha with rfl | ⟨j, hj, rfl⟩
  · rcases hb with rfl | ⟨k, hk, rfl⟩
    · rfl
    · exact absurd (hhead h) (hzero k hk)
  · rcases hb with rfl | ⟨k, hk, rfl⟩
    · exact absurd (hhead h).symm (hzero j hj)
    · rw [hheight j hj k hk (hhead h)]

theorem iterate_heightHash (k : Nat) :
    (fun x => hashPair heightHash x x)^[k] (Vector.replicate 32 1) =
      Vector.replicate 32 (UInt8.ofNat (k + 1)) := by
  induction k with
  | zero => rfl
  | succ k ih =>
    rw [Function.iterate_succ_apply', ih]
    simp [hashPair, heightHash, UInt8.ofNat_add]

theorem isHeight_pair {k : Nat} (hk : k < 6) {a : Bytes32 × Bytes32}
    (ha : a = ((fun x => hashPair heightHash x x)^[k] (Vector.replicate 32 1),
      (fun x => hashPair heightHash x x)^[k] (Vector.replicate 32 1))) : IsHeight (pairBytes a) := by
  refine .inr ⟨k, hk, ?_⟩
  rw [ha, iterate_heightHash, pairBytes, Vector.toList_replicate, List.replicate_append_replicate]

/-- The index over 33 chunks of zeros. -/
def zeroIndex : WeightIndex := WeightIndex.indexOf heightHash (chunksOf zeroTensor)

theorem mem_zeroIndex_chunks : ∀ c ∈ zeroIndex.chunks, c = Vector.replicate 32 0 := by
  intro c hc
  have hget (i : Nat) : zeroTensor.getD i 0 = 0 := by
    rw [zeroTensor, List.getD_eq_getElem?_getD, List.getElem?_replicate]
    split <;> rfl
  obtain ⟨i, -, rfl⟩ := List.mem_map.mp (show c ∈ chunksOf zeroTensor from hc)
  ext j hj
  rw [Vector.getElem_ofFn, hget, Vector.getElem_replicate]

theorem readChunkBytes_zeroIndex {i : Nat} (hi : i < zeroIndex.chunks.length) :
    zeroIndex.readChunkBytes i = Vector.replicate 32 0 := by
  apply mem_zeroIndex_chunks
  rw [WeightIndex.readChunkBytes, List.getD_eq_getElem?_getD, List.getElem?_eq_getElem hi]
  exact List.getElem_mem _

theorem zeroIndex_built : zeroIndex.Built heightHash :=
  WeightIndex.build_built (build_zeroTensor heightHash)

theorem mem_zeroIndex_leaves : ∀ x ∈ zeroIndex.leaves heightHash, x = Vector.replicate 32 1 := by
  intro x hx
  obtain ⟨c, hc, rfl⟩ := List.mem_map.mp hx
  rw [mem_zeroIndex_chunks c hc]
  rfl

theorem zeroIndex_height :
    max checkpointInterval (depth (zeroIndex.leaves heightHash).length) = 6 := by
  rw [← zeroIndex_built.nChunks, zeroIndex, nChunks_zeroTensor]
  decide

theorem isHeight_hashed : ∀ b ∈ zeroIndex.hashed heightHash, IsHeight b := by
  intro b hb
  rcases List.mem_append.mp hb with hb | hb
  · obtain ⟨c, hc, rfl⟩ := List.mem_map.mp hb
    rw [mem_zeroIndex_chunks c hc, Vector.toList_replicate]
    exact .inl rfl
  · obtain ⟨a, ha, rfl⟩ := List.mem_map.mp hb
    rw [WeightIndex.pairs, zeroIndex_height] at ha
    obtain ⟨k, hk, hpair⟩ := treeInputs_const mem_zeroIndex_leaves a ha
    exact isHeight_pair hk hpair

theorem isHeight_opening {off : Nat} (hoff : off < zeroIndex.nChunks / v4TileChunks) :
    ∀ b ∈ openingHashed heightHash (zeroIndex.tile off) off (zeroIndex.tilePath heightHash off),
      IsHeight b := by
  have hn : zeroIndex.nChunks = zeroIndex.chunks.length :=
    zeroIndex_built.nChunks.trans (List.length_map _)
  have hlt : off < zeroIndex.nChunks / 32 := hoff
  have hchunks : ∀ c ∈ tileChunks (zeroIndex.tile off), c = List.replicate 32 0 := by
    intro c hc
    rw [WeightIndex.tileChunks_tile] at hc
    obtain ⟨i, hi, rfl⟩ := List.mem_map.mp hc
    rw [List.mem_range] at hi
    rw [readChunkBytes_zeroIndex (by omega), Vector.toList_replicate]
  have hleaves : ∀ x ∈ (tileChunks (zeroIndex.tile off)).map heightHash,
      x = Vector.replicate 32 1 := by
    intro x hx
    obtain ⟨c, hc, rfl⟩ := List.mem_map.mp hx
    rw [hchunks c hc]
    rfl
  obtain ⟨r, hr, hpath⟩ := WeightIndex.tilePath_eq zeroIndex_built hoff (by
    rw [zeroIndex, nChunks_zeroTensor]
    decide)
  have hr1 : r = 1 := by
    rw [zeroIndex_height, v4TileSubtreeDepth] at hr
    omega
  have hnode := WeightIndex.tile_node zeroIndex_built hoff
  have hlevel := level_const (hashPair heightHash) (k := v4TileSubtreeDepth) mem_zeroIndex_leaves
  intro b hb
  rcases List.mem_append.mp hb with hb | hb
  · exact .inl (hchunks b hb)
  obtain ⟨a, ha, rfl⟩ := List.mem_map.mp hb
  rcases List.mem_append.mp ha with ha | ha
  · obtain ⟨k, hk, hpair⟩ := treeInputs_const hleaves a ha
    exact isHeight_pair (Nat.lt_succ_of_lt hk) hpair
  · rw [hpath, hlevel _ (List.mem_of_getElem? hnode)] at ha
    obtain ⟨k, hk, hpair⟩ := climbInputs_const hlevel
      (List.getElem?_eq_some_iff.mp hnode).1 a ha
    rw [← Function.iterate_add_apply] at hpair
    exact isHeight_pair (by rw [v4TileSubtreeDepth]; omega) hpair

theorem collisionFree_heightHash {inputs : List (List UInt8)} (h : ∀ b ∈ inputs, IsHeight b) :
    CollisionFree heightHash inputs := by
  intro a ha b hb heq
  exact heightHash_inj (h a ha) (h b hb) heq

theorem verifyProof_sound_zeroIndex :
    (walkFinalV5 heightHash 7 zeroIndex default 1 =
        .ok (finalV5 heightHash 7 zeroIndex default 1 128) ∧
      ∃ offs, drawnOffsetsV5 heightHash 7 zeroIndex default 1 = .ok offs ∧
        (proofOf heightHash 0 zeroIndex (offsetsV5 7 zeroIndex default 1 128)).tiles =
          offs.map fun off =>
            if off < zeroIndex.nChunks / v4TileChunks then zeroIndex.tile off else []) ∧
    walkFinalV4 heightHash 7 zeroIndex = .ok (finalV4 heightHash 7 zeroIndex) ∧
      ∃ offs, drawnOffsetsV4 heightHash 7 zeroIndex = .ok offs ∧
        (proofOfV4 heightHash 0 zeroIndex (offsetsV4 7 zeroIndex)).tiles =
          offs.map zeroIndex.tile := by
  have hn : zeroIndex.nChunks = 33 := nChunks_zeroTensor heightHash
  have hw : zeroIndex.nChunks / v4TileChunks ≠ 0 := weightTiles_ne_zero (by omega)
  have hps : v5PadSteps (zeroIndex.nChunks / v4TileChunks) 1 = .ok 128 := by
    rw [hn]
    rfl
  have hsteps : padStepsOf (zeroIndex.nChunks / v4TileChunks) 1 = 128 := by rw [padStepsOf, hps]; rfl
  obtain ⟨hv5, hv4⟩ := verifyProof_sound heightHash [zeroTensor] zeroIndex 7 default 1
    (build_zeroTensor heightHash)
  constructor
  · apply hv5
    · rw [hsteps]
      apply collisionFree_heightHash
      intro b hb
      rcases List.mem_append.mp hb with hb | hb
      · exact isHeight_hashed b hb
      · obtain ⟨off, hoff, hb⟩ := mem_verifyHashedV5 hb
        exact isHeight_opening hoff b hb
    · exact verifyProofV5_eq hw Nat.one_ne_zero hps 0 zeroIndex_built (by omega)
  · apply hv4
    · apply collisionFree_heightHash
      intro b hb
      rcases List.mem_append.mp hb with hb | hb
      · exact isHeight_hashed b hb
      · obtain ⟨off, hoff, hb⟩ := mem_verifyHashedV4 hw hb
        exact isHeight_opening hoff b hb
    · exact verifyProofV4_eq hw 0 zeroIndex_built (by omega)

end KeryxMiner.Pom
