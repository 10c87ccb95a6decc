import KeryxMiner.Pom.Proofs
import KeryxMiner.Vulkan.WalkStep

/-!
# The walk of the shader is that of the host

At each step the invocations have the rows of the host's state and the columns of the tile that the
host reads (`Sim`). The tree over the last rows is the host's, and so is the value (`walk_agrees`).
-/

namespace KeryxMiner.Vulkan

open Pom Merkle

variable {look : UInt64 → ChunkWords} {seed : UInt64} {w p k i n off : Nat}
  {W : ReadWalk (List UInt8) Nat (List UInt8)} {read : Nat → Nat → List UInt8} {mem : Vector UInt32 512}
  {s : Slot} {state : List UInt8}

/-! ## Simulation -/

/-- The invocations have the rows of the state. -/
structure RowsOf (s : Slot) (state : List UInt8) : Prop where
  length : ∀ x, (s.inv x).row4.length = 8
  row : ∀ x : Fin 32, wordsBytes (s.inv x).row4 = slice32 state x

/-- The invocations have the columns of the tile `off`. -/
structure ColumnsOf (s : Slot) (tile : List UInt8) (off : Nat) : Prop where
  off : ∀ x, (s.inv x).off.toNat = off
  column : ∀ x : Fin 32, wordsBytes (columnWords (s.inv x).w) = slice32 tile x

/-- A walk of the host that moves like the shader and reads what the shader looks up, below `bound`
tiles. -/
structure Mirrors (pc : WalkPush) (look : UInt64 → ChunkWords) (seed : UInt64)
    (W : ReadWalk (List UInt8) Nat (List UInt8)) (read : Nat → Nat → List UInt8) (bound : Nat) :
    Prop where
  zero : pc.zero = 0
  advance : ∀ i state tile, W.advance i state tile = v4Transition state tile (UInt32.ofNat (i + 1))
  next : ∀ i state tile off mem s, i < 255 → TileIn mem tile → RowsOf s state →
    (nextOff pc seed (UInt32.ofNat (i + 1)) mem s.inv).toNat = W.next i state tile off
  next_lt : ∀ i state tile off, i < 255 → W.next i state tile off < bound
  column : ∀ i off, ∀ o : UInt64, o.toNat = off → off < bound → ∀ x : Fin 32,
    wordsBytes (columnWords (look (o * 32 + UInt64.ofNat x))) = slice32 (read i off) x

variable {pc : WalkPush} {bound : Nat}

/-- The memory with the columns stored. -/
abbrev Slot.tile (s : Slot) : Vector UInt32 512 :=
  storeRows s.mem 0 8 fun x => columnWords (s.inv x).w

theorem length_nextRow {row4 : List UInt32} {tweak0 : UInt32} :
    (nextRow pc mem row4 tweak0).length = 8 := by
  rw [nextRow, List.length_map, List.length_range]

theorem row4_step (step : UInt32) (s : Slot) (x : Fin 32) :
    ((s.step pc look seed step).inv x).row4 = nextRow pc s.tile (s.inv x).row4
      (step * 0x9E3779B9 + UInt32.ofNat x * 0xC2B2AE35) := by
  have hload : load (storeRows s.tile 256 8 fun x => nextRow pc s.tile (s.inv x).row4
      (step * 0x9E3779B9 + UInt32.ofNat x * 0xC2B2AE35)) (256 + x * 8) 8 = _ :=
    load_storeRows (fun _ => length_nextRow) (by decide) x
  rw [← hload, Slot.step]
  dsimp only
  split <;> rfl

theorem off_step {step : UInt32} (hstep : step < 256) (s : Slot) (x : Fin 32) :
    ((s.step pc look seed step).inv x).off = nextOff pc seed step s.tile s.inv ∧
      ((s.step pc look seed step).inv x).w =
        look (nextOff pc seed step s.tile s.inv * 32 + UInt64.ofNat x) := by
  rw [Slot.step]
  dsimp only
  rw [if_pos hstep]
  exact ⟨rfl, rfl⟩

theorem Mirrors.step_rows (h : Mirrors pc look seed W read bound) {tile : List UInt8}
    (hrows : RowsOf s state) (hcols : ColumnsOf s tile off) :
    RowsOf (s.step pc look seed (UInt32.ofNat (i + 1))) (W.advance i state tile) where
  length x := by
    rw [row4_step]
    exact length_nextRow
  row x := by
    have htile : TileIn s.tile tile := tileIn_storeRows hcols.column
    rw [row4_step, wordsBytes_nextRow h.zero htile (hrows.length x), hrows.row, h.advance,
      slice32_v4Transition x.isLt]

theorem Mirrors.step_columns (h : Mirrors pc look seed W read bound) {tile : List UInt8}
    (hrows : RowsOf s state) (hcols : ColumnsOf s tile off) (hi : i < 255) :
    ColumnsOf (s.step pc look seed (UInt32.ofNat (i + 1)))
      (read (i + 1) (W.next i state tile off)) (W.next i state tile off) := by
  have htile : TileIn s.tile tile := tileIn_storeRows hcols.column
  have hstep : UInt32.ofNat (i + 1) < 256 := by
    rw [UInt32.lt_iff_toNat_lt, UInt32.toNat_ofNat_of_lt' (by omega : i + 1 < 2 ^ 32)]
    exact Nat.succ_lt_succ hi
  have hoff := h.next i state tile off s.tile s hi htile hrows
  constructor
  · intro x
    rw [(off_step hstep s x).1, hoff]
  · intro x
    rw [(off_step hstep s x).2]
    exact h.column (i + 1) _ _ hoff (h.next_lt i state tile off hi) x

/-- The invocations are where the host is before step `i`. -/
structure Sim (s : Slot) (read : Nat → Nat → List UInt8) (i : Nat) (state : List UInt8) (off : Nat) :
    Prop where
  rows : RowsOf s state
  columns : i < 256 → ColumnsOf s (read i off) off

theorem Mirrors.step (h : Mirrors pc look seed W read bound) (hi : i < 256)
    (hsim : Sim s read i state off) : Sim (s.step pc look seed (UInt32.ofNat (i + 1))) read (i + 1)
      (W.advance i state (read i off)) (W.next i state (read i off) off) where
  rows := h.step_rows hsim.rows (hsim.columns hi)
  columns hlt := h.step_columns hsim.rows (hsim.columns hi) (by omega)

/-- A run of the host and what the shader has after as many steps. -/
theorem Mirrors.run (h : Mirrors pc look seed W read bound) (hn : i + n ≤ 256)
    (hsim : Sim (slotAt pc look seed mem i) read i state off) :
    RowsOf (slotAt pc look seed mem (i + n)) (W.last read n i state off) ∧
      ∀ j < n, ∀ x, (W.draws read n i state off)[j]? =
        some ((slotAt pc look seed mem (i + j)).inv x).off.toNat := by
  induction n generalizing i state off with
  | zero => exact ⟨hsim.rows, fun j hj => absurd hj (Nat.not_lt_zero j)⟩
  | succ n ih =>
    have hi : i < 256 := by omega
    have hnext : i + (n + 1) = i + 1 + n := by omega
    have hstep : Sim (slotAt pc look seed mem (i + 1)) read (i + 1)
        (W.advance i state (read i off)) (W.next i state (read i off) off) := h.step hi hsim
    obtain ⟨hrows, hdraws⟩ := ih (by omega) hstep
    rw [hnext, ReadWalk.last, ReadWalk.draws]
    refine ⟨hrows, ?_⟩
    intro j hj x
    cases j with
    | zero => exact congrArg some ((hsim.columns hi).off x).symm
    | succ j =>
      have hj' : i + (j + 1) = i + 1 + j := by omega
      rw [hj', List.getElem?_cons_succ]
      exact hdraws j (by omega) x

/-! ## The tree -/

section

variable {blake : List UInt8 → Bytes32} {nodes : List Bytes32} {src : Nat} {t : TreeScratch}
  {m : List UInt32} {len : Nat}

/-- The memory has the nodes side by side from `src` on. -/
def NodesAt (mem : Vector UInt32 512) (src : Nat) (nodes : List Bytes32) : Prop :=
  ∀ (i : Nat) (node : Bytes32), nodes[i]? = some node →
    wordsBytes (load mem (src + i * 8) 8) = node.toList

theorem length_b3OneBlock : (b3OneBlock blake m len).length = 8 := by
  rw [b3OneBlock, List.length_map, List.length_range]

theorem wordsBytes_b3OneBlock :
    wordsBytes (b3OneBlock blake m len) = (blake ((wordsBytes m).take len)).toList :=
  wordsBytes_ofLe Vector.length_toList

/-- The leaves of the rows. -/
theorem nodesAt_start (hrows : RowsOf s state) : NodesAt (TreeScratch.start blake s).mem 0
    ((List.range v4D).map fun r => blake (slice32 state r)) := by
  intro i node hnode
  rw [List.getElem?_map, Option.map_eq_some_iff] at hnode
  obtain ⟨r, hr, rfl⟩ := hnode
  obtain ⟨hlt, rfl⟩ := List.getElem?_eq_some_iff.mp hr
  rw [List.length_range] at hlt
  have hload : load (storeRows s.mem 0 8 fun x : Fin 32 =>
      b3OneBlock blake ((s.inv x).row4 ++ List.replicate 8 0) 32) (0 + i * 8) 8 =
      b3OneBlock blake ((s.inv ⟨i, hlt⟩).row4 ++ List.replicate 8 0) 32 :=
    load_storeRows (fun _ => length_b3OneBlock) (by decide) ⟨i, hlt⟩
  have hlen : (wordsBytes (s.inv ⟨i, hlt⟩).row4).length = 32 := by
    rw [length_wordsBytes, hrows.length]
  rw [TreeScratch.start, hload, wordsBytes_b3OneBlock, wordsBytes_append, List.take_left' hlen,
    hrows.row, List.getElem_range]

/-- The nodes of the next level. -/
theorem nodesAt_level (blake : List UInt8 → Bytes32) (hnodes : NodesAt t.mem t.src nodes) {n : Nat} (hlen : nodes.length = n)
    (heven : n % 2 = 0) (hdst : t.dst + n / 2 * 8 ≤ 512) :
    NodesAt (t.level blake n).mem (t.level blake n).src (nextLevel (hashPair blake) nodes) := by
  intro i node hnode
  rw [getElem?_nextLevel, Option.map_eq_some_iff] at hnode
  obtain ⟨left, hleft, rfl⟩ := hnode
  have hlt := (List.getElem?_eq_some_iff.mp hleft).1
  obtain ⟨right, hright⟩ : ∃ right, nodes[2 * i + 1]? = some right :=
    ⟨_, List.getElem?_eq_getElem (by omega)⟩
  have hload : load (storeRows t.mem t.dst 8 fun x : Fin (n / 2) =>
      b3OneBlock blake (load t.mem (t.src + x * 16) 16) 64) (t.dst + i * 8) 8 =
      b3OneBlock blake (load t.mem (t.src + i * 16) 16) 64 :=
    load_storeRows (fun _ => length_b3OneBlock) hdst ⟨i, by omega⟩
  have hleft' := hnodes _ _ hleft
  have hright' := hnodes _ _ hright
  have hsrc : t.src + 2 * i * 8 = t.src + i * 16 := by omega
  have hsrc' : t.src + (2 * i + 1) * 8 = t.src + i * 16 + 8 := by omega
  rw [hsrc] at hleft'
  rw [hsrc'] at hright'
  have hpair : wordsBytes (load t.mem (t.src + i * 16) 16) = left.toList ++ right.toList := by
    rw [load_add _ 8 8, wordsBytes_append, hleft', hright']
  have hlen64 : (left.toList ++ right.toList).length = 64 := by
    rw [List.length_append, Vector.length_toList, Vector.length_toList]
  rw [TreeScratch.level, hload, wordsBytes_b3OneBlock, hpair, List.take_of_length_le hlen64.le,
    hright]
  rfl

/-- The sizes of the levels below the root. -/
def levelSizes (k : Nat) : List Nat := (List.range k).map fun i => 2 ^ (k - i)

theorem levelSizes_succ : levelSizes (k + 1) = 2 ^ (k + 1) :: levelSizes k := by
  rw [levelSizes, List.range_succ_eq_map, List.map_cons, List.map_map, levelSizes]
  congr 1
  apply List.map_congr_left
  intro i _
  rw [Function.comp_apply, Nat.succ_eq_add_one, Nat.add_sub_add_right]

/-- The levels up to the root, each stored where the one before it was read. -/
theorem nodesAt_levels (hnodes : NodesAt t.mem t.src nodes) (hlen : nodes.length = 2 ^ k)
    (hk : 2 ^ k ≤ 32) (hsrc : t.src ≤ 256) (hdst : t.dst ≤ 256) :
    NodesAt ((levelSizes k).foldl (TreeScratch.level blake) t).mem
      ((levelSizes k).foldl (TreeScratch.level blake) t).src
      (Merkle.level (hashPair blake) nodes k) := by
  induction k generalizing nodes t with
  | zero => exact hnodes
  | succ k ih =>
    have hpow : 2 ^ (k + 1) = 2 * 2 ^ k := Nat.pow_succ'
    have hnext := nodesAt_level blake hnodes hlen (by omega) (by omega)
    rw [levelSizes_succ, List.foldl_cons, level_succ]
    exact ih hnext (by rw [length_nextLevel]; omega) (by omega) hdst hsrc

/-- The root of the tree over the last rows. -/
theorem nodesAt_root (blake : List UInt8 → Bytes32) (hrows : RowsOf s state) :
    NodesAt ([32, 16, 8, 4, 2].foldl (TreeScratch.level blake) (TreeScratch.start blake s)).mem
      ([32, 16, 8, 4, 2].foldl (TreeScratch.level blake) (TreeScratch.start blake s)).src
      [v4StateRoot blake state] := by
  have hsizes : [32, 16, 8, 4, 2] = levelSizes 5 := rfl
  have hlen : ((List.range v4D).map fun r => blake (slice32 state r)).length = 2 ^ 5 := by
    rw [List.length_map, List.length_range]
    rfl
  have hdepth : depth (2 ^ 5) = 5 := by decide
  rw [hsizes, v4StateRoot, ← level_depth (List.ne_nil_of_length_pos (by omega)), hlen, hdepth]
  exact nodesAt_levels (nodesAt_start hrows) hlen (by decide) (Nat.zero_le _) (Nat.le_refl _)

/-- The value of the shader is the fold of the root. -/
theorem walkValue_eq (hrows : RowsOf (slotAt pc look seed mem v4K) state) :
    walkValue pc look seed blake mem = fold64 (v4StateRoot blake state) := by
  have hroot := nodesAt_root blake hrows 0 _ rfl
  rw [walkValue]
  generalize [32, 16, 8, 4, 2].foldl (TreeScratch.level blake)
    (TreeScratch.start blake (slotAt pc look seed mem v4K)) = t at hroot ⊢
  rw [Nat.zero_mul, Nat.add_zero] at hroot
  have hlen : (load t.mem t.src 8).length = 8 := by
    have hbytes := congrArg List.length hroot
    rw [length_wordsBytes, Vector.length_toList] at hbytes
    omega
  have htake : load t.mem t.src 2 = (load t.mem t.src 8).take 2 := by
    rw [load, load, List.take_take]
    rfl
  have hget : ∀ i < 2, (load t.mem t.src 2).getD i 0 = (load t.mem t.src 8).getD i 0 := by
    intro i hi
    rw [htake, List.getD_eq_getElem?_getD, List.getD_eq_getElem?_getD, List.getElem?_take_of_lt hi]
  rw [hget 0 (by decide), hget 1 (by decide), UInt64.or_comm, word64_row hlen, hroot, fold64]

end

/-! ## What the host reads -/

section

variable {blake : List UInt8 → Bytes32} {idx : WeightIndex} {padSeed : Bytes32}

/-- The four little-endian words of a chunk. -/
def chunkBytes : ChunkWords → List UInt8
  | (w0, w1, w2, w3) => wordBytes w0 ++ wordBytes w1 ++ wordBytes w2 ++ wordBytes w3

theorem wordsBytes_columnWords (w : ChunkWords) : wordsBytes (columnWords w) = chunkBytes w := by
  obtain ⟨w0, w1, w2, w3⟩ := w
  rw [chunkBytes, wordBytes_eq w0, wordBytes_eq w1, wordBytes_eq w2, wordBytes_eq w3, columnWords]
  simp

/-- The lookup gives the words of the chunk it is asked for: of the tiles of the weights, and behind
them of the `p` tiles of the pad. -/
structure ReadsChunks (look : UInt64 → ChunkWords) (idx : WeightIndex) (padSeed : Bytes32) (p : Nat) :
    Prop where
  weight : ∀ c < idx.nChunks / v4TileChunks * v4TileChunks,
    chunkBytes (look (UInt64.ofNat c)) = (idx.readChunkBytes c).toList
  pad : ∀ e < p * v4TileChunks,
    chunkBytes (look (UInt64.ofNat (idx.nChunks / v4TileChunks * v4TileChunks + e))) =
      padEntry (v5PadSeedWords padSeed) (UInt64.ofNat e)

theorem slice32_tile {x : Nat} (hx : x < 32) :
    slice32 (idx.tile off) x = (idx.readChunkBytes (off * v4TileChunks + x)).toList :=
  block_flatMap (fun _ _ => Vector.length_toList) hx

theorem length_padEntry {ws : PadWords} {e : UInt64} : (padEntry ws e).length = 32 := by
  obtain ⟨a, b, c, d⟩ := ws
  simp [padEntry]

theorem slice32_v5PadTile {x : Nat} (hx : x < 32) : slice32 (v5PadTile padSeed off) x =
    padEntry (v5PadSeedWords padSeed) (UInt64.ofNat (off * v5TileEntries + x)) :=
  block_flatMap (fun _ _ => length_padEntry) hx

theorem ReadsChunks.column (h : ReadsChunks look idx padSeed p) {o : UInt64}
    (hoff : o.toNat < idx.nChunks / v4TileChunks + p) (x : Fin 32) :
    wordsBytes (columnWords (look (o * 32 + UInt64.ofNat x))) =
      slice32 (readV5 idx padSeed i o.toNat) x := by
  have hchunk : o * 32 + UInt64.ofNat x = UInt64.ofNat (o.toNat * v4TileChunks + x) := by
    rw [← UInt64.toNat_inj, UInt64.toNat_add, UInt64.toNat_mul, UInt64.toNat_ofNat',
      UInt64.toNat_ofNat']
    have h32 : (32 : UInt64).toNat = 32 := rfl
    rw [h32]
    change (o.toNat * 32 % 2 ^ 64 + x % 2 ^ 64) % 2 ^ 64 = (o.toNat * 32 + x) % 2 ^ 64
    omega
  rw [wordsBytes_columnWords, hchunk, readV5]
  have htile : v4TileChunks = 32 := rfl
  split
  · next hlt' =>
    rw [slice32_tile x.isLt]
    apply h.weight
    rw [htile] at hlt' ⊢
    omega
  · next hge =>
    rw [slice32_v5PadTile x.isLt]
    have hsplit : o.toNat * v4TileChunks + x = idx.nChunks / v4TileChunks * v4TileChunks +
        ((o.toNat - idx.nChunks / v4TileChunks) * v4TileChunks + x) := by
      rw [htile] at hge ⊢
      omega
    rw [hsplit]
    apply h.pad
    rw [htile] at hge hoff ⊢
    omega

/-! ## The two walks -/

theorem toUInt64_step (hi : i < 255) :
    (UInt32.ofNat (i + 1) + 1).toUInt64 = UInt64.ofNat (i + 1 + 1) := by
  rw [← UInt64.toNat_inj, UInt32.toNat_toUInt64, UInt32.toNat_add,
    UInt32.toNat_ofNat_of_lt' (by omega : i + 1 < 2 ^ 32),
    UInt64.toNat_ofNat_of_lt' (by omega : i + 1 + 1 < 2 ^ 64)]
  have h1 : (1 : UInt32).toNat = 1 := rfl
  rw [h1]
  omega

/-- Without a pad. -/
theorem mirrors_v4 (seed : UInt64) (hw : 0 < idx.nChunks / v4TileChunks) (hlt : idx.nChunks / v4TileChunks < 2 ^ 50)
    (hlook : ReadsChunks look idx padSeed 0) :
    Mirrors (pushOf (idx.nChunks / v4TileChunks) 0) look seed (v4Walk seed (idx.nChunks / v4TileChunks))
      (readV5 idx padSeed) (idx.nChunks / v4TileChunks) where
  zero := rfl
  advance _ _ _ := rfl
  next i state tile off mem s hi htile _ := by
    have hstep : i + 1 < v4K := Nat.succ_lt_succ hi
    have hpad : ¬(pushOf (idx.nChunks / v4TileChunks) 0).nPad ≠ 0 := fun h => h rfl
    rw [nextOff, if_neg hpad, snippetFold_eq htile, toNat_modTiles hw hlt, toUInt64_step hi, v4Walk]
    exact (if_pos hstep).symm
  next_lt i state tile off hi := by
    have hstep : i + 1 < v4K := Nat.succ_lt_succ hi
    rw [v4Walk]
    exact (if_pos hstep).trans_lt (Nat.mod_lt _ hw)
  column i off o ho hoff x := by
    subst ho
    exact hlook.column hoff x

/-- With a pad. -/
theorem mirrors_v5 (seed : UInt64) (hw : 0 < idx.nChunks / v4TileChunks) (hp : 0 < p)
    (hlt : idx.nChunks / v4TileChunks + p < 2 ^ 50)
    (hk : v5PadSteps (idx.nChunks / v4TileChunks) p = .ok k) (hlook : ReadsChunks look idx padSeed p) :
    Mirrors (pushOf (idx.nChunks / v4TileChunks) p) look seed
      (v5Walk seed (idx.nChunks / v4TileChunks) p k) (readV5 idx padSeed)
      (idx.nChunks / v4TileChunks + p) where
  zero := rfl
  advance _ _ _ := rfl
  next i state tile off mem s hi htile hrows := by
    have hstep : i + 1 < v4K := Nat.succ_lt_succ hi
    have hpad : (pushOf (idx.nChunks / v4TileChunks) p).nPad ≠ 0 := ofNat_ne_zero hp (by omega)
    rw [nextOff, if_pos hpad, snippetFold_eq htile, v5StateFold_eq hrows.length hrows.row,
      toNat_v5Offset hw hp hlt hk (by omega), toUInt64_step hi, v5Walk]
    exact (if_pos hstep).symm
  next_lt i state tile off hi := by
    have hstep : i + 1 < v4K := Nat.succ_lt_succ hi
    rw [v5Walk]
    dsimp only
    rw [if_pos hstep, v5NextOffset]
    split
    · have hmod := Nat.mod_lt (mix64 (seed ^^^ UInt64.ofNat (i + 1 + 1) * v4OffsetStepSalt ^^^
        snippetFold (tile.take v4SnippetBytes) ^^^ Pom.v5StateFold state)).toNat hp
      exact (Nat.mod_le _ _).trans_lt (Nat.add_lt_add_left hmod _)
    · exact (Nat.mod_lt _ hw).trans_le (Nat.le_add_right _ _)
  column i off o ho hoff x := by
    subst ho
    exact hlook.column hoff x

theorem wordsBytes_keystream {h : UInt64} {n : Nat} : wordsBytes (keystream h n) = initialRow h n := by
  induction n generalizing h with
  | zero => rfl
  | succ n ih =>
    rw [keystream, wordsBytes_cons, ih]
    rfl

theorem length_keystream {h : UInt64} {n : Nat} : (keystream h n).length = n := by
  induction n generalizing h with
  | zero => rfl
  | succ n ih => rw [keystream, List.length_cons, ih]

/-- The invocations start where the host starts. -/
theorem Mirrors.start (h : Mirrors pc look seed W read bound) (hw : 0 < w)
    (htiles : ∀ x, (modTiles pc x).toNat = x.toNat % w) (hbound : w ≤ bound) :
    Sim (slotAt pc look seed mem 0) read 0 (v4InitialState seed) (v4FirstOffset seed w) where
  rows := {
    length := fun _ => length_keystream
    row := fun x => by
      have hlen : ∀ i < v4D, (initialRow (mix64 (seed ^^^ (v4S0RowSalt + UInt64.ofNat i)))
          (v4D / 4)).length = v4D := by
        intro i _
        rw [← wordsBytes_keystream, length_wordsBytes, length_keystream]
        rfl
      exact wordsBytes_keystream.trans (block_flatMap hlen x.isLt).symm }
  columns _ := {
    off := fun _ => htiles _
    column := fun x => h.column 0 _ _ (htiles _) ((Nat.mod_lt _ hw).trans_le hbound) x }

/-! ## The value -/

/-- The fourth walk with its offsets kept. -/
def drawnOffsetsV4 (blake : List UInt8 → Bytes32) (seed : UInt64) (idx : WeightIndex) :
    Except String (List Nat) := do
  let nTiles := idx.nChunks / v4TileChunks
  if nTiles = 0 then throw "blob too small for the v4 walk"
  let (offs, _) ← v4Run blake seed nTiles (fun offs _ off => .ok (offs ++ [off], idx.tile off)) []
  return offs

/-- The final state of the host: of the fourth walk without a pad, of the fifth with one. -/
def hostFinal (blake : List UInt8 → Bytes32) (seed : UInt64) (idx : WeightIndex) (padSeed : Bytes32)
    (p : Nat) : Except String UInt64 :=
  if p = 0 then walkFinalV4 blake seed idx else walkFinalV5 blake seed idx padSeed p

/-- The tiles that the host reads. -/
def hostOffsets (blake : List UInt8 → Bytes32) (seed : UInt64) (idx : WeightIndex) (padSeed : Bytes32)
    (p : Nat) : Except String (List Nat) :=
  if p = 0 then drawnOffsetsV4 blake seed idx else drawnOffsetsV5 blake seed idx padSeed p

/-- The fourth walk reads tiles of the weights only. -/
theorem v4Run_eq {σ : Type} (blake : List UInt8 → Bytes32) (seed : UInt64) (padSeed : Bytes32)
    (push : σ → Nat → σ) (hw : 0 < idx.nChunks / v4TileChunks) (f : σ) :
    v4Run blake seed (idx.nChunks / v4TileChunks) (fun f _ off => .ok (push f off, idx.tile off)) f =
      .ok (((v4Walk seed (idx.nChunks / v4TileChunks)).draws (readV5 idx padSeed) v4K 0
          (v4InitialState seed) (v4FirstOffset seed (idx.nChunks / v4TileChunks))).foldl push f,
        fold64 (v4StateRoot blake ((v4Walk seed (idx.nChunks / v4TileChunks)).last
          (readV5 idx padSeed) v4K 0 (v4InitialState seed)
          (v4FirstOffset seed (idx.nChunks / v4TileChunks))))) := by
  have hdraws : ∀ (j off : Nat), ((v4Walk seed (idx.nChunks / v4TileChunks)).draws (readV5 idx padSeed) v4K 0
      (v4InitialState seed) (v4FirstOffset seed (idx.nChunks / v4TileChunks)))[j]? = some off →
      off < idx.nChunks / v4TileChunks := by
    apply ReadWalk.draws_forall (P := fun _ off => off < idx.nChunks / v4TileChunks)
    · exact Nat.mod_lt _ hw
    · intro j s t b hj
      rw [Nat.zero_add] at hj
      rw [v4Walk]
      dsimp only
      rw [if_pos hj]
      exact Nat.mod_lt _ hw
  rw [v4Run, ReadWalk.run_of_draws (readV5 idx padSeed) push]
  · rfl
  · intro f j off hoff
    rw [readV5, if_pos (hdraws j off hoff)]

theorem walk_agrees_run (blake : List UInt8 → Bytes32) (mem : Vector UInt32 512) (h : Mirrors pc look seed W read bound)
    (hsim : Sim (slotAt pc look seed mem 0) read 0 state off) :
    walkValue pc look seed blake mem = fold64 (v4StateRoot blake (W.last read v4K 0 state off)) ∧
      ∀ t < v4K, ∀ x, (W.draws read v4K 0 state off)[t]? =
        some ((slotAt pc look seed mem t).inv x).off.toNat := by
  obtain ⟨hrows, hdraws⟩ := h.run (n := v4K) (by decide) hsim
  simp only [Nat.zero_add] at hrows hdraws
  exact ⟨walkValue_eq hrows, hdraws⟩

/-- **The value that the shader folds for a nonce is the final state of the host, and both read the
same tiles.** -/
theorem walk_agrees (blake : List UInt8 → Bytes32) (seed : UInt64) (idx : WeightIndex)
    (padSeed : Bytes32) (p : Nat) (look : UInt64 → ChunkWords) (mem : Vector UInt32 512)
    (hw : 0 < idx.nChunks / v4TileChunks) (hlt : idx.nChunks / v4TileChunks + p < 2 ^ 50)
    (hlook : ReadsChunks look idx padSeed p) :
    let w := idx.nChunks / v4TileChunks
    let pc := pushOf w p
    hostFinal blake seed idx padSeed p = .ok (walkValue pc look seed blake mem) ∧
      (∃ offs, hostOffsets blake seed idx padSeed p = .ok offs ∧ offs.length = v4K ∧
        ∀ t < v4K, ∀ x, offs[t]? = some ((slotAt pc look seed mem t).inv x).off.toNat) ∧
      (∀ x, (modTiles pc x).toNat = x.toNat % w) ∧
      (0 < p → ∀ x, (modPad pc x).toNat = x.toNat % p) ∧
      ∀ acc tweak, rho8 pc acc tweak = (Pom.rho8 acc tweak).toUInt32 := by
  intro w pc
  have hmods : (∀ x, (modTiles pc x).toNat = x.toNat % w) ∧
      (0 < p → ∀ x, (modPad pc x).toNat = x.toNat % p) ∧
      ∀ acc tweak, rho8 pc acc tweak = (Pom.rho8 acc tweak).toUInt32 :=
    ⟨toNat_modTiles hw hlt, fun hp => toNat_modPad hp hlt, rho8_eq rfl⟩
  rw [← and_assoc]
  refine ⟨?_, hmods⟩
  rcases Nat.eq_zero_or_pos p with rfl | hp
  · have hmirrors := mirrors_v4 seed hw (by omega) hlook
    obtain ⟨hvalue, hoffs⟩ := walk_agrees_run blake mem hmirrors
      (hmirrors.start hw hmods.1 (Nat.le_refl _))
    refine ⟨?_, _, ?_, ReadWalk.length_draws, hoffs⟩
    · have hrun := v4Run_eq blake seed padSeed (fun (_ : Unit) _ => ()) hw ()
      dsimp only [pc, w]
      rw [hvalue, hostFinal, if_pos rfl, walkFinalV4]
      dsimp only
      rw [if_neg hw.ne', hrun]
      rfl
    · have hrun := v4Run_eq blake seed padSeed (fun offs off => offs ++ [off]) hw []
      rw [hostOffsets, if_pos rfl, drawnOffsetsV4]
      dsimp only
      rw [if_neg hw.ne', hrun, foldl_concat]
      rfl
  · obtain ⟨k, hk⟩ : ∃ k, v5PadSteps w p = .ok k := by
      rw [v5PadSteps, Nat.mod_eq_of_lt (by omega)]
      exact ⟨_, if_neg (by omega)⟩
    have hmirrors := mirrors_v5 seed hw hp hlt hk hlook
    obtain ⟨hvalue, hoffs⟩ := walk_agrees_run blake mem hmirrors
      (hmirrors.start hw hmods.1 (Nat.le_add_right _ _))
    refine ⟨?_, _, ?_, ReadWalk.length_draws, hoffs⟩
    · dsimp only [pc, w]
      rw [hvalue, hostFinal, if_neg hp.ne', walkFinalV5_eq hw.ne' hp.ne' hk]
      rfl
    · rw [hostOffsets, if_neg hp.ne', drawnOffsetsV5_eq hw.ne' hp.ne' hk]
      rfl

end

/-- One tile of zeros. -/
def zeroTile : WeightIndex where
  nChunks := 32
  rT := default
  chunks := List.replicate 32 (Vector.replicate 32 0)
  treeFile := []
  checkpoints := []
  totalLevels := 6

/-- The chunks of the tile of zeros, and behind them those of a pad. -/
def zeroTileLook (c : UInt64) : ChunkWords :=
  if c < 32 then (0, 0, 0, 0)
  else
    let (a, b, c', d) := v5PadSeedWords default
    round4^[v5PRounds] (a, b ^^^ (c - 32), c', d)

theorem zeroTileLook_reads : ReadsChunks zeroTileLook zeroTile default 1 where
  weight c hc := by
    change c < 32 at hc
    have hlt : UInt64.ofNat c < 32 := by
      rw [UInt64.lt_iff_toNat_lt, UInt64.toNat_ofNat_of_lt' (by omega : c < 2 ^ 64)]
      exact hc
    have hread : zeroTile.readChunkBytes c = Vector.replicate 32 0 := by
      rw [WeightIndex.readChunkBytes, zeroTile, List.getD_replicate _ hc]
    rw [zeroTileLook, if_pos hlt, hread]
    rfl
  pad e he := by
    change e < 32 at he
    change chunkBytes (zeroTileLook (UInt64.ofNat (32 + e))) = _
    have hge : ¬UInt64.ofNat (32 + e) < 32 := by
      rw [UInt64.lt_iff_toNat_lt, UInt64.toNat_ofNat_of_lt' (by omega : 32 + e < 2 ^ 64)]
      exact Nat.not_lt.mpr (Nat.le_add_right 32 e)
    have hsub : UInt64.ofNat (32 + e) - 32 = UInt64.ofNat e := by
      rw [UInt64.ofNat_add, UInt64.add_comm]
      exact UInt64.add_sub_cancel _ _
    rw [zeroTileLook, if_neg hge]
    obtain ⟨a, b, c, d⟩ := v5PadSeedWords default
    dsimp only
    rw [hsub, padEntry]
    generalize round4^[v5PRounds] (a, b ^^^ UInt64.ofNat e, c, d) = words
    rfl

theorem walk_agrees_zeroTile :
    hostFinal (fun _ => default) 5 zeroTile default 1 =
      .ok (walkValue (pushOf 1 1) zeroTileLook 5 (fun _ => default) (Vector.replicate 512 0)) :=
  (walk_agrees (fun _ => default) 5 zeroTile default 1 zeroTileLook (Vector.replicate 512 0) (by decide)
    (by decide) zeroTileLook_reads).1

end KeryxMiner.Vulkan
