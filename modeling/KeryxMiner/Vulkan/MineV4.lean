import KeryxMiner.Pom.Eras
import KeryxMiner.Vulkan.Khh
import KeryxMiner.Vulkan.PadV5
import KeryxMiner.Vulkan.SeedV4
import KeryxMiner.Vulkan.WalkV4

/-!
# The search on the device

A batch of nonces is searched in dispatches of a bounded size. Each of them fills the seeds of its
nonces, walks them, and brings the lowest nonce whose value is within the target together by an
atomic minimum. The walk is the build of the shader for packed dot products; the one for matrix cores,
which a walk is made with only after its answers were checked against this one, is left out.
-/

namespace KeryxMiner.Vulkan

open Pom

/-! ## The walk over a table -/

/-- The table of the segments, and the tiles of the weights and of the pad in it, walked by the
`v_dot4` build. -/
structure PomWalkV4 where
  table : SegTable
  nTiles : UInt64
  nPad : UInt64

namespace PomWalkV4

def withTables (starts addrs : List Nat) (nTiles nPad : Nat) : Option PomWalkV4 :=
  if h : (addrs.length ≠ 0 ∧ starts.length = addrs.length + 1 ∧ starts.head? = some 0) ∧
      starts.IsChain (· ≤ ·) ∧ nTiles ≠ 0 ∧
      (nTiles + nPad) * V4_TILE_CHUNKS ≤ starts.getLastD 0 ∧ addrs.length ≤ 2 ^ 31 then
    some
      { table :=
          { starts
            addrs
            length_starts := h.1.2.1
            first := h.1.2.2
            ascending := List.isChain_iff_pairwise.mp h.2.1
            enough := (Nat.le_mul_of_pos_left V4_TILE_CHUNKS
              (Nat.add_pos_left (Nat.pos_of_ne_zero h.2.2.1) nPad)).trans h.2.2.2.1
            segments := h.2.2.2.2 }
        nTiles := UInt64.ofNat nTiles
        nPad := UInt64.ofNat nPad }
  else none

def withKernel (starts addrs : List Nat) : Option PomWalkV4 :=
  withTables starts addrs (starts.getLastD 0 / V4_TILE_CHUNKS) 0

def withKernelV5 (starts addrs : List Nat) (pad : PadV5) : Option PomWalkV4 :=
  if addrs.isEmpty ∨ starts.length ≠ addrs.length + 1 then none
  else
    let (p, a, weightTiles) := pad.tables starts addrs
    withTables p a weightTiles pad.tiles

/-- The words of a chunk, in a memory that has four words at an address. -/
def look (walk : PomWalkV4) (memory : Nat → ChunkWords) (c : UInt64) : ChunkWords :=
  ((walk.table.chunkPtr c.toNat).map memory).getD (0, 0, 0, 0)

end PomWalkV4

/-! ## A dispatch -/

def words4 (b : Bytes32) : Words := Vector.ofFn fun i => word64 (b.toList.drop (i * 8))

/-- What the search is told of a block. -/
structure SearchJob extends V4Job where
  targetLe : Bytes32

attribute [local instance] Pow.neZero_four

/-- The value of a walk brought in where it is within the target. -/
def report (p t : Words) (fin : UInt64) (i low : UInt32) : UInt32 :=
  let o0 := mix64 (fin ^^^ p.get 0 ^^^ 0x9E3779B97F4A7C15)
  let o1 := mix64 (o0 ^^^ p.get 1 ^^^ 0xC2B2AE3D27D4EB4F)
  let o2 := mix64 (o1 ^^^ p.get 2 ^^^ 0x165667B19E3779F9)
  let o3 := mix64 (o2 ^^^ p.get 3 ^^^ 0xD6E8FEB86659FD93)
  let le : Bool :=
    if o3 ≠ t.get 3 then o3 < t.get 3
    else if o2 ≠ t.get 2 then o2 < t.get 2
    else if o1 ≠ t.get 1 then o1 < t.get 1
    else o0 ≤ t.get 0
  if le then if i < low then i else low
  else low

/-- How the invocations of a dispatch for `n` nonces run: in which order, and on what the shared
memory of each nonce has before it. -/
structure Schedule (n : UInt32) where
  seedIds : List UInt32
  walkIds : List UInt32
  lds : UInt32 → Vector UInt32 512
  seedIds_perm : seedIds.Perm (invocations n)
  walkIds_perm : walkIds.Perm ((List.range n.toNat).map UInt32.ofNat)

/-- A dispatch has at least one nonce, and no more than are left. -/
theorem dispatch_size {done batch : UInt32} (h : done < batch) :
    (min (batch - done) V4_MAX_DISPATCH_NONCES).toNat =
        min (batch.toNat - done.toNat) V4_MAX_DISPATCH_NONCES.toNat ∧
      (done + min (batch - done) V4_MAX_DISPATCH_NONCES).toNat =
        done.toNat + min (batch.toNat - done.toNat) V4_MAX_DISPATCH_NONCES.toNat ∧
      0 < min (batch.toNat - done.toNat) V4_MAX_DISPATCH_NONCES.toNat := by
  have hlt := UInt32.lt_iff_toNat_lt.mp h
  have hbatch := batch.toNat_lt
  have hsub := UInt32.toNat_sub_of_le batch done (UInt32.le_iff_toNat_le.mpr hlt.le)
  have hmin : (min (batch - done) V4_MAX_DISPATCH_NONCES).toNat =
      min (batch.toNat - done.toNat) V4_MAX_DISPATCH_NONCES.toNat := by
    change (if batch - done ≤ V4_MAX_DISPATCH_NONCES then batch - done
      else V4_MAX_DISPATCH_NONCES).toNat = _
    split
    · next hle => rw [hsub, Nat.min_eq_left (hsub ▸ UInt32.le_iff_toNat_le.mp hle)]
    · next hgt =>
      have hge := hsub ▸ UInt32.lt_iff_toNat_lt.mp (UInt32.not_le.mp hgt)
      exact (Nat.min_eq_right hge.le).symm
  have hpos : 0 < V4_MAX_DISPATCH_NONCES.toNat := by decide
  refine ⟨hmin, ?_, by omega⟩
  rw [UInt32.toNat_add, hmin]
  omega

section

variable (blake : List UInt8 → Bytes32) (walk : PomWalkV4) (memory : Nat → ChunkWords)
  (job : SearchJob)

/-- The workgroup of the nonce with number `i`, over the lowest winner so far. -/
def walkMain (n : UInt32) (seeds : List UInt64) (lds : UInt32 → Vector UInt32 512)
    (low i : UInt32) : UInt32 :=
  let seed := seeds.getD (min i (n - 1)).toNat 0
  let fin := walkValue (walkPush walk.nTiles walk.nPad) (walk.look memory) seed blake (lds i)
  if i < n then report job.powWords (words4 job.targetLe) fin i low else low

/-- The lowest winner of a dispatch, and the seeds behind it. -/
def dispatch (start : UInt64) (n : UInt32) (s : Schedule n) (seeds : List UInt64) :
    UInt32 × List UInt64 :=
  let seeds := seedPass job.toV4Job start n s.seedIds seeds
  (s.walkIds.foldl (walkMain blake walk memory job n seeds s.lds) NO_WINNER, seeds)

/-- The dispatches of a batch from number `k` on, of which `done` nonces have been searched. -/
def mineFrom (start : UInt64) (batch : UInt32) (schedule : Nat → ∀ n, Schedule n) (k : Nat)
    (done : UInt32) (seeds : List UInt64) : Option UInt64 :=
  if done < batch then
    let sub := min (batch - done) V4_MAX_DISPATCH_NONCES
    let d := dispatch blake walk memory job (start + done.toUInt64) sub (schedule k sub) seeds
    if d.1 ≠ NO_WINNER then some (start + (done.toUInt64 + d.1.toUInt64))
    else mineFrom start batch schedule (k + 1) (done + sub) d.2
  else none
termination_by batch.toNat - done.toNat
decreasing_by
  rename_i h _
  have hlt := UInt32.lt_iff_toNat_lt.mp h
  obtain ⟨-, hnext, hpos⟩ := dispatch_size h
  rw [hnext]
  omega

def PomWalkV4.mine (start : UInt64) (batch : UInt32) (schedule : Nat → ∀ n, Schedule n)
    (seeds : List UInt64) : Option UInt64 :=
  mineFrom blake walk memory job start batch schedule 0 0 seeds

end

/-- The job of `mine_v4` for a block. -/
def searchJob (isTestnet : Bool) (prePowHash : Bytes32) (timestamp : UInt64) (targetLe : Bytes32)
    (daa : UInt64) : SearchJob where
  powWords := pphWordsForEra prePowHash true
  seedWords := pphWordsV4 prePowHash
  timestamp := timestamp
  h10State := pomSeedStateV4Era isTestnet prePowHash timestamp daa
  targetLe := targetLe

end KeryxMiner.Vulkan
