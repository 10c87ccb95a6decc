import KeryxMiner.Pow.Winners
import KeryxMiner.Vulkan.MineAgrees

/-!
# Mining on the device is mining on the host

A winner of the device is handed to the host, which walks it again, proves it and makes the block.
What comes out of a batch of the `v_dot4` build is what the plain loop of the host over its nonces
gives, and no winner is discarded on the way (`mineBlock_eq`).
-/

namespace KeryxMiner

/-- To search and then to make is to make all along, where what is searched for is what can be
made. -/
theorem find?_bind {α β : Type} {p : α → Bool} {g : α → Option β} (h : ∀ x, (g x).isSome = p x)
    (l : List α) : (l.find? p).bind g = l.findSome? g := by
  induction l with
  | nil => rfl
  | cons x l ih =>
    rw [List.find?_cons, List.findSome?_cons, ← ih, ← h x]
    cases hx : g x with
    | none => rfl
    | some y => exact hx

namespace Vulkan

open Pom KeryxMiner.Pow

/-- The pad that a device has loaded. -/
def loadedPad (padSeed : Bytes32) (p : Nat) : Pad := if p = 0 then none else some (padSeed, p)

section

variable {rank : Matrix → Nat} {fuel : Nat} {blake : List UInt8 → Bytes32}
  {headerHash : List UInt8 → Stratum.Uint256} {isTestnet : Bool}
  {miningModel : UInt64 → Option Bytes32} {job : Job} {s : Template} {idx : WeightIndex}
  {tier : UInt8} {padSeed : Bytes32} {p : Nat}

theorem accepts_eq_hostAccepts {nonce : UInt64} :
    s.accepts blake isTestnet idx (loadedPad padSeed p) nonce =
      hostAccepts blake idx padSeed p isTestnet s.pph s.timestamp (leBytes s.target) s.daaScore
        nonce := by
  rw [Template.accepts, hostAccepts, hostFinal, loadedPad]
  generalize pomBlockSeedV4Era isTestnet s.pph s.timestamp nonce s.daaScore = seed
  by_cases hp : p = 0
  · cases hw : walkFinalV4 blake seed idx <;> simp only [if_pos hp, walkFinalEra, hw]
  · cases hw : walkFinalV5 blake seed idx padSeed p <;> simp only [if_neg hp, walkFinalEra, hw]

theorem loadedPad_lt {rT : Bytes32} {daa : UInt64}
    (h : contextPad blake isTestnet miningModel tier rT daa = some (loadedPad padSeed p)) :
    p < 2 ^ 23 := by
  by_cases hp : p = 0
  · rw [hp]
    exact Nat.two_pow_pos 23
  · rw [loadedPad, if_neg hp] at h
    exact (contextPad_bounds h _ rfl).2

/-- The host makes a block of the nonces that it accepts. -/
theorem isSome_generate {nonce : UInt64}
    (hnew : Template.new rank fuel headerHash isTestnet job = some s)
    (hera : pomV4ActivationDaa isTestnet ≤ s.daaScore)
    (hbuilt : idx.Built blake) (hn : 32 < idx.nChunks) (hlt : idx.nChunks < 2 ^ 54)
    (hpad : contextPad blake isTestnet miningModel tier idx.rT s.daaScore =
      some (loadedPad padSeed p)) :
    (s.generateBlockIfPom blake headerHash isTestnet miningModel nonce idx tier none).isSome =
      hostAccepts blake idx padSeed p isTestnet s.pph s.timestamp (leBytes s.target) s.daaScore nonce :=
  (isSome_generateBlockIfPom hnew hbuilt hn hlt hera hpad
    fun _ _ _ => ⟨none, rfl, nofun⟩).trans accepts_eq_hostAccepts

/-- The device finds the first of the nonces that the host accepts. -/
theorem mine_eq_find? {memory : Nat → ChunkWords} {T : SegTable} {walk : PomWalkV4}
    (hlt : idx.nChunks < 2 ^ 54)
    (hpad : contextPad blake isTestnet miningModel tier idx.rT s.daaScore =
      some (loadedPad padSeed p))
    (hloaded : Loaded memory T padSeed p walk) (hresident : Resident memory idx T)
    {start : UInt64} {batch : UInt32} {schedule : Nat → ∀ n, Schedule n} {seeds : List UInt64}
    (hlen : seeds.length = V4_MAX_DISPATCH_NONCES.toNat) :
    walk.mine blake memory (searchJob isTestnet s.pph s.timestamp (leBytes s.target) s.daaScore) start
        batch schedule seeds =
      ((List.range batch.toNat).map fun o => start + UInt64.ofNat o).find? fun nonce =>
        hostAccepts blake idx padSeed p isTestnet s.pph s.timestamp (leBytes s.target) s.daaScore
          nonce := by
  have hfits : idx.nChunks / v4TileChunks + p < 2 ^ 50 := by
    have hsmall := loadedPad_lt hpad
    rw [show v4TileChunks = 32 from rfl]
    omega
  rw [mine_eq hloaded hresident hfits hlen, List.find?_map]
  rfl

/-- **A batch of the device gives the block that the plain loop of the host over its nonces gives**,
and none where that gives none; and the host makes a block of every winner of the device. -/
theorem mineBlock_eq {memory : Nat → ChunkWords} {T : SegTable} {walk : PomWalkV4}
    (hnew : Template.new rank fuel headerHash isTestnet job = some s)
    (hera : pomV4ActivationDaa isTestnet ≤ s.daaScore)
    (hbuilt : idx.Built blake) (hn : 32 < idx.nChunks) (hlt : idx.nChunks < 2 ^ 54)
    (hpad : contextPad blake isTestnet miningModel tier idx.rT s.daaScore =
      some (loadedPad padSeed p))
    (hloaded : Loaded memory T padSeed p walk) (hresident : Resident memory idx T)
    (start : UInt64) (batch : UInt32) (schedule : Nat → ∀ n, Schedule n) {seeds : List UInt64}
    (hlen : seeds.length = V4_MAX_DISPATCH_NONCES.toNat) :
    let found := walk.mine blake memory
      (searchJob isTestnet s.pph s.timestamp (leBytes s.target) s.daaScore) start batch schedule seeds
    let make nonce := s.generateBlockIfPom blake headerHash isTestnet miningModel nonce idx tier none
    found.bind make = ((List.range batch.toNat).map fun o => start + UInt64.ofNat o).findSome? make ∧
      ∀ nonce, found = some nonce → (make nonce).isSome := by
  intro found make
  have hmake (nonce : UInt64) : (make nonce).isSome = hostAccepts blake idx padSeed p isTestnet s.pph
      s.timestamp (leBytes s.target) s.daaScore nonce :=
    isSome_generate hnew hera hbuilt hn hlt hpad
  have hfound : found = _ := mine_eq_find? hlt hpad hloaded hresident hlen
  refine ⟨?_, fun nonce hnonce => ?_⟩
  · rw [hfound]
    exact find?_bind hmake _
  · rw [hmake]
    exact List.find?_some (hfound ▸ hnonce)

end

/-- The 33 chunks of zeros, in one segment. -/
def zeroChunks : SegTable where
  starts := [0, 33]
  addrs := [0]
  length_starts := rfl
  first := rfl
  ascending := by decide
  enough := by decide
  segments := zeroSegment.segments

theorem zeroChunks_resident : Resident (fun _ => (0, 0, 0, 0)) zeroIndex zeroChunks where
  nChunks := (nChunks_zeroTensor heightHash).symm
  chunk s a c ha _ hend := by
    obtain ⟨hs, -⟩ := List.getElem?_eq_some_iff.mp ha
    obtain rfl : s = 0 := Nat.lt_one_iff.mp hs
    have hlen : zeroIndex.chunks.length = 33 := by
      rw [← nChunks_zeroTensor heightHash, ← zeroIndex, zeroIndex_built.nChunks, WeightIndex.leaves,
        List.length_map]
    rw [readChunkBytes_zeroIndex (hlen ▸ hend)]
    rfl

/-- Two dispatches for the easy block. -/
theorem mineBlock_eq_easyBlock : ∃ s walk,
    Template.new (fun _ => 64) 1 addedBytes false easyBlock = some s ∧
    PomWalkV4.withKernel zeroChunks.starts zeroChunks.addrs = some walk ∧
    (walk.mine heightHash (fun _ => (0, 0, 0, 0))
        (searchJob false s.pph s.timestamp (leBytes s.target) s.daaScore) 7 40000 (fun _ => inOrder)
        (List.replicate 32768 0)).bind (fun nonce =>
          s.generateBlockIfPom heightHash addedBytes false (fun _ => none) nonce zeroIndex 3 none) =
      ((List.range 40000).map fun o => 7 + UInt64.ofNat o).findSome? fun nonce =>
        s.generateBlockIfPom heightHash addedBytes false (fun _ => none) nonce zeroIndex 3 none := by
  obtain ⟨s, hnew, -, hdaa, -⟩ := exists_easyTemplate
  have hchunks : zeroIndex.nChunks = 33 := nChunks_zeroTensor heightHash
  have hpad : contextPad heightHash false (fun _ => none) 3 zeroIndex.rT s.daaScore =
      some (loadedPad default 0) := by
    rw [hdaa]
    exact if_neg (by decide)
  obtain ⟨walk, hwalk⟩ : ∃ walk,
      PomWalkV4.withKernel zeroChunks.starts zeroChunks.addrs = some walk := ⟨_, rfl⟩
  exact ⟨s, walk, hnew, hwalk, (mineBlock_eq hnew (hdaa ▸ by decide) zeroIndex_built
    (hchunks ▸ by decide) (hchunks ▸ by decide) hpad (.weights hwalk) zeroChunks_resident 7 40000
    (fun _ => inOrder) List.length_replicate).1⟩

end Vulkan

end KeryxMiner
