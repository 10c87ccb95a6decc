import KeryxMiner.Pom.Lineup
import KeryxMiner.Vulkan.MineBlock
import KeryxMiner.Vulkan.Upload

/-!
# The miner of a device

The device has the weights of one model in its memory, streamed from the model file, and the pad of
one era. When the era of a block wants another model, or the weights were taken away to make room for
inference, they are installed again before the block is mined; a pad is filled again when it is of
another seed or size or was released. Between the batches the rest of the process takes the walk or
its pad away and writes elsewhere in the memory. The walks are those of the `v_dot4` build.
-/

namespace KeryxMiner.Vulkan

open Pom ByteMemory KeryxMiner.Pow

/-! ## The memory of a device -/

/-- The memory, with the buffers of the shards and those of the pad. -/
structure Vk where
  memory : Nat → UInt8
  shards : List Region
  pad : List Region

/-- Something else writes to the memory, outside of the buffers. -/
def Vk.scribble (vk : Vk) (m : Nat → UInt8) : Vk :=
  { vk with
    memory := fun x => if ∃ r ∈ vk.shards ++ vk.pad, r.addr ≤ x ∧ x < r.addr + r.size
      then vk.memory x else m x }

structure V5Walk where
  seed : PadWords
  pad : PadV5
  walk : PomWalkV4

structure PomWalkGpu where
  vk : Vk
  starts : List Nat
  addrs : List Nat
  v4 : PomWalkV4
  v5 : Option V5Walk

/-- What the outside decides in a search: where the pad is put, in which order each dispatch of its
fill and of the search runs, and what is in the buffer of the seeds. -/
structure Outside where
  alloc : Nat → Option Nat
  order : FillPush → List (Nat × List UInt8)
  schedule : Nat → ∀ n, Schedule n
  seeds : List UInt64
  order_perm : ∀ push, (order push).Perm (fillWrites push)
  length_seeds : seeds.length = V4_MAX_DISPATCH_NONCES.toNat

/-- The shards that are left are streamed one by one, each into a buffer that meets none before it. -/
def streamShards (ix : SourcedIndex) (alloc : Nat → Option Nat) :
    (left : Nat) → Vk → List Nat → Option (Vk × List Nat)
  | 0, vk, addrs => some (vk, addrs)
  | left + 1, vk, addrs => do
    let addr ← alloc addrs.length
    let region : Region := ⟨addr, shardBytes ix.nChunks SHARD_CHUNKS addrs.length⟩
    if ∀ r ∈ vk.shards, r.Apart region then
      let copies ← shardCopies ix.nChunks SHARD_CHUNKS ix.source addrs.length addr
      streamShards ix alloc left
        { vk with memory := writeAll vk.memory copies, shards := vk.shards ++ [region] }
        (addrs ++ [addr])
    else none

namespace PomWalkGpu

def newStreamed (ix : SourcedIndex) (alloc : Nat → Option Nat) (memory : Nat → UInt8) :
    Option PomWalkGpu := do
  let starts := shardPrefix ix.nChunks SHARD_CHUNKS
  let (vk, addrs) ← streamShards ix alloc (nShards ix.nChunks SHARD_CHUNKS) ⟨memory, [], []⟩ []
  let v4 ← PomWalkV4.withKernel starts addrs
  some ⟨vk, starts, addrs, v4, none⟩

variable (gpu : PomWalkGpu)

def releasePad : PomWalkGpu := { gpu with vk := { gpu.vk with pad := [] }, v5 := none }

/-- A pad is filled in buffers that meet none of the shards. -/
def fillPad (seed : PadWords) (tiles : Nat) (out : Outside) : Option PomWalkGpu := do
  let (pad, pushes) ← PadV5.fill out.alloc seed tiles
  if pad.regions.Pairwise Region.Apart ∧ ∀ r ∈ gpu.vk.shards, ∀ t ∈ pad.regions, r.Apart t then
    let walk ← PomWalkV4.withKernelV5 gpu.starts gpu.addrs pad
    some { gpu with
      vk := { gpu.vk with
        memory := writeAll gpu.vk.memory (pushes.flatMap out.order)
        pad := pad.regions }
      v5 := some ⟨seed, pad, walk⟩ }
  else none

/-- The walk with the pad of `mine_v5_with`: the one there is, if it is of the seed and the size. -/
def withPad (seed : PadWords) (tiles : Nat) (out : Outside) : PomWalkGpu :=
  match gpu.v5.filter fun w => w.seed = seed ∧ w.pad.tiles = tiles with
  | some _ => gpu
  | none => (gpu.releasePad.fillPad seed tiles out).getD gpu.releasePad

end PomWalkGpu

/-! ## Batches -/

/-- What stays the same while the miner runs. -/
structure Rig where
  blake : List UInt8 → Bytes32
  headerHash : List UInt8 → Stratum.Uint256
  isTestnet : Bool
  tier : Tier
  h15 : Option Tier

def Rig.miningModel (rig : Rig) (daa : UInt64) : Option ModelSpec :=
  Pom.miningModel rig.isTestnet rig.tier rig.h15 daa

/-- The nonces of a template that are to be searched. -/
structure Batch (rig : Rig) where
  template : Template
  made : ∃ rank fuel job, Template.new rank fuel rig.headerHash rig.isTestnet job = some template
  start : UInt64
  count : UInt32

namespace Batch

variable {rig : Rig} (b : Batch rig)

def daa : UInt64 := b.template.daaScore

def job : SearchJob :=
  searchJob rig.isTestnet b.template.pph b.template.timestamp (leBytes b.template.target)
    b.template.daaScore

def nonces : List UInt64 := (List.range b.count.toNat).map fun o => b.start + UInt64.ofNat o

/-- The block that the host makes of a nonce. -/
def generate (idx : WeightIndex) (tier : UInt8) (nonce : UInt64) : Option BlockSeed :=
  b.template.generateBlockIfPom rig.blake rig.headerHash rig.isTestnet
    (fun daa => (rig.miningModel daa).map (·.modelId)) nonce idx tier none

end Batch

/-! ## The miner -/

/-- The indices that have been built, and the walk that is installed with the model it is for. -/
structure Device (rig : Rig) where
  indices : List (Bytes32 × SourcedIndex)
  installed : Option (Bytes32 × PomWalkGpu)

/-- How a batch ends. -/
inductive Outcome
  | notInstalled
  | tooEarly
  | noPad
  | padFailed
  | mined (found : Option UInt64) (block : Option BlockSeed)

/-- The check of an index against the weights that the network pins. -/
def anchored (modelId : Bytes32) (ix : SourcedIndex) : Bool :=
  match pinnedPomAnchor modelId with
  | some anchor => ix.nChunks = anchor.chunks ∧ ix.rT = anchor.root
  | none => true

/-- The model file and the places of its tensors, and where the shards are put. -/
structure Install where
  gguf : Option (List UInt8 × List (Nat × Nat))
  alloc : Nat → Option Nat
  memory : Nat → UInt8

namespace Device

variable {rig : Rig} (s : Device rig)

def indexFor (modelId : Bytes32) : Option SourcedIndex :=
  (s.indices.find? fun p => p.1 = modelId).map (·.2)

/-- The pad of the tier that is mined at a score. -/
def v5Pad (daa : UInt64) : Option (PadWords × Nat) :=
  if daa < pomV5ActivationDaa rig.isTestnet then none
  else do
    let spec ← rig.miningModel daa
    let tier ← pomTierIndex rig.isTestnet spec.modelId daa
    let ix ← s.indexFor spec.modelId
    let tiles := pomV5PadTiles rig.isTestnet tier daa
    if tiles = 0 then none
    else some (v5PadSeedWords (v5PadSeed rig.blake tier spec.modelId ix.rT), tiles)

def miningIndex (daa : UInt64) : Option (SourcedIndex × UInt8) := do
  let spec ← rig.miningModel daa
  let tier ← pomTierIndex rig.isTestnet spec.modelId daa
  let ix ← s.indexFor spec.modelId
  some (ix, tier)

def isInstalled (daa : UInt64) : Bool :=
  match rig.miningModel daa with
  | none => false
  | some spec => s.installed.any fun p => p.1 = spec.modelId

/-- `get_or_build_index`; an index of other weights than those that are pinned is refused. -/
def getOrBuildIndex (modelId : Bytes32) (gguf : Option (List UInt8 × List (Nat × Nat))) : Device rig :=
  if (s.indexFor modelId).isSome then s
  else
    match (gguf.bind fun g => buildFromGguf rig.blake g.1 g.2).filter (anchored modelId) with
    | none => s
    | some ix => { s with indices := s.indices ++ [(modelId, ix)] }

/-- The walk of another model leaves the memory, and the index is built if there is none. -/
def makeReady (spec : ModelSpec) (daa : UInt64) (i : Install) : Device rig :=
  let s := { s with installed := s.installed.filter fun p => p.1 = spec.modelId }
  if (pomTierIndex rig.isTestnet spec.modelId daa).isNone then s
  else s.getOrBuildIndex spec.modelId i.gguf

def ensureInstalledInner (daa : UInt64) (i : Install) : Device rig :=
  match rig.miningModel daa with
  | none => s
  | some spec =>
    let s := s.makeReady spec daa i
    match (s.indexFor spec.modelId).bind fun ix => PomWalkGpu.newStreamed ix i.alloc i.memory with
    | none => s
    | some gpu => { s with installed := some (spec.modelId, gpu) }

def ensureInstalled (daa : UInt64) (i : Install) : Device rig :=
  if s.isInstalled daa then s else s.ensureInstalledInner daa i

/-- `mine_v4`, and what the worker makes of its result. -/
def search (b : Batch rig) (out : Outside) : Device rig × Outcome :=
  match s.installed with
  | none => (s, .notInstalled)
  | some (modelId, gpu) =>
    let mined walk memory :=
      let found := PomWalkV4.mine rig.blake walk (chunkAt memory) b.job b.start b.count out.schedule
        out.seeds
      Outcome.mined found (found.bind fun nonce =>
        (s.miningIndex b.daa).bind fun p => b.generate p.1.toWeightIndex p.2 nonce)
    if b.daa < pomV5ActivationDaa rig.isTestnet then (s, mined gpu.v4 gpu.vk.memory)
    else
      match s.v5Pad b.daa with
      | none => (s, .noPad)
      | some (seed, tiles) =>
        let gpu := gpu.withPad seed tiles out
        ({ s with installed := some (modelId, gpu) },
          match gpu.v5 with
          | none => .padFailed
          | some w => mined w.walk gpu.vk.memory)

/-- A batch in the loop of the worker. -/
def work (b : Batch rig) (i : Install) (out : Outside) : Device rig × Outcome :=
  let s := s.ensureInstalled b.daa i
  if ¬s.isInstalled b.daa then (s, .notInstalled)
  else if b.daa < pomV4ActivationDaa rig.isTestnet then (s, .tooEarly)
  else s.search b out

end Device

/-- What happens to a device. The indices are those of the process: another device's worker may build
one. -/
inductive Event (rig : Rig)
  | work (b : Batch rig) (i : Install) (out : Outside)
  | buildIndex (modelId : Bytes32) (gguf : Option (List UInt8 × List (Nat × Nat)))
  | uninstall
  | releasePad
  | scribble (m : Nat → UInt8)

def Device.step {rig : Rig} (s : Device rig) : Event rig → Device rig
  | .work b i out => (s.work b i out).1
  | .buildIndex modelId gguf => s.getOrBuildIndex modelId gguf
  | .uninstall => { s with installed := none }
  | .releasePad => { s with installed := s.installed.map fun p => (p.1, p.2.releasePad) }
  | .scribble m =>
    { s with installed := s.installed.map fun p => (p.1, { p.2 with vk := p.2.vk.scribble m }) }

def Device.run {rig : Rig} (evs : List (Event rig)) : Device rig := evs.foldl Device.step ⟨[], none⟩

/-! ## What holds of a walk -/

/-- The pad of the slot is in the memory, where its walk looks for it. -/
structure V5Ok (gpu : PomWalkGpu) (w : V5Walk) : Prop where
  filled : ∃ alloc pushes, PadV5.fill alloc w.seed w.pad.tiles = some (w.pad, pushes) ∧
    PadFilled gpu.vk.memory w.pad pushes
  regions : gpu.vk.pad = w.pad.regions
  apart : w.pad.regions.Pairwise Region.Apart
  walk : PomWalkV4.withKernelV5 gpu.starts gpu.addrs w.pad = some w.walk

/-- The memory has the weights of an index, where the walk looks for them, and the pad. -/
structure GpuOk (gpu : PomWalkGpu) (ix : SourcedIndex) : Prop where
  streamed : Streamed gpu.vk.memory gpu.vk.shards ix SHARD_CHUNKS gpu.addrs
  starts : gpu.starts = shardPrefix ix.nChunks SHARD_CHUNKS
  v4 : PomWalkV4.withKernel gpu.starts gpu.addrs = some gpu.v4
  v5 : ∀ w ∈ gpu.v5, V5Ok gpu w

namespace GpuOk

variable {gpu gpu' : PomWalkGpu} {ix : SourcedIndex} {seed : PadWords} {tiles : Nat} {out : Outside}

theorem releasePad (h : GpuOk gpu ix) : GpuOk gpu.releasePad ix := ⟨h.streamed, h.starts, h.v4, nofun⟩

theorem fillPad (h : GpuOk gpu ix) (hfill : gpu.fillPad seed tiles out = some gpu') :
    GpuOk gpu' ix ∧ ∃ w, gpu'.v5 = some w ∧ w.seed = seed ∧ w.pad.tiles = tiles := by
  obtain ⟨⟨pad, pushes⟩, hpad, hfill⟩ := Option.bind_eq_some_iff.mp hfill
  dsimp only at hfill
  split at hfill
  · next happart =>
    obtain ⟨hpairs, hshards⟩ := happart
    obtain ⟨walk, hwalk, hsome⟩ := Option.bind_eq_some_iff.mp hfill
    obtain rfl := Option.some.inj hsome
    obtain rfl : pad.tiles = tiles := (fill_eq_some hpad).1
    have hperm : (pushes.flatMap out.order).Perm (pushes.flatMap fillWrites) :=
      List.Perm.flatMap_left pushes fun push _ => out.order_perm push
    refine ⟨⟨h.streamed.frame fun v hv => ?_, h.starts, h.v4, ?_⟩, _, rfl, rfl, rfl⟩
    · obtain ⟨-, ⟨t, ht, hin⟩, -⟩ := fillWrites_spec hpad hpairs v (hperm.mem_iff.mp hv)
      exact ⟨t, hin, fun r hr => hshards r hr t ht⟩
    · rintro w ⟨⟩
      exact ⟨⟨_, _, hpad, padFilled_writeAll hpad hpairs hperm⟩, rfl, hpairs, hwalk⟩
  · cases hfill

theorem withPad (h : GpuOk gpu ix) : GpuOk (gpu.withPad seed tiles out) ix ∧
    ∀ w ∈ (gpu.withPad seed tiles out).v5, w.seed = seed ∧ w.pad.tiles = tiles := by
  rw [PomWalkGpu.withPad]
  split
  · next w hw =>
    obtain ⟨hv5, hsame⟩ := Option.filter_eq_some_iff.mp hw
    refine ⟨h, fun w' hw' => ?_⟩
    obtain rfl := Option.some.inj (hv5.symm.trans hw')
    exact of_decide_eq_true hsame
  · cases hfill : gpu.releasePad.fillPad seed tiles out with
    | none => exact ⟨h.releasePad, nofun⟩
    | some gpu' =>
      obtain ⟨hok, w, hw, hsame⟩ := h.releasePad.fillPad hfill
      refine ⟨hok, fun w' hw' => ?_⟩
      obtain rfl := Option.some.inj (hw.symm.trans hw')
      exact hsame

theorem scribble (h : GpuOk gpu ix) (m : Nat → UInt8) :
    GpuOk { gpu with vk := gpu.vk.scribble m } ix := by
  have hsame (r : Region) (hr : r ∈ gpu.vk.shards ++ gpu.vk.pad) (x : Nat) (hx : r.Has x) :
      (gpu.vk.scribble m).memory x = gpu.vk.memory x := if_pos ⟨r, hr, hx⟩
  refine ⟨h.streamed.congr fun r hr => hsame r (List.mem_append_left _ hr), h.starts, h.v4, ?_⟩
  intro w hw
  obtain ⟨⟨alloc, pushes, hfill, hfilled⟩, hregions, hapart, hwalk⟩ := h.v5 w hw
  refine ⟨⟨alloc, pushes, hfill, fun v hv => (hfilled v hv).congr fun r hr => ?_⟩, hregions, hapart,
    hwalk⟩
  exact hsame r (List.mem_append_right _ (hregions ▸ hr))

/-- The weights are resident, and the walk over them is loaded. -/
theorem loaded (h : GpuOk gpu ix) : ∃ T : SegTable, T.starts = gpu.starts ∧ T.addrs = gpu.addrs ∧
    Resident (chunkAt gpu.vk.memory) ix.toWeightIndex T ∧
      ∀ padSeed, Loaded (chunkAt gpu.vk.memory) T padSeed 0 gpu.v4 := by
  obtain ⟨hstarts, haddrs, -, -⟩ := withTables_eq_some h.v4
  refine ⟨gpu.v4.table, hstarts, haddrs, ?_, fun _ => .weights ?_⟩
  · exact h.streamed.resident (by decide) (hstarts.trans h.starts) haddrs
  · rw [hstarts, haddrs]
    exact h.v4

end GpuOk

theorem V5Ok.loaded {gpu : PomWalkGpu} {w : V5Walk} {T : SegTable} {padSeed : Bytes32} (h : V5Ok gpu w)
    (hstarts : T.starts = gpu.starts) (haddrs : T.addrs = gpu.addrs)
    (hseed : w.seed = v5PadSeedWords padSeed) :
    Loaded (chunkAt gpu.vk.memory) T padSeed w.pad.tiles w.walk := by
  obtain ⟨alloc, pushes, hfill, hfilled⟩ := h.filled
  refine hfilled.loaded (hseed ▸ hfill) h.apart ?_
  rw [hstarts, haddrs]
  exact h.walk

theorem streamShards_spec {ix : SourcedIndex} {alloc : Nat → Option Nat} {left : Nat} {vk vk' : Vk}
    {addrs addrs' : List Nat} (h : Streamed vk.memory vk.shards ix SHARD_CHUNKS addrs)
    (hleft : addrs.length + left = nShards ix.nChunks SHARD_CHUNKS)
    (hsome : streamShards ix alloc left vk addrs = some (vk', addrs')) :
    Streamed vk'.memory vk'.shards ix SHARD_CHUNKS addrs' := by
  induction left generalizing vk addrs with
  | zero =>
    cases hsome
    exact h
  | succ left ih =>
    obtain ⟨addr, -, hsome⟩ := Option.bind_eq_some_iff.mp hsome
    dsimp only at hsome
    split at hsome
    · next hapart =>
      obtain ⟨copies, hcopies, hsome⟩ := Option.bind_eq_some_iff.mp hsome
      have hmore : addrs.length * SHARD_CHUNKS ≤ ix.nChunks := by
        have hpos : 0 < SHARD_CHUNKS := by decide
        have hdiv := Nat.div_mul_le_self (ix.nChunks + SHARD_CHUNKS - 1) SHARD_CHUNKS
        have hshard : addrs.length + 1 ≤ nShards ix.nChunks SHARD_CHUNKS := by omega
        have hmul := Nat.mul_le_mul_right SHARD_CHUNKS hshard
        rw [← nShards] at hdiv
        rw [Nat.succ_mul] at hmul
        omega
      refine ih (h.push hmore hcopies hapart) ?_ hsome
      rw [List.length_append, List.length_singleton]
      omega
    · cases hsome

theorem newStreamed_ok {ix : SourcedIndex} {alloc : Nat → Option Nat} {memory : Nat → UInt8}
    {gpu : PomWalkGpu} (h : PomWalkGpu.newStreamed ix alloc memory = some gpu) : GpuOk gpu ix := by
  obtain ⟨⟨vk, addrs⟩, hstream, h⟩ := Option.bind_eq_some_iff.mp h
  obtain ⟨v4, hv4, hsome⟩ := Option.bind_eq_some_iff.mp h
  obtain rfl := Option.some.inj hsome
  exact ⟨streamShards_spec (fun _ _ _ ha => by cases ha) (Nat.zero_add _) hstream, rfl, hv4, nofun⟩

end KeryxMiner.Vulkan
