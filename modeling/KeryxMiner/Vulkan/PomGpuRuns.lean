import KeryxMiner.Vulkan.PomGpu

/-!
# Runs of a device

The index that a walk is over is of the weights that the network pins, and the memory has these
weights and the pad of the walk, whatever has gone on. So a batch that the `v_dot4` build searches gives
what the host gives (`work_right`).
-/

namespace KeryxMiner.Vulkan

open Pom KeryxMiner.Pow

namespace Device

variable {rig : Rig} {s : Device rig}

/-- The indices are of the weights that the network pins, and the walk is over one of them. -/
structure Ok (s : Device rig) : Prop where
  built : ∀ p ∈ s.indices, p.2.Built rig.blake
  anchored : ∀ p ∈ s.indices, anchored p.1 p.2 = true
  installed : ∀ p ∈ s.installed, ∃ ix, s.indexFor p.1 = some ix ∧ GpuOk p.2 ix

theorem indexFor_mem {modelId : Bytes32} {ix : SourcedIndex} (h : s.indexFor modelId = some ix) :
    (modelId, ix) ∈ s.indices := by
  obtain ⟨⟨modelId', ix'⟩, hfind, rfl⟩ := Option.map_eq_some_iff.mp h
  obtain rfl : modelId' = modelId := by simpa using List.find?_some hfind
  exact List.mem_of_find?_eq_some hfind

/-- An index that is there stays. -/
theorem indexFor_append {e : Bytes32 × SourcedIndex} {modelId : Bytes32} {ix : SourcedIndex}
    (h : s.indexFor modelId = some ix) :
    ({ s with indices := s.indices ++ [e] } : Device rig).indexFor modelId = some ix := by
  obtain ⟨p, hfind, hix⟩ := Option.map_eq_some_iff.mp h
  rw [indexFor, List.find?_append, hfind, Option.some_or, Option.map_some, hix]

namespace Ok

theorem setInstalled (h : Ok s) {o : Option (Bytes32 × PomWalkGpu)}
    (ho : ∀ p ∈ o, ∃ ix, s.indexFor p.1 = some ix ∧ GpuOk p.2 ix) :
    Ok ({ s with installed := o } : Device rig) :=
  ⟨h.built, h.anchored, ho⟩

theorem mapInstalled (h : Ok s) {f : PomWalkGpu → PomWalkGpu}
    (hf : ∀ gpu ix, GpuOk gpu ix → GpuOk (f gpu) ix) :
    Ok ({ s with installed := s.installed.map fun p => (p.1, f p.2) } : Device rig) := by
  refine h.setInstalled fun p hp => ?_
  obtain ⟨q, hq, rfl⟩ := Option.map_eq_some_iff.mp hp
  obtain ⟨ix, hix, hgpu⟩ := h.installed q hq
  exact ⟨ix, hix, hf _ _ hgpu⟩

theorem getOrBuildIndex (h : Ok s) (modelId : Bytes32)
    (gguf : Option (List UInt8 × List (Nat × Nat))) : Ok (s.getOrBuildIndex modelId gguf) := by
  rw [Device.getOrBuildIndex]
  split
  · exact h
  · split
    · exact h
    · next ix hix =>
      obtain ⟨hbuild, hanchored⟩ := Option.filter_eq_some_iff.mp hix
      obtain ⟨g, -, hbuild⟩ := Option.bind_eq_some_iff.mp hbuild
      refine ⟨?_, ?_, fun p hp => ?_⟩
      · exact List.forall_mem_append.mpr
          ⟨h.built, List.forall_mem_singleton.mpr (built_of_buildFromGguf hbuild)⟩
      · exact List.forall_mem_append.mpr ⟨h.anchored, List.forall_mem_singleton.mpr hanchored⟩
      · obtain ⟨ix', hix', hgpu⟩ := h.installed p hp
        exact ⟨ix', indexFor_append hix', hgpu⟩

theorem makeReady (h : Ok s) (spec : ModelSpec) (daa : UInt64) (i : Install) :
    Ok (s.makeReady spec daa i) := by
  have hdropped :
      Ok ({ s with installed := s.installed.filter fun p => p.1 = spec.modelId } : Device rig) :=
    h.setInstalled fun p hp => h.installed p (Option.filter_eq_some_iff.mp hp).1
  rw [Device.makeReady]
  split
  · exact hdropped
  · exact hdropped.getOrBuildIndex _ _

theorem ensureInstalled (h : Ok s) (daa : UInt64) (i : Install) : Ok (s.ensureInstalled daa i) := by
  rw [Device.ensureInstalled, Device.ensureInstalledInner]
  split
  · exact h
  · split
    · exact h
    · next spec _ =>
      have hready := h.makeReady spec daa i
      dsimp only
      split
      · exact hready
      · next gpu hgpu =>
        obtain ⟨ix, hix, hnew⟩ := Option.bind_eq_some_iff.mp hgpu
        refine hready.setInstalled ?_
        rintro p ⟨⟩
        exact ⟨ix, hix, newStreamed_ok hnew⟩

theorem search (h : Ok s) (b : Batch rig) (out : Outside) : Ok (s.search b out).1 := by
  rw [Device.search]
  split
  · exact h
  · next modelId gpu hgpu =>
    obtain ⟨ix, hix, hok⟩ := h.installed _ hgpu
    dsimp only
    split
    · exact h
    · split
      · exact h
      · refine h.setInstalled ?_
        rintro p ⟨⟩
        exact ⟨ix, hix, hok.withPad.1⟩

theorem work (h : Ok s) (b : Batch rig) (i : Install) (out : Outside) : Ok (s.work b i out).1 := by
  have hensured := h.ensureInstalled b.daa i
  rw [Device.work]
  split
  · exact hensured
  · split
    · exact hensured
    · exact hensured.search b out

theorem step (h : Ok s) (ev : Event rig) : Ok (s.step ev) := by
  cases ev with
  | work b i out => exact h.work b i out
  | buildIndex modelId gguf => exact h.getOrBuildIndex modelId gguf
  | uninstall => exact h.setInstalled nofun
  | releasePad => exact h.mapInstalled fun _ _ hgpu => hgpu.releasePad
  | scribble m => exact h.mapInstalled fun _ _ hgpu => hgpu.scribble m

end Ok

theorem ok_run (evs : List (Event rig)) : Ok (Device.run evs) := by
  have hstart : Ok (⟨[], none⟩ : Device rig) := ⟨nofun, nofun, nofun⟩
  rw [Device.run]
  generalize (⟨[], none⟩ : Device rig) = s at *
  induction evs generalizing s with
  | nil => exact hstart
  | cons ev evs ih => exact ih _ (hstart.step ev)

/-- What the outcome of a batch says, where `s` is what the installation left. -/
def Right (s : Device rig) (b : Batch rig) (i : Install) (out : Outside) : Outcome → Prop
  | .notInstalled => ∀ spec, rig.miningModel b.daa = some spec →
      (s.indexFor spec.modelId).bind (fun ix => PomWalkGpu.newStreamed ix i.alloc i.memory) = none
  | .tooEarly => b.daa < pomV4ActivationDaa rig.isTestnet
  | .noPad => False
  | .padFailed => ∃ modelId gpu seed tiles, s.installed = some (modelId, gpu) ∧
      s.v5Pad b.daa = some (seed, tiles) ∧ gpu.releasePad.fillPad seed tiles out = none
  | .mined found block => ∃ ix tier, s.miningIndex b.daa = some (ix, tier) ∧
      block = found.bind (b.generate ix.toWeightIndex tier) ∧
      block = b.nonces.findSome? (b.generate ix.toWeightIndex tier) ∧
      ∀ nonce, found = some nonce → block.isSome

theorem isInstalled_iff {daa : UInt64} : s.isInstalled daa ↔
    ∃ spec gpu, rig.miningModel daa = some spec ∧ s.installed = some (spec.modelId, gpu) := by
  rw [isInstalled]
  cases rig.miningModel daa with
  | none => simp
  | some spec =>
    cases s.installed with
    | none => simp
    | some p => simp [Prod.ext_iff]

theorem withPad_v5_none {gpu : PomWalkGpu} {seed : PadWords} {tiles : Nat} {out : Outside}
    {ix : SourcedIndex} (h : GpuOk gpu ix) (hnone : (gpu.withPad seed tiles out).v5 = none) :
    gpu.releasePad.fillPad seed tiles out = none := by
  rw [PomWalkGpu.withPad] at hnone
  split at hnone
  · next hw =>
    rw [hnone] at hw
    cases hw
  · cases hfill : gpu.releasePad.fillPad seed tiles out with
    | none => rfl
    | some gpu' =>
      obtain ⟨-, w, hw, -⟩ := h.releasePad.fillPad hfill
      rw [hfill, Option.getD_some, hw] at hnone
      cases hnone

/-- A batch on a device that walks the weights of an index gives the block of the host. -/
theorem mined_right {b : Batch rig} {i : Install} {out : Outside} {ix : SourcedIndex} {tier : UInt8}
    {p : Nat} {padSeed : Bytes32} {memory : Nat → UInt8} {T : SegTable} {walk : PomWalkV4}
    (hera : pomV4ActivationDaa rig.isTestnet ≤ b.daa) (hbuilt : ix.Built rig.blake)
    (hlow : 32 < ix.nChunks) (hhigh : ix.nChunks < 2 ^ 54)
    (hpad : contextPad rig.blake rig.isTestnet (fun daa => (rig.miningModel daa).map (·.modelId)) tier
      ix.rT b.daa = some (loadedPad padSeed p))
    (hresident : Resident (chunkAt memory) ix.toWeightIndex T)
    (hloaded : Loaded (chunkAt memory) T padSeed p walk)
    (hindex : s.miningIndex b.daa = some (ix, tier)) :
    let found := PomWalkV4.mine rig.blake walk (chunkAt memory) b.job b.start b.count out.schedule
      out.seeds
    s.Right b i out (.mined found (found.bind fun nonce =>
      (s.miningIndex b.daa).bind fun p => b.generate p.1.toWeightIndex p.2 nonce)) := by
  intro found
  obtain ⟨rank, fuel, job, hnew⟩ := b.made
  have hmake (nonce : UInt64) : (b.generate ix.toWeightIndex tier nonce).isSome = _ :=
    isSome_generate hnew hera hbuilt hlow hhigh hpad
  have hfound : found = _ := mine_eq_find? hhigh hpad hloaded hresident out.length_seeds
  rw [hindex]
  refine ⟨ix, tier, hindex, rfl, ?_, fun nonce hnonce => ?_⟩
  · rw [hfound]
    exact find?_bind hmake _
  · rw [hnonce]
    exact (hmake nonce).trans (List.find?_some (hfound ▸ hnonce))

/-- The pad of the miner is the pad of the host. -/
theorem v5Pad_eq {spec : ModelSpec} {tier : UInt8} {ix : SourcedIndex} {daa : UInt64}
    (hfrom : pomV5ActivationDaa rig.isTestnet ≤ daa) (hspec : rig.miningModel daa = some spec)
    (htier : pomTierIndex rig.isTestnet spec.modelId daa = some tier) (hle : tier ≤ 4)
    (hix : s.indexFor spec.modelId = some ix) :
    ∃ padSeed tiles, s.v5Pad daa = some (v5PadSeedWords padSeed, tiles) ∧
      contextPad rig.blake rig.isTestnet (fun daa => (rig.miningModel daa).map (·.modelId)) tier ix.rT
        daa = some (loadedPad padSeed tiles) := by
  have htiles : pomV5PadTiles rig.isTestnet tier daa ≠ 0 := pomV5PadTiles_ne_zero hle
  refine ⟨v5PadSeed rig.blake tier spec.modelId ix.rT, pomV5PadTiles rig.isTestnet tier daa, ?_, ?_⟩
  · simp only [v5Pad, if_neg (UInt64.not_lt.mpr hfrom), hspec, htier, hix, Option.bind_eq_bind,
      Option.bind_some, if_neg htiles]
  · simp only [contextPad, if_pos hfrom, hspec, Option.map_some, Option.bind_eq_bind, Option.bind_some,
      if_neg htiles, loadedPad]

theorem search_right (h : Ok s) (b : Batch rig) (i : Install) (out : Outside)
    (hera : pomV4ActivationDaa rig.isTestnet ≤ b.daa) (hinst : s.isInstalled b.daa) :
    s.Right b i out (s.search b out).2 := by
  obtain ⟨spec, gpu, hspec, hgpu⟩ := isInstalled_iff.mp hinst
  obtain ⟨ix, hix, hok⟩ := h.installed _ hgpu
  -- the network knows the model that is mined, and the index is of its weights
  have hv3 : pomV3ActivationDaa rig.isTestnet ≤ b.daa := by
    refine UInt64.le_trans ?_ hera
    cases rig.isTestnet <;> decide
  obtain ⟨_, tier, anchor, hmodel, htier, hle, hanchor, hlow, hhigh⟩ :=
    exists_mined rig.isTestnet rig.tier rig.h15 hv3
  obtain rfl := Option.some.inj (hspec.symm.trans hmodel)
  have hbuilt := h.built _ (indexFor_mem hix)
  have hanchored := h.anchored _ (indexFor_mem hix)
  simp only [Vulkan.anchored, hanchor, decide_eq_true_eq] at hanchored
  rw [← hanchored.1] at hlow hhigh
  have hindex : s.miningIndex b.daa = some (ix, tier) := by
    simp only [miningIndex, hspec, htier, hix, Option.bind_eq_bind, Option.bind_some]
  rw [search, hgpu]
  dsimp only
  split
  · next hbefore =>
    obtain ⟨T, -, -, hresident, hloaded⟩ := hok.loaded
    have hpad : contextPad rig.blake rig.isTestnet
        (fun daa => (rig.miningModel daa).map (·.modelId)) tier ix.rT b.daa =
        some (loadedPad default 0) := if_neg (UInt64.not_le.mpr hbefore)
    exact mined_right hera hbuilt hlow hhigh hpad hresident (hloaded default) hindex
  · next hfrom =>
    obtain ⟨padSeed, tiles, hv5, hpad⟩ := v5Pad_eq (UInt64.not_lt.mp hfrom) hspec htier hle hix
    rw [hv5]
    dsimp only
    split
    · next hnone => exact ⟨_, gpu, _, _, hgpu, hv5, withPad_v5_none hok hnone⟩
    · next w hw =>
      obtain ⟨hwith, hsame⟩ := hok.withPad
      obtain ⟨T, hstarts, haddrs, hresident, -⟩ := hwith.loaded
      obtain ⟨hseed, rfl⟩ := hsame w hw
      have hloaded := (hwith.v5 w hw).loaded hstarts haddrs hseed
      exact mined_right hera hbuilt hlow hhigh hpad hresident hloaded hindex

/-- A device on which nothing is installed has no index of the model, or it could not be streamed. -/
theorem not_installed {b : Batch rig} {i : Install} {out : Outside}
    (h : ¬(s.ensureInstalled b.daa i).isInstalled b.daa) :
    (s.ensureInstalled b.daa i).Right b i out .notInstalled := by
  intro spec hspec
  by_cases hinst : s.isInstalled b.daa
  · rw [ensureInstalled, if_pos hinst] at h
    exact absurd hinst h
  · simp only [ensureInstalled, if_neg hinst, ensureInstalledInner, hspec] at h ⊢
    cases hgpu : ((s.makeReady spec b.daa i).indexFor spec.modelId).bind
        fun ix => PomWalkGpu.newStreamed ix i.alloc i.memory with
    | none => simp only [hgpu]
    | some gpu =>
      simp only [hgpu] at h
      exact absurd (isInstalled_iff.mpr ⟨spec, gpu, hspec, rfl⟩) h

/-- **After any run, a batch that is searched gives the block that the plain loop of the host over its
nonces gives**, with the index and the tier of its era, and the host makes a block of every winner.
There is always a pad to be filled where one is needed. -/
theorem work_right (evs : List (Event rig)) (b : Batch rig) (i : Install) (out : Outside) :
    ((Device.run evs).ensureInstalled b.daa i).Right b i out ((Device.run evs).work b i out).2 := by
  have hok := (ok_run evs).ensureInstalled b.daa i
  rw [work]
  split
  · next hnot => exact not_installed hnot
  · next hinst =>
    split
    · next hearly => exact hearly
    · next hera => exact search_right hok b i out (UInt64.not_lt.mp hera) (not_not.mp hinst)

end Device

end KeryxMiner.Vulkan
