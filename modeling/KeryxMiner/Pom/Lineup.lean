import KeryxMiner.Pom.Eras
import KeryxMiner.Stepwise

/-!
# The lineup of models

A tier of the hardware mines one model at a time, which changes where the network changes its lineup
and, if another tier is to be mined then, at the gate of the fifth walk. The models that
`models_all_eras` lists for a score of the chain are those that can still be mined from it on
(`mem_modelsAllEras`), and each of them has its tier, its pinned weights and its pad when its turn
comes (`exists_mined`).
-/

namespace KeryxMiner.Pom

/-! ## Models -/

structure ModelSpec where
  name : String
  modelId : Bytes32
  deriving DecidableEq

def QWEN3_5_9B_ABLITERATED : ModelSpec where
  name := "qwen3.5-9b-abliterated"
  modelId := #v[
    0xbd, 0x34, 0x56, 0x8c, 0xd8, 0x9f, 0x5f, 0x19, 0xc6, 0xc3, 0xa6, 0xe1, 0xa6, 0x1b, 0x92, 0x9b,
    0xc8, 0x68, 0x70, 0x94, 0x09, 0xea, 0xad, 0x8e, 0x67, 0x2d, 0x85, 0xf3, 0xc1, 0xeb, 0x57, 0x10]

def GLM_4_9B_0414 : ModelSpec where
  name := "glm-4-9b-0414"
  modelId := #v[
    0xfa, 0x2f, 0x13, 0xbe, 0x08, 0x50, 0xe2, 0x6c, 0x5c, 0xe8, 0x6c, 0x7a, 0xc7, 0x9d, 0xa8, 0x5e,
    0x30, 0x0c, 0x1d, 0xa8, 0xb3, 0x29, 0x0f, 0x9a, 0x18, 0xd4, 0x71, 0x05, 0xf1, 0xf2, 0x14, 0x0a]

def GEMMA_4_12B_ABLITERATED : ModelSpec where
  name := "gemma-4-12b-abliterated"
  modelId := #v[
    0x39, 0x99, 0x84, 0x04, 0x56, 0x00, 0xf7, 0xd5, 0x8d, 0x1b, 0x2c, 0xf0, 0x1e, 0x6a, 0x4b, 0xf4,
    0x66, 0xfa, 0x15, 0xc7, 0xac, 0x31, 0xbd, 0x0d, 0xd1, 0xa7, 0x1e, 0x00, 0x3b, 0x61, 0x7c, 0xc6]

def QWEN3_6_27B : ModelSpec where
  name := "qwen3.6-27b"
  modelId := #v[
    0xb8, 0xbd, 0xc0, 0x1f, 0xa4, 0x07, 0xea, 0xb9, 0x43, 0xe4, 0xfe, 0xfc, 0x80, 0x74, 0x83, 0xb3,
    0x9f, 0x81, 0x42, 0x78, 0x52, 0x56, 0x04, 0x9e, 0x1f, 0x55, 0x96, 0x98, 0xa5, 0x28, 0x47, 0x46]

def QWEN3_8_27B : ModelSpec where
  name := "qwen3.8-27b"
  modelId := #v[
    0x73, 0x74, 0x0b, 0x44, 0x3b, 0xdc, 0x00, 0xaf, 0xda, 0x5f, 0xa3, 0x4e, 0xb9, 0x99, 0x9d, 0x3f,
    0xea, 0x77, 0xdc, 0xc3, 0xf6, 0xde, 0x23, 0x8f, 0xab, 0x70, 0x13, 0x94, 0xcd, 0xc9, 0x6f, 0xb3]

def KIMI_LINEAR_48B : ModelSpec where
  name := "kimi-linear-48b"
  modelId := #v[
    0x3d, 0xc0, 0x93, 0x58, 0xad, 0x75, 0xc6, 0xef, 0x0c, 0x9c, 0x86, 0xee, 0x4f, 0x47, 0xc4, 0xd6,
    0xac, 0xda, 0x96, 0x1f, 0xec, 0xbd, 0x0e, 0x4f, 0x9c, 0xf5, 0x5e, 0x8f, 0x0f, 0xdf, 0xfd, 0xdb]

/-- What the network pins of the weights of a model: the root over its chunks, and their number. -/
structure PomAnchor where
  modelId : Bytes32
  root : Bytes32
  chunks : Nat

/-- The weights that the network expects of each model. -/
def POM_ANCHORS : List PomAnchor :=
  [⟨QWEN3_5_9B_ABLITERATED.modelId, #v[
      0x2c, 0x49, 0x71, 0x64, 0xea, 0xf2, 0x00, 0x78, 0xad, 0xd2, 0x0e, 0x82, 0xae, 0x4e, 0x1b, 0x0f,
      0xdb, 0x27, 0xd3, 0xfd, 0xd5, 0xea, 0xef, 0xc1, 0xc4, 0x8f, 0x20, 0x41, 0x11, 0xe1, 0x4e, 0x88], 203469888⟩,
    ⟨GLM_4_9B_0414.modelId, #v[
      0x1b, 0xa8, 0xb8, 0xb1, 0x34, 0x41, 0x03, 0xfa, 0xa0, 0xa7, 0x47, 0x89, 0xd9, 0x39, 0xc3, 0x3c,
      0x23, 0xba, 0x5c, 0x3c, 0x41, 0xbb, 0x1a, 0x89, 0x5a, 0xb6, 0xe8, 0xbf, 0xec, 0xb0, 0x78, 0x7d], 258040832⟩,
    ⟨GEMMA_4_12B_ABLITERATED.modelId, #v[
      0x8e, 0x4d, 0x5b, 0xe3, 0xaa, 0x7c, 0x3a, 0xb9, 0x35, 0x83, 0x5f, 0xf5, 0xe1, 0x9d, 0x7a, 0x3d,
      0xfa, 0x11, 0x8a, 0xf3, 0x24, 0xd5, 0xba, 0x65, 0x16, 0x29, 0xd6, 0xed, 0x16, 0x1a, 0x1e, 0x37], 305318656⟩,
    ⟨QWEN3_6_27B.modelId, #v[
      0x85, 0x23, 0xf4, 0x14, 0x8d, 0x22, 0xc7, 0x71, 0x3b, 0xfc, 0x11, 0x32, 0xb4, 0xaf, 0x3d, 0x4b,
      0x97, 0x61, 0xa2, 0x03, 0xfb, 0x33, 0xf1, 0x8e, 0xe7, 0x55, 0x67, 0xbd, 0xee, 0x51, 0x2b, 0x0a], 516762688⟩,
    ⟨QWEN3_8_27B.modelId, #v[
      0x40, 0x6c, 0x19, 0x56, 0xf9, 0xf5, 0xdd, 0x13, 0x4d, 0x34, 0x61, 0xc6, 0x19, 0x11, 0x32, 0xa3,
      0xb1, 0x57, 0x2c, 0xc1, 0x6f, 0x39, 0x5a, 0x2b, 0xc2, 0xf1, 0xc6, 0x69, 0xfa, 0xe3, 0x74, 0xa1], 524991232⟩,
    ⟨KIMI_LINEAR_48B.modelId, #v[
      0x95, 0x74, 0x71, 0x0f, 0xfa, 0xb6, 0x78, 0xf0, 0x68, 0xb4, 0xe6, 0x5a, 0xbe, 0x72, 0x40, 0x86,
      0x2d, 0xa1, 0x5b, 0xb1, 0x6e, 0xa8, 0x2f, 0xd1, 0x62, 0xa9, 0x35, 0x1a, 0x10, 0x51, 0x99, 0x59], 927994064⟩]

def pinnedPomAnchor (modelId : Bytes32) : Option PomAnchor :=
  POM_ANCHORS.find? fun a => a.modelId = modelId

inductive Tier
  | veryLight
  | light
  | default
  | high
  | veryHigh
  deriving DecidableEq

section

variable (isTestnet : Bool)

/-- The tier of a model in the table of the network; none where it has none. -/
def pomTierIndex (modelId : Bytes32) (daa : UInt64) : Option UInt8 :=
  if daa < pomV3ActivationDaa isTestnet then none
  else if modelId = QWEN3_5_9B_ABLITERATED.modelId then some 0
  else if modelId = GLM_4_9B_0414.modelId then some 1
  else if modelId = GEMMA_4_12B_ABLITERATED.modelId then some 2
  else if modelId = QWEN3_6_27B.modelId then
    if daa < privateInferenceActivationDaa isTestnet then some 3 else none
  else if modelId = QWEN3_8_27B.modelId then
    if privateInferenceActivationDaa isTestnet ≤ daa then some 3 else none
  else if modelId = KIMI_LINEAR_48B.modelId then some 4
  else none

/-- The model that a tier mines and serves. -/
def pomModelForTier (daa : UInt64) (tier : Tier) : Option ModelSpec :=
  if daa < pomV3ActivationDaa isTestnet then none
  else
    some (match tier with
      | .veryLight => QWEN3_5_9B_ABLITERATED
      | .light => GLM_4_9B_0414
      | .default => GEMMA_4_12B_ABLITERATED
      | .high =>
        if privateInferenceActivationDaa isTestnet ≤ daa then QWEN3_8_27B else QWEN3_6_27B
      | .veryHigh => KIMI_LINEAR_48B)

/-- The tier at a score, where `h15` is the one that is mined from the fifth walk on. -/
def tierAt (daa : UInt64) (tier : Tier) (h15 : Option Tier) : Tier :=
  match h15 with
  | some t => if pomV5ActivationDaa isTestnet ≤ daa then t else tier
  | none => tier

def miningModel (tier : Tier) (h15 : Option Tier) (daa : UInt64) : Option ModelSpec :=
  pomModelForTier isTestnet daa (tierAt isTestnet daa tier h15)

/-! ## The models of the eras to come -/

/-- The gate of the last era that is scheduled. -/
def stagingDaa : UInt64 :=
  let h14 := privateInferenceActivationDaa isTestnet
  if h14 = 0xffffffffffffffff then pomV3ActivationDaa isTestnet
  else max h14 (pomV3ActivationDaa isTestnet)

end

/-- `Vec::dedup`. -/
def dedup : List UInt64 → List UInt64
  | a :: b :: l => if a = b then dedup (b :: l) else a :: dedup (b :: l)
  | l => l

/-- The gates of the eras in which a block can still be mined at `chainDaa`, in order. -/
def reachableGates (gates : List UInt64) (chainDaa : Option UInt64) : List UInt64 :=
  let gates := dedup (gates.mergeSort fun a b => decide (a ≤ b))
  match chainDaa with
  | none => gates
  | some daa =>
    (gates.zipIdx.filter fun p =>
      decide (p.2 = gates.length - 1) || decide (daa < gates.getD (p.2 + 1) 0)).map Prod.fst

/-- The models at the gates, each once, behind those found before. -/
def modelsLoop (model : UInt64 → Option ModelSpec) (out : List ModelSpec) :
    List UInt64 → List ModelSpec
  | [] => out
  | gate :: gates =>
    match model gate with
    | none => modelsLoop model out gates
    | some s =>
      modelsLoop model (if out.any fun x => x.modelId = s.modelId then out else out ++ [s]) gates

def modelsAllEras (isTestnet : Bool) (tier : Tier) (h15 : Option Tier) (chainDaa : Option UInt64) :
    List ModelSpec :=
  let gates := [pomV3ActivationDaa isTestnet, stagingDaa isTestnet]
  let gates := if privateInferenceActivationDaa isTestnet ≠ 0xffffffffffffffff then
      gates ++ [privateInferenceActivationDaa isTestnet]
    else gates
  let gates := if h15.isSome ∧ pomV5ActivationDaa isTestnet ≠ 0xffffffffffffffff then
      gates ++ [pomV5ActivationDaa isTestnet]
    else gates
  modelsLoop (miningModel isTestnet tier h15) [] (reachableGates gates chainDaa)

/-! ### The gates that are kept -/

section

variable {l gates : List UInt64} {a d x : UInt64}

theorem mem_dedup : x ∈ dedup l ↔ x ∈ l := by
  induction l using dedup.induct with
  | case1 a l ih => rw [dedup, if_pos rfl, ih]; simp
  | case2 a b l hne ih =>
    rw [dedup, if_neg hne, List.mem_cons, ih]
    exact List.mem_cons.symm
  | case3 l hl =>
    cases l with
    | nil => rfl
    | cons a l =>
      cases l with
      | nil => rfl
      | cons b l => exact absurd rfl (hl a b l)

theorem pairwise_dedup (h : l.Pairwise (· ≤ ·)) : (dedup l).Pairwise (· < ·) := by
  induction l using dedup.induct with
  | case1 a l ih =>
    rw [dedup, if_pos rfl]
    exact ih (List.pairwise_cons.mp h).2
  | case2 a b l hne ih =>
    obtain ⟨ha, hl⟩ := List.pairwise_cons.mp h
    rw [dedup, if_neg hne, List.pairwise_cons]
    refine ⟨fun x hx => ?_, ih hl⟩
    have hab := ha b List.mem_cons_self
    have hlt : a < b := UInt64.lt_of_le_of_ne hab hne
    obtain rfl | hx := List.mem_cons.mp (mem_dedup.mp hx)
    · exact hlt
    · exact UInt64.lt_of_lt_of_le hlt ((List.pairwise_cons.mp hl).1 x hx)
  | case3 l hl =>
    cases l with
    | nil => exact .nil
    | cons a l =>
      cases l with
      | nil => exact List.pairwise_singleton ..
      | cons b l => exact absurd rfl (hl a b l)

/-- A gate is kept while no later one has been passed. -/
theorem mem_nextAfter (hl : l.Pairwise (· < ·)) :
    x ∈ (l.zipIdx.filter fun p =>
        decide (p.2 = l.length - 1) || decide (d < l.getD (p.2 + 1) 0)).map Prod.fst ↔
      x ∈ l ∧ ∀ h ∈ l, x < h → d < h := by
  have hmono := List.pairwise_iff_getElem.mp hl
  simp only [List.mem_map, List.mem_filter, Prod.exists, exists_and_right, exists_eq_right,
    List.mem_zipIdx_iff_getElem?, Bool.or_eq_true, decide_eq_true_eq]
  constructor
  · rintro ⟨i, hget, hkept⟩
    obtain ⟨hi, rfl⟩ := List.getElem?_eq_some_iff.mp hget
    refine ⟨List.getElem_mem hi, fun h hh hlt => ?_⟩
    obtain ⟨j, hj, rfl⟩ := List.getElem_of_mem hh
    -- a later gate is the next one or behind it
    have hij : i < j := by
      by_contra hge
      rcases Nat.lt_or_eq_of_le (Nat.le_of_not_lt hge) with hji | rfl
      · exact UInt64.lt_asymm hlt (hmono j i hj hi hji)
      · exact UInt64.lt_irrefl _ hlt
    rcases hkept with hlast | hnext
    · omega
    · have hi' : i + 1 < l.length := by omega
      rw [List.getD_eq_getElem _ _ hi'] at hnext
      rcases Nat.lt_or_eq_of_le (Nat.succ_le_of_lt hij) with hlt' | rfl
      · exact UInt64.lt_trans hnext (hmono (i + 1) j hi' hj hlt')
      · exact hnext
  · rintro ⟨hx, hall⟩
    obtain ⟨i, hi, rfl⟩ := List.getElem_of_mem hx
    refine ⟨i, List.getElem?_eq_getElem hi, ?_⟩
    by_cases hlast : i = l.length - 1
    · exact .inl hlast
    · have hi' : i + 1 < l.length := by omega
      rw [List.getD_eq_getElem _ _ hi']
      exact .inr (hall _ (List.getElem_mem hi') (hmono i (i + 1) hi hi' (Nat.lt_succ_self i)))

theorem mem_reachableGates {chainDaa : Option UInt64} : x ∈ reachableGates gates chainDaa ↔
    x ∈ gates ∧ ∀ d ∈ chainDaa, ∀ h ∈ gates, x < h → d < h := by
  have hsorted : (gates.mergeSort fun a b => decide (a ≤ b)).Pairwise (· ≤ ·) := by
    have hpair : (gates.mergeSort fun a b => decide (a ≤ b)).Pairwise
        fun a b => decide (a ≤ b) = true := by
      apply List.pairwise_mergeSort
      · intro a b c hab hbc
        exact decide_eq_true (UInt64.le_trans (of_decide_eq_true hab) (of_decide_eq_true hbc))
      · intro a b
        simpa using UInt64.le_total a b
    exact hpair.imp of_decide_eq_true
  have hmem {y : UInt64} : y ∈ dedup (gates.mergeSort fun a b => decide (a ≤ b)) ↔ y ∈ gates := by
    rw [mem_dedup, List.mem_mergeSort]
  cases chainDaa with
  | none => simp [reachableGates, hmem]
  | some d =>
    rw [reachableGates, mem_nextAfter (pairwise_dedup hsorted)]
    simp [hmem]

end

/-! ### The models that are kept -/

section

variable {model : UInt64 → Option ModelSpec} {gates : List UInt64} {out : List ModelSpec}

/-- Each model of a gate is found once. -/
theorem modelsLoop_spec (hids : ∀ g s h t, model g = some s → model h = some t →
      s.modelId = t.modelId → s = t) (hout : ∀ s ∈ out, ∃ g, model g = some s)
    (hnodup : (out.map (·.modelId)).Nodup) :
    ((modelsLoop model out gates).map (·.modelId)).Nodup ∧ ∀ s, s ∈ modelsLoop model out gates ↔
      s ∈ out ∨ ∃ g ∈ gates, model g = some s := by
  induction gates generalizing out with
  | nil => exact ⟨hnodup, fun s => by simp [modelsLoop]⟩
  | cons gate gates ih =>
    rw [modelsLoop]
    cases hs : model gate with
    | none =>
      obtain ⟨hn, hmem⟩ := ih hout hnodup
      refine ⟨hn, fun s => ?_⟩
      rw [hmem]
      simp [hs]
    | some s =>
      dsimp only
      by_cases hany : out.any fun x => x.modelId = s.modelId
      · rw [if_pos hany]
        obtain ⟨x, hx, hid⟩ := List.any_eq_true.mp hany
        obtain ⟨g, hg⟩ := hout x hx
        obtain rfl := hids g x gate s hg hs (of_decide_eq_true hid)
        obtain ⟨hn, hmem⟩ := ih hout hnodup
        refine ⟨hn, fun t => ?_⟩
        rw [hmem]
        simp only [List.mem_cons, exists_eq_or_imp, hs, Option.some.injEq]
        constructor
        · rintro (h | h)
          · exact .inl h
          · exact .inr (.inr h)
        · rintro (h | rfl | h)
          · exact .inl h
          · exact .inl hx
          · exact .inr h
      · rw [if_neg hany]
        have hnew : ∀ x ∈ out, x.modelId ≠ s.modelId := by simpa using hany
        have hout' : ∀ t ∈ out ++ [s], ∃ g, model g = some t := by
          intro t ht
          obtain ht | ht := List.mem_append.mp ht
          · exact hout t ht
          · exact ⟨gate, List.mem_singleton.mp ht ▸ hs⟩
        have hnodup' : ((out ++ [s]).map (·.modelId)).Nodup := by
          rw [List.map_append, List.nodup_append]
          refine ⟨hnodup, List.nodup_singleton _, ?_⟩
          rintro _ hx _ hy rfl
          obtain ⟨x, hx, hid⟩ := List.mem_map.mp hx
          exact hnew x hx (hid.trans (List.mem_singleton.mp hy))
        obtain ⟨hn, hmem⟩ := ih hout' hnodup'
        refine ⟨hn, fun t => ?_⟩
        rw [hmem, List.mem_append, List.mem_singleton, or_assoc, @eq_comm _ t s]
        simp only [List.mem_cons, exists_eq_or_imp, hs, Option.some.injEq]

end

/-! ### The models that are mined -/

section

variable {isTestnet : Bool} {tier : Tier} {h15 : Option Tier} {daa daa' : UInt64} {s t : ModelSpec}

/-- The models of the lineup. -/
def REGISTRY : List ModelSpec :=
  [QWEN3_5_9B_ABLITERATED, GLM_4_9B_0414, GEMMA_4_12B_ABLITERATED, QWEN3_6_27B, QWEN3_8_27B,
    KIMI_LINEAR_48B]

theorem registry_inj : ∀ s ∈ REGISTRY, ∀ t ∈ REGISTRY, s.modelId = t.modelId → s = t := by
  decide +kernel

theorem mem_registry (h : miningModel isTestnet tier h15 daa = some s) : s ∈ REGISTRY := by
  unfold miningModel pomModelForTier at h
  split at h
  · cases h
  · obtain rfl := Option.some.inj h
    cases tierAt isTestnet daa tier h15 with
    | high =>
      dsimp only
      split <;> simp [REGISTRY]
    | veryLight | light | default | veryHigh => simp [REGISTRY]

/-- The gates of the lineup, of which the one of the fifth walk counts where the tier changes. -/
def lineupGates (isTestnet : Bool) (h15 : Option Tier) : List UInt64 :=
  [pomV3ActivationDaa isTestnet, privateInferenceActivationDaa isTestnet] ++
    if h15.isSome then [pomV5ActivationDaa isTestnet] else []

theorem mem_modelsGates {chainDaa : Option UInt64} :
    ∃ gates, modelsAllEras isTestnet tier h15 chainDaa =
        modelsLoop (miningModel isTestnet tier h15) [] (reachableGates gates chainDaa) ∧
      ∀ g, g ∈ gates ↔ g ∈ lineupGates isTestnet h15 := by
  have hstaging : stagingDaa isTestnet = privateInferenceActivationDaa isTestnet := by
    cases isTestnet <;> decide
  have hscheduled : privateInferenceActivationDaa isTestnet ≠ 0xffffffffffffffff ∧
      pomV5ActivationDaa isTestnet ≠ 0xffffffffffffffff := by
    cases isTestnet <;> decide
  refine ⟨_, rfl, fun g => ?_⟩
  rw [lineupGates, hstaging, if_pos hscheduled.1]
  cases h15 with
  | none => simp
  | some t =>
    simp only [Option.isSome_some, hscheduled.2, ne_eq, not_false_eq_true, and_self, if_true,
      List.mem_append, List.mem_cons, List.not_mem_nil, or_false]
    tauto

theorem miningModel_congr (h : ∀ g ∈ lineupGates isTestnet h15, g ≤ daa ↔ g ≤ daa') :
    miningModel isTestnet tier h15 daa = miningModel isTestnet tier h15 daa' := by
  have hv3 := h (pomV3ActivationDaa isTestnet) (by simp [lineupGates])
  have hh14 := h (privateInferenceActivationDaa isTestnet) (by simp [lineupGates])
  have htier : tierAt isTestnet daa tier h15 = tierAt isTestnet daa' tier h15 := by
    cases h15 with
    | none => rfl
    | some t =>
      have hv5 := h (pomV5ActivationDaa isTestnet) (by simp [lineupGates])
      simp only [tierAt, hv5]
  simp only [miningModel, pomModelForTier, htier, ← UInt64.not_le, hv3, hh14]

end

/-- The order of scores. -/
abbrev linearOrderUInt64 : LinearOrder UInt64 where
  le_refl := UInt64.le_refl
  le_trans _ _ _ := UInt64.le_trans
  le_antisymm _ _ := UInt64.le_antisymm
  le_total := UInt64.le_total
  toDecidableLE := inferInstance
  lt_iff_le_not_ge a b := by
    rw [UInt64.not_le]
    exact ⟨fun h => ⟨UInt64.le_of_lt h, h⟩, And.right⟩

theorem stepsAt_miningModel {isTestnet : Bool} {tier : Tier} {h15 : Option Tier} :
    letI := linearOrderUInt64
    StepsAt (lineupGates isTestnet h15) (miningModel isTestnet tier h15) := by
  intro x y hxy hnone
  refine miningModel_congr fun g hg => ⟨fun h => UInt64.le_trans h hxy, fun h => ?_⟩
  by_contra hlt
  exact UInt64.not_le.mpr (hnone g hg (UInt64.not_le.mp hlt)) h

/-- **The models listed for a score of the chain are those that can still be mined**, each of them
once: from that score on, or at any score where none is given. -/
theorem mem_modelsAllEras (isTestnet : Bool) (tier : Tier) (h15 : Option Tier)
    (chainDaa : Option UInt64) :
    ((modelsAllEras isTestnet tier h15 chainDaa).map (·.modelId)).Nodup ∧
      ∀ s, s ∈ modelsAllEras isTestnet tier h15 chainDaa ↔
        ∃ daa, (∀ d ∈ chainDaa, d ≤ daa) ∧ miningModel isTestnet tier h15 daa = some s := by
  obtain ⟨gates, hmodels, hgates⟩ := @mem_modelsGates isTestnet tier h15 chainDaa
  have hids : ∀ g s h t, miningModel isTestnet tier h15 g = some s →
      miningModel isTestnet tier h15 h = some t → s.modelId = t.modelId → s = t :=
    fun g s h t hs ht => registry_inj s (mem_registry hs) t (mem_registry ht)
  have hlow : ∀ x, (∀ g ∈ lineupGates isTestnet h15, x < g) → miningModel isTestnet tier h15 x = none := by
    intro x hx
    have hv3 := hx (pomV3ActivationDaa isTestnet) (by simp [lineupGates])
    exact if_pos hv3
  obtain ⟨hnodup, hmem⟩ := @modelsLoop_spec _ (reachableGates gates chainDaa) [] hids
    (List.forall_mem_nil _) List.nodup_nil
  rw [hmodels]
  refine ⟨hnodup, fun s => ?_⟩
  simp only [hmem, List.not_mem_nil, false_or, mem_reachableGates, hgates, and_assoc]
  let := linearOrderUInt64
  have hsteps := @stepsAt_miningModel isTestnet tier h15
  cases chainDaa with
  | none => simpa using (hsteps.exists_iff hlow).symm
  | some d => simpa using (hsteps.exists_ge_iff hlow).symm

/-! ## The tier of a model -/

/-- Every tier is in the tables of the pads. -/
theorem pomV5PadTiles_ne_zero {isTestnet : Bool} {tier : UInt8} {daa : UInt64} (h : tier ≤ 4) :
    pomV5PadTiles isTestnet tier daa ≠ 0 := by
  have htable : ∀ table ∈ [POM_V5_PAD_TILES_H16, POM_V5_PAD_TILES_H14],
      ∀ i : Fin 5, table.getD i 0 ≠ 0 := by
    decide
  have htier : tier.toNat < 5 := Nat.lt_succ_of_le (UInt8.le_iff_toNat_le.mp h)
  rw [pomV5PadTiles]
  split
  · exact htable _ List.mem_cons_self ⟨_, htier⟩
  · exact htable _ (List.mem_cons_of_mem _ List.mem_cons_self) ⟨_, htier⟩

/-- The network has the model of a tier in its table. -/
theorem exists_tierIndex {isTestnet : Bool} {daa : UInt64} (tier : Tier)
    (h : pomV3ActivationDaa isTestnet ≤ daa) : ∃ spec i, pomModelForTier isTestnet daa tier = some spec ∧
      pomTierIndex isTestnet spec.modelId daa = some i ∧ i ≤ 4 := by
  have hids : REGISTRY.Pairwise fun s t => t.modelId ≠ s.modelId := by decide +kernel
  simp only [REGISTRY, List.pairwise_cons, List.mem_cons, List.not_mem_nil, or_false, forall_eq_or_imp,
    forall_eq] at hids
  unfold pomModelForTier pomTierIndex
  simp only [if_neg (UInt64.not_lt.mpr h)]
  cases tier with
  | veryLight => exact ⟨_, 0, rfl, if_pos rfl, by decide⟩
  | light => exact ⟨_, 1, rfl, by simp [hids], by decide⟩
  | default => exact ⟨_, 2, rfl, by simp [hids], by decide⟩
  | high =>
    by_cases h14 : privateInferenceActivationDaa isTestnet ≤ daa
    · exact ⟨_, 3, rfl, by simp [hids, h14], by decide⟩
    · exact ⟨_, 3, rfl, by simp [hids, h14, UInt64.not_le.mp h14], by decide⟩
  | veryHigh => exact ⟨_, 4, rfl, by simp [hids], by decide⟩

/-- The model that is mined is in the table of the network, and its weights are pinned. -/
theorem exists_mined (isTestnet : Bool) (tier : Tier) (h15 : Option Tier) {daa : UInt64}
    (h : pomV3ActivationDaa isTestnet ≤ daa) :
    ∃ spec i anchor, miningModel isTestnet tier h15 daa = some spec ∧
      pomTierIndex isTestnet spec.modelId daa = some i ∧ i ≤ 4 ∧
      pinnedPomAnchor spec.modelId = some anchor ∧ 32 < anchor.chunks ∧ anchor.chunks < 2 ^ 54 := by
  have hpinned : ∀ spec ∈ REGISTRY, ∃ anchor, pinnedPomAnchor spec.modelId = some anchor ∧
      32 < anchor.chunks ∧ anchor.chunks < 2 ^ 54 := by
    intro spec hspec
    have hsome : ∀ spec ∈ REGISTRY, (pinnedPomAnchor spec.modelId).isSome := by decide +kernel
    have hbounds : ∀ anchor ∈ POM_ANCHORS, 32 < anchor.chunks ∧ anchor.chunks < 2 ^ 54 := by
      decide +kernel
    obtain ⟨anchor, hanchor⟩ := Option.isSome_iff_exists.mp (hsome spec hspec)
    exact ⟨anchor, hanchor, hbounds anchor (List.mem_of_find?_eq_some hanchor)⟩
  obtain ⟨spec, i, hspec, hindex, hi⟩ := exists_tierIndex (tierAt isTestnet daa tier h15) h
  obtain ⟨anchor, hanchor, hlow, hhigh⟩ := hpinned spec (mem_registry hspec)
  exact ⟨spec, i, anchor, hspec, hindex, hi, hanchor, hlow, hhigh⟩

end KeryxMiner.Pom
