import KeryxMiner.Inference.Attention
import KeryxMiner.Replay.ChainOpening
import KeryxMiner.Replay.Site

/-!
# Parts of the openings of sequence points

The layer that an attention or a recurrent point draws and the captured spans of its leaves.
-/

namespace KeryxMiner.Replay

open Inference Manifest
open Openings hiding Hash

variable {h : Blake3} (m : TierManifest h) (rec : TraceRecord h) (seq : SeqTrace)

/-- The first layer whose links are picked, with its number and links. -/
def findLayer {α : Type} (ctx : ChainCtx) (pick : LayerLinks → Option α) :
    Option (Nat × LayerLinks × α) :=
  (List.range ctx.nLayers.toNat).findSome? fun l =>
    (layerLinks m ctx l).bind fun ll => (pick ll).map fun x => (l, ll, x)

/-- A part that an opening has if `there`. -/
def partIf {α : Type} [Inhabited α] (there : Prop) [Decidable there] (part : Except String α) :
    Except String α :=
  if there then part else .ok default

/-- The captured span of a plan. -/
def captured (plan : Option SpanPlan) (cap : Option SeqCapture) (e : String) :
    Except String SeqSpan := do
  span h (← orFail plan e) (← orFail cap e) seq

/-- Trace root over the position tree and the sequence tree of a response. -/
def seqResponseCtx : Option ResponseCtx :=
  (seqTraceRoot h rec.traceRoot seq.root).map fun root => ⟨root, rec.nPrompt, rec.nPos⟩

section

variable {m : TierManifest h} {ctx : ChainCtx} {α : Type}
  {pick : LayerLinks → Option α} {x : α} {l : Nat} {ll : LayerLinks} {eo : EntryOpening}

theorem partIf_eq_ok [Inhabited α] {there : Prop} [Decidable there] {part : Except String α} :
    partIf there part = .ok x ↔ there ∧ part = .ok x ∨ ¬ there ∧ x = default := by
  rw [partIf]
  split
  · next hthere => simp [hthere]
  · next hthere => simp [hthere, eq_comm]

theorem of_findLayer (hfind : findLayer m ctx pick = some (l, ll, x)) :
    l < ctx.nLayers.toNat ∧ layerLinks m ctx l = some ll ∧ pick ll = some x := by
  obtain ⟨l', hmem, hl⟩ := List.exists_of_findSome?_eq_some hfind
  simp only [Option.bind_eq_some_iff, Option.map_eq_some_iff] at hl
  obtain ⟨ll', hll, x', hx, heq⟩ := hl
  cases heq
  exact ⟨List.mem_range.mp hmem, hll, hx⟩

theorem mul_add_le {i n k : Nat} (hi : i < n) : i * k + k ≤ n * k := by
  rw [← Nat.succ_mul]
  exact Nat.mul_le_mul_right k hi

/-- The entry of layer `l` is in its place. -/
def LayerPlaced (m : TierManifest h) (ctx : ChainCtx) (l : Nat) : Prop :=
  ∀ e ∈ m.entry (ctx.layerBase.toNat + l), e.role = roleLayer ∧ ∀ ll ∈ e.layer, ll.layer.toNat = l

/-- The verifier opens the layer of the miner, unless its entry is not in its place. -/
theorem ends_openLayer (index : Pom.WeightIndex) (hl : l < ctx.nLayers.toNat) (hll : layerLinks m ctx l = some ll)
    (heo : m.entryOpening (ctx.layerBase.toNat + l) = some eo) :
    Ends (fun _ => ¬ LayerPlaced m ctx l) (· = (l, ll)) (openLayer h (m.tierCtx index) ctx eo) := by
  obtain ⟨e, he, hlayer⟩ := Option.bind_eq_some_iff.mp hll
  have hindex : eo.index.toNat = ctx.layerBase.toNat + l := by
    obtain ⟨raw, hraw⟩ := TierManifest.entry_eq_some.mp he
    rw [TierManifest.entryOpening, hraw] at heo
    cases heo
    obtain ⟨hlt, -⟩ := List.getElem?_eq_some_iff.mp hraw
    exact UInt32.toNat_ofNat_of_lt' (Nat.lt_trans hlt m.entries_lt)
  have hsub : eo.index.toNat - ctx.layerBase.toNat = l := by omega
  rw [openLayer, hsub]
  refine Ends.bind_ok (refuse_of_not (by omega)) (Ends.bind_ok (refuse_of_not (by omega)) ?_)
  refine Ends.bind_ok (openEntry_entryOpening he heo) (Ends.bind_ok (orFail_eq_ok.mpr hlayer) ?_)
  refine Ends.bind (ends_refuse fun hbad hplaced => ?_) fun _ _ => Ends.pure rfl
  obtain ⟨hrole, hnumber⟩ := hplaced e he
  obtain hne | hne := hbad
  · exact hne hrole
  · exact hne (hnumber ll hlayer)

end

end KeryxMiner.Replay
