import KeryxMiner.Engine.SeqLeaves
import KeryxMiner.Inference.LeafSites
import KeryxMiner.Inference.Recurrent

/-!
# The contents of the sequence leaves

What the layers of a run have at its positions (`Contents`), the rows of it that each leaf of the
layout is to hold (`Contents.rows`), and how llama.cpp and the backend hand it to the engine: the
cache of the attention layers, the array of the softmax masses and the buffers of every batch.
-/

namespace KeryxMiner.Engine

open Inference (LeafSite SeqLayout recordLen recurGda)

/-- The layout of the verifier. -/
def SeqSpec.layout (spec : SeqSpec) : SeqLayout := ⟨spec.nAttn, spec.nRecur, spec.heads⟩

/-- Bytes of a cache row of one head. -/
def SeqAttn.rowBytes (a : SeqAttn) : Nat := a.headDim / 32 * 34

/-- Query heads of one key/value head. -/
def SeqAttn.group (a : SeqAttn) : Nat := a.nHead / a.nHeadKv

/-- What a run has of each layer: the key, the value and the record of a head at a position, the mass
of a query head of the layer with a number, and the state of a head after so many positions. -/
structure Contents where
  key : SeqAttn → Nat → Nat → List UInt8
  value : SeqAttn → Nat → Nat → List UInt8
  mass : Nat → Nat → Nat → UInt32
  record : SeqRecur → Nat → Nat → List UInt8
  state : SeqRecur → Nat → Nat → List UInt8

/-! ## The rows of a leaf -/

/-- What belongs to the head of an attention layer; nothing if the layer does not have it. -/
def SeqSpec.ofAttn (spec : SeqSpec) (slot head : Nat) (rows : SeqAttn → List (List UInt8)) :
    List (List UInt8) :=
  match spec.attn[slot]? with
  | none => []
  | some a => if head < a.nHeadKv then rows a else []

def SeqSpec.ofRecur (spec : SeqSpec) (slot head : Nat) (rows : SeqRecur → List (List UInt8)) :
    List (List UInt8) :=
  match spec.recur[slot]? with
  | none => []
  | some r => if head < r.nVHeads then rows r else []

/-- The layer of the leaf has its head. -/
def SeqSpec.Has (spec : SeqSpec) (s : LeafSite) : Prop :=
  match s.kind with
  | .kcache | .vcache | .lse => ∃ a, spec.attn[s.slot]? = some a ∧ s.head < a.nHeadKv
  | .record | .checkpoint => ∃ r, spec.recur[s.slot]? = some r ∧ s.head < r.nVHeads

namespace Contents

variable (c : Contents)

/-- The masses of the query heads of a key/value head at a position. -/
def massRow (a : SeqAttn) (head t : Nat) : List UInt8 :=
  (List.range a.group).flatMap fun qi => toLe 4 (c.mass a.layer (head * a.group + qi) t).toNat

/-- The rows of a leaf: one for each position, or one for each whole checkpoint interval. -/
def rows (spec : SeqSpec) (nPos : Nat) (s : LeafSite) : List (List UInt8) :=
  match s.kind with
  | .kcache => spec.ofAttn s.slot s.head fun a => (List.range nPos).map (c.key a s.head)
  | .vcache => spec.ofAttn s.slot s.head fun a => (List.range nPos).map (c.value a s.head)
  | .lse => spec.ofAttn s.slot s.head fun a => (List.range nPos).map (c.massRow a s.head)
  | .record => spec.ofRecur s.slot s.head fun r => (List.range nPos).map (c.record r s.head)
  | .checkpoint => spec.ofRecur s.slot s.head fun r =>
    (List.range (nPos / spec.interval)).map fun m => c.state r s.head ((m + 1) * spec.interval)

/-- The parts have the lengths which the verifier expects of them. -/
structure Sized (spec : SeqSpec) (nPos : Nat) : Prop where
  key : ∀ a ∈ spec.attn, ∀ head < a.nHeadKv, ∀ t < nPos, (c.key a head t).length = a.rowBytes
  value : ∀ a ∈ spec.attn, ∀ head < a.nHeadKv, ∀ t < nPos, (c.value a head t).length = a.rowBytes
  record : ∀ r ∈ spec.recur, ∀ head < r.nVHeads, ∀ t < nPos,
    (c.record r head t).length = recordLen recurGda r.headDim
  state : ∀ r ∈ spec.recur, ∀ head < r.nVHeads, ∀ p ≤ nPos,
    (c.state r head p).length = r.headDim * r.headDim * 4

/-- No mass of an attention layer is infinite or not a number. -/
def Finite (spec : SeqSpec) (nPos : Nat) : Prop :=
  ∀ a ∈ spec.attn, ∀ head < a.nHead, ∀ t < nPos, isFinite (c.mass a.layer head t) = true

/-! ## How the engine gets them -/

/-- The cache of a layer: the rows of its heads side by side, position after position. -/
def layerCache (nPos : Nat) (a : SeqAttn) : LayerCache where
  k := (List.range nPos).flatMap fun t => (List.range a.nHeadKv).flatMap fun head => c.key a head t
  v := (List.range nPos).flatMap fun t => (List.range a.nHeadKv).flatMap fun head => c.value a head t
  kRow := a.nHeadKv * a.rowBytes
  vRow := a.nHeadKv * a.rowBytes

/-- The cache has the attention layers in their order, or more layers and these at their numbers. -/
inductive CacheOf (spec : SeqSpec) (nPos : Nat) (cache : List LayerCache) : Prop where
  | attention : cache = spec.attn.map (c.layerCache nPos) → CacheOf spec nPos cache
  | model : cache.length ≠ spec.attn.length →
    (∀ a ∈ spec.attn, cache[a.layer]? = some (c.layerCache nPos a)) → CacheOf spec nPos cache

/-- The masses of so many layers and query heads, by layer, position and head. -/
def masses (layers heads nPos : Nat) : List UInt32 :=
  (List.range layers).flatMap fun layer => (List.range nPos).flatMap fun t =>
    (List.range heads).map fun head => c.mass layer head t

end Contents

/-- Just so many layers and query heads that the attention layers are among them. -/
structure MassShape (spec : SeqSpec) (layers heads : Nat) : Prop where
  layer : ∀ n, layers ≤ n ↔ ∀ a ∈ spec.attn, a.layer < n
  head : ∀ n, heads ≤ n ↔ ∀ a ∈ spec.attn, a.nHead ≤ n

/-- The heads of the recurrent layers, layer after layer. -/
def SeqSpec.recurHeads (spec : SeqSpec) : List (SeqRecur × Nat) :=
  spec.recur.flatMap fun r => (List.range r.nVHeads).map (r, ·)

namespace Contents

variable (c : Contents)

/-- The answer of the backend after a batch of `n` positions from `pos` on: the records of each head
end to end, and the states where a checkpoint interval ends. Behind them the buffers hold anything. -/
structure ReadOf (spec : SeqSpec) (pos n : Nat) (r : RecurRead) : Prop where
  rc : r.rc = 0
  count : r.n = n
  hasCkpt : r.hasCkpt = decide (spec.interval ∣ pos + n)
  record : spec.recurHeads.flatMap (fun x => (List.range n).flatMap fun j =>
    c.record x.1 x.2 (pos + j)) <+: r.bufRec
  state : spec.interval ∣ pos + n →
    spec.recurHeads.flatMap (fun x => c.state x.1 x.2 (pos + n)) <+: r.bufCkpt

/-- The answers after batches of these sizes. -/
inductive ReadsOf (spec : SeqSpec) : Nat → List Nat → List (RecurRead × Nat) → Prop where
  | nil {pos : Nat} : ReadsOf spec pos [] []
  | cons {pos n : Nat} {ns : List Nat} {r : RecurRead} {reads : List (RecurRead × Nat)} :
    c.ReadOf spec pos n r → ReadsOf spec (pos + n) ns reads → ReadsOf spec pos (n :: ns) ((r, n) :: reads)

end Contents

variable {c : Contents} {spec : SeqSpec} {s : LeafSite} {layers heads nPos : Nat}

/-- A head that no layer has has no rows. -/
theorem Contents.rows_of_not (h : ¬spec.Has s) : c.rows spec nPos s = [] := by
  obtain ⟨kind, slot, head⟩ := s
  have hattn (hno : ¬∃ a, spec.attn[slot]? = some a ∧ head < a.nHeadKv)
      (rows : SeqAttn → List (List UInt8)) : spec.ofAttn slot head rows = [] := by
    rw [SeqSpec.ofAttn]
    split
    · rfl
    · next a ha => exact if_neg fun hlt => hno ⟨a, ha, hlt⟩
  have hrecur (hno : ¬∃ r, spec.recur[slot]? = some r ∧ head < r.nVHeads)
      (rows : SeqRecur → List (List UInt8)) : spec.ofRecur slot head rows = [] := by
    rw [SeqSpec.ofRecur]
    split
    · rfl
    · next r hr => exact if_neg fun hlt => hno ⟨r, hr, hlt⟩
  cases kind with
  | kcache | vcache | lse => exact hattn h _
  | record | checkpoint => exact hrecur h _

theorem SeqSpec.ofAttn_of_has {slot head : Nat} {a : SeqAttn} {rows : SeqAttn → List (List UInt8)}
    (ha : spec.attn[slot]? = some a) (hhead : head < a.nHeadKv) :
    spec.ofAttn slot head rows = rows a := by
  rw [SeqSpec.ofAttn, ha]
  exact if_pos hhead

theorem SeqSpec.ofRecur_of_has {slot head : Nat} {r : SeqRecur} {rows : SeqRecur → List (List UInt8)}
    (hr : spec.recur[slot]? = some r) (hhead : head < r.nVHeads) :
    spec.ofRecur slot head rows = rows r := by
  rw [SeqSpec.ofRecur, hr]
  exact if_pos hhead

/-- The array of the masses is as large as the engine has the backend make it. -/
theorem MassShape.lseShape (h : MassShape spec layers heads) : spec.lseShape = (layers, heads) := by
  have hlayer : ∀ n, (spec.attn.map (·.layer + 1)).foldl max 0 ≤ n ↔ layers ≤ n := by
    intro n
    simp only [foldl_max_le_iff, Nat.zero_le, true_and, List.forall_mem_map, h.layer n, Nat.succ_le_iff]
  have hhead : ∀ n, (spec.attn.map (·.nHead)).foldl max 0 ≤ n ↔ heads ≤ n := by
    intro n
    simp only [foldl_max_le_iff, Nat.zero_le, true_and, List.forall_mem_map, h.head n]
  exact Prod.ext (eq_of_forall_ge_iff hlayer) (eq_of_forall_ge_iff hhead)

end KeryxMiner.Engine
