import KeryxMiner.Blocks
import KeryxMiner.Inference.Verify

/-!
# Manifests and trace records of the miner

The manifest of a tier with its root, and the trace of a response: the leaves that the engine wrote,
the roots of the positions and the root over them. A value of either type carries what the parsing
and the constructors ensure, so that an entry or a leaf of it opens under its root.
-/

namespace KeryxMiner.Replay

open Inference
open Openings (EntryOpening)

/-! ## Manifests -/

/-- Manifest of an audited tier: the canonical product list and its root. -/
structure TierManifest (h : Blake3) where
  entries : List (Entry × List UInt8)
  nProducts : UInt32
  mT : Hash
  chain : Option ChainCtx
  products_pos : 0 < nProducts.toNat
  products_le : nProducts.toNat ≤ entries.length
  entries_lt : entries.length < 2 ^ 32
  parsed : ∀ er ∈ entries, Entry.parse er.2 = some (er.1, er.2.length)
  root : (rtRangeProof (blake3 h) (entries.map fun er => Entry.leaf h er.2) 0 1).1 = some mT

namespace TierManifest

variable {h : Blake3}

/-- `chain` is set for a stage-2 manifest, whose context is fixed with its tier. -/
def parse (h : Blake3) (data : List UInt8) (chain : Option ChainCtx) : Option (TierManifest h) :=
  match hfile : readFile data with
  | .error _ => none
  | .ok (entries, nProducts) =>
    if hn : 0 < nProducts.toNat ∧ nProducts.toNat ≤ entries.length then
      match hroot : (rtRangeProof (blake3 h) (entries.map fun er => Entry.leaf h er.2) 0 1).1 with
      | none => none
      | some mT => some {
          entries, nProducts, mT, chain
          products_pos := hn.1
          products_le := hn.2
          entries_lt := (parse_of_readFile hfile).1
          parsed := (parse_of_readFile hfile).2
          root := hroot }
    else none

variable (m : TierManifest h)

def np : Nat := m.nProducts.toNat

def leaves : List Hash := m.entries.map fun er => Entry.leaf h er.2

/-- `none` where the source's index would be out of range. -/
def entry (index : Nat) : Option Entry := m.entries[index]?.map Prod.fst

def entryOpening (index : Nat) : Option EntryOpening :=
  m.entries[index]?.map fun er =>
    { index := UInt32.ofNat index, bytes := er.2
      path := (rtRangeProof (blake3 h) m.leaves index 1).2 }

/-- Leaves of one position. -/
def nLeaves : Nat :=
  match m.chain with
  | some c => nPosLeaves m.np c.nLayers.toNat (nRouter c)
  | none => 2 * m.np + 1

/-- Consensus data of this manifest over the model root of `index`. -/
def tierCtx (index : Pom.WeightIndex) : TierCtx where
  rT := index.rT
  nChunks := index.nChunks
  mT := m.mT
  nEntries := m.entries.length
  nProducts := m.np

end TierManifest

/-! ## Records -/

/-- Trace of one response. -/
structure TraceRecord (h : Blake3) where
  stage : UInt8
  nPrompt : UInt32
  nPos : UInt32
  ubatch : List UInt32
  nLeaves : Nat
  leaves : List Hash
  posRoots : List Hash
  traceRoot : Hash
  tokensRoot : Option Hash
  prompt_pos : 0 < nPrompt.toNat
  prompt_le : nPrompt.toNat ≤ nPos.toNat
  length_ubatch : ubatch.length = nPos.toNat
  length_leaves : leaves.length = nPos.toNat * nLeaves
  nLeaves_lt : nLeaves < 2 ^ 64
  roots : (List.range nPos.toNat).mapM' (fun t => b3Root h.toMerges (block nLeaves leaves t)) =
    some posRoots
  root : b3Root h.toMerges posRoots = some traceRoot

namespace TraceRecord

variable {h : Blake3}

/-- The record of the leaves of `ubatch.length` positions, none of which is unwritten. -/
def ofLeaves (h : Blake3) (stage : UInt8) (nPrompt : UInt32) (ubatch : List UInt32) (nLeaves : Nat)
    (leaves : List Hash) (tokensRoot : Option Hash) : Option (TraceRecord h) :=
  if hs : 0 < nPrompt.toNat ∧ nPrompt.toNat ≤ ubatch.length ∧ ubatch.length < 2 ^ 32 ∧
      leaves.length = ubatch.length * nLeaves ∧ nLeaves < 2 ^ 64 then
    if Vector.replicate 32 0 ∈ leaves then none
    else
      match hr : (List.range ubatch.length).mapM' fun t =>
        b3Root h.toMerges (block nLeaves leaves t) with
      | none => none
      | some posRoots =>
        match ht : b3Root h.toMerges posRoots with
        | none => none
        | some traceRoot =>
          have hlen : (UInt32.ofNat ubatch.length).toNat = ubatch.length :=
            UInt32.toNat_ofNat_of_lt' hs.2.2.1
          some {
            stage, nPrompt, ubatch, nLeaves, leaves, posRoots, traceRoot, tokensRoot
            nPos := UInt32.ofNat ubatch.length
            prompt_pos := hs.1
            prompt_le := by rw [hlen]; exact hs.2.1
            length_ubatch := hlen.symm
            length_leaves := by rw [hlen]; exact hs.2.2.2.1
            nLeaves_lt := hs.2.2.2.2
            roots := by rw [hlen]; exact hr
            root := ht }
  else none

def emptyLeaf (h : Blake3) : Hash := blake3 h []

/-- The leaves of product `r` that the engine never writes. -/
def fillProduct (m : TierManifest h) (beforeOutput : Bool) (pos : List Hash) (r : Nat) : List Hash :=
  match m.entry r with
  | none => pos
  | some e =>
    let pos := if e.gluForm = Manifest.formPairUp then pos.set (2 * r + 1) (emptyLeaf h) else pos
    if e.role = Manifest.roleOutput ∧ beforeOutput then
      (pos.set (2 * r) (emptyLeaf h)).set (2 * r + 1) (emptyLeaf h)
    else pos

def fillProducts (m : TierManifest h) (beforeOutput : Bool) (pos : List Hash) : List Hash :=
  (List.range m.np).foldl (fillProduct m beforeOutput) pos

/-- The residuals of the last layer that the engine does not write. -/
def fillTrimmed (m : TierManifest h) (ctx : ChainCtx) (beforeOutput : Bool) (pos : List Hash) :
    List Hash :=
  if ctx.trimLast ∧ beforeOutput then
    (pos.set (residLeaf m.np (ctx.nLayers.toNat - 1) .attn) (emptyLeaf h)).set
      (residLeaf m.np (ctx.nLayers.toNat - 1) .out) (emptyLeaf h)
  else pos

def routed (m : TierManifest h) (ctx : ChainCtx) (l : Nat) : Bool :=
  match (m.entry (ctx.layerBase.toNat + l)).bind Entry.layer with
  | some ll => ll.moe.isSome
  | none => false

/-- The router scores of layers without routed experts. -/
def fillRouters (m : TierManifest h) (ctx : ChainCtx) (beforeOutput : Bool) (pos : List Hash) :
    List Hash :=
  if 0 < ctx.nUsed then
    (List.range ctx.nLayers.toNat).foldl (fun pos l =>
      if ¬ routed m ctx l ∨ (ctx.trimLast ∧ l + 1 = ctx.nLayers.toNat ∧ beforeOutput) then
        pos.set (routerLeaf m.np ctx.nLayers.toNat l) (emptyLeaf h)
      else pos) pos
  else pos

/-- The leaves with every position filled in, the last leaf of which is the hash of its meta
bytes. -/
def filled (nLeaves nPos : Nat) (fill : Nat → List Hash → List Hash) (metaBytes : Nat → List UInt8)
    (leaves : List Hash) : List Hash :=
  (List.range nPos).flatMap fun t =>
    (fill t (block nLeaves leaves t)).set (nLeaves - 1) (blake3 h (metaBytes t))

/-- Stage-1 record of the leaves as written by the engine. -/
def new (m : TierManifest h) (nPrompt : UInt32) (ubatch : List UInt32) (leaves : List Hash) :
    Option (TraceRecord h) :=
  if leaves.length ≠ ubatch.length * m.nLeaves then none
  else
    let fill t := fillProducts m (t + 1 < nPrompt.toNat)
    let metaBytes t := (PosShape.stage1 m.np).metaBytes t (ubatch.getD t 0)
    ofLeaves h 1 nPrompt ubatch m.nLeaves
      (filled (h := h) m.nLeaves ubatch.length fill metaBytes leaves) none

/-- Stage-2 record over a chain manifest; `tokens` are the fed tokens, one per position. -/
def newChain (m : TierManifest h) (nPrompt : UInt32) (ubatch : List UInt32) (leaves : List Hash)
    (tokens : List UInt32) : Option (TraceRecord h) :=
  match m.chain with
  | none => none
  | some ctx =>
    if leaves.length ≠ ubatch.length * m.nLeaves ∨ tokens.length ≠ ubatch.length ∨
        ctx.nLayers = 0 then none
    else
      let fill t pos :=
        let before := t + 1 < nPrompt.toNat
        fillRouters m ctx before (fillTrimmed m ctx before (fillProducts m before pos))
      let metaBytes t := chainMeta (UInt32.ofNat t) (ubatch.getD t 0) (tokens.getD t 0)
      ofLeaves h 2 nPrompt ubatch m.nLeaves
        (filled (h := h) m.nLeaves ubatch.length fill metaBytes leaves)
        (some (blake3 h ((tokens.drop nPrompt.toNat).flatMap fun tok => toLe 4 tok.toNat)))

variable (rec : TraceRecord h)

def leavesAt (t : Nat) : List Hash := block rec.nLeaves rec.leaves t

def responseCtx : ResponseCtx := ⟨rec.traceRoot, rec.nPrompt, rec.nPos⟩

/-- Path of position `t` in the position tree. -/
def posPath (t : Nat) : List Hash := b3Path h.toMerges rec.posRoots t

end TraceRecord

end KeryxMiner.Replay
