import KeryxMiner.Outcome
import KeryxMiner.Inference.Manifest
import Mathlib.Algebra.GroupWithZero.Nat

/-!
# Draws and leaves

What the verifier draws from the seed of a response, and where the leaves of a traced position are:
an input and an output for every product, two residuals for every layer, the scores of the routers
and the meta leaf.
-/

namespace KeryxMiner.Inference

/-- How a check fails. -/
inductive Fail
  | shape
  | manifest
  | weights
  | trace
  | unsupported
  | mismatch
  deriving DecidableEq

/-- Consensus data of a tier. -/
structure TierCtx where
  rT : Hash
  nChunks : Nat
  mT : Hash
  nEntries : Nat
  nProducts : Nat

/-- Committed data of the response. -/
structure ResponseCtx where
  traceRoot : Hash
  nPrompt : UInt32
  nPos : UInt32

/-- Consensus chain data of a tier, without the factors of its floating-point checks. -/
structure ChainCtx where
  nLayers : UInt32
  layerBase : UInt32
  embdEntry : UInt32
  trimLast : Bool
  nUsed : UInt32
  nAttn : UInt32
  nRecur : UInt32
  seqHeads : UInt32

/-! ## Draws -/

namespace Draw

def points : Nat := 2
def prefixPoint : UInt32 := 2
def residPoint : UInt32 := 3
def attnPoint : UInt32 := 4
def recurPoint : UInt32 := 5
/-- `FRAGMENT_DRAW`. -/
def fragment : UInt32 := 64

/-- Draw `j` of point `i`. -/
def point (h : Blake3) (seed : Hash) (i : UInt32) (j : Nat) : Nat :=
  ofLe (((blake3 h (seed.toList ++ toLe 4 i.toNat)).toList.drop (8 * j)).take 8)

theorem point_zeroHash {seed : Hash} {i : UInt32} : point zeroHash seed i = fun _ => 0 := by
  funext j
  rw [point, blake3_zeroHash, Vector.toList_replicate, List.drop_replicate, List.take_replicate,
    ofLe_replicate_zero]

end Draw

/-! ## Leaves of a position -/

inductive Resid
  | attn
  | out
  deriving DecidableEq

def nPosLeaves (nProducts nLayers nRouter : Nat) : Nat := 2 * nProducts + 2 * nLayers + nRouter + 1

def routerLeaf (nProducts nLayers layer : Nat) : Nat := 2 * nProducts + 2 * nLayers + layer

def residLeaf (nProducts layer : Nat) (kind : Resid) : Nat :=
  2 * nProducts + 2 * layer + if kind = .attn then 0 else 1

def metaLeafIndex (nProducts nLayers nRouter : Nat) : Nat := 2 * nProducts + 2 * nLayers + nRouter

def nRouter (ctx : ChainCtx) : Nat := if 0 < ctx.nUsed then ctx.nLayers.toNat else 0

/-- `chain::meta`: position, batch size and token of the position. -/
def chainMeta (t nUbatch tok : UInt32) : List UInt8 :=
  toLe 4 t.toNat ++ toLe 4 nUbatch.toNat ++ toLe 4 tok.toNat

/-- Leaf layout of a traced position. -/
structure PosShape where
  nLeaves : Nat
  metaIndex : Nat
  /-- The token in the meta leaf of a stage-2 trace. -/
  tok : Option UInt32
  nUsed : UInt32

namespace PosShape

def stage1 (nProducts : Nat) : PosShape := ⟨2 * nProducts + 1, 2 * nProducts, none, 0⟩

/-- `chain::shape`. -/
def chain (nProducts : Nat) (ctx : ChainCtx) (tok : UInt32) : PosShape where
  nLeaves := nPosLeaves nProducts ctx.nLayers.toNat (nRouter ctx)
  metaIndex := metaLeafIndex nProducts ctx.nLayers.toNat (nRouter ctx)
  tok := some tok
  nUsed := ctx.nUsed

def metaBytes (s : PosShape) (t : Nat) (nUbatch : UInt32) : List UInt8 :=
  match s.tok with
  | some tok => chainMeta (UInt32.ofNat t) nUbatch tok
  | none => toLe 4 (UInt32.ofNat t).toNat ++ toLe 4 nUbatch.toNat

end PosShape

/-- Position of a residual point of `layer`. -/
def residPosition (ctx : ChainCtx) (resp : ResponseCtx) (layer d0 : Nat) : Except Fail Nat :=
  let nPos := resp.nPos.toNat
  if ctx.trimLast ∧ layer + 1 = ctx.nLayers.toNat then
    let first := resp.nPrompt.toNat - 1
    if resp.nPrompt = 0 ∨ nPos ≤ first then .error .shape
    else .ok (first + d0 % (nPos - first))
  else .ok (d0 % nPos)

/-- The loop of `resid_site` from site `j` on, of which `n` are left. -/
def residSiteFrom (x j : Nat) : (n : Nat) → Nat
  | 0 => 0
  | n + 1 => if x < n + 1 then j else residSiteFrom (x - (n + 1)) (j + 1) n

/-- The residual site drawn from `d1` among `nSites`, where site `j` has the weight `nSites - j`. -/
def residSite (d1 nSites : Nat) : Nat :=
  residSiteFrom (d1 % max (nSites * (nSites + 1) / 2) 1) 0 nSites

/-! ## Inputs -/

def mmvq : UInt8 := 0
def mmqD4 : UInt8 := 1
def mmqDs4 : UInt8 := 2
def mmqD2s6 : UInt8 := 3

def ubatchSize : Nat := 512

/-- Batch size the traced run computes position `t` with. -/
def expectedUbatch (t : Nat) (nPrompt : UInt32) : UInt32 :=
  if nPrompt.toNat ≤ t then 1
  else UInt32.ofNat (min ubatchSize (nPrompt.toNat - t / ubatchSize * ubatchSize))

def layoutFor (nUbatch wtype : UInt32) : UInt8 :=
  if nUbatch ≤ 8 then mmvq else if wtype ∈ [2, 3, 7, 12, 13] then mmqDs4 else mmqD4

def inputLayout (role : UInt8) (nUbatch wtype : UInt32) : UInt8 :=
  if role = Manifest.roleOutput then mmvq else layoutFor nUbatch wtype

/-- Bytes of an input row of `k` values. -/
def xLen (k : Nat) (layout : UInt8) : Nat :=
  let kp := (k + 511) / 512 * 512
  if layout = mmvq then kp / 32 * 36 else kp / 128 * 144

/-- How many blocks `q8::blocks` finds in the input `x` of `k` values. -/
def q8Blocks (x : List UInt8) (layout : UInt8) (k : Nat) : Option Nat :=
  if layout = mmvq then if x.length < (k + 31) / 32 * 36 then none else some ((k + 31) / 32)
  else if layout ∈ [mmqD4, mmqDs4, mmqD2s6] then
    if x.length < (k + 127) / 128 * 144 then none else some ((k + 31) / 32)
  else none

/-- The floating-point arithmetic of the checks. -/
structure Numerics where
  /-- A recomputed output with its error scale. -/
  Value : Type
  sumsConsistent : List UInt8 → UInt8 → Nat → Bool
  canonicalDot : UInt32 → List UInt8 → Nat → List UInt8 → UInt8 → Option Value
  /-- The output against the row's value and the bias. -/
  plainWithin : List UInt8 → Value → Option (List UInt8) → Bool
  /-- The output against the gated product of the two rows' values. -/
  gluWithin : UInt8 → List UInt8 → Value → Value → Bool
  /-- The weights of the blocks of an input by their scales, if those are finite. -/
  blockWeights : List UInt8 → UInt8 → Nat → Option (List Nat)

/-- The weighted choice at the end of `link_block`. -/
def pickWeighted : (target : Nat) → List Nat → Option Nat
  | _, [] => none
  | target, w :: ws => if target < w then some 0 else (pickWeighted (target - w) ws).map (· + 1)

/-- The block of the input `x` that the link of point `i` checks. -/
def linkBlock (h : Blake3) (num : Numerics) (seed : Hash) (i : UInt32) (x : List UInt8)
    (layout : UInt8) (k : Nat) : Option Nat :=
  if k % 32 ≠ 0 then none
  else
    match q8Blocks x layout k with
    | none => none
    | some n =>
      let r := Draw.point h seed (Draw.fragment + i)
      if n = 0 then none
      else if r 1 % 2 = 0 then some (r 0 % n)
      else
        match num.blockWeights x layout k with
        | none => none
        | some w => pickWeighted (r 2 % w.sum) w

/-- First block and block count of the norm weight fragment covering `block` over `k` values. -/
def normFragment (block k : Nat) : Nat × Nat :=
  let blocks := (k + 31) / 32
  let n := min 8 blocks
  (min block (blocks - n), n)

end KeryxMiner.Inference
