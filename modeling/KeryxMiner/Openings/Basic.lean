import KeryxMiner.Wire

/-!
# Openings

The payloads by which a miner opens points of its committed traces, and their encoding. Lists are
preceded by their length in one byte, entry bytes by two and other bytes by four; a length that does
not fit is cut. The writer's methods are the functions of `W`, which give the bytes they append, and
the reader's those of `R`.
-/

namespace KeryxMiner.Openings

abbrev Hash := Vector UInt8 32

def version : UInt8 := 1
def versionPrefix : UInt8 := 2
def versionChain : UInt8 := 3
def versionSeeded : UInt8 := 4
def versionAttn : UInt8 := 5
def versionRecur : UInt8 := 6
def versionRoots : UInt8 := 7
def versionResid : UInt8 := 8

structure EntryOpening where
  index : UInt32
  bytes : List UInt8
  path : List Hash
  deriving DecidableEq, Inhabited

structure ChunkRange where
  firstChunk : UInt64
  chunks : List UInt8
  proof : List Hash
  deriving DecidableEq, Inhabited

abbrev Weights := EntryOpening × ChunkRange

structure Point where
  nUbatch : UInt32
  posPath : List Hash
  metaPath : List Hash
  entry : EntryOpening
  partner : Option EntryOpening
  bias : Option Weights
  rows : List ChunkRange
  x : List UInt8
  xPath : List Hash
  yTotalLen : UInt32
  yChunkIndex : UInt32
  yChunk : List UInt8
  yChunkPath : List Hash
  yPath : List Hash

structure PrefixPoint where
  nUbatch : UInt32
  posPath : List Hash
  metaPath : List Hash
  entry : EntryOpening
  x : List UInt8
  xPath : List Hash
  embd : Weights
  norm : Weights

structure ExpertIds where
  chunk : List UInt8
  chunkPath : List Hash

structure LeafChunk where
  totalLen : UInt32
  index : UInt32
  chunk : List UInt8
  chunkPath : List Hash
  leafPath : List Hash
  deriving DecidableEq, Inhabited

structure LeafBytes where
  bytes : List UInt8
  leafPath : List Hash
  deriving DecidableEq, Inhabited

structure SeqSpan where
  firstChunk : UInt32
  bytes : List UInt8
  chunkProof : List Hash
  leafPath : List Hash
  deriving DecidableEq, Inhabited

inductive LinkOpening where
  | none
  | norm (src : LeafBytes) (norm : Weights)
  | token (embd norm : Weights)
  | source (src : EntryOpening) (y : LeafChunk) (ids : Option ExpertIds)

inductive ResidSrc where
  | chunk (c : LeafChunk)
  | token (e : EntryOpening) (r : ChunkRange)

structure MoeAdd where
  scores : LeafBytes
  bias : Weights
  ids : ExpertIds
  slots : List LeafChunk
  shexp : LeafChunk
  routerRow : Weights
  resid : LeafBytes
  norm : Weights

inductive ResidAdd where
  | chunk (c : LeafChunk)
  | normed (y : LeafBytes) (norm : Weights)
  | moe (m : MoeAdd)

structure ResidPoint where
  nUbatch : UInt32
  tok : UInt32
  posPath : List Hash
  metaPath : List Hash
  layer : EntryOpening
  product : EntryOpening
  dst : LeafChunk
  src : ResidSrc
  add : ResidAdd

structure Opening where
  responseTxid : Hash
  points : List Point
  prefixPoint : Option PrefixPoint
  /-- The token and link of each point. -/
  links : List (UInt32 × LinkOpening)
  experts : List (Option ExpertIds)
  resid : Option ResidPoint
  roots : Option (Hash × Hash)

structure FeedRow where
  x : List UInt8
  xPath : List Hash
  row : ChunkRange
  bias : Option Weights

structure ExpertRow where
  entry : EntryOpening
  x : List UInt8
  xPath : List Hash
  row : ChunkRange

structure ResidOpening where
  responseTxid : Hash
  roots : Option (Hash × Hash)
  resid : ResidPoint
  feed : FeedRow
  expert : Option ExpertRow

structure AttnOpening where
  responseTxid : Hash
  posRoot : Hash
  seqRoot : Hash
  layer : EntryOpening
  qEntry : EntryOpening
  oEntry : EntryOpening
  norms : List Weights
  posPath : List Hash
  q : List LeafChunk
  out : LeafBytes
  kcache : SeqSpan
  vcache : SeqSpan
  anchorPosPath : List Hash
  anchorK : List LeafChunk
  anchorV : List LeafChunk
  absorb : List LeafChunk
  path : List UInt64
  parent : List UInt8
  parentPath : List Hash
  partials : List UInt8
  lse : SeqSpan
  deriving DecidableEq, Inhabited

structure RecurTap where
  posPath : List Hash
  q : LeafChunk
  k : LeafChunk
  v : LeafChunk

structure RecurOpening where
  responseTxid : Hash
  posRoot : Hash
  seqRoot : Hash
  layer : EntryOpening
  outEntry : EntryOpening
  decayEntry : EntryOpening
  weights : List Weights
  records : SeqSpan
  startRows : SeqSpan
  endRows : SeqSpan
  taps : List RecurTap
  beta : LeafChunk
  decay : LeafChunk
  gate : LeafChunk
  out : LeafBytes

/-! ## Writing -/

namespace W

def u8 (v : UInt8) : List UInt8 := toLe 1 v.toNat
def u16 (v : UInt16) : List UInt8 := toLe 2 v.toNat
def u32 (v : UInt32) : List UInt8 := toLe 4 v.toNat
def u64 (v : UInt64) : List UInt8 := toLe 8 v.toNat

def hash (h : Hash) : List UInt8 := h.toList

def bytes32 (b : List UInt8) : List UInt8 := u32 (UInt32.ofNat b.length) ++ b

/-- A list behind its length in one byte. -/
def list {α : Type} (put : α → List UInt8) (l : List α) : List UInt8 :=
  u8 (UInt8.ofNat l.length) ++ l.flatMap put

def hashes (h : List Hash) : List UInt8 := list hash h

def entry (e : EntryOpening) : List UInt8 :=
  u32 e.index ++ u16 (UInt16.ofNat e.bytes.length) ++ e.bytes ++ hashes e.path

def range (r : ChunkRange) : List UInt8 :=
  u64 r.firstChunk ++ u32 (UInt32.ofNat (r.chunks.length / 32)) ++ r.chunks ++ hashes r.proof

def weights (w : Weights) : List UInt8 := entry w.1 ++ range w.2

def leafChunk (c : LeafChunk) : List UInt8 :=
  u32 c.totalLen ++ u32 c.index ++ bytes32 c.chunk ++ hashes c.chunkPath ++ hashes c.leafPath

def leafBytes (l : LeafBytes) : List UInt8 := bytes32 l.bytes ++ hashes l.leafPath

def seqSpan (s : SeqSpan) : List UInt8 :=
  u32 s.firstChunk ++ bytes32 s.bytes ++ hashes s.chunkProof ++ hashes s.leafPath

/-- An optional part behind a flag. -/
def option {α : Type} (put : α → List UInt8) : Option α → List UInt8
  | some a => u8 1 ++ put a
  | none => u8 0

def expertIds (e : ExpertIds) : List UInt8 := bytes32 e.chunk ++ hashes e.chunkPath

def link : LinkOpening → List UInt8
  | .none => u8 0
  | .norm src norm => u8 1 ++ leafBytes src ++ weights norm
  | .token embd norm => u8 2 ++ weights embd ++ weights norm
  | .source src y ids => u8 3 ++ entry src ++ leafChunk y ++ option expertIds ids

def residSrc : ResidSrc → List UInt8
  | .chunk c => u8 0 ++ leafChunk c
  | .token e r => u8 1 ++ entry e ++ range r

def residAdd : ResidAdd → List UInt8
  | .chunk c => u8 0 ++ leafChunk c
  | .normed y norm => u8 1 ++ leafBytes y ++ weights norm
  | .moe m => u8 2 ++ leafBytes m.scores ++ weights m.bias ++ bytes32 m.ids.chunk ++
      hashes m.ids.chunkPath ++ list leafChunk m.slots ++ leafChunk m.shexp ++
      weights m.routerRow ++ leafBytes m.resid ++ weights m.norm

def resid (p : ResidPoint) : List UInt8 :=
  u32 p.nUbatch ++ u32 p.tok ++ hashes p.posPath ++ hashes p.metaPath ++ entry p.layer ++
    entry p.product ++ leafChunk p.dst ++ residSrc p.src ++ residAdd p.add

/-- A point in the loop of `Opening::encode`. -/
def point (p : Point) : List UInt8 :=
  u32 p.nUbatch ++ hashes p.posPath ++ hashes p.metaPath ++ entry p.entry ++
    option entry p.partner ++ option weights p.bias ++ list range p.rows ++ bytes32 p.x ++
    hashes p.xPath ++ u32 p.yTotalLen ++ u32 p.yChunkIndex ++ bytes32 p.yChunk ++
    hashes p.yChunkPath ++ hashes p.yPath

def prefixPoint (p : PrefixPoint) : List UInt8 :=
  u32 p.nUbatch ++ hashes p.posPath ++ hashes p.metaPath ++ entry p.entry ++ bytes32 p.x ++
    hashes p.xPath ++ entry p.embd.1 ++ range p.embd.2 ++ entry p.norm.1 ++ range p.norm.2

end W

/-! ## Reading -/

namespace R

open Reader

def u8 : Reader UInt8 := do return UInt8.ofNat (← le 1)
def u16 : Reader UInt16 := do return UInt16.ofNat (← le 2)
def u32 : Reader UInt32 := do return UInt32.ofNat (← le 4)
def u64 : Reader UInt64 := do return UInt64.ofNat (← le 8)

/-- The bytes as a hash, if there are 32. -/
def toHash (b : List UInt8) : Reader Hash :=
  if h : b.length = 32 then return ⟨b.toArray, by simpa using h⟩ else fail

def hash : Reader Hash := do toHash (← take 32)

def bytes32 : Reader (List UInt8) := do
  let n ← u32
  take n.toNat

/-- A list behind its length in one byte. -/
def list {α : Type} (r : Reader α) : Reader (List α) := do
  let n ← u8
  many r n.toNat

def hashes : Reader (List Hash) := list hash

def entry : Reader EntryOpening := do
  let index ← u32
  let n ← u16
  let bytes ← take n.toNat
  return { index, bytes, path := ← hashes }

def range : Reader ChunkRange := do
  let firstChunk ← u64
  let n ← u32
  let chunks ← take (n.toNat * 32)
  return { firstChunk, chunks, proof := ← hashes }

def weights : Reader Weights := do return (← entry, ← range)

def leafChunk : Reader LeafChunk := do
  return { totalLen := ← u32, index := ← u32, chunk := ← bytes32, chunkPath := ← hashes
           leafPath := ← hashes }

def leafBytes : Reader LeafBytes := do return { bytes := ← bytes32, leafPath := ← hashes }

def seqSpan : Reader SeqSpan := do
  return { firstChunk := ← u32, bytes := ← bytes32, chunkProof := ← hashes, leafPath := ← hashes }

/-- An optional part behind a flag, which must be zero or one. -/
def option {α : Type} (r : Reader α) : Reader (Option α) := do
  match ← u8 with
  | 0 => return none
  | 1 => return some (← r)
  | _ => fail

/-- An optional part behind a flag, where every flag but one means none. -/
def optionOne {α : Type} (r : Reader α) : Reader (Option α) := do
  if (← u8) = 1 then return some (← r) else return none

def expertIds : Reader ExpertIds := do return { chunk := ← bytes32, chunkPath := ← hashes }

def link : Reader LinkOpening := do
  match ← u8 with
  | 0 => return .none
  | 1 => return .norm (← leafBytes) (← weights)
  | 2 => return .token (← weights) (← weights)
  | 3 => return .source (← entry) (← leafChunk) (← option expertIds)
  | _ => fail

def residSrc : Reader ResidSrc := do
  match ← u8 with
  | 0 => return .chunk (← leafChunk)
  | 1 => return .token (← entry) (← range)
  | _ => fail

def moeAdd : Reader MoeAdd := do
  let scores ← leafBytes
  let bias ← weights
  let ids : ExpertIds := { chunk := ← bytes32, chunkPath := ← hashes }
  let slots ← list leafChunk
  return { scores, bias, ids, slots, shexp := ← leafChunk, routerRow := ← weights
           resid := ← leafBytes, norm := ← weights }

def residAdd : Reader ResidAdd := do
  match ← u8 with
  | 0 => return .chunk (← leafChunk)
  | 1 => return .normed (← leafBytes) (← weights)
  | 2 => return .moe (← moeAdd)
  | _ => fail

def resid : Reader ResidPoint := do
  let nUbatch ← u32
  let tok ← u32
  let posPath ← hashes
  let metaPath ← hashes
  let layer ← entry
  let product ← entry
  let dst ← leafChunk
  let src ← residSrc
  let add ← residAdd
  return { nUbatch, tok, posPath, metaPath, layer, product, dst, src, add }

def point : Reader Point := do
  let nUbatch ← u32
  let posPath ← hashes
  let metaPath ← hashes
  let entry ← entry
  let partner ← optionOne R.entry
  let bias ← optionOne weights
  let rows ← list range
  return { nUbatch, posPath, metaPath, entry, partner, bias, rows, x := ← bytes32, xPath := ← hashes
           yTotalLen := ← u32, yChunkIndex := ← u32, yChunk := ← bytes32, yChunkPath := ← hashes
           yPath := ← hashes }

/-- A point's link and experts. -/
def linkExperts : Reader ((UInt32 × LinkOpening) × Option ExpertIds) := do
  let tok ← u32
  let link ← link
  return ((tok, link), ← option expertIds)

def prefixPoint : Reader PrefixPoint := do
  return { nUbatch := ← u32, posPath := ← hashes, metaPath := ← hashes, entry := ← entry
           x := ← bytes32, xPath := ← hashes, embd := (← entry, ← range)
           norm := (← entry, ← range) }

end R

end KeryxMiner.Openings
