import KeryxMiner.Openings.Basic

/-!
# Encoding of the opening kinds

`encode` and `decode` of the four opening kinds. An `Opening` is written in the version that its
optional parts ask for; the other kinds have one version each.
-/

namespace KeryxMiner.Openings

namespace Opening

variable (o : Opening)

def chain : Bool := !o.links.isEmpty || o.resid.isSome

def wireVersion : UInt8 :=
  if o.chain && o.roots.isSome then versionRoots
  else if o.chain then versionChain
  else if o.prefixPoint.isSome then versionPrefix
  else version

/-- The link at index `i` and the experts there, if the list of experts reaches that far. -/
def putLink (i : Nat) (link : UInt32 × LinkOpening) : List UInt8 :=
  W.u32 link.1 ++ W.link link.2 ++ W.option W.expertIds (o.experts[i]?.join)

def encode : List UInt8 :=
  W.u8 o.wireVersion ++ W.hash o.responseTxid ++
    (match o.chain, o.roots with
      | true, some (p, q) => W.hash p ++ W.hash q
      | _, _ => []) ++
    W.list W.point o.points ++
    (if o.chain then (o.links.mapIdx o.putLink).flatten else []) ++
    o.prefixPoint.elim [] W.prefixPoint ++
    o.resid.elim [] W.resid

/-- The roots, in the version that has them. -/
def getRoots (version : UInt8) : Reader (Option (Hash × Hash)) := do
  if version = versionRoots then return some (← R.hash, ← R.hash) else return none

/-- The rest of a residual chain, if bytes are left. -/
def getResid (chain : Bool) : Reader (Option ResidPoint) := do
  if chain ∧ (← get) ≠ [] then return some (← R.resid) else return none

/-- An unseeded body. -/
def body : Reader Opening := do
  let version ← R.u8
  if version ∉ [Openings.version, versionPrefix, versionChain, versionRoots] then Reader.fail
  let chain := version == versionChain || version == versionRoots
  let responseTxid ← R.hash
  let roots ← getRoots version
  let n ← R.u8
  let points ← Reader.many R.point n.toNat
  let linksExperts ← if chain then Reader.many R.linkExperts n.toNat else pure []
  let prefixPoint ← if versionPrefix ≤ version then some <$> R.prefixPoint else pure none
  return { responseTxid, points, prefixPoint, links := linksExperts.map Prod.fst
           experts := linksExperts.map Prod.snd, resid := ← getResid chain, roots }

/-- The body inside a seeded envelope is the one whose version stands behind the seed block. -/
def decode (b : List UInt8) : Option Opening :=
  if b.head? = some versionSeeded then
    match b[65]? with
    | none => none
    | some inner =>
      if inner = versionSeeded then none
      else Reader.all body (inner :: ((b.drop 1).take 32 ++ b.drop 66))
  else Reader.all body b

end Opening

/-- A kind with one version: its version, then its parts. -/
def decodeAs {α : Type} (version : UInt8) (r : Reader α) (b : List UInt8) : Option α :=
  match b with
  | v :: b => if v = version then Reader.all r b else none
  | [] => none

namespace ResidOpening

def putRoots (roots : Hash × Hash) : List UInt8 := W.hash roots.1 ++ W.hash roots.2

def getRoots : Reader (Hash × Hash) := do return (← R.hash, ← R.hash)

def putExpert (e : ExpertRow) : List UInt8 :=
  W.entry e.entry ++ W.bytes32 e.x ++ W.hashes e.xPath ++ W.range e.row

def getExpert : Reader ExpertRow := do
  return { entry := ← R.entry, x := ← R.bytes32, xPath := ← R.hashes, row := ← R.range }

def encode (o : ResidOpening) : List UInt8 :=
  List.flatten [W.u8 versionResid, W.hash o.responseTxid, W.option putRoots o.roots,
    W.resid o.resid, W.bytes32 o.feed.x, W.hashes o.feed.xPath, W.range o.feed.row,
    W.option W.weights o.feed.bias, W.option putExpert o.expert]

def getFeed : Reader FeedRow := do
  return { x := ← R.bytes32, xPath := ← R.hashes, row := ← R.range, bias := ← R.option R.weights }

def body : Reader ResidOpening := do
  let responseTxid ← R.hash
  let roots ← R.option getRoots
  let resid ← R.resid
  return { responseTxid, roots, resid, feed := ← getFeed, expert := ← R.option getExpert }

def decode : List UInt8 → Option ResidOpening := decodeAs versionResid body

end ResidOpening

namespace AttnOpening

def encode (o : AttnOpening) : List UInt8 :=
  List.flatten [W.u8 versionAttn, W.hash o.responseTxid, W.hash o.posRoot, W.hash o.seqRoot,
    W.entry o.layer, W.entry o.qEntry, W.entry o.oEntry, W.list W.weights o.norms,
    W.hashes o.posPath, W.list W.leafChunk o.q, W.leafBytes o.out, W.seqSpan o.kcache,
    W.seqSpan o.vcache, W.hashes o.anchorPosPath, W.list W.leafChunk o.anchorK,
    W.list W.leafChunk o.anchorV, W.list W.leafChunk o.absorb, W.list W.u64 o.path,
    W.bytes32 o.parent, W.hashes o.parentPath, W.bytes32 o.partials, W.seqSpan o.lse]

def body : Reader AttnOpening := do
  let responseTxid ← R.hash
  let posRoot ← R.hash
  let seqRoot ← R.hash
  let layer ← R.entry
  let qEntry ← R.entry
  let oEntry ← R.entry
  let norms ← R.list R.weights
  let posPath ← R.hashes
  let q ← R.list R.leafChunk
  let out ← R.leafBytes
  let kcache ← R.seqSpan
  let vcache ← R.seqSpan
  let anchorPosPath ← R.hashes
  let anchorK ← R.list R.leafChunk
  let anchorV ← R.list R.leafChunk
  let absorb ← R.list R.leafChunk
  let path ← R.list R.u64
  let parent ← R.bytes32
  let parentPath ← R.hashes
  let partials ← R.bytes32
  let lse ← R.seqSpan
  return { responseTxid, posRoot, seqRoot, layer, qEntry, oEntry, norms, posPath, q, out, kcache
           vcache, anchorPosPath, anchorK, anchorV, absorb, path, parent, parentPath, partials
           lse }

def decode : List UInt8 → Option AttnOpening := decodeAs versionAttn body

end AttnOpening

namespace RecurOpening

def putTap (t : RecurTap) : List UInt8 :=
  W.hashes t.posPath ++ W.leafChunk t.q ++ W.leafChunk t.k ++ W.leafChunk t.v

def getTap : Reader RecurTap := do
  return { posPath := ← R.hashes, q := ← R.leafChunk, k := ← R.leafChunk, v := ← R.leafChunk }

def encode (o : RecurOpening) : List UInt8 :=
  List.flatten [W.u8 versionRecur, W.hash o.responseTxid, W.hash o.posRoot, W.hash o.seqRoot,
    W.entry o.layer, W.entry o.outEntry, W.entry o.decayEntry, W.list W.weights o.weights,
    W.seqSpan o.records, W.seqSpan o.startRows, W.seqSpan o.endRows, W.list putTap o.taps,
    W.leafChunk o.beta, W.leafChunk o.decay, W.leafChunk o.gate, W.leafBytes o.out]

def body : Reader RecurOpening := do
  let responseTxid ← R.hash
  let posRoot ← R.hash
  let seqRoot ← R.hash
  let layer ← R.entry
  let outEntry ← R.entry
  let decayEntry ← R.entry
  let weights ← R.list R.weights
  let records ← R.seqSpan
  let startRows ← R.seqSpan
  let endRows ← R.seqSpan
  let taps ← R.list getTap
  let beta ← R.leafChunk
  let decay ← R.leafChunk
  let gate ← R.leafChunk
  let out ← R.leafBytes
  return { responseTxid, posRoot, seqRoot, layer, outEntry, decayEntry, weights, records, startRows
           endRows, taps, beta, decay, gate, out }

def decode : List UInt8 → Option RecurOpening := decodeAs versionRecur body

end RecurOpening

end KeryxMiner.Openings
