import KeryxMiner.Inference.Chunks
import KeryxMiner.Openings.Basic

/-!
# Byte spans of sequence leaves

A sequence leaf holds every position of a layer and head end to end. The miner plans the whole
chunks that cover a span, captures them with the chaining value of every chunk of the leaf, and
proves them; the verifier rebuilds the leaf and follows its path to the root over the leaves.
-/

namespace KeryxMiner.Inference

open RangeTree
open Openings (SeqSpan)

/-! ## The verifier -/

/-- A layout of fewer than `2 ^ 64` leaves; `SeqLayout64` has the words of the source. -/
structure SeqLayout where
  nAttn : Nat
  nRecur : Nat
  heads : Nat

namespace SeqLayout

variable (l : SeqLayout)

def nLeaves : Nat := 2 * l.heads * (l.nAttn + l.nRecur) + l.heads * l.nAttn

/-- Key cache leaf of head `h` of attention layer `slot`. -/
def kcache (slot h : Nat) : Option Nat :=
  if slot < l.nAttn ∧ h < l.heads then some (2 * (slot * l.heads + h)) else none

/-- Value cache leaf of head `h` of attention layer `slot`. -/
def vcache (slot h : Nat) : Option Nat := (l.kcache slot h).map (· + 1)

/-- Record leaf of head `h` of recurrent layer `slot`. -/
def record (slot h : Nat) : Option Nat :=
  if slot < l.nRecur ∧ h < l.heads then some (2 * l.heads * l.nAttn + 2 * (slot * l.heads + h))
  else none

/-- Checkpoint leaf of head `h` of recurrent layer `slot`. -/
def checkpoint (slot h : Nat) : Option Nat := (l.record slot h).map (· + 1)

/-- Softmax mass leaf of key/value head `h` of attention layer `slot`. -/
def lse (slot h : Nat) : Option Nat :=
  if slot < l.nAttn ∧ h < l.heads then
    some (2 * l.heads * (l.nAttn + l.nRecur) + slot * l.heads + h)
  else none

end SeqLayout

/-- The bytes `lo` to `hi` of some bytes. -/
def leafSlice (data : List UInt8) (lo hi : Nat) : List UInt8 := (data.drop lo).take (hi - lo)

/-- The start of the chunk of byte `lo`. -/
def chunkFloor (lo : Nat) : Nat := lo / b3Chunk * b3Chunk

/-- The end of the chunk of the byte before `hi`, in a leaf of `total` bytes. -/
def chunkCeil (total hi : Nat) : Nat := min total (chunkCount hi * b3Chunk)

/-- Bytes `lo` to `hi` of sequence leaf `leaf` of `totalLen` bytes. -/
def openSpan (h : Blake3) (seqRoot : Hash) (layout : SeqLayout) (leaf totalLen lo hi : Nat)
    (span : SeqSpan) : Option (List UInt8) := do
  if hi ≤ lo || totalLen < hi || span.firstChunk.toNat != lo / b3Chunk ||
      span.bytes.length != chunkCeil totalLen hi - chunkFloor lo then
    none
  else
    let cv ← b3LeafFromChunks h totalLen (lo / b3Chunk) span.bytes span.chunkProof
    let root ← b3Fold h.toMerges layout.nLeaves leaf cv span.leafPath
    if root != seqRoot then none
    else some (leafSlice span.bytes (lo - chunkFloor lo) (hi - chunkFloor lo))

/-! ## The miner -/

structure SpanPlan where
  leaf : UInt32
  total : Nat
  lo : Nat
  hi : Nat

def SpanPlan.new (leaf total lo hi : Nat) : Option SpanPlan :=
  if lo < hi ∧ hi ≤ total then
    some { leaf := UInt32.ofNat leaf, total, lo := chunkFloor lo, hi := chunkCeil total hi }
  else none

def SpanPlan.nChunks (plan : SpanPlan) : Nat := max (chunkCount plan.total) 1

/-- A captured span and the chaining value of every chunk of its leaf. -/
structure SeqCapture where
  bytes : List UInt8
  cvs : List Hash

/-- The capture of `lo` to `hi` of a leaf. -/
def seqCapture (h : Blake3) (leaf : List UInt8) (lo hi : Nat) : Except String SeqCapture :=
  if hi < lo || leaf.length < hi then
    .error s!"span {lo}..{hi} past a leaf of {leaf.length} bytes"
  else
    let cvs := if leaf.length ≤ b3Chunk then [blake3 h leaf] else chunkCvs h leaf 0
    .ok { bytes := leafSlice leaf lo hi, cvs }

structure SeqTrace where
  leaves : List Hash
  root : Hash

/-- The first captured chunk whose chaining value is not the captured one. -/
def badChunk (h : Blake3) (cap : SeqCapture) (first : Nat) : Option Nat :=
  (List.range (chunkCount cap.bytes.length)).find? fun i =>
    some (h.chunkCv (chunkBytes cap.bytes i 1) (first + i)) != cap.cvs[first + i]?

/-- The range proof of the captured chunks, which are checked against the committed leaf. -/
def spanProof (h : Blake3) (plan : SpanPlan) (cap : SeqCapture) (leafHash : Hash) :
    Except String (List Hash) :=
  let n := plan.nChunks
  let first := plan.lo / b3Chunk
  let count := chunkCount (plan.hi - plan.lo)
  if n = 1 then
    if blake3 h cap.bytes ≠ leafHash then
      .error s!"leaf {plan.leaf}: the replayed single chunk does not hash to the committed leaf"
    else .ok []
  else if cap.cvs.length ≠ n then
    .error s!"leaf {plan.leaf}: {cap.cvs.length} chunk values captured for {n} chunks"
  else if b3Root h.toMerges cap.cvs ≠ some leafHash then
    .error s!"leaf {plan.leaf}: the replayed chunks do not hash to the committed leaf"
  else
    match badChunk h cap first with
    | some i =>
      .error s!"leaf {plan.leaf}: captured chunk {first + i} does not match its chaining value"
    | none => .ok (b3RangeProof h.toMerges cap.cvs first count)

/-- The span of `plan` from its capture. -/
def span (h : Blake3) (plan : SpanPlan) (cap : SeqCapture) (seq : SeqTrace) :
    Except String SeqSpan :=
  match seq.leaves[plan.leaf.toNat]? with
  | none => .error "no such sequence leaf"
  | some leafHash =>
    if cap.bytes.length ≠ plan.hi - plan.lo then
      .error s!"leaf {plan.leaf}: {cap.bytes.length} bytes captured for {plan.lo}..{plan.hi}"
    else
      (spanProof h plan cap leafHash).map fun chunkProof =>
        { firstChunk := UInt32.ofNat (plan.lo / b3Chunk), bytes := cap.bytes, chunkProof
          leafPath := b3Path h.toMerges seq.leaves plan.leaf.toNat }

/-! ## Spans of committed leaves -/

/-- How many whole chunks cover a span. -/
def spanChunks (lo hi : Nat) : Nat := chunkCount hi - lo / b3Chunk

/-- The span of a committed leaf. -/
def commitSpan (h : Blake3) (leaves : List Hash) (leaf : Nat) (data : List UInt8) (lo hi : Nat) :
    SeqSpan where
  firstChunk := UInt32.ofNat (lo / b3Chunk)
  bytes := chunkBytes data (lo / b3Chunk) (spanChunks lo hi)
  chunkProof := b3ChunksProof h data (lo / b3Chunk) (spanChunks lo hi)
  leafPath := b3Path h.toMerges leaves leaf

section

variable {h : Blake3} {data bytes bytes' : List UInt8} {lo hi total first count : Nat}

theorem chunkFloor_eq : chunkFloor lo = lo / 1024 * 1024 := rfl

theorem chunkCeil_eq : chunkCeil total hi = min total ((hi + 1023) / 1024 * 1024) := by
  rw [chunkCeil, chunkCount_eq, b3Chunk]

theorem spanChunks_eq : spanChunks lo hi = (hi + 1023) / 1024 - lo / 1024 := by
  rw [spanChunks, chunkCount_eq, b3Chunk]

theorem spanChunks_pos (hlt : lo < hi) : 1 ≤ spanChunks lo hi := by
  rw [spanChunks_eq]
  omega

theorem spanChunks_le (hlt : lo < hi) (hle : hi ≤ total) :
    lo / b3Chunk + spanChunks lo hi ≤ chunkCount total := by
  rw [spanChunks_eq, chunkCount_eq, b3Chunk]
  omega

theorem length_spanBytes (hlt : lo < hi) (hle : hi ≤ data.length) :
    (chunkBytes data (lo / b3Chunk) (spanChunks lo hi)).length =
      chunkCeil data.length hi - chunkFloor lo := by
  rw [length_chunkBytes, spanChunks_eq, chunkCeil_eq, chunkFloor_eq, b3Chunk]
  omega

/-- What the plan captures is the chunks. -/
theorem leafSlice_plan (hlt : lo < hi) :
    leafSlice data (chunkFloor lo) (chunkCeil data.length hi) =
      chunkBytes data (lo / b3Chunk) (spanChunks lo hi) := by
  rw [leafSlice, chunkBytes, chunkFloor]
  apply List.take_eq_take_iff.mpr
  rw [List.length_drop, chunkCeil_eq, spanChunks_eq, b3Chunk]
  omega

/-- The span is cut out of the chunks. -/
theorem leafSlice_chunks (hlt : lo < hi) :
    leafSlice (chunkBytes data (lo / b3Chunk) (spanChunks lo hi)) (lo - chunkFloor lo)
      (hi - chunkFloor lo) = leafSlice data lo hi := by
  have hfloor : lo / b3Chunk * b3Chunk + (lo - chunkFloor lo) = lo := by
    rw [chunkFloor_eq, b3Chunk]
    omega
  rw [leafSlice, leafSlice, chunkBytes, List.drop_take, List.drop_drop, hfloor, List.take_take]
  congr 1
  rw [chunkFloor_eq, spanChunks_eq, b3Chunk]
  omega

theorem chunkFloor_div : chunkFloor lo / b3Chunk = lo / b3Chunk := by
  rw [chunkFloor_eq, b3Chunk]
  omega

theorem chunkCount_plan (hlt : lo < hi) (hle : hi ≤ total) :
    chunkCount (chunkCeil total hi - chunkFloor lo) = spanChunks lo hi := by
  rw [chunkCount_eq, chunkCeil_eq, chunkFloor_eq, spanChunks_eq]
  omega

/-- The chaining values of the chunks of a span are those of the leaf. -/
theorem badChunk_eq_none (hle : first + count ≤ chunkCount data.length) :
    badChunk h ⟨chunkBytes data first count, chunkCvs h data 0⟩ first = none := by
  rw [badChunk, List.find?_eq_none]
  intro i hi
  change i ∈ List.range (chunkCount (chunkBytes data first count).length) at hi
  rw [List.mem_range] at hi
  have hcount : chunkCount (chunkBytes data first count).length = count := by
    rw [chunkCount_eq] at hle
    rw [length_chunkBytes, chunkCount_eq, b3Chunk]
    omega
  have hcvs := congrArg (fun cvs => cvs[i]?) (@chunkCvs_chunkBytes h data first count hle)
  rw [getElem?_chunkCvs hi, List.getElem?_take_of_lt (by omega), List.getElem?_drop] at hcvs
  simp [hcvs]

/-- The miner's span of a committed leaf. -/
theorem span_plan {seq : SeqTrace} {leaf : Nat} {plan : SpanPlan} {cap : SeqCapture}
    (hleaf : seq.leaves[leaf]? = some (blake3 h data)) (hsmall : leaf < 2 ^ 32)
    (hplan : SpanPlan.new leaf data.length lo hi = some plan)
    (hcap : seqCapture h data plan.lo plan.hi = .ok cap) :
    span h plan cap seq = .ok (commitSpan h seq.leaves leaf data lo hi) := by
  rw [SpanPlan.new] at hplan
  split at hplan
  · next hspan =>
    obtain ⟨hlt, hle⟩ := hspan
    cases hplan
    rw [seqCapture, if_neg (by
      rw [chunkCeil_eq, chunkFloor_eq]
      simp
      omega)] at hcap
    dsimp only at hcap
    rw [leafSlice_plan hlt] at hcap
    cases hcap
    have hchunks := spanChunks_le hlt hle
    have hindex : (UInt32.ofNat leaf).toNat = leaf := UInt32.toNat_ofNat_of_lt hsmall
    have hproof : ∀ plan : SpanPlan, plan.total = data.length → plan.lo = chunkFloor lo →
        plan.hi = chunkCeil data.length hi →
        spanProof h plan ⟨chunkBytes data (lo / b3Chunk) (spanChunks lo hi),
          if data.length ≤ b3Chunk then [blake3 h data] else chunkCvs h data 0⟩ (blake3 h data) =
          .ok (b3ChunksProof h data (lo / b3Chunk) (spanChunks lo hi)) := by
      intro plan htotal hplanLo hplanHi
      rw [spanProof, SpanPlan.nChunks, htotal, hplanLo, hplanHi, chunkFloor_div,
        chunkCount_plan hlt hle, b3ChunksProof, length_chunkCvs]
      dsimp only
      have hpos : 1 ≤ chunkCount data.length :=
        (spanChunks_pos hlt).trans ((Nat.le_add_left ..).trans hchunks)
      have hcount : chunkCount data.length = (data.length + 1023) / 1024 := chunkCount_eq
      split
      · next hone =>
        have hwhole : chunkBytes data (lo / b3Chunk) (spanChunks lo hi) = data := by
          rw [← leafSlice_plan hlt, leafSlice, chunkFloor_eq, chunkCeil_eq,
            show lo / 1024 * 1024 = 0 by omega, List.drop_zero, List.take_of_length_le]
          omega
        rw [hwhole, if_neg (not_not.mpr rfl), if_pos (by omega)]
      · next hmany =>
        have hlong : b3Chunk < data.length := by
          rw [b3Chunk]
          omega
        have hlen := @length_chunkCvs h data 0
        have hlen' : ¬ (chunkCvs h data 0).length ≠ max (chunkCount data.length) 1 := by omega
        rw [if_neg hlong.not_ge, if_neg hlen', b3Root_chunkCvs hlong, if_neg (not_not.mpr rfl),
          badChunk_eq_none hchunks, if_neg (by omega)]
    rw [span, hindex, hleaf]
    dsimp only
    rw [if_neg (by rw [length_spanBytes hlt hle]; simp), hproof _ rfl rfl rfl]
    rw [commitSpan, chunkFloor_div]
    rfl
  · cases hplan

/-- What an accepted span shows. -/
theorem openSpan_eq_some {root : Hash} {layout : SeqLayout} {leaf : Nat} {span : SeqSpan} :
    openSpan h root layout leaf total lo hi span = some bytes ↔
      (lo < hi ∧ hi ≤ total ∧ span.firstChunk.toNat = lo / b3Chunk ∧
        span.bytes.length = chunkCeil total hi - chunkFloor lo) ∧
      (∃ cv, b3LeafFromChunks h total (lo / b3Chunk) span.bytes span.chunkProof = some cv ∧
        b3Fold h.toMerges layout.nLeaves leaf cv span.leafPath = some root) ∧
      leafSlice span.bytes (lo - chunkFloor lo) (hi - chunkFloor lo) = bytes := by
  rw [openSpan]
  split
  · next hbad =>
    simp only [Bool.or_eq_true, decide_eq_true_eq, bne_iff_ne] at hbad
    refine iff_of_false nofun ?_
    rintro ⟨⟨hlt, hle, hfirst, hlen⟩, -⟩
    rcases hbad with ((hbad | hbad) | hbad) | hbad
    · omega
    · omega
    · exact hbad hfirst
    · exact hbad hlen
  · next hok =>
    simp only [Bool.or_eq_true, decide_eq_true_eq, bne_iff_ne, not_or, Nat.not_le, Nat.not_lt,
      not_not] at hok
    simp only [Option.bind_eq_bind, Option.bind_eq_some_iff, bne_iff_ne]
    constructor
    · rintro ⟨cv, hcv, root', hroot, hbytes⟩
      split at hbytes
      · cases hbytes
      · next heq =>
        rw [not_not] at heq
        refine ⟨⟨hok.1.1.1, hok.1.1.2, hok.1.2, hok.2⟩, ⟨cv, hcv, heq ▸ hroot⟩, ?_⟩
        exact Option.some.inj hbytes
    · rintro ⟨-, ⟨cv, hcv, hroot⟩, rfl⟩
      exact ⟨cv, hcv, root, hroot, if_neg (not_not.mpr rfl)⟩

/-- The span of a committed leaf is accepted. -/
theorem openSpan_commitSpan {leaves : List Hash} {root : Hash} {layout : SeqLayout} {leaf : Nat}
    (hdata : data.length < 2 ^ 64) (hlayout : leaves.length = layout.nLeaves)
    (hleaves : leaves.length < 2 ^ 64) (hleaf : leaves[leaf]? = some (blake3 h data))
    (hroot : b3Root h.toMerges leaves = some root) (hlt : lo < hi) (hle : hi ≤ data.length)
    (hfirst : lo / b3Chunk < 2 ^ 32) :
    openSpan h root layout leaf data.length lo hi (commitSpan h leaves leaf data lo hi) =
      some (leafSlice data lo hi) := by
  refine openSpan_eq_some.mpr ⟨⟨hlt, hle, UInt32.toNat_ofNat_of_lt hfirst,
    length_spanBytes hlt hle⟩, ⟨blake3 h data, ?_, ?_⟩, leafSlice_chunks hlt⟩
  · exact b3LeafFromChunks_b3ChunksProof hdata (spanChunks_pos hlt) (spanChunks_le hlt hle)
  · rw [← hlayout, ← hroot]
    exact b3Fold_b3Path hleaves hleaf

/-- The captured chunks lead to the committed leaf, of which nothing but its hash is known. -/
theorem b3LeafFromChunks_spanProof {plan : SpanPlan} {cap : SeqCapture} {leafHash : Hash}
    {proof : List Hash} (hlt : lo < hi) (hle : hi ≤ total) (htotal : total < 2 ^ 64)
    (hplanTotal : plan.total = total) (hplanLo : plan.lo = chunkFloor lo)
    (hplanHi : plan.hi = chunkCeil total hi)
    (hlen : cap.bytes.length = chunkCeil total hi - chunkFloor lo)
    (hproof : spanProof h plan cap leafHash = .ok proof) :
    b3LeafFromChunks h total (lo / b3Chunk) cap.bytes proof = some leafHash := by
  have hcount : chunkCount cap.bytes.length = spanChunks lo hi := by
    rw [hlen, chunkCount_plan hlt hle]
  have hchunks := spanChunks_le hlt hle
  have hpos := spanChunks_pos hlt
  rw [spanProof, SpanPlan.nChunks, hplanTotal, hplanLo, hplanHi, chunkFloor_div,
    chunkCount_plan hlt hle] at hproof
  rw [b3LeafFromChunks]
  have hbytes : cap.bytes.length =
      min total ((lo / b3Chunk + spanChunks lo hi) * b3Chunk) - lo / b3Chunk * b3Chunk := by
    rw [hlen, chunkCeil_eq, chunkFloor_eq, spanChunks_eq, b3Chunk]
    omega
  rw [hcount, if_neg (by simp [hbytes]; omega)]
  split at hproof
  · next hone =>
    rw [if_pos hone]
    split at hproof
    · cases hproof
    · next hhash =>
      cases hproof
      exact congrArg some (not_not.mp hhash)
  · next hmany =>
    rw [if_neg hmany]
    split at hproof
    · cases hproof
    next hcvs =>
    rw [not_not] at hcvs
    split at hproof
    · cases hproof
    next hroot =>
    rw [not_not] at hroot
    cases hbad : badChunk h cap (lo / b3Chunk) with
    | some i =>
      rw [hbad] at hproof
      cases hproof
    | none =>
      rw [hbad] at hproof
      cases hproof
      rw [badChunk, List.find?_eq_none] at hbad
      have hsame : chunkCvs h cap.bytes (lo / b3Chunk) =
          (cap.cvs.drop (lo / b3Chunk)).take (spanChunks lo hi) := by
        apply List.ext_getElem?
        intro i
        rw [List.getElem?_take]
        split
        · next hi =>
          have hvalue := hbad i (List.mem_range.mpr (hcount.symm ▸ hi))
          simp only [bne_iff_ne, ne_eq, not_not] at hvalue
          rw [getElem?_chunkCvs (hcount.symm ▸ hi), List.getElem?_drop, hvalue]
        · next hi => exact List.getElem?_eq_none (by rw [length_chunkCvs]; omega)
      rw [hsame, ← hcvs, b3RangeFold_b3RangeProof _ hpos (by omega), hroot]
      rw [hcvs]
      have hcount : chunkCount total = (total + 1023) / 1024 := chunkCount_eq
      omega

/-- A span that the miner makes of a plan is accepted, whatever was captured. -/
theorem openSpan_span {seq : SeqTrace} {layout : SeqLayout} {leaf : Nat} {plan : SpanPlan}
    {cap : SeqCapture} {s : SeqSpan} (hplan : SpanPlan.new leaf total lo hi = some plan)
    (hs : span h plan cap seq = .ok s) (hlayout : seq.leaves.length = layout.nLeaves)
    (hleaves : seq.leaves.length < 2 ^ 64) (hroot : b3Root h.toMerges seq.leaves = some seq.root)
    (htotal : total < 2 ^ 64) (hfirst : lo / b3Chunk < 2 ^ 32) (hleaf : leaf < 2 ^ 32) :
    ∃ bytes, openSpan h seq.root layout leaf total lo hi s = some bytes ∧
      bytes.length = hi - lo := by
  rw [SpanPlan.new] at hplan
  split at hplan
  · next hspan =>
    obtain ⟨hlt, hle⟩ := hspan
    cases hplan
    have hindex : (UInt32.ofNat leaf).toNat = leaf := UInt32.toNat_ofNat_of_lt hleaf
    have hchunk : (UInt32.ofNat (lo / b3Chunk)).toNat = lo / b3Chunk :=
      UInt32.toNat_ofNat_of_lt hfirst
    rw [span] at hs
    split at hs
    · cases hs
    next leafHash hget =>
    split at hs
    · cases hs
    next hlen =>
    rw [not_not] at hlen
    dsimp only at hget hlen
    rw [hindex] at hget
    cases hproof : spanProof h ⟨.ofNat leaf, total, chunkFloor lo, chunkCeil total hi⟩ cap leafHash with
    | error e =>
      rw [hproof] at hs
      cases hs
    | ok proof =>
      rw [hproof] at hs
      cases hs
      have hcv := b3LeafFromChunks_spanProof hlt hle htotal rfl rfl rfl hlen hproof
      refine ⟨_, openSpan_eq_some.mpr ⟨⟨hlt, hle, ?_, hlen⟩, ⟨leafHash, hcv, ?_⟩, rfl⟩, ?_⟩
      · dsimp only
        rw [chunkFloor_div, hchunk]
      · dsimp only
        rw [hindex, ← hlayout, b3Fold_b3Path hleaves hget, hroot]
      · rw [leafSlice, List.length_take, List.length_drop, hlen, chunkFloor_eq, chunkCeil_eq]
        omega
  · cases hplan

/-! ## Binding -/

/-- The value of a whole input of one chunk, or of chunk `c` of a longer input. -/
def Blake3.chunk (h : Blake3) : Option Nat × List UInt8 → Hash
  | (none, bytes) => h.chunkRoot bytes
  | (some c, bytes) => h.chunkCv bytes c

/-- The chunks which `b3LeafFromChunks` hashes. -/
def hashedChunks (total first : Nat) (bytes : List UInt8) : List (Option Nat × List UInt8) :=
  if max (chunkCount total) 1 = 1 then [(none, bytes)]
  else (List.range (chunkCount bytes.length)).map fun k => (some (first + k), chunkBytes bytes k 1)

/-- The subtrees which `openSpan` merges. -/
def mergedSpan (h : Blake3) (layout : SeqLayout) (leaf total lo : Nat) (span : SeqSpan) :
    List (Bool × Hash × Hash) :=
  let first := lo / b3Chunk
  let cvs := chunkCvs h span.bytes first
  (B3Opening.range first cvs span.chunkProof).merged h.toMerges (max (chunkCount total) 1) ++
    match b3LeafFromChunks h total first span.bytes span.chunkProof with
    | none => []
    | some cv => (B3Opening.leaf leaf cv span.leafPath).merged h.toMerges layout.nLeaves

/-- No two different inputs that are hashed in the same place of the tree for two spans have one
value. -/
structure NoSpanCollision (h : Blake3) (layout : SeqLayout) (leaf total lo : Nat)
    (s s' : SeqSpan) : Prop where
  merged : NoCollision (b3Shape h.toMerges)
    (mergedSpan h layout leaf total lo s ++ mergedSpan h layout leaf total lo s')
  chunks : ∀ a ∈ hashedChunks total (lo / b3Chunk) s.bytes,
    ∀ b ∈ hashedChunks total (lo / b3Chunk) s'.bytes,
    a.1 = b.1 → h.chunk a = h.chunk b → a.2 = b.2

/-- Bytes are determined by their chunks. -/
theorem eq_of_chunkBytes (hlen : bytes.length = bytes'.length)
    (hchunks : ∀ k < chunkCount bytes.length, chunkBytes bytes k 1 = chunkBytes bytes' k 1) :
    bytes = bytes' := by
  apply List.ext_getElem?
  intro i
  have hget : ∀ bytes : List UInt8, (chunkBytes bytes (i / b3Chunk) 1)[i % b3Chunk]? =
      bytes[i]? := by
    intro bytes
    rw [chunkBytes, Nat.one_mul, List.getElem?_take_of_lt (Nat.mod_lt _ (by decide)),
      List.getElem?_drop, Nat.div_add_mod']
  rcases Nat.lt_or_ge i bytes.length with hi | hi
  · rw [← hget, ← hget bytes', hchunks]
    rw [chunkCount_eq, b3Chunk]
    omega
  · rw [List.getElem?_eq_none hi, List.getElem?_eq_none (by omega)]

/-- How chunks lead to a leaf. -/
theorem of_b3LeafFromChunks {cv : Hash} {proof : List Hash}
    (hcv : b3LeafFromChunks h total first bytes proof = some cv) :
    (max (chunkCount total) 1 = 1 → bytes.length ≤ b3Chunk ∧ blake3 h bytes = cv) ∧
      (max (chunkCount total) 1 ≠ 1 → (B3Opening.range first (chunkCvs h bytes first) proof).fold
        h.toMerges (max (chunkCount total) 1) = some cv) := by
  rw [b3LeafFromChunks] at hcv
  split at hcv
  · cases hcv
  · next hok =>
    simp only [Bool.or_eq_true, decide_eq_true_eq, bne_iff_ne, not_or, not_not, Nat.not_lt] at hok
    obtain ⟨⟨-, hstop⟩, hlen⟩ := hok
    constructor
    · intro hone
      rw [if_pos hone] at hcv
      split at hcv
      · refine ⟨?_, Option.some.inj hcv⟩
        rw [hone] at hstop
        rw [chunkCount_eq] at hstop
        rw [b3Chunk]
        omega
      · cases hcv
    · intro hmany
      rwa [if_neg hmany] at hcv

/-- Chunks that lead to one leaf are the same. -/
theorem b3LeafFromChunks_agree {cv : Hash} {proof proof' : List Hash}
    (hcv : b3LeafFromChunks h total first bytes proof = some cv)
    (hcv' : b3LeafFromChunks h total first bytes' proof' = some cv)
    (hlen : bytes.length = bytes'.length)
    (hmerged : NoCollision (b3Shape h.toMerges)
      ((B3Opening.range first (chunkCvs h bytes first) proof).merged h.toMerges
          (max (chunkCount total) 1) ++
        (B3Opening.range first (chunkCvs h bytes' first) proof').merged h.toMerges
          (max (chunkCount total) 1)))
    (hchunks : ∀ a ∈ hashedChunks total first bytes, ∀ b ∈ hashedChunks total first bytes',
      a.1 = b.1 → h.chunk a = h.chunk b → a.2 = b.2) : bytes = bytes' := by
  obtain ⟨hone, hmany⟩ := of_b3LeafFromChunks hcv
  obtain ⟨hone', hmany'⟩ := of_b3LeafFromChunks hcv'
  rw [hashedChunks, hashedChunks] at hchunks
  by_cases hn : max (chunkCount total) 1 = 1
  · obtain ⟨hle, hhash⟩ := hone hn
    obtain ⟨hle', hhash'⟩ := hone' hn
    rw [blake3_of_one hle] at hhash
    rw [blake3_of_one hle'] at hhash'
    rw [if_pos hn, if_pos hn] at hchunks
    exact hchunks _ (List.mem_singleton.mpr rfl) _ (List.mem_singleton.mpr rfl) rfl
      (hhash.trans hhash'.symm)
  · rw [if_neg hn, if_neg hn] at hchunks
    apply eq_of_chunkBytes hlen
    intro k hk
    have hk' : k < chunkCount bytes'.length := hlen ▸ hk
    have hat : ∀ {bytes : List UInt8} (proof : List Hash), k < chunkCount bytes.length →
        (B3Opening.range first (chunkCvs h bytes first) proof).leafAt (first + k) =
          some (h.chunkCv (chunkBytes bytes k 1) (first + k)) := by
      intro bytes proof hk
      rw [B3Opening.leafAt, nodeAt, if_pos (Nat.le_add_right ..), Nat.add_sub_cancel_left,
        getElem?_chunkCvs hk]
    have hvalue := B3Opening.agree (hmany hn) (hmany' hn) hmerged (hat proof hk) (hat proof' hk')
    exact hchunks _ (List.mem_map.mpr ⟨k, List.mem_range.mpr hk, rfl⟩) _
      (List.mem_map.mpr ⟨k, List.mem_range.mpr hk', rfl⟩) rfl hvalue

/-- Two accepted spans of one leaf have the same bytes. -/
theorem openSpan_agree {root : Hash} {layout : SeqLayout} {leaf : Nat} {s s' : SeqSpan}
    (hs : openSpan h root layout leaf total lo hi s = some bytes)
    (hs' : openSpan h root layout leaf total lo hi s' = some bytes')
    (hfree : NoSpanCollision h layout leaf total lo s s') : bytes = bytes' := by
  obtain ⟨⟨-, -, -, hlen⟩, ⟨cv, hcv, hroot⟩, rfl⟩ := openSpan_eq_some.mp hs
  obtain ⟨⟨-, -, -, hlen'⟩, ⟨cv', hcv', hroot'⟩, rfl⟩ := openSpan_eq_some.mp hs'
  obtain ⟨hmerged, hchunks⟩ := hfree
  have hleaf : cv = cv' := by
    refine @B3Opening.agree h.toMerges root layout.nLeaves leaf (.leaf leaf cv s.leafPath)
      (.leaf leaf cv' s'.leafPath) hroot hroot' (hmerged.mono ?_) cv cv' (if_pos rfl) (if_pos rfl)
    intro a ha
    rw [mergedSpan, mergedSpan, hcv, hcv']
    simp only [List.mem_append] at ha ⊢
    tauto
  subst hleaf
  have hbytes : s.bytes = s'.bytes := by
    refine b3LeafFromChunks_agree hcv hcv' (hlen.trans hlen'.symm) (hmerged.mono ?_) hchunks
    intro a ha
    rw [mergedSpan, mergedSpan]
    simp only [List.mem_append] at ha ⊢
    tauto
  rw [hbytes]

/-- Spans of committed leaves: the miner's span of a leaf is accepted with the bytes that it covers,
and any accepted span has the bytes of the committed leaf. -/
theorem spans_open (h : Blake3) (layout : SeqLayout) (leaves : List Hash) (root : Hash)
    (leaf : Nat) (data : List UInt8) (hlayout : leaves.length = layout.nLeaves)
    (hleaves : leaves.length < 2 ^ 64) (hdata : data.length < 2 ^ 64)
    (hleaf : leaves[leaf]? = some (blake3 h data)) (hroot : b3Root h.toMerges leaves = some root)
    (lo hi : Nat) :
    (lo < hi → hi ≤ data.length → lo / b3Chunk < 2 ^ 32 → leaf < 2 ^ 32 →
      ∃ plan cap s, SpanPlan.new leaf data.length lo hi = some plan ∧
        seqCapture h data plan.lo plan.hi = .ok cap ∧ span h plan cap ⟨leaves, root⟩ = .ok s ∧
        openSpan h root layout leaf data.length lo hi s = some (leafSlice data lo hi)) ∧
    ∀ (s : SeqSpan) (bytes : List UInt8),
      openSpan h root layout leaf data.length lo hi s = some bytes →
      NoSpanCollision h layout leaf data.length lo s (commitSpan h leaves leaf data lo hi) →
      bytes = leafSlice data lo hi := by
  constructor
  · intro hlt hle hfirst hsmall
    have hplan : SpanPlan.new leaf data.length lo hi = some _ := if_pos ⟨hlt, hle⟩
    have hcap : seqCapture h data (chunkFloor lo) (chunkCeil data.length hi) = .ok _ :=
      if_neg (by
        rw [chunkCeil_eq, chunkFloor_eq]
        simp
        omega)
    exact ⟨_, _, _, hplan, hcap, @span_plan h data lo hi ⟨leaves, root⟩ _ _ _ hleaf hsmall hplan hcap,
      openSpan_commitSpan hdata hlayout hleaves hleaf hroot hlt hle hfirst⟩
  · intro s bytes hs hfree
    obtain ⟨⟨hlt, hle, hfirst, -⟩, -, -⟩ := openSpan_eq_some.mp hs
    have hsmall : lo / b3Chunk < 2 ^ 32 := hfirst ▸ s.firstChunk.toNat_lt
    exact openSpan_agree hs
      (openSpan_commitSpan hdata hlayout hleaves hleaf hroot hlt hle hsmall) hfree

/-- The chunks of one span have different tags. -/
theorem eq_of_tag {a b : Option Nat × List UInt8} (ha : a ∈ hashedChunks total first bytes)
    (hb : b ∈ hashedChunks total first bytes) (htag : a.1 = b.1) : a.2 = b.2 := by
  rw [hashedChunks] at ha hb
  split at ha
  · next hone =>
    rw [if_pos hone] at hb
    rw [List.mem_singleton.mp ha, List.mem_singleton.mp hb]
  · next hone =>
    rw [if_neg hone] at hb
    obtain ⟨k, -, rfl⟩ := List.mem_map.mp ha
    obtain ⟨k', -, rfl⟩ := List.mem_map.mp hb
    have hk : first + k = first + k' := Option.some.inj htag
    rw [Nat.add_left_cancel hk]

/-- A hash by first bytes, whose merges keep the left subtree. -/
def firstHash : Blake3 where
  toMerges := leftMerges
  chunkCv bytes _ := firstByte bytes
  chunkRoot := firstByte

/-- A hash whose merges add up. -/
def sumHash : Blake3 where
  nonRoot l r := l.zipWith (· + ·) r
  root l r := l.zipWith (· + ·) r
  chunkCv bytes _ := firstByte bytes
  chunkRoot := firstByte

/-- Four chunks, the last of them short. -/
def fourChunks : List UInt8 :=
  List.replicate 1024 1 ++ List.replicate 1024 2 ++ List.replicate 1024 4 ++ List.replicate 428 8

/-- A span within the second and the third of four chunks, with a sibling on either side. -/
theorem spans_open_inner :
    let leaves : List Hash := [Vector.replicate 32 15, Vector.replicate 32 16]
    let root : Hash := Vector.replicate 32 31
    let s := commitSpan sumHash leaves 0 fourChunks 1030 2060
    s.chunkProof = [Vector.replicate 32 1, Vector.replicate 32 8] ∧
    (∃ plan cap s, SpanPlan.new 0 fourChunks.length 1030 2060 = some plan ∧
      seqCapture sumHash fourChunks plan.lo plan.hi = .ok cap ∧
      span sumHash plan cap ⟨leaves, root⟩ = .ok s ∧
      openSpan sumHash root ⟨0, 1, 1⟩ 0 fourChunks.length 1030 2060 s =
        some (leafSlice fourChunks 1030 2060)) ∧
    ∃ bytes, openSpan sumHash root ⟨0, 1, 1⟩ 0 fourChunks.length 1030 2060 s = some bytes ∧
      bytes = leafSlice fourChunks 1030 2060 := by
  intro leaves root s
  have hlen : fourChunks.length = 3500 := by
    simp only [fourChunks, List.length_append, List.length_replicate]
  have hleaf : leaves[0]? = some (blake3 sumHash fourChunks) := by decide +kernel
  have hroot : b3Root sumHash.toMerges leaves = some root := by decide +kernel
  have hspans := spans_open sumHash ⟨0, 1, 1⟩ leaves root 0 fourChunks rfl (by decide)
    (by rw [hlen]; decide) hleaf hroot 1030 2060
  have hopen := @openSpan_commitSpan sumHash fourChunks 1030 2060 leaves root ⟨0, 1, 1⟩ 0
    (by rw [hlen]; decide) rfl (by decide) hleaf hroot (by decide) (by rw [hlen]; decide) (by decide)
  have hmerged : mergedSpan sumHash ⟨0, 1, 1⟩ 0 fourChunks.length 1030 s =
      [(false, Vector.replicate 32 1, Vector.replicate 32 2),
        (false, Vector.replicate 32 4, Vector.replicate 32 8),
        (true, Vector.replicate 32 3, Vector.replicate 32 12),
        (true, Vector.replicate 32 15, Vector.replicate 32 16)] := by decide +kernel
  refine ⟨by decide +kernel, hspans.1 (by decide) (by rw [hlen]; decide) (by decide) (by decide), _,
    hopen, hspans.2 s _ hopen ⟨?_, ?_⟩⟩
  · change NoCollision _ (mergedSpan sumHash ⟨0, 1, 1⟩ 0 fourChunks.length 1030 s ++
      mergedSpan sumHash ⟨0, 1, 1⟩ 0 fourChunks.length 1030 s)
    rw [hmerged, NoCollision]
    decide +kernel
  · exact fun a ha b hb htag _ => eq_of_tag ha hb htag

theorem firstChunk_span {plan : SpanPlan} {cap : SeqCapture} {seq : SeqTrace} {s : SeqSpan}
    (hs : span h plan cap seq = .ok s) : s.firstChunk = UInt32.ofNat (plan.lo / b3Chunk) := by
  rw [span] at hs
  split at hs
  · cases hs
  split at hs
  · cases hs
  · next leafHash _ _ =>
    cases hproof : spanProof h plan cap leafHash with
    | error e =>
      rw [hproof] at hs
      cases hs
    | ok proof =>
      rw [hproof] at hs
      cases hs
      rfl

/-- The number of the first chunk of a span is cut to 32 bits, and so is the number of its leaf. -/
theorem spans_cut :
    (let data : List UInt8 := List.replicate (2 ^ 42 + 1) 0
      let z : Hash := Vector.replicate 32 0
      [z, z][0]? = some (blake3 zeroHash data) ∧ b3Root zeroHash.toMerges [z, z] = some z ∧
      ¬ ∃ plan cap s bytes, SpanPlan.new 0 data.length (2 ^ 42) (2 ^ 42 + 1) = some plan ∧
        seqCapture zeroHash data plan.lo plan.hi = .ok cap ∧
        span zeroHash plan cap ⟨[z, z], z⟩ = .ok s ∧
        openSpan zeroHash z ⟨0, 1, 1⟩ 0 data.length (2 ^ 42) (2 ^ 42 + 1) s = some bytes) ∧
    let a : Hash := Vector.replicate 32 6
    let b : Hash := Vector.replicate 32 7
    let leaves := List.replicate (2 ^ 32) a ++ List.replicate (2 ^ 32) b
    leaves.length = (SeqLayout.mk 0 1 (2 ^ 32)).nLeaves ∧
      leaves[2 ^ 32]? = some (blake3 firstHash [7]) ∧
      ∃ root, b3Root firstHash.toMerges leaves = some root ∧
        ¬ ∃ plan cap s bytes, SpanPlan.new (2 ^ 32) 1 0 1 = some plan ∧
          seqCapture firstHash [7] plan.lo plan.hi = .ok cap ∧
          span firstHash plan cap ⟨leaves, root⟩ = .ok s ∧
          openSpan firstHash root ⟨0, 1, 2 ^ 32⟩ (2 ^ 32) 1 0 1 s = some bytes := by
  constructor
  · intro data z
    have hlen : data.length = 2 ^ 42 + 1 := List.length_replicate
    refine ⟨congrArg some blake3_zeroHash.symm, ?_, ?_⟩
    · rw [b3Root, Shape.root_eq_splitRoot rfl]
      exact Shape.splitRoot_two
    · rintro ⟨plan, cap, s, bytes, hplan, -, hs, hopen⟩
      have hfirst := (openSpan_eq_some.mp hopen).1.2.2.1
      rw [SpanPlan.new, if_pos (by rw [hlen]; decide)] at hplan
      cases hplan
      rw [firstChunk_span hs] at hfirst
      revert hfirst
      decide
  · intro a b leaves
    have hhash : blake3 firstHash [7] = b := blake3_of_one (by decide)
    have hlen : leaves.length = 2 ^ 33 := by
      have hsum : leaves.length = 2 ^ 32 + 2 ^ 32 := by
        simp only [leaves, List.length_append, List.length_replicate]
      exact hsum.trans (by decide)
    obtain ⟨root, hroot⟩ := (b3Shape firstHash.toMerges).exists_root (l := leaves) (by
      rw [← List.length_pos_iff, hlen]
      decide)
    refine ⟨hlen, ?_, root, hroot, ?_⟩
    · rw [hhash, List.getElem?_append_right (by rw [List.length_replicate]),
        List.length_replicate, List.getElem?_replicate_of_lt (by decide)]
    · rintro ⟨plan, cap, s, bytes, hplan, hcap, hs, -⟩
      cases hplan
      cases hcap
      have hfirst : leaves[(UInt32.ofNat (2 ^ 32)).toNat]? = some a := by
        rw [show (UInt32.ofNat (2 ^ 32)).toNat = 0 by decide,
          List.getElem?_append_left (by rw [List.length_replicate]; decide),
          List.getElem?_replicate_of_lt (by decide)]
      have hne : blake3 firstHash (leafSlice [7] (chunkFloor 0) (chunkCeil 1 1)) ≠ a := by
        rw [show leafSlice [7] (chunkFloor 0) (chunkCeil 1 1) = [7] from rfl, hhash]
        decide
      rw [span, hfirst] at hs
      dsimp only at hs
      rw [if_neg (by decide), spanProof, if_pos (by decide), if_pos hne] at hs
      cases hs

end

end KeryxMiner.Inference
