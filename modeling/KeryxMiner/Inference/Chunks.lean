import KeryxMiner.Inference.Merkle

/-!
# Chunks of a trace leaf

A trace leaf is the BLAKE3 hash of its bytes, and the tree that BLAKE3 builds over the chunks of
its input is the tree of `b3Root` over their chaining values. So some chunks of the bytes and a
range proof lead to the leaf.
-/

namespace KeryxMiner.Inference

open RangeTree

/-- BLAKE3 by its compressions: of a chunk of a longer input, of an input of one chunk, and of two
subtrees. -/
structure Blake3 extends Merges where
  chunkCv : List UInt8 → Nat → Hash
  chunkRoot : List UInt8 → Hash

def b3Chunk : Nat := 1024

/-- How many chunks an input of `len` bytes has; an empty one counts as none here. -/
def chunkCount (len : Nat) : Nat := (len + b3Chunk - 1) / b3Chunk

/-- The bytes of the chunks from `first`, at most `count` of them. -/
def chunkBytes (bytes : List UInt8) (first count : Nat) : List UInt8 :=
  (bytes.drop (first * b3Chunk)).take (count * b3Chunk)

/-- The recursion of BLAKE3 over an input whose first chunk has the number `c`. -/
def Blake3.subtree (h : Blake3) (root : Bool) (bytes : List UInt8) (c : Nat) : Hash :=
  if bytes.length ≤ b3Chunk then
    if root then h.chunkRoot bytes else h.chunkCv bytes c
  else
    let left := leftLen (chunkCount bytes.length)
    b3Merge h.toMerges (h.subtree false (bytes.take (left * b3Chunk)) c)
      (h.subtree false (bytes.drop (left * b3Chunk)) (c + left)) root
termination_by bytes.length
decreasing_by
  · have hlt := @leftLen_lt (chunkCount bytes.length) (by grind [chunkCount, b3Chunk])
    grind [chunkCount, b3Chunk, List.length_take]
  · have hpos := @leftLen_pos (chunkCount bytes.length)
    grind [b3Chunk, List.length_drop]

def blake3 (h : Blake3) (data : List UInt8) : Hash := h.subtree true data 0

/-- The chaining values of the chunks of `bytes`, the first of which has the number `first`. -/
def chunkCvs (h : Blake3) (bytes : List UInt8) (first : Nat) : List Hash :=
  (List.range (chunkCount bytes.length)).map fun k => h.chunkCv (chunkBytes bytes k 1) (first + k)

section

variable (h : Blake3)

/-- The length of chunk `c`. -/
def expectedLen (totalLen c : Nat) : Option Nat :=
  if c + 1 < max (chunkCount totalLen) 1 then some b3Chunk
  else if c * b3Chunk ≤ totalLen then some (totalLen - c * b3Chunk) else none

def b3LeafFromChunk (totalLen c : Nat) (chunk : List UInt8) (path : List Hash) : Option Hash := do
  let nChunks := max (chunkCount totalLen) 1
  let expected ← expectedLen totalLen c
  if nChunks ≤ c || chunk.length != expected then none
  else if nChunks = 1 then if path.isEmpty then some (blake3 h chunk) else none
  else b3Fold h.toMerges nChunks c (h.chunkCv chunk c) path

def b3LeafFromChunks (totalLen first : Nat) (bytes : List UInt8) (proof : List Hash) :
    Option Hash :=
  let n := max (chunkCount totalLen) 1
  let count := chunkCount bytes.length
  let stop := first + count
  if count = 0 || n < stop || bytes.length != min totalLen (stop * b3Chunk) - first * b3Chunk then
    none
  else if n = 1 then if proof.isEmpty then some (blake3 h bytes) else none
  else b3RangeFold h.toMerges n first (chunkCvs h bytes first) proof

def b3ChunksProof (data : List UInt8) (first count : Nat) : List Hash :=
  let cvs := chunkCvs h data 0
  if cvs.length ≤ 1 then [] else b3RangeProof h.toMerges cvs first count

/-- Chunk `c` of `b` and its path to the BLAKE3 root of `b`. -/
def chunkWithPath (b : List UInt8) (c : Nat) : Option (List UInt8 × List Hash) :=
  let n := max (chunkCount b.length) 1
  if n ≤ c then none
  else some (chunkBytes b c 1, if n = 1 then [] else b3Path h.toMerges (chunkCvs h b 0) c)

end

section

variable {h : Blake3} {bytes data chunk : List UInt8} {c first count k left len : Nat}

theorem chunkCount_eq : chunkCount len = (len + 1023) / 1024 := by
  rw [chunkCount, b3Chunk]
  omega

theorem length_chunkCvs : (chunkCvs h bytes c).length = chunkCount bytes.length := by
  rw [chunkCvs, List.length_map, List.length_range]

theorem getElem?_chunkCvs (hk : k < chunkCount bytes.length) :
    (chunkCvs h bytes c)[k]? = some (h.chunkCv (chunkBytes bytes k 1) (c + k)) := by
  rw [chunkCvs, List.getElem?_map, List.getElem?_range hk]
  rfl

theorem chunkBytes_take (hle : first + count ≤ left) :
    chunkBytes (bytes.take (left * b3Chunk)) first count = chunkBytes bytes first count := by
  rw [chunkBytes, chunkBytes, List.drop_take, List.take_take, ← Nat.sub_mul,
    Nat.min_eq_left (Nat.mul_le_mul_right _ (by omega))]

theorem chunkBytes_drop :
    chunkBytes (bytes.drop (left * b3Chunk)) first count = chunkBytes bytes (left + first) count := by
  rw [chunkBytes, chunkBytes, List.drop_drop, ← Nat.add_mul]

/-- The chunks before a place are those of the bytes before it. -/
theorem chunkCvs_take (hle : left ≤ chunkCount bytes.length) :
    chunkCvs h (bytes.take (left * b3Chunk)) c = (chunkCvs h bytes c).take left := by
  have hcount : chunkCount (bytes.take (left * b3Chunk)).length = left := by
    rw [chunkCount_eq] at hle
    rw [List.length_take, chunkCount_eq, b3Chunk]
    omega
  apply List.ext_getElem?
  intro k
  rw [List.getElem?_take]
  split
  · next hk =>
    rw [getElem?_chunkCvs (by omega), getElem?_chunkCvs (by omega), chunkBytes_take hk]
  · next hk => exact List.getElem?_eq_none (by rw [length_chunkCvs]; omega)

/-- The chunks behind a place are those of the bytes behind it. -/
theorem chunkCvs_drop :
    chunkCvs h (bytes.drop (left * b3Chunk)) (c + left) = (chunkCvs h bytes c).drop left := by
  have hcount : chunkCount (bytes.drop (left * b3Chunk)).length =
      chunkCount bytes.length - left := by
    rw [List.length_drop, chunkCount_eq, chunkCount_eq, b3Chunk]
    omega
  apply List.ext_getElem?
  intro k
  rw [List.getElem?_drop]
  rcases Nat.lt_or_ge k (chunkCount bytes.length - left) with hk | hk
  · rw [getElem?_chunkCvs (by omega), getElem?_chunkCvs (by omega), chunkBytes_drop, Nat.add_assoc]
  · rw [List.getElem?_eq_none (by rw [length_chunkCvs]; omega),
      List.getElem?_eq_none (by rw [length_chunkCvs]; omega)]

/-- The chaining values of some of the chunks. -/
theorem chunkCvs_chunkBytes (hle : first + count ≤ chunkCount data.length) :
    chunkCvs h (chunkBytes data first count) first =
      ((chunkCvs h data 0).drop first).take count := by
  have hdrop := @chunkCvs_drop h data 0 first
  rw [Nat.zero_add] at hdrop
  rw [chunkBytes, chunkCvs_take, hdrop]
  rw [chunkCount_eq] at hle
  rw [List.length_drop, chunkCount_eq, b3Chunk]
  omega

/-- The chaining values of the chunks lead to what BLAKE3's recursion computes. -/
theorem splitRoot_chunkCvs {root : Bool} (hne : bytes ≠ [])
    (hroot : root = true → b3Chunk < bytes.length) :
    (b3Shape h.toMerges).splitRoot root (chunkCvs h bytes c) = some (h.subtree root bytes c) := by
  have hpos := List.length_pos_iff.mpr hne
  induction root, bytes, c using Blake3.subtree.induct with
  | case1 bytes c hone => exact absurd (hroot rfl) (by omega)
  | case2 root bytes c hone hfalse =>
    rw [Blake3.subtree, if_pos hone, if_neg hfalse]
    have hcount : chunkCount bytes.length = 1 := by
      rw [b3Chunk] at hone
      rw [chunkCount_eq]
      omega
    have hcvs : chunkCvs h bytes c = [h.chunkCv bytes c] := by
      rw [chunkCvs, hcount]
      show [h.chunkCv (chunkBytes bytes 0 1) (c + 0)] = _
      rw [chunkBytes, Nat.zero_mul, List.drop_zero, List.take_of_length_le (by omega)]
      rfl
    rw [hcvs, Shape.splitRoot_one]
  | case3 root bytes c hmany left ihleft ihright =>
    have hcount : 2 ≤ chunkCount bytes.length := by
      rw [b3Chunk] at hmany
      rw [chunkCount_eq]
      omega
    have hlt : left < chunkCount bytes.length := leftLen_lt hcount
    have hleftPos : 0 < left := leftLen_pos
    have hle : left * b3Chunk < bytes.length := by
      rw [chunkCount_eq] at hlt
      rw [b3Chunk]
      omega
    have htakeLen : 0 < (bytes.take (left * b3Chunk)).length := by
      rw [List.length_take, b3Chunk]
      omega
    have hdropLen : 0 < (bytes.drop (left * b3Chunk)).length := by
      rw [List.length_drop]
      omega
    have htake := ihleft (List.length_pos_iff.mp htakeLen) (by simp) htakeLen
    have hdrop := ihright (List.length_pos_iff.mp hdropLen) (by simp) hdropLen
    rw [chunkCvs_take hlt.le] at htake
    rw [chunkCvs_drop] at hdrop
    rw [Shape.splitRoot, length_chunkCvs, if_neg (by omega), Blake3.subtree, if_neg hmany]
    show ((b3Shape h.toMerges).splitRoot false ((chunkCvs h bytes c).take left)).bind _ = _
    rw [htake]
    show ((b3Shape h.toMerges).splitRoot false ((chunkCvs h bytes c).drop left)).bind _ = _
    rw [hdrop]
    rfl

theorem blake3_of_one (hlen : data.length ≤ b3Chunk) : blake3 h data = h.chunkRoot data := by
  rw [blake3, Blake3.subtree, if_pos hlen]
  rfl

/-- The tree over the chunks of a longer input leads to its hash. -/
theorem b3Root_chunkCvs (hlen : b3Chunk < data.length) :
    b3Root h.toMerges (chunkCvs h data 0) = some (blake3 h data) := by
  have hne : data ≠ [] := by
    rintro rfl
    exact absurd hlen (Nat.not_lt_zero _)
  rw [b3Root, Shape.root_eq_splitRoot rfl, splitRoot_chunkCvs hne fun _ => hlen]
  rfl

theorem length_chunkBytes : (chunkBytes bytes first count).length =
    min (count * b3Chunk) (bytes.length - first * b3Chunk) := by
  rw [chunkBytes, List.length_take, List.length_drop]

/-- A chunk with its path leads to the hash of the bytes. -/
theorem b3LeafFromChunk_chunkWithPath (hlen : data.length < 2 ^ 64)
    (hc : c < max (chunkCount data.length) 1) : ∃ chunk path,
      chunkWithPath h data c = some (chunk, path) ∧
      b3LeafFromChunk h data.length c chunk path = some (blake3 h data) := by
  refine ⟨_, _, if_neg (by omega), ?_⟩
  have hcount : chunkCount data.length = (data.length + 1023) / 1024 := chunkCount_eq
  have hbytes : (chunkBytes data c 1).length = if c + 1 < max (chunkCount data.length) 1 then b3Chunk
      else data.length - c * b3Chunk := by
    rw [length_chunkBytes, b3Chunk]
    split <;> omega
  have hle : c * b3Chunk ≤ data.length := by
    rw [b3Chunk]
    omega
  have hexpected : expectedLen data.length c = some (chunkBytes data c 1).length := by
    rw [expectedLen, if_pos hle, hbytes]
    split <;> rfl
  rw [b3LeafFromChunk]
  rw [hexpected, Option.bind_eq_bind, Option.bind_some, if_neg (by simp; omega)]
  split
  · next hone =>
    have hwhole : chunkBytes data c 1 = data := by
      obtain rfl : c = 0 := by omega
      rw [chunkBytes, Nat.zero_mul, List.drop_zero, List.take_of_length_le]
      rw [b3Chunk]
      omega
    rw [hwhole]
    rfl
  · next hmany =>
    have hlen' := @length_chunkCvs h data 0
    have hcv : (chunkCvs h data 0)[c]? = some (h.chunkCv (chunkBytes data c 1) c) := by
      rw [getElem?_chunkCvs (by omega), Nat.zero_add]
    rw [show max (chunkCount data.length) 1 = (chunkCvs h data 0).length by omega,
      b3Fold_b3Path (by omega) hcv, b3Root_chunkCvs]
    rw [b3Chunk]
    omega

/-- Some chunks with their range proof lead to the hash of the bytes. -/
theorem b3LeafFromChunks_b3ChunksProof (hlen : data.length < 2 ^ 64) (hcount : 1 ≤ count)
    (hle : first + count ≤ chunkCount data.length) :
    b3LeafFromChunks h data.length first (chunkBytes data first count)
      (b3ChunksProof h data first count) = some (blake3 h data) := by
  have hchunks : chunkCount data.length = (data.length + 1023) / 1024 := chunkCount_eq
  have hbytes : (chunkBytes data first count).length =
      min data.length ((first + count) * 1024) - first * 1024 := by
    rw [length_chunkBytes, b3Chunk]
    omega
  have hcount' : chunkCount (chunkBytes data first count).length = count := by
    rw [chunkCount_eq]
    omega
  rw [b3LeafFromChunks]
  rw [hcount', if_neg (by simp [b3Chunk]; omega)]
  split
  · next hone =>
    have hwhole : chunkBytes data first count = data := by
      obtain rfl : first = 0 := by omega
      rw [chunkBytes, Nat.zero_mul, List.drop_zero, List.take_of_length_le]
      rw [b3Chunk]
      omega
    have hproof : b3ChunksProof h data first count = [] := by
      rw [b3ChunksProof]
      rw [length_chunkCvs, if_pos (by omega)]
    rw [hwhole, hproof]
    rfl
  · next hmany =>
    rw [b3ChunksProof, chunkCvs_chunkBytes hle, length_chunkCvs, if_neg (by omega),
      show max (chunkCount data.length) 1 = (chunkCvs h data 0).length by rw [length_chunkCvs]; omega,
      b3RangeFold_b3RangeProof (by rw [length_chunkCvs]; omega) hcount
        (by rw [length_chunkCvs]; omega), b3Root_chunkCvs]
    rw [b3Chunk]
    omega

/-- Pairing the levels is BLAKE3's tree, and the chunks of some bytes lead to their hash. -/
theorem b3_tree_matches_blake3 (h : Blake3) :
    (∀ leaves : List Hash, leaves ≠ [] → ∃ root, b3Root h.toMerges leaves = some root ∧
      (b3Shape h.toMerges).splitRoot true leaves = some root) ∧
    ∀ data : List UInt8, data.length < 2 ^ 64 →
      (b3Chunk < data.length → b3Root h.toMerges (chunkCvs h data 0) = some (blake3 h data)) ∧
      (∀ c < max (chunkCount data.length) 1, ∃ chunk path,
        chunkWithPath h data c = some (chunk, path) ∧
        b3LeafFromChunk h data.length c chunk path = some (blake3 h data)) ∧
      ∀ first count, 1 ≤ count → first + count ≤ chunkCount data.length →
        b3LeafFromChunks h data.length first (chunkBytes data first count)
          (b3ChunksProof h data first count) = some (blake3 h data) := by
  constructor
  · intro leaves hne
    obtain ⟨root, hroot⟩ := (b3Shape h.toMerges).exists_root hne
    exact ⟨root, hroot, (Shape.root_eq_splitRoot rfl).symm.trans hroot⟩
  · intro data hlen
    refine ⟨b3Root_chunkCvs, ?_, ?_⟩
    · intro c hc
      exact b3LeafFromChunk_chunkWithPath hlen hc
    · intro first count hcount hle
      exact b3LeafFromChunks_b3ChunksProof hlen hcount hle

/-- A hash whose values are all zero. -/
def zeroHash : Blake3 where
  nonRoot _ _ := Vector.replicate 32 0
  root _ _ := Vector.replicate 32 0
  chunkCv _ _ := Vector.replicate 32 0
  chunkRoot _ := Vector.replicate 32 0

@[simp] theorem blake3_zeroHash {data : List UInt8} :
    blake3 zeroHash data = Vector.replicate 32 0 := by
  rw [blake3, Blake3.subtree]
  split <;> rfl

/-- A hash whose values are all one byte. -/
def byteHash (b : UInt8) : Blake3 where
  nonRoot _ _ := Vector.replicate 32 b
  root _ _ := Vector.replicate 32 b
  chunkCv _ _ := Vector.replicate 32 b
  chunkRoot _ := Vector.replicate 32 b

@[simp] theorem blake3_byteHash {b : UInt8} {data : List UInt8} :
    blake3 (byteHash b) data = Vector.replicate 32 b := by
  rw [blake3, Blake3.subtree]
  split <;> rfl

theorem b3_tree_matches_blake3_three :
    (b3Chunk < (List.replicate 3000 (0 : UInt8)).length) ∧
      b3LeafFromChunks zeroHash 3000 1 (chunkBytes (List.replicate 3000 0) 1 2)
        (b3ChunksProof zeroHash (List.replicate 3000 0) 1 2) =
        some (blake3 zeroHash (List.replicate 3000 0)) := by
  have hlen : (List.replicate 3000 (0 : UInt8)).length = 3000 := List.length_replicate
  have hcount : chunkCount 3000 = 3 := by decide
  have hrange := ((b3_tree_matches_blake3 zeroHash).2 (List.replicate 3000 0)
    (by omega)).2.2 1 2 (by decide) (by rw [hlen, hcount])
  rw [hlen] at hrange
  exact ⟨by rw [hlen]; decide, hrange⟩

/-- The one chunk of no bytes leads to their hash by itself, but as a range it leads nowhere. -/
theorem b3_range_of_empty :
    b3LeafFromChunk zeroHash 0 0 [] [] = some (blake3 zeroHash []) ∧
      b3LeafFromChunks zeroHash 0 0 (chunkBytes [] 0 1) (b3ChunksProof zeroHash [] 0 1) ≠
        some (blake3 zeroHash []) := by
  have hrange : b3LeafFromChunks zeroHash 0 0 (chunkBytes [] 0 1)
      (b3ChunksProof zeroHash [] 0 1) = none := rfl
  refine ⟨rfl, ?_⟩
  rw [hrange]
  exact nofun

end

end KeryxMiner.Inference
