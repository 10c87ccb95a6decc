import KeryxMiner.RangeTree
import KeryxMiner.Pom.Tiles

/-!
# Merkle proofs of the verifier

The two trees of the inference verifier. The `rt` tree is the one over the chunks of the model,
where the last node of an odd level is hashed with itself; in the `b3` tree over trace leaves it is
promoted, and the last merge is BLAKE3's root merge. The loops over the levels are those of
`RangeTree`, but for the path of a single leaf of the `b3` tree, which has its own.
-/

namespace KeryxMiner.Inference

open RangeTree Merkle

abbrev Hash := Vector UInt8 32

/-! ## The tree over the model -/

section

variable (blake : List UInt8 → Hash)

def rtShape : Shape Hash := ⟨fun _ l r => Pom.hashPair blake l r, true⟩

/-- The root of the `rt` tree and the proof of `count` leaves from `first`. -/
def rtRangeProof (leaves : List Hash) (first count : Nat) : Option Hash × List Hash :=
  ((rtShape blake).root leaves, (rtShape blake).rangeProof leaves first (first + count - 1))

def rtVerifyRange (root : Hash) (nLeaves first : Nat) (leaves proof : List Hash) : Bool :=
  if leaves.isEmpty || nLeaves < first + leaves.length || 128 < proof.length then false
  else rangeFold (rtShape blake) nLeaves first leaves proof == some root

def rtVerifyLeaf (root : Hash) (nLeaves index : Nat) (leaf : Hash) (path : List Hash) : Bool :=
  rtVerifyRange blake root nLeaves index [leaf] path

/-- What `rtVerifyRange` hashes. -/
def rtHashed (nLeaves first : Nat) (leaves proof : List Hash) : List (List UInt8) :=
  (foldInputs (rtShape blake) nLeaves first leaves proof).map fun a => Pom.pairBytes a.2

end

section

variable {blake : List UInt8 → Hash} {leaves proof leaves' proof' : List Hash} {root : Hash}
  {first first' count n i : Nat}

theorem rtVerifyRange_iff : rtVerifyRange blake root n first leaves proof = true ↔
    leaves ≠ [] ∧ first + leaves.length ≤ n ∧ proof.length ≤ 128 ∧
      rangeFold (rtShape blake) n first leaves proof = some root := by
  rw [rtVerifyRange]
  split
  · next h =>
    simp only [Bool.or_eq_true, List.isEmpty_iff, decide_eq_true_eq] at h
    refine iff_of_false (by simp) ?_
    rintro ⟨hne, hle, hlen, -⟩
    rcases h with (h | h) | h
    · exact hne h
    · omega
    · omega
  · next h =>
    simp only [Bool.or_eq_true, List.isEmpty_iff, decide_eq_true_eq, not_or, Nat.not_lt] at h
    simp [h]

/-- A part of a list stands in front of what is left behind its start. -/
theorem slice_prefix : (leaves.drop first).take count <+: leaves.drop first :=
  List.take_prefix ..

theorem length_slice (h : first + count ≤ leaves.length) :
    ((leaves.drop first).take count).length = count := by
  rw [List.length_take, List.length_drop]
  omega

/-- A range of the tree is accepted with its proof. -/
theorem rtVerifyRange_rtRangeProof (hn : leaves.length < 2 ^ 64) (hcount : 1 ≤ count)
    (hle : first + count ≤ leaves.length)
    (hroot : (rtRangeProof blake leaves first count).1 = some root) :
    rtVerifyRange blake root leaves.length first ((leaves.drop first).take count)
      (rtRangeProof blake leaves first count).2 = true := by
  have hlen := length_slice hle
  have hne : (leaves.drop first).take count ≠ [] := by
    rw [← List.length_pos_iff]
    omega
  have hproof := @Shape.length_rangeProof_le _ (rtShape blake) leaves 64 first (first + count - 1)
    hn.le
  refine rtVerifyRange_iff.mpr ⟨hne, by omega, hproof, ?_⟩
  rw [← hroot]
  exact rangeFold_rangeProof slice_prefix hne (by omega)

theorem rtVerifyRange_agree (h : rtVerifyRange blake root n first leaves proof)
    (h' : rtVerifyRange blake root n first' leaves' proof')
    (hfree : CollisionFree blake
      (rtHashed blake n first leaves proof ++ rtHashed blake n first' leaves' proof'))
    {x y : Hash} (hx : nodeAt first leaves i = some x) (hy : nodeAt first' leaves' i = some y) :
    x = y := by
  obtain ⟨hne, hle, -, hfold⟩ := rtVerifyRange_iff.mp h
  obtain ⟨hne', hle', -, hfold'⟩ := rtVerifyRange_iff.mp h'
  refine rangeFold_agree hle hle' hne hne' hfold hfold' ?_ hx hy
  intro a ha b hb _ hnode
  rw [rtHashed, rtHashed, ← List.map_append] at hfree
  exact Pom.pairBytes_inj (hfree _ (List.mem_map_of_mem ha) _ (List.mem_map_of_mem hb) hnode)

/-- Range openings of the tree over the model: every range is accepted with its proof, and accepted
ranges agree where they overlap. -/
theorem rt_ranges (blake : List UInt8 → Hash) :
    (∀ (leaves : List Hash) (first count : Nat), leaves.length < 2 ^ 64 → 1 ≤ count →
      first + count ≤ leaves.length → ∃ root, (rtShape blake).root leaves = some root ∧
        (rtRangeProof blake leaves first count).1 = some root ∧
        rtVerifyRange blake root leaves.length first ((leaves.drop first).take count)
          (rtRangeProof blake leaves first count).2 = true) ∧
    ∀ (root : Hash) (n first first' : Nat) (leaves proof leaves' proof' : List Hash),
      rtVerifyRange blake root n first leaves proof →
      rtVerifyRange blake root n first' leaves' proof' →
      CollisionFree blake
        (rtHashed blake n first leaves proof ++ rtHashed blake n first' leaves' proof') →
      ∀ i x y, nodeAt first leaves i = some x → nodeAt first' leaves' i = some y → x = y := by
  constructor
  · intro leaves first count hn hcount hle
    have hne : leaves ≠ [] := by
      rw [← List.length_pos_iff]
      omega
    obtain ⟨root, hroot⟩ := (rtShape blake).exists_root hne
    exact ⟨root, hroot, hroot, rtVerifyRange_rtRangeProof hn hcount hle hroot⟩
  · intro root n first first' leaves proof leaves' proof' h h' hfree i x y hx hy
    exact rtVerifyRange_agree h h' hfree hx hy

/-- A hash that gives the first byte of its input in every place. -/
def firstByte (bytes : List UInt8) : Hash := Vector.replicate 32 (bytes.headD 0)

theorem rt_ranges_two :
    let a : Hash := Vector.replicate 32 5
    let b : Hash := Vector.replicate 32 6
    rtVerifyRange firstByte a 2 0 [a, b] [] = true ∧ rtVerifyRange firstByte a 2 0 [a] [b] = true ∧
      ∀ x y, nodeAt 0 [a, b] 0 = some x → nodeAt 0 [a] 0 = some y → x = y := by
  intro a b
  obtain ⟨root, hroot, -, hboth⟩ := (rt_ranges firstByte).1 [a, b] 0 2 (by simp) (by simp)
    (by simp)
  obtain ⟨root', hroot', -, hone⟩ := (rt_ranges firstByte).1 [a, b] 0 1 (by simp) (by simp)
    (by simp)
  have ha : (rtShape firstByte).root [a, b] = some a := by
    simp [Shape.root, Shape.above, Shape.parents, rtShape, Pom.hashPair, firstByte, a]
  obtain rfl := Option.some.inj (ha.symm.trans hroot)
  obtain rfl := Option.some.inj (ha.symm.trans hroot')
  have hboth' : (rtRangeProof firstByte [a, b] 0 2).2 = [] := by
    rw [rtRangeProof, Shape.rangeProof, Shape.rangeProof]
    simp [Shape.above, Shape.parents]
  have hone' : (rtRangeProof firstByte [a, b] 0 1).2 = [b] := by
    rw [rtRangeProof, Shape.rangeProof, Shape.rangeProof]
    simp [Shape.above, Shape.parents]
  rw [hboth'] at hboth
  rw [hone'] at hone
  have hhashed : ∀ leaves proof, complete 2 0 leaves proof = some ([a, b], []) →
      rtHashed firstByte 2 0 leaves proof = [Pom.pairBytes (a, b)] := by
    intro leaves proof hcomplete
    rw [rtHashed, foldInputs, if_neg (by decide), hcomplete]
    dsimp only
    rw [foldInputs, if_pos (by decide)]
    rfl
  refine ⟨hboth, hone, (rt_ranges firstByte).2 a 2 0 0 [a, b] [] [a] [b] hboth hone ?_ 0⟩
  rw [hhashed _ _ rfl, hhashed _ _ rfl]
  intro x hx y hy _
  simp only [List.mem_append, List.mem_singleton, or_self] at hx hy
  rw [hx, hy]

end

/-! ## The tree over trace leaves -/

/-- How the hash merges two subtrees, below the root and at the root. -/
structure Merges where
  nonRoot : Hash → Hash → Hash
  root : Hash → Hash → Hash

section

variable (m : Merges)

def b3Merge (l r : Hash) (root : Bool) : Hash := if root then m.root l r else m.nonRoot l r

def b3Shape : Shape Hash := ⟨fun root l r => b3Merge m l r root, false⟩

def b3Root (leaves : List Hash) : Option Hash := (b3Shape m).root leaves

def b3Path (leaves : List Hash) (index : Nat) : List Hash :=
  if leaves.length ≤ 1 then []
  else
    (if leaves.length % 2 = 0 ∨ index ≠ leaves.length - 1 then leaves[index ^^^ 1]?.toList else []) ++
      b3Path ((b3Shape m).above leaves) (index / 2)
termination_by leaves.length
decreasing_by
  rw [Shape.above, Shape.length_parents]
  omega

/-- The loop of `b3Fold` over the levels. -/
def b3FoldLoop (n i : Nat) (acc : Hash) (path : List Hash) : Option Hash :=
  if n ≤ 1 then if path.isEmpty then some acc else none
  else if n % 2 = 0 ∨ i ≠ n - 1 then
    match path with
    | [] => none
    | s :: path => b3FoldLoop ((n + 1) / 2) (i / 2)
        (if i % 2 = 0 then b3Merge m acc s (n == 2) else b3Merge m s acc (n == 2)) path
  else b3FoldLoop ((n + 1) / 2) (i / 2) acc path
termination_by n

def b3Fold (nLeaves index : Nat) (leaf : Hash) (path : List Hash) : Option Hash :=
  if nLeaves ≤ index || 64 < path.length then none else b3FoldLoop m nLeaves index leaf path

def b3Verify (root : Hash) (nLeaves index : Nat) (leaf : Hash) (path : List Hash) : Bool :=
  b3Fold m nLeaves index leaf path == some root

def b3RangeProof (leaves : List Hash) (first count : Nat) : List Hash :=
  (b3Shape m).rangeProof leaves first (first + count - 1)

def b3RangeFold (nLeaves first : Nat) (leaves proof : List Hash) : Option Hash :=
  if leaves.isEmpty || nLeaves < first + leaves.length || 128 < proof.length then none
  else rangeFold (b3Shape m) nLeaves first leaves proof

/-- An opening of a leaf or of a range. -/
inductive B3Opening
  | leaf (index : Nat) (cv : Hash) (path : List Hash)
  | range (first : Nat) (leaves proof : List Hash)

/-- The root that an opening leads to. -/
def B3Opening.fold (n : Nat) : B3Opening → Option Hash
  | .leaf index cv path => b3Fold m n index cv path
  | .range first leaves proof => b3RangeFold m n first leaves proof

/-- The leaf that an opening has at place `i`. -/
def B3Opening.leafAt (i : Nat) : B3Opening → Option Hash
  | .leaf index cv _ => if i = index then some cv else none
  | .range first leaves _ => nodeAt first leaves i

/-- What is merged while an opening is folded, with the flags of the merges. -/
def B3Opening.merged (n : Nat) : B3Opening → List (Bool × Hash × Hash)
  | .leaf index cv path => foldInputs (b3Shape m) n index [cv] path
  | .range first leaves proof => foldInputs (b3Shape m) n first leaves proof

end

section

variable {m : Merges} {leaves proof path : List Hash} {leaf root acc : Hash}
  {first count n index i : Nat}

theorem b3RangeFold_iff : b3RangeFold m n first leaves proof = some root ↔
    leaves ≠ [] ∧ first + leaves.length ≤ n ∧ proof.length ≤ 128 ∧
      rangeFold (b3Shape m) n first leaves proof = some root := by
  rw [b3RangeFold]
  split
  · next h =>
    simp only [Bool.or_eq_true, List.isEmpty_iff, decide_eq_true_eq] at h
    refine iff_of_false (by simp) ?_
    rintro ⟨hne, hle, hlen, -⟩
    rcases h with (h | h) | h
    · exact hne h
    · omega
    · omega
  · next h =>
    simp only [Bool.or_eq_true, List.isEmpty_iff, decide_eq_true_eq, not_or, Nat.not_lt] at h
    simp [h]

/-- The path of a leaf is the proof of the range of the leaf alone. -/
theorem b3Path_eq (h : index < leaves.length) :
    b3Path m leaves index = (b3Shape m).rangeProof leaves index index := by
  induction leaves, index using b3Path.induct m with
  | case1 leaves index hone => rw [b3Path, Shape.rangeProof, if_pos hone, if_pos hone]
  | case2 leaves index hmany ih =>
    have hup : index / 2 < ((b3Shape m).above leaves).length := by
      rw [Shape.above, Shape.length_parents]
      omega
    rw [b3Path, Shape.rangeProof, if_neg hmany, if_neg hmany, ih hup, Pom.xor_one]
    congr 1
    rcases Nat.mod_two_eq_zero_or_one index with heven | hodd
    · simp only [heven, if_pos, Nat.zero_ne_one, if_false, List.nil_append, true_and]
      congr 1
      exact propext (by omega)
    · simp only [hodd, Nat.one_ne_zero, if_false, if_pos, false_and, List.append_nil]
      rw [if_pos (by omega)]

/-- A sibling of the path completes the pair of a node. -/
theorem complete_pair (h : i < n) (hsib : n % 2 = 0 ∨ i ≠ n - 1) {s : Hash} :
    complete n i [acc] (s :: path) =
      some (if i % 2 = 0 then [acc, s] else [s, acc], path) := by
  rw [complete, takeFront.eq_def]
  rcases Nat.mod_two_eq_zero_or_one i with heven | hodd
  · rw [if_pos heven, if_pos heven]
    show takeBack n (i + 1 - 1) [acc] (s :: path) = _
    rw [takeBack, if_pos (by omega)]
    rfl
  · rw [if_neg (by omega), if_neg (by omega)]
    show takeBack n (i + 1 - 1) [s, acc] path = _
    rw [takeBack.eq_def, if_neg (by omega)]

theorem complete_pair_nil (h : i < n) (hsib : n % 2 = 0 ∨ i ≠ n - 1) :
    complete n i [acc] [] = none := by
  rw [complete, takeFront.eq_def]
  split
  · show takeBack n (i + 1 - 1) [acc] [] = none
    rw [takeBack, if_pos (by omega)]
  · rfl

theorem complete_lone (h : ¬(n % 2 = 0 ∨ i ≠ n - 1)) :
    complete n i [acc] path = some ([acc], path) := by
  rw [complete, takeFront.eq_def, if_pos (by omega)]
  show takeBack n (i + 1 - 1) [acc] path = _
  rw [takeBack.eq_def, if_neg (by omega)]

/-- Folding a path is folding the range of the leaf alone. -/
theorem b3FoldLoop_eq (h : i < n) :
    b3FoldLoop m n i acc path = rangeFold (b3Shape m) n i [acc] path := by
  induction n, i, acc, path using b3FoldLoop.induct m with
  | case1 n i acc path hone hempty =>
    obtain rfl := List.isEmpty_iff.mp hempty
    rw [b3FoldLoop, rangeFold, if_pos hone, if_pos hone]
    rfl
  | case2 n i acc path hone hsome =>
    cases path with
    | nil => exact absurd rfl hsome
    | cons s path =>
      rw [b3FoldLoop, rangeFold.eq_def, if_pos hone, if_pos hone]
      rfl
  | case3 n i acc hmany hsib =>
    rw [b3FoldLoop, rangeFold, if_neg hmany, if_neg hmany, if_pos hsib, complete_pair_nil h hsib]
  | case4 n i acc hmany hsib s path ih =>
    rw [b3FoldLoop, rangeFold.eq_def, if_neg hmany, if_neg hmany, if_pos hsib, complete_pair h hsib]
    have hstep := ih (by omega)
    simp only [dite_eq_ite] at hstep
    dsimp only
    rw [hstep]
    congr 1
    split <;> rfl
  | case5 n i acc path hmany hlone ih =>
    rw [b3FoldLoop.eq_def, rangeFold.eq_def, if_neg hmany, if_neg hmany, if_neg hlone,
      complete_lone hlone]
    exact ih (by omega)

theorem b3Fold_iff : b3Fold m n index leaf path = some root ↔
    index < n ∧ path.length ≤ 64 ∧ rangeFold (b3Shape m) n index [leaf] path = some root := by
  rw [b3Fold]
  split
  · next h =>
    simp only [Bool.or_eq_true, decide_eq_true_eq] at h
    refine iff_of_false (by simp) ?_
    rintro ⟨hlt, hlen, -⟩
    omega
  · next h =>
    simp only [Bool.or_eq_true, decide_eq_true_eq, not_or, Nat.not_le, Nat.not_lt] at h
    rw [b3FoldLoop_eq h.1]
    simp [h]

/-- A path has at most one sibling on each level. -/
theorem length_b3Path_le {k : Nat} (h : leaves.length ≤ 2 ^ k) :
    (b3Path m leaves index).length ≤ k := by
  induction k generalizing leaves index with
  | zero =>
    rw [b3Path, if_pos (by omega)]
    exact Nat.zero_le _
  | succ k ih =>
    rw [b3Path]
    split
    · exact Nat.zero_le _
    · have hup : ((b3Shape m).above leaves).length ≤ 2 ^ k := by
        rw [Shape.above, Shape.length_parents]
        omega
      have hrest := @ih _ (index / 2) hup
      have hone : (if leaves.length % 2 = 0 ∨ index ≠ leaves.length - 1 then
          leaves[index ^^^ 1]?.toList else []).length ≤ 1 := by
        split
        · cases leaves[index ^^^ 1]? <;> simp
        · exact Nat.zero_le _
      rw [List.length_append]
      omega

theorem b3Fold_b3Path (hn : leaves.length < 2 ^ 64) (h : leaves[index]? = some leaf) :
    b3Fold m leaves.length index leaf (b3Path m leaves index) = b3Root m leaves := by
  obtain ⟨hlt, hget⟩ := List.getElem?_eq_some_iff.mp h
  have hne : leaves ≠ [] := by
    rintro rfl
    exact absurd hlt (Nat.not_lt_zero _)
  obtain ⟨root, hroot⟩ := (b3Shape m).exists_root hne
  rw [b3Root, hroot]
  refine b3Fold_iff.mpr ⟨hlt, length_b3Path_le hn.le, ?_⟩
  rw [b3Path_eq hlt, ← hroot]
  refine rangeFold_rangeProof ?_ (List.cons_ne_nil _ _) rfl
  rw [List.drop_eq_getElem_cons hlt, hget]
  exact List.prefix_append [leaf] _

theorem b3RangeFold_b3RangeProof (hn : leaves.length < 2 ^ 64) (hcount : 1 ≤ count)
    (hle : first + count ≤ leaves.length) :
    b3RangeFold m leaves.length first ((leaves.drop first).take count)
      (b3RangeProof m leaves first count) = b3Root m leaves := by
  have hlen := length_slice hle
  have hne : (leaves.drop first).take count ≠ [] := by
    rw [← List.length_pos_iff]
    omega
  obtain ⟨root, hroot⟩ := (b3Shape m).exists_root (l := leaves) (by
    rintro rfl
    simp at hle
    omega)
  rw [b3Root, hroot]
  refine b3RangeFold_iff.mpr ⟨hne, by omega, (b3Shape m).length_rangeProof_le hn.le, ?_⟩
  rw [b3RangeProof, ← hroot]
  exact rangeFold_rangeProof slice_prefix hne (by omega)

/-- An opening that leads to a root is a range with its leaves. -/
theorem B3Opening.fold_eq_some {o : B3Opening} (h : o.fold m n = some root) :
    ∃ first leaves proof, leaves ≠ [] ∧ first + leaves.length ≤ n ∧
      rangeFold (b3Shape m) n first leaves proof = some root ∧
      o.merged m n = foldInputs (b3Shape m) n first leaves proof ∧
      ∀ i, o.leafAt i = nodeAt first leaves i := by
  cases o with
  | leaf index cv path =>
    obtain ⟨hlt, -, hfold⟩ := b3Fold_iff.mp h
    refine ⟨index, [cv], path, List.cons_ne_nil _ _, hlt, hfold, rfl, fun i => ?_⟩
    rw [leafAt, nodeAt]
    rcases Nat.lt_trichotomy i index with hi | rfl | hi
    · rw [if_neg (by omega), if_neg (by omega)]
    · simp
    · rw [if_neg (by omega), if_pos (by omega), List.getElem?_eq_none (by simp; omega)]
  | range first leaves proof =>
    obtain ⟨hne, hle, -, hfold⟩ := b3RangeFold_iff.mp h
    exact ⟨first, leaves, proof, hne, hle, hfold, rfl, fun _ => rfl⟩

/-- Openings that lead to one root agree on the leaves that both have. -/
theorem B3Opening.agree {o o' : B3Opening} (h : o.fold m n = some root)
    (h' : o'.fold m n = some root)
    (hfree : NoCollision (b3Shape m) (o.merged m n ++ o'.merged m n)) {x y : Hash}
    (hx : o.leafAt i = some x) (hy : o'.leafAt i = some y) : x = y := by
  obtain ⟨first, leaves, proof, hne, hle, hfold, hmerged, hat⟩ := fold_eq_some h
  obtain ⟨first', leaves', proof', hne', hle', hfold', hmerged', hat'⟩ := fold_eq_some h'
  rw [hmerged, hmerged'] at hfree
  rw [hat] at hx
  rw [hat'] at hy
  exact rangeFold_agree hle hle' hne hne' hfold hfold' hfree hx hy

/-- Openings of the tree over trace leaves: those of the tree lead to its root, and openings that
lead to one root agree on the leaves that both have. -/
theorem b3_openings (m : Merges) :
    (∀ leaves : List Hash, leaves ≠ [] → leaves.length < 2 ^ 64 → ∃ root,
      b3Root m leaves = some root ∧
      (∀ index leaf, leaves[index]? = some leaf →
        b3Fold m leaves.length index leaf (b3Path m leaves index) = some root) ∧
      ∀ first count, 1 ≤ count → first + count ≤ leaves.length →
        b3RangeFold m leaves.length first ((leaves.drop first).take count)
          (b3RangeProof m leaves first count) = some root) ∧
    ∀ (n : Nat) (root : Hash) (o o' : B3Opening), o.fold m n = some root →
      o'.fold m n = some root → NoCollision (b3Shape m) (o.merged m n ++ o'.merged m n) →
      ∀ i x y, o.leafAt i = some x → o'.leafAt i = some y → x = y := by
  constructor
  · intro leaves hne hn
    obtain ⟨root, hroot⟩ := (b3Shape m).exists_root hne
    refine ⟨root, hroot, ?_, ?_⟩
    · intro index leaf hleaf
      exact (b3Fold_b3Path hn hleaf).trans hroot
    · intro first count hcount hle
      exact (b3RangeFold_b3RangeProof hn hcount hle).trans hroot
  · intro n root o o' h h' hfree i x y hx hy
    exact B3Opening.agree h h' hfree hx hy

/-- Merges that keep the left subtree. -/
def leftMerges : Merges := ⟨fun l _ => l, fun l _ => l⟩

theorem b3_openings_two :
    let a : Hash := Vector.replicate 32 5
    let b : Hash := Vector.replicate 32 6
    (B3Opening.leaf 0 a [b]).fold leftMerges 2 = some a ∧
      (B3Opening.range 0 [a, b] []).fold leftMerges 2 = some a ∧
      ∀ x y, (B3Opening.leaf 0 a [b]).leafAt 0 = some x →
        (B3Opening.range 0 [a, b] []).leafAt 0 = some y → x = y := by
  intro a b
  have hleaf : (B3Opening.leaf 0 a [b]).fold leftMerges 2 = some a := by
    rw [B3Opening.fold, b3Fold_iff]
    refine ⟨by decide, by decide, ?_⟩
    rw [rangeFold.eq_def, if_neg (by decide), complete_pair (by decide) (.inl rfl)]
    dsimp only
    rw [rangeFold.eq_def, if_pos (by decide)]
    rfl
  have hrange : (B3Opening.range 0 [a, b] []).fold leftMerges 2 = some a := by
    rw [B3Opening.fold, b3RangeFold_iff]
    refine ⟨List.cons_ne_nil _ _, by simp, by simp, ?_⟩
    rw [rangeFold.eq_def, if_neg (by decide), show complete 2 0 [a, b] [] = some ([a, b], []) from rfl]
    dsimp only
    rw [rangeFold.eq_def, if_pos (by decide)]
    rfl
  refine ⟨hleaf, hrange, (b3_openings leftMerges).2 2 a _ _ hleaf hrange ?_ 0⟩
  have hmerged : ∀ leaves proof, complete 2 0 leaves proof = some ([a, b], []) →
      foldInputs (b3Shape leftMerges) 2 0 leaves proof = [(true, a, b)] := by
    intro leaves proof hcomplete
    rw [foldInputs, if_neg (by decide), hcomplete]
    dsimp only
    rw [foldInputs, if_pos (by decide)]
    rfl
  rw [B3Opening.merged, B3Opening.merged, hmerged _ _ rfl, hmerged _ _ rfl]
  intro x hx y hy _ _
  simp only [List.mem_append, List.mem_singleton, or_self] at hx hy
  rw [hx, hy]

end

end KeryxMiner.Inference
