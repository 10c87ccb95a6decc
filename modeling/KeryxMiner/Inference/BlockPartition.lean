import Mathlib.Data.Fintype.Card
import Mathlib.Data.List.Basic
import KeryxMiner.Inference.BlockTree

/-!
# The partition of the positions

The tree over the attended positions is never built: the node of a path is computed from the path.
In terms of leaves a node of level `l` starts at a multiple of the leaves per node of its level and
ends where the next one starts, or with the last leaf. The tiling of the positions follows.
-/

namespace KeryxMiner.Inference

/-- Consecutive non-empty intervals from `lo` to `hi`. -/
def Tiled {α : Type} [LT α] (lo hi : α) : List (α × α) → Prop
  | [] => lo = hi
  | (x, y) :: rest => x = lo ∧ x < y ∧ Tiled y hi rest

namespace BlockTree

variable {t : BlockTree}

/-! ## Depth -/

theorem depthLoop_spec {n b span : Nat} {hb : 2 ≤ b} {hspan : 1 ≤ span} :
    n ≤ span * b ^ depthLoop n b span hb hspan ∧
      ∀ d < depthLoop n b span hb hspan, span * b ^ d < n := by
  fun_induction depthLoop n b span hb hspan with
  | case1 span hspan hlt ih =>
    refine ⟨?_, ?_⟩
    · have hle := ih.1
      rwa [Nat.mul_assoc, ← Nat.pow_succ'] at hle
    · intro d hd
      cases d with
      | zero => simpa using hlt
      | succ d =>
        have hd' := ih.2 d (by omega)
        rwa [Nat.mul_assoc, ← Nat.pow_succ'] at hd'
  | case2 span hspan hge => exact ⟨by simpa using hge, fun d hd => absurd hd (Nat.not_lt_zero d)⟩

theorem nLeaves_le_pow : t.nLeaves ≤ t.b ^ t.depth := by
  have h : t.nLeaves ≤ 1 * t.b ^ t.depth := depthLoop_spec.1
  rwa [Nat.one_mul] at h

theorem pow_lt_nLeaves {d : Nat} (hd : d < t.depth) : t.b ^ d < t.nLeaves := by
  have h : 1 * t.b ^ d < t.nLeaves := depthLoop_spec.2 d hd
  rwa [Nat.one_mul] at h

theorem nLeaves_pos : 0 < t.nLeaves := Nat.succ_pos _

theorem leavesPerNode_pos {level : Nat} : 0 < t.leavesPerNode level :=
  Nat.pow_pos (Nat.lt_of_lt_of_le Nat.zero_lt_two t.two_le)

theorem leavesPerNode_succ {level : Nat} (h : level < t.depth) :
    t.leavesPerNode level = t.b * t.leavesPerNode (level + 1) := by
  rw [leavesPerNode, leavesPerNode, ← Nat.pow_succ']
  congr 1
  omega

theorem leavesPerNode_depth : t.leavesPerNode t.depth = 1 := by
  rw [leavesPerNode, Nat.sub_self, Nat.pow_zero]

/-! ## Nodes -/

/-- The leaves from `a` to `z` are those of a node of level `level`. -/
structure IsNode (t : BlockTree) (level a z : Nat) : Prop where
  level_le : level ≤ t.depth
  dvd : t.leavesPerNode level ∣ a
  lt : a < t.nLeaves
  stop : z = min t.nLeaves (a + t.leavesPerNode level)

/-- Children of a node with the leaves from `a` to `z`, of `s` leaves each. -/
def nChildren (a z s : Nat) : Nat := (z - a + s - 1) / s

theorem isNode_root : t.IsNode 0 0 t.nLeaves := by
  have hle := t.nLeaves_le_pow
  refine ⟨Nat.zero_le _, Nat.dvd_zero _, nLeaves_pos, ?_⟩
  rw [leavesPerNode, Nat.sub_zero, Nat.zero_add, Nat.min_eq_left hle]

theorem lt_nChildren_iff {a z s i : Nat} (hs : 0 < s) :
    i < nChildren a z s ↔ a + i * s < z := by
  rw [nChildren, Nat.lt_iff_add_one_le, Nat.le_div_iff_mul_le hs, Nat.add_mul]
  omega

namespace IsNode

variable {level a z : Nat}

theorem start_lt (h : t.IsNode level a z) : a < z := by
  have hlt := h.lt
  have hpos : 0 < t.leavesPerNode level := leavesPerNode_pos
  rw [h.stop]
  omega

theorem stop_le (h : t.IsNode level a z) : z ≤ t.nLeaves := by
  rw [h.stop]
  exact Nat.min_le_left ..

theorem nChildren_pos (h : t.IsNode level a z) {s : Nat} (hs : 0 < s) : 0 < nChildren a z s := by
  have hlt := h.start_lt
  rw [lt_nChildren_iff hs]
  omega

theorem nChildren_le (h : t.IsNode level a z) (hl : level < t.depth) :
    nChildren a z (t.leavesPerNode (level + 1)) ≤ t.b := by
  have hstop : z ≤ a + t.leavesPerNode level := by
    rw [h.stop]
    exact Nat.min_le_right ..
  by_contra hlt
  rw [Nat.not_le, lt_nChildren_iff leavesPerNode_pos, ← leavesPerNode_succ hl] at hlt
  omega

/-- Each child of a node is a node. -/
theorem child (h : t.IsNode level a z) (hl : level < t.depth) {i : Nat}
    (hi : i < nChildren a z (t.leavesPerNode (level + 1))) :
    t.IsNode (level + 1) (a + i * t.leavesPerNode (level + 1))
      (min z (a + i * t.leavesPerNode (level + 1) + t.leavesPerNode (level + 1))) := by
  have hle := h.nChildren_le hl
  have hlt := (lt_nChildren_iff leavesPerNode_pos).mp hi
  have hstop := h.stop
  have hmul : (i + 1) * t.leavesPerNode (level + 1) ≤ t.leavesPerNode level := by
    rw [leavesPerNode_succ hl]
    exact Nat.mul_le_mul_right _ (Nat.lt_of_lt_of_le hi hle)
  refine ⟨hl, Nat.dvd_add ?_ (Nat.dvd_mul_left ..), ?_, ?_⟩
  · exact Nat.dvd_trans (Nat.dvd_mul_left ..) ((leavesPerNode_succ hl) ▸ h.dvd)
  · exact Nat.lt_of_lt_of_le hlt h.stop_le
  · rw [Nat.add_mul, Nat.one_mul] at hmul
    rw [hstop]
    omega

/-- A node of the last level is one leaf. -/
theorem leaf (h : t.IsNode t.depth a z) : z = a + 1 := by
  have hlt := h.lt
  rw [h.stop, leavesPerNode_depth]
  omega

end IsNode

/-! ## Paths -/

theorem leafRangeFrom_cons {level a z : Nat} {i : UInt64} {path : List UInt64} :
    t.leafRangeFrom level a z (i :: path) =
      if i.toNat < nChildren a z (t.leavesPerNode (level + 1)) then
        t.leafRangeFrom (level + 1) (a + i.toNat * t.leavesPerNode (level + 1))
          (min z (a + i.toNat * t.leavesPerNode (level + 1) + t.leavesPerNode (level + 1))) path
      else none := by
  rw [leafRangeFrom]
  simp only [nChildren, ← Nat.not_le, ite_not]

theorem leafRangeFrom_append {level a z : Nat} {path rest : List UInt64} :
    t.leafRangeFrom level a z (path ++ rest) = (t.leafRangeFrom level a z path).bind fun az =>
      t.leafRangeFrom (level + path.length) az.1 az.2 rest := by
  induction path generalizing level a z with
  | nil => rfl
  | cons i path ih =>
    rw [List.cons_append, leafRangeFrom_cons, leafRangeFrom_cons]
    split
    · rw [ih, List.length_cons, Nat.add_comm path.length, ← Nat.add_assoc]
    · rfl

/-- A path leads from a node to a node. -/
theorem IsNode.path {level a z : Nat} (h : t.IsNode level a z) {path : List UInt64} {az : Nat × Nat}
    (hlen : level + path.length ≤ t.depth) (hp : t.leafRangeFrom level a z path = some az) :
    t.IsNode (level + path.length) az.1 az.2 := by
  induction path generalizing level a z with
  | nil =>
    obtain rfl := Option.some.inj hp
    exact h
  | cons i path ih =>
    rw [List.length_cons] at hlen
    rw [leafRangeFrom_cons] at hp
    split at hp
    · rename_i hi
      have hrest := ih (h.child (by omega) hi) (by omega) hp
      rwa [List.length_cons, Nat.add_comm path.length, ← Nat.add_assoc]
    · cases hp

/-- The leaves of a node below are leaves of the node above. -/
theorem leafRangeFrom_subset {level a z : Nat} {path : List UInt64} {az : Nat × Nat}
    (hp : t.leafRangeFrom level a z path = some az) : a ≤ az.1 ∧ az.2 ≤ z := by
  induction path generalizing level a z with
  | nil =>
    obtain rfl := Option.some.inj hp
    exact ⟨Nat.le_refl _, Nat.le_refl _⟩
  | cons i path ih =>
    rw [leafRangeFrom_cons] at hp
    split at hp
    · obtain ⟨hstart, hstop⟩ := ih hp
      omega
    · cases hp

theorem isNode_leafRange {path : List UInt64} {az : Nat × Nat} (hp : t.leafRange path = some az) :
    t.IsNode path.length az.1 az.2 := by
  rw [leafRange] at hp
  split at hp
  · cases hp
  · rename_i hlen
    have hnode := isNode_root.path (by omega) hp
    rwa [Nat.zero_add] at hnode

/-- The leaf `j` of a node is reached from it by one path. -/
theorem IsNode.exists_path {level a z : Nat} (h : t.IsNode level a z) {j : Nat} (hb : t.b ≤ 2 ^ 64)
    (ha : a ≤ j) (hz : j < z) :
    ∃! path : List UInt64, level + path.length = t.depth ∧
      t.leafRangeFrom level a z path = some (j, j + 1) := by
  obtain hlast | hl := Nat.eq_or_lt_of_le h.level_le
  · subst hlast
    have hleaf := h.leaf
    obtain rfl : j = a := by omega
    subst hleaf
    refine ⟨[], ⟨rfl, rfl⟩, ?_⟩
    rintro path ⟨hlen, -⟩
    exact List.eq_nil_of_length_eq_zero (by omega)
  · -- the child with the leaf `j` in it
    have hs : 0 < t.leavesPerNode (level + 1) := leavesPerNode_pos
    set s := t.leavesPerNode (level + 1) with hsdef
    have hdiv := Nat.div_add_mod' (j - a) s
    have hmod := Nat.mod_lt (j - a) hs
    set i := (j - a) / s with hidef
    have hi : i < nChildren a z s := (lt_nChildren_iff hs).mpr (by omega)
    have hchild := h.child hl hi
    rw [← hsdef] at hchild
    have hi64 : (UInt64.ofNat i).toNat = i := by
      apply UInt64.toNat_ofNat_of_lt'
      exact Nat.lt_of_lt_of_le (Nat.lt_of_lt_of_le hi (h.nChildren_le hl)) hb
    obtain ⟨path, ⟨hlen, hpath⟩, hunique⟩ := exists_path hchild hb (j := j) (by omega) (by omega)
    refine ⟨UInt64.ofNat i :: path, ⟨by rw [List.length_cons]; omega, ?_⟩, ?_⟩
    · rw [leafRangeFrom_cons, hi64, ← hsdef, if_pos hi, hpath]
    · rintro path' ⟨hlen', hpath'⟩
      cases path' with
      | nil => rw [List.length_nil] at hlen'; omega
      | cons i' path' =>
        rw [List.length_cons] at hlen'
        rw [leafRangeFrom_cons, ← hsdef] at hpath'
        split at hpath'
        · -- the leaf lies in the child that the path takes
          obtain ⟨hstart, hstop⟩ := leafRangeFrom_subset hpath'
          have hii : i'.toNat = i := by
            refine (Nat.div_eq_of_lt_le ?_ ?_).symm
            · omega
            · rw [Nat.add_mul]
              omega
          obtain rfl : i' = UInt64.ofNat i := by
            rw [← hii, UInt64.ofNat_toNat]
          rw [hi64] at hpath'
          rw [hunique path' ⟨by omega, hpath'⟩]
        · cases hpath'
termination_by t.depth - level

/-! ## Positions -/

/-- A position of the interval lies in a node when its block is one of the node's leaves. -/
theorem mem_positions {a z p : Nat} :
    (t.positions a z).1 ≤ p ∧ p < (t.positions a z).2 ↔
      (t.lo ≤ p ∧ p < t.hi) ∧ t.lo / t.c + a ≤ p / t.c ∧ p / t.c < t.lo / t.c + z := by
  rw [Nat.le_div_iff_mul_le t.one_le, Nat.div_lt_iff_lt_mul t.one_le]
  simp only [positions, Nat.max_le, Nat.lt_min]
  constructor
  · rintro ⟨⟨hlo, ha⟩, hhi, hz⟩
    exact ⟨⟨hlo, hhi⟩, ha, hz⟩
  · rintro ⟨⟨hlo, hhi⟩, ha, hz⟩
    exact ⟨⟨hlo, ha⟩, hhi, hz⟩

/-- The last position's block is the last leaf. -/
theorem last_block : (t.hi - 1) / t.c = t.lo / t.c + (t.nLeaves - 1) := by
  have hle : t.lo / t.c ≤ (t.hi - 1) / t.c := Nat.div_le_div_right (Nat.le_sub_one_of_lt t.lo_lt)
  rw [nLeaves]
  omega

theorem block_bounds {p : Nat} (hlo : t.lo ≤ p) (hhi : p < t.hi) :
    t.lo / t.c ≤ p / t.c ∧ p / t.c < t.lo / t.c + t.nLeaves := by
  have hle : p / t.c ≤ (t.hi - 1) / t.c := Nat.div_le_div_right (Nat.le_sub_one_of_lt hhi)
  have hlast := t.last_block
  have hpos := t.nLeaves_pos
  exact ⟨Nat.div_le_div_right hlo, by omega⟩

theorem positions_root : t.positions 0 t.nLeaves = (t.lo, t.hi) := by
  have hlo := Nat.div_mul_le_self t.lo t.c
  have hlast := t.last_block
  have hpos := t.nLeaves_pos
  have hhi : t.hi - 1 < (t.lo / t.c + t.nLeaves) * t.c := by
    rw [← Nat.div_lt_iff_lt_mul t.one_le]
    omega
  have hlt := t.lo_lt
  rw [positions, Nat.add_zero]
  congr 1 <;> omega

/-- Where a leaf but the first one starts, inside the interval. -/
theorem cut_bounds {m : Nat} (hm : 0 < m) (hlt : m < t.nLeaves) :
    t.lo < (t.lo / t.c + m) * t.c ∧ (t.lo / t.c + m) * t.c < t.hi := by
  have hlo : t.lo / t.c < t.lo / t.c + m := by omega
  rw [Nat.div_lt_iff_lt_mul t.one_le] at hlo
  refine ⟨hlo, ?_⟩
  have hlast := t.last_block
  have hle : t.lo / t.c + m ≤ (t.hi - 1) / t.c := by omega
  rw [Nat.le_div_iff_mul_le t.one_le] at hle
  have hhi := t.lo_lt
  omega

theorem positions_lt {a z : Nat} (haz : a < z) (hz : z ≤ t.nLeaves) :
    (t.positions a z).1 < (t.positions a z).2 := by
  have hlt := t.lo_lt
  have hmul : (t.lo / t.c + a) * t.c < (t.lo / t.c + z) * t.c :=
    Nat.mul_lt_mul_of_pos_right (by omega) t.one_le
  have hlo : t.lo < (t.lo / t.c + z) * t.c := by
    rw [← Nat.div_lt_iff_lt_mul t.one_le]
    omega
  have hhi : (t.lo / t.c + a) * t.c < t.hi := by
    obtain rfl | ha := Nat.eq_zero_or_pos a
    · have hle := Nat.div_mul_le_self t.lo t.c
      rw [Nat.add_zero]
      omega
    · exact (cut_bounds ha (by omega)).2
  simp only [positions]
  omega

/-- A node stops where the next one starts. -/
theorem positions_joint {a m z : Nat} (hm : 0 < m) (hlt : m < t.nLeaves) :
    (t.positions a m).2 = (t.positions m z).1 := by
  obtain ⟨hlo, hhi⟩ := cut_bounds hm hlt
  simp only [positions]
  omega

/-! ## Children -/

/-- The positions of the children of the node with the leaves from `a` to `z`, of `s` leaves each. -/
def childPositions (t : BlockTree) (a z s : Nat) : List (Nat × Nat) :=
  (List.range (nChildren a z s)).map fun i => t.positions (a + i * s) (min z (a + i * s + s))

theorem children_eq {path : List UInt64} (hlen : path.length < t.depth) :
    t.children path = (t.leafRange path).map fun az =>
      t.childPositions az.1 az.2 (t.leavesPerNode (path.length + 1)) := by
  rw [children, if_neg (Nat.not_le.mpr hlen)]
  rfl

theorem nChildren_of_le {a z s : Nat} (haz : a < z) (hle : z ≤ a + s) : nChildren a z s = 1 := by
  rw [nChildren]
  refine Nat.div_eq_of_lt_le ?_ ?_ <;> omega

theorem nChildren_of_lt {a z s : Nat} (hs : 0 < s) (hlt : a + s < z) :
    nChildren a z s = nChildren (a + s) z s + 1 := by
  rw [nChildren, nChildren, ← Nat.add_div_right _ hs]
  congr 1
  omega

theorem childPositions_of_le {a z s : Nat} (haz : a < z) (hle : z ≤ a + s) :
    t.childPositions a z s = [t.positions a z] := by
  rw [childPositions, nChildren_of_le haz hle]
  simp [Nat.min_eq_left hle]

theorem childPositions_of_lt {a z s : Nat} (hs : 0 < s) (hlt : a + s < z) :
    t.childPositions a z s = t.positions a (a + s) :: t.childPositions (a + s) z s := by
  rw [childPositions, nChildren_of_lt hs hlt, List.range_succ_eq_map, List.map_cons, List.map_map,
    Nat.zero_mul, Nat.add_zero, Nat.min_eq_right (Nat.le_of_lt hlt), childPositions]
  congr 1
  apply List.map_congr_left
  intro i _
  rw [Function.comp_apply, Nat.succ_eq_add_one, Nat.add_mul, Nat.one_mul]
  congr 1 <;> omega

/-- The children of a node tile it. -/
theorem tiled_childPositions {a z s : Nat} (hs : 0 < s) (haz : a < z) (hz : z ≤ t.nLeaves) :
    Tiled (t.positions a z).1 (t.positions a z).2 (t.childPositions a z s) := by
  obtain hle | hlt := Nat.lt_or_ge (a + s) z |>.symm
  · rw [childPositions_of_le haz hle]
    exact ⟨rfl, positions_lt haz hz, rfl⟩
  · rw [childPositions_of_lt hs hlt]
    have hrest : Tiled (t.positions a (a + s)).2 (t.positions a z).2
        (t.childPositions (a + s) z s) := by
      rw [positions_joint (z := z) (by omega) (by omega)]
      exact tiled_childPositions hs hlt hz
    exact ⟨rfl, positions_lt (by omega) (by omega), hrest⟩
termination_by z - a

/-- The path one longer leads to the child of that index. -/
theorem node_concat {path : List UInt64} {i : UInt64} (hlen : path.length < t.depth) :
    t.node (path ++ [i]) = (t.children path).bind fun cs => cs[i.toNat]? := by
  have hlen' : ¬ t.depth < (path ++ [i]).length := by
    rw [List.length_append, List.length_singleton]
    omega
  rw [children_eq hlen, node, leafRange, if_neg hlen', leafRangeFrom_append, Nat.zero_add,
    leafRange, if_neg (by omega)]
  cases t.leafRangeFrom 0 0 t.nLeaves path with
  | none => rfl
  | some az =>
    rw [Option.bind_some, Option.map_some, Option.bind_some, leafRangeFrom_cons, childPositions,
      List.getElem?_map]
    split
    · rename_i hi
      rw [List.getElem?_range hi]
      rfl
    · rename_i hi
      rw [List.getElem?_eq_none (by rw [List.length_range]; omega)]
      rfl

/-! ## The partition -/

/-- The children of an inner node: one to `b` of them. -/
theorem length_childPositions {path : List UInt64} {az : Nat × Nat} (hlen : path.length < t.depth)
    (hp : t.leafRange path = some az) :
    1 ≤ (t.childPositions az.1 az.2 (t.leavesPerNode (path.length + 1))).length ∧
      (t.childPositions az.1 az.2 (t.leavesPerNode (path.length + 1))).length ≤ t.b := by
  have hnode := isNode_leafRange hp
  rw [childPositions, List.length_map, List.length_range]
  exact ⟨hnode.nChildren_pos leavesPerNode_pos, hnode.nChildren_le hlen⟩

/-- Every position lies in one leaf. -/
theorem exists_leaf {p : Nat} (hb : t.b ≤ 2 ^ 64) (hlo : t.lo ≤ p) (hhi : p < t.hi) :
    ∃! path : List UInt64, path.length = t.depth ∧
      ∃ leaf, t.node path = some leaf ∧ leaf.1 ≤ p ∧ p < leaf.2 := by
  obtain ⟨hfirst, hlast⟩ := block_bounds hlo hhi
  obtain ⟨path, ⟨hlen, hpath⟩, hunique⟩ := isNode_root.exists_path (t := t)
    (j := p / t.c - t.lo / t.c) hb (Nat.zero_le _) (by omega)
  rw [Nat.zero_add] at hlen
  have hrange : t.leafRange path = some (p / t.c - t.lo / t.c, p / t.c - t.lo / t.c + 1) := by
    rw [leafRange, if_neg (by omega), hpath]
  refine ⟨path, ⟨hlen, _, by rw [node, hrange, Option.map_some], ?_⟩, ?_⟩
  · rw [mem_positions]
    omega
  · rintro path' ⟨hlen', leaf, hleaf, hmem⟩
    apply hunique
    rw [node, Option.map_eq_some_iff] at hleaf
    obtain ⟨az, haz, rfl⟩ := hleaf
    have hnode := isNode_leafRange haz
    rw [hlen'] at hnode
    have hstop := hnode.leaf
    rw [mem_positions] at hmem
    rw [leafRange, if_neg (by omega)] at haz
    refine ⟨by omega, ?_⟩
    rw [haz, Option.some.injEq, Prod.ext_iff]
    omega

/-- A leaf lies within one block. -/
theorem leaf_aligned {path : List UInt64} {leaf : Nat × Nat} (hlen : path.length = t.depth)
    (hp : t.node path = some leaf) :
    t.lo ≤ leaf.1 ∧ leaf.1 < leaf.2 ∧ leaf.2 ≤ t.hi ∧ leaf.1 / t.c = (leaf.2 - 1) / t.c := by
  rw [node, Option.map_eq_some_iff] at hp
  obtain ⟨az, haz, rfl⟩ := hp
  have hnode := isNode_leafRange haz
  rw [hlen] at hnode
  have hlt := positions_lt hnode.start_lt hnode.stop_le
  have hfirst := (mem_positions (t := t) (a := az.1) (z := az.2)).mp ⟨Nat.le_refl _, hlt⟩
  have hlast := (mem_positions (t := t) (a := az.1) (z := az.2)
    (p := (t.positions az.1 az.2).2 - 1)).mp ⟨by omega, by omega⟩
  have hstop := hnode.leaf
  omega

/-- Fewer levels do not do: the leaves of a tree of `d` levels are `b ^ d` at most, and each of them
takes the positions of one block. -/
theorem depth_le {d : Nat} (block : Fin (t.b ^ d) → Nat)
    (hcover : ∀ p, t.lo ≤ p → p < t.hi → ∃ i, p / t.c = block i) : t.depth ≤ d := by
  by_contra hlt
  have hpow := t.pow_lt_nLeaves (Nat.lt_of_not_le hlt)
  have hleaf : ∀ j : Fin t.nLeaves, ∃ i, t.lo / t.c + j = block i := by
    intro j
    have hj := positions_lt (t := t) (Nat.lt_succ_self j.1) j.2
    obtain ⟨⟨hlo, hhi⟩, hge, hle⟩ := mem_positions.mp ⟨Nat.le_refl _, hj⟩
    obtain ⟨i, hi⟩ := hcover _ hlo hhi
    exact ⟨i, by omega⟩
  choose leafOf hleafOf using hleaf
  have hinj : Function.Injective leafOf := by
    intro j j' heq
    have hj := hleafOf j
    have hj' := hleafOf j'
    rw [heq] at hj
    exact Fin.ext (by omega)
  have hcard := Fintype.card_le_of_injective leafOf hinj
  rw [Fintype.card_fin, Fintype.card_fin] at hcard
  omega

end BlockTree

end KeryxMiner.Inference
