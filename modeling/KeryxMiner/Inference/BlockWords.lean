import KeryxMiner.Inference.BlockPartition

/-!
# The tree in machine words

The source computes the nodes in words of 64 bits. Two sums are not guarded: the end of the last
block, and the leaf after a node. The words agree with the tree over the naturals where both fit,
and where they do not, the last position is in no leaf.
-/

namespace KeryxMiner.Inference

/-! ## Words -/

def saturatingMul (x y : UInt64) : UInt64 := UInt64.ofNat (min (x.toNat * y.toNat) (2 ^ 64 - 1))

def saturatingPow (x : UInt64) (n : Nat) : UInt64 := UInt64.ofNat (min (x.toNat ^ n) (2 ^ 64 - 1))

/-- The quotient, rounded up. -/
def divCeil (x y : UInt64) : UInt64 := if x % y = 0 then x / y else x / y + 1

/-- Every `s`-th word from `a` on, below `z`. -/
def stepBy (a z s : UInt64) : List UInt64 :=
  (List.range ((z.toNat - a.toNat + s.toNat - 1) / s.toNat)).map fun k => a + UInt64.ofNat k * s

theorem toNat_saturatingMul {x y : UInt64} :
    (saturatingMul x y).toNat = min (x.toNat * y.toNat) (2 ^ 64 - 1) :=
  UInt64.toNat_ofNat_of_lt' (Nat.lt_of_le_of_lt (Nat.min_le_right ..) (by decide))

theorem toNat_saturatingPow {x : UInt64} {n : Nat} (hlt : x.toNat ^ n < 2 ^ 64) :
    (saturatingPow x n).toNat = x.toNat ^ n := by
  rw [saturatingPow, Nat.min_eq_left (Nat.le_sub_one_of_lt hlt)]
  exact UInt64.toNat_ofNat_of_lt' hlt

theorem toNat_divCeil {x y : UInt64} (hy : 0 < y.toNat) :
    (divCeil x y).toNat = (x.toNat + y.toNat - 1) / y.toNat := by
  have hdiv := Nat.div_add_mod x.toNat y.toNat
  have hmod := Nat.mod_lt x.toNat hy
  have hx := x.toNat_lt
  rw [divCeil]
  split
  · rename_i hzero
    rw [← UInt64.toNat_inj, UInt64.toNat_mod, UInt64.toNat_zero] at hzero
    rw [UInt64.toNat_div]
    refine (Nat.div_eq_of_lt_le ?_ ?_).symm
    · rw [Nat.mul_comm]
      omega
    · rw [Nat.add_mul, Nat.mul_comm]
      omega
  · rename_i hne
    rw [← UInt64.toNat_inj, UInt64.toNat_mod, UInt64.toNat_zero] at hne
    have hle : x.toNat / y.toNat < x.toNat := by
      apply Nat.div_lt_self
      · omega
      · omega
    rw [UInt64.toNat_add, UInt64.toNat_div, UInt64.toNat_one, Nat.mod_eq_of_lt (by omega)]
    refine (Nat.div_eq_of_lt_le ?_ ?_).symm
    · rw [Nat.add_mul, Nat.mul_comm]
      omega
    · rw [Nat.add_mul, Nat.add_mul, Nat.mul_comm]
      omega

theorem toNat_min {x y : UInt64} : (min x y).toNat = min x.toNat y.toNat := by
  change (if x ≤ y then x else y).toNat = _
  simp only [UInt64.le_iff_toNat_le]
  split <;> omega

theorem toNat_max {x y : UInt64} : (max x y).toNat = max x.toNat y.toNat := by
  change (if x ≤ y then y else x).toNat = _
  simp only [UInt64.le_iff_toNat_le]
  split <;> omega

/-! ## The tree -/

/-- Leaves of `c` positions aligned on multiples of `c`, over the positions from `lo` to `hi`, under
nodes of `b` children. -/
structure BlockTree64 where
  lo : UInt64
  hi : UInt64
  c : UInt64
  b : UInt64
  lo_lt : lo < hi
  one_le : 1 ≤ c
  two_le : 2 ≤ b
  deriving DecidableEq

namespace BlockTree64

theorem lt_saturatingMul {n b span : UInt64} (hb : 2 ≤ b) (hspan : 1 ≤ span) (hlt : span < n) :
    span.toNat < (saturatingMul span b).toNat := by
  rw [toNat_saturatingMul]
  rw [UInt64.le_iff_toNat_le] at hb hspan
  rw [UInt64.lt_iff_toNat_lt] at hlt
  have hn := n.toNat_lt
  have hmul : span.toNat * 2 ≤ span.toNat * b.toNat := Nat.mul_le_mul_left _ hb
  have hone : 1 ≤ span.toNat := hspan
  omega

/-- The loop of `depth`, which multiplies its span until all `n` leaves are in it. -/
def depthLoop (n b span : UInt64) (hb : 2 ≤ b) (hspan : 1 ≤ span) : Nat :=
  if h : span < n then
    depthLoop n b (saturatingMul span b) hb
      (UInt64.le_iff_toNat_le.mpr (Nat.le_trans (UInt64.le_iff_toNat_le.mp hspan)
        (Nat.le_of_lt (lt_saturatingMul hb hspan h)))) + 1
  else 0
termination_by n.toNat - span.toNat
decreasing_by
  have hgrow := lt_saturatingMul hb hspan h
  rw [UInt64.lt_iff_toNat_lt] at h
  omega

def new (lo hi c b : UInt64) : Option BlockTree64 :=
  if h : lo < hi ∧ 1 ≤ c ∧ 2 ≤ b then some ⟨lo, hi, c, b, h.1, h.2.1, h.2.2⟩ else none

variable (t : BlockTree64)

def nLeaves : UInt64 := (t.hi - 1) / t.c - t.lo / t.c + 1

/-- Levels of partials above the leaves: zero for a single leaf. -/
def depth : Nat := depthLoop t.nLeaves t.b 1 t.two_le (UInt64.le_refl 1)

def leavesPerNode (level : Nat) : UInt64 := saturatingPow t.b (t.depth - level)

def positions (a z : UInt64) : UInt64 × UInt64 :=
  let first := t.lo / t.c
  (max t.lo ((first + a) * t.c), min t.hi ((first + z) * t.c))

/-- The loop of `leafRange` from level `level` on. -/
def leafRangeFrom (level : Nat) (a z : UInt64) : List UInt64 → Option (UInt64 × UInt64)
  | [] => some (a, z)
  | i :: path =>
    let s := t.leavesPerNode (level + 1)
    if divCeil (z - a) s ≤ i then none
    else
      let a := a + i * s
      leafRangeFrom (level + 1) a (min z (a + s)) path

def leafRange (path : List UInt64) : Option (UInt64 × UInt64) :=
  if t.depth < path.length then none else t.leafRangeFrom 0 0 t.nLeaves path

/-- Positions of the node reached from the root by `path`, one child index per level. -/
def node (path : List UInt64) : Option (UInt64 × UInt64) :=
  (t.leafRange path).map fun az => t.positions az.1 az.2

/-- Positions of each child of the node reached by `path`; `none` for a leaf. -/
def children (path : List UInt64) : Option (List (UInt64 × UInt64)) :=
  if t.depth ≤ path.length then none
  else
    (t.leafRange path).map fun az =>
      let s := t.leavesPerNode (path.length + 1)
      (stepBy az.1 az.2 s).map fun x => t.positions x (min az.2 (x + s))

/-- The same tree over the naturals. -/
def toTree : BlockTree where
  lo := t.lo.toNat
  hi := t.hi.toNat
  c := t.c.toNat
  b := t.b.toNat
  lo_lt := UInt64.lt_iff_toNat_lt.mp t.lo_lt
  one_le := UInt64.le_iff_toNat_le.mp t.one_le
  two_le := UInt64.le_iff_toNat_le.mp t.two_le

/-- The blocks that the interval meets end within 64 bits, and so do the leaves, rounded up to a
multiple of any power of `b` below their number. -/
structure Fits : Prop where
  stop : ((t.hi.toNat - 1) / t.c.toNat + 1) * t.c.toNat < 2 ^ 64
  leaves : ∀ k, t.b.toNat ^ k < t.toTree.nLeaves →
    (t.toTree.nLeaves + t.b.toNat ^ k - 1) / t.b.toNat ^ k * t.b.toNat ^ k < 2 ^ 64

variable {t}

/-! ## The words agree with the naturals -/

theorem depthLoop_eq {n b span : UInt64} {hb : 2 ≤ b} {hspan : 1 ≤ span} :
    depthLoop n b span hb hspan = BlockTree.depthLoop n.toNat b.toNat span.toNat
      (UInt64.le_iff_toNat_le.mp hb) (UInt64.le_iff_toNat_le.mp hspan) := by
  fun_induction depthLoop n b span hb hspan with
  | case1 span hspan hlt ih =>
    have hn := n.toNat_lt
    have hlt' := UInt64.lt_iff_toNat_lt.mp hlt
    rw [ih, BlockTree.depthLoop.eq_1 n.toNat b.toNat span.toNat, if_pos hlt']
    congr 1
    obtain hfits | hover := Nat.lt_or_ge (span.toNat * b.toNat) (2 ^ 64)
    · congr 1
      rw [toNat_saturatingMul, Nat.min_eq_left (Nat.le_sub_one_of_lt hfits)]
    · -- both loops are past `n`
      have hsat := toNat_saturatingMul (x := span) (y := b)
      rw [BlockTree.depthLoop, if_neg (by omega), BlockTree.depthLoop, if_neg (by omega)]
  | case2 span hspan hge =>
    rw [UInt64.lt_iff_toNat_lt] at hge
    rw [BlockTree.depthLoop, if_neg hge]

theorem toNat_nLeaves : t.nLeaves.toNat = t.toTree.nLeaves := by
  have hlt := UInt64.lt_iff_toNat_lt.mp t.lo_lt
  have hone : (1 : UInt64) ≤ t.hi := by
    rw [UInt64.le_iff_toNat_le, UInt64.toNat_one]
    omega
  have hle : t.lo.toNat / t.c.toNat ≤ (t.hi.toNat - 1) / t.c.toNat :=
    Nat.div_le_div_right (by omega)
  have hself := Nat.div_le_self (t.hi.toNat - 1) t.c.toNat
  have hhi := t.hi.toNat_lt
  have hlast : ((t.hi - 1) / t.c).toNat = (t.hi.toNat - 1) / t.c.toNat := by
    rw [UInt64.toNat_div, UInt64.toNat_sub_of_le _ _ hone, UInt64.toNat_one]
  have hsub : ((t.hi - 1) / t.c - t.lo / t.c).toNat =
      (t.hi.toNat - 1) / t.c.toNat - t.lo.toNat / t.c.toNat := by
    rw [UInt64.toNat_sub_of_le, hlast, UInt64.toNat_div]
    rwa [UInt64.le_iff_toNat_le, hlast, UInt64.toNat_div]
  have hsum : (t.hi.toNat - 1) / t.c.toNat - t.lo.toNat / t.c.toNat + 1 < 2 ^ 64 := by
    have hsub := Nat.sub_le ((t.hi.toNat - 1) / t.c.toNat) (t.lo.toNat / t.c.toNat)
    omega
  rw [nLeaves, UInt64.toNat_add, hsub, UInt64.toNat_one, Nat.mod_eq_of_lt hsum]
  rfl

theorem depth_eq : t.depth = t.toTree.depth := by
  rw [depth, depthLoop_eq, BlockTree.depth]
  congr 1
  exact toNat_nLeaves

theorem nLeaves_lt : t.toTree.nLeaves < 2 ^ 64 := by
  rw [← toNat_nLeaves]
  exact t.nLeaves.toNat_lt

theorem toNat_leavesPerNode {level : Nat} (hl : level < t.toTree.depth) :
    (t.leavesPerNode (level + 1)).toNat = t.toTree.leavesPerNode (level + 1) := by
  have hlt := t.toTree.pow_lt_nLeaves (d := t.toTree.depth - (level + 1)) (by omega)
  rw [leavesPerNode, depth_eq]
  exact toNat_saturatingPow (Nat.lt_trans hlt nLeaves_lt)

theorem toNat_leavesPerNode_pos {level : Nat} (hl : level < t.toTree.depth) :
    0 < (t.leavesPerNode (level + 1)).toNat := by
  rw [toNat_leavesPerNode hl]
  exact BlockTree.leavesPerNode_pos

/-- The children of a node, counted in words. -/
theorem toNat_divCeil_leaves {level : Nat} {a z : UInt64} (hl : level < t.toTree.depth)
    (haz : a.toNat < z.toNat) : (divCeil (z - a) (t.leavesPerNode (level + 1))).toNat =
      BlockTree.nChildren a.toNat z.toNat (t.toTree.leavesPerNode (level + 1)) := by
  rw [toNat_divCeil (toNat_leavesPerNode_pos hl), toNat_leavesPerNode hl,
    UInt64.toNat_sub_of_le _ _ (UInt64.le_iff_toNat_le.mpr (Nat.le_of_lt haz)),
    BlockTree.nChildren]

/-- The first leaf of a child is no larger word than its last one. -/
theorem toNat_child {a z s i : UInt64} (hlt : a.toNat + i.toNat * s.toNat < z.toNat) :
    (a + i * s).toNat = a.toNat + i.toNat * s.toNat := by
  have hz := z.toNat_lt
  have hmul : i.toNat * s.toNat < 2 ^ 64 := by omega
  rw [UInt64.toNat_add, UInt64.toNat_mul, Nat.mod_eq_of_lt hmul, Nat.mod_eq_of_lt (by omega)]

theorem le_roundUp {a n s : Nat} (hs : 0 < s) (hdvd : s ∣ a) (hlt : a < n) :
    a + s ≤ (n + s - 1) / s * s := by
  obtain ⟨q, rfl⟩ := hdvd
  rw [← Nat.mul_succ, Nat.mul_comm]
  apply Nat.mul_le_mul_right
  rw [Nat.le_div_iff_mul_le hs, Nat.succ_mul, Nat.mul_comm q]
  omega

theorem roundUp_le {m n s : Nat} (hs : 0 < s) (hdvd : s ∣ m) (hle : n ≤ m) :
    (n + s - 1) / s * s ≤ m := by
  obtain ⟨q, rfl⟩ := hdvd
  rw [Nat.mul_comm s q] at hle ⊢
  apply Nat.mul_le_mul_right
  apply Nat.le_of_lt_succ
  rw [Nat.div_lt_iff_lt_mul hs, Nat.succ_mul]
  omega

/-- In a tree that fits, the leaf after a node fits too. -/
theorem Fits.node_lt {level a z : Nat} (h : t.Fits) (hnode : t.toTree.IsNode (level + 1) a z) :
    a + t.toTree.leavesPerNode (level + 1) < 2 ^ 64 := by
  have hl := hnode.level_le
  have hpow := t.toTree.pow_lt_nLeaves (d := t.toTree.depth - (level + 1)) (by omega)
  exact Nat.lt_of_le_of_lt (le_roundUp BlockTree.leavesPerNode_pos hnode.dvd hnode.lt) (h.leaves _ hpow)

/-- A pair of words as naturals. -/
def toNats (p : UInt64 × UInt64) : Nat × Nat := (p.1.toNat, p.2.toNat)

theorem toNats_inj {p q : UInt64 × UInt64} (h : toNats p = toNats q) : p = q := by
  rw [toNats, toNats, Prod.ext_iff] at h
  exact Prod.ext (UInt64.toNat_inj.mp h.1) (UInt64.toNat_inj.mp h.2)

/-- The child of a node, in words. -/
theorem Fits.child {level : Nat} {a z i : UInt64} (h : t.Fits)
    (hnode : t.toTree.IsNode level a.toNat z.toNat) (hl : level < t.toTree.depth)
    (hi : i.toNat < BlockTree.nChildren a.toNat z.toNat (t.toTree.leavesPerNode (level + 1))) :
    (a + i * t.leavesPerNode (level + 1)).toNat =
        a.toNat + i.toNat * t.toTree.leavesPerNode (level + 1) ∧
      (min z (a + i * t.leavesPerNode (level + 1) + t.leavesPerNode (level + 1))).toNat =
        min z.toNat (a.toNat + i.toNat * t.toTree.leavesPerNode (level + 1) +
          t.toTree.leavesPerNode (level + 1)) := by
  have hstop := h.node_lt (hnode.child hl hi)
  have hlt := (BlockTree.lt_nChildren_iff BlockTree.leavesPerNode_pos).mp hi
  rw [← toNat_leavesPerNode hl] at hlt
  have hstart := toNat_child hlt
  rw [toNat_leavesPerNode hl] at hstart
  have hend := UInt64.toNat_add (a + i * t.leavesPerNode (level + 1)) (t.leavesPerNode (level + 1))
  rw [hstart, toNat_leavesPerNode hl, Nat.mod_eq_of_lt hstop] at hend
  exact ⟨hstart, by rw [toNat_min, hend]⟩

theorem Fits.leafRangeFrom {level : Nat} {a z : UInt64} {path : List UInt64} (h : t.Fits)
    (hnode : t.toTree.IsNode level a.toNat z.toNat) (hlen : level + path.length ≤ t.toTree.depth) :
    (t.leafRangeFrom level a z path).map toNats =
      t.toTree.leafRangeFrom level a.toNat z.toNat path := by
  induction path generalizing level a z with
  | nil => rfl
  | cons i path ih =>
    rw [List.length_cons] at hlen
    have hl : level < t.toTree.depth := by omega
    have hcount := toNat_divCeil_leaves hl hnode.start_lt
    rw [BlockTree64.leafRangeFrom, BlockTree.leafRangeFrom_cons]
    simp only [UInt64.le_iff_toNat_le, hcount]
    split
    · rename_i hge
      rw [if_neg (by omega), Option.map_none]
    · rename_i hlt
      rw [Nat.not_le] at hlt
      obtain ⟨hstart, hstop⟩ := h.child hnode hl hlt
      have hnode' := hnode.child hl hlt
      rw [if_pos hlt, ← hstop, ← hstart]
      rw [← hstop, ← hstart] at hnode'
      exact ih hnode' (by omega)

theorem Fits.leafRange {path : List UInt64} (h : t.Fits) :
    (t.leafRange path).map toNats = t.toTree.leafRange path := by
  rw [BlockTree64.leafRange, BlockTree.leafRange, depth_eq]
  split
  · rfl
  · have hroot := t.toTree.isNode_root
    rw [← toNat_nLeaves] at hroot ⊢
    exact h.leafRangeFrom hroot (by omega)

theorem toNat_first : (t.lo / t.c).toNat = t.toTree.lo / t.toTree.c := UInt64.toNat_div ..

/-- In a tree that fits, where the leaf `m` starts. -/
theorem Fits.toNat_cut {m : UInt64} (h : t.Fits) (hm : m.toNat ≤ t.toTree.nLeaves) :
    ((t.lo / t.c + m) * t.c).toNat = (t.toTree.lo / t.toTree.c + m.toNat) * t.toTree.c := by
  have hlast := t.toTree.last_block
  have hpos := t.toTree.nLeaves_pos
  have hle : t.toTree.lo / t.toTree.c + m.toNat ≤ (t.hi.toNat - 1) / t.c.toNat + 1 := by
    change _ ≤ (t.toTree.hi - 1) / t.toTree.c + 1
    omega
  have hmul := Nat.mul_le_mul_right t.c.toNat hle
  have hstop := h.stop
  have hone := UInt64.le_iff_toNat_le.mp t.one_le
  have hsum := Nat.le_mul_of_pos_right (t.toTree.lo / t.toTree.c + m.toNat) hone
  rw [UInt64.toNat_mul, UInt64.toNat_add, toNat_first, Nat.mod_eq_of_lt (a := _ + _) (by omega)]
  exact Nat.mod_eq_of_lt (Nat.lt_of_le_of_lt hmul hstop)

theorem Fits.positions {a z : UInt64} (h : t.Fits) (ha : a.toNat ≤ t.toTree.nLeaves)
    (hz : z.toNat ≤ t.toTree.nLeaves) :
    toNats (t.positions a z) = t.toTree.positions a.toNat z.toNat := by
  rw [toNats, BlockTree64.positions, BlockTree.positions]
  simp only [toNat_max, toNat_min, h.toNat_cut ha, h.toNat_cut hz]
  rfl

theorem Fits.node {path : List UInt64} (h : t.Fits) :
    (t.node path).map toNats = t.toTree.node path := by
  have hrange : (t.leafRange path).map toNats = t.toTree.leafRange path := h.leafRange
  rw [BlockTree64.node, BlockTree.node, ← hrange, Option.map_map, Option.map_map]
  cases hp : t.leafRange path with
  | none => rfl
  | some az =>
    rw [hp, Option.map_some] at hrange
    have hnode := BlockTree.isNode_leafRange hrange.symm
    have hlt := hnode.lt
    rw [Option.map_some, Option.map_some, Function.comp_apply, Function.comp_apply,
      h.positions (Nat.le_of_lt hlt) hnode.stop_le]
    rfl

theorem Fits.children {path : List UInt64} (h : t.Fits) (hlen : path.length < t.toTree.depth) :
    (t.children path).map (List.map toNats) = t.toTree.children path := by
  have hrange : (t.leafRange path).map toNats = t.toTree.leafRange path := h.leafRange
  rw [BlockTree64.children, depth_eq, if_neg (by omega), BlockTree.children_eq hlen, ← hrange,
    Option.map_map, Option.map_map]
  cases hp : t.leafRange path with
  | none => rfl
  | some az =>
    rw [hp, Option.map_some] at hrange
    have hnode : t.toTree.IsNode path.length az.1.toNat az.2.toNat :=
      BlockTree.isNode_leafRange hrange.symm
    rw [Option.map_some, Option.map_some, Function.comp_apply, Function.comp_apply,
      BlockTree.childPositions]
    simp only [stepBy, List.map_map, toNat_leavesPerNode hlen]
    congr 1
    apply List.map_congr_left
    intro i hi
    rw [List.mem_range] at hi
    have hi64 : (UInt64.ofNat i).toNat = i := by
      apply UInt64.toNat_ofNat_of_lt'
      have hle := hnode.nChildren_le hlen
      have hb : t.toTree.b < 2 ^ 64 := t.b.toNat_lt
      exact Nat.lt_trans (Nat.lt_of_lt_of_le hi hle) hb
    rw [← hi64] at hi
    obtain ⟨hstart, hstop⟩ := h.child hnode hlen hi
    have hnode' := hnode.child hlen hi
    rw [← hstop, ← hstart] at hnode'
    rw [Function.comp_apply, Function.comp_apply,
      h.positions (Nat.le_of_lt hnode'.lt) hnode'.stop_le, hstart, hstop, hi64]
    rfl

/-! ## Where the words do not fit -/

theorem leafRangeFrom_le {level : Nat} {a z : UInt64} {path : List UInt64} {az : UInt64 × UInt64}
    (hp : t.leafRangeFrom level a z path = some az) : az.2.toNat ≤ z.toNat := by
  induction path generalizing level a z with
  | nil =>
    obtain rfl := Option.some.inj hp
    exact Nat.le_refl _
  | cons i path ih =>
    simp only [BlockTree64.leafRangeFrom] at hp
    split at hp
    · cases hp
    · have hle := ih hp
      rw [toNat_min] at hle
      omega

/-- A path to the last leaf takes the last child of each node, so the leaf after it fits. -/
theorem leaves_of_last {level : Nat} {a z : UInt64} {path : List UInt64} {az : UInt64 × UInt64}
    (hnode : t.toTree.IsNode level a.toNat z.toNat) (hlen : level + path.length = t.toTree.depth)
    (hz : z.toNat = t.toTree.nLeaves) (hp : t.leafRangeFrom level a z path = some az)
    (haz : az.2.toNat = t.toTree.nLeaves) {k : Nat} (hk : k < t.toTree.depth - level) :
    (t.toTree.nLeaves + t.b.toNat ^ k - 1) / t.b.toNat ^ k * t.b.toNat ^ k < 2 ^ 64 := by
  induction path generalizing level a z with
  | nil =>
    rw [List.length_nil] at hlen
    omega
  | cons i path ih =>
    rw [List.length_cons] at hlen
    have hl : level < t.toTree.depth := by omega
    have hcount := toNat_divCeil_leaves hl hnode.start_lt
    have hspos : 0 < t.toTree.leavesPerNode (level + 1) := BlockTree.leavesPerNode_pos
    simp only [BlockTree64.leafRangeFrom] at hp
    split at hp
    · cases hp
    · rename_i hi
      rw [UInt64.le_iff_toNat_le, hcount, Nat.not_le] at hi
      have hlt := (BlockTree.lt_nChildren_iff hspos).mp hi
      have hs := toNat_leavesPerNode hl
      have hchild := hnode.child hl hi
      rw [← hs] at hlt
      have hstart := toNat_child hlt
      rw [hs] at hlt hstart
      -- the end of the child is at the last leaf, so the sum has not wrapped around
      have hle := leafRangeFrom_le hp
      have hsum := UInt64.toNat_add (a + i * t.leavesPerNode (level + 1))
        (t.leavesPerNode (level + 1))
      have hs64 := (t.leavesPerNode (level + 1)).toNat_lt
      have hz64 := z.toNat_lt
      rw [toNat_min, hsum, hstart, hs] at hle
      rw [hs] at hs64
      have hfits : a.toNat + i.toNat * t.toTree.leavesPerNode (level + 1) +
          t.toTree.leavesPerNode (level + 1) < 2 ^ 64 := by
        by_contra hover
        rw [Nat.mod_eq_sub_mod (Nat.le_of_not_lt hover), Nat.mod_eq_of_lt (by omega)] at hle
        omega
      rw [Nat.mod_eq_of_lt hfits] at hle
      have hstop : (min z (a + i * t.leavesPerNode (level + 1) +
          t.leavesPerNode (level + 1))).toNat = min z.toNat (a.toNat +
            i.toNat * t.toTree.leavesPerNode (level + 1) + t.toTree.leavesPerNode (level + 1)) := by
        rw [toNat_min, hsum, hstart, hs, Nat.mod_eq_of_lt hfits]
      obtain hlast | hlow : k = t.toTree.depth - (level + 1) ∨ k < t.toTree.depth - (level + 1) := by
        omega
      · subst hlast
        have hround := roundUp_le hspos (Nat.dvd_add hchild.dvd (Nat.dvd_refl _))
          (n := t.toTree.nLeaves) (by omega)
        exact Nat.lt_of_le_of_lt hround hfits
      · rw [← hstop, ← hstart] at hchild
        exact ih hchild (by omega) (by omega) hp hlow

/-- Where the last position is in a leaf, the tree fits. -/
theorem fits_of_last {path : List UInt64} {leaf : UInt64 × UInt64}
    (hlen : path.length = t.depth) (hp : t.node path = some leaf)
    (hlast : t.hi.toNat - 1 < leaf.2.toNat) : t.Fits := by
  rw [BlockTree64.node, Option.map_eq_some_iff] at hp
  obtain ⟨az, haz, rfl⟩ := hp
  rw [BlockTree64.leafRange, if_neg (by omega)] at haz
  have hlo := UInt64.lt_iff_toNat_lt.mp t.lo_lt
  have hone := UInt64.le_iff_toNat_le.mp t.one_le
  have hle := leafRangeFrom_le haz
  rw [toNat_nLeaves] at hle
  have hblock : (t.hi.toNat - 1) / t.c.toNat = t.toTree.lo / t.toTree.c +
      (t.toTree.nLeaves - 1) := t.toTree.last_block
  have hpos := t.toTree.nLeaves_pos
  have hself := Nat.div_mul_le_self (t.hi.toNat - 1) t.c.toNat
  have hdiv := Nat.div_le_self (t.hi.toNat - 1) t.c.toNat
  have hhi := t.hi.toNat_lt
  have hc := t.c.toNat_lt
  simp only [BlockTree64.positions, toNat_min, UInt64.toNat_mul, UInt64.toNat_add,
    toNat_first] at hlast
  rw [Nat.mod_eq_of_lt (a := _ + az.2.toNat) (by omega)] at hlast
  obtain hz | hz : az.2.toNat < t.toTree.nLeaves ∨ az.2.toNat = t.toTree.nLeaves := by omega
  · -- an earlier leaf stops at or before the start of the last block
    have hmul : (t.toTree.lo / t.toTree.c + az.2.toNat) * t.c.toNat ≤
        (t.hi.toNat - 1) / t.c.toNat * t.c.toNat := Nat.mul_le_mul_right _ (by omega)
    rw [Nat.mod_eq_of_lt (by omega)] at hlast
    omega
  · have hmul : (t.toTree.lo / t.toTree.c + az.2.toNat) * t.c.toNat =
        (t.hi.toNat - 1) / t.c.toNat * t.c.toNat + t.c.toNat := by
      rw [← Nat.succ_mul]
      congr 1
      omega
    have hstop : (t.hi.toNat - 1) / t.c.toNat * t.c.toNat + t.c.toNat < 2 ^ 64 := by
      by_contra hover
      rw [hmul, Nat.mod_eq_sub_mod (Nat.le_of_not_lt hover), Nat.mod_eq_of_lt (by omega)] at hlast
      omega
    have hroot := t.toTree.isNode_root
    rw [← toNat_nLeaves] at hroot
    rw [depth_eq] at hlen
    refine ⟨by rwa [Nat.succ_mul], ?_⟩
    intro k hk
    refine leaves_of_last hroot (by omega) toNat_nLeaves haz hz ?_
    by_contra hge
    have hpow : t.toTree.b ^ t.toTree.depth ≤ t.toTree.b ^ k :=
      Nat.pow_le_pow_right (Nat.lt_of_lt_of_le Nat.zero_lt_two t.toTree.two_le) (by omega)
    have htop := t.toTree.nLeaves_le_pow
    change t.toTree.b ^ k < _ at hk
    omega

/-! ## The partition -/

/-- The nodes partition the positions. -/
structure Partitions (t : BlockTree64) : Prop where
  root : t.node [] = some (t.lo, t.hi)
  /-- An inner node has one to `b` children, which tile it, and the path one longer leads to the
  child of that index or nowhere. -/
  inner : ∀ path node, path.length < t.depth → t.node path = some node →
    ∃ cs, t.children path = some cs ∧ 1 ≤ cs.length ∧ cs.length ≤ t.b.toNat ∧
      Tiled node.1 node.2 cs ∧ ∀ i, t.node (path ++ [i]) = cs[i.toNat]?
  outer : ∀ path, t.depth ≤ path.length → t.children path = none
  /-- Every position lies in one leaf. -/
  leaf : ∀ p, t.lo ≤ p → p < t.hi → ∃! path : List UInt64, path.length = t.depth ∧
    ∃ leaf, t.node path = some leaf ∧ leaf.1 ≤ p ∧ p < leaf.2
  /-- A leaf lies within one block. -/
  aligned : ∀ path leaf, path.length = t.depth → t.node path = some leaf →
    t.lo ≤ leaf.1 ∧ leaf.1 < leaf.2 ∧ leaf.2 ≤ t.hi ∧ leaf.1 / t.c = (leaf.2 - 1) / t.c
  /-- No tree of fewer levels has enough leaves to cover the positions with a block each. -/
  least : ∀ d (block : Fin (t.b.toNat ^ d) → UInt64),
    (∀ p, t.lo ≤ p → p < t.hi → ∃ i, p / t.c = block i) → t.depth ≤ d

theorem tiled_toNats {lo hi : UInt64} {cs : List (UInt64 × UInt64)}
    (h : Tiled lo.toNat hi.toNat (cs.map toNats)) : Tiled lo hi cs := by
  induction cs generalizing lo with
  | nil => exact UInt64.toNat_inj.mp h
  | cons c cs ih =>
    obtain ⟨hlo, hlt, hrest⟩ := h
    exact ⟨UInt64.toNat_inj.mp hlo, UInt64.lt_iff_toNat_lt.mpr hlt, ih hrest⟩

theorem Fits.root (h : t.Fits) : t.node [] = some (t.lo, t.hi) := by
  have hnode : (t.node []).map toNats = t.toTree.node [] := h.node
  rw [BlockTree.node, BlockTree.leafRange, List.length_nil, if_neg (Nat.not_lt_zero _),
    BlockTree.leafRangeFrom, Option.map_some, BlockTree.positions_root,
    Option.map_eq_some_iff] at hnode
  obtain ⟨node, hnode, heq⟩ := hnode
  rw [hnode, toNats_inj (p := node) (q := (t.lo, t.hi)) heq]

theorem Fits.inner (h : t.Fits) {path : List UInt64} {node : UInt64 × UInt64}
    (hlen : path.length < t.depth) (hp : t.node path = some node) :
    ∃ cs, t.children path = some cs ∧ 1 ≤ cs.length ∧ cs.length ≤ t.b.toNat ∧
      Tiled node.1 node.2 cs ∧ ∀ i, t.node (path ++ [i]) = cs[i.toNat]? := by
  rw [depth_eq] at hlen
  have hnode : (t.node path).map toNats = t.toTree.node path := h.node
  have hchildren := h.children hlen
  rw [hp, Option.map_some, BlockTree.node, eq_comm, Option.map_eq_some_iff] at hnode
  obtain ⟨az, haz, heq⟩ := hnode
  have hlength := BlockTree.length_childPositions hlen haz
  have hbelow := BlockTree.isNode_leafRange haz
  have hpos : 0 < t.toTree.leavesPerNode (path.length + 1) := BlockTree.leavesPerNode_pos
  have htiled := BlockTree.tiled_childPositions hpos hbelow.start_lt hbelow.stop_le
  rw [BlockTree.children_eq hlen, haz, Option.map_some, Option.map_eq_some_iff] at hchildren
  obtain ⟨cs, hcs, hmap⟩ := hchildren
  rw [← hmap, List.length_map] at hlength
  rw [← hmap, heq] at htiled
  refine ⟨cs, hcs, hlength.1, hlength.2, tiled_toNats htiled, ?_⟩
  intro i
  have hconcat := BlockTree.node_concat (i := i) hlen
  rw [BlockTree.children_eq hlen, haz, Option.map_some, ← hmap, Option.bind_some, List.getElem?_map,
    ← h.node] at hconcat
  exact Option.map_injective (fun p q => toNats_inj) hconcat

theorem Fits.leaf (h : t.Fits) {p : UInt64} (hlo : t.lo ≤ p) (hhi : p < t.hi) :
    ∃! path : List UInt64, path.length = t.depth ∧
      ∃ leaf, t.node path = some leaf ∧ leaf.1 ≤ p ∧ p < leaf.2 := by
  obtain ⟨path, ⟨hlen, leaf, hp, hmem⟩, hunique⟩ := BlockTree.exists_leaf (t := t.toTree)
    (Nat.le_of_lt t.b.toNat_lt) (UInt64.le_iff_toNat_le.mp hlo) (UInt64.lt_iff_toNat_lt.mp hhi)
  rw [← h.node, Option.map_eq_some_iff] at hp
  obtain ⟨leaf, hp, rfl⟩ := hp
  refine ⟨path, ⟨by rw [depth_eq, hlen], leaf, hp, ?_⟩, ?_⟩
  · exact ⟨UInt64.le_iff_toNat_le.mpr hmem.1, UInt64.lt_iff_toNat_lt.mpr hmem.2⟩
  · rintro path' ⟨hlen', leaf', hp', hstart, hstop⟩
    apply hunique
    refine ⟨by rw [hlen', depth_eq], toNats leaf', ?_, ?_⟩
    · rw [← h.node, hp', Option.map_some]
    · exact ⟨UInt64.le_iff_toNat_le.mp hstart, UInt64.lt_iff_toNat_lt.mp hstop⟩

theorem Fits.aligned (h : t.Fits) {path : List UInt64} {leaf : UInt64 × UInt64}
    (hlen : path.length = t.depth) (hp : t.node path = some leaf) :
    t.lo ≤ leaf.1 ∧ leaf.1 < leaf.2 ∧ leaf.2 ≤ t.hi ∧ leaf.1 / t.c = (leaf.2 - 1) / t.c := by
  rw [depth_eq] at hlen
  have hnode : (t.node path).map toNats = t.toTree.node path := h.node
  rw [hp, Option.map_some] at hnode
  obtain ⟨hlo, hlt, hhi, hblock⟩ := BlockTree.leaf_aligned hlen hnode.symm
  have hlt' : leaf.1.toNat < leaf.2.toNat := hlt
  have hone : (1 : UInt64) ≤ leaf.2 := by
    rw [UInt64.le_iff_toNat_le, UInt64.toNat_one]
    omega
  refine ⟨UInt64.le_iff_toNat_le.mpr hlo, UInt64.lt_iff_toNat_lt.mpr hlt,
    UInt64.le_iff_toNat_le.mpr hhi, ?_⟩
  rw [← UInt64.toNat_inj, UInt64.toNat_div, UInt64.toNat_div, UInt64.toNat_sub_of_le _ _ hone]
  exact hblock

theorem least {d : Nat} (block : Fin (t.b.toNat ^ d) → UInt64)
    (hcover : ∀ p, t.lo ≤ p → p < t.hi → ∃ i, p / t.c = block i) : t.depth ≤ d := by
  rw [depth_eq]
  refine t.toTree.depth_le (fun i => (block i).toNat) ?_
  intro p hlo hhi
  have hp : (UInt64.ofNat p).toNat = p :=
    UInt64.toNat_ofNat_of_lt' (Nat.lt_trans hhi t.hi.toNat_lt)
  obtain ⟨i, hi⟩ := hcover (.ofNat p) (by rwa [UInt64.le_iff_toNat_le, hp])
    (by rwa [UInt64.lt_iff_toNat_lt, hp])
  refine ⟨i, ?_⟩
  rw [← hi, UInt64.toNat_div, hp]
  rfl

/-- The tree partitions the positions exactly when it fits its words. -/
theorem partitions_iff (t : BlockTree64) : t.Partitions ↔ t.Fits := by
  constructor
  · intro h
    have hlt := UInt64.lt_iff_toNat_lt.mp t.lo_lt
    have hone : (1 : UInt64) ≤ t.hi := by
      rw [UInt64.le_iff_toNat_le, UInt64.toNat_one]
      omega
    have hlast : (t.hi - 1).toNat = t.hi.toNat - 1 := UInt64.toNat_sub_of_le _ _ hone
    obtain ⟨path, ⟨hlen, leaf, hp, -, hstop⟩, -⟩ := h.leaf (t.hi - 1)
      (by rw [UInt64.le_iff_toNat_le]; omega) (by rw [UInt64.lt_iff_toNat_lt]; omega)
    rw [UInt64.lt_iff_toNat_lt, hlast] at hstop
    exact fits_of_last hlen hp hstop
  · intro h
    exact {
      root := h.root
      inner := fun path node hlen hp => h.inner hlen hp
      outer := fun path hlen => by rw [BlockTree64.children, if_pos hlen]
      leaf := fun p hlo hhi => h.leaf hlo hhi
      aligned := fun path leaf hlen hp => h.aligned hlen hp
      least := fun d block hcover => least block hcover }

/-- The blocks of two positions up to the last word but one: the last of them ends one past the last
word. -/
theorem partitions_fails :
    ¬(⟨0, 0xffffffffffffffff, 2, 2, by decide, by decide, by decide⟩ : BlockTree64).Partitions := by
  intro h
  obtain ⟨path, ⟨hlen, leaf, hp, -, hstop⟩, -⟩ := h.leaf 0xfffffffffffffffe (by decide) (by decide)
  have hfits := fits_of_last hlen hp (UInt64.lt_iff_toNat_lt.mp hstop)
  exact absurd hfits.stop (by decide)

end BlockTree64

end KeryxMiner.Inference
