import Mathlib.Algebra.Group.Nat.Defs
import Mathlib.Data.List.Basic

/-!
# Blocks of positions

An attention opening goes down a tree over the attended positions, one level for each phase, until
the rows of a leaf fit into one opening.
-/

namespace KeryxMiner.Inference

/-! ## Sizes -/

/-- Bytes one phase of an attention opening may spend on cache rows or on partials. -/
def blockBudget : UInt64 := 96 * 1024

/-- The loop of `fit` from `n` on; `none` where it goes on after 65 rounds, in which `n` has become
zero and stays so. -/
def fitLoop (unit : UInt64) : (rounds : Nat) → (n : UInt64) → Option UInt64
  | 0, _ => none
  | rounds + 1, n =>
    if 2 * n * unit ≤ blockBudget then fitLoop unit rounds (2 * n) else some n

/-- The largest power of two of units that fits the budget; `none` where the loop does not end. -/
def fit (unit : UInt64) : Option (Option UInt64) :=
  (fitLoop unit 65 1).map fun n => if 0 < unit ∧ n * unit ≤ blockBudget then some n else none

/-- Positions per leaf and children per node for cache rows of `rowBytes` per position and partials
of `partialBytes`. -/
def blockParams (rowBytes partialBytes : UInt64) : Option (Option (UInt64 × UInt64)) := do
  match ← fit rowBytes with
  | none => some none
  | some c =>
    match ← fit partialBytes with
    | none => some none
    | some b => some (if 2 ≤ b then some (c, b) else none)

/-- Encoded length of a partial of `d` values. -/
def partialLen (d : Nat) : Nat := 2 * d + 8

/-! ## The tree -/

/-- Leaves of `c` positions aligned on multiples of `c`, over the positions from `lo` to `hi`, under
nodes of `b` children. -/
structure BlockTree where
  lo : Nat
  hi : Nat
  c : Nat
  b : Nat
  lo_lt : lo < hi
  one_le : 1 ≤ c
  two_le : 2 ≤ b
  deriving DecidableEq

namespace BlockTree

def new (lo hi c b : Nat) : Option BlockTree :=
  if h : lo < hi ∧ 1 ≤ c ∧ 2 ≤ b then some ⟨lo, hi, c, b, h.1, h.2.1, h.2.2⟩ else none

variable (t : BlockTree)

def nLeaves : Nat := (t.hi - 1) / t.c - t.lo / t.c + 1

/-- The loop of `depth`, which multiplies its span until all `n` leaves are in it. The product of
the source saturates, where the loop is past `n` too. -/
def depthLoop (n b span : Nat) (hb : 2 ≤ b) (hspan : 1 ≤ span) : Nat :=
  if span < n then depthLoop n b (span * b) hb (Nat.mul_le_mul hspan (Nat.le_of_lt hb)) + 1 else 0
termination_by n - span
decreasing_by
  have hle := Nat.mul_le_mul_left span hb
  omega

/-- Levels of partials above the leaves: zero for a single leaf. -/
def depth : Nat := depthLoop t.nLeaves t.b 1 t.two_le (Nat.le_refl 1)

def leavesPerNode (level : Nat) : Nat := t.b ^ (t.depth - level)

def positions (a z : Nat) : Nat × Nat :=
  let first := t.lo / t.c
  (max t.lo ((first + a) * t.c), min t.hi ((first + z) * t.c))

/-- The loop of `leafRange` from level `level` on. -/
def leafRangeFrom (level a z : Nat) : List UInt64 → Option (Nat × Nat)
  | [] => some (a, z)
  | i :: path =>
    let s := t.leavesPerNode (level + 1)
    if (z - a + s - 1) / s ≤ i.toNat then none
    else
      let a := a + i.toNat * s
      leafRangeFrom (level + 1) a (min z (a + s)) path

def leafRange (path : List UInt64) : Option (Nat × Nat) :=
  if t.depth < path.length then none else t.leafRangeFrom 0 0 t.nLeaves path

/-- Positions of the node reached from the root by `path`, one child index per level. -/
def node (path : List UInt64) : Option (Nat × Nat) :=
  (t.leafRange path).map fun az => t.positions az.1 az.2

/-- Positions of each child of the node reached by `path`; `none` for a leaf. -/
def children (path : List UInt64) : Option (List (Nat × Nat)) :=
  if t.depth ≤ path.length then none
  else
    (t.leafRange path).map fun az =>
      let s := t.leavesPerNode (path.length + 1)
      (List.range ((az.2 - az.1 + s - 1) / s)).map fun i =>
        t.positions (az.1 + i * s) (min az.2 (az.1 + i * s + s))

end BlockTree

end KeryxMiner.Inference
