import KeryxMiner.MerkleTree

/-!
# Merkle trees bind their leaves

What a root says about leaves and paths which somebody else chose, when the inputs of the hash that
occur do not collide. `climb_inj` is about a path of the right length; `climb_mem` holds for every
length, and finds the start of the path among the nodes of the tree, at the height which the length
of the path gives.
-/

namespace KeryxMiner.Merkle

variable {α β γ : Type} {pair : α → α → α} {l m p : List α} {x y : α} {i j k n : Nat}

/-- No two of the inputs have one value. -/
def CollisionFree (f : β → γ) (inputs : List β) : Prop :=
  ∀ a ∈ inputs, ∀ b ∈ inputs, f a = f b → a = b

theorem CollisionFree.mono {f : β → γ} {bs cs : List β} (h : CollisionFree f cs)
    (hsub : ∀ b ∈ bs, b ∈ cs) : CollisionFree f bs :=
  fun a ha b hb => h a (hsub a ha) b (hsub b hb)

theorem CollisionFree.map_inj {f : β → γ} {bs cs ins : List β} (h : CollisionFree f ins)
    (hb : ∀ b ∈ bs, b ∈ ins) (hc : ∀ c ∈ cs, c ∈ ins) (heq : bs.map f = cs.map f) : bs = cs := by
  induction bs generalizing cs with
  | nil =>
    cases cs with
    | nil => rfl
    | cons c cs => cases heq
  | cons b bs ih =>
    cases cs with
    | nil => cases heq
    | cons c cs =>
      simp only [List.map_cons, List.cons.injEq] at heq
      simp only [List.forall_mem_cons] at hb hc
      rw [h b hb.1 c hc.1 heq.1, ih hb.2 hc.2 heq.2]

/-! ## Inputs -/

/-- The inputs of `pair` between a level and the next. -/
def inputs : List α → List (α × α)
  | [] => []
  | [x] => [(x, x)]
  | x :: y :: l => (x, y) :: inputs l

/-- The inputs of `pair` in the first `k` levels of a tree. -/
def treeInputs (pair : α → α → α) (l : List α) : Nat → List (α × α)
  | 0 => []
  | k + 1 => inputs l ++ treeInputs pair (nextLevel pair l) k

/-- The input of `pair` in one step up. -/
def upInput (x : α) (i : Nat) (s : α) : α × α := if i % 2 = 0 then (x, s) else (s, x)

/-- The inputs of `pair` on the way up. -/
def climbInputs (pair : α → α → α) (x : α) (i : Nat) : List α → List (α × α)
  | [] => []
  | s :: p => upInput x i s :: climbInputs pair (up pair x i s) (i / 2) p

theorem up_eq {s : α} : up pair x i s = pair (upInput x i s).1 (upInput x i s).2 := by
  rw [up, upInput]
  split <;> rfl

theorem getElem?_inputs : (inputs l)[i]? = l[2 * i]?.map fun x => (x, l[2 * i + 1]?.getD x) := by
  induction l using inputs.induct generalizing i with
  | case1 => simp [inputs]
  | case2 x =>
    cases i with
    | zero => rfl
    | succ i => simp [inputs]
  | case3 x y l ih =>
    cases i with
    | zero => rfl
    | succ i =>
      rw [inputs, List.getElem?_cons_succ, ih]
      rfl

theorem nextLevel_eq_map : nextLevel pair l = (inputs l).map fun a => pair a.1 a.2 := by
  induction l using inputs.induct with
  | case1 => rfl
  | case2 x => rfl
  | case3 x y l ih => rw [nextLevel, ih, inputs, List.map_cons]

theorem mem_of_mem_inputs {a : α × α} (h : a ∈ inputs l) : a.1 ∈ l ∧ a.2 ∈ l := by
  induction l using inputs.induct with
  | case1 => cases h
  | case2 x =>
    rw [List.mem_singleton.mp h]
    simp
  | case3 x y l ih =>
    rcases List.mem_cons.mp h with rfl | h
    · simp
    · simp [ih h]

theorem treeInputs_add : treeInputs pair l (j + k) =
    treeInputs pair l j ++ treeInputs pair (level pair l j) k := by
  induction j generalizing l with
  | zero => simp [treeInputs]
  | succ j ih => rw [Nat.succ_add, treeInputs, ih, treeInputs, level_succ, List.append_assoc]

/-! ## Paths of the tree's height -/

/-- One step: a parent that the tree has comes from the child that the tree has there. -/
theorem up_inj {s : α} {ins : List (α × α)} (hfree : CollisionFree (fun a => pair a.1 a.2) ins)
    (htree : ∀ a ∈ inputs l, a ∈ ins) (hup : upInput x i s ∈ ins) (hi : i < l.length)
    (h : (nextLevel pair l)[i / 2]? = some (up pair x i s)) : l[i]? = some x := by
  rw [nextLevel_eq_map, List.getElem?_map, Option.map_eq_some_iff] at h
  obtain ⟨a, ha, heq⟩ := h
  have hsame : a = upInput x i s :=
    hfree a (htree a (List.mem_of_getElem? ha)) _ hup (heq.trans up_eq)
  rw [getElem?_inputs, Option.map_eq_some_iff] at ha
  obtain ⟨y, hy, rfl⟩ := ha
  rw [upInput] at hsame
  split at hsame
  · next heven =>
    have hi2 : 2 * (i / 2) = i := by omega
    rw [hi2] at hy hsame
    rw [hy, (Prod.mk.inj hsame).1]
  · next hodd =>
    have hi2 : 2 * (i / 2) + 1 = i := by omega
    rw [hi2, List.getElem?_eq_getElem hi] at hsame
    rw [List.getElem?_eq_getElem hi, ← (Prod.mk.inj hsame).2]
    rfl

/-- A path which leads to the node above leaf `i` starts at that leaf. -/
theorem climb_inj {ins : List (α × α)} (hfree : CollisionFree (fun a => pair a.1 a.2) ins)
    (htree : ∀ a ∈ treeInputs pair l p.length, a ∈ ins)
    (hclimb : ∀ a ∈ climbInputs pair x i p, a ∈ ins) (hi : i < l.length)
    (h : (level pair l p.length)[i / 2 ^ p.length]? = some (climb pair x i p)) : l[i]? = some x := by
  induction p generalizing l x i with
  | nil => simpa [climb] using h
  | cons s p ih =>
    have hnext : (nextLevel pair l)[i / 2]? = some (up pair x i s) := by
      apply ih
      · intro a ha
        exact htree a (List.mem_append_right _ ha)
      · intro a ha
        exact hclimb a (List.mem_cons_of_mem _ ha)
      · rw [length_nextLevel]
        omega
      · rw [Nat.div_div_eq_div_mul, ← Nat.pow_succ']
        exact h
    apply up_inj hfree _ (hclimb _ List.mem_cons_self) hi hnext
    intro a ha
    exact htree a (List.mem_append_left _ ha)

/-! ## Paths of any length -/

theorem up_mem {s : α} {ins : List (α × α)} (hfree : CollisionFree (fun a => pair a.1 a.2) ins)
    (htree : ∀ a ∈ inputs l, a ∈ ins) (hup : upInput x i s ∈ ins)
    (h : up pair x i s ∈ nextLevel pair l) : x ∈ l := by
  rw [nextLevel_eq_map, List.mem_map] at h
  obtain ⟨a, ha, heq⟩ := h
  have hsame : a = upInput x i s := hfree a (htree a ha) _ hup (heq.trans up_eq)
  have hmem := mem_of_mem_inputs ha
  rw [hsame, upInput] at hmem
  split at hmem
  · exact hmem.1
  · exact hmem.2

/-- A path which leads to a node of the tree starts at a node of the tree. -/
theorem climb_mem {ins : List (α × α)} (hfree : CollisionFree (fun a => pair a.1 a.2) ins)
    (htree : ∀ a ∈ treeInputs pair l p.length, a ∈ ins)
    (hclimb : ∀ a ∈ climbInputs pair x i p, a ∈ ins)
    (h : climb pair x i p ∈ level pair l p.length) : x ∈ l := by
  induction p generalizing l x i with
  | nil => exact h
  | cons s p ih =>
    have hnext : up pair x i s ∈ nextLevel pair l := by
      apply ih
      · intro a ha
        exact htree a (List.mem_append_right _ ha)
      · intro a ha
        exact hclimb a (List.mem_cons_of_mem _ ha)
      · exact h
    apply up_mem hfree _ (hclimb _ List.mem_cons_self) hnext
    intro a ha
    exact htree a (List.mem_append_left _ ha)

/-! ## Two trees -/

/-- A tree whose first node on some level is in another tree has its first leaf there as well. -/
theorem head_level_mem {ins : List (α × α)} (hfree : CollisionFree (fun a => pair a.1 a.2) ins)
    (htree : ∀ a ∈ treeInputs pair l k, a ∈ ins) (htree' : ∀ a ∈ treeInputs pair m k, a ∈ ins)
    (hx : l.head? = some x) (h : ∃ y ∈ level pair m k, (level pair l k).head? = some y) : x ∈ m := by
  induction k generalizing l m x with
  | zero =>
    obtain ⟨y, hy, heq⟩ := h
    cases hx.symm.trans heq
    exact hy
  | succ k ih =>
    obtain ⟨a, ha, hax⟩ : ∃ a, (inputs l).head? = some a ∧ a.1 = x := by
      refine ⟨(x, l[1]?.getD x), ?_, rfl⟩
      rw [List.head?_eq_getElem?, getElem?_inputs, ← List.head?_eq_getElem?, hx]
      rfl
    have hnext : pair a.1 a.2 ∈ nextLevel pair m := by
      apply ih (l := nextLevel pair l)
      · intro b hb
        exact htree b (List.mem_append_right _ hb)
      · intro b hb
        exact htree' b (List.mem_append_right _ hb)
      · rw [nextLevel_eq_map, List.head?_map, ha]
        rfl
      · exact h
    rw [nextLevel_eq_map, List.mem_map] at hnext
    obtain ⟨b, hb, heq⟩ := hnext
    have hsame : b = a := by
      apply hfree b (htree' b (List.mem_append_left _ hb)) a _ heq
      exact htree a (List.mem_append_left _ (List.mem_of_mem_head? ha))
    rw [← hax, ← hsame]
    exact (mem_of_mem_inputs hb).1

theorem inputs_inj (hl : l.length % 2 = 0) (hm : m.length % 2 = 0) (h : inputs l = inputs m) :
    l = m := by
  induction l using inputs.induct generalizing m with
  | case1 =>
    match m with
    | [] => rfl
    | [_] => cases h
    | _ :: _ :: _ => cases h
  | case2 => cases hl
  | case3 x y l ih =>
    match m with
    | [] => cases h
    | [_] => cases hm
    | x' :: y' :: m =>
      simp only [inputs, List.cons.injEq, Prod.mk.injEq] at h
      simp only [List.length_cons] at hl hm
      rw [h.1.1, h.1.2, ih (by omega) (by omega) h.2]

/-- Two trees of one height, filled with leaves and with one top level, are one tree. -/
theorem level_inj {ins : List (α × α)} (hfree : CollisionFree (fun a => pair a.1 a.2) ins)
    (htree : ∀ a ∈ treeInputs pair l k, a ∈ ins) (htree' : ∀ a ∈ treeInputs pair m k, a ∈ ins)
    (hl : l.length = n * 2 ^ k) (hm : m.length = n * 2 ^ k)
    (h : level pair l k = level pair m k) : l = m := by
  induction k generalizing l m with
  | zero => exact h
  | succ k ih =>
    have hnext : nextLevel pair l = nextLevel pair m := by
      apply ih
      · intro a ha
        exact htree a (List.mem_append_right _ ha)
      · intro a ha
        exact htree' a (List.mem_append_right _ ha)
      · rw [length_nextLevel, hl, Nat.pow_succ, ← Nat.mul_assoc]
        omega
      · rw [length_nextLevel, hm, Nat.pow_succ, ← Nat.mul_assoc]
        omega
      · exact h
    have heven : n * 2 ^ (k + 1) % 2 = 0 := by
      rw [Nat.pow_succ, ← Nat.mul_assoc, Nat.mul_mod_left]
    apply inputs_inj (hl ▸ heven) (hm ▸ heven)
    rw [nextLevel_eq_map, nextLevel_eq_map] at hnext
    apply hfree.map_inj _ _ hnext
    · intro a ha
      exact htree a (List.mem_append_left _ ha)
    · intro a ha
      exact htree' a (List.mem_append_left _ ha)

/-! ## A slice of a tree -/

theorem nextLevel_slice : nextLevel pair (slice l i (k + 1)) = slice (nextLevel pair l) i k := by
  have hpow : 2 ^ (k + 1) = 2 * 2 ^ k := Nat.pow_succ'
  apply List.ext_getElem?
  intro j
  simp only [slice, getElem?_nextLevel, List.getElem?_take, List.getElem?_drop, hpow]
  have h0 : 2 * j < 2 * 2 ^ k ↔ j < 2 ^ k := by omega
  have h1 : 2 * j + 1 < 2 * 2 ^ k ↔ j < 2 ^ k := by omega
  have hi : i * (2 * 2 ^ k) = 2 * (i * 2 ^ k) := by ac_rfl
  simp only [h0, h1, hi, ← Nat.mul_add, ← Nat.add_assoc]
  split <;> rfl

theorem mem_inputs_slice {a : α × α} (h : a ∈ inputs (slice l i (k + 1))) : a ∈ inputs l := by
  have hpow : 2 ^ (k + 1) = 2 * 2 ^ k := Nat.pow_succ'
  obtain ⟨j, hj⟩ := List.mem_iff_getElem?.mp h
  have h0 : 2 * j < 2 * 2 ^ k ↔ j < 2 ^ k := by omega
  have h1 : 2 * j + 1 < 2 * 2 ^ k ↔ j < 2 ^ k := by omega
  have hi : i * (2 * 2 ^ k) = 2 * (i * 2 ^ k) := by ac_rfl
  simp only [slice, getElem?_inputs, List.getElem?_take, List.getElem?_drop, hpow, h0, h1, hi,
    ← Nat.mul_add, ← Nat.add_assoc] at hj
  split at hj
  · apply List.mem_of_getElem? (i := i * 2 ^ k + j)
    rw [getElem?_inputs, hj]
  · cases hj

theorem mem_treeInputs_slice {a : α × α} (h : a ∈ treeInputs pair (slice l i k) k) :
    a ∈ treeInputs pair l k := by
  induction k generalizing l with
  | zero => exact h
  | succ k ih =>
    rw [treeInputs, nextLevel_slice, List.mem_append] at h
    rw [treeInputs, List.mem_append]
    exact h.imp mem_inputs_slice ih

theorem mem_treeInputs_level {a : α × α} (hn : j + k ≤ n)
    (h : a ∈ treeInputs pair (level pair l j) k) : a ∈ treeInputs pair l n := by
  obtain ⟨r, rfl⟩ := Nat.le.dest hn
  rw [treeInputs_add, treeInputs_add]
  exact List.mem_append_left _ (List.mem_append_right _ h)

/-- A node above the leaves is a value of `pair`. -/
theorem mem_level_succ (hk : k < n) (h : x ∈ level pair l (k + 1)) :
    ∃ a ∈ treeInputs pair l n, pair a.1 a.2 = x := by
  rw [level_succ', nextLevel_eq_map, List.mem_map] at h
  obtain ⟨a, ha, hx⟩ := h
  refine ⟨a, mem_treeInputs_level (k := 1) hk ?_, hx⟩
  rw [treeInputs, treeInputs, List.append_nil]
  exact ha

theorem climbInputs_append {q : List α} : climbInputs pair x i (p ++ q) =
    climbInputs pair x i p ++ climbInputs pair (climb pair x i p) (i / 2 ^ p.length) q := by
  induction p generalizing x i with
  | nil => simp [climbInputs, climb]
  | cons s p ih =>
    rw [List.cons_append, climbInputs, ih, climbInputs, climb, List.length_cons, Nat.pow_succ',
      Nat.div_div_eq_div_mul, List.cons_append]

/-- The end of a path is a value of `pair`. -/
theorem climb_input (pair : α → α → α) (h : p ≠ []) : ∃ a ∈ climbInputs pair x i p, pair a.1 a.2 = climb pair x i p := by
  induction p generalizing x i with
  | nil => cases h rfl
  | cons s p ih =>
    rw [climbInputs, climb]
    rcases List.eq_nil_or_concat p with rfl | hp
    · exact ⟨_, List.mem_cons_self, up_eq.symm⟩
    · obtain ⟨q, z, rfl⟩ := hp
      obtain ⟨a, ha, hclimb⟩ := ih (x := up pair x i s) (i := i / 2) (by simp)
      exact ⟨a, List.mem_cons_of_mem _ ha, hclimb⟩

/-! ## A subtree under the root of a tree

The root `x` of a full tree over `2 ^ k` leaves `l` leads by some path to the root of a tree over
the leaves `m` of height `n`. -/

section

variable {ins : List (α × α)} {root : α}
  (hfree : CollisionFree (fun a => pair a.1 a.2) ins)
  (hleaf : ∀ y, y ∈ m ∨ y ∈ l → ∀ a ∈ ins, pair a.1 a.2 ≠ y)
  (htree : ∀ a ∈ treeInputs pair m n, a ∈ ins)
  (hsub : ∀ a ∈ treeInputs pair l k, a ∈ ins)
  (hclimb : ∀ a ∈ climbInputs pair x i p, a ∈ ins)
  (hroot : level pair m n = [root]) (hx : level pair l k = [x])
  (hl : l.length = 2 ^ k) (hkn : k ≤ n)
  (h : climb pair x i p = root)

include hfree hleaf htree hsub hclimb hroot hx hl hkn h

/-- The path has the length which the tree gives it: a shorter or a longer one would make a leaf of
one tree an inner node of the other. -/
theorem length_of_climb : p.length = n - k := by
  have hlevel (j : Nat) (hj : j ≤ n) : level pair (level pair m (n - j)) j = [root] := by
    rw [← level_add, Nat.sub_add_cancel hj, hroot]
  have hclimb_mem (hp : p.length ≤ n) : x ∈ level pair m (n - p.length) := by
    apply climb_mem hfree _ hclimb
    · rw [hlevel _ hp, h]
      exact List.mem_singleton_self _
    · intro a ha
      exact htree a (mem_treeInputs_level (by omega) ha)
  have hhead (j : Nat) (hj : j ≤ k) : ∃ y, (level pair l j).head? = some y ∧ y ∈ level pair l j := by
    have hpow := Nat.two_pow_pos k
    have hne : level pair l j ≠ [] := level_ne_nil (List.ne_nil_of_length_pos (by omega))
    exact ⟨_, List.head?_eq_some_head hne, List.head_mem hne⟩
  rcases Nat.lt_trichotomy p.length (n - k) with hlt | heq | hgt
  · -- the path starts too high up, so the first leaf below it is an inner node of the tree
    exfalso
    obtain ⟨y, hy, hmem⟩ := hhead 0 (Nat.zero_le _)
    have hy' : y ∈ level pair m (n - p.length - k) := by
      apply head_level_mem hfree hsub _ hy
      · refine ⟨x, ?_, by rw [hx]; rfl⟩
        rw [← level_add, Nat.sub_add_cancel (by omega)]
        exact hclimb_mem (by omega)
      · intro a ha
        exact htree a (mem_treeInputs_level (by omega) ha)
    obtain ⟨j, hj⟩ : ∃ j, n - p.length - k = j + 1 := ⟨n - p.length - k - 1, by omega⟩
    rw [hj] at hy'
    obtain ⟨a, ha, hpair⟩ := mem_level_succ (n := n) (by omega) hy'
    exact hleaf y (.inr hmem) a (htree a ha) hpair
  · exact heq
  · exfalso
    rcases (Nat.lt_or_ge n p.length).symm with hle | hlong
    · -- it starts too far down, so an inner node below it is a leaf of the tree
      obtain ⟨y, hy, hmem⟩ := hhead (k - (n - p.length)) (by omega)
      have hy' : y ∈ m := by
        apply head_level_mem (k := n - p.length) hfree _ _ hy
        · refine ⟨x, hclimb_mem hle, ?_⟩
          rw [← level_add, Nat.sub_add_cancel (by omega), hx]
          rfl
        · intro a ha
          exact hsub a (mem_treeInputs_level (by omega) ha)
        · intro a ha
          exact htree a (mem_treeInputs_level (j := 0) (by omega) ha)
      obtain ⟨j, hj⟩ : ∃ j, k - (n - p.length) = j + 1 := ⟨k - (n - p.length) - 1, by omega⟩
      rw [hj] at hmem
      obtain ⟨a, ha, hpair⟩ := mem_level_succ (n := k) (by omega) hmem
      exact hleaf y (.inl hy') a (hsub a ha) hpair
    · -- it passes below the leaves of the tree
      obtain ⟨q, r, rfl, hr⟩ : ∃ q r, p = q ++ r ∧ r.length = n :=
        ⟨p.take (p.length - n), p.drop (p.length - n), (List.take_append_drop ..).symm,
          by rw [List.length_drop]; omega⟩
      have hq : q ≠ [] := by
        rintro rfl
        rw [List.nil_append] at hlong
        omega
      obtain ⟨a, ha, hpair⟩ := climb_input pair (x := x) (i := i) hq
      rw [climbInputs_append] at hclimb
      rw [climb_append] at h
      have hmem : climb pair x i q ∈ m := by
        apply climb_mem (p := r) (i := i / 2 ^ q.length) hfree
        · intro b hb
          exact htree b (hr ▸ hb)
        · intro b hb
          exact hclimb b (List.mem_append_right _ hb)
        · rw [hr, hroot, h]
          exact List.mem_singleton_self _
      exact hleaf _ (.inl hmem) a (hclimb a (List.mem_append_left _ ha)) hpair

/-- The subtree is the tree's own one at its place. -/
theorem slice_eq_of_climb (hi : (i + 1) * 2 ^ k ≤ m.length) : slice m i k = l := by
  have hlen := length_of_climb hfree hleaf htree hsub hclimb hroot hx hl hkn h
  have hpow := Nat.two_pow_pos k
  have hi' : i * 2 ^ k < m.length := by
    rw [Nat.succ_mul] at hi
    omega
  have hlevel : level pair (level pair m k) p.length = [root] := by
    rw [← level_add, hlen, Nat.add_sub_cancel' hkn, hroot]
  have hzero : i / 2 ^ p.length = 0 := by
    have hlt : i / 2 ^ p.length < (level pair (level pair m k) p.length).length :=
      div_lt_length_level pair _ (lt_length_level_iff.mpr hi')
    rw [hlevel, List.length_singleton] at hlt
    exact Nat.lt_one_iff.mp hlt
  have hnode : (level pair m k)[i]? = some x := by
    apply climb_inj hfree _ hclimb (lt_length_level_iff.mpr hi')
    · rw [hlevel, hzero, h]
      rfl
    · intro a ha
      exact htree a (mem_treeInputs_level (by omega) ha)
  have hslice : (slice m i k).length = 1 * 2 ^ k := by
    rw [Nat.succ_mul] at hi
    rw [slice, List.length_take, List.length_drop]
    omega
  apply level_inj hfree _ hsub hslice (by omega)
  · rw [level_slice pair hi', hnode, hx]
    rfl
  · intro a ha
    exact htree a (mem_treeInputs_level (j := 0) (by omega) (mem_treeInputs_slice ha))

end

/-! ## Equal leaves -/

theorem nextLevel_const (pair : α → α → α) (h : ∀ y ∈ l, y = x) :
    ∀ y ∈ nextLevel pair l, y = pair x x := by
  intro y hy
  obtain ⟨a, ha, b, hb, rfl⟩ := mem_nextLevel hy
  rw [h a ha, h b hb]

theorem level_const (pair : α → α → α) (h : ∀ y ∈ l, y = x) :
    ∀ y ∈ level pair l k, y = (fun x => pair x x)^[k] x := by
  induction k generalizing l x with
  | zero => exact h
  | succ k ih => exact ih (nextLevel_const pair h)

theorem treeInputs_const (h : ∀ y ∈ l, y = x) : ∀ a ∈ treeInputs pair l k,
    ∃ j < k, a = ((fun x => pair x x)^[j] x, (fun x => pair x x)^[j] x) := by
  induction k generalizing l x with
  | zero => intro a ha; cases ha
  | succ k ih =>
    intro a ha
    rcases List.mem_append.mp ha with ha | ha
    · have hmem := mem_of_mem_inputs ha
      exact ⟨0, k.succ_pos, Prod.ext (h _ hmem.1) (h _ hmem.2)⟩
    · obtain ⟨j, hj, rfl⟩ := ih (nextLevel_const pair h) a ha
      exact ⟨j + 1, Nat.succ_lt_succ hj, rfl⟩

theorem climbInputs_const (h : ∀ y ∈ l, y = x) (hi : i < l.length) :
    ∀ a ∈ climbInputs pair x i (path pair l i k),
      ∃ j < k, a = ((fun x => pair x x)^[j] x, (fun x => pair x x)^[j] x) := by
  induction k generalizing l x i with
  | zero => intro a ha; cases ha
  | succ k ih =>
    obtain ⟨s, hs, hpath⟩ := path_succ pair k hi
    have hsx : s = x := h s (sibling_mem hs)
    have hup : up pair x i x = pair x x := by rw [up, ite_self]
    intro a ha
    rw [hpath, hsx, climbInputs, hup] at ha
    rcases List.mem_cons.mp ha with rfl | ha
    · exact ⟨0, k.succ_pos, by rw [upInput, ite_self]; rfl⟩
    · obtain ⟨j, hj, rfl⟩ := ih (nextLevel_const pair h) (by rw [length_nextLevel]; omega) a ha
      exact ⟨j + 1, Nat.succ_lt_succ hj, rfl⟩

end KeryxMiner.Merkle
