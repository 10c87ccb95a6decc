import Mathlib.Algebra.Group.Nat.Defs
import Mathlib.Data.List.Basic

/-!
# Range proofs of trees over lists

A tree pairs the nodes of a level until one is left. The last node of an odd level is paired with
itself or promoted, and the two nodes of the last pairing are merged under a flag of their own
(`Shape`). A range proof has the siblings in front of an odd start and behind an even end, level by
level; `rangeFold` finds the root from the leaves of a range and its proof. With the siblings of the
tree it finds the root of the tree (`rangeFold_rangeProof`), and two ranges that lead to one root
agree where they overlap (`rangeFold_agree`), as long as the inputs of `node` do not collide.
-/

namespace KeryxMiner.RangeTree

variable {α : Type}

structure Shape (α : Type) where
  /-- The parent of two nodes; the flag says that they are the only two of their level. -/
  node : Bool → α → α → α
  /-- The last node of an odd level is paired with itself, not promoted. -/
  dup : Bool

variable {t : Shape α} {top : Bool} {l m cur level proof : List α} {x y a : α} {i k lo n : Nat}

namespace Shape

variable (t)

/-- What stands above a node without a sibling. -/
def lone (top : Bool) (x : α) : α := if t.dup then t.node top x x else x

/-- The nodes above consecutive ones of a level, the first of which has an even place. -/
def parents (top : Bool) : List α → List α
  | [] => []
  | [x] => [t.lone top x]
  | x :: y :: l => t.node top x y :: parents top l

/-- The level above. -/
def above (l : List α) : List α := t.parents (l.length == 2) l

theorem length_parents : (t.parents top l).length = (l.length + 1) / 2 := by
  induction l using Shape.parents.induct with
  | case1 => simp [parents]
  | case2 x => simp [parents]
  | case3 x y l ih =>
    rw [parents, List.length_cons, ih, List.length_cons, List.length_cons]
    omega

theorem getElem?_parents : (t.parents top l)[i]? =
    l[2 * i]?.map fun x => (l[2 * i + 1]?.map (t.node top x)).getD (t.lone top x) := by
  induction l using Shape.parents.induct generalizing i with
  | case1 => simp [parents]
  | case2 x =>
    cases i with
    | zero => rfl
    | succ i => simp [parents]
  | case3 x y l ih =>
    cases i with
    | zero => rfl
    | succ i =>
      rw [parents, List.getElem?_cons_succ, ih]
      rfl

theorem parents_append (h : l.length % 2 = 0) :
    t.parents top (l ++ m) = t.parents top l ++ t.parents top m := by
  induction l using Shape.parents.induct with
  | case1 => rfl
  | case2 x => cases h
  | case3 x y l ih =>
    have hl : l.length % 2 = 0 := by
      simp only [List.length_cons] at h
      omega
    rw [List.cons_append, List.cons_append, parents, ih hl, parents, List.cons_append]

theorem parents_drop : t.parents top (l.drop (2 * k)) = (t.parents top l).drop k := by
  apply List.ext_getElem?
  intro i
  rw [List.getElem?_drop, getElem?_parents, getElem?_parents, List.getElem?_drop,
    List.getElem?_drop, Nat.mul_add, Nat.add_assoc]

/-- The root of the tree over some leaves. -/
def root (l : List α) : Option α :=
  if l.length ≤ 1 then l.head? else root (t.above l)
termination_by l.length
decreasing_by
  rw [above, length_parents]
  omega

/-- The siblings of the range from `lo` to `hi`. -/
def rangeProof (l : List α) (lo hi : Nat) : List α :=
  if l.length ≤ 1 then []
  else
    (if lo % 2 = 1 then l[lo - 1]?.toList else []) ++
      (if hi % 2 = 0 ∧ hi + 1 < l.length then l[hi + 1]?.toList else []) ++
      rangeProof (t.above l) (lo / 2) (hi / 2)
termination_by l.length
decreasing_by
  rw [above, length_parents]
  omega

end Shape

/-- Puts a sibling of the proof in front of a range with an odd start. -/
def takeFront (lo : Nat) (level proof : List α) : Option (List α × List α) :=
  if lo % 2 = 0 then some (level, proof)
  else match proof with
    | [] => none
    | s :: proof => some (s :: level, proof)

/-- Puts a sibling of the proof behind a range with an even end that is not the last node. -/
def takeBack (n hi : Nat) (level proof : List α) : Option (List α × List α) :=
  if hi % 2 = 0 ∧ hi + 1 < n then
    match proof with
    | [] => none
    | s :: proof => some (level ++ [s], proof)
  else some (level, proof)

/-- The range completed to whole pairs, and the rest of the proof. -/
def complete (n lo : Nat) (level proof : List α) : Option (List α × List α) := do
  let (cur, proof) ← takeFront lo level proof
  takeBack n (lo + level.length - 1) cur proof

/-- The root from the leaves of the range at `lo` and the siblings, over `n` leaves. -/
def rangeFold (t : Shape α) (n lo : Nat) (level proof : List α) : Option α :=
  if n ≤ 1 then
    match level, proof with
    | [x], [] => some x
    | _, _ => none
  else
    match complete n lo level proof with
    | none => none
    | some (cur, proof) => rangeFold t ((n + 1) / 2) (lo / 2) (t.parents (n == 2) cur) proof
termination_by n

/-! ## Ranges of a level -/

theorem takeFront_of_start (h : level <+: l.drop lo) (hlo : lo < l.length) (rest : List α) :
    ∃ cur, takeFront lo level ((if lo % 2 = 1 then l[lo - 1]?.toList else []) ++ rest) =
      some (cur, rest) ∧ cur <+: l.drop (2 * (lo / 2)) ∧ cur.length = level.length + lo % 2 := by
  rcases Nat.mod_two_eq_zero_or_one lo with heven | hodd
  · refine ⟨level, by simp [takeFront, heven], ?_, by omega⟩
    rwa [show 2 * (lo / 2) = lo by omega]
  · have hlt : lo - 1 < l.length := by omega
    refine ⟨l[lo - 1] :: level, ?_, ?_, by rw [List.length_cons, hodd]⟩
    · simp [takeFront, hodd, List.getElem?_eq_getElem hlt]
    · rw [show 2 * (lo / 2) = lo - 1 by omega, List.drop_eq_getElem_cons hlt,
        List.cons_prefix_cons, Nat.sub_add_cancel (by omega)]
      exact ⟨rfl, h⟩

theorem takeBack_of_start {start hi : Nat} (h : cur <+: l.drop start) (hstart : start % 2 = 0)
    (hend : start + cur.length = hi + 1) (hhi : hi < l.length) (rest : List α) :
    ∃ cur', takeBack l.length hi cur
      ((if hi % 2 = 0 ∧ hi + 1 < l.length then l[hi + 1]?.toList else []) ++ rest) =
      some (cur', rest) ∧ cur' <+: l.drop start ∧
      (cur'.length % 2 = 0 ∨ cur' = l.drop start) ∧
      (cur'.length + 1) / 2 = (cur.length + 1) / 2 := by
  obtain ⟨after, hafter⟩ := h
  have hdrop : after = l.drop (hi + 1) := by
    rw [← hend, ← List.drop_drop, ← hafter, List.drop_left]
  by_cases hback : hi % 2 = 0 ∧ hi + 1 < l.length
  · have hget : l[hi + 1]? = some l[hi + 1] := List.getElem?_eq_getElem hback.2
    refine ⟨cur ++ [l[hi + 1]], ?_, ⟨l.drop (hi + 2), ?_⟩, .inl ?_, ?_⟩
    · simp [takeBack, hback]
    · rw [← hafter, hdrop, List.append_assoc, List.drop_eq_getElem_cons hback.2]
      rfl
    · rw [List.length_append, List.length_singleton]
      omega
    · rw [List.length_append, List.length_singleton]
      omega
  · refine ⟨cur, ?_, ⟨after, hafter⟩, ?_, rfl⟩
    · simp only [takeBack, if_neg hback, List.nil_append]
    · rw [not_and_or] at hback
      rcases hback with hodd | hlast
      · exact .inl (by omega)
      · refine .inr ?_
        rw [← hafter, hdrop, List.drop_eq_nil_of_le (by omega), List.append_nil]

/-- A range of a level is completed by the siblings that its proof has for the level. -/
theorem complete_of_start (t : Shape α) (top : Bool) {hi : Nat} (h : level <+: l.drop lo)
    (hne : level ≠ []) (hhi : lo + level.length = hi + 1) (rest : List α) :
    ∃ cur, complete l.length lo level
      ((if lo % 2 = 1 then l[lo - 1]?.toList else []) ++
        (if hi % 2 = 0 ∧ hi + 1 < l.length then l[hi + 1]?.toList else []) ++ rest) =
      some (cur, rest) ∧ t.parents top cur <+: (t.parents top l).drop (lo / 2) ∧
      lo / 2 + (t.parents top cur).length = hi / 2 + 1 := by
  have hpos := List.length_pos_iff.mpr hne
  have hlen := h.length_le
  rw [List.length_drop] at hlen
  obtain ⟨cur, hfront, hcur, hcurLen⟩ := takeFront_of_start h (by omega)
    ((if hi % 2 = 0 ∧ hi + 1 < l.length then l[hi + 1]?.toList else []) ++ rest)
  obtain ⟨cur', hback, hpre, hwhole, hcurLen'⟩ := @takeBack_of_start _ l cur _ hi hcur
    (by omega) (by omega) (by omega) rest
  refine ⟨cur', ?_, ?_, ?_⟩
  · rw [complete, List.append_assoc, hfront, show lo + level.length - 1 = hi by omega]
    exact hback
  · rw [← Shape.parents_drop]
    rcases hwhole with heven | rfl
    · obtain ⟨after, hafter⟩ := hpre
      rw [← hafter, Shape.parents_append t heven]
      exact List.prefix_append ..
    · exact List.prefix_rfl
  · rw [Shape.length_parents]
    omega

/-- The root of the tree from a range and its proof. -/
theorem rangeFold_rangeProof {hi : Nat} (h : level <+: l.drop lo) (hne : level ≠ [])
    (hhi : lo + level.length = hi + 1) :
    rangeFold t l.length lo level (t.rangeProof l lo hi) = t.root l := by
  induction l, lo, hi using Shape.rangeProof.induct t generalizing level with
  | case1 l lo hi hone =>
    have hpos := List.length_pos_iff.mpr hne
    have hlen := h.length_le
    rw [List.length_drop] at hlen
    obtain ⟨x, rfl⟩ := List.length_eq_one_iff.mp (show l.length = 1 by omega)
    obtain rfl : lo = 0 := by simp at hlen; omega
    obtain ⟨y, rfl⟩ := List.length_eq_one_iff.mp (show level.length = 1 by simp at hlen; omega)
    have hxy : y = x := by simpa using h
    simp [rangeFold, Shape.rangeProof, Shape.root, hxy]
  | case2 l lo hi hmany ih =>
    obtain ⟨cur, hcomplete, hpre, hlen⟩ := complete_of_start t (l.length == 2) h hne hhi
      (t.rangeProof (t.above l) (lo / 2) (hi / 2))
    have hcur : t.parents (l.length == 2) cur ≠ [] := by
      have hpos := List.length_pos_iff.mpr hne
      rintro hnil
      rw [hnil, List.length_nil] at hlen
      omega
    rw [rangeFold.eq_def, if_neg hmany, Shape.rangeProof, if_neg hmany, hcomplete, Shape.root,
      if_neg hmany]
    have hstep := ih hpre hcur hlen
    rwa [Shape.above, Shape.length_parents] at hstep

/-- A proof has at most two siblings on each level. -/
theorem Shape.length_rangeProof_le {hi : Nat} (h : l.length ≤ 2 ^ k) :
    (t.rangeProof l lo hi).length ≤ 2 * k := by
  induction k generalizing l lo hi with
  | zero =>
    rw [rangeProof, if_pos (by omega)]
    exact Nat.zero_le _
  | succ k ih =>
    rw [rangeProof]
    split
    · exact Nat.zero_le _
    · have hup : (t.above l).length ≤ 2 ^ k := by
        rw [above, length_parents]
        omega
      have hrest := @ih (t.above l) (lo / 2) (hi / 2) hup
      have hone : ∀ (p : Prop) [Decidable p] (s : Option α),
          (if p then s.toList else []).length ≤ 1 := by
        intro p _ s
        split <;> cases s <;> simp
      have hfront := hone (lo % 2 = 1) l[lo - 1]?
      have hback := hone (hi % 2 = 0 ∧ hi + 1 < l.length) l[hi + 1]?
      rw [List.length_append, List.length_append]
      omega

theorem Shape.exists_root (t : Shape α) (h : l ≠ []) : ∃ r, t.root l = some r := by
  induction l using Shape.root.induct t with
  | case1 l hone =>
    rw [root, if_pos hone]
    exact ⟨l.head h, List.head?_eq_some_head h⟩
  | case2 l hmany ih =>
    rw [root, if_neg hmany]
    apply ih
    intro hnil
    have hlen := @length_parents _ t (l.length == 2) l
    rw [above] at hnil
    rw [hnil, List.length_nil] at hlen
    omega

/-- The tree over copies of a node that is its own parent. -/
theorem Shape.root_replicate (t : Shape α) (h : ∀ top, t.node top x x = x) :
    t.root (List.replicate (n + 1) x) = some x := by
  have hlone : ∀ top, t.lone top x = x := by
    intro top
    rw [lone, h, ite_self]
  have hparents : ∀ top n, t.parents top (List.replicate n x) =
      List.replicate ((n + 1) / 2) x := by
    intro top n
    induction n using Nat.strongRecOn with
    | ind n ih =>
      match n with
      | 0 => rfl
      | 1 => exact congrArg (fun y => [y]) (hlone top)
      | n + 2 =>
        rw [List.replicate_succ, List.replicate_succ, parents, h, ih n (by omega),
          ← List.replicate_succ]
        congr 1
        omega
  induction n using Nat.strongRecOn with
  | ind n ih =>
    rw [root, List.length_replicate]
    split
    · rfl
    · next hn =>
      have hup := ih (n / 2) (by omega)
      rw [above, hparents, ← hup]
      congr 2
      omega

/-! ## The recursive tree -/

/-- How many of `n` leaves the left subtree has: the largest power of two below `n`. -/
def leftLen (n : Nat) : Nat := 2 ^ (n - 1).log2

theorem leftLen_pos : 0 < leftLen n := Nat.two_pow_pos _

theorem leftLen_lt (hn : 2 ≤ n) : leftLen n < n := by
  have hle := Nat.log2_self_le (show n - 1 ≠ 0 by omega)
  rw [leftLen]
  omega

theorem leftLen_above (hn : 3 ≤ n) : leftLen n = 2 * leftLen ((n + 1) / 2) := by
  rw [leftLen, leftLen, Nat.log2_def, if_pos (by omega), Nat.pow_succ, Nat.mul_comm,
    show (n + 1) / 2 - 1 = (n - 1) / 2 by omega]

/-- The root of the tree that is split at `leftLen`; only its last node is marked by `top`. -/
def Shape.splitRoot (t : Shape α) (top : Bool) (l : List α) : Option α :=
  if l.length ≤ 1 then l.head?
  else do
    let left ← splitRoot t false (l.take (leftLen l.length))
    let right ← splitRoot t false (l.drop (leftLen l.length))
    some (t.node top left right)
termination_by l.length
decreasing_by
  · have hlt := @leftLen_lt l.length (by omega)
    rw [List.length_take]
    omega
  · have hpos := @leftLen_pos l.length
    rw [List.length_drop]
    omega

theorem Shape.splitRoot_one : t.splitRoot top [x] = some x := by
  rw [splitRoot]
  rfl

theorem Shape.splitRoot_two {y : α} : t.splitRoot top [x, y] = some (t.node top x y) := by
  have hleft : leftLen [x, y].length = 1 := by
    show leftLen 2 = 1
    decide
  rw [splitRoot, if_neg (by simp), hleft]
  show (t.splitRoot false [x]).bind _ = _
  rw [splitRoot_one]
  show (t.splitRoot false [y]).bind _ = _
  rw [splitRoot_one]
  rfl

theorem Shape.lone_of_promoted (hdup : t.dup = false) : t.lone top x = x := by
  rw [Shape.lone, hdup]
  rfl

/-- Pairing the leaves of a promoting tree leaves the recursive tree above them. -/
theorem Shape.splitRoot_parents (hdup : t.dup = false) (h : top = false ∨ 3 ≤ l.length) :
    t.splitRoot top (t.parents false l) = t.splitRoot top l := by
  induction top, l using Shape.splitRoot.induct with
  | case1 top l hone =>
    match l, hone with
    | [], _ => rfl
    | [x], _ => rw [parents, lone_of_promoted hdup]
  | case2 top l hmany ihleft ihright =>
    rcases (show l.length = 2 ∨ 3 ≤ l.length by omega) with htwo | hthree
    · obtain rfl : top = false := by
        rcases h with h | h
        · exact h
        · omega
      obtain ⟨x, y, rfl⟩ := List.length_eq_two.mp htwo
      exact splitRoot_one.trans splitRoot_two.symm
    · have hhalf := leftLen_above hthree
      have htake : (l.take (leftLen l.length)).length = leftLen l.length := by
        rw [List.length_take]
        exact Nat.min_eq_left (Nat.le_of_lt (leftLen_lt (by omega)))
      have hsplit : t.parents false l = t.parents false (l.take (leftLen l.length)) ++
          t.parents false (l.drop (leftLen l.length)) := by
        rw [← parents_append t (by omega), List.take_append_drop]
      have hlen : (t.parents false (l.take (leftLen l.length))).length =
          leftLen ((l.length + 1) / 2) := by
        rw [length_parents]
        omega
      rw [splitRoot, if_neg (by rw [length_parents]; omega), length_parents, splitRoot.eq_def t top l,
        if_neg hmany, ← ihleft (.inl rfl), ← ihright (.inl rfl), hsplit, List.take_left' hlen,
        List.drop_left' hlen]

/-- The levels of a promoting tree lead to the root of the recursive tree. -/
theorem Shape.root_eq_splitRoot (hdup : t.dup = false) : t.root l = t.splitRoot true l := by
  induction l using Shape.root.induct t with
  | case1 l hone => rw [root, splitRoot, if_pos hone, if_pos hone]
  | case2 l hmany ih =>
    rw [root, if_neg hmany, ih, above]
    rcases (show l.length = 2 ∨ 3 ≤ l.length by omega) with htwo | hthree
    · obtain ⟨x, y, rfl⟩ := List.length_eq_two.mp htwo
      exact splitRoot_one.trans splitRoot_two.symm
    · rw [show (l.length == 2) = false by simp; omega, splitRoot_parents hdup (.inr hthree)]

/-! ## Binding -/

/-- The node at place `i` of a range at `lo`. -/
def nodeAt (lo : Nat) (level : List α) (i : Nat) : Option α :=
  if lo ≤ i then level[i - lo]? else none

/-- The inputs of `node` in `parents`. -/
def Shape.inputs (t : Shape α) : List α → List (α × α)
  | [] => []
  | [x] => if t.dup then [(x, x)] else []
  | x :: y :: l => (x, y) :: Shape.inputs t l

/-- The inputs of `node` in `rangeFold`, with their flags. -/
def foldInputs (t : Shape α) (n lo : Nat) (level proof : List α) : List (Bool × α × α) :=
  if n ≤ 1 then []
  else
    match complete n lo level proof with
    | none => []
    | some (cur, proof) => (t.inputs cur).map (n == 2, ·) ++
        foldInputs t ((n + 1) / 2) (lo / 2) (t.parents (n == 2) cur) proof
termination_by n

/-- No two inputs under one flag have one parent. -/
def NoCollision (t : Shape α) (ins : List (Bool × α × α)) : Prop :=
  ∀ a ∈ ins, ∀ b ∈ ins, a.1 = b.1 → t.node a.1 a.2.1 a.2.2 = t.node b.1 b.2.1 b.2.2 → a.2 = b.2

theorem NoCollision.mono {ins ins' : List (Bool × α × α)} (h : NoCollision t ins)
    (hsub : ∀ a ∈ ins', a ∈ ins) : NoCollision t ins' :=
  fun a ha b hb => h a (hsub a ha) b (hsub b hb)

theorem Shape.mem_inputs_pair (hx : cur[2 * k]? = some x) (hy : cur[2 * k + 1]? = some y) :
    (x, y) ∈ t.inputs cur := by
  induction cur using Shape.parents.induct generalizing k with
  | case1 => simp at hx
  | case2 z => simp at hy
  | case3 z w l ih =>
    cases k with
    | zero =>
      cases hx
      cases hy
      exact List.mem_cons_self
    | succ k => exact List.mem_cons_of_mem _ (ih hx hy)

theorem Shape.mem_inputs_lone (hdup : t.dup) (hx : cur[2 * k]? = some x)
    (hy : cur[2 * k + 1]? = none) : (x, x) ∈ t.inputs cur := by
  induction cur using Shape.parents.induct generalizing k with
  | case1 => simp at hx
  | case2 z =>
    cases k with
    | zero =>
      cases hx
      simp [Shape.inputs, hdup]
    | succ k => simp at hx
  | case3 z w l ih =>
    cases k with
    | zero => simp at hy
    | succ k => exact List.mem_cons_of_mem _ (ih hx hy)

/-- What a completed range has: the range itself, whole pairs but at the end of the level, and no
node outside the level. -/
theorem complete_eq_some {rest : List α} (hle : lo + level.length ≤ n) (hne : level ≠ [])
    (h : complete n lo level proof = some (cur, rest)) :
    (∀ i x, nodeAt lo level i = some x → nodeAt (2 * (lo / 2)) cur i = some x) ∧
      (cur.length % 2 = 0 ∨ 2 * (lo / 2) + cur.length = n) ∧ 2 * (lo / 2) + cur.length ≤ n ∧
      cur ≠ [] := by
  have hpos := List.length_pos_iff.mpr hne
  obtain ⟨⟨front, proof'⟩, hfront, hback⟩ := Option.bind_eq_some_iff.mp h
  have hfrontSpec : (∀ i x, nodeAt lo level i = some x → nodeAt (2 * (lo / 2)) front i = some x) ∧
      2 * (lo / 2) + front.length = lo + level.length := by
    rw [takeFront.eq_def] at hfront
    split at hfront
    · next heven =>
      cases hfront
      rw [show 2 * (lo / 2) = lo by omega]
      exact ⟨fun i x hx => hx, rfl⟩
    · next hodd =>
      split at hfront
      · cases hfront
      next s proof =>
      cases hfront
      refine ⟨fun i x hx => ?_, by rw [List.length_cons]; omega⟩
      rw [nodeAt] at hx ⊢
      split at hx
      · next hle =>
        rw [if_pos (by omega), show i - 2 * (lo / 2) = (i - lo) + 1 by omega,
          List.getElem?_cons_succ]
        exact hx
      · cases hx
  obtain ⟨hnodes, hlen⟩ := hfrontSpec
  have hfrontPos : front ≠ [] := by
    rintro rfl
    rw [List.length_nil] at hlen
    omega
  change takeBack n (lo + level.length - 1) front proof' = some (cur, rest) at hback
  rw [takeBack.eq_def] at hback
  split at hback
  · next hhi =>
    split at hback
    · cases hback
    next s proof =>
    cases hback
    refine ⟨fun i x hx => ?_, .inl ?_, ?_, by simp⟩
    · have hold := hnodes i x hx
      rw [nodeAt] at hold ⊢
      split at hold
      · next hle =>
        rw [if_pos hle, List.getElem?_append_left (List.getElem?_eq_some_iff.mp hold).1]
        exact hold
      · cases hold
    · rw [List.length_append, List.length_singleton]
      omega
    · rw [List.length_append, List.length_singleton]
      omega
  · next hhi =>
    cases hback
    refine ⟨hnodes, ?_, by omega, hfrontPos⟩
    rw [not_and_or] at hhi
    omega

/-- Two pairs with one parent are the same. -/
theorem parents_agree {cur' : List α} {k' : Nat}
    (hfree : NoCollision t ((t.inputs cur ++ t.inputs cur').map (top, ·)))
    (hsame : cur[2 * k + 1]? = none ↔ cur'[2 * k' + 1]? = none)
    (hparent : (t.parents top cur)[k]? = (t.parents top cur')[k']?) (hx : cur[2 * k]? = some x) :
    cur'[2 * k']? = some x ∧ cur[2 * k + 1]? = cur'[2 * k' + 1]? := by
  have hinput : ∀ a ∈ t.inputs cur, ∀ b ∈ t.inputs cur', t.node top a.1 a.2 = t.node top b.1 b.2 →
      a = b := by
    intro a ha b hb heq
    exact hfree (top, a) (List.mem_map_of_mem (List.mem_append_left _ ha)) (top, b)
      (List.mem_map_of_mem (List.mem_append_right _ hb)) rfl heq
  rw [t.getElem?_parents, t.getElem?_parents, hx, Option.map_some] at hparent
  obtain ⟨x', hx', hnode⟩ := Option.map_eq_some_iff.mp hparent.symm
  cases hy : cur[2 * k + 1]? with
  | none =>
    have hy' := hsame.mp hy
    rw [hy, hy', Option.map_none, Option.map_none, Option.getD_none, Option.getD_none,
      Shape.lone, Shape.lone] at hnode
    rw [hx', hy']
    split at hnode
    · next hdup =>
      have heq := hinput _ (t.mem_inputs_lone hdup hx hy) _ (t.mem_inputs_lone hdup hx' hy')
        hnode.symm
      exact ⟨congrArg some (Prod.mk.inj heq).1.symm, rfl⟩
    · exact ⟨congrArg some hnode, rfl⟩
  | some y =>
    obtain ⟨y', hy'⟩ : ∃ y', cur'[2 * k' + 1]? = some y' := by
      rw [← Option.ne_none_iff_exists']
      intro hnone
      rw [hsame.mpr hnone] at hy
      cases hy
    rw [hy, hy', Option.map_some, Option.map_some, Option.getD_some, Option.getD_some] at hnode
    have heq := hinput _ (Shape.mem_inputs_pair hx hy) _ (Shape.mem_inputs_pair hx' hy') hnode.symm
    rw [hx', hy', (Prod.mk.inj heq).1, (Prod.mk.inj heq).2]
    exact ⟨rfl, rfl⟩

theorem rangeFold_of_le_one {r : α} (hn : n ≤ 1) (h : rangeFold t n lo level proof = some r) :
    level = [r] := by
  rw [rangeFold.eq_def, if_pos hn] at h
  split at h
  · cases h
    rfl
  · cases h

/-- Where a completed range has the node of place `i`, and what is missing beside it. -/
theorem pair_of_complete {rest : List α} (hle : lo + level.length ≤ n) (hne : level ≠ [])
    (h : complete n lo level proof = some (cur, rest)) (hx : nodeAt lo level i = some x) :
    lo / 2 ≤ i / 2 ∧ cur[2 * (i / 2 - lo / 2) + i % 2]? = some x ∧
      (∃ y, cur[2 * (i / 2 - lo / 2)]? = some y) ∧
      (cur[2 * (i / 2 - lo / 2) + 1]? = none ↔ n ≤ 2 * (i / 2) + 1) := by
  obtain ⟨hnodes, hwhole, hcurLe, -⟩ := complete_eq_some hle hne h
  have hnode := hnodes i x hx
  rw [nodeAt] at hnode
  split at hnode
  · next hlo =>
    have hindex : i - 2 * (lo / 2) = 2 * (i / 2 - lo / 2) + i % 2 := by omega
    rw [hindex] at hnode
    obtain ⟨hlt, -⟩ := List.getElem?_eq_some_iff.mp hnode
    refine ⟨by omega, hnode, ⟨_, List.getElem?_eq_getElem (by omega)⟩, ?_⟩
    rw [List.getElem?_eq_none_iff]
    omega
  · cases hnode

/-- Two ranges with one root have the same node at every place that both have. -/
theorem rangeFold_agree {lo' : Nat} {level' proof' : List α} {r : α}
    (hle : lo + level.length ≤ n) (hle' : lo' + level'.length ≤ n)
    (hne : level ≠ []) (hne' : level' ≠ [])
    (h : rangeFold t n lo level proof = some r) (h' : rangeFold t n lo' level' proof' = some r)
    (hfree : NoCollision t (foldInputs t n lo level proof ++ foldInputs t n lo' level' proof'))
    (hx : nodeAt lo level i = some x) (hy : nodeAt lo' level' i = some y) : x = y := by
  induction n using Nat.strongRecOn generalizing lo level proof lo' level' proof' i x y with
  | _ n ih =>
  by_cases hone : n ≤ 1
  · obtain rfl := rangeFold_of_le_one hone h
    obtain rfl := rangeFold_of_le_one hone h'
    rw [List.length_singleton] at hle hle'
    obtain rfl : lo = 0 := by omega
    obtain rfl : lo' = 0 := by omega
    exact Option.some.inj (hx.symm.trans hy)
  rw [rangeFold.eq_def, if_neg hone] at h h'
  split at h
  · cases h
  next cur rest hcomplete =>
  split at h'
  · cases h'
  next cur' rest' hcomplete' =>
  rw [foldInputs, if_neg hone, foldInputs, if_neg hone, hcomplete, hcomplete'] at hfree
  dsimp only at hfree
  obtain ⟨hlo, hxcur, ⟨z, hz⟩, hnone⟩ := pair_of_complete hle hne hcomplete hx
  obtain ⟨hlo', hycur, ⟨z', hz'⟩, hnone'⟩ := pair_of_complete hle' hne' hcomplete' hy
  obtain ⟨-, -, hcurLe, hcurNe⟩ := complete_eq_some hle hne hcomplete
  obtain ⟨-, -, hcurLe', hcurNe'⟩ := complete_eq_some hle' hne' hcomplete'
  have hparents : ∀ {cur : List α}, cur ≠ [] → t.parents (n == 2) cur ≠ [] := by
    intro cur hcur hnil
    have hpos := List.length_pos_iff.mpr hcur
    have hlen := @Shape.length_parents _ t (n == 2) cur
    rw [hnil, List.length_nil] at hlen
    omega
  -- The parents of the two nodes stand at one place of the next level.
  have hparent : (t.parents (n == 2) cur)[i / 2 - lo / 2]? =
      (t.parents (n == 2) cur')[i / 2 - lo' / 2]? := by
    have hsome : ∃ w, (t.parents (n == 2) cur)[i / 2 - lo / 2]? = some w := by
      rw [t.getElem?_parents, hz]
      exact ⟨_, rfl⟩
    have hsome' : ∃ w, (t.parents (n == 2) cur')[i / 2 - lo' / 2]? = some w := by
      rw [t.getElem?_parents, hz']
      exact ⟨_, rfl⟩
    obtain ⟨w, hw⟩ := hsome
    obtain ⟨w', hw'⟩ := hsome'
    have hw₁ : nodeAt (lo / 2) (t.parents (n == 2) cur) (i / 2) = some w := by
      rw [nodeAt, if_pos hlo, hw]
    have hw₂ : nodeAt (lo' / 2) (t.parents (n == 2) cur') (i / 2) = some w' := by
      rw [nodeAt, if_pos hlo', hw']
    have hrest : NoCollision t
        (foldInputs t ((n + 1) / 2) (lo / 2) (t.parents (n == 2) cur) rest ++
          foldInputs t ((n + 1) / 2) (lo' / 2) (t.parents (n == 2) cur') rest') :=
      hfree.mono fun a ha => by
        simp only [List.mem_append] at ha ⊢
        tauto
    have hsame := ih ((n + 1) / 2) (by omega) (by rw [t.length_parents]; omega)
      (by rw [t.length_parents]; omega) (hparents hcurNe) (hparents hcurNe') h h' hrest hw₁ hw₂
    rw [hw, hw', hsame]
  have hpair : NoCollision t ((t.inputs cur ++ t.inputs cur').map (n == 2, ·)) :=
    hfree.mono fun a ha => by
      rw [List.map_append] at ha
      simp only [List.mem_append] at ha ⊢
      tauto
  obtain ⟨hfirst, hsecond⟩ := parents_agree hpair (hnone.trans hnone'.symm) hparent hz
  rcases Nat.mod_two_eq_zero_or_one i with heven | hodd
  · rw [heven, Nat.add_zero] at hxcur hycur
    rw [hxcur] at hz
    rw [← hz, hycur] at hfirst
    exact (Option.some.inj hfirst).symm
  · rw [hodd] at hxcur hycur
    rw [hxcur, hycur] at hsecond
    exact Option.some.inj hsecond

end KeryxMiner.RangeTree
