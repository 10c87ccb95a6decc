import Mathlib.Data.List.Basic

/-!
# Blocks of one length

A list cut into blocks of `n` elements. Blocks put one after the other are the blocks of the whole
(`block_flatMap`, `slice_flatMap`), and a list of full blocks is its blocks one after the other (`flatMap_block`).
-/

namespace KeryxMiner

variable {α : Type} {l : List α} {f : Nat → List α} {i m n : Nat}

/-- Block `i` of a list. -/
def block (n : Nat) (l : List α) (i : Nat) : List α := (l.drop (i * n)).take n

theorem length_block (h : (i + 1) * n ≤ l.length) : (block n l i).length = n := by
  rw [Nat.succ_mul] at h
  rw [block, List.length_take, List.length_drop]
  omega

theorem length_flatMap_range (h : ∀ i < m, (f i).length = n) :
    ((List.range m).flatMap f).length = m * n := by
  induction m with
  | zero => simp
  | succ m ih =>
    have hm := ih fun i hi => h i (Nat.lt_succ_of_lt hi)
    rw [List.range_succ, List.flatMap_append, List.length_append, hm, List.flatMap_singleton,
      h m m.lt_succ_self, Nat.succ_mul]

theorem block_flatMap (h : ∀ i < m, (f i).length = n) (hi : i < m) :
    block n ((List.range m).flatMap f) i = f i := by
  obtain ⟨r, rfl⟩ : ∃ r, m = i + (r + 1) := ⟨m - i - 1, by omega⟩
  have hfirst : ((List.range i).flatMap f).length = i * n :=
    length_flatMap_range fun j hj => h j (by omega)
  rw [List.range_add, List.flatMap_append, block, List.drop_left' hfirst, List.range_succ_eq_map,
    List.map_cons, List.flatMap_cons]
  exact List.take_left' (h i hi)

theorem getElem?_block {j : Nat} (hj : j < n) : (block n l i)[j]? = l[i * n + j]? := by
  rw [block, List.getElem?_take_of_lt hj, List.getElem?_drop]

/-- The blocks of the elements of a list, with anything behind them. -/
theorem block_flatMap_of_getElem? {β : Type} {xs : List β} {x : β} {g : β → List α}
    (h : ∀ x ∈ xs, (g x).length = n) (hx : xs[i]? = some x) (hl : xs.flatMap g <+: l) :
    block n l i = g x ∧ (i + 1) * n ≤ l.length := by
  obtain ⟨rest, rfl⟩ := hl
  induction xs generalizing i with
  | nil => cases hx
  | cons y xs ih =>
    have hy := h y List.mem_cons_self
    rw [List.flatMap_cons, List.append_assoc]
    cases i with
    | zero =>
      cases hx
      rw [block, Nat.zero_mul, List.drop_zero, List.take_left' hy, List.length_append, hy,
        Nat.zero_add, Nat.one_mul]
      exact ⟨rfl, Nat.le_add_right _ _⟩
    | succ i =>
      obtain ⟨hblock, hle⟩ := ih (fun x hx => h x (List.mem_cons_of_mem _ hx)) hx
      rw [Nat.succ_mul, Nat.succ_mul] at *
      rw [block, Nat.succ_mul, Nat.add_comm, ← List.drop_drop, List.drop_left' hy]
      refine ⟨hblock, ?_⟩
      rw [List.length_append, hy]
      omega

/-- Some of the blocks in a row. -/
theorem slice_flatMap {k : Nat} (h : ∀ i < m, (f i).length = n) (hk : i + k ≤ m) :
    (((List.range m).flatMap f).drop (i * n)).take (k * n) = (List.range k).flatMap fun j => f (i + j) := by
  obtain ⟨r, rfl⟩ := Nat.exists_eq_add_of_le hk
  have hfirst : ((List.range i).flatMap f).length = i * n :=
    length_flatMap_range fun j hj => h j (by omega)
  have hmid : ((List.range k).flatMap fun j => f (i + j)).length = k * n :=
    length_flatMap_range fun j hj => h (i + j) (by omega)
  rw [Nat.add_assoc, List.range_add, List.flatMap_append, List.drop_left' hfirst, List.flatMap_map,
    List.range_add, List.flatMap_append, List.take_left' hmid]

/-- The last block may be short. -/
theorem flatMap_block_of_le (h : l.length ≤ m * n) : (List.range m).flatMap (block n l) = l := by
  induction m generalizing l with
  | zero =>
    rw [Nat.zero_mul, Nat.le_zero, List.length_eq_zero_iff] at h
    subst h
    rfl
  | succ m ih =>
    have hrest : (l.drop n).length ≤ m * n := by
      rw [List.length_drop]
      rw [Nat.succ_mul] at h
      omega
    have hblock : (fun i => block n l (i + 1)) = block n (l.drop n) := by
      funext i
      rw [block, block, List.drop_drop, Nat.succ_mul, Nat.add_comm]
    have h0 : block n l 0 = l.take n := by rw [block, Nat.zero_mul, List.drop_zero]
    rw [List.range_succ_eq_map, List.flatMap_cons, List.flatMap_map, hblock, ih hrest, h0,
      List.take_append_drop]

theorem flatMap_block (h : l.length = m * n) : (List.range m).flatMap (block n l) = l :=
  flatMap_block_of_le (Nat.le_of_eq h)

theorem block_zipIdx : block n l.zipIdx i = (block n l i).zipIdx (i * n) := by
  apply List.ext_getElem?
  intro j
  rw [block, block, List.getElem?_take, List.getElem?_zipIdx, List.getElem?_take]
  split
  · rw [List.getElem?_drop, List.getElem?_zipIdx, List.getElem?_drop, Nat.zero_add]
  · rfl

end KeryxMiner
