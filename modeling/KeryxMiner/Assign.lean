import Mathlib.Data.List.Basic

/-!
# Assignments to the elements of a list

A list of assignments is made one after the other. An element that all assignments to it agree on has
what they assign (`getElem?_assign_of_mem`), and one that none is made to stays.
-/

namespace KeryxMiner

variable {α : Type} {ws : List (Nat × α)} {l : List α} {i : Nat} {a : α}

/-- Makes the assignments, each to the element of its number. -/
def assign (ws : List (Nat × α)) (l : List α) : List α := ws.foldl (fun l w => l.set w.1 w.2) l

@[simp] theorem assign_cons {w : Nat × α} : assign (w :: ws) l = assign ws (l.set w.1 w.2) := rfl

@[simp] theorem length_assign : (assign ws l).length = l.length := by
  induction ws generalizing l with
  | nil => rfl
  | cons w ws ih => rw [assign_cons, ih, List.length_set]

theorem getElem?_assign_of_notMem (h : ∀ w ∈ ws, w.1 ≠ i) : (assign ws l)[i]? = l[i]? := by
  induction ws generalizing l with
  | nil => rfl
  | cons w ws ih =>
    rw [assign_cons, ih fun w' hw' => h w' (List.mem_cons_of_mem _ hw'),
      List.getElem?_set_ne (h w List.mem_cons_self)]

theorem getElem?_assign_of_mem (hi : i < l.length) (hmem : ∃ w ∈ ws, w.1 = i)
    (hall : ∀ w ∈ ws, w.1 = i → w.2 = a) : (assign ws l)[i]? = some a := by
  induction ws generalizing l with
  | nil =>
    obtain ⟨w, hw, -⟩ := hmem
    cases hw
  | cons w ws ih =>
    rw [assign_cons]
    have hrest : ∀ w' ∈ ws, w'.1 = i → w'.2 = a := fun w' hw' => hall w' (List.mem_cons_of_mem _ hw')
    by_cases hlater : ∃ w' ∈ ws, w'.1 = i
    · exact ih (by rw [List.length_set]; exact hi) hlater hrest
    · have hnone : ∀ w' ∈ ws, w'.1 ≠ i := fun w' hw' heq => hlater ⟨w', hw', heq⟩
      obtain ⟨w', hw', heq⟩ := hmem
      rcases List.mem_cons.mp hw' with rfl | hw'
      · rw [getElem?_assign_of_notMem hnone, heq, List.getElem?_set_self hi,
          hall w' List.mem_cons_self heq]
      · exact absurd heq (hnone w' hw')

end KeryxMiner
