import Mathlib.Algebra.BigOperators.Group.Finset.Basic
import Mathlib.Algebra.Order.BigOperators.Group.Finset
import Mathlib.Data.Fintype.Basic

/-!
# Interleavings

Threads that share a state take atomic steps in any order. A step is a function
`step : σ → ε → Option σ`: the event names the thread and what the outside decides, and a step
which is not enabled is refused. An execution is a list of events, oldest first.

`exec_invariant` is the induction rule. `exec_measure` bounds the executions whose steps all lower
a measure; for threads with states of their own the measure is a sum over the threads, in which a
step of one thread changes one term (`sum_update_add`).
-/

namespace KeryxMiner

variable {σ ε : Type} {step : σ → ε → Option σ} {s s' : σ} {evs : List ε}

/-- The state after the events `evs`, if each step is enabled. -/
def exec (step : σ → ε → Option σ) : σ → List ε → Option σ
  | s, [] => some s
  | s, e :: evs => (step s e).bind fun s' => exec step s' evs

theorem exec_cons {e : ε} :
    exec step s (e :: evs) = some s' ↔ ∃ t, step s e = some t ∧ exec step t evs = some s' :=
  Option.bind_eq_some_iff

/-- What every enabled step preserves, every execution preserves. -/
theorem exec_invariant {P : σ → Prop} (hs : ∀ s e s', P s → step s e = some s' → P s') (h0 : P s)
    (h : exec step s evs = some s') : P s' := by
  induction evs generalizing s with
  | nil => cases h; exact h0
  | cons e evs ih =>
    obtain ⟨t, ht, h⟩ := exec_cons.mp h
    exact ih (hs s e t h0 ht) h

/-- An execution whose steps all lower the measure is at most as long as the measure. -/
theorem exec_measure {Q : ε → Prop} {μ : σ → Nat}
    (hs : ∀ s e s', Q e → step s e = some s' → μ s' < μ s) (hQ : ∀ e ∈ evs, Q e)
    (h : exec step s evs = some s') : evs.length + μ s' ≤ μ s := by
  induction evs generalizing s with
  | nil => cases h; simp
  | cons e evs ih =>
    obtain ⟨t, ht, h⟩ := exec_cons.mp h
    have hlt := hs s e t (hQ e (by simp)) ht
    have hle := ih (fun e he => hQ e (by simp [he])) h
    rw [List.length_cons]
    omega

/-! ## Ghost components -/

section

variable {γ : Type} {note : γ → σ → ε → σ → γ} {g g' : γ}

/-- The steps with a ghost component, updated from the state before, the event and the state
after. -/
def withGhost (step : σ → ε → Option σ) (note : γ → σ → ε → σ → γ) (p : σ × γ) (e : ε) :
    Option (σ × γ) :=
  (step p.1 e).map fun s' => (s', note p.2 p.1 e s')

theorem withGhost_eq_some {e : ε} : withGhost step note (s, g) e = some (s', g') ↔
    step s e = some s' ∧ note g s e s' = g' := by
  simp [withGhost]

end

/-! ## A measure of the threads -/

variable {ι α : Type} [Fintype ι]

/-- When thread `i` goes to the state `a`, its term of the sum changes. -/
theorem sum_update_add [DecidableEq ι] (w : α → Nat) (f : ι → α) (i : ι) (a : α) :
    ∑ j, w (Function.update f i a j) + w (f i) = ∑ j, w (f j) + w a := by
  have hothers : ∑ j ∈ Finset.univ.erase i, w (Function.update f i a j) =
      ∑ j ∈ Finset.univ.erase i, w (f j) :=
    Finset.sum_congr rfl fun j hj => by rw [Function.update_of_ne (Finset.ne_of_mem_erase hj)]
  rw [← Finset.add_sum_erase _ _ (Finset.mem_univ i), hothers, Function.update_self,
    ← Finset.add_sum_erase _ (fun j => w (f j)) (Finset.mem_univ i)]
  omega

/-- When every thread changes, and each term grows by `c` at most. -/
theorem sum_le_add_card {w : α → Nat} {f g : ι → α} {c : Nat} (h : ∀ j, w (g j) ≤ w (f j) + c) :
    ∑ j, w (g j) ≤ ∑ j, w (f j) + Fintype.card ι * c := by
  refine (Finset.sum_le_sum fun j _ => h j).trans ?_
  rw [Finset.sum_add_distrib, Finset.sum_const_nat fun _ _ => rfl, Finset.card_univ]

end KeryxMiner
