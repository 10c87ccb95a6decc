import Mathlib.Data.List.Basic

/-!
# Runs of a deterministic machine

A machine is a function `step : σ → ε → σ`; what the outside world decides (a message, a clock
reading, the outcome of a write) is part of the event. A run is a list of events, oldest first.

`Meets` says that every step of a run satisfies a condition on the state before it and on its
event, and `run_invariant` is the induction rule for such runs. `instrument` adds a ghost component
which remembers what the machine itself forgets; it does not change the run (`run_instrument_fst`).
-/

namespace KeryxMiner

variable {σ ε γ : Type} {step : σ → ε → σ} {C D : σ → ε → Prop} {s : σ} {evs : List ε}

/-- The state after the events `evs`. -/
def run (step : σ → ε → σ) (s : σ) (evs : List ε) : σ := evs.foldl step s

@[simp] theorem run_nil : run step s [] = s := rfl

@[simp] theorem run_cons {e : ε} : run step s (e :: evs) = run step (step s e) evs := rfl

@[simp] theorem run_concat {e : ε} : run step s (evs ++ [e]) = step (run step s evs) e := by
  simp [run]

/-- Every step of the run satisfies `C` of the state before it and its event. -/
def Meets (step : σ → ε → σ) (C : σ → ε → Prop) : σ → List ε → Prop
  | _, [] => True
  | s, e :: evs => C s e ∧ Meets step C (step s e) evs

namespace Meets

instance decidable [∀ s e, Decidable (C s e)] : ∀ s evs, Decidable (Meets step C s evs)
  | _, [] => inferInstanceAs (Decidable True)
  | s, e :: evs =>
    have := decidable (step s e) evs
    inferInstanceAs (Decidable (C s e ∧ Meets step C (step s e) evs))

@[simp] theorem nil : Meets step C s [] := trivial

@[simp] theorem cons {e : ε} :
    Meets step C s (e :: evs) ↔ C s e ∧ Meets step C (step s e) evs := .rfl

theorem append {evs' : List ε} : Meets step C s (evs ++ evs') ↔
    Meets step C s evs ∧ Meets step C (run step s evs) evs' := by
  induction evs generalizing s with
  | nil => simp
  | cons e evs ih => simp [ih, and_assoc]

theorem concat {e : ε} : Meets step C s (evs ++ [e]) ↔
    Meets step C s evs ∧ C (run step s evs) e := by simp [append]

theorem mono (h : ∀ s e, C s e → D s e) (H : Meets step C s evs) : Meets step D s evs := by
  induction evs generalizing s with
  | nil => trivial
  | cons e evs ih => exact ⟨h _ _ H.1, ih H.2⟩

theorem and (H : Meets step C s evs) (H' : Meets step D s evs) :
    Meets step (fun s e => C s e ∧ D s e) s evs := by
  induction evs generalizing s with
  | nil => trivial
  | cons e evs ih => exact ⟨⟨H.1, H'.1⟩, ih H.2 H'.2⟩

/-- A condition on the events alone. -/
theorem of_forall {C : ε → Prop} (h : ∀ e ∈ evs, C e) : Meets step (fun _ e => C e) s evs := by
  induction evs generalizing s with
  | nil => trivial
  | cons e evs ih => exact ⟨h e (by simp), ih fun e' he' => h e' (by simp [he'])⟩

/-- What holds of every step of every run is what holds at the end of every prefix. -/
theorem iff_prefix : Meets step C s evs ↔
    ∀ pre e post, evs = pre ++ e :: post → C (run step s pre) e := by
  constructor
  · rintro H pre e post rfl
    exact ((append.mp H).2).1
  · intro H
    induction evs generalizing s with
    | nil => trivial
    | cons e evs ih =>
      refine ⟨H [] e evs rfl, ih fun pre e' post h => ?_⟩
      exact H (e :: pre) e' post (by simp [h])

end Meets

/-- The induction rule of runs: what one step preserves, every run preserves. -/
theorem run_invariant {P : σ → Prop} (hs : ∀ s e, C s e → P s → P (step s e)) (h0 : P s)
    (H : Meets step C s evs) : P (run step s evs) := by
  induction evs generalizing s with
  | nil => exact h0
  | cons e evs ih => exact ih (hs s e H.1 h0) H.2

/-- `run_invariant` for a machine which keeps `P` whatever the event is. -/
theorem run_invariant_of_step {P : σ → Prop} (hs : ∀ s e, P s → P (step s e)) (h0 : P s) :
    P (run step s evs) :=
  run_invariant (C := fun _ _ => True) (fun s e _ => hs s e) h0
    (Meets.of_forall (C := fun _ => True) fun _ _ => trivial)

/-- An invariant that one step of a restricted run needs is there at every step of it. -/
theorem Meets.with_invariant {P : σ → Prop} (hs : ∀ s e, C s e → P s → P (step s e)) (h0 : P s)
    (H : Meets step C s evs) : Meets step (fun s e => C s e ∧ P s) s evs := by
  induction evs generalizing s with
  | nil => trivial
  | cons e evs ih => exact ⟨⟨H.1, h0⟩, ih (hs s e H.1 h0) H.2⟩

/-- A run of one machine is seen as a run of another one. -/
theorem Meets.map {τ δ : Type} {step' : τ → δ → τ} {D : τ → δ → Prop} {f : σ → τ} {k : ε → δ}
    (hstep : ∀ s e, f (step s e) = step' (f s) (k e)) (h : ∀ s e, C s e → D (f s) (k e))
    (H : Meets step C s evs) : Meets step' D (f s) (evs.map k) := by
  induction evs generalizing s with
  | nil => trivial
  | cons e evs ih => exact ⟨h s e H.1, hstep s e ▸ ih H.2⟩

/-! ## Ghost components -/

/-- The machine with a ghost component, updated from the state before, the event and the state
after. -/
def instrument (step : σ → ε → σ) (note : γ → σ → ε → σ → γ) (p : σ × γ) (e : ε) : σ × γ :=
  (step p.1 e, note p.2 p.1 e (step p.1 e))

variable {note : γ → σ → ε → σ → γ} {g : γ}

@[simp] theorem run_instrument_fst :
    (run (instrument step note) (s, g) evs).1 = run step s evs := by
  induction evs generalizing s g with
  | nil => rfl
  | cons e evs ih => exact ih

theorem Meets.instrument (H : Meets step C s evs) :
    Meets (KeryxMiner.instrument step note) (fun p e => C p.1 e) (s, g) evs := by
  induction evs generalizing s g with
  | nil => trivial
  | cons e evs ih => exact ⟨H.1, ih H.2⟩

/-- What concerns the machine alone. -/
theorem Meets.of_instrument
    (H : Meets (KeryxMiner.instrument step note) (fun p e => C p.1 e) (s, g) evs) :
    Meets step C s evs := by
  induction evs generalizing s g with
  | nil => trivial
  | cons e evs ih => exact ⟨H.1, ih H.2⟩

end KeryxMiner
