import Mathlib.Data.List.Basic

/-!
# Walks that read

A loop with a state and an address: at each step it reads what is at the address, and from what it
read come the next address and the next state. `run` is the loop as programs have it, with a
`fetch` that can fail and has a state of its own; `draws` are the addresses and `last` is the state
at the end where a total function says what is read. A run whose fetches read right at the addresses
drawn is the pure walk (`run_of_draws`), and a run all of whose fetches read right has drawn those
addresses (`draws_of_run`).
-/

namespace KeryxMiner

/-- What a walk does at step `i` with what it has read. -/
structure ReadWalk (S A T : Type) where
  advance : (i : Nat) → S → T → S
  next : (i : Nat) → S → T → A → A

namespace ReadWalk

variable {S A T σ ε : Type} (w : ReadWalk S A T)

/-- `n` steps from step `i` on. -/
def run (fetch : σ → Nat → A → Except ε (σ × T)) : (n i : Nat) → σ → S → A → Except ε (σ × S)
  | 0, _, f, s, _ => .ok (f, s)
  | n + 1, i, f, s, a =>
    match fetch f i a with
    | .error e => .error e
    | .ok (f, t) => run fetch n (i + 1) f (w.advance i s t) (w.next i s t a)

variable (read : Nat → A → T)

def draws : (n i : Nat) → S → A → List A
  | 0, _, _, _ => []
  | n + 1, i, s, a => a :: draws n (i + 1) (w.advance i s (read i a)) (w.next i s (read i a) a)

def last : (n i : Nat) → S → A → S
  | 0, _, s, _ => s
  | n + 1, i, s, a => last n (i + 1) (w.advance i s (read i a)) (w.next i s (read i a) a)

variable {w read} {fetch : σ → Nat → A → Except ε (σ × T)} {n i : Nat} {s : S} {a : A}

@[simp] theorem length_draws : (w.draws read n i s a).length = n := by
  induction n generalizing i s a with
  | zero => rfl
  | succ n ih => rw [draws, List.length_cons, ih]

/-- With fetches that read right at the addresses drawn, and that do `push` to their own state. -/
theorem run_of_draws (read : Nat → A → T) (push : σ → A → σ) {f : σ}
    (h : ∀ f j b, (w.draws read n i s a)[j]? = some b →
      fetch f (i + j) b = .ok (push f b, read (i + j) b)) :
    w.run fetch n i f s a = .ok ((w.draws read n i s a).foldl push f, w.last read n i s a) := by
  induction n generalizing i s a f with
  | zero => rfl
  | succ n ih =>
    have hfetch : fetch f i a = .ok (push f a, read i a) := h f 0 a rfl
    rw [run, hfetch, draws, List.foldl_cons, last]
    apply ih
    intro f j b hb
    have hj : i + 1 + j = i + (j + 1) := by omega
    rw [hj]
    exact h f (j + 1) b hb

/-- From a run whose every fetch reads right. -/
theorem draws_of_run (read : Nat → A → T) (P : Nat → A → Prop) {f f' : σ} {s' : S}
    (h : ∀ f j b f' t, fetch f j b = .ok (f', t) → t = read j b ∧ P j b)
    (hrun : w.run fetch n i f s a = .ok (f', s')) :
    s' = w.last read n i s a ∧ ∀ j b, (w.draws read n i s a)[j]? = some b → P (i + j) b := by
  induction n generalizing i s a f with
  | zero =>
    cases hrun
    exact ⟨rfl, fun j b hb => by simp [draws] at hb⟩
  | succ n ih =>
    rw [run] at hrun
    cases hfetch : fetch f i a with
    | error e => simp [hfetch] at hrun
    | ok p =>
      obtain ⟨f₁, t⟩ := p
      obtain ⟨rfl, hP⟩ := h f i a f₁ t hfetch
      simp only [hfetch] at hrun
      obtain ⟨hlast, hdraws⟩ := ih hrun
      refine ⟨hlast, ?_⟩
      rintro (- | j) b hb
      · cases hb
        exact hP
      · have hj : i + (j + 1) = i + 1 + j := by omega
        rw [hj]
        exact hdraws j b hb

/-- Reading the same at the addresses drawn, two walks are one. -/
theorem draws_congr (read' : Nat → A → T)
    (h : ∀ j b, (w.draws read n i s a)[j]? = some b → read (i + j) b = read' (i + j) b) :
    w.draws read n i s a = w.draws read' n i s a ∧ w.last read n i s a = w.last read' n i s a := by
  induction n generalizing i s a with
  | zero => exact ⟨rfl, rfl⟩
  | succ n ih =>
    have hread : read i a = read' i a := h 0 a rfl
    have hrest := ih (i := i + 1) (s := w.advance i s (read i a)) (a := w.next i s (read i a) a) <| by
      intro j b hb
      have hj : i + 1 + j = i + (j + 1) := by omega
      rw [hj]
      exact h (j + 1) b hb
    rw [draws, draws, last, last, ← hread, hrest.1, hrest.2]
    exact ⟨rfl, rfl⟩

/-- Addresses meet what the first one and every next one meets. -/
theorem draws_forall {P : Nat → A → Prop} (h0 : P i a)
    (hnext : ∀ j s t b, j + 1 < i + n → P (j + 1) (w.next j s t b)) :
    ∀ j b, (w.draws read n i s a)[j]? = some b → P (i + j) b := by
  induction n generalizing i s a with
  | zero => intro j b hb; simp [draws] at hb
  | succ n ih =>
    rintro (- | j) b hb
    · cases hb
      exact h0
    · have hn : 0 < n := by
        have hlt := (List.getElem?_eq_some_iff.mp hb).1
        rw [length_draws] at hlt
        omega
      have hj : i + (j + 1) = i + 1 + j := by omega
      rw [hj]
      apply ih (hnext _ _ _ _ (by omega)) _ j b hb
      intro k s t c hk
      exact hnext k s t c (by omega)

end ReadWalk

end KeryxMiner
