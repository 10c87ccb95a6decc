import Mathlib.Data.List.Basic

/-!
# Programs that look things up

A program that asks a table for the values at some keys, where later questions can depend on earlier
answers. `Within S` says that it asks for nothing outside `S`, whatever it is answered; then it does
not miss a key in a table that has all of `S` (`run_ne_missing`).
-/

namespace KeryxMiner

inductive Lookups (κ β α : Type) : Type
  | done (a : α)
  | fail
  | ask (k : κ) (next : β → Lookups κ β α)

/-- How a program can fail. -/
inductive Missed (κ : Type)
  /-- It failed by itself. -/
  | failed
  /-- The table has nothing at the key. -/
  | missing (k : κ)

namespace Lookups

variable {κ β α γ : Type}

protected def bind (c : Lookups κ β α) (f : α → Lookups κ β γ) : Lookups κ β γ :=
  match c with
  | done a => f a
  | fail => fail
  | ask k next => ask k fun b => (next b).bind f

instance : Monad (Lookups κ β) where
  pure := done
  bind := Lookups.bind

/-- The value at a key. -/
def get (k : κ) : Lookups κ β β := ask k done

/-- The value of an optional part. -/
def ofOption : Option α → Lookups κ β α
  | some a => done a
  | none => fail

def run (table : κ → Option β) : Lookups κ β α → Except (Missed κ) α
  | done a => .ok a
  | fail => .error .failed
  | ask k next =>
    match table k with
    | some b => (next b).run table
    | none => .error (.missing k)

/-- Only keys in `S` are asked for. -/
def Within (S : κ → Prop) : Lookups κ β α → Prop
  | done _ => True
  | fail => True
  | ask k next => S k ∧ ∀ b, (next b).Within S

variable {S : κ → Prop} {c : Lookups κ β α} {table table' : κ → Option β} {k : κ}

theorem within_pure (a : α) : Within S (pure a : Lookups κ β α) := trivial

theorem within_get (h : S k) : Within S (get k : Lookups κ β β) := ⟨h, fun _ => trivial⟩

theorem within_ofOption (a : Option α) : Within S (ofOption a : Lookups κ β α) := by
  cases a <;> trivial

theorem Within.bind {f : α → Lookups κ β γ} (hc : c.Within S) (hf : ∀ a, (f a).Within S) :
    (c >>= f).Within S := by
  induction c with
  | done a => exact hf a
  | fail => trivial
  | ask k next ih => exact ⟨hc.1, fun b => ih b (hc.2 b)⟩

theorem Within.mono {S' : κ → Prop} (hc : c.Within S) (h : ∀ k, S k → S' k) : c.Within S' := by
  induction c with
  | done a => trivial
  | fail => trivial
  | ask k next ih => exact ⟨h k hc.1, fun b => ih b (hc.2 b)⟩

/-- The programs of a list, one after the other. -/
theorem within_mapM {f : γ → Lookups κ β α} {l : List γ} (h : ∀ x ∈ l, (f x).Within S) :
    (l.mapM' f).Within S := by
  induction l with
  | nil => exact within_pure _
  | cons x l ih =>
    have hx := h x List.mem_cons_self
    have hl := ih fun y hy => h y (List.mem_cons_of_mem _ hy)
    exact hx.bind fun _ => hl.bind fun _ => within_pure _

/-- What is missing was asked for. -/
theorem of_run_missing (hc : c.Within S) (h : c.run table = .error (.missing k)) :
    S k ∧ table k = none := by
  induction c with
  | done a => cases h
  | fail => cases h
  | ask k' next ih =>
    rw [run] at h
    split at h
    · next b _ => exact ih b (hc.2 b) h
    · next hnone =>
      cases h
      exact ⟨hc.1, hnone⟩

/-- A table with all that is asked for misses nothing. -/
theorem run_ne_missing (hc : c.Within S) (h : ∀ k, S k → (table k).isSome) :
    c.run table ≠ .error (.missing k) := by
  intro hrun
  obtain ⟨hk, hnone⟩ := of_run_missing hc hrun
  have hsome := h k hk
  rw [hnone] at hsome
  cases hsome

end Lookups

end KeryxMiner
