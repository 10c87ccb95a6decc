import Mathlib.Data.List.Forall2
import KeryxMiner.LittleEndian

/-!
# Bytes that tell what they stand for

`Tells x y P` says that two encodings with anything behind them cannot start alike unless `P` holds
of what they stand for, and that what stands behind them is then the same. Fields of one length tell
what their bytes do, and encodings one behind the other tell what each of them does; a list tells
its elements if its length is known (`tells_concat`) or written in front of it (`tells_counted`).
-/

namespace KeryxMiner

variable {α β : Type} {x y x' y' : List α} {P Q : Prop}

/-- Whatever follows them, `x` and `y` start alike only if `P` holds. -/
def Tells (x y : List α) (P : Prop) : Prop := ∀ r s, x ++ r = y ++ s → P ∧ r = s

namespace Tells

theorem of_eq (h : Tells x y P) (hxy : x = y) : P := (h [] [] (by rw [hxy])).1

theorem mono (h : Tells x y P) (hPQ : P → Q) : Tells x y Q := by
  intro r s hrs
  obtain ⟨hP, hrest⟩ := h r s hrs
  exact ⟨hPQ hP, hrest⟩

theorem of_length (hlen : x.length = y.length) (h : x = y → P) : Tells x y P := by
  intro r s hrs
  obtain ⟨hxy, hrest⟩ := List.append_inj hrs hlen
  exact ⟨h hxy, hrest⟩

theorem nil (h : P) : Tells ([] : List α) [] P := of_length rfl fun _ => h

/-- What stands first can be used for what follows. -/
theorem append (h : Tells x y P) (h' : P → Tells x' y' Q) : Tells (x ++ x') (y ++ y') (P ∧ Q) := by
  intro r s hrs
  rw [List.append_assoc, List.append_assoc] at hrs
  obtain ⟨hP, hrest⟩ := h _ _ hrs
  obtain ⟨hQ, hend⟩ := h' hP _ _ hrest
  exact ⟨⟨hP, hQ⟩, hend⟩

end Tells

/-- The encodings of a list one behind the other, if all elements have one. -/
def concat (f : β → Option (List α)) : List β → Option (List α)
  | [] => some []
  | b :: bs => do
    let x ← f b
    let xs ← concat f bs
    some (x ++ xs)

section

variable {f : β → Option (List α)} {R : β → β → Prop} {bs bs' : List β} {b : β}

theorem concat_cons : concat f (b :: bs) = some x ↔
    ∃ x₁ x₂, f b = some x₁ ∧ concat f bs = some x₂ ∧ x = x₁ ++ x₂ := by
  simp only [concat, Option.bind_eq_bind, Option.bind_eq_some_iff, Option.some_inj]
  constructor
  · rintro ⟨x₁, h₁, x₂, h₂, rfl⟩
    exact ⟨x₁, x₂, h₁, h₂, rfl⟩
  · rintro ⟨x₁, x₂, h₁, h₂, rfl⟩
    exact ⟨x₁, h₁, x₂, h₂, rfl⟩

theorem exists_concat (h : ∀ b ∈ bs, ∃ x, f b = some x) : ∃ x, concat f bs = some x := by
  induction bs with
  | nil => exact ⟨[], rfl⟩
  | cons b bs ih =>
    obtain ⟨hb, hbs⟩ := List.forall_mem_cons.mp h
    obtain ⟨x₁, h₁⟩ := hb
    obtain ⟨x₂, h₂⟩ := ih hbs
    exact ⟨x₁ ++ x₂, concat_cons.mpr ⟨x₁, x₂, h₁, h₂, rfl⟩⟩

theorem tells_concat (hlen : bs.length = bs'.length)
    (htells : ∀ b ∈ bs, ∀ b' ∈ bs', ∀ x x', f b = some x → f b' = some x' → Tells x x' (R b b'))
    (hx : concat f bs = some x) (hy : concat f bs' = some y) : Tells x y (List.Forall₂ R bs bs') := by
  induction bs generalizing bs' x y with
  | nil =>
    obtain rfl := List.eq_nil_of_length_eq_zero hlen.symm
    cases hx
    cases hy
    exact .nil .nil
  | cons b bs ih =>
    cases bs' with
    | nil => cases hlen
    | cons b' bs' =>
      obtain ⟨x₁, x₂, hx₁, hx₂, rfl⟩ := concat_cons.mp hx
      obtain ⟨y₁, y₂, hy₁, hy₂, rfl⟩ := concat_cons.mp hy
      have hfirst := htells b List.mem_cons_self b' List.mem_cons_self x₁ y₁ hx₁ hy₁
      have hrest := ih (Nat.succ.inj hlen)
        (fun c hc c' hc' => htells c (List.mem_cons_of_mem _ hc) c' (List.mem_cons_of_mem _ hc')) hx₂ hy₂
      exact (hfirst.append fun _ => hrest).mono fun h => .cons h.1 h.2

end

section

variable {f : β → Option (List UInt8)} {R : β → β → Prop} {bs bs' : List β} {n m m' : Nat}
  {x y : List UInt8}

theorem tells_toLe (hm : m < 256 ^ n) (hm' : m' < 256 ^ n) :
    Tells (toLe n m) (toLe n m') (m = m') := by
  refine .of_length (by rw [length_toLe, length_toLe]) ?_
  intro h
  have hnum := congrArg ofLe h
  rwa [ofLe_toLe hm, ofLe_toLe hm'] at hnum

/-- A list behind its length. -/
theorem tells_counted (hbs : bs.length < 256 ^ n) (hbs' : bs'.length < 256 ^ n)
    (htells : ∀ b ∈ bs, ∀ b' ∈ bs', ∀ x x', f b = some x → f b' = some x' → Tells x x' (R b b'))
    (hx : concat f bs = some x) (hy : concat f bs' = some y) :
    Tells (toLe n bs.length ++ x) (toLe n bs'.length ++ y) (List.Forall₂ R bs bs') :=
  ((tells_toLe hbs hbs').append fun hlen => tells_concat hlen htells hx hy).mono And.right

end

end KeryxMiner
