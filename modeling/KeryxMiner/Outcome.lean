import Mathlib.Data.List.Forall2

/-!
# Outcomes of checks

A check that can fail in several ways is a value of `Except ε α`. `Ends E P` says that it ends in a
value with `P` or in an error with `E`, so that an error outside `E` cannot be the outcome
(`Ends.ne_error`). Sequences of checks are followed with `Ends.bind`; a single condition is checked
by `refuse`.
-/

namespace KeryxMiner

variable {ε α β : Type} {E : ε → Prop} {P : α → Prop} {Q : β → Prop} {r : Except ε α} {a : α} {e : ε}

/-- The value has `P`, or the error has `E`. -/
def Ends (E : ε → Prop) (P : α → Prop) : Except ε α → Prop
  | .ok a => P a
  | .error e => E e

namespace Ends

theorem pure (h : P a) : Ends E P (Pure.pure a) := h

theorem bind {f : α → Except ε β} (hr : Ends E P r) (hf : ∀ a, P a → Ends E Q (f a)) :
    Ends E Q (r >>= f) := by
  cases r with
  | ok a => exact hf a hr
  | error e => exact hr

theorem bind_ok {f : α → Except ε β} (h : r = .ok a) (hf : Ends E Q (f a)) : Ends E Q (r >>= f) := by
  rw [h]
  exact hf

theorem mono {P' : α → Prop} (h : Ends E P r) (hP : ∀ a, P a → P' a) : Ends E P' r := by
  cases r with
  | ok a => exact hP a h
  | error e => exact h

theorem mono_error {E' : ε → Prop} (h : Ends E P r) (hE : ∀ e, E e → E' e) : Ends E' P r := by
  cases r with
  | ok a => exact h
  | error e => exact hE e h

/-- The outcome is no error outside `E`. -/
theorem ne_error (h : Ends E P r) (he : ¬ E e) : r ≠ .error e := by
  rintro rfl
  exact he h

end Ends

/-- Ends in `e` if `bad` holds. -/
def refuse (bad : Prop) [Decidable bad] (e : ε) : Except ε Unit :=
  if bad then .error e else .ok ()

variable {bad : Prop} [Decidable bad]

theorem refuse_of_not (h : ¬ bad) : refuse bad e = .ok () := if_neg h

theorem refuse_eq_ok : refuse bad e = .ok () ↔ ¬ bad := by
  rw [refuse]
  split
  · next h => simp [h]
  · next h => simp [h]

theorem ends_refuse (h : bad → E e) : Ends E (fun _ => ¬ bad) (refuse bad e) := by
  rw [refuse]
  split
  · next hbad => exact h hbad
  · next hbad => exact hbad

/-- A check behind others passes if they all do. -/
theorem bind_eq_ok {f : α → Except ε β} {b : β} :
    (r >>= f) = .ok b ↔ ∃ a, r = .ok a ∧ f a = .ok b := by
  cases r with
  | ok a =>
    constructor
    · intro h
      exact ⟨a, rfl, h⟩
    · rintro ⟨a', ⟨⟩, h⟩
      exact h
  | error e =>
    refine iff_of_false nofun ?_
    rintro ⟨a, ⟨⟩, -⟩

theorem bind_of_ok {f : α → Except ε β} (h : r = .ok a) : (r >>= f) = f a := by
  rw [h]
  rfl

theorem refuse_bind_eq_ok {f : Unit → Except ε β} {b : β} :
    (refuse bad e >>= f) = .ok b ↔ ¬bad ∧ f () = .ok b := by
  rw [bind_eq_ok]
  constructor
  · rintro ⟨⟨⟩, hbad, h⟩
    exact ⟨refuse_eq_ok.mp hbad, h⟩
  · rintro ⟨hbad, h⟩
    exact ⟨(), refuse_of_not hbad, h⟩

/-- Checks one behind the other pass if each does. -/
theorem mapM'_eq_ok {f : α → Except ε β} {l : List α} {l' : List β} :
    l.mapM' f = .ok l' ↔ List.Forall₂ (fun a b => f a = .ok b) l l' := by
  induction l generalizing l' with
  | nil =>
    constructor
    · rintro ⟨⟩
      exact .nil
    · rintro ⟨⟩
      rfl
  | cons a l ih =>
    simp only [List.mapM'_cons, bind_eq_ok, ih]
    constructor
    · rintro ⟨b, hb, bs, hbs, ⟨⟩⟩
      exact .cons hb hbs
    · rintro (_ | ⟨hb, hbs⟩)
      exact ⟨_, hb, _, hbs, rfl⟩

/-- Checks that pass exactly where `P` holds. -/
theorem mapM'_eq_ok_iff {f : α → Except ε β} {P : α → Prop} {g : α → β} {l : List α} {l' : List β}
    (h : ∀ a ∈ l, ∀ b, f a = .ok b ↔ P a ∧ b = g a) :
    l.mapM' f = .ok l' ↔ (∀ a ∈ l, P a) ∧ l' = l.map g := by
  rw [mapM'_eq_ok]
  induction l generalizing l' with
  | nil => simp
  | cons a l ih =>
    have ih := fun l' => @ih l' fun a' ha' => h a' (List.mem_cons_of_mem _ ha')
    constructor
    · rintro (_ | ⟨hb, hbs⟩)
      obtain ⟨hP, rfl⟩ := (h a List.mem_cons_self _).mp hb
      obtain ⟨hPs, rfl⟩ := (ih _).mp hbs
      exact ⟨List.forall_mem_cons.mpr ⟨hP, hPs⟩, rfl⟩
    · rintro ⟨hP, rfl⟩
      obtain ⟨hP, hPs⟩ := List.forall_mem_cons.mp hP
      exact .cons ((h a List.mem_cons_self _).mpr ⟨hP, rfl⟩) ((ih _).mpr ⟨hPs, rfl⟩)

/-- The value of an optional part, or the error `e`. -/
def orFail (a : Option α) (e : ε) : Except ε α :=
  match a with
  | some a => .ok a
  | none => .error e

theorem orFail_eq_ok {o : Option α} : orFail o e = .ok a ↔ o = some a := by
  cases o with
  | none => exact iff_of_false nofun nofun
  | some b => simp [orFail]

end KeryxMiner
