import KeryxMiner.LittleEndian

/-!
# Readers

A reader takes a value from the front of some bytes and leaves the rest; it can fail. The readers
here take a given number of bytes, a little-endian number or a list of a given length. What is read
where the bytes of a value stand is the value, whatever comes behind (`run_take`, `run_le`,
`run_many`); an exact reader reads only what a writer writes (`Exact`, part by part with
`Exact.andThen`); and a local reader does not look at the bytes behind what it reads (`Local`).
-/

namespace KeryxMiner

abbrev Reader (α : Type) := StateT (List UInt8) Option α

namespace Reader

variable {α : Type}

def fail : Reader α := fun _ => none

def take (n : Nat) : Reader (List UInt8) := fun bytes =>
  if n ≤ bytes.length then some (bytes.take n, bytes.drop n) else none

/-- A little-endian number of `n` bytes. -/
def le (n : Nat) : Reader Nat := do return ofLe (← take n)

/-- `n` values, one after the other. -/
def many (r : Reader α) : Nat → Reader (List α)
  | 0 => return []
  | n + 1 => do
    let a ← r
    let as ← many r n
    return a :: as

/-- The value that all of the bytes are, if they are one. -/
def all (r : Reader α) (bytes : List UInt8) : Option α :=
  match r.run bytes with
  | some (a, []) => some a
  | _ => none

variable {r : Reader α} {bytes rest : List UInt8} {n : Nat}

/-- After a value that is where it should be, the rest is read. -/
theorem run_bind {β : Type} {f : α → Reader β} {a : α} (h : r.run bytes = some (a, rest)) :
    (r >>= f).run bytes = (f a).run rest := by
  simp [h]

theorem run_take (h : bytes.length = n) : (take n).run (bytes ++ rest) = some (bytes, rest) := by
  subst h
  rw [StateT.run, take, if_pos (by rw [List.length_append]; omega), List.take_left, List.drop_left]

@[simp] theorem run_le {k : Nat} (h : k < 256 ^ n) :
    (le n).run (toLe n k ++ rest) = some (k, rest) := by
  simp [le, run_take, ofLe_toLe h]

@[simp] theorem run_many {put : α → List UInt8} {as : List α}
    (h : ∀ a ∈ as, ∀ rest, r.run (put a ++ rest) = some (a, rest)) :
    (many r as.length).run (as.flatMap put ++ rest) = some (as, rest) := by
  induction as with
  | nil => rfl
  | cons a as ih =>
    have ha := h a List.mem_cons_self
    have has := ih fun b hb => h b (List.mem_cons_of_mem _ hb)
    simp [many, ha, has]

theorem all_eq_some_iff {a : α} : all r bytes = some a ↔ r.run bytes = some (a, []) := by
  rw [all]
  split
  · next b h => rw [h]; simp
  · next h =>
    refine iff_of_false (by simp) ?_
    intro hrun
    exact h a hrun

/-! ## Exact readers -/

/-- What `r` reads satisfies `P`, from the bytes that `put` writes for it. -/
def Exact (r : Reader α) (put : α → List UInt8) (P : α → Prop) : Prop :=
  ∀ ⦃bytes a rest⦄, r.run bytes = some (a, rest) → P a ∧ bytes = put a ++ rest

theorem run_bind_eq_some {β : Type} {f : α → Reader β} {b : β} :
    (r >>= f).run bytes = some (b, rest) ↔
      ∃ a mid, r.run bytes = some (a, mid) ∧ (f a).run mid = some (b, rest) := by
  rw [StateT.run_bind, Option.bind_eq_bind, Option.bind_eq_some_iff]
  exact Prod.exists

theorem exact_take : (take n).Exact id (·.length = n) := by
  intro bytes b rest h
  rw [StateT.run, take] at h
  split at h
  · next hle =>
    cases h
    exact ⟨List.length_take_of_le hle, (List.take_append_drop n bytes).symm⟩
  · cases h

theorem exact_le : (le n).Exact (toLe n) (· < 256 ^ n) := by
  intro bytes k rest h
  obtain ⟨b, mid, hb, hk⟩ := run_bind_eq_some.mp h
  cases hk
  obtain ⟨rfl, rfl⟩ := exact_take hb
  refine ⟨ofLe_lt b, ?_⟩
  rw [toLe_ofLe]
  rfl

theorem exact_many {put : α → List UInt8} {P : α → Prop} (hr : r.Exact put P) :
    (many r n).Exact (·.flatMap put) fun as => as.length = n ∧ ∀ a ∈ as, P a := by
  induction n with
  | zero =>
    intro bytes as rest h
    cases h
    exact ⟨⟨rfl, nofun⟩, rfl⟩
  | succ n ih =>
    intro bytes as rest h
    simp only [many, run_bind_eq_some] at h
    obtain ⟨a, mid, ha, as', mid', has, h⟩ := h
    cases h
    obtain ⟨hP, rfl⟩ := hr ha
    obtain ⟨⟨hlen, hall⟩, rfl⟩ := ih has
    refine ⟨⟨by rw [List.length_cons, hlen], ?_⟩, ?_⟩
    · exact List.forall_mem_cons.mpr ⟨hP, hall⟩
    · show _ = (a :: as').flatMap put ++ rest
      rw [List.flatMap_cons, List.append_assoc]

/-- With the bytes `pre` in front, what `r` reads is what `put` writes; the rule for a reader of several
parts has the parts read so far in `pre`. -/
def ExactAfter (pre : List UInt8) (r : Reader α) (put : α → List UInt8) (P : α → Prop) : Prop :=
  ∀ ⦃bytes a rest⦄, r.run bytes = some (a, rest) → P a ∧ pre ++ bytes = put a ++ rest

section

variable {β : Type} {pre : List UInt8} {f : α → Reader β} {put : α → List UInt8} {P : α → Prop}
  {put' : β → List UInt8} {Q : β → Prop} {a : α}

theorem ExactAfter.exact (h : ExactAfter [] r put P) : r.Exact put P := h

theorem Exact.andThen (hr : r.Exact put P) (h : ∀ a, P a → ExactAfter (pre ++ put a) (f a) put' Q) :
    ExactAfter pre (r >>= f) put' Q := by
  intro bytes b rest hrun
  obtain ⟨a, mid, ha, hf⟩ := run_bind_eq_some.mp hrun
  obtain ⟨hP, rfl⟩ := hr ha
  obtain ⟨hQ, hbytes⟩ := h a hP hf
  refine ⟨hQ, ?_⟩
  rw [← List.append_assoc, hbytes]

/-- The last part. -/
theorem Exact.after {Q : α → Prop} {put' : α → List UInt8} (hr : r.Exact put P)
    (h : ∀ a, P a → Q a ∧ pre ++ put a = put' a) : ExactAfter pre r put' Q := by
  intro bytes a rest hrun
  obtain ⟨hP, rfl⟩ := hr hrun
  obtain ⟨hQ, hput⟩ := h a hP
  refine ⟨hQ, ?_⟩
  rw [← List.append_assoc, hput]

theorem exactAfter_pure (hP : P a) (h : pre = put a) : ExactAfter pre (pure a) put P := by
  intro bytes b rest hrun
  cases hrun
  exact ⟨hP, congrArg (· ++ bytes) h⟩

theorem exactAfter_fail : ExactAfter pre fail put P := by
  intro bytes a rest hrun
  cases hrun

end

/-! ## Local readers -/

/-- What `r` reads is the same whatever stands behind it. -/
def Local (r : Reader α) : Prop :=
  ∀ ⦃bytes a rest⦄, r.run bytes = some (a, rest) →
    ∃ read, bytes = read ++ rest ∧ ∀ rest', r.run (read ++ rest') = some (a, rest')

theorem local_pure (a : α) : Local (pure a) := by
  intro bytes b rest h
  cases h
  exact ⟨[], rfl, fun _ => rfl⟩

theorem local_fail : Local (fail : Reader α) := by
  intro bytes a rest h
  cases h

theorem local_take : Local (take n) := by
  intro bytes b rest h
  obtain ⟨hlen, rfl⟩ := exact_take h
  exact ⟨b, rfl, fun rest' => run_take hlen⟩

theorem Local.bind {β : Type} {f : α → Reader β} (hr : Local r) (hf : ∀ a, Local (f a)) :
    Local (r >>= f) := by
  intro bytes b rest h
  obtain ⟨a, mid, ha, hb⟩ := run_bind_eq_some.mp h
  obtain ⟨front, rfl, hfront⟩ := hr ha
  obtain ⟨back, rfl, hback⟩ := hf a hb
  refine ⟨front ++ back, (List.append_assoc ..).symm, fun rest' => ?_⟩
  rw [List.append_assoc]
  exact run_bind_eq_some.mpr ⟨a, _, hfront _, hback rest'⟩

theorem Local.map {β : Type} {f : α → β} (hr : Local r) : Local (f <$> r) := by
  rw [map_eq_pure_bind]
  exact hr.bind fun a => local_pure (f a)

theorem local_le : Local (le n) := local_take.bind fun b => local_pure (ofLe b)

end Reader

end KeryxMiner
