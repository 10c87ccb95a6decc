import KeryxMiner.Wire

/-!
# Borsh

A field-by-field encoding: numbers in little-endian, arrays bare, lists behind their length in four
bytes, optional values behind a flag, records as their fields in order. Only values whose lists fit
their length can be put (`Fits`), and `get` takes back what `put` wrote, whatever comes behind it.
A reader that extends another one never agrees with it on the end of the bytes
(`Extends.not_both`).
-/

namespace KeryxMiner

class Borsh (α : Type) where
  /-- The bytes of a value, none if it has a list that is too long. -/
  put : α → Option (List UInt8)
  get : Reader α
  Fits : α → Prop
  isSome_put {a : α} : Fits a → (put a).isSome
  run_put {a : α} {bytes : List UInt8} :
    put a = some bytes → ∀ rest, get.run (bytes ++ rest) = some (a, rest)

namespace Borsh

open Reader

variable {α β σ : Type}

instance : Borsh UInt8 where
  put a := some (toLe 1 a.toNat)
  get := do return UInt8.ofNat (← le 1)
  Fits _ := True
  isSome_put _ := rfl
  run_put := by
    rintro a bytes ⟨⟩ rest
    simp [a.toNat_lt]

instance : Borsh UInt32 where
  put a := some (toLe 4 a.toNat)
  get := do return UInt32.ofNat (← le 4)
  Fits _ := True
  isSome_put _ := rfl
  run_put := by
    rintro a bytes ⟨⟩ rest
    simp [a.toNat_lt]

instance : Borsh UInt64 where
  put a := some (toLe 8 a.toNat)
  get := do return UInt64.ofNat (← le 8)
  Fits _ := True
  isSome_put _ := rfl
  run_put := by
    rintro a bytes ⟨⟩ rest
    simp [a.toNat_lt]

def getArray (n : Nat) : Reader (Vector UInt8 n) := do
  let b ← take n
  if h : b.length = n then return ⟨b.toArray, by simpa using h⟩ else fail

instance {n : Nat} : Borsh (Vector UInt8 n) where
  put a := some a.toList
  get := getArray n
  Fits _ := True
  isSome_put _ := rfl
  run_put := by
    rintro a bytes ⟨⟩ rest
    simp [getArray, run_take, Vector.toArray_toList]

def putAll [Borsh α] : List α → Option (List UInt8)
  | [] => some []
  | a :: as => do return (← put a) ++ (← putAll as)

theorem isSome_putAll [Borsh α] {as : List α} (h : ∀ a ∈ as, Fits a) : (putAll as).isSome := by
  induction as with
  | nil => rfl
  | cons a as ih =>
    obtain ⟨bytes, hput⟩ := Option.isSome_iff_exists.mp (isSome_put (h a List.mem_cons_self))
    have hall := ih fun b hb => h b (List.mem_cons_of_mem _ hb)
    obtain ⟨all, hall⟩ := Option.isSome_iff_exists.mp hall
    simp [putAll, hput, hall]

theorem run_putAll [Borsh α] {as : List α} {bytes : List UInt8} (h : putAll as = some bytes)
    (rest : List UInt8) : (many get as.length).run (bytes ++ rest) = some (as, rest) := by
  induction as generalizing bytes with
  | nil =>
    cases h
    rfl
  | cons a as ih =>
    simp only [putAll, Option.bind_eq_bind, Option.bind_eq_some_iff, Option.pure_def,
      Option.some.injEq] at h
    obtain ⟨first, hput, others, hall, rfl⟩ := h
    simp [many, run_put hput, ih hall]

instance [Borsh α] : Borsh (List α) where
  put as := if as.length < 2 ^ 32 then (toLe 4 as.length ++ ·) <$> putAll as else none
  get := do many get (← le 4)
  Fits as := as.length < 2 ^ 32 ∧ ∀ a ∈ as, Fits a
  isSome_put := by
    rintro as ⟨hlen, hfits⟩
    rw [if_pos hlen]
    simpa using isSome_putAll hfits
  run_put := by
    intro as bytes h rest
    split at h
    · next hlen =>
      obtain ⟨all, hall, rfl⟩ := Option.map_eq_some_iff.mp h
      rw [List.append_assoc, run_bind (run_le hlen)]
      exact run_putAll hall rest
    · cases h

/-- The value behind a flag. -/
def getFlagged [Borsh α] (flag : UInt8) : Reader (Option α) :=
  match flag with
  | 0 => return none
  | 1 => return some (← get)
  | _ => fail

instance [Borsh α] : Borsh (Option α) where
  put
    | none => put (0 : UInt8)
    | some a => do return (← put (1 : UInt8)) ++ (← put a)
  get := do getFlagged (← get)
  Fits a := ∀ x ∈ a, Fits x
  isSome_put := by
    intro a h
    cases a with
    | none => rfl
    | some a =>
      obtain ⟨bytes, hput⟩ := Option.isSome_iff_exists.mp (isSome_put (h a rfl))
      simp [hput, put]
  run_put := by
    intro a bytes h rest
    cases a with
    | none =>
      have hflag := run_put (a := (0 : UInt8)) h rest
      rw [run_bind hflag]
      rfl
    | some a =>
      simp only [Option.bind_eq_bind, Option.bind_eq_some_iff, Option.pure_def,
        Option.some.injEq] at h
      obtain ⟨flag, hflag, value, hput, rfl⟩ := h
      rw [List.append_assoc, run_bind (run_put hflag _)]
      simp [getFlagged, run_put hput]

instance [Borsh α] [Borsh β] : Borsh (α × β) where
  put p := do return (← put p.1) ++ (← put p.2)
  get := do return (← get, ← get)
  Fits p := Fits p.1 ∧ Fits p.2
  isSome_put := by
    rintro p ⟨hfst, hsnd⟩
    obtain ⟨first, hfst⟩ := Option.isSome_iff_exists.mp (isSome_put hfst)
    obtain ⟨second, hsnd⟩ := Option.isSome_iff_exists.mp (isSome_put hsnd)
    simp [hfst, hsnd]
  run_put := by
    intro p bytes h rest
    simp only [Option.bind_eq_bind, Option.bind_eq_some_iff, Option.pure_def,
      Option.some.injEq] at h
    obtain ⟨first, hfst, second, hsnd, rfl⟩ := h
    simp [run_put hfst, run_put hsnd]

/-- A record, encoded as the tuple of its fields. -/
abbrev record [Borsh β] (fields : α → β) (mk : β → α) (h : ∀ a, mk (fields a) = a) : Borsh α where
  put a := put (fields a)
  get := mk <$> get
  Fits a := Fits (fields a)
  isSome_put ha := isSome_put ha
  run_put := by
    intro a bytes ha rest
    simp [run_put ha, h a]

instance : Borsh Int32 := record (·.toUInt32) (·.toInt32) fun _ => Int32.toInt32_toUInt32 _

def fromSlice [Borsh α] (bytes : List UInt8) : Option α := all get bytes

theorem fromSlice_put [Borsh α] {a : α} {bytes : List UInt8} (h : put a = some bytes) :
    fromSlice bytes = some a := by
  have hrun := run_put h []
  rw [List.append_nil] at hrun
  exact all_eq_some_iff.mpr hrun

/-- Where `long` reads a value, `short` reads one too and leaves something behind. -/
def Extends (long : Reader α) (short : Reader β) : Prop :=
  ∀ bytes a rest, long.run bytes = some (a, rest) →
    ∃ b left, short.run bytes = some (b, left) ∧ left ≠ []

namespace Extends

variable {γ : Type} {long : Reader α} {mid : Reader β} {short : Reader γ}

theorem trans (h : Extends long mid) (h' : Extends mid short) : Extends long short := by
  intro bytes a rest hlong
  obtain ⟨b, left, hmid, -⟩ := h bytes a rest hlong
  exact h' bytes b left hmid

theorem not_both (h : Extends long short) (bytes : List UInt8) :
    all long bytes = none ∨ all short bytes = none := by
  rw [or_iff_not_imp_left]
  intro hlong
  obtain ⟨a, ha⟩ := Option.ne_none_iff_exists'.mp hlong
  obtain ⟨b, left, hshort, hleft⟩ := h bytes a [] (all_eq_some_iff.mp ha)
  rw [Option.eq_none_iff_forall_ne_some]
  intro c hc
  have hend := all_eq_some_iff.mp hc
  rw [hshort] at hend
  exact hleft (congrArg (·.2) (Option.some.inj hend))

/-- An optional value is never read from no bytes. -/
theorem ne_nil_of_option [Borsh σ] {bytes rest : List UInt8} {s : Option σ}
    (h : (get : Reader (Option σ)).run bytes = some (s, rest)) : bytes ≠ [] := by
  rintro rfl
  cases h

/-- A record with one more optional field at its end. -/
theorem of_option [Borsh β] [Borsh σ] (mk : β × Option σ → α) :
    Extends (mk <$> (get : Reader (β × Option σ))) (get : Reader β) := by
  intro bytes a rest h
  rw [StateT.run_map] at h
  obtain ⟨⟨⟨b, s⟩, rest'⟩, hpair, -⟩ := Option.map_eq_some_iff.mp h
  have hbind : ((get : Reader β) >>= fun b => (get : Reader (Option σ)) >>= fun s =>
    pure (b, s)).run bytes = some ((b, s), rest') := hpair
  simp only [StateT.run_bind, Option.bind_eq_bind, Option.bind_eq_some_iff] at hbind
  obtain ⟨⟨b', left⟩, hb, ⟨s', rest''⟩, hs, -⟩ := hbind
  exact ⟨b', left, hb, ne_nil_of_option hs⟩

end Extends

/-- Where no two decoders both succeed, their order does not matter. -/
theorem findSome?_perm {f : β → Option α} {l l' : List β} (hperm : l'.Perm l)
    (h : l.Pairwise fun a b => f a = none ∨ f b = none) : l'.findSome? f = l.findSome? f := by
  induction hperm with
  | nil => rfl
  | cons a _ ih =>
    rw [List.pairwise_cons] at h
    simp only [List.findSome?_cons, ih h.2]
  | swap a b l =>
    have hab : f a = none ∨ f b = none := by
      rw [List.pairwise_cons] at h
      exact h.1 b List.mem_cons_self
    rcases hab with ha | hb
    · simp [List.findSome?_cons, ha]
    · simp [List.findSome?_cons, hb]
  | trans _ hperm ih ih' =>
    have hmid := hperm.symm.pairwise h fun hab => hab.symm
    rw [ih hmid, ih' h]

end Borsh

end KeryxMiner
