import Mathlib.Data.List.Basic

/-!
# Text formats

A `Format α` is a printer of values with the parser that accepts exactly what it prints. Formats
are built from smaller ones (`seq`, `before`, `map`); both laws and the printable range of the
characters come with them. What a format prints is never a proper prefix of what it prints
(`parse_strict_prefix`), so a text cut short is not read as another value.
-/

namespace KeryxMiner

/-- A character of printable ASCII. -/
def Printable (c : Char) : Prop := 32 ≤ c.toNat ∧ c.toNat < 127

instance (c : Char) : Decidable (Printable c) := by unfold Printable; infer_instance

/-- A property of the characters of a text is decided on these alone. -/
instance (priority := high) decidableForallChar {p : Char → Prop} [DecidablePred p]
    {cs : List Char} : Decidable (∀ c ∈ cs, p c) := List.decidableBAll p cs

structure Format (α : Type) where
  print : α → List Char
  parse : List Char → Option (α × List Char)
  parse_print : ∀ a rest, parse (print a ++ rest) = some (a, rest)
  print_parse : ∀ cs a rest, parse cs = some (a, rest) → print a ++ rest = cs
  printable : ∀ a, ∀ c ∈ print a, Printable c

namespace Format

variable {α β : Type}

theorem print_inj (f : Format α) {a a' : α} {rest rest' : List Char}
    (h : f.print a ++ rest = f.print a' ++ rest') : a = a' ∧ rest = rest' := by
  have := (f.parse_print a rest).symm.trans (h ▸ f.parse_print a' rest')
  simpa using this

/-- A proper prefix of a printed value is not one. -/
theorem parse_strict_prefix (f : Format α) {a a' : α} {cs tail : List Char} (htail : tail ≠ [])
    (h : cs ++ tail = f.print a) : f.parse cs ≠ some (a', []) := by
  intro hp
  have hcs : f.print a' = cs := by simpa using f.print_parse cs a' [] hp
  have heq : f.print a' ++ tail = f.print a ++ [] := by simpa [hcs] using h
  exact htail (f.print_inj heq).2

/-! ## Formats from formats -/

/-- One value after the other. -/
def seq (f : Format α) (g : Format β) : Format (α × β) where
  print p := f.print p.1 ++ g.print p.2
  parse cs :=
    match f.parse cs with
    | none => none
    | some (a, rest) =>
      match g.parse rest with
      | none => none
      | some (b, rest) => some ((a, b), rest)
  parse_print p rest := by simp [f.parse_print, g.parse_print]
  print_parse cs p rest h := by
    split at h
    · cases h
    · next a rest' ha =>
      split at h
      · cases h
      · next b rest'' hb =>
        cases h
        rw [List.append_assoc, g.print_parse _ _ _ hb, f.print_parse _ _ _ ha]
  printable p c hc := (List.mem_append.mp hc).elim (f.printable _ c) (g.printable _ c)

/-- The rest of a text which starts with `pre`. -/
def stripPrefix (pre cs : List Char) : Option (List Char) :=
  if cs.take pre.length = pre then some (cs.drop pre.length) else none

@[simp] theorem stripPrefix_self_append {pre rest : List Char} :
    stripPrefix pre (pre ++ rest) = some rest := by simp [stripPrefix]

theorem stripPrefix_eq_some {pre cs rest : List Char} (h : stripPrefix pre cs = some rest) :
    cs = pre ++ rest := by
  unfold stripPrefix at h
  split at h
  · next ht =>
    cases h
    conv_lhs => rw [← List.take_append_drop pre.length cs, ht]
  · cases h

/-- A fixed text before the value. -/
def before (pre : String) (hpre : ∀ c ∈ pre.toList, Printable c) (f : Format α) : Format α where
  print a := pre.toList ++ f.print a
  parse cs := (stripPrefix pre.toList cs).bind f.parse
  parse_print a rest := by simp [f.parse_print]
  print_parse cs a rest h := by
    obtain ⟨cs', hs, hf⟩ := Option.bind_eq_some_iff.mp h
    rw [List.append_assoc, f.print_parse _ _ _ hf, stripPrefix_eq_some hs]
  printable a c hc := (List.mem_append.mp hc).elim (hpre c) (f.printable a c)

/-- A fixed text after the value. -/
def after (f : Format α) (post : String) (hpost : ∀ c ∈ post.toList, Printable c) : Format α where
  print a := f.print a ++ post.toList
  parse cs :=
    match f.parse cs with
    | none => none
    | some (a, rest) => (stripPrefix post.toList rest).map (a, ·)
  parse_print a rest := by simp [f.parse_print]
  print_parse cs a rest h := by
    split at h
    · cases h
    · next a' rest' ha =>
      obtain ⟨r, hr, h⟩ := Option.map_eq_some_iff.mp h
      cases h
      rw [List.append_assoc, ← stripPrefix_eq_some hr, f.print_parse _ _ _ ha]
  printable a c hc := (List.mem_append.mp hc).elim (f.printable a c) (hpost c)

/-- The format of a type that is embedded in a printed one. -/
def map (f : Format α) (enc : β → α) (dec : α → Option β) (dec_enc : ∀ b, dec (enc b) = some b)
    (enc_dec : ∀ a b, dec a = some b → enc b = a) : Format β where
  print b := f.print (enc b)
  parse cs :=
    match f.parse cs with
    | none => none
    | some (a, rest) => (dec a).map (·, rest)
  parse_print b rest := by simp [f.parse_print, dec_enc]
  print_parse cs b rest h := by
    split at h
    · cases h
    · next a rest' ha =>
      obtain ⟨b', hb, h⟩ := Option.map_eq_some_iff.mp h
      cases h
      rw [enc_dec a b hb, f.print_parse _ _ _ ha]
  printable b := f.printable (enc b)

/-- A value of the one kind or the other, told apart by how their texts start. -/
def sum (f : Format α) (g : Format β) (h : ∀ b rest, f.parse (g.print b ++ rest) = none) :
    Format (α ⊕ β) where
  print := Sum.elim f.print g.print
  parse cs :=
    match f.parse cs with
    | some (a, rest) => some (.inl a, rest)
    | none => (g.parse cs).map fun p => (.inr p.1, p.2)
  parse_print p rest := by cases p <;> simp [f.parse_print, g.parse_print, h]
  print_parse cs p rest hp := by
    split at hp
    · next a rest' ha => cases hp; exact f.print_parse _ _ _ ha
    · obtain ⟨q, hq, hp⟩ := Option.map_eq_some_iff.mp hp
      cases hp
      exact g.print_parse _ _ _ hq
  printable p := by cases p <;> first | exact f.printable _ | exact g.printable _

/-! ## Numbers, booleans and texts -/

theorem printable_of_isDigit {c : Char} (h : c.isDigit) : Printable c := by
  simp only [Char.isDigit, Bool.and_eq_true, decide_eq_true_eq, ge_iff_le, UInt32.le_iff_toNat_le] at h
  have h1 : 48 ≤ c.toNat := h.1
  have h2 : c.toNat ≤ 57 := h.2
  unfold Printable
  omega

theorem isDigit_of_mem_toDigits {n : Nat} {c : Char} (h : c ∈ Nat.toDigits 10 n) : c.isDigit :=
  Nat.isDigit_of_mem_toDigits (by decide) (by decide) h

theorem takeWhile_toDigits {n : Nat} {stop : Char} {rest : List Char} (h : stop.isDigit = false) :
    (Nat.toDigits 10 n ++ stop :: rest).takeWhile Char.isDigit = Nat.toDigits 10 n := by
  rw [List.takeWhile_append_of_pos fun c => isDigit_of_mem_toDigits]
  simp [h]

/-- A number in decimal, followed by `stop`. -/
def natUntil (stop : Char) (hp : Printable stop) (hd : stop.isDigit = false) : Format Nat where
  print n := Nat.toDigits 10 n ++ [stop]
  parse cs :=
    let digits := cs.takeWhile Char.isDigit
    let n := Nat.ofDigitChars 10 digits 0
    if Nat.toDigits 10 n = digits then (stripPrefix [stop] (cs.drop digits.length)).map (n, ·)
    else none
  parse_print n rest := by
    simp only [List.append_assoc, List.singleton_append, takeWhile_toDigits hd]
    simp [Nat.ofDigitChars_ten_toDigits, stripPrefix]
  print_parse cs n rest h := by
    simp only at h
    split at h
    · next hd =>
      obtain ⟨r, hr, h⟩ := Option.map_eq_some_iff.mp h
      cases h
      have := stripPrefix_eq_some hr
      rw [List.append_assoc, ← this, hd]
      generalize hk : (cs.takeWhile Char.isDigit) = ds
      obtain ⟨t, rfl⟩ : ds <+: cs := hk ▸ List.takeWhile_prefix _
      simp
    · cases h
  printable n c hc := by
    rcases List.mem_append.mp hc with hc | hc
    · exact printable_of_isDigit (isDigit_of_mem_toDigits hc)
    · cases List.mem_singleton.mp hc
      exact hp

/-- `true` or `false`. -/
def bool : Format Bool where
  print b := if b then "true".toList else "false".toList
  parse cs :=
    match stripPrefix "true".toList cs with
    | some rest => some (true, rest)
    | none => (stripPrefix "false".toList cs).map (false, ·)
  parse_print b rest := by cases b <;> simp [stripPrefix]
  print_parse cs b rest h := by
    split at h
    · next hs => cases h; simpa using (stripPrefix_eq_some hs).symm
    · obtain ⟨r, hr, h⟩ := Option.map_eq_some_iff.mp h
      cases h
      simpa using (stripPrefix_eq_some hr).symm
  printable b := by cases b <;> decide

/-- What `n` printed values in a row are read as. -/
def parseMany (f : Format α) : Nat → List Char → Option (List α × List Char)
  | 0, cs => some ([], cs)
  | n + 1, cs =>
    match f.parse cs with
    | none => none
    | some (a, rest) => (parseMany f n rest).map fun p => (a :: p.1, p.2)

theorem parseMany_flatMap (f : Format α) (l : List α) (rest : List Char) :
    f.parseMany l.length (l.flatMap f.print ++ rest) = some (l, rest) := by
  induction l with
  | nil => rfl
  | cons a l ih => simp [parseMany, f.parse_print, ih]

theorem flatMap_parseMany (f : Format α) {n : Nat} {cs : List Char} {l : List α} {rest : List Char}
    (h : f.parseMany n cs = some (l, rest)) : l.length = n ∧ l.flatMap f.print ++ rest = cs := by
  induction n generalizing cs l with
  | zero => cases h; exact ⟨rfl, rfl⟩
  | succ n ih =>
    unfold parseMany at h
    split at h
    · cases h
    · next a rest' ha =>
      obtain ⟨p, hp, h⟩ := Option.map_eq_some_iff.mp h
      cases h
      obtain ⟨h1, h2⟩ := ih hp
      exact ⟨by simp [h1], by
        rw [List.flatMap_cons, List.append_assoc, h2, f.print_parse _ _ _ ha]⟩

/-- A list behind its length. -/
def list (f : Format α) : Format (List α) where
  print l := (natUntil ':' (by decide) rfl).print l.length ++ l.flatMap f.print
  parse cs :=
    match (natUntil ':' (by decide) rfl).parse cs with
    | none => none
    | some (n, rest) => f.parseMany n rest
  parse_print l rest := by
    rw [List.append_assoc, (natUntil ..).parse_print]
    exact f.parseMany_flatMap l rest
  print_parse cs l rest h := by
    split at h
    · cases h
    · next n rest' hn =>
      obtain ⟨h1, h2⟩ := f.flatMap_parseMany h
      rw [List.append_assoc, h1, h2, (natUntil ..).print_parse _ _ _ hn]
  printable l c hc := by
    rcases List.mem_append.mp hc with hc | hc
    · exact (natUntil ..).printable _ c hc
    · obtain ⟨a, _, ha⟩ := List.mem_flatMap.mp hc
      exact f.printable a c ha

/-- A character that stands for itself between quotes. -/
def Plain (c : Char) : Prop := Printable c ∧ c ≠ '"' ∧ c ≠ '\\'

instance (c : Char) : Decidable (Plain c) := by unfold Plain; infer_instance

/-- A text in quotes. -/
def quoted : Format {cs : List Char // ∀ c ∈ cs, Plain c} where
  print cs := '"' :: cs.1 ++ ['"']
  parse cs :=
    match stripPrefix ['"'] cs with
    | none => none
    | some rest =>
      (stripPrefix ['"'] (rest.dropWhile fun c => decide (Plain c))).map fun r =>
        (⟨rest.takeWhile fun c => decide (Plain c), fun c hc => by
          have := List.all_eq_true.mp (List.all_takeWhile (p := fun c => decide (Plain c)) (l := rest)) c hc
          simpa using this⟩, r)
  parse_print cs rest := by
    have h : stripPrefix ['"'] ('"' :: cs.1 ++ ['"'] ++ rest) = some (cs.1 ++ '"' :: rest) := by
      simp [stripPrefix]
    have hall : ∀ c ∈ cs.1, decide (Plain c) = true := fun c hc => by simpa using cs.2 c hc
    have hq : decide (Plain '"') = false := rfl
    rw [h]
    simp [List.takeWhile_append_of_pos hall, List.dropWhile_append_of_pos hall, hq, stripPrefix]
  print_parse cs l rest h := by
    split at h
    · cases h
    · next r hr =>
      obtain ⟨t, ht, h⟩ := Option.map_eq_some_iff.mp h
      cases h
      have h1 := stripPrefix_eq_some hr
      have h2 := stripPrefix_eq_some ht
      conv_rhs => rw [h1, ← List.takeWhile_append_dropWhile (p := fun c => decide (Plain c)) (l := r), h2]
      simp
  printable cs c hc := by
    simp only [List.cons_append, List.mem_cons, List.mem_append, List.not_mem_nil, or_false] at hc
    rcases hc with rfl | hc | rfl
    · decide
    · exact (cs.2 c hc).1
    · decide

theorem printable_comma : Printable ',' := by decide

theorem isDigit_comma : ','.isDigit = false := rfl

/-- A character by its number. -/
def charCode : Format Char :=
  (natUntil ',' printable_comma isDigit_comma).map Char.toNat
    (fun n => if (Char.ofNat n).toNat = n then some (Char.ofNat n) else none) (by simp) (by
      intro n c h
      split at h
      · next hn => cases h; exact hn
      · cases h)

theorem quoted_bracket (cs rest : List Char) :
    quoted.parse ((charCode.list.before "[" (by decide)).print cs ++ rest) = none := by
  simp [quoted, before, stripPrefix]

/-- A text: in quotes when all its characters are plain, else by character numbers. -/
def text : Format String :=
  (quoted.sum (charCode.list.before "[" (by decide)) quoted_bracket).map
    (fun s => if h : ∀ c ∈ s.toList, Plain c then .inl ⟨s.toList, h⟩ else .inr s.toList)
    (fun
      | .inl cs => some (String.ofList cs.1)
      | .inr cs => if ∀ c ∈ cs, Plain c then none else some (String.ofList cs))
    (by
      intro s
      by_cases h : ∀ c ∈ s.toList, Plain c
      · simp [dif_pos h]
      · simp [h])
    (by
      rintro (cs | cs) s h
      · cases h
        simpa using cs.2
      · simp only at h
        split at h
        · cases h
        · next hn =>
          cases h
          simp [hn])

/-- `null` or a number. -/
def optNatUntil (stop : Char) (hp : Printable stop) (hd : stop.isDigit = false) : Format (Option Nat) :=
  let null : Format Unit := {
    print _ := ['n', 'u', 'l', 'l', stop]
    parse cs := (stripPrefix ['n', 'u', 'l', 'l', stop] cs).map ((), ·)
    parse_print _ rest := by rw [stripPrefix_self_append]; rfl
    print_parse cs u rest h := by
      obtain ⟨r, hr, h⟩ := Option.map_eq_some_iff.mp h
      cases h
      exact (stripPrefix_eq_some hr).symm
    printable _ c hc := by
      simp only [List.mem_cons, List.not_mem_nil, or_false] at hc
      rcases hc with rfl | rfl | rfl | rfl | rfl <;> first | exact hp | decide }
  (null.sum (natUntil stop hp hd) fun n rest => by
    have hne : Nat.toDigits 10 n ≠ [] := Nat.toDigits_ne_nil
    obtain ⟨d, ds, hds⟩ := List.exists_cons_of_ne_nil hne
    have hdig : d.isDigit := isDigit_of_mem_toDigits (n := n) (by simp [hds])
    have hn : d ≠ 'n' := by rintro rfl; exact absurd hdig (by decide)
    simp [null, natUntil, hds, stripPrefix, hn]).map
    (fun o => o.elim (.inl ()) .inr)
    (fun p => some (p.elim (fun _ => none) some))
    (by rintro (_ | n) <;> rfl)
    (by rintro (_ | n) o h <;> cases h <;> rfl)

end Format

end KeryxMiner
