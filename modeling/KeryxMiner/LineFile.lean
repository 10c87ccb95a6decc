import Mathlib.Data.List.Basic

/-!
# Files of lines

A file which values are appended to, one to a line, and which is read line by line; a line that does
not decode is skipped. Appending to a file that is empty or ends with a newline adds whole lines,
however much of the text was written (`LineCodec.readable_append_take`). Behind a line cut short the
next line is glued to it.
-/

namespace KeryxMiner

def newline : UInt8 := 10

/-- The lines of a file that end with a newline, and the rest. -/
def splitLines : List UInt8 → List (List UInt8) × List UInt8
  | [] => ([], [])
  | b :: bytes =>
    if b = newline then ([] :: (splitLines bytes).1, (splitLines bytes).2)
    else
      match splitLines bytes with
      | ([], rest) => ([], b :: rest)
      | (line :: lines, rest) => ((b :: line) :: lines, rest)

/-- The lines of a file, as `BufRead::lines` gives them: without their ends, and without an empty
rest. -/
def fileLines (bytes : List UInt8) : List (List UInt8) :=
  let chomp := fun line : List UInt8 => if line.getLast? = some 13 then line.dropLast else line
  let p := splitLines bytes
  p.1.map chomp ++ if p.2 = [] then [] else [chomp p.2]

/-- The file is empty or ends with a newline. -/
def Terminated (bytes : List UInt8) : Prop := (splitLines bytes).2 = []

instance (bytes : List UInt8) : Decidable (Terminated bytes) := by unfold Terminated; infer_instance

/-- A text of one line for each value: it is read back, and no part of it is read as a value. -/
structure LineCodec (α : Type) where
  encode : α → List UInt8
  decode : List UInt8 → Option α
  encode_ne_nil : ∀ a, encode a ≠ []
  decode_encode : ∀ a, decode (encode a) = some a
  decode_strict_prefix : ∀ bytes tail a, tail ≠ [] → bytes ++ tail = encode a → decode bytes = none
  printable : ∀ a, ∀ b ∈ encode a, 32 ≤ b

variable {bytes bytes' : List UInt8}

/-! ## Splitting -/

theorem splitLines_of_no_newline (h : newline ∉ bytes) : splitLines bytes = ([], bytes) := by
  induction bytes with
  | nil => rfl
  | cons b bytes ih =>
    obtain ⟨hb, h⟩ := not_or.mp (List.mem_cons.not.mp h)
    simp [splitLines, ih h, Ne.symm hb]

theorem splitLines_append_newline (h : newline ∉ bytes) :
    splitLines (bytes ++ newline :: bytes') =
      (bytes :: (splitLines bytes').1, (splitLines bytes').2) := by
  induction bytes with
  | nil => simp [splitLines]
  | cons b bytes ih =>
    obtain ⟨hb, h⟩ := not_or.mp (List.mem_cons.not.mp h)
    simp [splitLines, ih h, Ne.symm hb]

theorem splitLines_append (h : Terminated bytes) : splitLines (bytes ++ bytes') =
    ((splitLines bytes).1 ++ (splitLines bytes').1, (splitLines bytes').2) := by
  induction bytes with
  | nil => simp [splitLines]
  | cons b bytes ih =>
    rw [List.cons_append]
    unfold Terminated at h
    simp only [splitLines] at h ⊢
    split
    · next hb =>
      rw [if_pos hb] at h
      rw [ih h]
      rfl
    · next hb =>
      rw [if_neg hb] at h
      cases hs : splitLines bytes with
      | mk lines rest =>
        cases lines with
        | nil => simp [hs] at h
        | cons line lines =>
          simp only [hs] at h
          rw [ih (by rw [Terminated, hs]; exact h), hs]
          rfl

@[simp] theorem terminated_nil : Terminated [] := rfl

/-! ## Reading -/

namespace LineCodec

variable {α : Type} (C : LineCodec α)

/-- The values in a file: the lines that decode. -/
def readable (bytes : List UInt8) : List α := (fileLines bytes).filterMap C.decode

/-- The text of values, one to a line. -/
def encodeLines (as : List α) : List UInt8 := as.flatMap fun a => C.encode a ++ [newline]

variable {C}

theorem newline_not_mem (a : α) : newline ∉ C.encode a := fun h =>
  absurd (C.printable a _ h) (by decide)

@[simp] theorem readable_nil : C.readable [] = [] := rfl

theorem readable_append (h : Terminated bytes) :
    C.readable (bytes ++ bytes') = C.readable bytes ++ C.readable bytes' := by
  unfold readable fileLines
  unfold Terminated at h
  simp only [splitLines_append h, h, if_true, List.append_nil, List.map_append, List.append_assoc,
    List.filterMap_append]

/-- The text of a value has no end of line to be taken off. -/
theorem getLast?_ne {a : α} {tail : List UInt8} (h : bytes ++ tail = C.encode a) :
    bytes.getLast? ≠ some 13 := fun hl => by
  have hmem : (13 : UInt8) ∈ C.encode a := h ▸ List.mem_append_left _ (List.mem_of_getLast? hl)
  exact absurd (C.printable a _ hmem) (by decide)

/-- What was written of one line: the value, once its text is complete. -/
theorem readable_prefix {a : α} {tail : List UInt8} (h : bytes ++ tail = C.encode a) :
    C.readable bytes = if tail = [] then [a] else [] := by
  have hno : newline ∉ bytes := fun hb => newline_not_mem a (h ▸ List.mem_append_left _ hb)
  simp only [readable, fileLines, splitLines_of_no_newline hno, if_neg (getLast?_ne h),
    List.map_nil, List.nil_append]
  by_cases ht : tail = []
  · subst ht
    rw [List.append_nil] at h
    subst h
    simp [C.encode_ne_nil, C.decode_encode]
  · rw [if_neg ht]
    split <;> simp [C.decode_strict_prefix _ _ _ ht h]

/-- A whole line and what follows it. -/
theorem readable_line (a : α) :
    C.readable (C.encode a ++ newline :: bytes) = a :: C.readable bytes := by
  have hl := getLast?_ne (C := C) (List.append_nil (C.encode a))
  simp only [readable, fileLines, splitLines_append_newline (newline_not_mem a), List.map_cons,
    if_neg hl, List.cons_append, List.filterMap_cons, C.decode_encode]

/-- What was written of several lines: the values whose text is complete. -/
theorem readable_take (as : List α) (n : Nat) :
    ∃ m, C.readable ((C.encodeLines as).take n) = as.take m := by
  induction as generalizing n with
  | nil => exact ⟨0, by simp [encodeLines]⟩
  | cons a as ih =>
    rw [encodeLines, List.flatMap_cons, List.append_assoc, List.singleton_append]
    by_cases hn : n ≤ (C.encode a).length
    · rw [List.take_append_of_le_length hn, readable_prefix (List.take_append_drop n (C.encode a))]
      split
      · exact ⟨1, by simp⟩
      · exact ⟨0, by simp⟩
    · obtain ⟨k, rfl⟩ : ∃ k, n = (C.encode a).length + (k + 1) := ⟨n - (C.encode a).length - 1, by omega⟩
      obtain ⟨m, hm⟩ := ih k
      rw [List.take_length_add_append, List.take_succ_cons, readable_line]
      exact ⟨m + 1, by rw [List.take_succ_cons]; exact congrArg _ hm⟩

theorem readable_encodeLines (as : List α) : C.readable (C.encodeLines as) = as := by
  induction as with
  | nil => rfl
  | cons a as ih =>
    rw [encodeLines, List.flatMap_cons, List.append_assoc, List.singleton_append, readable_line]
    exact congrArg _ ih

end LineCodec

end KeryxMiner
