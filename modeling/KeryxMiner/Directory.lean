import KeryxMiner.Table

/-!
# Directories

The files of one directory by their names, with the operations on a whole file. A process can die
between any two of them. `Table.ofPairs` is the map that inserting some pairs one by one makes.
-/

namespace KeryxMiner

namespace Table

variable {α β : Type} [DecidableEq α]

/-- The pairs inserted one after the other. -/
def ofPairs (l : List (α × β)) : AList fun _ : α => β := l.foldl (fun t e => t.insert e.1 e.2) ∅

theorem lookup_foldl_insert {l : List (α × β)} (h : l.Pairwise fun e e' => e.1 ≠ e'.1)
    {t : AList fun _ : α => β} {k : α} {v : β} :
    (l.foldl (fun t e => t.insert e.1 e.2) t).lookup k = some v ↔
      (k, v) ∈ l ∨ ((∀ e ∈ l, e.1 ≠ k) ∧ t.lookup k = some v) := by
  induction l generalizing t with
  | nil => simp
  | cons e l ih =>
    obtain ⟨hfirst, hrest⟩ := List.pairwise_cons.mp h
    rw [List.foldl_cons, ih hrest, List.mem_cons, List.forall_mem_cons]
    by_cases hk : e.1 = k
    · subst hk
      rw [AList.lookup_insert, Option.some.injEq]
      constructor
      · rintro (hmem | ⟨-, rfl⟩)
        · exact .inl (.inr hmem)
        · exact .inl (.inl rfl)
      · rintro ((heq | hmem) | ⟨⟨hne, -⟩, -⟩)
        · exact .inr ⟨fun e' he' => (hfirst e' he').symm, (congrArg Prod.snd heq).symm⟩
        · exact .inl hmem
        · exact absurd rfl hne
    · rw [AList.lookup_insert_ne (Ne.symm hk)]
      constructor
      · rintro (hmem | ⟨hne, hlookup⟩)
        · exact .inl (.inr hmem)
        · exact .inr ⟨⟨hk, hne⟩, hlookup⟩
      · rintro ((heq | hmem) | ⟨⟨-, hne⟩, hlookup⟩)
        · exact absurd (congrArg Prod.fst heq).symm hk
        · exact .inl hmem
        · exact .inr ⟨hne, hlookup⟩

theorem lookup_ofPairs {l : List (α × β)} (h : l.Pairwise fun e e' => e.1 ≠ e'.1) {k : α} {v : β} :
    (ofPairs l).lookup k = some v ↔ (k, v) ∈ l := by
  rw [ofPairs, lookup_foldl_insert h, AList.lookup_empty]
  simp

end Table

/-- The files of a directory. -/
abbrev Directory (Name Data : Type) := AList fun _ : Name => Data

namespace Directory

variable {Name Data : Type} [DecidableEq Name] {d : Directory Name Data} {name src dst : Name}
  {names : List Name} {data : Data}

/-- `fs::write`. -/
def write (d : Directory Name Data) (name : Name) (data : Data) : Directory Name Data :=
  d.insert name data

/-- `fs::rename`, which replaces a file of the new name. -/
def rename (d : Directory Name Data) (src dst : Name) : Directory Name Data :=
  match d.lookup src with
  | some data => (d.erase src).insert dst data
  | none => d

/-- `fs::remove_file` of some names, one after the other. -/
def removeAll (d : Directory Name Data) (names : List Name) : Directory Name Data :=
  names.foldl (fun d name => d.erase name) d

theorem lookup_removeAll :
    (d.removeAll names).lookup name = some data ↔ d.lookup name = some data ∧ name ∉ names := by
  rw [removeAll]
  induction names generalizing d with
  | nil => simp
  | cons first names ih =>
    rw [List.foldl_cons, ih, List.mem_cons, not_or]
    by_cases hname : name = first
    · subst hname
      simp [AList.lookup_erase]
    · rw [AList.lookup_erase_ne hname]
      tauto

/-- A file that is written under another name first. -/
theorem lookup_write_rename :
    ((d.write src data).rename src dst).lookup name =
      if name = dst then some data else if name = src then none else d.lookup name := by
  rw [rename, write, AList.lookup_insert]
  dsimp only
  split
  · next h => rw [h, AList.lookup_insert]
  · next h =>
    rw [AList.lookup_insert_ne h]
    split
    · next hsrc => rw [hsrc, AList.lookup_erase]
    · next hsrc => rw [AList.lookup_erase_ne hsrc, AList.lookup_insert_ne hsrc]

end Directory

end KeryxMiner
