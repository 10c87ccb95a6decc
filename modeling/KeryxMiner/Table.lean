import Mathlib.Data.List.AList

/-!
# Maps over association lists

What a Rust `HashMap` does in `iter_mut` and `retain`, on Mathlib's association lists: `mapVals`
changes the values and `keep` drops entries. `lookup_mapVals` and `lookup_keep` are all that the
users of the two need.
-/

namespace KeryxMiner.Table

variable {α β γ : Type} [DecidableEq α]

/-- The values changed one by one. -/
def mapVals (f : α → β → γ) (t : AList fun _ : α => β) : AList fun _ : α => γ where
  entries := t.entries.map fun e => ⟨e.1, f e.1 e.2⟩
  nodupKeys := t.nodupKeys.map₂ f _

/-- The entries with `p`. -/
def keep (p : α → β → Bool) (t : AList fun _ : α => β) : AList fun _ : α => β where
  entries := t.entries.filter fun e => p e.1 e.2
  nodupKeys := t.nodupKeys.sublist List.filter_sublist

variable {t : AList fun _ : α => β} {k : α} {v : β}

theorem mem_entries : (⟨k, v⟩ : Sigma fun _ : α => β) ∈ t.entries ↔ t.lookup k = some v :=
  AList.mem_lookup_iff.symm

@[simp] theorem lookup_mapVals {f : α → β → γ} : (mapVals f t).lookup k = (t.lookup k).map (f k) := by
  cases h : t.lookup k with
  | none =>
    simp only [Option.map_none, AList.lookup_eq_none, AList.mem_keys] at h ⊢
    simpa [mapVals, AList.keys, List.keys] using h
  | some v =>
    refine AList.mem_lookup_iff.mpr (List.mem_map.mpr ⟨⟨k, v⟩, mem_entries.mpr h, rfl⟩)

theorem lookup_keep {p : α → β → Bool} :
    (keep p t).lookup k = some v ↔ t.lookup k = some v ∧ p k v = true := by
  refine AList.mem_lookup_iff.trans ?_
  simp only [keep, List.mem_filter]
  rw [mem_entries]

theorem lookup_insert_eq_some {k' : α} {v' : β} : (t.insert k v).lookup k' = some v' ↔
    k' = k ∧ v' = v ∨ k' ≠ k ∧ t.lookup k' = some v' := by
  by_cases h : k' = k
  · subst h
    simp [eq_comm]
  · simp [AList.lookup_insert_ne h, h]

theorem lookup_erase_eq_some {k' : α} : (t.erase k).lookup k' = some v ↔
    k' ≠ k ∧ t.lookup k' = some v := by
  by_cases h : k' = k
  · subst h
    simp
  · simp [AList.lookup_erase_ne h, h]

end KeryxMiner.Table
