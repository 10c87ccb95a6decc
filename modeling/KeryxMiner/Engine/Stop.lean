import Mathlib.Order.Bounds.Lattice
import Mathlib.Order.Interval.Set.Basic

/-!
# Stop strings

An answer is scanned for stop strings each time a piece arrives, over the end of the output that the
piece may have completed a stop string in. Nothing further back is missed (`findStop_iff`), so the
answer ends at the first piece that completes one, cut before the earliest (`stops_right`). Empty
stop strings are passed over.
-/

namespace KeryxMiner.Engine

/-! ## The earliest place -/

/-- `cut` is the least of the places `T`, and there are none without it. -/
def Earliest (T : Set Nat) : Option Nat → Prop
  | none => T = ∅
  | some c => IsLeast T c

/-- The earlier of two places, of which either may be missing. -/
def earlier : Option Nat → Option Nat → Option Nat
  | cut, none => cut
  | none, some pos => some pos
  | some c, some pos => some (min c pos)

namespace Earliest

variable {T U : Set Nat} {cut pos : Option Nat} {c : Nat}

theorem union (h : Earliest T cut) (h' : Earliest U pos) : Earliest (T ∪ U) (earlier cut pos) := by
  cases pos with
  | none =>
    have hU : U = ∅ := h'
    rw [hU, Set.union_empty]
    cases cut <;> exact h
  | some p =>
    cases cut with
    | none =>
      have hT : T = ∅ := h
      rw [hT, Set.empty_union]
      exact h'
    | some c => exact IsLeast.union h h'

theorem eq_some_iff (h : Earliest T cut) : cut = some c ↔ IsLeast T c := by
  cases cut with
  | none =>
    have hT : T = ∅ := h
    subst hT
    exact ⟨nofun, fun hc => hc.1.elim⟩
  | some c' =>
    have hc' : IsLeast T c' := h
    exact ⟨fun hc => Option.some.inj hc ▸ hc', fun hc => congrArg some (hc'.unique hc)⟩

theorem eq_none_iff (h : Earliest T cut) : cut = none ↔ T = ∅ := by
  cases cut with
  | none => exact ⟨fun _ => h, fun _ => rfl⟩
  | some c =>
    have hc : IsLeast T c := h
    exact ⟨nofun, fun hT => (hT ▸ hc.1 : c ∈ (∅ : Set Nat)).elim⟩

theorem shift (start : Nat) (h : Earliest T pos) :
    Earliest {i | ∃ j ∈ T, i = start + j} (pos.map (start + ·)) := by
  cases pos with
  | none =>
    have hT : T = ∅ := h
    subst hT
    apply Set.eq_empty_of_forall_notMem
    intro i ⟨j, hj, _⟩
    exact hj
  | some p =>
    refine ⟨⟨p, h.1, rfl⟩, ?_⟩
    intro i ⟨j, hj, hi⟩
    rw [hi]
    exact Nat.add_le_add_left (h.2 hj) start

end Earliest

/-! ## The scan -/

/-- The first window of `hay` that is `pat`. -/
def windowPosition (pat hay : List UInt8) : Option Nat :=
  (List.range (hay.length + 1 - pat.length)).find? fun i => (hay.drop i).take pat.length = pat

/-- Length of the longest stop string, if there are any. -/
def maxStop (stops : List (List UInt8)) : Option Nat := (stops.map List.length).max?

/-- Where `pat` makes the cut, with `hay` from `start` on. -/
def patPosition (start : Nat) (hay pat : List UInt8) : Option Nat :=
  if pat.isEmpty || hay.length < pat.length then none
  else (windowPosition pat hay).map (start + ·)

def findStop (out : List UInt8) (appended : Nat) (stops : List (List UInt8)) : Option Nat := do
  let maxStop ← maxStop stops
  let start := out.length - (appended + (maxStop - 1))
  let hay := out.drop start
  stops.foldl (fun cut pat => earlier cut (patPosition start hay pat)) none

/-- The output of `generate` from `out` on, with the pieces that are sampled. -/
def generate (stops : List (List UInt8)) : List UInt8 → List (List UInt8) → List UInt8
  | out, [] => out
  | out, piece :: pieces =>
    match findStop (out ++ piece) piece.length stops with
    | some cut => (out ++ piece).take cut
    | none => generate stops (out ++ piece) pieces

/-! ## Places of stop strings -/

/-- Where a stop string starts in `out`. -/
def stopStarts (stops : List (List UInt8)) (out : List UInt8) : Set Nat :=
  {i | ∃ pat ∈ stops, pat ≠ [] ∧ pat <+: out.drop i}

variable {stops : List (List UInt8)} {out piece hay pat : List UInt8} {start i cut : Nat}

theorem le_length_of_prefix (hpat : pat ≠ []) (h : pat <+: hay.drop i) :
    i + pat.length ≤ hay.length := by
  have hle : pat.length ≤ (hay.drop i).length := h.length_le
  have hpos : 0 < pat.length := List.length_pos_iff.mpr hpat
  rw [List.length_drop] at hle
  omega

theorem windowPosition_earliest (hay : List UInt8) (hpat : pat ≠ []) :
    Earliest {i | pat <+: hay.drop i} (windowPosition pat hay) := by
  have hwindow : ∀ i, pat <+: hay.drop i ↔
      i < hay.length + 1 - pat.length ∧ (hay.drop i).take pat.length = pat := by
    intro i
    rw [List.prefix_iff_eq_take, eq_comm]
    constructor
    · intro h
      have hle := le_length_of_prefix hpat (List.prefix_iff_eq_take.mpr h.symm)
      exact ⟨by omega, h⟩
    · exact And.right
  cases hfind : windowPosition pat hay with
  | none =>
    rw [windowPosition, List.find?_eq_none] at hfind
    apply Set.eq_empty_of_forall_notMem
    intro i hi
    obtain ⟨hlt, htake⟩ := (hwindow i).mp hi
    exact hfind i (List.mem_range.mpr hlt) (decide_eq_true htake)
  | some i =>
    rw [windowPosition, List.find?_range_eq_some] at hfind
    obtain ⟨htake, hlt, hfirst⟩ := hfind
    refine ⟨(hwindow i).mpr ⟨List.mem_range.mp hlt, of_decide_eq_true htake⟩, ?_⟩
    intro j hj
    by_contra hji
    have hnot := hfirst j (by omega)
    rw [((hwindow j).mp hj).2] at hnot
    simp at hnot

/-- A stop string's cut is its earliest start in the window. -/
theorem patPosition_earliest (start : Nat) (out pat : List UInt8) :
    Earliest {i | start ≤ i ∧ pat ≠ [] ∧ pat <+: out.drop i}
    (patPosition start (out.drop start) pat) := by
  have hshift : ∀ i, start ≤ i → out.drop i = (out.drop start).drop (i - start) := by
    intro i hi
    rw [List.drop_drop, Nat.add_sub_cancel' hi]
  unfold patPosition
  split
  · next hskip =>
    apply Set.eq_empty_of_forall_notMem
    intro i ⟨hi, hpat, hstarts⟩
    rw [hshift i hi] at hstarts
    have hle := le_length_of_prefix hpat hstarts
    rw [Bool.or_eq_true, List.isEmpty_iff, decide_eq_true_iff] at hskip
    rcases hskip with hempty | hlong
    · exact hpat hempty
    · omega
  · next hskip =>
    have hpat : pat ≠ [] := by
      rintro rfl
      exact hskip rfl
    have hwindow := (windowPosition_earliest (out.drop start) hpat).shift start
    convert hwindow using 1
    ext i
    constructor
    · intro ⟨hi, _, hstarts⟩
      rw [hshift i hi] at hstarts
      exact ⟨i - start, hstarts, (Nat.add_sub_cancel' hi).symm⟩
    · rintro ⟨j, hj, rfl⟩
      refine ⟨Nat.le_add_right .., hpat, ?_⟩
      rw [hshift _ (Nat.le_add_right ..), Nat.add_sub_cancel_left]
      exact hj

theorem foldl_earliest (start : Nat) (out : List UInt8) (stops : List (List UInt8)) {T : Set Nat}
    {cut : Option Nat} (h : Earliest T cut) :
    Earliest (T ∪ {i | start ≤ i ∧ i ∈ stopStarts stops out})
      (stops.foldl (fun cut pat => earlier cut (patPosition start (out.drop start) pat)) cut) := by
  induction stops generalizing T cut with
  | nil =>
    have hnone : {i | start ≤ i ∧ i ∈ stopStarts [] out} = ∅ := by
      ext i
      simp [stopStarts]
    rw [hnone, Set.union_empty]
    exact h
  | cons pat stops ih =>
    have hrest := ih (h.union (patPosition_earliest start out pat))
    rw [List.foldl_cons]
    convert hrest using 1
    ext i
    simp only [stopStarts, Set.mem_union, Set.mem_ofPred_eq, List.mem_cons, exists_eq_or_imp]
    tauto

/-- The window's earliest start is found. -/
theorem findStop_earliest {m : Nat} (out : List UInt8) (appended : Nat) (hmax : maxStop stops = some m) :
    Earliest {i | out.length - (appended + (m - 1)) ≤ i ∧ i ∈ stopStarts stops out}
      (findStop out appended stops) := by
  have hnone : Earliest ∅ none := rfl
  have hfold := foldl_earliest (out.length - (appended + (m - 1))) out stops hnone
  rw [Set.empty_union] at hfold
  rw [findStop, hmax]
  exact hfold

/-! ## Pieces -/

/-- What starts in the output still starts there when more arrives. -/
theorem stopStarts_mono {more : List UInt8} : stopStarts stops out ⊆ stopStarts stops (out ++ more) := by
  intro i ⟨pat, hmem, hpat, hstarts⟩
  have hle := le_length_of_prefix hpat hstarts
  refine ⟨pat, hmem, hpat, ?_⟩
  rw [List.drop_append_of_le_length (by omega)]
  exact hstarts.trans (List.prefix_append ..)

/-- A stop string that was not there before the piece starts in the window. -/
theorem window_of_new {m : Nat} (hmax : maxStop stops = some m) (hnew : stopStarts stops out = ∅)
    (hi : i ∈ stopStarts stops (out ++ piece)) :
    (out ++ piece).length - (piece.length + (m - 1)) ≤ i := by
  obtain ⟨pat, hmem, hpat, hstarts⟩ := hi
  have hm : pat.length ≤ m :=
    (List.max?_eq_some_iff.mp hmax).2 _ (List.mem_map_of_mem hmem)
  rw [List.length_append]
  by_contra hbefore
  have hle : i + pat.length ≤ out.length := by omega
  have hold : i ∈ stopStarts stops out := by
    refine ⟨pat, hmem, hpat, ?_⟩
    rw [List.drop_append_of_le_length (by omega)] at hstarts
    apply List.prefix_of_prefix_length_le hstarts (List.prefix_append ..)
    rw [List.length_drop]
    omega
  rw [hnew] at hold
  exact hold

/-- The scan after a piece finds the earliest stop string of the whole output. -/
theorem findStop_whole (hnew : stopStarts stops out = ∅) :
    Earliest (stopStarts stops (out ++ piece)) (findStop (out ++ piece) piece.length stops) := by
  cases hmax : maxStop stops with
  | none =>
    have hnone : stops = [] := List.map_eq_nil_iff.mp (List.max?_eq_none_iff.mp hmax)
    subst hnone
    have hempty : stopStarts [] (out ++ piece) = ∅ := by
      ext i
      simp [stopStarts]
    exact hempty
  | some m =>
    convert findStop_earliest (out ++ piece) piece.length hmax using 1
    ext i
    exact ⟨fun hi => ⟨window_of_new hmax hnew hi, hi⟩, And.right⟩

theorem generate_of_none {pieces : List (List UInt8)}
    (h : stopStarts stops (out ++ pieces.flatten) = ∅) :
    generate stops out pieces = out ++ pieces.flatten := by
  induction pieces generalizing out with
  | nil => rw [List.flatten_nil, List.append_nil]; rfl
  | cons piece pieces ih =>
    rw [List.flatten_cons, ← List.append_assoc] at h ⊢
    have hpiece : stopStarts stops (out ++ piece) = ∅ := Set.subset_eq_empty stopStarts_mono h
    have hout : stopStarts stops out = ∅ := Set.subset_eq_empty stopStarts_mono hpiece
    rw [generate, (findStop_whole hout).eq_none_iff.mpr hpiece]
    exact ih h

theorem generate_of_first {pieces : List (List UInt8)} {k : Nat} (hk : k < pieces.length)
    (hbefore : stopStarts stops (out ++ (pieces.take k).flatten) = ∅)
    (hcut : IsLeast (stopStarts stops (out ++ (pieces.take (k + 1)).flatten)) cut) :
    generate stops out pieces = (out ++ (pieces.take (k + 1)).flatten).take cut := by
  induction pieces generalizing out k with
  | nil => exact absurd hk (Nat.not_lt_zero k)
  | cons piece pieces ih =>
    have hout : stopStarts stops out = ∅ := Set.subset_eq_empty stopStarts_mono hbefore
    rw [List.take_succ_cons, List.flatten_cons, ← List.append_assoc] at hcut ⊢
    rw [generate]
    cases k with
    | zero =>
      rw [List.take_zero, List.flatten_nil, List.append_nil] at hcut ⊢
      rw [(findStop_whole hout).eq_some_iff.mpr hcut]
    | succ k =>
      rw [List.take_succ_cons, List.flatten_cons, ← List.append_assoc] at hbefore
      have hpiece : stopStarts stops (out ++ piece) = ∅ :=
        Set.subset_eq_empty stopStarts_mono hbefore
      rw [(findStop_whole hout).eq_none_iff.mpr hpiece]
      exact ih (Nat.lt_of_succ_lt_succ hk) hbefore hcut

/-- **The scan finds a stop string at the first piece that completes one, at its earliest start in
the whole output, and there the answer is cut.** -/
theorem stops_right (stops pieces : List (List UInt8)) :
    (∀ k piece cut, pieces[k]? = some piece → stopStarts stops (pieces.take k).flatten = ∅ →
      (findStop (pieces.take (k + 1)).flatten piece.length stops = some cut ↔
        IsLeast (stopStarts stops (pieces.take (k + 1)).flatten) cut)) ∧
    (∀ k cut, k < pieces.length → stopStarts stops (pieces.take k).flatten = ∅ →
      IsLeast (stopStarts stops (pieces.take (k + 1)).flatten) cut →
      generate stops [] pieces = (pieces.take (k + 1)).flatten.take cut) ∧
    (stopStarts stops pieces.flatten = ∅ → generate stops [] pieces = pieces.flatten) := by
  refine ⟨?_, fun k cut hk hbefore hcut => generate_of_first hk hbefore hcut,
    fun h => generate_of_none h⟩
  intro k piece cut hpiece hbefore
  have htake : (pieces.take (k + 1)).flatten = (pieces.take k).flatten ++ piece := by
    rw [List.take_add_one, hpiece, List.flatten_append]
    simp
  rw [htake]
  exact (findStop_whole hbefore).eq_some_iff

/-- An empty stop string starts everywhere and is never found. -/
theorem findStop_empty_stop : findStop [97] 1 [[]] = none ∧
    IsLeast {i | ∃ pat ∈ ([[]] : List (List UInt8)), pat <+: ([97] : List UInt8).drop i} 0 := by
  refine ⟨rfl, ⟨[], List.mem_singleton_self _, List.nil_prefix⟩, fun i _ => Nat.zero_le i⟩

end KeryxMiner.Engine
