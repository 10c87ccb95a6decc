import Mathlib.Data.List.Basic
import Mathlib.Data.List.Nodup

/-!
# A log which follows a chain

A chain is a list without repetition, and a log a list in which some blocks of the chain stand among
others. `Follows chain log a` says that what comes behind `a` on the chain comes behind `a` in the
log, in the same order. The log may hold more; `Follows.before` bounds what stands before a block of
the chain. The rest of the module keeps `Follows` when blocks leave both lists, when new ones are
put at their ends, and when a part of the chain is moved in the log behind the block it begins at.
`Orders` bounds what else the log holds behind a block of the chain: some blocks that wait for their
part of the chain, and nothing else.
-/

namespace KeryxMiner

open scoped List

variable {α : Type} [DecidableEq α] {a x start : α} {l m chain log added : List α}

/-- What comes behind the first `a`. -/
def behind (a : α) : List α → List α
  | [] => []
  | x :: xs => if x = a then xs else behind a xs

theorem behind_append_of_notMem (h : a ∉ l) : behind a (l ++ m) = behind a m := by
  induction l with
  | nil => rfl
  | cons x xs ih =>
    simp only [List.mem_cons, not_or] at h
    simp [behind, Ne.symm h.1, ih h.2]

theorem behind_append_of_mem (h : a ∈ l) : behind a (l ++ m) = behind a l ++ m := by
  induction l with
  | nil => cases h
  | cons x xs ih =>
    by_cases hx : x = a
    · simp [behind, hx]
    · simp [behind, hx, ih ((List.mem_cons.mp h).resolve_left (Ne.symm hx))]

@[simp] theorem behind_cons_self : behind a (a :: l) = l := if_pos rfl

theorem behind_split (h : a ∉ l) : behind a (l ++ a :: m) = m := by
  rw [behind_append_of_notMem h, behind_cons_self]

theorem behind_sublist : behind a l <+ l := by
  induction l with
  | nil => exact .slnil
  | cons x xs ih =>
    simp only [behind]
    split
    · exact List.sublist_cons_self ..
    · exact ih.cons _

theorem behind_filter {p : α → Bool} (h : p a) : behind a (l.filter p) = (behind a l).filter p := by
  induction l with
  | nil => rfl
  | cons x xs ih =>
    by_cases hx : x = a
    · subst hx
      simp [h]
    · by_cases hp : p x <;> simp [behind, hx, hp, ih]

theorem mem_of_behind (h : x ∈ behind a l) : a ∈ l := by
  by_contra hout
  have hnil := @behind_append_of_notMem _ _ a l [] hout
  rw [List.append_nil] at hnil
  rw [hnil] at h
  cases h

/-- Where `a` and `x` are kept, other blocks do not change their order. -/
theorem behind_of_filter {p q : α → Bool} (h : l.filter p = m.filter q) (ha : p a) (hx : p x)
    (hbehind : x ∈ behind a l) : x ∈ behind a m := by
  have hmem : x ∈ behind a (m.filter q) := by
    rw [← h, behind_filter ha]
    exact List.mem_filter.mpr ⟨hbehind, hx⟩
  have hq : q a := (List.mem_filter.mp (mem_of_behind hmem)).2
  rw [behind_filter hq] at hmem
  exact (List.mem_filter.mp hmem).1

theorem behind_drop {n : Nat} (h : a ∉ l.take n) : behind a (l.drop n) = behind a l := by
  conv_rhs => rw [← List.take_append_drop n l, behind_append_of_notMem h]

omit [DecidableEq α] in
/-- What stands before `x` in the shorter list stands before it in the longer one. -/
theorem sublist_before {u v pre post : List α} (hpre : x ∉ pre) (hpost : x ∉ post)
    (h : u ++ x :: v <+ pre ++ x :: post) : u <+ pre := by
  obtain ⟨l₁, l₂, heq, h₁, h₂⟩ := List.sublist_append_iff.mp h
  have hx₁ : x ∉ l₁ := fun hm => hpre (h₁.subset hm)
  rcases List.append_eq_append_iff.mp heq with ⟨c, rfl, hc⟩ | ⟨c, rfl, hc⟩
  · cases c with
    | nil => simpa using h₁
    | cons y c =>
      cases hc
      simp at hx₁
  · cases c with
    | nil => simpa using h₁
    | cons y c =>
      subst hc
      have : x ∈ c ++ x :: v := by simp
      rcases List.sublist_cons_iff.mp h₂ with h₂ | ⟨r, hr, h₂⟩
      · exact absurd (h₂.subset (List.mem_cons_of_mem _ this)) hpost
      · cases hr
        exact absurd (h₂.subset this) hpost

/-! ## Following a chain -/

/-- The log has `a` and behind it all of the chain behind `a`, in chain order. -/
structure Follows (chain log : List α) (a : α) : Prop where
  mem : a ∈ chain
  logged : a ∈ log
  sublist : behind a chain <+ behind a log

namespace Follows

/-- Blocks leave the chain and the log. -/
theorem filter {p : α → Bool} (h : Follows chain log a) (hp : p a) :
    Follows (chain.filter p) (log.filter p) a where
  mem := List.mem_filter.mpr ⟨h.mem, hp⟩
  logged := List.mem_filter.mpr ⟨h.logged, hp⟩
  sublist := by
    rw [behind_filter hp, behind_filter hp]
    exact h.sublist.filter p

/-- Blocks that are not on the chain leave the log. -/
theorem filter_log {p : α → Bool} (h : Follows chain log a) (hp : ∀ x ∈ chain, p x) :
    Follows chain (log.filter p) a := by
  have := h.filter (hp a h.mem)
  rwa [List.filter_eq_self.mpr hp] at this

/-- The log grows at its end. -/
theorem append_log (h : Follows chain log a) : Follows chain (log ++ m) a where
  mem := h.mem
  logged := List.mem_append_left m h.logged
  sublist := by
    rw [behind_append_of_mem h.logged]
    exact h.sublist.trans (List.sublist_append_left ..)

/-- The chain and the log grow by the same blocks. -/
theorem append (h : Follows chain log a) : Follows (chain ++ m) (log ++ m) a where
  mem := List.mem_append_left m h.mem
  logged := List.mem_append_left m h.logged
  sublist := by
    rw [behind_append_of_mem h.logged, behind_append_of_mem h.mem]
    exact h.sublist.append_right m

theorem drop {n : Nat} (h : Follows chain log a) (hn : a ∉ log.take n) :
    Follows chain (log.drop n) a where
  mem := h.mem
  logged := by
    have := h.logged
    rw [← List.take_append_drop n log] at this
    exact (List.mem_append.mp this).resolve_left hn
  sublist := behind_drop hn ▸ h.sublist

/-- A block of the end of the chain, which the log holds in one piece. -/
theorem of_added {pre post : List α} (ha : a ∈ added) (hchain : a ∉ chain) (hpre : a ∉ pre) :
    Follows (chain ++ added) (pre ++ added ++ post) a where
  mem := List.mem_append_right _ ha
  logged := by simp [ha]
  sublist := by
    rw [behind_append_of_notMem hchain, List.append_assoc, behind_append_of_notMem hpre,
      behind_append_of_mem ha]
    exact List.sublist_append_left ..

/-- The block that a placed part begins at. -/
theorem of_start {u w : List α} (hchain : start ∉ chain) (hu : start ∉ u) :
    Follows (chain ++ start :: added) (u ++ start :: (added ++ w)) start where
  mem := by simp
  logged := by simp
  sublist := by
    rw [behind_split hchain, behind_split hu]
    exact List.sublist_append_left ..

/-- The chain without its end, in the log without the blocks of the end. -/
theorem of_end (h : Follows (chain ++ added) log a) (hchain : (chain ++ added).Nodup)
    (ha : a ∉ added) : Follows chain (log.filter (· ∉ added)) a := by
  obtain ⟨-, -, hdisj⟩ := List.nodup_append.mp hchain
  have hout : chain.filter (· ∉ added) = chain :=
    List.filter_eq_self.mpr fun x hx => by simpa using fun hm => hdisj x hx x hm rfl
  have hin : added.filter (· ∉ added) = [] :=
    List.filter_eq_nil_iff.mpr fun x hx => by simpa using hx
  have hf := h.filter (p := (· ∉ added)) (by simpa using ha)
  rwa [List.filter_append, hout, hin, List.append_nil] at hf

/-- The chain behind `start` is put behind `start`, where the log had it elsewhere. -/
theorem place {u w : List α} (h : Follows (chain ++ start :: added) log a)
    (hchain : (chain ++ start :: added).Nodup) (hlog : log.Nodup)
    (hsplit : log.filter (· ∉ added) = u ++ start :: w) (ha : a ∉ added) :
    Follows (chain ++ start :: added) (u ++ start :: (added ++ w)) a := by
  have hkept : (u ++ start :: w).Nodup := hsplit ▸ hlog.filter _
  rw [List.nodup_middle, List.nodup_cons, List.mem_append, not_or] at hkept
  obtain ⟨⟨hu, hw⟩, -⟩ := hkept
  have hshort : (chain ++ start :: added).filter (· ∉ added) = chain ++ [start] := by
    obtain ⟨-, hstart, hdisj⟩ := List.nodup_append.mp hchain
    have hout : chain.filter (· ∉ added) = chain :=
      List.filter_eq_self.mpr fun x hx => by simpa using fun hm => hdisj x hx x (by simp [hm]) rfl
    have hin : added.filter (· ∉ added) = [] :=
      List.filter_eq_nil_iff.mpr fun x hx => by simpa using hx
    rw [List.filter_append, hout, List.filter_cons_of_pos (by simpa using (List.nodup_cons.mp hstart).1),
      hin]
  have hf := h.filter (p := (· ∉ added)) (by simpa using ha)
  rw [hshort, hsplit] at hf
  by_cases hs : a = start
  · subst hs
    refine ⟨h.mem, by simp, ?_⟩
    have hchain' : a ∉ chain := by
      rw [List.nodup_middle, List.nodup_cons, List.mem_append, not_or] at hchain
      exact hchain.1.1
    rw [behind_split hchain', behind_split hu]
    exact List.sublist_append_left ..
  · have hmem : a ∈ chain := by simpa [hs] using hf.mem
    have hsub := hf.sublist
    rw [behind_append_of_mem hmem] at hsub
    by_cases hau : a ∈ u
    · refine ⟨h.mem, by simp [hau], ?_⟩
      rw [behind_append_of_mem hau] at hsub
      rw [behind_append_of_mem hmem, behind_append_of_mem hau]
      have hstart : start ∉ behind a u := fun hm => hu (behind_sublist.subset hm)
      have := sublist_before hstart hw hsub
      exact this.append ((List.sublist_append_left added w).cons_cons start)
    · rw [behind_append_of_notMem hau, behind, if_neg (Ne.symm hs)] at hsub
      exact absurd (behind_sublist.subset (hsub.subset (by simp))) hw

/-- What stands before a block of the chain behind `a` stands before it in the log. -/
theorem before {u v pre post : List α} (h : Follows chain log a) (hlog : log.Nodup)
    (hchain : behind a chain = u ++ x :: v) (hbehind : behind a log = pre ++ x :: post) :
    u <+ pre := by
  have hnd : (pre ++ x :: post).Nodup := hbehind ▸ hlog.sublist behind_sublist
  rw [List.nodup_middle, List.nodup_cons, List.mem_append, not_or] at hnd
  exact sublist_before hnd.1.1 hnd.1.2 (hchain ▸ hbehind ▸ h.sublist)

end Follows

/-! ## The order of the log -/

/-- Behind a block of the chain the log holds, besides `waiting` blocks, only what is behind that
block on the chain. -/
def Orders (chain log waiting : List α) : Prop :=
  ∀ a ∈ log, a ∈ chain → ∀ x ∈ behind a log, x ∉ waiting → x ∈ behind a chain

namespace Orders

variable {waiting : List α}

theorem nil : Orders chain [] waiting := nofun

/-- More blocks wait. -/
theorem mono {waiting' : List α} (h : Orders chain log waiting) (hsub : waiting ⊆ waiting') :
    Orders chain log waiting' :=
  fun a ha hchain x hx hwait => h a ha hchain x hx fun hmem => hwait (hsub hmem)

/-- A waiting block is logged at the end. -/
theorem push (h : Orders chain log waiting) (hx : x ∈ waiting) :
    Orders chain (log ++ [x]) waiting := by
  intro a ha hchain y hy hwait
  by_cases hlogged : a ∈ log
  · rw [behind_append_of_mem hlogged] at hy
    rcases List.mem_append.mp hy with hy | hy
    · exact h a hlogged hchain y hy hwait
    · exact absurd (List.mem_singleton.mp hy ▸ hx) hwait
  · have hax : a = x := by simpa [hlogged] using ha
    rw [behind_append_of_notMem hlogged, hax, behind_cons_self] at hy
    cases hy

/-- Blocks leave the log. -/
theorem filter_log {p : α → Bool} (h : Orders chain log waiting) :
    Orders chain (log.filter p) waiting := by
  intro a ha hchain x hx hwait
  obtain ⟨hlogged, hp⟩ := List.mem_filter.mp ha
  rw [behind_filter hp] at hx
  exact h a hlogged hchain x (List.mem_filter.mp hx).1 hwait

/-- Blocks leave the chain and the log. -/
theorem filter {p : α → Bool} (h : Orders chain log waiting) :
    Orders (chain.filter p) (log.filter p) waiting := by
  intro a ha hchain x hx hwait
  obtain ⟨hlogged, hp⟩ := List.mem_filter.mp ha
  rw [behind_filter hp] at hx ⊢
  obtain ⟨hx, hpx⟩ := List.mem_filter.mp hx
  exact List.mem_filter.mpr ⟨h a hlogged (List.mem_filter.mp hchain).1 x hx hwait, hpx⟩

/-- The log loses its first blocks. -/
theorem drop {n : Nat} (h : Orders chain log waiting) (hlog : log.Nodup) :
    Orders chain (log.drop n) waiting := by
  intro a ha hchain x hx hwait
  have hfront : a ∉ log.take n := fun hmem => List.disjoint_take_drop hlog (Nat.le_refl n) hmem ha
  rw [behind_drop hfront] at hx
  exact h a (List.mem_of_mem_drop ha) hchain x hx hwait

/-- A block that is not logged need not wait. -/
theorem forget (h : Orders chain log (x :: waiting)) (hx : x ∉ log) : Orders chain log waiting := by
  intro a ha hchain y hy hwait
  have hne : y ≠ x := fun heq => hx (heq ▸ behind_sublist.subset hy)
  exact h a ha hchain y hy (by simp [hne, hwait])

/-- The end of the chain stands at the end of the log. -/
theorem place_end (h : Orders (chain ++ added) log waiting) (hchain : (chain ++ added).Nodup) :
    Orders (chain ++ added) (log.filter (· ∉ added) ++ added) waiting := by
  obtain ⟨-, -, hdisj⟩ := List.nodup_append.mp hchain
  intro a ha hmem x hx hwait
  by_cases hadded : a ∈ added
  · have hfront : a ∉ chain := fun hin => hdisj a hin a hadded rfl
    rw [behind_append_of_notMem (by simpa using fun _ => hadded)] at hx
    rwa [behind_append_of_notMem hfront]
  · have hlogged : a ∈ log.filter (· ∉ added) := (List.mem_append.mp ha).resolve_right hadded
    have hfront : a ∈ chain := (List.mem_append.mp hmem).resolve_right hadded
    rw [behind_append_of_mem hlogged] at hx
    rcases List.mem_append.mp hx with hx | hx
    · exact h.filter_log a hlogged hmem x hx hwait
    · rw [behind_append_of_mem hfront]
      exact List.mem_append_right _ hx

/-- The chain and the log grow by the same blocks. -/
theorem append (h : Orders chain log waiting) (hchain : (chain ++ added).Nodup) :
    Orders (chain ++ added) (log.filter (· ∉ added) ++ added) waiting := by
  obtain ⟨-, -, hdisj⟩ := List.nodup_append.mp hchain
  intro a ha hmem x hx hwait
  by_cases hadded : a ∈ added
  · have hfront : a ∉ chain := fun hin => hdisj a hin a hadded rfl
    rw [behind_append_of_notMem (by simpa using fun _ => hadded)] at hx
    rwa [behind_append_of_notMem hfront]
  · have hlogged : a ∈ log.filter (· ∉ added) := (List.mem_append.mp ha).resolve_right hadded
    have hfront : a ∈ chain := (List.mem_append.mp hmem).resolve_right hadded
    rw [behind_append_of_mem hlogged] at hx
    rw [behind_append_of_mem hfront]
    rcases List.mem_append.mp hx with hx | hx
    · exact List.mem_append_left _ (h.filter_log a hlogged hfront x hx hwait)
    · exact List.mem_append_right _ hx

/-- The chain behind `start` is put behind `start`, which waits no longer. -/
theorem place {u w : List α} (h : Orders (chain ++ start :: added) log (start :: waiting))
    (hchain : (chain ++ start :: added).Nodup) (hlog : log.Nodup)
    (hsplit : log.filter (· ∉ added) = u ++ start :: w) :
    Orders (chain ++ start :: added) (u ++ start :: (added ++ w)) waiting := by
  have hkept : (u ++ start :: w).Nodup := hsplit ▸ hlog.filter _
  have hmem : ∀ x ∈ u ++ start :: w, x ∈ log ∧ x ∉ added := fun x hx => by
    rw [← hsplit] at hx
    simpa using hx
  rw [List.nodup_middle, List.nodup_cons, List.mem_append, not_or] at hkept hchain
  obtain ⟨⟨hu, hw⟩, hnodup⟩ := hkept
  obtain ⟨⟨hstart, -⟩, hdisj⟩ := hchain
  obtain ⟨-, -, hdisj⟩ := List.nodup_append.mp hdisj
  have hold := h.filter_log (p := (· ∉ added))
  rw [hsplit] at hold
  -- What stood behind `start` waits, or it is placed elsewhere.
  have hwait : ∀ x ∈ w, x ∈ waiting := by
    intro x hx
    by_contra hnot
    have hne : x ≠ start := fun heq => hw (heq ▸ hx)
    have hin := hold start (by simp) (by simp) x (by rwa [behind_split hu])
      (by simp [hne, hnot])
    rw [behind_split hstart] at hin
    exact (hmem x (by simp [hx])).2 hin
  intro a ha hchainA x hx hnot
  have hback : ∀ {l}, x ∈ behind a l ++ w → x ∈ behind a l := fun hx =>
    (List.mem_append.mp hx).resolve_right fun hx => hnot (hwait x hx)
  by_cases hs : a = start
  · subst hs
    rw [behind_split hu] at hx
    rw [behind_split hstart]
    exact (List.mem_append.mp hx).resolve_right fun hx => hnot (hwait x hx)
  by_cases hadded : a ∈ added
  · have hau : a ∉ u := fun hin => (hmem a (by simp [hin])).2 hadded
    have hac : a ∉ chain := fun hin => hdisj a hin a hadded rfl
    rw [behind_append_of_notMem hau, behind, if_neg (Ne.symm hs), behind_append_of_mem hadded] at hx
    rw [behind_append_of_notMem hac, behind, if_neg (Ne.symm hs)]
    exact hback hx
  have hac : a ∈ chain := by simpa [hs, hadded] using hchainA
  by_cases hau : a ∈ u
  · rw [behind_append_of_mem hau] at hx
    rw [behind_append_of_mem hac]
    rcases List.mem_append.mp hx with hx | hx
    · have hne : x ≠ start := fun heq => hu (heq ▸ behind_sublist.subset hx)
      rw [← behind_append_of_mem hac]
      exact hold a (by simp [hau]) (by simp [hac]) x
        (by rw [behind_append_of_mem hau]; exact List.mem_append_left _ hx) (by simp [hne, hnot])
    · rcases List.mem_cons.mp hx with rfl | hx
      · simp
      · have hin := (List.mem_append.mp hx).resolve_right fun hx => hnot (hwait x hx)
        simp [hin]
  · have hin : x ∈ w := by
      have haw : a ∈ w := by simpa [hs, hadded, hau] using ha
      rw [behind_append_of_notMem hau, behind, if_neg (Ne.symm hs),
        behind_append_of_notMem hadded] at hx
      exact behind_sublist.subset hx
    exact absurd (hwait x hin) hnot

end Orders

end KeryxMiner
