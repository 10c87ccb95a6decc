import Mathlib.Order.Monotone.Basic

/-!
# Segments in a row

Segments of numbers that follow each other, given by where each one starts. A number lies in one
segment only (`InSegment.eq`), and a scan forward from a segment at or before it stops there
(`scanSegment_spec`).
-/

namespace KeryxMiner

variable {p : Nat → Nat} {t x s s' : Nat}

/-- Segment `s` of the starts `p` has `x`. -/
def InSegment (p : Nat → Nat) (x s : Nat) : Prop := p s ≤ x ∧ x < p (s + 1)

theorem InSegment.eq (hp : Monotone p) (h : InSegment p x s) (h' : InSegment p x s') : s = s' := by
  have hle {s s' : Nat} (h : InSegment p x s) (h' : InSegment p x s') : s ≤ s' := by
    by_contra hlt
    have hstart : p (s' + 1) ≤ p s := hp (Nat.lt_of_not_le hlt)
    exact absurd (Nat.lt_of_lt_of_le h'.2 (hstart.trans h.1)) (Nat.lt_irrefl x)
  exact Nat.le_antisymm (hle h h') (hle h' h)

/-- The first of the segments from `s` on, of `t` segments, that does not end at `x` or before. -/
def scanSegment (p : Nat → Nat) (t x s : Nat) : Nat :=
  if s + 1 < t ∧ p (s + 1) ≤ x then scanSegment p t x (s + 1) else s
termination_by t - s
decreasing_by omega

theorem scanSegment_spec (hs : s < t) (hstart : p s ≤ x) (hx : x < p t) :
    scanSegment p t x s < t ∧ InSegment p x (scanSegment p t x s) := by
  induction s using scanSegment.induct p t x with
  | case1 s hnext ih =>
    rw [scanSegment, if_pos hnext]
    exact ih hnext.1 hnext.2
  | case2 s hstop =>
    rw [scanSegment, if_neg hstop]
    refine ⟨hs, hstart, ?_⟩
    rcases Nat.lt_or_eq_of_le (Nat.succ_le_of_lt hs) with hlt | heq
    · exact Nat.lt_of_not_le fun hle => hstop ⟨hlt, hle⟩
    · have hlast : s + 1 = t := heq
      rwa [hlast]

end KeryxMiner
