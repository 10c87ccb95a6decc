import Mathlib.Data.List.MinMax
import Mathlib.Order.Basic

/-!
# Functions that change at gates

A function of a score that changes at the gates of a list only is known from its values at the gates.
`exists_ge_iff` says which values it still has from a score on: those at the gates behind which no
other gate has been passed.
-/

namespace KeryxMiner

variable {α β : Type} [LinearOrder α]

/-- Between two scores without a gate in between, the function does not change. -/
def StepsAt (gates : List α) (f : α → β) : Prop :=
  ∀ x y, x ≤ y → (∀ g ∈ gates, x < g → y < g) → f x = f y

/-- The last gate that has been passed. -/
theorem exists_lastGate {gates : List α} {x g : α} (hg : g ∈ gates) (hx : g ≤ x) :
    ∃ g ∈ gates, g ≤ x ∧ ∀ h ∈ gates, g < h → x < h := by
  have hlen : 0 < (gates.filter fun h => h ≤ x).length :=
    List.length_pos_of_mem (List.mem_filter.mpr ⟨hg, decide_eq_true hx⟩)
  have hmem := List.maximum_of_length_pos_mem hlen
  obtain ⟨hgate, hle⟩ := List.mem_filter.mp hmem
  refine ⟨_, hgate, of_decide_eq_true hle, fun h hh hlt => lt_of_not_ge fun hhx => ?_⟩
  have hmax := List.le_maximum_of_length_pos_of_mem
    (List.mem_filter.mpr ⟨hh, decide_eq_true hhx⟩) hlen
  exact absurd hlt (not_lt.mpr hmax)

/-- The values from `d` on are those at the gates behind which no gate has been passed at `d`. -/
theorem StepsAt.exists_ge_iff {gates : List α} {f : α → Option β} (hf : StepsAt gates f)
    (hlow : ∀ x, (∀ g ∈ gates, x < g) → f x = none) {d : α} {b : β} :
    (∃ x, d ≤ x ∧ f x = some b) ↔ ∃ g ∈ gates, (∀ h ∈ gates, g < h → d < h) ∧ f g = some b := by
  constructor
  · rintro ⟨x, hx, hb⟩
    obtain ⟨h, hmem, hle⟩ : ∃ h ∈ gates, h ≤ x := by
      by_contra hnone
      have hall : ∀ g ∈ gates, x < g := fun g hg => lt_of_not_ge fun hle => hnone ⟨g, hg, hle⟩
      rw [hlow x hall] at hb
      cases hb
    obtain ⟨g, hg, hgx, hlast⟩ := exists_lastGate hmem hle
    refine ⟨g, hg, fun h hmem hlt => hx.trans_lt (hlast h hmem hlt), ?_⟩
    rw [hf g x hgx hlast, hb]
  · rintro ⟨g, hg, hlast, hb⟩
    refine ⟨max g d, le_max_right g d, ?_⟩
    rw [← hf g (max g d) (le_max_left g d) fun h hmem hlt => max_lt hlt (hlast h hmem hlt), hb]

/-- All the values are those at the gates. -/
theorem StepsAt.exists_iff {gates : List α} {f : α → Option β} (hf : StepsAt gates f)
    (hlow : ∀ x, (∀ g ∈ gates, x < g) → f x = none) {b : β} :
    (∃ x, f x = some b) ↔ ∃ g ∈ gates, f g = some b := by
  constructor
  · rintro ⟨x, hb⟩
    obtain ⟨g, hg, -, hgb⟩ := (hf.exists_ge_iff hlow).mp ⟨x, le_rfl, hb⟩
    exact ⟨g, hg, hgb⟩
  · rintro ⟨g, -, hb⟩
    exact ⟨g, hb⟩

end KeryxMiner
