import KeryxMiner.Outcome
import Mathlib.Data.List.Basic

/-!
# The sequence layout of the engine

The attention and the recurrent layers whose sequence leaves a manifest commits, and what the engine
asks of them (`SeqSpec.check`, `SeqSpec.Checked`).
-/

namespace KeryxMiner.Engine

structure SeqAttn where
  layer : Nat
  slot : Nat
  nHead : Nat
  nHeadKv : Nat
  headDim : Nat
deriving DecidableEq

structure SeqRecur where
  layer : Nat
  slot : Nat
  kind : Nat
  nVHeads : Nat
  headDim : Nat
deriving DecidableEq

def SEQ_KIND_GDA : Nat := 3

def TRACE_UBATCH : Nat := 8

/-- Layer, kind, slot, heads and dimension of a recurrent layer, as the backend reads them. -/
abbrev SeqLayer := Nat × Nat × Nat × Nat × Nat

structure SeqSpec where
  nAttn : Nat
  nRecur : Nat
  heads : Nat
  attn : List SeqAttn
  recur : List SeqRecur
  interval : Nat
deriving DecidableEq

/-- The elements from number `i` on; the first bad one fails with its message. -/
def checkEach {α : Type} (bad : Nat → α → Bool) (message : α → String) :
    Nat → List α → Except String Unit
  | _, [] => .ok ()
  | i, a :: rest => if bad i a then .error (message a) else checkEach bad message (i + 1) rest

theorem checkEach_eq_ok {α : Type} {bad : Nat → α → Bool} {message : α → String} {l : List α} {x : α}
    {n i : Nat} (h : checkEach bad message n l = .ok ()) (hx : l[i]? = some x) :
    bad (n + i) x = false := by
  induction l generalizing n i with
  | nil => cases hx
  | cons y l ih =>
    rw [checkEach] at h
    split at h
    · cases h
    · next hbad =>
      cases i with
      | zero =>
        cases hx
        simpa using hbad
      | succ i =>
        have hi : n + (i + 1) = n + 1 + i := by omega
        rw [hi]
        exact ih h hx

theorem foldl_max_le_iff {l : List Nat} {m n : Nat} :
    l.foldl max m ≤ n ↔ m ≤ n ∧ ∀ a ∈ l, a ≤ n := by
  induction l generalizing m with
  | nil => simp
  | cons b l ih => rw [List.foldl_cons, ih, Nat.max_le, List.forall_mem_cons, and_assoc]

namespace SeqSpec

def nLeaves (spec : SeqSpec) : Nat :=
  2 * spec.heads * (spec.nAttn + spec.nRecur) + spec.heads * spec.nAttn

/-- Layers and query heads of the mass capture. -/
def lseShape (spec : SeqSpec) : Nat × Nat :=
  ((spec.attn.map (·.layer + 1)).foldl max 0, (spec.attn.map (·.nHead)).foldl max 0)

def recordLen (spec : SeqSpec) : Nat :=
  match spec.recur.head? with
  | none => 0
  | some r => 8 * r.headDim + 8

def recurRows (spec : SeqSpec) : List SeqLayer :=
  spec.recur.map fun r => (r.layer, r.kind, r.slot, r.nVHeads, r.headDim)

def badAttn (heads i : Nat) (a : SeqAttn) : Bool :=
  a.slot ≠ i || a.nHeadKv = 0 || heads < a.nHeadKv || a.nHead % a.nHeadKv ≠ 0 || a.headDim % 32 ≠ 0

def badRecur (first : SeqRecur) (i : Nat) (r : SeqRecur) : Bool :=
  r.slot ≠ i || r.kind ≠ SEQ_KIND_GDA || r.nVHeads ≠ first.nVHeads || r.headDim ≠ first.headDim

def check (spec : SeqSpec) : Except String Unit := do
  if spec.attn.length ≠ spec.nAttn ∨ spec.recur.length ≠ spec.nRecur ∨ spec.heads = 0 then
    throw "inconsistent sequence layout"
  checkEach (badAttn spec.heads) (fun a => s!"unsupported attention layer {a.layer}") 0 spec.attn
  match spec.recur.head? with
  | none => return ()
  | some first =>
    if spec.interval = 0 ∨ spec.interval % TRACE_UBATCH ≠ 0 then
      throw s!"recurrent checkpoints every {spec.interval} positions fall inside traced batches"
    checkEach (badRecur first) (fun r => s!"unsupported recurrent layer {r.layer}") 0 spec.recur
    if first.nVHeads = 0 ∨ spec.heads < first.nVHeads ∨ first.headDim % 32 ≠ 0 ∨
        128 < first.headDim then
      throw s!"unsupported recurrent heads ({first.nVHeads} of {first.headDim})"

/-- What `check` makes sure of. -/
structure Checked (spec : SeqSpec) : Prop where
  nAttn : spec.attn.length = spec.nAttn
  nRecur : spec.recur.length = spec.nRecur
  heads : 0 < spec.heads
  attn : ∀ (i : Nat) (a : SeqAttn), spec.attn[i]? = some a →
    a.slot = i ∧ a.nHeadKv ≤ spec.heads ∧ 0 < a.nHeadKv ∧ a.nHeadKv ∣ a.nHead
  recur : ∀ first ∈ spec.recur.head?, first.nVHeads ≤ spec.heads ∧ 0 < spec.interval ∧
    TRACE_UBATCH ∣ spec.interval ∧
    ∀ r ∈ spec.recur, r.nVHeads = first.nVHeads ∧ r.headDim = first.headDim

theorem checked {spec : SeqSpec} (h : spec.check = .ok ()) : spec.Checked := by
  rw [SeqSpec.check] at h
  split at h
  · cases h
  · next hlayout =>
    simp only [not_or, not_not] at hlayout
    obtain ⟨_, hattn, h⟩ := bind_eq_ok.mp h
    have hslots : ∀ (i : Nat) (a : SeqAttn), spec.attn[i]? = some a →
        a.slot = i ∧ a.nHeadKv ≤ spec.heads ∧ 0 < a.nHeadKv ∧ a.nHeadKv ∣ a.nHead := by
      intro i a ha
      have hbad := checkEach_eq_ok hattn ha
      simp [badAttn] at hbad
      refine ⟨by omega, by omega, by omega, Nat.dvd_of_mod_eq_zero hbad.1.2⟩
    refine ⟨hlayout.1, hlayout.2.1, Nat.pos_of_ne_zero hlayout.2.2, hslots, ?_⟩
    intro first hfirst
    rw [hfirst] at h
    dsimp only at h
    split at h
    · cases h
    · next hinterval =>
      obtain ⟨_, hrecur, h⟩ := bind_eq_ok.mp h
      have hlike : ∀ r ∈ spec.recur, r.nVHeads = first.nVHeads ∧ r.headDim = first.headDim := by
        intro r hr
        obtain ⟨i, hi⟩ := List.mem_iff_getElem?.mp hr
        have hbad := checkEach_eq_ok hrecur hi
        simp [badRecur] at hbad
        omega
      split at h
      · cases h
      · next hheads =>
        exact ⟨by omega, by omega, Nat.dvd_of_mod_eq_zero (by omega), hlike⟩

end SeqSpec

end KeryxMiner.Engine
