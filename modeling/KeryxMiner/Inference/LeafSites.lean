import KeryxMiner.Inference.Spans
import Mathlib.Data.Set.Function
import Mathlib.Order.Interval.Set.Basic
import Mathlib.Tactic.Ring

/-!
# The sequence leaves of a layout

Five kinds of leaves lie in one tree: the keys and values of each head of each attention layer, the
records and checkpoints of each head of each recurrent layer, and the masses of each head of each
attention layer. Over the naturals each leaf of the tree is that of exactly one kind, layer and head
(`bijOn_leaf`).
-/

namespace KeryxMiner.Inference

inductive LeafKind where
  | kcache
  | vcache
  | record
  | checkpoint
  | lse

/-- A kind of leaf, the slot of its layer and its head. -/
structure LeafSite where
  kind : LeafKind
  slot : Nat
  head : Nat

namespace SeqLayout

variable (l : SeqLayout)

/-- The number of a leaf, by the function of its kind. -/
def leaf (s : LeafSite) : Option Nat :=
  match s.kind with
  | .kcache => l.kcache s.slot s.head
  | .vcache => l.vcache s.slot s.head
  | .record => l.record s.slot s.head
  | .checkpoint => l.checkpoint s.slot s.head
  | .lse => l.lse s.slot s.head

/-- The layers that have leaves of a kind. -/
def slots : LeafKind → Nat
  | .kcache | .vcache | .lse => l.nAttn
  | .record | .checkpoint => l.nRecur

def sites : Set LeafSite := {s | s.slot < l.slots s.kind ∧ s.head < l.heads}

/-- The first leaf of the kind, and how far apart its leaves are. -/
def base : LeafKind → Nat
  | .kcache => 0
  | .vcache => 1
  | .record => 2 * l.heads * l.nAttn
  | .checkpoint => 2 * l.heads * l.nAttn + 1
  | .lse => 2 * l.heads * (l.nAttn + l.nRecur)

def stride : LeafKind → Nat
  | .kcache | .vcache | .record | .checkpoint => 2
  | .lse => 1

/-- Which leaf has the number `i`. -/
def site (i : Nat) : LeafSite :=
  if i < 2 * l.heads * l.nAttn then
    ⟨if i % 2 = 0 then .kcache else .vcache, i / 2 / l.heads, i / 2 % l.heads⟩
  else if i < 2 * l.heads * (l.nAttn + l.nRecur) then
    let j := i - 2 * l.heads * l.nAttn
    ⟨if j % 2 = 0 then .record else .checkpoint, j / 2 / l.heads, j / 2 % l.heads⟩
  else
    let j := i - 2 * l.heads * (l.nAttn + l.nRecur)
    ⟨.lse, j / l.heads, j % l.heads⟩

variable {l} {s : LeafSite} {slot head i j n : Nat}

theorem leaf_of_mem (h : s ∈ l.sites) :
    l.leaf s = some (l.base s.kind + stride s.kind * (s.slot * l.heads + s.head)) := by
  obtain ⟨kind, slot, head⟩ := s
  cases kind with
  | kcache =>
    have hin : slot < l.nAttn ∧ head < l.heads := h
    simp only [leaf, kcache, base, stride, if_pos hin, Nat.zero_add]
  | vcache =>
    have hin : slot < l.nAttn ∧ head < l.heads := h
    simp only [leaf, vcache, kcache, base, stride, if_pos hin, Option.map_some, Nat.add_comm]
  | record =>
    have hin : slot < l.nRecur ∧ head < l.heads := h
    simp only [leaf, record, base, stride, if_pos hin]
  | checkpoint =>
    have hin : slot < l.nRecur ∧ head < l.heads := h
    simp only [leaf, checkpoint, record, base, stride, if_pos hin, Option.map_some]
    rw [Nat.add_right_comm]
  | lse =>
    have hin : slot < l.nAttn ∧ head < l.heads := h
    simp only [leaf, lse, base, stride, if_pos hin, Nat.one_mul, Nat.add_assoc]

theorem leaf_of_notMem (h : s ∉ l.sites) : l.leaf s = none := by
  obtain ⟨kind, slot, head⟩ := s
  cases kind with
  | kcache => exact if_neg h
  | vcache => exact Option.map_eq_none_iff.mpr (if_neg h)
  | record => exact if_neg h
  | checkpoint => exact Option.map_eq_none_iff.mpr (if_neg h)
  | lse => exact if_neg h

/-- Slots and heads are counted off head by head. -/
theorem count_lt (hslot : slot < n) (hhead : head < l.heads) :
    slot * l.heads + head < l.heads * n := by
  have hle : (slot + 1) * l.heads ≤ n * l.heads := Nat.mul_le_mul_right _ hslot
  rw [Nat.succ_mul] at hle
  rw [Nat.mul_comm l.heads n]
  omega

theorem slot_of_count (slot : Nat) (hhead : head < l.heads) :
    (slot * l.heads + head) / l.heads = slot ∧ (slot * l.heads + head) % l.heads = head := by
  have hpos : 0 < l.heads := Nat.zero_lt_of_lt hhead
  rw [Nat.mul_comm]
  exact ⟨by rw [Nat.mul_add_div hpos, Nat.div_eq_of_lt hhead, Nat.add_zero],
    by rw [Nat.mul_add_mod, Nat.mod_eq_of_lt hhead]⟩

theorem slot_lt_of_count (h : i < l.heads * n) : i / l.heads < n ∧ i % l.heads < l.heads := by
  have hpos : 0 < l.heads := by
    rcases Nat.eq_zero_or_pos l.heads with hzero | hpos
    · rw [hzero, Nat.zero_mul] at h
      omega
    · exact hpos
  exact ⟨(Nat.div_lt_iff_lt_mul hpos).mpr (Nat.mul_comm l.heads n ▸ h), Nat.mod_lt _ hpos⟩

/-- The attention leaves are those before the recurrent ones, and the masses stand last. -/
theorem leaves_before : 2 * l.heads * l.nAttn = 2 * (l.heads * l.nAttn) ∧
    2 * l.heads * (l.nAttn + l.nRecur) = 2 * (l.heads * l.nAttn) + 2 * (l.heads * l.nRecur) := by
  constructor <;> ring

theorem leaf_lt (h : s ∈ l.sites) :
    l.base s.kind + stride s.kind * (s.slot * l.heads + s.head) < l.nLeaves := by
  obtain ⟨kind, slot, head⟩ := s
  have hcount := count_lt h.1 h.2
  obtain ⟨hattn, hsum⟩ := @leaves_before l
  cases kind <;> simp only [slots, base, stride, nLeaves] at hcount ⊢ <;> omega

theorem leaf_lt_of_eq_some (h : l.leaf s = some i) : i < l.nLeaves := by
  by_cases hs : s ∈ l.sites
  · rw [leaf_of_mem hs] at h
    cases h
    exact leaf_lt hs
  · rw [leaf_of_notMem hs] at h
    cases h

/-- The leaf with a number is the one that has it. -/
theorem site_leaf (h : s ∈ l.sites) :
    l.site (l.base s.kind + stride s.kind * (s.slot * l.heads + s.head)) = s := by
  obtain ⟨kind, slot, head⟩ := s
  have hcount := count_lt h.1 h.2
  obtain ⟨hdiv, hmod⟩ := slot_of_count slot h.2
  obtain ⟨hattn, hsum⟩ := @leaves_before l
  dsimp only at hdiv hmod hcount
  generalize hc : slot * l.heads + head = c at hcount hdiv hmod
  cases kind with
  | kcache =>
    dsimp only [slots] at hcount
    rw [site, base, stride, if_pos (by omega)]
    have hodd : (0 + 2 * c) % 2 = 0 := by omega
    have hhalf : (0 + 2 * c) / 2 = c := by omega
    rw [if_pos hodd, hhalf, hdiv, hmod]
  | vcache =>
    dsimp only [slots] at hcount
    rw [site, base, stride, if_pos (by omega)]
    have hodd : (1 + 2 * c) % 2 = 1 := by omega
    have hhalf : (1 + 2 * c) / 2 = c := by omega
    rw [if_neg (by omega), hhalf, hdiv, hmod]
  | record =>
    dsimp only [slots] at hcount
    rw [site, base, stride, if_neg (by omega), if_pos (by omega), Nat.add_sub_cancel_left]
    have hhalf : 2 * c / 2 = c := by omega
    dsimp only
    rw [if_pos (by omega), hhalf, hdiv, hmod]
  | checkpoint =>
    dsimp only [slots] at hcount
    rw [site, base, stride, if_neg (by omega), if_pos (by omega), Nat.add_assoc,
      Nat.add_sub_cancel_left]
    have hhalf : (1 + 2 * c) / 2 = c := by omega
    dsimp only
    rw [if_neg (by omega), hhalf, hdiv, hmod]
  | lse =>
    dsimp only [slots] at hcount
    rw [site, base, stride, if_neg (by omega), if_neg (by omega), Nat.add_sub_cancel_left,
      Nat.one_mul]
    dsimp only
    rw [hdiv, hmod]

theorem site_mem (h : i < l.nLeaves) : l.site i ∈ l.sites ∧
    i = l.base (l.site i).kind + stride (l.site i).kind * ((l.site i).slot * l.heads + (l.site i).head) := by
  obtain ⟨hattn, hsum⟩ := @leaves_before l
  have hcount : ∀ j, j / l.heads * l.heads + j % l.heads = j :=
    fun j => Nat.div_add_mod' j l.heads
  rw [nLeaves] at h
  unfold site
  split
  · next hi =>
    have hlt : i / 2 < l.heads * l.nAttn := by omega
    obtain ⟨hslot, hhead⟩ := slot_lt_of_count hlt
    have hc := hcount (i / 2)
    split
    · next heven =>
      refine ⟨⟨hslot, hhead⟩, ?_⟩
      simp only [base, stride, hc]
      omega
    · next hodd =>
      refine ⟨⟨hslot, hhead⟩, ?_⟩
      simp only [base, stride, hc]
      omega
  · next hi =>
    split
    · next hj =>
      dsimp only
      generalize hoff : i - 2 * l.heads * l.nAttn = j
      have hlt : j / 2 < l.heads * l.nRecur := by omega
      obtain ⟨hslot, hhead⟩ := slot_lt_of_count hlt
      have hc := hcount (j / 2)
      split
      · next heven =>
        refine ⟨⟨hslot, hhead⟩, ?_⟩
        simp only [base, stride, hc]
        omega
      · next hodd =>
        refine ⟨⟨hslot, hhead⟩, ?_⟩
        simp only [base, stride, hc]
        omega
    · next hj =>
      dsimp only
      generalize hoff : i - 2 * l.heads * (l.nAttn + l.nRecur) = j
      have hlt : j < l.heads * l.nAttn := by omega
      obtain ⟨hslot, hhead⟩ := slot_lt_of_count hlt
      refine ⟨⟨hslot, hhead⟩, ?_⟩
      simp only [base, stride, hcount]
      omega

/-- The numbers of the leaves of a layout are those of its tree, each once. -/
theorem bijOn_leaf (l : SeqLayout) : Set.BijOn l.leaf l.sites (some '' Set.Iio l.nLeaves) := by
  refine ⟨?_, ?_, ?_⟩
  · intro s hs
    exact ⟨_, leaf_lt hs, (leaf_of_mem hs).symm⟩
  · intro s hs s' hs' heq
    rw [leaf_of_mem hs, leaf_of_mem hs'] at heq
    rw [← site_leaf hs, Option.some.inj heq, site_leaf hs']
  · intro n hn
    obtain ⟨i, hi, rfl⟩ := hn
    obtain ⟨hmem, hnumber⟩ := site_mem hi
    refine ⟨l.site i, hmem, ?_⟩
    rw [leaf_of_mem hmem]
    exact congrArg some hnumber.symm

end SeqLayout

end KeryxMiner.Inference
