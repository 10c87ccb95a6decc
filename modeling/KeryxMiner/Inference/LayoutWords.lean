import KeryxMiner.Inference.LeafSites
import Mathlib.Order.Interval.Set.Nat
import Mathlib.SetTheory.Cardinal.Finite

/-!
# Layouts in machine words

`SeqLayout` with the 64-bit words of the source, whose sums and products wrap around. The words agree
with the naturals while the number of the leaves is below `2 ^ 64`, and exactly then each leaf of the
tree is that of one kind, layer and head (`leaf_bijOn`).
-/

namespace KeryxMiner.Inference

structure SeqLayout64 where
  nAttn : UInt64
  nRecur : UInt64
  heads : UInt64

/-- A kind of leaf, the slot of its layer and its head. -/
structure LeafSite64 where
  kind : LeafKind
  slot : UInt64
  head : UInt64

/-- The same leaf over the naturals. -/
def LeafSite64.toSite (s : LeafSite64) : LeafSite := ⟨s.kind, s.slot.toNat, s.head.toNat⟩

theorem LeafSite64.toSite_inj {s s' : LeafSite64} (h : s.toSite = s'.toSite) : s = s' := by
  obtain ⟨kind, slot, head⟩ := s
  obtain ⟨kind', slot', head'⟩ := s'
  simp only [toSite, LeafSite.mk.injEq, UInt64.toNat_inj] at h
  obtain ⟨rfl, rfl, rfl⟩ := h
  rfl

namespace SeqLayout64

variable (l : SeqLayout64)

def nLeaves : UInt64 := 2 * l.heads * (l.nAttn + l.nRecur) + l.heads * l.nAttn

/-- Key cache leaf of head `h` of attention layer `slot`. -/
def kcache (slot h : UInt64) : Option UInt64 :=
  if slot < l.nAttn ∧ h < l.heads then some (2 * (slot * l.heads + h)) else none

/-- Value cache leaf of head `h` of attention layer `slot`. -/
def vcache (slot h : UInt64) : Option UInt64 := (l.kcache slot h).map (· + 1)

/-- Record leaf of head `h` of recurrent layer `slot`. -/
def record (slot h : UInt64) : Option UInt64 :=
  if slot < l.nRecur ∧ h < l.heads then some (2 * l.heads * l.nAttn + 2 * (slot * l.heads + h))
  else none

/-- Checkpoint leaf of head `h` of recurrent layer `slot`. -/
def checkpoint (slot h : UInt64) : Option UInt64 := (l.record slot h).map (· + 1)

/-- Softmax mass leaf of key/value head `h` of attention layer `slot`. -/
def lse (slot h : UInt64) : Option UInt64 :=
  if slot < l.nAttn ∧ h < l.heads then
    some (2 * l.heads * (l.nAttn + l.nRecur) + slot * l.heads + h)
  else none

/-- The number of a leaf, by the function of its kind. -/
def leaf (s : LeafSite64) : Option UInt64 :=
  match s.kind with
  | .kcache => l.kcache s.slot s.head
  | .vcache => l.vcache s.slot s.head
  | .record => l.record s.slot s.head
  | .checkpoint => l.checkpoint s.slot s.head
  | .lse => l.lse s.slot s.head

/-- The layers that have leaves of a kind. -/
def slots : LeafKind → UInt64
  | .kcache | .vcache | .lse => l.nAttn
  | .record | .checkpoint => l.nRecur

def sites : Set LeafSite64 := {s | s.slot < l.slots s.kind ∧ s.head < l.heads}

/-- The numbers of the leaves of the tree. -/
def numbers : Set UInt64 := {i | i < l.nLeaves}

/-- The same layout over the naturals. -/
def toLayout : SeqLayout := ⟨l.nAttn.toNat, l.nRecur.toNat, l.heads.toNat⟩

variable {l} {s : LeafSite64} {i : UInt64}

/-! ## The words agree with the naturals -/

theorem toNat_nLeaves : l.nLeaves.toNat = l.toLayout.nLeaves % 2 ^ 64 := by
  simp only [nLeaves, SeqLayout.nLeaves, toLayout, UInt64.toNat_add, UInt64.toNat_mul,
    UInt64.reduceToNat, Nat.add_mod_mod, Nat.mod_add_mod, Nat.mul_mod_mod, Nat.mod_mul_mod]

theorem mem_sites : s ∈ l.sites ↔ s.toSite ∈ l.toLayout.sites := by
  obtain ⟨kind, slot, head⟩ := s
  have hslots : (l.slots kind).toNat = l.toLayout.slots kind := by cases kind <;> rfl
  change slot < l.slots kind ∧ head < l.heads ↔ slot.toNat < l.toLayout.slots kind ∧ _
  rw [UInt64.lt_iff_toNat_lt, UInt64.lt_iff_toNat_lt, hslots]
  rfl

/-- A site of the layout over the naturals is one in words. -/
theorem exists_toSite {s : LeafSite} (h : s ∈ l.toLayout.sites) :
    ∃ s' ∈ l.sites, s'.toSite = s := by
  obtain ⟨kind, slot, head⟩ := s
  have hslot : slot < 2 ^ 64 := by
    have hlt : slot < l.toLayout.slots kind := h.1
    refine Nat.lt_trans hlt ?_
    cases kind <;> exact UInt64.toNat_lt _
  have hhead : head < 2 ^ 64 := Nat.lt_trans (show head < l.heads.toNat from h.2) l.heads.toNat_lt
  have hsite : (⟨kind, .ofNat slot, .ofNat head⟩ : LeafSite64).toSite = ⟨kind, slot, head⟩ := by
    rw [LeafSite64.toSite, UInt64.toNat_ofNat_of_lt' hslot, UInt64.toNat_ofNat_of_lt' hhead]
  exact ⟨_, mem_sites.mpr (hsite ▸ h), hsite⟩

/-- The number of a leaf wraps around. -/
theorem leaf_of_mem (h : s ∈ l.sites) : ∃ i, l.leaf s = some i ∧
    i.toNat = (l.toLayout.base s.kind +
      SeqLayout.stride s.kind * (s.slot.toNat * l.heads.toNat + s.head.toNat)) % 2 ^ 64 := by
  obtain ⟨kind, slot, head⟩ := s
  cases kind with
  | kcache =>
    have hin : slot < l.nAttn ∧ head < l.heads := h
    refine ⟨_, if_pos hin, ?_⟩
    simp only [SeqLayout.base, SeqLayout.stride, UInt64.toNat_add, UInt64.toNat_mul,
      UInt64.reduceToNat, Nat.mod_add_mod, Nat.mul_mod_mod, Nat.zero_add]
  | vcache =>
    have hin : slot < l.nAttn ∧ head < l.heads := h
    refine ⟨2 * (slot * l.heads + head) + 1, ?_, ?_⟩
    · simp only [leaf, vcache, kcache, if_pos hin, Option.map_some]
    · simp only [SeqLayout.base, SeqLayout.stride, UInt64.toNat_add, UInt64.toNat_mul,
        UInt64.reduceToNat, Nat.mod_add_mod, Nat.mul_mod_mod]
      rw [Nat.add_comm]
  | record =>
    have hin : slot < l.nRecur ∧ head < l.heads := h
    refine ⟨_, if_pos hin, ?_⟩
    simp only [SeqLayout.base, SeqLayout.stride, toLayout, UInt64.toNat_add, UInt64.toNat_mul,
      UInt64.reduceToNat, Nat.add_mod_mod, Nat.mod_add_mod, Nat.mul_mod_mod, Nat.mod_mul_mod]
  | checkpoint =>
    have hin : slot < l.nRecur ∧ head < l.heads := h
    refine ⟨2 * l.heads * l.nAttn + 2 * (slot * l.heads + head) + 1, ?_, ?_⟩
    · simp only [leaf, checkpoint, record, if_pos hin, Option.map_some]
    · simp only [SeqLayout.base, SeqLayout.stride, toLayout, UInt64.toNat_add, UInt64.toNat_mul,
        UInt64.reduceToNat, Nat.add_mod_mod, Nat.mod_add_mod, Nat.mul_mod_mod, Nat.mod_mul_mod]
      rw [Nat.add_right_comm]
  | lse =>
    have hin : slot < l.nAttn ∧ head < l.heads := h
    refine ⟨_, if_pos hin, ?_⟩
    simp only [SeqLayout.base, SeqLayout.stride, toLayout, UInt64.toNat_add, UInt64.toNat_mul,
      UInt64.reduceToNat, Nat.add_mod_mod, Nat.mod_add_mod, Nat.mul_mod_mod, Nat.mod_mul_mod,
      Nat.one_mul, Nat.add_assoc]

theorem leaf_of_notMem (h : s ∉ l.sites) : l.leaf s = none := by
  obtain ⟨kind, slot, head⟩ := s
  cases kind with
  | kcache => exact if_neg h
  | vcache => exact Option.map_eq_none_iff.mpr (if_neg h)
  | record => exact if_neg h
  | checkpoint => exact Option.map_eq_none_iff.mpr (if_neg h)
  | lse => exact if_neg h

/-- Below `2 ^ 64` leaves, a leaf has the number of the layout over the naturals. -/
theorem leaf_toNat (hfits : l.toLayout.nLeaves < 2 ^ 64) (h : s ∈ l.sites) :
    ∃ i, l.leaf s = some i ∧ l.toLayout.leaf s.toSite = some i.toNat := by
  obtain ⟨i, hi, hnumber⟩ := leaf_of_mem h
  have hmem := mem_sites.mp h
  have hlt := SeqLayout.leaf_lt hmem
  refine ⟨i, hi, ?_⟩
  rw [hnumber, SeqLayout.leaf_of_mem hmem]
  exact congrArg some (Nat.mod_eq_of_lt (Nat.lt_trans hlt hfits)).symm

/-! ## The leaves of the tree -/

theorem bijOn_leaf (hfits : l.toLayout.nLeaves < 2 ^ 64) :
    Set.BijOn l.leaf l.sites (some '' l.numbers) := by
  have hn : l.nLeaves.toNat = l.toLayout.nLeaves := toNat_nLeaves.trans (Nat.mod_eq_of_lt hfits)
  obtain ⟨hmaps, hinj, hsurj⟩ := l.toLayout.bijOn_leaf
  refine ⟨?_, ?_, ?_⟩
  · intro s hs
    obtain ⟨i, hi, hleaf⟩ := leaf_toNat hfits hs
    obtain ⟨n, hn', heq⟩ := hmaps (mem_sites.mp hs)
    rw [hleaf] at heq
    cases heq
    refine ⟨i, ?_, hi.symm⟩
    exact UInt64.lt_iff_toNat_lt.mpr (hn ▸ hn')
  · intro s hs s' hs' heq
    obtain ⟨i, hi, hleaf⟩ := leaf_toNat hfits hs
    obtain ⟨i', hi', hleaf'⟩ := leaf_toNat hfits hs'
    obtain rfl : i = i' := Option.some.inj (hi.symm.trans (heq.trans hi'))
    exact LeafSite64.toSite_inj
      (hinj (mem_sites.mp hs) (mem_sites.mp hs') (hleaf.trans hleaf'.symm))
  · rintro - ⟨i, hi, rfl⟩
    have hlt : i.toNat < l.toLayout.nLeaves := hn ▸ UInt64.lt_iff_toNat_lt.mp hi
    obtain ⟨s, hs, hleaf⟩ := hsurj ⟨i.toNat, hlt, rfl⟩
    obtain ⟨s', hs', rfl⟩ := exists_toSite hs
    obtain ⟨i', hi', hleaf'⟩ := leaf_toNat hfits hs'
    refine ⟨s', hs', hi'.trans (congrArg some ?_)⟩
    exact UInt64.toNat_inj.mp (Option.some.inj (hleaf'.symm.trans hleaf))

/-- There are as many sites as leaves over the naturals. -/
theorem card_sites : Nat.card l.sites = l.toLayout.nLeaves := by
  have hsites : LeafSite64.toSite '' l.sites = l.toLayout.sites := by
    apply Set.Subset.antisymm
    · rintro - ⟨s, hs, rfl⟩
      exact mem_sites.mp hs
    · intro s hs
      exact exists_toSite hs
  have hbij := l.toLayout.bijOn_leaf
  calc Nat.card l.sites = Nat.card (LeafSite64.toSite '' l.sites) :=
        (Nat.card_image_of_injective (fun _ _ => LeafSite64.toSite_inj) _).symm
    _ = Nat.card l.toLayout.sites := by rw [hsites]
    _ = Nat.card (some '' Set.Iio l.toLayout.nLeaves) := Nat.card_congr hbij.equiv
    _ = Nat.card (Set.Iio l.toLayout.nLeaves) :=
        Nat.card_image_of_injective (Option.some_injective _) _
    _ = l.toLayout.nLeaves := (Set.ncard_Iio_nat _)

/-- **The numbers of the leaves are those of the tree, each once, exactly while the words hold
them.** -/
theorem leaf_bijOn (l : SeqLayout64) :
    (Set.BijOn l.leaf l.sites (some '' l.numbers) ↔
      2 * l.heads.toNat * (l.nAttn.toNat + l.nRecur.toNat) + l.heads.toNat * l.nAttn.toNat <
        2 ^ 64) ∧
    ∀ s ∉ l.sites, l.leaf s = none := by
  refine ⟨⟨fun hbij => ?_, bijOn_leaf⟩, fun s => leaf_of_notMem⟩
  -- as many sites as words below a word
  have hcard : Nat.card l.sites = l.nLeaves.toNat := by
    calc Nat.card l.sites = Nat.card (some '' l.numbers) := Nat.card_congr hbij.equiv
      _ = Nat.card (l.numbers) := Nat.card_image_of_injective (Option.some_injective _) _
      _ = Nat.card (UInt64.toNat '' l.numbers) :=
          (Nat.card_image_of_injective (fun _ _ => UInt64.toNat_inj.mp) _).symm
      _ = Nat.card (Set.Iio l.nLeaves.toNat) := by
          congr 2
          ext n
          constructor
          · rintro ⟨i, hi, rfl⟩
            exact UInt64.lt_iff_toNat_lt.mp hi
          · intro hn
            have hlt : n < 2 ^ 64 := Nat.lt_trans hn l.nLeaves.toNat_lt
            have hnat : (UInt64.ofNat n).toNat = n := UInt64.toNat_ofNat_of_lt' hlt
            exact ⟨.ofNat n, UInt64.lt_iff_toNat_lt.mpr (hnat.symm ▸ hn), hnat⟩
      _ = l.nLeaves.toNat := (Set.ncard_Iio_nat _)
  rw [card_sites] at hcard
  have hlt := l.nLeaves.toNat_lt
  rwa [← hcard] at hlt

/-- With `2 ^ 62` attention layers of four heads the number of the leaves wraps around to none, and
the first key leaf is the first mass leaf. -/
theorem leaf_not_bijOn :
    let l : SeqLayout64 := ⟨0x4000000000000000, 0, 4⟩
    l.nLeaves = 0 ∧ l.kcache 0 0 = some 0 ∧ l.lse 0 0 = some 0 ∧
      ¬Set.BijOn l.leaf l.sites (some '' l.numbers) := by
  intro l
  have hzero : l.nLeaves = 0 := by decide
  refine ⟨hzero, by decide, by decide, fun hbij => ?_⟩
  obtain ⟨i, hi, -⟩ := hbij.1 (show (⟨.kcache, 0, 0⟩ : LeafSite64) ∈ l.sites by
    exact ⟨by decide, by decide⟩)
  change i < l.nLeaves at hi
  rw [hzero, UInt64.lt_iff_toNat_lt] at hi
  exact absurd hi (Nat.not_lt_zero _)

end SeqLayout64

end KeryxMiner.Inference
