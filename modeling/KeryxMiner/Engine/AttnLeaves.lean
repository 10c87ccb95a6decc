import KeryxMiner.Engine.SeqContents

/-!
# The leaves of the attention layers

`seq_leaf_bytes` finds the rows of every head in the cache and its masses in their array. It assigns
them to the key, value and mass leaves of the heads that a layer has, and to no others, unless a mass
is not finite (`seqLeafBytes_eq_ok_iff`).
-/

namespace KeryxMiner.Engine

open Inference (Blake3 Hash LeafKind LeafSite SeqLayout blake3 leafSlice)

variable {c : Contents} {spec : SeqSpec} {cache : List LayerCache} {a : SeqAttn}
  {b bytes : List UInt8} {layers heads lo hi nPos h head t i n : Nat} {s : LeafSite}

/-! ## Where the rows lie -/

/-- The bytes of a head in the row of a position. -/
theorem slice_cacheRow (row : Nat → Nat → List UInt8) {m hb : Nat}
    (hrow : ∀ t < nPos, ∀ h < m, (row h t).length = hb) (ht : t < nPos) (hh : h < m) :
    slice ((List.range nPos).flatMap fun t => (List.range m).flatMap fun h => row h t)
      (t * (m * hb) + h * hb) (t * (m * hb) + (h + 1) * hb) = .ok (row h t) := by
  have hrows : ∀ t < nPos, ((List.range m).flatMap fun h => row h t).length = m * hb :=
    fun t ht => length_flatMap_range (hrow t ht)
  have hle : (h + 1) * hb ≤ m * hb := Nat.mul_le_mul_right _ hh
  have hpos : (t + 1) * (m * hb) ≤ nPos * (m * hb) := Nat.mul_le_mul_right _ ht
  rw [Nat.succ_mul] at hle hpos
  have hpart : block hb (block (m * hb)
      ((List.range nPos).flatMap fun t => (List.range m).flatMap fun h => row h t) t) h = row h t := by
    rw [block_flatMap hrows ht, block_flatMap (hrow t ht) hh]
  have hsub : t * (m * hb) + (h * hb + hb) - (t * (m * hb) + h * hb) = hb := by omega
  rw [Nat.succ_mul, slice_of_le (by omega) (by rw [length_flatMap_range hrows]; omega), leafSlice, hsub,
    ← List.drop_drop]
  rw [block, block, List.drop_take, List.take_take, Nat.min_eq_left (by omega)] at hpart
  rw [hpart]

/-- The mass of a query head at a position. -/
theorem getElem?_masses {layer : Nat} (hlayer : layer < layers) (ht : t < nPos) (hhead : head < heads) :
    (c.masses layers heads nPos)[(layer * nPos + t) * heads + head]? = some (c.mass layer head t) := by
  have hrow : ∀ layer, ∀ t < nPos,
      ((List.range heads).map fun head => c.mass layer head t).length = heads := by
    intro layer t _
    rw [List.length_map, List.length_range]
  have hindex : (layer * nPos + t) * heads + head = layer * (nPos * heads) + (t * heads + head) := by
    rw [Nat.add_mul, Nat.mul_assoc, Nat.add_assoc]
  have hle : (t + 1) * heads ≤ nPos * heads := Nat.mul_le_mul_right _ ht
  rw [Nat.succ_mul] at hle
  rw [Contents.masses, hindex, ← getElem?_block (by omega),
    block_flatMap (fun layer _ => length_flatMap_range (hrow layer)) hlayer, ← getElem?_block hhead,
    block_flatMap (hrow layer) ht, List.getElem?_map, List.getElem?_range hhead]
  rfl

theorem length_masses : (c.masses layers heads nPos).length = layers * nPos * heads := by
  have hrow : ∀ layer, ∀ t < nPos,
      ((List.range heads).map fun head => c.mass layer head t).length = heads := by
    intro layer t _
    rw [List.length_map, List.length_range]
  rw [Contents.masses, length_flatMap_range fun layer _ => length_flatMap_range (hrow layer),
    Nat.mul_assoc]

theorem SeqSpec.Checked.attn_of_mem (hspec : spec.Checked) (ha : a ∈ spec.attn) :
    spec.attn[a.slot]? = some a ∧ a.slot < spec.nAttn ∧ a.nHeadKv ≤ spec.heads := by
  obtain ⟨i, hi⟩ := List.mem_iff_getElem?.mp ha
  obtain ⟨rfl, hheads, -⟩ := hspec.attn i a hi
  have hlt := (List.getElem?_eq_some_iff.mp hi).1
  rw [hspec.nAttn] at hlt
  exact ⟨hi, hlt, hheads⟩

/-- The query heads of a layer are those of its key/value heads. -/
theorem SeqSpec.Checked.group (hspec : spec.Checked) (ha : a ∈ spec.attn) :
    0 < a.nHeadKv ∧ a.nHead = a.nHeadKv * a.group := by
  obtain ⟨-, -, hpos, hdvd⟩ := hspec.attn _ a (hspec.attn_of_mem ha).1
  exact ⟨hpos, (Nat.mul_div_cancel' hdvd).symm⟩

theorem queryHead_lt {qi : Nat} (hspec : spec.Checked) (ha : a ∈ spec.attn) (hh : h < a.nHeadKv)
    (hqi : qi < a.group) : h * a.group + qi < a.nHead := by
  have hle : (h + 1) * a.group ≤ a.nHeadKv * a.group := Nat.mul_le_mul_right _ hh
  rw [Nat.succ_mul] at hle
  rw [(hspec.group ha).2]
  omega

/-- The engine looks for the cache of a layer where it is. -/
theorem Contents.CacheOf.cacheAt (hcache : c.CacheOf spec nPos cache) (hspec : spec.Checked)
    (ha : a ∈ spec.attn) : cacheAt spec cache a = some (c.layerCache nPos a) := by
  rw [Engine.cacheAt]
  cases hcache with
  | attention h =>
    rw [if_pos (by rw [h, List.length_map]), h, List.getElem?_map, (hspec.attn_of_mem ha).1]
    rfl
  | model hlen h =>
    rw [if_neg hlen]
    exact h a ha

/-! ## What the engine assigns -/

/-- All masses of a key/value head at a position are finite. -/
def Contents.FiniteAt (c : Contents) (a : SeqAttn) (h t : Nat) : Prop :=
  ∀ qi ∈ List.range a.group, isFinite (c.mass a.layer (h * a.group + qi) t) = true

theorem finite_iff (hspec : spec.Checked) : c.Finite spec nPos ↔
    ∀ a ∈ spec.attn, ∀ h ∈ List.range a.nHeadKv, ∀ t ∈ List.range nPos, c.FiniteAt a h t := by
  simp only [Contents.FiniteAt, List.mem_range]
  constructor
  · intro hfinite a ha h hh t ht qi hqi
    exact hfinite a ha _ (queryHead_lt hspec ha hh hqi) t ht
  · intro hfinite a ha head hhead t ht
    obtain ⟨-, hnHead⟩ := hspec.group ha
    rw [hnHead] at hhead
    have hgroup : 0 < a.group := Nat.pos_of_ne_zero fun hzero => by simp [hzero] at hhead
    have hmass := hfinite a ha (head / a.group) ((Nat.div_lt_iff_lt_mul hgroup).mpr hhead) t ht
      (head % a.group) (Nat.mod_lt _ hgroup)
    rwa [Nat.div_add_mod'] at hmass

/-- The assignments to the three leaves of a head. -/
def Contents.headWrites (c : Contents) (spec : SeqSpec) (nPos : Nat) (a : SeqAttn) (h : Nat) :
    List (Nat × List UInt8) :=
  [(2 * (a.slot * spec.heads + h), (List.range nPos).flatMap (c.key a h)),
    (2 * (a.slot * spec.heads + h) + 1, (List.range nPos).flatMap (c.value a h)),
    (2 * spec.heads * (spec.nAttn + spec.nRecur) + a.slot * spec.heads + h,
      (List.range nPos).flatMap (c.massRow a h))]

def Contents.attnWrites (c : Contents) (spec : SeqSpec) (nPos : Nat) : List (Nat × List UInt8) :=
  (spec.attn.map fun a => (List.range a.nHeadKv).map (c.headWrites spec nPos a)).flatten.flatten

section

variable (hspec : spec.Checked) (hshape : MassShape spec layers heads) (ha : a ∈ spec.attn)
include hspec hshape ha

theorem massRow_eq_ok_iff {m : List (List UInt8)} (hh : h < a.nHeadKv) (ht : t < nPos) :
    massRow (c.masses layers heads nPos) spec.lseShape.2 nPos a h a.group t = .ok m ↔
      c.FiniteAt a h t ∧
        m = (List.range a.group).map fun qi =>
          toLe 4 (c.mass a.layer (h * a.group + qi) t).toNat := by
  apply mapM'_eq_ok_iff
  intro qi hqi bytes
  have hlayer : a.layer < layers := (hshape.layer layers).mp (Nat.le_refl _) a ha
  have hhead : h * a.group + qi < heads :=
    (queryHead_lt hspec ha hh (List.mem_range.mp hqi)).trans_le
      ((hshape.head heads).mp (Nat.le_refl _) a ha)
  have hget := getElem?_masses (c := c) hlayer ht hhead
  rw [hshape.lseShape, Nat.add_assoc, hget, bind_of_ok (orFail_eq_ok.mpr rfl), refuse_bind_eq_ok,
    Bool.not_eq_false]
  exact and_congr_right fun _ => ⟨fun heq => (Except.ok.inj heq).symm, fun heq => heq ▸ rfl⟩

theorem headRows_eq_ok_iff {rows : List UInt8 × List UInt8 × List UInt8} (hsized : c.Sized spec nPos)
    (hh : h < a.nHeadKv) (ht : t < nPos) :
    headRows (c.layerCache nPos a) (c.masses layers heads nPos) spec.lseShape.2 nPos a h a.rowBytes
        a.group t = .ok rows ↔
      c.FiniteAt a h t ∧ rows = (c.key a h t, c.value a h t, c.massRow a h t) := by
  have hkey := slice_cacheRow (c.key a) (fun t ht h hh => hsized.key a ha h hh t ht) ht hh
  have hvalue := slice_cacheRow (c.value a) (fun t ht h hh => hsized.value a ha h hh t ht) ht hh
  rw [headRows, Contents.layerCache]
  dsimp only
  rw [hkey, hvalue]
  change (massRow _ _ _ _ _ _ _ >>= _) = _ ↔ _
  rw [bind_eq_ok]
  constructor
  · rintro ⟨m, hm, ⟨⟩⟩
    obtain ⟨hfinite, rfl⟩ := (massRow_eq_ok_iff hspec hshape ha hh ht).mp hm
    rw [← List.flatMap_def]
    exact ⟨hfinite, rfl⟩
  · rintro ⟨hfinite, rfl⟩
    refine ⟨_, (massRow_eq_ok_iff hspec hshape ha hh ht).mpr ⟨hfinite, rfl⟩, ?_⟩
    rw [← List.flatMap_def]
    rfl

theorem headLeaves_eq_ok_iff {ws : List (Nat × List UInt8)} (hsized : c.Sized spec nPos)
    (hh : h < a.nHeadKv) :
    headLeaves spec (c.layerCache nPos a) (c.masses layers heads nPos) nPos a h = .ok ws ↔
      (∀ t ∈ List.range nPos, c.FiniteAt a h t) ∧ ws = c.headWrites spec nPos a h := by
  have hrows {rows : List (List UInt8 × List UInt8 × List UInt8)} :
      (List.range nPos).mapM' (headRows (c.layerCache nPos a) (c.masses layers heads nPos)
          spec.lseShape.2 nPos a h a.rowBytes a.group) = .ok rows ↔
        (∀ t ∈ List.range nPos, c.FiniteAt a h t) ∧
          rows = (List.range nPos).map fun t => (c.key a h t, c.value a h t, c.massRow a h t) :=
    mapM'_eq_ok_iff fun t ht _ =>
      headRows_eq_ok_iff hspec hshape ha hsized hh (List.mem_range.mp ht)
  change ((List.range nPos).mapM' _ >>= _) = _ ↔ _
  rw [bind_eq_ok]
  constructor
  · rintro ⟨rows, hok, ⟨⟩⟩
    obtain ⟨hfinite, rfl⟩ := hrows.mp hok
    refine ⟨hfinite, ?_⟩
    rw [List.flatMap_map, List.flatMap_map, List.flatMap_map]
    rfl
  · rintro ⟨hfinite, rfl⟩
    refine ⟨_, hrows.mpr ⟨hfinite, rfl⟩, ?_⟩
    rw [List.flatMap_map, List.flatMap_map, List.flatMap_map]
    rfl

theorem layerLeaves_eq_ok_iff {wss : List (List (Nat × List UInt8))} (hsized : c.Sized spec nPos)
    (hcache : c.CacheOf spec nPos cache) :
    layerLeaves spec cache (c.masses layers heads nPos) nPos a = .ok wss ↔
      (∀ h ∈ List.range a.nHeadKv, ∀ t ∈ List.range nPos, c.FiniteAt a h t) ∧
        wss = (List.range a.nHeadKv).map (c.headWrites spec nPos a) := by
  rw [layerLeaves, hcache.cacheAt hspec ha, bind_of_ok (orFail_eq_ok.mpr rfl)]
  rw [refuse_bind_eq_ok, mapM'_eq_ok_iff fun h hh _ =>
    headLeaves_eq_ok_iff hspec hshape ha hsized (List.mem_range.mp hh)]
  refine and_iff_right ?_
  rintro (h | h) <;> exact h rfl

end

/-- **The engine assigns the contents to the attention leaves if all masses are finite, and fails
otherwise.** -/
theorem seqLeafBytes_eq_ok_iff {out : List (List UInt8)} (hspec : spec.Checked)
    (hshape : MassShape spec layers heads) (hsized : c.Sized spec nPos)
    (hcache : c.CacheOf spec nPos cache) :
    seqLeafBytes spec cache (c.masses layers heads nPos) nPos = .ok out ↔
      c.Finite spec nPos ∧
        out = assign (c.attnWrites spec nPos) (List.replicate spec.nLeaves []) := by
  have hlayers {wsss : List (List (List (Nat × List UInt8)))} :
      spec.attn.mapM' (layerLeaves spec cache (c.masses layers heads nPos) nPos) = .ok wsss ↔
        (∀ a ∈ spec.attn, ∀ h ∈ List.range a.nHeadKv, ∀ t ∈ List.range nPos, c.FiniteAt a h t) ∧
          wsss = spec.attn.map fun a => (List.range a.nHeadKv).map (c.headWrites spec nPos a) :=
    mapM'_eq_ok_iff fun a ha _ => layerLeaves_eq_ok_iff hspec hshape ha hsized hcache
  rw [seqLeafBytes, refuse_bind_eq_ok, bind_eq_ok, finite_iff hspec, hshape.lseShape]
  rw [and_iff_right (by rw [not_not]; exact length_masses)]
  constructor
  · rintro ⟨wsss, hok, ⟨⟩⟩
    obtain ⟨hfinite, rfl⟩ := hlayers.mp hok
    exact ⟨hfinite, rfl⟩
  · rintro ⟨hfinite, rfl⟩
    exact ⟨_, hlayers.mpr ⟨hfinite, rfl⟩, rfl⟩

/-! ## The attention leaves -/

/-- An attention leaf whose layer has its head. -/
def AttnLeaf (spec : SeqSpec) (s : LeafSite) : Prop :=
  (s.kind ≠ .record ∧ s.kind ≠ .checkpoint) ∧ spec.Has s

/-- The assignments are those of `f` to the leaves with `P`. -/
structure AssignsTo {α : Type} (l : SeqLayout) (P : LeafSite → Prop) (f : LeafSite → α)
    (ws : List (Nat × α)) : Prop where
  sound : ∀ w ∈ ws, ∃ s ∈ l.sites, l.leaf s = some w.1 ∧ P s ∧ w.2 = f s
  complete : ∀ s ∈ l.sites, P s → ∃ w ∈ ws, l.leaf s = some w.1

/-- Two leaves of the layout do not have one number. -/
theorem leaf_inj {l : SeqLayout} {s s' : LeafSite} (hs : s ∈ l.sites) (hs' : s' ∈ l.sites)
    (h' : l.leaf s = some n) (h'' : l.leaf s' = some n) : s = s' :=
  l.bijOn_leaf.injOn hs hs' (h'.trans h''.symm)

/-- The leaves with `P` get what is assigned to them, and the others stay. -/
theorem AssignsTo.getElem? {α : Type} {l : SeqLayout} {P : LeafSite → Prop} {f : LeafSite → α}
    {ws : List (Nat × α)} {out : List α} (hws : AssignsTo l P f ws) (hs : s ∈ l.sites)
    (hleaf : l.leaf s = some n) (hn : n < out.length) :
    (P s → (assign ws out)[n]? = some (f s)) ∧ (¬P s → (assign ws out)[n]? = out[n]?) := by
  have hsite : ∀ w ∈ ws, w.1 = n → P s ∧ w.2 = f s := by
    intro w hw hwn
    obtain ⟨s', hs', hleaf', hP, hf⟩ := hws.sound w hw
    rw [hwn] at hleaf'
    rw [leaf_inj hs hs' hleaf hleaf']
    exact ⟨hP, hf⟩
  constructor
  · intro hP
    obtain ⟨w, hw, hleaf'⟩ := hws.complete s hs hP
    have hwn : w.1 = n := Option.some.inj (hleaf'.symm.trans hleaf)
    exact getElem?_assign_of_mem hn ⟨w, hw, hwn⟩ fun w' hw' hwn' => (hsite w' hw' hwn').2
  · intro hP
    exact getElem?_assign_of_notMem fun w hw hwn => hP (hsite w hw hwn).1

theorem attn_leaf (hspec : spec.Checked) (ha : a ∈ spec.attn) (hh : h < a.nHeadKv) :
    spec.layout.kcache a.slot h = some (2 * (a.slot * spec.heads + h)) ∧
      spec.layout.vcache a.slot h = some (2 * (a.slot * spec.heads + h) + 1) ∧
      spec.layout.lse a.slot h =
        some (2 * spec.heads * (spec.nAttn + spec.nRecur) + a.slot * spec.heads + h) := by
  obtain ⟨-, hslot, hheads⟩ := hspec.attn_of_mem ha
  have hin : a.slot < spec.nAttn ∧ h < spec.heads := ⟨hslot, hh.trans_le hheads⟩
  have hkcache : spec.layout.kcache a.slot h = some (2 * (a.slot * spec.heads + h)) := if_pos hin
  refine ⟨hkcache, ?_, if_pos hin⟩
  rw [SeqLayout.vcache, hkcache]
  rfl

/-- The engine's assignments are to the leaves where the verifier has them. -/
theorem attnWrites_assigns (hspec : spec.Checked) : AssignsTo spec.layout (AttnLeaf spec)
    (fun s => (c.rows spec nPos s).flatten) (c.attnWrites spec nPos) := by
  constructor
  · intro w hw
    obtain ⟨ws, hws, hw⟩ := List.mem_flatten.mp hw
    obtain ⟨wss, hwss, hws⟩ := List.mem_flatten.mp hws
    obtain ⟨a, ha, rfl⟩ := List.mem_map.mp hwss
    obtain ⟨h, hh, rfl⟩ := List.mem_map.mp hws
    rw [List.mem_range] at hh
    obtain ⟨hget, hslot, hle⟩ := hspec.attn_of_mem ha
    obtain ⟨hk, hv, hm⟩ := attn_leaf hspec ha hh
    have hsite : a.slot < spec.nAttn ∧ h < spec.heads := ⟨hslot, hh.trans_le hle⟩
    have hrows : ∀ row : SeqAttn → Nat → List UInt8, (List.range nPos).flatMap (row a) =
        (spec.ofAttn a.slot h fun a => (List.range nPos).map (row a)).flatten := by
      intro row
      rw [SeqSpec.ofAttn_of_has hget hh, List.flatMap_def]
    simp only [Contents.headWrites, List.mem_cons, List.not_mem_nil, or_false] at hw
    rcases hw with rfl | rfl | rfl
    · exact ⟨⟨.kcache, a.slot, h⟩, hsite, hk, ⟨⟨by simp, by simp⟩, a, hget, hh⟩, hrows fun a => c.key a h⟩
    · exact ⟨⟨.vcache, a.slot, h⟩, hsite, hv, ⟨⟨by simp, by simp⟩, a, hget, hh⟩, hrows fun a => c.value a h⟩
    · exact ⟨⟨.lse, a.slot, h⟩, hsite, hm, ⟨⟨by simp, by simp⟩, a, hget, hh⟩, hrows fun a => c.massRow a h⟩
  · rintro ⟨kind, slot, head⟩ - ⟨⟨hrecord, hckpt⟩, hhas⟩
    have hwrites : ∀ a ∈ spec.attn, ∀ h < a.nHeadKv, ∀ w ∈ c.headWrites spec nPos a h,
        w ∈ c.attnWrites spec nPos := fun a ha h hh w hw =>
      List.mem_flatten.mpr ⟨_, List.mem_flatten.mpr ⟨_, List.mem_map_of_mem ha,
        List.mem_map_of_mem (List.mem_range.mpr hh)⟩, hw⟩
    cases kind with
    | kcache =>
      obtain ⟨a, hget, hhead⟩ := hhas
      have ha := List.mem_of_getElem? hget
      obtain ⟨rfl, -⟩ := hspec.attn slot a hget
      exact ⟨_, hwrites a ha head hhead _ List.mem_cons_self, (attn_leaf hspec ha hhead).1⟩
    | vcache =>
      obtain ⟨a, hget, hhead⟩ := hhas
      have ha := List.mem_of_getElem? hget
      obtain ⟨rfl, -⟩ := hspec.attn slot a hget
      exact ⟨_, hwrites a ha head hhead _ (List.mem_cons_of_mem _ List.mem_cons_self),
        (attn_leaf hspec ha hhead).2.1⟩
    | lse =>
      obtain ⟨a, hget, hhead⟩ := hhas
      have ha := List.mem_of_getElem? hget
      obtain ⟨rfl, -⟩ := hspec.attn slot a hget
      exact ⟨_, hwrites a ha head hhead _
        (List.mem_cons_of_mem _ (List.mem_cons_of_mem _ List.mem_cons_self)),
        (attn_leaf hspec ha hhead).2.2⟩
    | record => exact absurd rfl hrecord
    | checkpoint => exact absurd rfl hckpt

end KeryxMiner.Engine
