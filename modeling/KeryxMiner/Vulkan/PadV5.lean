import KeryxMiner.Pom.Walk
import KeryxMiner.Vulkan.SegTable
import Mathlib.Algebra.GroupWithZero.Nat

/-!
# The pad in the segment table

The device fills the pad of the fifth walk, entry after entry in its shards (`fill_writes`), and the
table of the walk has the weights up to their last whole tile and then the shards. A chunk before the
cut is where it was and each one behind it is the pad's entry, so every tile is read where its chunks
lie (`lookups_agree`).
-/

namespace KeryxMiner.Vulkan

open Pom

/-! ## The fill -/

def V5_PAD_ROUNDS : Nat := 1920

def V5_FILL_SLICE : Nat := 1 <<< 20

def V5_PAD_SHARD_ENTRIES : Nat := 1 <<< 25

structure FillPush where
  base : Nat
  first : Nat
  w : PadWords
  count : Nat
  rounds : Nat

def entryBytes : PadWords → List UInt8
  | (a, b, c, d) => toLe 8 a.toNat ++ toLe 8 b.toNat ++ toLe 8 c.toNat ++ toLe 8 d.toNat

/-- What invocation `i` of the fill writes, and where. Its rounds are those of the host. -/
def fillEntry (pc : FillPush) (i : Nat) : Nat × List UInt8 :=
  let (w0, w1, w2, w3) := pc.w
  (pc.base + i * 32,
    entryBytes (round4^[pc.rounds] (w0, w1 ^^^ UInt64.ofNat (pc.first + i), w2, w3)))

def fillWrites (pc : FillPush) : List (Nat × List UInt8) :=
  (List.range pc.count).map (fillEntry pc)

/-- The address and the number of entries of each shard, in the order of the pad. -/
structure PadV5 where
  segs : List (Nat × Nat)
  tiles : Nat

/-- The dispatches for the shard of `n` entries at `addr`, from entry `off` of it on. -/
def fillShard (w : PadWords) (addr first n off : Nat) : List FillPush :=
  if off < n then
    let count := min (n - off) V5_FILL_SLICE
    { base := addr + off * 32, first := first + off, w := w, count := count, rounds := V5_PAD_ROUNDS }
      :: fillShard w addr first n (off + count)
  else []
termination_by n - off
decreasing_by
  simp only [V5_FILL_SLICE]
  omega

/-- The shards from entry `first` on; `alloc` gives the address of a shard, or fails. -/
def fillFrom (alloc : Nat → Option Nat) (w : PadWords) (entries first k : Nat) :
    Option (List (Nat × Nat) × List FillPush) :=
  if first < entries then do
    let n := min (entries - first) V5_PAD_SHARD_ENTRIES
    let addr ← alloc k
    let (segs, pushes) ← fillFrom alloc w entries (first + n) (k + 1)
    some ((addr, n) :: segs, fillShard w addr first n 0 ++ pushes)
  else some ([], [])
termination_by entries - first
decreasing_by
  simp only [V5_PAD_SHARD_ENTRIES]
  omega

/-- The pad and the dispatches that fill it. -/
def PadV5.fill (alloc : Nat → Option Nat) (w : PadWords) (tiles : Nat) :
    Option (PadV5 × List FillPush) :=
  if tiles = 0 then none
  else do
    let (segs, pushes) ← fillFrom alloc w (tiles * V4_TILE_CHUNKS) 0 0
    some (⟨segs, tiles⟩, pushes)

/-! ## The table -/

/-- The ends of the shards. -/
def shardEnds : (fin : Nat) → List (Nat × Nat) → List Nat
  | _, [] => []
  | fin, (_, n) :: segs => (fin + n) :: shardEnds (fin + n) segs

/-- The segments from `i` on that start before the cut. -/
def keptSegments (starts : List Nat) (cap t i : Nat) : Nat :=
  if i < t ∧ startAt starts i < cap then keptSegments starts cap t (i + 1) else i
termination_by t - i
decreasing_by omega

/-- The starts and the addresses of the fifth walk's segments, and the number of weight tiles. -/
def PadV5.tables (pad : PadV5) (starts addrs : List Nat) : List Nat × List Nat × Nat :=
  let t := addrs.length
  let weightTiles := startAt starts t / V4_TILE_CHUNKS
  let cap := weightTiles * V4_TILE_CHUNKS
  let kept := List.range (keptSegments starts cap t 0)
  (0 :: kept.map (fun i => min (startAt starts (i + 1)) cap) ++ shardEnds cap pad.segs,
    kept.map (fun i => addrs.getD i 0) ++ pad.segs.map (·.1), weightTiles)

/-! ## The entries of the pad -/

/-- Where entry `e` of the pad lies. -/
def padAddress : List (Nat × Nat) → (e : Nat) → Option Nat
  | [], _ => none
  | (addr, n) :: segs, e => if e < n then some (addr + e * 32) else padAddress segs (e - n)

section

variable {alloc : Nat → Option Nat} {w : PadWords} {addr first n off entries k a e : Nat}
  {bytes : List UInt8} {segs : List (Nat × Nat)} {pushes : List FillPush}

theorem fillEntry_eq {count i : Nat} :
    fillEntry ⟨addr, first, w, count, V5_PAD_ROUNDS⟩ i =
      (addr + i * 32, padEntry w (UInt64.ofNat (first + i))) := by
  obtain ⟨a, b, c, d⟩ := w
  have hrounds : V5_PAD_ROUNDS = v5PRounds := rfl
  rw [fillEntry, padEntry, hrounds]
  dsimp only
  generalize round4^[v5PRounds] _ = x
  rfl

theorem mem_fillShard : (a, bytes) ∈ (fillShard w addr first n off).flatMap fillWrites ↔
    ∃ j, off ≤ j ∧ j < n ∧ addr + j * 32 = a ∧ padEntry w (UInt64.ofNat (first + j)) = bytes := by
  induction off using fillShard.induct n with
  | case1 off hlt count ih =>
    have hcount : off + count ≤ n := by omega
    rw [fillShard, if_pos hlt, List.flatMap_cons, List.mem_append, ih, fillWrites, List.mem_map]
    simp only [List.mem_range, fillEntry_eq, Prod.mk.injEq]
    constructor
    · rintro (⟨i, hi, ha, hbytes⟩ | ⟨j, hle, hj, h⟩)
      · refine ⟨off + i, Nat.le_add_right .., by omega, by omega, ?_⟩
        rw [← hbytes, Nat.add_assoc]
      · exact ⟨j, by omega, hj, h⟩
    · rintro ⟨j, hle, hj, ha, hbytes⟩
      rcases Nat.lt_or_ge j (off + count) with hin | hout
      · refine Or.inl ⟨j - off, by omega, by omega, ?_⟩
        rw [← hbytes, Nat.add_assoc, Nat.add_sub_cancel' hle]
      · exact Or.inr ⟨j, hout, hj, ha, hbytes⟩
  | case2 off hge =>
    rw [fillShard, if_neg hge]
    constructor
    · exact nofun
    · rintro ⟨j, hle, hj, -⟩
      omega

/-- The fill writes each entry of the pad where it lies, and nothing else. -/
theorem fillFrom_writes (h : fillFrom alloc w entries first k = some (segs, pushes))
    (hle : first ≤ entries) :
    first + (segs.map (·.2)).sum = entries ∧ ∀ a bytes, (a, bytes) ∈ pushes.flatMap fillWrites ↔
      ∃ e, padAddress segs e = some a ∧ padEntry w (UInt64.ofNat (first + e)) = bytes := by
  induction first, k using fillFrom.induct entries generalizing segs pushes with
  | case1 first k hlt n =>
    rename_i ih
    have hn : n = min (entries - first) V5_PAD_SHARD_ENTRIES := rfl
    have hnext : first + n ≤ entries := by omega
    rw [fillFrom, if_pos hlt] at h
    simp only [Option.bind_eq_bind, Option.bind_eq_some_iff] at h
    obtain ⟨addr, -, ⟨segs', pushes'⟩, hrest, h⟩ := h
    obtain ⟨rfl, rfl⟩ := Prod.mk.inj (Option.some.inj h)
    obtain ⟨hsum, hwrites⟩ := ih hrest hnext
    rw [← hn]
    refine ⟨?_, ?_⟩
    · rw [List.map_cons, List.sum_cons, ← Nat.add_assoc]
      exact hsum
    · intro a bytes
      rw [List.flatMap_append, List.mem_append, mem_fillShard, hwrites]
      constructor
      · rintro (⟨j, -, hj, ha, hbytes⟩ | ⟨e, he, hbytes⟩)
        · refine ⟨j, ?_, hbytes⟩
          rw [padAddress, if_pos hj, ha]
        · refine ⟨n + e, ?_, ?_⟩
          · rw [padAddress, if_neg (by omega), Nat.add_sub_cancel_left, he]
          · rw [← hbytes, Nat.add_assoc]
      · rintro ⟨e, he, hbytes⟩
        rw [padAddress] at he
        split at he
        · next hlt' => exact Or.inl ⟨e, Nat.zero_le e, hlt', Option.some.inj he, hbytes⟩
        · next hge =>
          refine Or.inr ⟨e - n, he, ?_⟩
          rw [← hbytes, Nat.add_assoc, Nat.add_sub_cancel' (Nat.le_of_not_lt hge)]
  | case2 first k hge =>
    rw [fillFrom, if_neg hge] at h
    obtain ⟨rfl, rfl⟩ := Prod.mk.inj (Option.some.inj h)
    refine ⟨Nat.le_antisymm hle (Nat.le_of_not_lt hge), ?_⟩
    intro a bytes
    simp [padAddress]

end

/-! ## The table of the fifth walk -/

section

variable {starts : List Nat} {cap t i k e c a : Nat} {segs : List (Nat × Nat)}

/-- The number of entries before shard `k`. -/
def entriesBefore (segs : List (Nat × Nat)) (k : Nat) : Nat := ((segs.take k).map (·.2)).sum

theorem keptSegments_spec (hi : i ≤ t) : keptSegments starts cap t i ≤ t ∧
    (∀ j, i ≤ j → j < keptSegments starts cap t i → startAt starts j < cap) ∧
      (keptSegments starts cap t i < t → cap ≤ startAt starts (keptSegments starts cap t i)) := by
  induction i using keptSegments.induct starts cap t with
  | case1 i hkept ih =>
    rw [keptSegments, if_pos hkept]
    obtain ⟨hle, hbefore, hat⟩ := ih hkept.1
    refine ⟨hle, ?_, hat⟩
    intro j hij hj
    rcases Nat.lt_or_eq_of_le hij with hlt | rfl
    · exact hbefore j hlt hj
    · exact hkept.2
  | case2 i hcut =>
    rw [keptSegments, if_neg hcut]
    refine ⟨hi, fun j hij hj => absurd hij (Nat.not_le_of_lt hj), ?_⟩
    intro hlt
    exact Nat.le_of_not_lt fun hstart => hcut ⟨hlt, hstart⟩

@[simp] theorem length_shardEnds : (shardEnds c segs).length = segs.length := by
  induction segs generalizing c with
  | nil => rfl
  | cons seg segs ih => rw [shardEnds, List.length_cons, ih, List.length_cons]

theorem shardEnds_get (hk : k < segs.length) :
    (shardEnds c segs)[k]? = some (c + entriesBefore segs (k + 1)) := by
  induction segs generalizing c k with
  | nil => exact absurd hk (Nat.not_lt_zero k)
  | cons seg segs ih =>
    obtain ⟨addr, n⟩ := seg
    cases k with
    | zero => simp [shardEnds, entriesBefore]
    | succ k =>
      rw [shardEnds, List.getElem?_cons_succ, ih (Nat.lt_of_succ_lt_succ hk), entriesBefore,
        entriesBefore, List.take_succ_cons, List.map_cons, List.sum_cons, Nat.add_assoc]

/-- An entry of the pad lies in one of its shards. -/
theorem padAddress_spec (he : e < (segs.map (·.2)).sum) : ∃ k, ∃ hk : k < segs.length,
    entriesBefore segs k ≤ e ∧ e < entriesBefore segs (k + 1) ∧
      padAddress segs e = some (segs[k].1 + (e - entriesBefore segs k) * 32) := by
  induction segs generalizing e with
  | nil => exact absurd he (Nat.not_lt_zero e)
  | cons seg segs ih =>
    obtain ⟨addr, n⟩ := seg
    rw [padAddress]
    by_cases hlt : e < n
    · refine ⟨0, Nat.zero_lt_succ _, Nat.zero_le e, ?_, ?_⟩
      · simpa [entriesBefore] using hlt
      · rw [if_pos hlt]
        rfl
    · rw [List.map_cons, List.sum_cons] at he
      obtain ⟨k, hk, hbefore, hafter, haddress⟩ := ih (e := e - n) (by omega)
      have hnext (j : Nat) : entriesBefore ((addr, n) :: segs) (j + 1) = n + entriesBefore segs j := by
        rw [entriesBefore, entriesBefore, List.take_succ_cons, List.map_cons, List.sum_cons]
      refine ⟨k + 1, Nat.succ_lt_succ hk, ?_, ?_, ?_⟩
      · rw [hnext]
        omega
      · rw [hnext]
        omega
      · rw [if_neg hlt, haddress, hnext, Nat.sub_sub]
        rfl

end

namespace SegTable

variable {T : SegTable} {pad : PadV5} {i k e idx : Nat}

/-- The number of weight tiles. -/
def weightTiles (T : SegTable) : Nat := T.nChunks / V4_TILE_CHUNKS

def cap (T : SegTable) : Nat := T.weightTiles * V4_TILE_CHUNKS

def kept (T : SegTable) : Nat := keptSegments T.starts T.cap T.addrs.length 0

theorem tables_eq : pad.tables T.starts T.addrs =
    ((List.range (T.kept + 1)).map (fun i => min (T.start i) T.cap) ++ shardEnds T.cap pad.segs,
      (List.range T.kept).map (fun i => T.addrs.getD i 0) ++ pad.segs.map (·.1), T.weightTiles) := by
  have hchunks : startAt T.starts T.addrs.length = T.nChunks := start_of_le le_rfl
  have hzero : min (T.start 0) T.cap = 0 := by rw [start_zero, Nat.zero_min]
  rw [PadV5.tables, hchunks, List.range_succ_eq_map, List.map_cons, hzero, List.map_map]
  rfl

theorem cap_le : T.cap ≤ T.nChunks := Nat.div_mul_le_self ..

theorem cap_ge : V4_TILE_CHUNKS ≤ T.cap :=
  Nat.le_mul_of_pos_left _ (Nat.div_pos T.enough (by decide))

theorem start_lt_cap (hi : i < T.kept) : T.start i < T.cap :=
  (keptSegments_spec (Nat.zero_le _)).2.1 i (Nat.zero_le i) hi

theorem kept_le : T.kept ≤ T.addrs.length := (keptSegments_spec (Nat.zero_le _)).1

theorem cap_le_start_kept : T.cap ≤ T.start T.kept := by
  rcases Nat.lt_or_eq_of_le (kept_le (T := T)) with hlt | heq
  · exact (keptSegments_spec (Nat.zero_le _)).2.2 hlt
  · rw [heq, start_of_le le_rfl]
    exact cap_le

variable (T pad) in
theorem tables_start (hi : i ≤ T.kept) :
    (pad.tables T.starts T.addrs).1[i]? = some (min (T.start i) T.cap) := by
  have hlen : i < ((List.range (T.kept + 1)).map fun i => min (T.start i) T.cap).length := by
    rw [List.length_map, List.length_range]
    exact Nat.lt_succ_of_le hi
  rw [tables_eq, List.getElem?_append_left hlen, List.getElem?_map,
    List.getElem?_range (Nat.lt_succ_of_le hi), Option.map_some]

variable (T pad) in
theorem tables_shard (hk : k ≤ pad.segs.length) :
    (pad.tables T.starts T.addrs).1[T.kept + k]? = some (T.cap + entriesBefore pad.segs k) := by
  cases k with
  | zero =>
    rw [Nat.add_zero, tables_start T pad le_rfl, Nat.min_eq_right cap_le_start_kept]
    rfl
  | succ k =>
    have hlen : ((List.range (T.kept + 1)).map fun i => min (T.start i) T.cap).length = T.kept + 1 := by
      rw [List.length_map, List.length_range]
    have hsub : T.kept + (k + 1) - (T.kept + 1) = k := by omega
    rw [tables_eq, List.getElem?_append_right (by rw [hlen]; omega), hlen, hsub, shardEnds_get hk]

theorem length_tables : (pad.tables T.starts T.addrs).1.length = T.kept + pad.segs.length + 1 := by
  rw [tables_eq, List.length_append, List.length_map, List.length_range, length_shardEnds]
  omega

theorem length_tables_addrs :
    (pad.tables T.starts T.addrs).2.1.length = T.kept + pad.segs.length := by
  rw [tables_eq, List.length_append, List.length_map, List.length_map, List.length_range]

theorem pairwise_shardEnds {c : Nat} {segs : List (Nat × Nat)} :
    (∀ x ∈ shardEnds c segs, c ≤ x) ∧ (shardEnds c segs).Pairwise (· ≤ ·) := by
  induction segs generalizing c with
  | nil => exact ⟨nofun, .nil⟩
  | cons seg segs ih =>
    obtain ⟨addr, n⟩ := seg
    obtain ⟨hge, hpair⟩ := ih (c := c + n)
    refine ⟨?_, .cons hge hpair⟩
    intro x hx
    rcases List.mem_cons.mp hx with rfl | hx
    · exact Nat.le_add_right ..
    · exact (Nat.le_add_right ..).trans (hge x hx)

theorem tables_ascending : (pad.tables T.starts T.addrs).1.Pairwise (· ≤ ·) := by
  rw [tables_eq, List.pairwise_append]
  refine ⟨?_, pairwise_shardEnds.2, ?_⟩
  · rw [List.pairwise_map]
    apply List.Pairwise.imp _ (List.pairwise_le_range)
    intro i j hij
    exact le_min ((Nat.min_le_left ..).trans (monotone_start hij)) (Nat.min_le_right ..)
  · intro x hx y hy
    obtain ⟨i, -, rfl⟩ := List.mem_map.mp hx
    exact (Nat.min_le_right ..).trans (pairwise_shardEnds.1 y hy)

theorem tables_last : (pad.tables T.starts T.addrs).1.getLastD 0 =
    T.cap + (pad.segs.map (·.2)).sum := by
  have hlast := tables_shard T pad le_rfl
  rw [entriesBefore, List.take_length] at hlast
  rw [List.getLastD_eq_getLast?, List.getLast?_eq_getElem?, length_tables, Nat.add_sub_cancel, hlast]
  rfl

/-- The table of the fifth walk. -/
def extend (T : SegTable) (pad : PadV5)
    (h : (pad.tables T.starts T.addrs).2.1.length ≤ 2 ^ 31) : SegTable where
  starts := (pad.tables T.starts T.addrs).1
  addrs := (pad.tables T.starts T.addrs).2.1
  length_starts := by rw [length_tables, length_tables_addrs]
  first := by rw [List.head?_eq_getElem?, tables_start T pad (Nat.zero_le _), start_zero, Nat.zero_min]
  ascending := tables_ascending
  enough := by
    rw [tables_last]
    exact cap_ge.trans (Nat.le_add_right ..)
  segments := h

variable {h : (pad.tables T.starts T.addrs).2.1.length ≤ 2 ^ 31}

theorem extend_start {x : Nat} (hx : (pad.tables T.starts T.addrs).1[i]? = some x) :
    (T.extend pad h).start i = x := by
  have hlt := (List.getElem?_eq_some_iff.mp hx).1
  rw [start_eq (T := T.extend pad h) hlt]
  exact (List.getElem?_eq_some_iff.mp hx).2

theorem tables_addr_weight (hi : i < T.kept) :
    (pad.tables T.starts T.addrs).2.1[i]? = T.addrs[i]? := by
  have hlen : i < ((List.range T.kept).map fun i => T.addrs.getD i 0).length := by
    rwa [List.length_map, List.length_range]
  have haddr := Nat.lt_of_lt_of_le hi (kept_le (T := T))
  rw [tables_eq, List.getElem?_append_left hlen, List.getElem?_map, List.getElem?_range hi,
    Option.map_some, List.getD_eq_getElem?_getD, List.getElem?_eq_getElem haddr]
  rfl

variable (T pad) in
theorem tables_addr_pad :
    (pad.tables T.starts T.addrs).2.1[T.kept + k]? = (pad.segs[k]?).map (·.1) := by
  have hlen : ((List.range T.kept).map fun i => T.addrs.getD i 0).length = T.kept := by
    rw [List.length_map, List.length_range]
  rw [tables_eq, List.getElem?_append_right (by rw [hlen]; omega), hlen, Nat.add_sub_cancel_left,
    List.getElem?_map]

/-- A chunk of a whole tile of weights is where it was. -/
theorem chunkPtr_weight (hidx : idx < T.cap) :
    (T.extend pad h).chunkPtr idx = T.chunkPtr idx := by
  obtain ⟨s, -, hsegment⟩ := chunkSegment_spec (Nat.lt_of_lt_of_le hidx (cap_le (T := T)))
  have hs : s < T.kept := by
    by_contra hge
    have hle := cap_le_start_kept.trans (monotone_start (Nat.le_of_not_lt hge))
    exact absurd hidx (Nat.not_lt_of_le (hle.trans hsegment.1))
  have hstart := tables_start T pad hs.le
  have hnext := tables_start T pad (Nat.succ_le_of_lt hs)
  rw [Nat.min_eq_left (start_lt_cap hs).le] at hstart
  have hsegment' : InSegment (T.extend pad h).start idx s := by
    refine ⟨(extend_start hstart).trans_le hsegment.1, ?_⟩
    rw [extend_start hnext]
    exact lt_min hsegment.2 hidx
  have hold : T.starts[s]? = some (T.start s) := by
    have hlt := Nat.lt_trans (Nat.lt_of_lt_of_le hs kept_le) (length_pos (T := T))
    rw [start_eq hlt, List.getElem?_eq_getElem hlt]
  have hnew : (T.extend pad h).starts[s]? = some (T.start s) := hstart
  have haddr : (T.extend pad h).addrs[s]? = T.addrs[s]? := tables_addr_weight hs
  rw [chunkPtr_eq hsegment', chunkPtr_eq hsegment, addressIn, addressIn, haddr, hnew, hold]

/-- Each chunk behind the weights is the pad's entry. -/
theorem chunkPtr_pad (he : e < (pad.segs.map (·.2)).sum) :
    (T.extend pad h).chunkPtr (T.cap + e) = padAddress pad.segs e := by
  obtain ⟨k, hk, hbefore, hafter, haddress⟩ := padAddress_spec he
  have hstart := tables_shard T pad hk.le
  have hnext := tables_shard T pad (Nat.succ_le_of_lt hk)
  have hsegment : InSegment (T.extend pad h).start (T.cap + e) (T.kept + k) := by
    refine ⟨?_, ?_⟩
    · rw [extend_start hstart]
      exact Nat.add_le_add_left hbefore _
    · rw [Nat.add_assoc, extend_start hnext]
      exact Nat.add_lt_add_left hafter _
  have hnew : (T.extend pad h).starts[T.kept + k]? = some (T.cap + entriesBefore pad.segs k) := hstart
  have haddr : (T.extend pad h).addrs[T.kept + k]? = some pad.segs[k].1 := by
    have hget := tables_addr_pad (k := k) T pad
    rwa [List.getElem?_eq_getElem hk] at hget
  rw [chunkPtr_eq hsegment, addressIn, haddr, hnew, haddress, ← Nat.add_sub_add_left T.cap]
  rfl

end SegTable

/-! ## The walk's reads -/

/-- What the shader asks of a table and the host's buckets. -/
structure SegTable.LooksUp (T : SegTable) : Prop where
  lut_size : T.lut.length ≤ V4_LUT_MAX_ENTRIES
  lut_sums : ∀ b < T.lut.length,
    b <<< T.lutSh + max (1 <<< T.lutSh) V4_TILE_CHUNKS ≤ 2 * T.nChunks
  chunk : ∀ idx < T.nChunks, ∃ s a, T.chunkSegment idx = some s ∧ T.addrs[s]? = some a ∧
    T.start s ≤ idx ∧ idx < T.start (s + 1) ∧ T.chunkPtr idx = some (a + (idx - T.start s) * 32)
  tile : ∀ off, 32 * (off + 1) ≤ T.nChunks → ∀ x < 32,
    T.loadColumn off x = T.chunkPtr (32 * off + x)

theorem SegTable.looksUp (T : SegTable) : T.LooksUp where
  lut_size := length_lut
  lut_sums _ hb := bucketSum_le hb
  chunk idx hidx := by
    obtain ⟨s, hscan, hsegment⟩ := chunkSegment_spec hidx
    have hs := lt_of_inSegment hsegment
    refine ⟨s, T.addrs[s], hscan, List.getElem?_eq_getElem hs, hsegment.1, hsegment.2, ?_⟩
    rw [chunkPtr_eq hsegment, addressIn_eq hs, Nat.zero_mul, Nat.add_zero]
  tile off hoff x hx := by
    rw [Nat.mul_comm 32 off]
    exact loadColumn_eq (by omega) hx

/-- Every table is looked up rightly, also that of the fifth walk: there the chunks of the whole
tiles of weights are where they were, and those behind them, up to the end, are the pad's entries as
the fill has written them. -/
theorem lookups_agree (T : SegTable) : T.LooksUp ∧ ∀ (pad : PadV5)
    (h : (pad.tables T.starts T.addrs).2.1.length ≤ 2 ^ 31),
      (T.extend pad h).LooksUp ∧
      (T.extend pad h).nChunks = 32 * T.weightTiles + (pad.segs.map (·.2)).sum ∧
      (∀ idx < 32 * T.weightTiles, (T.extend pad h).chunkPtr idx = T.chunkPtr idx) ∧
      (∀ e < (pad.segs.map (·.2)).sum,
        (T.extend pad h).chunkPtr (32 * T.weightTiles + e) = padAddress pad.segs e) ∧
      ∀ alloc w pushes, PadV5.fill alloc w pad.tiles = some (pad, pushes) →
        (pad.segs.map (·.2)).sum = 32 * pad.tiles ∧
        ∀ a bytes, (a, bytes) ∈ pushes.flatMap fillWrites ↔
          ∃ e, padAddress pad.segs e = some a ∧ padEntry w (UInt64.ofNat e) = bytes := by
  refine ⟨T.looksUp, fun pad h => ?_⟩
  have hcap : T.cap = 32 * T.weightTiles := Nat.mul_comm ..
  refine ⟨SegTable.looksUp _, ?_, ?_, ?_, ?_⟩
  · rw [← hcap]
    exact SegTable.tables_last
  · intro idx hidx
    exact SegTable.chunkPtr_weight (hcap ▸ hidx)
  · intro e he
    rw [← hcap]
    exact SegTable.chunkPtr_pad he
  · intro alloc w pushes hfill
    rw [PadV5.fill] at hfill
    split at hfill
    · cases hfill
    · obtain ⟨⟨segs, pushes'⟩, hfrom, hsome⟩ := Option.bind_eq_some_iff.mp hfill
      obtain ⟨hpad, rfl⟩ := Prod.mk.inj (Option.some.inj hsome)
      have hsegs : pad.segs = segs := by rw [← hpad]
      obtain ⟨hsum, hwrites⟩ := fillFrom_writes hfrom (Nat.zero_le _)
      rw [hsegs]
      refine ⟨?_, ?_⟩
      · rw [Nat.zero_add] at hsum
        rw [hsum, Nat.mul_comm]
        rfl
      · intro a bytes
        simpa only [Nat.zero_add] using hwrites a bytes

/-- Two tiles and five chunks more, in three segments. -/
def threeSegments : SegTable where
  starts := [0, 40, 64, 69]
  addrs := [0x10, 0x20, 0x30]
  length_starts := rfl
  first := rfl
  ascending := by decide
  enough := by decide
  segments := by decide

def twoShards : PadV5 := ⟨[(0xA000, 64), (0xB000, 32)], 3⟩

theorem twoShards_segments :
    (twoShards.tables threeSegments.starts threeSegments.addrs).2.1.length ≤ 2 ^ 31 := by
  have hkept : threeSegments.kept ≤ 3 := SegTable.kept_le
  have hshards : twoShards.segs.length = 2 := rfl
  rw [SegTable.length_tables_addrs, hshards]
  omega

/-- The chunk behind 70 entries of the pad is in its second shard. -/
theorem lookups_agree_twoShards :
    (threeSegments.extend twoShards twoShards_segments).chunkPtr (32 * 2 + 70) =
      some (0xB000 + 6 * 32) :=
  ((lookups_agree threeSegments).2 twoShards twoShards_segments).2.2.2.1 70 (by decide)

end KeryxMiner.Vulkan
