import KeryxMiner.Segments
import Mathlib.Algebra.Group.Nat.Defs

/-!
# The segment table of the walk

The chunks lie in segments of device memory, and a table has the first chunk of each segment and its
address. The host adds the segment of the first chunk of each bucket of chunks, from which the shader
scans forward, and for the fifth walk it cuts the table at the last whole tile and appends the shards
of the pad. Every chunk is found in its segment and every tile at the addresses of its chunks
(`lookups_agree`).
-/

namespace KeryxMiner.Vulkan

/-! ## The table -/

/-- Starts of the segments in chunks, with the number of chunks behind them, and their addresses. -/
structure SegTable where
  starts : List Nat
  addrs : List Nat
  length_starts : starts.length = addrs.length + 1
  first : starts.head? = some 0
  ascending : starts.Pairwise (· ≤ ·)
  enough : 32 ≤ starts.getLastD 0
  segments : addrs.length ≤ 2 ^ 31

def V4_TILE_CHUNKS : Nat := 32

def V4_LUT_MAX_ENTRIES : Nat := 1 <<< 20

def V4_LUT_SCAN : UInt32 := 0x80000000

/-- The smallest shift from `sh` on that keeps the buckets within the table. -/
def lutShift (nChunks sh : Nat) : Nat :=
  if V4_LUT_MAX_ENTRIES < ((nChunks - 1) >>> sh) + 1 then lutShift nChunks (sh + 1) else sh
termination_by (nChunks - 1) >>> sh
decreasing_by
  have hpos : 0 < (nChunks - 1) >>> sh := by
    simp only [V4_LUT_MAX_ENTRIES] at *
    omega
  rw [Nat.shiftRight_succ]
  omega

/-- The start with number `i`. -/
def startAt (starts : List Nat) (i : Nat) : Nat := starts.getD i (starts.getLastD 0)

/-- The entry of bucket `b`, whose first chunk segment `s` has. -/
def lutEntry (starts : List Nat) (sh b s : Nat) : UInt32 :=
  let nChunks := starts.getLastD 0
  let first := b <<< sh
  let fin := min (max (first + 1 <<< sh) (first + V4_TILE_CHUNKS)) nChunks
  UInt32.ofNat s ||| (if startAt starts (s + 1) < fin then V4_LUT_SCAN else 0)

/-- `count` entries from bucket `b` on, scanning from segment `s`. -/
def lutEntries (starts : List Nat) (sh : Nat) : (count b s : Nat) → List UInt32
  | 0, _, _ => []
  | count + 1, b, s =>
    let s := scanSegment (startAt starts) (starts.length - 1) (b <<< sh) s
    lutEntry starts sh b s :: lutEntries starts sh count (b + 1) s

def buildLut (starts : List Nat) : List UInt32 × Nat :=
  let nChunks := starts.getLastD 0
  let sh := lutShift nChunks 0
  let buckets := ((nChunks - 1) >>> sh) + 1
  (lutEntries starts sh buckets 0 0, sh)

namespace SegTable

variable (T : SegTable)

def nChunks : Nat := T.starts.getLastD 0

def start (i : Nat) : Nat := startAt T.starts i

def lut : List UInt32 := (buildLut T.starts).1

def lutSh : Nat := (buildLut T.starts).2

/-! ## The shader -/

/-- The segment where the scan of `chunk_ptr` stops; none is a read outside the table. -/
def chunkSegment (idx : Nat) : Option Nat := do
  let e ← T.lut[idx >>> T.lutSh]?
  some (scanSegment T.start T.addrs.length idx (e &&& ~~~V4_LUT_SCAN).toNat)

/-- The address of the chunk in segment `lo`, and of `x` chunks behind it. -/
def addressIn (lo idx x : Nat) : Option Nat := do
  let a ← T.addrs[lo]?
  let p ← T.starts[lo]?
  some (a + (idx - p) * 32 + x * 32)

def chunkPtr (idx : Nat) : Option Nat := do
  let lo ← T.chunkSegment idx
  T.addressIn lo idx 0

/-- The scan of `load_column`, which reads on until a start lies behind the tile's. -/
def tileScan (t0 lo : Nat) : Option (Nat × Nat) :=
  if h : lo + 1 < T.starts.length then
    let p1 := T.starts[lo + 1]
    if p1 ≤ t0 then tileScan t0 (lo + 1) else some (lo, p1)
  else none
termination_by T.starts.length - lo

/-- The address that invocation `x` reads its column of tile `off` from. -/
def loadColumn (off x : Nat) : Option Nat := do
  let t0 := off * 32
  let e ← T.lut[t0 >>> T.lutSh]?
  let lo := (e &&& ~~~V4_LUT_SCAN).toNat
  if e < V4_LUT_SCAN then T.addressIn lo t0 x
  else do
    let (lo, p1) ← T.tileScan t0 lo
    if t0 + 31 < p1 then T.addressIn lo t0 x else T.chunkPtr (t0 + x)

end SegTable

/-! ## The lookup -/

section

variable {starts : List Nat} {n sh b s k count idx off x : Nat}

theorem lutShift_spec : ((n - 1) >>> lutShift n sh) + 1 ≤ V4_LUT_MAX_ENTRIES := by
  induction sh using lutShift.induct n with
  | case1 sh hlarge ih =>
    rw [lutShift, if_pos hlarge]
    exact ih
  | case2 sh hsmall =>
    rw [lutShift, if_neg hsmall]
    exact Nat.le_of_not_lt hsmall

/-- No bucket is larger than the table. -/
theorem lutShift_le (hsh : 1 <<< sh ≤ n) : 1 <<< lutShift n sh ≤ n := by
  induction sh using lutShift.induct n with
  | case1 sh hlarge ih =>
    rw [lutShift, if_pos hlarge]
    apply ih
    have hdiv : 2 ≤ (n - 1) / 2 ^ sh := by
      rw [Nat.shiftRight_eq_div_pow, V4_LUT_MAX_ENTRIES] at hlarge
      omega
    have hmul := (Nat.le_div_iff_mul_le (Nat.two_pow_pos sh)).mp hdiv
    rw [Nat.shiftLeft_eq, Nat.one_mul, Nat.pow_succ, Nat.mul_comm]
    exact hmul.trans (Nat.sub_le n 1)
  | case2 sh hsmall =>
    rwa [lutShift, if_neg hsmall]

@[simp] theorem length_lutEntries : (lutEntries starts sh count b s).length = count := by
  induction count generalizing b s with
  | zero => rfl
  | succ count ih => rw [lutEntries, List.length_cons, ih]

/-- Each entry names the segment of the first chunk of its bucket. -/
theorem lutEntries_get (hs : s < starts.length - 1) (hstart : startAt starts s ≤ b <<< sh)
    (hk : k < count) (hlast : (b + k) <<< sh < startAt starts (starts.length - 1)) :
    ∃ r < starts.length - 1, InSegment (startAt starts) ((b + k) <<< sh) r ∧
      (lutEntries starts sh count b s)[k]? = some (lutEntry starts sh (b + k) r) := by
  induction count generalizing b s k with
  | zero => exact absurd hk (Nat.not_lt_zero k)
  | succ count ih =>
    have hfirst : b <<< sh < startAt starts (starts.length - 1) := by
      rw [Nat.shiftLeft_eq] at hlast ⊢
      exact Nat.lt_of_le_of_lt (Nat.mul_le_mul_right _ (Nat.le_add_right b k)) hlast
    obtain ⟨hscan, hsegment⟩ := scanSegment_spec hs hstart hfirst
    cases k with
    | zero => exact ⟨_, hscan, hsegment, rfl⟩
    | succ k =>
      have hnext : b + (k + 1) = b + 1 + k := by omega
      have hle : b <<< sh ≤ (b + 1) <<< sh := by
        rw [Nat.shiftLeft_eq, Nat.shiftLeft_eq]
        exact Nat.mul_le_mul_right _ (Nat.le_succ b)
      rw [hnext] at hlast ⊢
      exact ih hscan (hsegment.1.trans hle) (Nat.lt_of_succ_lt_succ hk) hlast

/-- A segment and the bit that asks for a scan share a word. -/
theorem scanBit {c : Prop} [Decidable c] (hs : s < 2 ^ 31) :
    ((UInt32.ofNat s ||| (if c then V4_LUT_SCAN else 0)) &&& ~~~V4_LUT_SCAN).toNat = s ∧
      ((UInt32.ofNat s ||| (if c then V4_LUT_SCAN else 0)) < V4_LUT_SCAN ↔ ¬c) := by
  have hnat : (UInt32.ofNat s).toNat = s := by
    rw [UInt32.toNat_ofNat', Nat.mod_eq_of_lt (by omega)]
  have hscan : V4_LUT_SCAN.toNat = 2 ^ 31 := rfl
  have hmask : (~~~V4_LUT_SCAN).toNat = 2 ^ 31 - 1 := rfl
  rw [UInt32.toNat_and, hmask, Nat.and_two_pow_sub_one_eq_mod, UInt32.lt_iff_toNat_lt, hscan,
    UInt32.toNat_or, hnat]
  by_cases hc : c
  · have hor : s ||| 2 ^ 31 = 2 ^ 31 + s := by
      rw [Nat.or_comm]
      exact (Nat.two_pow_add_eq_or_of_lt hs 1).symm
    rw [if_pos hc, hscan, hor, Nat.add_mod_left, Nat.mod_eq_of_lt hs]
    exact ⟨rfl, by simp [hc]⟩
  · rw [if_neg hc, UInt32.toNat_zero, Nat.or_zero, Nat.mod_eq_of_lt hs]
    exact ⟨rfl, iff_of_true hs hc⟩

end

namespace SegTable

variable {T : SegTable} {s idx off x : Nat}

theorem length_pos : T.addrs.length < T.starts.length := by
  rw [T.length_starts]
  exact Nat.lt_succ_self _

theorem start_eq (hs : s < T.starts.length) : T.start s = T.starts[s] := by
  rw [start, startAt, List.getD_eq_getElem?_getD, List.getElem?_eq_getElem hs]
  rfl

theorem start_zero : T.start 0 = 0 := by
  have hfirst := T.first
  rw [List.head?_eq_getElem?] at hfirst
  rw [start, startAt, List.getD_eq_getElem?_getD, hfirst]
  rfl

theorem start_of_le (hs : T.addrs.length ≤ s) : T.start s = T.nChunks := by
  have hlen := T.length_starts
  rcases Nat.lt_or_ge s T.starts.length with hlt | hge
  · have hlast : s = T.starts.length - 1 := by omega
    rw [nChunks, List.getLastD_eq_getLast?, List.getLast?_eq_getElem?, ← hlast, start_eq hlt,
      List.getElem?_eq_getElem hlt]
    rfl
  · rw [start, startAt, List.getD_eq_getElem?_getD, List.getElem?_eq_none hge]
    rfl

theorem monotone_start : Monotone T.start := by
  apply monotone_nat_of_le_succ
  intro s
  rcases Nat.lt_or_ge s T.addrs.length with hlt | hge
  · have hlen := T.length_starts
    rw [start_eq (by omega), start_eq (by omega)]
    exact List.pairwise_iff_getElem.mp T.ascending _ _ _ _ (Nat.lt_succ_self s)
  · rw [start_of_le hge, start_of_le (Nat.le_succ_of_le hge)]

theorem addrs_pos : 0 < T.addrs.length := by
  apply Nat.pos_of_ne_zero
  intro hnil
  have hzero : T.nChunks = 0 := by rw [← start_of_le (Nat.le_of_eq hnil), start_zero]
  have henough : 32 ≤ T.nChunks := T.enough
  omega

theorem lt_of_inSegment (h : InSegment T.start idx s) : s < T.addrs.length := by
  by_contra hge
  have hle := Nat.le_of_not_lt hge
  have hend := h.2
  rw [start_of_le (Nat.le_succ_of_le hle), ← start_of_le hle] at hend
  exact absurd h.1 (Nat.not_le_of_lt hend)

theorem length_lut : T.lut.length ≤ V4_LUT_MAX_ENTRIES := by
  rw [lut, buildLut, length_lutEntries]
  exact lutShift_spec

theorem bucket_le : (idx >>> T.lutSh) <<< T.lutSh ≤ idx := by
  rw [Nat.shiftRight_eq_div_pow, Nat.shiftLeft_eq]
  exact Nat.div_mul_le_self ..

/-- The entry of a chunk's bucket names the segment of the first chunk of the bucket. -/
theorem lut_get (hidx : idx < T.nChunks) : ∃ s,
    InSegment T.start ((idx >>> T.lutSh) <<< T.lutSh) s ∧
      T.lut[idx >>> T.lutSh]? = some (lutEntry T.starts T.lutSh (idx >>> T.lutSh) s) := by
  have hlen : T.starts.length - 1 = T.addrs.length := by rw [T.length_starts, Nat.add_sub_cancel]
  have hend : startAt T.starts (T.starts.length - 1) = T.nChunks := hlen ▸ start_of_le le_rfl
  have hbucket : idx >>> T.lutSh < ((T.nChunks - 1) >>> T.lutSh) + 1 := by
    rw [Nat.lt_succ_iff, Nat.shiftRight_eq_div_pow, Nat.shiftRight_eq_div_pow]
    exact Nat.div_le_div_right (Nat.le_sub_one_of_lt hidx)
  have hlast : (0 + idx >>> T.lutSh) <<< T.lutSh < startAt T.starts (T.starts.length - 1) := by
    rw [Nat.zero_add, hend]
    exact Nat.lt_of_le_of_lt bucket_le hidx
  have hzero : startAt T.starts 0 ≤ 0 <<< T.lutSh := (start_zero (T := T)).trans_le (Nat.zero_le _)
  obtain ⟨s, -, hsegment, hget⟩ := lutEntries_get (hlen ▸ addrs_pos) hzero hbucket hlast
  rw [Nat.zero_add] at hsegment hget
  exact ⟨s, hsegment, hget⟩

theorem addressIn_eq (hs : s < T.addrs.length) :
    T.addressIn s idx x = some (T.addrs[s] + (idx - T.start s) * 32 + x * 32) := by
  have hlt := Nat.lt_trans hs length_pos
  rw [addressIn, List.getElem?_eq_getElem hs, List.getElem?_eq_getElem hlt, start_eq hlt]
  rfl

theorem scan_eq (hs : s < T.addrs.length) (hstart : T.start s ≤ idx) (hidx : idx < T.nChunks) :
    InSegment T.start idx (scanSegment T.start T.addrs.length idx s) :=
  (scanSegment_spec hs hstart ((start_of_le le_rfl).symm ▸ hidx)).2

/-- The scan of `chunk_ptr` stops in the segment of the chunk. -/
theorem chunkSegment_spec (hidx : idx < T.nChunks) :
    ∃ s, T.chunkSegment idx = some s ∧ InSegment T.start idx s := by
  obtain ⟨s, hsegment, hget⟩ := lut_get hidx
  have hs := lt_of_inSegment hsegment
  have hentry : (lutEntry T.starts T.lutSh (idx >>> T.lutSh) s &&& ~~~V4_LUT_SCAN).toNat = s :=
    (scanBit (Nat.lt_of_lt_of_le hs T.segments)).1
  refine ⟨_, ?_, scan_eq hs (hsegment.1.trans bucket_le) hidx⟩
  rw [chunkSegment, hget, Option.bind_eq_bind, Option.bind_some, hentry]

theorem chunkPtr_eq (h : InSegment T.start idx s) : T.chunkPtr idx = T.addressIn s idx 0 := by
  have hidx : idx < T.nChunks := by
    have hend := Nat.lt_of_lt_of_le h.2 (monotone_start (Nat.succ_le_of_lt (lt_of_inSegment h)))
    rwa [start_of_le le_rfl] at hend
  obtain ⟨r, hr, hsegment⟩ := chunkSegment_spec hidx
  rw [chunkPtr, hr, hsegment.eq monotone_start h]
  rfl

/-- A chunk behind another one in the same segment. -/
theorem chunkPtr_add (h : InSegment T.start idx s) (hx : idx + x < T.start (s + 1)) :
    T.chunkPtr (idx + x) = T.addressIn s idx x := by
  have hs := lt_of_inSegment h
  have hadd : InSegment T.start (idx + x) s := ⟨h.1.trans (Nat.le_add_right ..), hx⟩
  have hsub : idx + x - T.start s = idx - T.start s + x := Nat.sub_add_comm h.1
  rw [chunkPtr_eq hadd, addressIn_eq hs, addressIn_eq hs, hsub, Nat.add_mul, Nat.zero_mul,
    Nat.add_zero, Nat.add_assoc]

/-- The scan of `load_column` stops in the segment of the tile's first chunk. -/
theorem tileScan_spec (hs : s < T.addrs.length) (hstart : T.start s ≤ idx) (hidx : idx < T.nChunks) :
    ∃ r, T.tileScan idx s = some (r, T.start (r + 1)) ∧ InSegment T.start idx r := by
  have hlen := T.length_starts
  induction s using tileScan.induct T idx with
  | case1 s hlt p1 hle ih =>
    have hnext : T.start (s + 1) ≤ idx := (start_eq hlt).trans_le hle
    have hs' : s + 1 < T.addrs.length := by
      by_contra hge
      rw [start_of_le (Nat.le_of_not_lt hge)] at hnext
      exact absurd hidx (Nat.not_lt_of_le hnext)
    rw [tileScan, dif_pos hlt]
    exact if_pos hle ▸ ih hs' hnext
  | case2 s hlt p1 hgt =>
    have hend : T.start (s + 1) = p1 := start_eq hlt
    rw [tileScan, dif_pos hlt]
    exact ⟨s, by rw [hend]; exact if_neg hgt, hstart, hend ▸ Nat.lt_of_not_le hgt⟩
  | case3 s hge => omega

/-- The sums over the buckets stay within twice the chunks. -/
theorem bucketSum_le {b : Nat} (hb : b < T.lut.length) :
    b <<< T.lutSh + max (1 <<< T.lutSh) V4_TILE_CHUNKS ≤ 2 * T.nChunks := by
  have henough : 32 ≤ T.nChunks := T.enough
  have hone : 1 <<< 0 ≤ T.nChunks := Nat.le_trans (by decide) henough
  have hbucket : 1 <<< T.lutSh ≤ T.nChunks := lutShift_le hone
  have hlen : T.lut.length = ((T.nChunks - 1) >>> T.lutSh) + 1 := length_lutEntries
  have hfirst : b <<< T.lutSh ≤ T.nChunks - 1 := by
    rw [Nat.shiftLeft_eq]
    refine Nat.le_trans (Nat.mul_le_mul_right _ (Nat.le_of_lt_succ (hlen ▸ hb))) ?_
    rw [Nat.shiftRight_eq_div_pow]
    exact Nat.div_mul_le_self ..
  rw [V4_TILE_CHUNKS]
  omega

/-- Where a tile's bucket does not ask for a scan, the bucket's segment has the whole tile. -/
theorem tile_in_segment (hoff : (off + 1) * 32 ≤ T.nChunks)
    (hclear : lutEntry T.starts T.lutSh ((off * 32) >>> T.lutSh) s < V4_LUT_SCAN)
    (hs : s < T.addrs.length) : (off + 1) * 32 ≤ T.start (s + 1) := by
  have hend := Nat.le_of_not_lt ((scanBit (Nat.lt_of_lt_of_le hs T.segments)).2.mp hclear)
  rw [Nat.shiftRight_eq_div_pow, Nat.shiftLeft_eq, Nat.shiftLeft_eq, Nat.one_mul] at hend
  refine Nat.le_trans (le_min ?_ hoff) hend
  generalize T.lutSh = sh
  have hdiv := Nat.div_add_mod' (off * 32) (2 ^ sh)
  rw [V4_TILE_CHUNKS]
  rcases Nat.lt_or_ge sh 5 with hsmall | hlarge
  · -- Tiles start buckets.
    have hdvd : 2 ^ sh ∣ off * 32 :=
      Nat.dvd_trans (Nat.pow_dvd_pow 2 hsmall.le) (Nat.dvd_mul_left ..)
    rw [Nat.div_mul_cancel hdvd]
    omega
  · -- Buckets are made of tiles.
    obtain ⟨k, hk⟩ : 2 ^ 5 ∣ 2 ^ sh := Nat.pow_dvd_pow 2 hlarge
    have hpos : 0 < k := Nat.pos_of_mul_pos_left (hk ▸ Nat.two_pow_pos sh)
    have hk : 2 ^ sh = k * 32 := hk.trans (Nat.mul_comm ..)
    have hlt : off % k < k := Nat.mod_lt _ hpos
    rw [hk, Nat.mul_mod_mul_right] at hdiv
    rw [hk]
    omega

theorem loadColumn_eq (hoff : (off + 1) * 32 ≤ T.nChunks) (hx : x < 32) :
    T.loadColumn off x = T.chunkPtr (off * 32 + x) := by
  have hidx : off * 32 < T.nChunks := by omega
  obtain ⟨s, hsegment, hget⟩ := lut_get hidx
  have hs := lt_of_inSegment hsegment
  have hstart := hsegment.1.trans bucket_le
  have hentry : (lutEntry T.starts T.lutSh ((off * 32) >>> T.lutSh) s &&& ~~~V4_LUT_SCAN).toNat = s :=
    (scanBit (Nat.lt_of_lt_of_le hs T.segments)).1
  rw [loadColumn]
  dsimp only
  rw [hget, Option.bind_eq_bind, Option.bind_some, hentry]
  by_cases hclear : lutEntry T.starts T.lutSh ((off * 32) >>> T.lutSh) s < V4_LUT_SCAN
  · have htile := tile_in_segment hoff hclear hs
    rw [if_pos hclear, chunkPtr_add ⟨hstart, by omega⟩ (by omega)]
  · obtain ⟨r, hscan, hr⟩ := tileScan_spec hs hstart hidx
    rw [if_neg hclear, hscan, Option.bind_eq_bind, Option.bind_some]
    dsimp only
    split
    · next hlt => exact (chunkPtr_add hr (by omega)).symm
    · rfl

end SegTable

end KeryxMiner.Vulkan
