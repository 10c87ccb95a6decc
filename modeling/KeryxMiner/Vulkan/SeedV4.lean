import KeryxMiner.Keccak
import KeryxMiner.Pom.Walk

/-!
# The seed pre-pass

The shader that writes the walk seed of each nonce of a dispatch, from the sponge state of the host.
Its unrolled permutation is the standard's (`keccakf_eq`), and in whatever order the invocations are
made each seed is that of its nonce (`seedPass_get`).
-/

namespace KeryxMiner.Vulkan

open Keccak Pom

/-! ## The permutation -/

def rotl64 (x : UInt64) (r : UInt32) : UInt64 := x <<< r.toUInt64 ||| x >>> (64 - r).toUInt64

def RC : Vector UInt64 24 :=
  #v[0x0000000000000001, 0x0000000000008082, 0x800000000000808a, 0x8000000080008000,
    0x000000000000808b, 0x0000000080000001, 0x8000000080008081, 0x8000000000008009,
    0x000000000000008a, 0x0000000000000088, 0x0000000080008009, 0x000000008000000a,
    0x000000008000808b, 0x800000000000008b, 0x8000000000008089, 0x8000000000008003,
    0x8000000000008002, 0x8000000000000080, 0x000000000000800a, 0x800000008000000a,
    0x8000000080008081, 0x8000000000008080, 0x0000000080000001, 0x8000000080008008]

/-- `c0` to `c4`, `d0` to `d4` and the lanes with them. -/
def keccakTheta (a : Vector UInt64 25) : Vector UInt64 25 :=
  let c0 := a[0] ^^^ a[5] ^^^ a[10] ^^^ a[15] ^^^ a[20]
  let c1 := a[1] ^^^ a[6] ^^^ a[11] ^^^ a[16] ^^^ a[21]
  let c2 := a[2] ^^^ a[7] ^^^ a[12] ^^^ a[17] ^^^ a[22]
  let c3 := a[3] ^^^ a[8] ^^^ a[13] ^^^ a[18] ^^^ a[23]
  let c4 := a[4] ^^^ a[9] ^^^ a[14] ^^^ a[19] ^^^ a[24]
  let d0 := c4 ^^^ rotl64 c1 1
  let d1 := c0 ^^^ rotl64 c2 1
  let d2 := c1 ^^^ rotl64 c3 1
  let d3 := c2 ^^^ rotl64 c4 1
  let d4 := c3 ^^^ rotl64 c0 1
  #v[a[0] ^^^ d0, a[1] ^^^ d1, a[2] ^^^ d2, a[3] ^^^ d3, a[4] ^^^ d4,
    a[5] ^^^ d0, a[6] ^^^ d1, a[7] ^^^ d2, a[8] ^^^ d3, a[9] ^^^ d4,
    a[10] ^^^ d0, a[11] ^^^ d1, a[12] ^^^ d2, a[13] ^^^ d3, a[14] ^^^ d4,
    a[15] ^^^ d0, a[16] ^^^ d1, a[17] ^^^ d2, a[18] ^^^ d3, a[19] ^^^ d4,
    a[20] ^^^ d0, a[21] ^^^ d1, a[22] ^^^ d2, a[23] ^^^ d3, a[24] ^^^ d4]

/-- `b0` to `b24`. -/
def keccakRhoPi (a : Vector UInt64 25) : Vector UInt64 25 :=
  #v[a[0], rotl64 a[6] 44, rotl64 a[12] 43, rotl64 a[18] 21, rotl64 a[24] 14,
    rotl64 a[3] 28, rotl64 a[9] 20, rotl64 a[10] 3, rotl64 a[16] 45, rotl64 a[22] 61,
    rotl64 a[1] 1, rotl64 a[7] 6, rotl64 a[13] 25, rotl64 a[19] 8, rotl64 a[20] 18,
    rotl64 a[4] 27, rotl64 a[5] 36, rotl64 a[11] 10, rotl64 a[17] 15, rotl64 a[23] 56,
    rotl64 a[2] 62, rotl64 a[8] 55, rotl64 a[14] 39, rotl64 a[15] 41, rotl64 a[21] 2]

def keccakChi (b : Vector UInt64 25) (rc : UInt64) : Vector UInt64 25 :=
  #v[b[0] ^^^ (~~~b[1] &&& b[2]) ^^^ rc, b[1] ^^^ (~~~b[2] &&& b[3]), b[2] ^^^ (~~~b[3] &&& b[4]),
    b[3] ^^^ (~~~b[4] &&& b[0]), b[4] ^^^ (~~~b[0] &&& b[1]),
    b[5] ^^^ (~~~b[6] &&& b[7]), b[6] ^^^ (~~~b[7] &&& b[8]), b[7] ^^^ (~~~b[8] &&& b[9]),
    b[8] ^^^ (~~~b[9] &&& b[5]), b[9] ^^^ (~~~b[5] &&& b[6]),
    b[10] ^^^ (~~~b[11] &&& b[12]), b[11] ^^^ (~~~b[12] &&& b[13]), b[12] ^^^ (~~~b[13] &&& b[14]),
    b[13] ^^^ (~~~b[14] &&& b[10]), b[14] ^^^ (~~~b[10] &&& b[11]),
    b[15] ^^^ (~~~b[16] &&& b[17]), b[16] ^^^ (~~~b[17] &&& b[18]), b[17] ^^^ (~~~b[18] &&& b[19]),
    b[18] ^^^ (~~~b[19] &&& b[15]), b[19] ^^^ (~~~b[15] &&& b[16]),
    b[20] ^^^ (~~~b[21] &&& b[22]), b[21] ^^^ (~~~b[22] &&& b[23]), b[22] ^^^ (~~~b[23] &&& b[24]),
    b[23] ^^^ (~~~b[24] &&& b[20]), b[24] ^^^ (~~~b[20] &&& b[21])]

def keccakRound (a : Vector UInt64 25) (round : Fin 24) : Vector UInt64 25 :=
  keccakChi (keccakRhoPi (keccakTheta a)) RC[round]

def keccakf (a : Vector UInt64 25) : Vector UInt64 25 := (List.finRange 24).foldl keccakRound a

/-! ## The shader -/

/-- What the shader reads of the block of the walk. -/
structure Io where
  h10 : Vector UInt64 25

structure SeedPush where
  s : Vector UInt64 4
  timestamp : UInt64
  startNonce : UInt64
  batch : UInt32
  seedH10 : UInt32

def seedFold (pc : SeedPush) (nonce : UInt64) : UInt64 :=
  let s := mix64 (nonce ^^^ 0x4B65727978531)
  let s := mix64 (s ^^^ pc.timestamp)
  let s := mix64 (s ^^^ pc.s[0])
  let s := mix64 (s ^^^ pc.s[1])
  let s := mix64 (s ^^^ pc.s[2])
  mix64 (s ^^^ pc.s[3])

def seedH10 (io : Io) (nonce : UInt64) : UInt64 := (keccakf (io.h10.set 9 (io.h10[9] ^^^ nonce)))[0]

def seedOf (io : Io) (pc : SeedPush) (i : UInt32) : UInt64 :=
  let nonce := pc.startNonce + i.toUInt64
  if pc.seedH10 ≠ 0 then seedH10 io nonce else seedFold pc nonce

/-- The invocation with number `i`. -/
def main (io : Io) (pc : SeedPush) (seeds : List UInt64) (i : UInt32) : List UInt64 :=
  if pc.batch ≤ i then seeds else seeds.set i.toNat (seedOf io pc i)

/-! ## The dispatch -/

structure V4Job where
  powWords : Vector UInt64 4
  seedWords : Vector UInt64 4
  timestamp : UInt64
  h10State : Option (Vector UInt64 25)

def V4_MAX_DISPATCH_NONCES : UInt32 := (1 : UInt32) <<< 15

def SEED_WG : UInt32 := 64

/-- The invocations of the workgroups for `n` nonces. -/
def invocations (n : UInt32) : List UInt32 :=
  (List.range (SEED_WG.toNat * ((n.toNat + SEED_WG.toNat - 1) / SEED_WG.toNat))).map UInt32.ofNat

/-- The seeds after the pre-pass for `n` nonces from `start` on, invoked in the order of `ids`. -/
def seedPass (job : V4Job) (start : UInt64) (n : UInt32) (ids : List UInt32) (seeds : List UInt64) :
    List UInt64 :=
  let io : Io := { h10 := job.h10State.getD (Vector.replicate 25 0) }
  let push : SeedPush :=
    { s := job.seedWords
      timestamp := job.timestamp
      startNonce := start
      batch := n
      seedH10 := if job.h10State.isSome then 1 else 0 }
  ids.foldl (main io push) seeds

/-! ## The permutation is Keccak-f[1600] -/

theorem rotl64_eq {x : UInt64} {r : UInt32} (hpos : 0 < r.toNat) (hr : r.toNat < 64) :
    rotl64 x r = rotl x r.toNat := by
  have hle : r ≤ 64 := UInt32.le_iff_toNat_le.mpr hr.le
  have hsub : (64 - r).toNat = 64 - r.toNat := UInt32.toNat_sub_of_le 64 r hle
  have hleft : r.toUInt64.toNat % 64 = r.toNat := by
    rw [UInt32.toNat_toUInt64, Nat.mod_eq_of_lt hr]
  have hright : (64 - r).toUInt64.toNat % 64 = 64 - r.toNat := by
    rw [UInt32.toNat_toUInt64, hsub, Nat.mod_eq_of_lt (by omega)]
  apply UInt64.toBitVec_inj.mp
  rw [rotl64, rotl, BitVec.rotateLeft_eq_rotateLeftAux_of_lt hr, BitVec.rotateLeftAux,
    UInt64.toBitVec_or, UInt64.toBitVec_shiftLeft, UInt64.toBitVec_shiftRight,
    BitVec.shiftLeft_eq', BitVec.ushiftRight_eq']
  congr 2

theorem keccakTheta_eq {a : Vector UInt64 25} : keccakTheta a = Lanes.theta a := by
  simp (disch := decide) only [keccakTheta, rotl64_eq]
  rfl

theorem keccakRhoPi_eq {a : Vector UInt64 25} : keccakRhoPi a = Lanes.pi (Lanes.rho a) := by
  have hfirst : a[0] = rotl a[0] 0 := by
    apply UInt64.toBitVec_inj.mp
    apply BitVec.eq_of_getLsbD_eq
    intro i hi
    rw [rotl, BitVec.getLsbD_rotateLeft_of_le (by decide), decide_eq_true hi]
    rfl
  rw [keccakRhoPi, hfirst]
  simp (disch := decide) only [rotl64_eq]
  rfl

theorem keccakChi_eq {b : Vector UInt64 25} {rc : UInt64} :
    keccakChi b rc = Lanes.iota (Lanes.chi b) rc := rfl

theorem keccakRound_eq {a : Vector UInt64 25} {round : Fin 24} :
    keccakRound a round = Lanes.round a (Lanes.roundConstants.getD round 0) := by
  have hrc : RC[round] = Lanes.roundConstants.getD round 0 := by
    revert round
    decide
  rw [keccakRound, keccakChi_eq, keccakRhoPi_eq, keccakTheta_eq, hrc, Lanes.round]

theorem keccakf_eq {a : Vector UInt64 25} : keccakf a = Lanes.f1600 a := by
  have hround : keccakRound = fun a (round : Fin 24) =>
      Lanes.round a (Lanes.roundConstants.getD round 0) := by
    funext a round
    exact keccakRound_eq
  rw [keccakf, hround]
  exact (List.foldl_map ..).symm

/-! ## The seeds -/

section

variable {io : Io} {pc : SeedPush} {seeds : List UInt64} {ids : List UInt32} {i j : UInt32}

@[simp] theorem length_main : (main io pc seeds i).length = seeds.length := by
  rw [main]
  split_ifs
  · rfl
  · exact List.length_set

/-- An invocation writes the seed of its own nonce only. -/
theorem main_get (hj : j < pc.batch) (hlen : j.toNat < seeds.length) :
    (main io pc seeds i)[j.toNat]? =
      if i = j then some (seedOf io pc j) else seeds[j.toNat]? := by
  rw [main]
  by_cases hi : i = j
  · rw [if_pos hi, hi, if_neg (UInt32.not_le.mpr hj), List.getElem?_set_self hlen]
  · have hne : i.toNat ≠ j.toNat := fun h => hi (UInt32.toNat_inj.mp h)
    rw [if_neg hi]
    split_ifs
    · rfl
    · exact List.getElem?_set_ne hne

theorem foldl_main_get (hj : j < pc.batch) (hlen : j.toNat < seeds.length) :
    (ids.foldl (main io pc) seeds)[j.toNat]? =
      if j ∈ ids then some (seedOf io pc j) else seeds[j.toNat]? := by
  induction ids generalizing seeds with
  | nil => rfl
  | cons i ids ih =>
    rw [List.foldl_cons, ih (by rwa [length_main]), main_get hj hlen]
    by_cases hi : i = j
    · simp [hi]
    · simp [hi, Ne.symm hi]

theorem mem_invocations {n : UInt32} (hj : j < n) : j ∈ invocations n := by
  have hlt : j.toNat < n.toNat := UInt32.lt_iff_toNat_lt.mp hj
  have hwg : SEED_WG.toNat = 64 := rfl
  rw [invocations, List.mem_map]
  refine ⟨j.toNat, List.mem_range.mpr ?_, UInt32.ofNat_toNat⟩
  rw [hwg]
  omega

/-- Whatever the order of the invocations, each nonce of the dispatch has its own seed. -/
theorem seedPass_get {job : V4Job} {state : Vector UInt64 25} {start : UInt64} {n : UInt32}
    (hstate : job.h10State = some state) (hids : ids.Perm (invocations n))
    (hlen : n.toNat ≤ seeds.length) (hj : j < n) :
    (seedPass job start n ids seeds)[j.toNat]? =
      some (Lanes.f1600 (state.set 9 (state[9] ^^^ (start + j.toUInt64))))[0] := by
  have hlt : j.toNat < seeds.length := Nat.lt_of_lt_of_le (UInt32.lt_iff_toNat_lt.mp hj) hlen
  have hmem : j ∈ ids := hids.mem_iff.mpr (mem_invocations hj)
  rw [seedPass, foldl_main_get hj hlt, if_pos hmem, hstate, ← keccakf_eq]
  rfl

end

end KeryxMiner.Vulkan
