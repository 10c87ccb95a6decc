import Mathlib.Data.List.GetD
import KeryxMiner.Stratum.Target
import KeryxMiner.Vulkan.SeedV4

/-!
# The hashes of the work

`PowHasher` and `HeavyHasher` start from the state of the sponge after the block of their
customization, with the padding already added, and the seed of a walk is the first word of the
former's hash. The absorbed words and the padding make up one block (`pad_words`), so the hashes are
those of cSHAKE256.
-/

namespace KeryxMiner.Stratum.Uint256

def fromLeBytes (bytes : Vector UInt8 32) : Uint256 :=
  ⟨Vector.ofFn fun i => UInt64.ofNat (leAt 8 bytes.toList (8 * i))⟩

def toLeBytes (x : Uint256) : List UInt8 := x.words.toList.flatMap wordBytes

end KeryxMiner.Stratum.Uint256

namespace KeryxMiner.Pow

open Keccak Stratum

theorem neZero_four : NeZero 4 := ⟨by decide⟩

theorem neZero_twentyFive : NeZero 25 := ⟨by decide⟩

/-- `*state_word ^= word` for the words in order. -/
def xorWords (state : Lanes) (words : List UInt64) : Lanes :=
  state.mapIdx fun i word => word ^^^ words.getD i 0

structure PowHasher where
  state : Lanes

namespace PowHasher

def INITIAL_STATE : Lanes :=
  #v[1242148031264380989, 3008272977830772284, 2188519011337848018, 1992179434288343456,
    8876506674959887717, 5399642050693751366, 1745875063082670864, 8605242046444978844,
    17936695144567157056, 3343109343542796272, 1123092876221303306, 4963925045340115282,
    17037383077651887893, 16629644495023626889, 12833675776649114147, 3784524041015224902,
    1082795874807940378, 13952716920571277634, 13411128033953605860, 15060696040649351053,
    9928834659948351306, 5237849264682708699, 12825353012139217522, 6706187291358897596,
    196324915476054915]

def new (prePowHash : Uint256) (timestamp : UInt64) : PowHasher :=
  let start := xorWords INITIAL_STATE prePowHash.words.toList
  ⟨start.setIfInBounds 4 (start.get 4 ^^^ timestamp)⟩

def finalizeWithNonce (hasher : PowHasher) (nonce : UInt64) : Uint256 :=
  let state := Lanes.f1600 (hasher.state.setIfInBounds 9 (hasher.state.get 9 ^^^ nonce))
  ⟨#v[state.get 0, state.get 1, state.get 2, state.get 3]⟩

end PowHasher

namespace HeavyHasher

def INITIAL_STATE : Lanes :=
  #v[4239941492252378377, 8746723911537738262, 8796936657246353646, 1272090201925444760,
    16654558671554924250, 8270816933120786537, 13907396207649043898, 6782861118970774626,
    9239690602118867528, 11582319943599406348, 17596056728278508070, 15212962468105129023,
    7812475424661425213, 3370482334374859748, 5690099369266491460, 8596393687355028144,
    570094237299545110, 9119540418498120711, 16901969272480492857, 13372017233735502424,
    14372891883993151831, 5171152063242093102, 10573107899694386186, 6096431547456407061,
    1592359455985097269]

def hash (inHash : Uint256) : Uint256 :=
  let state := Lanes.f1600 (xorWords INITIAL_STATE inHash.words.toList)
  ⟨#v[state.get 0, state.get 1, state.get 2, state.get 3]⟩

end HeavyHasher

/-! ## The seed of a walk -/

def pphWords (prePowHash : Vector UInt8 32) : Vector UInt64 4 :=
  Vector.ofFn fun i => UInt64.ofNat (leAt 8 prePowHash.toList (8 * i))

def POW_HASH_INITIAL_STATE : Lanes :=
  #v[1242148031264380989, 3008272977830772284, 2188519011337848018, 1992179434288343456,
    8876506674959887717, 5399642050693751366, 1745875063082670864, 8605242046444978844,
    17936695144567157056, 3343109343542796272, 1123092876221303306, 4963925045340115282,
    17037383077651887893, 16629644495023626889, 12833675776649114147, 3784524041015224902,
    1082795874807940378, 13952716920571277634, 13411128033953605860, 15060696040649351053,
    9928834659948351306, 5237849264682708699, 12825353012139217522, 6706187291358897596,
    196324915476054915]

def pomSeedH10State (prePowHash : Vector UInt8 32) (timestamp : UInt64) : Lanes :=
  let st := xorWords POW_HASH_INITIAL_STATE (pphWords prePowHash).toList
  st.setIfInBounds 4 (st.get 4 ^^^ timestamp)

def pomBlockSeedH10 (prePowHash : Vector UInt8 32) (timestamp nonce : UInt64) : UInt64 :=
  let st := pomSeedH10State prePowHash timestamp
  (Lanes.f1600 (st.setIfInBounds 9 (st.get 9 ^^^ nonce))).get 0

/-! ## cSHAKE256 -/

def PROOF_OF_WORK_DOMAIN : List UInt8 := "ProofOfWorkHash".toUTF8.toList

def HEAVY_HASH_DOMAIN : List UInt8 := "HeavyHash".toUTF8.toList

section

variable {a : Lanes} {hash : Uint256} {timestamp nonce : UInt64} {ws : List UInt64}

/-- The words that the padding adds to a block of `n` words. -/
def padWords (n : Nat) : List UInt64 :=
  List.replicate n 0 ++ ([0x04] ++ (List.replicate (15 - n) 0 ++ [0x8000000000000000]))

theorem flatMap_wordBytes_zero {n : Nat} :
    (List.replicate n (0 : UInt64)).flatMap wordBytes = List.replicate (8 * n) 0 := by
  have hzero : wordBytes 0 = List.replicate 8 0 := rfl
  rw [List.flatMap_replicate, hzero, List.flatten_replicate_replicate, Nat.mul_comm]

theorem pad_words (h : ws.length ≤ 15) : pad 0x04 (ws.flatMap wordBytes) =
    (ws ++ ([0x04] ++ (List.replicate (15 - ws.length) 0 ++ [0x8000000000000000]))).flatMap
      wordBytes := by
  have hlen : (ws.flatMap wordBytes).length = 8 * ws.length := by
    simp [List.length_flatMap, Nat.mul_comm]
  have hdomain : [0x04].flatMap wordBytes = 0x04 :: List.replicate 7 0 := rfl
  have hlast : [0x8000000000000000].flatMap wordBytes = List.replicate 7 0 ++ [0x80] := rfl
  have hzeros : rate - 8 * ws.length - 2 = 7 + (8 * (15 - ws.length) + 7) := by
    rw [rate]
    omega
  rw [pad_of_lt (by rw [hlen, rate]; omega), hlen, hzeros, List.flatMap_append, List.flatMap_append,
    List.flatMap_append, hdomain, hlast, flatMap_wordBytes_zero, List.replicate_add,
    List.replicate_add]
  simp only [List.append_assoc, List.cons_append, List.nil_append]

theorem getD_padWords {rest : List UInt64} (i : Nat) : (ws ++ rest).getD i 0 =
    (List.replicate ws.length 0 ++ rest).getD i 0 ^^^ ws.getD i 0 := by
  have hlen : (List.replicate ws.length (0 : UInt64)).length = ws.length := List.length_replicate
  rcases Nat.lt_or_ge i ws.length with hlt | hge
  · have hlt' : i < (List.replicate ws.length (0 : UInt64)).length := by rwa [hlen]
    rw [List.getD_append _ _ _ _ hlt, List.getD_append _ _ _ _ hlt', List.getD_replicate _ hlt,
      UInt64.zero_xor]
  · rw [List.getD_append_right _ _ _ _ hge, List.getD_append_right _ _ _ _ (by rwa [hlen]), hlen,
      List.getD_eq_default _ _ hge, UInt64.xor_zero]

theorem addBlock_pad (h : ws.length ≤ 15) : addBlock a (pad 0x04 (ws.flatMap wordBytes)) =
    xorWords (xorWords a (padWords ws.length)) ws := by
  rw [pad_words h, addBlock_words]
  apply Vector.ext
  intro i hi
  rw [xorWords, xorWords, Vector.getElem_ofFn, Vector.getElem_mapIdx, Vector.getElem_mapIdx,
    getD_padWords, padWords, UInt64.xor_assoc]
  rfl

/-- The state that a hash of `n` words starts from, with the padding. -/
def startState (domain : List UInt8) (n : Nat) : Lanes :=
  xorWords (Vulkan.keccakf (addBlock (Vector.replicate 25 0)
    ([1, 136, 1, 0, 1, UInt8.ofNat (8 * domain.length)] ++ domain ++
      List.replicate (130 - domain.length) 0))) (padWords n)

/-- The hash of words with a precomputed start. -/
theorem cshake256_words {domain : List UInt8} (hdomain : domain.length < 32) (hne : domain ≠ [])
    (h : ws.length ≤ 15) : cshake256 (ws.flatMap wordBytes) [] domain 32 =
      ((Lanes.f1600 (xorWords (startState domain ws.length) ws)).toList.take 4).flatMap wordBytes := by
  have hlen : (ws.flatMap wordBytes).length = 8 * ws.length := by
    simp [List.length_flatMap, Nat.mul_comm]
  have hfits : (ws.flatMap wordBytes).length + 1 < rate := by
    rw [hlen, rate]
    omega
  rw [cshake256_of_lt hdomain hne hfits, bytepad_of_lt hdomain, addBlock_pad h, startState,
    Vulkan.keccakf_eq]

/-- The constants in the source are the states that cSHAKE256 starts from. -/
theorem pow_initialState : startState PROOF_OF_WORK_DOMAIN 10 = PowHasher.INITIAL_STATE := by
  decide +kernel

theorem heavy_initialState : startState HEAVY_HASH_DOMAIN 4 = HeavyHasher.INITIAL_STATE := by
  decide +kernel

theorem toLeBytes_take : Uint256.toLeBytes ⟨#v[a.get 0, a.get 1, a.get 2, a.get 3]⟩ =
    (a.toList.take 4).flatMap wordBytes := by
  have htake : a.toList.take 4 = [a.get 0, a.get 1, a.get 2, a.get 3] := by
    apply List.ext_getElem (by rw [List.length_take, Vector.length_toList]; rfl)
    intro i _ hi
    rw [List.getElem_take, Vector.getElem_toList]
    have hi : i < 4 := hi
    interval_cases i <;> rfl
  rw [htake]
  rfl

theorem getElem_xorWords {i : Nat} (hi : i < 25) : (xorWords a ws)[i] = a[i] ^^^ ws.getD i 0 := by
  rw [xorWords, Vector.getElem_mapIdx]

/-- The words that `PowHasher` absorbs one after the other. -/
theorem xorWords_set (hws : ws.length = 4) :
    xorWords a (ws ++ [timestamp, 0, 0, 0, 0, nonce]) =
      let start := xorWords a ws
      let state := start.setIfInBounds 4 (start.get 4 ^^^ timestamp)
      state.setIfInBounds 9 (state.get 9 ^^^ nonce) := by
  obtain ⟨w0, w1, w2, w3, rfl⟩ : ∃ w0 w1 w2 w3, ws = [w0, w1, w2, w3] := List.length_eq_four.mp hws
  have h4 : (xorWords a [w0, w1, w2, w3]).get 4 = a[4] := by
    change (xorWords a [w0, w1, w2, w3])[4] = a[4]
    rw [getElem_xorWords (by decide)]
    exact UInt64.xor_zero
  have h9 {w : UInt64} : ((xorWords a [w0, w1, w2, w3]).setIfInBounds 4 w).get 9 = a[9] := by
    change ((xorWords a [w0, w1, w2, w3]).setIfInBounds 4 w)[9] = a[9]
    rw [Vector.getElem_setIfInBounds_ne (by decide) (by decide), getElem_xorWords (by decide)]
    exact UInt64.xor_zero
  dsimp only
  rw [h4, h9]
  apply Vector.ext
  intro i hi
  rw [getElem_xorWords hi, Vector.getElem_setIfInBounds, Vector.getElem_setIfInBounds,
    getElem_xorWords hi]
  interval_cases i <;> rfl

theorem finalizeWithNonce_eq : ((PowHasher.new hash timestamp).finalizeWithNonce nonce).toLeBytes =
    cshake256 (hash.toLeBytes ++ wordBytes timestamp ++ List.replicate 32 0 ++ wordBytes nonce) []
      PROOF_OF_WORK_DOMAIN 32 := by
  have hzeros : List.replicate 32 0 = [0, 0, 0, 0].flatMap wordBytes := rfl
  have hbytes : hash.toLeBytes ++ wordBytes timestamp ++ List.replicate 32 0 ++ wordBytes nonce =
      (hash.words.toList ++ [timestamp, 0, 0, 0, 0, nonce]).flatMap wordBytes := by
    simp [Uint256.toLeBytes, hzeros]
  have hlen : (hash.words.toList ++ [timestamp, 0, 0, 0, 0, nonce]).length = 10 := by simp
  rw [hbytes, cshake256_words (by decide +kernel) (by decide +kernel) (by rw [hlen]; decide), hlen,
    pow_initialState, xorWords_set Vector.length_toList, ← toLeBytes_take]
  rfl

theorem heavyHash_eq : (HeavyHasher.hash hash).toLeBytes =
    cshake256 hash.toLeBytes [] HEAVY_HASH_DOMAIN 32 := by
  have hlen : hash.words.toList.length = 4 := Vector.length_toList
  have hbytes : hash.toLeBytes = hash.words.toList.flatMap wordBytes := rfl
  rw [hbytes, cshake256_words (by decide +kernel) (by decide +kernel) (by rw [hlen]; decide), hlen,
    heavy_initialState, ← toLeBytes_take]
  rfl

/-- The seed of a walk is the first word of the hash. -/
theorem pomBlockSeedH10_eq {prePowHash : Vector UInt8 32} :
    pomBlockSeedH10 prePowHash timestamp nonce =
      ((PowHasher.new (.fromLeBytes prePowHash) timestamp).finalizeWithNonce nonce).words.get 0 := rfl

theorem set_eq_setIfInBounds {i : Nat} (hi : i < 25) {word : UInt64} :
    a.set i word = a.setIfInBounds i word := by
  apply Vector.ext
  intro j hj
  rw [Vector.getElem_set, Vector.getElem_setIfInBounds]

end

/-- The host and the shader compute what cSHAKE256 gives, over the permutation of the standard. -/
theorem workHashes_cshake256 (hash : Uint256) (prePowHash : Vector UInt8 32)
    (timestamp nonce start : UInt64) (n : UInt32) (job : Vulkan.V4Job) (ids : List UInt32)
    (seeds : List UInt64) (hjob : job.h10State = some (pomSeedH10State prePowHash timestamp))
    (hn : n ≤ Vulkan.V4_MAX_DISPATCH_NONCES)
    (hseeds : seeds.length = Vulkan.V4_MAX_DISPATCH_NONCES.toNat)
    (hids : ids.Perm (Vulkan.invocations n)) :
    ((PowHasher.new hash timestamp).finalizeWithNonce nonce).toLeBytes =
        cshake256 (hash.toLeBytes ++ wordBytes timestamp ++ List.replicate 32 0 ++ wordBytes nonce)
          [] PROOF_OF_WORK_DOMAIN 32 ∧
    pomBlockSeedH10 prePowHash timestamp nonce =
      ((PowHasher.new (.fromLeBytes prePowHash) timestamp).finalizeWithNonce nonce).words[0] ∧
    (∀ i < n, (Vulkan.seedPass job start n ids seeds)[i.toNat]? =
      some (pomBlockSeedH10 prePowHash timestamp (start + i.toUInt64))) ∧
    (HeavyHasher.hash hash).toLeBytes = cshake256 hash.toLeBytes [] HEAVY_HASH_DOMAIN 32 ∧
    ∀ a : Lanes, Vulkan.keccakf a = Lanes.f1600 a ∧
      Lanes.bitsOf (Lanes.f1600 a) = (Lanes.bitsOf a).f1600 := by
  have hlen : n.toNat ≤ seeds.length := hseeds ▸ UInt32.le_iff_toNat_le.mp hn
  refine ⟨finalizeWithNonce_eq, pomBlockSeedH10_eq, ?_, heavyHash_eq, ?_⟩
  · intro i hi
    rw [Vulkan.seedPass_get hjob hids hlen hi, set_eq_setIfInBounds]
    rfl
  · intro a
    exact ⟨Vulkan.keccakf_eq, bitsOf_f1600⟩

/-- Two nonces, the second one first. -/
theorem workHashes_cshake256_two :
    (Vulkan.seedPass ⟨Vector.replicate 4 0, Vector.replicate 4 0, 5435345234,
        some (pomSeedH10State (Vector.replicate 32 42) 5435345234)⟩ 432432432 2
        (Vulkan.invocations 2).reverse (List.replicate (1 <<< 15) 0))[1]? =
      some (pomBlockSeedH10 (Vector.replicate 32 42) 5435345234 432432433) :=
  (workHashes_cshake256 default (Vector.replicate 32 42) 5435345234 0 432432432 2
    ⟨Vector.replicate 4 0, Vector.replicate 4 0, 5435345234,
      some (pomSeedH10State (Vector.replicate 32 42) 5435345234)⟩ _ _ rfl (by decide)
    List.length_replicate (List.reverse_perm _)).2.2.1 1 (by decide)

end KeryxMiner.Pow
