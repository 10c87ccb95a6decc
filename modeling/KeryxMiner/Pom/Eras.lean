import KeryxMiner.Pom.Steps
import KeryxMiner.Pow.Hasher
import KeryxMiner.Pow.Header

/-!
# The eras of the work

The DAA scores from which on the network hashes, walks and proves in another way, on the main and on
the test network, the seeds of a walk in each era, and the pad of each tier.
-/

namespace KeryxMiner.Pom

/-! ## Gates -/

section

variable (isTestnet : Bool)

def gate (mainnet testnet : UInt64) : UInt64 := if isTestnet then testnet else mainnet

def H15_ACTIVATION_DAA : UInt64 := 140115000
def TESTNET_H15_ACTIVATION_DAA : UInt64 := 3500
def H16_ACTIVATION_DAA : UInt64 := 147000000
def TESTNET_H16_ACTIVATION_DAA : UInt64 := 180000

def pomLevelActivationDaa : UInt64 := gate isTestnet 43450000 1
def coinAgeVerificationActivationDaa : UInt64 := gate isTestnet 54766000 0
def h5ActivationDaa : UInt64 := gate isTestnet 59009037 0
def h51ActivationDaa : UInt64 := gate isTestnet 59027921 0
def h52ActivationDaa : UInt64 := gate isTestnet 59170000 0
def pomV3ActivationDaa : UInt64 := gate isTestnet 76316623 1
def pomV4ActivationDaa : UInt64 := gate isTestnet 79210000 1
def h10ActivationDaa : UInt64 := gate isTestnet 87360000 1
def privateInferenceActivationDaa : UInt64 := gate isTestnet 121985000 1
def pomV5ActivationDaa : UInt64 := gate isTestnet H15_ACTIVATION_DAA TESTNET_H15_ACTIVATION_DAA
def padMarginActivationDaa : UInt64 := gate isTestnet H16_ACTIVATION_DAA TESTNET_H16_ACTIVATION_DAA

def blockTaskActivationDaa : UInt64 := 0xFFFFFFFFFFFFFFFF

/-- The gates that the serialization of a header reads. -/
def headerGates : Pow.Gates where
  pomLevel := pomLevelActivationDaa isTestnet
  pomV3 := pomV3ActivationDaa isTestnet
  blockTask := blockTaskActivationDaa

end

/-! ## Seeds -/

attribute [local instance] Pow.neZero_four

def POM_H5_1_PPH_SALT : Words :=
  #v[0x0F86D1400D3F8664, 0xC296B67C7A7A6A5B, 0x5F89AD33D961FEAA, 0xAC6C9AFDFA053580]

def POM_H5_2_PPH_SALT : Words :=
  #v[0x584ADE0A598D896D, 0x8783631D81BC2695, 0x2917FCF883A0B862, 0x533CCCFAC88FD614]

def POM_V4_PPH_SALT : Words :=
  #v[0x7D7BC84C8D18DE80, 0xDE48EE16AE3F1541, 0x3305F1952B30384A, 0xF78C133968D388B7]

/-- The words that the seed of a walk folds in, before the fourth walk. -/
def seedPphWordsForEra (prePowHash : Bytes32) (h3 h51 h52 : Bool) : Words :=
  if h52 then Vector.zipWith (· ^^^ ·) (pphWords prePowHash) POM_H5_2_PPH_SALT
  else if h51 then Vector.zipWith (· ^^^ ·) (pphWords prePowHash) POM_H5_1_PPH_SALT
  else pphWordsForEra prePowHash h3

def pomBlockSeedFromWords (p : Words) (timestamp nonce : UInt64) : UInt64 :=
  let s := mix64 (nonce ^^^ 0x4B65727978531)
  let s := mix64 (s ^^^ timestamp)
  let s := mix64 (s ^^^ p.get 0)
  let s := mix64 (s ^^^ p.get 1)
  let s := mix64 (s ^^^ p.get 2)
  mix64 (s ^^^ p.get 3)

def pomBlockSeed (prePowHash : Bytes32) (timestamp nonce : UInt64) (h3 h51 h52 : Bool) : UInt64 :=
  pomBlockSeedFromWords (seedPphWordsForEra prePowHash h3 h51 h52) timestamp nonce

def pphWordsV4 (prePowHash : Bytes32) : Words :=
  Vector.zipWith (· ^^^ ·) (pphWords prePowHash) POM_V4_PPH_SALT

def pomBlockSeedV4 (prePowHash : Bytes32) (timestamp nonce : UInt64) : UInt64 :=
  pomBlockSeedFromWords (pphWordsV4 prePowHash) timestamp nonce

def SEED_H14_TAG : List UInt8 := "KERYX-H14-PRIVATE-INFERENCE-SEED".toUTF8.toList

def seedH14Pph (prePowHash : Bytes32) : Bytes32 :=
  Vector.ofFn fun i => prePowHash.get i ^^^ SEED_H14_TAG.getD i 0

def pomBlockSeedH14 (prePowHash : Bytes32) (timestamp nonce : UInt64) : UInt64 :=
  Pow.pomBlockSeedH10 (seedH14Pph prePowHash) timestamp nonce

/-- The seed of the fourth and the fifth walk for a block. -/
def pomBlockSeedV4Era (isTestnet : Bool) (prePowHash : Bytes32) (timestamp nonce daa : UInt64) :
    UInt64 :=
  if privateInferenceActivationDaa isTestnet ≤ daa then pomBlockSeedH14 prePowHash timestamp nonce
  else if h10ActivationDaa isTestnet ≤ daa then Pow.pomBlockSeedH10 prePowHash timestamp nonce
  else pomBlockSeedV4 prePowHash timestamp nonce

/-- The sponge that the device absorbs a nonce into, from its era on. -/
def pomSeedStateV4Era (isTestnet : Bool) (prePowHash : Bytes32) (timestamp daa : UInt64) :
    Option Keccak.Lanes :=
  if privateInferenceActivationDaa isTestnet ≤ daa then
    some (Pow.pomSeedH10State (seedH14Pph prePowHash) timestamp)
  else if h10ActivationDaa isTestnet ≤ daa then some (Pow.pomSeedH10State prePowHash timestamp)
  else none

/-! ## Pads -/

def POM_V5_PAD_TILES_H14 : List Nat := [638976, 3213312, 4804608, 6471680, 2450432]

def POM_V5_PAD_TILES_H16 : List Nat := [434176, 3008512, 4599808, 6266880, 2245632]

/-- The tiles of a tier's pad for a block; 0 for no pad. -/
def pomV5PadTiles (isTestnet : Bool) (tier : UInt8) (daa : UInt64) : Nat :=
  let table := if padMarginActivationDaa isTestnet ≤ daa then POM_V5_PAD_TILES_H16
    else POM_V5_PAD_TILES_H14
  table.getD tier.toNat 0

def PAD_DOMAIN : List UInt8 := "KERYX-POM-V5-PAD".toUTF8.toList

def v5PadSeed (blake : List UInt8 → Bytes32) (tier : UInt8) (modelId rT : Bytes32) : Bytes32 :=
  blake (PAD_DOMAIN ++ [tier] ++ modelId.toList ++ rT.toList)

theorem pomV5PadTiles_lt {isTestnet : Bool} {tier : UInt8} {daa : UInt64} :
    pomV5PadTiles isTestnet tier daa < 2 ^ 23 := by
  have htable : ∀ table ∈ [POM_V5_PAD_TILES_H16, POM_V5_PAD_TILES_H14], ∀ n ∈ table, n < 2 ^ 23 := by
    decide
  rw [pomV5PadTiles]
  generalize hg : (if padMarginActivationDaa isTestnet ≤ daa then POM_V5_PAD_TILES_H16
    else POM_V5_PAD_TILES_H14) = table
  have hmem : table ∈ [POM_V5_PAD_TILES_H16, POM_V5_PAD_TILES_H14] := by
    rw [← hg]
    split_ifs <;> simp
  rw [List.getD_eq_getElem?_getD]
  cases hn : (table)[tier.toNat]? with
  | none => decide
  | some n => exact htable table hmem n (List.mem_of_getElem? hn)

end KeryxMiner.Pom
