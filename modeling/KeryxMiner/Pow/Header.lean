import KeryxMiner.Framing

/-!
# Header serialization

The bytes of a block header that are hashed: all of them for the hash of the block, and without what
a miner finds for the hash that the work is done on. Filling in what was found leaves the latter as
they were, and in both the bytes tell the fields, as far as hexadecimal digits stand for bytes
(`serializeHeader_tells`).
-/

namespace KeryxMiner.Pow

structure RpcBlockLevelParents where
  parentHashes : List String
  deriving DecidableEq

structure RpcBlockHeader where
  version : UInt32
  parents : List RpcBlockLevelParents
  hashMerkleRoot : String
  acceptedIdMerkleRoot : String
  utxoCommitment : String
  timestamp : Int64
  bits : UInt32
  nonce : UInt64
  daaScore : UInt64
  blueWork : String
  pruningPoint : String
  blueScore : UInt64
  pomFinalState : UInt64
  serviceStateHash : String
  pomTier : UInt32
  taskRoot : String
  deriving DecidableEq

/-- The DAA scores from which on the network hashes a field. -/
structure Gates where
  pomLevel : UInt64
  pomV3 : UInt64
  blockTask : UInt64

/-! ## Hexadecimal fields -/

def textBytes (s : String) : List UInt8 := s.toByteArray.data.toList

/-- The value of a hexadecimal digit. -/
def val (c : UInt8) : Option UInt8 :=
  if 65 ≤ c ∧ c ≤ 70 then some (c - 65 + 10)
  else if 97 ≤ c ∧ c ≤ 102 then some (c - 97 + 10)
  else if 48 ≤ c ∧ c ≤ 57 then some (c - 48)
  else none

def decodePairs : List UInt8 → Option (List UInt8)
  | c :: d :: rest => do
    let hi ← val c
    let lo ← val d
    let bytes ← decodePairs rest
    some ((hi <<< 4 ||| lo) :: bytes)
  | _ => some []

/-- Fills `n` bytes; none is a `FromHexError`. -/
def decodeToSlice (data : List UInt8) (n : Nat) : Option (List UInt8) :=
  if data.length % 2 ≠ 0 then none
  else if data.length / 2 ≠ n then none
  else decodePairs data

def decodeHash (s : String) : Option (List UInt8) := decodeToSlice (textBytes s) 32

/-- A root that may be missing. -/
def decodeRoot (s : String) : Option (List UInt8) :=
  if s.isEmpty then some (List.replicate 32 0) else decodeHash s

/-! ## Serialization -/

def levelBytes (parent : RpcBlockLevelParents) : Option (List UInt8) := do
  let hashes ← concat decodeHash parent.parentHashes
  some (toLe 8 parent.parentHashes.length ++ hashes)

/-- The digits in whole bytes. -/
def padEven (digits : List UInt8) : List UInt8 :=
  if digits.length % 2 = 0 then digits else 48 :: digits

def blueWorkBytes (s : String) : Option (List UInt8) := do
  let len := ((textBytes s).length + 1) / 2
  if 32 < len then none
  else
    let blueWork ← decodeToSlice (padEven (textBytes s)) len
    some (toLe 8 len ++ blueWork)

/-- The bytes that the header hasher gets; none is a panic. -/
def serializeHeader (g : Gates) (header : RpcBlockHeader) (forPrePow : Bool) :
    Option (List UInt8) := do
  let (nonce, timestamp) := if forPrePow then (0, 0) else (header.nonce, header.timestamp)
  if 2 ^ 16 ≤ header.version.toNat then none
  else
    let parents ← concat levelBytes header.parents
    let hashMerkleRoot ← decodeHash header.hashMerkleRoot
    let acceptedIdMerkleRoot ← decodeHash header.acceptedIdMerkleRoot
    let utxoCommitment ← decodeHash header.utxoCommitment
    let blueWork ← blueWorkBytes header.blueWork
    let pruningPoint ← decodeHash header.pruningPoint
    let root ← (if g.blockTask ≤ header.daaScore then decodeRoot header.taskRoot else some [])
    let finalState ← (if !forPrePow ∧ g.pomLevel ≤ header.daaScore then
        some (toLe 8 header.pomFinalState.toNat)
      else some [])
    let state ← (if !forPrePow ∧ g.pomV3 ≤ header.daaScore then
        (decodeRoot header.serviceStateHash).map (· ++ [header.pomTier.toUInt8])
      else some [])
    some (toLe 2 header.version.toNat ++ (toLe 8 header.parents.length ++ parents) ++
      hashMerkleRoot ++ acceptedIdMerkleRoot ++ utxoCommitment ++
      toLe 8 timestamp.toUInt64.toNat ++ toLe 4 header.bits.toNat ++ toLe 8 nonce.toNat ++
      toLe 8 header.daaScore.toNat ++ toLe 8 header.blueScore.toNat ++ blueWork ++ pruningPoint ++
      root ++ finalState ++ state)

/-- What a miner found, in the header. -/
def fillPomHeader (g : Gates) (header : RpcBlockHeader) (nonce finalState : UInt64) (tier : UInt8) :
    RpcBlockHeader :=
  let header := { header with nonce }
  let header := if g.pomLevel ≤ header.daaScore then { header with pomFinalState := finalState }
    else header
  if g.pomV3 ≤ header.daaScore then { header with pomTier := tier.toUInt32 } else header

structure RpcBlock where
  header : Option RpcBlockHeader
  pomProof : List UInt8

/-- The work of a node, or that of a pool, whose job may come with the header. -/
inductive BlockSeed
  | fullBlock (block : RpcBlock)
  | partialBlock (nonce : UInt64) (pomProof : List UInt8) (header : Option RpcBlockHeader)

def BlockSeed.header : BlockSeed → Option RpcBlockHeader
  | fullBlock block => block.header
  | partialBlock _ _ header => header

/-- The block that was found; none is a panic. -/
def assemblePomBlock (g : Gates) (seed : BlockSeed) (nonce finalState : UInt64) (tier : UInt8)
    (proofBytes : List UInt8) : Option BlockSeed :=
  match seed with
  | .fullBlock block => do
    let header ← block.header
    some (.fullBlock { header := some (fillPomHeader g header nonce finalState tier)
                       pomProof := proofBytes })
  | .partialBlock _ _ header => some (.partialBlock nonce proofBytes header)

/-! ## Digits -/

def IsDigit (c : UInt8) : Prop := 65 ≤ c ∧ c ≤ 70 ∨ 97 ≤ c ∧ c ≤ 102 ∨ 48 ≤ c ∧ c ≤ 57

instance : DecidablePred IsDigit := fun _ => inferInstanceAs (Decidable (_ ∨ _))

/-- A digit without its case. -/
def lower (c : UInt8) : UInt8 := if 65 ≤ c ∧ c ≤ 70 then c + 32 else c

/-- The digit of a value. -/
def digitOf (v : UInt8) : UInt8 := if v < 10 then 48 + v else 87 + v

section

variable {c d v w : UInt8} {data b : List UInt8} {n : Nat}

theorem val_of_isDigit (h : IsDigit c) : ∃ v, val c = some v := by
  rw [val]
  split
  · exact ⟨_, rfl⟩
  next hupper =>
  split
  · exact ⟨_, rfl⟩
  next hlower => exact ⟨_, if_pos ((h.resolve_left hupper).resolve_left hlower)⟩

theorem digitOf_val (h : val c = some v) : v < 16 ∧ lower c = digitOf v := by
  have hall : ∀ n : Fin 256, (val (UInt8.ofNat n)).all fun v =>
      v < 16 ∧ lower (UInt8.ofNat n) = digitOf v := by
    decide +kernel
  have hc := hall ⟨c.toNat, c.toNat_lt⟩
  rw [UInt8.ofNat_toNat, h] at hc
  exact of_decide_eq_true hc

theorem digitOf_halves (hv : v < 16) (hw : w < 16) :
    (v <<< 4 ||| w) >>> 4 = v ∧ (v <<< 4 ||| w) &&& 15 = w := by
  have hall : ∀ m n : Fin 16,
      (UInt8.ofNat m <<< 4 ||| UInt8.ofNat n) >>> 4 = UInt8.ofNat m ∧
        (UInt8.ofNat m <<< 4 ||| UInt8.ofNat n) &&& 15 = UInt8.ofNat n := by
    decide +kernel
  have hvw := hall ⟨v.toNat, hv⟩ ⟨w.toNat, hw⟩
  rwa [UInt8.ofNat_toNat, UInt8.ofNat_toNat] at hvw

/-- The digits of some bytes. -/
def digitsOf (b : List UInt8) : List UInt8 :=
  b.flatMap fun v : UInt8 => [digitOf (v >>> 4), digitOf (v &&& 15)]

/-- The bytes tell the digits that they were decoded from, less their case. -/
theorem digitsOf_decodePairs (hlen : data.length = 2 * n) (h : decodePairs data = some b) :
    b.length = n ∧ data.map lower = digitsOf b := by
  induction n generalizing data b with
  | zero =>
    obtain rfl := List.eq_nil_of_length_eq_zero hlen
    cases h
    exact ⟨rfl, rfl⟩
  | succ n ih =>
    obtain _ | ⟨c, _ | ⟨d, rest⟩⟩ := data
    · cases hlen
    · cases hlen
    · simp only [decodePairs, Option.bind_eq_bind, Option.bind_eq_some_iff, Option.some_inj] at h
      obtain ⟨hi, hhi, lo, hlo, bytes, hbytes, rfl⟩ := h
      have hrest : rest.length = 2 * n := by
        rw [List.length_cons, List.length_cons] at hlen
        omega
      obtain ⟨hlength, hdigits⟩ := ih hrest hbytes
      obtain ⟨hsmall, hc⟩ := digitOf_val hhi
      obtain ⟨hsmall', hd⟩ := digitOf_val hlo
      obtain ⟨hhalf, hhalf'⟩ := digitOf_halves hsmall hsmall'
      refine ⟨congrArg (· + 1) hlength, ?_⟩
      rw [List.map_cons, List.map_cons, digitsOf, List.flatMap_cons, hhalf, hhalf', hc, hd, hdigits]
      rfl

theorem exists_decodePairs (h : ∀ c ∈ data, IsDigit c) : ∃ b, decodePairs data = some b := by
  induction data using decodePairs.induct with
  | case1 c d rest ih =>
    rw [List.forall_mem_cons, List.forall_mem_cons] at h
    obtain ⟨hi, hhi⟩ := val_of_isDigit h.1
    obtain ⟨lo, hlo⟩ := val_of_isDigit h.2.1
    obtain ⟨bytes, hbytes⟩ := ih h.2.2
    exact ⟨_, by rw [decodePairs, hhi, hlo, hbytes]; rfl⟩
  | case2 data hshort => exact ⟨[], by rw [decodePairs]; exact hshort⟩

theorem decodeToSlice_eq_some : decodeToSlice data n = some b ↔
    data.length = 2 * n ∧ decodePairs data = some b := by
  rw [decodeToSlice]
  split
  · next hodd => exact iff_of_false nofun fun h => hodd (by omega)
  next heven =>
  split
  · next hlen => exact iff_of_false nofun fun h => hlen (by omega)
  · next hlen =>
    constructor
    · intro h
      exact ⟨by omega, h⟩
    · rintro ⟨-, h⟩
      exact h

end

/-- Two digit strings that differ in the case of letters only. -/
def SameHex (s t : List UInt8) : Prop := s.map lower = t.map lower

def SameHash (s t : String) : Prop := SameHex (textBytes s) (textBytes t)

/-- The digits of a root; a missing one stands for 32 zero bytes. -/
def rootDigits (s : String) : List UInt8 := if s.isEmpty then List.replicate 64 48 else textBytes s

def SameRoot (s t : String) : Prop := SameHex (rootDigits s) (rootDigits t)

/-- Equal up to leading digits that fill the first byte. -/
def SameWork (s t : String) : Prop := SameHex (padEven (textBytes s)) (padEven (textBytes t))

section

variable {s t : String} {data data' b b' : List UInt8} {n : Nat}

theorem tells_decodeToSlice (hb : decodeToSlice data n = some b)
    (hb' : decodeToSlice data' n = some b') : Tells b b' (SameHex data data') := by
  rw [decodeToSlice_eq_some] at hb hb'
  obtain ⟨hlen, hdigits⟩ := digitsOf_decodePairs hb.1 hb.2
  obtain ⟨hlen', hdigits'⟩ := digitsOf_decodePairs hb'.1 hb'.2
  refine .of_length (hlen.trans hlen'.symm) ?_
  rintro rfl
  exact hdigits.trans hdigits'.symm

theorem tells_decodeHash (hb : decodeHash s = some b) (hb' : decodeHash t = some b') :
    Tells b b' (SameHash s t) := tells_decodeToSlice hb hb'

/-- A missing root is decoded like 32 zero bytes. -/
theorem decodeRoot_eq : decodeRoot s = decodeToSlice (rootDigits s) 32 := by
  rw [decodeRoot, rootDigits]
  split
  · rfl
  · rfl

theorem tells_decodeRoot (hb : decodeRoot s = some b) (hb' : decodeRoot t = some b') :
    Tells b b' (SameRoot s t) := by
  rw [decodeRoot_eq] at hb hb'
  exact tells_decodeToSlice hb hb'

theorem tells_blueWorkBytes (hb : blueWorkBytes s = some b) (hb' : blueWorkBytes t = some b') :
    Tells b b' (SameWork s t) := by
  have hparts {s : String} {b : List UInt8} (hb : blueWorkBytes s = some b) : ∃ len work,
      len < 256 ^ 8 ∧ decodeToSlice (padEven (textBytes s)) len = some work ∧
        b = toLe 8 len ++ work := by
    rw [blueWorkBytes] at hb
    split at hb
    · cases hb
    next hlen =>
    simp only [Option.bind_eq_bind, Option.bind_eq_some_iff, Option.some_inj] at hb
    obtain ⟨work, hwork, rfl⟩ := hb
    exact ⟨_, work, by omega, hwork, rfl⟩
  obtain ⟨len, work, hlen, hwork, rfl⟩ := hparts hb
  obtain ⟨len', work', hlen', hwork', rfl⟩ := hparts hb'
  refine ((tells_toLe hlen hlen').append ?_).mono And.right
  rintro rfl
  exact tells_decodeToSlice hwork hwork'

end

/-! ## Well-formed headers -/

/-- 64 hexadecimal digits. -/
def IsHash (s : String) : Prop := (textBytes s).length = 64 ∧ ∀ c ∈ textBytes s, IsDigit c

instance : DecidablePred IsHash := fun _ => inferInstanceAs (Decidable (_ ∧ _))

structure RpcBlockHeader.WellFormed (h : RpcBlockHeader) : Prop where
  version : h.version.toNat < 2 ^ 16
  /-- Lengths are those of vectors. -/
  levels : h.parents.length < 2 ^ 64
  parents : ∀ p ∈ h.parents, p.parentHashes.length < 2 ^ 64 ∧ ∀ s ∈ p.parentHashes, IsHash s
  hashMerkleRoot : IsHash h.hashMerkleRoot
  acceptedIdMerkleRoot : IsHash h.acceptedIdMerkleRoot
  utxoCommitment : IsHash h.utxoCommitment
  blueWork : (textBytes h.blueWork).length ≤ 64 ∧ ∀ c ∈ textBytes h.blueWork, IsDigit c
  pruningPoint : IsHash h.pruningPoint
  taskRoot : h.taskRoot.isEmpty ∨ IsHash h.taskRoot
  serviceStateHash : h.serviceStateHash.isEmpty ∨ IsHash h.serviceStateHash
  pomTier : h.pomTier.toNat < 2 ^ 8

/-- What the serialization tells of two headers. -/
structure Agree (g : Gates) (forPrePow : Bool) (h h' : RpcBlockHeader) : Prop where
  version : h.version = h'.version
  parents : List.Forall₂ (fun p p' => List.Forall₂ SameHash p.parentHashes p'.parentHashes)
    h.parents h'.parents
  hashMerkleRoot : SameHash h.hashMerkleRoot h'.hashMerkleRoot
  acceptedIdMerkleRoot : SameHash h.acceptedIdMerkleRoot h'.acceptedIdMerkleRoot
  utxoCommitment : SameHash h.utxoCommitment h'.utxoCommitment
  bits : h.bits = h'.bits
  daaScore : h.daaScore = h'.daaScore
  blueScore : h.blueScore = h'.blueScore
  blueWork : SameWork h.blueWork h'.blueWork
  pruningPoint : SameHash h.pruningPoint h'.pruningPoint
  taskRoot : g.blockTask ≤ h.daaScore → SameRoot h.taskRoot h'.taskRoot
  timestamp : forPrePow = false → h.timestamp = h'.timestamp
  nonce : forPrePow = false → h.nonce = h'.nonce
  pomFinalState : forPrePow = false → g.pomLevel ≤ h.daaScore → h.pomFinalState = h'.pomFinalState
  serviceStateHash : forPrePow = false → g.pomV3 ≤ h.daaScore →
    SameRoot h.serviceStateHash h'.serviceStateHash
  pomTier : forPrePow = false → g.pomV3 ≤ h.daaScore → h.pomTier = h'.pomTier

section

variable {g : Gates} {h h' : RpcBlockHeader} {pre : Bool} {b b' : List UInt8} {s : String}

theorem exists_decodeHash (hs : IsHash s) : ∃ b, decodeHash s = some b := by
  obtain ⟨b, hb⟩ := exists_decodePairs hs.2
  exact ⟨b, decodeToSlice_eq_some.mpr ⟨hs.1, hb⟩⟩

theorem exists_decodeRoot (hs : s.isEmpty ∨ IsHash s) : ∃ b, decodeRoot s = some b := by
  rw [decodeRoot]
  split
  · exact ⟨_, rfl⟩
  next hempty => exact exists_decodeHash (hs.resolve_left hempty)

theorem exists_blueWorkBytes (hlen : (textBytes s).length ≤ 64) (hs : ∀ c ∈ textBytes s, IsDigit c) :
    ∃ b, blueWorkBytes s = some b := by
  have hdigits : ∀ c ∈ padEven (textBytes s), IsDigit c := by
    rw [padEven]
    split
    · exact hs
    · exact List.forall_mem_cons.mpr ⟨.inr (.inr (by decide)), hs⟩
  have heven : (padEven (textBytes s)).length = 2 * (((textBytes s).length + 1) / 2) := by
    rw [padEven]
    split
    · omega
    · rw [List.length_cons]
      omega
  obtain ⟨b, hb⟩ := exists_decodePairs hdigits
  have hwork := decodeToSlice_eq_some.mpr ⟨heven, hb⟩
  exact ⟨_, by rw [blueWorkBytes, if_neg (by omega), hwork]; rfl⟩

/-- The serialization, field by field. -/
theorem serializeHeader_eq_some : serializeHeader g h pre = some b ↔
    h.version.toNat < 2 ^ 16 ∧ ∃ parents merkle accepted utxo work pruning root final state,
      concat levelBytes h.parents = some parents ∧ decodeHash h.hashMerkleRoot = some merkle ∧
      decodeHash h.acceptedIdMerkleRoot = some accepted ∧ decodeHash h.utxoCommitment = some utxo ∧
      blueWorkBytes h.blueWork = some work ∧ decodeHash h.pruningPoint = some pruning ∧
      (if g.blockTask ≤ h.daaScore then decodeRoot h.taskRoot else some []) = some root ∧
      (if !pre ∧ g.pomLevel ≤ h.daaScore then some (toLe 8 h.pomFinalState.toNat)
        else some []) = some final ∧
      (if !pre ∧ g.pomV3 ≤ h.daaScore then
        (decodeRoot h.serviceStateHash).map (· ++ [h.pomTier.toUInt8]) else some []) = some state ∧
      b = toLe 2 h.version.toNat ++ (toLe 8 h.parents.length ++ parents) ++ merkle ++ accepted ++
        utxo ++ toLe 8 (if pre then 0 else h.timestamp).toUInt64.toNat ++ toLe 4 h.bits.toNat ++
        toLe 8 (if pre then 0 else h.nonce).toNat ++ toLe 8 h.daaScore.toNat ++
        toLe 8 h.blueScore.toNat ++ work ++ pruning ++ root ++ final ++ state := by
  have hpair : (if pre then ((0 : UInt64), (0 : Int64)) else (h.nonce, h.timestamp)) =
      (if pre then 0 else h.nonce, if pre then 0 else h.timestamp) := by
    cases pre <;> rfl
  rw [serializeHeader, hpair]
  dsimp only
  by_cases hversion : 2 ^ 16 ≤ h.version.toNat
  · rw [if_pos hversion]
    exact iff_of_false nofun fun hb => Nat.not_le.mpr hb.1 hversion
  · rw [if_neg hversion]
    simp only [Option.bind_eq_bind, Option.bind_eq_some_iff, Option.some_inj]
    constructor
    · rintro ⟨parents, hparents, merkle, hmerkle, accepted, haccepted, utxo, hutxo, work, hwork,
        pruning, hpruning, root, hroot, final, hfinal, state, hstate, rfl⟩
      exact ⟨Nat.lt_of_not_le hversion, parents, merkle, accepted, utxo, work, pruning, root, final,
        state, hparents, hmerkle, haccepted, hutxo, hwork, hpruning, hroot, hfinal, hstate, rfl⟩
    · rintro ⟨-, parents, merkle, accepted, utxo, work, pruning, root, final, state, hparents,
        hmerkle, haccepted, hutxo, hwork, hpruning, hroot, hfinal, hstate, rfl⟩
      exact ⟨parents, hparents, merkle, hmerkle, accepted, haccepted, utxo, hutxo, work, hwork,
        pruning, hpruning, root, hroot, final, hfinal, state, hstate, rfl⟩

/-- A well-formed header has a serialization. -/
theorem exists_serializeHeader (hh : h.WellFormed) : ∃ b, serializeHeader g h pre = some b := by
  have hlevels : ∀ p ∈ h.parents, ∃ b, levelBytes p = some b := by
    intro p hp
    obtain ⟨b, hb⟩ := exists_concat fun s hs => exists_decodeHash ((hh.parents p hp).2 s hs)
    exact ⟨_, by rw [levelBytes, hb]; rfl⟩
  obtain ⟨parents, hparents⟩ := exists_concat hlevels
  obtain ⟨merkle, hmerkle⟩ := exists_decodeHash hh.hashMerkleRoot
  obtain ⟨accepted, haccepted⟩ := exists_decodeHash hh.acceptedIdMerkleRoot
  obtain ⟨utxo, hutxo⟩ := exists_decodeHash hh.utxoCommitment
  obtain ⟨work, hwork⟩ := exists_blueWorkBytes hh.blueWork.1 hh.blueWork.2
  obtain ⟨pruning, hpruning⟩ := exists_decodeHash hh.pruningPoint
  obtain ⟨root, hroot⟩ : ∃ root, (if g.blockTask ≤ h.daaScore then decodeRoot h.taskRoot
      else some []) = some root := by
    split
    · exact exists_decodeRoot hh.taskRoot
    · exact ⟨[], rfl⟩
  obtain ⟨final, hfinal⟩ : ∃ final, (if !pre ∧ g.pomLevel ≤ h.daaScore then
      some (toLe 8 h.pomFinalState.toNat) else some []) = some final := by
    split
    · exact ⟨_, rfl⟩
    · exact ⟨[], rfl⟩
  obtain ⟨state, hstate⟩ : ∃ state, (if !pre ∧ g.pomV3 ≤ h.daaScore then
      (decodeRoot h.serviceStateHash).map (· ++ [h.pomTier.toUInt8]) else some []) = some state := by
    split
    · obtain ⟨state, hstate⟩ := exists_decodeRoot hh.serviceStateHash
      exact ⟨_, by rw [hstate]; rfl⟩
    · exact ⟨[], rfl⟩
  exact ⟨_, serializeHeader_eq_some.mpr ⟨hh.version, parents, merkle, accepted, utxo, work, pruning,
    root, final, state, hparents, hmerkle, haccepted, hutxo, hwork, hpruning, hroot, hfinal, hstate,
    rfl⟩⟩

theorem tells_levelBytes {p p' : RpcBlockLevelParents} (hp : p.parentHashes.length < 2 ^ 64)
    (hp' : p'.parentHashes.length < 2 ^ 64) (hb : levelBytes p = some b)
    (hb' : levelBytes p' = some b') :
    Tells b b' (List.Forall₂ SameHash p.parentHashes p'.parentHashes) := by
  simp only [levelBytes, Option.bind_eq_bind, Option.bind_eq_some_iff, Option.some_inj] at hb hb'
  obtain ⟨hashes, hhashes, rfl⟩ := hb
  obtain ⟨hashes', hhashes', rfl⟩ := hb'
  exact tells_counted hp hp' (fun _ _ _ _ _ _ => tells_decodeHash) hhashes hhashes'

/-- A field that is hashed from a DAA score on. -/
theorem tells_gated {gate : Prop} [Decidable gate] {e e' : Option (List UInt8)} {P : Prop}
    (hb : (if gate then e else some []) = some b) (hb' : (if gate then e' else some []) = some b')
    (htells : e = some b → e' = some b' → Tells b b' P) : Tells b b' (gate → P) := by
  split at hb
  · next hgate =>
    rw [if_pos hgate] at hb'
    exact (htells hb hb').mono fun h _ => h
  · next hgate =>
    rw [if_neg hgate] at hb'
    cases hb
    cases hb'
    exact .nil fun h => absurd h hgate

theorem tells_finalState {w w' : UInt64} (hb : some (toLe 8 w.toNat) = some b)
    (hb' : some (toLe 8 w'.toNat) = some b') : Tells b b' (w = w') := by
  cases hb
  cases hb'
  exact (tells_toLe (n := 8) w.toNat_lt w'.toNat_lt).mono UInt64.toNat_inj.mp

/-- The service state and the tier behind it. -/
theorem tells_state {t : String} {tier tier' : UInt32} (htier : tier.toNat < 2 ^ 8)
    (htier' : tier'.toNat < 2 ^ 8) (hb : (decodeRoot s).map (· ++ [tier.toUInt8]) = some b)
    (hb' : (decodeRoot t).map (· ++ [tier'.toUInt8]) = some b') :
    Tells b b' (SameRoot s t ∧ tier = tier') := by
  rw [Option.map_eq_some_iff] at hb hb'
  obtain ⟨root, hroot, rfl⟩ := hb
  obtain ⟨root', hroot', rfl⟩ := hb'
  refine (tells_decodeRoot hroot hroot').append fun _ => .of_length rfl ?_
  intro h
  have hbyte := congrArg UInt8.toNat (List.singleton_inj.mp h)
  rw [UInt32.toNat_toUInt8, UInt32.toNat_toUInt8, Nat.mod_eq_of_lt htier,
    Nat.mod_eq_of_lt htier'] at hbyte
  exact UInt32.toNat_inj.mp hbyte

theorem tells_serializeHeader (hh : h.WellFormed) (hh' : h'.WellFormed)
    (hb : serializeHeader g h pre = some b) (hb' : serializeHeader g h' pre = some b') :
    Tells b b' (Agree g pre h h') := by
  obtain ⟨-, parents, merkle, accepted, utxo, work, pruning, root, final, state, hparents, hmerkle,
    haccepted, hutxo, hwork, hpruning, hroot, hfinal, hstate, rfl⟩ := serializeHeader_eq_some.mp hb
  obtain ⟨-, parents', merkle', accepted', utxo', work', pruning', root', final', state', hparents',
    hmerkle', haccepted', hutxo', hwork', hpruning', hroot', hfinal', hstate', rfl⟩ :=
      serializeHeader_eq_some.mp hb'
  have hlevels : ∀ p ∈ h.parents, ∀ p' ∈ h'.parents, ∀ x x', levelBytes p = some x →
      levelBytes p' = some x' →
        Tells x x' (List.Forall₂ SameHash p.parentHashes p'.parentHashes) :=
    fun p hp p' hp' x x' => tells_levelBytes (hh.parents p hp).1 (hh'.parents p' hp').1
  have hcounted := tells_counted (n := 8) hh.levels hh'.levels hlevels hparents hparents'
  have hfields := (tells_toLe (n := 2) hh.version hh'.version).append fun _ => hcounted
  have hfields := hfields.append fun _ => tells_decodeHash hmerkle hmerkle'
  have hfields := hfields.append fun _ => tells_decodeHash haccepted haccepted'
  have hfields := hfields.append fun _ => tells_decodeHash hutxo hutxo'
  have hfields := hfields.append fun _ => tells_toLe (n := 8)
    (if pre then 0 else h.timestamp).toUInt64.toNat_lt
    (if pre then 0 else h'.timestamp).toUInt64.toNat_lt
  have hfields := hfields.append fun _ => tells_toLe (n := 4) h.bits.toNat_lt h'.bits.toNat_lt
  have hfields := hfields.append fun _ => tells_toLe (n := 8)
    (if pre then 0 else h.nonce).toNat_lt (if pre then 0 else h'.nonce).toNat_lt
  have hfields := hfields.append fun _ => tells_toLe (n := 8) h.daaScore.toNat_lt h'.daaScore.toNat_lt
  have hfields := hfields.append fun _ =>
    tells_toLe (n := 8) h.blueScore.toNat_lt h'.blueScore.toNat_lt
  have hfields := hfields.append fun _ => tells_blueWorkBytes hwork hwork'
  have hfields := hfields.append fun _ => tells_decodeHash hpruning hpruning'
  -- the score stands in front of the fields that it gates
  have hfields := hfields.append fun h => by
    have hdaa := UInt64.toNat_inj.mp h.1.1.1.2
    rw [← hdaa] at hroot'
    exact tells_gated hroot hroot' tells_decodeRoot
  have hfields := hfields.append fun h => by
    have hdaa := UInt64.toNat_inj.mp h.1.1.1.1.2
    rw [← hdaa] at hfinal'
    exact tells_gated hfinal hfinal' tells_finalState
  have hfields := hfields.append fun h => by
    have hdaa := UInt64.toNat_inj.mp h.1.1.1.1.1.2
    rw [← hdaa] at hstate'
    exact tells_gated hstate hstate' (tells_state hh.pomTier hh'.pomTier)
  refine hfields.mono ?_
  rintro ⟨⟨⟨⟨⟨⟨⟨⟨⟨⟨⟨⟨⟨⟨hversion, hparents⟩, hmerkle⟩, haccepted⟩, hutxo⟩, htimestamp⟩, hbits⟩, hnonce⟩,
    hdaa⟩, hblue⟩, hwork⟩, hpruning⟩, hroot⟩, hfinal⟩, hstate⟩
  exact {
    version := UInt32.toNat_inj.mp hversion
    parents := hparents
    hashMerkleRoot := hmerkle
    acceptedIdMerkleRoot := haccepted
    utxoCommitment := hutxo
    bits := UInt32.toNat_inj.mp hbits
    daaScore := UInt64.toNat_inj.mp hdaa
    blueScore := UInt64.toNat_inj.mp hblue
    blueWork := hwork
    pruningPoint := hpruning
    taskRoot := hroot
    timestamp := by
      rintro rfl
      exact congrArg UInt64.toInt64 (UInt64.toNat_inj.mp htimestamp)
    nonce := by
      rintro rfl
      exact UInt64.toNat_inj.mp hnonce
    pomFinalState := by
      rintro rfl hgate
      exact hfinal ⟨rfl, hgate⟩
    serviceStateHash := by
      rintro rfl hgate
      exact (hstate ⟨rfl, hgate⟩).1
    pomTier := by
      rintro rfl hgate
      exact (hstate ⟨rfl, hgate⟩).2 }

/-- What is found, and when, is not in the bytes that the work is done on. -/
theorem serializeHeader_prePow {nonce finalState : UInt64} {timestamp : Int64} {tier : UInt32} :
    serializeHeader g { h with
      nonce := nonce
      timestamp := timestamp
      pomFinalState := finalState
      pomTier := tier
      serviceStateHash := s } true = serializeHeader g h true := rfl

theorem serializeHeader_fill {nonce finalState : UInt64} {tier : UInt8} :
    serializeHeader g (fillPomHeader g h nonce finalState tier) true = serializeHeader g h true := by
  rw [fillPomHeader]
  dsimp only
  split
  · split
    · rfl
    · rfl
  · split
    · rfl
    · rfl

theorem serializeHeader_assemble {seed seed' : BlockSeed} {nonce finalState : UInt64} {tier : UInt8}
    {proof : List UInt8} (h : assemblePomBlock g seed nonce finalState tier proof = some seed') :
    seed'.header.bind (serializeHeader g · true) = seed.header.bind (serializeHeader g · true) := by
  cases seed with
  | fullBlock block =>
    rw [assemblePomBlock, Option.bind_eq_bind, Option.bind_eq_some_iff] at h
    obtain ⟨header, hheader, h⟩ := h
    cases h
    rw [BlockSeed.header, BlockSeed.header, hheader]
    exact serializeHeader_fill
  | partialBlock nonce proof header =>
    cases h
    rfl

end

/-- The bytes that the work is done on do not depend on what is found, so they stay as they were in
the block that is found. Every well-formed header has its bytes, and two with the same bytes agree
on the fields that are hashed: on all but what is found in the bytes that the work is done on. -/
theorem serializeHeader_tells (g : Gates) :
    (∀ h h' : RpcBlockHeader, h' = { h with
        nonce := h'.nonce
        timestamp := h'.timestamp
        pomFinalState := h'.pomFinalState
        pomTier := h'.pomTier
        serviceStateHash := h'.serviceStateHash } →
      serializeHeader g h' true = serializeHeader g h true) ∧
    (∀ h nonce finalState tier,
      serializeHeader g (fillPomHeader g h nonce finalState tier) true = serializeHeader g h true) ∧
    (∀ seed nonce finalState tier proof seed',
      assemblePomBlock g seed nonce finalState tier proof = some seed' →
        seed'.header.bind (serializeHeader g · true) =
          seed.header.bind (serializeHeader g · true)) ∧
    (∀ h : RpcBlockHeader, h.WellFormed → ∀ pre, ∃ b, serializeHeader g h pre = some b) ∧
    ∀ h h' : RpcBlockHeader, h.WellFormed → h'.WellFormed → ∀ pre,
      serializeHeader g h pre = serializeHeader g h' pre → Agree g pre h h' := by
  refine ⟨?_, fun h nonce finalState tier => serializeHeader_fill,
    fun seed nonce finalState tier proof seed' => serializeHeader_assemble,
    fun h hh pre => exists_serializeHeader hh, ?_⟩
  · intro h h' heq
    rw [heq]
    exact serializeHeader_prePow
  · intro h h' hh hh' pre hbytes
    obtain ⟨b, hb⟩ : ∃ b, serializeHeader g h pre = some b := exists_serializeHeader hh
    exact (tells_serializeHeader hh hh' hb (hbytes ▸ hb)).of_eq rfl

/-- Headers of 64 equal digits for each hash. -/
def plainHash (c : Char) : String := String.ofList (List.replicate 64 c)

def plainHeader (merkle : Char) : RpcBlockHeader where
  version := 1
  parents := [⟨[plainHash '1']⟩]
  hashMerkleRoot := plainHash merkle
  acceptedIdMerkleRoot := plainHash '3'
  utxoCommitment := plainHash '4'
  timestamp := 0
  bits := 5
  nonce := 0
  daaScore := 6
  blueWork := "123"
  pruningPoint := plainHash '7'
  blueScore := 8
  pomFinalState := 9
  serviceStateHash := ""
  pomTier := 1
  taskRoot := ""

theorem plainHeader_wellFormed {c : Char} (hc : IsHash (plainHash c)) :
    (plainHeader c).WellFormed where
  version := show 1 < 2 ^ 16 by decide
  levels := show 1 < 2 ^ 64 by decide
  parents := by
    intro p hp
    obtain rfl := List.mem_singleton.mp hp
    refine ⟨show 1 < 2 ^ 64 by decide, ?_⟩
    intro s hs
    obtain rfl := List.mem_singleton.mp hs
    decide +kernel
  hashMerkleRoot := hc
  acceptedIdMerkleRoot := show IsHash (plainHash '3') by decide +kernel
  utxoCommitment := show IsHash (plainHash '4') by decide +kernel
  blueWork := show (textBytes "123").length ≤ 64 ∧ ∀ c ∈ textBytes "123", IsDigit c by decide +kernel
  pruningPoint := show IsHash (plainHash '7') by decide +kernel
  taskRoot := .inl (show "".isEmpty by decide +kernel)
  serviceStateHash := .inl (show "".isEmpty by decide +kernel)
  pomTier := show 1 < 2 ^ 8 by decide

theorem plainHeader_bytes {g : Gates} {pre : Bool} :
    serializeHeader g (plainHeader 'a') pre = serializeHeader g (plainHeader 'A') pre := by
  have hmerkle : decodeHash (plainHash 'a') = decodeHash (plainHash 'A') := by decide +kernel
  change serializeHeader _ { plainHeader 'a' with hashMerkleRoot := plainHash 'a' } _ =
    serializeHeader _ { plainHeader 'a' with hashMerkleRoot := plainHash 'A' } _
  simp only [serializeHeader, hmerkle]

/-- The case of a digit is not in the bytes. -/
theorem serializeHeader_case : (plainHeader 'a').WellFormed ∧ (plainHeader 'A').WellFormed ∧
    serializeHeader ⟨1, 1, 1⟩ (plainHeader 'a') true =
      serializeHeader ⟨1, 1, 1⟩ (plainHeader 'A') true ∧
      (plainHeader 'a').hashMerkleRoot ≠ (plainHeader 'A').hashMerkleRoot :=
  ⟨plainHeader_wellFormed (by decide +kernel), plainHeader_wellFormed (by decide +kernel),
    plainHeader_bytes, by decide +kernel⟩

/-- What two headers with the same bytes agree on, and a found block of one of them. -/
theorem serializeHeader_tells_plain :
    Agree ⟨1, 1, 1⟩ false (plainHeader 'a') (plainHeader 'A') ∧
    serializeHeader ⟨1, 1, 1⟩ (fillPomHeader ⟨1, 1, 1⟩ (plainHeader 'a') 77 78 2) true =
      serializeHeader ⟨1, 1, 1⟩ (plainHeader 'a') true := by
  obtain ⟨-, hfill, -, -, htells⟩ := serializeHeader_tells ⟨1, 1, 1⟩
  have hlower := plainHeader_wellFormed (c := 'a') (by decide +kernel)
  have hupper := plainHeader_wellFormed (c := 'A') (by decide +kernel)
  exact ⟨htells _ _ hlower hupper false plainHeader_bytes, hfill _ 77 78 2⟩

end KeryxMiner.Pow
