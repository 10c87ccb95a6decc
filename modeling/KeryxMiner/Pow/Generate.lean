import KeryxMiner.Pom.Eras
import KeryxMiner.Pom.Proofs
import KeryxMiner.Pow.HeavyHash

/-!
# The block of a nonce

A nonce whose walk has a value within the target makes a block: the header is filled in, and the
proof of the walk goes with it. What the proof is checked with is read off the header that was filled
in (`received_assemble`).
-/

namespace KeryxMiner.Pow

open Pom Stratum

/-! ## The template -/

/-- The job of a pool. -/
structure PoolJob where
  headerHash : Uint256
  timestamp : UInt64
  daaScore : UInt64
  nonce : UInt64
  target : Uint256
  nonceMask : UInt64
  nonceFixed : UInt64
  pomProof : List UInt8
  header : Option RpcBlockHeader

inductive Job
  | fullBlock (block : RpcBlock)
  | partialBlock (job : PoolJob)

structure Template extends State where
  block : BlockSeed
  daaScore : UInt64

section

variable (rank : Matrix → Nat) (fuel : Nat) (headerHash : List UInt8 → Uint256) (isTestnet : Bool)

/-- The hash of a header that the work is done on. -/
def prePowHash (header : RpcBlockHeader) : Option Uint256 :=
  (serializeHeader (headerGates isTestnet) header true).map headerHash

def blockHash (header : RpcBlockHeader) : Option Uint256 :=
  (serializeHeader (headerGates isTestnet) header false).map headerHash

/-- `State::new`; none is an error or a panic. -/
def Template.new : Job → Option Template
  | .fullBlock block => do
    let header ← block.header
    let target ← u256FromCompactTarget header.bits
    let hash ← prePowHash headerHash isTestnet header
    let state ← State.new rank fuel isTestnet hash header.timestamp.toUInt64 target
      0xffffffffffffffff 0 header.daaScore
    some { state with block := .fullBlock block, daaScore := header.daaScore }
  | .partialBlock job => do
    let hash ← (match job.header with
      | some header => prePowHash headerHash isTestnet header
      | none => some job.headerHash)
    let state ← State.new rank fuel isTestnet hash job.timestamp job.target job.nonceMask
      job.nonceFixed job.daaScore
    some { state with
      block := .partialBlock job.nonce job.pomProof job.header
      daaScore := job.daaScore }

end

/-! ## The walk of an era -/

/-- The bytes of a number, the lowest first. -/
def leBytes (x : Uint256) : Bytes32 := bytesAt 32 x.toLeBytes 0

/-- The seed and the tiles of a context pad; none before there are pads. -/
abbrev Pad := Option (Bytes32 × Nat)

section

variable (blake : List UInt8 → Bytes32) (isTestnet : Bool) (miningModel : UInt64 → Option Bytes32)

/-- The pad of the tier for a block; none is no model or no pad where there must be one. -/
def contextPad (tier : UInt8) (rT : Bytes32) (daa : UInt64) : Option Pad :=
  if pomV5ActivationDaa isTestnet ≤ daa then do
    let modelId ← miningModel daa
    let n := pomV5PadTiles isTestnet tier daa
    if n = 0 then none else some (some (v5PadSeed blake tier modelId rT, n))
  else some none

def walkFinalEra (seed : UInt64) (idx : WeightIndex) : Pad → Except String UInt64
  | some (padSeed, n) => walkFinalV5 blake seed idx padSeed n
  | none => walkFinalV4 blake seed idx

def buildProofEra (tier : UInt8) (seed : UInt64) (idx : WeightIndex) :
    Pad → Except String (PomProofV4 × UInt64)
  | some (padSeed, n) => buildProofV5 blake tier seed idx padSeed n
  | none => buildProofV4 blake tier seed idx

def verifyProofEra (seed : UInt64) (proof : PomProofV4) (rT : Bytes32) (nChunks : Nat) :
    Pad → Except String UInt64
  | some (padSeed, n) => verifyProofV5 blake seed proof rT nChunks padSeed n
  | none => verifyProofV4 blake seed proof rT nChunks

end

/-- The block with its proof. -/
def BlockSeed.withProof : BlockSeed → List UInt8 → BlockSeed
  | fullBlock block, bytes => .fullBlock { block with pomProof := bytes }
  | partialBlock nonce _ header, bytes => .partialBlock nonce bytes header

def BlockSeed.pomProof : BlockSeed → List UInt8
  | fullBlock block => block.pomProof
  | partialBlock _ pomProof _ => pomProof

def POM_WALK_STEPS : UInt32 := 256

def POM_OPENINGS : Nat := 32

namespace Template

/-- The hash in the front of the header that is hashed, and the timestamp behind it. -/
def pph (s : Template) : Bytes32 := bytesAt 32 s.powHashHeader 0

def timestamp (s : Template) : UInt64 := UInt64.ofNat (leAt 8 s.powHashHeader 32)

section

variable (blake : List UInt8 → Bytes32) (headerHash : List UInt8 → Uint256) (isTestnet : Bool)
  (miningModel : UInt64 → Option Bytes32)

variable (s : Template) (nonce : UInt64) (idx : WeightIndex) (tier : UInt8)

/-- The opening of the task of a device, if there is one to open: for a block, and for a share that
meets the target of the network. The outer none is a failure. -/
def openTask (task : Option (List UInt8 → Option (List UInt8))) (won : BlockSeed)
    (finalState : UInt64) (powValue : Bytes32) : Option (Option (List UInt8)) :=
  match task, won with
  | some openBlockTask, .fullBlock block => do
    let header ← block.header
    let hash ← blockHash headerHash isTestnet header
    let opening ← openBlockTask hash.toLeBytes
    some (some opening)
  | some openBlockTask, .partialBlock _ _ (some h) => do
    let networkTarget ← u256FromCompactTarget h.bits
    if leLeq powValue (leBytes networkTarget) then do
      let header := fillPomHeader (headerGates isTestnet) h nonce finalState tier
      let hash ← blockHash headerHash isTestnet header
      let opening ← openBlockTask hash.toLeBytes
      some (some opening)
    else some none
  | _, _ => some none

/-- From the fourth walk on. -/
def generateV4 (task : Option (List UInt8 → Option (List UInt8))) : Option BlockSeed := do
  let target := leBytes s.target
  let seed := pomBlockSeedV4Era isTestnet s.pph s.timestamp nonce s.daaScore
  let pad ← contextPad blake isTestnet miningModel tier idx.rT s.daaScore
  let walked ← (walkFinalEra blake seed idx pad).toOption
  if ¬leLeq (pomPowValue walked s.pph true) target then none
  else do
    let (v4, finalState) ← (buildProofEra blake tier seed idx pad).toOption
    let powValue := pomPowValue finalState s.pph true
    if finalState ≠ walked ∨ ¬leLeq powValue target then none
    else do
      let checked ← (verifyProofEra blake seed v4 idx.rT idx.nChunks pad).toOption
      if checked ≠ finalState then none
      else do
        let won ← assemblePomBlock (headerGates isTestnet) s.block nonce finalState tier []
        let opening ← openTask headerHash isTestnet nonce tier task won finalState powValue
        let proof : PomProof :=
          { tier, traceRoot := Vector.replicate 32 0, powValue, finalState
            initialTracePath := [], finalTracePath := [], openings := []
            stepsV2 := none, v3 := none, v4 := some v4, task := opening }
        let bytes ← proof.toWireBytes
        some (won.withProof bytes)

/-- Before the third walk. -/
def generateSteps : Option BlockSeed := do
  let target := leBytes s.target
  let h3 : Bool := pomLevelActivationDaa isTestnet ≤ s.daaScore
  let walkV2 : Bool := h5ActivationDaa isTestnet ≤ s.daaScore
  let seed := pomBlockSeed s.pph s.timestamp nonce h3 (h51ActivationDaa isTestnet ≤ s.daaScore)
    (h52ActivationDaa isTestnet ≤ s.daaScore)
  let finalState ← walkFinal idx.nChunks idx.readChunk seed POM_WALK_STEPS.toNat walkV2
  if ¬leLeq (pomPowValue finalState s.pph h3) target then none
  else do
    let h4 : Bool := coinAgeVerificationActivationDaa isTestnet ≤ s.daaScore
    let proof ← (if h4 then
        buildProofV2 idx.nChunks idx.readChunk (idx.merklePath blake) tier s.pph seed POM_WALK_STEPS
          h3 walkV2
      else
        buildProof blake idx.nChunks idx.readChunk (idx.merklePath blake) tier s.pph nonce seed
          POM_WALK_STEPS POM_OPENINGS h3)
    let selfOk ← (if h4 then
        some (verifyProofV2 blake proof s.pph seed idx.nChunks POM_WALK_STEPS idx.rT target h3 walkV2)
      else verifyProof blake s.pph nonce seed proof idx.nChunks POM_WALK_STEPS POM_OPENINGS idx.rT
        target h3)
    if ¬selfOk then none
    else do
      let bytes ← proof.toWireBytes
      assemblePomBlock (headerGates isTestnet) s.block nonce finalState tier bytes

/-- The block or the share of a nonce; none where there is nothing to submit. -/
def generateBlockIfPom (task : Option (List UInt8 → Option (List UInt8))) : Option BlockSeed :=
  if pomV4ActivationDaa isTestnet ≤ s.daaScore then
    generateV4 blake headerHash isTestnet miningModel s nonce idx tier task
  else if pomV3ActivationDaa isTestnet ≤ s.daaScore then none
  else generateSteps blake isTestnet s nonce idx tier

end

end Template

/-! ## What is submitted -/

/-- The proof of a walk of the fourth era on. -/
def walkProof (tier : UInt8) (powValue : Bytes32) (finalState : UInt64) (v4 : PomProofV4)
    (opening : Option (List UInt8)) : PomProof :=
  { tier, traceRoot := Vector.replicate 32 0, powValue, finalState
    initialTracePath := [], finalTracePath := [], openings := []
    stepsV2 := none, v3 := none, v4 := some v4, task := opening }

section

variable {blake : List UInt8 → Bytes32} {headerHash : List UInt8 → Uint256} {isTestnet : Bool}
  {miningModel : UInt64 → Option Bytes32} {s : Template} {nonce : UInt64} {idx : WeightIndex}
  {tier : UInt8} {task : Option (List UInt8 → Option (List UInt8))} {won : BlockSeed}

theorem toOption_eq_some {ε α : Type} {x : Except ε α} {a : α} : x.toOption = some a ↔ x = .ok a := by
  cases x with
  | error e => exact iff_of_false nofun nofun
  | ok b => simp [Except.toOption]

namespace Template

theorem generateV4_eq_some
    (h : s.generateV4 blake headerHash isTestnet miningModel nonce idx tier task = some won) :
    ∃ pad v4 finalState opening bytes found,
      contextPad blake isTestnet miningModel tier idx.rT s.daaScore = some pad ∧
      leLeq (pomPowValue finalState s.pph true) (leBytes s.target) ∧
      verifyProofEra blake (pomBlockSeedV4Era isTestnet s.pph s.timestamp nonce s.daaScore) v4 idx.rT
        idx.nChunks pad = .ok finalState ∧
      assemblePomBlock (headerGates isTestnet) s.block nonce finalState tier [] = some found ∧
      openTask headerHash isTestnet nonce tier task found finalState
        (pomPowValue finalState s.pph true) = some opening ∧
      (walkProof tier (pomPowValue finalState s.pph true) finalState v4 opening).toWireBytes =
        some bytes ∧
      won = found.withProof bytes := by
  simp only [generateV4, Option.bind_eq_bind, Option.bind_eq_some_iff] at h
  obtain ⟨pad, hpad, walked, -, h⟩ := h
  split at h
  · cases h
  simp only [Option.bind_eq_some_iff] at h
  obtain ⟨⟨v4, finalState⟩, -, h⟩ := h
  dsimp only at h
  split at h
  · cases h
  next hvalue =>
  simp only [Option.bind_eq_some_iff] at h
  obtain ⟨checked, hchecked, h⟩ := h
  split at h
  · cases h
  next hsame =>
  simp only [Option.bind_eq_some_iff] at h
  obtain ⟨found, hfound, opening, hopening, bytes, hbytes, h⟩ := h
  obtain rfl := not_not.mp hsame
  obtain ⟨-, hle⟩ := not_or.mp hvalue
  exact ⟨pad, v4, checked, opening, bytes, found, hpad, not_not.mp hle,
    toOption_eq_some.mp hchecked, hfound, hopening, hbytes, (Option.some.inj h).symm⟩

theorem walkFinalLoop_of_steps {nChunks k off : Nat} {readChunk : Nat → Option Words}
    {weightPath : Nat → List Bytes32} {walkV2 : Bool} {state finalState : UInt64}
    {steps : List PomStep} (hoff : off = state.toNat % nChunks)
    (h : stepsLoop nChunks readChunk weightPath walkV2 k state = some (steps, finalState)) :
    walkFinalLoop nChunks readChunk walkV2 k state off = some finalState := by
  induction k generalizing state steps off with
  | zero =>
    cases h
    rfl
  | succ k ih =>
    simp only [stepsLoop, Option.bind_eq_bind, Option.bind_eq_some_iff] at h
    obtain ⟨words, hwords, ⟨steps', finalState'⟩, hrest, h⟩ := h
    cases h
    rw [walkFinalLoop, hoff, hwords]
    exact ih rfl hrest

theorem walkFinalLoop_of_trace {nChunks k off : Nat} {readChunk : Nat → Option Words}
    {state finalState : UInt64} {states : List UInt64} (hoff : off = state.toNat % nChunks)
    (h : traceLoop nChunks readChunk k state = some states)
    (hlast : (state :: states)[k]? = some finalState) :
    walkFinalLoop nChunks readChunk false k state off = some finalState := by
  induction k generalizing state states off with
  | zero => exact hlast
  | succ k ih =>
    simp only [traceLoop, Option.bind_eq_bind, Option.bind_eq_some_iff] at h
    obtain ⟨words, hwords, states', hrest, h⟩ := h
    cases h
    rw [walkFinalLoop, hoff, hwords]
    exact ih rfl hrest hlast

theorem walkFinal_of_buildProofV2 {nChunks : Nat} {readChunk : Nat → Option Words}
    {weightPath : Nat → List Bytes32} {pph : Bytes32} {seed : UInt64} {k : UInt32} {h3 walkV2 : Bool}
    {proof : PomProof}
    (h : buildProofV2 nChunks readChunk weightPath tier pph seed k h3 walkV2 = some proof) :
    walkFinal nChunks readChunk seed k.toNat walkV2 = some proof.finalState ∧ proof.tier = tier := by
  obtain ⟨⟨steps, finalState⟩, hsteps, hproof⟩ := Option.bind_eq_some_iff.mp h
  cases hproof
  exact ⟨walkFinalLoop_of_steps rfl hsteps, rfl⟩

theorem walkFinal_of_buildProof {nChunks t : Nat} {readChunk : Nat → Option Words}
    {weightPath : Nat → List Bytes32} {pph : Bytes32} {seed : UInt64} {k : UInt32} {h3 : Bool}
    {proof : PomProof}
    (h : buildProof blake nChunks readChunk weightPath tier pph nonce seed k t h3 = some proof) :
    walkFinal nChunks readChunk seed k.toNat false = some proof.finalState ∧ proof.tier = tier := by
  simp only [buildProof, Option.bind_eq_bind, Option.bind_eq_some_iff] at h
  obtain ⟨states, hstates, finalState, hlast, chs, -, openings, -, hproof⟩ := h
  cases hproof
  exact ⟨walkFinalLoop_of_trace rfl hstates hlast, rfl⟩

/-- The check of a proof of the eras before the third walk. -/
def stepsAccepted (blake : List UInt8 → Bytes32) (isTestnet : Bool) (pph : Bytes32)
    (timestamp nonce daa : UInt64) (rT : Bytes32) (nChunks : Nat) (target : Bytes32)
    (proof : PomProof) : Prop :=
  let h3 : Bool := pomLevelActivationDaa isTestnet ≤ daa
  let seed := pomBlockSeed pph timestamp nonce h3 (h51ActivationDaa isTestnet ≤ daa)
    (h52ActivationDaa isTestnet ≤ daa)
  if coinAgeVerificationActivationDaa isTestnet ≤ daa then
    verifyProofV2 blake proof pph seed nChunks POM_WALK_STEPS rT target h3
      (h5ActivationDaa isTestnet ≤ daa) = true
  else verifyProof blake pph nonce seed proof nChunks POM_WALK_STEPS POM_OPENINGS rT target h3 =
    some true

theorem generateSteps_eq_some (h : s.generateSteps blake isTestnet nonce idx tier = some won) :
    ∃ proof bytes, stepsAccepted blake isTestnet s.pph s.timestamp nonce s.daaScore idx.rT idx.nChunks
        (leBytes s.target) proof ∧
      proof.tier = tier ∧ proof.toWireBytes = some bytes ∧
      assemblePomBlock (headerGates isTestnet) s.block nonce proof.finalState tier bytes =
        some won := by
  have hgates : coinAgeVerificationActivationDaa isTestnet ≤ h5ActivationDaa isTestnet := by
    cases isTestnet <;> decide
  simp only [generateSteps, Option.bind_eq_bind, Option.bind_eq_some_iff] at h
  obtain ⟨finalState, hfinal, h⟩ := h
  split at h
  · cases h
  simp only [Option.bind_eq_some_iff] at h
  obtain ⟨proof, hproof, selfOk, hself, h⟩ := h
  split at h
  · cases h
  next hok =>
  simp only [Option.bind_eq_some_iff] at h
  obtain ⟨bytes, hbytes, h⟩ := h
  obtain rfl : selfOk = true := by simpa using hok
  by_cases h4 : coinAgeVerificationActivationDaa isTestnet ≤ s.daaScore
  · rw [if_pos (decide_eq_true h4)] at hproof hself
    obtain ⟨hwalk, htier⟩ := walkFinal_of_buildProofV2 hproof
    obtain rfl := Option.some.inj (hfinal.symm.trans hwalk)
    refine ⟨proof, bytes, ?_, htier, hbytes, h⟩
    dsimp only [stepsAccepted]
    rw [if_pos h4]
    exact Option.some.inj hself
  · rw [if_neg (ne_true_of_eq_false (decide_eq_false h4))] at hproof hself
    obtain ⟨hwalk, htier⟩ := walkFinal_of_buildProof hproof
    -- this era is before the one of the second walk
    have hv2 : decide (h5ActivationDaa isTestnet ≤ s.daaScore) = false :=
      decide_eq_false fun h5 => h4 (UInt64.le_trans hgates h5)
    rw [hv2] at hfinal
    obtain rfl := Option.some.inj (hfinal.symm.trans hwalk)
    refine ⟨proof, bytes, ?_, htier, hbytes, h⟩
    dsimp only [stepsAccepted]
    rw [if_neg h4]
    exact hself

end Template

end

/-! ## What is received -/

/-- What a proof is checked with. -/
structure Received where
  hash : Uint256
  timestamp : UInt64
  nonce : UInt64
  daaScore : UInt64
  target : Uint256

/-- A block has it all in its header. A pool has it in its job, whose header it fills in with the
nonce of the share and with what the proof says. -/
def received (headerHash : List UInt8 → Uint256) (isTestnet : Bool) (finalState : UInt64)
    (tier : UInt8) : Job → BlockSeed → Option Received
  | .fullBlock _, .fullBlock block => do
    let header ← block.header
    let hash ← prePowHash headerHash isTestnet header
    let target ← u256FromCompactTarget header.bits
    some ⟨hash, header.timestamp.toUInt64, header.nonce, header.daaScore, target⟩
  | .partialBlock job, .partialBlock nonce _ _ => do
    let hash ← (match job.header with
      | some header => prePowHash headerHash isTestnet
          (fillPomHeader (headerGates isTestnet) header nonce finalState tier)
      | none => some job.headerHash)
    some ⟨hash, job.timestamp, nonce, job.daaScore, job.target⟩
  | _, _ => none

/-- The proof is the right one for what is received. -/
structure Accepted (blake : List UInt8 → Bytes32) (isTestnet : Bool) (pad : Pad) (rT : Bytes32)
    (nChunks : Nat) (r : Received) (proof : PomProof) : Prop where
  v4 : pomV4ActivationDaa isTestnet ≤ r.daaScore →
    proof.powValue = pomPowValue proof.finalState (leBytes r.hash) true ∧
      leLeq proof.powValue (leBytes r.target) ∧ ∃ v4, proof.v4 = some v4 ∧
        verifyProofEra blake
          (pomBlockSeedV4Era isTestnet (leBytes r.hash) r.timestamp r.nonce r.daaScore) v4 rT nChunks
          pad = .ok proof.finalState
  steps : r.daaScore < pomV4ActivationDaa isTestnet → r.daaScore < pomV3ActivationDaa isTestnet ∧
    Template.stepsAccepted blake isTestnet (leBytes r.hash) r.timestamp r.nonce r.daaScore rT nChunks
      (leBytes r.target) proof

/-- The header has what the proof says. -/
structure Commits (isTestnet : Bool) (proof : PomProof) (header : RpcBlockHeader) : Prop where
  finalState : pomLevelActivationDaa isTestnet ≤ header.daaScore →
    header.pomFinalState = proof.finalState
  tier : pomV3ActivationDaa isTestnet ≤ header.daaScore → header.pomTier = proof.tier.toUInt32

section

variable {rank : Matrix → Nat} {fuel : Nat} {headerHash : List UInt8 → Uint256} {isTestnet : Bool}
  {job : Job} {s : Template} {nonce finalState : UInt64} {tier : UInt8} {won : BlockSeed}
  {bytes : List UInt8}

theorem pph_of_header {hash : Uint256} {timestamp : UInt64}
    (h : s.powHashHeader = hash.toLeBytes ++ wordBytes timestamp ++ List.replicate 32 0) :
    s.pph = leBytes hash ∧ s.timestamp = timestamp := by
  have hlen : hash.toLeBytes.length = 32 := by
    simp [Uint256.toLeBytes, List.length_flatMap]
  rw [Template.pph, Template.timestamp, h, leBytes, List.append_assoc]
  constructor
  · apply Vector.ext
    intro i hi
    simp only [bytesAt, Vector.getElem_ofFn, Nat.zero_add]
    rw [List.getD_append _ _ _ _ (by omega)]
  · rw [leAt_append hlen le_rfl, wordBytes, leAt_zero timestamp.toNat_lt, UInt64.ofNat_toNat]

theorem State.new_job {prePowHash target : Uint256} {timestamp nonceMask nonceFixed daaScore : UInt64}
    {s : State} (h : State.new rank fuel isTestnet prePowHash timestamp target nonceMask nonceFixed
      daaScore = some s) : s.target = target ∧
        s.powHashHeader = prePowHash.toLeBytes ++ wordBytes timestamp ++ List.replicate 32 0 := by
  obtain ⟨m, -, hs⟩ := Option.bind_eq_some_iff.mp h
  cases hs
  exact ⟨rfl, rfl⟩

/-- What stays in a header that is filled in, and what is put there. -/
structure Filled (isTestnet : Bool) (h : RpcBlockHeader) (nonce finalState : UInt64) (tier : UInt8)
    (h' : RpcBlockHeader) : Prop where
  nonce : h'.nonce = nonce
  timestamp : h'.timestamp = h.timestamp
  bits : h'.bits = h.bits
  daaScore : h'.daaScore = h.daaScore
  finalState : pomLevelActivationDaa isTestnet ≤ h.daaScore → h'.pomFinalState = finalState
  tier : pomV3ActivationDaa isTestnet ≤ h.daaScore → h'.pomTier = tier.toUInt32

theorem filled_fillPomHeader {h : RpcBlockHeader} :
    Filled isTestnet h nonce finalState tier
      (fillPomHeader (headerGates isTestnet) h nonce finalState tier) := by
  rw [fillPomHeader, headerGates]
  dsimp only
  split_ifs <;> constructor <;> simp_all

theorem prePowHash_fillPomHeader {h : RpcBlockHeader} : prePowHash headerHash isTestnet
    (fillPomHeader (headerGates isTestnet) h nonce finalState tier) =
      prePowHash headerHash isTestnet h := by
  rw [prePowHash, serializeHeader_fill, prePowHash]

/-- What was found on a template is received as it was searched for. -/
theorem received_assemble (hnew : Template.new rank fuel headerHash isTestnet job = some s)
    (hfound : assemblePomBlock (headerGates isTestnet) s.block nonce finalState tier bytes =
      some won) :
    ∃ r, received headerHash isTestnet finalState tier job won = some r ∧ r.nonce = nonce ∧
      r.daaScore = s.daaScore ∧ leBytes r.hash = s.pph ∧ r.timestamp = s.timestamp ∧
      r.target = s.target := by
  cases job with
  | fullBlock block =>
    simp only [Template.new, Option.bind_eq_bind, Option.bind_eq_some_iff] at hnew
    obtain ⟨header, hheader, target, htarget, hash, hhash, state, hstate, hs⟩ := hnew
    obtain ⟨ht, hbytes⟩ := State.new_job hstate
    obtain ⟨hpph, htime⟩ : s.pph = leBytes hash ∧ s.timestamp = header.timestamp.toUInt64 := by
      cases hs
      exact pph_of_header hbytes
    cases hs
    simp only [assemblePomBlock, Option.bind_eq_bind, Option.bind_eq_some_iff, hheader] at hfound
    obtain ⟨_, hsame, hwon⟩ := hfound
    cases hsame
    cases hwon
    have hfilled := @filled_fillPomHeader isTestnet nonce finalState tier header
    refine ⟨⟨hash, header.timestamp.toUInt64, nonce, header.daaScore, target⟩, ?_, rfl, rfl,
      hpph.symm, htime.symm, ht.symm⟩
    simp only [received, Option.bind_eq_bind, Option.bind_some, prePowHash_fillPomHeader, hhash,
      hfilled.bits, htarget, hfilled.timestamp, hfilled.nonce, hfilled.daaScore]
  | partialBlock job =>
    simp only [Template.new, Option.bind_eq_bind, Option.bind_eq_some_iff] at hnew
    obtain ⟨hash, hhash, state, hstate, hs⟩ := hnew
    obtain ⟨ht, hbytes⟩ := State.new_job hstate
    obtain ⟨hpph, htime⟩ : s.pph = leBytes hash ∧ s.timestamp = job.timestamp := by
      cases hs
      exact pph_of_header hbytes
    cases hs
    cases hfound
    refine ⟨⟨hash, job.timestamp, nonce, job.daaScore, job.target⟩, ?_, rfl, rfl, hpph.symm,
      htime.symm, ht.symm⟩
    have hsame : (match job.header with
        | some header => prePowHash headerHash isTestnet
            (fillPomHeader (headerGates isTestnet) header nonce finalState tier)
        | none => some job.headerHash) = some hash := by
      rw [← hhash]
      cases job.header with
      | none => rfl
      | some header => exact prePowHash_fillPomHeader
    exact congrArg (Option.bind · _) hsame

theorem pomProof_assemble {seed : BlockSeed}
    (h : assemblePomBlock (headerGates isTestnet) seed nonce finalState tier bytes = some won) :
    won.pomProof = bytes := by
  cases seed with
  | fullBlock block =>
    obtain ⟨header, -, hwon⟩ := Option.bind_eq_some_iff.mp h
    cases hwon
    rfl
  | partialBlock nonce proof header =>
    cases h
    rfl

theorem received_withProof : received headerHash isTestnet finalState tier job (won.withProof bytes) =
    received headerHash isTestnet finalState tier job won := by
  cases job <;> cases won <;> rfl

/-- The header of a block that was found has what was found. -/
theorem filled_of_assemble {seed : BlockSeed} {block : RpcBlock} {header : RpcBlockHeader}
    (h : assemblePomBlock (headerGates isTestnet) seed nonce finalState tier bytes =
      some (.fullBlock block)) (hheader : block.header = some header) :
    ∃ h, Filled isTestnet h nonce finalState tier header := by
  cases seed with
  | fullBlock template =>
    obtain ⟨old, -, hwon⟩ := Option.bind_eq_some_iff.mp h
    cases hwon
    cases hheader
    exact ⟨old, filled_fillPomHeader⟩
  | partialBlock nonce proof header => cases h

theorem Filled.commits {h header : RpcBlockHeader} {proof : PomProof}
    (hfilled : Filled isTestnet h nonce finalState tier header)
    (hfinal : proof.finalState = finalState) (htier : proof.tier = tier) :
    Commits isTestnet proof header where
  finalState hgate := hfinal ▸ hfilled.finalState (hfilled.daaScore ▸ hgate)
  tier hgate := htier ▸ hfilled.tier (hfilled.daaScore ▸ hgate)

theorem contextPad_before {blake : List UInt8 → Bytes32} {miningModel : UInt64 → Option Bytes32}
    {rT : Bytes32} {daa : UInt64} (h : daa < pomV4ActivationDaa isTestnet) :
    contextPad blake isTestnet miningModel tier rT daa = some none := by
  have hgates : pomV4ActivationDaa isTestnet ≤ pomV5ActivationDaa isTestnet := by
    cases isTestnet <;> decide
  exact if_neg fun h5 => UInt64.not_le.mpr h (UInt64.le_trans hgates h5)

end

end KeryxMiner.Pow
