import KeryxMiner.Pom.Soundness
import KeryxMiner.Pom.Wire

/-!
# The proofs step by step

The walks before the fourth, whose state is one word, and their proofs. The proof of the second era
has the chunk and the path of every step; the legacy proof commits to the states of the walk in a
tree and opens the steps that a challenge selects. Reading a chunk gives `none` where the source
panics.
-/

namespace KeryxMiner.Pom

open Merkle

/-! ## Steps -/

abbrev Words := Vector UInt64 4

def chunkToWords (c : Bytes32) : Words := Vector.ofFn fun i => word64 (c.toList.drop (i * 8))

def wordsToBytes (w : Words) : Bytes32 :=
  Vector.ofFn fun i => (toLe 8 (w.toList.getD (i / 8) 0).toNat).getD (i % 8) 0

def transitionV1 (state : UInt64) (chunk : Words) : UInt64 :=
  mix64 (chunk.toList.foldl (· ^^^ ·) state)

def transitionV2 (state : UInt64) (chunk : Words) : UInt64 :=
  chunk.toList.foldl (fun h w => mix64 (h ^^^ w)) state

/-- The transition of the era. -/
def transition (state : UInt64) (chunk : Words) (walkV2 : Bool) : UInt64 :=
  if walkV2 then transitionV2 state chunk else transitionV1 state chunk

/-! ## The value of a walk -/

def pphWords (prePowHash : Bytes32) : Words :=
  Vector.ofFn fun i => word64 (prePowHash.toList.drop (i * 8))

def pomH3PphSalt : Words :=
  #v[0x7C99D381176D4EC4, 0xC2E28E3E28118C36, 0xD496CE1B129B76CA, 0x47CF0979FA580BCE]

def pphWordsForEra (prePowHash : Bytes32) (h3 : Bool) : Words :=
  if h3 then Vector.zipWith (· ^^^ ·) (pphWords prePowHash) pomH3PphSalt else pphWords prePowHash

def pomPowValue (finalState : UInt64) (prePowHash : Bytes32) (h3 : Bool) : Bytes32 :=
  let p := pphWordsForEra prePowHash h3
  let o0 := mix64 (finalState ^^^ p.get 0 ^^^ 0x9E3779B97F4A7C15)
  let o1 := mix64 (o0 ^^^ p.get 1 ^^^ 0xC2B2AE3D27D4EB4F)
  let o2 := mix64 (o1 ^^^ p.get 2 ^^^ 0x165667B19E3779F9)
  let o3 := mix64 (o2 ^^^ p.get 3 ^^^ 0xD6E8FEB86659FD93)
  wordsToBytes #v[o0, o1, o2, o3]

/-- The loop of `le_leq` over the bytes below the `i`-th. -/
def leLeqBelow (a b : Bytes32) : Nat → Bool
  | 0 => true
  | i + 1 =>
    if a.toList.getD i 0 < b.toList.getD i 0 then true
    else if b.toList.getD i 0 < a.toList.getD i 0 then false
    else leLeqBelow a b i

def leLeq (a b : Bytes32) : Bool := leLeqBelow a b 32

variable (blake : List UInt8 → Bytes32)

def traceLeaf (state : UInt64) : Bytes32 := blake (toLe 8 state.toNat)

/-- The steps that are opened; `none` is the panic of a remainder by zero. -/
def challenges (prePowHash : Bytes32) (nonce : UInt64) (traceRoot powValue : Bytes32) (t : Nat)
    (k : UInt32) : Option (List UInt32) :=
  let seed := blake (prePowHash.toList ++ toLe 8 nonce.toNat ++ traceRoot.toList ++ powValue.toList)
  if k = 0 ∧ t ≠ 0 then none
  else
    some ((List.range t).map fun j =>
      (word64 (blake (seed.toList ++ toLe 8 j)).toList % k.toUInt64).toUInt32)

/-! ## The builders -/

section

variable (nChunks : Nat) (readChunk : Nat → Option Words) (weightPath : Nat → List Bytes32)

/-- The loop of `walk_final`. -/
def walkFinalLoop (walkV2 : Bool) : (k : Nat) → (state : UInt64) → (off : Nat) → Option UInt64
  | 0, state, _ => some state
  | k + 1, state, off => do
    let words ← readChunk off
    let state := transition state words walkV2
    walkFinalLoop walkV2 k state (state.toNat % nChunks)

/-- The search walk, which keeps the last state only. -/
def walkFinal (seed : UInt64) (k : Nat) (walkV2 : Bool) : Option UInt64 :=
  walkFinalLoop nChunks readChunk walkV2 k seed (seed.toNat % nChunks)

/-- The loop of `build_proof`: the states behind `state`. -/
def traceLoop : (k : Nat) → (state : UInt64) → Option (List UInt64)
  | 0, _ => some []
  | k + 1, state => do
    let words ← readChunk (state.toNat % nChunks)
    let next := transitionV1 state words
    let trace ← traceLoop k next
    some (next :: trace)

/-- The proof of the legacy walk. -/
def buildProof (tier : UInt8) (prePowHash : Bytes32) (nonce seed : UInt64) (k : UInt32) (t : Nat)
    (h3 : Bool) : Option PomProof := do
  let states ← traceLoop nChunks readChunk k.toNat seed
  let trace := seed :: states
  let traceLeaves := trace.map (traceLeaf blake)
  let traceRoot := merkleRoot blake traceLeaves
  let finalState ← (trace)[k.toNat]?
  let powValue := pomPowValue finalState prePowHash h3
  let chs ← challenges blake prePowHash nonce traceRoot powValue t k
  let openings ← chs.mapM fun i => do
    let sb ← (trace)[i.toNat]?
    let off := sb.toNat % nChunks
    let words ← readChunk off
    some
      { stateBefore := sb
        chunk := wordsToBytes words
        weightPath := weightPath off
        tracePathBefore := merkleProof blake traceLeaves i.toNat
        tracePathAfter := merkleProof blake traceLeaves (i.toNat + 1) : PomOpening }
  some
    { tier, traceRoot, powValue, finalState
      initialTracePath := merkleProof blake traceLeaves 0
      finalTracePath := merkleProof blake traceLeaves k.toNat
      openings, stepsV2 := none, v3 := none, v4 := none, task := none }

/-- The loop of `build_proof_v2`: the steps and the last state. -/
def stepsLoop (walkV2 : Bool) : (k : Nat) → (state : UInt64) → Option (List PomStep × UInt64)
  | 0, state => some ([], state)
  | k + 1, state => do
    let off := state.toNat % nChunks
    let words ← readChunk off
    let (steps, finalState) ← stepsLoop walkV2 k (transition state words walkV2)
    some (⟨wordsToBytes words, weightPath off⟩ :: steps, finalState)

/-- The proof of the second era. -/
def buildProofV2 (tier : UInt8) (prePowHash : Bytes32) (seed : UInt64) (k : UInt32)
    (h3 walkV2 : Bool) : Option PomProof := do
  let (steps, finalState) ← stepsLoop nChunks readChunk weightPath walkV2 k.toNat seed
  some
    { tier
      traceRoot := Vector.replicate 32 0
      powValue := pomPowValue finalState prePowHash h3
      finalState
      initialTracePath := []
      finalTracePath := []
      openings := []
      stepsV2 := some steps
      v3 := none, v4 := none, task := none }

end

/-! ## The checks -/

/-- The loop of `verify_proof_v2`: the last state, `none` where a step is refused. -/
def verifySteps (nChunks : Nat) (rT : Bytes32) (walkV2 : Bool) :
    (state : UInt64) → List PomStep → Option UInt64
  | state, [] => some state
  | state, step :: steps =>
    let off := state.toNat % nChunks
    if verifyMerkle blake (blake step.chunk.toList) off step.weightPath rT then
      verifySteps nChunks rT walkV2 (transition state (chunkToWords step.chunk) walkV2) steps
    else none

def verifyProofV2 (proof : PomProof) (prePowHash : Bytes32) (seed : UInt64) (nChunks : Nat)
    (k : UInt32) (rT target : Bytes32) (h3 walkV2 : Bool) : Bool :=
  match proof.stepsV2 with
  | none => false
  | some steps =>
    if steps.length ≠ k.toNat then false
    else if proof.traceRoot ≠ Vector.replicate 32 0 ∨ ¬proof.initialTracePath.isEmpty ∨
        ¬proof.finalTracePath.isEmpty ∨ ¬proof.openings.isEmpty then false
    else
      match verifySteps blake nChunks rT walkV2 seed steps with
      | none => false
      | some state =>
        if state ≠ proof.finalState then false
        else
          let powValue := pomPowValue state prePowHash h3
          if powValue ≠ proof.powValue then false else leLeq powValue target

/-- What `verify_proof` asks of the opening of step `i`. -/
def verifyOpening (proof : PomProof) (nChunks : Nat) (rT : Bytes32) (op : PomOpening) (i : Nat) :
    Bool :=
  let off := op.stateBefore.toNat % nChunks
  let stateAfter := transitionV1 op.stateBefore (chunkToWords op.chunk)
  verifyMerkle blake (traceLeaf blake op.stateBefore) i op.tracePathBefore proof.traceRoot &&
    verifyMerkle blake (blake op.chunk.toList) off op.weightPath rT &&
    verifyMerkle blake (traceLeaf blake stateAfter) (i + 1) op.tracePathAfter proof.traceRoot

/-- The check of a legacy proof; `none` is the panic of `challenges`. -/
def verifyProof (prePowHash : Bytes32) (nonce seed : UInt64) (proof : PomProof) (nChunks : Nat)
    (k : UInt32) (t : Nat) (rT target : Bytes32) (h3 : Bool) : Option Bool :=
  if proof.openings.length ≠ t then some false
  else if pomPowValue proof.finalState prePowHash h3 ≠ proof.powValue then some false
  else if ¬leLeq proof.powValue target then some false
  else if ¬verifyMerkle blake (traceLeaf blake seed) 0 proof.initialTracePath proof.traceRoot then
    some false
  else if ¬verifyMerkle blake (traceLeaf blake proof.finalState) k.toNat proof.finalTracePath
      proof.traceRoot then some false
  else
    (challenges blake prePowHash nonce proof.traceRoot proof.powValue t k).map fun chs =>
      (proof.openings.zip chs).all fun (op, i) => verifyOpening blake proof nChunks rT op i.toNat

/-- `read_chunk` of an index. -/
def WeightIndex.readChunk (idx : WeightIndex) (off : Nat) : Option Words :=
  if off < idx.nChunks then some (chunkToWords (idx.readChunkBytes off)) else none

/-! ## What the builders make -/

theorem wordsToBytes_chunkToWords (c : Bytes32) : wordsToBytes (chunkToWords c) = c := by
  ext i hi
  have hlen : ((c.toList.drop (i / 8 * 8)).take 8).length = 8 := by
    rw [List.length_take, List.length_drop, Vector.length_toList]
    omega
  have hword : (word64 (c.toList.drop (i / 8 * 8))).toNat =
      ofLe ((c.toList.drop (i / 8 * 8)).take 8) := by
    have hlt := ofLe_lt ((c.toList.drop (i / 8 * 8)).take 8)
    rw [hlen] at hlt
    exact UInt64.toNat_ofNat_of_lt' hlt
  have hbytes := toLe_ofLe ((c.toList.drop (i / 8 * 8)).take 8)
  rw [hlen] at hbytes
  have hi8 : i / 8 * 8 + i % 8 = i := Nat.div_add_mod' i 8
  rw [wordsToBytes, Vector.getElem_ofFn]
  have hget : (chunkToWords c).toList.getD (i / 8) 0 = word64 (c.toList.drop (i / 8 * 8)) := by
    have hlt : i / 8 < (chunkToWords c).toList.length := by
      rw [Vector.length_toList]
      omega
    rw [List.getD_eq_getElem?_getD, List.getElem?_eq_getElem hlt, Vector.getElem_toList,
      Option.getD_some]
    exact Vector.getElem_ofFn _
  rw [hget, hword, hbytes, List.getD_eq_getElem?_getD,
    List.getElem?_take_of_lt (Nat.mod_lt i (by decide)), List.getElem?_drop, hi8]
  simp [hi]

namespace WeightIndex

variable {blake : List UInt8 → Bytes32} {idx : WeightIndex} {walkV2 : Bool} {k : Nat} {s : UInt64}

/-- One step of the walk over an index. -/
def advance (idx : WeightIndex) (walkV2 : Bool) (state : UInt64) : UInt64 :=
  transition state (chunkToWords (idx.readChunkBytes (state.toNat % idx.nChunks))) walkV2

/-- What the second proof has of a step from a state. -/
def stepAt (blake : List UInt8 → Bytes32) (idx : WeightIndex) (state : UInt64) : PomStep :=
  let off := state.toNat % idx.nChunks
  ⟨idx.readChunkBytes off, idx.merklePath blake off⟩

theorem advance_false (s : UInt64) : idx.advance false s =
    transitionV1 s (chunkToWords (idx.readChunkBytes (s.toNat % idx.nChunks))) := by
  rw [advance, transition, if_neg Bool.false_ne_true]

theorem readChunk_mod (hpos : 0 < idx.nChunks) : idx.readChunk (s.toNat % idx.nChunks) =
    some (chunkToWords (idx.readChunkBytes (s.toNat % idx.nChunks))) :=
  if_pos (Nat.mod_lt _ hpos)

theorem walkFinal_eq (hpos : 0 < idx.nChunks) :
    walkFinal idx.nChunks idx.readChunk s k walkV2 = some ((idx.advance walkV2)^[k] s) := by
  rw [walkFinal]
  induction k generalizing s with
  | zero => rfl
  | succ k ih =>
    rw [walkFinalLoop, readChunk_mod hpos, Function.iterate_succ_apply, ← ih]
    rfl

theorem map_range_iterate {α β : Type} (f : α → α) (g : α → β) (a : α) :
    ((List.range (k + 1)).map fun i => g (f^[i] a)) =
      g a :: (List.range k).map fun i => g (f^[i] (f a)) := by
  rw [List.range_succ_eq_map, List.map_cons, List.map_map]
  rfl

theorem traceLoop_eq (hpos : 0 < idx.nChunks) : traceLoop idx.nChunks idx.readChunk k s =
    some ((List.range k).map fun i => (idx.advance false)^[i] (idx.advance false s)) := by
  induction k generalizing s with
  | zero => rfl
  | succ k ih =>
    rw [traceLoop, readChunk_mod hpos, Option.bind_eq_bind, Option.bind_some]
    dsimp only
    rw [← advance_false, ih, Option.bind_eq_bind, Option.bind_some]
    exact congrArg some (map_range_iterate (idx.advance false) id (idx.advance false s)).symm

theorem stepsLoop_eq (hpos : 0 < idx.nChunks) :
    stepsLoop idx.nChunks idx.readChunk (idx.merklePath blake) walkV2 k s =
      some ((List.range k).map fun i => idx.stepAt blake ((idx.advance walkV2)^[i] s),
        (idx.advance walkV2)^[k] s) := by
  induction k generalizing s with
  | zero => rfl
  | succ k ih =>
    rw [stepsLoop]
    dsimp only
    rw [readChunk_mod hpos, Option.bind_eq_bind, Option.bind_some, wordsToBytes_chunkToWords, ih,
      map_range_iterate]
    rfl

/-- The leaf of a chunk is accepted with the path of the index. -/
theorem verifyMerkle_chunk (h : idx.Built blake) (hn : 32 < idx.nChunks) {off : Nat}
    (hoff : off < idx.nChunks) : verifyMerkle blake (blake (idx.readChunkBytes off).toList) off
      (idx.merklePath blake off) idx.rT = true := by
  rw [merklePath_eq h hoff, rT_eq_of_lt h hn]
  exact verifyMerkle_path (leaf_eq (h.nChunks ▸ hoff))

theorem verifySteps_cons {nChunks : Nat} {rT : Bytes32} {step : PomStep} {steps : List PomStep}
    (h : verifyMerkle blake (blake step.chunk.toList) (s.toNat % nChunks) step.weightPath rT = true) :
    verifySteps blake nChunks rT walkV2 s (step :: steps) =
      verifySteps blake nChunks rT walkV2 (transition s (chunkToWords step.chunk) walkV2) steps :=
  if_pos h

theorem verifySteps_eq (h : idx.Built blake) (hn : 32 < idx.nChunks) :
    verifySteps blake idx.nChunks idx.rT walkV2 s
        ((List.range k).map fun i => idx.stepAt blake ((idx.advance walkV2)^[i] s)) =
      some ((idx.advance walkV2)^[k] s) := by
  induction k generalizing s with
  | zero => rfl
  | succ k ih =>
    have hoff : s.toNat % idx.nChunks < idx.nChunks := Nat.mod_lt _ (by omega)
    rw [map_range_iterate, verifySteps_cons (verifyMerkle_chunk h hn hoff)]
    exact ih

/-! ## Completeness -/

section

variable {tier : UInt8} {prePowHash : Bytes32} {nonce seed : UInt64} {walkSteps : UInt32} {t : Nat}
  {h3 : Bool}

/-- The proof of the second era is accepted when the value of its walk is within the target. -/
theorem buildProofV2_accepted (h : idx.Built blake) (hn : 32 < idx.nChunks) :
    ∃ proof, buildProofV2 idx.nChunks idx.readChunk (idx.merklePath blake) tier prePowHash seed
        walkSteps h3 walkV2 = some proof ∧
      walkFinal idx.nChunks idx.readChunk seed walkSteps.toNat walkV2 = some proof.finalState ∧
      ∀ target, verifyProofV2 blake proof prePowHash seed idx.nChunks walkSteps idx.rT target h3 walkV2 =
        leLeq (pomPowValue proof.finalState prePowHash h3) target := by
  have hpos : 0 < idx.nChunks := by omega
  rw [buildProofV2, stepsLoop_eq hpos, walkFinal_eq hpos]
  refine ⟨_, rfl, rfl, ?_⟩
  intro target
  rw [verifyProofV2]
  dsimp only
  rw [List.length_map, List.length_range, verifySteps_eq h hn]
  simp

/-- The states of a legacy walk. -/
def states (idx : WeightIndex) (seed : UInt64) (k : Nat) : List UInt64 :=
  (List.range (k + 1)).map fun i => (idx.advance false)^[i] seed

/-- What a legacy proof opens at step `i`. -/
def openingAt (blake : List UInt8 → Bytes32) (idx : WeightIndex) (seed : UInt64) (k i : Nat) :
    PomOpening :=
  let sb := (idx.advance false)^[i] seed
  let off := sb.toNat % idx.nChunks
  let traceLeaves := (idx.states seed k).map (traceLeaf blake)
  { stateBefore := sb
    chunk := idx.readChunkBytes off
    weightPath := idx.merklePath blake off
    tracePathBefore := merkleProof blake traceLeaves i
    tracePathAfter := merkleProof blake traceLeaves (i + 1) }

theorem getElem?_states {i : Nat} (hi : i ≤ k) :
    (idx.states seed k)[i]? = some ((idx.advance false)^[i] seed) := by
  rw [states, List.getElem?_map, List.getElem?_range (Nat.lt_succ_of_le hi)]
  rfl

/-- A state of the walk is accepted with its path in the tree of the states. -/
theorem verifyMerkle_state {i : Nat} (hi : i ≤ k) :
    verifyMerkle blake (traceLeaf blake ((idx.advance false)^[i] seed)) i
      (merkleProof blake ((idx.states seed k).map (traceLeaf blake)) i)
      (merkleRoot blake ((idx.states seed k).map (traceLeaf blake))) = true := by
  have hleaf : ((idx.states seed k).map (traceLeaf blake))[i]? =
      some (traceLeaf blake ((idx.advance false)^[i] seed)) := by
    rw [List.getElem?_map, getElem?_states hi]
    rfl
  rw [merkleProof_eq (List.getElem?_eq_some_iff.mp hleaf).1]
  exact verifyMerkle_path hleaf

/-- A challenge is the number of a step. -/
theorem challenges_lt {traceRoot powValue : Bytes32} {chs : List UInt32}
    (h : challenges blake prePowHash nonce traceRoot powValue t walkSteps = some chs) :
    chs.length = t ∧ ∀ i ∈ chs, i.toNat < walkSteps.toNat := by
  rw [challenges] at h
  split at h
  · cases h
  · next hk =>
    obtain rfl := Option.some.inj h
    refine ⟨by rw [List.length_map, List.length_range], ?_⟩
    intro i hi
    obtain ⟨j, hj, rfl⟩ := List.mem_map.mp hi
    rw [List.mem_range] at hj
    have hpos : 0 < walkSteps.toNat := by
      apply Nat.pos_of_ne_zero
      intro hzero
      exact hk ⟨UInt32.toNat_inj.mp hzero, by omega⟩
    have hmod := Nat.mod_lt (word64 (blake ((blake (prePowHash.toList ++ toLe 8 nonce.toNat ++
      traceRoot.toList ++ powValue.toList)).toList ++ toLe 8 j)).toList).toNat hpos
    have hlt := walkSteps.toNat_lt
    rw [UInt64.toNat_toUInt32, UInt64.toNat_mod, UInt32.toNat_toUInt64, Nat.mod_eq_of_lt (by omega)]
    exact hmod

theorem mapM_some {α β : Type} {f : α → Option β} {g : α → β} {l : List α}
    (h : ∀ a ∈ l, f a = some (g a)) : l.mapM f = some (l.map g) := by
  induction l with
  | nil => rfl
  | cons a l ih =>
    obtain ⟨ha, hl⟩ := List.forall_mem_cons.mp h
    rw [List.mapM_cons, ha, ih hl]
    rfl

/-- The legacy proof over an index that opens the steps `chs`. -/
def legacyProof (blake : List UInt8 → Bytes32) (idx : WeightIndex) (tier : UInt8)
    (prePowHash : Bytes32) (seed : UInt64) (k : Nat) (h3 : Bool) (chs : List UInt32) : PomProof :=
  let traceLeaves := (idx.states seed k).map (traceLeaf blake)
  let finalState := (idx.advance false)^[k] seed
  { tier
    traceRoot := merkleRoot blake traceLeaves
    powValue := pomPowValue finalState prePowHash h3
    finalState
    initialTracePath := merkleProof blake traceLeaves 0
    finalTracePath := merkleProof blake traceLeaves k
    openings := chs.map fun i => openingAt blake idx seed k i.toNat
    stepsV2 := none, v3 := none, v4 := none, task := none }

theorem buildProof_eq (hpos : 0 < idx.nChunks) (hk : walkSteps ≠ 0 ∨ t = 0) :
    ∃ chs, challenges blake prePowHash nonce
        (merkleRoot blake ((idx.states seed walkSteps.toNat).map (traceLeaf blake)))
        (pomPowValue ((idx.advance false)^[walkSteps.toNat] seed) prePowHash h3) t walkSteps =
          some chs ∧
      buildProof blake idx.nChunks idx.readChunk (idx.merklePath blake) tier prePowHash nonce seed
        walkSteps t h3 =
          some (idx.legacyProof blake tier prePowHash seed walkSteps.toNat h3 chs) := by
  obtain ⟨chs, hchs⟩ : ∃ chs, challenges blake prePowHash nonce
      (merkleRoot blake ((idx.states seed walkSteps.toNat).map (traceLeaf blake)))
      (pomPowValue ((idx.advance false)^[walkSteps.toNat] seed) prePowHash h3) t walkSteps =
        some chs := by
    rw [challenges]
    split
    · next hzero =>
      obtain hne | hnil := hk
      · exact absurd hzero.1 hne
      · exact absurd hnil hzero.2
    · exact ⟨_, rfl⟩
  refine ⟨chs, hchs, ?_⟩
  have hstates : seed :: (List.range walkSteps.toNat).map (fun i =>
      (idx.advance false)^[i] (idx.advance false seed)) = idx.states seed walkSteps.toNat :=
    (map_range_iterate (idx.advance false) id seed).symm
  have hfinal := @getElem?_states idx _ seed _ (Nat.le_refl walkSteps.toNat)
  have hopen : ∀ i ∈ chs, ((idx.states seed walkSteps.toNat)[i.toNat]?.bind fun sb =>
      (idx.readChunk (sb.toNat % idx.nChunks)).bind fun words =>
        some
          { stateBefore := sb
            chunk := wordsToBytes words
            weightPath := idx.merklePath blake (sb.toNat % idx.nChunks)
            tracePathBefore := merkleProof blake
              ((idx.states seed walkSteps.toNat).map (traceLeaf blake)) i.toNat
            tracePathAfter := merkleProof blake
              ((idx.states seed walkSteps.toNat).map (traceLeaf blake)) (i.toNat + 1) :
              PomOpening }) = some (openingAt blake idx seed walkSteps.toNat i.toNat) := by
    intro i hi
    rw [getElem?_states ((challenges_lt hchs).2 i hi).le, Option.bind_some, readChunk_mod hpos,
      Option.bind_some, wordsToBytes_chunkToWords]
    rfl
  rw [buildProof, traceLoop_eq hpos]
  dsimp only [Option.bind_eq_bind, Option.bind_some]
  rw [hstates, hfinal, Option.bind_some, hchs, Option.bind_some, mapM_some hopen, Option.bind_some]
  rfl

theorem verifyOpening_eq (h : idx.Built blake) (hn : 32 < idx.nChunks) {i : Nat}
    {chs : List UInt32} (hi : i < k) :
    verifyOpening blake (idx.legacyProof blake tier prePowHash seed k h3 chs) idx.nChunks idx.rT
      (openingAt blake idx seed k i) i = true := by
  have hoff : ((idx.advance false)^[i] seed).toNat % idx.nChunks < idx.nChunks :=
    Nat.mod_lt _ (by omega)
  have hafter := @verifyMerkle_state blake idx k seed _ hi
  rw [Function.iterate_succ_apply', advance_false] at hafter
  rw [verifyOpening]
  dsimp only [openingAt, legacyProof]
  rw [verifyMerkle_state hi.le, verifyMerkle_chunk h hn hoff, hafter]
  rfl

/-- The legacy proof is accepted when the value of its walk is within the target. -/
theorem buildProof_accepted (h : idx.Built blake) (hn : 32 < idx.nChunks)
    (hk : walkSteps ≠ 0 ∨ t = 0) :
    ∃ proof, buildProof blake idx.nChunks idx.readChunk (idx.merklePath blake) tier prePowHash nonce
        seed walkSteps t h3 = some proof ∧
      walkFinal idx.nChunks idx.readChunk seed walkSteps.toNat false = some proof.finalState ∧
      ∀ target, verifyProof blake prePowHash nonce seed proof idx.nChunks walkSteps t idx.rT target
        h3 = some (leLeq (pomPowValue proof.finalState prePowHash h3) target) := by
  have hpos : 0 < idx.nChunks := by omega
  obtain ⟨chs, hchs, hbuild⟩ :=
    @buildProof_eq blake idx tier prePowHash nonce seed walkSteps t h3 hpos hk
  obtain ⟨hlen, hlt⟩ := challenges_lt hchs
  refine ⟨_, hbuild, walkFinal_eq hpos, ?_⟩
  intro target
  obtain ⟨P, hP⟩ : ∃ P, idx.legacyProof blake tier prePowHash seed walkSteps.toNat h3 chs = P :=
    ⟨_, rfl⟩
  have hcount : ¬P.openings.length ≠ t := by
    rw [← hP, legacyProof, List.length_map, hlen, not_not]
  have hpow : pomPowValue P.finalState prePowHash h3 = P.powValue := by
    rw [← hP]
    rfl
  have hinitial : verifyMerkle blake (traceLeaf blake seed) 0 P.initialTracePath P.traceRoot =
      true := by
    rw [← hP]
    exact verifyMerkle_state (Nat.zero_le _)
  have hfinal : verifyMerkle blake (traceLeaf blake P.finalState) walkSteps.toNat P.finalTracePath
      P.traceRoot = true := by
    rw [← hP]
    exact verifyMerkle_state le_rfl
  have hchs' : challenges blake prePowHash nonce P.traceRoot P.powValue t walkSteps = some chs := by
    rw [← hP]
    exact hchs
  have hopenings : ((P.openings.zip chs).all fun (op, i) =>
      verifyOpening blake P idx.nChunks idx.rT op i.toNat) = true := by
    rw [← hP]
    dsimp only [legacyProof]
    rw [← List.map_prod_right_eq_zip, List.all_map, List.all_eq_true]
    intro i hi
    exact verifyOpening_eq h hn (hlt i hi)
  rw [hP, verifyProof, if_neg hcount, if_neg (not_not_intro hpow), hinitial, hfinal, hchs',
    Option.map_some, hopenings, ← hpow]
  cases leLeq (pomPowValue P.finalState prePowHash h3) target <;> rfl

end

/-! ## Soundness -/

/-- The inputs hashed when a chunk is verified. -/
def chunkHashed (blake : List UInt8 → Bytes32) (chunk : Bytes32) (off : Nat) (path : List Bytes32) :
    List (List UInt8) :=
  chunk.toList :: (climbInputs (hashPair blake) (blake chunk.toList) off path).map pairBytes

/-- The inputs that `verify_proof_v2` hashes for the steps from a state on. -/
def stepsHashed (blake : List UInt8 → Bytes32) (nChunks : Nat) (walkV2 : Bool) :
    (state : UInt64) → List PomStep → List (List UInt8)
  | _, [] => []
  | state, step :: steps =>
    chunkHashed blake step.chunk (state.toNat % nChunks) step.weightPath ++
      stepsHashed blake nChunks walkV2 (transition state (chunkToWords step.chunk) walkV2) steps

/-- A chunk that is accepted below the root of the index is the chunk of the index, whatever path
it comes with. -/
theorem chunk_of_verify {chunk : Bytes32} {off : Nat} {path : List Bytes32} (h : idx.Built blake)
    (hoff : off < idx.nChunks)
    (hverify : verifyMerkle blake (blake chunk.toList) off path idx.rT = true)
    (hfree : CollisionFree blake (idx.hashed blake ++ chunkHashed blake chunk off path)) :
    chunk = idx.readChunkBytes off := by
  have hpairs : ∀ a ∈ idx.pairs blake ++ climbInputs (hashPair blake) (blake chunk.toList) off path,
      pairBytes a ∈ idx.hashed blake ++ chunkHashed blake chunk off path := by
    intro a ha
    rw [hashed, chunkHashed, List.mem_append, List.mem_append, List.mem_cons]
    rcases List.mem_append.mp ha with ha | ha
    · exact .inl (.inr (List.mem_map_of_mem ha))
    · exact .inr (.inr (List.mem_map_of_mem ha))
  have hchunk : chunk.toList ∈ idx.hashed blake ++ chunkHashed blake chunk off path :=
    List.mem_append_right _ List.mem_cons_self
  have hread : (idx.readChunkBytes off).toList ∈
      idx.hashed blake ++ chunkHashed blake chunk off path := by
    have hlen : off < idx.chunks.length := by
      rw [h.nChunks, leaves, List.length_map] at hoff
      exact hoff
    apply List.mem_append_left _ (List.mem_append_left _ (List.mem_map_of_mem _))
    rw [readChunkBytes, List.getD_eq_getElem?_getD, List.getElem?_eq_getElem hlen]
    exact List.getElem_mem _
  have hleaf : ∀ y, y ∈ idx.leaves blake ∨ y ∈ [blake chunk.toList] →
      ∀ a ∈ idx.pairs blake ++ climbInputs (hashPair blake) (blake chunk.toList) off path,
        hashPair blake a.1 a.2 ≠ y := by
    rintro y (hy | hy) a ha
    · obtain ⟨c, hc, rfl⟩ := List.mem_map.mp hy
      apply hashPair_ne_leaf hfree hpairs _ Vector.length_toList ha
      exact List.mem_append_left _ (List.mem_append_left _ (List.mem_map_of_mem hc))
    · rw [List.mem_singleton.mp hy]
      exact hashPair_ne_leaf hfree hpairs hchunk Vector.length_toList ha
  have hslice : slice (idx.leaves blake) off 0 = [blake chunk.toList] := by
    have hroot : climb (hashPair blake) (blake chunk.toList) off path = idx.rT := by
      rw [← verifyMerkleLoop_eq]
      exact of_decide_eq_true hverify
    apply slice_eq_of_climb (collisionFree_pairs hfree hpairs) hleaf _ _ _ h.rT rfl rfl
      (Nat.zero_le _) hroot
    · rw [Nat.pow_zero, Nat.mul_one, ← h.nChunks]
      exact hoff
    · intro a ha
      exact List.mem_append_left _ ha
    · intro a ha
      exact absurd ha List.not_mem_nil
    · intro a ha
      exact List.mem_append_right _ ha
  have hget : (idx.leaves blake)[off]? = some (blake chunk.toList) := by
    have hhead := congrArg List.head? hslice
    rw [slice, Nat.pow_zero, Nat.mul_one, List.head?_take, if_neg Nat.one_ne_zero,
      List.head?_drop] at hhead
    exact hhead
  rw [leaf_eq (h.nChunks ▸ hoff), Option.some_inj] at hget
  exact Vector.toList_inj.mp (hfree _ hchunk _ hread hget.symm)

/-- The steps that the check accepts are those of the walk over the index. -/
theorem verifySteps_sound {steps : List PomStep} {final : UInt64} (h : idx.Built blake)
    (hpos : 0 < idx.nChunks)
    (hfree : CollisionFree blake (idx.hashed blake ++ stepsHashed blake idx.nChunks walkV2 s steps))
    (hverify : verifySteps blake idx.nChunks idx.rT walkV2 s steps = some final) :
    final = (idx.advance walkV2)^[steps.length] s ∧ ∀ i step, steps[i]? = some step →
      step.chunk = idx.readChunkBytes (((idx.advance walkV2)^[i] s).toNat % idx.nChunks) := by
  induction steps generalizing s with
  | nil => exact ⟨(Option.some.inj hverify).symm, nofun⟩
  | cons step steps ih =>
    rw [verifySteps] at hverify
    split at hverify
    · next hstep =>
      have hchunk : step.chunk = idx.readChunkBytes (s.toNat % idx.nChunks) := by
        apply chunk_of_verify h (Nat.mod_lt _ hpos) hstep
        apply hfree.mono
        intro b hb
        rcases List.mem_append.mp hb with hb | hb
        · exact List.mem_append_left _ hb
        · exact List.mem_append_right _ (List.mem_append_left _ hb)
      have hnext : transition s (chunkToWords step.chunk) walkV2 = idx.advance walkV2 s := by
        rw [hchunk, advance]
      rw [hnext] at hverify
      obtain ⟨hfinal, hsteps⟩ := ih (by
        rw [stepsHashed, hnext] at hfree
        apply hfree.mono
        intro b hb
        rcases List.mem_append.mp hb with hb | hb
        · exact List.mem_append_left _ hb
        · exact List.mem_append_right _ (List.mem_append_right _ hb)) hverify
      refine ⟨hfinal, ?_⟩
      rintro (- | i) step' hstep'
      · cases hstep'
        exact hchunk
      · exact hsteps i step' hstep'
    · cases hverify

theorem verifyProofV2_eq_true {proof : PomProof} {prePowHash rT target : Bytes32} {seed : UInt64}
    {nChunks : Nat} {walkSteps : UInt32} {h3 : Bool}
    (hverify : verifyProofV2 blake proof prePowHash seed nChunks walkSteps rT target h3 walkV2 = true) :
    ∃ steps, proof.stepsV2 = some steps ∧ steps.length = walkSteps.toNat ∧
      verifySteps blake nChunks rT walkV2 seed steps = some proof.finalState := by
  rw [verifyProofV2] at hverify
  split at hverify
  · cases hverify
  · next steps hsteps =>
    split at hverify
    · cases hverify
    · next hlen =>
      split at hverify
      · cases hverify
      · split at hverify
        · cases hverify
        · next state hstate =>
          split at hverify
          · cases hverify
          · next hfinal => exact ⟨steps, hsteps, not_not.mp hlen, not_not.mp hfinal ▸ hstate⟩

end WeightIndex

/-- The proofs over an index: both builders' proofs are accepted when the value of the walk is
within the target, and an accepted proof of the second era has the steps of the walk. -/
theorem proofs_of_steps (blake : List UInt8 → Bytes32) (tensors : List (List UInt8))
    (idx : WeightIndex) (prePowHash : Bytes32) (seed : UInt64) (k : UInt32) (h3 : Bool)
    (hbuild : WeightIndex.build blake tensors = some idx) (hn : 32 < idx.nChunks) :
    (∀ tier walkV2, ∃ proof, buildProofV2 idx.nChunks idx.readChunk (idx.merklePath blake) tier
        prePowHash seed k h3 walkV2 = some proof ∧
      walkFinal idx.nChunks idx.readChunk seed k.toNat walkV2 = some proof.finalState ∧
      ∀ target, verifyProofV2 blake proof prePowHash seed idx.nChunks k idx.rT target h3 walkV2 =
        leLeq (pomPowValue proof.finalState prePowHash h3) target) ∧
    (∀ proof target walkV2,
      CollisionFree blake (idx.hashed blake ++ WeightIndex.stepsHashed blake idx.nChunks walkV2 seed
        (proof.stepsV2.getD [])) →
      verifyProofV2 blake proof prePowHash seed idx.nChunks k idx.rT target h3 walkV2 = true →
      walkFinal idx.nChunks idx.readChunk seed k.toNat walkV2 = some proof.finalState ∧
        ∃ steps, proof.stepsV2 = some steps ∧ steps.length = k.toNat ∧
          ∀ i step, steps[i]? = some step →
            ∃ state, walkFinal idx.nChunks idx.readChunk seed i walkV2 = some state ∧
              step.chunk = idx.readChunkBytes (state.toNat % idx.nChunks)) ∧
    ∀ tier nonce t, k ≠ 0 ∨ t = 0 →
      ∃ proof, buildProof blake idx.nChunks idx.readChunk (idx.merklePath blake) tier prePowHash
          nonce seed k t h3 = some proof ∧
        walkFinal idx.nChunks idx.readChunk seed k.toNat false = some proof.finalState ∧
        ∀ target, verifyProof blake prePowHash nonce seed proof idx.nChunks k t idx.rT target h3 =
          some (leLeq (pomPowValue proof.finalState prePowHash h3) target) := by
  have hb := WeightIndex.build_built hbuild
  have hpos : 0 < idx.nChunks := by omega
  refine ⟨fun tier walkV2 => WeightIndex.buildProofV2_accepted hb hn, ?_,
    fun tier nonce t hk => WeightIndex.buildProof_accepted hb hn hk⟩
  intro proof target walkV2 hfree hverify
  obtain ⟨steps, hsteps, hlen, hstate⟩ := WeightIndex.verifyProofV2_eq_true hverify
  rw [hsteps, Option.getD_some] at hfree
  obtain ⟨hfinal, hchunks⟩ := WeightIndex.verifySteps_sound hb hpos hfree hstate
  refine ⟨by rw [WeightIndex.walkFinal_eq hpos, hfinal, hlen], steps, hsteps, hlen, ?_⟩
  intro i step hstep
  exact ⟨_, WeightIndex.walkFinal_eq hpos, hchunks i step hstep⟩

/-! ## An index without collisions -/

theorem mem_stepsHashed {blake : List UInt8 → Bytes32} {idx : WeightIndex} {walkV2 : Bool} {k : Nat}
    {s : UInt64} {b : List UInt8} (hpos : 0 < idx.nChunks)
    (h : b ∈ WeightIndex.stepsHashed blake idx.nChunks walkV2 s
      ((List.range k).map fun i => idx.stepAt blake ((idx.advance walkV2)^[i] s))) :
    ∃ off < idx.nChunks,
      b ∈ WeightIndex.chunkHashed blake (idx.readChunkBytes off) off (idx.merklePath blake off) := by
  induction k generalizing s with
  | zero => cases h
  | succ k ih =>
    rw [WeightIndex.map_range_iterate, WeightIndex.stepsHashed, List.mem_append] at h
    rcases h with h | h
    · exact ⟨_, Nat.mod_lt _ hpos, h⟩
    · exact ih h

theorem isHeight_chunk {off : Nat} (hoff : off < zeroIndex.nChunks) :
    ∀ b ∈ WeightIndex.chunkHashed heightHash (zeroIndex.readChunkBytes off) off
      (zeroIndex.merklePath heightHash off), IsHeight b := by
  have hlen : off < (zeroIndex.leaves heightHash).length := zeroIndex_built.nChunks ▸ hoff
  have hchunk : zeroIndex.readChunkBytes off = Vector.replicate 32 0 := by
    apply readChunkBytes_zeroIndex
    rw [WeightIndex.leaves, List.length_map] at hlen
    exact hlen
  have hleaf : heightHash (List.replicate 32 0) = Vector.replicate 32 1 := rfl
  have hdepth : depth (zeroIndex.leaves heightHash).length ≤ 6 :=
    zeroIndex_height ▸ le_max_right ..
  intro b hb
  rw [WeightIndex.chunkHashed, hchunk, Vector.toList_replicate, hleaf,
    WeightIndex.merklePath_eq zeroIndex_built hoff, List.mem_cons] at hb
  obtain rfl | hb := hb
  · exact .inl rfl
  · obtain ⟨a, ha, rfl⟩ := List.mem_map.mp hb
    obtain ⟨j, hj, hpair⟩ := climbInputs_const mem_zeroIndex_leaves hlen a ha
    exact isHeight_pair (hj.trans_le hdepth) hpair

theorem leLeq_max (a : Bytes32) : leLeq a (Vector.replicate 32 255) = true := by
  have hbelow (i : Nat) (hi : i ≤ 32) : leLeqBelow a (Vector.replicate 32 255) i = true := by
    induction i with
    | zero => rfl
    | succ i ih =>
      have hmax : (Vector.replicate 32 (255 : UInt8)).toList.getD i 0 = 255 := by
        rw [Vector.toList_replicate, List.getD_eq_getElem?_getD, List.getElem?_replicate_of_lt hi]
        rfl
      have hle : ¬(255 : UInt8) < a.toList.getD i 0 := by
        rw [UInt8.lt_iff_toNat_lt]
        have hlt := (a.toList.getD i 0).toNat_lt
        have h255 : UInt8.toNat 255 = 255 := rfl
        omega
      rw [leLeqBelow, hmax, if_neg hle, ih (Nat.le_of_succ_le hi)]
      exact ite_self true
  exact hbelow 32 le_rfl

theorem proofs_of_steps_zeroIndex :
    (∃ proof, buildProofV2 zeroIndex.nChunks zeroIndex.readChunk (zeroIndex.merklePath heightHash) 0
        default 7 2 true true = some proof ∧
      verifyProofV2 heightHash proof default 7 zeroIndex.nChunks 2 zeroIndex.rT
        (Vector.replicate 32 255) true true = true ∧
      walkFinal zeroIndex.nChunks zeroIndex.readChunk 7 2 true = some proof.finalState ∧
        ∃ steps, proof.stepsV2 = some steps ∧ steps.length = 2 ∧
          ∀ i step, steps[i]? = some step →
            ∃ state, walkFinal zeroIndex.nChunks zeroIndex.readChunk 7 i true = some state ∧
              step.chunk = zeroIndex.readChunkBytes (state.toNat % zeroIndex.nChunks)) ∧
    ∃ proof, buildProof heightHash zeroIndex.nChunks zeroIndex.readChunk
        (zeroIndex.merklePath heightHash) 0 default 5 7 2 3 true = some proof ∧
      verifyProof heightHash default 5 7 proof zeroIndex.nChunks 2 3 zeroIndex.rT
        (Vector.replicate 32 255) true = some true := by
  have hn : 32 < zeroIndex.nChunks := by
    rw [zeroIndex, nChunks_zeroTensor]
    decide
  have hpos : 0 < zeroIndex.nChunks := by omega
  obtain ⟨hv2, hsound, hlegacy⟩ := proofs_of_steps heightHash [zeroTensor] zeroIndex default 7 2 true
    (build_zeroTensor heightHash) hn
  constructor
  · obtain ⟨proof, hbuild, -, hverify⟩ := hv2 0 true
    have haccept := (hverify (Vector.replicate 32 255)).trans (leLeq_max _)
    refine ⟨proof, hbuild, haccept, hsound proof _ true ?_ haccept⟩
    apply collisionFree_heightHash
    intro b hb
    rcases List.mem_append.mp hb with hb | hb
    · exact isHeight_hashed b hb
    · rw [buildProofV2, WeightIndex.stepsLoop_eq hpos] at hbuild
      obtain rfl := Option.some.inj hbuild
      obtain ⟨off, hoff, hb⟩ := mem_stepsHashed hpos hb
      exact isHeight_chunk hoff b hb
  · obtain ⟨proof, hbuild, -, hverify⟩ := hlegacy 0 5 3 (.inl (by decide))
    exact ⟨proof, hbuild, (hverify _).trans (congrArg some (leLeq_max _))⟩

/-- A proof whose value is above the target is refused, and with no steps nothing can be opened. -/
theorem proof_refused :
    (∃ proof, buildProofV2 zeroIndex.nChunks zeroIndex.readChunk (zeroIndex.merklePath heightHash) 0
        default 7 0 true true = some proof ∧
      verifyProofV2 heightHash proof default 7 zeroIndex.nChunks 0 zeroIndex.rT
        (Vector.replicate 32 0) true true = false) ∧
    buildProof heightHash zeroIndex.nChunks zeroIndex.readChunk (zeroIndex.merklePath heightHash) 0
      default 5 7 0 1 true = none := by
  constructor
  · exact ⟨_, rfl, by decide +kernel⟩
  · rfl

end KeryxMiner.Pom
