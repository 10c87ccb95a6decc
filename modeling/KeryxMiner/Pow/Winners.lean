import KeryxMiner.Pow.Generate

/-!
# Every winner makes a block

From the fourth walk on, a nonce whose walk over an index has a value within the target is never
dropped behind the first look at it: the proof can be built and checked, its lists fit their length
fields, and the block is there (`isSome_generateBlockIfPom`). Whoever gets a block can work out from
its header alone what the proof is checked with, and finds it right (`generateBlockIfPom_accepted`).
-/

namespace KeryxMiner.Pow

open Pom Stratum

/-! ## The proof fits its fields -/

section

variable {blake : List UInt8 → Bytes32} {idx : WeightIndex} {off : Nat}

theorem length_tilePath_lt (h : idx.Built blake) (hlt : idx.nChunks < 2 ^ 60) :
    (idx.tilePath blake off).length < 2 ^ 32 := by
  have hdepth : Merkle.depth (idx.leaves blake).length ≤ 60 := by
    rw [← h.nChunks]
    exact Nat.clog_le_of_le_pow hlt.le
  rw [WeightIndex.tilePath, WeightIndex.merklePath, List.length_drop, List.length_map,
    List.length_range, h.totalLevels]
  omega

theorem fits_walkProof {tier : UInt8} {powValue : Bytes32} {finalState : UInt64} {v4 : PomProofV4}
    {opening : Option (List UInt8)} (hopening : ∀ bytes ∈ opening, bytes.length < 2 ^ 32)
    (htiles : v4.tiles.length < 2 ^ 32) (hmerkle : v4.merkle.length < 2 ^ 32)
    (htile : ∀ tile ∈ v4.tiles, tile.length < 2 ^ 32)
    (hpath : ∀ range ∈ v4.merkle, range.path.length < 2 ^ 32) :
    Borsh.Fits (walkProof tier powValue finalState v4 opening) := by
  have hv4 : Borsh.Fits v4 := ⟨trivial, ⟨htiles, fun tile ht => ⟨htile tile ht, fun _ _ => trivial⟩⟩,
    hmerkle, fun range hr => ⟨hpath range hr, fun _ _ => trivial⟩⟩
  have hsome : ∀ x ∈ some v4, Borsh.Fits x := by
    rintro x hx
    cases hx
    exact hv4
  have hnil {α : Type} [Borsh α] : Borsh.Fits ([] : List α) :=
    ⟨Nat.two_pow_pos 32, nofun⟩
  have htask : ∀ x ∈ opening, Borsh.Fits x := fun x hx => ⟨hopening x hx, fun _ _ => trivial⟩
  exact ⟨⟨⟨⟨⟨trivial, trivial, trivial, trivial, hnil, hnil, hnil⟩, nofun⟩, nofun⟩, hsome⟩, htask⟩

/-- What the builder of an era makes, its check accepts with the state of the walk, and it fits the
fields it is sent in. -/
theorem buildProofEra_spec (h : idx.Built blake) (hn : 32 < idx.nChunks) (tier : UInt8)
    (seed : UInt64) {pad : Pad} (hpad : ∀ p ∈ pad, p.2 ≠ 0 ∧ idx.nChunks / v4TileChunks + p.2 < 2 ^ 50)
    (hlt : idx.nChunks < 2 ^ 60) :
    ∃ v4 finalState, walkFinalEra blake seed idx pad = .ok finalState ∧
      buildProofEra blake tier seed idx pad = .ok (v4, finalState) ∧
      verifyProofEra blake seed v4 idx.rT idx.nChunks pad = .ok finalState ∧
      ∀ powValue opening, (∀ bytes ∈ opening, bytes.length < 2 ^ 32) →
        Borsh.Fits (walkProof tier powValue finalState v4 opening) := by
  have hw := weightTiles_ne_zero hn
  have htile (off : Nat) : (idx.tile off).length < 2 ^ 32 := by
    rw [WeightIndex.length_tile]
    decide
  have hsteps (offs : List Nat) (hoffs : offs.length = v4K) : offs.length < 2 ^ 32 := by
    rw [hoffs]
    decide
  cases pad with
  | none =>
    refine ⟨_, _, walkFinalV4_eq hw, buildProofV4_eq hw tier, verifyProofV4_eq hw tier h hn,
      fun _ _ hopening => ?_⟩
    have hlen := hsteps (offsetsV4 seed idx) ReadWalk.length_draws
    apply fits_walkProof hopening
    · rwa [proofOfV4, List.length_map]
    · rwa [proofOfV4, List.length_map]
    · intro tile ht
      obtain ⟨off, -, rfl⟩ := List.mem_map.mp ht
      exact htile off
    · intro range hr
      obtain ⟨off, -, rfl⟩ := List.mem_map.mp hr
      exact length_tilePath_lt h hlt
  | some p =>
    obtain ⟨padSeed, n⟩ := p
    obtain ⟨hp, hfit⟩ := hpad _ rfl
    dsimp only at hp hfit
    obtain ⟨k, hk⟩ : ∃ k, v5PadSteps (idx.nChunks / v4TileChunks) n = .ok k := by
      rw [v5PadSteps, Nat.mod_eq_of_lt (by omega)]
      exact ⟨_, if_neg fun hzero => hp (Nat.add_eq_zero_iff.mp hzero).2⟩
    refine ⟨_, _, walkFinalV5_eq hw hp hk, buildProofV5_eq hw hp hk tier,
      verifyProofV5_eq hw hp hk tier h hn, fun _ _ hopening => ?_⟩
    have hlen := hsteps (offsetsV5 seed idx padSeed n k) ReadWalk.length_draws
    apply fits_walkProof hopening
    · rwa [proofOf, List.length_map]
    · rwa [proofOf, List.length_map]
    · intro tile ht
      obtain ⟨off, -, rfl⟩ := List.mem_map.mp ht
      split
      · exact htile off
      · exact Nat.two_pow_pos 32
    · intro range hr
      obtain ⟨off, -, rfl⟩ := List.mem_map.mp hr
      dsimp only
      split
      · exact length_tilePath_lt h hlt
      · exact Nat.two_pow_pos 32

end

/-! ## The block -/

/-- Whether the walk of a nonce has a value within the target. -/
def Template.accepts (blake : List UInt8 → Bytes32) (isTestnet : Bool) (s : Template)
    (idx : WeightIndex) (pad : Pad) (nonce : UInt64) : Bool :=
  match walkFinalEra blake (pomBlockSeedV4Era isTestnet s.pph s.timestamp nonce s.daaScore) idx
      pad with
  | .ok finalState => leLeq (pomPowValue finalState s.pph true) (leBytes s.target)
  | .error _ => false

section

variable {rank : Matrix → Nat} {fuel : Nat} {blake : List UInt8 → Bytes32}
  {headerHash : List UInt8 → Uint256} {isTestnet : Bool} {miningModel : UInt64 → Option Bytes32}
  {job : Job} {s : Template} {nonce finalState : UInt64} {idx : WeightIndex} {tier : UInt8} {pad : Pad}

/-- A pad has tiles, and few of them. -/
theorem contextPad_bounds {rT : Bytes32} {daa : UInt64}
    (h : contextPad blake isTestnet miningModel tier rT daa = some pad) :
    ∀ p ∈ pad, p.2 ≠ 0 ∧ p.2 < 2 ^ 23 := by
  rw [contextPad] at h
  split at h
  · obtain ⟨modelId, -, h⟩ := Option.bind_eq_some_iff.mp h
    dsimp only at h
    split at h
    · cases h
    · next hne =>
      cases h
      rintro p hp
      cases hp
      exact ⟨hne, pomV5PadTiles_lt⟩
  · cases h
    nofun

theorem exists_assemble (hnew : Template.new rank fuel headerHash isTestnet job = some s) :
    ∃ won, assemblePomBlock (headerGates isTestnet) s.block nonce finalState tier [] = some won := by
  cases job with
  | fullBlock block =>
    simp only [Template.new, Option.bind_eq_bind, Option.bind_eq_some_iff] at hnew
    obtain ⟨header, hheader, _, _, _, _, _, _, hs⟩ := hnew
    cases hs
    rw [assemblePomBlock, hheader]
    exact ⟨_, rfl⟩
  | partialBlock job =>
    simp only [Template.new, Option.bind_eq_bind, Option.bind_eq_some_iff] at hnew
    obtain ⟨_, _, _, _, hs⟩ := hnew
    cases hs
    exact ⟨_, rfl⟩

theorem bind_of_eq_some {α β : Type} {x : Option α} {a : α} {f : α → Option β} (h : x = some a) :
    x.bind f = f a := by
  rw [h, Option.bind_some]

theorem Template.generateV4_of_built {task : Option (List UInt8 → Option (List UInt8))}
    {opening : Option (List UInt8)} {v4 : PomProofV4} {found : BlockSeed} {bytes : List UInt8}
    (hpad : contextPad blake isTestnet miningModel tier idx.rT s.daaScore = some pad)
    (hwalk : walkFinalEra blake (pomBlockSeedV4Era isTestnet s.pph s.timestamp nonce s.daaScore) idx
      pad = .ok finalState)
    (hbuild : buildProofEra blake tier
      (pomBlockSeedV4Era isTestnet s.pph s.timestamp nonce s.daaScore) idx pad =
        .ok (v4, finalState))
    (hverify : verifyProofEra blake
      (pomBlockSeedV4Era isTestnet s.pph s.timestamp nonce s.daaScore) v4 idx.rT idx.nChunks pad =
        .ok finalState)
    (hfound : assemblePomBlock (headerGates isTestnet) s.block nonce finalState tier [] = some found)
    (hopen : Template.openTask headerHash isTestnet nonce tier task found finalState
      (pomPowValue finalState s.pph true) = some opening)
    (hbytes : (walkProof tier (pomPowValue finalState s.pph true) finalState v4 opening).toWireBytes =
      some bytes) :
    s.generateV4 blake headerHash isTestnet miningModel nonce idx tier task =
      if leLeq (pomPowValue finalState s.pph true) (leBytes s.target) then
        some (found.withProof bytes) else none := by
  rw [walkProof] at hbytes
  unfold Template.generateV4
  simp only [Option.bind_eq_bind]
  rw [bind_of_eq_some hpad, bind_of_eq_some (toOption_eq_some.mpr hwalk)]
  by_cases hvalue : leLeq (pomPowValue finalState s.pph true) (leBytes s.target) = true
  · rw [if_pos hvalue, if_neg (not_not.mpr hvalue), bind_of_eq_some (toOption_eq_some.mpr hbuild)]
    change (if finalState ≠ finalState ∨ _ then _ else _) = _
    rw [if_neg (not_or.mpr ⟨not_not.mpr rfl, not_not.mpr hvalue⟩),
      bind_of_eq_some (toOption_eq_some.mpr hverify), if_neg (not_not.mpr rfl),
      bind_of_eq_some hfound]
    exact (bind_of_eq_some hopen).trans (bind_of_eq_some hbytes)
  · rw [if_neg hvalue, if_pos hvalue]

/-- The miner submits a nonce if and only if it is accepted, where its task can be opened. -/
theorem isSome_generateBlockIfPom {task : Option (List UInt8 → Option (List UInt8))}
    (hnew : Template.new rank fuel headerHash isTestnet job = some s) (hbuilt : idx.Built blake)
    (hn : 32 < idx.nChunks) (hlt : idx.nChunks < 2 ^ 54)
    (hera : pomV4ActivationDaa isTestnet ≤ s.daaScore)
    (hpad : contextPad blake isTestnet miningModel tier idx.rT s.daaScore = some pad)
    (htask : ∀ finalState found,
      assemblePomBlock (headerGates isTestnet) s.block nonce finalState tier [] = some found →
      ∃ opening, Template.openTask headerHash isTestnet nonce tier task found finalState
        (pomPowValue finalState s.pph true) = some opening ∧
        ∀ bytes ∈ opening, bytes.length < 2 ^ 32) :
    (s.generateBlockIfPom blake headerHash isTestnet miningModel nonce idx tier task).isSome =
      s.accepts blake isTestnet idx pad nonce := by
  have hbounds : ∀ p ∈ pad, p.2 ≠ 0 ∧ idx.nChunks / v4TileChunks + p.2 < 2 ^ 50 := by
    intro p hp
    obtain ⟨hne, hsmall⟩ := contextPad_bounds hpad p hp
    have htile : v4TileChunks = 32 := rfl
    rw [htile]
    exact ⟨hne, by omega⟩
  obtain ⟨v4, finalState, hwalk, hbuild, hverify, hfits⟩ := buildProofEra_spec hbuilt hn tier
    (pomBlockSeedV4Era isTestnet s.pph s.timestamp nonce s.daaScore) hbounds (by omega)
  obtain ⟨found, hfound⟩ : ∃ found, assemblePomBlock (headerGates isTestnet) s.block nonce finalState
      tier [] = some found := exists_assemble hnew
  obtain ⟨opening, hopen, hopening⟩ := htask finalState found hfound
  obtain ⟨bytes, hbytes⟩ := Option.isSome_iff_exists.mp (PomProof.isSome_toWireBytes
    (hfits (pomPowValue finalState s.pph true) opening hopening))
  rw [Template.generateBlockIfPom, if_pos hera,
    Template.generateV4_of_built hpad hwalk hbuild hverify hfound hopen hbytes, Template.accepts, hwalk]
  dsimp only
  cases leLeq (pomPowValue finalState s.pph true) (leBytes s.target) <;> rfl

/-- **A block or a share that the miner submits is one that is accepted**: the proof is read back
from its bytes, and it is the right one for what can be read off the header that is submitted, which
commits to it. The opening of a task is one for the hash of this very block. -/
theorem generateBlockIfPom_accepted {task : Option (List UInt8 → Option (List UInt8))}
    {won : BlockSeed}
    (hnew : Template.new rank fuel headerHash isTestnet job = some s)
    (hgenerate : s.generateBlockIfPom blake headerHash isTestnet miningModel nonce idx tier task =
      some won) :
    ∃ proof r pad, PomProof.fromWireBytes won.pomProof = some proof ∧ proof.tier = tier ∧
      received headerHash isTestnet proof.finalState proof.tier job won = some r ∧
      r.nonce = nonce ∧
      contextPad blake isTestnet miningModel proof.tier idx.rT r.daaScore = some pad ∧
      Accepted blake isTestnet pad idx.rT idx.nChunks r proof ∧
      ∀ block header, won = .fullBlock block → block.header = some header →
        Commits isTestnet proof header ∧
        (pomV4ActivationDaa isTestnet ≤ r.daaScore → ∀ openBlockTask, task = some openBlockTask →
          ∃ hash opening, blockHash headerHash isTestnet header = some hash ∧
            openBlockTask hash.toLeBytes = some opening ∧ proof.task = some opening) := by
  rw [Template.generateBlockIfPom] at hgenerate
  split at hgenerate
  · next hv4 =>
    obtain ⟨pad, v4, finalState, opening, bytes, found, hpad, hvalue, hverify, hfound, hopening,
      hbytes, rfl⟩ := Template.generateV4_eq_some hgenerate
    obtain ⟨r, hr, hnonce, hdaa, hhash, htime, htarget⟩ := received_assemble hnew hfound
    refine ⟨walkProof tier (pomPowValue finalState s.pph true) finalState v4 opening, r, pad, ?_, rfl,
      received_withProof.trans hr, hnonce, hdaa ▸ hpad, ⟨?_, ?_⟩, ?_⟩
    · have hproof : (found.withProof bytes).pomProof = bytes := by
        cases found <;> rfl
      rw [hproof]
      exact PomProof.fromWireBytes_toWireBytes hbytes
    · intro _
      rw [hdaa, hhash, htime, hnonce, htarget]
      exact ⟨rfl, hvalue, v4, rfl, hverify⟩
    · intro hlt
      exact absurd hv4 (UInt64.not_le.mpr (hdaa ▸ hlt))
    · intro block header hwon hheader
      cases found with
      | partialBlock nonce proof header => cases hwon
      | fullBlock found =>
        cases hwon
        have hheader : found.header = some header := hheader
        obtain ⟨old, hfilled⟩ := filled_of_assemble hfound hheader
        refine ⟨hfilled.commits rfl rfl, fun _ openBlockTask htask => ?_⟩
        rw [htask, Template.openTask] at hopening
        simp only [Option.bind_eq_bind, Option.bind_eq_some_iff] at hopening
        obtain ⟨header', hheader', hash, hhash, opening', hopen, hsome⟩ := hopening
        obtain rfl := Option.some.inj (hheader'.symm.trans hheader)
        exact ⟨hash, opening', hhash, hopen, (Option.some.inj hsome).symm⟩
  · next hv4 =>
    split at hgenerate
    · cases hgenerate
    · next hv3 =>
      obtain ⟨proof, bytes, hsteps, rfl, hbytes, hfound⟩ := Template.generateSteps_eq_some hgenerate
      obtain ⟨r, hr, hnonce, hdaa, hhash, htime, htarget⟩ := received_assemble hnew hfound
      have hbefore := UInt64.not_le.mp hv4
      refine ⟨proof, r, none, ?_, rfl, hr, hnonce, ?_, ⟨?_, ?_⟩, ?_⟩
      · rw [pomProof_assemble hfound]
        exact PomProof.fromWireBytes_toWireBytes hbytes
      · rw [hdaa]
        exact contextPad_before hbefore
      · intro h
        exact absurd (hdaa ▸ h) hv4
      · intro _
        rw [hdaa, hhash, htime, hnonce, htarget]
        exact ⟨UInt64.not_le.mp hv3, hsteps⟩
      · rintro block header rfl hheader
        obtain ⟨h, hfilled⟩ := filled_of_assemble hfound hheader
        exact ⟨hfilled.commits rfl rfl, fun h => absurd (hdaa ▸ h) hv4⟩

end

/-- The sum of the bytes as the hash of a header. -/
def addedBytes (bytes : List UInt8) : Uint256 :=
  ⟨#v[bytes.foldl (fun sum b => sum + b.toUInt64) 0, 0, 0, 0]⟩

/-- The header of a block whose target half of the values are within. -/
def easyHeader : RpcBlockHeader :=
  { plainHeader 'a' with bits := 0x207fffff, daaScore := 79210000 }

def easyBlock : Job := .fullBlock { header := some easyHeader, pomProof := [] }

/-- A device that opens its task with a byte and the hash of the block. -/
def echoTask (hash : List UInt8) : Option (List UInt8) := some (81 :: hash)

theorem v4StateRoot_heightHash {state : List UInt8} :
    v4StateRoot heightHash state = Vector.replicate 32 6 := by
  have hrow (r : Nat) : heightHash (slice32 state r) = Vector.replicate 32 1 := by
    have hlen : (slice32 state r).length ≤ 32 := by
      rw [slice32, block, List.length_take]
      exact min_le_left _ _
    rw [heightHash, if_neg (by omega)]
  simp only [v4StateRoot, hrow]
  decide +kernel

theorem exists_easyTemplate : ∃ s, Template.new (fun _ => 64) 1 addedBytes false easyBlock = some s ∧
    s.block = .fullBlock { header := some easyHeader, pomProof := [] } ∧ s.daaScore = 79210000 ∧
    leLeq (pomPowValue 0x0606060606060606 s.pph true) (leBytes s.target) = true := by
  have hhash : prePowHash addedBytes false easyHeader = some ⟨#v[14688, 0, 0, 0]⟩ := by
    decide +kernel
  obtain ⟨target, htarget, hwithin⟩ : ∃ target, u256FromCompactTarget 0x207fffff = some target ∧
      leLeq (pomPowValue 0x0606060606060606 (leBytes ⟨#v[14688, 0, 0, 0]⟩) true) (leBytes target) =
        true := ⟨_, rfl, by decide +kernel⟩
  obtain ⟨state, hstate⟩ : ∃ state, State.new (fun _ => 64) 1 false ⟨#v[14688, 0, 0, 0]⟩
      easyHeader.timestamp.toUInt64 target 0xffffffffffffffff 0 79210000 = some state := by
    simp only [State.new, Matrix.generate, Matrix.generateLoop, if_pos]
    exact ⟨_, rfl⟩
  obtain ⟨hkept, hbytes⟩ := State.new_job hstate
  refine ⟨{ state with
    block := .fullBlock { header := some easyHeader, pomProof := [] }
    daaScore := 79210000 }, ?_, rfl, rfl, ?_⟩
  · simp only [Template.new, easyBlock, Option.bind_eq_bind, Option.bind_eq_some_iff]
    exact ⟨easyHeader, rfl, target, htarget, _, hhash, state, hstate, rfl⟩
  · rw [(pph_of_header hbytes).1, hkept]
    exact hwithin

theorem accepts_easy {s : Template} {nonce : UInt64}
    (hvalue : leLeq (pomPowValue 0x0606060606060606 s.pph true) (leBytes s.target) = true) :
    s.accepts heightHash false zeroIndex none nonce = true := by
  have hw := weightTiles_ne_zero (show 32 < zeroIndex.nChunks from
    (nChunks_zeroTensor heightHash).symm ▸ by decide)
  have hfold : fold64 (Vector.replicate 32 6) = 0x0606060606060606 := by decide +kernel
  rw [Template.accepts, walkFinalEra, walkFinalV4_eq hw]
  simp only [finalV4, v4StateRoot_heightHash, hfold]
  exact hvalue

theorem opens_easy {s : Template} {nonce finalState : UInt64} {powValue : Bytes32}
    {found : BlockSeed} (hblock : s.block = .fullBlock { header := some easyHeader, pomProof := [] })
    (hfound : assemblePomBlock (headerGates false) s.block nonce finalState 3 [] = some found) :
    ∃ opening, Template.openTask addedBytes false nonce 3 (some echoTask) found finalState powValue =
      some opening ∧ ∀ bytes ∈ opening, bytes.length < 2 ^ 32 := by
  rw [hblock] at hfound
  obtain rfl := Option.some.inj hfound
  have hfilled : (fillPomHeader (headerGates false) easyHeader nonce finalState 3).WellFormed :=
    let h := plainHeader_wellFormed (show IsHash (plainHash 'a') by decide +kernel)
    ⟨h.version, h.levels, h.parents, h.hashMerkleRoot, h.acceptedIdMerkleRoot, h.utxoCommitment,
      h.blueWork, h.pruningPoint, h.taskRoot, h.serviceStateHash, show 3 < 2 ^ 8 by decide⟩
  obtain ⟨bytes, hbytes⟩ : ∃ bytes, serializeHeader (headerGates false) _ false = some bytes :=
    exists_serializeHeader hfilled
  refine ⟨some (81 :: (addedBytes bytes).toLeBytes), ?_, ?_⟩
  · simp only [Template.openTask, blockHash, hbytes, echoTask, Option.map_some, Option.bind_eq_bind,
      Option.bind_some]
  · rintro opening ⟨⟩
    have hlen : (addedBytes bytes).toLeBytes.length = 32 := by
      simp [Uint256.toLeBytes, List.length_flatMap]
    rw [List.length_cons, hlen]
    decide

theorem daaScore_easy {s : Template} {nonce : UInt64} {block : RpcBlock} {header : RpcBlockHeader}
    (hblock : s.block = .fullBlock { header := some easyHeader, pomProof := [] })
    (hdaa : s.daaScore = 79210000)
    (hwon : s.generateBlockIfPom heightHash addedBytes false (fun _ => none) nonce zeroIndex 3
      (some echoTask) = some (.fullBlock block)) (hheader : block.header = some header) :
    header.daaScore = 79210000 := by
  rw [Template.generateBlockIfPom, if_pos (hdaa ▸ by decide)] at hwon
  obtain ⟨-, -, finalState, -, bytes, found, -, -, -, hfound, -, -, hkept⟩ :=
    Template.generateV4_eq_some hwon
  rw [hblock] at hfound
  obtain rfl := Option.some.inj hfound
  cases hkept
  cases hheader
  rfl

/-- The block of an easy target is accepted, and opens the task of its device. -/
theorem generateBlockIfPom_accepted_easyBlock :
    ∃ s block header proof r pad hash,
      Template.new (fun _ => 64) 1 addedBytes false easyBlock = some s ∧
      s.generateBlockIfPom heightHash addedBytes false (fun _ => none) 7 zeroIndex 3
        (some echoTask) = some (.fullBlock block) ∧
      PomProof.fromWireBytes block.pomProof = some proof ∧ proof.tier = 3 ∧
      received addedBytes false proof.finalState proof.tier easyBlock (.fullBlock block) = some r ∧
      r.nonce = 7 ∧ Accepted heightHash false pad zeroIndex.rT zeroIndex.nChunks r proof ∧
      block.header = some header ∧ header.pomFinalState = proof.finalState ∧ header.pomTier = 3 ∧
      blockHash addedBytes false header = some hash ∧ proof.task = some (81 :: hash.toLeBytes) := by
  obtain ⟨s, hnew, hblock, hdaa, hvalue⟩ := exists_easyTemplate
  have hchunks : zeroIndex.nChunks = 33 := nChunks_zeroTensor heightHash
  have hpad : contextPad heightHash false (fun _ => none) 3 zeroIndex.rT s.daaScore = some none := by
    rw [hdaa]
    exact if_neg (by decide)
  have hsome : (s.generateBlockIfPom heightHash addedBytes false (fun _ => none) 7 zeroIndex 3
      (some echoTask)).isSome = s.accepts heightHash false zeroIndex none 7 :=
    isSome_generateBlockIfPom hnew zeroIndex_built (hchunks ▸ by decide) (hchunks ▸ by decide)
      (hdaa ▸ by decide) hpad fun _ _ => opens_easy hblock
  obtain ⟨won, hwon⟩ := Option.isSome_iff_exists.mp (hsome.trans (accepts_easy hvalue))
  obtain ⟨proof, r, pad, hproof, htier, hr, hnonce, -, haccepted, hfull⟩ :=
    generateBlockIfPom_accepted hnew hwon
  cases won with
  | partialBlock nonce bytes header => cases hr
  | fullBlock block =>
    obtain ⟨header, hheader, hrest⟩ := Option.bind_eq_some_iff.mp hr
    have hscore : header.daaScore = 79210000 := daaScore_easy hblock hdaa hwon hheader
    have hseen : r.daaScore = header.daaScore := by
      simp only [Option.bind_eq_bind, Option.bind_eq_some_iff] at hrest
      obtain ⟨_, -, _, -, hr⟩ := hrest
      cases hr
      rfl
    obtain ⟨hcommits, hopens⟩ := hfull block header rfl hheader
    obtain ⟨hash, opening, hhash, hopening, hproofTask⟩ :=
      hopens (by rw [hseen, hscore]; decide) echoTask rfl
    obtain rfl := Option.some.inj hopening
    have hpomTier : header.pomTier = 3 := by
      rw [hcommits.tier (by rw [hscore]; decide), htier]
      rfl
    exact ⟨s, block, header, proof, r, pad, hash, hnew, hwon, hproof, htier, hr, hnonce, haccepted,
      hheader, hcommits.finalState (by rw [hscore]; decide), hpomTier, hhash, hproofTask⟩

end KeryxMiner.Pow
