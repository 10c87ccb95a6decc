import Mathlib.Data.List.Induction
import KeryxMiner.Pom.Tiles

/-!
# Proofs of the walks

The proof which the miner builds is accepted with the state of its walk, and an accepted proof is
the one of the index. Both go through the pure walk: `readV5` says what is at a tile of the index or
of the pad.
-/

namespace KeryxMiner.Pom

open Merkle ReadWalk

variable {blake : List UInt8 → Bytes32}

/-! ## The pure walks -/

/-- What the fifth walk reads at a tile. -/
def readV5 (idx : WeightIndex) (padSeed : Bytes32) (_ off : Nat) : List UInt8 :=
  if off < idx.nChunks / v4TileChunks then idx.tile off
  else v5PadTile padSeed (off - idx.nChunks / v4TileChunks)

/-- The offsets which the fifth walk draws. -/
def offsetsV5 (seed : UInt64) (idx : WeightIndex) (padSeed : Bytes32) (padTiles padSteps : Nat) :
    List Nat :=
  (v5Walk seed (idx.nChunks / v4TileChunks) padTiles padSteps).draws (readV5 idx padSeed) v4K 0
    (v4InitialState seed) (v5FirstOffset seed (idx.nChunks / v4TileChunks))

/-- The state at the end of the fifth walk. -/
def finalV5 (blake : List UInt8 → Bytes32) (seed : UInt64) (idx : WeightIndex) (padSeed : Bytes32)
    (padTiles padSteps : Nat) : UInt64 :=
  fold64 (v4StateRoot blake
    ((v5Walk seed (idx.nChunks / v4TileChunks) padTiles padSteps).last (readV5 idx padSeed) v4K 0
      (v4InitialState seed) (v5FirstOffset seed (idx.nChunks / v4TileChunks))))

/-- The walk of `walk_final_v5` with its offsets kept. -/
def drawnOffsetsV5 (blake : List UInt8 → Bytes32) (seed : UInt64) (idx : WeightIndex)
    (padSeed : Bytes32) (padTiles : Nat) : Except String (List Nat) := do
  let weightTiles := idx.nChunks / v4TileChunks
  let (offs, _) ← walk blake seed weightTiles padTiles padSeed (fun offs _ off =>
    .ok (offs ++ [off], if off ≥ weightTiles then none else some (idx.tile off))) []
  return offs

section

variable {σ : Type} {seed : UInt64} {weightTiles padTiles padSteps : Nat} {padSeed : Bytes32}
  {fetch : σ → Nat → Nat → Except String (σ × Option (List UInt8))}

theorem walk_eq (hw : weightTiles ≠ 0) (hp : padTiles ≠ 0)
    (hps : v5PadSteps weightTiles padTiles = .ok padSteps) (f : σ) :
    walk blake seed weightTiles padTiles padSeed fetch f =
      ((v5Walk seed weightTiles padTiles padSteps).run (fun f i off => (fetch f i off).map
        fun (f, t) => (f, t.getD (v5PadTile padSeed (off - weightTiles)))) v4K 0 f
        (v4InitialState seed) (v5FirstOffset seed weightTiles)).map
          fun (f, state) => (f, fold64 (v4StateRoot blake state)) := by
  simp [walk, hw, hp, hps]
  rfl

/-- A walk ends like the pure one when its fetches read right at the offsets drawn. -/
theorem walk_of_draws {idx : WeightIndex} (push : σ → Nat → σ)
    (hw : idx.nChunks / v4TileChunks ≠ 0) (hp : padTiles ≠ 0)
    (hps : v5PadSteps (idx.nChunks / v4TileChunks) padTiles = .ok padSteps)
    (hfetch : ∀ f i off, (offsetsV5 seed idx padSeed padTiles padSteps)[i]? = some off →
      ∃ t, fetch f i off = .ok (push f off, t) ∧
        t.getD (v5PadTile padSeed (off - idx.nChunks / v4TileChunks)) = readV5 idx padSeed i off)
    (f : σ) : walk blake seed (idx.nChunks / v4TileChunks) padTiles padSeed fetch f =
      .ok ((offsetsV5 seed idx padSeed padTiles padSteps).foldl push f,
        finalV5 blake seed idx padSeed padTiles padSteps) := by
  rw [walk_eq hw hp hps, run_of_draws (readV5 idx padSeed) push]
  · rfl
  · intro f i off hoff
    rw [Nat.zero_add]
    obtain ⟨t, ht, hread⟩ := hfetch f i off hoff
    rw [ht, ← hread]
    rfl

end

/-! ## Verification -/

section

variable {proof : PomProofV4} {rT : Bytes32} {weightTiles i off : Nat} {t : Option (List UInt8)}

/-- A check before the rest of a function. -/
theorem check_ok {ε α β : Type} {c : Prop} [Decidable c] {e : ε} {skip : β → Except ε α}
    {rest : Except ε α} {x : α} :
    (if c then throw e >>= skip else rest) = .ok x ↔ ¬ c ∧ rest = .ok x := by
  split
  · next hc => exact iff_of_false (fun h => by cases h) (fun h => h.1 hc)
  · next hc => exact (and_iff_right hc).symm

theorem verifyFetchV4_ok {t : List UInt8} : verifyFetchV4 blake proof rT i off = .ok ((), t) ↔
    (proof.tiles.getD i []).length = v4TileBytes ∧
      verifyMerkle blake (v4TileSubtreeRoot blake (proof.tiles.getD i [])) off
        (proof.merkle.getD i ⟨[]⟩).path rT = true ∧ proof.tiles.getD i [] = t := by
  simp only [verifyFetchV4, check_ok]
  simp [pure, Except.pure]

theorem verifyFetchV5_weight (hoff : off < weightTiles) :
    verifyFetchV5 blake proof rT weightTiles i off = .ok ((), t) ↔
      (proof.tiles.getD i []).length = v4TileBytes ∧
        verifyMerkle blake (v4TileSubtreeRoot blake (proof.tiles.getD i [])) off
          (proof.merkle.getD i ⟨[]⟩).path rT = true ∧ some (proof.tiles.getD i []) = t := by
  simp only [verifyFetchV5, if_pos hoff, check_ok]
  simp [pure, Except.pure]

theorem verifyFetchV5_pad (hoff : weightTiles ≤ off) :
    verifyFetchV5 blake proof rT weightTiles i off = .ok ((), t) ↔
      proof.tiles.getD i [] = [] ∧ (proof.merkle.getD i ⟨[]⟩).path = [] ∧ none = t := by
  simp only [verifyFetchV5, if_neg (Nat.not_lt.mpr hoff), check_ok]
  simp [pure, Except.pure, and_assoc]

theorem verifyProofV5_ok {seed fs : UInt64} {nChunks padTiles : Nat} {padSeed : Bytes32} :
    verifyProofV5 blake seed proof rT nChunks padSeed padTiles = .ok fs ↔
      (proof.tiles.length = v4K ∧ proof.merkle.length = v4K) ∧
        walk blake seed (nChunks / v4TileChunks) padTiles padSeed
          (fun () => verifyFetchV5 blake proof rT (nChunks / v4TileChunks)) () = .ok ((), fs) := by
  rw [verifyProofV5, check_ok, not_or, not_not, not_not]
  dsimp only
  generalize walk blake seed (nChunks / v4TileChunks) padTiles padSeed _ () = run
  cases run with
  | error e => simp [bind, Except.bind]
  | ok p => simp [bind, Except.bind, pure, Except.pure, Prod.ext_iff]

end

/-! ## Offsets -/

theorem v5PadSteps_bounds {weightTiles padTiles padSteps : Nat}
    (h : v5PadSteps weightTiles padTiles = .ok padSteps) : 1 ≤ padSteps ∧ padSteps ≤ 255 := by
  simp only [v5PadSteps] at h
  split at h
  · cases h
  · cases h
    rw [v4K]
    omega

/-- Below 256 pad steps a step adds one to the multiples passed, or none. -/
theorem countP_isPadStep {padSteps : Nat} (h : padSteps ≤ 255) (n : Nat) :
    (List.range n).countP (fun j => v5IsPadStep (j + 1) padSteps) = n * padSteps / v4K := by
  induction n with
  | zero => simp
  | succ n ih =>
    rw [List.range_succ, List.countP_append, ih, List.countP_singleton, v5IsPadStep,
      Nat.add_sub_cancel, Nat.succ_mul, v4K]
    generalize n * padSteps = x
    by_cases hx : (x + padSteps) / 256 = x / 256
    · simp [hx]
    · simp [hx]
      omega

variable {seed : UInt64} {idx : WeightIndex} {padSeed : Bytes32} {padTiles padSteps : Nat}

/-- An offset is a pad tile's at the pad steps, and a weight tile's at the others. -/
theorem offsetsV5_bounds (hw : idx.nChunks / v4TileChunks ≠ 0) (hp : padTiles ≠ 0)
    (hfit : idx.nChunks / v4TileChunks + padTiles < 2 ^ 64) (hps : padSteps ≤ 255) {i off : Nat}
    (hoff : (offsetsV5 seed idx padSeed padTiles padSteps)[i]? = some off) :
    off < idx.nChunks / v4TileChunks + padTiles ∧
      (idx.nChunks / v4TileChunks ≤ off ↔ v5IsPadStep (i + 1) padSteps) := by
  rw [← Nat.zero_add i]
  apply draws_forall (P := fun j b => b < idx.nChunks / v4TileChunks + padTiles ∧
    (idx.nChunks / v4TileChunks ≤ b ↔ v5IsPadStep (j + 1) padSteps)) _ _ _ _ hoff
  · have hfirst := Nat.mod_lt (mix64 (seed ^^^ v4OffsetFirstSalt)).toNat (Nat.pos_of_ne_zero hw)
    have hstep : v5IsPadStep 1 padSteps = false := by
      rw [v5IsPadStep, v4K]
      simp
      omega
    rw [v5FirstOffset, v4FirstOffset, hstep]
    exact ⟨by omega, iff_of_false (Nat.not_le.mpr hfirst) (by decide)⟩
  · intro j state tile b hj
    rw [Nat.zero_add] at hj
    simp only [v5Walk, if_pos hj, v5NextOffset]
    generalize (mix64 _).toNat = raw
    have hpad := Nat.mod_lt raw (Nat.pos_of_ne_zero hp)
    have hweight := Nat.mod_lt raw (Nat.pos_of_ne_zero hw)
    split
    · next hstep =>
      rw [Nat.mod_eq_of_lt (by omega)]
      exact ⟨by omega, iff_of_true (by omega) hstep⟩
    · next hstep => exact ⟨by omega, iff_of_false (by omega) hstep⟩

/-- The walk reads as many pad tiles as it has pad steps. -/
theorem countP_offsetsV5 (hw : idx.nChunks / v4TileChunks ≠ 0) (hp : padTiles ≠ 0)
    (hfit : idx.nChunks / v4TileChunks + padTiles < 2 ^ 64) (hps : padSteps ≤ 255) :
    (offsetsV5 seed idx padSeed padTiles padSteps).countP
      (fun off => decide (idx.nChunks / v4TileChunks ≤ off)) = padSteps := by
  have hmap : (offsetsV5 seed idx padSeed padTiles padSteps).map
      (fun off => decide (idx.nChunks / v4TileChunks ≤ off)) =
      (List.range v4K).map fun j => v5IsPadStep (j + 1) padSteps := by
    apply List.ext_getElem?
    intro i
    rw [List.getElem?_map, List.getElem?_map]
    cases hoff : (offsetsV5 seed idx padSeed padTiles padSteps)[i]? with
    | none =>
      rw [List.getElem?_eq_none_iff, offsetsV5, length_draws] at hoff
      rw [List.getElem?_eq_none (by rwa [List.length_range])]
      rfl
    | some off =>
      have hi := (List.getElem?_eq_some_iff.mp hoff).1
      rw [offsetsV5, length_draws] at hi
      rw [List.getElem?_range hi]
      have hbounds := (offsetsV5_bounds hw hp hfit hps hoff).2
      simp only [Option.map_some, hbounds, Bool.decide_eq_true]
  have hcount := congrArg (List.countP id) hmap
  rw [List.countP_map, List.countP_map] at hcount
  exact hcount.trans ((countP_isPadStep hps v4K).trans (Nat.mul_div_cancel_left _ (by decide)))

/-! ## The proof of the miner -/

/-- The proof over the tiles of a walk. -/
def proofOf (blake : List UInt8 → Bytes32) (tier : UInt8) (idx : WeightIndex) (offs : List Nat) :
    PomProofV4 where
  tier
  tiles := offs.map fun off => if off < idx.nChunks / v4TileChunks then idx.tile off else []
  merkle := offs.map fun off =>
    ⟨if off < idx.nChunks / v4TileChunks then idx.tilePath blake off else []⟩

/-- What the builder does with each offset gives the proof. -/
theorem foldl_proofOf {tier : UInt8} (offs : List Nat) :
    offs.foldl (fun proof off =>
      { proof with
        tiles := proof.tiles ++ [if off < idx.nChunks / v4TileChunks then idx.tile off else []]
        merkle := proof.merkle ++
          [⟨if off < idx.nChunks / v4TileChunks then idx.tilePath blake off else []⟩] })
      (PomProofV4.mk tier [] []) = proofOf blake tier idx offs := by
  induction offs using List.reverseRecOn with
  | nil => rfl
  | append_singleton offs off ih =>
    simp only [List.foldl_append, ih, proofOf, List.map_append, List.foldl_cons, List.foldl_nil,
      List.map_cons, List.map_nil]

theorem tiles_proofOf (blake : List UInt8 → Bytes32) (tier : UInt8) (idx : WeightIndex)
    {offs : List Nat} {i off : Nat} (h : offs[i]? = some off) :
    (proofOf blake tier idx offs).tiles.getD i [] =
      if off < idx.nChunks / v4TileChunks then idx.tile off else [] := by
  rw [proofOf, List.getD_eq_getElem?_getD, List.getElem?_map, h]
  rfl

theorem path_proofOf (blake : List UInt8 → Bytes32) (tier : UInt8) (idx : WeightIndex)
    {offs : List Nat} {i off : Nat} (h : offs[i]? = some off) :
    ((proofOf blake tier idx offs).merkle.getD i ⟨[]⟩).path =
      if off < idx.nChunks / v4TileChunks then idx.tilePath blake off else [] := by
  rw [proofOf, List.getD_eq_getElem?_getD, List.getElem?_map, h]
  rfl

theorem foldl_concat (offs : List Nat) : offs.foldl (fun offs off => offs ++ [off]) [] = offs := by
  induction offs using List.reverseRecOn with
  | nil => rfl
  | append_singleton offs off ih => rw [List.foldl_append, ih, List.foldl_cons, List.foldl_nil]

theorem getD_readV5 (i off : Nat) :
    (if off ≥ idx.nChunks / v4TileChunks then none else some (idx.tile off)).getD
      (v5PadTile padSeed (off - idx.nChunks / v4TileChunks)) = readV5 idx padSeed i off := by
  rcases Nat.lt_or_ge off (idx.nChunks / v4TileChunks) with hoff | hoff
  · rw [readV5, if_pos hoff, if_neg (Nat.not_le.mpr hoff), Option.getD_some]
  · rw [readV5, if_neg (Nat.not_lt.mpr hoff), if_pos hoff, Option.getD_none]

section

variable (hw : idx.nChunks / v4TileChunks ≠ 0) (hp : padTiles ≠ 0)
  (hps : v5PadSteps (idx.nChunks / v4TileChunks) padTiles = .ok padSteps)

include hw hp hps

theorem buildProofV5_eq (tier : UInt8) : buildProofV5 blake tier seed idx padSeed padTiles =
    .ok (proofOf blake tier idx (offsetsV5 seed idx padSeed padTiles padSteps),
      finalV5 blake seed idx padSeed padTiles padSteps) := by
  rw [← foldl_proofOf]
  apply walk_of_draws _ hw hp hps
  intro proof i off _
  by_cases hoff : off < idx.nChunks / v4TileChunks
  · simp only [readV5, if_pos hoff]
    exact ⟨_, rfl, Option.getD_some⟩
  · simp only [readV5, if_neg hoff]
    exact ⟨_, rfl, Option.getD_none⟩

theorem walkFinalV5_eq : walkFinalV5 blake seed idx padSeed padTiles =
    .ok (finalV5 blake seed idx padSeed padTiles padSteps) := by
  rw [walkFinalV5, walk_of_draws (fun f _ => f) hw hp hps]
  · rfl
  · intro f i off _
    exact ⟨_, rfl, getD_readV5 ..⟩

theorem drawnOffsetsV5_eq : drawnOffsetsV5 blake seed idx padSeed padTiles =
    .ok (offsetsV5 seed idx padSeed padTiles padSteps) := by
  rw [drawnOffsetsV5, walk_of_draws (fun offs off => offs ++ [off]) hw hp hps, foldl_concat]
  · rfl
  · intro f i off _
    exact ⟨_, rfl, getD_readV5 ..⟩

/-- The proof of the miner is accepted with the state of its walk. -/
theorem verifyProofV5_eq (tier : UInt8) (h : idx.Built blake) (h6 : 32 < idx.nChunks) :
    verifyProofV5 blake seed
        (proofOf blake tier idx (offsetsV5 seed idx padSeed padTiles padSteps)) idx.rT idx.nChunks
        padSeed padTiles = .ok (finalV5 blake seed idx padSeed padTiles padSteps) := by
  rw [verifyProofV5_ok, walk_of_draws (fun f _ => f) hw hp hps]
  · rw [proofOf, List.length_map, List.length_map, offsetsV5, length_draws]
    exact ⟨⟨rfl, rfl⟩, rfl⟩
  · intro f i off hoff
    have htile := tiles_proofOf blake tier idx hoff
    have hpath := path_proofOf blake tier idx hoff
    rcases Nat.lt_or_ge off (idx.nChunks / v4TileChunks) with hlt | hge
    · rw [if_pos hlt] at htile hpath
      refine ⟨_, (verifyFetchV5_weight hlt).mpr ⟨?_, ?_, rfl⟩, ?_⟩
      · rw [htile, WeightIndex.length_tile]
      · rw [htile, hpath]
        exact WeightIndex.verifyMerkle_tile h hlt h6
      · rw [readV5, if_pos hlt, htile, Option.getD_some]
    · have hge' := Nat.not_lt.mpr hge
      rw [if_neg hge'] at htile hpath
      refine ⟨_, (verifyFetchV5_pad hge).mpr ⟨htile, hpath, rfl⟩, ?_⟩
      rw [readV5, if_neg hge', Option.getD_none]

end

theorem weightTiles_ne_zero (h6 : 32 < idx.nChunks) : idx.nChunks / v4TileChunks ≠ 0 := by
  change idx.nChunks / 32 ≠ 0
  omega

/-- The miner's proof, its check before it is sent and the walk agree. -/
theorem buildProofV5_accepted (blake : List UInt8 → Bytes32) (tensors : List (List UInt8))
    (idx : WeightIndex) (tier : UInt8) (seed : UInt64) (padSeed : Bytes32) (padTiles : Nat)
    (h : WeightIndex.build blake tensors = some idx) (h6 : 32 < idx.nChunks) (hpad : 1 ≤ padTiles)
    (hfit : idx.nChunks / v4TileChunks + padTiles < 2 ^ 64) :
    ∃ proof fs offs padSteps,
      buildProofV5 blake tier seed idx padSeed padTiles = .ok (proof, fs) ∧
      verifyProofV5 blake seed proof idx.rT idx.nChunks padSeed padTiles = .ok fs ∧
      walkFinalV5 blake seed idx padSeed padTiles = .ok fs ∧
      drawnOffsetsV5 blake seed idx padSeed padTiles = .ok offs ∧
      v5PadSteps (idx.nChunks / v4TileChunks) padTiles = .ok padSteps ∧
      offs.length = v4K ∧
      proof.tiles =
        offs.map (fun off => if off < idx.nChunks / v4TileChunks then idx.tile off else []) ∧
      proof.tiles.countP (·.isEmpty) = padSteps ∧
      proof.tiles.head?.map (·.isEmpty) = some false ∧
      ∀ off ∈ offs, off < idx.nChunks / v4TileChunks + padTiles := by
  have hb := WeightIndex.build_built h
  have hw := weightTiles_ne_zero h6
  have hp : padTiles ≠ 0 := by omega
  obtain ⟨padSteps, hps⟩ : ∃ padSteps,
      v5PadSteps (idx.nChunks / v4TileChunks) padTiles = .ok padSteps := by
    rw [v5PadSteps, Nat.mod_eq_of_lt hfit]
    exact ⟨_, if_neg (Nat.add_pos_right _ hpad).ne'⟩
  have hps255 := (v5PadSteps_bounds hps).2
  have hempty (off : Nat) : (if off < idx.nChunks / v4TileChunks then idx.tile off else []).isEmpty =
      decide (idx.nChunks / v4TileChunks ≤ off) := by
    rcases Nat.lt_or_ge off (idx.nChunks / v4TileChunks) with hoff | hoff
    · have hne : idx.tile off ≠ [] := by
        rw [← List.length_pos_iff, WeightIndex.length_tile]
        decide
      rw [if_pos hoff, List.isEmpty_eq_false_iff.mpr hne, decide_eq_false (Nat.not_le.mpr hoff)]
    · rw [if_neg (Nat.not_lt.mpr hoff), decide_eq_true hoff]
      rfl
  refine ⟨_, _, _, padSteps, buildProofV5_eq hw hp hps tier, verifyProofV5_eq hw hp hps tier hb h6,
    walkFinalV5_eq hw hp hps, drawnOffsetsV5_eq hw hp hps, hps, length_draws, rfl, ?_, ?_, ?_⟩
  · have hcomp : (fun tile : List UInt8 => tile.isEmpty) ∘
        (fun off => if off < idx.nChunks / v4TileChunks then idx.tile off else []) =
        fun off => decide (idx.nChunks / v4TileChunks ≤ off) := funext hempty
    rw [proofOf, List.countP_map, hcomp, countP_offsetsV5 hw hp hfit hps255]
  · have hfirst : (offsetsV5 seed idx padSeed padTiles padSteps).head? =
        some (v5FirstOffset seed (idx.nChunks / v4TileChunks)) := rfl
    have hlt : v5FirstOffset seed (idx.nChunks / v4TileChunks) < idx.nChunks / v4TileChunks :=
      Nat.mod_lt _ (Nat.pos_of_ne_zero hw)
    rw [proofOf, List.head?_map, hfirst, Option.map_some, Option.map_some, hempty,
      decide_eq_false (Nat.not_le.mpr hlt)]
  · intro off hoff
    obtain ⟨i, hi⟩ := List.mem_iff_getElem?.mp hoff
    exact (offsetsV5_bounds hw hp hfit hps255 hi).1

/-! ## The fourth walk -/

section

variable {proof : PomProofV4} {fs : UInt64}

theorem v4FirstOffset_lt {nTiles : Nat} (h : nTiles ≠ 0) : v4FirstOffset seed nTiles < nTiles :=
  Nat.mod_lt _ (Nat.pos_of_ne_zero h)

/-- The fourth walk draws tiles of the index only. -/
theorem draws_v4_lt {nTiles i off : Nat} {read : Nat → Nat → List UInt8} (h : nTiles ≠ 0)
    (hoff : ((v4Walk seed nTiles).draws read v4K 0 (v4InitialState seed)
      (v4FirstOffset seed nTiles))[i]? = some off) : off < nTiles := by
  apply draws_forall (P := fun _ b => b < nTiles) (v4FirstOffset_lt h) _ _ _ hoff
  intro j state tile b hj
  rw [Nat.zero_add] at hj
  simp only [v4Walk, if_pos hj]
  exact Nat.mod_lt _ (Nat.pos_of_ne_zero h)

theorem verifyProofV4_ok {rT : Bytes32} {nChunks : Nat} :
    verifyProofV4 blake seed proof rT nChunks = .ok fs ↔
      (proof.tiles.length = v4K ∧ proof.merkle.length = v4K) ∧ nChunks / v4TileChunks ≠ 0 ∧
        v4Run blake seed (nChunks / v4TileChunks) (fun () => verifyFetchV4 blake proof rT) () =
          .ok ((), fs) := by
  rw [verifyProofV4, check_ok, not_or, not_not, not_not, check_ok]
  dsimp only
  generalize v4Run blake seed (nChunks / v4TileChunks) _ () = run
  cases run with
  | error e => simp [bind, Except.bind]
  | ok p => simp [bind, Except.bind, pure, Except.pure, Prod.ext_iff]

theorem v4Run_eq {σ : Type} {nTiles : Nat} {fetch : σ → Nat → Nat → Except String (σ × List UInt8)}
    (f : σ) : v4Run blake seed nTiles fetch f =
      ((v4Walk seed nTiles).run fetch v4K 0 f (v4InitialState seed)
        (v4FirstOffset seed nTiles)).map fun (f, state) => (f, fold64 (v4StateRoot blake state)) :=
  rfl

/-- The offsets which the fourth walk draws. -/
def offsetsV4 (seed : UInt64) (idx : WeightIndex) : List Nat :=
  (v4Walk seed (idx.nChunks / v4TileChunks)).draws (fun _ => idx.tile) v4K 0 (v4InitialState seed)
    (v4FirstOffset seed (idx.nChunks / v4TileChunks))

/-- The state at the end of the fourth walk. -/
def finalV4 (blake : List UInt8 → Bytes32) (seed : UInt64) (idx : WeightIndex) : UInt64 :=
  fold64 (v4StateRoot blake ((v4Walk seed (idx.nChunks / v4TileChunks)).last (fun _ => idx.tile) v4K 0
    (v4InitialState seed) (v4FirstOffset seed (idx.nChunks / v4TileChunks))))

/-- The walk of `walk_final_v4` with its offsets kept. -/
def drawnOffsetsV4 (blake : List UInt8 → Bytes32) (seed : UInt64) (idx : WeightIndex) :
    Except String (List Nat) := do
  let nTiles := idx.nChunks / v4TileChunks
  if nTiles = 0 then throw "blob too small for the v4 walk"
  let (offs, _) ← v4Run blake seed nTiles (fun offs _ off => .ok (offs ++ [off], idx.tile off)) []
  return offs

theorem v4Run_of_draws {σ : Type} {fetch : σ → Nat → Nat → Except String (σ × List UInt8)}
    (push : σ → Nat → σ) (hfetch : ∀ f i off, (offsetsV4 seed idx)[i]? = some off →
      fetch f i off = .ok (push f off, idx.tile off)) (f : σ) :
    v4Run blake seed (idx.nChunks / v4TileChunks) fetch f =
      .ok ((offsetsV4 seed idx).foldl push f, finalV4 blake seed idx) := by
  rw [v4Run_eq, run_of_draws (fun _ => idx.tile) push]
  · rfl
  · intro f i off hoff
    rw [Nat.zero_add]
    exact hfetch f i off hoff

/-- The proof over the tiles of a walk of weight tiles. -/
def proofOfV4 (blake : List UInt8 → Bytes32) (tier : UInt8) (idx : WeightIndex) (offs : List Nat) :
    PomProofV4 where
  tier
  tiles := offs.map idx.tile
  merkle := offs.map fun off => ⟨idx.tilePath blake off⟩

theorem tiles_proofOfV4 (blake : List UInt8 → Bytes32) (tier : UInt8) (idx : WeightIndex)
    {offs : List Nat} {i off : Nat} (h : offs[i]? = some off) :
    (proofOfV4 blake tier idx offs).tiles.getD i [] = idx.tile off := by
  rw [proofOfV4, List.getD_eq_getElem?_getD, List.getElem?_map, h]
  rfl

theorem path_proofOfV4 (blake : List UInt8 → Bytes32) (tier : UInt8) (idx : WeightIndex)
    {offs : List Nat} {i off : Nat} (h : offs[i]? = some off) :
    ((proofOfV4 blake tier idx offs).merkle.getD i ⟨[]⟩).path = idx.tilePath blake off := by
  rw [proofOfV4, List.getD_eq_getElem?_getD, List.getElem?_map, h]
  rfl

section

variable (hw : idx.nChunks / v4TileChunks ≠ 0)

include hw

theorem walkFinalV4_eq : walkFinalV4 blake seed idx = .ok (finalV4 blake seed idx) := by
  rw [walkFinalV4, if_neg hw, v4Run_of_draws (fun f _ => f)]
  · rfl
  · intro f i off _
    rfl

theorem drawnOffsetsV4_eq : drawnOffsetsV4 blake seed idx = .ok (offsetsV4 seed idx) := by
  rw [drawnOffsetsV4, if_neg hw, v4Run_of_draws (fun offs off => offs ++ [off]), foldl_concat]
  · rfl
  · intro f i off _
    rfl

theorem buildProofV4_eq (tier : UInt8) : buildProofV4 blake tier seed idx =
    .ok (proofOfV4 blake tier idx (offsetsV4 seed idx), finalV4 blake seed idx) := by
  have hfoldl (offs : List Nat) : offs.foldl (fun proof off =>
      { proof with tiles := proof.tiles ++ [idx.tile off]
                   merkle := proof.merkle ++ [⟨idx.tilePath blake off⟩] })
      (PomProofV4.mk tier [] []) = proofOfV4 blake tier idx offs := by
    induction offs using List.reverseRecOn with
    | nil => rfl
    | append_singleton offs off ih =>
      simp only [List.foldl_append, ih, proofOfV4, List.map_append, List.foldl_cons, List.foldl_nil,
        List.map_cons, List.map_nil]
  rw [buildProofV4, if_neg hw, ← hfoldl]
  apply v4Run_of_draws
  intro proof i off _
  rfl

/-- The proof of the miner over the fourth walk is accepted with the state of its walk. -/
theorem verifyProofV4_eq (tier : UInt8) (h : idx.Built blake) (h6 : 32 < idx.nChunks) :
    verifyProofV4 blake seed (proofOfV4 blake tier idx (offsetsV4 seed idx)) idx.rT idx.nChunks =
      .ok (finalV4 blake seed idx) := by
  rw [verifyProofV4_ok, v4Run_of_draws (fun f _ => f)]
  · rw [proofOfV4, List.length_map, List.length_map, offsetsV4, length_draws]
    exact ⟨⟨rfl, rfl⟩, hw, rfl⟩
  · intro f i off hoff
    rw [verifyFetchV4_ok, tiles_proofOfV4 blake tier idx hoff, path_proofOfV4 blake tier idx hoff]
    exact ⟨WeightIndex.length_tile,
      WeightIndex.verifyMerkle_tile h (draws_v4_lt hw hoff) h6, rfl⟩

end

end

/-- A tensor of 33 chunks. -/
@[irreducible] def zeroTensor : List UInt8 := List.replicate 1056 0

theorem length_chunksOf_zeroTensor : (chunksOf zeroTensor).length = 33 := by
  rw [chunksOf, List.length_map, List.length_range, zeroTensor, List.length_replicate]

theorem build_zeroTensor (blake : List UInt8 → Bytes32) : WeightIndex.build blake [zeroTensor] =
    some (WeightIndex.indexOf blake (chunksOf zeroTensor)) := by
  have hchunks : [zeroTensor].flatMap chunksOf = chunksOf zeroTensor := List.flatMap_singleton ..
  rw [WeightIndex.build_of_ne_nil, hchunks]
  rw [hchunks, ← List.length_pos_iff, length_chunksOf_zeroTensor]
  decide

theorem nChunks_zeroTensor (blake : List UInt8 → Bytes32) :
    (WeightIndex.indexOf blake (chunksOf zeroTensor)).nChunks = 33 := by
  simp only [WeightIndex.indexOf, List.length_map, length_chunksOf_zeroTensor]

theorem buildProofV5_accepted_one :
    let idx := WeightIndex.indexOf WeightIndex.lengthHash (chunksOf zeroTensor)
    ∃ proof fs offs padSteps,
      buildProofV5 WeightIndex.lengthHash 1 7 idx default 1 = .ok (proof, fs) ∧
      verifyProofV5 WeightIndex.lengthHash 7 proof idx.rT idx.nChunks default 1 = .ok fs ∧
      walkFinalV5 WeightIndex.lengthHash 7 idx default 1 = .ok fs ∧
      drawnOffsetsV5 WeightIndex.lengthHash 7 idx default 1 = .ok offs ∧
      v5PadSteps (idx.nChunks / v4TileChunks) 1 = .ok padSteps ∧
      offs.length = v4K ∧
      proof.tiles =
        offs.map (fun off => if off < idx.nChunks / v4TileChunks then idx.tile off else []) ∧
      proof.tiles.countP (·.isEmpty) = padSteps ∧
      proof.tiles.head?.map (·.isEmpty) = some false ∧
      ∀ off ∈ offs, off < idx.nChunks / v4TileChunks + 1 := by
  intro idx
  have hn : idx.nChunks = 33 := nChunks_zeroTensor _
  have hfit : idx.nChunks / v4TileChunks + 1 < 2 ^ 64 := by rw [hn]; decide
  exact buildProofV5_accepted _ _ idx 1 7 default 1 (build_zeroTensor _) (by omega) le_rfl hfit

/-- Without a pad there is no tile space, and a tile space of `2 ^ 64` tiles has size zero. -/
theorem buildProofV5_fails :
    (¬ ∀ blake tensors idx tier seed padSeed padTiles, WeightIndex.build blake tensors = some idx →
      32 < idx.nChunks → ∃ result, buildProofV5 blake tier seed idx padSeed padTiles = .ok result) ∧
    ¬ ∀ blake tensors idx tier seed padSeed padTiles, WeightIndex.build blake tensors = some idx →
      32 < idx.nChunks → 1 ≤ padTiles → padTiles < 2 ^ 64 →
      ∃ result, buildProofV5 blake tier seed idx padSeed padTiles = .ok result := by
  have hn := nChunks_zeroTensor WeightIndex.lengthHash
  have hbuild := build_zeroTensor WeightIndex.lengthHash
  constructor
  · intro h
    obtain ⟨result, hresult⟩ := h _ _ _ 1 7 default 0 hbuild (by omega)
    rw [buildProofV5, walk, if_pos (.inr rfl)] at hresult
    cases hresult
  · intro h
    obtain ⟨result, hresult⟩ := h _ _ _ 1 7 default (2 ^ 64 - 1) hbuild (by omega) (by decide)
      (by decide)
    have hn' : (WeightIndex.indexOf WeightIndex.lengthHash (chunksOf zeroTensor)).nChunks /
        v4TileChunks = 1 := by rw [hn]; decide
    have hsteps : v5PadSteps 1 (2 ^ 64 - 1) = .error "attempt to divide by zero" := rfl
    have hcheck : ¬ (1 = 0 ∨ 2 ^ 64 - 1 = 0) := by decide
    rw [buildProofV5, hn', walk, if_neg hcheck, hsteps] at hresult
    cases hresult

end KeryxMiner.Pom
