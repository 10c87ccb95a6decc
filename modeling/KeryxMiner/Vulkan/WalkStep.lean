import KeryxMiner.Pom.Proofs
import KeryxMiner.Vulkan.WalkV4

/-!
# One step of the walk shader

The arithmetic of the shader is that of the host: the product in halves, the remainder by a
reciprocal, the reduction to a byte on 24 bits and the packed products. Over a memory that has the
columns of a tile an invocation computes its row of the host's next state and the host's next offset.
-/

namespace KeryxMiner.Vulkan

open Pom

variable {pc : WalkPush} {look : UInt64 → ChunkWords} {seed a b n x : UInt64}

/-! ## Arithmetic -/

theorem umulExtended_spec (a b : UInt32) :
    (umulExtended a b).1.toNat * 2 ^ 32 + (umulExtended a b).2.toNat = a.toNat * b.toNat ∧
      (umulExtended a b).2.toNat < 2 ^ 32 := by
  have hprod : a.toNat * b.toNat < 2 ^ 64 := by
    calc a.toNat * b.toNat ≤ (2 ^ 32 - 1) * (2 ^ 32 - 1) :=
          Nat.mul_le_mul (Nat.le_pred_of_lt a.toNat_lt) (Nat.le_pred_of_lt b.toNat_lt)
      _ < 2 ^ 64 := by decide
  have hp : (a.toUInt64 * b.toUInt64).toNat = a.toNat * b.toNat := by
    rw [UInt64.toNat_mul, UInt32.toNat_toUInt64, UInt32.toNat_toUInt64, Nat.mod_eq_of_lt hprod]
  have h32 : (32 : UInt64).toNat % 64 = 32 := rfl
  rw [umulExtended]
  dsimp only
  rw [UInt64.toNat_toUInt32, UInt64.toNat_toUInt32, UInt64.toNat_shiftRight, h32,
    Nat.shiftRight_eq_div_pow, hp]
  omega

theorem toNat_toUInt64_add3 (a b c : UInt32) :
    (a.toUInt64 + b.toUInt64 + c.toUInt64).toNat = a.toNat + b.toNat + c.toNat := by
  have ha : a.toNat < 2 ^ 32 := a.toNat_lt
  have hb : b.toNat < 2 ^ 32 := b.toNat_lt
  have hc : c.toNat < 2 ^ 32 := c.toNat_lt
  rw [UInt64.toNat_add, UInt64.toNat_add, UInt32.toNat_toUInt64, UInt32.toNat_toUInt64,
    UInt32.toNat_toUInt64]
  omega

/-- The high word of the product of two words, from the products of their halves. -/
theorem toNat_mulhi64 (a b : UInt64) : (mulhi64 a b).toNat = a.toNat * b.toNat / 2 ^ 64 := by
  have h32 : (32 : UInt64).toNat % 64 = 32 := rfl
  have hab : a.toNat * b.toNat < 2 ^ 64 * 2 ^ 64 :=
    Nat.mul_lt_mul_of_lt_of_lt a.toNat_lt b.toNat_lt
  have ha := toNat_eq_halves a
  have hb := toNat_eq_halves b
  rw [mulhi64]
  dsimp only
  generalize a.toUInt32 = a0, (a >>> 32).toUInt32 = a1, b.toUInt32 = b0,
    (b >>> 32).toUInt32 = b1 at ha hb ⊢
  obtain ⟨h00, hl00⟩ := umulExtended_spec a0 b0
  obtain ⟨h01, hl01⟩ := umulExtended_spec a0 b1
  obtain ⟨h10, hl10⟩ := umulExtended_spec a1 b0
  obtain ⟨h11, hl11⟩ := umulExtended_spec a1 b1
  have hprod : a.toNat * b.toNat = a1.toNat * b1.toNat * (2 ^ 32 * 2 ^ 32) +
      (a0.toNat * b1.toNat + a1.toNat * b0.toNat) * 2 ^ 32 + a0.toNat * b0.toNat := by
    rw [ha, hb, Nat.add_comm a0.toNat, Nat.add_comm b0.toNat, product_halves]
  have hhi : ((umulExtended a1 b1).1.toUInt64 <<< 32 ||| (umulExtended a1 b1).2.toUInt64).toNat =
      a1.toNat * b1.toNat := by
    rw [UInt64.or_comm, toNat_halves, Nat.add_comm]
    exact h11
  have hmid := toNat_toUInt64_add3 (umulExtended a0 b0).1 (umulExtended a0 b1).2
    (umulExtended a1 b0).2
  generalize (umulExtended a0 b0).1.toUInt64 + (umulExtended a0 b1).2.toUInt64 +
    (umulExtended a1 b0).2.toUInt64 = mid at hmid ⊢
  rw [UInt64.toNat_add, UInt64.toNat_add, UInt64.toNat_add, hhi, UInt32.toNat_toUInt64,
    UInt32.toNat_toUInt64, UInt64.toNat_shiftRight, h32, Nat.shiftRight_eq_div_pow, hmid]
  rw [hprod] at hab ⊢
  generalize a1.toNat * b1.toNat = p11, a0.toNat * b1.toNat = p01, a1.toNat * b0.toNat = p10,
    a0.toNat * b0.toNat = p00 at *
  have hsum : p11 + (umulExtended a0 b1).1.toNat + (umulExtended a1 b0).1.toNat +
      ((umulExtended a0 b0).1.toNat + (umulExtended a0 b1).2.toNat + (umulExtended a1 b0).2.toNat) /
        2 ^ 32 = (p11 * (2 ^ 32 * 2 ^ 32) + (p01 + p10) * 2 ^ 32 + p00) / 2 ^ 64 := by
    clear h11 hhi hmid hab ha hb hprod
    omega
  have hlt := Nat.div_lt_of_lt_mul hab
  rw [← hsum] at hlt ⊢
  have hhigh := (Nat.le_add_right _ _).trans_lt hlt
  rw [Nat.mod_eq_of_lt ((Nat.le_add_right _ _).trans_lt hhigh), Nat.mod_eq_of_lt hhigh,
    Nat.mod_eq_of_lt hlt]

/-- A remainder with a rounded reciprocal, corrected once. -/
theorem toNat_modBy (hn : n ≠ 0) (x : UInt64) :
    (modBy (0xffffffffffffffff / n) n x).toNat = x.toNat % n.toNat := by
  have hpos : 0 < n.toNat := Nat.pos_of_ne_zero fun h => hn (UInt64.toNat_inj.mp h)
  have hq : (mulhi64 x (0xffffffffffffffff / n)).toNat =
      x.toNat * ((2 ^ 64 - 1) / n.toNat) / 2 ^ 64 := by
    rw [toNat_mulhi64, UInt64.toNat_div]
    rfl
  obtain ⟨hle, hlt⟩ := reciprocal_spec hpos x.toNat_lt
  have hmod := reciprocal_mod hpos x.toNat_lt
  rw [← hq] at hle hlt hmod
  rw [modBy]
  generalize mulhi64 x (0xffffffffffffffff / n) = q at *
  have hqn : (q * n).toNat = q.toNat * n.toNat := by
    rw [UInt64.toNat_mul]
    exact Nat.mod_eq_of_lt (hle.trans_lt x.toNat_lt)
  have hr : (x - q * n).toNat = x.toNat - q.toNat * n.toNat := by
    rw [UInt64.toNat_sub_of_le _ _ (UInt64.le_iff_toNat_le.mpr (hqn ▸ hle)), hqn]
  rw [← hmod, ← hr]
  split
  · next hge =>
    rw [if_pos (UInt64.le_iff_toNat_le.mp hge), UInt64.toNat_sub_of_le _ _ hge]
  · next hge => rw [if_neg fun h => hge (UInt64.le_iff_toNat_le.mpr h)]

theorem toNat_and_low (z : UInt32) {k : Nat} {m : UInt32} (hm : m.toNat = 2 ^ k - 1) :
    (z &&& m).toNat = z.toNat % 2 ^ k := by
  rw [UInt32.toNat_and, hm, Nat.and_two_pow_sub_one_eq_mod]

/-- Only the low 24 bits of the factors of the second product reach the byte. -/
theorem rho8_eq (hzero : pc.zero = 0) (acc : Int) (tweak : UInt32) :
    rho8 pc acc tweak = (Pom.rho8 acc tweak).toUInt32 := by
  have h13 : (13 : UInt32).toNat % 32 = 13 := rfl
  rw [rho8, Pom.rho8, hzero]
  generalize (UInt32.ofInt acc ^^^ tweak) * 0x9E3779B9 = y
  generalize y ^^^ y >>> 16 = z
  have hlow : (bitfieldExtract z 0 24).toNat = z.toNat % 2 ^ 24 := toNat_and_low (z >>> 0) rfl
  have hconst : ((0x85EBCA6B : UInt32) &&& 0xFFFFFF).toNat = (0x85EBCA6B : UInt32).toNat % 2 ^ 24 := rfl
  have hprod : (bitfieldExtract z 0 24 * (0x85EBCA6B &&& 0xFFFFFF)).toNat % 2 ^ (8 + 13) =
      (z * 0x85EBCA6B).toNat % 2 ^ (8 + 13) := by
    rw [UInt32.toNat_mul, UInt32.toNat_mul, hlow, hconst,
      Nat.mod_mod_of_dvd _ (by decide : 2 ^ (8 + 13) ∣ 2 ^ 32),
      Nat.mod_mod_of_dvd _ (by decide : 2 ^ (8 + 13) ∣ 2 ^ 32),
      ← Nat.mod_mod_of_dvd _ (by decide : 2 ^ (8 + 13) ∣ 2 ^ 24), mul_mod_two_pow,
      Nat.mod_mod_of_dvd _ (by decide : 2 ^ (8 + 13) ∣ 2 ^ 24)]
  generalize bitfieldExtract z 0 24 * (0x85EBCA6B &&& 0xFFFFFF) = z', z * 0x85EBCA6B = z'' at *
  rw [← UInt32.toNat_inj, UInt8.toNat_toUInt32, UInt32.toNat_toUInt8,
    toNat_and_low _ (k := 8) rfl, toNat_and_low _ (k := 8) rfl, Nat.mod_mod, UInt32.toNat_xor,
    UInt32.toNat_xor, UInt32.toNat_shiftRight, UInt32.toNat_shiftRight, h13]
  exact xorShift_mod_two_pow hprod

/-! ## Packed dot products -/

section

variable {row col row' col' : List UInt8} {ws vs : List UInt32} {acc : Int} {u v : UInt32}

theorem dotI8_append (h : row.length = col.length) :
    dotI8 (row ++ row') (col ++ col') = dotI8 row col + dotI8 row' col' := by
  rw [dotI8, List.zip_append h, List.map_append, List.sum_append]
  rfl

theorem dotI8_cons {r c : UInt8} :
    dotI8 (r :: row) (c :: col) = r.toInt8.toInt * c.toInt8.toInt + dotI8 row col := by
  rw [dotI8, List.zip_cons_cons, List.map_cons, List.sum_cons]
  rfl

/-- A product of signed bytes. -/
theorem mul_toInt_bounds (r c : UInt8) :
    -2 ^ 14 ≤ r.toInt8.toInt * c.toInt8.toInt ∧ r.toInt8.toInt * c.toInt8.toInt ≤ 2 ^ 14 := by
  have hr := r.toInt8.le_toInt
  have hr' := r.toInt8.toInt_lt
  have hc := c.toInt8.le_toInt
  have hc' := c.toInt8.toInt_lt
  constructor <;> nlinarith

theorem dotI8_bounds (row col : List UInt8) :
    -(row.length * 2 ^ 14 : Int) ≤ dotI8 row col ∧ dotI8 row col ≤ row.length * 2 ^ 14 := by
  induction row generalizing col with
  | nil => simp [dotI8]
  | cons r row ih =>
    cases col with
    | nil => simp [dotI8]
    | cons c col =>
      obtain ⟨hlow, hhigh⟩ := ih col
      obtain ⟨hlow', hhigh'⟩ := mul_toInt_bounds r c
      rw [dotI8_cons, List.length_cons]
      push_cast
      omega

theorem sum_signed4x8 (u v : UInt32) :
    (List.zipWith (· * ·) (signed4x8 u) (signed4x8 v)).sum = dotI8 (wordBytes32 u) (wordBytes32 v) := by
  rw [signed4x8, signed4x8, List.zipWith_map, ← List.map_uncurry_zip_eq_zipWith]
  rfl

/-- The sum never saturates. -/
theorem dotPacked4x8AccSat_eq (hlow : -2 ^ 30 ≤ acc) (hhigh : acc ≤ 2 ^ 30) :
    dotPacked4x8AccSat u v acc = acc + dotI8 (wordBytes32 u) (wordBytes32 v) := by
  obtain ⟨hlow', hhigh'⟩ := dotI8_bounds (wordBytes32 u) (wordBytes32 v)
  rw [length_wordBytes32] at hlow' hhigh'
  rw [dotPacked4x8AccSat, sum_signed4x8]
  push_cast at hlow' hhigh'
  omega

theorem foldl_dotPacked (hlen : ws.length = vs.length) (hlow : -2 ^ 30 ≤ acc - ws.length * 2 ^ 16)
    (hhigh : acc + ws.length * 2 ^ 16 ≤ 2 ^ 30) :
    (ws.zip vs).foldl (fun acc p => dotPacked4x8AccSat p.1 p.2 acc) acc =
      acc + dotI8 (wordsBytes ws) (wordsBytes vs) := by
  induction ws generalizing vs acc with
  | nil => simp [dotI8]
  | cons w ws ih =>
    cases vs with
    | nil => cases hlen
    | cons v vs =>
      obtain ⟨hlow', hhigh'⟩ := dotI8_bounds (wordBytes32 w) (wordBytes32 v)
      rw [length_wordBytes32] at hlow' hhigh'
      rw [List.length_cons] at hlow hhigh
      push_cast at hlow hhigh hlow' hhigh'
      have hw : (wordBytes32 w).length = (wordBytes32 v).length := by
        rw [length_wordBytes32, length_wordBytes32]
      rw [List.zip_cons_cons, List.foldl_cons]
      dsimp only
      rw [dotPacked4x8AccSat_eq (by omega) (by omega), ih (Nat.succ.inj hlen) (by omega) (by omega),
        wordsBytes_cons, wordsBytes_cons, dotI8_append hw, Int.add_assoc]

end

/-! ## One step -/

section

variable {mem : Vector UInt32 512} {tile state : List UInt8} {row4 : List UInt32} {s : Slot}
  {step : UInt32} {j : Nat}

/-- The memory has the columns of the tile. -/
def TileIn (mem : Vector UInt32 512) (tile : List UInt8) : Prop :=
  ∀ j < 32, wordsBytes (load mem (j * 8) 8) = slice32 tile j

theorem length_columnWords (w : ChunkWords) : (columnWords w).length = 8 := rfl

theorem tileIn_storeRows (h : ∀ x, wordsBytes (columnWords (s.inv x).w) = slice32 tile x) :
    TileIn (storeRows s.mem 0 8 fun x => columnWords (s.inv x).w) tile := by
  intro j hj
  have hload : load (storeRows s.mem 0 8 fun x => columnWords (s.inv x).w) (0 + j * 8) 8 =
      columnWords (s.inv ⟨j, hj⟩).w :=
    load_storeRows (fun x => length_columnWords _) (by decide) ⟨j, hj⟩
  rw [Nat.zero_add] at hload
  rw [hload, h]

theorem dotColumn_eq (hmem : TileIn mem tile) (hrow : row4.length = 8) (hj : j < 32) :
    dotColumn mem row4 j = dotI8 (wordsBytes row4) (slice32 tile j) := by
  have hlen : row4.length = (load mem (j * 8) 8).length := by
    rw [hrow, length_load (by omega)]
  rw [dotColumn, foldl_dotPacked hlen (by rw [hrow]; decide) (by rw [hrow]; decide), Int.zero_add,
    hmem j hj]

/-- The byte `j` of the next row. -/
def nextByte (row tile : List UInt8) (step : UInt32) (x j : Nat) : UInt8 :=
  Pom.rho8 (dotI8 row (slice32 tile j)) (rhoTweak step (UInt32.ofNat x) (UInt32.ofNat j))

theorem wordBytes32_nextWord (hzero : pc.zero = 0) (hmem : TileIn mem tile) (hrow : row4.length = 8)
    {x j4 : Nat} (hj4 : j4 < 8) :
    wordBytes32 (nextWord pc mem row4
      (step * 0x9E3779B9 + UInt32.ofNat x * 0xC2B2AE35) j4) =
      (List.range 4).map fun jj => nextByte (wordsBytes row4) tile step x (j4 * 4 + jj) := by
  have hr : ∀ jj < 4, rho8 pc (dotColumn mem row4 (j4 * 4 + jj))
      (step * 0x9E3779B9 + UInt32.ofNat x * 0xC2B2AE35 + UInt32.ofNat (j4 * 4 + jj) * 0x85EBCA6B) =
      (nextByte (wordsBytes row4) tile step x (j4 * 4 + jj)).toUInt32 := by
    intro jj hjj
    rw [rho8_eq hzero, dotColumn_eq hmem hrow (by omega)]
    rfl
  rw [nextWord]
  dsimp only
  rw [hr 0 (by decide), hr 1 (by decide), hr 2 (by decide), hr 3 (by decide), wordBytes32_pack]
  rfl

theorem wordsBytes_nextRow (hzero : pc.zero = 0) (hmem : TileIn mem tile) (hrow : row4.length = 8)
    {x : Nat} : wordsBytes (nextRow pc mem row4 (step * 0x9E3779B9 + UInt32.ofNat x * 0xC2B2AE35)) =
      (List.range 32).map (nextByte (wordsBytes row4) tile step x) := by
  have hflat : (List.range 32).map (nextByte (wordsBytes row4) tile step x) =
      (List.range 8).flatMap fun j4 => (List.range 4).map fun jj =>
        nextByte (wordsBytes row4) tile step x (j4 * 4 + jj) := rfl
  rw [hflat, nextRow, wordsBytes, List.flatMap_map]
  apply List.flatMap_congr
  intro j4 hj4
  exact wordBytes32_nextWord hzero hmem hrow (List.mem_range.mp hj4)

/-- Row `x` of the next state. -/
theorem slice32_v4Transition {x : Nat} (hx : x < 32) : slice32 (v4Transition state tile step) x =
    (List.range 32).map (nextByte (slice32 state x) tile step x) :=
  block_flatMap (fun i _ => by rw [List.length_map, List.length_range]) hx

/-! ## The next tile -/

theorem foldl_words {β : Type} {f : β → UInt64 → β} {ws : List UInt32} {z : β} :
    ws.foldl (fun acc w => f acc w.toUInt64) z =
      (List.range ws.length).foldl
        (fun acc i => f acc (UInt64.ofNat (ofLe (block 4 (wordsBytes ws) i)))) z := by
  have hmap : ws.map (·.toUInt64) = (List.range ws.length).map
      fun i => UInt64.ofNat (ofLe (block 4 (wordsBytes ws) i)) := by
    apply List.ext_getElem
    · simp
    · intro i hi _
      rw [List.length_map] at hi
      rw [List.getElem_map, List.getElem_map, List.getElem_range, block_wordsBytes hi,
        ofLe_wordBytes32, ← UInt64.toNat_inj, UInt32.toNat_toUInt64, UInt64.toNat_ofNat_of_lt']
      exact (ws[i].toNat_lt).trans (by decide)
  rw [← List.foldl_map, hmap, List.foldl_map]

theorem snippetFold_eq (hmem : TileIn mem tile) :
    (load mem 0 8).foldl (fun sf w => mix64 (sf ^^^ w.toUInt64)) 0 =
      snippetFold (tile.take v4SnippetBytes) := by
  have hbytes : wordsBytes (load mem 0 8) = tile.take v4SnippetBytes := hmem 0 (by decide)
  have hlen : (load mem 0 8).length = 8 := length_load (by decide)
  rw [foldl_words (f := fun sf w => mix64 (sf ^^^ w)), hlen, hbytes]
  rfl

theorem foldl_xor_halves (h : Fin 32 → UInt64) (l : List (Fin 32)) (acc : UInt64) :
    l.foldl (fun acc x => acc ^^^ (h x).toUInt32) acc.toUInt32 =
        (l.foldl (fun acc x => acc ^^^ h x) acc).toUInt32 ∧
      l.foldl (fun acc x => acc ^^^ (h x >>> 32).toUInt32) (acc >>> 32).toUInt32 =
        (l.foldl (fun acc x => acc ^^^ h x) acc >>> 32).toUInt32 := by
  induction l generalizing acc with
  | nil => exact ⟨rfl, rfl⟩
  | cons x l ih =>
    obtain ⟨hlo, hhi⟩ := ih (acc ^^^ h x)
    simp only [List.foldl_cons]
    rw [← hlo, ← hhi, UInt64.toUInt32_xor, UInt64.shiftRight_xor, UInt64.toUInt32_xor]
    exact ⟨rfl, rfl⟩

/-- The first eight bytes of a row. -/
theorem word64_row (hrow : row4.length = 8) :
    (row4.getD 1 0).toUInt64 <<< 32 ||| (row4.getD 0 0).toUInt64 = word64 (wordsBytes row4) := by
  obtain ⟨lo, row4, rfl⟩ := List.exists_cons_of_length_eq_add_one hrow
  obtain ⟨hi, row4, rfl⟩ := List.exists_cons_of_length_eq_add_one (Nat.succ.inj hrow)
  have htake : (wordsBytes (lo :: hi :: row4)).take 8 = wordBytes32 lo ++ wordBytes32 hi := by
    rw [wordsBytes_cons, wordsBytes_cons, ← List.append_assoc]
    exact List.take_left' (by rw [List.length_append, length_wordBytes32, length_wordBytes32])
  have hlo : lo.toNat < 2 ^ 32 := lo.toNat_lt
  have hhi : hi.toNat < 2 ^ 32 := hi.toNat_lt
  have hlt : lo.toNat + 256 ^ 4 * hi.toNat < 2 ^ 64 := by omega
  rw [word64, htake, ofLe_append, ofLe_wordBytes32, ofLe_wordBytes32, length_wordBytes32,
    ← UInt64.toNat_inj, UInt64.toNat_ofNat_of_lt' hlt, UInt64.or_comm, Nat.mul_comm]
  exact toNat_halves lo hi

/-- The fold over the rows, in halves. -/
theorem v5StateFold_eq {inv : Fin 32 → Invocation} (hlen : ∀ x, (inv x).row4.length = 8)
    (hrow : ∀ x : Fin 32, wordsBytes (inv x).row4 = slice32 state x) :
    v5StateFold inv = Pom.v5StateFold state := by
  have hh : ∀ x : Fin 32, mix64 ((((inv x).row4.getD 1 0).toUInt64 <<< 32 |||
      ((inv x).row4.getD 0 0).toUInt64) ^^^ UInt64.ofNat x) =
      mix64 (word64 (slice32 state x) ^^^ UInt64.ofNat x) := by
    intro x
    rw [word64_row (hlen x), hrow x]
  rw [v5StateFold]
  dsimp only
  simp only [hh]
  obtain ⟨hlo, hhi⟩ := foldl_xor_halves
    (fun x => mix64 (word64 (slice32 state x) ^^^ UInt64.ofNat x)) (List.finRange 32) 0
  have hrange : List.range v4D = (List.finRange 32).map fun x => x.val := rfl
  have hlo' : clusteredXor (fun x =>
      (mix64 (word64 (slice32 state x) ^^^ UInt64.ofNat x)).toUInt32) = _ := hlo
  have hhi' : clusteredXor (fun x =>
      (mix64 (word64 (slice32 state x) ^^^ UInt64.ofNat x) >>> 32).toUInt32) = _ := hhi
  rw [hlo', hhi', halves_join, Pom.v5StateFold, hrange, List.foldl_map]

end

/-! ## The offsets -/

section

variable {w p k step : Nat} {rawIn : UInt64} {mem : Vector UInt32 512} {tile state : List UInt8}
  {inv : Fin 32 → Invocation}

/-- The push constants for `w` tiles of weights and `p` tiles of a pad. -/
def pushOf (w p : Nat) : WalkPush := walkPush (UInt64.ofNat w) (UInt64.ofNat p)

theorem toNat_ofNat_lt (h : w < 2 ^ 50) : (UInt64.ofNat w).toNat = w :=
  UInt64.toNat_ofNat_of_lt' (h.trans (by decide))

theorem ofNat_ne_zero (hpos : 0 < w) (h : w < 2 ^ 50) : UInt64.ofNat w ≠ 0 := by
  intro hzero
  rw [← UInt64.toNat_inj, toNat_ofNat_lt h] at hzero
  exact hpos.ne' hzero

theorem toNat_modTiles (hw : 0 < w) (hlt : w + p < 2 ^ 50) (x : UInt64) :
    (modTiles (pushOf w p) x).toNat = x.toNat % w := by
  have hmod := toNat_modBy (ofNat_ne_zero hw (by omega)) x
  rwa [toNat_ofNat_lt (by omega)] at hmod

theorem toNat_modPad (hp : 0 < p) (hlt : w + p < 2 ^ 50) (x : UInt64) :
    (modPad (pushOf w p) x).toNat = x.toNat % p := by
  have hne := ofNat_ne_zero hp (by omega : p < 2 ^ 50)
  have hmod := toNat_modBy hne x
  rw [toNat_ofNat_lt (by omega)] at hmod
  rw [modPad, pushOf, walkPush]
  dsimp only
  rwa [if_neg hne]

/-- Both hosts count the pad steps alike. -/
theorem toNat_hostPadSteps (hlt : w + p < 2 ^ 50) (hk : v5PadSteps w p = .ok k) :
    (hostPadSteps (UInt64.ofNat w) (UInt64.ofNat p)).toNat = k := by
  have hw : (UInt64.ofNat w).toNat = w := toNat_ofNat_lt (by omega)
  have hp : (UInt64.ofNat p).toNat = p := toNat_ofNat_lt (by omega)
  have hsum : (UInt64.ofNat w + UInt64.ofNat p).toNat = w + p := by
    rw [UInt64.toNat_add, hw, hp, Nat.mod_eq_of_lt (by omega)]
  have hquot : ((256 * UInt64.ofNat p + (UInt64.ofNat w + UInt64.ofNat p) / 2) /
      (UInt64.ofNat w + UInt64.ofNat p)).toNat = (256 * p + (w + p) / 2) / (w + p) := by
    rw [UInt64.toNat_div, UInt64.toNat_add, UInt64.toNat_div, UInt64.toNat_mul, hsum, hp]
    congr 1
    have h256 : (256 : UInt64).toNat = 256 := rfl
    have h2 : (2 : UInt64).toNat = 2 := rfl
    rw [h256, h2]
    omega
  rw [v5PadSteps, Nat.mod_eq_of_lt (by omega : w + p < 2 ^ 64), v4K,
    Nat.mod_eq_of_lt (by omega : 256 * p < 2 ^ 64),
    Nat.mod_eq_of_lt (by omega : 256 * p + (w + p) / 2 < 2 ^ 64)] at hk
  split at hk
  · cases hk
  · cases hk
    rw [hostPadSteps]
    generalize (256 * UInt64.ofNat p + (UInt64.ofNat w + UInt64.ofNat p) / 2) /
      (UInt64.ofNat w + UInt64.ofNat p) = steps at hquot ⊢
    rw [← hquot]
    have h1 : (1 : UInt64).toNat = 1 := rfl
    have h255 : (255 : UInt64).toNat = 255 := rfl
    split
    · next hlow =>
      rw [UInt64.lt_iff_toNat_lt, h1] at hlow
      rw [UInt64.toNat_toUInt32, h1]
      omega
    · next hlow =>
      rw [UInt64.lt_iff_toNat_lt, h1] at hlow
      split
      · next hhigh =>
        rw [UInt64.lt_iff_toNat_lt, h255] at hhigh
        rw [UInt64.toNat_toUInt32, h255]
        omega
      · next hhigh =>
        rw [UInt64.lt_iff_toNat_lt, h255] at hhigh
        rw [UInt64.toNat_toUInt32]
        omega

theorem toNat_kPad (hp : 0 < p) (hlt : w + p < 2 ^ 50) (hk : v5PadSteps w p = .ok k) :
    (pushOf w p).kPad.toNat = k := by
  rw [pushOf, walkPush]
  dsimp only
  rw [if_neg (ofNat_ne_zero hp (by omega)), toNat_hostPadSteps hlt hk]

theorem isPadStep_iff (kPad : UInt32) (hk : kPad.toNat ≤ 255) (hstep : step ≤ 255) :
    ((UInt32.ofNat step + 1) * kPad) >>> 8 ≠ (UInt32.ofNat step * kPad) >>> 8 ↔
      v5IsPadStep (step + 1) kPad.toNat = true := by
  have h8 : (8 : UInt32).toNat % 32 = 8 := rfl
  have hprod : (step + 1) * kPad.toNat ≤ 256 * 255 := Nat.mul_le_mul (by omega) hk
  have hprod' : step * kPad.toNat ≤ 256 * 255 := Nat.mul_le_mul (by omega) hk
  have hsucc : UInt32.ofNat step + 1 = UInt32.ofNat (step + 1) := by
    rw [UInt32.ofNat_add]
    rfl
  have hshift : ∀ s, s * kPad.toNat ≤ 256 * 255 → s ≤ 256 →
      ((UInt32.ofNat s * kPad) >>> 8).toNat = s * kPad.toNat / 256 := by
    intro s hs hle
    rw [UInt32.toNat_shiftRight, h8, Nat.shiftRight_eq_div_pow, UInt32.toNat_mul,
      UInt32.toNat_ofNat_of_lt' (by omega : s < 2 ^ 32), Nat.mod_eq_of_lt (by omega)]
  rw [hsucc, ne_eq, ← UInt32.toNat_inj, hshift _ hprod (by omega), hshift _ hprod' (by omega),
    v5IsPadStep, Nat.add_sub_cancel, decide_eq_true_eq]
  rfl

/-- The next offset, with the pad. -/
theorem toNat_v5Offset (hw : 0 < w) (hp : 0 < p) (hlt : w + p < 2 ^ 50)
    (hk : v5PadSteps w p = .ok k) (hstep : step ≤ 255) (rawIn : UInt64) :
    (v5Offset (pushOf w p) rawIn (UInt32.ofNat step)).toNat =
      if v5IsPadStep (step + 1) k then (w + (mix64 rawIn).toNat % p) % 2 ^ 64
      else (mix64 rawIn).toNat % w := by
  have hkPad := toNat_kPad hp hlt hk
  have hiff := isPadStep_iff (pushOf w p).kPad (hkPad ▸ (v5PadSteps_bounds hk).2) hstep
  rw [hkPad] at hiff
  rw [v5Offset]
  by_cases hpad : v5IsPadStep (step + 1) k = true
  · have hn : (pushOf w p).nTiles.toNat = w := toNat_ofNat_lt (by omega)
    rw [if_pos (hiff.mpr hpad), if_pos hpad, UInt64.toNat_add, toNat_modPad hp hlt, hn]
  · rw [if_neg (fun h => hpad (hiff.mp h)), if_neg hpad, toNat_modTiles hw hlt]

end

end KeryxMiner.Vulkan
