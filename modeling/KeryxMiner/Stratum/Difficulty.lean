import KeryxMiner.Stratum.Target

/-!
# The difficulty of the pool

`setDifficulty` turns the difficulty that the pool sends into a target: the target of difficulty 1
times the reciprocal, whose mantissa and exponent it places in the four words. A reciprocal too
large for the words and one that starts at a word boundary go wrong, all others do not
(`setsRightly_iff`).
-/

namespace KeryxMiner.Stratum

/-- Mantissa and exponent of a float by its bits: `integer_decode` of an `f32`, less the sign. -/
def integerDecode (bits : UInt32) : UInt64 × Int :=
  let exponent := (bits >>> 23) &&& 0xff
  let mantissa := if exponent = 0 then (bits &&& 0x7fffff) <<< 1 else (bits &&& 0x7fffff) ||| 0x800000
  (mantissa.toUInt64, exponent.toNat - 150)

/-- 0xffff · 2²⁰⁸. -/
def difficulty1Target : UInt64 × Int := (0xffff, 208)

/-- `buf[i] = w`; a panic outside the words. -/
def setWord (buf : Vector UInt64 4) (i : Nat) (w : UInt64) : Option (Vector UInt64 4) :=
  if h : i < 4 then some (buf.set i w) else none

/-- A shift by the width of the word is a panic where overflows are checked, and none elsewhere. -/
def shiftRight (checks : Bool) (w n : UInt64) : Option UInt64 :=
  if checks ∧ 64 ≤ n then none else some (w >>> n)

def leadingZeros (w : UInt64) : Nat := if w = 0 then 64 else 63 - Nat.log2 w.toNat

/-- The pool's target behind a difficulty, with the outcome; none is a panic. Floats are their bits,
`recip` is the reciprocal of floats, and `checks` says that overflows are checked. -/
def setDifficulty (checks : Bool) (recip : UInt32 → UInt32) (difficulty : UInt32)
    (targetPool : Uint256) : Option (Uint256 × Except String Unit) := do
  let (mantissa, exponent) := integerDecode (recip difficulty)
  let newMantissa := mantissa * difficulty1Target.1
  let newExponent := UInt64.ofInt (difficulty1Target.2 + exponent)
  let start := (newExponent / 64).toNat
  let remainder := newExponent % 64
  let buf ← setWord (Vector.replicate 4 0) start (newMantissa <<< remainder)
  if start < 3 then
    let buf ← setWord buf (start + 1) (← shiftRight checks newMantissa (64 - remainder))
    some (⟨buf⟩, .ok ())
  else if leadingZeros newMantissa < remainder.toNat then
    some (targetPool, .error "Target is too big")
  else some (⟨buf⟩, .ok ())

/-- A number times a power of two, rounded down. -/
def scaled (n : Nat) (k : Int) : Nat := if 0 ≤ k then n * 2 ^ k.toNat else n / 2 ^ (-k).toNat

/-- The target is set to what the decoded reciprocal says if that is below 2²⁵⁶, and refused and
left as it was otherwise. -/
def SetsRightly (checks : Bool) (recip : UInt32 → UInt32) (difficulty : UInt32)
    (targetPool : Uint256) : Prop :=
  let (mantissa, exponent) := integerDecode (recip difficulty)
  let target := scaled (0xffff * mantissa.toNat) (208 + exponent)
  if target < 2 ^ 256 then
    ∃ t, setDifficulty checks recip difficulty targetPool = some (t, .ok ()) ∧ t.toNat = target
  else ∃ e, setDifficulty checks recip difficulty targetPool = some (targetPool, .error e)

/-! ## Placing the mantissa -/

section

variable {checks : Bool} {recip : UInt32 → UInt32} {bits difficulty : UInt32} {pool t : Uint256}
  {m w lo hi : UInt64} {e : Int} {k r start : Nat} {out : Except String Unit}

variable (bits) in
theorem integerDecode_mantissa : (integerDecode bits).1.toNat < 2 ^ 24 := by
  have hlow : (bits &&& 0x7fffff).toNat < 2 ^ 23 := by
    rw [toNat_and_low (n := 23) rfl]
    exact Nat.mod_lt _ (by decide)
  rw [integerDecode]
  dsimp only
  rw [UInt32.toNat_toUInt64]
  split
  · rw [UInt32.toNat_shiftLeft]
    change (bits &&& 0x7fffff).toNat <<< 1 % 2 ^ 32 < 2 ^ 24
    rw [Nat.shiftLeft_eq]
    omega
  · rw [UInt32.toNat_or]
    exact Nat.or_lt_two_pow (hlow.trans (by decide)) (by decide)

/-- Only a zero has no mantissa. -/
theorem integerDecode_zero (h : (integerDecode bits).1.toNat = 0) : (integerDecode bits).2 = -150 := by
  rw [integerDecode] at h ⊢
  dsimp only at h ⊢
  split at h
  · next hzero =>
    rw [hzero]
    rfl
  · rw [UInt32.toNat_toUInt64, UInt32.toNat_or, Nat.or_eq_zero_iff] at h
    exact absurd h.2 (by decide)

variable (bits) in
theorem integerDecode_exponent :
    -150 ≤ (integerDecode bits).2 ∧ (integerDecode bits).2 ≤ 105 := by
  have hbyte : ((bits >>> 23) &&& 0xff).toNat < 2 ^ 8 := by
    rw [toNat_and_low (n := 8) rfl]
    exact Nat.mod_lt _ (by decide)
  rw [integerDecode]
  dsimp only
  omega

theorem leadingZeros_lt_iff (hr : r < 64) : leadingZeros w < r ↔ 2 ^ 64 ≤ w.toNat * 2 ^ r := by
  rw [leadingZeros]
  split
  · next hzero =>
    rw [hzero, UInt64.toNat_zero, Nat.zero_mul]
    exact iff_of_false (by omega) (by decide)
  · next hne =>
    have hpos : w.toNat ≠ 0 := fun h => hne (UInt64.toNat_inj.mp h)
    have hlog : w.toNat.log2 < 64 := (Nat.log2_lt hpos).mpr w.toNat_lt
    have hsplit := two_pow_split hr
    have hcancel : 2 ^ 64 ≤ w.toNat * 2 ^ r ↔ 2 ^ (64 - r) ≤ w.toNat := by
      rw [hsplit, Nat.mul_comm]
      exact Nat.mul_le_mul_right_iff (Nat.two_pow_pos r)
    rw [hcancel, ← Nat.le_log2 hpos]
    omega

theorem ofWords_single (hstart : start < 4) :
    ofWords ((List.replicate 4 0).set start lo) = lo.toNat * 2 ^ (64 * start) := by
  have hset := ofWords_set (List.replicate 4 0) lo (i := start) (by simpa using hstart)
  rwa [List.getElem_replicate, UInt64.toNat_zero, Nat.zero_mul, Nat.add_zero,
    ofWords_replicate_zero, Nat.zero_add] at hset

/-- Two words in a row. -/
theorem ofWords_pair (hstart : start + 1 < 4) :
    ofWords (((List.replicate 4 0).set start lo).set (start + 1) hi) =
      (lo.toNat + hi.toNat * 2 ^ 64) * 2 ^ (64 * start) := by
  have hset := ofWords_set ((List.replicate 4 0).set start lo) hi (i := start + 1)
    (by simpa using hstart)
  rw [List.getElem_set_ne (by omega), List.getElem_replicate, UInt64.toNat_zero, Nat.zero_mul,
    Nat.add_zero, ofWords_single (by omega)] at hset
  rw [hset, Nat.mul_succ, Nat.add_comm (64 * start), Nat.pow_add, Nat.add_mul, Nat.mul_assoc]

theorem toNat_product (hm : m.toNat < 2 ^ 24) : (m * difficulty1Target.1).toNat = 0xffff * m.toNat := by
  rw [UInt64.toNat_mul]
  change m.toNat * 0xffff % 2 ^ 64 = _
  omega

/-- The steps behind the decoding, with the exponent of the target as a number. -/
theorem setDifficulty_eq (hdecode : integerDecode (recip difficulty) = (m, e))
    (hk : 208 + e = k) (hlt : k < 2 ^ 64) : setDifficulty checks recip difficulty pool =
      (setWord (Vector.replicate 4 0) (k / 64)
        ((m * difficulty1Target.1) <<< UInt64.ofNat (k % 64))).bind fun buf =>
          if k / 64 < 3 then
            (shiftRight checks (m * difficulty1Target.1) (UInt64.ofNat (64 - k % 64))).bind fun top =>
              (setWord buf (k / 64 + 1) top).bind fun buf => some (⟨buf⟩, .ok ())
          else if leadingZeros (m * difficulty1Target.1) < k % 64 then
            some (pool, .error "Target is too big")
          else some (⟨buf⟩, .ok ()) := by
  have hexp : UInt64.ofInt (difficulty1Target.2 + e) = UInt64.ofNat k := by
    have hmod : ((k : Int) % 2 ^ 64).toNat = k := by omega
    rw [show difficulty1Target.2 + e = (k : Int) from hk, UInt64.ofInt, hmod]
  have hdiv : (UInt64.ofNat k / 64).toNat = k / 64 := by
    rw [UInt64.toNat_div, UInt64.toNat_ofNat_of_lt' hlt]
    rfl
  have hbit : k % 64 < 64 := Nat.mod_lt _ (by decide)
  have hrem : (UInt64.ofNat (k % 64)).toNat = k % 64 :=
    UInt64.toNat_ofNat_of_lt' (hbit.trans (by decide))
  have hmod : UInt64.ofNat k % 64 = UInt64.ofNat (k % 64) := by
    apply UInt64.toNat_inj.mp
    rw [UInt64.toNat_mod, UInt64.toNat_ofNat_of_lt' hlt, hrem]
    rfl
  have hsub : 64 - UInt64.ofNat (k % 64) = UInt64.ofNat (64 - k % 64) := by
    have hle : UInt64.ofNat (k % 64) ≤ 64 := by
      rw [UInt64.le_iff_toNat_le, hrem]
      exact hbit.le
    apply UInt64.toNat_inj.mp
    rw [UInt64.toNat_sub_of_le _ _ hle, hrem,
      UInt64.toNat_ofNat_of_lt' ((Nat.sub_le ..).trans_lt (by decide))]
    rfl
  rw [setDifficulty, hdecode]
  simp only [hexp, hdiv, hmod, hsub, hrem, Option.bind_eq_bind]

/-- The property, with the exponent of the target as a number. -/
theorem setsRightly_eq (hdecode : integerDecode (recip difficulty) = (m, e)) (hk : 208 + e = k) :
    SetsRightly checks recip difficulty pool ↔
      if 0xffff * m.toNat * 2 ^ k < 2 ^ 256 then
        ∃ t, setDifficulty checks recip difficulty pool = some (t, .ok ()) ∧
          t.toNat = 0xffff * m.toNat * 2 ^ k
      else ∃ err, setDifficulty checks recip difficulty pool = some (pool, .error err) := by
  have hscaled : scaled (0xffff * m.toNat) (208 + e) = 0xffff * m.toNat * 2 ^ k := by
    rw [scaled, hk, if_pos (Int.natCast_nonneg k), Int.toNat_natCast]
  rw [SetsRightly, hdecode]
  dsimp only
  rw [hscaled]

/-- A target behind the last word is a panic. -/
theorem not_setsRightly_of_le (hdecode : integerDecode (recip difficulty) = (m, e))
    (hk : 208 + e = k) (hlt : k < 2 ^ 64) (hle : 256 ≤ k) :
    ¬SetsRightly checks recip difficulty pool := by
  have hpanic : setDifficulty checks recip difficulty pool = none := by
    rw [setDifficulty_eq hdecode hk hlt, setWord, dif_neg (by omega), Option.bind_none]
  rw [setsRightly_eq hdecode hk, hpanic]
  split
  · rintro ⟨t, ⟨⟩, -⟩
  · rintro ⟨err, ⟨⟩⟩

/-- In the last word the top bits are checked. -/
theorem setsRightly_top (hdecode : integerDecode (recip difficulty) = (m, e)) (hk : 208 + e = k)
    (hm : m.toNat < 2 ^ 24) (hle : 192 ≤ k) (hlt : k < 256) :
    SetsRightly checks recip difficulty pool := by
  have hstart : k / 64 = 3 := by omega
  have hbit : k % 64 < 64 := Nat.mod_lt _ (by decide)
  have hpow : 0xffff * m.toNat * 2 ^ k = 0xffff * m.toNat * 2 ^ (k % 64) * 2 ^ (64 * 3) := by
    rw [Nat.mul_assoc _ (2 ^ (k % 64)), ← Nat.pow_add]
    congr 2
    omega
  have htop : 0xffff * m.toNat * 2 ^ k < 2 ^ 256 ↔ 0xffff * m.toNat * 2 ^ (k % 64) < 2 ^ 64 := by
    have hsplit : 2 ^ 256 = 2 ^ 64 * 2 ^ (64 * 3) := by rw [← Nat.pow_add]
    rw [hpow, hsplit]
    exact Nat.mul_lt_mul_right (Nat.two_pow_pos (64 * 3))
  have hresult : setDifficulty checks recip difficulty pool =
      if 2 ^ 64 ≤ 0xffff * m.toNat * 2 ^ (k % 64) then some (pool, .error "Target is too big")
      else some (⟨(Vector.replicate 4 0).set 3
        ((m * difficulty1Target.1) <<< UInt64.ofNat (k % 64))⟩, .ok ()) := by
    rw [setDifficulty_eq hdecode hk (hlt.trans (by decide)), hstart]
    simp only [leadingZeros_lt_iff hbit, toNat_product hm]
    rfl
  rw [setsRightly_eq hdecode hk, hresult]
  by_cases hfits : 0xffff * m.toNat * 2 ^ (k % 64) < 2 ^ 64
  · rw [if_pos (htop.mpr hfits), if_neg (Nat.not_le.mpr hfits)]
    refine ⟨_, rfl, ?_⟩
    rw [Uint256.toNat, Vector.toList_set, Vector.toList_replicate, ofWords_single (by decide),
      toNat_shiftLeft hbit, toNat_product hm, Nat.mod_eq_of_lt hfits, hpow]
  · rw [if_neg (htop.not.mpr hfits), if_pos (Nat.not_lt.mp hfits)]
    exact ⟨_, rfl⟩

/-- Below the last word the mantissa takes two words. -/
theorem setDifficulty_low (hdecode : integerDecode (recip difficulty) = (m, e)) (hk : 208 + e = k)
    (hlt : k < 192) : setDifficulty checks recip difficulty pool =
      (shiftRight checks (m * difficulty1Target.1) (UInt64.ofNat (64 - k % 64))).map fun top =>
        (⟨((Vector.replicate 4 0).set (k / 64)
          ((m * difficulty1Target.1) <<< UInt64.ofNat (k % 64))).set (k / 64 + 1) top⟩, .ok ()) := by
  have hstart : k / 64 + 1 < 4 := by omega
  rw [setDifficulty_eq hdecode hk (hlt.trans (by decide)), setWord, dif_pos (Nat.lt_of_succ_lt hstart),
    Option.bind_some, if_pos (by omega)]
  cases shiftRight checks (m * difficulty1Target.1) (UInt64.ofNat (64 - k % 64)) with
  | none => rfl
  | some top =>
    rw [Option.bind_some, Option.map_some, setWord, dif_pos hstart]
    rfl

theorem target_lt (hm : m.toNat < 2 ^ 24) (hlt : k < 192) : 0xffff * m.toNat * 2 ^ k < 2 ^ 256 := by
  calc 0xffff * m.toNat * 2 ^ k < 2 ^ 40 * 2 ^ k :=
        Nat.mul_lt_mul_of_pos_right (by omega) (Nat.two_pow_pos k)
    _ = 2 ^ (40 + k) := (Nat.pow_add ..).symm
    _ ≤ 2 ^ 256 := Nat.pow_le_pow_right (by decide) (by omega)

theorem setsRightly_low (hdecode : integerDecode (recip difficulty) = (m, e)) (hk : 208 + e = k)
    (hm : m.toNat < 2 ^ 24) (hlt : k < 192) (hbit : k % 64 ≠ 0) :
    SetsRightly checks recip difficulty pool := by
  have hsmall : k % 64 < 64 := Nat.mod_lt _ (by decide)
  have hamount : ¬(checks ∧ 64 ≤ UInt64.ofNat (64 - k % 64)) := by
    rintro ⟨-, hle⟩
    rw [UInt64.le_iff_toNat_le,
      UInt64.toNat_ofNat_of_lt' ((Nat.sub_le ..).trans_lt (by decide))] at hle
    change 64 ≤ 64 - k % 64 at hle
    omega
  rw [setsRightly_eq hdecode hk, if_pos (target_lt hm hlt), setDifficulty_low hdecode hk hlt,
    shiftRight, if_neg hamount]
  refine ⟨_, rfl, ?_⟩
  rw [Uint256.toNat, Vector.toList_set, Vector.toList_set, Vector.toList_replicate,
    ofWords_pair (by omega), toNat_shiftLeft_carry (Nat.pos_of_ne_zero hbit) hsmall,
    toNat_product hm, Nat.mul_assoc _ (2 ^ (k % 64)), ← Nat.pow_add, Nat.mod_add_div]

/-- At a word boundary the second shift is one by 64. -/
theorem not_setsRightly_boundary (hdecode : integerDecode (recip difficulty) = (m, e))
    (hk : 208 + e = k) (hm : m.toNat < 2 ^ 24) (hpos : m.toNat ≠ 0) (hlt : k < 192)
    (hbit : k % 64 = 0) : ¬SetsRightly checks recip difficulty pool := by
  rw [setsRightly_eq hdecode hk, if_pos (target_lt hm hlt), setDifficulty_low hdecode hk hlt, hbit]
  rintro ⟨t, ht, hnum⟩
  cases checks with
  | true => cases ht
  | false =>
    have hshift (w : UInt64) : w >>> UInt64.ofNat (64 - 0) = w := by
      apply UInt64.toNat_inj.mp
      rw [UInt64.toNat_shiftRight]
      rfl
    have hzero (w : UInt64) : w <<< UInt64.ofNat 0 = w := by
      apply UInt64.toNat_inj.mp
      rw [toNat_shiftLeft (by decide), Nat.pow_zero, Nat.mul_one, Nat.mod_eq_of_lt w.toNat_lt]
    rw [shiftRight, if_neg (by decide), hshift, hzero] at ht
    cases ht
    have hplace : 2 ^ k = 2 ^ (64 * (k / 64)) := by
      congr 1
      omega
    rw [Uint256.toNat, Vector.toList_set, Vector.toList_set, Vector.toList_replicate,
      ofWords_pair (by omega), toNat_product hm, hplace] at hnum
    have hcancel := Nat.eq_of_mul_eq_mul_right (Nat.two_pow_pos _) hnum
    omega

/-- The exponents at which the target is not the one that the reciprocal stands for: from 48 on, and
where the mantissa starts at a word boundary below the last word. -/
theorem setsRightly_iff : SetsRightly checks recip difficulty pool ↔
    (integerDecode (recip difficulty)).2 < 48 ∧ (integerDecode (recip difficulty)).2 ≠ -80 ∧
      (integerDecode (recip difficulty)).2 ≠ -144 := by
  obtain ⟨hlo, hhi⟩ := integerDecode_exponent (recip difficulty)
  have hm := integerDecode_mantissa (recip difficulty)
  have hzero : (integerDecode (recip difficulty)).1.toNat = 0 →
      (integerDecode (recip difficulty)).2 = -150 := integerDecode_zero
  generalize hdecode : integerDecode (recip difficulty) = decoded at hlo hhi hm hzero
  obtain ⟨m, e⟩ := decoded
  obtain ⟨k, hk⟩ : ∃ k : Nat, 208 + e = k := ⟨(208 + e).toNat, by omega⟩
  dsimp only at hlo hhi hm hzero ⊢
  by_cases hlarge : 256 ≤ k
  · exact iff_of_false (not_setsRightly_of_le hdecode hk (by omega) hlarge) (by omega)
  by_cases htop : 192 ≤ k
  · exact iff_of_true (setsRightly_top hdecode hk hm htop (by omega)) (by omega)
  by_cases hbit : k % 64 = 0
  · have hpos : m.toNat ≠ 0 := by
      intro h
      have hmin := hzero h
      omega
    exact iff_of_false (not_setsRightly_boundary hdecode hk hm hpos (by omega) hbit) (by omega)
  · exact iff_of_true (setsRightly_low hdecode hk hm (by omega) hbit) (by omega)

end

/-- The reciprocals of 0 (an infinity) and of 2⁵⁷. -/
theorem not_setsRightly_zero :
    ¬SetsRightly true (fun _ => 0x7f800000) 0 default ∧
      ¬SetsRightly true (fun _ => 0x23000000) 0x5c000000 default := by
  have hinf : integerDecode 0x7f800000 = (0x800000, 105) := by decide
  have hsmall : integerDecode 0x23000000 = (0x800000, -80) := by decide
  constructor
  · exact not_setsRightly_of_le (k := 313) hinf rfl (by decide) (by decide)
  · exact not_setsRightly_boundary (k := 128) hsmall rfl (by decide) (by decide) (by decide) rfl

end KeryxMiner.Stratum
