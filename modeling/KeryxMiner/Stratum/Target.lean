import Mathlib.Data.Nat.ModEq
import KeryxMiner.Limbs

/-!
# Targets

`Uint256` is the number that a hash is compared with, in four words. Its shift multiplies by a power
of two modulo 2²⁵⁶ and its order is that of the numbers, so the target of a block is the number that
its compact bits stand for, and a share is tested against the easier of the pool's target and the
block's (`effectiveTarget_numeric`).
-/

namespace KeryxMiner.Stratum

/-- Four words, the lowest first. -/
structure Uint256 where
  words : Vector UInt64 4
  deriving DecidableEq

instance : Inhabited Uint256 := ⟨⟨Vector.replicate 4 0⟩⟩

/-- `ret[i] += w`; a panic outside the words and where the sum overflows. -/
def addTo (ret : Vector UInt64 4) (i : Nat) (w : UInt64) : Option (Vector UInt64 4) :=
  if h : i < 4 then
    if ret[i].toNat + w.toNat < 2 ^ 64 then some (ret.set i (ret[i] + w)) else none
  else none

/-- The shift of the word with number `i`. -/
def shlStep (shift i : Nat) (w : UInt64) (ret : Vector UInt64 4) : Option (Vector UInt64 4) := do
  let wordShift := shift / 64
  let bitShift := shift % 64
  let ret ← (if bitShift < 64 ∧ i + wordShift < 4 then
      addTo ret (i + wordShift) (w <<< UInt64.ofNat bitShift)
    else some ret)
  if 0 < bitShift ∧ i + wordShift + 1 < 4 then
    addTo ret (i + wordShift + 1) (w >>> UInt64.ofNat (64 - bitShift))
  else some ret

/-- The loop over the words from number `i` on. -/
def shlFrom (shift : Nat) : (i : Nat) → List UInt64 → Vector UInt64 4 → Option (Vector UInt64 4)
  | _, [], ret => some ret
  | i, w :: ws, ret => do shlFrom shift (i + 1) ws (← shlStep shift i w ret)

namespace Uint256

def fromU64 (init : UInt64) : Uint256 := ⟨#v[init, 0, 0, 0]⟩

def shl (x : Uint256) (shift : Nat) : Option Uint256 :=
  (shlFrom shift 0 x.words.toList (Vector.replicate 4 0)).map mk

def cmp (x y : Uint256) : Ordering := compareFront x.words.toList.reverse y.words.toList.reverse

def max (x y : Uint256) : Uint256 := if y.cmp x = .lt then x else y

/-- The number that the words stand for. -/
def toNat (x : Uint256) : Nat := ofWords x.words.toList

end Uint256

/-- The target of compact bits; none is a panic. -/
def u256FromCompactTarget (bits : UInt32) : Option Uint256 :=
  let unshiftedExpt := bits >>> 24
  let (mant, expt) : UInt32 × UInt32 :=
    if unshiftedExpt ≤ 3 then
      ((bits &&& 0xFFFFFF) >>> ((8 : UInt32) * (3 - unshiftedExpt)), 0)
    else (bits &&& 0xFFFFFF, (8 : UInt32) * (bits >>> 24 - 3))
  if 0x7FFFFF < mant then some default
  else (Uint256.fromU64 mant.toUInt64).shl expt.toNat

/-- The target that a share of a job is tested against. -/
def effectiveTarget (poolTarget : Uint256) : Option UInt32 → Option (Except String Uint256)
  | none => some (.ok poolTarget)
  | some bits =>
    let size := bits >>> 24
    let mantissa := bits &&& 0x007fffff
    if bits &&& 0x00800000 ≠ 0 ∨ 34 < size ∨ (33 < size ∧ 0xff < mantissa) ∨
        (32 < size ∧ 0xffff < mantissa) then
      some (.error "Invalid block target")
    else do
      let target ← u256FromCompactTarget bits
      if target = default then some (.error "Invalid block target")
      else some (.ok (poolTarget.max target))

/-! ## The shift -/

section

variable {ret : Vector UInt64 4} {i shift : Nat} {w : UInt64} {ws : List UInt64}

/-- The word that a loop writes next has room for a shifted word, those behind it are still zero. -/
def Room (ret : Vector UInt64 4) (p b : Nat) : Prop :=
  ∀ q (hq : q < 4), (q = p → ret[q].toNat < 2 ^ b) ∧ (p < q → ret[q] = 0)

theorem addTo_spec (hi : i < 4) (hroom : ret[i].toNat + w.toNat < 2 ^ 64) :
    ∃ ret', addTo ret i w = some ret' ∧
      ofWords ret'.toList = ofWords ret.toList + w.toNat * 2 ^ (64 * i) ∧
        ret'[i].toNat = ret[i].toNat + w.toNat ∧ ∀ q (hq : q < 4), q ≠ i → ret'[q] = ret[q] := by
  have hsum : (ret[i] + w).toNat = ret[i].toNat + w.toNat := by
    rw [UInt64.toNat_add, Nat.mod_eq_of_lt hroom]
  refine ⟨ret.set i (ret[i] + w), by rw [addTo, dif_pos hi, if_pos hroom], ?_, ?_, ?_⟩
  · have hset := ofWords_set ret.toList (ret[i] + w) (i := i) (by simpa using hi)
    rw [Vector.getElem_toList, hsum, Nat.add_mul] at hset
    rw [Vector.toList_set]
    omega
  · rw [Vector.getElem_set_self, hsum]
  · intro q hq hne
    exact Vector.getElem_set_ne _ _ hne.symm

variable (ret w) in
theorem addIf_spec (p : Nat) (hroom : ∀ hp : p < 4, ret[p].toNat + w.toNat < 2 ^ 64) :
    ∃ ret', (if p < 4 then addTo ret p w else some ret) = some ret' ∧
      ofWords ret'.toList ≡ ofWords ret.toList + w.toNat * 2 ^ (64 * p) [MOD 2 ^ 256] ∧
        ∀ q (hq : q < 4), (q = p → ret'[q].toNat = ret[q].toNat + w.toNat) ∧
          (q ≠ p → ret'[q] = ret[q]) := by
  by_cases hp : p < 4
  · obtain ⟨ret', hadd, hvalue, hword, hrest⟩ := addTo_spec hp (hroom hp)
    refine ⟨ret', by rw [if_pos hp, hadd], by rw [hvalue], ?_⟩
    intro q hq
    refine ⟨?_, hrest q hq⟩
    rintro rfl
    exact hword
  · have hzero : w.toNat * 2 ^ (64 * p) ≡ 0 [MOD 2 ^ 256] := by
      refine (Nat.modEq_zero_iff_dvd).mpr (Dvd.dvd.mul_left ?_ _)
      exact Nat.pow_dvd_pow 2 (by omega)
    refine ⟨ret, if_neg hp, (hzero.add_left _).symm, ?_⟩
    intro q hq
    exact ⟨fun h => absurd (h ▸ hq) hp, fun _ => rfl⟩

/-- What a word adds to the number: its product by the power of two. -/
theorem shlStep_spec (hroom : Room ret (i + shift / 64) (shift % 64)) :
    ∃ ret', shlStep shift i w ret = some ret' ∧
      Room ret' (i + 1 + shift / 64) (shift % 64) ∧
        ofWords ret'.toList ≡ ofWords ret.toList + w.toNat * 2 ^ (64 * i) * 2 ^ shift
          [MOD 2 ^ 256] := by
  have hmod : shift % 64 < 64 := Nat.mod_lt _ (by decide)
  have hnext : i + 1 + shift / 64 = i + shift / 64 + 1 := by omega
  have hplace : 2 ^ (64 * i) * 2 ^ shift = 2 ^ (shift % 64) * 2 ^ (64 * (i + shift / 64)) := by
    rw [← Nat.pow_add, ← Nat.pow_add]
    congr 1
    omega
  rw [shlStep, Nat.mul_assoc, hplace, ← Nat.mul_assoc, hnext]
  generalize i + shift / 64 = p, shift % 64 = b at hroom hmod ⊢
  obtain ⟨mid, hmid, hvalue, hword⟩ := addIf_spec ret (w <<< UInt64.ofNat b) p
    fun hp => Nat.lt_of_lt_of_le (Nat.add_lt_add_right ((hroom p hp).1 rfl) _)
      (Nat.add_comm .. ▸ toNat_shiftLeft_add_le hmod)
  have hfree (q : Nat) (hq : q < 4) (hpq : p < q) : mid[q] = 0 := by
    rw [(hword q hq).2 hpq.ne', (hroom q hq).2 hpq]
  simp only [hmod, true_and, hmid, Option.bind_eq_bind, Option.bind_some]
  by_cases hb : 0 < b
  · obtain ⟨ret', hret', hvalue', hword'⟩ := addIf_spec mid (w >>> UInt64.ofNat (64 - b))
      (p + 1) fun hp => by
        rw [hfree _ hp (Nat.lt_succ_self p), UInt64.toNat_zero, Nat.zero_add]
        exact UInt64.toNat_lt _
    simp only [hb, true_and]
    refine ⟨ret', hret', ?_, ?_⟩
    · intro q hq
      constructor
      · intro hqp
        rw [(hword' q hq).1 hqp, hfree q hq (by omega), UInt64.toNat_zero, Nat.zero_add]
        exact toNat_shiftRight_lt hb hmod
      · intro hpq
        rw [(hword' q hq).2 (by omega), hfree q hq (by omega)]
    · refine hvalue'.trans ((hvalue.add_right _).trans ?_)
      rw [← toNat_shiftLeft_carry hb hmod, Nat.mul_succ, Nat.add_comm (64 * p), Nat.pow_add,
        Nat.add_mul, Nat.add_assoc, Nat.mul_assoc]
  · obtain rfl := Nat.eq_zero_of_not_pos hb
    simp only [Nat.lt_irrefl, false_and, if_false]
    refine ⟨mid, rfl, ?_, ?_⟩
    · intro q hq
      constructor
      · intro hqp
        rw [hfree q hq (by omega)]
        exact Nat.one_pos
      · intro hpq
        exact hfree q hq (by omega)
    · rw [Nat.pow_zero, Nat.mul_one]
      rwa [toNat_shiftLeft (by decide), Nat.pow_zero, Nat.mul_one,
        Nat.mod_eq_of_lt w.toNat_lt] at hvalue

variable (ws) in
/-- The loop adds the product of the words that it has left. -/
theorem shlFrom_spec (hroom : Room ret (i + shift / 64) (shift % 64)) :
    ∃ ret', shlFrom shift i ws ret = some ret' ∧
      ofWords ret'.toList ≡ ofWords ret.toList + ofWords ws * 2 ^ (64 * i) * 2 ^ shift
        [MOD 2 ^ 256] := by
  induction ws generalizing i ret with
  | nil => exact ⟨ret, rfl, by rw [ofWords_nil, Nat.zero_mul, Nat.zero_mul, Nat.add_zero]⟩
  | cons w ws ih =>
    obtain ⟨mid, hmid, hroom, hvalue⟩ := shlStep_spec (w := w) hroom
    obtain ⟨ret', hret', hvalue'⟩ := ih hroom
    refine ⟨ret', by rw [shlFrom, hmid]; exact hret', ?_⟩
    refine hvalue'.trans ((hvalue.add_right _).trans ?_)
    rw [ofWords_cons, Nat.mul_succ, Nat.pow_add]
    have hsum : ofWords ret.toList + w.toNat * 2 ^ (64 * i) * 2 ^ shift +
        ofWords ws * (2 ^ (64 * i) * 2 ^ 64) * 2 ^ shift =
          ofWords ret.toList + (w.toNat + 2 ^ 64 * ofWords ws) * 2 ^ (64 * i) * 2 ^ shift := by
      ring
    rw [hsum]

namespace Uint256

variable {x y : Uint256}

theorem toNat_lt : x.toNat < 2 ^ 256 := by
  have hlt := ofWords_lt x.words.toList
  rwa [Vector.length_toList] at hlt

variable (x) in
/-- The shift never overflows a word, and multiplies modulo 2²⁵⁶. -/
theorem shl_spec (shift : Nat) : ∃ y, x.shl shift = some y ∧ y.toNat = x.toNat * 2 ^ shift % 2 ^ 256 := by
  have hroom : Room (Vector.replicate 4 0) (0 + shift / 64) (shift % 64) := by
    intro q hq
    rw [Vector.getElem_replicate]
    exact ⟨fun _ => Nat.two_pow_pos _, fun _ => rfl⟩
  obtain ⟨ret, hret, hvalue⟩ := shlFrom_spec x.words.toList hroom
  refine ⟨⟨ret⟩, by rw [shl, hret, Option.map_some], ?_⟩
  rw [Vector.toList_replicate, ofWords_replicate_zero, Nat.zero_add, Nat.mul_zero, Nat.pow_zero,
    Nat.mul_one] at hvalue
  rw [← Nat.mod_eq_of_lt (toNat_lt (x := ⟨ret⟩))]
  exact hvalue

theorem cmp_eq : x.cmp y = compare x.toNat y.toNat :=
  compare_words (by rw [Vector.length_toList, Vector.length_toList])

theorem toNat_max : (x.max y).toNat = Nat.max x.toNat y.toNat := by
  rw [max, cmp_eq]
  split
  · next h =>
    exact (Nat.max_eq_left (Nat.compare_eq_lt.mp h).le).symm
  · next h =>
    exact (Nat.max_eq_right (Nat.compare_ne_lt.mp h)).symm

theorem toNat_fromU64 : (fromU64 w).toNat = w.toNat := by
  have hrest : ofWords [0, 0, 0] = 0 := ofWords_replicate_zero (n := 3)
  change ofWords [w, 0, 0, 0] = _
  rw [ofWords_cons, hrest, Nat.mul_zero, Nat.add_zero]

theorem toNat_default : (default : Uint256).toNat = 0 := ofWords_replicate_zero (n := 4)

theorem toNat_inj (h : x.toNat = y.toNat) : x = y := by
  have hwords := ofWords_inj (by rw [Vector.length_toList, Vector.length_toList]) h
  obtain ⟨x⟩ := x
  exact congrArg mk (Vector.toList_inj.mp hwords)

end Uint256

end

/-! ## Compact bits -/

section

variable {bits : UInt32}

/-- The size and the mantissa of compact bits. -/
def compactSize (bits : UInt32) : Nat := bits.toNat / 2 ^ 24
def compactMantissa (bits : UInt32) : Nat := bits.toNat % 2 ^ 23

theorem toNat_shiftRight_24 : (bits >>> 24).toNat = compactSize bits := by
  rw [UInt32.toNat_shiftRight, compactSize, ← Nat.shiftRight_eq_div_pow]
  rfl

theorem toNat_and_low {m : UInt32} {n : Nat} (hm : m.toNat = 2 ^ n - 1) :
    (bits &&& m).toNat = bits.toNat % 2 ^ n := by
  rw [UInt32.toNat_and, hm, Nat.and_two_pow_sub_one_eq_mod]

/-- Without the sign bit the mantissa is all of the low bits. -/
theorem mod_of_sign (h : bits &&& 0x00800000 = 0) : bits.toNat % 2 ^ 24 = compactMantissa bits := by
  have hand : bits.toNat &&& 2 ^ 23 = 0 := by
    have hbits := congrArg UInt32.toNat h
    rwa [UInt32.toNat_and] at hbits
  have hbit : bits.toNat.testBit 23 = false := by
    have hzero : (bits.toNat &&& 2 ^ 23).testBit 23 = false := by rw [hand, Nat.zero_testBit]
    rwa [Nat.testBit_and, Nat.testBit_two_pow_self, Bool.and_true] at hzero
  rw [Nat.testBit_eq_decide_div_mod_eq, decide_eq_false_iff_not] at hbit
  rw [compactMantissa]
  omega

/-- The bits that a number loses, as a power of 256. -/
theorem div_two_pow {m n : Nat} (hn : n ≤ 3) : m / 2 ^ (8 * (3 - n)) = m * 256 ^ n / 256 ^ 3 := by
  have hsplit : 256 ^ 3 = 256 ^ (3 - n) * 256 ^ n := by
    rw [← Nat.pow_add, Nat.sub_add_cancel hn]
  rw [hsplit, Nat.mul_div_mul_right _ _ (Nat.pow_pos (by decide)), Nat.pow_mul]

theorem mul_two_pow {m n : Nat} (hn : 3 ≤ n) : m * 256 ^ n / 256 ^ 3 = m * 2 ^ (8 * (n - 3)) := by
  have hsplit : 256 ^ n = 256 ^ (n - 3) * 256 ^ 3 := by
    rw [← Nat.pow_add, Nat.sub_add_cancel hn]
  rw [hsplit, ← Nat.mul_assoc, Nat.mul_div_cancel _ (by decide), Nat.pow_mul]

theorem u256FromCompactTarget_spec (hsign : bits &&& 0x00800000 = 0) :
    ∃ block, u256FromCompactTarget bits = some block ∧
      block.toNat = compactMantissa bits * 256 ^ compactSize bits / 256 ^ 3 % 2 ^ 256 := by
  have hmant : (bits &&& 0xFFFFFF).toNat = compactMantissa bits := by
    rw [toNat_and_low (n := 24) rfl, mod_of_sign hsign]
  have hlt : compactMantissa bits < 2 ^ 23 := Nat.mod_lt _ (by decide)
  have hsize : (bits >>> 24).toNat = compactSize bits := toNat_shiftRight_24
  rw [u256FromCompactTarget]
  dsimp only
  by_cases hthree : compactSize bits ≤ 3
  · have hle : bits >>> 24 ≤ 3 := by
      rw [UInt32.le_iff_toNat_le, hsize]
      exact hthree
    have hshift : ((8 : UInt32) * ((3 : UInt32) - bits >>> 24)).toNat =
        8 * (3 - compactSize bits) := by
      rw [UInt32.toNat_mul, UInt32.toNat_sub_of_le _ _ hle, hsize]
      change 8 * (3 - compactSize bits) % 2 ^ 32 = _
      omega
    have hvalue : ((bits &&& 0xFFFFFF) >>> ((8 : UInt32) * ((3 : UInt32) - bits >>> 24))).toNat =
        compactMantissa bits * 256 ^ compactSize bits / 256 ^ 3 := by
      rw [UInt32.toNat_shiftRight, hshift, hmant, Nat.mod_eq_of_lt (by omega),
        Nat.shiftRight_eq_div_pow, div_two_pow hthree]
    have hpos : ¬(0x7FFFFF : UInt32) <
        (bits &&& 0xFFFFFF) >>> ((8 : UInt32) * ((3 : UInt32) - bits >>> 24)) := by
      rw [UInt32.lt_iff_toNat_lt, hvalue, ← div_two_pow hthree, Nat.not_lt]
      exact (Nat.div_le_self ..).trans (Nat.le_of_lt_succ hlt)
    obtain ⟨block, hblock, hnum⟩ := Uint256.shl_spec
      (.fromU64 ((bits &&& 0xFFFFFF) >>> ((8 : UInt32) * ((3 : UInt32) - bits >>> 24))).toUInt64) 0
    rw [if_pos hle]
    dsimp only
    rw [if_neg hpos]
    refine ⟨block, hblock, ?_⟩
    rw [hnum, Uint256.toNat_fromU64, UInt32.toNat_toUInt64, hvalue, Nat.pow_zero, Nat.mul_one]
  · have hle : ¬bits >>> 24 ≤ 3 := by
      rw [UInt32.le_iff_toNat_le, hsize]
      exact hthree
    have hshift : ((8 : UInt32) * (bits >>> 24 - 3)).toNat = 8 * (compactSize bits - 3) := by
      have hbits := bits.toNat_lt
      have hsmall : compactSize bits < 2 ^ 8 := by
        rw [compactSize]
        omega
      rw [UInt32.toNat_mul, UInt32.toNat_sub_of_le _ _ (UInt32.le_of_lt (UInt32.not_le.mp hle)),
        hsize]
      change 8 * (compactSize bits - 3) % 2 ^ 32 = _
      omega
    have hpos : ¬ 0x7FFFFF < bits &&& 0xFFFFFF := by
      rw [UInt32.lt_iff_toNat_lt, hmant, Nat.not_lt]
      exact Nat.le_of_lt_succ hlt
    obtain ⟨block, hblock, hnum⟩ := Uint256.shl_spec (.fromU64 (bits &&& 0xFFFFFF).toUInt64)
      ((8 : UInt32) * (bits >>> 24 - 3)).toNat
    rw [if_neg hle]
    dsimp only
    rw [if_neg hpos]
    refine ⟨block, hblock, ?_⟩
    rw [hnum, Uint256.toNat_fromU64, UInt32.toNat_toUInt64, hmant, hshift, mul_two_pow (by omega)]

/-- The bits that the guard lets through stand for a number that the words can hold. -/
theorem compact_lt (hsize : compactSize bits ≤ 34)
    (h34 : 33 < compactSize bits → compactMantissa bits ≤ 0xff)
    (h33 : 32 < compactSize bits → compactMantissa bits ≤ 0xffff) :
    compactMantissa bits * 256 ^ compactSize bits / 256 ^ 3 < 2 ^ 256 := by
  have hmant : compactMantissa bits < 2 ^ 23 := Nat.mod_lt _ (by decide)
  by_cases hthree : 3 ≤ compactSize bits
  · have hfits (k : Nat) (hk : compactMantissa bits < 2 ^ k)
        (hsum : k + 8 * (compactSize bits - 3) ≤ 256) :
        compactMantissa bits * 256 ^ compactSize bits / 256 ^ 3 < 2 ^ 256 := by
      rw [mul_two_pow hthree]
      calc compactMantissa bits * 2 ^ (8 * (compactSize bits - 3))
          < 2 ^ k * 2 ^ (8 * (compactSize bits - 3)) :=
            Nat.mul_lt_mul_of_pos_right hk (Nat.two_pow_pos _)
        _ = 2 ^ (k + 8 * (compactSize bits - 3)) := (Nat.pow_add ..).symm
        _ ≤ 2 ^ 256 := Nat.pow_le_pow_right (by decide) hsum
    by_cases h32 : compactSize bits ≤ 32
    · exact hfits 23 hmant (by omega)
    · have hword := h33 (by omega)
      by_cases hlast : compactSize bits ≤ 33
      · exact hfits 16 (by omega) (by omega)
      · have hbyte := h34 (by omega)
        exact hfits 8 (by omega) (by omega)
  · rw [← div_two_pow (by omega)]
    calc compactMantissa bits / 2 ^ (8 * (3 - compactSize bits)) ≤ compactMantissa bits :=
          Nat.div_le_self ..
      _ < 2 ^ 23 := hmant
      _ < 2 ^ 256 := Nat.pow_lt_pow_right (by decide) (by decide)

/-- The block target that accepted bits stand for, and the easier of the two targets. -/
theorem effectiveTarget_eq_ok {pool target : Uint256}
    (h : effectiveTarget pool (some bits) = some (.ok target)) :
    ∃ block, u256FromCompactTarget bits = some block ∧
      block.toNat = compactMantissa bits * 256 ^ compactSize bits / 256 ^ 3 ∧
        0 < block.toNat ∧ target.toNat = Nat.max pool.toNat block.toNat := by
  rw [effectiveTarget] at h
  split at h
  · cases h
  next hguard =>
  simp only [not_or, not_not, not_and, UInt32.lt_iff_toNat_lt, toNat_shiftRight_24,
    toNat_and_low (m := 0x007fffff) (n := 23) rfl, Nat.not_lt] at hguard
  obtain ⟨hsign, hsize, h34, h33⟩ := hguard
  obtain ⟨block, hblock, hnum⟩ := u256FromCompactTarget_spec hsign
  rw [Nat.mod_eq_of_lt (compact_lt hsize h34 h33)] at hnum
  rw [hblock, Option.bind_eq_bind, Option.bind_some] at h
  split at h
  · cases h
  next hzero =>
  cases h
  refine ⟨block, hblock, hnum, ?_, Uint256.toNat_max⟩
  by_contra hpos
  refine hzero (Uint256.toNat_inj ?_)
  rw [Uint256.toNat_default]
  omega

theorem effectiveTarget_ne_none {pool : Uint256} {blockBits : Option UInt32} :
    effectiveTarget pool blockBits ≠ none := by
  cases blockBits with
  | none => nofun
  | some bits =>
    rw [effectiveTarget]
    split
    · nofun
    next hguard =>
    simp only [not_or, not_not] at hguard
    obtain ⟨block, hblock, -⟩ := u256FromCompactTarget_spec hguard.1
    rw [hblock, Option.bind_eq_bind, Option.bind_some]
    split
    · nofun
    · nofun

end

/-- The shift multiplies modulo 2²⁵⁶ and the order is that of the numbers; so the block target of
accepted bits is their mantissa times the power of 256, not zero and no bit of it lost, and the
result is the larger of the two targets. -/
theorem effectiveTarget_numeric :
    (∀ (x : Uint256) (shift : Nat), ∃ y, x.shl shift = some y ∧
      y.toNat = x.toNat * 2 ^ shift % 2 ^ 256) ∧
    (∀ x y : Uint256, x.cmp y = compare x.toNat y.toNat) ∧
    (∀ pool blockBits, effectiveTarget pool blockBits ≠ none) ∧
    ∀ pool bits target, effectiveTarget pool (some bits) = some (.ok target) →
      ∃ block, u256FromCompactTarget bits = some block ∧
        (3 ≤ compactSize bits →
          block.toNat = compactMantissa bits * 256 ^ (compactSize bits - 3)) ∧
        (compactSize bits < 3 →
          block.toNat = compactMantissa bits / 256 ^ (3 - compactSize bits)) ∧
        0 < block.toNat ∧ block.toNat < 2 ^ 256 ∧
        target.toNat = Nat.max pool.toNat block.toNat := by
  refine ⟨fun x shift => x.shl_spec shift, fun x y => Uint256.cmp_eq,
    fun pool blockBits => effectiveTarget_ne_none, ?_⟩
  intro pool bits target h
  obtain ⟨block, hblock, hnum, hpos, hmax⟩ := effectiveTarget_eq_ok h
  refine ⟨block, hblock, ?_, ?_, hpos, Uint256.toNat_lt, hmax⟩
  · intro hsize
    rw [hnum, mul_two_pow hsize, Nat.pow_mul]
  · intro hsize
    rw [hnum, ← div_two_pow hsize.le, Nat.pow_mul]

/-- The bits 1d00ffff against a pool target of 5. -/
theorem effectiveTarget_numeric_first :
    ∃ block, u256FromCompactTarget 0x1d00ffff = some block ∧ block.toNat = 0xffff * 256 ^ 26 := by
  have haccepted : effectiveTarget (.fromU64 5) (some 0x1d00ffff) =
      some (.ok ⟨#v[0, 0, 0, 0xffff0000]⟩) := by decide +kernel
  obtain ⟨block, hblock, hnum, -⟩ := effectiveTarget_numeric.2.2.2 _ _ _ haccepted
  exact ⟨block, hblock, hnum (by decide)⟩

end KeryxMiner.Stratum
