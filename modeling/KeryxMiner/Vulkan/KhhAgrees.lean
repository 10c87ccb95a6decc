import KeryxMiner.SharedMemory
import KeryxMiner.Vulkan.Khh

/-!
# The hash of the shader is that of the host

Nibbles, packed products and sponges are taken one by one to those of the host (`khhHash_eq`), and the
atomic minimum of a batch to the first nonce that the host's test accepts (`mine_eq_find`).
-/

namespace KeryxMiner.Vulkan

open Keccak Stratum KeryxMiner.Pow

variable {pw : List UInt64} {bytes : List UInt8} {i j k q n : Nat}

/-! ## Bytes of the hash -/

theorem leAt_eq (h : 8 * j + 8 ≤ bytes.length) :
    leAt 8 bytes (8 * j) = ofLe ((List.range 8).map fun q => bytes.getD (8 * j + q) 0) := by
  rw [leAt]
  congr 1
  apply List.ext_getElem
  · rw [List.length_take, List.length_drop, List.length_map, List.length_range]
    omega
  · intro q _ hq
    rw [List.length_map, List.length_range] at hq
    rw [List.getElem_take, List.getElem_drop, List.getElem_map, List.getElem_range,
      List.getD_eq_getElem _ _ (by omega)]

theorem length_flatMap_wordBytes : (pw.flatMap wordBytes).length = 8 * pw.length := by
  simp [List.length_flatMap, Nat.mul_comm]

theorem toNat_hashByte (hi : i < 8 * pw.length) :
    hashByte pw i = ((pw.flatMap wordBytes).getD i 0).toUInt32 := by
  have hlen : (pw.flatMap wordBytes).length = 8 * pw.length := length_flatMap_wordBytes
  have hword : (pw.getD (i / 8) 0).toNat =
      ofLe ((List.range 8).map fun q => (pw.flatMap wordBytes).getD (8 * (i / 8) + q) 0) := by
    rw [← leAt_wordBytes, leAt_eq (by omega)]
  have hq : i % 8 < 8 := Nat.mod_lt _ (by decide)
  have hplace : 8 * (i / 8) + i % 8 = i := Nat.div_add_mod ..
  rw [← UInt32.toNat_inj, hashByte, UInt64.toNat_toUInt32, toNat_byteAt64 hq, hword, ofLe_byte,
    List.getD_eq_getElem _ _ (by simpa using hq), List.getElem_map, List.getElem_range, hplace,
    UInt8.toNat_toUInt32]
  have := ((pw.flatMap wordBytes).getD i 0).toNat_lt
  omega

theorem getD_nibbles : (nibbles bytes).getD n 0 =
    if n % 2 = 0 then bytes.getD (n / 2) 0 >>> 4 else bytes.getD (n / 2) 0 &&& 0x0F := by
  induction bytes generalizing n with
  | nil => simp [nibbles]
  | cons b bytes ih =>
    match n with
    | 0 => rfl
    | 1 => rfl
    | n + 2 =>
      have hmod : (n + 2) % 2 = n % 2 := by omega
      have hdiv : (n + 2) / 2 = n / 2 + 1 := by omega
      rw [hmod, hdiv, List.getD_cons_succ, ← ih]
      rfl

theorem nibbleAt_eq (hn : n < 16 * pw.length) :
    nibbleAt pw n = ((nibbles (pw.flatMap wordBytes)).getD n 0).toUInt32 := by
  rw [nibbleAt, getD_nibbles, toNat_hashByte (by omega)]
  split
  · rfl
  · rfl

theorem nibbles_lt : ((nibbles bytes).getD n 0).toNat < 16 := by
  rw [getD_nibbles]
  split
  · have := (bytes.getD (n / 2) 0).toNat_lt
    rw [UInt8.toNat_shiftRight]
    change (bytes.getD (n / 2) 0).toNat >>> 4 < 16
    rw [Nat.shiftRight_eq_div_pow]
    omega
  · rw [UInt8.toNat_and]
    exact Nat.and_lt_two_pow _ (show 15 < 2 ^ 4 by decide)

/-! ## Packed words -/

/-- The byte of a packed word in its place. -/
theorem byte_of_packed {v : UInt32} {b : Nat → UInt8} (hv : v.toNat = ofLe ((List.range 4).map b))
    (hq : q < 4) : ((v >>> UInt32.ofNat (8 * q)) &&& 0xFF).toNat = (b q).toNat := by
  rw [toNat_byteAt32 hq, hv, ofLe_byte, List.getD_eq_getElem _ _ (by simpa using hq),
    List.getElem_map, List.getElem_range]

theorem toNat_packNibbles (hk : 4 * k + 4 ≤ 16 * pw.length) : (packNibbles pw k).toNat =
    ofLe ((List.range 4).map fun q => (nibbles (pw.flatMap wordBytes)).getD (4 * k + q) 0) := by
  have hfold : packNibbles pw k = (List.range 4).foldl (fun v q =>
      v ||| ((nibbles (pw.flatMap wordBytes)).getD (4 * k + q) 0).toUInt32 <<< UInt32.ofNat (8 * q))
      0 := by
    rw [packNibbles]
    apply List.foldl_ext
    intro v q hq
    have hlt : q < 4 := List.mem_range.mp hq
    rw [nibbleAt_eq (by omega)]
  rw [hfold]
  exact toNat_foldl_or UInt32.toNat (fun q b => b.toUInt32 <<< UInt32.ofNat (8 * q))
    UInt32.toNat_or (fun q hq b => toNat_place32 hq b) rfl le_rfl

theorem and_lowByte {x : UInt32} : x &&& 0xFF = x.toUInt8.toUInt32 := by
  rw [← UInt32.toNat_inj, UInt32.toNat_and, UInt8.toNat_toUInt32, UInt32.toNat_toUInt8]
  exact Nat.and_two_pow_sub_one_eq_mod _ 8

theorem toNat_packMatrix {matrix : List UInt32} {w : Nat} (hw : w < 1024) :
    ((packMatrix matrix).getD w 0).toNat =
      ofLe ((List.range 4).map fun q => (matrix.getD (4 * w + q) 0).toUInt8) := by
  have hscatter : packMatrix matrix = scatter (· ||| ·)
      (fun e => (matrix.getD e 0 &&& 0xFF) <<< UInt32.ofNat (8 * (e % 4))) 4 (4 * 1024)
      (List.replicate 1024 0) := rfl
  have hplace : ∀ q < 4, (matrix.getD (4 * w + q) 0 &&& 0xFF) <<< UInt32.ofNat (8 * ((4 * w + q) % 4)) =
      (matrix.getD (4 * w + q) 0).toUInt8.toUInt32 <<< UInt32.ofNat (8 * q) := by
    intro q hq
    have hmod : (4 * w + q) % 4 = q := by omega
    rw [hmod, and_lowByte]
  have hword : (packMatrix matrix).getD w 0 = (List.range 4).foldl (fun v q =>
      v ||| ((matrix.getD (4 * w + q) 0).toUInt8).toUInt32 <<< UInt32.ofNat (8 * q)) 0 := by
    rw [List.getD_eq_getElem?_getD, hscatter, getElem?_scatter (by decide) hw,
      List.getElem?_replicate_of_lt hw, Option.map_some, Option.getD_some]
    exact List.foldl_ext _ _ _ fun v q hq => by rw [hplace q (List.mem_range.mp hq)]
  rw [hword]
  exact toNat_foldl_or UInt32.toNat (fun q b => b.toUInt32 <<< UInt32.ofNat (8 * q))
    UInt32.toNat_or (fun q hq b => toNat_place32 hq b) rfl le_rfl

/-! ## Products -/

theorem toNat_dotPacked4x8 {a b : UInt32} {f g : Nat → UInt8}
    (ha : a.toNat = ofLe ((List.range 4).map f)) (hb : b.toNat = ofLe ((List.range 4).map g)) :
    (dotPacked4x8 a b).toNat =
      ((List.range 4).map fun q => (f q).toNat * (g q).toNat).sum := by
  have hterm : ∀ q ∈ List.range 4, (f q).toNat * (g q).toNat ≤ 255 * 255 := fun q _ =>
    Nat.mul_le_mul (Nat.le_pred_of_lt (f q).toNat_lt) (Nat.le_pred_of_lt (g q).toNat_lt)
  have hsum := sum_map_le hterm
  rw [List.length_range] at hsum
  rw [dotPacked4x8, toNat_foldl_add UInt32.toNat UInt32.toNat_add rfl,
    UInt32.toNat_zero, Nat.zero_add]
  have hmap : (List.range 4).map (fun q => (((a >>> UInt32.ofNat (8 * q)) &&& 0xFF) *
      ((b >>> UInt32.ofNat (8 * q)) &&& 0xFF)).toNat) =
      (List.range 4).map fun q => (f q).toNat * (g q).toNat := by
    apply List.map_congr_left
    intro q hq
    have hlt := List.mem_range.mp hq
    have hle := hterm q hq
    rw [UInt32.toNat_mul, byte_of_packed ha hlt, byte_of_packed hb hlt]
    omega
  rw [hmap]
  omega

/-- The matrix as the worker flattens it. -/
theorem getD_flatMap_rows {m : Matrix} (hcols : ∀ row ∈ m, row.length = 64) {r c : Nat}
    (hc : c < 64) : (m.flatMap fun row => row.map UInt16.toUInt32).getD (64 * r + c) 0 =
      ((m.getD r []).getD c 0).toUInt32 := by
  induction m generalizing r with
  | nil => rfl
  | cons row m ih =>
    have hrow := hcols row (by simp)
    have hlen : (row.map UInt16.toUInt32).length = 64 := by rw [List.length_map, hrow]
    rw [List.flatMap_cons]
    cases r with
    | zero =>
      rw [Nat.mul_zero, Nat.zero_add, List.getD_append _ _ _ _ (by omega), List.getD_cons_zero,
        List.getD_eq_getElem _ _ (by omega), List.getElem_map, List.getD_eq_getElem _ _ (by omega)]
    | succ r =>
      rw [List.getD_append_right _ _ _ _ (by omega), hlen, List.getD_cons_succ,
        ← ih (fun row' h => hcols row' (by simp [h]))]
      congr 1
      omega

theorem length_nibbles : (nibbles bytes).length = 2 * bytes.length := by
  simp [nibbles, List.length_flatMap, Nat.mul_comm]

/-- The matrix of a job as the shader sees it. -/
def khhMatrix (m : Matrix) : List UInt32 := packMatrix (m.flatMap fun row => row.map UInt16.toUInt32)

theorem getD_lt {m : Matrix} (hm : m.FourBit) {r c : Nat} : ((m.getD r []).getD c 0).toNat < 16 := by
  rw [List.getD_eq_getElem?_getD]
  cases hx : (m.getD r [])[c]? with
  | none => decide
  | some x =>
    rw [List.getD_eq_getElem?_getD] at hx
    cases hrow : m[r]? with
    | none => simp [hrow] at hx
    | some row =>
      rw [hrow] at hx
      exact hm.entry row (List.mem_of_getElem? hrow) x (List.mem_of_getElem? hx)

theorem mem_nibbles_lt {b : UInt8} (hb : b ∈ nibbles bytes) : b.toNat < 16 := by
  obtain ⟨n, hn, rfl⟩ := List.mem_iff_getElem.mp hb
  rw [← List.getD_eq_getElem _ 0 hn]
  exact nibbles_lt

theorem toNat_khhRowSum {m : Matrix} (hm : m.FourBit) (hpw : pw.length = 4) {r : Nat} (hr : r < 64) :
    (khhRowSum (khhMatrix m) pw r).toNat =
      (Matrix.rowSum (m.getD r []) (nibbles (pw.flatMap wordBytes))).toNat := by
  have hvec : (nibbles (pw.flatMap wordBytes)).length = 64 := by
    rw [length_nibbles, length_flatMap_wordBytes, hpw]
  have hrow : m.getD r [] ∈ m := by
    rw [List.getD_eq_getElem _ _ (hm.rows ▸ hr)]
    exact List.getElem_mem _
  have hterm : ∀ k ∈ List.range 16,
      (dotPacked4x8 ((khhMatrix m).getD (r * 16 + k) 0) (packNibbles pw k)).toNat =
        ((List.range 4).map fun q => ((m.getD r []).getD (4 * k + q) 0).toNat *
          ((nibbles (pw.flatMap wordBytes)).getD (4 * k + q) 0).toNat).sum := by
    intro k hk
    have hk := List.mem_range.mp hk
    rw [khhMatrix, toNat_dotPacked4x8 (toNat_packMatrix (by omega)) (toNat_packNibbles (by omega))]
    congr 1
    apply List.map_congr_left
    intro q hq
    have hq := List.mem_range.mp hq
    have hplace : 4 * (r * 16 + k) + q = 64 * r + (4 * k + q) := by omega
    rw [hplace, getD_flatMap_rows hm.cols (by omega), UInt32.toNat_toUInt8, UInt16.toNat_toUInt32]
    have hlt := @getD_lt m hm r (4 * k + q)
    congr 1
    omega
  have hmap := List.map_congr_left hterm
  have hblocks : ((List.range 16).map fun k => ((List.range 4).map fun q =>
      ((m.getD r []).getD (4 * k + q) 0).toNat *
        ((nibbles (pw.flatMap wordBytes)).getD (4 * k + q) 0).toNat).sum).sum =
      ((List.range 64).map fun j => ((m.getD r []).getD j 0).toNat *
        ((nibbles (pw.flatMap wordBytes)).getD j 0).toNat).sum :=
    sum_range_blocks (fun j => ((m.getD r []).getD j 0).toNat *
      ((nibbles (pw.flatMap wordBytes)).getD j 0).toNat) 4 16
  have hsum : ((List.range 64).map fun j => ((m.getD r []).getD j 0).toNat *
      ((nibbles (pw.flatMap wordBytes)).getD j 0).toNat).sum ≤ (List.range 64).length * (15 * 15) :=
    sum_map_le fun j _ =>
      Nat.mul_le_mul (Nat.le_of_lt_succ (getD_lt hm)) (Nat.le_of_lt_succ nibbles_lt)
  rw [List.length_range] at hsum
  rw [khhRowSum, toNat_foldl_add UInt32.toNat UInt32.toNat_add rfl, UInt32.toNat_zero, Nat.zero_add,
    hmap, hblocks, Matrix.toNat_rowSum (hm.cols _ hrow) hvec (hm.entry _ hrow)
      fun b hb => mem_nibbles_lt hb]
  omega

theorem rowSum_le {m : Matrix} (hm : m.FourBit) (hbytes : bytes.length = 32) {r : Nat} (hr : r < 64) :
    (Matrix.rowSum (m.getD r []) (nibbles bytes)).toNat ≤ 14400 := by
  have hrow : m.getD r [] ∈ m := by
    rw [List.getD_eq_getElem _ _ (hm.rows ▸ hr)]
    exact List.getElem_mem _
  rw [Matrix.toNat_rowSum (hm.cols _ hrow) (by rw [length_nibbles, hbytes]) (hm.entry _ hrow)
    fun b hb => mem_nibbles_lt hb]
  refine (sum_map_le fun j _ =>
    Nat.mul_le_mul (Nat.le_of_lt_succ (getD_lt hm)) (Nat.le_of_lt_succ nibbles_lt)).trans ?_
  rw [List.length_range]

/-- The byte of the product from two sums that are small enough. -/
theorem matbyte_eq {s1 s2 : UInt32} {t1 t2 : UInt16} (h1 : s1.toNat = t1.toNat)
    (h2 : s2.toNat = t2.toNat) (ht1 : t1.toNat ≤ 14400) (ht2 : t2.toNat ≤ 14400) :
    ((s1 >>> 10) <<< 4) ||| (s2 >>> 10) =
      (((t1 >>> 10) <<< 4).toUInt8 ||| (t2 >>> 10).toUInt8).toUInt32 := by
  have hs1 : (s1 >>> 10).toNat = t1.toNat / 1024 := by
    rw [UInt32.toNat_shiftRight, h1]
    exact Nat.shiftRight_eq_div_pow ..
  have hs2 : (s2 >>> 10).toNat = t2.toNat / 1024 := by
    rw [UInt32.toNat_shiftRight, h2]
    exact Nat.shiftRight_eq_div_pow ..
  have ht1' : (t1 >>> 10).toNat = t1.toNat / 1024 := by
    rw [UInt16.toNat_shiftRight]
    exact Nat.shiftRight_eq_div_pow ..
  have ht2' : (t2 >>> 10).toNat = t2.toNat / 1024 := by
    rw [UInt16.toNat_shiftRight]
    exact Nat.shiftRight_eq_div_pow ..
  have hleft : ((s1 >>> 10) <<< 4).toNat = t1.toNat / 1024 * 16 := by
    rw [UInt32.toNat_shiftLeft, hs1]
    change (t1.toNat / 1024) <<< 4 % 2 ^ 32 = _
    rw [Nat.shiftLeft_eq]
    omega
  have hleft' : ((t1 >>> 10) <<< 4).toUInt8.toNat = t1.toNat / 1024 * 16 := by
    rw [UInt16.toNat_toUInt8, UInt16.toNat_shiftLeft, ht1']
    change (t1.toNat / 1024) <<< 4 % 2 ^ 16 % 2 ^ 8 = _
    rw [Nat.shiftLeft_eq]
    omega
  have hright : (t2 >>> 10).toUInt8.toNat = t2.toNat / 1024 := by
    rw [UInt16.toNat_toUInt8, ht2']
    omega
  rw [← UInt32.toNat_inj, UInt32.toNat_or, UInt8.toNat_toUInt32, UInt8.toNat_or, hleft, hs2, hleft',
    hright]

/-- The bytes that the matrix product leaves, on the host. -/
def productBytes (m : Matrix) (bytes : List UInt8) : List UInt8 :=
  List.zipWith (· ^^^ ·) (m.product bytes) bytes

theorem getD_productBytes {m : Matrix} (hbytes : bytes.length = 32) (hi : i < 32) :
    (productBytes m bytes).getD i 0 =
      ((((Matrix.rowSum (m.getD (2 * i) []) (nibbles bytes)) >>> 10) <<< 4).toUInt8 |||
        ((Matrix.rowSum (m.getD (2 * i + 1) []) (nibbles bytes)) >>> 10).toUInt8) ^^^
        bytes.getD i 0 := by
  have hbyte : bytes[i]? = some (bytes.getD i 0) := by
    rw [List.getD_eq_getElem _ _ (by omega), List.getElem?_eq_getElem]
  have hget : (productBytes m bytes)[i]? = some
      (((((Matrix.rowSum (m.getD (2 * i) []) (nibbles bytes)) >>> 10) <<< 4).toUInt8 |||
        ((Matrix.rowSum (m.getD (2 * i + 1) []) (nibbles bytes)) >>> 10).toUInt8) ^^^
        bytes.getD i 0) := by
    rw [productBytes, List.getElem?_zipWith, hbyte, Matrix.product, List.getElem?_map,
      List.getElem?_range hi]
    rfl
  exact congrArg (·.getD 0) hget

theorem outByte_eq {m : Matrix} (hm : m.FourBit) (hpw : pw.length = 4) (hi : i < 32) :
    outByte (khhMatrix m) pw i = ((productBytes m (pw.flatMap wordBytes)).getD i 0).toUInt32 := by
  have hbytes : (pw.flatMap wordBytes).length = 32 := by rw [length_flatMap_wordBytes, hpw]
  have hmat := matbyte_eq (toNat_khhRowSum hm hpw (show 2 * i < 64 by omega))
    (toNat_khhRowSum hm hpw (show 2 * i + 1 < 64 by omega)) (rowSum_le hm hbytes (by omega))
    (rowSum_le hm hbytes (by omega))
  rw [getD_productBytes hbytes hi, outByte, hmat, toNat_hashByte (by omega)]
  generalize ((Matrix.rowSum (m.getD (2 * i) []) _ >>> 10) <<< 4).toUInt8 |||
    (Matrix.rowSum (m.getD (2 * i + 1) []) _ >>> 10).toUInt8 = a
  generalize (pw.flatMap wordBytes).getD i 0 = b
  have hlt := (a ^^^ b).toNat_lt
  rw [and_lowByte, ← UInt32.toNat_inj, UInt8.toNat_toUInt32, UInt32.toNat_toUInt8,
    UInt32.toNat_xor, UInt8.toNat_toUInt32, UInt8.toNat_toUInt32, UInt8.toNat_toUInt32,
    ← UInt8.toNat_xor]
  omega

theorem getD_matmulWords {m : Matrix} (hm : m.FourBit) (hpw : pw.length = 4) (hj : j < 4) :
    (matmulWords (khhMatrix m) pw).getD j 0 = wordOf (productBytes m (pw.flatMap wordBytes)) j := by
  have hbytes : (pw.flatMap wordBytes).length = 32 := by rw [length_flatMap_wordBytes, hpw]
  have hlen : (productBytes m (pw.flatMap wordBytes)).length = 32 := by
    simp [productBytes, Matrix.product, hbytes]
  have hscatter : matmulWords (khhMatrix m) pw = scatter (· ||| ·)
      (fun i => (outByte (khhMatrix m) pw i).toUInt64 <<< UInt64.ofNat (8 * (i % 8))) 8 (8 * 4)
      (List.replicate 4 0) := rfl
  have hplace : ∀ q < 8, (outByte (khhMatrix m) pw (8 * j + q)).toUInt64 <<<
      UInt64.ofNat (8 * ((8 * j + q) % 8)) =
      ((productBytes m (pw.flatMap wordBytes)).getD (8 * j + q) 0).toUInt64 <<<
        UInt64.ofNat (8 * q) := by
    intro q hq
    have hmod : (8 * j + q) % 8 = q := by omega
    rw [hmod, outByte_eq hm hpw (by omega), UInt8.toUInt64_toUInt32]
  have hword : (matmulWords (khhMatrix m) pw).getD j 0 = (List.range 8).foldl (fun v q =>
      v ||| ((productBytes m (pw.flatMap wordBytes)).getD (8 * j + q) 0).toUInt64 <<<
        UInt64.ofNat (8 * q)) 0 := by
    rw [List.getD_eq_getElem?_getD, hscatter, getElem?_scatter (by decide) hj,
      List.getElem?_replicate_of_lt hj, Option.map_some, Option.getD_some]
    exact List.foldl_ext _ _ _ fun v q hq => by rw [hplace q (List.mem_range.mp hq)]
  have hnat : ((matmulWords (khhMatrix m) pw).getD j 0).toNat =
      leAt 8 (productBytes m (pw.flatMap wordBytes)) (8 * j) := by
    rw [hword, leAt_eq (by omega)]
    exact toNat_foldl_or UInt64.toNat (fun q b => b.toUInt64 <<< UInt64.ofNat (8 * q))
      UInt64.toNat_or (fun q hq b => toNat_place64 hq b) rfl le_rfl
  rw [wordOf, ← hnat, UInt64.ofNat_toNat]

/-! ## The sponges -/

theorem khhWaveMixRound_eq : khhWaveMixRound = waveMixRound := by
  funext w r
  simp (disch := decide) only [khhWaveMixRound, rotl64_eq]
  rfl

theorem wordOf_wordBytes : wordOf (pw.flatMap wordBytes) i = pw.getD i 0 := by
  rw [wordOf, leAt_wordBytes, UInt64.ofNat_toNat]

theorem powState_eq {pc : KhhPush} {nonce : UInt64} (hheader : pc.header.length = 9) :
    powState pc nonce = xorWords PowHasher.INITIAL_STATE (pc.header ++ [nonce]) := by
  apply Vector.ext
  intro i hi
  rw [powState, Vector.getElem_mapIdx, getElem_xorWords hi]
  split_ifs with hlt heq
  · rw [List.getD_append _ _ _ _ (by omega)]
    rfl
  · subst heq
    rw [List.getD_append_right _ _ _ _ (by omega), hheader]
    rfl
  · rw [List.getD_eq_default _ _ (by rw [List.length_append, hheader, List.length_singleton]; omega),
      UInt64.xor_zero]
    rfl

theorem heavyState_eq {w : WaveWords} : heavyState w =
    xorWords HeavyHasher.INITIAL_STATE [w.w0, w.w1, w.w2, w.w3] := by
  apply Vector.ext
  intro i hi
  rw [heavyState, Vector.getElem_mapIdx, getElem_xorWords hi]
  split_ifs with hlt
  · rfl
  · rw [List.getD_eq_default _ _ (Nat.le_of_not_lt hlt), UInt64.xor_zero]
    rfl

theorem khhHeavy_eq {w : WaveWords} : firstWords (keccakf (heavyState w)) =
    (HeavyHasher.hash ⟨#v[w.w0, w.w1, w.w2, w.w3]⟩).words.toList := by
  rw [heavyState_eq, keccakf_eq]
  rfl

theorem lowEnough_eq {x y : Uint256} :
    lowEnough x.words.toList y.words.toList = (x.cmp y != .gt) := by
  have hlen (z : Uint256) : z.words.toList.length = 4 := Vector.length_toList
  obtain ⟨x0, x1, x2, x3, hx⟩ := List.length_eq_four.mp (hlen x)
  obtain ⟨y0, y1, y2, y3, hy⟩ := List.length_eq_four.mp (hlen y)
  rw [Uint256.cmp, hx, hy]
  exact decide_word (decide_word (decide_word (decide_word rfl)))

/-! ## A nonce -/

/-- What a block is uploaded as, for one batch. -/
def khhPush (s : Pow.State) (start nonceMask nonceFixed : UInt64) (batch : UInt32) : KhhPush :=
  { header := (List.range 9).map (wordOf s.powHashHeader)
    target := s.target.words.toList
    startNonce := start
    nonceMask
    nonceFixed
    batch }

theorem ofFn_waveMix : (Vector.ofFn fun i : Fin 4 => wordOf (waveMix bytes) i) =
    let w := (List.range 4).foldl waveMixRound
      ⟨wordOf bytes 0, wordOf bytes 1, wordOf bytes 2, wordOf bytes 3⟩
    #v[w.w0, w.w1, w.w2, w.w3] := by
  rw [waveMix]
  generalize (List.range 4).foldl waveMixRound _ = w
  have hwords : wordBytes w.w0 ++ wordBytes w.w1 ++ wordBytes w.w2 ++ wordBytes w.w3 =
      [w.w0, w.w1, w.w2, w.w3].flatMap wordBytes := by
    simp
  apply Vector.ext
  intro i hi
  rw [Vector.getElem_ofFn, hwords, wordOf_wordBytes]
  interval_cases i <;> rfl

theorem map_wordOf (ws : List UInt64) : (List.range ws.length).map (wordOf (ws.flatMap wordBytes)) =
    ws := by
  apply List.ext_getElem
  · rw [List.length_map, List.length_range]
  · intro i _ hi
    rw [List.getElem_map, List.getElem_range, wordOf_wordBytes, List.getD_eq_getElem _ _ hi]

section

variable {rank : Matrix → Nat} {fuel : Nat} {isTestnet : Bool} {prePowHash target : Uint256}
  {timestamp nonceMask nonceFixed daaScore : UInt64} {s : Pow.State}

variable (hs : State.new rank fuel isTestnet prePowHash timestamp target nonceMask nonceFixed
  daaScore = some s) {start mask fixed nonce : UInt64} {batch : UInt32}

include hs

theorem khhPush_header : (khhPush s start mask fixed batch).header =
    prePowHash.words.toList ++ [timestamp, 0, 0, 0, 0] := by
  obtain ⟨-, -, hheader⟩ := State.new_eq_some hs
  have hlen : (prePowHash.words.toList ++ [timestamp, 0, 0, 0, 0]).length = 9 := by
    rw [List.length_append, Vector.length_toList]
    rfl
  have hmap := map_wordOf (prePowHash.words.toList ++ [timestamp, 0, 0, 0, 0])
  rw [hlen, ← hheader] at hmap
  exact hmap

/-- The first sponge. -/
theorem firstWords_powState :
    firstWords (keccakf (powState (khhPush s start mask fixed batch) nonce)) =
      (s.hasher.finalizeWithNonce nonce).words.toList := by
  obtain ⟨-, hhasher, -⟩ := State.new_eq_some hs
  have hheader : (khhPush s start mask fixed batch).header =
      prePowHash.words.toList ++ [timestamp, 0, 0, 0, 0] := khhPush_header hs
  have hlen : (khhPush s start mask fixed batch).header.length = 9 := by
    rw [hheader, List.length_append, Vector.length_toList]
    rfl
  rw [powState_eq hlen, hheader, List.append_assoc, keccakf_eq, hhasher]
  exact congrArg (fun a => firstWords (Lanes.f1600 a)) (xorWords_set Vector.length_toList)

theorem khhHash_eq : khhHash (khhMatrix s.matrix) (khhPush s start mask fixed batch) nonce =
    (s.calculatePow nonce).words.toList := by
  obtain ⟨hm, -, -⟩ := State.new_eq_some hs
  have hpw : (s.hasher.finalizeWithNonce nonce).words.toList.length = 4 := Vector.length_toList
  rw [khhHash, firstWords_powState hs, getD_matmulWords hm hpw (by decide),
    getD_matmulWords hm hpw (by decide), getD_matmulWords hm hpw (by decide),
    getD_matmulWords hm hpw (by decide), khhWaveMixRound_eq, khhHeavy_eq]
  exact congrArg (fun words => (HeavyHasher.hash ⟨words⟩).words.toList) ofFn_waveMix.symm

/-- An invocation brings its number in where the host's test accepts the nonce. -/
theorem khhMain_eq {low idx : UInt32} :
    khhMain (khhMatrix s.matrix) (khhPush s start mask fixed batch) low idx =
      if (idx < batch ∧ s.checkPow (((start + idx.toUInt64) &&& mask) ||| fixed)) ∧
        idx.toNat < low.toNat then idx else low := by
  have hbatch : (khhPush s start mask fixed batch).batch ≤ idx ↔ ¬ idx < batch := UInt32.not_lt.symm
  have hlow : lowEnough (khhHash (khhMatrix s.matrix) (khhPush s start mask fixed batch)
      (((start + idx.toUInt64) &&& mask) ||| fixed)) (khhPush s start mask fixed batch).target =
      s.checkPow (((start + idx.toUInt64) &&& mask) ||| fixed) := by
    rw [khhHash_eq hs]
    exact lowEnough_eq
  rw [khhMain]
  by_cases hlt : idx < batch
  · rw [if_neg fun hle => hbatch.mp hle hlt]
    change (if lowEnough (khhHash (khhMatrix s.matrix) (khhPush s start mask fixed batch)
      (((start + idx.toUInt64) &&& mask) ||| fixed)) (khhPush s start mask fixed batch).target then
        if idx < low then idx else low else low) = _
    rw [hlow]
    simp only [hlt, true_and, UInt32.lt_iff_toNat_lt]
    split_ifs <;> simp_all
  · rw [if_pos (hbatch.mpr hlt), if_neg fun h => hlt h.1.1]

end

theorem mem_khhInvocations {batch idx : UInt32} (h : idx < batch) : idx ∈ khhInvocations batch := by
  have hlt := UInt32.lt_iff_toNat_lt.mp h
  exact List.mem_map.mpr ⟨idx.toNat, List.mem_range.mpr (by omega), UInt32.ofNat_toNat⟩

/-- A batch gives the first nonce that the host's test accepts, in whatever order it is invoked. -/
theorem mine_eq_find {rank : Matrix → Nat} {fuel : Nat} {isTestnet : Bool}
    {prePowHash target : Uint256} {timestamp nonceMask nonceFixed daaScore : UInt64} {s : Pow.State}
    (hs : State.new rank fuel isTestnet prePowHash timestamp target nonceMask nonceFixed daaScore =
      some s)
    {batch : UInt32} {ids : List UInt32} (hids : ids.Perm (khhInvocations batch))
    (start mask fixed : UInt64) :
    (loadBlockConstants s.powHashHeader s.matrix s.target).mine start batch mask fixed ids =
      ((List.range batch.toNat).map fun o => ((start + UInt64.ofNat o) &&& mask) ||| fixed).find?
        fun nonce => s.checkPow nonce := by
  have hmine : (loadBlockConstants s.powHashHeader s.matrix s.target).mine start batch mask fixed ids =
      if batch = 0 then none
      else
        let low := ids.foldl (khhMain (khhMatrix s.matrix) (khhPush s start mask fixed batch)) NO_WINNER
        if low = NO_WINNER then none
        else some (((start + low.toUInt64) &&& mask) ||| fixed) := by
    have hgpu : loadBlockConstants s.powHashHeader s.matrix s.target =
        ⟨khhMatrix s.matrix, (List.range 9).map (wordOf s.powHashHeader), s.target.words.toList⟩ := rfl
    rw [hgpu, KhhGpu.mine, khhPush]
  have hlowest : Lowest UInt32.toNat
      (fun idx => idx < batch ∧ s.checkPow (((start + idx.toUInt64) &&& mask) ||| fixed)) ids
      NO_WINNER (ids.foldl (khhMain (khhMatrix s.matrix) (khhPush s start mask fixed batch))
        NO_WINNER) :=
    lowest_foldl fun _ _ => khhMain_eq hs
  have hall : ∀ o < batch.toNat, ∃ i ∈ ids, i.toNat = o := by
    intro o ho
    have hnat : (UInt32.ofNat o).toNat = o := UInt32.toNat_ofNat_of_lt' (ho.trans batch.toNat_lt)
    have hlt : UInt32.ofNat o < batch := UInt32.lt_iff_toNat_lt.mpr (hnat.symm ▸ ho)
    exact ⟨_, hids.mem_iff.mpr (mem_khhInvocations hlt), hnat⟩
  rw [hmine, List.find?_map]
  split_ifs with hzero
  · rw [hzero]
    rfl
  dsimp only
  rw [hlowest.find?_range (Nat.le_of_lt_succ batch.toNat_lt) ?_ hall]
  · split_ifs with hnone
    · rfl
    · rw [Option.map_some, UInt64.ofNat_uInt32ToNat]
  · intro idx
    rw [Function.comp_apply, UInt64.ofNat_uInt32ToNat, UInt32.lt_iff_toNat_lt]

/-- Two workgroups, from the last invocation to the first, with a matrix of full rank. -/
theorem mine_eq_find_reversed :
    ∃ s, State.new (fun _ => 64) 1 false default 5435345234
        ⟨Vector.replicate 4 0x00FFFFFFFFFFFFFF⟩ 0 0 432432432 = some s ∧
      (loadBlockConstants s.powHashHeader s.matrix s.target).mine 432432432 300
        0xFFFFFFFF 0x100000000 (khhInvocations 300).reverse =
        ((List.range 300).map fun o =>
          ((432432432 + UInt64.ofNat o) &&& 0xFFFFFFFF) ||| 0x100000000).find?
          fun nonce => s.checkPow nonce := by
  obtain ⟨s, hs⟩ : ∃ s, State.new (fun _ => 64) 1 false default 5435345234
      ⟨Vector.replicate 4 0x00FFFFFFFFFFFFFF⟩ 0 0 432432432 = some s := ⟨_, rfl⟩
  exact ⟨s, hs, mine_eq_find hs (List.reverse_perm _) 432432432 0xFFFFFFFF 0x100000000⟩

end KeryxMiner.Vulkan
