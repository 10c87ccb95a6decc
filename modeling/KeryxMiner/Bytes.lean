import KeryxMiner.LittleEndian

/-!
# Arrays in byte strings

`bytesAt` and `leAt` read an array or a little-endian number at a place in some bytes. Where the
place is inside, the bytes from there on are what was read and the rest (`drop_eq_bytesAt`,
`drop_eq_leAt`); and what stands at a place is read there (`bytesAt_zero`, `bytesAt_append`,
`leAt_wordBytes`).
-/

namespace KeryxMiner

variable {n start k : Nat} {data pre rest : List UInt8}

/-- The `n` bytes of `data` from `start` on. -/
def bytesAt (n : Nat) (data : List UInt8) (start : Nat) : Vector UInt8 n :=
  Vector.ofFn fun i => data.getD (start + i) 0

/-- The little-endian number in the `n` bytes of `data` from `start` on. -/
def leAt (n : Nat) (data : List UInt8) (start : Nat) : Nat := ofLe ((data.drop start).take n)

def wordBytes (w : UInt64) : List UInt8 := toLe 8 w.toNat

/-- The bytes as an array, if there are `n` of them. -/
def toVector (n : Nat) (data : List UInt8) : Option (Vector UInt8 n) :=
  if h : data.length = n then some ⟨data.toArray, h⟩ else none

theorem toVector_toList {v : Vector UInt8 n} : toVector n v.toList = some v := by
  rw [toVector, dif_pos Vector.length_toList]
  congr 1

theorem toVector_of_length (h : data.length = n) : ∃ v, toVector n data = some v ∧ v.toList = data :=
  ⟨⟨data.toArray, h⟩, dif_pos h, rfl⟩

theorem toList_bytesAt (h : start + n ≤ data.length) :
    (bytesAt n data start).toList = (data.drop start).take n := by
  apply List.ext_getElem
  · rw [Vector.length_toList, List.length_take, List.length_drop]
    omega
  · intro i hi _
    rw [Vector.length_toList] at hi
    have hlt : start + i < data.length := by omega
    simp [bytesAt, List.getElem?_eq_getElem hlt]

theorem drop_eq_bytesAt (n start : Nat) (data : List UInt8) (h : start + n ≤ data.length) :
    data.drop start = (bytesAt n data start).toList ++ data.drop (start + n) := by
  rw [toList_bytesAt h, ← List.drop_drop, List.take_append_drop]

theorem drop_eq_leAt (n start : Nat) (data : List UInt8) (h : start + n ≤ data.length) :
    data.drop start = toLe n (leAt n data start) ++ data.drop (start + n) := by
  have hlen : ((data.drop start).take n).length = n := by
    rw [List.length_take, List.length_drop]
    omega
  have hle := toLe_ofLe ((data.drop start).take n)
  rw [hlen] at hle
  rw [leAt, hle, ← List.drop_drop, List.take_append_drop]

theorem leAt_lt : leAt n data start < 256 ^ n := by
  refine Nat.lt_of_lt_of_le (ofLe_lt _) (Nat.pow_le_pow_right (by decide) ?_)
  rw [List.length_take]
  exact Nat.min_le_left ..

theorem bytesAt_zero {v : Vector UInt8 n} : bytesAt n (v.toList ++ rest) 0 = v := by
  apply Vector.toList_inj.mp
  rw [toList_bytesAt, List.drop_zero, List.take_left' Vector.length_toList]
  rw [List.length_append, Vector.length_toList]
  omega

theorem leAt_zero (hk : k < 256 ^ n) : leAt n (toLe n k ++ rest) 0 = k := by
  rw [leAt, List.drop_zero, List.take_left' length_toLe, ofLe_toLe hk]

theorem bytesAt_drop {m : Nat} : bytesAt n (data.drop m) start = bytesAt n data (m + start) := by
  apply Vector.ext
  intro i hi
  simp only [bytesAt, Vector.getElem_ofFn, List.getD_eq_getElem?_getD, List.getElem?_drop,
    Nat.add_assoc]

theorem bytesAt_append {m : Nat} (hpre : pre.length = m) (h : m ≤ start) :
    bytesAt n (pre ++ rest) start = bytesAt n rest (start - m) := by
  apply Vector.ext
  intro i hi
  simp only [bytesAt, Vector.getElem_ofFn, List.getD_eq_getElem?_getD]
  rw [List.getElem?_append_right (by omega)]
  congr 2
  omega

theorem leAt_append {m : Nat} (hpre : pre.length = m) (h : m ≤ start) :
    leAt n (pre ++ rest) start = leAt n rest (start - m) := by
  rw [leAt, leAt, List.drop_append, List.drop_eq_nil_of_le (by omega), List.nil_append, hpre]

@[simp] theorem length_wordBytes {w : UInt64} : (wordBytes w).length = 8 := length_toLe

theorem leAt_wordBytes {ws : List UInt64} {i : Nat} :
    leAt 8 (ws.flatMap wordBytes) (8 * i) = (ws.getD i 0).toNat := by
  induction ws generalizing i with
  | nil => simp [leAt, ofLe]
  | cons w ws ih =>
    cases i with
    | zero => exact leAt_zero w.toNat_lt
    | succ i =>
      rw [List.flatMap_cons, leAt_append length_wordBytes (by omega), List.getD_cons_succ, ← ih]
      rfl

end KeryxMiner
