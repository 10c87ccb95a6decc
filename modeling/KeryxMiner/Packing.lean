import KeryxMiner.MachineWords

/-!
# Bytes packed into words

A loop over numbered elements that adds each to the word of its block of `k` elements leaves in each
word what a loop over that block alone would (`getElem?_scatter`). With bytes ored into the places of
a word that is the little-endian number of the bytes (`toNat_foldl_or`), and a byte comes back by a
shift and a mask (`ofLe_byte`, `toNat_byteAt32`, `toNat_byteAt64`).
-/

namespace KeryxMiner

variable {α β : Type} {op : α → β → α} {g : Nat → β} {k m : Nat}

/-! ## Scattered elements -/

/-- Each of the `n` elements goes to the word of its block of `k`. -/
def scatter (op : α → β → α) (g : Nat → β) (k n : Nat) (ws : List α) : List α :=
  (List.range n).foldl (fun ws e => ws.modify (e / k) (op · (g e))) ws

theorem foldl_modify {l : List Nat} {ws : List α} : l.foldl (fun ws q => ws.modify m (op · (g q))) ws =
    ws.modify m fun w => l.foldl (fun w q => op w (g q)) w := by
  induction l generalizing ws with
  | nil => exact (List.modify_id m ws).symm
  | cons q l ih =>
    rw [List.foldl_cons, ih, List.modify_modify_eq]
    rfl

theorem scatter_block (hk : 0 < k) {ws : List α} : scatter op g k (k * (m + 1)) ws =
    (scatter op g k (k * m) ws).modify m
      fun w => (List.range k).foldl (fun w q => op w (g (k * m + q))) w := by
  have hblock : ∀ ws : List α, (List.range k).foldl
      (fun ws q => ws.modify ((k * m + q) / k) (op · (g (k * m + q)))) ws =
      (List.range k).foldl (fun ws q => ws.modify m (op · (g (k * m + q)))) ws := by
    intro ws
    apply List.foldl_ext
    intro ws q hq
    rw [Nat.mul_add_div hk, Nat.div_eq_of_lt (List.mem_range.mp hq), Nat.add_zero]
  rw [scatter, Nat.mul_succ, List.range_add, List.foldl_append, List.foldl_map, hblock,
    foldl_modify (g := fun q => g (k * m + q))]
  rfl

/-- The words of later blocks are as before. -/
theorem getElem?_scatter_of_le (hk : 0 < k) {ws : List α} {j : Nat} (hj : m ≤ j) :
    (scatter op g k (k * m) ws)[j]? = ws[j]? := by
  induction m with
  | zero => rfl
  | succ m ih => rw [scatter_block hk, List.getElem?_modify_ne _ _ (by omega), ih (by omega)]

/-- Each word has the elements of its block. -/
theorem getElem?_scatter (hk : 0 < k) {ws : List α} {j : Nat} (hj : j < m) :
    (scatter op g k (k * m) ws)[j]? =
      ws[j]?.map fun w => (List.range k).foldl (fun w q => op w (g (k * j + q))) w := by
  induction m with
  | zero => exact absurd hj (Nat.not_lt_zero j)
  | succ m ih =>
    rw [scatter_block hk]
    obtain hlt | rfl := Nat.lt_succ_iff_lt_or_eq.mp hj
    · rw [List.getElem?_modify_ne _ _ (by omega), ih hlt]
    · rw [List.getElem?_modify_eq, getElem?_scatter_of_le hk le_rfl]
      rfl

/-! ## Bytes in words -/

/-- The number of some bytes, ored together. -/
def orBytes (b : Nat → UInt8) (n : Nat) : Nat :=
  (List.range n).foldl (fun v q => v ||| (b q).toNat <<< (8 * q)) 0

theorem orBytes_eq {b : Nat → UInt8} {n : Nat} : orBytes b n = ofLe ((List.range n).map b) := by
  induction n with
  | zero => rfl
  | succ n ih =>
    have hlt : orBytes b n < 2 ^ (8 * n) := by
      have := ofLe_lt ((List.range n).map b)
      rwa [← ih, List.length_map, List.length_range, show 256 = 2 ^ 8 from rfl, ← Nat.pow_mul] at this
    have hsucc : orBytes b (n + 1) = orBytes b n ||| (b n).toNat <<< (8 * n) := by
      rw [orBytes, List.range_succ, List.foldl_append]
      rfl
    rw [hsucc, or_shiftLeft hlt, ih, List.range_succ, List.map_append, ofLe_append,
      List.length_map, List.length_range, show 256 = 2 ^ 8 from rfl, ← Nat.pow_mul, Nat.mul_comm]
    rfl

section

variable {W : Type} (toNat : W → Nat) {op : W → W → W} {zero : W} {b : Nat → UInt8} {bytes n : Nat}

/-- Bytes ored into the places of a word. -/
theorem toNat_foldl_or (place : Nat → UInt8 → W) (hor : ∀ v w, toNat (op v w) = toNat v ||| toNat w)
    (hplace : ∀ q < bytes, ∀ b, toNat (place q b) = b.toNat <<< (8 * q)) (hzero : toNat zero = 0)
    (hn : n ≤ bytes) :
    toNat ((List.range n).foldl (fun v q => op v (place q (b q))) zero) =
      ofLe ((List.range n).map b) := by
  rw [← orBytes_eq]
  induction n with
  | zero => exact hzero
  | succ n ih =>
    rw [orBytes, List.range_succ, List.foldl_append, List.foldl_append]
    simp only [List.foldl_cons, List.foldl_nil, hor, ih (Nat.le_of_succ_le hn), hplace n hn]
    rfl

/-- A sum of words is the sum of the numbers, up to the size of a word. -/
theorem toNat_foldl_add {β : Type} {M : Nat} {f : β → W} {l : List β}
    (hadd : ∀ v w, toNat (op v w) = (toNat v + toNat w) % M) (hzero : toNat zero % M = toNat zero) :
    toNat (l.foldl (fun s x => op s (f x)) zero) =
      (toNat zero + (l.map fun x => toNat (f x)).sum) % M := by
  induction l generalizing zero with
  | nil => exact hzero.symm
  | cons x l ih =>
    rw [List.foldl_cons, ih (by rw [hadd, Nat.mod_mod]), hadd, Nat.mod_add_mod, List.map_cons,
      List.sum_cons, Nat.add_assoc]

end

theorem toNat_place32 {q : Nat} (hq : q < 4) (b : UInt8) :
    (b.toUInt32 <<< UInt32.ofNat (8 * q)).toNat = b.toNat <<< (8 * q) := by
  have hb : b.toNat < 2 ^ 8 := b.toNat_lt
  have hmod : 8 * q % 2 ^ 32 % 32 = 8 * q := by omega
  rw [UInt32.toNat_shiftLeft, UInt8.toNat_toUInt32, UInt32.toNat_ofNat', hmod, Nat.shiftLeft_eq]
  apply Nat.mod_eq_of_lt
  calc b.toNat * 2 ^ (8 * q) < 2 ^ 8 * 2 ^ (8 * q) :=
        Nat.mul_lt_mul_of_pos_right hb (Nat.two_pow_pos _)
    _ = 2 ^ (8 + 8 * q) := (Nat.pow_add ..).symm
    _ ≤ 2 ^ 32 := Nat.pow_le_pow_right (by decide) (by omega)

theorem toNat_place64 {q : Nat} (hq : q < 8) (b : UInt8) :
    (b.toUInt64 <<< UInt64.ofNat (8 * q)).toNat = b.toNat <<< (8 * q) := by
  have hb : b.toNat < 2 ^ 8 := b.toNat_lt
  have hmod : 8 * q % 2 ^ 64 % 64 = 8 * q := by omega
  rw [UInt64.toNat_shiftLeft, UInt8.toNat_toUInt64, UInt64.toNat_ofNat', hmod, Nat.shiftLeft_eq]
  apply Nat.mod_eq_of_lt
  calc b.toNat * 2 ^ (8 * q) < 2 ^ 8 * 2 ^ (8 * q) :=
        Nat.mul_lt_mul_of_pos_right hb (Nat.two_pow_pos _)
    _ = 2 ^ (8 + 8 * q) := (Nat.pow_add ..).symm
    _ ≤ 2 ^ 64 := Nat.pow_le_pow_right (by decide) (by omega)

/-- A sum block by block. -/
theorem sum_range_blocks (t : Nat → Nat) (n m : Nat) :
    ((List.range m).map fun k => ((List.range n).map fun q => t (n * k + q)).sum).sum =
      ((List.range (n * m)).map t).sum := by
  induction m with
  | zero => rfl
  | succ m ih =>
    rw [List.range_succ, List.map_append, List.sum_append, ih, Nat.mul_succ, List.range_add,
      List.map_append, List.sum_append, List.map_map, List.map_singleton, List.sum_singleton]
    rfl

theorem sum_map_le {l : List β} {f : β → Nat} {c : Nat} (h : ∀ x ∈ l, f x ≤ c) :
    (l.map f).sum ≤ l.length * c := by
  induction l with
  | nil => simp
  | cons x l ih =>
    have hx := h x (by simp)
    have hl := ih fun y hy => h y (by simp [hy])
    rw [List.map_cons, List.sum_cons, List.length_cons, Nat.succ_mul]
    omega

/-- The byte of a number in its place. -/
theorem ofLe_byte {bs : List UInt8} {q : Nat} : ofLe bs / 256 ^ q % 256 = (bs.getD q 0).toNat := by
  induction bs generalizing q with
  | nil => simp [ofLe]
  | cons b bs ih =>
    have hb : b.toNat < 256 := b.toNat_lt
    cases q with
    | zero =>
      rw [ofLe, Nat.pow_zero, Nat.div_one, List.getD_cons_zero]
      omega
    | succ q =>
      rw [ofLe, Nat.pow_succ', ← Nat.div_div_eq_div_mul, List.getD_cons_succ, ← ih]
      congr 2
      omega

theorem toNat_byteAt32 {w : UInt32} {q : Nat} (hq : q < 4) :
    ((w >>> UInt32.ofNat (8 * q)) &&& 0xFF).toNat = w.toNat / 256 ^ q % 256 := by
  have hmod : 8 * q % 2 ^ 32 % 32 = 8 * q := by omega
  have hpow : 2 ^ (8 * q) = 256 ^ q := Nat.pow_mul 2 8 q
  rw [UInt32.toNat_and, UInt32.toNat_shiftRight, UInt32.toNat_ofNat', hmod,
    Nat.shiftRight_eq_div_pow, hpow]
  exact Nat.and_two_pow_sub_one_eq_mod _ 8

theorem toNat_byteAt64 {w : UInt64} {q : Nat} (hq : q < 8) :
    ((w >>> UInt64.ofNat (8 * q)) &&& 0xFF).toNat = w.toNat / 256 ^ q % 256 := by
  have hmod : 8 * q % 2 ^ 64 % 64 = 8 * q := by omega
  have hpow : 2 ^ (8 * q) = 256 ^ q := Nat.pow_mul 2 8 q
  rw [UInt64.toNat_and, UInt64.toNat_shiftRight, UInt64.toNat_ofNat', hmod,
    Nat.shiftRight_eq_div_pow, hpow]
  exact Nat.and_two_pow_sub_one_eq_mod _ 8

end KeryxMiner
