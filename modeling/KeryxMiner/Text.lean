import Mathlib.Algebra.Group.Nat.Defs
import Mathlib.Data.Finset.Basic
import Mathlib.Data.List.Infix

/-!
# Text

The string operations of the Rust standard library and of the `hex` crate which the miner uses, on
the characters of a Lean `String`. All of them compute, so that concrete texts can be evaluated.

`outpointText_inj` is the fact that makes `"{txid}:{index}"` usable as a key.
-/

namespace KeryxMiner.Text

/-- `str::contains`. -/
def contains (s pat : String) : Bool := decide (pat.toList <:+: s.toList)

/-- What follows the last occurrence of `pat`. -/
def afterLast (pat : List Char) : List Char → Option (List Char)
  | [] => if pat.isEmpty then some [] else none
  | c :: cs =>
    match afterLast pat cs with
    | some rest => some rest
    | none => if pat.isPrefixOf (c :: cs) then some ((c :: cs).drop pat.length) else none

/-- The second half of `str::rsplit_once`. -/
def rsplitOnce (s pat : String) : Option String :=
  (afterLast pat.toList s.toList).map String.ofList

/-- `str::split_once` at a character. -/
def splitOnce (s : String) (c : Char) : Option (String × String) :=
  if c ∈ s.toList then
    some (String.ofList (s.toList.takeWhile (· != c)),
      String.ofList ((s.toList.dropWhile (· != c)).drop 1))
  else none

/-- `char::is_whitespace`: the Unicode property `White_Space`. -/
def isWhitespace (c : Char) : Bool :=
  let n := c.toNat
  (9 ≤ n && n ≤ 13) || n == 32 || n == 133 || n == 160 || n == 5760 ||
    (8192 ≤ n && n ≤ 8202) || n == 8232 || n == 8233 || n == 8239 || n == 8287 || n == 12288

/-- `str::split_whitespace`. -/
def splitWhitespace (s : String) : List String :=
  ((s.toList.splitOnP isWhitespace).filter (!·.isEmpty)).map String.ofList

/-- `str::parse::<u32>`: one optional plus sign, then digits. -/
def parseU32 (s : String) : Option UInt32 :=
  let digits := match s.toList with
    | '+' :: cs => cs
    | cs => cs
  if digits.isEmpty || !digits.all Char.isDigit then none
  else
    let n := Nat.ofDigitChars 10 digits 0
    if n < 2 ^ 32 then some (UInt32.ofNat n) else none

/-! ## Keys of the form `text:number` -/

/-- `format!("{}:{}", t, i)`. -/
def outpointText (t : String) (i : UInt32) : String := t ++ ":" ++ toString i.toNat

theorem append_cons_inj {c : Char} {as as' bs bs' : List Char} (h : c ∉ bs) (h' : c ∉ bs')
    (H : as ++ c :: bs = as' ++ c :: bs') : as = as' ∧ bs = bs' := by
  induction as generalizing as' with
  | nil =>
    cases as' with
    | nil => simpa using H
    | cons a as' =>
      simp only [List.nil_append, List.cons_append, List.cons.injEq] at H
      exact (h (by simp [H.2])).elim
  | cons a as ih =>
    cases as' with
    | nil =>
      simp only [List.nil_append, List.cons_append, List.cons.injEq] at H
      exact (h' (by simp [← H.2])).elim
    | cons a' as' =>
      simp only [List.cons_append, List.cons.injEq] at H
      have := ih H.2
      exact ⟨by rw [H.1, this.1], this.2⟩

theorem colon_not_mem_toDigits {n : Nat} : ':' ∉ Nat.toDigits 10 n := fun h =>
  absurd (Nat.isDigit_of_mem_toDigits (by decide) (by decide) h) (by decide)

theorem toDigits_inj {m n : Nat} (h : Nat.toDigits 10 m = Nat.toDigits 10 n) : m = n := by
  rw [← Nat.ofDigitChars_ten_toDigits (n := m), h, Nat.ofDigitChars_ten_toDigits]

theorem outpointText_inj {t t' : String} {i i' : UInt32}
    (h : outpointText t i = outpointText t' i') : t = t' ∧ i = i' := by
  have H : t.toList ++ ':' :: Nat.toDigits 10 i.toNat =
      t'.toList ++ ':' :: Nat.toDigits 10 i'.toNat := by
    simpa [outpointText] using congrArg String.toList h
  obtain ⟨ht, hi⟩ := append_cons_inj colon_not_mem_toDigits colon_not_mem_toDigits H
  exact ⟨String.toList_inj.mp ht, UInt32.toNat_inj.mp (toDigits_inj hi)⟩

/-! ## Hexadecimal -/

def hexDigit (n : Nat) : Char := if n < 10 then Char.ofNat (48 + n) else Char.ofNat (87 + n)

/-- `hex::encode`. -/
def hexEncode (bytes : List UInt8) : String :=
  String.ofList (bytes.flatMap fun b => [hexDigit (b.toNat / 16), hexDigit (b.toNat % 16)])

/-- The value of a hexadecimal digit of either case. -/
def hexVal (c : Char) : Option Nat :=
  let n := c.toNat
  if 48 ≤ n ∧ n ≤ 57 then some (n - 48)
  else if 65 ≤ n ∧ n ≤ 70 then some (n - 55)
  else if 97 ≤ n ∧ n ≤ 102 then some (n - 87)
  else none

def hexDecodeChars : Nat → List Char → Except String (List UInt8)
  | _, [] => .ok []
  | _, [_] => .error "Odd number of digits"
  | i, c :: d :: cs =>
    match hexVal c, hexVal d with
    | some x, some y => do
      let rest ← hexDecodeChars (i + 2) cs
      return UInt8.ofNat (16 * x + y) :: rest
    | none, _ => .error s!"Invalid character {c} at position {i}"
    | _, none => .error s!"Invalid character {d} at position {i + 1}"

/-- `hex::decode`. -/
def hexDecode (s : String) : Except String (List UInt8) :=
  if s.toList.length % 2 = 1 then .error "Odd number of digits" else hexDecodeChars 0 s.toList

/-- No upper-case hexadecimal digit: the form in which the node writes hashes. -/
def LowerHex (s : String) : Prop := ∀ c ∈ s.toList, ¬ (65 ≤ c.toNat ∧ c.toNat ≤ 70)

instance (s : String) : Decidable (LowerHex s) := List.decidableBAll _ _

theorem hexVal_lt {c : Char} {x : Nat} (h : hexVal c = some x) : x < 16 := by
  simp only [hexVal] at h
  split at h
  · cases h; omega
  · split at h
    · cases h; omega
    · split at h
      · cases h; omega
      · cases h

theorem hexVal_inj {c d : Char} {x : Nat} (hc : ¬ (65 ≤ c.toNat ∧ c.toNat ≤ 70))
    (hd : ¬ (65 ≤ d.toNat ∧ d.toNat ≤ 70)) (h : hexVal c = some x) (h' : hexVal d = some x) :
    c = d := by
  have key : ∀ {a : Char}, ¬ (65 ≤ a.toNat ∧ a.toNat ≤ 70) → hexVal a = some x →
      (48 ≤ a.toNat ∧ a.toNat ≤ 57 ∧ x = a.toNat - 48) ∨
      (97 ≤ a.toNat ∧ a.toNat ≤ 102 ∧ x = a.toNat - 87) := by
    intro a ha h
    simp only [hexVal, if_neg ha] at h
    split at h
    · cases h; omega
    · split at h
      · cases h; omega
      · cases h
  have := key hc h
  have := key hd h'
  exact Char.toNat_inj.mp (by omega)

theorem hexDecodeChars_inj {cs ds : List Char} {i j : Nat} {bytes : List UInt8}
    (hc : ∀ c ∈ cs, ¬ (65 ≤ c.toNat ∧ c.toNat ≤ 70))
    (hd : ∀ c ∈ ds, ¬ (65 ≤ c.toNat ∧ c.toNat ≤ 70))
    (h : hexDecodeChars i cs = .ok bytes) (h' : hexDecodeChars j ds = .ok bytes) : cs = ds := by
  induction bytes generalizing i j cs ds with
  | nil =>
    have nil_of : ∀ {i : Nat} {cs : List Char}, hexDecodeChars i cs = .ok [] → cs = [] := by
      intro i cs h
      match cs, h with
      | [], _ => rfl
      | [_], h => cases h
      | c :: d :: cs, h =>
        simp only [hexDecodeChars] at h
        split at h
        · cases hr : hexDecodeChars (i + 2) cs <;> simp [hr, bind, Except.bind, pure, Except.pure] at h
        · cases h
        · cases h
    rw [nil_of h, nil_of h']
  | cons b bytes ih =>
    have uncons : ∀ {i : Nat} {cs : List Char}, hexDecodeChars i cs = .ok (b :: bytes) →
        ∃ c d rest x y, cs = c :: d :: rest ∧ hexVal c = some x ∧ hexVal d = some y ∧
          b = UInt8.ofNat (16 * x + y) ∧ hexDecodeChars (i + 2) rest = .ok bytes := by
      intro i cs h
      match cs, h with
      | [], h => cases h
      | [_], h => cases h
      | c :: d :: rest, h =>
        simp only [hexDecodeChars] at h
        split at h
        case h_1 x y hx hy =>
          cases hr : hexDecodeChars (i + 2) rest with
          | error e => simp [hr, bind, Except.bind] at h
          | ok bs =>
            simp only [hr, bind, Except.bind, pure, Except.pure, Except.ok.injEq,
              List.cons.injEq] at h
            exact ⟨c, d, rest, x, y, rfl, hx, hy, h.1.symm, by rw [h.2] at hr; exact hr⟩
        · cases h
        · cases h
    obtain ⟨c, d, rest, x, y, rfl, hx, hy, hb, hr⟩ := uncons h
    obtain ⟨c', d', rest', x', y', rfl, hx', hy', hb', hr'⟩ := uncons h'
    have hxy : 16 * x + y = 16 * x' + y' := by
      have := congrArg UInt8.toNat (hb.symm.trans hb')
      simp only [UInt8.toNat_ofNat'] at this
      have := hexVal_lt hx; have := hexVal_lt hy; have := hexVal_lt hx'; have := hexVal_lt hy'
      omega
    obtain ⟨rfl, rfl⟩ : x = x' ∧ y = y' := by
      have := hexVal_lt hy; have := hexVal_lt hy'
      omega
    have h1 := hexVal_inj (hc c (by simp)) (hd c' (by simp)) hx hx'
    have h2 := hexVal_inj (hc d (by simp)) (hd d' (by simp)) hy hy'
    have h3 := ih (fun c h => hc c (by simp [h])) (fun c h => hd c (by simp [h])) hr hr'
    rw [h1, h2, h3]

/-- Lower-case texts are determined by the bytes they decode to. -/
theorem hexDecode_inj {s t : String} {bytes : List UInt8} (hs : LowerHex s) (ht : LowerHex t)
    (h : hexDecode s = .ok bytes) (h' : hexDecode t = .ok bytes) : s = t := by
  unfold hexDecode at h h'
  split at h
  · cases h
  · split at h'
    · cases h'
    · exact String.toList_inj.mp (hexDecodeChars_inj hs ht h h')

theorem hexDigit_inj {m n : Nat} (hm : m < 16) (hn : n < 16) (h : hexDigit m = hexDigit n) :
    m = n := by
  have key : ∀ m n : Fin 16, hexDigit m = hexDigit n → m = n := by decide
  exact congrArg Fin.val (key ⟨m, hm⟩ ⟨n, hn⟩ h)

theorem hexEncode_inj {bs cs : List UInt8} (h : hexEncode bs = hexEncode cs) : bs = cs := by
  have H := String.ofList_injective h
  clear h
  induction bs generalizing cs with
  | nil => cases cs <;> simp_all
  | cons b bs ih =>
    cases cs with
    | nil => simp at H
    | cons c cs =>
      simp only [List.flatMap_cons, List.cons_append, List.nil_append, List.cons.injEq] at H
      have hb := b.toNat_lt; have hc := c.toNat_lt
      have h1 := hexDigit_inj (by omega) (by omega) H.1
      have h2 := hexDigit_inj (by omega) (by omega) H.2.1
      rw [ih H.2.2, UInt8.toNat_inj.mp (by omega : b.toNat = c.toNat)]

theorem hexVal_hexDigit {n : Nat} (h : n < 16) : hexVal (hexDigit n) = some n := by
  have hall : ∀ n : Fin 16, hexVal (hexDigit n) = some n.val := by decide
  exact hall ⟨n, h⟩

theorem hexDecodeChars_hexEncode {bytes : List UInt8} {i : Nat} :
    hexDecodeChars i (bytes.flatMap fun b => [hexDigit (b.toNat / 16), hexDigit (b.toNat % 16)]) =
      .ok bytes := by
  induction bytes generalizing i with
  | nil => rfl
  | cons b bs ih =>
    have hb := UInt8.toNat_lt b
    simp only [List.flatMap_cons, List.cons_append, List.nil_append, hexDecodeChars,
      hexVal_hexDigit (show b.toNat / 16 < 16 by omega),
      hexVal_hexDigit (show b.toNat % 16 < 16 by omega), ih]
    change Except.ok (UInt8.ofNat (16 * (b.toNat / 16) + b.toNat % 16) :: bs) = _
    rw [Nat.div_add_mod, UInt8.ofNat_toNat]

theorem hexDecode_hexEncode {bytes : List UInt8} : hexDecode (hexEncode bytes) = .ok bytes := by
  have heven : (bytes.flatMap fun b =>
      [hexDigit (b.toNat / 16), hexDigit (b.toNat % 16)]).length % 2 ≠ 1 := by
    rw [List.length_flatMap]
    simp
  rw [hexDecode, hexEncode, String.toList_ofList, if_neg heven, hexDecodeChars_hexEncode]

end KeryxMiner.Text
