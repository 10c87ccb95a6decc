import KeryxMiner.Bytes
import KeryxMiner.Radix
import Mathlib.Tactic.Ring

/-!
# Base 58

The content identifiers that the node of the file system answers with. The decoder keeps the bytes
of the number least significant first, and starts them with a zero byte, which stays there when all
characters are `'1'`: it then returns a zero byte too many. It decodes everything else as it is
encoded (`base58_right_iff`).
-/

namespace KeryxMiner.Ipfs

def ALPHABET : List Char := "123456789ABCDEFGHJKLMNPQRSTUVWXYZabcdefghijkmnopqrstuvwxyz".toList

/-- The value of a character; none is no character of the alphabet. -/
def digitValue (c : Char) : Option Nat := ALPHABET.idxOf? c

/-- The bytes that the carry is pushed in. -/
def pushCarry (carry : Nat) : List UInt8 :=
  if 0 < carry then UInt8.ofNat (carry % 256) :: pushCarry (carry / 256) else []
termination_by carry

/-- The bytes of 58 times a number with the carry added, least significant first. -/
def mulAdd : List UInt8 → Nat → List UInt8
  | [], carry => pushCarry carry
  | byte :: bytes, carry =>
    let carry := carry + byte.toNat * 58
    UInt8.ofNat (carry % 256) :: mulAdd bytes (carry / 256)

/-- The loop over the characters. -/
def decodeLoop : List UInt8 → List Char → Option (List UInt8)
  | result, [] => some result
  | result, c :: cs =>
    match digitValue c with
    | none => none
    | some carry => decodeLoop (mulAdd result carry) cs

def base58btcDecode (input : String) : Option (List UInt8) := do
  let result ← decodeLoop [0] input.toList
  let leadingZeros := (input.toList.takeWhile (· = '1')).length
  some (List.replicate leadingZeros 0 ++ result.reverse)

def cidV0ToMultihash (cid : String) : Except String (Vector UInt8 34) :=
  match base58btcDecode cid with
  | none => .error s!"Invalid base58 CID: {cid}"
  | some bytes =>
    match toVector 34 bytes with
    | none => .error s!"CID is not a CIDv0 sha2-256 multihash: {cid}"
    | some out =>
      if out[0] ≠ 0x12 ∨ out[1] ≠ 0x20 then
        .error s!"CID is not a CIDv0 sha2-256 multihash: {cid}"
      else .ok out

/-! ## Base 58 as it is written -/

def digitChar (d : Nat) : Char := ALPHABET.getD d '1'

/-- The text of some bytes, leading zero bytes as `'1'`. -/
def base58 (bytes : List UInt8) : String :=
  let digits := bytes.map UInt8.toNat
  String.ofList ((positional 58 (leadingZeros digits) (radixValue 256 digits)).map digitChar)

/-! ## Characters and digits -/

variable {c : Char} {cs : List Char} {d v carry : Nat} {ds : List Nat} {b r : List UInt8} {s : String}

theorem digitValue_digitChar (hd : d < 58) : digitValue (digitChar d) = some d := by
  have hall : (List.range 58).all fun d => digitValue (digitChar d) == some d := by decide +kernel
  exact eq_of_beq (List.all_eq_true.mp hall d (List.mem_range.mpr hd))

theorem digitValue_eq_some (h : digitValue c = some d) : d < 58 ∧ digitChar d = c := by
  obtain ⟨hd, rfl, -⟩ := List.idxOf?_eq_some_iff.mp h
  refine ⟨hd, ?_⟩
  rw [digitChar, List.getD_eq_getElem?_getD, List.getElem?_eq_getElem hd]
  rfl

theorem digitChar_inj {d' : Nat} (hd : d < 58) (hd' : d' < 58) (h : digitChar d = digitChar d') :
    d = d' := by
  have hvalue := congrArg digitValue h
  rw [digitValue_digitChar hd, digitValue_digitChar hd'] at hvalue
  exact Option.some.inj hvalue

/-- The leading `'1'`s are the leading zero digits. -/
theorem length_takeWhile_one (hds : ∀ d ∈ ds, d < 58) :
    ((ds.map digitChar).takeWhile (· = '1')).length = leadingZeros ds := by
  induction ds with
  | nil => rfl
  | cons d ds ih =>
    obtain ⟨hd, hrest⟩ := List.forall_mem_cons.mp hds
    have hone : digitChar d = '1' ↔ d = 0 :=
      ⟨fun h => digitChar_inj hd (by decide) h, fun h => h ▸ rfl⟩
    rw [List.map_cons, leadingZeros]
    by_cases hzero : d = 0
    · rw [List.takeWhile_cons_of_pos (by simpa using hone.mpr hzero),
        List.takeWhile_cons_of_pos (by simpa using hzero), List.length_cons, List.length_cons,
        ih hrest]
      rfl
    · rw [List.takeWhile_cons_of_neg (by simpa using mt hone.mp hzero),
        List.takeWhile_cons_of_neg (by simpa using hzero)]
      rfl

/-! ## The loop -/

/-- The bytes of a number, least significant first. -/
def digitBytes (v : Nat) : List UInt8 := (Nat.digits 256 v).map UInt8.ofNat

/-- What the loop keeps for a number. -/
def keptBytes (v : Nat) : List UInt8 := if v = 0 then [0] else digitBytes v

theorem digitBytes_of_pos (hv : 0 < v) :
    digitBytes v = UInt8.ofNat (v % 256) :: digitBytes (v / 256) := by
  rw [digitBytes, Nat.digits_def' (by decide) hv, List.map_cons]
  rfl

theorem pushCarry_eq : pushCarry carry = digitBytes carry := by
  induction carry using Nat.strongRecOn with
  | ind carry ih =>
    rw [pushCarry]
    split
    · next hpos => rw [digitBytes_of_pos hpos, ih _ (Nat.div_lt_self hpos (by decide))]
    · next hzero =>
      obtain rfl : carry = 0 := by omega
      rfl

/-- The carries give the bytes of the product. -/
theorem mulAdd_digitBytes : mulAdd (digitBytes v) carry = digitBytes (58 * v + carry) := by
  induction v using Nat.strongRecOn generalizing carry with
  | ind v ih =>
    rcases Nat.eq_zero_or_pos v with rfl | hv
    · have hnil : digitBytes 0 = [] := rfl
      rw [hnil, mulAdd, pushCarry_eq, Nat.mul_zero, Nat.zero_add]
    · have hbyte : (UInt8.ofNat (v % 256)).toNat = v % 256 := by
        rw [UInt8.toNat_ofNat']
        omega
      have hmod : (carry + v % 256 * 58) % 256 = (58 * v + carry) % 256 := by omega
      have hdiv : 58 * (v / 256) + (carry + v % 256 * 58) / 256 = (58 * v + carry) / 256 := by omega
      rw [digitBytes_of_pos hv, mulAdd, hbyte, ih _ (Nat.div_lt_self hv (by decide)), hdiv,
        hmod, ← digitBytes_of_pos (by omega)]

theorem mulAdd_keptBytes (hc : carry < 58) : mulAdd (keptBytes v) carry = keptBytes (58 * v + carry) := by
  rcases Nat.eq_zero_or_pos v with rfl | hv
  · have hstep : mulAdd [0] carry = UInt8.ofNat carry :: pushCarry 0 := by
      have hzero : (0 : UInt8).toNat = 0 := rfl
      have hdiv : carry / 256 = 0 := by omega
      have hmod : carry % 256 = carry := by omega
      rw [mulAdd, hzero, Nat.zero_mul, Nat.add_zero, hdiv, hmod, mulAdd]
    rw [keptBytes, if_pos rfl, hstep, pushCarry_eq, Nat.mul_zero, Nat.zero_add, keptBytes]
    split
    · next h => subst h; rfl
    · next h =>
      have hdiv : carry / 256 = 0 := by omega
      have hmod : carry % 256 = carry := by omega
      have hbytes := digitBytes_of_pos (Nat.pos_of_ne_zero h)
      rw [hbytes, hdiv, hmod]
  · rw [keptBytes, if_neg (by omega), keptBytes, if_neg (by omega), mulAdd_digitBytes]

theorem radixValue_cons {b : Nat} : radixValue b (d :: ds) = d * b ^ ds.length + radixValue b ds := by
  rw [radixValue, List.reverse_cons, Nat.ofDigits_append, List.length_reverse,
    Nat.ofDigits_singleton, Nat.mul_comm, Nat.add_comm]
  rfl

theorem decodeLoop_digits (hds : ∀ d ∈ ds, d < 58) :
    decodeLoop (keptBytes v) (ds.map digitChar) =
      some (keptBytes (v * 58 ^ ds.length + radixValue 58 ds)) := by
  induction ds generalizing v with
  | nil =>
    have hnil : radixValue 58 [] = 0 := rfl
    rw [List.map_nil, decodeLoop, hnil, List.length_nil, Nat.pow_zero, Nat.mul_one, Nat.add_zero]
  | cons d ds ih =>
    obtain ⟨hd, hrest⟩ := List.forall_mem_cons.mp hds
    rw [List.map_cons, decodeLoop, digitValue_digitChar hd]
    dsimp only
    rw [mulAdd_keptBytes hd, ih hrest, radixValue_cons, List.length_cons, Nat.pow_succ]
    congr 2
    ring

/-- What the loop accepts is written with digits. -/
theorem digits_of_decodeLoop {acc : List UInt8} (h : decodeLoop acc cs = some r) :
    ∃ ds : List Nat, (∀ d ∈ ds, d < 58) ∧ cs = ds.map digitChar := by
  induction cs generalizing acc with
  | nil => exact ⟨[], nofun, rfl⟩
  | cons c cs ih =>
    rw [decodeLoop] at h
    split at h
    · cases h
    · next d hdigit =>
      obtain ⟨ds, hds, rfl⟩ := ih h
      obtain ⟨hd, rfl⟩ := digitValue_eq_some hdigit
      exact ⟨d :: ds, List.forall_mem_cons.mpr ⟨hd, hds⟩, rfl⟩

/-! ## The decoder -/

/-- A text of digits is decoded to its number behind its zeros; a text of `'1'`s has one zero more. -/
theorem base58btcDecode_digits (hds : ∀ d ∈ ds, d < 58) :
    base58btcDecode (String.ofList (ds.map digitChar)) =
      some (List.replicate (leadingZeros ds) 0 ++ (keptBytes (radixValue 58 ds)).reverse) := by
  have hloop := decodeLoop_digits hds (v := 0)
  rw [Nat.zero_mul, Nat.zero_add] at hloop
  have hkept : keptBytes 0 = [0] := rfl
  rw [hkept] at hloop
  rw [base58btcDecode, String.toList_ofList, hloop]
  dsimp only [Option.bind_eq_bind, Option.bind_some]
  rw [length_takeWhile_one hds]

theorem byte_lt : ∀ d ∈ b.map UInt8.toNat, d < 256 := by
  intro d hd
  obtain ⟨byte, -, rfl⟩ := List.mem_map.mp hd
  exact byte.toNat_lt

theorem positional_lt {base z : Nat} (hbase : 1 < base) : ∀ d ∈ positional base z v, d < base := by
  intro d hd
  rcases List.mem_append.mp hd with hd | hd
  · rw [List.eq_of_mem_replicate hd]
    omega
  · exact Nat.digits_lt_base hbase (List.mem_reverse.mp hd)

theorem map_ofNat_toNat : (b.map UInt8.toNat).map UInt8.ofNat = b := by
  rw [List.map_map]
  conv_rhs => rw [← List.map_id b]
  apply List.map_congr_left
  intro byte _
  exact UInt8.ofNat_toNat

theorem map_toNat_ofNat (hds : ∀ d ∈ ds, d < 256) : (ds.map UInt8.ofNat).map UInt8.toNat = ds := by
  rw [List.map_map]
  conv_rhs => rw [← List.map_id ds]
  apply List.map_congr_left
  intro d hd
  exact Nat.mod_eq_of_lt (hds d hd)

theorem digitBytes_reverse {z : Nat} : List.replicate z 0 ++ (digitBytes v).reverse =
    (positional 256 z v).map UInt8.ofNat := by
  rw [digitBytes, positional, List.map_append, List.map_replicate, List.map_reverse]
  rfl

/-- A text that is accepted has digits; with a value its bytes are those of the value. -/
theorem base58btcDecode_cases (h : base58btcDecode s = some r) : ∃ ds : List Nat, (∀ d ∈ ds, d < 58) ∧
    s = String.ofList (ds.map digitChar) ∧
    (radixValue 58 ds ≠ 0 →
      r = (positional 256 (leadingZeros ds) (radixValue 58 ds)).map UInt8.ofNat) ∧
    (radixValue 58 ds = 0 → r = List.replicate (ds.length + 1) 0) := by
  have hloop : ∃ result, decodeLoop [0] s.toList = some result := by
    rw [base58btcDecode] at h
    obtain ⟨result, hresult, -⟩ := Option.bind_eq_some_iff.mp h
    exact ⟨result, hresult⟩
  obtain ⟨result, hresult⟩ := hloop
  obtain ⟨ds, hds, hs⟩ := digits_of_decodeLoop hresult
  have hs' : s = String.ofList (ds.map digitChar) := by rw [← hs, String.ofList_toList]
  rw [hs', base58btcDecode_digits hds] at h
  refine ⟨ds, hds, hs', ?_, ?_⟩
  · intro hvalue
    rw [← Option.some.inj h, keptBytes, if_neg hvalue, digitBytes_reverse]
  · intro hvalue
    have hzeros : positional 58 (leadingZeros ds) 0 = ds := by
      rw [← hvalue]
      exact positional_eq (by decide) hds
    have hlen : leadingZeros ds = ds.length := by
      rw [← hzeros, leadingZeros_positional, positional, List.length_append, List.length_replicate]
      rfl
    rw [← Option.some.inj h, keptBytes, if_pos hvalue, hlen, List.replicate_succ']
    rfl

theorem base58_eq_digits : base58 b = String.ofList
    ((positional 58 (leadingZeros (b.map UInt8.toNat)) (radixValue 256 (b.map UInt8.toNat))).map
      digitChar) := rfl

/-- What has a value is encoded as it was written. -/
theorem base58_positional {z : Nat} :
    base58 ((positional 256 z v).map UInt8.ofNat) = String.ofList ((positional 58 z v).map digitChar) := by
  rw [base58_eq_digits, map_toNat_ofNat (positional_lt (by decide)), leadingZeros_positional,
    radixValue_positional]

theorem exists_ne_zero_iff : (∃ x ∈ b, x ≠ 0) ↔ radixValue 256 (b.map UInt8.toNat) ≠ 0 := by
  rw [ne_eq, radixValue_eq_zero (by decide) byte_lt]
  simp [UInt8.ext_iff]

theorem exists_ne_one_iff (hds : ∀ d ∈ ds, d < 58) :
    (∃ c ∈ (String.ofList (ds.map digitChar)).toList, c ≠ '1') ↔ radixValue 58 ds ≠ 0 := by
  rw [ne_eq, radixValue_eq_zero (by decide) hds, String.toList_ofList]
  constructor
  · intro ⟨c, hc, hne⟩ hall
    obtain ⟨d, hd, rfl⟩ := List.mem_map.mp hc
    exact hne (by rw [hall d hd]; rfl)
  · intro hnot
    push Not at hnot
    obtain ⟨d, hd, hne⟩ := hnot
    refine ⟨digitChar d, List.mem_map_of_mem hd, ?_⟩
    intro hone
    exact hne (digitChar_inj (hds d hd) (by decide) hone)

/-- Some bytes decode from their text exactly when one of them is not zero. -/
theorem decode_base58_iff : base58btcDecode (base58 b) = some b ↔ ∃ x ∈ b, x ≠ 0 := by
  rw [exists_ne_zero_iff, base58_eq_digits, base58btcDecode_digits (positional_lt (by decide)),
    leadingZeros_positional, radixValue_positional, keptBytes]
  constructor
  · intro h hzero
    rw [if_pos hzero] at h
    have hall : positional 256 (leadingZeros (b.map UInt8.toNat)) 0 = b.map UInt8.toNat := by
      rw [← hzero]
      exact positional_eq (by decide) byte_lt
    have hlen := congrArg List.length (Option.some.inj h)
    have hlen' := congrArg List.length hall
    simp [positional] at hlen hlen'
    omega
  · intro hvalue
    rw [if_neg hvalue, digitBytes_reverse, positional_eq (by decide) byte_lt, map_ofNat_toNat]

/-- A text that is accepted is the text of its bytes exactly when one character is not `'1'`. -/
theorem base58_decode_iff (h : base58btcDecode s = some r) : base58 r = s ↔ ∃ c ∈ s.toList, c ≠ '1' := by
  obtain ⟨ds, hds, rfl, hvalue, hzero⟩ := base58btcDecode_cases h
  rw [exists_ne_one_iff hds]
  constructor
  · intro hs hv
    rw [hzero hv] at hs
    have htext := congrArg (List.length ∘ String.toList) hs
    have hnil : radixValue 256 ((List.replicate (ds.length + 1) (0 : UInt8)).map UInt8.toNat) = 0 := by
      rw [radixValue_eq_zero (by decide) byte_lt]
      intro d hd
      rw [List.map_replicate] at hd
      exact List.eq_of_mem_replicate hd
    rw [base58_eq_digits, hnil] at htext
    have hlen : leadingZeros ((List.replicate (ds.length + 1) (0 : UInt8)).map UInt8.toNat) =
        ds.length + 1 := by
      have hrep : (List.replicate (ds.length + 1) (0 : UInt8)).map UInt8.toNat =
          List.replicate (ds.length + 1) 0 ++ [] := by
        rw [List.map_replicate, List.append_nil]
        rfl
      rw [hrep, leadingZeros_replicate (by simp)]
    rw [hlen] at htext
    simp [positional] at htext
  · intro hv
    rw [hvalue hv, base58_positional, positional_eq (by decide) hds]

theorem base58_of_decode (h : base58btcDecode s = some r) (hr : ∃ x ∈ r, x ≠ 0) : base58 r = s := by
  obtain ⟨ds, hds, rfl, hvalue, hzero⟩ := base58btcDecode_cases h
  have hv : radixValue 58 ds ≠ 0 := by
    intro hv
    obtain ⟨x, hx, hne⟩ := hr
    rw [hzero hv] at hx
    exact hne (List.eq_of_mem_replicate hx)
  exact (base58_decode_iff h).mpr ((exists_ne_one_iff hds).mpr hv)

/-! ## Identifiers -/

variable {m : Vector UInt8 34}

theorem get_of_multihash {digest : Vector UInt8 32} (hm : m.toList = 0x12 :: 0x20 :: digest.toList) :
    m.get 0 = 0x12 ∧ m.get 1 = 0x20 := by
  have h0 : m.toList[0]? = some 0x12 := by rw [hm]; rfl
  have h1 : m.toList[1]? = some 0x20 := by rw [hm]; rfl
  rw [Vector.getElem?_toList, Vector.getElem?_eq_getElem (by decide)] at h0 h1
  exact ⟨Option.some.inj h0, Option.some.inj h1⟩

theorem multihash_of_get (h0 : m.get 0 = 0x12) (h1 : m.get 1 = 0x20) :
    ∃ digest : Vector UInt8 32, m.toList = 0x12 :: 0x20 :: digest.toList := by
  have hdrop : (m.toList.drop 2).length = 32 := by simp
  obtain ⟨digest, -, hdigest⟩ := toVector_of_length hdrop
  refine ⟨digest, ?_⟩
  have hlen : 1 < m.toList.length := by simp
  change m[0] = 0x12 at h0
  change m[1] = 0x20 at h1
  rw [hdigest, ← h0, ← h1, ← Vector.getElem_toList (by simp), ← Vector.getElem_toList (by simp)]
  rw [List.getElem_cons_drop, List.getElem_cons_drop, List.drop_zero]

/-- The identifiers accepted are the texts of a tag of two bytes and 32 more. -/
theorem cidV0ToMultihash_iff : cidV0ToMultihash s = .ok m ↔
    s = base58 m.toList ∧ ∃ digest : Vector UInt8 32, m.toList = 0x12 :: 0x20 :: digest.toList := by
  constructor
  · intro h
    unfold cidV0ToMultihash at h
    split at h
    · cases h
    · next bytes hbytes =>
      split at h
      · cases h
      · next out hout =>
        split at h
        · cases h
        · next htag =>
          cases h
          push Not at htag
          obtain ⟨digest, hm⟩ := multihash_of_get htag.1 htag.2
          obtain rfl : bytes = m.toList := by
            unfold toVector at hout
            split at hout
            · cases hout
              rfl
            · cases hout
          have hne : ∃ x ∈ m.toList, x ≠ 0 := ⟨0x12, by rw [hm]; exact List.mem_cons_self, by decide⟩
          exact ⟨(base58_of_decode hbytes hne).symm, digest, hm⟩
  · rintro ⟨rfl, digest, hm⟩
    have hne : ∃ x ∈ m.toList, x ≠ 0 := ⟨0x12, by rw [hm]; exact List.mem_cons_self, by decide⟩
    obtain ⟨h0, h1⟩ := get_of_multihash hm
    rw [cidV0ToMultihash, decode_base58_iff.mpr hne]
    dsimp only
    rw [toVector_toList]
    dsimp only
    exact if_neg (not_or.mpr ⟨not_not.mpr h0, not_not.mpr h1⟩)

/-- **The decoder is the inverse of the encoding exactly away from zero bytes alone, so that the
identifiers accepted are right.** -/
theorem base58_right_iff {t : String} :
    (base58btcDecode (base58 b) = some b ↔ ∃ x ∈ b, x ≠ 0) ∧
    (base58btcDecode s = some r → (base58 r = s ↔ ∃ c ∈ s.toList, c ≠ '1')) ∧
    (cidV0ToMultihash s = .ok m → cidV0ToMultihash t = .ok m → s = t) ∧
    (cidV0ToMultihash s = .ok m ↔
      s = base58 m.toList ∧ ∃ digest : Vector UInt8 32, m.toList = 0x12 :: 0x20 :: digest.toList) := by
  refine ⟨decode_base58_iff, base58_decode_iff, ?_, cidV0ToMultihash_iff⟩
  intro hs ht
  rw [(cidV0ToMultihash_iff.mp hs).1, (cidV0ToMultihash_iff.mp ht).1]

/-- No bytes have no text, and the empty text is decoded to a zero byte. -/
theorem base58btcDecode_empty : base58 [] = "" ∧ base58btcDecode "" = some [0] ∧
    base58btcDecode (base58 []) ≠ some [] := by
  have hdecode : base58btcDecode "" = some [0] := rfl
  refine ⟨rfl, hdecode, ?_⟩
  intro h
  exact absurd (hdecode.symm.trans h) (by decide)

end KeryxMiner.Ipfs
