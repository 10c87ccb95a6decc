import KeryxMiner.BigEndian
import Mathlib.Algebra.Group.Nat.Defs
import Mathlib.Algebra.GroupWithZero.Nat
import Mathlib.Data.List.Infix

/-!
# The payout address

`decodeAddress` is `decode_address` of `escrow.rs`. It drops the last eight bytes of an address
without a look, so it accepts more than the addresses that encode what it returns, and it panics
where these bytes do not start with a character. It decodes as it should exactly for the texts that
it refuses before and for the canonical addresses (`decodesRightly_iff`). The checksum of an address
is a parameter, since no function of the source computes one.
-/

namespace KeryxMiner.Escrow

/-! ## The decoder -/

def bech32Charset : List Char := "qpzry9x8gf2tvdw0s3jn54khce6mua7l".toList

/-- The number of bytes of a text. -/
def utf8Len (cs : List Char) : Nat := (cs.map Char.utf8Size).sum

/-- What stands behind the first colon. -/
def afterColon (cs : List Char) : Option (List Char) :=
  match cs.dropWhile (· ≠ ':') with
  | [] => none
  | _ :: rest => some rest

/-- The characters of the first `n` bytes; none where these end within a character, which makes the
source panic. -/
def takeBytes : List Char → Nat → Option (List Char)
  | _, 0 => some []
  | [], _ + 1 => none
  | c :: cs, n + 1 =>
    if c.utf8Size ≤ n + 1 then (takeBytes cs (n + 1 - c.utf8Size)).map (c :: ·) else none

def bech32Values : List Char → Except String (List UInt8)
  | [] => .ok []
  | c :: cs =>
    match bech32Charset.idxOf? c with
    | none => .error ("Invalid bech32 character '" ++ String.singleton c ++ "'")
    | some i => (UInt8.ofNat i :: ·) <$> bech32Values cs

/-- The loop that regroups five bits into eight. What is left over at the end is dropped. -/
def regroup : List UInt8 → (buf : UInt32) → (bits : Nat) → List UInt8
  | [], _, _ => []
  | b :: data5, buf, bits =>
    let buf := (buf <<< 5) ||| b.toUInt32
    if bits + 5 ≥ 8 then
      (buf >>> UInt32.ofNat (bits + 5 - 8)).toUInt8 :: regroup data5 buf (bits + 5 - 8)
    else regroup data5 buf (bits + 5)

/-- Decode a bech32 address into its version and the 32 bytes of its script key; `none` is a
panic. -/
def decodeAddress (addr : String) : Option (Except String (Nat × List UInt8)) :=
  match afterColon addr.toList with
  | none => some (.error "Missing ':' in address")
  | some dataWithChecksum =>
    if utf8Len dataWithChecksum < 9 then some (.error "Address too short")
    else
      (takeBytes dataWithChecksum (utf8Len dataWithChecksum - 8)).map fun dataStr =>
        match bech32Values dataStr with
        | .error e => .error e
        | .ok data5 =>
          let bytes := regroup data5 0 0
          if bytes.length < 33 then
            .error ("Expected ≥33 decoded bytes, got " ++ toString bytes.length)
          else .ok ((bytes.headD 0).toNat, (bytes.drop 1).take 32)

/-! ## Canonical addresses -/

/-- The checksum that belongs to the prefix and the payload of an address, in groups of five bits. -/
abbrev Checksum := List Char → List Nat → Vector (Fin 32) 8

/-- The payload in groups of five bits, the last one filled up with zeros. -/
def fiveBits (payload : List UInt8) : List Nat :=
  let groups := (8 * payload.length + 4) / 5
  digitsBE 32 groups (ofDigitsBE 256 0 (payload.map (·.toNat)) * 2 ^ (5 * groups - 8 * payload.length))

def bech32Char (v : Nat) : Char := bech32Charset.getD v 'q'

/-- The address of a prefix and a payload. -/
def encodeAddress (checksum : Checksum) (prefixChars : List Char) (payload : List UInt8) :
    List Char :=
  let data5 := fiveBits payload
  prefixChars ++ ':' ::
    (data5 ++ (checksum prefixChars data5).toList.map (·.val)).map bech32Char

/-- The address is the one that encodes the version and the key. -/
def Canonical (checksum : Checksum) (addr : String) (version : Nat) (key : List UInt8) : Prop :=
  version < 256 ∧ key.length = 32 ∧ ∃ prefixChars, ':' ∉ prefixChars ∧
    addr.toList = encodeAddress checksum prefixChars (UInt8.ofNat version :: key)

/-- The decoder does not panic, and what it accepts is canonical. -/
structure DecodesRightly (checksum : Checksum) (addr : String) : Prop where
  total : decodeAddress addr ≠ none
  canonical : ∀ version key, decodeAddress addr = some (.ok (version, key)) →
    Canonical checksum addr version key

/-! ## Regrouping -/

section

variable {buf : UInt32} {bits x : Nat} {b : UInt8} {data5 : List UInt8}

theorem toNat_push (hbuf : buf.toNat = x % 2 ^ 32) (hb : b.toNat < 32) :
    ((buf <<< 5) ||| b.toUInt32).toNat = (x * 32 + b.toNat) % 2 ^ 32 := by
  have hshift : (buf <<< 5).toNat = (x % 2 ^ 27) <<< 5 := by
    rw [UInt32.toNat_shiftLeft, hbuf, Nat.shiftLeft_eq, Nat.shiftLeft_eq]
    have hfive : UInt32.toNat 5 % 32 = 5 := rfl
    rw [hfive]
    omega
  rw [UInt32.toNat_or, hshift, UInt8.toNat_toUInt32, ← Nat.shiftLeft_add_eq_or_of_lt hb,
    Nat.shiftLeft_eq]
  omega

theorem toNat_pop {k : Nat} (hbuf : buf.toNat = x % 2 ^ 32) (hk : k ≤ 4) :
    (buf >>> UInt32.ofNat k).toUInt8.toNat = x / 2 ^ k % 256 := by
  have hk' : (UInt32.ofNat k).toNat % 32 = k := by
    rw [UInt32.toNat_ofNat']
    omega
  rw [UInt32.toNat_toUInt8, UInt32.toNat_shiftRight, hk', hbuf, Nat.shiftRight_eq_div_pow]
  have hsplit : 2 ^ 32 = 2 ^ k * 2 ^ (32 - k) := by rw [← Nat.pow_add]; congr 1; omega
  rw [hsplit, Nat.mod_mul_right_div_self, Nat.mod_mod_of_dvd]
  exact Nat.pow_dvd_pow 2 (show 8 ≤ 32 - k by omega)

/-- The bytes are the number of the groups without the bits that are left over. -/
theorem regroup_spec (h : ∀ b ∈ data5, b.toNat < 32) (hbits : bits < 8)
    (hbuf : buf.toNat = x % 2 ^ 32) :
    (regroup data5 buf bits).length = (bits + 5 * data5.length) / 8 ∧
      ofDigitsBE 256 (x / 2 ^ bits) ((regroup data5 buf bits).map (·.toNat)) =
        ofDigitsBE 32 x (data5.map (·.toNat)) / 2 ^ ((bits + 5 * data5.length) % 8) := by
  induction data5 generalizing buf bits x with
  | nil =>
    refine ⟨(Nat.div_eq_of_lt hbits).symm, ?_⟩
    rw [List.length_nil, Nat.mul_zero, Nat.add_zero, Nat.mod_eq_of_lt hbits]
    rfl
  | cons b data5 ih =>
    obtain ⟨hb, hrest⟩ := List.forall_mem_cons.mp h
    have hpush := toNat_push hbuf hb
    have hdiv : (x * 32 + b.toNat) / 32 = x := by omega
    rw [regroup, List.length_cons, List.map_cons, ofDigitsBE]
    split
    · next hge =>
      obtain ⟨hlen, hnum⟩ := @ih _ (bits + 5 - 8) _ hrest (by omega) hpush
      have hbyte := toNat_pop (k := bits + 5 - 8) hpush (by omega)
      have hacc : x / 2 ^ bits * 256 + (x * 32 + b.toNat) / 2 ^ (bits + 5 - 8) % 256 =
          (x * 32 + b.toNat) / 2 ^ (bits + 5 - 8) := by
        have hpow : 2 ^ bits * 32 = 2 ^ (bits + 5 - 8) * 256 := by
          rw [show 32 = 2 ^ 5 from rfl, show 256 = 2 ^ 8 from rfl, ← Nat.pow_add, ← Nat.pow_add]
          congr 1
          omega
        have hsame : x / 2 ^ bits = (x * 32 + b.toNat) / 2 ^ (bits + 5 - 8) / 256 := by
          rw [Nat.div_div_eq_div_mul, ← hpow, Nat.mul_comm (2 ^ bits), ← Nat.div_div_eq_div_mul, hdiv]
        rw [hsame]
        exact Nat.div_add_mod' _ 256
      refine ⟨by rw [List.length_cons, hlen]; omega, ?_⟩
      rw [List.map_cons, ofDigitsBE, hbyte, hacc, hnum]
      congr 2
      omega
    · next hlt =>
      obtain ⟨hlen, hnum⟩ := @ih _ (bits + 5) _ hrest (by omega) hpush
      have hacc : x / 2 ^ bits = (x * 32 + b.toNat) / 2 ^ (bits + 5) := by
        rw [Nat.pow_add, Nat.mul_comm (2 ^ bits), ← Nat.div_div_eq_div_mul]
        exact congrArg (· / 2 ^ bits) hdiv.symm
      refine ⟨by rw [hlen]; omega, ?_⟩
      rw [hacc, hnum]
      congr 2
      omega

end

/-! ## Texts -/

section

variable {addr : String} {c : Char} {cs cs' rest prefixChars : List Char} {n v : Nat} {data5 : List UInt8}
  {payload : List UInt8} {err : String}

theorem utf8Len_append : utf8Len (cs ++ cs') = utf8Len cs + utf8Len cs' := by
  rw [utf8Len, List.map_append, List.sum_append]
  rfl

theorem takeBytes_spec (h : takeBytes cs n = some cs') : ∃ rest, cs = cs' ++ rest ∧ utf8Len cs' = n := by
  induction cs generalizing n cs' with
  | nil =>
    cases n with
    | zero => exact ⟨[], by cases h; rfl, by cases h; rfl⟩
    | succ n => cases h
  | cons c cs ih =>
    cases n with
    | zero => exact ⟨c :: cs, by cases h; rfl, by cases h; rfl⟩
    | succ n =>
      rw [takeBytes] at h
      split at h
      · next hle =>
        obtain ⟨cs', htake, rfl⟩ := Option.map_eq_some_iff.mp h
        obtain ⟨rest, rfl, hlen⟩ := ih htake
        refine ⟨rest, rfl, ?_⟩
        rw [utf8Len, List.map_cons, List.sum_cons, ← utf8Len, hlen]
        omega
      · cases h

theorem takeBytes_append : takeBytes (cs ++ cs') (utf8Len cs) = some cs := by
  induction cs with
  | nil => cases cs' <;> rfl
  | cons c cs ih =>
    have hlen : utf8Len (c :: cs) = utf8Len cs + (c.utf8Size - 1) + 1 := by
      have hpos := c.utf8Size_pos
      rw [utf8Len, List.map_cons, List.sum_cons, ← utf8Len]
      omega
    have hpos := c.utf8Size_pos
    have hle : c.utf8Size ≤ utf8Len cs + (c.utf8Size - 1) + 1 := by omega
    have hsub : utf8Len cs + (c.utf8Size - 1) + 1 - c.utf8Size = utf8Len cs := by omega
    rw [List.cons_append, hlen, takeBytes, if_pos hle, hsub, ih]
    rfl

theorem afterColon_append (h : ':' ∉ prefixChars) : afterColon (prefixChars ++ ':' :: rest) = some rest := by
  have hpos : ∀ c ∈ prefixChars, decide (c ≠ ':') = true := by
    intro c hc
    rw [decide_eq_true_eq]
    rintro rfl
    exact h hc
  rw [afterColon, List.dropWhile_append_of_pos hpos]
  rfl

theorem eq_append_of_afterColon (h : afterColon cs = some rest) :
    ':' ∉ cs.takeWhile (· ≠ ':') ∧ cs = cs.takeWhile (· ≠ ':') ++ ':' :: rest := by
  have hsplit := List.takeWhile_append_dropWhile (p := fun c : Char => decide (c ≠ ':')) (l := cs)
  refine ⟨?_, ?_⟩
  · intro hmem
    have hne := List.all_eq_true.mp (List.all_takeWhile (p := fun c : Char => decide (c ≠ ':'))
      (l := cs)) ':' hmem
    exact of_decide_eq_true hne rfl
  · rw [afterColon] at h
    split at h
    · cases h
    · next c rest' hdrop =>
      obtain rfl := Option.some.inj h
      have hcolon : c = ':' := by
        have hhead := List.head?_dropWhile_not (fun c : Char => decide (c ≠ ':')) cs
        rw [hdrop] at hhead
        simpa using hhead
      rw [hdrop, hcolon] at hsplit
      exact hsplit.symm

theorem prefix_unique {prefixChars' rest' : List Char} (h : ':' ∉ prefixChars) (h' : ':' ∉ prefixChars')
    (heq : prefixChars ++ ':' :: rest = prefixChars' ++ ':' :: rest') :
    prefixChars = prefixChars' ∧ rest = rest' := by
  have hrest : rest = rest' := by
    have hafter : afterColon (prefixChars ++ ':' :: rest) = some rest := afterColon_append h
    rw [heq, afterColon_append h'] at hafter
    exact (Option.some.inj hafter).symm
  subst hrest
  exact ⟨List.append_cancel_right heq, rfl⟩

/-! ## The alphabet -/

theorem length_charset : bech32Charset.length = 32 := by decide +kernel

theorem idxOf_bech32Char (hv : v < 32) : bech32Charset.idxOf (bech32Char v) = v := by
  have hall : (List.range 32).all fun v => bech32Charset.idxOf (bech32Char v) == v := by
    decide +kernel
  exact eq_of_beq (List.all_eq_true.mp hall v (List.mem_range.mpr hv))

theorem bech32Char_mem (hv : v < 32) : bech32Char v ∈ bech32Charset := by
  have hlt : v < bech32Charset.length := length_charset.symm ▸ hv
  rw [bech32Char, List.getD_eq_getElem?_getD, List.getElem?_eq_getElem hlt]
  exact List.getElem_mem _

theorem bech32Char_idxOf (hc : c ∈ bech32Charset) : bech32Char (bech32Charset.idxOf c) = c := by
  have hlt := List.idxOf_lt_length_of_mem hc
  rw [bech32Char, List.getD_eq_getElem?_getD, List.getElem?_eq_getElem hlt, List.getElem_idxOf]
  rfl

theorem utf8Size_of_mem (hc : c ∈ bech32Charset) : c.utf8Size = 1 := by
  have hall : bech32Charset.all fun c => c.utf8Size == 1 := by decide +kernel
  exact eq_of_beq (List.all_eq_true.mp hall c hc)

theorem utf8Len_of_mem (h : ∀ c ∈ cs, c ∈ bech32Charset) : utf8Len cs = cs.length := by
  induction cs with
  | nil => rfl
  | cons c cs ih =>
    obtain ⟨hc, hcs⟩ := List.forall_mem_cons.mp h
    rw [utf8Len, List.map_cons, List.sum_cons, ← utf8Len, utf8Size_of_mem hc, ih hcs,
      List.length_cons, Nat.add_comm]

theorem idxOf?_of_mem (hc : c ∈ bech32Charset) :
    bech32Charset.idxOf? c = some (bech32Charset.idxOf c) := by
  have hall : bech32Charset.all fun c =>
      bech32Charset.idxOf? c == some (bech32Charset.idxOf c) := by decide +kernel
  exact eq_of_beq (List.all_eq_true.mp hall c hc)

theorem bech32Values_ok (h : ∀ c ∈ cs, c ∈ bech32Charset) :
    bech32Values cs = .ok (cs.map fun c => .ofNat (bech32Charset.idxOf c)) := by
  induction cs with
  | nil => rfl
  | cons c cs ih =>
    obtain ⟨hc, hcs⟩ := List.forall_mem_cons.mp h
    rw [bech32Values, idxOf?_of_mem hc, ih hcs]
    rfl

theorem bech32Values_error (h : ∃ c ∈ cs, c ∉ bech32Charset) : ∃ err, bech32Values cs = .error err := by
  induction cs with
  | nil => simp at h
  | cons c cs ih =>
    rw [bech32Values]
    split
    · exact ⟨_, rfl⟩
    · next i hi =>
      have hc : c ∈ bech32Charset := by
        by_contra hnot
        rw [List.idxOf?_eq_none_iff.mpr hnot] at hi
        cases hi
      obtain ⟨c', hc', hbad⟩ := h
      obtain rfl | hc' := List.mem_cons.mp hc'
      · exact absurd hc hbad
      · obtain ⟨err, herr⟩ := ih ⟨c', hc', hbad⟩
        exact ⟨err, by rw [herr]; rfl⟩

/-! ## Which addresses decode rightly -/

/-- The groups of five bits that a text spells. -/
def spelled (cs : List Char) : List Nat := cs.map bech32Charset.idxOf

/-- The text is refused before its last eight bytes matter, or it has the groups of 33 bytes with a
zero bit behind them and ends with the checksum of its prefix and groups. -/
def EndsRightly (checksum : Checksum) (addr : String) : Prop :=
  ∀ data, afterColon addr.toList = some data → 9 ≤ utf8Len data →
    ∃ dataStr check, data = dataStr ++ check ∧ utf8Len check = 8 ∧
      ((∃ c ∈ dataStr, c ∉ bech32Charset) ∨ dataStr.length < 53 ∨
        dataStr.length = 53 ∧ (spelled dataStr).getLastD 0 % 2 = 0 ∧
          check = ((checksum (addr.toList.takeWhile (· ≠ ':')) (spelled dataStr)).toList.map
            (·.val)).map bech32Char)

theorem forall_spelled_lt (h : ∀ c ∈ cs, c ∈ bech32Charset) : ∀ v ∈ spelled cs, v < 32 := by
  intro v hv
  obtain ⟨c, hc, rfl⟩ := List.mem_map.mp hv
  exact length_charset ▸ List.idxOf_lt_length_of_mem (h c hc)

theorem map_bech32Char_spelled (h : ∀ c ∈ cs, c ∈ bech32Charset) : (spelled cs).map bech32Char = cs := by
  rw [spelled, List.map_map]
  exact (List.map_congr_left fun c hc => bech32Char_idxOf (h c hc)).trans (List.map_id _)

theorem spelled_map_bech32Char {vs : List Nat} (h : ∀ v ∈ vs, v < 32) :
    spelled (vs.map bech32Char) = vs := by
  rw [spelled, List.map_map]
  exact (List.map_congr_left fun v hv => idxOf_bech32Char (h v hv)).trans (List.map_id _)

theorem getLastD_concat {vs : List Nat} : (vs ++ [v]).getLastD 0 = v := by
  rw [List.getLastD_eq_getLast?, List.getLast?_append]
  rfl

/-- The groups of 33 bytes are 53 groups, the last of which is even. -/
theorem fiveBits_eq (hlen : payload.length = 33) :
    fiveBits payload = digitsBE 32 53 (ofDigitsBE 256 0 (payload.map (·.toNat)) * 2) := by
  have hgroups : (8 * 33 + 4) / 5 = 53 := rfl
  have hpad : 2 ^ (5 * 53 - 8 * 33) = 2 := rfl
  rw [fiveBits, hlen, hgroups, hpad]

theorem forall_fiveBits_lt (hlen : payload.length = 33) : ∀ v ∈ fiveBits payload, v < 32 := by
  rw [fiveBits_eq hlen]
  exact digitsBE_lt (by decide)

theorem fiveBits_getLastD (hlen : payload.length = 33) : (fiveBits payload).getLastD 0 % 2 = 0 := by
  rw [fiveBits_eq hlen, digitsBE, getLastD_concat]
  omega

theorem getLastD_ofDigitsBE {vs : List Nat} : vs.getLastD 0 % 2 = ofDigitsBE 32 0 vs % 2 := by
  induction vs using List.reverseRecOn with
  | nil => rfl
  | append_singleton vs v ih =>
    rw [getLastD_concat, ofDigitsBE_concat]
    omega

/-- What the decoder makes of 53 groups or more. -/
theorem decodeAddress_of_split (hafter : afterColon addr.toList = some (cs ++ cs'))
    (hcheck : utf8Len cs' = 8) (hlen : 9 ≤ utf8Len (cs ++ cs')) :
    decodeAddress addr = some (match bech32Values cs with
      | .error e => .error e
      | .ok data5 =>
        let bytes := regroup data5 0 0
        if bytes.length < 33 then
          .error ("Expected ≥33 decoded bytes, got " ++ toString bytes.length)
        else .ok ((bytes.headD 0).toNat, (bytes.drop 1).take 32)) := by
  have hsub : utf8Len (cs ++ cs') - 8 = utf8Len cs := by
    rw [utf8Len_append, hcheck, Nat.add_sub_cancel]
  rw [decodeAddress, hafter]
  dsimp only
  rw [if_neg (Nat.not_lt.mpr hlen), hsub, takeBytes_append, Option.map_some]

theorem toNat_values (h : ∀ c ∈ cs, c ∈ bech32Charset) :
    (cs.map fun c => UInt8.ofNat (bech32Charset.idxOf c)).map (·.toNat) = spelled cs := by
  rw [List.map_map]
  apply List.map_congr_left
  intro c hc
  have hlt : bech32Charset.idxOf c < 32 := length_charset ▸ List.idxOf_lt_length_of_mem (h c hc)
  exact Nat.mod_eq_of_lt (hlt.trans (by decide))

/-- The bytes of the groups, and the number they make. -/
theorem regroup_values (h : ∀ c ∈ cs, c ∈ bech32Charset) :
    (regroup (cs.map fun c => .ofNat (bech32Charset.idxOf c)) 0 0).length = 5 * cs.length / 8 ∧
      ofDigitsBE 256 0 ((regroup (cs.map fun c => .ofNat (bech32Charset.idxOf c)) 0 0).map (·.toNat)) =
        ofDigitsBE 32 0 (spelled cs) / 2 ^ (5 * cs.length % 8) := by
  have hlt : ∀ b ∈ cs.map fun c => UInt8.ofNat (bech32Charset.idxOf c), b.toNat < 32 := by
    intro b hb
    apply forall_spelled_lt h
    rw [← toNat_values h]
    exact List.mem_map_of_mem hb
  obtain ⟨hlen, hnum⟩ := @regroup_spec 0 0 0 _ hlt (by decide) rfl
  rw [List.length_map, Nat.zero_add] at hlen
  rw [List.length_map, Nat.zero_add, toNat_values h] at hnum
  exact ⟨hlen, hnum⟩

/-- An accepted text is canonical only with 53 groups, a zero bit and the right checksum. -/
theorem ends_of_canonical {checksum : Checksum} {version : Nat} {key : List UInt8}
    (hafter : afterColon addr.toList = some (cs ++ cs')) (hcheck : utf8Len cs' = 8)
    (h : Canonical checksum addr version key) :
    cs.length = 53 ∧ (spelled cs).getLastD 0 % 2 = 0 ∧
      cs' = ((checksum (addr.toList.takeWhile (· ≠ ':')) (spelled cs)).toList.map
        (·.val)).map bech32Char := by
  obtain ⟨-, hkey, prefixChars, hstarts, haddr⟩ := h
  have hpayload : (UInt8.ofNat version :: key).length = 33 := by rw [List.length_cons, hkey]
  obtain ⟨hcolon, hsplit⟩ := eq_append_of_afterColon hafter
  obtain ⟨hpre, hdata⟩ := prefix_unique hstarts hcolon (haddr.symm.trans hsplit)
  have hcheckAll : ∀ c ∈ cs', c ∈ bech32Charset := by
    intro c hc
    have hmem : c ∈ cs ++ cs' := List.mem_append_right _ hc
    rw [← hdata] at hmem
    obtain ⟨v, hv, rfl⟩ := List.mem_map.mp hmem
    apply bech32Char_mem
    obtain hv | hv := List.mem_append.mp hv
    · exact forall_fiveBits_lt hpayload v hv
    · obtain ⟨w, -, rfl⟩ := List.mem_map.mp hv
      exact w.isLt
  have hcheckLen : cs'.length = 8 := by rw [← utf8Len_of_mem hcheckAll, hcheck]
  rw [List.map_append] at hdata
  have hfive : (fiveBits (UInt8.ofNat version :: key)).length = 53 := by
    rw [fiveBits_eq hpayload, length_digitsBE]
  have hlens : ((fiveBits (UInt8.ofNat version :: key)).map bech32Char).length = cs.length := by
    have hlen := congrArg List.length hdata
    rw [List.length_append, List.length_append, hcheckLen, List.length_map (f := bech32Char),
      List.length_map, List.length_map, Vector.length_toList] at hlen
    rw [List.length_map]
    omega
  obtain ⟨hcs', hsum⟩ := List.append_inj hdata hlens
  have hspelled : spelled cs = fiveBits (UInt8.ofNat version :: key) := by
    rw [← hcs', spelled_map_bech32Char (forall_fiveBits_lt hpayload)]
  refine ⟨by rw [← hlens, List.length_map, hfive], ?_, ?_⟩
  · rw [hspelled]
    exact fiveBits_getLastD hpayload
  · rw [← hpre, hspelled]
    exact hsum.symm

/-- With 53 groups, a zero bit and the right checksum, the text encodes what it decodes to. -/
theorem canonical_of_ends {checksum : Checksum} {bytes : List UInt8}
    (hafter : afterColon addr.toList = some (cs ++ cs')) (hcs : ∀ c ∈ cs, c ∈ bech32Charset)
    (hlen : cs.length = 53) (heven : (spelled cs).getLastD 0 % 2 = 0)
    (hcheck : cs' = ((checksum (addr.toList.takeWhile (· ≠ ':')) (spelled cs)).toList.map
      (·.val)).map bech32Char)
    (hbytes : bytes = regroup (cs.map fun c => .ofNat (bech32Charset.idxOf c)) 0 0) :
    Canonical checksum addr (bytes.headD 0).toNat ((bytes.drop 1).take 32) := by
  obtain ⟨hbytesLen, hnum⟩ := regroup_values hcs
  rw [← hbytes, hlen] at hbytesLen hnum
  have hfive : fiveBits bytes = spelled cs := by
    rw [getLastD_ofDigitsBE] at heven
    have hdouble : ofDigitsBE 32 0 (spelled cs) / 2 ^ (5 * 53 % 8) * 2 = ofDigitsBE 32 0 (spelled cs) :=
      Nat.div_mul_cancel (Nat.dvd_of_mod_eq_zero heven)
    have hspelledLen : (spelled cs).length = 53 := by rw [spelled, List.length_map, hlen]
    rw [fiveBits_eq hbytesLen, hnum, hdouble, ← hspelledLen]
    exact digitsBE_ofDigitsBE (forall_spelled_lt hcs)
  obtain ⟨b, key, rfl⟩ := List.exists_cons_of_length_eq_add_one hbytesLen
  have hkey : key.length = 32 := Nat.succ.inj hbytesLen
  obtain ⟨hcolon, hsplit⟩ := eq_append_of_afterColon hafter
  rw [List.headD_cons, List.drop_one, List.tail_cons, ← hkey, List.take_length]
  refine ⟨b.toNat_lt, hkey, addr.toList.takeWhile (· ≠ ':'), hcolon, ?_⟩
  rw [UInt8.ofNat_toNat, encodeAddress, hfive, List.map_append, map_bech32Char_spelled hcs, ← hcheck]
  exact hsplit

/-- The decoder decodes rightly exactly the texts that end rightly. -/
theorem decodesRightly_iff (checksum : Checksum) (addr : String) :
    DecodesRightly checksum addr ↔ EndsRightly checksum addr := by
  constructor
  · intro h data hafter hlen
    have htotal := h.total
    rw [decodeAddress, hafter] at htotal
    dsimp only at htotal
    rw [if_neg (Nat.not_lt.mpr hlen)] at htotal
    obtain ⟨dataStr, htake⟩ : ∃ dataStr, takeBytes data (utf8Len data - 8) = some dataStr := by
      rw [← Option.ne_none_iff_exists']
      intro hnone
      rw [hnone] at htotal
      exact htotal rfl
    obtain ⟨check, rfl, hdataStr⟩ := takeBytes_spec htake
    have hcheck : utf8Len check = 8 := by
      rw [utf8Len_append] at hdataStr hlen
      omega
    refine ⟨dataStr, check, rfl, hcheck, ?_⟩
    by_cases hcs : ∀ c ∈ dataStr, c ∈ bech32Charset
    · by_cases hshort : dataStr.length < 53
      · exact .inr (.inl hshort)
      · have hdecode := decodeAddress_of_split hafter hcheck hlen
        rw [bech32Values_ok hcs] at hdecode
        dsimp only at hdecode
        rw [(regroup_values hcs).1, if_neg (by omega)] at hdecode
        exact .inr (.inr (ends_of_canonical hafter hcheck (h.canonical _ _ hdecode)))
    · push Not at hcs
      exact .inl hcs
  · intro h
    cases hafter : afterColon addr.toList with
    | none =>
      have hdecode : decodeAddress addr = some (.error "Missing ':' in address") := by
        rw [decodeAddress, hafter]
      exact ⟨by rw [hdecode]; exact nofun, by rw [hdecode]; exact nofun⟩
    | some data =>
      by_cases hlen : utf8Len data < 9
      · have hdecode : decodeAddress addr = some (.error "Address too short") := by
          rw [decodeAddress, hafter]
          exact if_pos hlen
        exact ⟨by rw [hdecode]; exact nofun, by rw [hdecode]; exact nofun⟩
      · rw [Nat.not_lt] at hlen
        obtain ⟨dataStr, check, rfl, hcheck, hends⟩ := h data hafter hlen
        have hdecode := decodeAddress_of_split hafter hcheck hlen
        refine ⟨by rw [hdecode]; exact nofun, ?_⟩
        intro version key hok
        rw [hdecode, Option.some_inj] at hok
        by_cases hcs : ∀ c ∈ dataStr, c ∈ bech32Charset
        · rw [bech32Values_ok hcs] at hok
          dsimp only at hok
          split at hok
          · cases hok
          · next hge =>
            rw [(regroup_values hcs).1] at hge
            obtain ⟨c, hc, hbad⟩ | hshort | ⟨hlen', heven, hsum⟩ := hends
            · exact absurd (hcs c hc) hbad
            · omega
            · cases hok
              exact canonical_of_ends hafter hcs hlen' heven hsum rfl
        · push Not at hcs
          obtain ⟨err, herr⟩ := bech32Values_error hcs
          rw [herr] at hok
          cases hok

/-- A text that is not ASCII makes the decoder panic, and two texts that differ in their last
character decode to the same key. -/
theorem decodeAddress_lax : decodeAddress "keryx:éqqqqqqq" = none ∧
    decodeAddress ("keryx:" ++ String.ofList (.replicate 60 'q') ++ "q") =
      some (.ok (0, .replicate 32 0)) ∧
    decodeAddress ("keryx:" ++ String.ofList (.replicate 60 'q') ++ "p") =
      some (.ok (0, .replicate 32 0)) := by
  decide +kernel

end

end KeryxMiner.Escrow
