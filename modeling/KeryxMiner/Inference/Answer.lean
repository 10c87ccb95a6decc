import KeryxMiner.Inference.ManifestBytes

/-!
# Plaintexts of sealed answers

A sealed answer carries the token ids of its generated positions behind its text: the ids, their
count and a magic, which is read from the end of the bytes. The plaintexts that are accepted are
those of a text and fewer than `2 ^ 32` ids (`decode_eq_ok`), whatever bytes the text has.
-/

namespace KeryxMiner.Inference.Answer

/-- Closes a plaintext that carries token ids. -/
def tokensMagic : List UInt8 := "KXTK".toUTF8.data.toList

/-- Bytes after the ids: their count, then the magic. -/
def trailerLen : Nat := 8

def encode (text : List UInt8) (ids : List UInt32) : List UInt8 :=
  text ++ (ids.flatMap le32 ++ (le32 (UInt32.ofNat ids.length) ++ tokensMagic))

/-- The numbers in the chunks of four bytes (`chunks_exact`). -/
def idsOf : List UInt8 → List UInt32
  | a :: b :: c :: d :: rest => UInt32.ofNat (ofLe [a, b, c, d]) :: idsOf rest
  | _ => []

def checkedSub (a b : Nat) : Option Nat := if b ≤ a then some (a - b) else none

/-- What `checked_add` and `checked_mul` make of the exact result. -/
def checked (bits v : Nat) : Option Nat := if v < 2 ^ bits then some v else none

def decode (plain : List UInt8) : Except ReadError (List UInt8 × List UInt32) := do
  let body ← require (checkedSub plain.length trailerLen)
  let magic ← index (slice plain (body + 4) plain.length)
  refuse (magic ≠ tokensMagic) .malformed
  let n := ofLe (← index (slice plain body (body + 4)))
  let textLen ← require (checkedSub body (← require (checked 64 (n * 4))))
  let ids := idsOf (← index (slice plain textLen body))
  return (← index (slice plain 0 textLen), ids)

/-- Text length of a plaintext of `answerLen` bytes carrying `nIds` ids. -/
def textLen (answerLen nIds : UInt32) : Option UInt32 := do
  let taken ← checked 32 ((← checked 32 (nIds.toNat * 4)) + trailerLen)
  (checkedSub answerLen.toNat taken).map UInt32.ofNat

variable {b text : List UInt8} {ids : List UInt32}

/-! ## Ids -/

theorem idsOf_flatMap : idsOf (ids.flatMap le32) = ids := by
  induction ids with
  | nil => rfl
  | cons id ids ih =>
    have hlen : (le32 id).length = 4 := length_toLe
    have hid : UInt32.ofNat (ofLe (le32 id)) = id := by
      rw [le32, ofLe_toLe id.toNat_lt, UInt32.ofNat_toNat]
    rw [List.flatMap_cons]
    generalize le32 id = bytes at hlen hid
    obtain ⟨a, b, c, d, rfl⟩ := List.length_eq_four.mp hlen
    rw [List.cons_append, List.cons_append, List.cons_append, List.singleton_append, idsOf, ih, hid]

theorem flatMap_idsOf {n : Nat} (h : b.length = 4 * n) :
    (idsOf b).flatMap le32 = b ∧ (idsOf b).length = n := by
  induction n generalizing b with
  | zero =>
    obtain rfl := List.length_eq_zero_iff.mp h
    exact ⟨rfl, rfl⟩
  | succ n ih =>
    obtain ⟨x, y, z, w, rest, rfl⟩ : ∃ x y z w rest, b = x :: y :: z :: w :: rest := by
      match b with
      | x :: y :: z :: w :: rest => exact ⟨x, y, z, w, rest, rfl⟩
      | [] | [_] | [_, _] | [_, _, _] =>
        simp only [List.length_cons, List.length_nil] at h
        omega
    simp only [List.length_cons] at h
    obtain ⟨hbytes, hlen⟩ := @ih rest (by omega)
    have hlt : ofLe [x, y, z, w] < 256 ^ 4 := ofLe_lt [x, y, z, w]
    have hword : le32 (UInt32.ofNat (ofLe [x, y, z, w])) = [x, y, z, w] := by
      rw [le32, UInt32.toNat_ofNat_of_lt' (by simpa using hlt)]
      exact toLe_ofLe [x, y, z, w]
    rw [idsOf, List.flatMap_cons, hbytes, hword, List.length_cons, hlen]
    exact ⟨rfl, rfl⟩

/-! ## Plaintexts -/

theorem length_encode : (encode text ids).length = text.length + 4 * ids.length + 8 := by
  have hmagic : tokensMagic.length = 4 := rfl
  rw [encode, List.length_append, List.length_append, List.length_append, length_flatMap_le32, le32,
    length_toLe, hmagic]
  omega

/-- Nothing is read outside the bytes. -/
theorem decode_eq : decode b =
    let n := ofLe ((b.drop (b.length - 8)).take 4)
    let textLen := b.length - 8 - n * 4
    if b.length < 8 ∨ b.drop (b.length - 4) ≠ tokensMagic ∨ b.length - 8 < n * 4 then
      .error .malformed
    else .ok (b.take textLen, idsOf ((b.drop textLen).take (n * 4))) := by
  by_cases hlen : b.length < 8
  · have hbody : checkedSub b.length trailerLen = none := if_neg (Nat.not_le.mpr hlen)
    rw [decode, hbody, if_pos (.inl hlen)]
    rfl
  have hbody : require (checkedSub b.length trailerLen) = .ok (b.length - 8) :=
    orFail_eq_ok.mpr (if_pos (Nat.not_lt.mp hlen))
  have hend : b.length - 8 + 4 = b.length - 4 := by omega
  have hmagic : index (slice b (b.length - 8 + 4) b.length) = .ok (b.drop (b.length - 4)) := by
    rw [hend]
    exact orFail_eq_ok.mpr (slice_to_end (by omega))
  rw [decode, bind_of_ok hbody, bind_of_ok hmagic]
  by_cases hne : b.drop (b.length - 4) ≠ tokensMagic
  · have hrefused : refuse (b.drop (b.length - 4) ≠ tokensMagic) ReadError.malformed =
        .error .malformed := if_pos hne
    rw [hrefused, if_pos (.inr (.inl hne))]
    rfl
  have hcount : index (slice b (b.length - 8) (b.length - 8 + 4)) =
      .ok ((b.drop (b.length - 8)).take 4) := by
    apply orFail_eq_ok.mpr
    rw [slice, if_pos (by omega), Nat.add_sub_cancel_left]
  rw [bind_of_ok (refuse_of_not hne), bind_of_ok hcount]
  have hn : ofLe ((b.drop (b.length - 8)).take 4) < 256 ^ 4 := by
    have hfour : ((b.drop (b.length - 8)).take 4).length = 4 := by
      rw [List.length_take, List.length_drop]
      omega
    have hlt := ofLe_lt ((b.drop (b.length - 8)).take 4)
    rwa [hfour] at hlt
  generalize ofLe ((b.drop (b.length - 8)).take 4) = n at hn ⊢
  have hids : require (checked 64 (n * 4)) = .ok (n * 4) :=
    orFail_eq_ok.mpr (if_pos (by omega))
  rw [bind_of_ok hids]
  by_cases hshort : b.length - 8 < n * 4
  · have hnone : checkedSub (b.length - 8) (n * 4) = none := if_neg (Nat.not_le.mpr hshort)
    rw [hnone, if_pos (.inr (.inr hshort))]
    rfl
  have htext : require (checkedSub (b.length - 8) (n * 4)) = .ok (b.length - 8 - n * 4) :=
    orFail_eq_ok.mpr (if_pos (Nat.not_lt.mp hshort))
  have hidsAt : index (slice b (b.length - 8 - n * 4) (b.length - 8)) =
      .ok ((b.drop (b.length - 8 - n * 4)).take (n * 4)) := by
    apply orFail_eq_ok.mpr
    rw [slice, if_pos (by omega)]
    congr 2
    omega
  have htextAt : index (slice b 0 (b.length - 8 - n * 4)) = .ok (b.take (b.length - 8 - n * 4)) := by
    apply orFail_eq_ok.mpr
    rw [slice, if_pos (by omega)]
    rfl
  rw [bind_of_ok htext, bind_of_ok hidsAt, bind_of_ok htextAt, if_neg (by tauto)]
  rfl

theorem encode_of_decode (h : decode b = .ok (text, ids)) :
    ids.length < 2 ^ 32 ∧ b = encode text ids := by
  rw [decode_eq] at h
  dsimp only at h
  split at h
  · cases h
  next hok =>
  simp only [not_or, not_not, Nat.not_lt] at hok
  obtain ⟨hlen, hmagic, hn⟩ := hok
  obtain ⟨count, hcount⟩ : ∃ count, (b.drop (b.length - 8)).take 4 = count := ⟨_, rfl⟩
  have hfour : count.length = 4 := by
    rw [← hcount, List.length_take, List.length_drop]
    omega
  rw [hcount] at h hn
  have hlt : ofLe count < 256 ^ 4 := hfour ▸ ofLe_lt count
  have hbytes : toLe 4 (ofLe count) = count := hfour ▸ toLe_ofLe count
  generalize ofLe count = n at h hn hlt hbytes
  cases h
  obtain ⟨hids, hidsLen⟩ := @flatMap_idsOf ((b.drop (b.length - 8 - n * 4)).take (n * 4)) n (by
    rw [List.length_take, List.length_drop]
    omega)
  have hword : le32 (UInt32.ofNat n) = count := by
    rw [le32, UInt32.toNat_ofNat_of_lt' (by simpa using hlt), hbytes]
  have hbody : b.length - 8 - n * 4 + n * 4 = b.length - 8 := Nat.sub_add_cancel hn
  have hend : b.length - 8 + 4 = b.length - 4 := by omega
  have hids' : b.drop (b.length - 8 - n * 4) =
      (b.drop (b.length - 8 - n * 4)).take (n * 4) ++ b.drop (b.length - 8) := by
    conv_lhs => rw [← List.take_append_drop (n * 4) (b.drop (b.length - 8 - n * 4))]
    rw [List.drop_drop, hbody]
  have htrailer : b.drop (b.length - 8) = count ++ tokensMagic := by
    rw [← hcount, ← hmagic, ← hend, ← List.drop_drop, List.take_append_drop]
  refine ⟨by rw [hidsLen]; simpa using hlt, ?_⟩
  rw [encode, hids, hidsLen, hword, ← htrailer, ← hids', List.take_append_drop]

theorem decode_encode (hids : ids.length < 2 ^ 32) : decode (encode text ids) = .ok (text, ids) := by
  rw [decode_eq]
  dsimp only
  have hfour : (le32 (UInt32.ofNat ids.length)).length = 4 := length_toLe
  have hn : ofLe (le32 (UInt32.ofNat ids.length)) = ids.length := by
    rw [le32, UInt32.toNat_ofNat_of_lt' hids]
    exact ofLe_toLe (by simpa using hids)
  have hbody : (encode text ids).length - 8 = (text ++ ids.flatMap le32).length := by
    rw [length_encode, List.length_append, length_flatMap_le32, Nat.add_sub_cancel]
  have htrailer : (encode text ids).drop ((encode text ids).length - 8) =
      le32 (UInt32.ofNat ids.length) ++ tokensMagic := by
    rw [hbody, encode, ← List.append_assoc, List.drop_left]
  have hend : (encode text ids).length - 4 = (encode text ids).length - 8 + 4 := by
    rw [length_encode]
    omega
  have hmagic : (encode text ids).drop ((encode text ids).length - 4) = tokensMagic := by
    rw [hend, ← List.drop_drop, htrailer, List.drop_left' hfour]
  have htext : (encode text ids).length - 8 - ids.length * 4 = text.length := by
    rw [length_encode]
    omega
  rw [htrailer, List.take_left' hfour, hn, hmagic, htext]
  have hlen : ids.length * 4 = (ids.flatMap le32).length := by
    rw [length_flatMap_le32, Nat.mul_comm]
  rw [if_neg, encode, List.take_left, List.drop_left, hlen, List.take_left, idsOf_flatMap]
  rw [length_encode]
  simp
  omega

/-- The plaintexts that are accepted are those of a text and of ids that can be counted. -/
theorem decode_eq_ok : decode b = .ok (text, ids) ↔ ids.length < 2 ^ 32 ∧ b = encode text ids :=
  ⟨encode_of_decode, fun ⟨hids, hb⟩ => hb ▸ decode_encode hids⟩

theorem textLen_eq (hlen : text.length + 4 * ids.length + 8 < 2 ^ 32) :
    textLen (UInt32.ofNat (text.length + 4 * ids.length + 8)) (UInt32.ofNat ids.length) =
      some (UInt32.ofNat text.length) := by
  have hids : ids.length < 2 ^ 32 := by omega
  have hidsLen : checked 32 (ids.length * 4) = some (ids.length * 4) := if_pos (by omega)
  have htaken : checked 32 (ids.length * 4 + trailerLen) = some (ids.length * 4 + 8) := by
    rw [trailerLen]
    exact if_pos (by omega)
  have htext : checkedSub (text.length + 4 * ids.length + 8) (ids.length * 4 + 8) =
      some text.length := by
    rw [checkedSub, if_pos (by omega)]
    congr 1
    omega
  rw [textLen, UInt32.toNat_ofNat_of_lt' hids, hidsLen, Option.bind_eq_bind, Option.bind_some,
    htaken, UInt32.toNat_ofNat_of_lt' hlen, Option.bind_some, htext]
  rfl

/-- Plaintexts are read as they are written, the accepted ones are those that are written, nothing is
read outside the bytes, and `textLen` agrees. -/
theorem answer_codec :
    (∀ text ids, ids.length < 2 ^ 32 → decode (encode text ids) = .ok (text, ids)) ∧
      (∀ b text ids, decode b = .ok (text, ids) → encode text ids = b ∧
        (b.length < 2 ^ 32 → (textLen (UInt32.ofNat b.length) (UInt32.ofNat ids.length)).map
          UInt32.toNat = some text.length)) ∧
      ∀ b, decode b ≠ .error .outOfBounds := by
  refine ⟨fun text ids h => decode_eq_ok.mpr ⟨h, rfl⟩, fun b text ids h => ?_, fun b h => ?_⟩
  · obtain ⟨-, rfl⟩ := decode_eq_ok.mp h
    refine ⟨rfl, fun hlen => ?_⟩
    rw [length_encode] at hlen ⊢
    have htext : text.length < 2 ^ 32 := by omega
    rw [textLen_eq hlen, Option.map_some, UInt32.toNat_ofNat_of_lt' htext]
  · rw [decode_eq] at h
    dsimp only at h
    split at h <;> cases h

/-- A text that ends like a plaintext of one id, sealed with no ids. -/
theorem answer_codec_trailer :
    decode (encode (encode [104, 105] [7]) []) = .ok (encode [104, 105] [7], []) ∧
      (textLen 22 0).map UInt32.toNat = some 14 := by
  have hdecode := answer_codec.1 (encode [104, 105] [7]) [] (by decide)
  exact ⟨hdecode, (answer_codec.2.1 _ _ _ hdecode).2 (by decide)⟩

end KeryxMiner.Inference.Answer
