import KeryxMiner.Private.Payload

/-!
# The codec of the AI payloads

A response that decodes is the encoding of what it decodes to, and a well-formed response decodes
from its encoding. The signed bytes determine all of a response that is encoded but the responder.
-/

namespace KeryxMiner.Private

/-! ## Words -/

theorem toNat_leAt_eight {data : List UInt8} {start : Nat} :
    (UInt64.ofNat (leAt 8 data start)).toNat = leAt 8 data start :=
  UInt64.toNat_ofNat_of_lt' leAt_lt

theorem toNat_leAt_four {data : List UInt8} {start : Nat} :
    (UInt32.ofNat (leAt 4 data start)).toNat = leAt 4 data start :=
  UInt32.toNat_ofNat_of_lt' leAt_lt

theorem toNat_leAt_one {data : List UInt8} {start : Nat} :
    (UInt8.ofNat (leAt 1 data start)).toNat = leAt 1 data start :=
  UInt8.toNat_ofNat_of_lt' leAt_lt

/-! ## Trace commitments -/

namespace TraceCommitment

variable {t t' : TraceCommitment} {b : List UInt8}

theorem length_toBytes : t.toBytes.length = t.len := by
  rw [toBytes, len]
  cases t.tokensRoot with
  | none => simp [aiResponseTraceLen]
  | some root => simp [aiResponseTraceLen, aiResponseTraceTokensLen]

theorem len_cases : t.len = aiResponseTraceLen ∨ t.len = aiResponseTraceTokensLen := by
  rw [len]
  split
  · exact .inr rfl
  · exact .inl rfl

theorem toBytes_of_fromBytes (h : fromBytes b = some t) : t.toBytes = b ∧ t.len = b.length := by
  rw [fromBytes] at h
  split at h
  · cases h
  · rename_i hlen
    have ht := Option.some.inj h
    have hle : 41 ≤ b.length := by
      simp only [aiResponseTraceLen, aiResponseTraceTokensLen] at hlen
      omega
    have hroot := drop_eq_bytesAt 32 0 b (by omega)
    have hprompt := drop_eq_leAt 4 32 b (by omega)
    have hpos := drop_eq_leAt 4 36 b (by omega)
    have hstage := drop_eq_leAt 1 40 b (by omega)
    rw [List.drop_zero] at hroot
    have hbytes : b = (bytesAt 32 b 0).toList ++ (toLe 4 (leAt 4 b 32) ++ (toLe 4 (leAt 4 b 36) ++
        (toLe 1 (leAt 1 b 40) ++ b.drop 41))) := by
      rw [← hstage, ← hpos, ← hprompt, ← hroot]
    have htokens : (if b.length = aiResponseTraceTokensLen then some (bytesAt 32 b 41)
        else none).elim [] Vector.toList = b.drop 41 := by
      split
      · rename_i hlong
        simp only [aiResponseTraceLen, aiResponseTraceTokensLen] at hlong
        rw [Option.elim_some, toList_bytesAt (by omega), List.take_of_length_le]
        rw [List.length_drop]
        omega
      · rename_i hshort
        simp only [aiResponseTraceLen, aiResponseTraceTokensLen] at hlen hshort
        rw [Option.elim_none, List.drop_eq_nil_of_le (by omega)]
    have heq : t.toBytes = b := by
      rw [toBytes, ← ht]
      simp only [toNat_leAt_four, toNat_leAt_one, htokens]
      exact hbytes.symm
    exact ⟨heq, by rw [← length_toBytes, heq]⟩

theorem fromBytes_toBytes : fromBytes t.toBytes = some t := by
  have hlen : t.toBytes.length = t.len := length_toBytes
  have hcases := t.len_cases
  have hstage : leAt 1 (toLe 1 t.stage.toNat ++ t.tokensRoot.elim [] Vector.toList) 0 =
      t.stage.toNat := leAt_zero t.stage.toNat_lt
  have hpos : ∀ rest, leAt 4 (toLe 4 t.nPos.toNat ++ rest) 0 = t.nPos.toNat :=
    fun rest => leAt_zero t.nPos.toNat_lt
  have hprompt : ∀ rest, leAt 4 (toLe 4 t.nPrompt.toNat ++ rest) 0 = t.nPrompt.toNat :=
    fun rest => leAt_zero t.nPrompt.toNat_lt
  have htokens : (if t.len = aiResponseTraceTokensLen then some (bytesAt 32 t.toBytes 41)
      else none) = t.tokensRoot := by
    rw [len, toBytes, bytesAt_append Vector.length_toList (by decide),
      bytesAt_append length_toLe (by decide), bytesAt_append length_toLe (by decide),
      bytesAt_append length_toLe (by decide)]
    cases t.tokensRoot with
    | none => rfl
    | some root =>
      have hroot := @bytesAt_zero _ [] root
      rw [List.append_nil] at hroot
      exact congrArg some hroot
  rw [fromBytes, if_neg (by rw [hlen]; omega), hlen, htokens, toBytes, bytesAt_zero,
    leAt_append Vector.length_toList (by decide), hprompt,
    leAt_append Vector.length_toList (by decide), leAt_append length_toLe (by decide), hpos,
    leAt_append Vector.length_toList (by decide), leAt_append length_toLe (by decide),
    leAt_append length_toLe (by decide), hstage, UInt32.ofNat_toNat, UInt32.ofNat_toNat,
    UInt8.ofNat_toNat]

end TraceCommitment

/-! ## Responses -/

namespace AiResponsePayload

variable {p q : AiResponsePayload} {data ext rest body : List UInt8}
  {trace : Option TraceCommitment}

/-- The bytes of a trace behind a body. -/
def traceBytes (trace : Option TraceCommitment) : List UInt8 :=
  trace.elim [] fun t => aiResponseExtTrace :: (toLe 4 t.len ++ t.toBytes)

theorem extensionBytes_some (h : p.privateBody = some body) : p.extensionBytes =
    aiResponseExtPrivateBody :: (toLe 4 body.length ++ (body ++ traceBytes p.trace)) := by
  rw [extensionBytes, h]
  rfl

/-- A part starts with its kind and its length. -/
theorem eq_cons_of_head {kind : UInt8} (hhead : rest.head? = some kind) (hlen : 5 ≤ rest.length) :
    rest = kind :: (toLe 4 (leAt 4 rest 1) ++ rest.drop 5) := by
  cases rest with
  | nil => cases hhead
  | cons k rest =>
    obtain rfl := Option.some.inj hhead
    have hle := drop_eq_leAt 4 1 (k :: rest) (by omega)
    exact congrArg (k :: ·) hle

theorem of_readTrace (h : readTrace rest = some trace) : rest = traceBytes trace := by
  rw [readTrace] at h
  split at h
  · rename_i hnil
    obtain rfl := Option.some.inj h
    exact hnil
  · simp only [Option.ite_none_left_eq_some, not_or, not_not, Option.map_eq_some_iff] at h
    obtain ⟨hlen, ⟨-, hhead, hn⟩, t, ht, rfl⟩ := h
    obtain ⟨hbytes, htlen⟩ := TraceCommitment.toBytes_of_fromBytes ht
    have hfive : aiResponseExtHeaderLen = 5 := rfl
    rw [hfive] at hlen hn hbytes htlen
    rw [List.length_drop] at htlen
    have hrest := eq_cons_of_head hhead (by omega)
    rw [hn, ← htlen] at hrest
    rw [traceBytes, Option.elim_some, hbytes]
    exact hrest

theorem of_readExtension (h : readExtension ext = some (body, trace)) :
    ext = aiResponseExtPrivateBody :: (toLe 4 body.length ++ (body ++ traceBytes trace)) := by
  simp only [readExtension, Option.ite_none_left_eq_some, not_or, not_not, Nat.not_lt,
    Option.map_eq_some_iff, Prod.mk.injEq] at h
  obtain ⟨⟨hfive, hhead⟩, ⟨-, -, hend⟩, trace', htrace, hbody, rfl⟩ := h
  have hfive' : aiResponseExtHeaderLen = 5 := rfl
  rw [hfive'] at hfive hend hbody htrace
  have hext := eq_cons_of_head hhead hfive
  have hdrop : ext.drop 5 = body ++ ext.drop (5 + leAt 4 ext 1) := by
    rw [← hbody, List.drop_take, Nat.add_sub_cancel_left, ← List.drop_drop, List.take_append_drop]
  have hblen : body.length = leAt 4 ext 1 := by
    rw [← hbody, List.length_drop, List.length_take]
    omega
  rw [of_readTrace htrace] at hdrop
  rw [hdrop, ← hblen] at hext
  exact hext

/-- The head and the bytes behind it. -/
theorem v1Bytes_readHead (hlen : aiResponsePayloadLen ≤ data.length) :
    data = (readHead data).v1Bytes ++ data.drop aiResponsePayloadLen := by
  simp only [aiResponsePayloadLen] at hlen ⊢
  have hhash := drop_eq_bytesAt 32 0 data (by omega)
  have hend := drop_eq_leAt 8 32 data (by omega)
  have hcid := drop_eq_bytesAt 34 40 data (by omega)
  have hlength := drop_eq_leAt 4 74 data (by omega)
  rw [List.drop_zero] at hhash
  simp only [v1Bytes, readHead, toNat_leAt_eight, toNat_leAt_four, List.append_assoc]
  rw [← hlength, ← hcid, ← hend, ← hhash]

/-- The responder and the bytes behind it. -/
theorem responderBytes_readHead (hlen : aiResponsePayloadV2Len ≤ data.length) :
    data.drop aiResponsePayloadLen =
      (readHead data).responderBytes ++ data.drop aiResponsePayloadV2Len := by
  have hle : 174 ≤ data.length := hlen
  have hkey := drop_eq_bytesAt 32 78 data (by omega)
  have hsign := drop_eq_bytesAt 64 110 data (by omega)
  simp only [responderBytes, readHead, if_pos hlen, Option.elim_some, List.append_assoc]
  change data.drop 78 = _ ++ (_ ++ data.drop 174)
  rw [← hsign, ← hkey]

/-- What decodes is the encoding of what it decodes to. -/
theorem serialize_of_deserialize (h : deserialize data = some p) : p.serialize = data := by
  simp only [deserialize] at h
  split at h
  · cases h
  · rename_i hlen
    have hv1 : aiResponsePayloadLen ≤ data.length := by
      simp only [aiResponsePayloadLen, aiResponsePayloadV2Len] at hlen ⊢
      omega
    have hdata := v1Bytes_readHead hv1
    split at h
    · rename_i hext
      obtain ⟨⟨body, trace⟩, hread, rfl⟩ := Option.map_eq_some_iff.mp h
      have hrest := responderBytes_readHead (Nat.le_of_lt hext)
      rw [of_readExtension hread] at hrest
      rw [hrest] at hdata
      exact hdata.symm
    · rename_i hext
      obtain rfl := Option.some.inj h
      have hnone : (readHead data).extensionBytes = [] := rfl
      rw [serialize, hnone, List.append_nil]
      obtain hv2 | hshort := Nat.lt_or_ge data.length aiResponsePayloadV2Len
      · have hresponder : (readHead data).responderBytes = [] := by
          simp only [responderBytes, readHead, if_neg (Nat.not_le.mpr hv2), Option.elim_none]
        have hdrop : data.drop aiResponsePayloadLen = [] := by
          apply List.drop_eq_nil_of_le
          omega
        rw [hdrop] at hdata
        rw [hresponder]
        exact hdata.symm
      · have hrest := responderBytes_readHead hshort
        have hdrop : data.drop aiResponsePayloadV2Len = [] := by
          apply List.drop_eq_nil_of_le
          omega
        rw [hdrop, List.append_nil] at hrest
        rw [hrest] at hdata
        exact hdata.symm

/-! ### Round trip -/

theorem length_v1Bytes : p.v1Bytes.length = aiResponsePayloadLen := by
  simp [v1Bytes, aiResponsePayloadLen]

/-- What `deserialize` decodes: a trace only with a body, and a body only with a responder and
within the limits. -/
structure WellFormed (p : AiResponsePayload) : Prop where
  trace : p.trace.isSome → p.privateBody.isSome
  responder : p.privateBody.isSome → p.responder.isSome
  body : ∀ body, p.privateBody = some body →
    1 ≤ body.length ∧ body.length ≤ maxAiResponsePrivateBodyLen

theorem readHead_v1Bytes : readHead (p.v1Bytes ++ rest) =
    { p with
      responder :=
        if aiResponsePayloadV2Len ≤ (p.v1Bytes ++ rest).length then
          some ⟨bytesAt 32 rest 0, bytesAt 64 rest 32⟩
        else none
      privateBody := none, trace := none } := by
  have hend : ∀ rest, leAt 8 (toLe 8 p.challengeWindowEnd.toNat ++ rest) 0 =
      p.challengeWindowEnd.toNat := fun rest => leAt_zero p.challengeWindowEnd.toNat_lt
  have hlength : ∀ rest, leAt 4 (toLe 4 p.responseLength.toNat ++ rest) 0 =
      p.responseLength.toNat := fun rest => leAt_zero p.responseLength.toNat_lt
  have hlen : p.v1Bytes.length = 78 := length_v1Bytes
  have hkey : bytesAt 32 (p.v1Bytes ++ rest) 78 = bytesAt 32 rest 0 := by
    rw [bytesAt_append hlen (by decide)]
  have hsign : bytesAt 64 (p.v1Bytes ++ rest) 110 = bytesAt 64 rest 32 := by
    rw [bytesAt_append hlen (by decide)]
  rw [readHead, hkey, hsign]
  simp only [v1Bytes, List.append_assoc]
  rw [bytesAt_zero, leAt_append Vector.length_toList (by decide), hend,
    bytesAt_append Vector.length_toList (by decide), bytesAt_append length_toLe (by decide),
    bytesAt_zero, leAt_append Vector.length_toList (by decide), leAt_append length_toLe (by decide),
    leAt_append Vector.length_toList (by decide), hlength, UInt64.ofNat_toNat, UInt32.ofNat_toNat]

theorem readTrace_traceBytes : readTrace (traceBytes trace) = some trace := by
  cases trace with
  | none => rfl
  | some t =>
    have hlen : t.toBytes.length = t.len := TraceCommitment.length_toBytes
    have hcases := t.len_cases
    have hfits : t.len < 256 ^ 4 := by
      obtain h | h := hcases <;> rw [h] <;> decide
    have hread : leAt 4 (aiResponseExtTrace :: (toLe 4 t.len ++ t.toBytes)) 1 = t.len := by
      rw [← List.singleton_append, leAt_append (m := 1) rfl (Nat.le_refl 1), leAt_zero hfits]
    have hdrop : (aiResponseExtTrace :: (toLe 4 t.len ++ t.toBytes)).drop 5 = t.toBytes := by
      rw [List.drop_succ_cons, List.drop_left' length_toLe]
    have hlength : (aiResponseExtTrace :: (toLe 4 t.len ++ t.toBytes)).length = t.len + 5 := by
      rw [List.length_cons, List.length_append, length_toLe, hlen]
      omega
    have hfive : aiResponseExtHeaderLen = 5 := rfl
    rw [traceBytes, Option.elim_some, readTrace, if_neg (by simp), hfive, hlength, hread, hdrop,
      if_neg (by omega), Nat.add_sub_cancel, List.head?_cons, TraceCommitment.fromBytes_toBytes,
      if_neg, Option.map_some]
    rw [not_or, not_or, not_not, not_not]
    exact ⟨by omega, rfl, rfl⟩

theorem readExtension_bytes (hpos : 1 ≤ body.length)
    (hle : body.length ≤ maxAiResponsePrivateBodyLen) :
    readExtension (aiResponseExtPrivateBody ::
      (toLe 4 body.length ++ (body ++ traceBytes trace))) = some (body, trace) := by
  have hfits : body.length < 256 ^ 4 := by
    rw [maxAiResponsePrivateBodyLen] at hle
    omega
  have hread : leAt 4 (aiResponseExtPrivateBody ::
      (toLe 4 body.length ++ (body ++ traceBytes trace))) 1 = body.length := by
    rw [← List.singleton_append, leAt_append (m := 1) rfl (Nat.le_refl 1), leAt_zero hfits]
  have hsplit : aiResponseExtPrivateBody :: (toLe 4 body.length ++ (body ++ traceBytes trace)) =
      (aiResponseExtPrivateBody :: toLe 4 body.length) ++ (body ++ traceBytes trace) := rfl
  have hhead : (aiResponseExtPrivateBody :: toLe 4 body.length).length = 5 := by
    rw [List.length_cons, length_toLe]
  have hlength : (aiResponseExtPrivateBody ::
      (toLe 4 body.length ++ (body ++ traceBytes trace))).length =
        5 + body.length + (traceBytes trace).length := by
    rw [hsplit, List.length_append, List.length_append, hhead, Nat.add_assoc]
  have hfive : aiResponseExtHeaderLen = 5 := rfl
  have htrace : (aiResponseExtPrivateBody ::
      (toLe 4 body.length ++ (body ++ traceBytes trace))).drop (5 + body.length) =
        traceBytes trace := by
    rw [← List.drop_drop, hsplit, List.drop_left' hhead, List.drop_left' rfl]
  have hbody : ((aiResponseExtPrivateBody ::
      (toLe 4 body.length ++ (body ++ traceBytes trace))).take (5 + body.length)).drop 5 = body := by
    rw [List.drop_take, hsplit, List.drop_left' hhead, Nat.add_sub_cancel_left, List.take_left' rfl]
  simp only [readExtension, hread, hfive, hlength, htrace, hbody, readTrace_traceBytes]
  rw [if_neg (by simp; omega), if_neg (by omega), Option.map_some]

theorem deserialize_serialize (h : p.WellFormed) : deserialize p.serialize = some p := by
  have hv1 : p.v1Bytes.length = 78 := length_v1Bytes
  have hv2 : aiResponsePayloadV2Len = 174 := rfl
  have hlen : aiResponsePayloadLen = 78 := rfl
  cases hresponder : p.responder with
  | none =>
    have hbody : p.privateBody = none := by
      cases hb : p.privateBody with
      | none => rfl
      | some body =>
        have hsome := h.responder (by rw [hb, Option.isSome_some])
        rw [hresponder] at hsome
        cases hsome
    have htrace : p.trace = none := by
      cases ht : p.trace with
      | none => rfl
      | some t =>
        have hsome := h.trace (by rw [ht, Option.isSome_some])
        rw [hbody] at hsome
        cases hsome
    have hbytes : p.serialize = p.v1Bytes ++ [] := by
      rw [serialize, responderBytes, hresponder, extensionBytes, hbody]
      rfl
    have hhead := @readHead_v1Bytes p []
    have hshort : ¬aiResponsePayloadV2Len ≤ (p.v1Bytes ++ []).length := by
      rw [List.append_nil, hv1, hv2]
      omega
    rw [if_neg hshort, ← hresponder, ← hbody, ← htrace] at hhead
    rw [hbytes]
    simp only [deserialize, hhead]
    rw [if_neg, if_neg (by omega)]
    rw [not_and_or, not_not, not_not, List.append_nil]
    exact .inr length_v1Bytes
  | some r =>
    have hr : p.responderBytes = r.escrowPubkey.toList ++ r.signature.toList := by
      rw [responderBytes, hresponder, Option.elim_some]
    have hrlen : p.responderBytes.length = 96 := by
      rw [hr, List.length_append, Vector.length_toList, Vector.length_toList]
    have hhead := @readHead_v1Bytes p (p.responderBytes ++ p.extensionBytes)
    have hlong : aiResponsePayloadV2Len ≤
        (p.v1Bytes ++ (p.responderBytes ++ p.extensionBytes)).length := by
      rw [List.length_append, List.length_append, hv1, hrlen, hv2]
      omega
    have hkey : bytesAt 32 (p.responderBytes ++ p.extensionBytes) 0 = r.escrowPubkey := by
      rw [hr, List.append_assoc, bytesAt_zero]
    have hsign : bytesAt 64 (p.responderBytes ++ p.extensionBytes) 32 = r.signature := by
      rw [hr, List.append_assoc, bytesAt_append Vector.length_toList (by decide), bytesAt_zero]
    rw [if_pos hlong, hkey, hsign, ← hresponder] at hhead
    have hdrop : (p.v1Bytes ++ (p.responderBytes ++ p.extensionBytes)).drop
        aiResponsePayloadV2Len = p.extensionBytes := by
      rw [← List.append_assoc, List.drop_left']
      rw [List.length_append, hv1, hrlen, hv2]
    rw [serialize]
    simp only [deserialize, hhead, hdrop]
    rw [if_neg (by omega)]
    cases hbody : p.privateBody with
    | none =>
      have htrace : p.trace = none := by
        cases ht : p.trace with
        | none => rfl
        | some t =>
          have hsome := h.trace (by rw [ht, Option.isSome_some])
          rw [hbody] at hsome
          cases hsome
      have hext : p.extensionBytes = [] := by rw [extensionBytes, hbody]
      rw [hext, if_neg, ← htrace, ← hbody]
      rw [List.append_nil, List.length_append, hv1, hrlen, hv2]
      omega
    | some body =>
      obtain ⟨hpos, hle⟩ := h.body body hbody
      have hext := extensionBytes_some hbody
      rw [if_pos, hext, readExtension_bytes hpos hle, Option.map_some]
      · dsimp only
        rw [← hbody]
      · rw [hext, List.length_append, List.length_append, hv1, hrlen, hv2, List.length_cons]
        omega

/-! ### Signed bytes -/

theorem traceBytes_inj {trace' : Option TraceCommitment} (h : traceBytes trace = traceBytes trace') :
    trace = trace' := by
  have hread := @readTrace_traceBytes trace
  rw [h, readTrace_traceBytes] at hread
  exact (Option.some.inj hread).symm

theorem length_traceBytes : (traceBytes trace).length ≤ 78 := by
  cases trace with
  | none => exact Nat.zero_le _
  | some t =>
    have hlen : t.toBytes.length = t.len := TraceCommitment.length_toBytes
    have hcases : t.len = 41 ∨ t.len = 73 := t.len_cases
    rw [traceBytes, Option.elim_some, List.length_cons, List.length_append, length_toLe, hlen]
    omega

/-- The written length of a body is cut to 32 bits, but two bodies of one cut length have traces
behind them whose lengths differ by less. -/
theorem body_inj {body' : List UInt8} {trace' : Option TraceCommitment}
    (h : toLe 4 body.length ++ (body ++ traceBytes trace) =
      toLe 4 body'.length ++ (body' ++ traceBytes trace')) : body = body' ∧ trace = trace' := by
  obtain ⟨hlen, hrest⟩ := List.append_inj h (by rw [length_toLe, length_toLe])
  have hmod := congrArg ofLe hlen
  rw [ofLe_toLe_mod, ofLe_toLe_mod] at hmod
  have hsum := congrArg List.length hrest
  rw [List.length_append, List.length_append] at hsum
  have hle := @length_traceBytes trace
  have hle' := @length_traceBytes trace'
  obtain ⟨hbody, htrace⟩ := List.append_inj hrest (by omega)
  exact ⟨hbody, traceBytes_inj htrace⟩

/-- What two payloads of the same signed bytes have in common: all but the responder, and a trace
without a body. -/
structure SameSigned (p q : AiResponsePayload) : Prop where
  requestHash : p.requestHash = q.requestHash
  challengeWindowEnd : p.challengeWindowEnd = q.challengeWindowEnd
  responseIpfsCid : p.responseIpfsCid = q.responseIpfsCid
  responseLength : p.responseLength = q.responseLength
  privateBody : p.privateBody = q.privateBody
  trace : p.privateBody.isSome → p.trace = q.trace

theorem extensionBytes_inj (h : p.extensionBytes = q.extensionBytes) :
    p.privateBody = q.privateBody ∧ (p.privateBody.isSome → p.trace = q.trace) := by
  cases hp : p.privateBody with
  | none =>
    cases hq : q.privateBody with
    | none => exact ⟨rfl, nofun⟩
    | some body =>
      rw [extensionBytes_some hq, extensionBytes, hp] at h
      cases h
  | some body =>
    cases hq : q.privateBody with
    | none =>
      rw [extensionBytes_some hp, extensionBytes, hq] at h
      cases h
    | some body' =>
      rw [extensionBytes_some hp, extensionBytes_some hq] at h
      obtain ⟨rfl, htrace⟩ := body_inj (List.cons.inj h).2
      exact ⟨rfl, fun _ => htrace⟩

theorem sameSigned (h : p.signedBytes = q.signedBytes) : SameSigned p q := by
  obtain ⟨hhead, hext⟩ := List.append_inj h (by rw [length_v1Bytes, length_v1Bytes])
  obtain ⟨hbody, htrace⟩ := extensionBytes_inj hext
  have hp := @readHead_v1Bytes p []
  have hq := @readHead_v1Bytes q []
  rw [hhead, hq] at hp
  exact {
    requestHash := (congrArg requestHash hp).symm
    challengeWindowEnd := (congrArg challengeWindowEnd hp).symm
    responseIpfsCid := (congrArg responseIpfsCid hp).symm
    responseLength := (congrArg responseLength hp).symm
    privateBody := hbody
    trace := htrace }

/-- The codec of responses is canonical, reads back every well-formed response, and its signed
bytes fix what they cover. -/
theorem response_codec (p : AiResponsePayload) :
    (∀ data, deserialize data = some p → p.serialize = data) ∧
      (p.WellFormed → deserialize p.serialize = some p) ∧
      ∀ q : AiResponsePayload, p.signedBytes = q.signedBytes → SameSigned p q :=
  ⟨fun _ => serialize_of_deserialize, deserialize_serialize, fun _ => sameSigned⟩

/-- A response of the second version with a body and a trace. -/
def someResponse : AiResponsePayload where
  requestHash := Vector.replicate 32 7
  challengeWindowEnd := 1
  responseIpfsCid := Vector.replicate 34 0
  responseLength := 1
  responder := some ⟨Vector.replicate 32 1, Vector.replicate 64 2⟩
  privateBody := some (List.replicate 40 9)
  trace := some ⟨Vector.replicate 32 90, 47, 95, 1, none⟩

theorem response_codec_some :
    deserialize someResponse.serialize = some someResponse ∧
      (∀ data, deserialize data = some someResponse → someResponse.serialize = data) ∧
      SameSigned someResponse { someResponse with responder := none } := by
  have hformed : someResponse.WellFormed := by
    refine ⟨fun _ => rfl, fun _ => rfl, ?_⟩
    rintro body ⟨⟩
    decide
  obtain ⟨hcanonical, hround, hsigned⟩ := response_codec someResponse
  exact ⟨hround hformed, hcanonical, hsigned _ rfl⟩

/-- A trace without a body is not encoded. -/
theorem trace_not_signed :
    let p : AiResponsePayload := { someResponse with responder := none, privateBody := none }
    let q : AiResponsePayload := { p with trace := none }
    p.signedBytes = q.signedBytes ∧ p.trace ≠ q.trace ∧ deserialize p.serialize ≠ some p := by
  refine ⟨rfl, nofun, ?_⟩
  intro h
  exact absurd (congrArg (Option.map trace) h) (by decide)

end AiResponsePayload

end KeryxMiner.Private
