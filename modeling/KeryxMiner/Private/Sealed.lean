import KeryxMiner.Private.Seal
import Mathlib.Data.UInt

/-!
# Sealed requests are read

A sealed request is opened by the responders it names and by no one else, and an answer is read by
the requester. The assumptions on the curve and the cipher are in `Crates.Sound`.
-/

namespace KeryxMiner.Private

/-! ## The keys a request names -/

section

variable {p q r : Bytes32} {keys recipients : List Bytes32}

theorem below_of_not_below (h : ¬Below q p) (hne : p ≠ q) : Below p q := by
  by_contra hnot
  have hpq : p.toList = q.toList := List.le_antisymm (List.not_lt.mp h) (List.not_lt.mp hnot)
  exact hne (Vector.toList_inj.mp hpq)

theorem Below.trans_not_below (h : Below p q) (h' : ¬Below r q) : Below p r := by
  obtain rfl | hne := eq_or_ne q r
  · exact h
  · exact h.trans (below_of_not_below h' hne)

theorem mem_dedup : p ∈ dedup keys ↔ p ∈ keys := by
  fun_induction dedup keys with
  | case1 => rfl
  | case2 => rfl
  | case3 keys next ih => simp [ih]
  | case4 key next keys hne ih => simp [ih]

theorem pairwise_dedup (h : keys.Pairwise fun p q => ¬Below q p) : (dedup keys).Pairwise Below := by
  fun_induction dedup keys with
  | case1 => exact .nil
  | case2 key => exact List.pairwise_singleton ..
  | case3 keys next ih => exact ih (List.pairwise_cons.mp h).2
  | case4 key next keys hne ih =>
    obtain ⟨hkey, hrest⟩ := List.pairwise_cons.mp h
    refine .cons ?_ (ih hrest)
    intro x hx
    have hnext := below_of_not_below (hkey next List.mem_cons_self) hne
    obtain rfl | hx := List.mem_cons.mp (mem_dedup.mp hx)
    · exact hnext
    · exact hnext.trans_not_below ((List.pairwise_cons.mp hrest).1 x hx)

theorem mem_sortedKeys : p ∈ sortedKeys recipients ↔ p ∈ recipients := by
  rw [sortedKeys, mem_dedup, List.mem_mergeSort]

theorem pairwise_sortedKeys : (sortedKeys recipients).Pairwise Below := by
  apply pairwise_dedup
  have htrans : ∀ a b c : Bytes32, decide (¬Below b a) → decide (¬Below c b) →
      decide (¬Below c a) := by
    intro a b c hab hbc
    simp only [decide_eq_true_eq] at hab hbc ⊢
    intro hca
    exact hbc (hca.trans_not_below hab)
  have htotal : ∀ a b : Bytes32, decide (¬Below b a) || decide (¬Below a b) := by
    intro a b
    simp only [Bool.or_eq_true, decide_eq_true_eq]
    by_contra hnot
    rw [not_or, not_not, not_not] at hnot
    exact List.lt_irrefl _ (hnot.1.trans hnot.2)
  exact (List.pairwise_mergeSort htrans htotal recipients).imp fun h => of_decide_eq_true h

theorem sortedKeys_ne_nil (h : recipients ≠ []) : sortedKeys recipients ≠ [] := by
  obtain ⟨key, hkey⟩ := List.exists_mem_of_ne_nil _ h
  exact List.ne_nil_of_mem (mem_sortedKeys.mpr hkey)

end

/-! ## Assumptions -/

/-- The keys and their encodings, the symmetry of the shared secret for keys lifted to their even
point, and the cipher. -/
structure Crates.Sound (crates : Crates) : Prop where
  xOnly : ∀ s, crates.curve.xOnlyPublicKey (crates.curve.serializeXOnly (crates.curve.toXOnly s).1) =
    some (crates.curve.toXOnly s).1
  publicKey : ∀ p, crates.curve.publicKey (crates.curve.serialize p) = some p
  shared : ∀ s e, crates.curve.sharedSecret
      (crates.curve.evenPublicKey (crates.curve.toXOnly s).1) e =
    crates.curve.sharedSecret (crates.curve.fromSecretKey e)
      (if (crates.curve.toXOnly s).2 then crates.curve.negate s else s)
  cipher : crates.cipher.Correct privateTagLen

section

variable {crates : Crates} {secret : PrivateRequestSecret}
  {ephemeralSecret : crates.curve.SecretKey} {nonce : Vector UInt8 12} {request : AiRequestPayload}
  {prompt header : List UInt8} {keys recipients : List Bytes32} {key : Bytes32}
  {point : crates.curve.PublicKey} {e : PrivateRequestEnvelope} {payload : AiRequestPayload}

/-! ## Sealing -/

/-- The entry of a recipient: the root key under the key shared with it. -/
structure Wrapped (crates : Crates) (secret : PrivateRequestSecret)
    (ephemeralSecret : crates.curve.SecretKey) (nonce : Vector UInt8 12) (header : List UInt8)
    (key : Bytes32) (r : PrivateRecipient) : Prop where
  escrowPubkey : r.escrowPubkey = key
  valid : (crates.curve.xOnlyPublicKey key).isSome
  wrapped : ∀ point, liftX crates key = .ok point → crates.cipher.encrypt
    (keyEncryptionKey crates secret.schedule (crates.curve.sharedSecret point ephemeralSecret)
      (crates.curve.serialize (crates.curve.fromSecretKey ephemeralSecret)) key)
    nonce (secret.rootKey crates).toList header = some r.wrappedRootKey.toList

theorem exists_wrapKey (hc : crates.Sound) (hpoint : liftX crates key = .ok point) :
    ∃ r, wrapKey crates secret ephemeralSecret nonce header key point = .ok r ∧
      Wrapped crates secret ephemeralSecret nonce header key r := by
  obtain ⟨c, hencrypt, hlen, -⟩ := hc.cipher (keyEncryptionKey crates secret.schedule
    (crates.curve.sharedSecret point ephemeralSecret)
    (crates.curve.serialize (crates.curve.fromSecretKey ephemeralSecret)) key)
    nonce (secret.rootKey crates).toList header
  rw [Vector.length_toList] at hlen
  obtain ⟨v, hv, rfl⟩ := toVector_of_length (n := 48) hlen
  refine ⟨⟨key, v⟩, ?_, rfl, ?_, ?_⟩
  · rw [wrapKey, bind_eq_ok]
    refine ⟨_, orFail_eq_ok.mpr hencrypt, ?_⟩
    rw [bind_eq_ok]
    exact ⟨v, orFail_eq_ok.mpr hv, rfl⟩
  · rw [liftX, orFail_eq_ok, Option.map_eq_some_iff] at hpoint
    obtain ⟨x, hx, -⟩ := hpoint
    rw [hx, Option.isSome_some]
  · intro point' hpoint'
    rw [hpoint] at hpoint'
    obtain rfl := Except.ok.inj hpoint'
    exact hencrypt

/-- A sealed request. -/
structure SealedTo (crates : Crates) (secret : PrivateRequestSecret)
    (ephemeralSecret : crates.curve.SecretKey) (nonce : Vector UInt8 12) (request : AiRequestPayload)
    (prompt : List UInt8) (keys : List Bytes32) (e : PrivateRequestEnvelope)
    (payload : AiRequestPayload) : Prop where
  payload : payload = { request with prompt := e.serialize }
  ephemeralPubkey :
    e.ephemeralPubkey = crates.curve.serialize (crates.curve.fromSecretKey ephemeralSecret)
  nonce_eq : e.nonce = nonce
  recipients : List.Forall₂ (Wrapped crates secret ephemeralSecret nonce request.headerBytes) keys
    e.recipients
  ciphertext : crates.cipher.encrypt (promptKey crates secret.schedule (secret.rootKey crates)) nonce
    prompt (request.headerBytes ++ ({ e with ciphertext := [] } : PrivateRequestEnvelope).serialize) =
      some e.ciphertext

theorem exists_points (crates : Crates) {keys : List Bytes32}
    (h : ∀ k ∈ keys, (crates.curve.xOnlyPublicKey k).isSome) :
    ∃ points, keys.mapM' (liftX crates) = .ok points ∧
      List.Forall₂ (fun k point => liftX crates k = .ok point) keys points := by
  induction keys with
  | nil => exact ⟨[], rfl, .nil⟩
  | cons k keys ih =>
    obtain ⟨hk, hkeys⟩ := List.forall_mem_cons.mp h
    obtain ⟨points, -, hpoints⟩ := ih hkeys
    obtain ⟨x, hx⟩ := Option.isSome_iff_exists.mp hk
    have hlift : liftX crates k = .ok (crates.curve.evenPublicKey x) := by
      rw [liftX, hx]
      rfl
    exact ⟨_, mapM'_eq_ok.mpr (.cons hlift hpoints), .cons hlift hpoints⟩

theorem exists_wrapped (secret : PrivateRequestSecret) (ephemeralSecret : crates.curve.SecretKey)
    (nonce : Vector UInt8 12) (header : List UInt8) (hc : crates.Sound)
    {points : List crates.curve.PublicKey}
    (h : List.Forall₂ (fun k point => liftX crates k = .ok point) keys points) :
    ∃ rs, (keys.zip points).mapM' (fun (k, point) =>
        wrapKey crates secret ephemeralSecret nonce header k point) = .ok rs ∧
      List.Forall₂ (Wrapped crates secret ephemeralSecret nonce header) keys rs := by
  induction h with
  | nil => exact ⟨[], rfl, .nil⟩
  | cons hk _ ih =>
    obtain ⟨rs, hmap, hrs⟩ := ih
    obtain ⟨r, hr, hwrapped⟩ := exists_wrapKey hc hk
    exact ⟨r :: rs, mapM'_eq_ok.mpr (.cons hr (mapM'_eq_ok.mp hmap)), .cons hwrapped hrs⟩

theorem exists_sealed (secret : PrivateRequestSecret) (ephemeralSecret : crates.curve.SecretKey)
    (nonce : Vector UInt8 12) (request : AiRequestPayload) (hc : crates.Sound) (hne : recipients ≠ [])
    (hle : (sortedKeys recipients).length ≤ maxPrivateRecipients)
    (hkeys : ∀ k ∈ recipients, (crates.curve.xOnlyPublicKey k).isSome)
    (hprompt : prompt.length ≤ maxPrivatePromptLen (sortedKeys recipients).length) :
    ∃ payload e,
      sealPayload crates secret ephemeralSecret nonce request prompt recipients = .ok payload ∧
        SealedTo crates secret ephemeralSecret nonce request prompt (sortedKeys recipients) e
          payload := by
  have hsorted : ∀ k ∈ sortedKeys recipients, (crates.curve.xOnlyPublicKey k).isSome :=
    fun k hk => hkeys k (mem_sortedKeys.mp hk)
  obtain ⟨points, hmap, hpoints⟩ := exists_points crates hsorted
  obtain ⟨rs, hwrap, hrs⟩ :=
    exists_wrapped secret ephemeralSecret nonce request.headerBytes hc hpoints
  let envelope : PrivateRequestEnvelope := {
    ephemeralPubkey := crates.curve.serialize (crates.curve.fromSecretKey ephemeralSecret)
    nonce, recipients := rs, ciphertext := [] }
  obtain ⟨c, hencrypt, -⟩ := hc.cipher (promptKey crates secret.schedule (secret.rootKey crates))
    nonce prompt (request.headerBytes ++ envelope.serialize)
  refine ⟨_, { envelope with ciphertext := c }, ?_, rfl, rfl, rfl, hrs, hencrypt⟩
  rw [sealPayload]
  simp only [refuse_bind_eq_ok]
  refine ⟨sortedKeys_ne_nil hne, Nat.not_lt.mpr hle, ?_⟩
  rw [bind_eq_ok]
  refine ⟨points, hmap, ?_⟩
  rw [refuse_bind_eq_ok]
  refine ⟨Nat.not_lt.mpr hprompt, ?_⟩
  rw [bind_eq_ok]
  refine ⟨rs, hwrap, ?_⟩
  rw [bind_eq_ok]
  exact ⟨c, orFail_eq_ok.mpr hencrypt, rfl⟩

/-! ## The sealed envelope -/

namespace SealedTo

variable (h : SealedTo crates secret ephemeralSecret nonce request prompt (sortedKeys recipients) e
  payload)
include h

theorem escrowPubkeys : e.recipients.map (·.escrowPubkey) = sortedKeys recipients := by
  have hmap := h.recipients
  clear h
  generalize sortedKeys recipients = keys, e.recipients = rs at hmap ⊢
  induction hmap with
  | nil => rfl
  | cons hr _ ih => rw [List.map_cons, hr.escrowPubkey, ih]

theorem length_recipients : e.recipients.length = (sortedKeys recipients).length := by
  rw [← h.escrowPubkeys, List.length_map]

theorem valid (hc : crates.Sound) (hne : recipients ≠ [])
    (hle : (sortedKeys recipients).length ≤ maxPrivateRecipients) : e.Valid crates.curve := by
  obtain ⟨c, hencrypt, hlen, -⟩ := hc.cipher (promptKey crates secret.schedule
    (secret.rootKey crates)) nonce prompt (request.headerBytes ++
      ({ e with ciphertext := [] } : PrivateRequestEnvelope).serialize)
  rw [h.ciphertext, Option.some.injEq] at hencrypt
  refine ⟨?_, ?_, ?_, ?_, ?_, ?_⟩
  · rw [h.ephemeralPubkey, hc.publicKey, Option.isSome_some]
  · rw [h.length_recipients, List.length_pos_iff]
    exact sortedKeys_ne_nil hne
  · rw [h.length_recipients]
    exact hle
  · intro r hr
    obtain ⟨i, hi, rfl⟩ := List.getElem_of_mem hr
    have hwrapped := List.Forall₂.get h.recipients (h.length_recipients ▸ hi) hi
    rw [List.get_eq_getElem, List.get_eq_getElem] at hwrapped
    rw [hwrapped.escrowPubkey]
    exact hwrapped.valid
  · rw [h.escrowPubkeys]
    exact pairwise_sortedKeys
  · rw [hencrypt, hlen]
    omega

theorem parse (hc : crates.Sound) (hne : recipients ≠ [])
    (hle : (sortedKeys recipients).length ≤ maxPrivateRecipients) :
    PrivateRequestEnvelope.parse crates.curve payload.prompt = .ok e := by
  rw [h.payload]
  exact PrivateRequestEnvelope.parse_serialize (h.valid hc hne hle)

theorem length_le (hc : crates.Sound)
    (hle : (sortedKeys recipients).length ≤ maxPrivateRecipients)
    (hprompt : prompt.length ≤ maxPrivatePromptLen (sortedKeys recipients).length) :
    payload.serialize.length ≤ maxAiRequestPrivatePayloadLen := by
  obtain ⟨c, hencrypt, hlen, -⟩ := hc.cipher (promptKey crates secret.schedule
    (secret.rootKey crates)) nonce prompt (request.headerBytes ++
      ({ e with ciphertext := [] } : PrivateRequestEnvelope).serialize)
  rw [h.ciphertext, Option.some.injEq] at hencrypt
  have hbytes := PrivateRequestEnvelope.length_serialize (e := e)
  have hheader : payload.headerBytes.length = 52 := by simp [AiRequestPayload.headerBytes]
  have hpayload : payload.prompt = e.serialize := by rw [h.payload]
  have hfirst : privateRequestHeaderLen = 51 := rfl
  have hentry : privateRecipientEntryLen = 80 := rfl
  rw [maxPrivatePromptLen, hfirst, hentry, maxAiRequestPrivatePayloadLen, aiRequestHeaderLen,
    privateTagLen] at hprompt
  rw [maxPrivateRecipients] at hle
  rw [PrivateRequestEnvelope.headerLen, h.length_recipients, hencrypt, hlen, hfirst, hentry,
    privateTagLen] at hbytes
  rw [AiRequestPayload.serialize, List.length_append, hheader, hpayload, hbytes,
    maxAiRequestPrivatePayloadLen]
  omega

/-- The entry that a key of the list finds. -/
theorem index {key : Bytes32} (hkey : key ∈ recipients) : ∃ i r,
    e.recipientIndex key = some i ∧ (sortedKeys recipients)[i]? = some key ∧
      e.recipients[i]? = some r ∧
        Wrapped crates secret ephemeralSecret nonce request.headerBytes key r := by
  have hmem : key ∈ e.recipients.map (·.escrowPubkey) := by
    rw [h.escrowPubkeys]
    exact mem_sortedKeys.mpr hkey
  obtain ⟨r, hr, hrkey⟩ := List.mem_map.mp hmem
  have hsome : (e.recipientIndex key).isSome := by
    rw [PrivateRequestEnvelope.recipientIndex, List.findIdx?_isSome, List.any_eq_true]
    exact ⟨r, hr, decide_eq_true hrkey⟩
  obtain ⟨i, hi⟩ := Option.isSome_iff_exists.mp hsome
  obtain ⟨hlt, hfound, -⟩ := List.findIdx?_eq_some_iff_getElem.mp hi
  have hlt' : i < (sortedKeys recipients).length := h.length_recipients ▸ hlt
  have hwrapped := List.Forall₂.get h.recipients hlt' hlt
  rw [List.get_eq_getElem, List.get_eq_getElem] at hwrapped
  have heq : (sortedKeys recipients)[i] = key := by
    rw [← hwrapped.escrowPubkey]
    exact of_decide_eq_true hfound
  rw [heq] at hwrapped
  exact ⟨i, e.recipients[i], hi, by rw [List.getElem?_eq_getElem hlt', heq],
    List.getElem?_eq_getElem hlt, hwrapped⟩

theorem index_none {key : Bytes32} (hkey : key ∉ recipients) : e.recipientIndex key = none := by
  rw [PrivateRequestEnvelope.recipientIndex, List.findIdx?_eq_none_iff]
  intro r hr
  rw [decide_eq_false_iff_not]
  rintro rfl
  apply hkey
  rw [← mem_sortedKeys, ← h.escrowPubkeys]
  exact List.mem_map_of_mem hr

end SealedTo

/-! ## Opening -/

/-- Under the first key schedule a recipient tries the key of the second one before. The two keys
differ, and the root key is bound to the one that wraps it. -/
structure Apart (crates : Crates) (secret : PrivateRequestSecret)
    (ephemeralSecret : crates.curve.SecretKey) (nonce : Vector UInt8 12) (header : List UInt8)
    (key : Bytes32) (point : crates.curve.PublicKey) : Prop where
  distinct : keyEncryptionKey crates .v2 (crates.curve.sharedSecret point ephemeralSecret)
      (crates.curve.serialize (crates.curve.fromSecretKey ephemeralSecret)) key ≠
    keyEncryptionKey crates .v1 (crates.curve.sharedSecret point ephemeralSecret)
      (crates.curve.serialize (crates.curve.fromSecretKey ephemeralSecret)) key
  bound : crates.cipher.Bound
    (keyEncryptionKey crates .v1 (crates.curve.sharedSecret point ephemeralSecret)
      (crates.curve.serialize (crates.curve.fromSecretKey ephemeralSecret)) key)
    nonce (secret.rootKey crates).toList header

variable {r : PrivateRecipient} {escrowSecret : Bytes32} {s : crates.curve.SecretKey}

theorem unwrapKey_wrapped (hc : crates.Sound)
    (hr : Wrapped crates secret ephemeralSecret nonce header key r)
    (hpoint : liftX crates key = .ok point)
    (hephemeral : e.ephemeralPubkey =
      crates.curve.serialize (crates.curve.fromSecretKey ephemeralSecret))
    (hnonce : e.nonce = nonce)
    (hapart : secret.schedule = .v1 →
      Apart crates secret ephemeralSecret nonce header key point) :
    unwrapKey crates (crates.curve.sharedSecret point ephemeralSecret) e key
      r.wrappedRootKey.toList header = some (secret.schedule, secret.rootKey crates) := by
  have hencrypt := hr.wrapped point hpoint
  obtain ⟨c, hc', -, hdecrypt⟩ := hc.cipher (keyEncryptionKey crates secret.schedule
    (crates.curve.sharedSecret point ephemeralSecret)
    (crates.curve.serialize (crates.curve.fromSecretKey ephemeralSecret)) key)
    nonce (secret.rootKey crates).toList header
  rw [hencrypt, Option.some.injEq] at hc'
  subst hc'
  have hread : toVector 32 (secret.rootKey crates).toList = some (secret.rootKey crates) :=
    toVector_toList
  cases hschedule : secret.schedule with
  | v2 =>
    rw [hschedule] at hdecrypt
    simp only [unwrapKey, List.findSome?_cons, hephemeral, hnonce, hdecrypt, hread,
      Option.bind_eq_bind, Option.bind_some, Option.pure_def]
  | v1 =>
    obtain ⟨hdistinct, hbound⟩ := hapart hschedule
    rw [hschedule] at hdecrypt hencrypt
    have hnone := @Aead.Bound.decrypt_none _ _ _ _ _ _ _ _ header _ hbound hencrypt fun h =>
      hdistinct h.1
    simp only [unwrapKey, List.findSome?_cons, hephemeral, hnonce, hdecrypt, hread, hnone,
      Option.bind_eq_bind, Option.bind_some, Option.bind_none, Option.pure_def]

/-- The response key of a responder, on its own side. -/
def ownResponseKey (crates : Crates) (secret : PrivateRequestSecret)
    (ephemeralSecret : crates.curve.SecretKey) (key : Bytes32) (point : crates.curve.PublicKey) :
    Bytes32 :=
  match secret.schedule with
  | .v1 => responseKeyV1 crates (secret.rootKey crates) key
  | .v2 => responseKeyV2 crates (crates.curve.sharedSecret point ephemeralSecret)
      (secret.rootKey crates) key

theorem take_headerLen :
    e.serialize.take e.headerLen =
      ({ e with ciphertext := [] } : PrivateRequestEnvelope).serialize := by
  have hlen : ({ e with ciphertext := [] } : PrivateRequestEnvelope).serialize.length =
      e.headerLen := PrivateRequestEnvelope.length_serialize
  have hsplit : e.serialize =
      ({ e with ciphertext := [] } : PrivateRequestEnvelope).serialize ++ e.ciphertext := by
    simp [PrivateRequestEnvelope.serialize]
  rw [hsplit, List.take_left' hlen]

theorem liftX_toXOnly (hc : crates.Sound) :
    liftX crates (crates.curve.serializeXOnly (crates.curve.toXOnly s).1) =
      .ok (crates.curve.evenPublicKey (crates.curve.toXOnly s).1) := by
  rw [liftX, hc.xOnly]
  rfl

/-- A named responder opens the request. -/
theorem SealedTo.opens (h : SealedTo crates secret ephemeralSecret nonce request prompt
      (sortedKeys recipients) e payload) (hc : crates.Sound) (hne : recipients ≠ [])
    (hle : (sortedKeys recipients).length ≤ maxPrivateRecipients)
    (hs : crates.curve.secretKey escrowSecret = some s)
    (hkey : crates.curve.serializeXOnly (crates.curve.toXOnly s).1 ∈ recipients)
    (hapart : secret.schedule = .v1 → Apart crates secret ephemeralSecret nonce request.headerBytes
      (crates.curve.serializeXOnly (crates.curve.toXOnly s).1)
      (crates.curve.evenPublicKey (crates.curve.toXOnly s).1)) :
    ∃ i, (sortedKeys recipients)[i]? =
        some (crates.curve.serializeXOnly (crates.curve.toXOnly s).1) ∧
      openRequest crates payload escrowSecret = .ok ⟨prompt,
        ⟨ownResponseKey crates secret ephemeralSecret
            (crates.curve.serializeXOnly (crates.curve.toXOnly s).1)
            (crates.curve.evenPublicKey (crates.curve.toXOnly s).1),
          crates.curve.serializeXOnly (crates.curve.toXOnly s).1⟩, i⟩ := by
  obtain rfl := h.nonce_eq
  obtain ⟨i, r, hindex, hsorted, hr, hwrapped⟩ := h.index hkey
  have hunwrap := unwrapKey_wrapped hc hwrapped (liftX_toXOnly hc) h.ephemeralPubkey rfl
    hapart
  obtain ⟨c, hencrypt, -, hdecrypt⟩ := hc.cipher (promptKey crates secret.schedule
    (secret.rootKey crates)) e.nonce prompt (request.headerBytes ++
      ({ e with ciphertext := [] } : PrivateRequestEnvelope).serialize)
  rw [h.ciphertext, Option.some.injEq] at hencrypt
  subst hencrypt
  have hpublic : crates.curve.publicKey e.ephemeralPubkey =
      some (crates.curve.fromSecretKey ephemeralSecret) := by
    rw [h.ephemeralPubkey, hc.publicKey]
  have hheader : payload.headerBytes = request.headerBytes := by
    rw [h.payload]
    rfl
  have htake : payload.prompt.take e.headerLen =
      ({ e with ciphertext := [] } : PrivateRequestEnvelope).serialize := by
    rw [h.payload]
    exact take_headerLen
  refine ⟨i, hsorted, ?_⟩
  rw [openRequest, bind_of_ok (h.parse hc hne hle), bind_of_ok (orFail_eq_ok.mpr hs)]
  dsimp only
  rw [bind_of_ok (orFail_eq_ok.mpr hindex), bind_of_ok (orFail_eq_ok.mpr hpublic), ← hc.shared, hr,
    hheader]
  change (orFail (unwrapKey crates _ e _ r.wrappedRootKey.toList _) _ >>= _) = _
  rw [bind_of_ok (orFail_eq_ok.mpr hunwrap)]
  dsimp only
  have hprompt : aeadDecrypt crates (promptKey crates secret.schedule (secret.rootKey crates))
      e.nonce e.ciphertext (request.headerBytes ++
        ({ e with ciphertext := [] } : PrivateRequestEnvelope).serialize) = .ok prompt :=
    orFail_eq_ok.mpr hdecrypt
  rw [htake, bind_of_ok hprompt, ownResponseKey]
  cases secret.schedule <;> rfl

/-- A key that is not named does not. -/
theorem SealedTo.refuses (h : SealedTo crates secret ephemeralSecret nonce request prompt
      (sortedKeys recipients) e payload) (hc : crates.Sound) (hne : recipients ≠ [])
    (hle : (sortedKeys recipients).length ≤ maxPrivateRecipients)
    (hs : crates.curve.secretKey escrowSecret = some s)
    (hkey : crates.curve.serializeXOnly (crates.curve.toXOnly s).1 ∉ recipients) :
    openRequest crates payload escrowSecret = .error .notARecipient := by
  have hindex := h.index_none hkey
  rw [openRequest, bind_of_ok (h.parse hc hne hle), bind_of_ok (orFail_eq_ok.mpr hs)]
  dsimp only
  rw [hindex]
  rfl

/-! ## Answers -/

theorem responseAad_inj {hash hash' key key' : Bytes32}
    (h : responseAad hash key = responseAad hash' key') : hash = hash' ∧ key = key' := by
  obtain ⟨hhash, hkey⟩ := List.append_inj h (by rw [Vector.length_toList, Vector.length_toList])
  exact ⟨Vector.toList_inj.mp hhash, Vector.toList_inj.mp hkey⟩

/-- The answers that are sealed under a response key: the requester opens them for the same request
and responder; and an answer that is bound to its data, for no other. -/
def Answers (crates : Crates) (secret : PrivateRequestSecret) (responseKey : ResponseKey) : Prop :=
  ∀ (requestHash : Bytes32) (answer : List UInt8) (nonce : Vector UInt8 12),
    ∃ body, sealResponse crates responseKey requestHash answer nonce = some body ∧
      openResponse crates secret requestHash responseKey.responder body = some (.ok answer) ∧
      (crates.cipher.Bound responseKey.key nonce answer
          (responseAad requestHash responseKey.responder) →
        ∀ requestHash' responder',
          ¬(requestHash' = requestHash ∧ responder' = responseKey.responder) →
            ∀ answer', openResponse crates secret requestHash' responder' body ≠ some (.ok answer'))

theorem answers_ownResponseKey (hc : crates.Sound) (hpoint : liftX crates key = .ok point)
    (hephemeral : secret.schedule = .v2 →
      ephemeralSecretV2 crates secret.bytes = some ephemeralSecret) :
    Answers crates secret ⟨ownResponseKey crates secret ephemeralSecret key point, key⟩ := by
  intro requestHash answer nonce
  obtain ⟨c, hencrypt, hlen, hdecrypt⟩ := hc.cipher
    (ownResponseKey crates secret ephemeralSecret key point) nonce answer
    (responseAad requestHash key)
  have htag : privateTagLen ≤ c.length := by omega
  have hparse := PrivateResponseEnvelope.parse_serialize (e := ⟨nonce, c⟩) htag
  have hkey : secret.responseKey crates key =
      some (.ok (ownResponseKey crates secret ephemeralSecret key point)) := by
    rw [PrivateRequestSecret.responseKey, ownResponseKey]
    cases hschedule : secret.schedule with
    | v1 => rfl
    | v2 => rw [hpoint, hephemeral hschedule]; rfl
  refine ⟨(PrivateResponseEnvelope.mk nonce c).serialize, ?_, ?_, ?_⟩
  · rw [sealResponse, hencrypt, Option.map_some]
  · rw [openResponse, hparse]
    dsimp only
    rw [hkey, Option.map_some, Option.some.injEq, bind_eq_ok]
    exact ⟨_, rfl, orFail_eq_ok.mpr hdecrypt⟩
  · intro hbound requestHash' responder' hne answer'
    rw [openResponse, hparse]
    dsimp only
    intro hopen
    obtain ⟨res, -, hres⟩ := Option.map_eq_some_iff.mp hopen
    obtain ⟨key', -, hdecrypt'⟩ := bind_eq_ok.mp hres
    have hnone : crates.cipher.decrypt key' nonce c (responseAad requestHash' responder') = none :=
      hbound.decrypt_none hencrypt fun h => hne (responseAad_inj h.2)
    rw [aeadDecrypt, orFail_eq_ok, hnone] at hdecrypt'
    cases hdecrypt'

/-! ## A sealed request -/

/-- What the requester and the responders of a sealed request read. -/
structure Readable (crates : Crates) (secret : PrivateRequestSecret) (recipients : List Bytes32)
    (prompt : List UInt8) (payload : AiRequestPayload) : Prop where
  length_le : payload.serialize.length ≤ maxAiRequestPrivatePayloadLen
  opens : ∀ escrowSecret s, crates.curve.secretKey escrowSecret = some s →
    crates.curve.serializeXOnly (crates.curve.toXOnly s).1 ∈ recipients →
      ∃ opened, openRequest crates payload escrowSecret = .ok opened ∧ opened.prompt = prompt ∧
        (sortedKeys recipients)[opened.recipientIndex]? =
          some (crates.curve.serializeXOnly (crates.curve.toXOnly s).1) ∧
        opened.responseKey.responder = crates.curve.serializeXOnly (crates.curve.toXOnly s).1 ∧
        Answers crates secret opened.responseKey
  refuses : ∀ escrowSecret s, crates.curve.secretKey escrowSecret = some s →
    crates.curve.serializeXOnly (crates.curve.toXOnly s).1 ∉ recipients →
      openRequest crates payload escrowSecret = .error .notARecipient

theorem SealedTo.readable (h : SealedTo crates secret ephemeralSecret nonce request prompt
      (sortedKeys recipients) e payload) (hc : crates.Sound) (hne : recipients ≠ [])
    (hle : (sortedKeys recipients).length ≤ maxPrivateRecipients)
    (hprompt : prompt.length ≤ maxPrivatePromptLen (sortedKeys recipients).length)
    (hephemeral : secret.schedule = .v2 →
      ephemeralSecretV2 crates secret.bytes = some ephemeralSecret)
    (hapart : secret.schedule = .v1 → ∀ key ∈ recipients, ∀ point, liftX crates key = .ok point →
      Apart crates secret ephemeralSecret nonce request.headerBytes key point) :
    Readable crates secret recipients prompt payload where
  length_le := h.length_le hc hle hprompt
  opens escrowSecret s hs hkey := by
    obtain ⟨i, hi, hopen⟩ := h.opens hc hne hle hs hkey fun hv1 =>
      hapart hv1 _ hkey _ (liftX_toXOnly hc)
    exact ⟨_, hopen, rfl, hi, rfl, answers_ownResponseKey hc (liftX_toXOnly hc) hephemeral⟩
  refuses escrowSecret s hs hkey := h.refuses hc hne hle hs hkey

/-- With either key schedule a request that names some valid keys is sealed, and read by their
owners only. -/
theorem sealed_readable (hc : crates.Sound) (hne : recipients ≠ [])
    (hle : (sortedKeys recipients).length ≤ maxPrivateRecipients)
    (hkeys : ∀ k ∈ recipients, (crates.curve.xOnlyPublicKey k).isSome)
    (hprompt : prompt.length ≤ maxPrivatePromptLen (sortedKeys recipients).length)
    (nonce : Vector UInt8 12) (modelId : Bytes32) (maxTokens : UInt32)
    (inferenceReward priorityFee : UInt64) :
    (∀ seed ephemeralSecret, ephemeralSecretV2 crates seed = some ephemeralSecret →
      ∃ payload, sealRequest crates seed nonce modelId maxTokens inferenceReward priorityFee prompt
          recipients = some (.ok (payload, ⟨.v2, seed⟩)) ∧
        Readable crates ⟨.v2, seed⟩ recipients prompt payload) ∧
    (∀ rootKey ephemeralSecret,
      (∀ key ∈ recipients, ∀ point, liftX crates key = .ok point →
        Apart crates ⟨.v1, rootKey⟩ ephemeralSecret nonce
          (AiRequestPayload.mk modelId maxTokens inferenceReward priorityFee []).headerBytes key
          point) →
      ∃ payload, sealRequestV1 crates rootKey nonce ephemeralSecret modelId maxTokens
          inferenceReward priorityFee prompt recipients = .ok (payload, ⟨.v1, rootKey⟩) ∧
        Readable crates ⟨.v1, rootKey⟩ recipients prompt payload) := by
  constructor
  · intro seed ephemeralSecret hephemeral
    obtain ⟨payload, e, hseal, hsealed⟩ := exists_sealed ⟨.v2, seed⟩ ephemeralSecret nonce
      ⟨modelId, maxTokens, inferenceReward, priorityFee, []⟩ hc hne hle hkeys hprompt
    refine ⟨payload, ?_, hsealed.readable hc hne hle hprompt (fun _ => hephemeral) nofun⟩
    rw [sealRequest, hephemeral, Option.map_some, Option.some.injEq]
    exact bind_of_ok hseal
  · intro rootKey ephemeralSecret hapart
    obtain ⟨payload, e, hseal, hsealed⟩ := exists_sealed ⟨.v1, rootKey⟩ ephemeralSecret
      nonce ⟨modelId, maxTokens, inferenceReward, priorityFee, []⟩ hc hne hle hkeys hprompt
    refine ⟨payload, ?_, hsealed.readable hc hne hle hprompt nofun fun _ => hapart⟩
    rw [sealRequestV1]
    exact bind_of_ok hseal

end

theorem sealPayload_nil (crates : Crates) (secret : PrivateRequestSecret)
    (ephemeralSecret : crates.curve.SecretKey) (nonce : Vector UInt8 12) (request : AiRequestPayload)
    (prompt : List UInt8) :
    sealPayload crates secret ephemeralSecret nonce request prompt [] =
      .error (.malformed "no recipients") := by
  have hkeys : sortedKeys [] = [] := by rw [sortedKeys, List.mergeSort_nil, dedup]
  rw [sealPayload, hkeys]
  rfl

theorem sealRequest_nil {crates : Crates} {seed : Bytes32} {ephemeralSecret : crates.curve.SecretKey}
    (h : ephemeralSecretV2 crates seed = some ephemeralSecret) (nonce : Vector UInt8 12)
    (modelId : Bytes32) (maxTokens : UInt32) (inferenceReward priorityFee : UInt64)
    (prompt : List UInt8) :
    sealRequest crates seed nonce modelId maxTokens inferenceReward priorityFee prompt [] =
      some (.error (.malformed "no recipients")) := by
  simp only [sealRequest, h, Option.map_some, sealPayload_nil]
  rfl

theorem sealRequestV1_nil (crates : Crates) (rootKey : Bytes32) (nonce : Vector UInt8 12)
    (ephemeralSecret : crates.curve.SecretKey) (modelId : Bytes32) (maxTokens : UInt32)
    (inferenceReward priorityFee : UInt64) (prompt : List UInt8) :
    sealRequestV1 crates rootKey nonce ephemeralSecret modelId maxTokens inferenceReward priorityFee
      prompt [] = .error (.malformed "no recipients") := by
  simp only [sealRequestV1, sealPayload_nil]
  rfl

/-! A request to two responders, with a hash that adds up bytes and a cipher that tags. -/

def zeros : Bytes32 := .replicate 32 0
def ones : Bytes32 := .replicate 32 1
def twos : Bytes32 := .replicate 32 2

def plainCrates (tag : Bytes32 → List UInt8 → List UInt8) : Crates where
  curve := plainCurve
  hmac key data := .replicate 32 (key ++ data).sum
  cipher := .tagging tag

/-- The key that a responder's root key is wrapped with, for the ephemeral secret `zeros`. -/
def plainKek (schedule : KeySchedule) (key : Bytes32) : Bytes32 :=
  keyEncryptionKey (plainCrates fun _ _ => []) schedule (plainCurve.sharedSecret key zeros)
    (plainCurve.serialize (plainCurve.fromSecretKey zeros)) key

def plainHeader : List UInt8 := (AiRequestPayload.mk zeros 16 0 0 []).headerBytes

/-- Under the header, the tags of the two responders' keys are told apart from all others. -/
def plainTag (key : Bytes32) (aad : List UInt8) : List UInt8 :=
  List.replicate 16 (if aad = plainHeader then
    if key = plainKek .v1 ones then 1 else if key = plainKek .v1 twos then 2 else 0 else 0)

theorem zipWith_xor_comm (s e : Bytes32) : s.zipWith (· ^^^ ·) e = e.zipWith (· ^^^ ·) s := by
  apply Vector.ext
  intro i hi
  rw [Vector.getElem_zipWith, Vector.getElem_zipWith, UInt8.xor_comm]

theorem plainCurve_publicKey (p : Bytes32) :
    plainCurve.publicKey (plainCurve.serialize p) = some p := by
  have hlist : (plainCurve.serialize p).toList = [2] ++ (p.toList ++ []) := by
    rw [List.append_nil]
    exact Vector.toList_append
  have hrest : bytesAt 32 (plainCurve.serialize p).toList 1 = p := by
    rw [hlist, bytesAt_append (m := 1) rfl (Nat.le_refl 1), bytesAt_zero]
  exact congrArg some hrest

theorem plainCrates_sound : (plainCrates plainTag).Sound where
  xOnly _ := rfl
  publicKey := plainCurve_publicKey
  shared := zipWith_xor_comm
  cipher := Aead.tagging_correct fun _ _ => List.length_replicate

theorem plainKek_ne : plainKek .v1 twos ≠ plainKek .v1 ones ∧
    plainKek .v2 ones ≠ plainKek .v1 ones ∧ plainKek .v2 twos ≠ plainKek .v1 twos := by
  decide +kernel

theorem eq_of_plainTag {responder key : Bytes32} {aad : List UInt8}
    (hresponder : responder = ones ∨ responder = twos)
    (h : plainTag key aad = plainTag (plainKek .v1 responder) plainHeader) :
    key = plainKek .v1 responder ∧ aad = plainHeader := by
  have hcode := (List.replicate_inj.mp h).2.resolve_left (by decide)
  rw [if_pos rfl] at hcode
  rcases hresponder with rfl | rfl
  · rw [if_pos rfl] at hcode
    grind
  · rw [if_neg plainKek_ne.1, if_pos rfl] at hcode
    grind

theorem plain_apart {responder : Bytes32} (hresponder : responder = ones ∨ responder = twos) :
    Apart (plainCrates plainTag) ⟨.v1, ones⟩ zeros (.replicate 12 0) plainHeader responder
      responder where
  distinct := by
    change plainKek .v2 responder ≠ plainKek .v1 responder
    rcases hresponder with rfl | rfl
    · exact plainKek_ne.2.1
    · exact plainKek_ne.2.2
  bound := Aead.tagging_bound (fun _ _ => List.length_replicate)
    fun _ _ h => eq_of_plainTag hresponder h

theorem plain_ephemeral : ephemeralSecretV2 (plainCrates plainTag) zeros =
    some (hkdf (plainCrates plainTag) kdfSaltV2 zeros.toList [infoEphemeral, [0]]) := by
  rw [ephemeralSecretV2, List.range_succ_eq_map, List.findSome?_cons]
  rfl

theorem sortedKeys_twos : sortedKeys [twos, ones, twos] = [ones, twos] := by
  have h : Below ones twos := by decide +kernel
  have h' : ¬Below twos ones := by decide +kernel
  have h2 : ¬Below twos twos := by decide +kernel
  have hne : ones ≠ twos := by decide +kernel
  simp [sortedKeys, List.mergeSort, List.MergeSort.Internal.splitInTwo, h, h', h2, dedup, hne]

/-- Two responders, unsorted and one of them named twice. -/
theorem sealed_readable_twos :
    sortedKeys [twos, ones, twos] = [ones, twos] ∧
    (∃ payload, sealRequest (plainCrates plainTag) zeros (.replicate 12 0) zeros 16 0 0 [104, 105]
        [twos, ones, twos] = some (.ok (payload, ⟨.v2, zeros⟩)) ∧
      Readable (plainCrates plainTag) ⟨.v2, zeros⟩ [twos, ones, twos] [104, 105] payload) ∧
    (∃ payload, sealRequestV1 (plainCrates plainTag) ones (.replicate 12 0) zeros zeros 16 0 0
        [104, 105] [twos, ones, twos] = .ok (payload, ⟨.v1, ones⟩) ∧
      Readable (plainCrates plainTag) ⟨.v1, ones⟩ [twos, ones, twos] [104, 105] payload) := by
  have hsorted : sortedKeys [twos, ones, twos] = [ones, twos] := sortedKeys_twos
  obtain ⟨hv2, hv1⟩ := sealed_readable plainCrates_sound (List.cons_ne_nil twos [ones, twos])
    (by rw [hsorted]; decide) (fun _ _ => rfl)
    (show ([104, 105] : List UInt8).length ≤ _ by rw [hsorted]; decide +kernel)
    (.replicate 12 0) zeros 16 0 0
  refine ⟨hsorted, hv2 zeros _ plain_ephemeral, hv1 ones zeros ?_⟩
  intro key hkey point hpoint
  obtain rfl := Except.ok.inj hpoint
  apply plain_apart
  simp only [List.mem_cons, List.not_mem_nil, or_false] at hkey
  tauto

/-- A request that names no one is not sealed. -/
theorem no_recipients : (plainCrates plainTag).Sound ∧
    ([104, 105] : List UInt8).length ≤ maxPrivatePromptLen (sortedKeys []).length ∧
    sealRequest (plainCrates plainTag) zeros (.replicate 12 0) zeros 16 0 0 [104, 105] [] =
      some (.error (.malformed "no recipients")) ∧
    sealRequestV1 (plainCrates plainTag) ones (.replicate 12 0) zeros zeros 16 0 0 [104, 105] [] =
      .error (.malformed "no recipients") := by
  refine ⟨plainCrates_sound, by decide +kernel, ?_, ?_⟩
  · exact sealRequest_nil plain_ephemeral ..
  · exact sealRequestV1_nil ..

end KeryxMiner.Private
