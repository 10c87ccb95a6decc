import KeryxMiner.Private.Keys

/-!
# Private envelopes

The prompt field of a private request and the body of a private response. The parser of a request's
envelope accepts exactly what the serializer writes for a valid one (`envelope_canonical`).
-/

namespace KeryxMiner.Private

/-- A leading NUL, so that no UTF-8 prompt can collide with it. -/
def privateMagic : List UInt8 := [0x00, 0x4b, 0x58, 0x50]
def privateVersion : UInt8 := 1
def maxPrivateRecipients := 128
def privateNonceLen := 12
def privateTagLen := 16
def privateRootKeyLen := 32
def privateWrappedKeyLen := privateRootKeyLen + privateTagLen
def privateRecipientEntryLen := 32 + privateWrappedKeyLen
def privateRequestHeaderLen := privateMagic.length + 1 + 33 + privateNonceLen + 1
def privateResponseHeaderLen := privateMagic.length + 1 + privateNonceLen

/-- Whether some bytes carry the envelope marker. -/
def IsPrivate (prompt : List UInt8) : Prop :=
  privateMagic.length ≤ prompt.length ∧ prompt.take privateMagic.length = privateMagic

instance (prompt : List UInt8) : Decidable (IsPrivate prompt) :=
  inferInstanceAs (Decidable (_ ∧ _))

/-- One named responder of a request: its escrow key and the root key wrapped to it. -/
structure PrivateRecipient where
  escrowPubkey : Bytes32
  wrappedRootKey : Vector UInt8 48
  deriving DecidableEq

structure PrivateRequestEnvelope where
  ephemeralPubkey : Vector UInt8 33
  nonce : Vector UInt8 12
  recipients : List PrivateRecipient
  ciphertext : List UInt8
  deriving DecidableEq

namespace PrivateRequestEnvelope

variable (curve : Secp256k1)

/-- The loop of `parse` over the recipients, of which `n` are left from index `i` on. -/
def parseRecipients (prompt : List UInt8) :
    (n i : Nat) → (prev : Option Bytes32) → Except PrivateError (List PrivateRecipient)
  | 0, _, _ => return []
  | n + 1, i, prev => do
    let start := privateRequestHeaderLen + i * privateRecipientEntryLen
    let escrowPubkey := bytesAt 32 prompt start
    refuse ((curve.xOnlyPublicKey escrowPubkey).isNone) .invalidKey
    refuse (∃ p ∈ prev, ¬Below p escrowPubkey) (.malformed "recipients not strictly ascending")
    let wrappedRootKey := bytesAt 48 prompt (start + 32)
    return ⟨escrowPubkey, wrappedRootKey⟩ :: (← parseRecipients prompt n (i + 1) escrowPubkey)

def parse (prompt : List UInt8) : Except PrivateError PrivateRequestEnvelope := do
  refuse (¬IsPrivate prompt) .notPrivate
  refuse (prompt.length < privateRequestHeaderLen) (.malformed "truncated header")
  refuse (prompt[4]? ≠ some privateVersion) (.malformed "unsupported version")
  let ephemeralPubkey := bytesAt 33 prompt 5
  refuse ((curve.publicKey ephemeralPubkey).isNone) .invalidKey
  let nonce := bytesAt 12 prompt 38
  let n := leAt 1 prompt 50
  refuse (n = 0) (.malformed "no recipients")
  refuse (maxPrivateRecipients < n) (.tooManyRecipients n)
  let entriesEnd := privateRequestHeaderLen + n * privateRecipientEntryLen
  refuse (prompt.length < entriesEnd + privateTagLen)
    (.malformed "truncated recipients or ciphertext")
  let recipients ← parseRecipients curve prompt n 0 none
  return { ephemeralPubkey, nonce, recipients, ciphertext := prompt.drop entriesEnd }

variable (e : PrivateRequestEnvelope)

def entryBytes (r : PrivateRecipient) : List UInt8 :=
  r.escrowPubkey.toList ++ r.wrappedRootKey.toList

def serialize : List UInt8 :=
  privateMagic ++ (privateVersion :: (e.ephemeralPubkey.toList ++ (e.nonce.toList ++
    (toLe 1 e.recipients.length ++ (e.recipients.flatMap entryBytes ++ e.ciphertext)))))

/-- Bytes before the ciphertext. -/
def headerLen : Nat := privateRequestHeaderLen + e.recipients.length * privateRecipientEntryLen

/-- Position of a key in the recipient list. -/
def recipientIndex (escrowPubkey : Bytes32) : Option Nat :=
  e.recipients.findIdx? fun r => r.escrowPubkey = escrowPubkey

/-- What `parse` accepts: valid keys, one to 128 of them in strictly ascending order, and room for
the tag of the ciphertext. -/
structure Valid : Prop where
  ephemeral : (curve.publicKey e.ephemeralPubkey).isSome
  pos : 0 < e.recipients.length
  le : e.recipients.length ≤ maxPrivateRecipients
  keys : ∀ r ∈ e.recipients, (curve.xOnlyPublicKey r.escrowPubkey).isSome
  ascending : (e.recipients.map (·.escrowPubkey)).Pairwise Below
  ciphertext : privateTagLen ≤ e.ciphertext.length

end PrivateRequestEnvelope

structure PrivateResponseEnvelope where
  nonce : Vector UInt8 12
  ciphertext : List UInt8
  deriving DecidableEq

namespace PrivateResponseEnvelope

def parse (body : List UInt8) : Except PrivateError PrivateResponseEnvelope := do
  refuse (¬IsPrivate body) .notPrivate
  refuse (body.length < privateResponseHeaderLen + privateTagLen)
    (.malformed "truncated response envelope")
  refuse (body[4]? ≠ some privateVersion) (.malformed "unsupported version")
  return { nonce := bytesAt 12 body 5, ciphertext := body.drop privateResponseHeaderLen }

def serialize (e : PrivateResponseEnvelope) : List UInt8 :=
  privateMagic ++ (privateVersion :: (e.nonce.toList ++ e.ciphertext))

end PrivateResponseEnvelope

/-! ## Both directions -/

section

variable {prompt body rest : List UInt8} {n i : Nat} {prev : Option Bytes32}
  {rs : List PrivateRecipient}

theorem isPrivate_magic : IsPrivate (privateMagic ++ rest) := by
  refine ⟨?_, List.take_left' rfl⟩
  rw [List.length_append]
  omega

theorem eq_magic (h : IsPrivate prompt) : prompt = privateMagic ++ prompt.drop 4 := by
  have hsplit := List.take_append_drop privateMagic.length prompt
  rw [h.2] at hsplit
  exact hsplit.symm

theorem drop_eq_cons {b : UInt8} (h : prompt[n]? = some b) :
    prompt.drop n = b :: prompt.drop (n + 1) := by
  obtain ⟨hlt, rfl⟩ := List.getElem?_eq_some_iff.mp h
  exact List.drop_eq_getElem_cons hlt

namespace PrivateRequestEnvelope

variable {curve : Secp256k1} {e : PrivateRequestEnvelope}

theorem length_entryBytes {r : PrivateRecipient} :
    (entryBytes r).length = privateRecipientEntryLen := by
  rw [entryBytes, List.length_append, Vector.length_toList, Vector.length_toList]
  rfl

theorem length_entries : (rs.flatMap entryBytes).length = rs.length * privateRecipientEntryLen := by
  induction rs with
  | nil => rw [List.flatMap_nil, List.length_nil, List.length_nil, Nat.zero_mul]
  | cons r rs ih =>
    rw [List.flatMap_cons, List.length_append, length_entryBytes, ih, List.length_cons,
      Nat.succ_mul, Nat.add_comm]

/-- What the loop reads: valid keys above one another and above the one before, from their bytes. -/
theorem of_parseRecipients (h : parseRecipients curve prompt n i prev = .ok rs)
    (hlen : privateRequestHeaderLen + (i + n) * privateRecipientEntryLen ≤ prompt.length) :
    rs.length = n ∧ (∀ r ∈ rs, (curve.xOnlyPublicKey r.escrowPubkey).isSome) ∧
      (prev.toList ++ rs.map (·.escrowPubkey)).Pairwise Below ∧
      prompt.drop (privateRequestHeaderLen + i * privateRecipientEntryLen) =
        rs.flatMap entryBytes ++
          prompt.drop (privateRequestHeaderLen + (i + n) * privateRecipientEntryLen) := by
  induction n generalizing i prev rs with
  | zero =>
    cases h
    refine ⟨rfl, nofun, ?_, rfl⟩
    cases prev <;> simp
  | succ n ih =>
    simp only [parseRecipients, refuse_bind_eq_ok] at h
    simp only [bind_eq_ok] at h
    obtain ⟨hkey, hprev, rs', hrest, hrs⟩ := h
    have hentry : privateRecipientEntryLen = 80 := rfl
    obtain ⟨hlength, hkeys, hpairs, hdrop⟩ := ih hrest (by rwa [Nat.add_right_comm])
    cases hrs
    rw [Bool.not_eq_true, Option.isNone_eq_false_iff] at hkey
    refine ⟨by rw [List.length_cons, hlength], List.forall_mem_cons.mpr ⟨hkey, hkeys⟩, ?_, ?_⟩
    · rw [Option.toList_some, List.singleton_append] at hpairs
      cases prev with
      | none => exact hpairs
      | some p =>
        have hbelow : Below p (bytesAt 32 prompt
            (privateRequestHeaderLen + i * privateRecipientEntryLen)) := by
          by_contra hnot
          exact hprev ⟨p, rfl, hnot⟩
        refine List.Pairwise.cons ?_ hpairs
        intro k hk
        obtain rfl | hk := List.mem_cons.mp hk
        · exact hbelow
        · exact hbelow.trans ((List.pairwise_cons.mp hpairs).1 k hk)
    · rw [hentry] at hlen hdrop ⊢
      have hstart := drop_eq_bytesAt 32 (privateRequestHeaderLen + i * 80) prompt (by omega)
      have hwrapped := drop_eq_bytesAt 48 (privateRequestHeaderLen + i * 80 + 32) prompt
        (by omega)
      have hnext : privateRequestHeaderLen + i * 80 + 32 + 48 =
          privateRequestHeaderLen + (i + 1) * 80 := by omega
      rw [hnext, hdrop] at hwrapped
      rw [hwrapped] at hstart
      have hidx : i + 1 + n = i + (n + 1) := by omega
      rw [hstart, List.flatMap_cons, entryBytes, List.append_assoc, List.append_assoc, hidx]

/-- The loop reads recipients from their bytes. -/
theorem parseRecipients_entries (hkeys : ∀ r ∈ rs, (curve.xOnlyPublicKey r.escrowPubkey).isSome)
    (hpairs : (prev.toList ++ rs.map (·.escrowPubkey)).Pairwise Below)
    (hdrop : prompt.drop (privateRequestHeaderLen + i * privateRecipientEntryLen) =
      rs.flatMap entryBytes ++ rest) :
    parseRecipients curve prompt rs.length i prev = .ok rs := by
  induction rs generalizing i prev with
  | nil => rfl
  | cons r rs ih =>
    have hentry : privateRecipientEntryLen = 80 := rfl
    rw [List.flatMap_cons, entryBytes, List.append_assoc, List.append_assoc] at hdrop
    have hkey : bytesAt 32 prompt (privateRequestHeaderLen + i * privateRecipientEntryLen) =
        r.escrowPubkey := by
      rw [← Nat.add_zero (_ + _), ← bytesAt_drop, hdrop, bytesAt_zero]
    have hwrapped : bytesAt 48 prompt
        (privateRequestHeaderLen + i * privateRecipientEntryLen + 32) = r.wrappedRootKey := by
      rw [← bytesAt_drop, hdrop, bytesAt_append Vector.length_toList (Nat.le_refl 32), Nat.sub_self,
        bytesAt_zero]
    have hnext : prompt.drop (privateRequestHeaderLen + (i + 1) * privateRecipientEntryLen) =
        rs.flatMap entryBytes ++ rest := by
      have hsum : privateRequestHeaderLen + (i + 1) * privateRecipientEntryLen =
          privateRequestHeaderLen + i * privateRecipientEntryLen + 32 + 48 := by
        rw [hentry]
        omega
      rw [hsum, ← List.drop_drop, ← List.drop_drop, hdrop, List.drop_left' Vector.length_toList,
        List.drop_left' Vector.length_toList]
    have hr := List.forall_mem_cons.mp hkeys
    have hbelow : ¬∃ p ∈ prev, ¬Below p r.escrowPubkey := by
      rintro ⟨p, hp, hnot⟩
      cases hp
      exact hnot ((List.pairwise_cons.mp hpairs).1 _ List.mem_cons_self)
    have hpairs' : ((some r.escrowPubkey).toList ++ rs.map (·.escrowPubkey)).Pairwise Below := by
      cases prev with
      | none => exact hpairs
      | some p => exact (List.pairwise_cons.mp hpairs).2
    have hrest := ih hr.2 hpairs' hnext
    simp only [List.length_cons, parseRecipients, refuse_bind_eq_ok]
    simp only [bind_eq_ok]
    rw [hkey, hwrapped, Bool.not_eq_true, Option.isNone_eq_false_iff]
    exact ⟨hr.1, hbelow, rs, hrest, rfl⟩

/-- The checks of `parse`. -/
structure Parsed (curve : Secp256k1) (prompt : List UInt8) (e : PrivateRequestEnvelope) :
    Prop where
  isPrivate : IsPrivate prompt
  header : privateRequestHeaderLen ≤ prompt.length
  version : prompt[4]? = some privateVersion
  ephemeralPubkey : e.ephemeralPubkey = bytesAt 33 prompt 5
  ephemeral : (curve.publicKey e.ephemeralPubkey).isSome
  nonce : e.nonce = bytesAt 12 prompt 38
  pos : leAt 1 prompt 50 ≠ 0
  le : leAt 1 prompt 50 ≤ maxPrivateRecipients
  entries : privateRequestHeaderLen + leAt 1 prompt 50 * privateRecipientEntryLen + privateTagLen ≤
    prompt.length
  recipients : parseRecipients curve prompt (leAt 1 prompt 50) 0 none = .ok e.recipients
  ciphertext : e.ciphertext =
    prompt.drop (privateRequestHeaderLen + leAt 1 prompt 50 * privateRecipientEntryLen)

theorem parse_eq_ok : parse curve prompt = .ok e ↔ Parsed curve prompt e := by
  simp only [parse, refuse_bind_eq_ok, not_not, Nat.not_lt, Bool.not_eq_true,
    Option.isNone_eq_false_iff]
  simp only [bind_eq_ok]
  constructor
  · rintro ⟨h1, h2, h3, h4, h5, h6, h7, rs, h8, h9⟩
    obtain rfl := Except.ok.inj h9
    exact ⟨h1, h2, h3, rfl, h4, rfl, h5, h6, h7, h8, rfl⟩
  · rintro ⟨h1, h2, h3, h4, h5, h6, h7, h8, h9, h10, h11⟩
    rw [h4] at h5
    refine ⟨h1, h2, h3, h5, h7, h8, h9, e.recipients, h10, ?_⟩
    rw [← h4, ← h6, ← h11]
    rfl

/-- What is parsed is valid, and serializes to what it was parsed from. -/
theorem of_parse (h : parse curve prompt = .ok e) : e.serialize = prompt ∧ e.Valid curve := by
  have hp := parse_eq_ok.mp h
  have hfirst : privateRequestHeaderLen = 51 := rfl
  have htag : privateTagLen = 16 := rfl
  have hheader := hp.header
  have hentries := hp.entries
  rw [hfirst] at hheader
  obtain ⟨hlength, hkeys, hpairs, hdrop⟩ := of_parseRecipients hp.recipients
    (by rw [Nat.zero_add]; omega)
  rw [Nat.zero_mul, Nat.zero_add, Nat.add_zero, ← hp.ciphertext, hfirst] at hdrop
  have hversion : prompt.drop 4 = privateVersion :: prompt.drop 5 := drop_eq_cons hp.version
  have hephemeral : prompt.drop 5 = (bytesAt 33 prompt 5).toList ++ prompt.drop 38 :=
    drop_eq_bytesAt _ _ _ (by omega)
  have hnonce : prompt.drop 38 = (bytesAt 12 prompt 38).toList ++ prompt.drop 50 :=
    drop_eq_bytesAt _ _ _ (by omega)
  have hcount : prompt.drop 50 = toLe 1 (leAt 1 prompt 50) ++ prompt.drop 51 :=
    drop_eq_leAt _ _ _ (by omega)
  have hbytes := eq_magic hp.isPrivate
  rw [hversion, hephemeral, hnonce, hcount, hdrop, ← hp.ephemeralPubkey, ← hp.nonce,
    ← hlength] at hbytes
  refine ⟨hbytes.symm, hp.ephemeral, ?_, ?_, hkeys, hpairs, ?_⟩
  · rw [hlength]
    exact Nat.pos_of_ne_zero hp.pos
  · rw [hlength]
    exact hp.le
  · rw [hp.ciphertext, List.length_drop]
    omega

theorem length_header : (privateMagic ++ (privateVersion :: (e.ephemeralPubkey.toList ++
    (e.nonce.toList ++ toLe 1 e.recipients.length)))).length = privateRequestHeaderLen := by
  simp [privateRequestHeaderLen, privateNonceLen]

theorem length_serialize : e.serialize.length = e.headerLen + e.ciphertext.length := by
  have hmagic : privateMagic.length = 4 := rfl
  simp only [serialize, headerLen, List.length_append, List.length_cons, Vector.length_toList,
    length_toLe, length_entries, privateRequestHeaderLen, privateNonceLen, hmagic]
  omega

/-- A valid envelope is parsed from what it serializes to. -/
theorem parse_serialize (h : e.Valid curve) : parse curve e.serialize = .ok e := by
  have hlen := length_serialize (e := e)
  have hlt := h.le
  have hfits : e.recipients.length < 256 ^ 1 := by
    rw [maxPrivateRecipients] at hlt
    omega
  have hversion : e.serialize[4]? = some privateVersion := rfl
  have hmagic : privateMagic.length = 4 := rfl
  have hephemeral : bytesAt 33 e.serialize 5 = e.ephemeralPubkey := by
    rw [serialize, bytesAt_append hmagic (by decide), ← List.singleton_append,
      bytesAt_append (m := 1) rfl (by decide), bytesAt_zero]
  have hnonce : bytesAt 12 e.serialize 38 = e.nonce := by
    rw [serialize, bytesAt_append hmagic (by decide), ← List.singleton_append,
      bytesAt_append (m := 1) rfl (by decide), bytesAt_append Vector.length_toList (by decide),
      bytesAt_zero]
  have hcount : leAt 1 e.serialize 50 = e.recipients.length := by
    rw [serialize, leAt_append hmagic (by decide), ← List.singleton_append,
      leAt_append (m := 1) rfl (by decide), leAt_append Vector.length_toList (by decide),
      leAt_append Vector.length_toList (by decide), leAt_zero hfits]
  have hsplit : e.serialize = (privateMagic ++ (privateVersion :: (e.ephemeralPubkey.toList ++
      (e.nonce.toList ++ toLe 1 e.recipients.length)))) ++
        (e.recipients.flatMap entryBytes ++ e.ciphertext) := by
    simp only [serialize, List.append_assoc, List.cons_append]
  have hdrop : e.serialize.drop privateRequestHeaderLen =
      e.recipients.flatMap entryBytes ++ e.ciphertext := by
    rw [hsplit, List.drop_left' length_header]
  have hrest : e.serialize.drop
      (privateRequestHeaderLen + e.recipients.length * privateRecipientEntryLen) =
        e.ciphertext := by
    rw [← List.drop_drop, hdrop, List.drop_left' length_entries]
  have hrecipients : parseRecipients curve e.serialize e.recipients.length 0 none =
      .ok e.recipients :=
    parseRecipients_entries h.keys h.ascending (by rw [Nat.zero_mul, Nat.add_zero, hdrop])
  have hciphertext := h.ciphertext
  rw [headerLen] at hlen
  simp only [parse, refuse_bind_eq_ok, not_not, Nat.not_lt, hcount, hephemeral, hnonce, hrest]
  simp only [bind_eq_ok]
  refine ⟨isPrivate_magic, by omega, hversion, ?_, Nat.ne_of_gt h.pos, h.le, by omega,
    e.recipients, hrecipients, rfl⟩
  rw [Bool.not_eq_true, Option.isNone_eq_false_iff]
  exact h.ephemeral

/-- The envelope of a request is canonical. -/
theorem envelope_canonical (curve : Secp256k1) :
    (∀ e : PrivateRequestEnvelope, e.Valid curve → parse curve e.serialize = .ok e) ∧
      ∀ prompt e, parse curve prompt = .ok e → e.serialize = prompt ∧ e.Valid curve :=
  ⟨fun _ => parse_serialize, fun _ _ => of_parse⟩

/-- An envelope to the keys of these bytes. -/
def envelopeTo (keys : List UInt8) : PrivateRequestEnvelope where
  ephemeralPubkey := .replicate 33 2
  nonce := .replicate 12 0
  recipients := keys.map fun key => ⟨.replicate 32 key, .replicate 48 key⟩
  ciphertext := List.replicate privateTagLen 0

/-- Three ascending recipients are parsed. Unsorted ones and one named twice are not, since no
canonical envelope has them. -/
theorem envelope_canonical_envelopeTo :
    (parse plainCurve (envelopeTo [1, 2, 7]).serialize = .ok (envelopeTo [1, 2, 7]) ∧
      (envelopeTo [1, 2, 7]).Valid plainCurve) ∧
    (∀ e, parse plainCurve (envelopeTo [2, 1, 7]).serialize ≠ .ok e) ∧
    ∀ e, parse plainCurve (envelopeTo [1, 2, 2]).serialize ≠ .ok e := by
  have hvalid : (envelopeTo [1, 2, 7]).Valid plainCurve :=
    ⟨rfl, by decide, by decide, fun _ _ => rfl, by decide +kernel, by decide⟩
  have hparse := (envelope_canonical plainCurve).1 _ hvalid
  have hunsorted : parse plainCurve (envelopeTo [2, 1, 7]).serialize =
      .error (.malformed "recipients not strictly ascending") := by decide +kernel
  have htwice : parse plainCurve (envelopeTo [1, 2, 2]).serialize =
      .error (.malformed "recipients not strictly ascending") := by decide +kernel
  refine ⟨⟨hparse, ((envelope_canonical plainCurve).2 _ _ hparse).2⟩, ?_, ?_⟩
  · intro e he
    cases hunsorted.symm.trans he
  · intro e he
    cases htwice.symm.trans he

end PrivateRequestEnvelope

namespace PrivateResponseEnvelope

variable {e : PrivateResponseEnvelope}

theorem parse_serialize (h : privateTagLen ≤ e.ciphertext.length) : parse e.serialize = .ok e := by
  have hmagic : privateMagic.length = 4 := rfl
  have hnonce : bytesAt 12 e.serialize 5 = e.nonce := by
    rw [serialize, bytesAt_append hmagic (by decide), ← List.singleton_append,
      bytesAt_append (m := 1) rfl (by decide), bytesAt_zero]
  have hdrop : e.serialize.drop privateResponseHeaderLen = e.ciphertext := by
    have hsplit : e.serialize = (privateMagic ++ (privateVersion :: e.nonce.toList)) ++
        e.ciphertext := by
      simp only [serialize, List.append_assoc, List.cons_append]
    rw [hsplit, List.drop_left']
    simp [privateResponseHeaderLen, privateNonceLen]
  have hlen : e.serialize.length = privateResponseHeaderLen + e.ciphertext.length := by
    simp only [serialize, List.length_append, List.length_cons, Vector.length_toList,
      privateResponseHeaderLen, privateNonceLen, hmagic]
    omega
  simp only [parse, refuse_bind_eq_ok, not_not, Nat.not_lt, hnonce, hdrop]
  exact ⟨isPrivate_magic, by omega, rfl, rfl⟩

end PrivateResponseEnvelope

end

end KeryxMiner.Private
