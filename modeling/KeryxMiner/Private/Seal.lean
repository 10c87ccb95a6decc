import KeryxMiner.Aead
import KeryxMiner.Private.Envelope

/-!
# Private requests and responses

A requester seals its prompt to the keys of the responders it names: to each of them a root key is
wrapped, from which the key of the prompt is derived. A responder opens the request with the secret
of its key, and seals its answer under a key that the requester can derive too. What a requester
draws at random is a parameter here. The curve, the hash and the cipher are not part of the source.
-/

namespace KeryxMiner.Private

/-- What is called of other crates. -/
structure Crates where
  curve : Secp256k1
  /-- HMAC-SHA256 of some data under a key. -/
  hmac : (key data : List UInt8) → Bytes32
  /-- ChaCha20-Poly1305. -/
  cipher : Aead Bytes32 (Vector UInt8 12)

def ascii (s : String) : List UInt8 := s.toList.map fun c => .ofNat c.toNat

def kdfSaltV1 := ascii "KeryxPrivateInferenceV1"
def kdfSaltV2 := ascii "KeryxPrivateInferenceV2"
def infoRoot := ascii "root"
def infoEphemeral := ascii "ephemeral"
def infoKek := ascii "kek"
def infoPrompt := ascii "prompt"
def infoResponse := ascii "response"

/-- How a request derives its keys. Not on the wire. -/
inductive KeySchedule
  /-- Random root key; every recipient can derive every responder's key. -/
  | v1
  /-- Seed-derived root key and ephemeral secret; a responder's key needs its shared secret. -/
  | v2
  deriving DecidableEq

def KeySchedule.salt : KeySchedule → List UInt8
  | .v1 => kdfSaltV1
  | .v2 => kdfSaltV2

/-- The requester's secret for one request. -/
structure PrivateRequestSecret where
  schedule : KeySchedule
  /-- The seed, or with the first key schedule the root key. -/
  bytes : Bytes32
  deriving DecidableEq

/-- The key one responder seals its answer to one request with. -/
structure ResponseKey where
  key : Bytes32
  responder : Bytes32
  deriving DecidableEq

structure OpenedRequest where
  prompt : List UInt8
  responseKey : ResponseKey
  recipientIndex : Nat
  deriving DecidableEq

/-- Largest prompt of a request that names so many responders. -/
def maxPrivatePromptLen (nRecipients : Nat) : Nat :=
  maxAiRequestPrivatePayloadLen - aiRequestHeaderLen -
    (privateRequestHeaderLen + nRecipients * privateRecipientEntryLen + privateTagLen)

def responseAad (requestHash responderEscrowPubkey : Bytes32) : List UInt8 :=
  requestHash.toList ++ responderEscrowPubkey.toList

section

variable (crates : Crates)

/-! ## Keys -/

/-- HKDF with one block of output. -/
def hkdf (salt ikm : List UInt8) (info : List (List UInt8)) : Bytes32 :=
  crates.hmac (crates.hmac salt ikm).toList (info.flatten ++ [1])

/-- The first key schedule's response key, which every recipient of the request can derive. -/
def responseKeyV1 (rootKey responder : Bytes32) : Bytes32 :=
  hkdf crates kdfSaltV1 rootKey.toList [infoResponse, responder.toList]

/-- The second key schedule's response key, from the shared secret of requester and responder. -/
def responseKeyV2 (shared rootKey responder : Bytes32) : Bytes32 :=
  hkdf crates kdfSaltV2 (shared.toList ++ rootKey.toList) [infoResponse, responder.toList]

/-- The first valid scalar of the 256 that are derived from the seed; the source panics where there
is none. -/
def ephemeralSecretV2 (seed : Bytes32) : Option crates.curve.SecretKey :=
  (List.range 256).findSome? fun ctr =>
    crates.curve.secretKey (hkdf crates kdfSaltV2 seed.toList [infoEphemeral, [.ofNat ctr]])

/-- The point of even parity of an escrow key. -/
def liftX (key : Bytes32) : Except PrivateError crates.curve.PublicKey :=
  orFail ((crates.curve.xOnlyPublicKey key).map crates.curve.evenPublicKey) .invalidKey

/-- The key that wraps the root key to one recipient. -/
def keyEncryptionKey (schedule : KeySchedule) (shared : Bytes32) (ephemeralPubkey : Vector UInt8 33)
    (key : Bytes32) : Bytes32 :=
  hkdf crates schedule.salt shared.toList [infoKek, ephemeralPubkey.toList, key.toList]

/-- The key that encrypts the prompt. -/
def promptKey (schedule : KeySchedule) (rootKey : Bytes32) : Bytes32 :=
  hkdf crates schedule.salt rootKey.toList [infoPrompt]

namespace PrivateRequestSecret

variable (secret : PrivateRequestSecret)

/-- The root key the recipients unwrap. -/
def rootKey : Bytes32 :=
  match secret.schedule with
  | .v1 => secret.bytes
  | .v2 => hkdf crates kdfSaltV2 secret.bytes.toList [infoRoot]

/-- The key `responder` sealed its answer with; `none` where `ephemeralSecretV2` has none. -/
def responseKey (responder : Bytes32) : Option (Except PrivateError Bytes32) :=
  match secret.schedule with
  | .v1 => some (.ok (responseKeyV1 crates (secret.rootKey crates) responder))
  | .v2 =>
    match liftX crates responder with
    | .error e => some (.error e)
    | .ok point => (ephemeralSecretV2 crates secret.bytes).map fun ephemeral =>
        .ok (responseKeyV2 crates (crates.curve.sharedSecret point ephemeral)
          (secret.rootKey crates) responder)

end PrivateRequestSecret

/-! ## Sealing a request -/

def aeadEncrypt (key : Bytes32) (nonce : Vector UInt8 12) (msg aad : List UInt8) :
    Except PrivateError (List UInt8) :=
  orFail (crates.cipher.encrypt key nonce msg aad) (.malformed "encryption failed")

def aeadDecrypt (key : Bytes32) (nonce : Vector UInt8 12) (msg aad : List UInt8) :
    Except PrivateError (List UInt8) :=
  orFail (crates.cipher.decrypt key nonce msg aad) .authentication

/-- A list without the elements that are equal to the one before them. -/
def dedup : List Bytes32 → List Bytes32
  | [] => []
  | [key] => [key]
  | key :: next :: keys => if key = next then dedup (next :: keys) else key :: dedup (next :: keys)

/-- The keys that a request names: each of them once, in ascending order. -/
def sortedKeys (recipients : List Bytes32) : List Bytes32 :=
  dedup (recipients.mergeSort fun p q => ¬Below q p)

/-- The entry of one recipient. -/
def wrapKey (secret : PrivateRequestSecret) (ephemeralSecret : crates.curve.SecretKey)
    (nonce : Vector UInt8 12) (header : List UInt8) (key : Bytes32)
    (point : crates.curve.PublicKey) : Except PrivateError PrivateRecipient := do
  let ephemeralPubkey := crates.curve.serialize (crates.curve.fromSecretKey ephemeralSecret)
  let shared := crates.curve.sharedSecret point ephemeralSecret
  let kek := keyEncryptionKey crates secret.schedule shared ephemeralPubkey key
  let wrapped ← aeadEncrypt crates kek nonce (secret.rootKey crates).toList header
  let wrappedRootKey ← orFail (toVector 48 wrapped) (.malformed "bad wrapped key length")
  return { escrowPubkey := key, wrappedRootKey }

/-- Seals a prompt into a request, whose prompt field is still empty. -/
def sealPayload (secret : PrivateRequestSecret) (ephemeralSecret : crates.curve.SecretKey)
    (nonce : Vector UInt8 12) (request : AiRequestPayload) (prompt : List UInt8)
    (recipients : List Bytes32) : Except PrivateError AiRequestPayload := do
  let keys := sortedKeys recipients
  refuse (keys = []) (.malformed "no recipients")
  refuse (maxPrivateRecipients < keys.length) (.tooManyRecipients keys.length)
  let points ← keys.mapM' (liftX crates)
  let maxPrompt := maxPrivatePromptLen keys.length
  refuse (maxPrompt < prompt.length) (.promptTooLarge prompt.length maxPrompt)
  let header := request.headerBytes
  let wrapped ← (keys.zip points).mapM' fun (key, point) =>
    wrapKey crates secret ephemeralSecret nonce header key point
  let envelope : PrivateRequestEnvelope := {
    ephemeralPubkey := crates.curve.serialize (crates.curve.fromSecretKey ephemeralSecret)
    nonce, recipients := wrapped, ciphertext := [] }
  -- without its ciphertext the envelope serializes to its header
  let aad := header ++ envelope.serialize
  let ciphertext ←
    aeadEncrypt crates (promptKey crates secret.schedule (secret.rootKey crates)) nonce prompt aad
  return { request with prompt := { envelope with ciphertext }.serialize }

/-- `seal_request_with_rng`, which draws the seed and the nonce. -/
def sealRequest (seed : Bytes32) (nonce : Vector UInt8 12) (modelId : Bytes32) (maxTokens : UInt32)
    (inferenceReward priorityFee : UInt64) (prompt : List UInt8) (recipients : List Bytes32) :
    Option (Except PrivateError (AiRequestPayload × PrivateRequestSecret)) :=
  (ephemeralSecretV2 crates seed).map fun ephemeralSecret => do
    let secret : PrivateRequestSecret := ⟨.v2, seed⟩
    let request : AiRequestPayload := ⟨modelId, maxTokens, inferenceReward, priorityFee, []⟩
    let payload ← sealPayload crates secret ephemeralSecret nonce request prompt recipients
    return (payload, secret)

/-- `seal_request_v1_with_rng`, which draws the root key, the nonce and the ephemeral secret. -/
def sealRequestV1 (rootKey : Bytes32) (nonce : Vector UInt8 12)
    (ephemeralSecret : crates.curve.SecretKey) (modelId : Bytes32) (maxTokens : UInt32)
    (inferenceReward priorityFee : UInt64) (prompt : List UInt8) (recipients : List Bytes32) :
    Except PrivateError (AiRequestPayload × PrivateRequestSecret) := do
  let secret : PrivateRequestSecret := ⟨.v1, rootKey⟩
  let request : AiRequestPayload := ⟨modelId, maxTokens, inferenceReward, priorityFee, []⟩
  let payload ← sealPayload crates secret ephemeralSecret nonce request prompt recipients
  return (payload, secret)

/-! ## Opening a request -/

/-- The key schedule whose key authenticates the wrapped root key, and the root key. -/
def unwrapKey (shared : Bytes32) (envelope : PrivateRequestEnvelope) (myKey : Bytes32)
    (wrapped header : List UInt8) : Option (KeySchedule × Bytes32) :=
  [KeySchedule.v2, .v1].findSome? fun schedule => do
    let kek := keyEncryptionKey crates schedule shared envelope.ephemeralPubkey myKey
    let rootKey ← crates.cipher.decrypt kek envelope.nonce wrapped header
    return (schedule, ← toVector 32 rootKey)

/-- Opens a private request with the secret of an escrow key. -/
def openRequest (payload : AiRequestPayload) (escrowSecret : Bytes32) :
    Except PrivateError OpenedRequest := do
  let envelope ← PrivateRequestEnvelope.parse crates.curve payload.prompt
  let sk ← orFail (crates.curve.secretKey escrowSecret) .invalidKey
  let (xonly, odd) := crates.curve.toXOnly sk
  let myKey := crates.curve.serializeXOnly xonly
  let index ← orFail (envelope.recipientIndex myKey) .notARecipient
  -- the requester lifted the key to its even point
  let skEven := if odd then crates.curve.negate sk else sk
  let ephemeralPoint ← orFail (crates.curve.publicKey envelope.ephemeralPubkey) .invalidKey
  let shared := crates.curve.sharedSecret ephemeralPoint skEven
  let header := payload.headerBytes
  let wrapped := (envelope.recipients[index]?.map (·.wrappedRootKey.toList)).getD []
  let (schedule, rootKey) ←
    orFail (unwrapKey crates shared envelope myKey wrapped header) .authentication
  let aad := header ++ payload.prompt.take envelope.headerLen
  let prompt ←
    aeadDecrypt crates (promptKey crates schedule rootKey) envelope.nonce envelope.ciphertext aad
  let key := match schedule with
    | .v1 => responseKeyV1 crates rootKey myKey
    | .v2 => responseKeyV2 crates shared rootKey myKey
  return { prompt, responseKey := ⟨key, myKey⟩, recipientIndex := index }

/-! ## Responses -/

/-- `seal_response_with_rng`, which draws the nonce; it panics where the cipher fails. -/
def sealResponse (key : ResponseKey) (requestHash : Bytes32) (answer : List UInt8)
    (nonce : Vector UInt8 12) : Option (List UInt8) :=
  (crates.cipher.encrypt key.key nonce answer (responseAad requestHash key.responder)).map
    fun ciphertext => PrivateResponseEnvelope.serialize { nonce, ciphertext }

/-- Opens a response body sealed by a responder for a request. -/
def openResponse (secret : PrivateRequestSecret) (requestHash responderEscrowPubkey : Bytes32)
    (body : List UInt8) : Option (Except PrivateError (List UInt8)) :=
  match PrivateResponseEnvelope.parse body with
  | .error e => some (.error e)
  | .ok envelope =>
    (secret.responseKey crates responderEscrowPubkey).map fun key => do
      aeadDecrypt crates (← key) envelope.nonce envelope.ciphertext
        (responseAad requestHash responderEscrowPubkey)

end

end KeryxMiner.Private
