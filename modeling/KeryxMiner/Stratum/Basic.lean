import Mathlib.Data.List.AList
import Mathlib.Data.Finset.Basic
import Mathlib.Data.Finset.Card
import KeryxMiner.Text
import KeryxMiner.Runs

/-!
# The stratum client

The client of a mining pool: one connection at a time, on which it numbers its requests, and the
share counters of the process, which outlive the connections. `Session.handleMessage` is what the
client does with a reply of the pool. A connection is a `StratumHandler`; dropping it loses all of
its fields.
-/

namespace KeryxMiner.Stratum

open Text

/-! ## Messages of the pool -/

inductive ErrorCode
  | unknown | jobNotFound | duplicateShare | lowDifficultyShare | unauthorized | notSubscribed
  | invalidOpoiTag | invalidPomProof
  | other (code : Int)
  deriving DecidableEq, Repr

def ErrorCode.ofInt (code : Int) : ErrorCode :=
  if code = 20 then .unknown
  else if code = 21 then .jobNotFound
  else if code = 22 then .duplicateShare
  else if code = 23 then .lowDifficultyShare
  else if code = 24 then .unauthorized
  else if code = 25 then .notSubscribed
  else if code = 26 then .invalidOpoiTag
  else if code = 27 then .invalidPomProof
  else .other code

inductive StratumResult
  | plain (result : Option Bool)
  | eth (result : Bool) (message : String)
  | subscribe (subscriptions : List (String × String)) (extranonce : String) (nonceSize : UInt32)
  deriving DecidableEq, Repr

/-- A line of the pool which carries a result, or an error in its place. -/
structure Reply where
  id : Option UInt32
  result : StratumResult
  error : Option (ErrorCode × String)
  deriving DecidableEq, Repr

/-- Why a message ends the connection. -/
inductive Failure
  | unhandled
  | invalidExtranonce
  | pool (message : String)
  deriving DecidableEq, Repr

/-! ## Share counters -/

structure ShareStats where
  accepted : Nat
  stale : Nat
  lowDiff : Nat
  duplicate : Nat
  invalidOpoi : Nat
  invalidPom : Nat
  /-- Shares refused without a recognised reason. -/
  rejectedOther : Nat
  /-- The job of each share without an answer, by the id of its submit. -/
  sharesPending : AList fun _ : UInt32 => String
  deriving DecidableEq

def ShareStats.empty : ShareStats := ⟨0, 0, 0, 0, 0, 0, 0, ∅⟩

/-! ## Proof encoding -/

structure ProofEncoding where
  pool : String
  b64 : Bool
  b64Ids : Finset UInt32
  deriving DecidableEq

def ProofEncoding.forPool (pool : String) : ProofEncoding := ⟨pool, false, ∅⟩

def proofEncodingKey := "keryx.proof_encoding"
def proofEncodingB64 := "b64"
def proofB64Prefix := "b64:"

def base64Digit (n : Nat) : Char :=
  "ABCDEFGHIJKLMNOPQRSTUVWXYZabcdefghijklmnopqrstuvwxyz0123456789+/".toList.getD n '='

/-- The standard alphabet, padded. -/
def base64Encode : List UInt8 → List Char
  | [] => []
  | [a] => [base64Digit (a.toNat / 4), base64Digit (a.toNat % 4 * 16), '=', '=']
  | [a, b] =>
    [base64Digit (a.toNat / 4), base64Digit (a.toNat % 4 * 16 + b.toNat / 16),
      base64Digit (b.toNat % 16 * 4), '=']
  | a :: b :: c :: rest =>
    base64Digit (a.toNat / 4) :: base64Digit (a.toNat % 4 * 16 + b.toNat / 16) ::
      base64Digit (b.toNat % 16 * 4 + c.toNat / 64) :: base64Digit (c.toNat % 64) ::
        base64Encode rest

/-- The text of a proof in `mining.submit`; the ids of base64 submits are kept for the fallback. -/
def ProofEncoding.encode (p : ProofEncoding) (msgId : UInt32) (proof : List UInt8) :
    String × ProofEncoding :=
  if !p.b64 then (hexEncode proof, p)
  else
    let ids := if p.b64Ids.card > 4096 then ∅ else p.b64Ids
    (proofB64Prefix ++ String.ofList (base64Encode proof), { p with b64Ids := insert msgId ids })

/-! ## The connection -/

structure StratumHandler where
  nonceMask : UInt64
  nonceFixed : UInt64
  extranonce : Option String
  lastStratumId : UInt32
  proofEncoding : ProofEncoding
  /-- The task which submits shares still runs. -/
  blockHandle : Bool
  challengeInFlight : Bool
  /-- The task which answers a `mining.ai_request` runs; it holds `challengeInFlight`. -/
  aiTask : Bool
  aiResponsePending : Option UInt32
  auxIds : Finset UInt32
  telemetryOn : Bool
  deriving DecidableEq

/-- `connect`, up to the requests of `register`. -/
def StratumHandler.fresh (address : String) : StratumHandler where
  nonceMask := -1
  nonceFixed := 0
  extranonce := none
  lastStratumId := 0
  proofEncoding := .forPool address
  blockHandle := true
  challengeInFlight := false
  aiTask := false
  aiResponsePending := none
  auxIds := ∅
  telemetryOn := true

/-- A connection with the tables of the process: the share counters and the pools which refused a
base64 proof. -/
structure Session where
  shareStats : ShareStats
  b64RefusedBy : List String
  handler : StratumHandler
  deriving DecidableEq

namespace Session

variable (s : Session)

/-- `last_stratum_id.fetch_add(1)`, which wraps. -/
def nextId : UInt32 × Session :=
  (s.handler.lastStratumId,
    { s with handler.lastStratumId := s.handler.lastStratumId + 1 })

def refusedHere : Bool := s.b64RefusedBy.any (· == s.handler.proofEncoding.pool)

def absorbSubscribe (subscriptions : List (String × String)) : Session :=
  let offered := subscriptions.any fun (k, v) => k == proofEncodingKey && v == proofEncodingB64
  if offered && s.refusedHere then s
  else if offered then { s with handler.proofEncoding.b64 := true }
  else s

def rejectB64 : Session :=
  { s with
    b64RefusedBy :=
      if s.refusedHere then s.b64RefusedBy else s.b64RefusedBy ++ [s.handler.proofEncoding.pool]
    handler.proofEncoding.b64 := false }

/-- A reply for `id` arrived: was it a base64 submit? -/
def answered (id : UInt32) : Bool × Session :=
  (decide (id ∈ s.handler.proofEncoding.b64Ids),
    { s with handler.proofEncoding.b64Ids := s.handler.proofEncoding.b64Ids.erase id })

/-- `u64::from_str_radix(text, 16)`. -/
def parseHexU64 (text : String) : Option UInt64 := do
  let digits := match text.toList with
    | '+' :: cs => cs
    | cs => cs
  if digits.isEmpty then none
  let values ← digits.mapM hexVal
  let n := values.foldl (16 * · + ·) 0
  if n < 2 ^ 64 then some (UInt64.ofNat n) else none

/-- The shifts take the product `nonce_size * 8`, which wraps, modulo the word size. -/
def setExtranonce (extranonce : String) (nonceSize : UInt32) : Session × Except Failure Unit :=
  let s := { s with handler.extranonce := some extranonce }
  let shift := (nonceSize * 8).toUInt64
  match parseHexU64 extranonce with
  | none => (s, .error .invalidExtranonce)
  | some n =>
    ({ s with handler.nonceFixed := n <<< shift, handler.nonceMask := (1 <<< shift) - 1 }, .ok ())

/-! ## Matching a reply -/

/-- `id` answers a hello, a telemetry report or an opening result. -/
def takeAux (id : UInt32) : Option Session :=
  if id ∈ s.handler.auxIds then some { s with handler.auxIds := s.handler.auxIds.erase id }
  else none

/-- `id` acknowledges the `mining.ai_response` in flight. -/
def takeAiResponseAck (id : UInt32) : Option Session :=
  if s.handler.aiResponsePending = some id then some { s with handler.aiResponsePending := none }
  else none

/-- `shares_pending.remove(&id)`. -/
def removeShare (id : UInt32) : Option Session :=
  if id ∈ s.shareStats.sharesPending then
    some { s with shareStats.sharesPending := s.shareStats.sharesPending.erase id }
  else none

def handleTrue (rid : UInt32) : Session :=
  match s.takeAux rid with
  | some s => s
  | none =>
    let s := (s.answered rid).2
    match s.removeShare rid with
    | some s => { s with shareStats.accepted := s.shareStats.accepted + 1 }
    | none => (s.takeAiResponseAck rid).getD s

/-- A result which is not true, without an error object. -/
def handleOther (rid : UInt32) : Session :=
  match s.takeAux rid with
  | some s => s
  | none =>
    match s.takeAiResponseAck rid with
    | some s => s
    | none =>
      let (wasB64, s) := s.answered rid
      match s.removeShare rid with
      | some s =>
        let s := if wasB64 then s.rejectB64 else s
        { s with shareStats.rejectedOther := s.shareStats.rejectedOther + 1 }
      | none => s

/-- A refused share which was not sent as base64, by its error code. -/
def countError (code : ErrorCode) (error : String) : Session × Except Failure Unit :=
  match code with
  | .unknown => ({ s with shareStats.lowDiff := s.shareStats.lowDiff + 1 }, .ok ())
  | .jobNotFound => ({ s with shareStats.stale := s.shareStats.stale + 1 }, .ok ())
  | .duplicateShare => ({ s with shareStats.duplicate := s.shareStats.duplicate + 1 }, .ok ())
  | .lowDifficultyShare => ({ s with shareStats.lowDiff := s.shareStats.lowDiff + 1 }, .ok ())
  | .invalidOpoiTag => ({ s with shareStats.invalidOpoi := s.shareStats.invalidOpoi + 1 }, .ok ())
  | .invalidPomProof => ({ s with shareStats.invalidPom := s.shareStats.invalidPom + 1 }, .ok ())
  | .unauthorized => (s, .error (.pool error))
  | .notSubscribed => (s, .error (.pool error))
  | .other _ => (s, .ok ())

def handleError (id : UInt32) (code : ErrorCode) (error : String) :
    Session × Except Failure Unit :=
  match s.takeAux id with
  | some s =>
    -- The pool does not take telemetry: 20, or the method-not-found of JSON-RPC.
    if code = .unknown ∨ code = .other (-32601) then
      ({ s with handler.telemetryOn := false }, .ok ())
    else (s, .ok ())
  | none =>
    match s.takeAiResponseAck id with
    | some s => (s, .ok ())
    | none =>
      let s := (s.removeShare id).getD s
      let (wasB64, s) := s.answered id
      if wasB64 then
        let s := s.rejectB64
        ({ s with shareStats.rejectedOther := s.shareStats.rejectedOther + 1 }, .ok ())
      else s.countError code error

/-- What `handle_message` does with a line that carries a result or an error. -/
def handleMessage (msg : Reply) : Session × Except Failure Unit :=
  match msg.error, msg.id with
  | none, none => (s, .ok ())
  | none, some rid =>
    match msg.result with
    | .plain (some true) | .eth true _ => (s.handleTrue rid, .ok ())
    | .subscribe subscriptions extranonce nonceSize =>
      (s.absorbSubscribe subscriptions).setExtranonce extranonce nonceSize
    | _ => (s.handleOther rid, .ok ())
  | some (code, error), some id => s.handleError id code error
  | some _, none => (s, .error .unhandled)

/-! ## Requests of the client -/

end Session

/-- The parts of a found share which the bookkeeping reads. -/
structure BlockSeed where
  id : String
  pomProof : List UInt8

/-- What a request asks for. A share carries its job, and its proof as it is sent. -/
inductive Request
  | subscribe
  | authorize
  | aux
  | share (jobId : String) (proof : Option String)
  | aiResponse
  deriving DecidableEq, Repr

/-- The request carries a share. -/
def Request.isShare : Request → Bool
  | .share _ _ => true
  | _ => false

/-- How the task of a `mining.ai_request` ends. -/
inductive AiOutcome
  | noTracedAnswer
  | unbuilt
  | unsent
  | sent
  deriving DecidableEq, Repr

namespace Session

variable (s : Session)

/-- One turn of the task of `create_block_channel`, up to the send. -/
def submitShare (seed : BlockSeed) : (UInt32 × Option String) × Session :=
  let (msgId, s) := s.nextId
  let s := { s with
    shareStats.sharesPending := s.shareStats.sharesPending.insert msgId seed.id }
  if seed.pomProof.isEmpty then ((msgId, none), s)
  else
    let (proof, encoding) := s.handler.proofEncoding.encode msgId seed.pomProof
    ((msgId, some proof), { s with handler.proofEncoding := encoding })

/-- `sent` is the outcome of the send; without it there is no more telemetry. -/
def sendAux (sent : Bool) : UInt32 × Session :=
  let (id, s) := s.nextId
  let ids := if s.handler.auxIds.card > 256 then ∅ else s.handler.auxIds
  let s := { s with handler.auxIds := insert id ids }
  (id, if sent then s else { s with handler.telemetryOn := false })

/-- The result of an opening is sent later, under the id taken here. -/
def handleAiOpening : UInt32 × Session :=
  let (id, s) := s.nextId
  (id, { s with handler.auxIds := insert id s.handler.auxIds })

/-- `ready`: the request parses and this rig serves its model. `paused`: mining could be paused. -/
def handleAiRequest (ready paused : Bool) : Session :=
  if !ready then s
  else if s.handler.aiResponsePending.isSome || s.handler.challengeInFlight then s
  else if !paused then s
  else { s with handler.challengeInFlight := true, handler.aiTask := true }

/-- The end of the task: the guard is dropped, which lets the next inference in. -/
def answerAiRequest (outcome : AiOutcome) : Option UInt32 × Session :=
  let freed (s : Session) : Session :=
    { s with handler.challengeInFlight := false, handler.aiTask := false }
  match outcome with
  | .noTracedAnswer => (none, freed s)
  | .unbuilt => (none, freed s.nextId.2)
  | .unsent =>
    let (_, s) := s.nextId
    (none, freed { s with handler.aiResponsePending := none })
  | .sent =>
    let (id, s) := s.nextId
    (some id, freed { s with handler.aiResponsePending := some id })

end Session

/-! ## The client over its connections -/

/-- What went over the socket of a connection: the requests of the client with their ids, and the
replies of the pool. -/
inductive Traffic
  | request (id : UInt32) (request : Request)
  | reply (id : UInt32)
  deriving DecidableEq, Repr

/-- The request sent with `id` which has no reply so far; the newest traffic comes first. -/
def awaiting : List Traffic → UInt32 → Option Request
  | [], _ => none
  | .request i r :: wire, id => if i = id then some r else awaiting wire id
  | .reply i :: wire, id => if i = id then none else awaiting wire id

/-- The client: the connection it has or had last, and the traffic on it. -/
structure Client extends Session where
  connected : Bool
  wire : List Traffic

inductive Event
  | connect (address : String) (helloSent : Bool)
  | disconnect
  | submit (seed : BlockSeed) (sent : Bool)
  | telemetry (sent : Bool)
  | aiOpening
  | aiRequest (ready paused : Bool)
  | aiAnswer (outcome : AiOutcome)
  /-- Another inference (a challenge, a chat request, an opening) takes the card, or frees it. -/
  | inferenceStarts
  | inferenceEnds
  | extranonce (extranonce : String) (nonceSize : UInt32)
  | message (msg : Reply)

namespace Client

/-- Before the first connection. -/
def init : Client where
  shareStats := .empty
  b64RefusedBy := []
  handler := .fresh ""
  connected := false
  wire := []

variable (c : Client)

/-- `connect` and `register`. -/
def connect (address : String) (helloSent : Bool) : Client :=
  let s : Session := { c.toSession with handler := .fresh address }
  let (subscribeId, s) := s.nextId
  let (authorizeId, s) := s.nextId
  let (helloId, s) := s.sendAux helloSent
  { toSession := s
    connected := true
    wire := [.request helloId .aux, .request authorizeId .authorize,
      .request subscribeId .subscribe] }

/-- A message which cannot be handled ends the connection. -/
def after (outcome : Session × Except Failure Unit) : Client :=
  { c with toSession := outcome.1, connected := c.connected && outcome.2.isOk }

def receive (msg : Reply) : Client :=
  let c' := c.after (c.toSession.handleMessage msg)
  match msg.id with
  | some id => { c' with wire := .reply id :: c'.wire }
  | none => c'

/-- What happens on a live connection. -/
def handle : Event → Client
  | .connect .. => c
  | .disconnect => { c with connected := false }
  | .submit seed sent =>
    if !c.handler.blockHandle then c
    else
      let ((id, proof), s) := c.toSession.submitShare seed
      { c with
        toSession := { s with handler.blockHandle := sent }
        wire := .request id (.share seed.id proof) :: c.wire }
  | .telemetry sent =>
    if !c.handler.telemetryOn then c
    else
      let (id, s) := c.toSession.sendAux sent
      { c with toSession := s, wire := .request id .aux :: c.wire }
  | .aiOpening =>
    let (id, s) := c.toSession.handleAiOpening
    { c with toSession := s, wire := .request id .aux :: c.wire }
  | .aiRequest ready paused => { c with toSession := c.toSession.handleAiRequest ready paused }
  | .aiAnswer outcome =>
    if !c.handler.aiTask then c
    else
      match c.toSession.answerAiRequest outcome with
      | (some id, s) => { c with toSession := s, wire := .request id .aiResponse :: c.wire }
      | (none, s) => { c with toSession := s }
  | .inferenceStarts => { c with handler.challengeInFlight := true }
  | .inferenceEnds => if c.handler.aiTask then c else { c with handler.challengeInFlight := false }
  | .extranonce extranonce nonceSize => c.after (c.toSession.setExtranonce extranonce nonceSize)
  | .message msg => c.receive msg

def step (e : Event) : Client :=
  match e with
  | .connect address helloSent => c.connect address helloSent
  | e => if c.connected then c.handle e else c

end Client

end KeryxMiner.Stratum
