import Mathlib.Data.List.AList
import Mathlib.Data.Finset.Card
import KeryxMiner.Text

/-!
# The request queue of the solo client

AiRequests are found in the transactions of blocks and templates, wait in a queue and are answered
one at a time. The ids of the requests seen and of those this miner answered keep a request from
being queued again; a dropped connection parks the queue and the running inference for the next.
-/

namespace KeryxMiner.Requests

open Text

/-! ## Constants -/

def maxAiQueueSize := 64
def maxAiSeenIds := 10000
def subnetworkIdAiRequestHex := "0300000000000000000000000000000000000000"
def subnetworkIdAiResponseHex := "0400000000000000000000000000000000000000"

/-! ## Data -/

/-- The parts of a transaction which the scan reads. -/
structure Transaction where
  subnetworkId : String
  payload : String
  hasInputs : Bool
  /-- `verbose_data.transaction_id`. -/
  transactionId : Option String
  /-- `compute_rpc_txid` of the transaction. -/
  computedTxid : Option String
  deriving DecidableEq

/-- `PrivateRequest`, with the key of an opened one. -/
inductive PrivateRequest
  | opened (responseKey : List UInt8)
  | unreadable
  deriving DecidableEq

structure AiRequestPayload where
  modelId : List UInt8
  maxTokens : Nat
  inferenceReward : Nat
  prompt : List UInt8
  deriving DecidableEq

/-- `request_hash` and the escrow key of the responder. -/
structure AiResponsePayload where
  requestHash : List UInt8
  responder : Option (List UInt8)
  deriving DecidableEq

structure QueuedRequest where
  stableId : String
  requestHash : List UInt8
  modelId : List UInt8
  prompt : String
  promptLen : Nat
  maxTokens : Nat
  priv : Option PrivateRequest
  deriving DecidableEq

structure InferenceJob where
  stableId : String
  requestHash : List UInt8
  modelId : List UInt8
  maxTokens : Nat
  priv : Option PrivateRequest
  tier : Option Nat
  deriving DecidableEq

/-- The codecs, the hash and the gate which the scan calls. -/
structure Externals where
  deserializeRequest : List UInt8 → Option AiRequestPayload
  deserializeResponse : List UInt8 → Option AiResponsePayload
  isPrivate : AiRequestPayload → Bool
  /-- `open_private_request`. -/
  openPrivateRequest : AiRequestPayload → Option (String × Nat × Option PrivateRequest)
  /-- `parse_krx_ai_payload` with the model found by its name. -/
  parseKrxAiPayload : List UInt8 → Option (List UInt8 × String × Nat)
  fromUtf8Lossy : List UInt8 → String
  blake2b : List UInt8 → List UInt8
  rewardRoutingActivationDaa : Nat

/-- What the scan reads from a request transaction. -/
structure Extracted where
  raw : List UInt8
  modelId : List UInt8
  prompt : String
  promptLen : Nat
  maxTokens : Nat
  inferenceReward : Nat
  priv : Option PrivateRequest

structure KeryxdHandler where
  aiRequestQueue : List QueuedRequest
  aiSeenPrefixes : Finset String
  aiAnsweredByMe : Finset String
  aiRequestTxids : AList fun _ : String => String × Nat
  /-- `inference_rx`. -/
  inference : Option InferenceJob
  /-- The escrow key of this miner. -/
  pubkey : Option (List UInt8)

/-- The request transaction of a payload, with an error ignored. -/
def decoded (payload : String) : Option (List UInt8) := (hexDecode payload).toOption

namespace Transaction

variable (E : Externals) (tx : Transaction)

def extract : Option Extracted :=
  if tx.subnetworkId = subnetworkIdAiRequestHex then do
    let raw ← decoded tx.payload
    let req ← E.deserializeRequest raw
    let (prompt, promptLen, priv) ←
      if E.isPrivate req then E.openPrivateRequest req
      else some (E.fromUtf8Lossy req.prompt, req.prompt.length, none)
    some ⟨raw, req.modelId, prompt, promptLen, req.maxTokens, req.inferenceReward, priv⟩
  else if tx.hasInputs then do
    let raw ← decoded tx.payload
    let (modelId, prompt, maxTokens) ← E.parseKrxAiPayload raw
    some ⟨raw, modelId, prompt, prompt.utf8ByteSize, maxTokens, 0, none⟩
  else none

def txidHex : Option String :=
  match tx.transactionId.filter (· ≠ "") with
  | some id => some id
  | none => tx.computedTxid

/-- The request hash: the transaction id past the gate, and the digest of the payload before. -/
def requestHash (blockDaa : Nat) (raw : List UInt8) : Option (List UInt8) :=
  if E.rewardRoutingActivationDaa ≤ blockDaa then
    (tx.txidHex.bind decoded).filter (·.length = 32)
  else some ((E.blake2b raw).take 32)

/-- The request in a transaction, when its model is ready. -/
def request (blockDaa : Nat) (readyIds : List (List UInt8)) : Option (QueuedRequest × Nat) := do
  let x ← tx.extract E
  if x.modelId ∉ readyIds then none
  let hash ← tx.requestHash E blockDaa x.raw
  some (⟨hexEncode (hash.take 8), hash, x.modelId, x.prompt, x.promptLen, x.maxTokens, x.priv⟩,
    x.inferenceReward)

/-- The request which this miner answers in a transaction. -/
def ownAnsweredRequestId (mine : List UInt8) : Option String :=
  if tx.subnetworkId = subnetworkIdAiResponseHex then do
    let raw ← decoded tx.payload
    let resp ← E.deserializeResponse raw
    if resp.responder = some mine then some (hexEncode (resp.requestHash.take 8)) else none
  else none

end Transaction

namespace KeryxdHandler

variable (E : Externals) (h : KeryxdHandler)

/-! ## Scanning -/

/-- An answer of this miner is on chain. -/
def noteOwnAnswer (sid : String) : KeryxdHandler :=
  { h with
    aiAnsweredByMe := insert sid h.aiAnsweredByMe
    aiRequestQueue := h.aiRequestQueue.filter (·.stableId ≠ sid) }

/-- The first half of `scan_txs_for_ai_requests`. -/
def noteOwnAnswers (txs : List Transaction) : KeryxdHandler :=
  match h.pubkey with
  | none => h
  | some mine =>
    let h := (txs.filterMap (·.ownAnsweredRequestId E mine)).foldl noteOwnAnswer h
    if h.aiAnsweredByMe.card > maxAiSeenIds then { h with aiAnsweredByMe := ∅ } else h

/-- The oldest requests leave a queue which is too long. -/
def trimQueue (queue : List QueuedRequest) : List QueuedRequest :=
  queue.drop (queue.length - maxAiQueueSize)

def queueIds (queue : List QueuedRequest) : Finset String := (queue.map (·.stableId)).toFinset

/-- The `push_back` of a request with the two loops behind it. The second ends after one round, for
a trimmed queue is no longer than the set may be. -/
def enqueue (r : QueuedRequest) : KeryxdHandler :=
  let queue := trimQueue (h.aiRequestQueue ++ [r])
  let seen := insert r.stableId h.aiSeenPrefixes
  { h with
    aiRequestQueue := queue
    aiSeenPrefixes := if seen.card > maxAiSeenIds then queueIds queue else seen }

/-- The reward of a request is claimed later by the id of its transaction. -/
def noteReward (sid : String) (txidHex : Option String) (inferenceReward : Nat) : KeryxdHandler :=
  match txidHex with
  | some txid =>
    if inferenceReward > 0 then
      { h with aiRequestTxids := h.aiRequestTxids.insert sid (txid, inferenceReward) }
    else h
  | none => h

/-- One transaction of the scan. -/
def scanTx (blockDaa : Nat) (readyIds : List (List UInt8)) (tx : Transaction) : KeryxdHandler :=
  match tx.request E blockDaa readyIds with
  | none => h
  | some (r, inferenceReward) =>
    if r.stableId ∈ h.aiAnsweredByMe then h
    else
      let h := if r.stableId ∈ h.aiSeenPrefixes then h else h.enqueue r
      h.noteReward r.stableId tx.txidHex inferenceReward

def scanTxsForAiRequests (blockDaa : Nat) (readyIds : List (List UInt8)) (txs : List Transaction) :
    KeryxdHandler :=
  let h := h.noteOwnAnswers E txs
  if readyIds.isEmpty then h else txs.foldl (fun h tx => h.scanTx E blockDaa readyIds tx) h

/-! ## Inference -/

/-- `try_start_inference`. `busy` says that a challenge or a replay has the GPU, `attention` that
the answer's audit would need attention phases. -/
def tryStartInference (busy attention modelReady : Bool) (tier : Option Nat) : KeryxdHandler :=
  if h.inference.isSome || busy then h
  else
    match h.aiRequestQueue.dropWhile (·.stableId ∈ h.aiAnsweredByMe) with
    | [] => { h with aiRequestQueue := [] }
    | r :: queue =>
      let h := { h with aiRequestQueue := queue }
      let job : InferenceJob := ⟨r.stableId, r.requestHash, r.modelId, r.maxTokens, r.priv, tier⟩
      if r.priv = some .unreadable then { h with inference := some job }
      else if attention || !modelReady then h
      else { h with inference := some job }

/-! ## Connections -/

/-- `connect`, before the parked work is taken over. -/
def fresh (pubkey : Option (List UInt8)) : KeryxdHandler where
  aiRequestQueue := []
  aiSeenPrefixes := ∅
  aiAnsweredByMe := ∅
  aiRequestTxids := ∅
  inference := none
  pubkey := pubkey

end KeryxdHandler

structure Parked where
  queue : List QueuedRequest
  inference : Option InferenceJob

/-- `restore_parked`. -/
def KeryxdHandler.restoreParked (h : KeryxdHandler) (parked : Option Parked) : KeryxdHandler :=
  match parked with
  | none => h
  | some p =>
    let h := p.queue.foldl (fun (h : KeryxdHandler) r => { h with
      aiSeenPrefixes := insert r.stableId h.aiSeenPrefixes
      aiRequestQueue := h.aiRequestQueue ++ [r] }) h
    match p.inference with
    | none => h
    | some job => { h with
        aiSeenPrefixes := insert job.stableId h.aiSeenPrefixes
        inference := some job }

/-- The process: at most one connection, and what the last one parked. -/
structure Client where
  handler : Option KeryxdHandler
  parked : Option Parked

inductive Event
  | connect (pubkey : Option (List UInt8))
  | drop
  /-- A block or a template is scanned; `readyIds` are the models ready then. -/
  | scan (blockDaa : Nat) (readyIds : List (List UInt8)) (txs : List Transaction)
  | start (busy attention modelReady : Bool) (tier : Option Nat)
  /-- The inference ends. -/
  | finished

namespace Client

variable (E : Externals) (c : Client)

def step (e : Event) : Client :=
  match c.handler, e with
  | none, .connect pubkey => ⟨some ((KeryxdHandler.fresh pubkey).restoreParked c.parked), none⟩
  | some h, .drop =>
    if h.aiRequestQueue.isEmpty && h.inference.isNone then ⟨none, c.parked⟩
    else ⟨none, some ⟨h.aiRequestQueue, h.inference⟩⟩
  | some h, .scan blockDaa readyIds txs =>
    { c with handler := some (h.scanTxsForAiRequests E blockDaa readyIds txs) }
  | some h, .start busy attention modelReady tier =>
    { c with handler := some (h.tryStartInference busy attention modelReady tier) }
  | some h, .finished => { c with handler := some { h with inference := none } }
  | none, _ => c
  | some _, .connect _ => c

def init : Client := ⟨none, none⟩

end Client

end KeryxMiner.Requests
