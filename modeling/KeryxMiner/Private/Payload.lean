import KeryxMiner.Bytes

/-!
# AI payloads

The payloads of AiRequest and AiResponse transactions. A request is a header and a prompt. A
response is a head of 78 bytes; its second version has the responder's key and signature, and then
possibly an answer body and behind it a trace commitment, each with its kind and length.
-/

namespace KeryxMiner.Private

abbrev Bytes32 := Vector UInt8 32

/-! ## Requests -/

def aiRequestHeaderLen := 52
def maxAiRequestPrivatePayloadLen := 65536

structure AiRequestPayload where
  modelId : Bytes32
  maxTokens : UInt32
  inferenceReward : UInt64
  priorityFee : UInt64
  prompt : List UInt8
  deriving DecidableEq

namespace AiRequestPayload

variable (p : AiRequestPayload)

/-- The fixed header: everything before the prompt. -/
def headerBytes : List UInt8 :=
  p.modelId.toList ++ toLe 4 p.maxTokens.toNat ++ toLe 8 p.inferenceReward.toNat ++
    toLe 8 p.priorityFee.toNat

def serialize : List UInt8 := p.headerBytes ++ p.prompt

def deserialize (data : List UInt8) : Option AiRequestPayload :=
  if data.length < aiRequestHeaderLen ∨ maxAiRequestPrivatePayloadLen < data.length then none
  else
    some {
      modelId := bytesAt 32 data 0
      maxTokens := .ofNat (leAt 4 data 32)
      inferenceReward := .ofNat (leAt 8 data 36)
      priorityFee := .ofNat (leAt 8 data 44)
      prompt := data.drop 52 }

end AiRequestPayload

/-! ## Responses -/

def aiResponsePayloadLen := 78
def aiResponsePayloadV2Len := aiResponsePayloadLen + 32 + 64
/-- Extension kind: an inline answer body. -/
def aiResponseExtPrivateBody : UInt8 := 0x80
/-- Extension kind: the inference trace commitment. -/
def aiResponseExtTrace : UInt8 := 0x81
def aiResponseTraceLen := 32 + 4 + 4 + 1
def aiResponseTraceTokensLen := aiResponseTraceLen + 32
def aiResponseExtHeaderLen := 1 + 4
def maxAiResponsePrivateBodyLen := 48 * 1024

structure AiResponder where
  escrowPubkey : Bytes32
  signature : Vector UInt8 64
  deriving DecidableEq

/-- Inference trace commitment carried by a response. -/
structure TraceCommitment where
  traceRoot : Bytes32
  nPrompt : UInt32
  nPos : UInt32
  stage : UInt8
  tokensRoot : Option Bytes32
  deriving DecidableEq

namespace TraceCommitment

variable (t : TraceCommitment)

def len : Nat := if t.tokensRoot.isSome then aiResponseTraceTokensLen else aiResponseTraceLen

def toBytes : List UInt8 :=
  t.traceRoot.toList ++ (toLe 4 t.nPrompt.toNat ++ (toLe 4 t.nPos.toNat ++ (toLe 1 t.stage.toNat ++
    t.tokensRoot.elim [] Vector.toList)))

def fromBytes (b : List UInt8) : Option TraceCommitment :=
  if b.length ≠ aiResponseTraceLen ∧ b.length ≠ aiResponseTraceTokensLen then none
  else
    some {
      traceRoot := bytesAt 32 b 0
      nPrompt := .ofNat (leAt 4 b 32)
      nPos := .ofNat (leAt 4 b 36)
      stage := .ofNat (leAt 1 b 40)
      tokensRoot := if b.length = aiResponseTraceTokensLen then some (bytesAt 32 b 41) else none }

end TraceCommitment

structure AiResponsePayload where
  requestHash : Bytes32
  challengeWindowEnd : UInt64
  responseIpfsCid : Vector UInt8 34
  responseLength : UInt32
  /-- `none` for a payload of the first version. -/
  responder : Option AiResponder
  privateBody : Option (List UInt8)
  trace : Option TraceCommitment
  deriving DecidableEq

namespace AiResponsePayload

variable (p : AiResponsePayload)

/-- The fixed 78-byte head. -/
def v1Bytes : List UInt8 :=
  p.requestHash.toList ++ (toLe 8 p.challengeWindowEnd.toNat ++ (p.responseIpfsCid.toList ++
    toLe 4 p.responseLength.toNat))

/-- Empty without a body; a trace is only written after one. -/
def extensionBytes : List UInt8 :=
  match p.privateBody with
  | some body =>
    aiResponseExtPrivateBody :: (toLe 4 body.length ++ (body ++ p.trace.elim [] fun t =>
      aiResponseExtTrace :: (toLe 4 t.len ++ t.toBytes)))
  | none => []

/-- The message covered by the responder's signature. -/
def signedBytes : List UInt8 := p.v1Bytes ++ p.extensionBytes

def responderBytes : List UInt8 :=
  p.responder.elim [] fun r => r.escrowPubkey.toList ++ r.signature.toList

def serialize : List UInt8 := p.v1Bytes ++ (p.responderBytes ++ p.extensionBytes)

/-- The trace in the bytes behind the body; all of them are accounted for. -/
def readTrace (rest : List UInt8) : Option (Option TraceCommitment) :=
  if rest = [] then some none
  else if rest.length < aiResponseExtHeaderLen then none
  else
    let n := rest.length - aiResponseExtHeaderLen
    if (n ≠ aiResponseTraceLen ∧ n ≠ aiResponseTraceTokensLen) ∨
        rest.head? ≠ some aiResponseExtTrace ∨ leAt 4 rest 1 ≠ n then none
    else (TraceCommitment.fromBytes (rest.drop aiResponseExtHeaderLen)).map some

/-- The body and the trace in the bytes behind the signature. -/
def readExtension (ext : List UInt8) : Option (List UInt8 × Option TraceCommitment) :=
  if ext.length < aiResponseExtHeaderLen ∨ ext.head? ≠ some aiResponseExtPrivateBody then none
  else
    let len := leAt 4 ext 1
    let bodyEnd := aiResponseExtHeaderLen + len
    if len = 0 ∨ maxAiResponsePrivateBodyLen < len ∨ ext.length < bodyEnd then none
    else
      (readTrace (ext.drop bodyEnd)).map fun trace =>
        ((ext.take bodyEnd).drop aiResponseExtHeaderLen, trace)

/-- The head, and the responder of a second version. -/
def readHead (data : List UInt8) : AiResponsePayload where
  requestHash := bytesAt 32 data 0
  challengeWindowEnd := .ofNat (leAt 8 data 32)
  responseIpfsCid := bytesAt 34 data 40
  responseLength := .ofNat (leAt 4 data 74)
  responder :=
    if aiResponsePayloadV2Len ≤ data.length then some ⟨bytesAt 32 data 78, bytesAt 64 data 110⟩
    else none
  privateBody := none
  trace := none

def deserialize (data : List UInt8) : Option AiResponsePayload :=
  let hasResponder := aiResponsePayloadV2Len ≤ data.length
  if ¬hasResponder ∧ data.length ≠ aiResponsePayloadLen then none
  else
    let head := readHead data
    if aiResponsePayloadV2Len < data.length then
      (readExtension (data.drop aiResponsePayloadV2Len)).map fun (body, trace) =>
        { head with privateBody := some body, trace }
    else some head

end AiResponsePayload

end KeryxMiner.Private
