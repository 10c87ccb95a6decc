import KeryxMiner.Blocks
import KeryxMiner.Outcome
import KeryxMiner.Engine.SeqSpec
import KeryxMiner.Inference.Draws

/-!
# Traced runs

The traced generation and its replays, as the batches they feed to the backend: the prompt in batches
of `TRACE_UBATCH` tokens and each token behind it in a batch of its own, every batch announced with
the size that the node expects of its positions.
-/

namespace KeryxMiner.Engine

open Inference (expectedUbatch)

/-- A token of a batch, its position as llama.cpp takes it, and whether it produces logits. -/
structure BatchToken where
  token : Int32
  pos : Int32
  logits : Bool
deriving DecidableEq

/-- A decoded batch, with the base and the committed batch size it was announced with. -/
structure TracedBatch where
  base : UInt32
  declared : UInt32
  tokens : List BatchToken
deriving DecidableEq

inductive TraceError where
  | promptTooLong (tokens : Nat) (ctxCap : UInt32)
  | invalidReplay
  | doesNotFit (tokens nPrompt : Nat) (nCtx : UInt32)
  | captureOfPosition
  | captureOfLeaf (nl : Nat)
  | noSeqLeaves
  | seqLeafPast (nLeaves : Nat)
  | keepsNamedOnly
  | vocabulary (id : Int32)
  | straddles (base : Nat)
  | backend (message : String)
deriving DecidableEq

/-- What the model, the sampler and the backend answer in one run; the sampled token and the refusal
of a batch depend on what was decoded before. -/
structure Backend where
  nVocab : Int32
  sample : List TracedBatch → Int32
  isEog : Int32 → Bool
  tokenToPiece : Int32 → List UInt8
  padToken : Int32
  /-- The leaves of a position and the sequence layout of the configured trace. -/
  traceLeaves : Except String (Nat × Option SeqSpec)
  begin : Except String Unit
  refuses : List TracedBatch → TracedBatch → Option String
  finish : List TracedBatch → Option String

/-- The batches decoded by a run, and how it ended. -/
structure Traced (α : Type) where
  batches : List TracedBatch
  result : Except TraceError α

/-- What a loop of a run has: the tokens fed, the bytes answered and the batches decoded. -/
structure Progress where
  fed : List Int32
  out : List UInt8
  batches : List TracedBatch

def REPLAY_MAX_CAPTURES : Nat := 32

def CAPTURE_CAP : Nat := 4 <<< 20

def PROMPT_MARGIN : Nat := 16

/-! ## Batches -/

/-- How many batches of `TRACE_UBATCH` tokens there are, the last one not full. -/
def nChunks (n : Nat) : Nat := (n + TRACE_UBATCH - 1) / TRACE_UBATCH

def batchTokens (base : Nat) (logitsAt : Option Nat) (chunk : List Int32) : List BatchToken :=
  chunk.zipIdx.map fun (token, j) => ⟨token, Int32.ofNat (base + j), some (base + j) = logitsAt⟩

/-- The batches from number `c` on. -/
def feedLoop (B : Backend) (tokens : List Int32) (start : Nat) (logitsAt : Option Nat)
    (nPrompt : UInt32) : List Nat → List TracedBatch → List TracedBatch × Option TraceError
  | [], batches => (batches, none)
  | c :: cs, batches =>
    let chunk := block TRACE_UBATCH tokens c
    let base := start + c * TRACE_UBATCH
    let declared := expectedUbatch base nPrompt
    let last := expectedUbatch (base + chunk.length - 1) nPrompt
    if last ≠ declared ∨ declared.toNat < chunk.length then (batches, some (.straddles base))
    else
      let batch := ⟨UInt32.ofNat base, declared, batchTokens base logitsAt chunk⟩
      match B.refuses batches batch with
      | some message => (batches, some (.backend message))
      | none => feedLoop B tokens start logitsAt nPrompt cs (batches ++ [batch])

def feedTraced (B : Backend) (batches : List TracedBatch) (tokens : List Int32) (start : Nat)
    (logitsAt : Option Nat) (nPrompt : Nat) : List TracedBatch × Option TraceError :=
  feedLoop B tokens start logitsAt (UInt32.ofNat (min nPrompt (2 ^ 32 - 1)))
    (List.range (nChunks tokens.length)) batches

/-! ## The traced generation -/

/-- At most so many sampled tokens, up to the end of the answer. -/
def sampleLoop (B : Backend) (nPrompt : Nat) : Nat → Progress → Progress × Option TraceError
  | 0, p => (p, none)
  | budget + 1, p =>
    let token := B.sample p.batches
    if B.isEog token then (p, none)
    else
      let fed := p.fed ++ [token]
      let r := feedTraced B p.batches [token] (fed.length - 1) (some (fed.length - 1)) nPrompt
      let p := ⟨fed, p.out ++ B.tokenToPiece token, r.1⟩
      match r.2 with
      | some e => (p, some e)
      | none => sampleLoop B nPrompt budget p

/-- Padding tokens until `need` positions were generated or the context is full. -/
def padLoop (B : Backend) (nPrompt nCtx need : Nat) (p : Progress) : Progress × Option TraceError :=
  if p.fed.length - nPrompt < need ∧ p.fed.length + 1 < nCtx then
    let fed := p.fed ++ [B.padToken]
    let r := feedTraced B p.batches [B.padToken] (fed.length - 1) (some (fed.length - 1)) nPrompt
    match r.2 with
    | some e => (⟨fed, p.out, r.1⟩, some e)
    | none => padLoop B nPrompt nCtx need ⟨fed, p.out, r.1⟩
  else (p, none)
termination_by nCtx - p.fed.length
decreasing_by
  rw [List.length_append, List.length_singleton]
  omega

structure TracedGeneration where
  out : List UInt8
  tokens : List Int32
  nPrompt : UInt32
  nPos : UInt32

/-- `toks.resize` where the prompt is shorter than `min_prompt` positions. -/
def padPrompt (B : Backend) (toks : List Int32) (minPrompt : UInt32) : List Int32 :=
  toks ++ List.replicate (minPrompt.toNat - toks.length) B.padToken

/-- The run of `generate_traced`, from the prompt's tokens on. -/
def generateRun (B : Backend) (toks : List Int32) (maxTokens : Nat) (answerBytesPerPosition : UInt32)
    (nCtx : UInt32) : Progress × Option TraceError :=
  let nPrompt := toks.length
  let prompt := feedTraced B [] toks 0 (some (nPrompt - 1)) nPrompt
  match prompt.2 with
  | some e => (⟨toks, [], prompt.1⟩, some e)
  | none =>
    let budget := min maxTokens (nCtx.toNat - (nPrompt + 1))
    let answer := sampleLoop B nPrompt budget ⟨toks, [], prompt.1⟩
    match answer.2 with
    | some e => (answer.1, some e)
    | none =>
      if 0 < answerBytesPerPosition then
        let need := min (answer.1.out.length / answerBytesPerPosition.toNat) maxTokens
        padLoop B nPrompt nCtx.toNat need answer.1
      else answer

/-- `generate_traced` for the tokens of a prompt; `nCtx` sizes the context from their number. -/
def generateTraced (B : Backend) (toks : List Int32) (maxTokens : Nat)
    (minPrompt answerBytesPerPosition : UInt32) (nCtx : Nat → UInt32) : Traced TracedGeneration :=
  let toks := padPrompt B toks minPrompt
  let nPrompt := toks.length
  let nCtx := nCtx nPrompt
  if nCtx.toNat < nPrompt + PROMPT_MARGIN then ⟨[], .error (.promptTooLong nPrompt nCtx)⟩
  else
    match B.traceLeaves, B.begin with
    | .error message, _ => ⟨[], .error (.backend message)⟩
    | _, .error message => ⟨[], .error (.backend message)⟩
    | .ok _, .ok _ =>
      let run := generateRun B toks maxTokens answerBytesPerPosition nCtx
      match run.2 with
      | some e => ⟨run.1.batches, .error e⟩
      | none =>
        match B.finish run.1.batches with
        | some message => ⟨run.1.batches, .error (.backend message)⟩
        | none => ⟨run.1.batches, .ok ⟨run.1.out, run.1.fed, UInt32.ofNat nPrompt,
            UInt32.ofNat run.1.fed.length⟩⟩

/-! ## The replays -/

/-- Token ids from the miner, checked against the vocabulary. -/
def vocabTokens (B : Backend) : List Int32 → Except TraceError (List Int32)
  | [] => .ok []
  | id :: ids => if 0 ≤ id ∧ id < B.nVocab then (id :: ·) <$> vocabTokens B ids
    else .error (.vocabulary id)

/-- The generated positions, one by one. -/
def replayLoop (B : Backend) (toks : List Int32) (nPrompt : Nat) :
    List Nat → List TracedBatch → List TracedBatch × Option TraceError
  | [], batches => (batches, none)
  | p :: ps, batches =>
    let r := feedTraced B batches ((toks.drop p).take 1) p (some p) nPrompt
    match r.2 with
    | some e => (r.1, some e)
    | none => replayLoop B toks nPrompt ps r.1

/-- A prompt up to `promptEnd`, then the positions from `nPrompt` on and below `stop`. -/
def replayRun (B : Backend) (toks : List Int32) (nPrompt promptEnd stop : Nat) :
    List TracedBatch × Option TraceError :=
  let prompt := feedTraced B [] (toks.take promptEnd) 0 (some (nPrompt - 1)) nPrompt
  match prompt.2 with
  | some e => (prompt.1, some e)
  | none => replayLoop B toks nPrompt (List.range' nPrompt (stop - nPrompt)) prompt.1

/-- Where the prompt of a replay ends: with the batch of the last capture. -/
def promptEnd (nPrompt last : Nat) : Nat :=
  if last < nPrompt then min nPrompt ((last / TRACE_UBATCH + 1) * TRACE_UBATCH) else nPrompt

/-- A run that has begun, and its end. -/
def Backend.replay (B : Backend) (run : List TracedBatch × Option TraceError) : Traced Unit :=
  match B.begin with
  | .error message => ⟨[], .error (.backend message)⟩
  | .ok _ =>
    match run.2 with
    | some e => ⟨run.1, .error e⟩
    | none =>
      match B.finish run.1 with
      | some message => ⟨run.1, .error (.backend message)⟩
      | none => ⟨run.1, .ok ()⟩

/-- The last captured position. -/
def lastCapture (caps : List (UInt32 × UInt32)) : Nat := (caps.map (·.1.toNat)).foldl max 0

/-- What `replay_multi` checks before the run. -/
def multiRequest (B : Backend) (tokens : List Int32) (nPrompt : Nat) (caps : List (UInt32 × UInt32))
    (slotBytes : Nat) (nCtx : UInt32) : Except TraceError (List Int32) := do
  refuse (caps = [] ∨ REPLAY_MAX_CAPTURES < caps.length ∨ slotBytes = 0 ∨ CAPTURE_CAP < slotBytes ∨
    slotBytes % 4 ≠ 0) .invalidReplay
  refuse (nPrompt = 0 ∨ tokens.length < nPrompt ∨ nCtx.toNat < tokens.length)
    (.doesNotFit tokens.length nPrompt nCtx)
  refuse (tokens.length ≤ lastCapture caps) .captureOfPosition
  let toks ← vocabTokens B tokens
  let trace ← B.traceLeaves.mapError .backend
  refuse (∃ cap ∈ caps, trace.1 ≤ cap.2.toNat) (.captureOfLeaf trace.1)
  return toks

/-- `replay_multi`, without the captured bytes. -/
def replayMulti (B : Backend) (tokens : List Int32) (nPrompt : UInt32)
    (caps : List (UInt32 × UInt32)) (slotBytes : Nat) (nCtx : UInt32) : Traced Unit :=
  let nPrompt := nPrompt.toNat
  let last := lastCapture caps
  match multiRequest B tokens nPrompt caps slotBytes nCtx with
  | .error e => ⟨[], .error e⟩
  | .ok toks => B.replay (replayRun B toks nPrompt (promptEnd nPrompt last) (last + 1))

/-- What `replay_seq` checks before the run. -/
def seqRequest (B : Backend) (tokens : List Int32) (nPrompt : Nat) (nCtx : UInt32)
    (leaves : List UInt32) : Except TraceError (List Int32 × SeqSpec) := do
  refuse (nPrompt = 0 ∨ tokens.length < nPrompt ∨ nCtx.toNat < tokens.length)
    (.doesNotFit tokens.length nPrompt nCtx)
  let toks ← vocabTokens B tokens
  let trace ← B.traceLeaves.mapError .backend
  let spec ← orFail trace.2 .noSeqLeaves
  refuse (∃ l ∈ leaves, spec.nLeaves ≤ l.toNat) (.seqLeafPast spec.nLeaves)
  return (toks, spec)

/-- `replay_seq`, without the leaves it returns. -/
def replaySeq (B : Backend) (tokens : List Int32) (nPrompt nCtx : UInt32) (leaves : List UInt32) :
    Traced Unit :=
  let nPrompt := nPrompt.toNat
  match seqRequest B tokens nPrompt nCtx leaves with
  | .error e => ⟨[], .error e⟩
  | .ok (toks, spec) =>
    let run := B.replay (replayRun B toks nPrompt nPrompt toks.length)
    match run.result with
    | .error e => ⟨run.batches, .error e⟩
    | .ok _ => if leaves = [] ∧ 0 < spec.nRecur then ⟨run.batches, .error .keepsNamedOnly⟩ else run

end KeryxMiner.Engine
