import Mathlib.Data.List.AList
import Mathlib.Data.Finset.Card
import KeryxMiner.Text
import KeryxMiner.Table

/-!
# Traced responses of the solo client

A response with a trace is kept from its submission until its draw is settled and its opening window
closes. The draw is seeded by a block of the selected chain, which the client looks up in its log of
the chain (`seedBlockAfter`); after a restart the log is rebuilt from segments of the chain
(`placeChainAfter`).
-/

namespace KeryxMiner.Trace

open Text

/-! ## Constants -/

/-- DAA between a response's acceptance and the chain block that seeds its draw. -/
def traceSeedDelayDaa := 100
def aiBackfillWindowDaa := 6000
def traceUnauditedGraceDaa := 600
def chainLogTail := 512
def chainRestoreInflight := 8
def chainRestoreMaxFailures := 3
def replayMaxFailures := 2
def builtOpeningsKept := 4
def openingNotAwaitedMaxAttempts := 5
def aiResponseRetrySecs := 3
def aiResponseMaxAttempts := 100

/-- `opening_window_daa`. -/
def openingWindowDaa (tier : Nat) (maxTokens : Nat) : Nat :=
  let perTokenDaa := if tier ≤ 2 then 2 else if tier = 3 then 3 else 4
  3000 + min maxTokens 4096 * perTokenDaa

/-- What the client calls outside its own source: the hash and the draw of a seed, the signature of
an opening and the id of the transaction that carries it; and the DAA scores of the node's blocks,
which the `GetBlock` answers report. -/
structure Externals where
  daaScore : String → Nat
  traceSeed : (seedBlockHash responseTxid : List UInt8) → List UInt8
  drawAudited : (seed : List UInt8) → Bool
  traceAuditActivationDaa : Nat
  traceSeedBindActivationDaa : Nat
  seeded : (body seedBlockHash : List UInt8) → Option (List UInt8)
  /-- `none` without an escrow key. -/
  signOpening : (body : List UInt8) → Option String
  openingTxid : (payload : String) → Option String

/-- `hash32`. -/
def hash32 (text : String) : Option (List UInt8) :=
  match hexDecode text with
  | .ok bytes => if bytes.length = 32 then some bytes else none
  | .error _ => none

/-! ## Data -/

structure TraceDraw where
  seedHash : String
  seedDaa : Nat
  seed : List UInt8
  audited : Bool
  deadlineDaa : Nat
  opened : Bool
  replayFailures : Nat
  deriving DecidableEq

structure StoredOpening where
  seedHash : String
  deadlineDaa : Nat
  payload : String
  deriving DecidableEq

structure PendingTrace where
  tier : Nat
  maxTokens : Nat
  submittedDaa : Nat
  acceptedHash : Option String
  draw : Option TraceDraw
  opening : Option StoredOpening
  built : List (String × List UInt8)
  reorgs : Nat
  deriving DecidableEq

/-- The file of a trace. -/
structure StoredTrace where
  tier : Nat
  maxTokens : Nat
  submittedDaa : Nat
  acceptedHash : Option String
  opening : Option StoredOpening
  deriving DecidableEq

def PendingTrace.stored (p : PendingTrace) : StoredTrace :=
  ⟨p.tier, p.maxTokens, p.submittedDaa, p.acceptedHash, p.opening⟩

def StoredTrace.restored (t : StoredTrace) : PendingTrace where
  tier := t.tier
  maxTokens := t.maxTokens
  submittedDaa := t.submittedDaa
  acceptedHash := t.acceptedHash
  draw := none
  opening := t.opening
  built := []
  reorgs := 0

/-- A response just submitted. -/
def PendingTrace.submitted (tier maxTokens submittedDaa : Nat) : PendingTrace where
  tier := tier
  maxTokens := maxTokens
  submittedDaa := submittedDaa
  acceptedHash := none
  draw := none
  opening := none
  built := []
  reorgs := 0

/-- The removal of `removed` takes back the acceptance or the draw. -/
def PendingTrace.resets (p : PendingTrace) (removed : List String) : Bool :=
  p.acceptedHash.any (· ∈ removed) || p.draw.any (·.seedHash ∈ removed)

def PendingTrace.reset (p : PendingTrace) (removed : List String) : PendingTrace :=
  if p.resets removed then
    { p with
      acceptedHash := if p.acceptedHash.any (· ∈ removed) then none else p.acceptedHash
      draw := none
      opening := none
      reorgs := p.reorgs + 1 }
  else p

/-- The trace is kept at DAA `daa`. -/
def PendingTrace.wanted (p : PendingTrace) (daa : Nat) : Bool :=
  match p.draw with
  | none => p.acceptedHash.isSome || p.submittedDaa + aiBackfillWindowDaa > daa
  | some d => if d.audited then daa ≤ d.deadlineDaa else d.seedDaa + traceUnauditedGraceDaa > daa

/-- The draw waits for an opening. -/
def PendingTrace.toOpen (p : PendingTrace) : Bool :=
  p.draw.any fun d => d.audited && !d.opened

/-- The opening which was built for the current seed block already. -/
def PendingTrace.ready (p : PendingTrace) : Option (String × List UInt8) :=
  p.draw.bind fun d =>
    if d.audited && !d.opened then p.built.find? (·.1 = d.seedHash) else none

def PendingTrace.markOpened (p : PendingTrace) : PendingTrace :=
  { p with draw := p.draw.map fun d => { d with opened := true } }

structure ReplayJob where
  responseTxid : String
  seedHash : String
  deriving DecidableEq

structure OpeningInflight where
  payload : String
  responseTxid : String
  deadlineDaa : Nat
  attempts : Nat
  /-- In milliseconds. -/
  last : Nat
  /-- The seed block it was built for, which the source does not keep here. -/
  seedHash : String
  deriving DecidableEq

/-! ## The chain log -/

structure ChainEntry where
  hash : String
  daa : Option Nat
  deriving DecidableEq

/-- The loop of `seed_block_after` over the blocks behind the accepting one. -/
def seedScan (acceptedDaa : Nat) : List ChainEntry → Option (String × Nat)
  | [] => none
  | e :: es =>
    match e.daa with
    | none => none
    | some daa =>
      if daa ≥ acceptedDaa + traceSeedDelayDaa then some (e.hash, daa) else seedScan acceptedDaa es

/-- The seed block of a response accepted by `accepted`, its DAA score and the accepting block's. -/
def seedBlockAfter (log : List ChainEntry) (accepted : String) : Option (String × Nat × Nat) :=
  match log.dropWhile (·.hash != accepted) with
  | [] => none
  | start :: rest =>
    match start.daa with
    | none => none
    | some acceptedDaa =>
      (seedScan acceptedDaa rest).map fun (hash, daa) => (hash, daa, acceptedDaa)

/-- The entries for `added`; the score of a block which was logged is used once. -/
def placedEntries (known : String → Option Nat) : List String → List ChainEntry
  | [] => []
  | hash :: hashes => ⟨hash, known hash⟩ :: placedEntries (Function.update known hash none) hashes

/-- Puts `added`, the chain after `start`, behind `start` or, when `start` is not logged, at the end
of the log; blocks logged elsewhere are moved. The second component are the placed blocks without a
score. -/
def placeChainAfter (log : List ChainEntry) (start : String) (added : List String) :
    List ChainEntry × List String :=
  let kept := log.filter (·.hash ∉ added)
  let known : String → Option Nat := fun hash =>
    (log.reverse.find? (·.hash == hash)).bind (·.daa)
  let place :=
    match log.findIdx? (·.hash == start) with
    | none => kept.length
    | some pos =>
      if start ∈ added then 0 else ((log.take (pos + 1)).filter (·.hash ∉ added)).length
  let entries := placedEntries known added
  (kept.take place ++ entries ++ kept.drop place,
    (entries.filter (·.daa.isNone)).map (·.hash))

end KeryxMiner.Trace
