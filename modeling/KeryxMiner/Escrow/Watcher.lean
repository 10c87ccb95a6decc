import KeryxMiner.Escrow.Claim
import KeryxMiner.Escrow.Select
import Mathlib.Logic.Function.Basic

/-!
# The escrow watcher

The methods of `EscrowWatcher` in `escrow.rs`. A method that may write to disk acts on `Sys`, the
watcher with its stored state; what the process does not decide (the clock, the outcome of a write,
the order in which a hash map lists its keys) is an argument.

The stored state is kept by lines: the file formats and torn writes are the subject of
`KeryxMiner.Escrow.Journal`.
-/

namespace KeryxMiner.Escrow

/-- The stored state: the snapshot, if one was written, and the readable journal lines. -/
structure Store where
  snapshot : Option EscrowState
  journal : List JournalLine
  deriving DecidableEq, Repr

/-- Outcome of `save_state_atomic`: it fails before the new snapshot is in place, or with the
journal not emptied, or not at all. -/
inductive SaveResult
  | untouched
  | replaced
  | saved
  deriving DecidableEq, Repr

/-- Outcome of appending to the journal: which lines, the old ones first, are readable afterwards,
and whether the write returned `Ok`. -/
structure AppendResult where
  keep : List Bool
  ok : Bool
  deriving DecidableEq, Repr

/-- What a flush depends on. -/
structure Io where
  now : Nat
  save : SaveResult
  append : AppendResult
  deriving DecidableEq, Repr

/-- Configuration of the process: the escrow key pair and the decoded payout address. -/
structure Keys where
  secretKey : List UInt8
  pubkeyBytes : List UInt8
  payoutSpkVersion : Nat
  payoutSpkBytes : List UInt8
  deriving DecidableEq, Repr

/-- The watcher and its stored state. -/
structure Sys where
  keys : Keys
  w : EscrowWatcher
  store : Store

def keepLines (keep : List Bool) (lines : List JournalLine) : List JournalLine :=
  ((lines.zip keep).filter (·.2)).map (·.1)

def Store.save (st : Store) (state : EscrowState) : SaveResult → Store
  | .untouched => st
  | .replaced => { st with snapshot := some state }
  | .saved => ⟨some state, []⟩

def Store.append (st : Store) (pending : List JournalLine) (r : AppendResult) : Store :=
  { st with journal := keepLines r.keep (st.journal ++ pending) }

/-! ## Loading -/

/-- The variables of the replay loop: the state and the outpoint index into its entries. -/
structure Replay where
  state : EscrowState
  index : String → Option Nat

def Replay.start (state : EscrowState) : Replay where
  state := state
  index := state.entries.zipIdx.foldl (fun m p => Function.update m p.1.key (some p.2)) fun _ => none

/-- One readable journal line: stale, or it upserts the entry of its outpoint. -/
def Replay.line (r : Replay) (l : JournalLine) : Replay :=
  if l.s ≤ r.state.journalSeq then r
  else
    match r.index l.e.key with
    | some i => { r with state := ⟨r.state.entries.set i l.e, l.s⟩ }
    | none =>
      ⟨⟨r.state.entries ++ [l.e], l.s⟩,
        Function.update r.index l.e.key (some r.state.entries.length)⟩

/-- `replay_journal` over the readable lines. -/
def replayJournal (lines : List JournalLine) (state : EscrowState) : EscrowState :=
  (lines.foldl Replay.line (.start state)).state

def loadState (st : Store) : EscrowState :=
  replayJournal st.journal (st.snapshot.getD .empty)

namespace EscrowWatcher

def pushIndex (m : String → Option (List Nat)) (hash : String) (i : Nat) : String → Option (List Nat) :=
  Function.update m hash (some ((m hash).getD [] ++ [i]))

/-- The block index of an entry list. -/
def indexBlocks (es : List EscrowEntry) : String → Option (List Nat) :=
  es.zipIdx.foldl (fun m p => if p.1.blockHash = "" then m else pushIndex m p.1.blockHash p.2)
    fun _ => none

/-- (Re)build the lookup indexes from the entries. -/
def rebuildIndexes (w : EscrowWatcher) : EscrowWatcher :=
  { w with
    outpointSet := (w.entries.map (·.key)).toFinset
    blockIndex := indexBlocks w.entries }

def new (k : Keys) (state : EscrowState) (now : Nat) : EscrowWatcher :=
  rebuildIndexes {
    secretKey := k.secretKey
    pubkeyBytes := k.pubkeyBytes
    escrowScriptHex := Text.hexEncode (buildEscrowScript k.pubkeyBytes challengeWindowBlocks)
    escrowScriptBondedHex := Text.hexEncode (buildEscrowScript k.pubkeyBytes serviceBondCsvWindowBlocks)
    payoutSpkVersion := k.payoutSpkVersion
    payoutSpkScript := buildP2pkScript k.payoutSpkBytes
    payoutSpkScriptHex := Text.hexEncode (buildP2pkScript k.payoutSpkBytes)
    state := state
    inFlight := ∅
    inFlightOutpoints := ∅
    lastDaaScore := 0
    outpointSet := ∅
    blockIndex := fun _ => none
    journalPending := []
    journalSeq := state.journalSeq
    journalBytesSinceSnapshot := 0
    lastJournalWrite := now
    snapshotDue := false
    lastSnapshot := now
    blocksSinceCompact := 0
    blocksSinceStatus := 0
    validationPending := []
    validationPurged := 0
    validationUnknown := 0 }

def appendJournalLine (w : EscrowWatcher) (e : EscrowEntry) : EscrowWatcher :=
  { w with
    journalSeq := w.journalSeq + 1
    journalPending := w.journalPending ++ [⟨w.journalSeq + 1, e⟩] }

/-- Drop done entries and rebuild the indexes. -/
def compact (w : EscrowWatcher) : EscrowWatcher :=
  let kept := w.entries.filter (·.live)
  if kept.length ≠ w.entries.length then
    { (w.setEntries kept).rebuildIndexes with snapshotDue := true }
  else w

/-- Length in bytes of the pending journal lines. -/
def pendingBytes (X : Externals) (w : EscrowWatcher) : Nat :=
  (w.journalPending.map fun l => (X.encodeLine l).length + 1).sum

/-- Marks the entry at `i` slashed and journals it, when it passes `ok`. -/
def slashAt (ok : EscrowEntry → Bool) (w : EscrowWatcher) (i : Nat) : EscrowWatcher :=
  match w.entries[i]? with
  | none => w
  | some e =>
    if ok e then
      (w.setEntries (w.entries.set i { e with slashed := true })).appendJournalLine
        { e with slashed := true }
    else w

/-- A coinbase entry the red-set sweep may slash. -/
def sweepable (e : EscrowEntry) : Bool := e.live && !e.isInference && e.blockHash != ""

/-- The red-set sweep of `handle_block`. -/
def slashReds (w : EscrowWatcher) (redsHashes : List String) : EscrowWatcher :=
  redsHashes.foldl (fun w redHash =>
    match w.blockIndex redHash with
    | none => w
    | some indices =>
      indices.foldl (slashAt sweepable) w) w

/-- The csv window of an output that pays one of our escrow scripts. -/
def paysEscrow (w : EscrowWatcher) (output : RpcTransactionOutput) : Option Nat :=
  match output.scriptPublicKey with
  | none => none
  | some spk =>
    if spk.version = 0 then
      let script := spk.scriptPublicKey.toLower
      if script = w.escrowScriptHex then some challengeWindowBlocks
      else if script = w.escrowScriptBondedHex then some serviceBondCsvWindowBlocks
      else none
    else none

/-- The entry of a newly seen escrow output. -/
def freshEntry (txid blockHash : String) (daaScore amount : Nat) (index : UInt32)
    (isInference : Bool) (csvWindow : Nat) : EscrowEntry where
  coinbaseTxid := txid
  blockHash := blockHash
  confirmDaa := daaScore
  amountSompi := amount
  outputIndex := index
  claimed := false
  slashed := false
  orphanSlashed := false
  orphanRetries := 0
  orphanRetryAfterDaa := none
  submitRetries := 0
  batchCap := 0
  capSetDaa := 0
  isInference := isInference
  csvWindow := csvWindow

/-- Appends a fresh entry, with its outpoint, block index and journal line. -/
def track (w : EscrowWatcher) (e : EscrowEntry) : EscrowWatcher :=
  { (w.setEntries (w.entries ++ [e])).appendJournalLine e with
    outpointSet := insert e.key w.outpointSet
    blockIndex := if e.blockHash = "" then w.blockIndex
      else pushIndex w.blockIndex e.blockHash w.entries.length }

/-- One output of a coinbase; an output index fits in 32 bits. -/
def trackOutput (txid blockHash : String) (daaScore : Nat) (w : EscrowWatcher)
    (out : RpcTransactionOutput × Nat) : EscrowWatcher :=
  match w.paysEscrow out.1 with
  | none => w
  | some csvWindow =>
    let e := freshEntry txid blockHash daaScore out.1.amount (UInt32.ofNat out.2) false csvWindow
    if e.key ∈ w.outpointSet then w else w.track e

/-- The coinbase of a block: its first transaction without inputs, and that transaction's id. -/
def coinbaseOf (block : RpcBlock) : Option (String × List RpcTransactionOutput) :=
  match block.transactions.find? (·.inputs.isEmpty) with
  | none => none
  | some coinbase =>
    match coinbase.transactionId with
    | none => none
    | some txid => if txid = "" then none else some (txid, coinbase.outputs)

/-- Track the outputs of a chain block's coinbase which pay our escrow script. -/
def trackBlockEscrows (w : EscrowWatcher) (block : RpcBlock) (daaScore : Nat) (blockHash : String) :
    EscrowWatcher :=
  match coinbaseOf block with
  | none => w
  | some (txid, outputs) => outputs.zipIdx.foldl (trackOutput txid blockHash daaScore) w

def unwatch (w : EscrowWatcher) (outpoints : List Outpoint) : EscrowWatcher :=
  { w with inFlightOutpoints := outpoints.foldl (fun s o => s.erase o.key) w.inFlightOutpoints }

/-- Takes a claim out of the claims in flight, with its outpoints. -/
def dropClaim (w : EscrowWatcher) (txid : String) : EscrowWatcher :=
  match w.inFlight.lookup txid with
  | none => w
  | some claim => { w with inFlight := w.inFlight.erase txid }.unwatch claim.outpoints

/-- Release in-flight claims whose response never arrived. -/
def expireInFlight (w : EscrowWatcher) (daaScore : Nat) : EscrowWatcher :=
  let expired := w.inFlight.keys.filter fun txid =>
    match w.inFlight.lookup txid with
    | none => false
    | some c => decide (daaScore ≥ c.submitDaa + claimResponseTimeoutDaa)
  expired.foldl dropClaim w

/-- A bisection cap not confirmed for `capExpiryDaa`. -/
def capExpired (daaScore : Nat) (e : EscrowEntry) : Bool :=
  e.batchCap != 0 && decide (daaScore ≥ e.capSetDaa + capExpiryDaa)

/-- An orphan-death verdict past its holdoff, which doubles with every solo rejection. -/
def forgiven (daaScore : Nat) (e : EscrowEntry) : Bool :=
  let holdoff := min (capExpiryDaa * 2 ^ min e.orphanRetries 10) u64Max
  e.orphanSlashed && match e.orphanRetryAfterDaa with
    | none => true
    | some retryDaa => decide (daaScore ≥ min (retryDaa + holdoff) u64Max)

/-- Drops the repair verdicts that expire at `daaScore`. -/
def heal (daaScore : Nat) (e : EscrowEntry) : EscrowEntry :=
  { e with
    batchCap := if capExpired daaScore e then 0 else e.batchCap
    orphanSlashed := e.orphanSlashed && !forgiven daaScore e }

def healVerdicts (w : EscrowWatcher) (daaScore : Nat) : EscrowWatcher :=
  let healed := w.entries.filter fun e => capExpired daaScore e || forgiven daaScore e
  (healed.map (heal daaScore)).foldl appendJournalLine (w.setEntries (w.entries.map (heal daaScore)))

/-- Ships the claim of a batch of entries. -/
def ship (w : EscrowWatcher) (daaScore : Nat) (claimTxid : String) (batch : List EscrowEntry) :
    EscrowWatcher :=
  let outpoints := batch.map (·.outpoint)
  { w with
    inFlightOutpoints := outpoints.foldl (fun s o => insert o.key s) w.inFlightOutpoints
    inFlight := w.inFlight.insert claimTxid ⟨outpoints, daaScore⟩ }

/-- Scan for matured, eligible entries and build a batched claim. -/
def findClaim (X : Externals) (w : EscrowWatcher) (daaScore : Nat) :
    EscrowWatcher × Option RpcTransaction :=
  if w.inFlight.keys.length ≥ maxInFlightClaims then (w, none)
  else if w.validationPending ≠ [] then (w, none)
  else
    let w := w.healVerdicts daaScore
    let batch := (selectClaimBatch X w.entries daaScore w.inFlightOutpoints).filterMap (w.entries[·]?)
    if batch = [] then (w, none)
    else
      match w.buildClaimTx X batch with
      | .ok (claimTxid, tx) => (w.ship daaScore claimTxid batch, some tx)
      | .error _ => (w, none)

/-! ## Responses -/

/-- The entry of an outpoint: the first one. -/
def findEntry (es : List EscrowEntry) (o : Outpoint) : Option Nat :=
  es.findIdx? fun e => e.coinbaseTxid == o.1 && e.outputIndex == o.2

/-- Applies `f` to the entry of an outpoint and journals it. -/
def updateEntry (f : EscrowEntry → EscrowEntry) (w : EscrowWatcher) (o : Outpoint) : EscrowWatcher :=
  match findEntry w.entries o with
  | none => w
  | some i =>
    match w.entries[i]? with
    | none => w
    | some e => (w.setEntries (w.entries.set i (f e))).appendJournalLine (f e)

def claimEntry (e : EscrowEntry) : EscrowEntry := { e with claimed := true }

/-- The amount that marking the entry of `o` adds to the claimed total. -/
def newlyClaimed (w : EscrowWatcher) (o : Outpoint) : Nat :=
  match (findEntry w.entries o).bind (w.entries[·]?) with
  | none => 0
  | some e => if e.claimed then 0 else e.amountSompi

/-- Mark the entries of the outpoints as claimed; the second component is the amount newly marked. -/
def markEntriesClaimed (w : EscrowWatcher) (outpoints : List Outpoint) : EscrowWatcher × Nat :=
  outpoints.foldl (fun p o => (p.1.updateEntry claimEntry o, p.2 + p.1.newlyClaimed o)) (w, 0)

/-- A rejection that means the claim is already known to the node. -/
def isDuplicate (msg : String) : Bool :=
  Text.contains msg "already in the mempool" || Text.contains msg "already accepted"

/-- The rejection counts as acceptance, or there is none. -/
def isAcceptance (error : Option String) : Bool :=
  match error with
  | none => true
  | some msg => isDuplicate msg

def isOrphan (msg : String) : Bool := Text.contains msg "orphan"
def isSeqLock (msg : String) : Bool := Text.contains msg "sequence lock"
def isBurned (msg : String) : Bool := Text.contains msg "burned escrow outpoint"

/-- One `txid:index` of a burned-escrow rejection. -/
def burnedToken (tok : String) : Option Outpoint :=
  match Text.splitOnce tok ':' with
  | none => none
  | some (tx, idx) => (Text.parseU32 idx).map (tx.toLower, ·)

/-- The outpoints a burned-escrow rejection names; the source keeps them as a set. -/
def burnedSet (msg : String) : List Outpoint :=
  match Text.rsplitOnce msg "burned escrow outpoints: " with
  | none => []
  | some list => (Text.splitWhitespace list).filterMap burnedToken

/-- The rejection names the outpoint as burned. -/
def namesBurned (msg : String) (o : Outpoint) : Bool := (o.1.toLower, o.2) ∈ burnedSet msg

/-- The cap a rejected batch of `n` leaves its members. -/
def halvedCap (n : Nat) : Nat := min (max (n / 2) 1) 255

def capAt (n lastDaa : Nat) (e : EscrowEntry) : EscrowEntry :=
  { e with batchCap := halvedCap n, capSetDaa := lastDaa }

def rejectOrphan (n lastDaa : Nat) (e : EscrowEntry) : EscrowEntry :=
  if n > 1 then capAt n lastDaa e
  else
    let retries := (e.orphanRetries + 1) % 256
    if retries ≥ maxOrphanRetries then
      { e with orphanRetries := retries, orphanSlashed := false, slashed := true }
    else
      { e with
        orphanRetries := retries
        orphanSlashed := true
        orphanRetryAfterDaa := some (lastDaa + orphanRetryCooldownBlocks) }

def rejectBurned (msg : String) (n lastDaa : Nat) (o : Outpoint) (e : EscrowEntry) : EscrowEntry :=
  if burnedSet msg ≠ [] then
    if namesBurned msg o then { e with slashed := true } else e
  else if n > 1 then capAt n lastDaa e
  else { e with slashed := true }

def unknownCooldown (submitRetries : Nat) : Nat :=
  min (min (unknownRetryBaseCooldownDaa * 2 ^ min submitRetries 9) u64Max)
    unknownRetryMaxCooldownDaa

def rejectUnknown (n lastDaa : Nat) (e : EscrowEntry) : EscrowEntry :=
  let e := if n > 1 then capAt n lastDaa e else e
  let retries := min (e.submitRetries + 1) 255
  { e with
    submitRetries := retries
    orphanRetryAfterDaa := some (lastDaa + unknownCooldown retries) }

/-- What a rejection of a claim of `n` inputs does to the entry of its outpoint `o`. -/
def rejectEntry (msg : String) (n lastDaa : Nat) (o : Outpoint) (e : EscrowEntry) : EscrowEntry :=
  if isOrphan msg then rejectOrphan n lastDaa e
  else if isSeqLock msg then
    { e with orphanRetryAfterDaa := some (lastDaa + seqLockRetryCooldownBlocks) }
  else if isBurned msg then rejectBurned msg n lastDaa o e
  else rejectUnknown n lastDaa e

def rejectEntries (w : EscrowWatcher) (msg : String) (outpoints : List Outpoint) : EscrowWatcher :=
  outpoints.foldl
    (fun w' o => w'.updateEntry (rejectEntry msg outpoints.length w.lastDaaScore o) o) w

/-- The claim a response belongs to: by its txid, or by a txid of a claim in flight inside the
rejection text. `pick` chooses among several, as the order of a hash map does. -/
def matchedTxid (w : EscrowWatcher) (responseTxid : String) (error : Option String) (pick : Nat) :
    Option String :=
  if responseTxid ∈ w.inFlight.keys then some responseTxid
  else
    match error with
    | none => none
    | some msg =>
      let found := w.inFlight.keys.filter (Text.contains msg ·)
      found[pick % found.length]?

/-- The claim in flight which a response is matched to. -/
def matchedClaim (w : EscrowWatcher) (responseTxid : String) (error : Option String) (pick : Nat) :
    Option InFlightClaim :=
  (w.matchedTxid responseTxid error pick).bind w.inFlight.lookup

/-- A response once it is matched to the claim `txid`. -/
def settleClaim (w : EscrowWatcher) (txid : String) (claim : InFlightClaim) (error : Option String) :
    EscrowWatcher × SubmitResponseOutcome :=
  let w := w.dropClaim txid
  let accepted :=
    let p := w.markEntriesClaimed claim.outpoints
    (p.1, SubmitResponseOutcome.accepted claim.outpoints.length p.2)
  match error with
  | none => accepted
  | some msg =>
    if isDuplicate msg then accepted else (w.rejectEntries msg claim.outpoints, .handled)

/-! ## Boot-time validation and inference escrows -/

/-- Block hashes to check against the node before claiming. -/
def startStateValidation (w : EscrowWatcher) : EscrowWatcher :=
  { w with
    validationPending :=
      ((w.entries.filter fun e => e.live && e.blockHash != "").map (·.blockHash)).dedup
    validationPurged := 0
    validationUnknown := 0 }

/-- Slashes the live entries of a block the node does not have on its chain. -/
def purgeBlock (w : EscrowWatcher) (hash : String) : EscrowWatcher :=
  match w.blockIndex hash with
  | none => w
  | some indices =>
    indices.foldl (fun w i =>
      match w.entries[i]? with
      | none => w
      | some e =>
        if e.live then { slashAt (·.live) w i with validationPurged := w.validationPurged + 1 }
        else w) w

/-- One entry of a removed chain block; the second component counts the purged ones. -/
def releaseAt (p : EscrowWatcher × Nat) (i : Nat) : EscrowWatcher × Nat :=
  match p.1.entries[i]? with
  | none => p
  | some e =>
    if e.live then
      ({ slashAt (·.live) p.1 i with outpointSet := p.1.outpointSet.erase e.key }, p.2 + 1)
    else p

/-- The entries of one removed chain block. -/
def removeChainBlock (p : EscrowWatcher × Nat) (hash : String) : EscrowWatcher × Nat :=
  match p.1.blockIndex hash with
  | none => p
  | some indices =>
    indices.foldl releaseAt
      ({ p.1 with blockIndex := Function.update p.1.blockIndex hash none }, p.2)

/-! ## The parts of `handle_block` -/

def seeDaa (w : EscrowWatcher) (daaScore : Nat) : EscrowWatcher := { w with lastDaaScore := daaScore }

/-- Periodic compaction. -/
def tickCompact (w : EscrowWatcher) : EscrowWatcher :=
  if w.blocksSinceCompact + 1 ≥ compactEveryBlocks then { w with blocksSinceCompact := 0 }.compact
  else { w with blocksSinceCompact := w.blocksSinceCompact + 1 }

/-- The counter of the periodic status line. -/
def tickStatus (w : EscrowWatcher) : EscrowWatcher :=
  { w with
    blocksSinceStatus :=
      if w.blocksSinceStatus + 1 ≥ statusEveryBlocks then 0 else w.blocksSinceStatus + 1 }

/-- The block itself: the sweep of its mergeset reds, then its coinbase if it is a chain block. -/
def scanBlock (w : EscrowWatcher) (block : RpcBlock) (daaScore : Nat) : EscrowWatcher :=
  match block.verboseData with
  | none => w
  | some verbose =>
    let w := w.slashReds verbose.mergeSetRedsHashes
    if verbose.isChainBlock then w.trackBlockEscrows block daaScore verbose.hash else w

/-- The clock, the expired claims and the periodic work, before the block itself is looked at. -/
def beginBlock (w : EscrowWatcher) (daaScore : Nat) : EscrowWatcher :=
  ((w.seeDaa daaScore).expireInFlight daaScore).tickCompact.tickStatus

end EscrowWatcher

namespace Sys
open EscrowWatcher

variable (X : Externals)

def save (s : Sys) (r : SaveResult) : Sys := { s with store := s.store.save s.w.state r }

/-- Rewrite the full snapshot; the journal is emptied with it. -/
def writeSnapshot (s : Sys) (io : Io) : Sys :=
  let s := { s with w := { s.w with state := { s.w.state with journalSeq := s.w.journalSeq } } }
  let s := s.save io.save
  match io.save with
  | .saved =>
    { s with w := { s.w with
      journalPending := []
      journalBytesSinceSnapshot := 0
      snapshotDue := false
      lastSnapshot := io.now
      lastJournalWrite := io.now } }
  | _ => s

/-- Append the pending journal lines and sync them. -/
def writeJournal (s : Sys) (io : Io) : Sys :=
  let s := { s with w := { s.w with lastJournalWrite := io.now } }
  if s.w.journalPending = [] then s
  else
    let s' := { s with store := s.store.append s.w.journalPending io.append }
    if io.append.ok then
      { s' with w := { s.w with
        journalBytesSinceSnapshot := s.w.journalBytesSinceSnapshot + s.w.pendingBytes X
        journalPending := [] } }
    else s'

/-- Persist off the per-block hot path. -/
def maybeFlush (s : Sys) (io : Io) : Sys :=
  let journalGrown := s.w.journalBytesSinceSnapshot + s.w.pendingBytes X
  if s.w.snapshotDue || decide (journalGrown ≥ journalSnapshotBytes) ||
      (decide (journalGrown > 0) && decide (io.now - s.w.lastSnapshot ≥ snapshotInterval)) then
    s.writeSnapshot io
  else if s.w.journalPending ≠ [] ∧ io.now - s.w.lastJournalWrite ≥ stateSaveInterval then
    s.writeJournal X io
  else s

def flushState (s : Sys) (io : Io) : Sys :=
  if s.w.snapshotDue || decide (s.w.journalBytesSinceSnapshot > 0) || decide (s.w.journalPending ≠ [])
  then s.writeSnapshot io
  else s

/-- The process starts again: what was only in memory is gone. -/
def restart (s : Sys) (now : Nat) : Sys :=
  { s with w := .new s.keys (loadState s.store) now }

/-- Purge the entries of chain blocks the node just reorged out, and release their outpoints. -/
def onChainBlocksRemoved (s : Sys) (hashes : List String) (io : Io) : Sys :=
  let p := hashes.foldl removeChainBlock (s.w, 0)
  let s := { s with w := p.1 }
  if p.2 > 0 then s.maybeFlush X io else s

def onSubmitResponse (s : Sys) (responseTxid : String) (error : Option String) (pick : Nat) (io : Io) :
    Sys × SubmitResponseOutcome :=
  match s.w.matchedTxid responseTxid error pick with
  | none => (s, .notOurs)
  | some txid =>
    match s.w.inFlight.lookup txid with
    | none => (s, .notOurs)
    | some claim =>
      let p := s.w.settleClaim txid claim error
      ({ s with w := p.1 }.maybeFlush X io, p.2)

/-- Track the escrow output of an answered AiRequest. -/
def trackInferenceEscrow (s : Sys) (aiRequestTxid : String) (confirmDaa escrowAmount : Nat) (io : Io) :
    Sys :=
  if escrowAmount = 0 then s
  else
    let e := freshEntry aiRequestTxid "" confirmDaa escrowAmount 1 true challengeWindowBlocks
    if e.key ∈ s.w.outpointSet then s else { s with w := s.w.track e }.maybeFlush X io

def finishValidationIfDone (s : Sys) (io : Io) : Sys :=
  if s.w.validationPending ≠ [] then s else s.maybeFlush X io

/-- Record a validation answer for one block hash. -/
def onBlockValidated (s : Sys) (hash : String) (exists_ : Bool) (io : Io) : Sys :=
  if hash ∈ s.w.validationPending then
    let w := { s.w with validationPending := s.w.validationPending.erase hash }
    finishValidationIfDone X { s with w := if exists_ then w else w.purgeBlock hash } io
  else s

/-- Match a GetBlock error against the pending validation set; `pick` chooses among several. -/
def onBlockValidationError (s : Sys) (message : String) (pick : Nat) (io : Io) : Sys :=
  let found := s.w.validationPending.filter (Text.contains message ·)
  match found[pick % found.length]? with
  | none => s
  | some hash =>
    finishValidationIfDone X { s with w := { s.w with
      validationPending := s.w.validationPending.erase hash
      validationUnknown := s.w.validationUnknown + 1 } } io

/-- Scan a block the node delivered, and check for mature claims. -/
def handleBlock (s : Sys) (block : RpcBlock) (io : Io) : Sys × Option RpcTransaction :=
  match block.daaScore with
  | none => (s, none)
  | some daaScore =>
    let p := ((s.w.beginBlock daaScore).scanBlock block daaScore).findClaim X daaScore
    ({ s with w := p.1 }.maybeFlush X io, p.2)

end Sys

end KeryxMiner.Escrow
