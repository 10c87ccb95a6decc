import KeryxMiner.Trace.Basic
import KeryxMiner.Runs

/-!
# The trace part of the solo client

The fields of `KeryxdHandler` which concern traced responses, what each message of the node does to
them (`step`), and the timer tick, which prunes, sends openings again and starts replays. A restart
keeps the trace files and nothing else.
-/

namespace KeryxMiner.Trace

/-- Requests for chain data. -/
inductive Request
  | getBlock (hash : String)
  | getVirtualSelectedParentChainFromBlock (startHash : String)
  deriving DecidableEq, Repr

/-- `accepted_transaction_ids` of a message: accepting blocks with the transactions they accept. -/
abbrev Acceptances := List (String × List String)

structure KeryxdHandler where
  pendingTraces : AList fun _ : String => PendingTrace
  chainLog : List ChainEntry
  traceStore : AList fun _ : String => StoredTrace
  chainRestoreQueue : List String
  chainRestorePending : Finset String
  chainRestoreStarts : List String
  chainRestoreFailures : AList fun _ : String => Nat
  replay : Option ReplayJob
  openingInflight : AList fun _ : String => OpeningInflight
  lastKnownDaa : Nat
  /-- The chain requests sent over this connection. -/
  requests : List Request

namespace KeryxdHandler

variable (E : Externals) (s : KeryxdHandler)

/-! ## Trace files -/

/-- `persist_trace`; `io` says for which files the write succeeds. -/
def persistTrace (io : String → Bool) (txid : String) : KeryxdHandler :=
  match s.pendingTraces.lookup txid with
  | none => s
  | some p => if io txid then { s with traceStore := s.traceStore.insert txid p.stored } else s

def persistTraces (io : String → Bool) (txids : List String) : KeryxdHandler :=
  txids.foldl (fun s txid => s.persistTrace io txid) s

/-- `trace_store.remove`, whose failure is ignored. -/
def removeFiles (io : String → Bool) (txids : List String) : KeryxdHandler :=
  { s with traceStore := Table.keep (fun txid _ => !(txid ∈ txids && io txid)) s.traceStore }

/-- The openings of the loaded records, by the id of their transaction. -/
def restoredOpenings (now : Nat) (store : AList fun _ : String => StoredTrace) :
    AList fun _ : String => OpeningInflight :=
  store.entries.foldl (fun openings ⟨responseTxid, t⟩ =>
    match t.opening with
    | none => openings
    | some o =>
      match E.openingTxid o.payload with
      | none => openings
      | some txid => openings.insert txid
          { payload := o.payload, responseTxid, deadlineDaa := o.deadlineDaa, attempts := 1
            last := now - 60000, seedHash := o.seedHash }) ∅

/-- A new handler over the trace files, with the unreadable ones dropped (`connect`,
`restore_traces`). -/
def restart (now : Nat) (readable : String → Bool) : KeryxdHandler :=
  let store := Table.keep (fun txid _ => readable txid) s.traceStore
  { pendingTraces := Table.mapVals (fun _ t => t.restored) store
    chainLog := []
    traceStore := store
    chainRestoreQueue := []
    chainRestorePending := ∅
    chainRestoreStarts := []
    chainRestoreFailures := ∅
    replay := none
    openingInflight := restoredOpenings E now store
    lastKnownDaa := 0
    requests := [] }

/-! ## Rebuilding the chain -/

/-- The loop of `chain_restore_pump`. -/
def pumpQueue : List String → Finset String → List Request →
    List String × Finset String × List Request
  | [], pending, requests => ([], pending, requests)
  | hash :: queue, pending, requests =>
    if pending.card < chainRestoreInflight then
      if hash ∈ pending then pumpQueue queue pending requests
      else pumpQueue queue (insert hash pending) (requests ++ [.getBlock hash])
    else (hash :: queue, pending, requests)

def chainRestorePump : KeryxdHandler :=
  let needed := s.pendingTraces.entries.any fun e => e.2.acceptedHash.isSome && e.2.draw.isNone
  if !needed then { s with chainRestoreQueue := [] }
  else
    let (queue, pending, requests) :=
      pumpQueue s.chainRestoreQueue s.chainRestorePending s.requests
    { s with chainRestoreQueue := queue, chainRestorePending := pending, requests }

def requestNextChainRestore : KeryxdHandler :=
  match s.chainRestoreStarts with
  | [] => s
  | hash :: _ =>
    { s with requests := s.requests ++ [.getVirtualSelectedParentChainFromBlock hash] }

/-- One accepting block of `start_chain_restore`. -/
def noteRestoreStart (hash : String) : KeryxdHandler :=
  if hash ∈ s.chainRestoreStarts then s
  else
    let s :=
      if hash ∈ s.chainLog.map (·.hash) then s
      else { s with
        chainLog := s.chainLog ++ [⟨hash, none⟩]
        chainRestoreQueue := s.chainRestoreQueue ++ [hash] }
    { s with chainRestoreStarts := s.chainRestoreStarts ++ [hash] }

/-- `order` is the order in which the map of traces yields its entries. -/
def startChainRestore (order : List String) : KeryxdHandler :=
  let accepted := order.filterMap fun txid =>
    ((s.pendingTraces.lookup txid).filter (·.draw.isNone)).bind (·.acceptedHash)
  let idle := s.chainRestoreStarts.isEmpty
  let s := accepted.foldl noteRestoreStart s
  let s := if idle then s.requestNextChainRestore else s
  s.chainRestorePump

/-! ## Acceptances and removals -/

/-- The first acceptance of a pending response is kept. -/
def noteAcceptance (block : String) (txid : String) : Bool × KeryxdHandler :=
  match s.pendingTraces.lookup txid with
  | none => (false, s)
  | some p =>
    if p.acceptedHash.isSome then (false, s)
    else (true, { s with
      pendingTraces := s.pendingTraces.insert txid { p with acceptedHash := some block } })

/-- Notes the acceptances of a message, then writes the files of the responses it accepts. -/
def noteAcceptances (io : String → Bool) (accepted : Acceptances) : KeryxdHandler :=
  let pairs := accepted.flatMap fun (block, txids) => txids.map (block, ·)
  let (noted, s) := pairs.foldl (fun (noted, s) (block, txid) =>
    let (new, s) := s.noteAcceptance block txid
    (if new then noted ++ [txid] else noted, s)) (([] : List String), s)
  s.persistTraces io noted

def onChainBlocksRemoved (io : String → Bool) (removed : List String) : KeryxdHandler :=
  if removed.isEmpty then s
  else
    let reset := (s.pendingTraces.entries.filter fun e => e.2.resets removed).map (·.1)
    let s := { s with
      chainLog := s.chainLog.filter (·.hash ∉ removed)
      pendingTraces := Table.mapVals (fun _ (p : PendingTrace) => p.reset removed) s.pendingTraces
      openingInflight := Table.keep (fun _ o => o.responseTxid ∉ reset) s.openingInflight }
    s.persistTraces io reset

def placeRestoredChain (io : String → Bool) (start : String) (removed added : List String) :
    KeryxdHandler :=
  let s := s.onChainBlocksRemoved io removed
  let (log, unknown) := placeChainAfter s.chainLog start added
  { s with chainLog := log, chainRestoreQueue := s.chainRestoreQueue ++ unknown }

/-- A failed rebuild is asked for again, and given up at the third failure. -/
def onChainRestoreFailed (io : String → Bool) (start : String) : KeryxdHandler :=
  let failures := (s.chainRestoreFailures.lookup start).getD 0 + 1
  if failures < chainRestoreMaxFailures then
    { s with
      chainRestoreFailures := s.chainRestoreFailures.insert start failures
      chainRestoreStarts := s.chainRestoreStarts ++ [start] }
  else
    let dropped := (s.pendingTraces.entries.filter (·.2.acceptedHash = some start)).map (·.1)
    { s.removeFiles io dropped with
      chainRestoreFailures := s.chainRestoreFailures.erase start
      pendingTraces := Table.keep (fun txid _ => txid ∉ dropped) s.pendingTraces
      openingInflight := Table.keep (fun _ o => o.responseTxid ∉ dropped) s.openingInflight
      chainLog := s.chainLog.filter (·.hash ≠ start) }

def noteChainBlock (hash : String) : KeryxdHandler :=
  { s with chainLog := s.chainLog.map fun e =>
      if e.hash = hash then { e with daa := some (E.daaScore hash) } else e }

/-! ## Draws -/

/-- The draw `resolve_traces` gives a pending response. -/
def drawOf (txid : String) (p : PendingTrace) : Option TraceDraw :=
  if p.draw.isSome then none
  else do
    let accepted ← p.acceptedHash
    if accepted ∈ s.chainRestoreStarts then none
    let (seedHash, daa, acceptedDaa) ← seedBlockAfter s.chainLog accepted
    let txidBytes ← hash32 txid
    let seedBlock ← hash32 seedHash
    let seed := E.traceSeed seedBlock txidBytes
    some {
      seedHash, seedDaa := daa, seed
      audited := decide (acceptedDaa ≥ E.traceAuditActivationDaa) || E.drawAudited seed
      deadlineDaa := daa + openingWindowDaa p.tier p.maxTokens
      opened := p.opening.any (·.seedHash = seedHash)
      replayFailures := 0 }

def resolveTraces : KeryxdHandler :=
  { s with pendingTraces := Table.mapVals (fun txid p =>
      match s.drawOf E txid p with
      | some d => { p with draw := some d }
      | none => p) s.pendingTraces }

def pruneTraces (io : String → Bool) : KeryxdHandler :=
  let daa := s.lastKnownDaa
  let gone := (s.pendingTraces.entries.filter fun e => !e.2.wanted daa).map (·.1)
  let pending := Table.keep (fun _ p => p.wanted daa) s.pendingTraces
  let positions := pending.entries.filterMap fun e =>
    e.2.acceptedHash.bind fun h => s.chainLog.findIdx? (·.hash == h)
  let needed := positions.min?.getD s.chainLog.length
  let keepFrom := min needed (s.chainLog.length - chainLogTail)
  { s.removeFiles io gone with pendingTraces := pending, chainLog := s.chainLog.drop keepFrom }

/-! ## Openings -/

/-- `submit_opening`; `now` is the clock in milliseconds. -/
def submitOpening (now : Nat) (io : String → Bool) (responseTxid seedHash : String)
    (body : List UInt8) : KeryxdHandler :=
  match s.pendingTraces.lookup responseTxid with
  | none => s
  | some p =>
    match p.draw with
    | none => s
    | some d =>
      let body :=
        if max s.lastKnownDaa d.seedDaa ≥ E.traceSeedBindActivationDaa then
          (hash32 seedHash).bind (E.seeded body)
        else some body
      match body.bind E.signOpening with
      | none => s
      | some payload =>
        let openings := match E.openingTxid payload with
          | none => s.openingInflight
          | some txid => s.openingInflight.insert txid
              { payload, responseTxid, deadlineDaa := d.deadlineDaa, attempts := 1, last := now
                seedHash }
        let opening : StoredOpening := ⟨seedHash, d.deadlineDaa, payload⟩
        { s with
          openingInflight := openings
          pendingTraces := s.pendingTraces.insert responseTxid { p with opening := some opening }
        }.persistTrace io responseTxid

/-- What `retry_pending_openings` sends again. -/
def retryPendingOpenings (now : Nat) : List (String × OpeningInflight) × KeryxdHandler :=
  let waits (o : OpeningInflight) : Bool := (now - o.last) / 1000 < aiResponseRetrySecs
  let live := Table.keep (fun _ o =>
    o.deadlineDaa ≥ s.lastKnownDaa && (waits o || o.attempts < aiResponseMaxAttempts))
    s.openingInflight
  let resend := (live.entries.filter fun e => !waits e.2).map fun e => (e.1, e.2)
  (resend, { s with openingInflight := Table.mapVals (fun _ o =>
    if waits o then o else { o with attempts := o.attempts + 1, last := now }) live })

/-- The first half of `try_start_replay`: openings built before are submitted again. -/
def submitReady (now : Nat) (io : String → Bool) : KeryxdHandler :=
  let ready := s.pendingTraces.entries.filterMap fun e => e.2.ready.map fun r => (e.1, r)
  let s := { s with pendingTraces := Table.mapVals (fun _ p =>
    if p.ready.isSome then p.markOpened else p) s.pendingTraces }
  ready.foldl (fun s (txid, seedHash, body) => s.submitOpening E now io txid seedHash body) s

/-- `try_start_replay`. Of the audited draws closest to their deadline, `pick` is the one the map
yields first. -/
def tryStartReplay (now : Nat) (busy : Bool) (pick : String) (io : String → Bool) :
    KeryxdHandler :=
  let s := s.submitReady E now io
  if busy || s.replay.isSome then s
  else
    match s.pendingTraces.lookup pick with
    | none => s
    | some p =>
      match p.draw with
      | none => s
      | some d =>
        let closest := s.pendingTraces.entries.all fun e =>
          !e.2.toOpen || e.2.draw.all (d.deadlineDaa ≤ ·.deadlineDaa)
        if !p.toOpen || !closest then s
        else if (hash32 pick).isNone then
          { s.removeFiles io [pick] with pendingTraces := s.pendingTraces.erase pick }
        else { s with
          pendingTraces := s.pendingTraces.insert pick p.markOpened
          replay := some ⟨pick, d.seedHash⟩ }

/-- A finished replay (`poll_replay`). -/
def pollReplay (now : Nat) (body : Option (List UInt8)) (io : String → Bool) : KeryxdHandler :=
  match s.replay with
  | none => s
  | some job =>
    let s := { s with replay := none }
    match s.pendingTraces.lookup job.responseTxid with
    | none => s
    | some p =>
      match body with
      | none =>
        let draw := p.draw.map fun d =>
          if d.seedHash = job.seedHash then
            { d with
              replayFailures := d.replayFailures + 1
              opened := d.replayFailures + 1 > replayMaxFailures }
          else d
        { s with pendingTraces := s.pendingTraces.insert job.responseTxid { p with draw } }
      | some body =>
        let built := p.built.filter (·.1 ≠ job.seedHash)
        let built := if built.length ≥ builtOpeningsKept then built.drop 1 else built
        let p := { p with built := built ++ [(job.seedHash, body)] }
        let s := { s with pendingTraces := s.pendingTraces.insert job.responseTxid p }
        if p.draw.any (·.seedHash = job.seedHash) then
          s.submitOpening E now io job.responseTxid job.seedHash body
        else s

/-- The answer of the mempool to an opening. An error may name the transaction in its text only;
`pick` is then the key the map yields first. -/
def onOpeningResponse (txid : String) (error : Option String) (pick : String) : KeryxdHandler :=
  let openingTxid :=
    if txid ∈ s.openingInflight then some txid
    else if pick ∈ s.openingInflight ∧ error.any (Text.contains · pick) then some pick
    else none
  match openingTxid with
  | none => s
  | some txid =>
    let removed := { s with openingInflight := s.openingInflight.erase txid }
    match error with
    | none => removed
    | some e =>
      if Text.contains e "an opening for response" then s
      else if Text.contains e "already" then removed
      else if Text.contains e "not awaited" then
        let attempts := ((s.openingInflight.lookup txid).map (·.attempts)).getD 1
        if attempts ≥ openingNotAwaitedMaxAttempts then removed else s
      else s

/-! ## Messages -/

/-- Added chain blocks are logged at the end, except those which are logged already. -/
def appendChain (log : List ChainEntry) (added : List String) : List ChainEntry :=
  added.foldl (fun log hash =>
    if hash ∈ log.map (·.hash) then log else log ++ [⟨hash, none⟩]) log

/-- `VirtualSelectedParentChainChangedNotification`. -/
def onNotification (io : String → Bool) (removed added : List String) (accepted : Acceptances) :
    KeryxdHandler :=
  let s := s.onChainBlocksRemoved io removed
  let s := { s with chainLog := appendChain s.chainLog added }.noteAcceptances io accepted
  { s with requests := s.requests ++ added.map .getBlock }

/-- The answer to a chain rebuild, up to `resolve_traces`. -/
def takeChain (io : String → Bool) (removed added : List String) (accepted : Acceptances) :
    Option KeryxdHandler :=
  match s.chainRestoreStarts with
  | [] => none
  | start :: starts =>
    let s := { s with
      chainRestoreStarts := starts, chainRestoreFailures := s.chainRestoreFailures.erase start }
    some ((s.placeRestoredChain io start removed added).noteAcceptances io accepted)

/-- An error in its place. -/
def takeChainFailure (io : String → Bool) : Option KeryxdHandler :=
  match s.chainRestoreStarts with
  | [] => none
  | start :: starts => some ({ s with chainRestoreStarts := starts }.onChainRestoreFailed io start)

/-- A `GetBlock` error names the block in its text. -/
def takeBlockFailure (message : String) : Option KeryxdHandler :=
  (s.chainLog.findIdx? fun e => Text.contains message e.hash).map fun pos =>
    { s with chainLog := s.chainLog.eraseIdx pos }

/-- A block which the rebuild waited for makes room for the next. -/
def restoreBlockAnswered (hash : String) : KeryxdHandler :=
  if hash ∈ s.chainRestorePending then
    { s with chainRestorePending := s.chainRestorePending.erase hash }.chainRestorePump
  else s

end KeryxdHandler

inductive Event
  | restart (now : Nat) (readable : String → Bool)
  /-- The node confirms the chain notifications. -/
  | registered (order : List String)
  | notification (removed added : List String) (accepted : Acceptances) (io : String → Bool)
  | chain (removed added : List String) (accepted : Acceptances) (io : String → Bool)
  | chainFailed (io : String → Bool)
  | block (hash : String)
  /-- `pick` is the block of the text that `chain_restore_pending` yields first. -/
  | blockFailed (message pick : String)
  | template (daa : Nat)
  /-- An AiResponse with a trace is submitted. -/
  | submitted (txid : String) (tier maxTokens : Nat) (io : String → Bool)
  | tick (now : Nat) (busy : Bool) (pick : String) (io : String → Bool)
  | replayDone (now : Nat) (body : Option (List UInt8)) (io : String → Bool)
  | openingResponse (txid : String) (error : Option String) (pick : String)

namespace KeryxdHandler

variable (E : Externals) (s : KeryxdHandler)

/-- The state in which a message leads to `resolve_traces`. -/
def resolvesIn : Event → Option KeryxdHandler
  | .chain removed added accepted io => s.takeChain io removed added accepted
  | .chainFailed io => s.takeChainFailure io
  | .block hash => some (s.noteChainBlock E hash)
  | .blockFailed message _ => s.takeBlockFailure message
  | _ => none

/-- What follows `resolve_traces`. -/
def afterResolve : Event → KeryxdHandler
  | .chain .. | .chainFailed _ => s.requestNextChainRestore.chainRestorePump
  | .block hash => s.restoreBlockAnswered hash
  | _ => s

def step (e : Event) : KeryxdHandler :=
  match e with
  | .restart now readable => s.restart E now readable
  | .registered order => s.startChainRestore order
  | .notification removed added accepted io => s.onNotification io removed added accepted
  | .template daa => { s with lastKnownDaa := max s.lastKnownDaa daa }
  | .submitted txid tier maxTokens io =>
    let p : PendingTrace := .submitted tier maxTokens s.lastKnownDaa
    { s with pendingTraces := s.pendingTraces.insert txid p }.persistTrace io txid
  | .tick now busy pick io =>
    ((s.pruneTraces io).retryPendingOpenings now).2.tryStartReplay E now busy pick io
  | .replayDone now body io => s.pollReplay E now body io
  | .openingResponse txid error pick => s.onOpeningResponse txid error pick
  | .blockFailed message pick =>
    let s := ((s.takeBlockFailure message).map (·.resolveTraces E)).getD s
    if Text.contains message pick then s.restoreBlockAnswered pick else s
  | e => ((s.resolvesIn E e).map fun s => (s.resolveTraces E).afterResolve e).getD s

/-- A first start without trace files. -/
def init : KeryxdHandler where
  pendingTraces := ∅
  chainLog := []
  traceStore := ∅
  chainRestoreQueue := []
  chainRestorePending := ∅
  chainRestoreStarts := []
  chainRestoreFailures := ∅
  replay := none
  openingInflight := ∅
  lastKnownDaa := 0
  requests := []

end KeryxdHandler

end KeryxMiner.Trace
