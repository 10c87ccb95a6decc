import KeryxMiner.Text
import Mathlib.Data.List.AList

/-!
# Data of the escrow watcher

The records of `escrow.rs` and the parts of the node's RPC messages which the watcher reads, with
the constants of the module. Times are milliseconds of the process clock. Amounts and DAA scores
are `u64` in the source and unbounded here, except where the source saturates; the `u8` counters
wrap or saturate as the source's release build does.
-/

namespace KeryxMiner.Escrow

def challengeWindowBlocks : Nat := 36000
def serviceBondCsvWindowBlocks : Nat := 792000
def claimFeeSompi : Nat := 30000000
def nativeSubnetwork : String := "0000000000000000000000000000000000000000"

def opCsv : UInt8 := 0xb1
def opChecksig : UInt8 := 0xac
def sigHashAll : UInt8 := 0x01

def compactEveryBlocks : Nat := 2000
def stateSaveInterval : Nat := 2000
def snapshotInterval : Nat := 600000
def journalSnapshotBytes : Nat := 32 * 1024 * 1024

def maxClaimBatch : Nat := 87
def minClaimBatch : Nat := maxClaimBatch
def capExpiryDaa : Nat := 36000
def maxInFlightClaims : Nat := 4
def claimResponseTimeoutDaa : Nat := 600
def statusEveryBlocks : Nat := 1000
def unknownRetryBaseCooldownDaa : Nat := 100
def unknownRetryMaxCooldownDaa : Nat := 50000
def orphanRetryCooldownBlocks : Nat := 100
def seqLockRetryCooldownBlocks : Nat := 20
def maxOrphanRetries : Nat := 10

def u64Max : Nat := 2 ^ 64 - 1

/-- A source transaction id and the index of one of its outputs. -/
abbrev Outpoint := String × UInt32

instance : LawfulBEq Outpoint := inferInstanceAs (LawfulBEq (String × UInt32))

/-- The text by which the indexes of the watcher know an outpoint. -/
def Outpoint.key (o : Outpoint) : String := Text.outpointText o.1 o.2

theorem Outpoint.key_inj {o o' : Outpoint} (h : o.key = o'.key) : o = o' :=
  Prod.ext_iff.mpr (Text.outpointText_inj h)

@[simp] theorem Outpoint.key_eq_iff {o o' : Outpoint} : o.key = o'.key ↔ o = o' :=
  ⟨key_inj, congrArg key⟩

structure EscrowEntry where
  coinbaseTxid : String
  blockHash : String
  confirmDaa : Nat
  amountSompi : Nat
  outputIndex : UInt32
  claimed : Bool
  slashed : Bool
  orphanSlashed : Bool
  orphanRetries : Nat
  orphanRetryAfterDaa : Option Nat
  submitRetries : Nat
  batchCap : Nat
  capSetDaa : Nat
  isInference : Bool
  csvWindow : Nat
  deriving DecidableEq, Repr

namespace EscrowEntry

def outpoint (e : EscrowEntry) : Outpoint := (e.coinbaseTxid, e.outputIndex)

def key (e : EscrowEntry) : String := e.outpoint.key

/-- Still to be claimed: neither claimed nor slashed. -/
def live (e : EscrowEntry) : Bool := !e.claimed && !e.slashed

@[simp] theorem live_iff {e : EscrowEntry} : e.live = true ↔ e.claimed = false ∧ e.slashed = false := by
  simp [live]

@[simp] theorem key_eq_iff {e e' : EscrowEntry} : e.key = e'.key ↔ e.outpoint = e'.outpoint :=
  Outpoint.key_eq_iff

/-- `e'` is `e` later on: the same output, and a finished entry stays finished. Everything the
watcher does to an entry in place is of this kind. -/
structure Le (e e' : EscrowEntry) : Prop where
  coinbaseTxid : e'.coinbaseTxid = e.coinbaseTxid
  outputIndex : e'.outputIndex = e.outputIndex
  blockHash : e'.blockHash = e.blockHash
  confirmDaa : e'.confirmDaa = e.confirmDaa
  amountSompi : e'.amountSompi = e.amountSompi
  isInference : e'.isInference = e.isInference
  csvWindow : e'.csvWindow = e.csvWindow
  claimed : e.claimed = true → e'.claimed = true
  slashed : e.slashed = true → e'.slashed = true

namespace Le

theorem outpoint {e e' : EscrowEntry} (h : Le e e') : e'.outpoint = e.outpoint := by
  simp [EscrowEntry.outpoint, h.coinbaseTxid, h.outputIndex]

theorem live {e e' : EscrowEntry} (h : Le e e') (hl : e'.live = true) : e.live = true := by
  rw [live_iff] at hl ⊢
  refine ⟨?_, ?_⟩
  · by_contra hc
    simp [h.claimed (by simpa using hc)] at hl
  · by_contra hc
    simp [h.slashed (by simpa using hc)] at hl

end Le

end EscrowEntry

structure EscrowState where
  entries : List EscrowEntry
  /-- Sequence of the last journal line folded into the snapshot; older lines are stale. -/
  journalSeq : Nat
  deriving DecidableEq, Repr

/-- `EscrowState::default`. -/
def EscrowState.empty : EscrowState := ⟨[], 0⟩

/-- One journal line: the full entry after a change, under its sequence number. -/
structure JournalLine where
  s : Nat
  e : EscrowEntry
  deriving DecidableEq, Repr

/-! ## RPC messages -/

structure RpcScriptPublicKey where
  version : Nat
  scriptPublicKey : String
  deriving DecidableEq, Repr

structure RpcTransactionInput where
  previousOutpoint : Option Outpoint
  signatureScript : String
  sequence : Nat
  sigOpCount : Nat
  deriving DecidableEq, Repr

structure RpcTransactionOutput where
  amount : Nat
  scriptPublicKey : Option RpcScriptPublicKey
  deriving DecidableEq, Repr

structure RpcTransaction where
  version : Nat
  inputs : List RpcTransactionInput
  outputs : List RpcTransactionOutput
  lockTime : Nat
  subnetworkId : String
  gas : Nat
  payload : String
  mass : Nat
  /-- `verbose_data.transaction_id`. -/
  transactionId : Option String
  deriving DecidableEq, Repr

structure RpcBlockVerboseData where
  hash : String
  isChainBlock : Bool
  mergeSetRedsHashes : List String
  deriving DecidableEq, Repr

structure RpcBlock where
  /-- `header.daa_score`, when the message has a header. -/
  daaScore : Option Nat
  transactions : List RpcTransaction
  verboseData : Option RpcBlockVerboseData
  deriving DecidableEq, Repr

/-- A claim transaction submitted to the node, awaiting its response. -/
structure InFlightClaim where
  outpoints : List Outpoint
  submitDaa : Nat
  deriving DecidableEq, Repr

/-- Result of matching a submit response against the claims in flight. -/
inductive SubmitResponseOutcome
  | notOurs
  | handled
  | accepted (outputs amountSompi : Nat)
  deriving DecidableEq, Repr

/-- What the watcher uses from other crates and from the build: keyed Blake2b-256, Schnorr
signing, `serde_json::to_vec` of a journal line and the score of the service-bond gate. -/
structure Externals where
  blake2b : List UInt8 → List UInt8 → List UInt8
  signSchnorr : List UInt8 → List UInt8 → List UInt8
  encodeLine : JournalLine → List UInt8
  pomV3ActivationDaa : Nat

/-- CSV lock the node applies to a coinbase escrow output created at `daa`. -/
def csvWindowForDaa (X : Externals) (daa : Nat) : Nat :=
  if daa ≥ X.pomV3ActivationDaa then serviceBondCsvWindowBlocks else challengeWindowBlocks

/-! ## The watcher -/

structure EscrowWatcher where
  secretKey : List UInt8
  pubkeyBytes : List UInt8
  escrowScriptHex : String
  escrowScriptBondedHex : String
  payoutSpkVersion : Nat
  payoutSpkScript : List UInt8
  payoutSpkScriptHex : String
  state : EscrowState
  /-- Claims submitted and awaiting their response, by claim txid. -/
  inFlight : AList fun _ : String => InFlightClaim
  /-- Keys of the outpoints inside an in-flight claim. -/
  inFlightOutpoints : Finset String
  lastDaaScore : Nat
  /-- Keys of the tracked outpoints, for dedup. -/
  outpointSet : Finset String
  /-- Block hash to indices into the entries. -/
  blockIndex : String → Option (List Nat)
  journalPending : List JournalLine
  journalSeq : Nat
  journalBytesSinceSnapshot : Nat
  lastJournalWrite : Nat
  snapshotDue : Bool
  lastSnapshot : Nat
  blocksSinceCompact : Nat
  blocksSinceStatus : Nat
  /-- Block hashes awaiting boot-time validation, without repetition. -/
  validationPending : List String
  validationPurged : Nat
  validationUnknown : Nat

namespace EscrowWatcher

/-- The tracked entries. -/
def entries (w : EscrowWatcher) : List EscrowEntry := w.state.entries

def setEntries (w : EscrowWatcher) (es : List EscrowEntry) : EscrowWatcher :=
  { w with state := { w.state with entries := es } }

end EscrowWatcher

end KeryxMiner.Escrow
