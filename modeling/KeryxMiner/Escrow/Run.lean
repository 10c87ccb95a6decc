import KeryxMiner.Escrow.Json
import KeryxMiner.Escrow.Moves
import KeryxMiner.Runs

/-!
# Runs of the escrow watcher

An `Op` is one call into the watcher, with what its environment decided: the blocks, notifications
and responses of the node, the outcome of writes, and restarts, at which the watcher is built anew
from the stored state. The parts of `handle_block` are calls of their own as well, so that a run
may interleave them at will.

`step_spec` says what one call does, in the moves of `KeryxMiner.Escrow.Moves`.
-/

namespace KeryxMiner.Escrow

open EscrowWatcher

inductive Op
  | handleBlock (block : RpcBlock) (io : Io)
  | chainBlocksRemoved (hashes : List String) (io : Io)
  | submitResponse (txid : String) (error : Option String) (pick : Nat) (io : Io)
  | trackInferenceEscrow (txid : String) (confirmDaa escrowAmount : Nat) (io : Io)
  | startStateValidation
  | blockValidated (hash : String) (exists_ : Bool) (io : Io)
  | blockValidationError (message : String) (pick : Nat) (io : Io)
  | flushState (io : Io)
  | restart (now : Nat)
  | trackBlockEscrows (block : RpcBlock) (daaScore : Nat) (blockHash : String)
  | findClaim (daaScore : Nat)
  | expireInFlight (daaScore : Nat)
  | compact
  | maybeFlush (io : Io)
  deriving DecidableEq, Repr

def step (X : Externals) (s : Sys) : Op → Sys
  | .handleBlock block io => (s.handleBlock X block io).1
  | .chainBlocksRemoved hashes io => s.onChainBlocksRemoved X hashes io
  | .submitResponse txid error pick io => (s.onSubmitResponse X txid error pick io).1
  | .trackInferenceEscrow txid daa amount io => s.trackInferenceEscrow X txid daa amount io
  | .startStateValidation => { s with w := s.w.startStateValidation }
  | .blockValidated hash exists_ io => s.onBlockValidated X hash exists_ io
  | .blockValidationError message pick io => s.onBlockValidationError X message pick io
  | .flushState io => s.flushState io
  | .restart now => s.restart now
  | .trackBlockEscrows block daa hash => { s with w := s.w.trackBlockEscrows block daa hash }
  | .findClaim daa => { s with w := (s.w.findClaim X daa).1 }
  | .expireInFlight daa => { s with w := s.w.expireInFlight daa }
  | .compact => { s with w := s.w.compact }
  | .maybeFlush io => s.maybeFlush X io

/-- A first start: nothing stored yet. -/
def Sys.init (k : Keys) (now : Nat) : Sys := ⟨k, .new k .empty now, ⟨none, []⟩⟩

/-- How a call may touch an entry. -/
def Op.Touches (s : Sys) : Op → EscrowEntry → EscrowEntry → Prop
  | .handleBlock block _, e, e' => (∃ daaScore, block.daaScore = some daaScore ∧ Heals daaScore e e') ∨
    Slashes e e' ∧ ∃ verbose, block.verboseData = some verbose ∧ verbose.mergeSetRedsHashes ≠ []
  | .findClaim daaScore, e, e' => Heals daaScore e e'
  | .blockValidated .., e, e' => Slashes e e'
  | .submitResponse txid error pick _, e, e' =>
    ∃ claim, s.w.matchedClaim txid error pick = some claim ∧ Settles error claim e e'
  | _, _, _ => False

/-- The entries a call may track. -/
def Op.Tracks : Op → EscrowEntry → Prop
  | .handleBlock block _, e =>
    ∃ daaScore verbose, block.daaScore = some daaScore ∧ block.verboseData = some verbose ∧
      verbose.isChainBlock = true ∧ TrackedFrom block daaScore verbose.hash e
  | .trackBlockEscrows block daaScore blockHash, e => TrackedFrom block daaScore blockHash e
  | .trackInferenceEscrow txid confirmDaa escrowAmount _, e =>
    e = freshEntry txid "" confirmDaa escrowAmount 1 true challengeWindowBlocks
  | _, _ => False

/-- The scores a call takes for the clock. -/
def Op.Sees : Op → Nat → Prop
  | .handleBlock block _, daaScore => block.daaScore = some daaScore
  | _, _ => False

/-- The scores at which a call may ship a claim. -/
def Op.Ships : Op → Nat → Prop
  | .handleBlock block _, daaScore => block.daaScore = some daaScore
  | .findClaim daaScore, daaScore' => daaScore' = daaScore
  | _, _ => False

def Op.effects (s : Sys) (op : Op) : Effects := ⟨op.Touches s, op.Tracks, op.Sees, op.Ships⟩

theorem Op.Touches.le {s : Sys} {op : Op} {e e' : EscrowEntry} (h : op.Touches s e e') : e.Le e' := by
  cases op
  case handleBlock => exact h.elim (fun ⟨_, _, h⟩ => h.le) fun h => h.1.le
  case findClaim => exact Heals.le h
  case blockValidated => exact Slashes.le h
  case submitResponse =>
    obtain ⟨_, _, h⟩ := h
    exact h.le
  all_goals exact h.elim

theorem Op.effects_le {s : Sys} {op : Op} (e e' : EscrowEntry) (h : (op.effects s).touches e e') :
    e.Le e' := Op.Touches.le h

/-! ## The flush -/

/-- `s'` is `s` after a flush, whatever its outcome was. -/
structure Flushed (s s' : Sys) : Prop where
  keys : s'.keys = s.keys
  core : SameCore s.w s'.w
  validationPending : s'.w.validationPending = s.w.validationPending
  snapshot : s'.store.snapshot = s.store.snapshot ∨
    ∃ seq, s'.store.snapshot = some ⟨s.w.entries, seq⟩
  journal : ∀ l ∈ s'.store.journal, l ∈ s.store.journal ∨ l ∈ s.w.journalPending

theorem Flushed.rfl' {s : Sys} : Flushed s s :=
  ⟨rfl, .rfl', rfl, .inl rfl, fun _ => .inl⟩

theorem mem_keepLines {keep : List Bool} {lines : List JournalLine} {l : JournalLine}
    (h : l ∈ keepLines keep lines) : l ∈ lines := by
  obtain ⟨p, hp, rfl⟩ := List.mem_map.mp h
  exact (List.of_mem_zip (List.mem_of_mem_filter hp)).1

theorem writeSnapshot_flushed {s : Sys} {io : Io} : Flushed s (s.writeSnapshot io) := by
  cases h : io.save <;> simp only [Sys.writeSnapshot, h, Sys.save, Store.save] <;>
    exact ⟨rfl, ⟨⟨rfl, rfl, rfl, rfl, rfl⟩, rfl, rfl, rfl, rfl, rfl, rfl, by simp⟩, rfl,
      by first | exact .inl rfl | exact .inr ⟨_, rfl⟩, by simp +contextual⟩

theorem writeJournal_flushed {X : Externals} {s : Sys} {io : Io} :
    Flushed s (s.writeJournal X io) := by
  have hcore {p : List JournalLine} {a b : Nat} (h : ∀ l ∈ p, l ∈ s.w.journalPending) :
      SameCore s.w { s.w with
        lastJournalWrite := a, journalPending := p, journalBytesSinceSnapshot := b } :=
    ⟨⟨rfl, rfl, rfl, rfl, rfl⟩, rfl, rfl, rfl, rfl, rfl, rfl, h⟩
  unfold Sys.writeJournal
  simp only
  split
  · exact ⟨rfl, hcore fun _ => id, rfl, .inl rfl, fun _ => .inl⟩
  · split
    · exact ⟨rfl, hcore (by simp), rfl, .inl rfl,
        fun l hl => List.mem_append.mp (mem_keepLines hl)⟩
    · exact ⟨rfl, hcore fun _ => id, rfl, .inl rfl,
        fun l hl => List.mem_append.mp (mem_keepLines hl)⟩

theorem maybeFlush_flushed {X : Externals} {s : Sys} {io : Io} : Flushed s (s.maybeFlush X io) := by
  unfold Sys.maybeFlush
  simp only
  split
  · exact writeSnapshot_flushed
  · split
    · exact writeJournal_flushed
    · exact .rfl'

theorem flushState_flushed {s : Sys} {io : Io} : Flushed s (s.flushState io) := by
  unfold Sys.flushState
  split
  · exact writeSnapshot_flushed
  · exact .rfl'

theorem finishValidationIfDone_flushed {X : Externals} {s : Sys} {io : Io} :
    Flushed s (s.finishValidationIfDone X io) := by
  unfold Sys.finishValidationIfDone
  split
  · exact .rfl'
  · exact maybeFlush_flushed

/-! ## One call -/

theorem handleBlock_spec {X : Externals} {s : Sys} {block : RpcBlock} {io : Io} :
    ∃ w', Moves X (Op.effects s (.handleBlock block io)) s.w w' ∧
      Flushed { s with w := w' } (s.handleBlock X block io).1 := by
  unfold Sys.handleBlock
  split
  · exact ⟨s.w, .refl, .rfl'⟩
  · next daaScore hdaa =>
    refine ⟨_, ?_, maybeFlush_flushed⟩
    refine ((beginBlock_moves daaScore hdaa).trans (scanBlock_moves ?_ ?_)).trans
      (findClaim_moves daaScore hdaa fun _ _ h => Or.inl ⟨daaScore, hdaa, h⟩)
    · exact fun verbose hv hne _ _ h => Or.inr ⟨h, verbose, hv, hne⟩
    · exact fun verbose hv hc _ h => ⟨_, _, hdaa, hv, hc, h⟩

theorem onSubmitResponse_spec {X : Externals} {s : Sys} {txid : String} {error : Option String}
    {pick : Nat} {io : Io} : ∃ w', Moves X (Op.effects s (.submitResponse txid error pick io)) s.w w' ∧
      Flushed { s with w := w' } (s.onSubmitResponse X txid error pick io).1 := by
  unfold Sys.onSubmitResponse
  split
  · exact ⟨s.w, .refl, .rfl'⟩
  · next claimTxid ht =>
    split
    · exact ⟨s.w, .refl, .rfl'⟩
    · next claim hc =>
      refine ⟨_, settleClaim_moves fun e e' h => ⟨claim, ?_, h⟩, maybeFlush_flushed⟩
      simp [matchedClaim, ht, hc]

/-- Every call but a restart is a sequence of moves and a flush. -/
theorem step_spec {X : Externals} {s : Sys} {op : Op} (h : ∀ now, op ≠ .restart now) :
    ∃ w', Moves X (op.effects s) s.w w' ∧ Flushed { s with w := w' } (step X s op) := by
  cases op with
  | handleBlock block io => exact handleBlock_spec
  | submitResponse txid error pick io => exact onSubmitResponse_spec
  | chainBlocksRemoved hashes io =>
    refine ⟨_, removeChainBlocks_moves hashes 0, ?_⟩
    simp only [step, Sys.onChainBlocksRemoved]
    split
    · exact maybeFlush_flushed
    · exact .rfl'
  | trackInferenceEscrow txid daa amount io =>
    simp only [step, Sys.trackInferenceEscrow]
    split
    · exact ⟨s.w, .refl, .rfl'⟩
    · split
      · exact ⟨s.w, .refl, .rfl'⟩
      · next h => exact ⟨_, .single (.track (freshEntry_fresh ..) rfl h), maybeFlush_flushed⟩
  | startStateValidation => exact ⟨_, .single (.tick .counters), .rfl'⟩
  | blockValidated hash exists_ io =>
    simp only [step, Sys.onBlockValidated]
    split
    · have h : Move X (Op.effects s (.blockValidated hash exists_ io)) s.w { s.w with
          validationPending := s.w.validationPending.erase hash } := .tick .counters
      refine ⟨_, .head h ?_, finishValidationIfDone_flushed⟩
      cases exists_
      · exact purgeBlock_moves hash fun _ _ => id
      · exact .refl
    · exact ⟨s.w, .refl, .rfl'⟩
  | blockValidationError message pick io =>
    simp only [step, Sys.onBlockValidationError]
    split
    · exact ⟨s.w, .refl, .rfl'⟩
    · exact ⟨_, .single (.tick .counters), finishValidationIfDone_flushed⟩
  | flushState io => exact ⟨s.w, .refl, flushState_flushed⟩
  | restart now => exact absurd rfl (h now)
  | trackBlockEscrows block daa hash => exact ⟨_, trackBlockEscrows_moves fun _ h => h, .rfl'⟩
  | findClaim daa => exact ⟨_, findClaim_moves daa rfl fun _ _ => id, .rfl'⟩
  | expireInFlight daa => exact ⟨_, expireInFlight_moves daa, .rfl'⟩
  | compact => exact ⟨_, .single .compact, .rfl'⟩
  | maybeFlush io => exact ⟨s.w, .refl, maybeFlush_flushed⟩

/-! ## Concrete inputs -/

def bytesOf (hex : String) : List UInt8 :=
  match Text.hexDecode hex with
  | .ok bytes => bytes
  | .error _ => []

/-- A secret key, its x-only public key, and a payout address. -/
def minerKeys : Keys :=
  ⟨List.replicate 32 1, bytesOf "1b84c5567b126440995d3ed5aaba0565d71e1834604819ff9c17f5e9d5dd078f",
    0, List.replicate 32 3⟩

/-- A hash or transaction id of one repeated digit. -/
def hashOf (digit : Char) : String := String.ofList (List.replicate 64 digit)

/-- A claim of rewards of `rewardBlock`, each with the txid `hashOf` of its digit: the hashes that all
its inputs share, the hash and the signature of each, and its txid. -/
structure MinerClaim where
  digits : List Char
  prevOutHash : String
  seqsHash : String
  sigopsHash : String
  outsHash : String
  sighashes : List String
  signatures : List String
  txid : String

/-- The claim that spends the reward of the digit `a`. -/
def minerClaim : MinerClaim where
  digits := ['a']
  prevOutHash := "8a71a5fd6e7186f510acfff08ff897f4cfec274599499336d7b1e351875cd48a"
  seqsHash := "fa6e40f9388e71859ed52b951be54a49a2218861e596b29e3416907b7b0314c8"
  sigopsHash := "8523b0471bcbea04575ccaa635eef9f9114f2890bda54367e5ff8caa3878bf82"
  outsHash := "1a6ce35a22525e04a9371939ad617a53eb20d9fbdd3e4afcb357027ff87b8311"
  sighashes := ["a27e7ae2d778f802d23bd7dd7a3ad47dd7100a645acbc29f99b4f7949335fef9"]
  signatures := [
    "3bac169a6a7557e9e70050f17c36dcd57dff073a8a1be35950da55c262c91984" ++
      "f8e68667c8140de46fdb8b4d9d360bc8931c439f025ab24cd48aa8d5980720c8"]
  txid := "f36357222f882ab3c55712cea72ca6123d4cc88c1b443d6620cf7a94147e8795"

/-- The claim that spends the reward of the digit `d`. -/
def minerSecondClaim : MinerClaim where
  digits := ['d']
  prevOutHash := "71211bc3bd341b9bb019ac3f2e816f15b88a72fcfaf49adfad5e61d1f938845e"
  seqsHash := "fa6e40f9388e71859ed52b951be54a49a2218861e596b29e3416907b7b0314c8"
  sigopsHash := "8523b0471bcbea04575ccaa635eef9f9114f2890bda54367e5ff8caa3878bf82"
  outsHash := "1a6ce35a22525e04a9371939ad617a53eb20d9fbdd3e4afcb357027ff87b8311"
  sighashes := ["4d950dd011a3d0c12d18a199ae5851dbba16b78cc653c5bcc8c0af8782f5df45"]
  signatures := [
    "b52a20f6f5f15c06c3b08035342e5b2713096a10e81dc286c6376bae4c3b84bf" ++
      "365ad1ca0817a6a49778335bccdd1b8fe4aec4de0ae74960ca074be7a82c76e2"]
  txid := "54e893f8f60e903f2629f96deebc1db0e3a61c530f31159b6fb3be5a19d629c3"

/-- The claim that spends both. -/
def minerPairClaim : MinerClaim where
  digits := ['a', 'd']
  prevOutHash := "55fcbd8829e80455b330cfd9b425dfc95015e16139abb01b150fa47510e21d26"
  seqsHash := "177b3e07206f9052d796bdc4dd8850a13b61e8ac8c7e9af76a69cdf52a24e965"
  sigopsHash := "ab8ca69e749aef0efc6e7b5992d30363eefa4ceb2cf36cc7468ba23274a8c43e"
  outsHash := "c7b0ca82a04f9618c69ecb99653ac294f681e3108a337e63954ec7dc11cf4efc"
  sighashes := [
    "e0aefe1800deae8c82b5e888a88b93ddc2eb3547541108e19bdb8e8499e4c3c9",
    "272a0e83458b38518982804b9f93d3ec372297f07aeaad9da891d93eae560124"]
  signatures := [
    "14bec6b3c060e88f8e86caa33e66c54fa21d27ce8c923258ce2bdba063e5b651" ++
      "a3b5b79f933374f69dc5056494ea624422c2cd24c16b38d886a914a854b41566",
    "2cf39f376b33858fdeb327269d8906c4c791cd1d75ef94843969a28fe1c3f935" ++
      "b645ef84d8cd7d50941c16ec52baeb727fe1f885c2ce8aca972636e12c8d3234"]
  txid := "8dde29e2c3d3a35d3479b925bff93588a2c3cc82a18fd6b75e15ac1e95b4febf"

def minerClaims : List MinerClaim := [minerClaim, minerSecondClaim, minerPairClaim]

def minerClaimTxid : String := minerClaim.txid

/-- In place of a digest, what is hashed. -/
def plainExternals : Externals where
  blake2b _ data := data
  signSchnorr _ digest := digest
  encodeLine := encodeLine
  pomV3ActivationDaa := 76316623

namespace MinerClaim

def inputs (c : MinerClaim) : List InputMeta :=
  c.digits.map fun digit => ⟨bytesOf (hashOf digit), 0, 1000000000⟩

/-- Its signature hashes: what is hashed, and the digest. -/
def signed (c : MinerClaim) : List (List UInt8 × List UInt8) :=
  let payout := buildP2pkScript minerKeys.payoutSpkBytes
  let script := buildEscrowScript minerKeys.pubkeyBytes challengeWindowBlocks
  let amountOut := 1000000000 * c.digits.length - claimFeeSompi
  let data := SighashReused.new plainExternals c.inputs amountOut 0 payout challengeWindowBlocks
  let reused : SighashReused :=
    ⟨bytesOf c.prevOutHash, bytesOf c.seqsHash, bytesOf c.sigopsHash, bytesOf c.outsHash⟩
  [(data.prevOutHash, reused.prevOutHash), (data.seqsHash, reused.seqsHash),
    (data.sigopsHash, reused.sigopsHash), (data.outsHash, reused.outsHash)] ++
  List.zipWith (fun input digest =>
    (computeSighash plainExternals input script reused challengeWindowBlocks, bytesOf digest))
    c.inputs c.sighashes

/-- What its txid is hashed from, and the digest. -/
def named (c : MinerClaim) : List UInt8 × List UInt8 :=
  (claimTxidPreimage c.inputs (1000000000 * c.digits.length - claimFeeSompi) 0
    (buildP2pkScript minerKeys.payoutSpkBytes) challengeWindowBlocks, bytesOf c.txid)

end MinerClaim

/-- Keyed Blake2b-256 on what the claims of `minerClaims` hash. -/
def minerBlake2b (key data : List UInt8) : List UInt8 :=
  let digests :=
    if key = ascii "TransactionID" then minerClaims.map (·.named) else minerClaims.flatMap (·.signed)
  (digests.lookup data).getD (List.replicate 32 0)

/-- The signatures of those claims. -/
def minerSignature (digest : List UInt8) : List UInt8 :=
  let signatures := minerClaims.flatMap fun c =>
    (c.sighashes.map bytesOf).zip (c.signatures.map bytesOf)
  (signatures.lookup digest).getD (List.replicate 64 0)

/-- Externals for concrete runs. -/
def minerExternals : Externals where
  blake2b := minerBlake2b
  signSchnorr _ := minerSignature
  encodeLine := encodeLine
  pomV3ActivationDaa := 76316623

/-- A block whose coinbase has one output, to the legacy escrow script of `minerKeys`. -/
def rewardBlock (txid hash : String) (daaScore : Nat) (isChainBlock : Bool) (reds : List String) :
    RpcBlock where
  daaScore := some daaScore
  transactions := [{
    version := 0
    inputs := []
    outputs := [{
      amount := 1000000000
      scriptPublicKey := some
        ⟨0, Text.hexEncode (buildEscrowScript minerKeys.pubkeyBytes challengeWindowBlocks)⟩ }]
    lockTime := 0
    subnetworkId := "0100000000000000000000000000000000000000"
    gas := 0
    payload := ""
    mass := 0
    transactionId := some txid }]
  verboseData := some ⟨hash, isChainBlock, reds⟩

/-- Files that can be written, at time 0. -/
def goodIo : Io := ⟨0, .saved, ⟨[], true⟩⟩

end KeryxMiner.Escrow
