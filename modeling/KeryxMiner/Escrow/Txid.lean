import KeryxMiner.Escrow.Starvation
import KeryxMiner.LittleEndian

/-!
# The id of a claim

`computeRpcTxid` is `compute_rpc_txid` of the gRPC client, which computes the id of a transaction
from its message. For a claim it hashes what `compute_claim_txid` hashes, and the claims of one
watcher have the same preimage exactly if they spend the same outputs in the same order, in the same
window and with the same total (`claimTxid_eq_rpcTxid`).
-/

namespace KeryxMiner.Escrow

/-! ## The id of a message -/

/-- One input in the preimage: its signature script is left out. -/
def rpcInputBytes (input : RpcTransactionInput) : Option (List UInt8) := do
  let prev ← input.previousOutpoint
  let txidBytes ← (Text.hexDecode prev.1).toOption
  if txidBytes.length ≠ 32 then none
  else return txidBytes ++ leBytes 4 prev.2.toNat ++ leBytes 8 0 ++ leBytes 8 input.sequence

def rpcOutputBytes (output : RpcTransactionOutput) : Option (List UInt8) := do
  let spk ← output.scriptPublicKey
  let script ← (Text.hexDecode spk.scriptPublicKey).toOption
  return leBytes 8 output.amount ++ leBytes 2 spk.version ++ leBytes 8 script.length ++ script

/-- The bytes of a list of parts. -/
def allBytes {α : Type} (bytes : α → Option (List UInt8)) : List α → Option (List UInt8)
  | [] => some []
  | a :: as => do return (← bytes a) ++ (← allBytes bytes as)

/-- What `compute_rpc_txid` hashes. -/
def rpcTxidPreimage (tx : RpcTransaction) : Option (List UInt8) := do
  let inputs ← allBytes rpcInputBytes tx.inputs
  let outputs ← allBytes rpcOutputBytes tx.outputs
  let subnet ← (Text.hexDecode tx.subnetworkId).toOption
  if subnet.length ≠ 20 then none
  else
    let payload ← (Text.hexDecode tx.payload).toOption
    return leBytes 2 tx.version ++ leBytes 8 tx.inputs.length ++ inputs ++
      (leBytes 8 tx.outputs.length ++ outputs ++ leBytes 8 tx.lockTime ++ subnet ++
        leBytes 8 tx.gas ++ leBytes 8 payload.length ++ payload)

/-- The transaction id of a message. -/
def computeRpcTxid (X : Externals) (tx : RpcTransaction) : Option String :=
  (rpcTxidPreimage tx).map fun preimage =>
    Text.hexEncode (X.blake2b (ascii "TransactionID") preimage)

/-- What a claim spends, and what it is signed for: all that two claims of a watcher differ in. -/
@[ext] structure ClaimContent where
  outpoints : List (List UInt8 × UInt32)
  csvWindow : UInt64
  total : UInt64
  deriving DecidableEq

def claimContent (es : List EscrowEntry) : ClaimContent where
  outpoints := es.map fun e => ((Text.hexDecode e.coinbaseTxid).toOption.getD [], e.outputIndex)
  csvWindow := .ofNat ((es.head?.map (·.csvWindow)).getD 0)
  total := .ofNat (es.map (·.amountSompi)).sum

/-! ## Little-endian numbers -/

theorem leBytes_eq_toLe {k n : Nat} : leBytes k n = toLe k n := by
  induction k generalizing n with
  | zero => rfl
  | succ k ih =>
    rw [leBytes, List.range_succ_eq_map, List.map_cons, List.map_map, toLe, ← ih, leBytes]
    congr 1
    · rw [Nat.pow_zero, Nat.div_one]
    · apply List.map_congr_left
      intro j _
      rw [Function.comp_apply, Nat.pow_succ, Nat.mul_comm, Nat.div_div_eq_div_mul]

theorem leBytes_eq_iff {k m n : Nat} : leBytes k m = leBytes k n ↔ m % 256 ^ k = n % 256 ^ k := by
  rw [leBytes_eq_toLe, leBytes_eq_toLe]
  constructor
  · intro h
    rw [← ofLe_toLe_mod, h, ofLe_toLe_mod]
  · intro h
    have hm := toLe_ofLe (toLe k m)
    have hn := toLe_ofLe (toLe k n)
    rw [length_toLe, ofLe_toLe_mod] at hm hn
    rw [← hm, h, hn]

/-! ## The message of a claim -/

variable {X : Externals} {w : EscrowWatcher} {es es' : List EscrowEntry} {e : EscrowEntry}
  {i : InputMeta} {metas metas' : List InputMeta} {csv csv' amount amount' : Nat}
  {txid : String} {tx : RpcTransaction}

/-- What `build_claim_tx` returns for some entries of the window `csv`. -/
structure Built (X : Externals) (w : EscrowWatcher) (es : List EscrowEntry) (metas : List InputMeta)
    (csv : Nat) (txid : String) (tx : RpcTransaction) : Prop where
  nonempty : es ≠ []
  window : es.head?.map (·.csvWindow) = some csv
  fee : claimFeeSompi < (es.map (·.amountSompi)).sum
  inputs : List.Forall₂ (fun e i => inputMeta e = .ok i) es metas
  txid : txid = computeClaimTxid X metas ((es.map (·.amountSompi)).sum - claimFeeSompi)
    w.payoutSpkVersion w.payoutSpkScript csv
  tx : ∃ script reused, tx = {
    version := 0
    inputs := List.zipWith (claimInput X w.secretKey script reused csv) es metas
    outputs := [⟨(es.map (·.amountSompi)).sum - claimFeeSompi,
      some ⟨w.payoutSpkVersion, w.payoutSpkScriptHex⟩⟩]
    lockTime := 0, subnetworkId := nativeSubnetwork, gas := 0, payload := "", mass := 0
    transactionId := none }

theorem exists_built (h : w.buildClaimTx X es = .ok (txid, tx)) :
    ∃ metas csv, Built X w es metas csv txid tx := by
  rw [EscrowWatcher.buildClaimTx.eq_def] at h
  split at h
  · cases h
  · next e rest =>
    simp only at h
    split at h
    · cases h
    · split at h
      · cases h
      · next htotal =>
        split at h
        · cases h
        · next metas hmetas =>
          rw [Except.ok.injEq, Prod.mk.injEq] at h
          exact ⟨metas, e.csvWindow, {
            nonempty := List.cons_ne_nil e rest
            window := rfl
            fee := Nat.not_le.mp htotal
            inputs := inputsMeta_spec hmetas
            txid := h.1.symm
            tx := ⟨_, _, h.2.symm⟩ }⟩

theorem rpcInputBytes_claimInput {secretKey script : List UInt8} {reused : SighashReused}
    (h : inputMeta e = .ok i) :
    rpcInputBytes (claimInput X secretKey script reused csv e i) = some (i.idBytes csv) := by
  obtain ⟨hdecode, hlen, hindex⟩ := inputMeta_spec h
  rw [rpcInputBytes, claimInput]
  simp [hdecode, Except.toOption, hlen, InputMeta.idBytes, hindex]

theorem allBytes_claimInputs {secretKey script : List UInt8} {reused : SighashReused}
    (h : List.Forall₂ (fun e i => inputMeta e = .ok i) es metas) :
    allBytes rpcInputBytes (List.zipWith (claimInput X secretKey script reused csv) es metas) =
      some (metas.flatMap (·.idBytes csv)) := by
  induction h with
  | nil => rfl
  | cons hi _ ih =>
    rw [List.zipWith_cons_cons, allBytes, ih, rpcInputBytes_claimInput hi]
    rfl

/-- The message of a claim is hashed from the preimage of its id. -/
theorem Built.preimage (h : Built X w es metas csv txid tx)
    (hhex : w.payoutSpkScriptHex = Text.hexEncode w.payoutSpkScript) :
    rpcTxidPreimage tx = some (claimTxidPreimage metas
      ((es.map (·.amountSompi)).sum - claimFeeSompi) w.payoutSpkVersion w.payoutSpkScript csv) := by
  obtain ⟨script, reused, rfl⟩ := h.tx
  have hlen : (List.zipWith (claimInput X w.secretKey script reused csv) es metas).length =
      metas.length := by
    rw [List.length_zipWith, h.inputs.length_eq, Nat.min_self]
  have hsubnet : Text.hexDecode nativeSubnetwork = .ok (List.replicate 20 0) := by decide +kernel
  have hpayload : Text.hexDecode "" = .ok [] := by decide +kernel
  have houtput : ∀ amount, allBytes rpcOutputBytes
      [⟨amount, some ⟨w.payoutSpkVersion, w.payoutSpkScriptHex⟩⟩] =
        some (leBytes 8 amount ++ leBytes 2 w.payoutSpkVersion ++
          leBytes 8 w.payoutSpkScript.length ++ w.payoutSpkScript) := by
    intro amount
    simp [allBytes, rpcOutputBytes, hhex, Text.hexDecode_hexEncode, Except.toOption]
  rw [rpcTxidPreimage]
  simp [allBytes_claimInputs h.inputs, houtput, hsubnet, hpayload, Except.toOption, hlen,
    claimTxidPreimage]

/-! ## Claims with one preimage -/

/-- The outpoint of an input in bytes. -/
def InputMeta.outpoint (i : InputMeta) : List UInt8 × UInt32 := (i.txid, i.index)

theorem flatMap_idBytes : metas.flatMap (·.idBytes csv) =
    (metas.map (·.outpoint)).flatMap fun o =>
      o.1 ++ leBytes 4 o.2.toNat ++ leBytes 8 0 ++ leBytes 8 csv := by
  rw [List.flatMap_map]
  rfl

/-- The preimage names the outpoints, the window and the payout. -/
theorem claimTxidPreimage_eq_iff {version : Nat} {script : List UInt8} (hne : metas ≠ [])
    (h : ∀ i ∈ metas, i.txid.length = 32) (h' : ∀ i ∈ metas', i.txid.length = 32) :
    claimTxidPreimage metas amount version script csv =
        claimTxidPreimage metas' amount' version script csv' ↔
      metas.map (·.outpoint) = metas'.map (·.outpoint) ∧ csv % 2 ^ 64 = csv' % 2 ^ 64 ∧
        amount % 2 ^ 64 = amount' % 2 ^ 64 := by
  have hpow : 2 ^ 64 = 256 ^ 8 := by decide
  rw [hpow, ← leBytes_eq_iff, ← leBytes_eq_iff]
  constructor
  · intro heq
    have hout : metas.map (·.outpoint) = metas'.map (·.outpoint) := claimTxidPreimage_inj h h' heq
    have hlen : metas.length = metas'.length := by
      have hmaps := congrArg List.length hout
      rwa [List.length_map, List.length_map] at hmaps
    rw [claimTxidPreimage, claimTxidPreimage] at heq
    have hinputs : (leBytes 2 0 ++ leBytes 8 metas.length ++
        metas.flatMap (·.idBytes csv)).length = (leBytes 2 0 ++ leBytes 8 metas'.length ++
          metas'.flatMap (·.idBytes csv')).length := by
      simp [flatMap_idBytes_length h, flatMap_idBytes_length h', hlen]
    obtain ⟨hin, hrest⟩ := List.append_inj heq hinputs
    refine ⟨hout, ?_, ?_⟩
    · have hids := (List.append_inj hin (by simp)).2
      cases metas with
      | nil => exact absurd rfl hne
      | cons i metas =>
        cases metas' with
        | nil => cases hlen
        | cons i' metas' =>
          have hi := h i List.mem_cons_self
          have hi' := h' i' List.mem_cons_self
          rw [List.flatMap_cons, List.flatMap_cons] at hids
          have hfirst := (List.append_inj hids (by rw [idBytes_length hi, idBytes_length hi'])).1
          rw [InputMeta.idBytes, InputMeta.idBytes] at hfirst
          exact (List.append_inj hfirst (by simp [hi, hi'])).2
    · simp only [List.append_assoc, List.append_cancel_left_eq] at hrest
      exact (List.append_inj hrest (by simp)).1
  · rintro ⟨hout, hcsv, hamount⟩
    have hlen := congrArg List.length hout
    rw [List.length_map, List.length_map] at hlen
    rw [claimTxidPreimage, claimTxidPreimage, flatMap_idBytes, flatMap_idBytes, hout, hcsv, hamount,
      hlen]

theorem u64_eq_iff {m n : Nat} :
    UInt64.ofNat m = UInt64.ofNat n ↔ m % 2 ^ 64 = n % 2 ^ 64 := by
  rw [← UInt64.toNat_inj, UInt64.toNat_ofNat', UInt64.toNat_ofNat']

theorem outpoints_eq (h : List.Forall₂ (fun e i => inputMeta e = .ok i) es metas) :
    (claimContent es).outpoints = metas.map (·.outpoint) := by
  change es.map (fun e => ((Text.hexDecode e.coinbaseTxid).toOption.getD [], e.outputIndex)) = _
  induction h with
  | nil => rfl
  | cons hi _ ih =>
    obtain ⟨hdecode, -, hindex⟩ := inputMeta_spec hi
    rw [List.map_cons, List.map_cons, ih, hdecode, InputMeta.outpoint, hindex]
    rfl

/-- Two claims of a watcher have one preimage exactly if they have one content. -/
theorem Built.preimage_eq_iff {txid' : String} {tx' : RpcTransaction}
    (h : Built X w es metas csv txid tx) (h' : Built X w es' metas' csv' txid' tx')
    (hhex : w.payoutSpkScriptHex = Text.hexEncode w.payoutSpkScript) :
    rpcTxidPreimage tx = rpcTxidPreimage tx' ↔ claimContent es = claimContent es' := by
  have hne : metas ≠ [] := by
    intro hnil
    have hlen := h.inputs.length_eq
    rw [hnil, List.length_nil, List.length_eq_zero_iff] at hlen
    exact h.nonempty hlen
  have hwindow : (claimContent es).csvWindow = .ofNat csv := by rw [claimContent, h.window]; rfl
  have hwindow' : (claimContent es').csvWindow = .ofNat csv' := by
    rw [claimContent, h'.window]; rfl
  have hfee := h.fee
  have hfee' := h'.fee
  rw [h.preimage hhex, h'.preimage hhex, Option.some.injEq,
    claimTxidPreimage_eq_iff hne (txid_length_of_metas h.inputs) (txid_length_of_metas h'.inputs),
    ClaimContent.ext_iff, outpoints_eq h.inputs, outpoints_eq h'.inputs, hwindow, hwindow',
    u64_eq_iff, claimContent, claimContent, u64_eq_iff]
  generalize (es.map (·.amountSompi)).sum = total, (es'.map (·.amountSompi)).sum = total' at *
  have htotal : (total - claimFeeSompi) % 2 ^ 64 = (total' - claimFeeSompi) % 2 ^ 64 ↔
      total % 2 ^ 64 = total' % 2 ^ 64 := by
    omega
  rw [htotal]

/-- The id of a claim is the id of its message, from one preimage; and two claims of a watcher have
different preimages exactly if they spend other outpoints, in another window or with another total.
Where the hash separates the two preimages, only claims of one content share an id. -/
theorem claimTxid_eq_rpcTxid (X : Externals) (w : EscrowWatcher) (es : List EscrowEntry)
    (txid : String) (tx : RpcTransaction)
    (hhex : w.payoutSpkScriptHex = Text.hexEncode w.payoutSpkScript)
    (h : w.buildClaimTx X es = .ok (txid, tx)) :
    (∃ metas csv, Built X w es metas csv txid tx ∧ rpcTxidPreimage tx = some (claimTxidPreimage metas
      ((es.map (·.amountSompi)).sum - claimFeeSompi) w.payoutSpkVersion w.payoutSpkScript csv)) ∧
    computeRpcTxid X tx = some txid ∧
    ∀ es' txid' tx', w.buildClaimTx X es' = .ok (txid', tx') →
      (rpcTxidPreimage tx = rpcTxidPreimage tx' ↔ claimContent es = claimContent es') ∧
      (∀ p p', rpcTxidPreimage tx = some p → rpcTxidPreimage tx' = some p' →
        (X.blake2b (ascii "TransactionID") p = X.blake2b (ascii "TransactionID") p' → p = p') →
          txid = txid' → claimContent es = claimContent es') := by
  obtain ⟨metas, csv, hbuilt⟩ := exists_built h
  have hpreimage := hbuilt.preimage hhex
  have htxid : computeRpcTxid X tx = some txid := by
    rw [computeRpcTxid, hpreimage, hbuilt.txid]
    rfl
  refine ⟨⟨metas, csv, hbuilt, hpreimage⟩, htxid, ?_⟩
  intro es' txid' tx' h'
  obtain ⟨metas', csv', hbuilt'⟩ := exists_built h'
  have hiff := hbuilt.preimage_eq_iff hbuilt' hhex
  refine ⟨hiff, ?_⟩
  intro p p' hp hp' hsep heq
  rw [← hiff, hp, hp']
  have htxid' : computeRpcTxid X tx' = some txid' := by
    rw [computeRpcTxid, hbuilt'.preimage hhex, hbuilt'.txid]
    rfl
  rw [computeRpcTxid, hp, Option.map_some, Option.some.injEq] at htxid
  rw [computeRpcTxid, hp', Option.map_some, Option.some.injEq] at htxid'
  rw [← htxid, ← htxid'] at heq
  rw [hsep (Text.hexEncode_inj heq)]

/-- A reward whose txid is written in upper case. -/
def upperReward : EscrowEntry where
  coinbaseTxid := hashOf 'A'
  blockHash := ""
  confirmDaa := 0
  amountSompi := 1000000000
  outputIndex := 0
  claimed := false
  slashed := false
  orphanSlashed := false
  orphanRetries := 0
  orphanRetryAfterDaa := none
  submitRetries := 0
  batchCap := 0
  capSetDaa := 0
  isInference := false
  csvWindow := challengeWindowBlocks

theorem claimTxid_eq_rpcTxid_upper : ∃ txid tx,
    EscrowWatcher.stalled.buildClaimTx minerExternals [upperReward] = .ok (txid, tx) ∧
      computeRpcTxid minerExternals tx = some txid := by
  have hbuild : Buildable [upperReward] := by decide +kernel
  obtain ⟨⟨txid, tx⟩, hok⟩ := (exists_buildClaimTx (X := minerExternals) (w := .stalled)
    (List.cons_ne_nil _ _) (by simp)).mpr hbuild
  exact ⟨txid, tx, hok, (claimTxid_eq_rpcTxid minerExternals .stalled [upperReward] txid tx rfl
    hok).2.1⟩

end KeryxMiner.Escrow
