import KeryxMiner.Escrow.Basic
import Mathlib.Algebra.GroupWithZero.Nat

/-!
# The claim transaction

`buildClaimTx` is `build_claim_tx` of `escrow.rs` with the scripts, the signature hash and the
transaction id it is made of. Blake2b and Schnorr signing are parameters.

The preimage of a claim txid names the inputs: when the source txids are written in lower case, two
claims with one preimage spend the same outpoints (`claimTxidPreimage_inj`, `outpoints_of_metas`).
-/

namespace KeryxMiner.Escrow

/-- `to_le_bytes` at a width of `k` bytes. -/
def leBytes (k n : Nat) : List UInt8 := (List.range k).map fun j => UInt8.ofNat (n / 256 ^ j)

@[simp] theorem leBytes_length (k n : Nat) : (leBytes k n).length = k := by simp [leBytes]

/-- A byte-string literal. -/
def ascii (s : String) : List UInt8 := s.toList.map fun c => UInt8.ofNat c.toNat

def buildEscrowScript (pubkey : List UInt8) (csvWindow : Nat) : List UInt8 :=
  let seqBytes := ((leBytes 8 csvWindow).reverse.dropWhile (· == 0)).reverse
  UInt8.ofNat seqBytes.length :: seqBytes ++ [opCsv, 0x20] ++ pubkey ++ [opChecksig]

def buildP2pkScript (pubkey : List UInt8) : List UInt8 := 0x20 :: pubkey ++ [opChecksig]

/-- Source txid bytes, output index and escrow amount of one claim input. -/
structure InputMeta where
  txid : List UInt8
  index : UInt32
  amount : Nat

def sighash (X : Externals) (data : List UInt8) : List UInt8 :=
  X.blake2b (ascii "TransactionSigningHash") data

/-- Sighash components shared by every input of a claim. -/
structure SighashReused where
  prevOutHash : List UInt8
  seqsHash : List UInt8
  sigopsHash : List UInt8
  outsHash : List UInt8

def SighashReused.new (X : Externals) (inputs : List InputMeta) (payoutAmount payoutSpkVersion : Nat)
    (payoutSpkScript : List UInt8) (csvWindow : Nat) : SighashReused where
  prevOutHash := sighash X (inputs.flatMap fun i => i.txid ++ leBytes 4 i.index.toNat)
  seqsHash := sighash X (inputs.flatMap fun _ => leBytes 8 csvWindow)
  sigopsHash := sighash X (inputs.flatMap fun _ => [1])
  outsHash := sighash X (leBytes 8 payoutAmount ++ leBytes 2 payoutSpkVersion ++
    leBytes 8 payoutSpkScript.length ++ payoutSpkScript)

/-- The Schnorr signature hash of one input, at `SIG_HASH_ALL`. -/
def computeSighash (X : Externals) (input : InputMeta) (escrowScript : List UInt8)
    (reused : SighashReused) (csvWindow : Nat) : List UInt8 :=
  sighash X (leBytes 2 0 ++ reused.prevOutHash ++ reused.seqsHash ++ reused.sigopsHash ++
    input.txid ++ leBytes 4 input.index.toNat ++ leBytes 2 0 ++ leBytes 8 escrowScript.length ++
    escrowScript ++ leBytes 8 input.amount ++ leBytes 8 csvWindow ++ [1] ++ reused.outsHash ++
    leBytes 8 0 ++ List.replicate 20 0 ++ leBytes 8 0 ++ List.replicate 32 0 ++ [sigHashAll])

/-- One input in the preimage of the transaction id: no signature script. -/
def InputMeta.idBytes (csvWindow : Nat) (i : InputMeta) : List UInt8 :=
  i.txid ++ leBytes 4 i.index.toNat ++ leBytes 8 0 ++ leBytes 8 csvWindow

def claimTxidPreimage (inputs : List InputMeta) (payoutAmount payoutSpkVersion : Nat)
    (payoutSpkScript : List UInt8) (csvWindow : Nat) : List UInt8 :=
  leBytes 2 0 ++ leBytes 8 inputs.length ++ inputs.flatMap (·.idBytes csvWindow) ++
    (leBytes 8 1 ++ leBytes 8 payoutAmount ++ leBytes 2 payoutSpkVersion ++
      leBytes 8 payoutSpkScript.length ++ payoutSpkScript ++ leBytes 8 0 ++ List.replicate 20 0 ++
      leBytes 8 0 ++ leBytes 8 0)

def computeClaimTxid (X : Externals) (inputs : List InputMeta) (payoutAmount payoutSpkVersion : Nat)
    (payoutSpkScript : List UInt8) (csvWindow : Nat) : String :=
  Text.hexEncode (X.blake2b (ascii "TransactionID")
    (claimTxidPreimage inputs payoutAmount payoutSpkVersion payoutSpkScript csvWindow))

def inputMeta (e : EscrowEntry) : Except String InputMeta :=
  match Text.hexDecode e.coinbaseTxid with
  | .error err => .error ("bad source txid: " ++ err)
  | .ok bytes =>
    if bytes.length = 32 then .ok ⟨bytes, e.outputIndex, e.amountSompi⟩
    else .error "source txid must be 32 bytes"

def inputsMeta : List EscrowEntry → Except String (List InputMeta)
  | [] => .ok []
  | e :: es =>
    match inputMeta e with
    | .error err => .error err
    | .ok i => (i :: ·) <$> inputsMeta es

def claimInput (X : Externals) (secretKey escrowScript : List UInt8) (reused : SighashReused)
    (csvWindow : Nat) (e : EscrowEntry) (i : InputMeta) : RpcTransactionInput where
  previousOutpoint := some (e.coinbaseTxid, e.outputIndex)
  signatureScript := Text.hexEncode (0x41 ::
    X.signSchnorr secretKey (computeSighash X i escrowScript reused csvWindow) ++ [sigHashAll])
  sequence := csvWindow
  sigOpCount := 1

/-- The claim transaction spending the given escrow outputs to the payout address, with its id. -/
def EscrowWatcher.buildClaimTx (X : Externals) (w : EscrowWatcher) (entries : List EscrowEntry) :
    Except String (String × RpcTransaction) :=
  match entries with
  | [] => .error "empty claim batch"
  | e :: _ =>
    if entries.any (·.csvWindow != e.csvWindow) then .error "claim batch mixes CSV windows"
    else
      let totalIn := (entries.map (·.amountSompi)).sum
      -- `checked_sub` of the fee, and a zero payout is refused as well
      if totalIn ≤ claimFeeSompi then .error "escrow amount too small to cover claim fee"
      else
        let amountOut := totalIn - claimFeeSompi
        match inputsMeta entries with
        | .error err => .error err
        | .ok metas =>
          let reused := SighashReused.new X metas amountOut w.payoutSpkVersion w.payoutSpkScript
            e.csvWindow
          let script := buildEscrowScript w.pubkeyBytes e.csvWindow
          .ok (computeClaimTxid X metas amountOut w.payoutSpkVersion w.payoutSpkScript e.csvWindow,
            { version := 0
              inputs := List.zipWith (claimInput X w.secretKey script reused e.csvWindow) entries metas
              outputs := [⟨amountOut, some ⟨w.payoutSpkVersion, w.payoutSpkScriptHex⟩⟩]
              lockTime := 0
              subnetworkId := nativeSubnetwork
              gas := 0
              payload := ""
              mass := 0
              transactionId := none })

/-! ## A claim txid names its outpoints -/

theorem leBytes_inj {m n : Nat} (hm : m < 2 ^ 32) (hn : n < 2 ^ 32)
    (h : leBytes 4 m = leBytes 4 n) : m = n := by
  simp only [leBytes, List.range, List.range.loop, List.map_cons, List.map_nil, List.cons.injEq,
    and_true] at h
  have key : ∀ k, UInt8.ofNat (m / 256 ^ k) = UInt8.ofNat (n / 256 ^ k) →
      m / 256 ^ k % 256 = n / 256 ^ k % 256 := fun k h => by
    simpa using congrArg UInt8.toNat h
  have h0 := key 0 h.1
  have h1 := key 1 h.2.1
  have h2 := key 2 h.2.2.1
  have h3 := key 3 h.2.2.2
  simp only [Nat.pow_zero, Nat.div_one, Nat.reducePow] at h0 h1 h2 h3
  omega

theorem inputMeta_spec {e : EscrowEntry} {i : InputMeta} (h : inputMeta e = .ok i) :
    Text.hexDecode e.coinbaseTxid = .ok i.txid ∧ i.txid.length = 32 ∧ i.index = e.outputIndex := by
  unfold inputMeta at h
  split at h
  · cases h
  · next bytes hb =>
    split at h
    · cases h; exact ⟨hb, ‹_›, rfl⟩
    · cases h

theorem inputsMeta_spec {es : List EscrowEntry} {is : List InputMeta} (h : inputsMeta es = .ok is) :
    List.Forall₂ (fun e i => inputMeta e = .ok i) es is := by
  induction es generalizing is with
  | nil => cases h; exact .nil
  | cons e es ih =>
    simp only [inputsMeta] at h
    split at h
    · cases h
    · next i hi =>
      cases hr : inputsMeta es with
      | error err => simp [hr, Functor.map, Except.map] at h
      | ok rest =>
        simp only [hr, Functor.map, Except.map, Except.ok.injEq] at h
        subst h
        exact .cons hi (ih hr)

theorem txid_length_of_metas {es : List EscrowEntry} {is : List InputMeta}
    (h : List.Forall₂ (fun e i => inputMeta e = .ok i) es is) : ∀ i ∈ is, i.txid.length = 32 := by
  induction h with
  | nil => simp
  | cons hi _ ih => exact List.forall_mem_cons.mpr ⟨(inputMeta_spec hi).2.1, ih⟩

theorem idBytes_length {csv : Nat} {i : InputMeta} (h : i.txid.length = 32) :
    (i.idBytes csv).length = 52 := by simp [InputMeta.idBytes, h]

theorem flatMap_idBytes_length {csv : Nat} {is : List InputMeta}
    (h : ∀ i ∈ is, i.txid.length = 32) : (is.flatMap (·.idBytes csv)).length = 52 * is.length := by
  induction is with
  | nil => rfl
  | cons i is ih =>
    simp only [List.flatMap_cons, List.length_append, List.length_cons,
      idBytes_length (h i List.mem_cons_self), ih fun j hj => h j (List.mem_cons_of_mem _ hj)]
    omega

theorem idBytes_inj {csv csv' : Nat} {is is' : List InputMeta}
    (h : ∀ i ∈ is, i.txid.length = 32) (h' : ∀ i ∈ is', i.txid.length = 32)
    (hlen : is.length = is'.length)
    (H : is.flatMap (·.idBytes csv) = is'.flatMap (·.idBytes csv')) :
    is.map (fun i => (i.txid, i.index)) = is'.map (fun i => (i.txid, i.index)) := by
  induction is generalizing is' with
  | nil => cases is' <;> simp_all
  | cons i is ih =>
    cases is' with
    | nil => simp at hlen
    | cons i' is' =>
      have hi := h i List.mem_cons_self
      have hi' := h' i' List.mem_cons_self
      simp only [List.flatMap_cons] at H
      obtain ⟨h1, h2⟩ := List.append_inj H (by rw [idBytes_length hi, idBytes_length hi'])
      obtain ⟨h1, -⟩ := List.append_inj h1 (by simp [hi, hi'])
      obtain ⟨h1, -⟩ := List.append_inj h1 (by simp [hi, hi'])
      obtain ⟨ht, hx⟩ := List.append_inj h1 (by rw [hi, hi'])
      have hx := UInt32.toNat_inj.mp (leBytes_inj i.index.toNat_lt i'.index.toNat_lt hx)
      have := ih (fun j hj => h j (List.mem_cons_of_mem _ hj))
        (fun j hj => h' j (List.mem_cons_of_mem _ hj)) (by simpa using hlen) h2
      simp [ht, hx, this]

theorem claimTxidPreimage_inj {is is' : List InputMeta} {a a' v csv csv' : Nat}
    {script : List UInt8} (h : ∀ i ∈ is, i.txid.length = 32) (h' : ∀ i ∈ is', i.txid.length = 32)
    (H : claimTxidPreimage is a v script csv = claimTxidPreimage is' a' v script csv') :
    is.map (fun i => (i.txid, i.index)) = is'.map (fun i => (i.txid, i.index)) := by
  have hlen : is.length = is'.length := by
    have := congrArg List.length H
    simp [claimTxidPreimage, flatMap_idBytes_length h, flatMap_idBytes_length h'] at this
    omega
  unfold claimTxidPreimage at H
  obtain ⟨H, -⟩ := List.append_inj H (by
    simp [flatMap_idBytes_length h, flatMap_idBytes_length h', hlen])
  exact idBytes_inj h h' hlen (List.append_inj H (by simp)).2

theorem outpoints_of_metas {es es' : List EscrowEntry} {is is' : List InputMeta}
    (hl : ∀ e ∈ es, Text.LowerHex e.coinbaseTxid) (hl' : ∀ e ∈ es', Text.LowerHex e.coinbaseTxid)
    (h : List.Forall₂ (fun e i => inputMeta e = .ok i) es is)
    (h' : List.Forall₂ (fun e i => inputMeta e = .ok i) es' is')
    (H : is.map (fun i => (i.txid, i.index)) = is'.map (fun i => (i.txid, i.index))) :
    es.map (·.outpoint) = es'.map (·.outpoint) := by
  induction h generalizing es' is' with
  | nil => cases h' <;> simp_all
  | @cons e i es is hi _ ih =>
    cases h' with
    | nil => simp at H
    | @cons e' i' es' is' hi' hrest =>
      simp only [List.map_cons, List.cons.injEq, Prod.mk.injEq] at H ⊢
      obtain ⟨hd, _, hx⟩ := inputMeta_spec hi
      obtain ⟨hd', _, hx'⟩ := inputMeta_spec hi'
      refine ⟨Prod.ext ?_ ?_, ih (fun e he => hl e (List.mem_cons_of_mem _ he))
        (fun e he => hl' e (List.mem_cons_of_mem _ he)) hrest H.2⟩
      · exact Text.hexDecode_inj (hl _ List.mem_cons_self) (hl' _ List.mem_cons_self) hd
          (H.1.1 ▸ hd')
      · exact hx.symm.trans (H.1.2.trans hx')

end KeryxMiner.Escrow
