import KeryxMiner.MerkleBinding
import KeryxMiner.Escrow.Invariants
import KeryxMiner.Escrow.Txid

/-!
# The claims in flight

The watcher keeps the claims in flight by txid, and the keys of their outpoints in a set of its own.
`InFlightOk` says that the two agree: the set is the union of the outpoint lists, which are disjoint
and free of repetition. A claim whose txid is in flight already would break it, since the map keeps
one claim for a txid. Where the hash separates what the txids of the claims sent are hashed from
(`sentPreimages`), the txid names the outpoints, and those in flight are not selected again.
-/

namespace KeryxMiner.Escrow

open EscrowWatcher

variable {X : Externals} {A : Effects} {w w' : EscrowWatcher} {s : Sys}

/-! ## The set of outpoints -/

theorem mem_foldl_insert {os : List Outpoint} {keys : Finset String} {k : String} :
    k ∈ os.foldl (fun s o => insert o.key s) keys ↔ k ∈ keys ∨ ∃ o ∈ os, o.key = k := by
  induction os generalizing keys with
  | nil => simp
  | cons o os ih =>
    simp only [List.foldl_cons, ih, Finset.mem_insert, List.mem_cons, exists_eq_or_imp]
    tauto

theorem mem_foldl_erase {os : List Outpoint} {keys : Finset String} {k : String} :
    k ∈ os.foldl (fun s o => s.erase o.key) keys ↔ k ∈ keys ∧ ∀ o ∈ os, o.key ≠ k := by
  induction os generalizing keys with
  | nil => simp
  | cons o os ih =>
    simp only [List.foldl_cons, ih, Finset.mem_erase, List.mem_cons, forall_eq_or_imp]
    tauto

/-- The claim with txid `txid` is in flight. -/
def EscrowWatcher.Flies (w : EscrowWatcher) (txid : String) (c : InFlightClaim) : Prop :=
  w.inFlight.lookup txid = some c

theorem Flies.unique {txid : String} {c c' : InFlightClaim} (h : w.Flies txid c)
    (h' : w.Flies txid c') : c = c' := Option.some.inj (h.symm.trans h')

theorem matchedClaim_flies {txid : String} {error : Option String} {pick : Nat} {c : InFlightClaim}
    (h : w.matchedClaim txid error pick = some c) : ∃ t, w.Flies t c := by
  obtain ⟨t, _, h⟩ := Option.bind_eq_some_iff.mp h
  exact ⟨t, h⟩

/-- What a move does to the claims in flight. -/
inductive Flight (X : Externals) (A : Effects) (w w' : EscrowWatcher) : Prop
  | same (hf : w'.inFlight = w.inFlight) (ho : w'.inFlightOutpoints = w.inFlightOutpoints)
  | dropped (txid : String) (c : InFlightClaim) (h : w.Flies txid c)
      (hf : w'.inFlight = w.inFlight.erase txid)
      (ho : w'.inFlightOutpoints =
        c.outpoints.foldl (fun s o => s.erase o.key) w.inFlightOutpoints)
  | shipped (daaScore : Nat) (claimTxid : String) (batch : List EscrowEntry)
      (h : Ships X w daaScore claimTxid batch) (hd : A.ships daaScore)
      (hw : w' = w.ship daaScore claimTxid batch)

theorem Move.flight (h : Move X A w w') : Flight X A w w' := by
  cases h with
  | tick h => exact .same h.inFlight h.inFlightOutpoints
  | see | log | touch | track => exact .same rfl rfl
  | compact =>
    refine .same ?_ ?_ <;>
    · unfold EscrowWatcher.compact
      simp only
      split <;> rfl
  | removeBlock hash n =>
    let P : EscrowWatcher → Prop := fun w' =>
      w'.inFlight = w.inFlight ∧ w'.inFlightOutpoints = w.inFlightOutpoints
    have : P (removeChainBlock (w, n) hash).1 := removeChainBlock_keeps
      ⟨rfl, rfl⟩ (fun p i h => by
        unfold releaseAt slashAt
        grind [setEntries, appendJournalLine]) ⟨rfl, rfl⟩
    exact .same this.1 this.2
  | drop txid =>
    unfold EscrowWatcher.dropClaim
    split
    · exact .same rfl rfl
    · next c hc => exact .dropped txid c hc rfl rfl
  | ship h hd => exact .shipped _ _ _ h hd rfl

/-- The outpoints of a shipped batch are distinct: its entries are live and live entries have
distinct outpoints. -/
theorem Ships.outpoints_nodup {daaScore : Nat} {claimTxid : String} {batch : List EscrowEntry}
    (h : Ships X w daaScore claimTxid batch) (H : Tracked w) : (batch.map (·.outpoint)).Nodup := by
  obtain ⟨indices, hb, rfl⟩ := h.selected
  clear h
  obtain ⟨hnd, hel, -, -⟩ := hb
  induction indices with
  | nil => exact List.nodup_nil
  | cons i is ih =>
    obtain ⟨hi, hnd⟩ := List.nodup_cons.mp hnd
    obtain ⟨e, he, hele⟩ := hel i List.mem_cons_self
    have hel := fun j hj => hel j (List.mem_cons_of_mem _ hj)
    rw [List.filterMap_cons_some he, List.map_cons, List.nodup_cons]
    refine ⟨fun hmem => ?_, ih hnd hel⟩
    obtain ⟨e', he', ho⟩ := List.mem_map.mp hmem
    obtain ⟨j, hj, hje⟩ := List.mem_filterMap.mp he'
    obtain ⟨e'', he'', hele'⟩ := hel j hj
    cases hje.symm.trans he''
    have := H.liveLast.unique hje he (eligible_live hele') (eligible_live hele) ho
    exact hi (this ▸ hj)

theorem Ships.entry {daaScore : Nat} {claimTxid : String} {batch : List EscrowEntry}
    (h : Ships X w daaScore claimTxid batch) {e : EscrowEntry} (he : e ∈ batch) :
    e ∈ w.entries ∧ eligible daaScore w.inFlightOutpoints e := by
  obtain ⟨indices, hb, rfl⟩ := h.selected
  obtain ⟨i, hi, hie⟩ := List.mem_filterMap.mp he
  obtain ⟨e', he', hel⟩ := hb.eligible i hi
  cases hie.symm.trans he'
  exact ⟨List.mem_of_getElem? hie, hel⟩

theorem Ships.cap {daaScore : Nat} {claimTxid : String} {batch : List EscrowEntry}
    (h : Ships X w daaScore claimTxid batch) {e : EscrowEntry} (he : e ∈ batch) :
    batch.length ≤ e.cap := by
  obtain ⟨indices, hb, rfl⟩ := h.selected
  obtain ⟨i, hi, hie⟩ := List.mem_filterMap.mp he
  exact (List.length_filterMap_le ..).trans (hb.cap i hi e hie)

theorem ship_flies {daaScore : Nat} {claimTxid txid : String} {batch : List EscrowEntry}
    {c : InFlightClaim} : (w.ship daaScore claimTxid batch).Flies txid c ↔
      txid = claimTxid ∧ c = ⟨batch.map (·.outpoint), daaScore⟩ ∨
        txid ≠ claimTxid ∧ w.Flies txid c := by
  unfold EscrowWatcher.Flies EscrowWatcher.ship
  by_cases h : txid = claimTxid
  · subst h
    simp [AList.lookup_insert, eq_comm]
  · simp [AList.lookup_insert_ne h, h]

theorem erase_flies {txid txid' : String} {c : InFlightClaim}
    (hf : w'.inFlight = w.inFlight.erase txid) :
    w'.Flies txid' c ↔ txid' ≠ txid ∧ w.Flies txid' c := by
  unfold EscrowWatcher.Flies
  rw [hf]
  by_cases h : txid' = txid
  · subst h
    simp [AList.lookup_erase]
  · simp [AList.lookup_erase_ne h, h]

/-- The outpoints of each claim in flight are distinct. -/
def FlightNodup (w : EscrowWatcher) : Prop := ∀ txid c, w.Flies txid c → c.outpoints.Nodup

theorem FlightNodup.move (h : Move X A w w') (ht : Tracked w) (H : FlightNodup w) :
    FlightNodup w' := by
  intro txid c hc
  cases h.flight with
  | same hf => exact H txid c (by rwa [Flies, ← hf])
  | dropped _ _ _ hf => exact H txid c ((erase_flies hf).mp hc).2
  | shipped daaScore claimTxid batch hs _ hw =>
    subst hw
    rcases ship_flies.mp hc with ⟨-, rfl⟩ | ⟨-, hc⟩
    · exact hs.outpoints_nodup ht
    · exact H txid c hc

theorem FlightNodup.step (op : Op) (hok : s.Ok) (H : FlightNodup s.w) :
    FlightNodup (step X s op).w := by
  by_cases hop : ∃ now, op = .restart now
  · obtain ⟨now, rfl⟩ := hop
    intro txid c hc
    cases hc
  · exact (step_keeps (P := fun w => Tracked w ∧ FlightNodup w) (fun now h => hop ⟨now, h⟩)
      (fun w w' h H => ⟨H.1.move Op.effects_le h, H.2.move h H.1⟩)
      ⟨hok.tracked, H⟩).2

/-- The claims in flight are disjoint, and their outpoints are kept from selection. -/
structure Apart (w : EscrowWatcher) : Prop where
  watched : ∀ txid c, w.Flies txid c → ∀ o ∈ c.outpoints, o.key ∈ w.inFlightOutpoints
  disjoint : ∀ txid txid' c c', w.Flies txid c → w.Flies txid' c' → txid ≠ txid' →
    ∀ o ∈ c.outpoints, o ∉ c'.outpoints

theorem Apart.move (h : Move X A w w') (H : Apart w) : Apart w' := by
  cases h.flight with
  | same hf ho =>
    have hflies : ∀ {txid c}, w'.Flies txid c → w.Flies txid c := fun h => by rwa [Flies, ← hf]
    exact ⟨fun txid c hc o hoc => ho ▸ H.watched _ _ (hflies hc) o hoc,
      fun _ _ _ _ hc hc' => H.disjoint _ _ _ _ (hflies hc) (hflies hc')⟩
  | dropped txid₀ c₀ h₀ hf ho =>
    refine ⟨fun txid c hc o hoc => ?_, fun txid txid' c c' hc hc' => ?_⟩
    · obtain ⟨hne, hc⟩ := (erase_flies hf).mp hc
      rw [ho, mem_foldl_erase]
      refine ⟨H.watched _ _ hc o hoc, fun o' ho' hk => ?_⟩
      exact H.disjoint _ _ _ _ hc h₀ hne o hoc (Outpoint.key_inj hk ▸ ho')
    · exact H.disjoint _ _ _ _ ((erase_flies hf).mp hc).2 ((erase_flies hf).mp hc').2
  | shipped daaScore claimTxid batch hs _ hw =>
    subst hw
    have hnew : ∀ txid c, w.Flies txid c → ∀ o ∈ batch.map (·.outpoint), o ∉ c.outpoints := by
      intro txid c hc o ho hoc
      obtain ⟨e, he, rfl⟩ := List.mem_map.mp ho
      exact eligible_not_inFlight (hs.entry he).2 (H.watched txid c hc _ hoc)
    refine ⟨fun txid c hc o hoc => ?_, fun txid txid' c c' hc hc' hne o hoc => ?_⟩
    · change o.key ∈ (batch.map (·.outpoint)).foldl (fun s o => insert o.key s) w.inFlightOutpoints
      rw [mem_foldl_insert]
      rcases ship_flies.mp hc with ⟨-, rfl⟩ | ⟨-, hc⟩
      · exact .inr ⟨o, hoc, rfl⟩
      · exact .inl (H.watched _ _ hc o hoc)
    · rcases ship_flies.mp hc with ⟨rfl, rfl⟩ | ⟨-, h₁⟩ <;>
        rcases ship_flies.mp hc' with ⟨rfl, rfl⟩ | ⟨-, h₂⟩
      · exact absurd rfl hne
      · exact hnew _ _ h₂ o hoc
      · exact fun ho => hnew _ _ h₁ o ho hoc
      · exact H.disjoint _ _ _ _ h₁ h₂ hne o hoc

theorem Apart.step (op : Op) (H : Apart s.w) : Apart (step X s op).w := by
  by_cases hop : ∃ now, op = .restart now
  · obtain ⟨now, rfl⟩ := hop
    exact ⟨fun _ _ hc => (by cases hc), fun _ _ _ _ hc => by cases hc⟩
  · exact step_keeps (P := Apart) (fun now h => hop ⟨now, h⟩) (fun _ _ h H => H.move h) H

/-! ## The map and the set agree -/

structure InFlightOk (w : EscrowWatcher) : Prop where
  union : ∀ k, k ∈ w.inFlightOutpoints ↔ ∃ txid c, w.Flies txid c ∧ ∃ o ∈ c.outpoints, o.key = k
  nodup : FlightNodup w
  disjoint : ∀ txid txid' c c', w.Flies txid c → w.Flies txid' c' → txid ≠ txid' →
    ∀ o ∈ c.outpoints, o ∉ c'.outpoints
  room : w.inFlight.keys.length ≤ maxInFlightClaims

theorem InFlightOk.apart (H : InFlightOk w) : Apart w :=
  ⟨fun txid c hc o ho => (H.union _).mpr ⟨txid, c, hc, o, ho, rfl⟩, H.disjoint⟩

/-! ## What the txids are hashed from -/

/-- The claim that a call sends. -/
def sent (X : Externals) (s : Sys) : Op → Option RpcTransaction
  | .handleBlock block io => (s.handleBlock X block io).2
  | .findClaim daaScore => (s.w.findClaim X daaScore).2
  | _ => none

/-- What the txid of the claim that a call sends is hashed from. -/
def sentPreimage (X : Externals) (s : Sys) (op : Op) : List (List UInt8) :=
  ((sent X s op).bind rpcTxidPreimage).toList

/-- What the txids of the claims sent in a run are hashed from. -/
def sentPreimages (X : Externals) : Sys → List Op → List (List UInt8)
  | _, [] => []
  | s, op :: ops => sentPreimage X s op ++ sentPreimages X (step X s op) ops

/-- `p` is what the txid of a claim of the outpoints `os` is hashed from. -/
def Names (w : EscrowWatcher) (p : List UInt8) (os : List Outpoint) : Prop :=
  ∃ es metas amount csv, List.Forall₂ (fun e i => inputMeta e = .ok i) es metas ∧
    p = claimTxidPreimage metas amount w.payoutSpkVersion w.payoutSpkScript csv ∧
    os = es.map (·.outpoint) ∧ ∀ e ∈ es, Text.LowerHex e.coinbaseTxid

theorem Names.unique {p : List UInt8} {os os' : List Outpoint} (h : Names w p os) (h' : Names w p os') :
    os = os' := by
  obtain ⟨es, metas, amount, csv, hm, hp, rfl, hhex⟩ := h
  obtain ⟨es', metas', amount', csv', hm', hp', rfl, hhex'⟩ := h'
  exact outpoints_of_metas hhex hhex' hm hm' (claimTxidPreimage_inj (txid_length_of_metas hm)
    (txid_length_of_metas hm') (hp.symm.trans hp'))

theorem Names.sameKeys {p : List UInt8} {os : List Outpoint} (hk : SameKeys w w') (h : Names w p os) :
    Names w' p os := by
  unfold Names at h ⊢
  rwa [hk.payoutSpkVersion, hk.payoutSpkScript]

/-- Every claim in flight has the txid that one of `past` hashes to, which names its outpoints. -/
def FlightBuilt (X : Externals) (past : List (List UInt8)) (w : EscrowWatcher) : Prop :=
  ∀ txid c, w.Flies txid c → ∃ p ∈ past,
    txid = Text.hexEncode (X.blake2b (ascii "TransactionID") p) ∧ Names w p c.outpoints

variable {past : List (List UInt8)}

theorem FlightBuilt.mono {later : List (List UInt8)} (H : FlightBuilt X past w) :
    FlightBuilt X (past ++ later) w := fun txid c hc => by
  obtain ⟨p, hp, h⟩ := H txid c hc
  exact ⟨p, List.mem_append_left _ hp, h⟩

theorem FlightBuilt.quiet (h : Move X A w w') (hS : ∀ d, ¬ A.ships d) (H : FlightBuilt X past w) :
    FlightBuilt X past w' := by
  have hold : ∀ txid c, w'.Flies txid c → w.Flies txid c := fun txid c hc => by
    cases h.flight with
    | same hf => rwa [Flies, ← hf]
    | dropped _ _ _ hf => exact ((erase_flies hf).mp hc).2
    | shipped daaScore _ _ _ hd => exact absurd hd (hS daaScore)
  intro txid c hc
  obtain ⟨p, hp, ht, hn⟩ := H txid c (hold txid c hc)
  exact ⟨p, hp, ht, hn.sameKeys h.sameKeys⟩

/-- What a claim that is built for entries of `w` is hashed from. -/
theorem buildClaimTx_names {es : List EscrowEntry} {txid : String} {tx : RpcTransaction}
    (hhex : ∀ e ∈ es, Text.LowerHex e.coinbaseTxid)
    (hscript : w.payoutSpkScriptHex = Text.hexEncode w.payoutSpkScript)
    (h : w.buildClaimTx X es = .ok (txid, tx)) : ∃ p, rpcTxidPreimage tx = some p ∧
      txid = Text.hexEncode (X.blake2b (ascii "TransactionID") p) ∧ Names w p (es.map (·.outpoint)) := by
  obtain ⟨metas, csv, hbuilt⟩ := exists_built h
  exact ⟨_, hbuilt.preimage hscript, hbuilt.txid, es, metas, _, csv, hbuilt.inputs, rfl, rfl, hhex⟩

/-- A claim about to be shipped has a txid that is not in flight. -/
theorem Ships.fresh {daaScore : Nat} {claimTxid : String} {batch : List EscrowEntry} {p : List UInt8}
    {inputs : List (List UInt8)}
    (hcf : Merkle.CollisionFree (X.blake2b (ascii "TransactionID")) inputs)
    (hpast : ∀ q ∈ past, q ∈ inputs) (hp : p ∈ inputs) (h : Ships X w daaScore claimTxid batch)
    (htxid : claimTxid = Text.hexEncode (X.blake2b (ascii "TransactionID") p))
    (hnames : Names w p (batch.map (·.outpoint))) (hb : FlightBuilt X past w) (H : InFlightOk w)
    (c : InFlightClaim) : ¬ w.Flies claimTxid c := by
  intro hc
  obtain ⟨q, hq, htq, hnq⟩ := hb _ _ hc
  obtain rfl := hcf q (hpast q hq) p hp (Text.hexEncode_inj (htq.symm.trans htxid))
  obtain ⟨e, he⟩ := List.exists_mem_of_ne_nil _ h.nonempty
  have hmem : e.outpoint ∈ c.outpoints := by
    rw [hnq.unique hnames]
    exact List.mem_map_of_mem he
  exact eligible_not_inFlight (h.entry he).2 ((H.union _).mpr ⟨_, c, hc, _, hmem, rfl⟩)

theorem InFlightOk.quiet (h : Move X A w w') (hS : ∀ d, ¬ A.ships d) (ht : Tracked w)
    (H : InFlightOk w) : InFlightOk w' := by
  have hnd := H.nodup.move h ht
  have hap := H.apart.move h
  cases h.flight with
  | same hf ho =>
    have hflies : ∀ txid c, w'.Flies txid c ↔ w.Flies txid c := fun _ _ => by
      rw [Flies, Flies, hf]
    refine ⟨fun k => ?_, hnd, hap.disjoint, hf ▸ H.room⟩
    simp only [ho, H.union, hflies]
  | dropped txid₀ c₀ h₀ hf ho =>
    refine ⟨fun k => ?_, hnd, hap.disjoint, ?_⟩
    · rw [ho, mem_foldl_erase, H.union]
      constructor
      · rintro ⟨⟨txid, c, hc, o, hoc, rfl⟩, hk⟩
        refine ⟨txid, c, (erase_flies hf).mpr ⟨?_, hc⟩, o, hoc, rfl⟩
        rintro rfl
        exact hk o (Flies.unique h₀ hc ▸ hoc) rfl
      · rintro ⟨txid, c, hc, o, hoc, rfl⟩
        obtain ⟨hne, hc⟩ := (erase_flies hf).mp hc
        refine ⟨⟨txid, c, hc, o, hoc, rfl⟩, fun o' ho' hk => ?_⟩
        exact H.disjoint _ _ _ _ hc h₀ hne o hoc (Outpoint.key_inj hk ▸ ho')
    · rw [hf, AList.keys_erase]
      exact List.length_erase_le.trans H.room
  | shipped daaScore _ _ _ hd => exact absurd hd (hS daaScore)

theorem InFlightOk.ship {daaScore : Nat} {claimTxid : String} {batch : List EscrowEntry}
    (hs : Ships X w daaScore claimTxid batch) (ht : Tracked w)
    (hfresh : ∀ c, ¬ w.Flies claimTxid c) (H : InFlightOk w) :
    InFlightOk (w.ship daaScore claimTxid batch) := by
  have hmove : Move X ⟨fun _ _ => False, fun _ => False, fun _ => False, fun _ => True⟩ w
      (w.ship daaScore claimTxid batch) := .ship hs trivial
  refine ⟨fun k => ?_, H.nodup.move hmove ht, (H.apart.move hmove).disjoint, ?_⟩
  · change k ∈ (batch.map (·.outpoint)).foldl (fun s o => insert o.key s) w.inFlightOutpoints ↔ _
    rw [mem_foldl_insert, H.union]
    constructor
    · rintro (⟨txid, c, hc, ho⟩ | ho)
      · refine ⟨txid, c, ship_flies.mpr (.inr ⟨?_, hc⟩), ho⟩
        rintro rfl
        exact hfresh c hc
      · exact ⟨claimTxid, _, ship_flies.mpr (.inl ⟨rfl, rfl⟩), ho⟩
    · rintro ⟨txid, c, hc, ho⟩
      rcases ship_flies.mp hc with ⟨-, rfl⟩ | ⟨-, hc⟩
      · exact .inr ho
      · exact .inl ⟨txid, c, hc, ho⟩
  · have := hs.room
    have hlen := List.length_erase_le (a := claimTxid) (l := w.inFlight.keys)
    simp only [EscrowWatcher.ship, AList.keys_insert, List.length_cons]
    omega

/-! ## One call -/

/-- What a call may do to the watcher without sending a claim. -/
structure Quiet (op : Op) (A : Effects) : Prop where
  le : ∀ e e', A.touches e e' → e.Le e'
  tracks : ∀ e, A.tracks e → op.Tracks e
  ships : ∀ d, ¬ A.ships d

/-- Nothing is sent, or the claim `tx` of a batch, at a score in `S`. -/
inductive Sends (X : Externals) (S : Nat → Prop) (w w' : EscrowWatcher) : Option RpcTransaction → Prop
  | nothing (h : w' = w) : Sends X S w w' none
  | claim {daaScore : Nat} {txid : String} {batch : List EscrowEntry} {tx : RpcTransaction}
      (hd : S daaScore) (hs : Ships X w daaScore txid batch)
      (hb : w.buildClaimTx X batch = .ok (txid, tx)) (h : w' = w.ship daaScore txid batch) :
      Sends X S w w' (some tx)

variable {S : Nat → Prop}

theorem Sends.sameKeys {tx : Option RpcTransaction} (h : Sends X S w w' tx) : SameKeys w w' := by
  cases h with
  | nothing h => exact h ▸ .rfl'
  | claim _ _ _ h => exact h ▸ ⟨rfl, rfl, rfl, rfl, rfl⟩

theorem findClaim_sends (daaScore : Nat) (hd : S daaScore)
    (hT : ∀ e e', Heals daaScore e e' → A.touches e e') : ∃ w₁, Moves X A w w₁ ∧
      Sends X S w₁ (w.findClaim X daaScore).1 (w.findClaim X daaScore).2 := by
  rcases findClaim_cases X w daaScore with h | h | ⟨txid, tx, batch, hs, hb, h⟩ <;> rw [h]
  · exact ⟨w, .refl, .nothing rfl⟩
  · exact ⟨_, healVerdicts_moves daaScore hT, .nothing rfl⟩
  · exact ⟨_, healVerdicts_moves daaScore hT, .claim hd hs hb rfl⟩

/-- Every call but a restart changes the watcher, sends at most one claim and flushes. -/
theorem step_sends {op : Op} (hr : ∀ now, op ≠ .restart now) :
    ∃ A w₁ w', Quiet op A ∧ Moves X A s.w w₁ ∧ Sends X op.Ships w₁ w' (sent X s op) ∧
      Flushed { s with w := w' } (step X s op) := by
  have hcalls : (∀ d, ¬ op.Ships d) → sent X s op = none → ∃ A w₁ w', Quiet op A ∧
      Moves X A s.w w₁ ∧ Sends X op.Ships w₁ w' (sent X s op) ∧
        Flushed { s with w := w' } (step X s op) := by
    intro hS hsent
    obtain ⟨w', hw, hf⟩ := step_spec (X := X) (s := s) hr
    exact ⟨op.effects s, w', w', ⟨Op.effects_le, fun _ => id, hS⟩, hw, hsent ▸ .nothing rfl, hf⟩
  let A : Effects := ⟨EscrowEntry.Le, op.Tracks, fun _ => True, fun _ => False⟩
  have hA : Quiet op A := ⟨fun _ _ => id, fun _ => id, fun _ => id⟩
  cases op with
  | handleBlock block io =>
    cases hd : block.daaScore with
    | none =>
      have hstay : (s.handleBlock X block io) = (s, none) := by simp [Sys.handleBlock, hd]
      refine ⟨A, s.w, s.w, hA, .refl, ?_, ?_⟩
      · simp only [sent, hstay]
        exact .nothing rfl
      · simp only [step, hstay]
        exact .rfl'
    | some daaScore =>
      have hbefore : Moves X A s.w ((s.w.beginBlock daaScore).scanBlock block daaScore) :=
        (beginBlock_moves daaScore trivial).trans (scanBlock_moves (fun _ _ _ _ _ h => h.le)
          fun verbose hv hc e h => ⟨daaScore, verbose, hd, hv, hc, h⟩)
      obtain ⟨w₁, hmoves, hsends⟩ := findClaim_sends (X := X) (A := A)
        (S := Op.Ships (.handleBlock block io)) (w := (s.w.beginBlock daaScore).scanBlock block daaScore) daaScore hd fun _ _ h => h.le
      refine ⟨A, w₁, (((s.w.beginBlock daaScore).scanBlock block daaScore).findClaim X daaScore).1, hA,
        hbefore.trans hmoves, ?_, ?_⟩
      · simpa only [sent, Sys.handleBlock, hd] using hsends
      · simp only [step, Sys.handleBlock, hd]
        exact maybeFlush_flushed
  | findClaim daaScore =>
    obtain ⟨w₁, hmoves, hsends⟩ := findClaim_sends (X := X) (A := A) (w := s.w)
      (S := Op.Ships (.findClaim daaScore)) daaScore rfl fun _ _ h => h.le
    exact ⟨A, w₁, _, hA, hmoves, hsends, .rfl'⟩
  | restart now => exact absurd rfl (hr now)
  | _ => exact hcalls (fun _ => id) rfl

/-- The texts which a call brings in as transaction ids are written in lower case. -/
def Op.HexTxids : Op → Prop
  | .handleBlock block _ | .trackBlockEscrows block _ _ =>
    ∀ tx ∈ block.transactions, ∀ txid ∈ tx.transactionId, Text.LowerHex txid
  | .trackInferenceEscrow txid _ _ _ => Text.LowerHex txid
  | _ => True

instance (op : Op) : Decidable op.HexTxids := by
  unfold Op.HexTxids
  split <;> infer_instance

theorem TrackedFrom.hex {block : RpcBlock} {daaScore : Nat} {blockHash : String} {e : EscrowEntry}
    (hhex : ∀ tx ∈ block.transactions, ∀ txid ∈ tx.transactionId, Text.LowerHex txid)
    (h : TrackedFrom block daaScore blockHash e) : Text.LowerHex e.coinbaseTxid := by
  obtain ⟨txid, outputs, hc, _, _, _, rfl⟩ := h
  unfold coinbaseOf at hc
  split at hc
  · cases hc
  · next coinbase hfind =>
    split at hc
    · cases hc
    · next t ht =>
      split at hc
      · cases hc
      · cases hc
        exact hhex _ (List.mem_of_find?_eq_some hfind) _ ht

theorem Op.HexTxids.tracks {op : Op} {e : EscrowEntry} (hhex : op.HexTxids) (h : op.Tracks e) :
    Text.LowerHex e.coinbaseTxid := by
  cases op with
  | handleBlock block io =>
    obtain ⟨_, _, _, _, _, h⟩ := h
    exact h.hex hhex
  | trackBlockEscrows => exact TrackedFrom.hex hhex h
  | trackInferenceEscrow =>
    cases h
    exact hhex
  | _ => exact h.elim

/-- What a run keeps of the claims in flight, with what keeping it needs. -/
structure Sys.FlightOk (X : Externals) (past : List (List UInt8)) (s : Sys) : Prop where
  ok : s.Ok
  hex : s.AllEntries fun e => Text.LowerHex e.coinbaseTxid
  script : s.w.payoutSpkScriptHex = Text.hexEncode s.w.payoutSpkScript
  built : FlightBuilt X past s.w
  inFlight : InFlightOk s.w

theorem no_flight_ok (h : w.inFlight = ∅) (ho : w.inFlightOutpoints = ∅) :
    FlightBuilt X past w ∧ InFlightOk w := by
  have hno : ∀ txid c, ¬ w.Flies txid c := fun _ _ => by simp [Flies, h]
  refine ⟨fun txid c hc => (hno _ _ hc).elim, ⟨fun k => ?_, fun txid c hc => (hno _ _ hc).elim,
    fun _ _ _ _ hc => (hno _ _ hc).elim, by simp [h]⟩⟩
  simp only [ho, Finset.notMem_empty, false_iff]
  rintro ⟨txid, c, hc, _⟩
  exact hno _ _ hc

/-- Sending a claim whose preimage does not collide with one of the past. -/
theorem Sends.flight {inputs : List (List UInt8)} {tx : Option RpcTransaction}
    (hcf : Merkle.CollisionFree (X.blake2b (ascii "TransactionID")) inputs)
    (hin : ∀ q ∈ past ++ (tx.bind rpcTxidPreimage).toList, q ∈ inputs) (h : Sends X S w w' tx)
    (ht : Tracked w) (hhex : ∀ e ∈ w.entries, Text.LowerHex e.coinbaseTxid)
    (hscript : w.payoutSpkScriptHex = Text.hexEncode w.payoutSpkScript)
    (hb : FlightBuilt X past w) (H : InFlightOk w) :
    FlightBuilt X (past ++ (tx.bind rpcTxidPreimage).toList) w' ∧ InFlightOk w' := by
  cases h with
  | nothing h => exact h ▸ ⟨hb.mono, H⟩
  | @claim daaScore txid batch tx _ hs hbuild h =>
    subst h
    obtain ⟨p, hp, htxid, hnames⟩ :=
      buildClaimTx_names (fun e he => hhex e (hs.entry he).1) hscript hbuild
    have hpin : p ∈ past ++ ((some tx).bind rpcTxidPreimage).toList := by simp [hp]
    refine ⟨fun txid' c hc => ?_, H.ship hs ht (hs.fresh hcf (fun q hq =>
      hin q (List.mem_append_left _ hq)) (hin p hpin) htxid hnames hb H)⟩
    rcases ship_flies.mp hc with ⟨rfl, rfl⟩ | ⟨-, hc⟩
    · exact ⟨p, hpin, htxid, hnames⟩
    · exact hb.mono txid' c hc

theorem Sys.FlightOk.step {op : Op} {inputs : List (List UInt8)}
    (hcf : Merkle.CollisionFree (X.blake2b (ascii "TransactionID")) inputs)
    (hin : ∀ q ∈ past ++ sentPreimage X s op, q ∈ inputs) (hhex : op.HexTxids)
    (H : s.FlightOk X past) : (Escrow.step X s op).FlightOk X (past ++ sentPreimage X s op) := by
  have hex' : (Escrow.step X s op).AllEntries fun e => Text.LowerHex e.coinbaseTxid := H.hex.step op
    (fun _ _ h => by rw [h.le.coinbaseTxid]; exact id)
    (fun _ _ h => by rw [h.le.coinbaseTxid]; exact id) (fun _ _ h => hhex.tracks h)
  by_cases hop : ∃ now, op = .restart now
  · obtain ⟨now, rfl⟩ := hop
    obtain ⟨h1, h2⟩ := no_flight_ok (X := X) (w := (Escrow.step X s (.restart now)).w) rfl rfl
    exact ⟨H.ok.step _, hex', rfl, h1, h2⟩
  · obtain ⟨A, w₁, w', hA, hmoves, hsends, hf⟩ :=
      step_sends (X := X) (s := s) fun now h => hop ⟨now, h⟩
    let Hex : EscrowWatcher → Prop := Everywhere fun e => Text.LowerHex e.coinbaseTxid
    let P : EscrowWatcher → Prop := fun w =>
      Tracked w ∧ Hex w ∧ FlightBuilt X past w ∧ InFlightOk w
    obtain ⟨ht, hh, hb, hi⟩ : P w₁ := hmoves.preserve
      (fun w w' h ⟨ht, hh, hb, hi⟩ => ⟨ht.move hA.le h,
        hh.move (fun _ _ ht h => by rwa [(hA.le _ _ ht).coinbaseTxid])
          (fun _ _ hs h => by rwa [hs.le.coinbaseTxid]) (fun _ _ h => hhex.tracks (hA.tracks _ h)) h,
        hb.quiet h hA.ships, hi.quiet h hA.ships ht⟩)
      ⟨H.ok.tracked, ⟨H.hex.entries, H.hex.pending⟩, H.built, H.inFlight⟩
    have hkeys := hmoves.sameKeys
    have hscript : w₁.payoutSpkScriptHex = Text.hexEncode w₁.payoutSpkScript := by
      rw [hkeys.payoutSpkScriptHex, hkeys.payoutSpkScript, H.script]
    obtain ⟨hb', hi'⟩ := hsends.flight hcf hin ht hh.1 hscript hb hi
    have hall := hsends.sameKeys.trans hf.core.keys
    refine ⟨H.ok.step _, hex', ?_, fun txid c hc => ?_, ?_⟩
    · rw [hall.payoutSpkScriptHex, hall.payoutSpkScript, hscript]
    · obtain ⟨p, hp, htxid, hn⟩ := hb' txid c (by rwa [Flies, ← hf.core.inFlight])
      exact ⟨p, hp, htxid, hn.sameKeys hf.core.keys⟩
    · have hflies : ∀ txid c, (Escrow.step X s op).w.Flies txid c ↔ w'.Flies txid c := fun _ _ => by
        rw [Flies, Flies, hf.core.inFlight]
      refine ⟨fun k => ?_, fun txid c hc => hi'.nodup txid c ((hflies _ _).mp hc),
        fun txid txid' c c' hc hc' => hi'.disjoint txid txid' c c' ((hflies _ _).mp hc)
          ((hflies _ _).mp hc'), hf.core.inFlight ▸ hi'.room⟩
      rw [hf.core.inFlightOutpoints]
      simp only [hi'.union, hflies]

theorem Sys.FlightOk.init (k : Keys) (now : Nat) : (Sys.init k now).FlightOk X [] := by
  obtain ⟨h1, h2⟩ : FlightBuilt X [] (Sys.init k now).w ∧ InFlightOk (Sys.init k now).w :=
    no_flight_ok rfl rfl
  exact ⟨.init k now, .init k now, rfl, h1, h2⟩

/-- The run lemma: the preimages of the past and of the rest of the run do not collide. -/
theorem Sys.FlightOk.run {evs : List Op}
    (hcf : Merkle.CollisionFree (X.blake2b (ascii "TransactionID")) (past ++ sentPreimages X s evs))
    (hhex : ∀ op ∈ evs, op.HexTxids) (H : s.FlightOk X past) :
    InFlightOk (run (Escrow.step X) s evs).w := by
  induction evs generalizing s past with
  | nil => exact H.inFlight
  | cons op evs ih =>
    obtain ⟨hop, hrest⟩ := List.forall_mem_cons.mp hhex
    rw [sentPreimages, ← List.append_assoc] at hcf
    exact ih hcf hrest (H.step hcf (fun q hq => List.mem_append_left _ hq) hop)

/-- In every reachable state the set of outpoints in flight is the union of the outpoints of the
claims in flight, no outpoint is in it twice, and there are at most `maxInFlightClaims` claims. -/
theorem in_flight_claims_disjoint {k : Keys} {now : Nat} {evs : List Op}
    (hcf : Merkle.CollisionFree (X.blake2b (ascii "TransactionID"))
      (sentPreimages X (Sys.init k now) evs))
    (hhex : ∀ op ∈ evs, op.HexTxids) : InFlightOk (run (step X) (Sys.init k now) evs).w :=
  (Sys.FlightOk.init k now).run hcf hhex

/-- A block of the given score and nothing else. -/
def emptyBlock (daaScore : Nat) : RpcBlock := ⟨some daaScore, [], none⟩

/-- Two claims are in flight when the block of the first reward leaves the chain; the first claim is
rejected. -/
theorem in_flight_claims_disjoint_rejected :
    InFlightOk (run (step minerExternals) (Sys.init minerKeys 0)
      [.handleBlock (rewardBlock (hashOf 'a') (hashOf 'b') 76300000 true []) goodIo,
        .handleBlock (rewardBlock (hashOf 'd') (hashOf 'c') 76300100 true []) goodIo,
        .findClaim 76336050, .findClaim 76336150, .chainBlocksRemoved [hashOf 'b'] goodIo,
        .submitResponse minerClaimTxid (some "transaction is an orphan") 0 goodIo]).w :=
  in_flight_claims_disjoint (by unfold Merkle.CollisionFree; decide +kernel) (by decide +kernel)

end KeryxMiner.Escrow
