import KeryxMiner.Escrow.Watcher
import Mathlib.Logic.Relation

/-!
# What the watcher can do to itself

Every method of the watcher is a sequence of primitive moves: it touches one entry in place, tracks
a fresh output, drops done entries, drops or ships a claim, and otherwise moves only its clocks and
its journal. `Move X A` lists them with their guards, where `A` says what is allowed; an
invariant has to be checked against these moves only.
-/

namespace KeryxMiner.Escrow

open Relation (ReflTransGen)

/-! ## Touching an entry -/

/-- A live entry is slashed outside a response. -/
def Slashes (e e' : EscrowEntry) : Prop := e.live = true ∧ e' = { e with slashed := true }

/-- The repair verdicts that expire at `daaScore` are dropped. -/
def Heals (daaScore : Nat) (e e' : EscrowEntry) : Prop := e' = EscrowWatcher.heal daaScore e

/-- What a response to a claim of `n` inputs makes of the entry of `o`. -/
def answerEntry (error : Option String) (n lastDaa : Nat) (o : Outpoint) (e : EscrowEntry) :
    EscrowEntry :=
  match error with
  | none => EscrowWatcher.claimEntry e
  | some msg =>
    if EscrowWatcher.isDuplicate msg then EscrowWatcher.claimEntry e
    else EscrowWatcher.rejectEntry msg n lastDaa o e

/-- The touch of a response to `claim`: an entry of one of its outpoints is answered. -/
def Settles (error : Option String) (claim : InFlightClaim) (e e' : EscrowEntry) : Prop :=
  e.outpoint ∈ claim.outpoints ∧
    ∃ lastDaa, e' = answerEntry error claim.outpoints.length lastDaa e.outpoint e

theorem Heals.le {daaScore : Nat} {e e' : EscrowEntry} (h : Heals daaScore e e') : e.Le e' := by
  cases h
  exact ⟨rfl, rfl, rfl, rfl, rfl, rfl, rfl, id, id⟩

theorem Slashes.le {e e' : EscrowEntry} (h : Slashes e e') : e.Le e' := by
  obtain ⟨_, rfl⟩ := h
  exact ⟨rfl, rfl, rfl, rfl, rfl, rfl, rfl, id, fun _ => rfl⟩

theorem rejectEntry_le (msg : String) (n lastDaa : Nat) (o : Outpoint) (e : EscrowEntry) :
    e.Le (EscrowWatcher.rejectEntry msg n lastDaa o e) := by
  unfold EscrowWatcher.rejectEntry EscrowWatcher.rejectOrphan EscrowWatcher.rejectBurned
    EscrowWatcher.rejectUnknown EscrowWatcher.capAt
  constructor <;> grind

theorem answerEntry_of_acceptance {error : Option String}
    (h : EscrowWatcher.isAcceptance error = true) (n lastDaa : Nat) (o : Outpoint)
    (e : EscrowEntry) : answerEntry error n lastDaa o e = EscrowWatcher.claimEntry e := by
  cases error with
  | none => rfl
  | some msg => exact if_pos h

theorem answerEntry_of_rejection {msg : String}
    (h : EscrowWatcher.isAcceptance (some msg) = false) (n lastDaa : Nat) (o : Outpoint)
    (e : EscrowEntry) :
    answerEntry (some msg) n lastDaa o e = EscrowWatcher.rejectEntry msg n lastDaa o e :=
  if_neg (by simpa [EscrowWatcher.isAcceptance] using h)

theorem answerEntry_le (error : Option String) (n lastDaa : Nat) (o : Outpoint) (e : EscrowEntry) :
    e.Le (answerEntry error n lastDaa o e) := by
  have hclaim : e.Le (EscrowWatcher.claimEntry e) :=
    ⟨rfl, rfl, rfl, rfl, rfl, rfl, rfl, fun _ => rfl, id⟩
  unfold answerEntry
  split
  · exact hclaim
  · split
    · exact hclaim
    · exact rejectEntry_le ..

theorem Settles.le {error : Option String} {claim : InFlightClaim} {e e' : EscrowEntry}
    (h : Settles error claim e e') : e.Le e' := by
  obtain ⟨-, _, rfl⟩ := h
  exact answerEntry_le ..

namespace EscrowWatcher

@[simp] theorem setEntries_entries (w : EscrowWatcher) (es : List EscrowEntry) :
    (w.setEntries es).entries = es := rfl

@[simp] theorem setEntries_setEntries (w : EscrowWatcher) (es es' : List EscrowEntry) :
    (w.setEntries es).setEntries es' = w.setEntries es' := rfl

@[simp] theorem appendJournalLine_entries (w : EscrowWatcher) (e : EscrowEntry) :
    (w.appendJournalLine e).entries = w.entries := rfl

@[simp] theorem track_entries (w : EscrowWatcher) (e : EscrowEntry) :
    (w.track e).entries = w.entries ++ [e] := rfl

/-- The scripts and the payout address, which no method changes. -/
structure SameKeys (w w' : EscrowWatcher) : Prop where
  escrowScriptHex : w'.escrowScriptHex = w.escrowScriptHex
  escrowScriptBondedHex : w'.escrowScriptBondedHex = w.escrowScriptBondedHex
  payoutSpkVersion : w'.payoutSpkVersion = w.payoutSpkVersion
  payoutSpkScript : w'.payoutSpkScript = w.payoutSpkScript
  payoutSpkScriptHex : w'.payoutSpkScriptHex = w.payoutSpkScriptHex

theorem SameKeys.rfl' {w : EscrowWatcher} : SameKeys w w := ⟨rfl, rfl, rfl, rfl, rfl⟩

theorem SameKeys.trans {w w' w'' : EscrowWatcher} (h : SameKeys w w') (h' : SameKeys w' w'') :
    SameKeys w w'' :=
  ⟨h'.1.trans h.1, h'.2.trans h.2, h'.3.trans h.3, h'.4.trans h.4, h'.5.trans h.5⟩

theorem SameKeys.paysEscrow {w w' : EscrowWatcher} (h : SameKeys w w') :
    w'.paysEscrow = w.paysEscrow := by
  funext output
  unfold EscrowWatcher.paysEscrow
  rw [h.escrowScriptHex, h.escrowScriptBondedHex]

/-- `w'` differs from `w` in timers, counters and journal only, and no journal line is new. -/
structure SameCore (w w' : EscrowWatcher) : Prop where
  keys : SameKeys w w'
  lastDaaScore : w'.lastDaaScore = w.lastDaaScore
  entries : w'.entries = w.entries
  inFlight : w'.inFlight = w.inFlight
  inFlightOutpoints : w'.inFlightOutpoints = w.inFlightOutpoints
  outpointSet : w'.outpointSet = w.outpointSet
  blockIndex : w'.blockIndex = w.blockIndex
  pending : ∀ l ∈ w'.journalPending, l ∈ w.journalPending

theorem SameCore.rfl' {w : EscrowWatcher} : SameCore w w :=
  ⟨⟨rfl, rfl, rfl, rfl, rfl⟩, rfl, rfl, rfl, rfl, rfl, rfl, fun _ => id⟩

/-- The counters are outside the core. -/
theorem SameCore.counters {w : EscrowWatcher} {a b n m : Nat} {ps : List String} :
    SameCore w { w with
      blocksSinceCompact := a
      blocksSinceStatus := b
      validationPending := ps
      validationPurged := n
      validationUnknown := m } := ⟨⟨rfl, rfl, rfl, rfl, rfl⟩, rfl, rfl, rfl, rfl, rfl, rfl, fun _ => id⟩

end EscrowWatcher

/-- An entry as `track` appends it. -/
structure EscrowEntry.Fresh (e : EscrowEntry) : Prop where
  live : e.live = true
  orphanSlashed : e.orphanSlashed = false
  orphanRetries : e.orphanRetries = 0
  submitRetries : e.submitRetries = 0
  batchCap : e.batchCap = 0
  retryAfter : e.orphanRetryAfterDaa = none

theorem EscrowWatcher.freshEntry_fresh (txid blockHash : String) (daaScore amount : Nat)
    (index : UInt32) (isInference : Bool) (csvWindow : Nat) :
    (freshEntry txid blockHash daaScore amount index isInference csvWindow).Fresh :=
  ⟨rfl, rfl, rfl, rfl, rfl, rfl⟩

open EscrowWatcher

/-- The claim of `batch` may be shipped from `w`. -/
structure Ships (X : Externals) (w : EscrowWatcher) (daaScore : Nat) (claimTxid : String)
    (batch : List EscrowEntry) : Prop where
  room : w.inFlight.keys.length < maxInFlightClaims
  selected : ∃ indices, ClaimBatch w.entries daaScore w.inFlightOutpoints indices ∧
    batch = indices.filterMap (w.entries[·]?)
  nonempty : batch ≠ []
  built : ∃ tx, w.buildClaimTx X batch = .ok (claimTxid, tx)

/-- What every purge of an entry keeps, the removal of a block keeps. -/
theorem removeChainBlock_keeps {P : EscrowWatcher → Prop} {p : EscrowWatcher × Nat} {hash : String}
    (hu : P { p.1 with blockIndex := Function.update p.1.blockIndex hash none })
    (hr : ∀ (p : EscrowWatcher × Nat) (i : Nat), P p.1 → P (releaseAt p i).1) (H : P p.1) :
    P (removeChainBlock p hash).1 := by
  unfold removeChainBlock
  split
  · exact H
  · next indices _ =>
    have hall : ∀ p : EscrowWatcher × Nat, P p.1 → P (indices.foldl releaseAt p).1 := fun p hp =>
      List.foldlRecOn (motive := fun p => P p.1) indices releaseAt hp fun p hp i _ => hr p i hp
    exact hall _ hu

/-- What a call may do: how it touches entries, which entries it tracks, which scores it takes for
the clock, and at which it ships claims. -/
structure Effects where
  touches : EscrowEntry → EscrowEntry → Prop
  tracks : EscrowEntry → Prop
  sees : Nat → Prop
  ships : Nat → Prop

/-- A primitive move of the watcher. -/
inductive Move (X : Externals) (A : Effects) : EscrowWatcher → EscrowWatcher → Prop
  | tick {w w'} (h : SameCore w w') : Move X A w w'
  | see {w daaScore} (h : A.sees daaScore) : Move X A w (w.seeDaa daaScore)
  | log {w e} (h : e ∈ w.entries) : Move X A w (w.appendJournalLine e)
  | touch {w e e'} (i : Nat) (he : w.entries[i]? = some e) (ht : A.touches e e') :
      Move X A w (w.setEntries (w.entries.set i e'))
  | track {w e} (hf : e.Fresh) (ht : A.tracks e) (h : e.key ∉ w.outpointSet) : Move X A w (w.track e)
  | compact {w} : Move X A w w.compact
  | removeBlock {w} (hash : String) (n : Nat) : Move X A w (removeChainBlock (w, n) hash).1
  | drop {w} (txid : String) : Move X A w (w.dropClaim txid)
  | ship {w daaScore claimTxid batch} (h : Ships X w daaScore claimTxid batch)
      (hd : A.ships daaScore) : Move X A w (w.ship daaScore claimTxid batch)

theorem Move.sameKeys {X : Externals} {A : Effects} {w w' : EscrowWatcher} (h : Move X A w w') :
    SameKeys w w' := by
  cases h with
  | tick h => exact h.keys
  | see | log | touch | track | ship => exact ⟨rfl, rfl, rfl, rfl, rfl⟩
  | compact =>
    unfold EscrowWatcher.compact
    simp only
    split <;> exact ⟨rfl, rfl, rfl, rfl, rfl⟩
  | removeBlock hash n =>
    refine removeChainBlock_keeps (P := SameKeys w) ⟨rfl, rfl, rfl, rfl, rfl⟩ (fun p i h => h.trans ?_) .rfl'
    unfold releaseAt slashAt
    grind [SameKeys, setEntries, appendJournalLine]
  | drop txid =>
    unfold EscrowWatcher.dropClaim
    split <;> exact ⟨rfl, rfl, rfl, rfl, rfl⟩

abbrev Moves (X : Externals) (A : Effects) : EscrowWatcher → EscrowWatcher → Prop :=
  ReflTransGen (Move X A)

/-! ## The methods as sequences of moves -/

section
variable {X : Externals} {A : Effects} {w w' : EscrowWatcher}

theorem Moves.foldl {α : Type} {f : EscrowWatcher → α → EscrowWatcher} {l : List α}
    (h : ∀ w, ∀ a ∈ l, Moves X A w (f w a)) : Moves X A w (l.foldl f w) := by
  induction l generalizing w with
  | nil => exact .refl
  | cons a l ih =>
    exact (h w a List.mem_cons_self).trans (ih fun w b hb => h w b (List.mem_cons_of_mem _ hb))

theorem Moves.sameKeys (H : Moves X A w w') : SameKeys w w' := by
  induction H with
  | refl => exact .rfl'
  | tail _ hm ih => exact ih.trans hm.sameKeys

/-- What the moves preserve holds after them. -/
theorem Moves.preserve {P : EscrowWatcher → Prop} (H : Moves X A w w')
    (hP : ∀ w w', Move X A w w' → P w → P w') (h : P w) : P w' := by
  induction H with
  | refl => exact h
  | tail _ hm ih => exact hP _ _ hm ih

/-- Touching the entry at `i` and journaling it. -/
theorem moves_touch_log {i : Nat} {e e' : EscrowEntry} (he : w.entries[i]? = some e) (ht : A.touches e e') :
    Moves X A w ((w.setEntries (w.entries.set i e')).appendJournalLine e') := by
  have hi : i < w.entries.length := (List.getElem?_eq_some_iff.mp he).1
  refine .tail (.single (.touch i he ht)) (.log ?_)
  exact List.mem_set hi e'

theorem slashAt_moves {ok : EscrowEntry → Bool} {i : Nat}
    (hT : ∀ e, ok e = true → A.touches e { e with slashed := true }) : Moves X A w (slashAt ok w i) := by
  unfold slashAt
  split
  · exact .refl
  · next e he =>
    split
    · next h => exact moves_touch_log he (hT e h)
    · exact .refl

theorem slashReds_moves (redsHashes : List String)
    (hT : ∀ redHash ∈ redsHashes, ∀ e, e.live = true → A.touches e { e with slashed := true }) :
    Moves X A w (w.slashReds redsHashes) := by
  refine Moves.foldl fun w redHash hr => ?_
  split
  · exact .refl
  · refine Moves.foldl fun w i _ => slashAt_moves fun e he => hT redHash hr e ?_
    simp only [sweepable, Bool.and_eq_true] at he
    exact he.1.1

/-- The entries tracked from a chain block. -/
def TrackedFrom (block : RpcBlock) (daaScore : Nat) (blockHash : String) (e : EscrowEntry) : Prop :=
  ∃ txid outputs, coinbaseOf block = some (txid, outputs) ∧ ∃ out ∈ outputs.zipIdx, ∃ csvWindow,
    e = freshEntry txid blockHash daaScore out.1.amount (UInt32.ofNat out.2) false csvWindow

theorem trackBlockEscrows_moves {block : RpcBlock} {daaScore : Nat} {blockHash : String}
    (hF : ∀ e, TrackedFrom block daaScore blockHash e → A.tracks e) :
    Moves X A w (w.trackBlockEscrows block daaScore blockHash) := by
  unfold trackBlockEscrows
  split
  · exact .refl
  · next txid outputs hb =>
    refine Moves.foldl fun w out hout => ?_
    unfold trackOutput
    split
    · exact .refl
    · simp only
      split
      · exact .refl
      · next h =>
        exact .single (.track (freshEntry_fresh ..) (hF _ ⟨txid, outputs, hb, out, hout, _, rfl⟩) h)

theorem scanBlock_moves {block : RpcBlock} {daaScore : Nat}
    (hT : ∀ verbose, block.verboseData = some verbose → verbose.mergeSetRedsHashes ≠ [] →
      ∀ e e', Slashes e e' → A.touches e e')
    (hF : ∀ verbose, block.verboseData = some verbose → verbose.isChainBlock = true →
      ∀ e, TrackedFrom block daaScore verbose.hash e → A.tracks e) :
    Moves X A w (w.scanBlock block daaScore) := by
  unfold scanBlock
  split
  · exact .refl
  · next verbose hv =>
    refine (slashReds_moves verbose.mergeSetRedsHashes fun red hr e hl =>
      hT verbose hv (List.ne_nil_of_mem hr) _ _ ⟨hl, rfl⟩).trans ?_
    split
    · next hc => exact trackBlockEscrows_moves (hF verbose hv hc)
    · exact .refl

theorem expireInFlight_moves (daaScore : Nat) : Moves X A w (w.expireInFlight daaScore) :=
  Moves.foldl fun _ txid _ => .single (.drop txid)

theorem moves_log_all {es : List EscrowEntry} (h : ∀ e ∈ es, e ∈ w.entries) :
    Moves X A w (es.foldl appendJournalLine w) := by
  induction es generalizing w with
  | nil => exact .refl
  | cons e es ih =>
    exact .head (.log (h e List.mem_cons_self))
      (ih (w := w.appendJournalLine e) fun e' he' => h e' (List.mem_cons_of_mem _ he'))

/-- Touching every entry, one after the other. -/
theorem moves_map {f : EscrowEntry → EscrowEntry} (hf : ∀ e, A.touches e (f e)) :
    Moves X A w (w.setEntries (w.entries.map f)) := by
  suffices H : ∀ (done rest : List EscrowEntry) (w : EscrowWatcher), w.entries = done ++ rest →
      Moves X A w (w.setEntries (done ++ rest.map f)) by
    simpa using H [] w.entries w rfl
  intro done rest
  induction rest generalizing done with
  | nil =>
    intro w h
    simp only [List.map_nil, ← h]
    exact .refl
  | cons e rest ih =>
    intro w h
    have hm : Move X A w (w.setEntries (w.entries.set done.length (f e))) :=
      .touch done.length (by simp [h]) (hf e)
    have := ih (done ++ [f e]) (w.setEntries (w.entries.set done.length (f e))) (by simp [h])
    simpa using ReflTransGen.head hm this

theorem healVerdicts_moves (daaScore : Nat) (hT : ∀ e e', Heals daaScore e e' → A.touches e e') :
    Moves X A w (w.healVerdicts daaScore) := by
  refine (moves_map fun e => hT _ _ rfl).trans (moves_log_all fun e he => ?_)
  obtain ⟨e', he', rfl⟩ := List.mem_map.mp he
  exact List.mem_map_of_mem (List.mem_of_mem_filter he')

@[simp] theorem foldl_appendJournalLine_inFlight (es : List EscrowEntry) (w : EscrowWatcher) :
    (es.foldl appendJournalLine w).inFlight = w.inFlight := by
  induction es generalizing w with
  | nil => rfl
  | cons e es ih => exact ih _

@[simp] theorem foldl_appendJournalLine_outpointSet (es : List EscrowEntry) (w : EscrowWatcher) :
    (es.foldl appendJournalLine w).outpointSet = w.outpointSet := by
  induction es generalizing w with
  | nil => rfl
  | cons e es ih => exact ih _

@[simp] theorem healVerdicts_inFlight (daaScore : Nat) :
    (w.healVerdicts daaScore).inFlight = w.inFlight := by
  simp [healVerdicts, setEntries]

@[simp] theorem healVerdicts_outpointSet (daaScore : Nat) :
    (w.healVerdicts daaScore).outpointSet = w.outpointSet := by
  simp [healVerdicts, setEntries]

/-- What `find_claim` comes to: nothing, the expired verdicts, or these and a claim. -/
theorem findClaim_cases (X : Externals) (w : EscrowWatcher) (daaScore : Nat) :
    w.findClaim X daaScore = (w, none) ∨
    w.findClaim X daaScore = (w.healVerdicts daaScore, none) ∨
    ∃ claimTxid tx batch, Ships X (w.healVerdicts daaScore) daaScore claimTxid batch ∧
      (w.healVerdicts daaScore).buildClaimTx X batch = .ok (claimTxid, tx) ∧
      w.findClaim X daaScore = ((w.healVerdicts daaScore).ship daaScore claimTxid batch, some tx) := by
  unfold findClaim
  split
  · exact .inl rfl
  · next hroom =>
    split
    · exact .inl rfl
    · simp only
      split
      · exact .inr (.inl rfl)
      · next hne =>
        split
        · next claimTxid tx hb =>
          refine .inr (.inr
            ⟨claimTxid, tx, _, ⟨?_, ⟨_, selectClaimBatch_claimBatch, rfl⟩, hne, _, hb⟩, hb, rfl⟩)
          rw [healVerdicts_inFlight]
          omega
        · exact .inr (.inl rfl)

@[simp] theorem findClaim_outpointSet (daaScore : Nat) :
    (w.findClaim X daaScore).1.outpointSet = w.outpointSet := by
  rcases findClaim_cases X w daaScore with h | h | ⟨_, _, _, _, _, h⟩ <;>
    simp [h, EscrowWatcher.ship]

theorem findClaim_moves (daaScore : Nat) (hd : A.ships daaScore)
    (hT : ∀ e e', Heals daaScore e e' → A.touches e e') : Moves X A w (w.findClaim X daaScore).1 := by
  rcases findClaim_cases X w daaScore with h | h | ⟨_, _, _, hs, _, h⟩ <;> rw [h]
  · exact healVerdicts_moves daaScore hT
  · exact .tail (healVerdicts_moves daaScore hT) (.ship hs hd)

theorem findEntry_some {es : List EscrowEntry} {o : Outpoint} {i : Nat}
    (h : findEntry es o = some i) : ∃ e, es[i]? = some e ∧ e.outpoint = o := by
  obtain ⟨hi, he, -⟩ := List.findIdx?_eq_some_iff_getElem.mp h
  refine ⟨es[i], List.getElem?_eq_getElem hi, Prod.ext ?_ ?_⟩ <;> simp_all [EscrowEntry.outpoint]

theorem updateEntry_moves {f : EscrowEntry → EscrowEntry} {o : Outpoint}
    (hf : ∀ e, e.outpoint = o → A.touches e (f e)) : Moves X A w (w.updateEntry f o) := by
  unfold updateEntry
  split
  · exact .refl
  · next i hi =>
    obtain ⟨e, he, ho⟩ := findEntry_some hi
    rw [he]
    exact moves_touch_log he (hf e ho)

theorem markEntriesClaimed_fst (outpoints : List Outpoint) : (w.markEntriesClaimed outpoints).1 =
    outpoints.foldl (fun w o => w.updateEntry claimEntry o) w := by
  unfold markEntriesClaimed
  generalize 0 = n
  induction outpoints generalizing w n with
  | nil => rfl
  | cons o os ih => exact ih _

theorem markEntriesClaimed_moves {outpoints : List Outpoint}
    (hT : ∀ e, e.outpoint ∈ outpoints → A.touches e (claimEntry e)) :
    Moves X A w (w.markEntriesClaimed outpoints).1 := by
  rw [markEntriesClaimed_fst]
  exact Moves.foldl fun _ _ ho => updateEntry_moves fun e he => hT e (he ▸ ho)

theorem rejectEntries_moves {msg : String} {outpoints : List Outpoint}
    (hT : ∀ lastDaa e, e.outpoint ∈ outpoints →
      A.touches e (rejectEntry msg outpoints.length lastDaa e.outpoint e)) :
    Moves X A w (w.rejectEntries msg outpoints) := by
  refine Moves.foldl fun _ o ho => updateEntry_moves fun e he => ?_
  subst he
  exact hT _ e ho

theorem settleClaim_moves {txid : String} {claim : InFlightClaim} {error : Option String}
    (hT : ∀ e e', Settles error claim e e' → A.touches e e') :
    Moves X A w (w.settleClaim txid claim error).1 := by
  have hclaim : isAcceptance error = true →
      Moves X A (w.dropClaim txid) ((w.dropClaim txid).markEntriesClaimed claim.outpoints).1 :=
    fun ha => markEntriesClaimed_moves fun e he =>
      hT _ _ ⟨he, 0, (answerEntry_of_acceptance ha ..).symm⟩
  refine ReflTransGen.head (.drop txid) ?_
  unfold settleClaim
  split
  · exact hclaim rfl
  · next msg =>
    split
    · next h => exact hclaim h
    · next h =>
      exact rejectEntries_moves fun lastDaa e he =>
        hT _ _ ⟨he, lastDaa, (answerEntry_of_rejection (by simpa [isAcceptance] using h) ..).symm⟩

theorem purgeBlock_moves (hash : String) (hT : ∀ e e', Slashes e e' → A.touches e e') :
    Moves X A w (w.purgeBlock hash) := by
  unfold purgeBlock
  split
  · exact .refl
  · refine Moves.foldl fun w i _ => ?_
    split
    · exact .refl
    · split
      · exact .tail (slashAt_moves fun e h => hT _ _ ⟨h, rfl⟩) (.tick .counters)
      · exact .refl

theorem removeChainBlocks_moves (hashes : List String) (n : Nat) :
    Moves X A w (hashes.foldl removeChainBlock (w, n)).1 := by
  induction hashes generalizing w n with
  | nil => exact .refl
  | cons hash hashes ih => exact .head (.removeBlock hash n) (ih _)

theorem tickCompact_moves : Moves X A w w.tickCompact := by
  unfold tickCompact
  split
  · have h : Move X A w { w with blocksSinceCompact := 0 } := .tick .counters
    exact .tail (.single h) .compact
  · exact .single (.tick .counters)

theorem beginBlock_moves (daaScore : Nat) (hd : A.sees daaScore) :
    Moves X A w (w.beginBlock daaScore) :=
  .head (.see hd) <| (expireInFlight_moves daaScore).trans <|
    .tail tickCompact_moves (.tick .counters)

end

end KeryxMiner.Escrow
