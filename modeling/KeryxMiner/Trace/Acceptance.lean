import KeryxMiner.Trace.ChainLog
import KeryxMiner.Runs

/-!
# Accepting blocks

Which blocks the pending responses were accepted by. Most of what the client does leaves them alone,
and the log with them (`Quiet`); a message's acceptances and removed blocks change them.
-/

namespace KeryxMiner.Trace

open KeryxdHandler

/-! ## Messages -/

namespace Event

/-- The blocks that a message removes from the chain, those it adds and their acceptances. -/
def removed : Event → List String
  | .notification removed .. | .chain removed .. => removed
  | _ => []

def added : Event → List String
  | .notification _ added .. | .chain _ added .. => added
  | _ => []

def accepted : Event → Acceptances
  | .notification _ _ accepted _ | .chain _ _ accepted _ => accepted
  | _ => []

/-- `resolve_traces` follows, unless the message answers nothing. -/
def resolves : Event → Bool
  | .chain .. | .chainFailed _ | .block _ | .blockFailed .. => true
  | _ => false

/-- The message reports the score of this block. -/
def scores (hash : String) : Event → Bool
  | .block hash' => hash' = hash
  | _ => false

end Event

/-- The starts whose part of the chain is not known when a message has been handled. -/
def awaited (s : KeryxdHandler) : Event → List String
  | .chain .. => s.chainRestoreStarts.tail
  | _ => s.chainRestoreStarts

/-- The blocks that have accepted `t` where a message may lead to its draw. -/
def acceptedBy (e : Event) (t : Sigma fun _ : String => PendingTrace) : List String :=
  if e.resolves && (t.2.draw.isNone || t.2.resets e.removed) then
    t.2.acceptedHash.toList ++ (e.accepted.filter (t.1 ∈ ·.2)).map (·.1)
  else []

/-! ## Accepting blocks -/

/-- Some pending response was accepted by `A`. -/
def AcceptedBy (t : AList fun _ : String => PendingTrace) (A : String) : Prop :=
  ∃ txid p, t.lookup txid = some p ∧ p.acceptedHash = some A

namespace AcceptedBy

variable {t : AList fun _ : String => PendingTrace} {A txid : String} {p : PendingTrace}

theorem of_insert (h : AcceptedBy (t.insert txid p) A) :
    p.acceptedHash = some A ∨ AcceptedBy t A := by
  obtain ⟨txid', p', hlookup, hA⟩ := h
  by_cases heq : txid' = txid
  · subst heq
    rw [AList.lookup_insert] at hlookup
    cases hlookup
    exact .inl hA
  · rw [AList.lookup_insert_ne heq] at hlookup
    exact .inr ⟨txid', p', hlookup, hA⟩

/-- The entry is only changed, with its accepting block kept. -/
theorem of_update {q : PendingTrace} (hq : t.lookup txid = some q)
    (h : AcceptedBy (t.insert txid p) A) (hp : p.acceptedHash = q.acceptedHash) :
    AcceptedBy t A := by
  rcases h.of_insert with h | h
  · exact ⟨txid, q, hq, hp ▸ h⟩
  · exact h

theorem of_mapVals {f : String → PendingTrace → PendingTrace}
    (hf : ∀ txid p, (f txid p).acceptedHash = some A → p.acceptedHash = some A)
    (h : AcceptedBy (Table.mapVals f t) A) : AcceptedBy t A := by
  obtain ⟨txid, p, hlookup, hA⟩ := h
  rw [Table.lookup_mapVals] at hlookup
  obtain ⟨q, hq, rfl⟩ := Option.map_eq_some_iff.mp hlookup
  exact ⟨txid, q, hq, hf txid q hA⟩

theorem of_keep {f : String → PendingTrace → Bool} (h : AcceptedBy (Table.keep f t) A) :
    AcceptedBy t A := by
  obtain ⟨txid, p, hlookup, hA⟩ := h
  exact ⟨txid, p, (Table.lookup_keep.mp hlookup).1, hA⟩

/-- The responses that `start` accepted are dropped. -/
theorem of_dropped {start : String} (h : AcceptedBy (Table.keep (fun txid _ =>
    txid ∉ (t.entries.filter (·.2.acceptedHash = some start)).map (·.1)) t) A) :
    AcceptedBy t A ∧ A ≠ start := by
  refine ⟨h.of_keep, ?_⟩
  rintro rfl
  obtain ⟨txid, p, hlookup, hA⟩ := h
  obtain ⟨hlookup, hkept⟩ := Table.lookup_keep.mp hlookup
  have hdropped : txid ∈ (t.entries.filter (·.2.acceptedHash = some A)).map (·.1) :=
    List.mem_map.mpr
      ⟨⟨txid, p⟩, List.mem_filter.mpr ⟨Table.mem_entries.mpr hlookup, by simpa using hA⟩, rfl⟩
  exact absurd hdropped (by simpa using hkept)

theorem of_erase (h : AcceptedBy (t.erase txid) A) : AcceptedBy t A := by
  obtain ⟨txid', p, hlookup, hA⟩ := h
  by_cases heq : txid' = txid
  · rw [heq, AList.lookup_erase] at hlookup
    cases hlookup
  · rw [AList.lookup_erase_ne heq] at hlookup
    exact ⟨txid', p, hlookup, hA⟩

end AcceptedBy

/-! ## Steps that leave the chain alone -/

/-- The start of the chain rebuild that was asked for last. -/
def lastAsked (requests : List Request) : Option String :=
  (requests.filterMap fun
    | .getVirtualSelectedParentChainFromBlock start => some start
    | .getBlock _ => none).getLast?

/-- No new accepting block, the same log and starts, and no chain rebuild asked for. -/
structure Quiet (s s' : KeryxdHandler) : Prop where
  accepted : ∀ A, AcceptedBy s'.pendingTraces A → AcceptedBy s.pendingTraces A
  log : s'.chainLog = s.chainLog
  starts : s'.chainRestoreStarts = s.chainRestoreStarts
  asked : lastAsked s'.requests = lastAsked s.requests

namespace Quiet

variable {E : Externals} {s s' s'' : KeryxdHandler} {io : String → Bool} {now : Nat}

theorem refl : Quiet s s := ⟨fun _ h => h, rfl, rfl, rfl⟩

theorem trans (h : Quiet s s') (h' : Quiet s' s'') : Quiet s s'' where
  accepted A hA := h.accepted A (h'.accepted A hA)
  log := h'.log.trans h.log
  starts := h'.starts.trans h.starts
  asked := h'.asked.trans h.asked

theorem persistTrace {txid : String} : Quiet s (s.persistTrace io txid) := by
  rw [KeryxdHandler.persistTrace]
  split
  · exact refl
  · split
    · exact ⟨fun _ h => h, rfl, rfl, rfl⟩
    · exact refl

theorem persistTraces {txids : List String} : Quiet s (s.persistTraces io txids) := by
  induction txids generalizing s with
  | nil => exact refl
  | cons txid txids ih => exact persistTrace.trans ih

theorem submitOpening {txid seedHash : String} {body : List UInt8} :
    Quiet s (s.submitOpening E now io txid seedHash body) := by
  rw [KeryxdHandler.submitOpening]
  split
  · exact refl
  · next p hp =>
    split
    · exact refl
    · dsimp only
      split
      · exact refl
      · refine Quiet.trans ?_ persistTrace
        exact ⟨fun A hA => hA.of_update hp rfl, rfl, rfl, rfl⟩

theorem submitReady : Quiet s (s.submitReady E now io) := by
  have hfold : ∀ (ready : List (String × String × List UInt8)) (s : KeryxdHandler),
      Quiet s (ready.foldl (fun s r => s.submitOpening E now io r.1 r.2.1 r.2.2) s) := by
    intro ready
    induction ready with
    | nil => exact fun s => refl
    | cons r ready ih => exact fun s => submitOpening.trans (ih _)
  refine Quiet.trans ?_ (hfold _ _)
  refine ⟨fun A hA => hA.of_mapVals ?_, rfl, rfl, rfl⟩
  intro txid p hp
  split at hp <;> exact hp

theorem tryStartReplay {busy : Bool} {pick : String} :
    Quiet s (s.tryStartReplay E now busy pick io) := by
  refine (submitReady : Quiet s (s.submitReady E now io)).trans ?_
  rw [KeryxdHandler.tryStartReplay]
  dsimp only
  split
  · exact refl
  · split
    · exact refl
    · next p hp =>
      split
      · exact refl
      · split_ifs
        · exact refl
        · exact ⟨fun A hA => hA.of_erase, rfl, rfl, rfl⟩
        · exact ⟨fun A hA => hA.of_update hp rfl, rfl, rfl, rfl⟩

theorem pollReplay {body : Option (List UInt8)} : Quiet s (s.pollReplay E now body io) := by
  rw [KeryxdHandler.pollReplay]
  split
  · exact refl
  · dsimp only
    split
    · exact ⟨fun _ h => h, rfl, rfl, rfl⟩
    · next p hp =>
      split
      · exact ⟨fun A hA => hA.of_update hp rfl, rfl, rfl, rfl⟩
      · next body =>
        have hbuilt : ∀ built : List (String × List UInt8), Quiet s { s with
            replay := none
            pendingTraces := s.pendingTraces.insert _ { p with built } } := fun built =>
          ⟨fun A hA => hA.of_update hp rfl, rfl, rfl, rfl⟩
        split
        · exact (hbuilt _).trans submitOpening
        · exact hbuilt _

theorem onOpeningResponse {txid pick : String} {error : Option String} :
    Quiet s (s.onOpeningResponse txid error pick) := by
  have hremoved : ∀ txid, Quiet s { s with openingInflight := s.openingInflight.erase txid } :=
    fun _ => ⟨fun _ h => h, rfl, rfl, rfl⟩
  rw [KeryxdHandler.onOpeningResponse]
  dsimp only
  split
  · exact refl
  · next txid' _ =>
    split
    · exact hremoved txid'
    · split_ifs
      · exact refl
      · exact hremoved txid'
      · exact hremoved txid'
      · exact refl
      · exact refl

theorem resolveTraces : Quiet s (s.resolveTraces E) := by
  refine ⟨fun A hA => hA.of_mapVals ?_, rfl, rfl, rfl⟩
  intro txid p hp
  split at hp <;> exact hp

theorem lastAsked_append_getBlock {requests : List Request} {hashes : List String} :
    lastAsked (requests ++ hashes.map .getBlock) = lastAsked requests := by
  simp [lastAsked]

theorem lastAsked_pumpQueue {queue : List String} {pending : Finset String}
    {requests : List Request} :
    lastAsked (pumpQueue queue pending requests).2.2 = lastAsked requests := by
  induction queue generalizing pending requests with
  | nil => rfl
  | cons hash queue ih =>
    rw [pumpQueue]
    split_ifs
    · exact ih
    · rw [ih]
      exact @lastAsked_append_getBlock requests [hash]
    · rfl

theorem chainRestorePump : Quiet s s.chainRestorePump := by
  rw [KeryxdHandler.chainRestorePump]
  dsimp only
  split
  · exact ⟨fun _ h => h, rfl, rfl, rfl⟩
  · exact ⟨fun _ h => h, rfl, rfl, lastAsked_pumpQueue⟩

theorem restoreBlockAnswered {hash : String} : Quiet s (s.restoreBlockAnswered hash) := by
  rw [KeryxdHandler.restoreBlockAnswered]
  split
  · refine Quiet.trans ?_ chainRestorePump
    exact ⟨fun _ h => h, rfl, rfl, rfl⟩
  · exact refl

theorem retryPendingOpenings : Quiet s (s.retryPendingOpenings now).2 :=
  ⟨fun _ h => h, rfl, rfl, rfl⟩

end Quiet

/-! ## Acceptances and removals -/

section

variable {E : Externals} {s : KeryxdHandler} {io : String → Bool} {removed added : List String}
  {A : String}

theorem noteAcceptance_spec {block txid : String} :
    (∀ A, AcceptedBy (s.noteAcceptance block txid).2.pendingTraces A →
      AcceptedBy s.pendingTraces A ∨ A = block) ∧
      (s.noteAcceptance block txid).2.chainLog = s.chainLog ∧
      (s.noteAcceptance block txid).2.chainRestoreStarts = s.chainRestoreStarts ∧
      (s.noteAcceptance block txid).2.requests = s.requests := by
  rw [noteAcceptance]
  split
  · exact ⟨fun A hA => .inl hA, rfl, rfl, rfl⟩
  · split
    · exact ⟨fun A hA => .inl hA, rfl, rfl, rfl⟩
    · refine ⟨fun A hA => ?_, rfl, rfl, rfl⟩
      rcases hA.of_insert with h | h
      · exact .inr (Option.some.inj h).symm
      · exact .inl h

/-- The loop of `noteAcceptances`. -/
theorem noteAcceptances_loop {pairs : List (String × String)} {noted : List String} :
    let s' := (pairs.foldl (fun (noted, s) (block, txid) =>
      let (new, s) := noteAcceptance s block txid
      (if new then noted ++ [txid] else noted, s)) (noted, s)).2
    (∀ A, AcceptedBy s'.pendingTraces A →
      AcceptedBy s.pendingTraces A ∨ A ∈ pairs.map Prod.fst) ∧
      s'.chainLog = s.chainLog ∧ s'.chainRestoreStarts = s.chainRestoreStarts ∧
      s'.requests = s.requests := by
  induction pairs generalizing s noted with
  | nil => exact ⟨fun A hA => .inl hA, rfl, rfl, rfl⟩
  | cons pair pairs ih =>
    obtain ⟨block, txid⟩ := pair
    obtain ⟨hfirst, hlog, hstarts, hrequests⟩ :=
      @noteAcceptance_spec s block txid
    obtain ⟨hrest, hlog', hstarts', hrequests'⟩ := @ih (s.noteAcceptance block txid).2
      (if (s.noteAcceptance block txid).1 then noted ++ [txid] else noted)
    refine ⟨fun A hA => ?_, hlog'.trans hlog, hstarts'.trans hstarts, hrequests'.trans hrequests⟩
    rcases hrest A hA with h | h
    · rcases hfirst A h with h | rfl
      · exact .inl h
      · exact .inr List.mem_cons_self
    · exact .inr (List.mem_cons_of_mem _ h)

/-- The accepting blocks are those of before and those of the message. -/
theorem noteAcceptances_spec {accepted : Acceptances} :
    (∀ A, AcceptedBy (s.noteAcceptances io accepted).pendingTraces A →
      AcceptedBy s.pendingTraces A ∨ A ∈ accepted.map Prod.fst) ∧
      (s.noteAcceptances io accepted).chainLog = s.chainLog ∧
      (s.noteAcceptances io accepted).chainRestoreStarts = s.chainRestoreStarts ∧
      lastAsked (s.noteAcceptances io accepted).requests = lastAsked s.requests := by
  obtain ⟨hpairs, hlog, hstarts, hrequests⟩ := @noteAcceptances_loop s
    (accepted.flatMap fun a => a.2.map (a.1, ·)) []
  have hquiet := fun (t : KeryxdHandler) txids => @Quiet.persistTraces t io txids
  rw [noteAcceptances]
  refine ⟨fun A hA => ?_, (hquiet _ _).log.trans hlog, (hquiet _ _).starts.trans hstarts,
    (hquiet _ _).asked.trans (congrArg lastAsked hrequests)⟩
  rcases hpairs A ((hquiet _ _).accepted A hA) with h | h
  · exact .inl h
  · obtain ⟨⟨block, txid⟩, hpair, rfl⟩ := List.mem_map.mp h
    obtain ⟨⟨block', txids⟩, hmem, hblock⟩ := List.mem_flatMap.mp hpair
    obtain ⟨txid', -, heq⟩ := List.mem_map.mp hblock
    cases heq
    exact .inr (List.mem_map_of_mem hmem)

theorem reset_acceptedHash {p : PendingTrace} (h : (p.reset removed).acceptedHash = some A) :
    p.acceptedHash = some A ∧ A ∉ removed := by
  rw [PendingTrace.reset] at h
  split at h
  · dsimp only at h
    split at h
    · cases h
    · next hany => exact ⟨h, fun hmem => hany (by simp [h, hmem])⟩
  · next hresets =>
    refine ⟨h, fun hmem => hresets ?_⟩
    simp [PendingTrace.resets, h, hmem]

/-- The removed blocks leave the log, and no response is accepted by one of them. -/
theorem onChainBlocksRemoved_spec :
    (∀ A, AcceptedBy (s.onChainBlocksRemoved io removed).pendingTraces A →
      AcceptedBy s.pendingTraces A ∧ A ∉ removed) ∧
      (s.onChainBlocksRemoved io removed).chainLog = s.chainLog.filter (·.hash ∉ removed) ∧
      (s.onChainBlocksRemoved io removed).chainRestoreStarts = s.chainRestoreStarts ∧
      lastAsked (s.onChainBlocksRemoved io removed).requests = lastAsked s.requests := by
  rw [onChainBlocksRemoved]
  split
  · next hempty =>
    obtain rfl := List.isEmpty_iff.mp hempty
    refine ⟨fun A hA => ⟨hA, nofun⟩, ?_, rfl, rfl⟩
    simp
  · have hquiet := fun (t : KeryxdHandler) txids => @Quiet.persistTraces t io txids
    refine ⟨fun A hA => ?_, (hquiet _ _).log, (hquiet _ _).starts, (hquiet _ _).asked⟩
    obtain ⟨txid, p, hlookup, hA⟩ := (hquiet _ _).accepted A hA
    rw [Table.lookup_mapVals] at hlookup
    obtain ⟨q, hq, rfl⟩ := Option.map_eq_some_iff.mp hlookup
    obtain ⟨hqA, hremoved⟩ := reset_acceptedHash hA
    exact ⟨⟨txid, q, hq, hqA⟩, hremoved⟩

/-! ## Draws taken back -/

/-- What is written of a list of responses. -/
theorem persistTraces_spec {txids : List String} :
    let s' := s.persistTraces io txids
    (s'.chainLog = s.chainLog ∧ s'.pendingTraces = s.pendingTraces ∧
      s'.openingInflight = s.openingInflight ∧ s'.replay = s.replay) ∧
      ∀ txid t, s'.traceStore.lookup txid = some t →
        s.traceStore.lookup txid = some t ∧ (txid ∈ txids → io txid →
          s.pendingTraces.lookup txid = none) ∨
        ∃ p, s.pendingTraces.lookup txid = some p ∧ t = p.stored := by
  induction txids generalizing s with
  | nil => exact ⟨⟨rfl, rfl, rfl, rfl⟩, fun txid t ht => .inl ⟨ht, nofun⟩⟩
  | cons head txids ih =>
    have hfirst : let s' := s.persistTrace io head
        (s'.chainLog = s.chainLog ∧ s'.pendingTraces = s.pendingTraces ∧
          s'.openingInflight = s.openingInflight ∧ s'.replay = s.replay) ∧
          ∀ txid t, s'.traceStore.lookup txid = some t →
            s.traceStore.lookup txid = some t ∧ (txid = head → io txid →
              s.pendingTraces.lookup txid = none) ∨
            ∃ p, s.pendingTraces.lookup txid = some p ∧ t = p.stored := by
      dsimp only
      rw [persistTrace]
      split
      · next hnone =>
        exact ⟨⟨rfl, rfl, rfl, rfl⟩, fun txid t ht => .inl ⟨ht, fun heq _ => heq ▸ hnone⟩⟩
      next p hp =>
      split
      · refine ⟨⟨rfl, rfl, rfl, rfl⟩, fun txid t ht => ?_⟩
        rcases Table.lookup_insert_eq_some.mp ht with ⟨rfl, rfl⟩ | ⟨hne, ht⟩
        · exact .inr ⟨p, hp, rfl⟩
        · exact .inl ⟨ht, fun heq => absurd heq hne⟩
      · next hio =>
        exact ⟨⟨rfl, rfl, rfl, rfl⟩, fun txid t ht => .inl ⟨ht, fun heq hok => absurd (heq ▸ hok) hio⟩⟩
    obtain ⟨⟨hlog, hpending, hinflight, hreplay⟩, hstored⟩ := hfirst
    obtain ⟨⟨hlog', hpending', hinflight', hreplay'⟩, hstored'⟩ :=
      @ih (s.persistTrace io head)
    refine ⟨⟨hlog'.trans hlog, hpending'.trans hpending, hinflight'.trans hinflight,
      hreplay'.trans hreplay⟩, fun txid t ht => ?_⟩
    rcases hstored' txid t ht with ⟨ht, hrest⟩ | hp
    · rcases hstored txid t ht with ⟨ht, hhead⟩ | hp
      · refine .inl ⟨ht, fun hmem hok => ?_⟩
        rcases List.mem_cons.mp hmem with rfl | hmem
        · exact hhead rfl hok
        · exact hpending ▸ hrest hmem hok
      · exact .inr hp
    · rw [hpending] at hp
      exact .inr hp

theorem pendingTraces_persistTraces {txids : List String} :
    (s.persistTraces io txids).pendingTraces = s.pendingTraces := persistTraces_spec.1.2.1

theorem replay_persistTraces {txids : List String} :
    (s.persistTraces io txids).replay = s.replay := persistTraces_spec.1.2.2.2

theorem lookup_noteAcceptance {block txid txid' : String} {p : PendingTrace}
    (h : s.pendingTraces.lookup txid = some p) :
    ∃ a, (s.noteAcceptance block txid').2.pendingTraces.lookup txid =
      some { p with acceptedHash := a } := by
  rw [noteAcceptance]
  split
  · exact ⟨p.acceptedHash, h⟩
  · next q hq =>
    split
    · exact ⟨p.acceptedHash, h⟩
    · by_cases heq : txid = txid'
      · subst heq
        obtain rfl := Option.some.inj (h.symm.trans hq)
        exact ⟨some block, AList.lookup_insert _⟩
      · exact ⟨p.acceptedHash, (AList.lookup_insert_ne heq).trans h⟩

/-- Acceptances change nothing else of a response. -/
theorem lookup_noteAcceptances {accepted : Acceptances} {txid : String} {p : PendingTrace}
    (h : s.pendingTraces.lookup txid = some p) :
    ∃ a, (s.noteAcceptances io accepted).pendingTraces.lookup txid =
      some { p with acceptedHash := a } := by
  have hfold : ∀ (pairs : List (String × String)) (noted : List String) (s : KeryxdHandler)
      (p : PendingTrace), s.pendingTraces.lookup txid = some p →
      ∃ a, (pairs.foldl (fun (noted, s) (block, txid) =>
        let (new, s) := noteAcceptance s block txid
        (if new then noted ++ [txid] else noted, s)) (noted, s)).2.pendingTraces.lookup txid =
          some { p with acceptedHash := a } := by
    intro pairs
    induction pairs with
    | nil => exact fun _ s p h => ⟨p.acceptedHash, h⟩
    | cons pair pairs ih =>
      intro noted s p h
      obtain ⟨a, ha⟩ := @lookup_noteAcceptance s pair.1 txid pair.2 p h
      obtain ⟨a', ha'⟩ := ih (if (noteAcceptance s pair.1 pair.2).1 then noted ++ [pair.2] else noted)
        (noteAcceptance s pair.1 pair.2).2 { p with acceptedHash := a } ha
      exact ⟨a', ha'⟩
  rw [noteAcceptances]
  dsimp only
  rw [pendingTraces_persistTraces]
  exact hfold _ _ _ _ h

/-- A response after an acceptance is one from before, accepted perhaps. -/
theorem of_lookup_noteAcceptance {block txid txid' : String} {p : PendingTrace}
    (h : (s.noteAcceptance block txid').2.pendingTraces.lookup txid = some p) :
    ∃ q, s.pendingTraces.lookup txid = some q ∧ (p = q ∨
      q.acceptedHash = none ∧ txid = txid' ∧ p = { q with acceptedHash := some block }) := by
  rw [noteAcceptance] at h
  split at h
  · exact ⟨p, h, .inl rfl⟩
  · next q hq =>
    split at h
    · exact ⟨p, h, .inl rfl⟩
    · next hnone =>
      rcases Table.lookup_insert_eq_some.mp h with ⟨rfl, rfl⟩ | ⟨-, h⟩
      · exact ⟨q, hq, .inr ⟨by simpa using hnone, rfl, rfl⟩⟩
      · exact ⟨p, h, .inl rfl⟩

theorem of_lookup_noteAcceptances {accepted : Acceptances} {txid : String} {p : PendingTrace}
    (h : (s.noteAcceptances io accepted).pendingTraces.lookup txid = some p) :
    ∃ q, s.pendingTraces.lookup txid = some q ∧ (p = q ∨ q.acceptedHash = none ∧
      ∃ a ∈ accepted, txid ∈ a.2 ∧ p = { q with acceptedHash := some a.1 }) := by
  have hfold : ∀ (pairs : List (String × String)) (noted : List String) (s : KeryxdHandler),
      (pairs.foldl (fun (noted, s) (block, txid) =>
        let (new, s) := noteAcceptance s block txid
        (if new then noted ++ [txid] else noted, s)) (noted, s)).2.pendingTraces.lookup txid =
          some p →
      ∃ q, s.pendingTraces.lookup txid = some q ∧ (p = q ∨ q.acceptedHash = none ∧
        ∃ block, (block, txid) ∈ pairs ∧ p = { q with acceptedHash := some block }) := by
    intro pairs
    induction pairs with
    | nil => exact fun _ s h => ⟨p, h, .inl rfl⟩
    | cons pair pairs ih =>
      intro noted s h
      obtain ⟨q', hq', hcase⟩ := ih (if (noteAcceptance s pair.1 pair.2).1 then noted ++ [pair.2] else noted)
        (noteAcceptance s pair.1 pair.2).2 h
      obtain ⟨q, hq, rfl | ⟨hnone, rfl, rfl⟩⟩ := of_lookup_noteAcceptance hq'
      · rcases hcase with hp | ⟨hnone, block, hmem, hp⟩
        · exact ⟨q', hq, .inl hp⟩
        · exact ⟨q', hq, .inr ⟨hnone, block, List.mem_cons_of_mem _ hmem, hp⟩⟩
      · rcases hcase with hp | ⟨hnone', -⟩
        · exact ⟨q, hq, .inr ⟨hnone, pair.1, List.mem_cons_self, hp⟩⟩
        · cases hnone'
  rw [noteAcceptances] at h
  dsimp only at h
  rw [pendingTraces_persistTraces] at h
  obtain ⟨q, hq, hp | ⟨hnone, block, hmem, hp⟩⟩ := hfold _ _ _ h
  · exact ⟨q, hq, .inl hp⟩
  · obtain ⟨⟨block', txids⟩, haccepted, hpair⟩ := List.mem_flatMap.mp hmem
    obtain ⟨txid', hin, heq⟩ := List.mem_map.mp hpair
    cases heq
    exact ⟨q, hq, .inr ⟨hnone, _, haccepted, hin, hp⟩⟩

/-- A response after a removal is one from before, reset perhaps. -/
theorem of_lookup_onChainBlocksRemoved {txid : String} {p : PendingTrace}
    (h : (s.onChainBlocksRemoved io removed).pendingTraces.lookup txid = some p) :
    ∃ q, s.pendingTraces.lookup txid = some q ∧ p = q.reset removed := by
  rw [onChainBlocksRemoved] at h
  split at h
  · next hempty =>
    obtain rfl := List.isEmpty_iff.mp hempty
    refine ⟨p, h, ?_⟩
    rw [PendingTrace.reset, if_neg (by simp [PendingTrace.resets])]
  · dsimp only at h
    rw [pendingTraces_persistTraces, Table.lookup_mapVals] at h
    obtain ⟨q, hq, rfl⟩ := Option.map_eq_some_iff.mp h
    exact ⟨q, hq, rfl⟩

/-- The draws that depend on a removed block are taken back. -/
theorem lookup_onChainBlocksRemoved {txid : String} {p : PendingTrace}
    (h : s.pendingTraces.lookup txid = some p) (hresets : p.resets removed) :
    ∃ q, (s.onChainBlocksRemoved io removed).pendingTraces.lookup txid = some q ∧
      q.draw = none := by
  have hne : ¬removed.isEmpty := by
    intro hempty
    obtain rfl := List.isEmpty_iff.mp hempty
    simp [PendingTrace.resets] at hresets
  rw [onChainBlocksRemoved, if_neg hne]
  dsimp only
  rw [pendingTraces_persistTraces, Table.lookup_mapVals, h, Option.map_some]
  exact ⟨_, rfl, by rw [PendingTrace.reset, if_pos hresets]⟩

theorem replay_noteAcceptances {accepted : Acceptances} :
    (s.noteAcceptances io accepted).replay = s.replay := by
  have hfold : ∀ (pairs : List (String × String)) (noted : List String) (s : KeryxdHandler),
      (pairs.foldl (fun (noted, s) (block, txid) =>
        let (new, s) := noteAcceptance s block txid
        (if new then noted ++ [txid] else noted, s)) (noted, s)).2.replay = s.replay := by
    intro pairs
    induction pairs with
    | nil => exact fun _ s => rfl
    | cons pair pairs ih =>
      intro noted s
      refine (ih _ (noteAcceptance s pair.1 pair.2).2).trans ?_
      rw [noteAcceptance]
      split
      · rfl
      · split <;> rfl
  exact replay_persistTraces.trans (hfold _ _ s)

theorem replay_onChainBlocksRemoved :
    (s.onChainBlocksRemoved io removed).replay = s.replay := by
  rw [onChainBlocksRemoved]
  split
  · rfl
  · exact replay_persistTraces

/-! ## Answers to a chain rebuild -/

/-- The chain is placed behind the first start, which waits no longer. -/
theorem takeChain_spec {accepted : Acceptances} {t : KeryxdHandler}
    (h : s.takeChain io removed added accepted = some t) :
    ∃ start, s.chainRestoreStarts = start :: t.chainRestoreStarts ∧
      t.chainLog = (placeChainAfter (s.chainLog.filter (·.hash ∉ removed)) start added).1 ∧
      t.replay = s.replay ∧
      ∀ txid p, t.pendingTraces.lookup txid = some p → ∃ q, s.pendingTraces.lookup txid = some q ∧
        (p = q.reset removed ∨ (q.reset removed).acceptedHash = none ∧
          ∃ a ∈ accepted, txid ∈ a.2 ∧ p = { q.reset removed with acceptedHash := some a.1 }) := by
  rw [takeChain] at h
  split at h
  · cases h
  next start starts hstarts =>
  obtain rfl := Option.some.inj h
  refine ⟨start, ?_, ?_, ?_, fun txid p hp => ?_⟩
  · rw [noteAcceptances_spec.2.2.1]
    dsimp only [placeRestoredChain]
    rw [onChainBlocksRemoved_spec.2.2.1, hstarts]
  · rw [noteAcceptances_spec.2.1]
    dsimp only [placeRestoredChain]
    rw [onChainBlocksRemoved_spec.2.1]
  · rw [replay_noteAcceptances]
    dsimp only [placeRestoredChain]
    rw [replay_onChainBlocksRemoved]
  · obtain ⟨p', hp', hcase⟩ := of_lookup_noteAcceptances hp
    obtain ⟨q, hq, rfl⟩ := of_lookup_onChainBlocksRemoved hp'
    exact ⟨q, hq, hcase⟩

/-- The first start is put behind the others, or it is given up with its responses. -/
theorem takeChainFailure_spec {t : KeryxdHandler} (h : s.takeChainFailure io = some t) :
    ∃ start starts, s.chainRestoreStarts = start :: starts ∧ t.replay = s.replay ∧
      (t.chainRestoreStarts = starts ++ [start] ∧ t.chainLog = s.chainLog ∧
          t.pendingTraces = s.pendingTraces ∨
        t.chainRestoreStarts = starts ∧ t.chainLog = s.chainLog.filter (·.hash ≠ start) ∧
          t.pendingTraces = Table.keep (fun txid _ => txid ∉ (s.pendingTraces.entries.filter
            (·.2.acceptedHash = some start)).map (·.1)) s.pendingTraces) := by
  rw [takeChainFailure] at h
  split at h
  · cases h
  next start starts hstarts =>
  obtain rfl := Option.some.inj h
  refine ⟨start, starts, hstarts, ?_⟩
  rw [onChainRestoreFailed]
  dsimp only
  split
  · exact ⟨rfl, .inl ⟨rfl, rfl, rfl⟩⟩
  · exact ⟨rfl, .inr ⟨rfl, rfl, rfl⟩⟩

end

end KeryxMiner.Trace
