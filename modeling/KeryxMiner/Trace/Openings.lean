import KeryxMiner.Trace.Draws
import KeryxMiner.Trace.Undrawn

/-!
# Openings that are sent again

A restart puts the openings of the files in flight again while the draws are gone, and
`resolve_traces` leaves them there whatever it draws. Where the seed blocks of these openings stay on
the chain until their responses are drawn again (`Consistent`), what is sent again is right
(`openings_right`).
-/

namespace KeryxMiner.Trace

open KeryxdHandler

variable {E : Externals} {s s' : KeryxdHandler} {g : LastDraws} {io : String → Bool} {now : Nat}
  {txid seedHash : String} {p : PendingTrace} {d : TraceDraw}

/-! ## The condition -/

/-- A response is not submitted again while an opening of it is kept. -/
def SubmittedOnce (s : KeryxdHandler) : Event → Prop
  | .submitted txid .. => (∀ o ∈ s.openingInflight.entries, o.2.responseTxid ≠ txid) ∧
      ∀ t ∈ s.traceStore.lookup txid, t.opening = none
  | _ => True

instance : ∀ e, Decidable (SubmittedOnce s e)
  | .submitted txid .. => inferInstanceAs (Decidable
      ((∀ o ∈ s.openingInflight.entries, o.2.responseTxid ≠ txid) ∧
        ∀ t ∈ s.traceStore.lookup txid, t.opening = none))
  | .restart .. | .registered _ | .notification .. | .chain .. | .chainFailed _ | .block _
  | .blockFailed .. | .template _ | .tick .. | .replayDone .. | .openingResponse .. =>
    inferInstanceAs (Decidable True)

/-- A removal writes the files of what it takes back. -/
def RewritesFiles (s : KeryxdHandler) : Event → Prop
  | .notification removed _ _ io | .chain removed _ _ io => Rewrites s io removed
  | _ => True

instance : ∀ e, Decidable (RewritesFiles s e)
  | .notification removed _ _ io | .chain removed _ _ io =>
    inferInstanceAs (Decidable (Rewrites s io removed))
  | .restart .. | .registered _ | .chainFailed _ | .block _ | .blockFailed .. | .template _
  | .submitted .. | .tick .. | .replayDone .. | .openingResponse .. =>
    inferInstanceAs (Decidable True)

/-- The block of a replay under way audits its response also after a new acceptance. -/
def ReplayStays (E : Externals) (s : KeryxdHandler) (e : Event) : Prop :=
  ∀ job ∈ s.replay, ∀ t ∈ s.pendingTraces.entries, t.1 = job.responseTxid →
    ∀ A ∈ acceptedBy e t, ∀ txidBytes ∈ hash32 t.1, ∀ seedBlock ∈ hash32 job.seedHash,
      decide (E.daaScore A ≥ E.traceAuditActivationDaa) ||
        E.drawAudited (E.traceSeed seedBlock txidBytes)

instance (e : Event) : Decidable (ReplayStays E s e) :=
  inferInstanceAs (Decidable (∀ job ∈ s.replay, ∀ t ∈ s.pendingTraces.entries,
    t.1 = job.responseTxid → ∀ A ∈ acceptedBy e t, ∀ txidBytes ∈ hash32 t.1,
      ∀ seedBlock ∈ hash32 job.seedHash, (_ || _) = true))

/-- If `A` is on the chain, no other block behind it is the first one past the seed delay. -/
def SeedStays (E : Externals) (chain : List String) (A seedHash : String) : Prop :=
  A ∈ chain → ∀ hash ∈ (behind A chain).find? (E.daaScore A + traceSeedDelayDaa ≤ E.daaScore ·),
    hash = seedHash

instance {chain : List String} {A : String} : Decidable (SeedStays E chain A seedHash) :=
  inferInstanceAs (Decidable (A ∈ chain →
    ∀ hash ∈ (behind A chain).find? (E.daaScore A + traceSeedDelayDaa ≤ E.daaScore ·),
      hash = seedHash))

/-- Openings keep their seed blocks, over a restart and until their responses are drawn again. -/
def KeepsSeeds (E : Externals) (n : Net) : Event × List String → Prop
  | (.restart _ readable, chain') => chain'.Nodup ∧ ∀ t ∈ n.client.traceStore.entries,
      readable t.1 → ∀ o ∈ t.2.opening, ∀ A ∈ t.2.acceptedHash, SeedStays E chain' A o.seedHash
  | (.notification removed .., chain') => ∀ t ∈ undrawn n.client, ∀ o ∈ t.2.opening,
      ∀ A ∈ t.2.acceptedHash, A ∉ removed → SeedStays E chain' A o.seedHash
  | _ => True

instance (n : Net) : ∀ e, Decidable (KeepsSeeds E n e)
  | (.restart _ readable, chain') => inferInstanceAs (Decidable (chain'.Nodup ∧
      ∀ t ∈ n.client.traceStore.entries, readable t.1 → ∀ o ∈ t.2.opening,
        ∀ A ∈ t.2.acceptedHash, SeedStays E chain' A o.seedHash))
  | (.notification removed .., chain') => inferInstanceAs (Decidable
      (∀ t ∈ undrawn n.client, ∀ o ∈ t.2.opening, ∀ A ∈ t.2.acceptedHash, A ∉ removed →
        SeedStays E chain' A o.seedHash))
  | (.registered _, _) | (.chain .., _) | (.chainFailed _, _) | (.block _, _)
  | (.blockFailed .., _) | (.template _, _) | (.submitted .., _) | (.tick .., _)
  | (.replayDone .., _) | (.openingResponse .., _) => inferInstanceAs (Decidable True)

/-- While an opening waits for the draw of its response, the messages describe the chain and the log
follows it. -/
def WaitsOrderly (E : Externals) (n : Net) (e : Event × List String) : Prop :=
  undrawn n.client ≠ [] → Describes n e ∧ AddsInOrder n.client e.1 ∧
    ∀ t ∈ undrawn n.client, ∀ A ∈ acceptedBy e.1 t, Unobstructed E n e A

instance (n : Net) (e : Event × List String) : Decidable (WaitsOrderly E n e) :=
  inferInstanceAs (Decidable (undrawn n.client ≠ [] → Describes n e ∧ AddsInOrder n.client e.1 ∧
    ∀ t ∈ undrawn n.client, ∀ A ∈ acceptedBy e.1 t, Unobstructed E n e A))

structure Consistent (E : Externals) (n : Net) (e : Event × List String) : Prop where
  submitted : SubmittedOnce n.client e.1
  rewrites : RewritesFiles n.client e.1
  replay : ReplayStays E n.client e.1
  seeds : KeepsSeeds E n e
  waits : WaitsOrderly E n e

instance (n : Net) (e : Event × List String) : Decidable (Consistent E n e) :=
  decidable_of_iff (SubmittedOnce n.client e.1 ∧ RewritesFiles n.client e.1 ∧
      ReplayStays E n.client e.1 ∧ KeepsSeeds E n e ∧ WaitsOrderly E n e)
    ⟨fun ⟨h1, h2, h3, h4, h5⟩ => ⟨h1, h2, h3, h4, h5⟩, fun ⟨h1, h2, h3, h4, h5⟩ =>
      ⟨h1, h2, h3, h4, h5⟩⟩

/-! ## What is sent again -/

/-- The openings that `retry_pending_openings` sends again, which is called by the tick. -/
def resent (s : KeryxdHandler) : Event → List (String × OpeningInflight)
  | .tick now _ _ io => ((s.pruneTraces io).retryPendingOpenings now).1
  | _ => []

/-- The responses pending then. -/
def pendingAtRetry (s : KeryxdHandler) : Event → AList fun _ : String => PendingTrace
  | .tick _ _ _ io => (s.pruneTraces io).pendingTraces
  | _ => ∅

/-- Some chain gives the response an audited draw with this seed block. -/
def MayDraw (E : Externals) (txid : String) (p : PendingTrace) (seedHash : String) : Prop :=
  ∃ log, LogOk E log ∧
    ∃ d ∈ { init with chainLog := log }.drawOf E txid p, d.seedHash = seedHash ∧ d.audited

/-- Remembers the draws. -/
def noteDraws (g : LastDraws) (s : KeryxdHandler) : LastDraws := fun txid =>
  (((s.pendingTraces.lookup txid).bind (·.draw)).map fun d => (d.seedHash, d.audited)).or (g txid)

/-- What is sent again was built for the last draw of its response, an audited one; that is its draw
still, or else it can have it again. -/
def ResentRight (E : Externals) (n : KeryxdHandler × LastDraws) (e : Event) : Prop :=
  ∀ r ∈ resent n.1 e,
    n.2 r.2.responseTxid = some (r.2.seedHash, true) ∧
    ∃ p, (pendingAtRetry n.1 e).lookup r.2.responseTxid = some p ∧
      match p.draw with
      | some d => d.seedHash = r.2.seedHash ∧ d.audited
      | none => MayDraw E r.2.responseTxid p r.2.seedHash

/-! ## Draws -/

theorem lookup_resolveTraces {q : PendingTrace}
    (hq : (s.resolveTraces E).pendingTraces.lookup txid = some q) :
    ∃ p, s.pendingTraces.lookup txid = some p ∧
      (s.drawOf E txid p = none ∧ q = p ∨
        ∃ d, s.drawOf E txid p = some d ∧ q = { p with draw := some d }) := by
  rw [resolveTraces, Table.lookup_mapVals] at hq
  obtain ⟨p, hp, rfl⟩ := Option.map_eq_some_iff.mp hq
  refine ⟨p, hp, ?_⟩
  split
  · next d hd => exact .inr ⟨d, hd, rfl⟩
  · next hnone => exact .inl ⟨hnone, rfl⟩

theorem noteDraws_of_draw (hp : s.pendingTraces.lookup txid = some p) (hd : p.draw = some d) :
    noteDraws g s txid = some (d.seedHash, d.audited) := by
  rw [noteDraws, hp, Option.bind_some, hd]
  rfl

/-- Each new draw is for the seed block that the response's opening was built for, and if a replay is
under way for the seed block, it is audited. -/
structure DrawnAlike (E : Externals) (s : KeryxdHandler) : Prop where
  opening : ∀ {txid p d o}, s.pendingTraces.lookup txid = some p → s.drawOf E txid p = some d →
    p.opening = some o → d.seedHash = o.seedHash
  replay : ∀ {txid p d job}, s.pendingTraces.lookup txid = some p → s.drawOf E txid p = some d →
    s.replay = some job → job.responseTxid = txid → job.seedHash = d.seedHash → d.audited

/-- The draw of a response with an opening is its last one again. -/
theorem last_of_drawOf {o : StoredOpening} (hkept : Kept E g s) (halike : DrawnAlike E s)
    (hp : s.pendingTraces.lookup txid = some p) (hd : s.drawOf E txid p = some d)
    (ho : p.opening = some o) : g txid = some (d.seedHash, d.audited) := by
  have hseed := halike.opening hp hd ho
  obtain ⟨hlast, ⟨A, hA, -, txidBytes, hbytes, seedBlock, hblock, haudited⟩, -⟩ :=
    hkept.opening txid p o hp ho
  obtain ⟨-, A', hA', -, daa, acceptedDaa, hafter, -, txidBytes', hbytes', seedBlock', hblock',
    hdraw⟩ := drawOf_eq_some hd
  obtain rfl : A = A' := Option.some.inj (hA.symm.trans hA')
  obtain rfl := Option.some.inj (hbytes.symm.trans hbytes')
  rw [hseed] at hblock'
  obtain rfl := Option.some.inj (hblock.symm.trans hblock')
  rw [(seedBlockAfter_eq_some hkept.scored hafter).2.1, haudited] at hdraw
  rw [hlast, hseed, hdraw]

/-- Where a response has an opening, its last draw stays the last one. -/
theorem noteDraws_resolveTraces (hkept : Kept E g s) (halike : DrawnAlike E s)
    (hopening : ∀ p, s.pendingTraces.lookup txid = some p → p.opening.isSome) :
    noteDraws g (s.resolveTraces E) txid = g txid := by
  cases hq : (s.resolveTraces E).pendingTraces.lookup txid with
  | none =>
    rw [noteDraws, hq]
    rfl
  | some q =>
    obtain ⟨p, hp, ⟨hnone, rfl⟩ | ⟨d, hd, rfl⟩⟩ := lookup_resolveTraces hq
    · cases hdraw : q.draw with
      | none =>
        rw [noteDraws, hq, Option.bind_some, hdraw]
        rfl
      | some d =>
        rw [noteDraws_of_draw hq hdraw]
        exact ((hkept.draws txid q d hp hdraw).1).symm
    · obtain ⟨o, ho⟩ := Option.isSome_iff_exists.mp (hopening p hp)
      rw [noteDraws_of_draw hq rfl, last_of_drawOf hkept halike hp hd ho]

/-- A new draw fits. -/
theorem fits_of_drawOf (hscored : Scored E s.chainLog) (hd : s.drawOf E txid p = some d)
    (hlast : g txid = some (d.seedHash, true)) (haudited : d.audited) :
    Fits E g txid p.stored d.seedHash d.deadlineDaa := by
  obtain ⟨-, A, hA, -, daa, acceptedDaa, hseed, hdeadline, txidBytes, hbytes, seedBlock, hblock,
    hdraw⟩ := drawOf_eq_some hd
  obtain ⟨-, hacceptedDaa, hdaa, -, -, -, -, -, -, hdelay, -⟩ := seedBlockAfter_eq_some hscored hseed
  rw [hdaa] at hdelay hdeadline
  rw [haudited, hacceptedDaa] at hdraw
  exact ⟨hlast, ⟨A, hA, hdelay, txidBytes, hbytes, seedBlock, hblock, hdraw.symm⟩, hdeadline⟩

theorem Kept.resolveTraces (h : Kept E g s) (halike : DrawnAlike E s) :
    Kept E (noteDraws g (s.resolveTraces E)) (s.resolveTraces E) := by
  -- What fitted the last draw fits it still.
  have hfits : ∀ {txid t seedHash deadlineDaa},
      (∀ p, s.pendingTraces.lookup txid = some p → p.opening.isSome) →
      Fits E g txid t seedHash deadlineDaa →
      Fits E (noteDraws g (s.resolveTraces E)) txid t seedHash deadlineDaa :=
    fun hopening hfits => ⟨(noteDraws_resolveTraces h halike hopening).trans hfits.last,
      hfits.accepted, hfits.deadline⟩
  have hown : ∀ {txid p o}, s.pendingTraces.lookup txid = some p → p.opening = some o →
      ∀ p', s.pendingTraces.lookup txid = some p' → p'.opening.isSome := by
    intro txid p o hp ho p' hp'
    obtain rfl := Option.some.inj (hp.symm.trans hp')
    exact Option.isSome_of_mem ho
  refine { h with draws := ?_, opening := ?_, stored := ?_, inFlight := ?_, replay := ?_ }
  · intro txid q d hq hd
    have hlast := @noteDraws_of_draw _ g _ _ _ hq hd
    refine ⟨hlast, fun haudited => ?_⟩
    rw [haudited] at hlast
    obtain ⟨p, hp, ⟨-, rfl⟩ | ⟨d', hd', rfl⟩⟩ := lookup_resolveTraces hq
    · obtain ⟨-, hfits⟩ := h.draws txid q d hp hd
      exact ⟨hlast, (hfits haudited).accepted, (hfits haudited).deadline⟩
    · obtain rfl := Option.some.inj hd
      have hnew := fits_of_drawOf h.scored hd' hlast haudited
      exact ⟨hnew.last, hnew.accepted, hnew.deadline⟩
  · intro txid q o hq ho
    obtain ⟨p, hp, ⟨-, rfl⟩ | ⟨d', hd', rfl⟩⟩ := lookup_resolveTraces hq
    · exact hfits (hown hp ho) (h.opening txid q o hp ho)
    · exact hfits (hown hp ho) (h.opening txid p o hp ho)
  · intro txid t o ht ho
    obtain ⟨hold, hopening⟩ := h.stored txid t o ht ho
    refine ⟨hfits hopening hold, fun q hq => ?_⟩
    obtain ⟨p, hp, ⟨-, rfl⟩ | ⟨d', -, rfl⟩⟩ := lookup_resolveTraces hq
    · exact hopening q hp
    · exact hopening p hp
  · intro id o ho
    obtain ⟨p, hp, hsome, hpfits⟩ := h.inFlight id o ho
    obtain ⟨op, hop⟩ := Option.isSome_iff_exists.mp hsome
    have hpfits := hfits (hown hp hop) hpfits
    rw [KeryxdHandler.resolveTraces, Table.lookup_mapVals, hp, Option.map_some]
    split
    · exact ⟨_, rfl, hsome, hpfits⟩
    · exact ⟨_, rfl, hsome, hpfits⟩
  · intro job hjob q d hq hd hseed
    obtain ⟨p, hp, ⟨-, rfl⟩ | ⟨d', hd', rfl⟩⟩ := lookup_resolveTraces hq
    · exact h.replay job hjob q d hp hd hseed
    · obtain rfl := Option.some.inj hd
      exact halike.replay hp hd' hjob rfl hseed.symm

/-! ## Steps -/

/-- A state whose draws are remembered. -/
theorem Kept.noteDraws_eq (h : Kept E g s) : noteDraws g s = g := by
  funext txid
  cases hp : s.pendingTraces.lookup txid with
  | none =>
    rw [noteDraws, hp]
    rfl
  | some p =>
    cases hd : p.draw with
    | none =>
      rw [noteDraws, hp, Option.bind_some, hd]
      rfl
    | some d =>
      rw [noteDraws_of_draw hp hd]
      exact ((h.draws txid p d hp hd).1).symm

/-- The same log, and the same responses, files, openings and replay. -/
structure SameTables (s s' : KeryxdHandler) : Prop where
  log : s'.chainLog = s.chainLog
  pending : s'.pendingTraces = s.pendingTraces
  store : s'.traceStore = s.traceStore
  inFlight : s'.openingInflight = s.openingInflight
  replay : s'.replay = s.replay

namespace SameTables

theorem trans {s'' : KeryxdHandler} (h : SameTables s s') (h' : SameTables s' s'') :
    SameTables s s'' where
  log := h'.log.trans h.log
  pending := h'.pending.trans h.pending
  store := h'.store.trans h.store
  inFlight := h'.inFlight.trans h.inFlight
  replay := h'.replay.trans h.replay

theorem kept (h : SameTables s s') (hkept : Kept E g s) : Kept E g s' :=
  hkept.of_tables (h.log ▸ hkept.scored) h.pending h.store h.inFlight h.replay

theorem noteDraws (h : SameTables s s') : noteDraws g s' = noteDraws g s := by
  funext txid
  rw [Trace.noteDraws, h.pending]
  rfl

theorem requestNextChainRestore : SameTables s s.requestNextChainRestore := by
  rw [KeryxdHandler.requestNextChainRestore]
  split <;> exact ⟨rfl, rfl, rfl, rfl, rfl⟩

theorem chainRestorePump : SameTables s s.chainRestorePump := by
  rw [KeryxdHandler.chainRestorePump]
  dsimp only
  split <;> exact ⟨rfl, rfl, rfl, rfl, rfl⟩

theorem restoreBlockAnswered {hash : String} : SameTables s (s.restoreBlockAnswered hash) := by
  rw [KeryxdHandler.restoreBlockAnswered]
  split
  · refine SameTables.trans ?_ chainRestorePump
    exact ⟨rfl, rfl, rfl, rfl, rfl⟩
  · exact ⟨rfl, rfl, rfl, rfl, rfl⟩

theorem afterResolve {e : Event} : SameTables s (s.afterResolve e) := by
  have hrefl : SameTables s s := ⟨rfl, rfl, rfl, rfl, rfl⟩
  cases e with
  | chain => exact requestNextChainRestore.trans chainRestorePump
  | chainFailed => exact requestNextChainRestore.trans chainRestorePump
  | block hash => exact restoreBlockAnswered
  | _ => exact hrefl

end SameTables

namespace Kept

theorem noteRestoreStart {start : String} (h : Kept E g s) :
    Kept E g (s.noteRestoreStart start) := by
  rw [KeryxdHandler.noteRestoreStart]
  split
  · exact h
  dsimp only
  split
  · exact h.of_tables h.scored rfl rfl rfl rfl
  · exact h.of_tables h.scored.push rfl rfl rfl rfl

theorem startChainRestore {order : List String} (h : Kept E g s) :
    Kept E g (s.startChainRestore order) := by
  have hfold : ∀ (accepted : List String) (s : KeryxdHandler), Kept E g s →
      Kept E g (accepted.foldl KeryxdHandler.noteRestoreStart s) := by
    intro accepted
    induction accepted with
    | nil => exact fun s h => h
    | cons hash accepted ih => exact fun s h => ih _ h.noteRestoreStart
  rw [KeryxdHandler.startChainRestore]
  refine SameTables.chainRestorePump.kept ?_
  split
  · exact SameTables.requestNextChainRestore.kept (hfold _ _ h)
  · exact hfold _ _ h

theorem resolvesIn {e : Event} (h : Kept E g s) (hrewrites : RewritesFiles s e)
    (hs : s.resolvesIn E e = some s') : Kept E g s' := by
  cases e with
  | chain removed added accepted io => exact h.takeChain hrewrites hs
  | chainFailed io => exact h.takeChainFailure hs
  | block hash =>
    obtain rfl := Option.some.inj hs
    exact h.of_tables h.scored.noteChainBlock rfl rfl rfl rfl
  | blockFailed message pick =>
    obtain ⟨pos, -, rfl⟩ := Option.map_eq_some_iff.mp hs
    exact h.of_tables (h.scored.sublist (List.eraseIdx_sublist ..)) rfl rfl rfl rfl
  | _ => cases hs

/-- A step that may draw responses, and then leaves the tables alone. -/
theorem resolve {e : Event} {t : Option KeryxdHandler} (h : Kept E g s)
    (hrewrites : RewritesFiles s e) (ht : s.resolvesIn E e = t) (halike : ∀ s' ∈ t, DrawnAlike E s')
    (hs : s' = (t.map (·.resolveTraces E)).getD s) : Kept E (noteDraws g s') s' := by
  cases t with
  | none =>
    rw [hs, Option.map_none, Option.getD_none, h.noteDraws_eq]
    exact h
  | some t =>
    rw [hs]
    exact (h.resolvesIn hrewrites ht).resolveTraces (halike t rfl)

theorem noted (h : Kept E (noteDraws g s) s) (hsame : SameTables s s') :
    Kept E (noteDraws g s') s' := by
  rw [hsame.noteDraws]
  exact hsame.kept h

theorem step {e : Event} (h : Kept E g s) (honce : SubmittedOnce s e)
    (hrewrites : RewritesFiles s e) (halike : ∀ s' ∈ s.resolvesIn E e, DrawnAlike E s') :
    Kept E (noteDraws g (s.step E e)) (s.step E e) := by
  have hnote : ∀ {s'}, Kept E g s' → Kept E (noteDraws g s') s' := by
    intro s' hkept
    rw [hkept.noteDraws_eq]
    exact hkept
  -- Where the draws are resolved, what follows leaves the tables alone.
  have hresolve : Kept E
      (noteDraws g (((s.resolvesIn E e).map fun s => (s.resolveTraces E).afterResolve e).getD s))
      (((s.resolvesIn E e).map fun s => (s.resolveTraces E).afterResolve e).getD s) := by
    cases hs : s.resolvesIn E e with
    | none => exact hnote h
    | some t => exact (h.resolve hrewrites hs (hs ▸ halike) rfl).noted .afterResolve
  cases e with
  | restart now readable => exact hnote h.restart
  | registered order => exact hnote h.startChainRestore
  | notification removed added accepted io => exact hnote (h.onNotification hrewrites)
  | chain removed added accepted io => exact hresolve
  | chainFailed io => exact hresolve
  | block hash => exact hresolve
  | blockFailed message pick =>
    have hresolved := h.resolve (e := .blockFailed message pick) trivial rfl halike rfl
    rw [KeryxdHandler.step]
    split
    · exact hresolved.noted .restoreBlockAnswered
    · exact hresolved
  | template daa => exact hnote (h.of_tables h.scored rfl rfl rfl rfl)
  | submitted txid tier maxTokens io => exact hnote (h.submitted honce.1 honce.2).persistTrace
  | tick now busy pick io => exact hnote h.pruneAndRetry.tryStartReplay
  | replayDone now body io => exact hnote h.pollReplay
  | openingResponse txid error pick => exact hnote h.onOpeningResponse

end Kept

/-! ## Runs -/

/-- The chain of the accepting block and the seed block gives the draw. -/
theorem mayDraw_of_fits {deadlineDaa : Nat} (hfits : Fits E g txid p.stored seedHash deadlineDaa)
    (hd : p.draw = none) : MayDraw E txid p seedHash := by
  obtain ⟨A, hA, hdelay, txidBytes, hbytes, seedBlock, hblock, haudited⟩ := hfits.accepted
  have hA : p.acceptedHash = some A := hA
  have hne : A ≠ seedHash := by
    rintro rfl
    rw [traceSeedDelayDaa] at hdelay
    omega
  let log : List ChainEntry := [⟨A, some (E.daaScore A)⟩, ⟨seedHash, some (E.daaScore seedHash)⟩]
  have hlog : LogOk E log := by
    refine ⟨by simp [log, hashes, hne], ?_⟩
    intro e he daa hdaa
    rcases List.mem_pair.mp he with rfl | rfl <;> exact (Option.some.inj hdaa).symm
  have hseed : seedBlockAfter log A = some (seedHash, E.daaScore seedHash, E.daaScore A) := by
    simp [seedBlockAfter, log, seedScan, hdelay]
  refine ⟨log, hlog, ?_⟩
  have hdraw : { KeryxdHandler.init with chainLog := log }.drawOf E txid p = some {
      seedHash
      seedDaa := E.daaScore seedHash
      seed := E.traceSeed seedBlock txidBytes
      audited := decide (E.daaScore A ≥ E.traceAuditActivationDaa) ||
        E.drawAudited (E.traceSeed seedBlock txidBytes)
      deadlineDaa := E.daaScore seedHash + openingWindowDaa p.tier p.maxTokens
      opened := p.opening.any (·.seedHash = seedHash)
      replayFailures := 0 } := by
    simp [drawOf, hd, hA, KeryxdHandler.init, hseed, hbytes, hblock]
  exact ⟨_, hdraw, rfl, haudited⟩

theorem Kept.resentRight {e : Event} (h : Kept E g s) : ResentRight E (s, g) e := by
  intro r hr
  cases e with
  | tick now busy pick io =>
    obtain ⟨ho, hdaa⟩ := Kept.of_mem_resent hr
    obtain ⟨p, hp, -, hfits⟩ := h.inFlight r.1 r.2 ho
    refine ⟨hfits.last, p, h.lookup_pruneTraces ho hp hdaa, ?_⟩
    split
    · next d hd => exact h.draw_eq ho hp hd
    · next hd => exact mayDraw_of_fits hfits hd
  | _ => cases hr

/-- What holds of the client, the chain and the last draws in every state of a run. -/
structure Steady (E : Externals) (n : Net × LastDraws) : Prop where
  kept : Kept E n.2 n.1.client
  good : undrawn n.1.client ≠ [] → Net.Good E n.1
  stays : ∀ t ∈ undrawn n.1.client, ∀ o ∈ t.2.opening, ∀ A ∈ t.2.acceptedHash,
    SeedStays E n.1.chain A o.seedHash

namespace Steady

variable {n : Net × LastDraws} {e : Event × List String}

theorem init : Steady E (.init, fun _ => none) where
  kept := Kept.init
  good h := absurd rfl h
  stays := nofun

/-- The seed blocks stay when the chain does. -/
theorem stays_of_carried {chain' : List String} (h : Steady E n)
    (hcarried : Carried n.1.client s') (hchain : undrawn n.1.client ≠ [] → chain' = n.1.chain) :
    ∀ t ∈ undrawn s', ∀ o ∈ t.2.opening, ∀ A ∈ t.2.acceptedHash,
      SeedStays E chain' A o.seedHash := by
  rintro ⟨txid, p'⟩ hmem o ho A hA
  rw [hchain (hcarried.undrawn_ne_nil (List.ne_nil_of_mem hmem))]
  obtain ⟨hp', hdraw', hopening'⟩ := mem_undrawn.mp hmem
  obtain ⟨p, hp, hdraw, hopening, haccepted⟩ := hcarried txid p' hp' hdraw' hopening'
  exact h.stays ⟨txid, p⟩ (mem_undrawn.mpr ⟨hp, hdraw, hopening ▸ hopening'⟩) o (hopening ▸ ho) A
    (haccepted ▸ hA)

/-- Where the draws are resolved, a response with an opening gets the draw that this was built
for. -/
theorem drawnAlike (h : Steady E n) (hcond : Consistent E n.1 e)
    (hs : n.1.client.resolvesIn E e.1 = some s) : DrawnAlike E s where
  opening := by
    intro txid p d o hp hd ho
    obtain ⟨hnone, A, hA, -⟩ := drawOf_eq_some hd
    have hcarried := h.kept.carried_resolvesIn hs
    obtain ⟨q, hq, hqdraw, hqopening, hqaccepted⟩ :=
      hcarried txid p hp hnone (Option.isSome_of_mem ho)
    have hmem := mem_undrawn.mpr ⟨hq, hqdraw, hqopening ▸ Option.isSome_of_mem ho⟩
    obtain ⟨hdesc, -, hclear⟩ := hcond.waits (List.ne_nil_of_mem hmem)
    obtain ⟨A', hA', hchain, hseed⟩ := (h.good (List.ne_nil_of_mem hmem)).draw_right hdesc hs hp hd
      fun q' hq' A' hA' _ => hclear ⟨txid, q'⟩ (Option.some.inj (hq'.symm.trans hq) ▸ hmem) A' hA'
    have hsame : e.2 = n.1.chain := by
      apply hdesc.chain_eq
      · intro now readable he
        rw [he] at hs
        cases hs
      · intro removed added accepted io he
        rw [he] at hs
        cases hs
    exact h.stays_of_carried hcarried (fun _ => hsame) ⟨txid, p⟩
      (mem_undrawn.mpr ⟨hp, hnone, Option.isSome_of_mem ho⟩) o ho A' hA' hchain _ hseed
  replay := by
    intro txid p d job hp hd hjob htxid hseed
    subst htxid
    obtain ⟨hnone, A, hA, -, daa, acceptedDaa, hafter, -, txidBytes, hbytes, seedBlock, hblock,
      haudited⟩ := drawOf_eq_some hd
    obtain ⟨q, hq, hmem, -⟩ := mem_acceptedBy hs hp hnone hA
    have hscored := (h.kept.resolvesIn hcond.rewrites hs).scored
    rw [haudited, (seedBlockAfter_eq_some hscored hafter).2.1]
    rw [replay_resolvesIn hs] at hjob
    exact hcond.replay job hjob ⟨job.responseTxid, q⟩ (Table.mem_entries.mpr hq) rfl A hmem
      txidBytes hbytes seedBlock (hseed ▸ hblock)

/-- A step other than a restart carries the undrawn responses along. -/
theorem carried (h : Steady E n) (hcond : Consistent E n.1 e)
    (hrestart : ∀ now readable, e.1 ≠ .restart now readable)
    (hnotification : ∀ removed added accepted io, e.1 ≠ .notification removed added accepted io) :
    Carried n.1.client (n.1.client.step E e.1) := by
  have hresolve : Carried n.1.client (((n.1.client.resolvesIn E e.1).map fun s =>
      (s.resolveTraces E).afterResolve e.1).getD n.1.client) := by
    cases hs : n.1.client.resolvesIn E e.1 with
    | none => exact .of_eq rfl
    | some t =>
      exact ((h.kept.carried_resolvesIn hs).trans .resolveTraces).trans
        (.of_eq SameTables.afterResolve.pending)
  obtain ⟨e, chain'⟩ := e
  cases e with
  | restart now readable => exact absurd rfl (hrestart now readable)
  | registered order => exact .startChainRestore
  | notification removed added accepted io =>
    exact absurd rfl (hnotification removed added accepted io)
  | chain => exact hresolve
  | chainFailed => exact hresolve
  | block => exact hresolve
  | blockFailed message pick =>
    have hresolved : Carried n.1.client
        (((n.1.client.takeBlockFailure message).map (·.resolveTraces E)).getD n.1.client) := by
      cases hs : n.1.client.takeBlockFailure message with
      | none => exact .of_eq rfl
      | some t =>
        exact (h.kept.carried_resolvesIn (e := .blockFailed message pick) hs).trans .resolveTraces
    rw [KeryxdHandler.step]
    split
    · exact hresolved.trans (.of_eq SameTables.restoreBlockAnswered.pending)
    · exact hresolved
  | template daa => exact .of_eq rfl
  | submitted txid tier maxTokens io =>
    refine Carried.trans ?_ .persistTrace
    intro txid' p' hp' hdraw hopening
    rcases Table.lookup_insert_eq_some.mp hp' with ⟨-, rfl⟩ | ⟨-, hp'⟩
    · cases hopening
    · exact ⟨p', hp', hdraw, rfl, rfl⟩
  | tick now busy pick io =>
    have hpruned : Carried n.1.client
        ((n.1.client.pruneTraces io).retryPendingOpenings now).2 :=
      .keep (f := fun _ p => p.wanted n.1.client.lastKnownDaa) rfl
    exact hpruned.trans .tryStartReplay
  | replayDone now body io => exact .pollReplay
  | openingResponse txid error pick => exact .onOpeningResponse

theorem step (h : Steady E n) (hcond : Consistent E n.1 e) :
    Steady E (n.1.step E e, noteDraws n.2 (n.1.step E e).client) := by
  have hkept : Kept E (noteDraws n.2 (n.1.client.step E e.1)) (n.1.client.step E e.1) :=
    h.kept.step hcond.submitted hcond.rewrites fun s' hs' => h.drawnAlike hcond hs'
  have hgood : Carried n.1.client (n.1.client.step E e.1) →
      undrawn (n.1.client.step E e.1) ≠ [] → Net.Good E (n.1.step E e) := by
    intro hcarried hne
    have hne := hcarried.undrawn_ne_nil hne
    obtain ⟨hdesc, hadds, -⟩ := hcond.waits hne
    exact (h.good hne).step hdesc hadds
  obtain ⟨e, chain'⟩ := e
  cases e with
  | restart now readable =>
    obtain ⟨hnodup, hseeds⟩ := hcond.seeds
    refine ⟨hkept, fun _ => ⟨⟨hnodup, .nil, nofun, .nil⟩, nofun⟩, ?_⟩
    rintro ⟨txid, p⟩ hmem o ho A hA
    obtain ⟨hp, -, -⟩ := mem_undrawn.mp hmem
    rw [Net.step, KeryxdHandler.step, KeryxdHandler.restart, Table.lookup_mapVals] at hp
    obtain ⟨t, ht, rfl⟩ := Option.map_eq_some_iff.mp hp
    obtain ⟨ht, hreadable⟩ := Table.lookup_keep.mp ht
    exact hseeds ⟨txid, t⟩ (Table.mem_entries.mpr ht) hreadable o ho A hA
  | notification removed added accepted io =>
    have hback : ∀ {txid p'}, (n.1.client.step E (.notification removed added accepted
        io)).pendingTraces.lookup txid = some p' → p'.opening.isSome →
        n.1.client.pendingTraces.lookup txid = some p' ∧ ∀ A ∈ p'.acceptedHash, A ∉ removed :=
      fun hp' hopening => h.kept.of_lookup_onNotification hp' hopening
    refine ⟨hkept, hgood fun txid p' hp' hdraw hopening =>
      ⟨p', (hback hp' hopening).1, hdraw, rfl, rfl⟩, ?_⟩
    rintro ⟨txid, p⟩ hmem o ho A hA
    obtain ⟨hp, hdraw, hopening⟩ := mem_undrawn.mp hmem
    obtain ⟨hp, hfree⟩ := hback hp hopening
    exact hcond.seeds ⟨txid, p⟩ (mem_undrawn.mpr ⟨hp, hdraw, hopening⟩) o ho A hA (hfree A hA)
  | _ =>
    have hcarried := h.carried hcond (by simp) (by simp)
    exact ⟨hkept, hgood hcarried,
      h.stays_of_carried hcarried fun hne => (hcond.waits hne).1.chain_eq (by simp) (by simp)⟩

end Steady

/-- The client, with the latest draw of each response remembered. -/
def remembering (E : Externals) : KeryxdHandler × LastDraws → Event → KeryxdHandler × LastDraws :=
  instrument (step E) fun g _ _ s' => noteDraws g s'

/-- Every draw is audited, and an opening carries the seed block it was built for. -/
def openingExternals : Externals where
  daaScore hash := if hash = "a1" then 1000 else 1150
  traceSeed seedBlock _ := seedBlock
  drawAudited _ := true
  traceAuditActivationDaa := 0
  traceSeedBindActivationDaa := 0
  seeded body seedBlockHash := some (body ++ seedBlockHash)
  signOpening body := some (String.ofList (body.map fun byte => Char.ofNat byte.toNat))
  openingTxid payload := some payload

/-- A response is drawn and its opening submitted. The miner restarts when `after` stands behind the
accepting block, and draws the response again. -/
def openedAndRestarted (after : String) : List (Event × List String) :=
  let t := onChain 'a'
  let before := onChain '2'
  let chain := ["a1", before]
  let chain' := ["a1", after]
  [(.submitted t 1 16 always, []), (.notification [] chain [("a1", [t])] always, chain),
    (.block "a1", chain), (.block before, chain), (.tick 0 false t always, chain),
    (.replayDone 1000 (some []) always, chain), (.restart 100000 always, chain'),
    (.registered [t], chain'), (.chain [] [after] [] always, chain'), (.block "a1", chain'),
    (.block after, chain'), (.tick 200000 false t always, chain')]

end KeryxMiner.Trace
