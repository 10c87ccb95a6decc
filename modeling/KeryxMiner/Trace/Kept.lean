import KeryxMiner.Trace.Acceptance

/-!
# Kept openings

An opening is built for the seed block of a draw. It is kept in flight, with its response and in the
file of that, and a reorganisation the client is told of drops all three. `Kept` says that each is
for the last draw of its response, which is remembered beside the client (`LastDraws`): what the
client does keeps this, as long as it draws nothing.
-/

namespace KeryxMiner.Trace

open KeryxdHandler

/-- The latest draw of each response: its seed block, and whether it is audited. -/
abbrev LastDraws := String → Option (String × Bool)

variable {E : Externals} {s s' : KeryxdHandler} {g : LastDraws} {io : String → Bool} {now : Nat}
  {txid seedHash : String} {p : PendingTrace} {d : TraceDraw}

/-- `h` can seed the draw of a response that `A` accepted, and the draw is audited. -/
def Audits (E : Externals) (txid A h : String) : Prop :=
  E.daaScore A + traceSeedDelayDaa ≤ E.daaScore h ∧ ∃ txidBytes, hash32 txid = some txidBytes ∧
    ∃ seedBlock, hash32 h = some seedBlock ∧
      (decide (E.daaScore A ≥ E.traceAuditActivationDaa) ||
        E.drawAudited (E.traceSeed seedBlock txidBytes)) = true

/-- An opening for `seedHash` with this deadline is one of the last draw of the response `t`. -/
structure Fits (E : Externals) (g : LastDraws) (txid : String) (t : StoredTrace) (seedHash : String)
    (deadlineDaa : Nat) : Prop where
  last : g txid = some (seedHash, true)
  accepted : ∃ A, t.acceptedHash = some A ∧ Audits E txid A seedHash
  deadline : deadlineDaa = E.daaScore seedHash + openingWindowDaa t.tier t.maxTokens

/-- The file of a response that a removal takes back is written if it has an opening. -/
def Rewrites (s : KeryxdHandler) (io : String → Bool) (removed : List String) : Prop :=
  ∀ t ∈ s.pendingTraces.entries, t.2.resets removed →
    (∃ file ∈ s.traceStore.lookup t.1, file.opening.isSome) → io t.1

instance {removed : List String} : Decidable (Rewrites s io removed) :=
  inferInstanceAs (Decidable (∀ t ∈ s.pendingTraces.entries, t.2.resets removed →
    (∃ file ∈ s.traceStore.lookup t.1, file.opening.isSome) → io t.1))

/-- Every opening is one of the last draw of its response, wherever it is kept. A pending response
that has openings has one in memory. -/
structure Kept (E : Externals) (g : LastDraws) (s : KeryxdHandler) : Prop where
  scored : Scored E s.chainLog
  draws : ∀ txid p d, s.pendingTraces.lookup txid = some p → p.draw = some d →
    g txid = some (d.seedHash, d.audited) ∧
      (d.audited → Fits E g txid p.stored d.seedHash d.deadlineDaa)
  opening : ∀ txid p o, s.pendingTraces.lookup txid = some p → p.opening = some o →
    Fits E g txid p.stored o.seedHash o.deadlineDaa
  stored : ∀ txid t o, s.traceStore.lookup txid = some t → t.opening = some o →
    Fits E g txid t o.seedHash o.deadlineDaa ∧
      ∀ p, s.pendingTraces.lookup txid = some p → p.opening.isSome
  inFlight : ∀ id o, s.openingInflight.lookup id = some o →
    ∃ p, s.pendingTraces.lookup o.responseTxid = some p ∧ p.opening.isSome ∧
      Fits E g o.responseTxid p.stored o.seedHash o.deadlineDaa
  replay : ∀ job, s.replay = some job → ∀ p d, s.pendingTraces.lookup job.responseTxid = some p →
    p.draw = some d → d.seedHash = job.seedHash → d.audited

namespace Kept

theorem init : Kept E g init where
  scored := nofun
  draws := nofun
  opening := nofun
  stored := nofun
  inFlight := nofun
  replay := nofun

theorem of_tables (h : Kept E g s) (hlog : Scored E s'.chainLog)
    (hpending : s'.pendingTraces = s.pendingTraces) (hstore : s'.traceStore = s.traceStore)
    (hinflight : s'.openingInflight = s.openingInflight) (hreplay : s'.replay = s.replay) :
    Kept E g s' where
  scored := hlog
  draws := hpending ▸ h.draws
  opening := hpending ▸ h.opening
  stored := by
    rw [hstore, hpending]
    exact h.stored
  inFlight := by
    rw [hinflight, hpending]
    exact h.inFlight
  replay := by
    rw [hreplay, hpending]
    exact h.replay

/-- An opening in flight is for the draw of its response. -/
theorem draw_eq {id : String} {o : OpeningInflight} (h : Kept E g s)
    (ho : s.openingInflight.lookup id = some o)
    (hp : s.pendingTraces.lookup o.responseTxid = some p) (hd : p.draw = some d) :
    d.seedHash = o.seedHash ∧ d.audited := by
  obtain ⟨q, hq, -, hfits⟩ := h.inFlight id o ho
  have hlast := (h.draws _ p d hp hd).1
  simp only [hfits.last, Option.some.injEq, Prod.mk.injEq] at hlast
  exact ⟨hlast.1.symm, hlast.2.symm⟩

/-- Its response is kept up to its deadline. -/
theorem wanted {id : String} {o : OpeningInflight} {daa : Nat} (h : Kept E g s)
    (ho : s.openingInflight.lookup id = some o)
    (hp : s.pendingTraces.lookup o.responseTxid = some p) (hdaa : daa ≤ o.deadlineDaa) :
    p.wanted daa := by
  obtain ⟨q, hq, -, hfits⟩ := h.inFlight id o ho
  rw [hp] at hq
  obtain rfl := Option.some.inj hq
  rw [PendingTrace.wanted]
  cases hd : p.draw with
  | none =>
    obtain ⟨A, hA, -⟩ := hfits.accepted
    have hA : p.acceptedHash = some A := hA
    simp [hA]
  | some d =>
    obtain ⟨hseed, haudited⟩ := h.draw_eq ho hp hd
    have hdeadline := ((h.draws _ p d hp hd).2 haudited).deadline
    rw [hseed, ← hfits.deadline] at hdeadline
    simp [haudited, hdeadline, hdaa]

/-! ## Files -/

theorem persistTrace (h : Kept E g s) : Kept E g (s.persistTrace io txid) := by
  rw [KeryxdHandler.persistTrace]
  split
  · exact h
  next p hp =>
  split
  · refine { h with stored := ?_ }
    intro txid' t o ht ho
    rcases Table.lookup_insert_eq_some.mp ht with ⟨rfl, rfl⟩ | ⟨-, ht⟩
    · refine ⟨h.opening txid' p o hp ho, fun p' hp' => ?_⟩
      obtain rfl := Option.some.inj (hp.symm.trans hp')
      exact Option.isSome_of_mem ho
    · exact h.stored txid' t o ht ho
  · exact h

theorem persistTraces {txids : List String} (h : Kept E g s) :
    Kept E g (s.persistTraces io txids) := by
  induction txids generalizing s with
  | nil => exact h
  | cons txid txids ih => exact ih h.persistTrace

/-- The openings in flight after a restart are those of the files. -/
theorem lookup_restoredOpenings {store : AList fun _ : String => StoredTrace} {id : String}
    {o : OpeningInflight} (h : (restoredOpenings E now store).lookup id = some o) :
    ∃ t op, store.lookup o.responseTxid = some t ∧ t.opening = some op ∧
      o.seedHash = op.seedHash ∧ o.deadlineDaa = op.deadlineDaa := by
  let Stored (openings : AList fun _ : String => OpeningInflight) : Prop :=
    ∀ id o, openings.lookup id = some o → ∃ t op, store.lookup o.responseTxid = some t ∧
      t.opening = some op ∧ o.seedHash = op.seedHash ∧ o.deadlineDaa = op.deadlineDaa
  have hstored : Stored (restoredOpenings E now store) := by
    apply List.foldlRecOn (motive := Stored)
    · intro id o ho
      cases ho
    · rintro openings hopenings ⟨responseTxid, t⟩ hmem
      have ht : store.lookup responseTxid = some t := Table.mem_entries.mp hmem
      dsimp only
      split
      · exact hopenings
      next op hop =>
      split
      · exact hopenings
      next txid _ =>
      intro id o ho
      rcases Table.lookup_insert_eq_some.mp ho with ⟨-, rfl⟩ | ⟨-, ho⟩
      · exact ⟨t, op, ht, hop, rfl, rfl⟩
      · exact hopenings id o ho
  exact hstored id o h

theorem restart {readable : String → Bool} (h : Kept E g s) :
    Kept E g (s.restart E now readable) where
  scored := nofun
  draws txid p d hp hd := by
    rw [KeryxdHandler.restart, Table.lookup_mapVals] at hp
    obtain ⟨t, -, rfl⟩ := Option.map_eq_some_iff.mp hp
    cases hd
  opening txid p o hp ho := by
    rw [KeryxdHandler.restart, Table.lookup_mapVals] at hp
    obtain ⟨t, ht, rfl⟩ := Option.map_eq_some_iff.mp hp
    exact (h.stored txid t o (Table.lookup_keep.mp ht).1 ho).1
  stored txid t o ht ho := by
    refine ⟨(h.stored txid t o (Table.lookup_keep.mp ht).1 ho).1, fun p hp => ?_⟩
    rw [KeryxdHandler.restart, Table.lookup_mapVals] at hp
    obtain ⟨t', ht', rfl⟩ := Option.map_eq_some_iff.mp hp
    obtain rfl := Option.some.inj (ht.symm.trans ht')
    exact Option.isSome_of_mem ho
  inFlight id o ho := by
    obtain ⟨t, op, ht, hop, hseed, hdeadline⟩ := lookup_restoredOpenings ho
    refine ⟨t.restored, ?_, Option.isSome_of_mem hop, ?_⟩
    · rw [KeryxdHandler.restart, Table.lookup_mapVals, ht]
      rfl
    · rw [hseed, hdeadline]
      exact (h.stored _ t op (Table.lookup_keep.mp ht).1 hop).1
  replay := nofun

/-! ## Acceptances and removals -/

theorem noteAcceptance {block : String} (h : Kept E g s) :
    Kept E g (s.noteAcceptance block txid).2 := by
  rw [KeryxdHandler.noteAcceptance]
  split
  · exact h
  next p hp =>
  split
  · exact h
  next hnone =>
  -- A response that is not accepted has no opening.
  have hno : ∀ {seedHash deadlineDaa}, ¬Fits E g txid p.stored seedHash deadlineDaa := by
    intro seedHash deadlineDaa hfits
    obtain ⟨A, hA, -⟩ := hfits.accepted
    have hA : p.acceptedHash = some A := hA
    simp [hA] at hnone
  refine { h with draws := ?_, opening := ?_, stored := ?_, inFlight := ?_, replay := ?_ }
  · intro txid' q d hq hd
    rcases Table.lookup_insert_eq_some.mp hq with ⟨rfl, rfl⟩ | ⟨-, hq⟩
    · obtain ⟨hlast, hfits⟩ := h.draws txid' p d hp hd
      exact ⟨hlast, fun haudited => absurd (hfits haudited) hno⟩
    · exact h.draws txid' q d hq hd
  · intro txid' q o hq ho
    rcases Table.lookup_insert_eq_some.mp hq with ⟨rfl, rfl⟩ | ⟨-, hq⟩
    · exact absurd (h.opening txid' p o hp ho) hno
    · exact h.opening txid' q o hq ho
  · intro txid' t o ht ho
    obtain ⟨hfits, hopening⟩ := h.stored txid' t o ht ho
    refine ⟨hfits, fun q hq => ?_⟩
    rcases Table.lookup_insert_eq_some.mp hq with ⟨rfl, rfl⟩ | ⟨-, hq⟩
    · exact hopening p hp
    · exact hopening q hq
  · intro id o ho
    obtain ⟨q, hq, hopening, hfits⟩ := h.inFlight id o ho
    have hne : o.responseTxid ≠ txid := by
      intro heq
      rw [heq] at hq hfits
      obtain rfl := Option.some.inj (hp.symm.trans hq)
      exact hno hfits
    exact ⟨q, Table.lookup_insert_eq_some.mpr (.inr ⟨hne, hq⟩), hopening, hfits⟩
  · intro job hjob q d hq hd
    rcases Table.lookup_insert_eq_some.mp hq with ⟨heq, rfl⟩ | ⟨-, hq⟩
    · exact h.replay job hjob p d (heq ▸ hp) hd
    · exact h.replay job hjob q d hq hd

theorem noteAcceptances {accepted : Acceptances} (h : Kept E g s) :
    Kept E g (s.noteAcceptances io accepted) := by
  have hloop : ∀ (pairs : List (String × String)) (noted : List String) (s : KeryxdHandler),
      Kept E g s → Kept E g (pairs.foldl (fun acc pair =>
        let r := KeryxdHandler.noteAcceptance acc.2 pair.1 pair.2
        (if r.1 then acc.1 ++ [pair.2] else acc.1, r.2)) (noted, s)).2 := by
    intro pairs
    induction pairs with
    | nil => exact fun _ s h => h
    | cons pair pairs ih => exact fun noted s h => ih _ _ h.noteAcceptance
  exact (hloop _ [] s h).persistTraces

theorem onChainBlocksRemoved {removed : List String} (h : Kept E g s)
    (hio : Rewrites s io removed) : Kept E g (s.onChainBlocksRemoved io removed) := by
  rw [KeryxdHandler.onChainBlocksRemoved]
  split
  · exact h
  have hreset : ∀ {txid q}, (Table.mapVals (fun _ (p : PendingTrace) => p.reset removed)
      s.pendingTraces).lookup txid = some q →
      ∃ p, s.pendingTraces.lookup txid = some p ∧
        (q = p ∨ p.resets removed ∧ q.draw = none ∧ q.opening = none) := by
    intro txid q hq
    rw [Table.lookup_mapVals] at hq
    obtain ⟨p, hp, rfl⟩ := Option.map_eq_some_iff.mp hq
    refine ⟨p, hp, ?_⟩
    rw [PendingTrace.reset]
    split
    · next hresets => exact .inr ⟨hresets, rfl, rfl⟩
    · exact .inl rfl
  have hmem : ∀ {txid p}, s.pendingTraces.lookup txid = some p → p.resets removed →
      txid ∈ (s.pendingTraces.entries.filter (·.2.resets removed)).map (·.1) := by
    intro txid p hp hresets
    have hentry : (⟨txid, p⟩ : Sigma fun _ : String => PendingTrace) ∈
        s.pendingTraces.entries.filter (·.2.resets removed) :=
      List.mem_filter.mpr ⟨Table.mem_entries.mpr hp, hresets⟩
    exact List.mem_map_of_mem hentry
  dsimp only
  obtain ⟨⟨hlog, hpending, hinflight, hreplay⟩, hfiles⟩ := @persistTraces_spec { s with
    chainLog := s.chainLog.filter (·.hash ∉ removed)
    pendingTraces := Table.mapVals (fun _ (p : PendingTrace) => p.reset removed) s.pendingTraces
    openingInflight := Table.keep (fun _ o => o.responseTxid ∉
      (s.pendingTraces.entries.filter fun e => e.2.resets removed).map (·.1)) s.openingInflight }
    io ((s.pendingTraces.entries.filter fun e => e.2.resets removed).map (·.1))
  dsimp only at hlog hpending hinflight hreplay hfiles
  generalize KeryxdHandler.persistTraces _ io _ = t at *
  have hopening : ∀ {txid q o}, t.pendingTraces.lookup txid = some q → q.opening = some o →
      Fits E g txid q.stored o.seedHash o.deadlineDaa := by
    intro txid q o hq ho
    obtain ⟨p, hp, rfl | ⟨-, -, hnone⟩⟩ := hreset (hpending ▸ hq)
    · exact h.opening txid q o hp ho
    · rw [hnone] at ho
      cases ho
  refine ⟨?_, ?_, fun txid q o => hopening, ?_, ?_, ?_⟩
  · rw [hlog]
    exact h.scored.sublist List.filter_sublist
  · intro txid q d hq hd
    obtain ⟨p, hp, rfl | ⟨-, hnone, -⟩⟩ := hreset (hpending ▸ hq)
    · exact h.draws txid q d hp hd
    · rw [hnone] at hd
      cases hd
  · intro txid file o hfile ho
    rcases hfiles txid file hfile with ⟨hfile, hwritten⟩ | ⟨q, hq, rfl⟩
    · obtain ⟨hfits, hold⟩ := h.stored txid file o hfile ho
      refine ⟨hfits, fun q hq => ?_⟩
      obtain ⟨p, hp, rfl | ⟨hresets, -⟩⟩ := hreset (hpending ▸ hq)
      · exact hold q hp
      · -- The file of a response that is reset has been written.
        have hok := hio ⟨txid, p⟩ (Table.mem_entries.mpr hp) hresets
          ⟨file, hfile, Option.isSome_of_mem ho⟩
        have hnone := hwritten (hmem hp hresets) hok
        rw [hpending, hnone] at hq
        cases hq
    · rw [← hpending] at hq
      refine ⟨hopening hq ho, fun q' hq' => ?_⟩
      obtain rfl := Option.some.inj (hq.symm.trans hq')
      exact Option.isSome_of_mem ho
  · intro id o ho
    rw [hinflight] at ho
    obtain ⟨ho, hkept⟩ := Table.lookup_keep.mp ho
    obtain ⟨p, hp, hsome, hfits⟩ := h.inFlight id o ho
    -- Openings of responses that are reset are dropped.
    have hsame : p.reset removed = p := by
      rw [PendingTrace.reset, if_neg]
      exact fun hresets => of_decide_eq_true hkept (hmem hp hresets)
    refine ⟨p, ?_, hsome, hfits⟩
    rw [hpending, Table.lookup_mapVals, hp, Option.map_some, hsame]
  · intro job hjob q d hq hd
    obtain ⟨p, hp, rfl | ⟨-, hnone, -⟩⟩ := hreset (hpending ▸ hq)
    · exact h.replay job (hreplay ▸ hjob) q d hp hd
    · rw [hnone] at hd
      cases hd

theorem onNotification {removed added : List String} {accepted : Acceptances} (h : Kept E g s)
    (hio : Rewrites s io removed) : Kept E g (s.onNotification io removed added accepted) := by
  have hremoved := h.onChainBlocksRemoved hio
  rw [KeryxdHandler.onNotification]
  generalize s.onChainBlocksRemoved io removed = t at *
  have hadded : Kept E g { t with chainLog := appendChain t.chainLog added } :=
    hremoved.of_tables hremoved.scored.appendChain rfl rfl rfl rfl
  have hnoted := @noteAcceptances _ _ _ io accepted hadded
  exact hnoted.of_tables hnoted.scored rfl rfl rfl rfl

theorem takeChain {removed added : List String} {accepted : Acceptances} (h : Kept E g s)
    (hio : Rewrites s io removed) (hs : s.takeChain io removed added accepted = some s') :
    Kept E g s' := by
  rw [KeryxdHandler.takeChain] at hs
  split at hs
  · cases hs
  next start starts _ =>
  obtain rfl := Option.some.inj hs
  have htaken : Kept E g { s with
      chainRestoreStarts := starts
      chainRestoreFailures := s.chainRestoreFailures.erase start } :=
    h.of_tables h.scored rfl rfl rfl rfl
  have hremoved := htaken.onChainBlocksRemoved hio
  apply noteAcceptances
  exact hremoved.of_tables hremoved.scored.place rfl rfl rfl rfl

theorem takeChainFailure (h : Kept E g s) (hs : s.takeChainFailure io = some s') :
    Kept E g s' := by
  rw [KeryxdHandler.takeChainFailure] at hs
  split at hs
  · cases hs
  next start starts _ =>
  obtain rfl := Option.some.inj hs
  rw [onChainRestoreFailed]
  dsimp only
  split
  · exact h.of_tables h.scored rfl rfl rfl rfl
  · refine ⟨?_, ?_, ?_, ?_, ?_, ?_⟩
    · exact h.scored.sublist List.filter_sublist
    · exact fun txid p d hp => h.draws txid p d (Table.lookup_keep.mp hp).1
    · exact fun txid p o hp => h.opening txid p o (Table.lookup_keep.mp hp).1
    · intro txid t o ht ho
      obtain ⟨hfits, hopening⟩ := h.stored txid t o (Table.lookup_keep.mp ht).1 ho
      exact ⟨hfits, fun p hp => hopening p (Table.lookup_keep.mp hp).1⟩
    · intro id o ho
      obtain ⟨ho, hkept⟩ := Table.lookup_keep.mp ho
      obtain ⟨p, hp, hopening, hfits⟩ := h.inFlight id o ho
      exact ⟨p, Table.lookup_keep.mpr ⟨hp, hkept⟩, hopening, hfits⟩
    · exact fun job hjob p d hp => h.replay job hjob p d (Table.lookup_keep.mp hp).1

/-! ## Steps that leave the draws alone -/

/-- Only what concerns the replays of a response has changed. -/
structure Alike (p p' : PendingTrace) : Prop where
  stored : p'.stored = p.stored
  draw : ∀ d', p'.draw = some d' → ∃ d, p.draw = some d ∧ d'.seedHash = d.seedHash ∧
    d'.audited = d.audited ∧ d'.deadlineDaa = d.deadlineDaa

theorem Alike.refl : Alike p p := ⟨rfl, fun d hd => ⟨d, hd, rfl, rfl, rfl⟩⟩

theorem Alike.markOpened : Alike p p.markOpened where
  stored := rfl
  draw d' hd' := by
    obtain ⟨d, hd, rfl⟩ := Option.map_eq_some_iff.mp hd'
    exact ⟨d, hd, rfl, rfl, rfl⟩

/-- The same responses are pending, with the same draws. -/
def AlikeTables (t t' : AList fun _ : String => PendingTrace) : Prop :=
  ∀ txid, Option.Rel Alike (t.lookup txid) (t'.lookup txid)

theorem alikeTables_insert {t : AList fun _ : String => PendingTrace} {p' : PendingTrace}
    (hp : t.lookup txid = some p) (halike : Alike p p') : AlikeTables t (t.insert txid p') := by
  intro txid'
  by_cases heq : txid' = txid
  · rw [heq, AList.lookup_insert, hp]
    exact .some halike
  · rw [AList.lookup_insert_ne heq]
    cases t.lookup txid' with
    | none => exact .none
    | some q => exact .some .refl

theorem alikeTables_mapVals {t : AList fun _ : String => PendingTrace}
    {f : String → PendingTrace → PendingTrace} (halike : ∀ txid p, Alike p (f txid p)) :
    AlikeTables t (Table.mapVals f t) := by
  intro txid
  rw [Table.lookup_mapVals]
  cases t.lookup txid with
  | none => exact .none
  | some p => exact .some (halike txid p)

theorem AlikeTables.lookup {t t' : AList fun _ : String => PendingTrace} {p' : PendingTrace}
    (h : AlikeTables t t') (hp' : t'.lookup txid = some p') :
    ∃ p, t.lookup txid = some p ∧ Alike p p' := by
  have hrel := h txid
  rw [hp'] at hrel
  cases hp : t.lookup txid with
  | none =>
    rw [hp] at hrel
    cases hrel
  | some p =>
    rw [hp] at hrel
    obtain ⟨halike⟩ := hrel
    exact ⟨p, rfl, halike⟩

theorem AlikeTables.lookup_left {t t' : AList fun _ : String => PendingTrace}
    (h : AlikeTables t t') (hp : t.lookup txid = some p) :
    ∃ p', t'.lookup txid = some p' ∧ Alike p p' := by
  have hrel := h txid
  rw [hp] at hrel
  cases hp' : t'.lookup txid with
  | none =>
    rw [hp'] at hrel
    cases hrel
  | some p' =>
    rw [hp'] at hrel
    obtain ⟨halike⟩ := hrel
    exact ⟨p', rfl, halike⟩

theorem alike {t : AList fun _ : String => PendingTrace} (h : Kept E g s)
    (halike : AlikeTables s.pendingTraces t) : Kept E g { s with pendingTraces := t } := by
  have hopening : ∀ {p p' : PendingTrace}, p'.stored = p.stored → p'.opening = p.opening :=
    congrArg StoredTrace.opening
  refine { h with draws := ?_, opening := ?_, stored := ?_, inFlight := ?_, replay := ?_ }
  · intro txid p' d' hp' hd'
    obtain ⟨p, hp, hstored, hdraw⟩ := halike.lookup hp'
    obtain ⟨d, hd, hseed, haudited, hdeadline⟩ := hdraw d' hd'
    rw [hseed, haudited, hdeadline, hstored]
    exact h.draws txid p d hp hd
  · intro txid p' o hp' ho
    obtain ⟨p, hp, hstored, -⟩ := halike.lookup hp'
    rw [hstored]
    exact h.opening txid p o hp (hopening hstored ▸ ho)
  · intro txid t o ht ho
    obtain ⟨hfits, hsome⟩ := h.stored txid t o ht ho
    refine ⟨hfits, fun p' hp' => ?_⟩
    obtain ⟨p, hp, hstored, -⟩ := halike.lookup hp'
    rw [hopening hstored]
    exact hsome p hp
  · intro id o ho
    obtain ⟨p, hp, hsome, hfits⟩ := h.inFlight id o ho
    obtain ⟨p', hp', hstored, -⟩ := halike.lookup_left hp
    exact ⟨p', hp', hopening hstored ▸ hsome, hstored ▸ hfits⟩
  · intro job hjob p' d' hp' hd' hseed'
    obtain ⟨p, hp, -, hdraw⟩ := halike.lookup hp'
    obtain ⟨d, hd, hseed, haudited, -⟩ := hdraw d' hd'
    rw [haudited]
    exact h.replay job hjob p d hp hd (hseed ▸ hseed')

/-! ## Openings -/

/-- An opening that is submitted is for the draw of its response. -/
theorem submitOpening {body : List UInt8} (h : Kept E g s)
    (hp : s.pendingTraces.lookup txid = some p) (hd : p.draw = some d) (hseed : d.seedHash = seedHash)
    (haudited : d.audited) : Kept E g (s.submitOpening E now io txid seedHash body) := by
  obtain ⟨hlast, hfits⟩ := h.draws txid p d hp hd
  have hfits := hfits haudited
  subst hseed
  rw [KeryxdHandler.submitOpening]
  split
  · exact h
  next p' hp' =>
  obtain rfl := Option.some.inj (hp.symm.trans hp')
  split
  · exact h
  next d' hd' =>
  obtain rfl := Option.some.inj (hd.symm.trans hd')
  dsimp only
  split
  · exact h
  next payload _ =>
  refine persistTrace { h with draws := ?_, opening := ?_, stored := ?_, inFlight := ?_, replay := ?_ }
  · intro txid' q d' hq hd'
    rcases Table.lookup_insert_eq_some.mp hq with ⟨rfl, rfl⟩ | ⟨-, hq⟩
    · obtain rfl := Option.some.inj (hd.symm.trans hd')
      exact ⟨hlast, fun _ => ⟨hfits.last, hfits.accepted, hfits.deadline⟩⟩
    · exact h.draws txid' q d' hq hd'
  · intro txid' q o hq ho
    rcases Table.lookup_insert_eq_some.mp hq with ⟨rfl, rfl⟩ | ⟨-, hq⟩
    · cases ho
      exact ⟨hfits.last, hfits.accepted, hfits.deadline⟩
    · exact h.opening txid' q o hq ho
  · intro txid' t o ht ho
    obtain ⟨hold, hsome⟩ := h.stored txid' t o ht ho
    refine ⟨hold, fun q hq => ?_⟩
    rcases Table.lookup_insert_eq_some.mp hq with ⟨-, rfl⟩ | ⟨-, hq⟩
    · rfl
    · exact hsome q hq
  · -- A response keeps what its openings fit.
    have hsame : ∀ {txid' q seedHash deadlineDaa}, s.pendingTraces.lookup txid' = some q →
        (txid' = txid ∨ q.opening.isSome) → Fits E g txid' q.stored seedHash deadlineDaa → ∃ q',
          (s.pendingTraces.insert txid { p with
            opening := some ⟨d.seedHash, d.deadlineDaa, payload⟩ }).lookup txid' = some q' ∧
          q'.opening.isSome ∧ Fits E g txid' q'.stored seedHash deadlineDaa := by
      intro txid' q seedHash deadlineDaa hq hsome hfits
      by_cases heq : txid' = txid
      · subst heq
        obtain rfl := Option.some.inj (hp.symm.trans hq)
        exact ⟨_, AList.lookup_insert _, rfl, ⟨hfits.last, hfits.accepted, hfits.deadline⟩⟩
      · exact ⟨q, (AList.lookup_insert_ne heq).trans hq, hsome.resolve_left heq, hfits⟩
    intro id o ho
    split at ho
    · obtain ⟨q, hq, hsome, hfits⟩ := h.inFlight id o ho
      exact hsame hq (.inr hsome) hfits
    · rcases Table.lookup_insert_eq_some.mp ho with ⟨-, rfl⟩ | ⟨-, ho⟩
      · exact hsame hp (.inl rfl) hfits
      · obtain ⟨q, hq, hsome, hfits⟩ := h.inFlight id o ho
        exact hsame hq (.inr hsome) hfits
  · intro job hjob q d' hq hd'
    rcases Table.lookup_insert_eq_some.mp hq with ⟨heq, rfl⟩ | ⟨-, hq⟩
    · exact h.replay job hjob p d' (heq ▸ hp) hd'
    · exact h.replay job hjob q d' hq hd'

/-- The draws stay. -/
theorem draw_submitOpening {responseTxid : String} {body : List UInt8}
    (hp : s.pendingTraces.lookup txid = some p) (hd : p.draw = some d) :
    ∃ q, (s.submitOpening E now io responseTxid seedHash body).pendingTraces.lookup txid = some q ∧
      q.draw = some d := by
  rw [KeryxdHandler.submitOpening]
  split
  · exact ⟨p, hp, hd⟩
  next p' hp' =>
  split
  · exact ⟨p, hp, hd⟩
  dsimp only
  split
  · exact ⟨p, hp, hd⟩
  next payload _ =>
  have hpersist : ∀ s : KeryxdHandler,
      (s.persistTrace io responseTxid).pendingTraces = s.pendingTraces := fun s =>
    @pendingTraces_persistTraces s io [responseTxid]
  rw [hpersist]
  by_cases heq : txid = responseTxid
  · subst heq
    obtain rfl := Option.some.inj (hp.symm.trans hp')
    exact ⟨_, AList.lookup_insert _, hd⟩
  · exact ⟨p, (AList.lookup_insert_ne heq).trans hp, hd⟩

theorem ready_eq_some {seed : String} {body : List UInt8} (h : p.ready = some (seed, body)) :
    ∃ d, p.draw = some d ∧ d.seedHash = seed ∧ d.audited := by
  obtain ⟨d, hd, hready⟩ := Option.bind_eq_some_iff.mp h
  split at hready
  · next hopen =>
    have hseed := List.find?_some hready
    simp only [decide_eq_true_eq] at hseed
    rw [Bool.and_eq_true] at hopen
    exact ⟨d, hd, hseed.symm, hopen.1⟩
  · cases hready

theorem submitReady (h : Kept E g s) : Kept E g (s.submitReady E now io) := by
  have hloop : ∀ (ready : List (String × String × List UInt8)) (s : KeryxdHandler), Kept E g s →
      (∀ r ∈ ready, ∃ p d, s.pendingTraces.lookup r.1 = some p ∧ p.draw = some d ∧
        d.seedHash = r.2.1 ∧ d.audited) →
      Kept E g (ready.foldl (fun s r => s.submitOpening E now io r.1 r.2.1 r.2.2) s) := by
    intro ready
    induction ready with
    | nil => exact fun s h _ => h
    | cons r ready ih =>
      intro s h hready
      obtain ⟨p, d, hp, hd, hseed, haudited⟩ := hready r List.mem_cons_self
      apply ih _ (h.submitOpening hp hd hseed haudited)
      intro r' hr'
      obtain ⟨p', d', hp', hd', hdraw⟩ := hready r' (List.mem_cons_of_mem _ hr')
      obtain ⟨q, hq, hqd⟩ := @draw_submitOpening E s io now _ r.2.1 p' d' r.1 r.2.2 hp' hd'
      exact ⟨q, d', hq, hqd, hdraw⟩
  have hmarked : AlikeTables s.pendingTraces (Table.mapVals (fun _ p =>
      if p.ready.isSome then p.markOpened else p) s.pendingTraces) := by
    apply alikeTables_mapVals
    intro txid p
    split
    · exact .markOpened
    · exact .refl
  refine hloop _ _ (h.alike hmarked) ?_
  rintro ⟨txid, seed, body⟩ hr
  obtain ⟨⟨txid', p⟩, hentry, hready⟩ := List.mem_filterMap.mp hr
  obtain ⟨⟨seed', body'⟩, hready, heq⟩ := Option.map_eq_some_iff.mp hready
  cases heq
  obtain ⟨d, hd, hseed, haudited⟩ := ready_eq_some hready
  refine ⟨p.markOpened, { d with opened := true }, ?_, ?_, hseed, haudited⟩
  · rw [Table.lookup_mapVals, Table.mem_entries.mp hentry, Option.map_some, hready]
    rfl
  · rw [PendingTrace.markOpened, hd]
    rfl

/-- A response that waits for its opening has an audited draw. -/
theorem audited_of_toOpen (hd : p.draw = some d) (h : p.toOpen) : d.audited := by
  rw [PendingTrace.toOpen, hd, Option.any_some, Bool.and_eq_true] at h
  exact h.1

theorem tryStartReplay {busy : Bool} {pick : String} (h : Kept E g s) :
    Kept E g (s.tryStartReplay E now busy pick io) := by
  have hready := @submitReady _ _ _ io now h
  rw [KeryxdHandler.tryStartReplay]
  generalize s.submitReady E now io = t at *
  dsimp only
  split
  · exact hready
  split
  · exact hready
  next p hp =>
  split
  · exact hready
  next d hd =>
  split
  · exact hready
  next hopen =>
  have haudited : d.audited := by
    rw [Bool.or_eq_true, not_or] at hopen
    exact audited_of_toOpen hd (by simpa using hopen.1)
  split
  · -- The id of a drawn response is a hash.
    next hnone =>
    obtain ⟨-, -, -, txidBytes, hbytes, -⟩ := ((hready.draws pick p d hp hd).2 haudited).accepted
    rw [hbytes] at hnone
    cases hnone
  · have hmarked := hready.alike (alikeTables_insert hp .markOpened)
    refine { hmarked with replay := ?_ }
    intro job hjob q d' hq hd' hseed
    obtain rfl := Option.some.inj hjob
    rcases Table.lookup_insert_eq_some.mp hq with ⟨-, rfl⟩ | ⟨hne, -⟩
    · obtain ⟨d'', hd'', rfl⟩ := Option.map_eq_some_iff.mp hd'
      obtain rfl := Option.some.inj (hd.symm.trans hd'')
      exact haudited
    · exact absurd rfl hne

theorem pollReplay {body : Option (List UInt8)} (h : Kept E g s) :
    Kept E g (s.pollReplay E now body io) := by
  rw [KeryxdHandler.pollReplay]
  split
  · exact h
  next job hjob =>
  have hdone : Kept E g { s with replay := none } := { h with replay := fun _ h => absurd h (Option.not_mem_none _) }
  dsimp only
  split
  · exact hdone
  next p hp =>
  split
  · apply hdone.alike
    apply alikeTables_insert hp
    refine ⟨rfl, fun d' hd' => ?_⟩
    obtain ⟨d, hd, rfl⟩ := Option.map_eq_some_iff.mp hd'
    refine ⟨d, hd, ?_⟩
    split <;> exact ⟨rfl, rfl, rfl⟩
  · next body =>
    have hbuilt : ∀ built : List (String × List UInt8), Kept E g { s with
        replay := none
        pendingTraces := s.pendingTraces.insert job.responseTxid { p with built } } := fun built =>
      hdone.alike (alikeTables_insert hp ⟨rfl, fun d hd => ⟨d, hd, rfl, rfl, rfl⟩⟩)
    split
    · next hcurrent =>
      obtain ⟨d, hd, hseed⟩ := Option.any_eq_true _ _ |>.mp hcurrent
      have hseed : d.seedHash = job.seedHash := of_decide_eq_true hseed
      exact (hbuilt _).submitOpening (AList.lookup_insert _) hd hseed (h.replay job hjob p d hp hd hseed)
    · exact hbuilt _

theorem onOpeningResponse {pick : String} {error : Option String} (h : Kept E g s) :
    Kept E g (s.onOpeningResponse txid error pick) := by
  have hremoved : ∀ txid, Kept E g { s with
      openingInflight := s.openingInflight.erase txid } := by
    intro txid
    refine { h with inFlight := ?_ }
    exact fun id o ho => h.inFlight id o (Table.lookup_erase_eq_some.mp ho).2
  rw [KeryxdHandler.onOpeningResponse]
  dsimp only
  split
  · exact h
  next txid' _ =>
  split
  · exact hremoved txid'
  split_ifs
  · exact h
  · exact hremoved txid'
  · exact hremoved txid'
  · exact h
  · exact h

theorem submitted {tier maxTokens : Nat} (h : Kept E g s)
    (honce : ∀ o ∈ s.openingInflight.entries, o.2.responseTxid ≠ txid)
    (hfile : ∀ t ∈ s.traceStore.lookup txid, t.opening = none) :
    Kept E g { s with
      pendingTraces := s.pendingTraces.insert txid (.submitted tier maxTokens s.lastKnownDaa) } := by
  refine { h with draws := ?_, opening := ?_, stored := ?_, inFlight := ?_, replay := ?_ }
  · intro txid' p d hp hd
    rcases Table.lookup_insert_eq_some.mp hp with ⟨-, rfl⟩ | ⟨-, hp⟩
    · cases hd
    · exact h.draws txid' p d hp hd
  · intro txid' p o hp ho
    rcases Table.lookup_insert_eq_some.mp hp with ⟨-, rfl⟩ | ⟨-, hp⟩
    · cases ho
    · exact h.opening txid' p o hp ho
  · intro txid' t o ht ho
    obtain ⟨hfits, hsome⟩ := h.stored txid' t o ht ho
    refine ⟨hfits, fun p hp => ?_⟩
    rcases Table.lookup_insert_eq_some.mp hp with ⟨rfl, -⟩ | ⟨-, hp⟩
    · rw [hfile t ht] at ho
      cases ho
    · exact hsome p hp
  · intro id o ho
    obtain ⟨p, hp, hsome, hfits⟩ := h.inFlight id o ho
    have hne : o.responseTxid ≠ txid := honce ⟨id, o⟩ (Table.mem_entries.mpr ho)
    exact ⟨p, Table.lookup_insert_eq_some.mpr (.inr ⟨hne, hp⟩), hsome, hfits⟩
  · intro job hjob p d hp hd
    rcases Table.lookup_insert_eq_some.mp hp with ⟨-, rfl⟩ | ⟨-, hp⟩
    · cases hd
    · exact h.replay job hjob p d hp hd

/-! ## The timer -/

/-- What is sent again is in flight, and in time. -/
theorem of_mem_resent {r : String × OpeningInflight}
    (hr : r ∈ (s.retryPendingOpenings now).1) :
    s.openingInflight.lookup r.1 = some r.2 ∧ s.lastKnownDaa ≤ r.2.deadlineDaa := by
  obtain ⟨⟨id, o⟩, hentry, rfl⟩ := List.mem_map.mp hr
  obtain ⟨ho, hlive⟩ := Table.lookup_keep.mp (Table.mem_entries.mp (List.mem_filter.mp hentry).1)
  rw [Bool.and_eq_true] at hlive
  exact ⟨ho, of_decide_eq_true hlive.1⟩

/-- What stays in flight was there, and is in time. -/
theorem of_lookup_retry {id : String} {o : OpeningInflight}
    (ho : (s.retryPendingOpenings now).2.openingInflight.lookup id = some o) :
    ∃ o', s.openingInflight.lookup id = some o' ∧ s.lastKnownDaa ≤ o.deadlineDaa ∧
      o.responseTxid = o'.responseTxid ∧ o.seedHash = o'.seedHash ∧
      o.deadlineDaa = o'.deadlineDaa := by
  rw [retryPendingOpenings, Table.lookup_mapVals] at ho
  obtain ⟨o', ho', rfl⟩ := Option.map_eq_some_iff.mp ho
  obtain ⟨ho', hlive⟩ := Table.lookup_keep.mp ho'
  rw [Bool.and_eq_true] at hlive
  refine ⟨o', ho', ?_⟩
  have hdaa := of_decide_eq_true hlive.1
  split <;> exact ⟨hdaa, rfl, rfl, rfl⟩

/-- The responses of the openings that are in time are not pruned. -/
theorem lookup_pruneTraces {id : String} {o : OpeningInflight} (h : Kept E g s)
    (ho : s.openingInflight.lookup id = some o)
    (hp : s.pendingTraces.lookup o.responseTxid = some p) (hdaa : s.lastKnownDaa ≤ o.deadlineDaa) :
    (s.pruneTraces io).pendingTraces.lookup o.responseTxid = some p :=
  Table.lookup_keep.mpr ⟨hp, h.wanted ho hp hdaa⟩

theorem pruneAndRetry (h : Kept E g s) :
    Kept E g ((s.pruneTraces io).retryPendingOpenings now).2 where
  scored := h.scored.sublist (List.drop_sublist ..)
  draws txid p d hp := h.draws txid p d (Table.lookup_keep.mp hp).1
  opening txid p o hp := h.opening txid p o (Table.lookup_keep.mp hp).1
  stored txid t o ht ho := by
    obtain ⟨hfits, hsome⟩ := h.stored txid t o (Table.lookup_keep.mp ht).1 ho
    exact ⟨hfits, fun p hp => hsome p (Table.lookup_keep.mp hp).1⟩
  inFlight id o ho := by
    obtain ⟨o', ho', hdaa, hresponse, hseed, hdeadline⟩ := of_lookup_retry ho
    rw [hdeadline] at hdaa
    rw [hresponse, hseed, hdeadline]
    obtain ⟨p, hp, hsome, hfits⟩ := h.inFlight id o' ho'
    exact ⟨p, @lookup_pruneTraces _ _ _ io _ _ _ h ho' hp hdaa, hsome, hfits⟩
  replay job hjob p d hp := h.replay job hjob p d (Table.lookup_keep.mp hp).1

end Kept

end KeryxMiner.Trace
