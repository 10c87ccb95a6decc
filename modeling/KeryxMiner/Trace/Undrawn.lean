import KeryxMiner.Trace.Kept

/-!
# Restored openings

A reorganisation that takes back the draw of a response takes back its opening, so that only a
restart leaves a pending response with an opening and without a draw (`undrawn`). Anything else the
client does carries these responses along as they are, until they are drawn or dropped (`Carried`).
-/

namespace KeryxMiner.Trace

open KeryxdHandler

variable {E : Externals} {s s' s'' : KeryxdHandler} {g : LastDraws} {io : String → Bool} {now : Nat}
  {txid seedHash : String} {p q : PendingTrace} {removed added : List String}

/-- The responses with an opening and without a draw, as a restart leaves them. -/
def undrawn (s : KeryxdHandler) : List (Sigma fun _ : String => PendingTrace) :=
  s.pendingTraces.entries.filter fun t => t.2.draw.isNone && t.2.opening.isSome

theorem mem_undrawn : (⟨txid, p⟩ : Sigma fun _ : String => PendingTrace) ∈ undrawn s ↔
    s.pendingTraces.lookup txid = some p ∧ p.draw = none ∧ p.opening.isSome := by
  rw [undrawn, List.mem_filter, Table.mem_entries]
  simp

/-- Each response with an opening and without a draw was there, with this opening and accepted by the
same block. -/
def Carried (s s' : KeryxdHandler) : Prop :=
  ∀ txid p', s'.pendingTraces.lookup txid = some p' → p'.draw = none → p'.opening.isSome →
    ∃ p, s.pendingTraces.lookup txid = some p ∧ p.draw = none ∧ p.opening = p'.opening ∧
      p.acceptedHash = p'.acceptedHash

namespace Carried

theorem of_eq (h : s'.pendingTraces = s.pendingTraces) : Carried s s' :=
  fun _ p' hp' hdraw _ => ⟨p', h ▸ hp', hdraw, rfl, rfl⟩

theorem trans (h : Carried s s') (h' : Carried s' s'') : Carried s s'' := by
  intro txid p'' hp'' hdraw'' hopening''
  obtain ⟨p', hp', hdraw', hopening', haccepted'⟩ := h' txid p'' hp'' hdraw'' hopening''
  obtain ⟨p, hp, hdraw, hopening, haccepted⟩ := h txid p' hp' hdraw' (hopening' ▸ hopening'')
  exact ⟨p, hp, hdraw, hopening.trans hopening', haccepted.trans haccepted'⟩

theorem undrawn_ne_nil (h : Carried s s') (hs' : undrawn s' ≠ []) : undrawn s ≠ [] := by
  obtain ⟨⟨txid, p'⟩, hmem⟩ := List.exists_mem_of_ne_nil _ hs'
  obtain ⟨hp', hdraw', hopening'⟩ := mem_undrawn.mp hmem
  obtain ⟨p, hp, hdraw, hopening, -⟩ := h txid p' hp' hdraw' hopening'
  exact List.ne_nil_of_mem (mem_undrawn.mpr ⟨hp, hdraw, hopening ▸ hopening'⟩)

/-- A response is changed but not its opening, acceptance and whether it is drawn. -/
theorem insert {t : KeryxdHandler} (hs' : s'.pendingTraces = t.pendingTraces.insert txid p)
    (ht : Carried s t) (hq : t.pendingTraces.lookup txid = some q)
    (h : p.draw = none → p.opening.isSome →
      q.draw = none ∧ q.opening = p.opening ∧ q.acceptedHash = p.acceptedHash) : Carried s s' := by
  refine ht.trans fun txid' p' hp' hdraw hopening => ?_
  rw [hs'] at hp'
  rcases Table.lookup_insert_eq_some.mp hp' with ⟨rfl, rfl⟩ | ⟨-, hp'⟩
  · exact ⟨q, hq, h hdraw hopening⟩
  · exact ⟨p', hp', hdraw, rfl, rfl⟩

theorem mapVals {f : String → PendingTrace → PendingTrace}
    (h : ∀ txid p, (f txid p).draw = none → p.draw = none ∧ p.opening = (f txid p).opening ∧
      p.acceptedHash = (f txid p).acceptedHash) :
    Carried s { s with pendingTraces := Table.mapVals f s.pendingTraces } := by
  intro txid p' hp' hdraw _
  rw [Table.lookup_mapVals] at hp'
  obtain ⟨p, hp, rfl⟩ := Option.map_eq_some_iff.mp hp'
  exact ⟨p, hp, h txid p hdraw⟩

theorem keep {f : String → PendingTrace → Bool}
    (hs' : s'.pendingTraces = Table.keep f s.pendingTraces) : Carried s s' := by
  intro txid p' hp' hdraw _
  rw [hs'] at hp'
  exact ⟨p', (Table.lookup_keep.mp hp').1, hdraw, rfl, rfl⟩

theorem persistTrace : Carried s (s.persistTrace io txid) :=
  of_eq (@pendingTraces_persistTraces s io [txid])

/-! ## Steps -/

theorem submitOpening {body : List UInt8} :
    Carried s (s.submitOpening E now io txid seedHash body) := by
  rw [KeryxdHandler.submitOpening]
  split
  · exact of_eq rfl
  next p hp =>
  split
  · exact of_eq rfl
  next d hd =>
  dsimp only
  split
  · exact of_eq rfl
  refine Carried.trans ?_ persistTrace
  exact insert rfl (of_eq rfl) hp fun hnone _ => by rw [hd] at hnone; cases hnone

theorem markOpened (h : p.markOpened.draw = none) : p.draw = none :=
  Option.map_eq_none_iff.mp h

theorem submitReady : Carried s (s.submitReady E now io) := by
  have hfold : ∀ (ready : List (String × String × List UInt8)) (s : KeryxdHandler),
      Carried s (ready.foldl (fun s r => s.submitOpening E now io r.1 r.2.1 r.2.2) s) := by
    intro ready
    induction ready with
    | nil => exact fun s => of_eq rfl
    | cons r ready ih => exact fun s => submitOpening.trans (ih _)
  refine Carried.trans ?_ (hfold _ _)
  refine mapVals fun txid p hnone => ?_
  split at hnone
  · next hready =>
    rw [if_pos hready]
    exact ⟨markOpened hnone, rfl, rfl⟩
  · next hready =>
    rw [if_neg hready]
    exact ⟨hnone, rfl, rfl⟩

theorem tryStartReplay {busy : Bool} {pick : String} :
    Carried s (s.tryStartReplay E now busy pick io) := by
  have hready : Carried s (s.submitReady E now io) := submitReady
  rw [KeryxdHandler.tryStartReplay]
  generalize s.submitReady E now io = t at *
  dsimp only
  split
  · exact hready
  split
  · exact hready
  next p hp =>
  split
  · exact hready
  split_ifs
  · exact hready
  · refine hready.trans fun txid p' hp' hdraw _ => ?_
    exact ⟨p', (Table.lookup_erase_eq_some.mp hp').2, hdraw, rfl, rfl⟩
  · exact insert rfl hready hp fun hnone _ => ⟨markOpened hnone, rfl, rfl⟩

theorem pollReplay {body : Option (List UInt8)} : Carried s (s.pollReplay E now body io) := by
  rw [KeryxdHandler.pollReplay]
  split
  · exact of_eq rfl
  next job _ =>
  have hdone : Carried s { s with replay := none } := of_eq rfl
  dsimp only
  split
  · exact hdone
  next p hp =>
  split
  · exact insert rfl hdone hp fun hnone _ => ⟨Option.map_eq_none_iff.mp hnone, rfl, rfl⟩
  · next body =>
    have hbuilt : ∀ built : List (String × List UInt8), Carried s { s with
        replay := none
        pendingTraces := s.pendingTraces.insert job.responseTxid { p with built } } := fun built =>
      insert rfl hdone hp fun hnone _ => ⟨hnone, rfl, rfl⟩
    split
    · exact (hbuilt _).trans submitOpening
    · exact hbuilt _

theorem onOpeningResponse {pick : String} {error : Option String} :
    Carried s (s.onOpeningResponse txid error pick) := by
  rw [KeryxdHandler.onOpeningResponse]
  dsimp only
  split
  · exact of_eq rfl
  split
  · exact of_eq rfl
  split_ifs <;> exact of_eq rfl

theorem startChainRestore {order : List String} : Carried s (s.startChainRestore order) := by
  have hstart : ∀ (start : String) (s : KeryxdHandler),
      (s.noteRestoreStart start).pendingTraces = s.pendingTraces := by
    intro start s
    rw [noteRestoreStart]
    split
    · rfl
    · dsimp only
      split <;> rfl
  have hfold : ∀ (accepted : List String) (s : KeryxdHandler),
      (accepted.foldl noteRestoreStart s).pendingTraces = s.pendingTraces := by
    intro accepted
    induction accepted with
    | nil => exact fun s => rfl
    | cons hash accepted ih => exact fun s => (ih _).trans (hstart hash s)
  have hpump : ∀ s : KeryxdHandler, s.chainRestorePump.pendingTraces = s.pendingTraces := by
    intro s
    rw [chainRestorePump]
    dsimp only
    split <;> rfl
  have hnext : ∀ s : KeryxdHandler, s.requestNextChainRestore.pendingTraces = s.pendingTraces := by
    intro s
    rw [requestNextChainRestore]
    split <;> rfl
  apply of_eq
  rw [KeryxdHandler.startChainRestore, hpump]
  split
  · exact (hnext _).trans (hfold _ s)
  · exact hfold _ s

theorem resolveTraces : Carried s (s.resolveTraces E) := by
  refine mapVals fun txid p hnone => ?_
  split at hnone
  · cases hnone
  · exact ⟨hnone, rfl, rfl⟩

end Carried

namespace Kept

/-- A response that has its opening after a removal is not reset, and so it is not accepted anew. -/
theorem eq_of_reset {p' : PendingTrace} (h : Kept E g s)
    (hp : s.pendingTraces.lookup txid = some p)
    (hcase : p' = p.reset removed ∨ (p.reset removed).acceptedHash = none ∧
      ∃ block, p' = { p.reset removed with acceptedHash := some block })
    (hopening : p'.opening.isSome) : p' = p ∧ ∀ A ∈ p.acceptedHash, A ∉ removed := by
  have hkept : ¬p.resets removed := by
    intro hresets
    rw [PendingTrace.reset, if_pos hresets] at hcase
    rcases hcase with rfl | ⟨-, block, rfl⟩ <;> cases hopening
  rw [PendingTrace.reset, if_neg hkept] at hcase
  have hfree : ∀ A ∈ p.acceptedHash, A ∉ removed := by
    intro A hA hremoved
    rw [Option.mem_def] at hA
    simp [PendingTrace.resets, hA, hremoved] at hkept
  rcases hcase with rfl | ⟨hnone, block, rfl⟩
  · exact ⟨rfl, hfree⟩
  · obtain ⟨o, ho⟩ := Option.isSome_iff_exists.mp hopening
    obtain ⟨A, hA, -⟩ := (h.opening txid p o hp ho).accepted
    rw [show p.stored.acceptedHash = p.acceptedHash from rfl, hnone] at hA
    cases hA

theorem of_lookup_onNotification {accepted : Acceptances} {p' : PendingTrace} (h : Kept E g s)
    (hp' : (s.onNotification io removed added accepted).pendingTraces.lookup txid = some p')
    (hopening : p'.opening.isSome) :
    s.pendingTraces.lookup txid = some p' ∧ ∀ A ∈ p'.acceptedHash, A ∉ removed := by
  obtain ⟨q, hq, hcase⟩ := of_lookup_noteAcceptances hp'
  obtain ⟨p, hp, rfl⟩ := of_lookup_onChainBlocksRemoved hq
  have hcase : p' = p.reset removed ∨ (p.reset removed).acceptedHash = none ∧
      ∃ block, p' = { p.reset removed with acceptedHash := some block } :=
    hcase.imp_right fun ⟨hnone, a, _, _, ha⟩ => ⟨hnone, a.1, ha⟩
  obtain ⟨rfl, hfree⟩ := h.eq_of_reset hp hcase hopening
  exact ⟨hp, hfree⟩

theorem carried_resolvesIn {e : Event} (h : Kept E g s) (hs : s.resolvesIn E e = some s') :
    Carried s s' := by
  cases e with
  | chain removed added accepted io =>
    obtain ⟨start, -, -, -, hpending⟩ := takeChain_spec hs
    intro txid p' hp' hdraw hopening
    obtain ⟨p, hp, hcase⟩ := hpending txid p' hp'
    have hcase : p' = p.reset removed ∨ (p.reset removed).acceptedHash = none ∧
        ∃ block, p' = { p.reset removed with acceptedHash := some block } :=
      hcase.imp_right fun ⟨hnone, a, _, _, ha⟩ => ⟨hnone, a.1, ha⟩
    obtain ⟨rfl, -⟩ := h.eq_of_reset hp hcase hopening
    exact ⟨p', hp, hdraw, rfl, rfl⟩
  | chainFailed io =>
    obtain ⟨start, starts, -, -, ⟨-, -, hpending⟩ | ⟨-, -, hpending⟩⟩ := takeChainFailure_spec hs
    · exact .of_eq hpending
    · exact .keep hpending
  | block hash =>
    obtain rfl := Option.some.inj hs
    exact .of_eq rfl
  | blockFailed message pick =>
    obtain ⟨pos, -, rfl⟩ := Option.map_eq_some_iff.mp hs
    exact .of_eq rfl
  | _ => cases hs

end Kept

/-- A replay goes on while the draws are resolved. -/
theorem replay_resolvesIn {e : Event} (hs : s.resolvesIn E e = some s') : s'.replay = s.replay := by
  cases e with
  | chain removed added accepted io =>
    obtain ⟨start, -, -, hreplay, -⟩ := takeChain_spec hs
    exact hreplay
  | chainFailed io =>
    obtain ⟨start, starts, -, hreplay, -⟩ := takeChainFailure_spec hs
    exact hreplay
  | block hash =>
    obtain rfl := Option.some.inj hs
    rfl
  | blockFailed message pick =>
    obtain ⟨pos, -, rfl⟩ := Option.map_eq_some_iff.mp hs
    rfl
  | _ => cases hs

end KeryxMiner.Trace
