import KeryxMiner.Trace.Acceptance

/-!
# Draws and the selected chain

The client and the selected chain of the node go through a run together (`Net`). `Describes` says
what the node's messages tell of its chain, and `Tracks` what then holds of the log: behind an
accepting block it holds all of the chain behind it, in chain order, and else only accepting blocks
that `start_chain_restore` put there before their part of the chain was known. Where these are kept
out of the way (`Orderly`), each draw has the right seed block (`draws_right`).
-/

namespace KeryxMiner.Trace

open KeryxdHandler

variable {E : Externals} {s s' : KeryxdHandler} {chain : List String} {io : String → Bool}
  {removed added : List String} {start A : String}

/-! ## The invariant -/

structure Tracks (E : Externals) (s : KeryxdHandler) (chain : List String) : Prop where
  nodup : chain.Nodup
  log : LogOk E s.chainLog
  follows : ∀ A, AcceptedBy s.pendingTraces A → A ∉ s.chainRestoreStarts → A ∈ hashes s.chainLog →
    Follows chain (hashes s.chainLog) A
  ordered : Orders chain (hashes s.chainLog) s.chainRestoreStarts

/-- The rebuild asked for last is the one of the first start. -/
def Asked (s : KeryxdHandler) : Prop :=
  ∀ start ∈ s.chainRestoreStarts.head?, lastAsked s.requests = some start

theorem Asked.quiet (h : Asked s) (hq : Quiet s s') : Asked s' := by
  intro start hstart
  rw [hq.starts] at hstart
  rw [hq.asked]
  exact h start hstart

theorem asked_requestNextChainRestore : Asked s.requestNextChainRestore := by
  intro start hstart
  rw [requestNextChainRestore] at hstart ⊢
  split at hstart
  · next hnil =>
    rw [hnil] at hstart
    cases hstart
  · next hash starts hcons =>
    simp only [hcons, List.head?_cons, Option.mem_def, Option.some.injEq] at hstart
    subst hstart
    simp [lastAsked]

namespace Tracks

theorem quiet (h : Tracks E s chain) (hq : Quiet s s') : Tracks E s' chain where
  nodup := h.nodup
  log := hq.log ▸ h.log
  follows A hA hstarts hlogged := by
    rw [hq.log] at hlogged ⊢
    rw [hq.starts] at hstarts
    exact h.follows A (hq.accepted A hA) hstarts hlogged
  ordered := by
    rw [hq.log, hq.starts]
    exact h.ordered

theorem requestNextChainRestore (h : Tracks E s chain) :
    Tracks E s.requestNextChainRestore chain := by
  rw [KeryxdHandler.requestNextChainRestore]
  split
  · exact h
  · exact ⟨h.nodup, h.log, h.follows, h.ordered⟩

/-- A start that is logged already, or at the end of the log. -/
theorem noteRestoreStart (h : Tracks E s chain) : Tracks E (s.noteRestoreStart start) chain := by
  rw [KeryxdHandler.noteRestoreStart]
  split
  · exact h
  · have hsub : s.chainRestoreStarts ⊆ s.chainRestoreStarts ++ [start] :=
      List.subset_append_left ..
    dsimp only
    split
    · refine ⟨h.nodup, h.log, fun A hA hstarts hlogged => ?_, h.ordered.mono hsub⟩
      exact h.follows A hA (fun hmem => hstarts (hsub hmem)) hlogged
    · next hmem =>
      have hhashes : hashes (s.chainLog ++ [⟨start, none⟩]) = hashes s.chainLog ++ [start] :=
        hashes_append
      refine ⟨h.nodup, h.log.push hmem, fun A hA hstarts hlogged => ?_,
        hhashes ▸ (h.ordered.mono hsub).push (by simp)⟩
      rw [hhashes] at hlogged ⊢
      simp only [List.mem_append, not_or, List.mem_singleton] at hstarts
      have hold : A ∈ hashes s.chainLog := by
        simpa [hstarts.2] using hlogged
      exact (h.follows A hA hstarts.1 hold).append_log

theorem noteChainBlock {hash : String} (h : Tracks E s chain) :
    Tracks E (s.noteChainBlock E hash) chain := by
  refine ⟨h.nodup, h.log.noteChainBlock, fun A hA hstarts hlogged => ?_, ?_⟩
  · rw [hashes_noteChainBlock] at hlogged ⊢
    exact h.follows A hA hstarts hlogged
  · rw [hashes_noteChainBlock]
    exact h.ordered

/-- Pruning keeps the log from the first accepting block on. -/
theorem pruneTraces (h : Tracks E s chain) : Tracks E (s.pruneTraces io) chain := by
  have hordered : Orders chain (hashes (s.pruneTraces io).chainLog) s.chainRestoreStarts := by
    rw [KeryxdHandler.pruneTraces]
    dsimp only
    rw [hashes_drop]
    exact h.ordered.drop h.log.nodup
  refine ⟨h.nodup, h.log.sublist (List.drop_sublist ..), fun A hA hstarts hlogged => ?_, hordered⟩
  have hold : A ∈ hashes s.chainLog := ((List.drop_sublist ..).map _).subset hlogged
  have hfollows := h.follows A hA.of_keep hstarts hold
  rw [KeryxdHandler.pruneTraces]
  dsimp only
  rw [hashes_drop]
  apply hfollows.drop
  rw [← hashes_take]
  intro hbefore
  obtain ⟨txid, p, hlookup, hpA⟩ := hA
  obtain ⟨e, he, hhash⟩ := List.mem_map.mp hbefore
  obtain ⟨pos, hpos⟩ : ∃ pos, s.chainLog.findIdx? (·.hash == A) = some pos := by
    rw [← Option.isSome_iff_exists, List.findIdx?_isSome, List.any_eq_true]
    exact ⟨e, List.mem_of_mem_take he, by simpa using hhash⟩
  -- The accepting block's place in the log is one of those the log is kept from.
  have hle : ∀ positions : List Nat, pos ∈ positions →
      min (positions.min?.getD s.chainLog.length) (s.chainLog.length - chainLogTail) ≤ pos := by
    intro positions hmem
    cases hmin : positions.min? with
    | none =>
      rw [List.min?_eq_none_iff.mp hmin] at hmem
      cases hmem
    | some m =>
      have := (List.min?_eq_some_iff.mp hmin).2 pos hmem
      simp only [Option.getD_some]
      omega
  obtain ⟨i, hi, hget⟩ := List.getElem_of_mem he
  rw [List.length_take] at hi
  obtain ⟨hlt, -, hfirst⟩ := List.findIdx?_eq_some_iff_getElem.mp hpos
  have hentry : (⟨txid, p⟩ : Sigma fun _ : String => PendingTrace) ∈
      (Table.keep (fun _ p => p.wanted s.lastKnownDaa) s.pendingTraces).entries :=
    Table.mem_entries.mpr hlookup
  let place : (Sigma fun _ : String => PendingTrace) → Option Nat := fun e =>
    e.2.acceptedHash.bind fun h => s.chainLog.findIdx? (·.hash == h)
  have hplace : place ⟨txid, p⟩ = some pos := by
    simp only [place, hpA, Option.bind_some]
    exact hpos
  have hkeep := hle _ (List.mem_filterMap.mpr ⟨_, hentry, hplace⟩)
  refine hfirst i ((lt_min_iff.mp hi).1.trans_le hkeep) ?_
  rw [List.getElem_take] at hget
  simpa [hget] using hhash

/-- The node's removed and added blocks. -/
theorem onNotification (h : Tracks E s chain) {accepted : Acceptances} {chain' : List String}
    (hchain : chain' = chain.filter (· ∉ removed) ++ added) (hnodup : chain'.Nodup)
    (haccepted : ∀ a ∈ accepted, a.1 ∈ added)
    (hadds : InOrder (kept s.chainLog removed) added) :
    Tracks E (s.onNotification io removed added accepted) chain' := by
  obtain ⟨hremoved, hlog, hstarts, -⟩ := @onChainBlocksRemoved_spec s io removed
  have hlogOk : LogOk E (s.onChainBlocksRemoved io removed).chainLog :=
    hlog ▸ h.log.sublist List.filter_sublist
  have hhashes : hashes (s.onChainBlocksRemoved io removed).chainLog = kept s.chainLog removed := by
    rw [hlog, hashes_kept]
  rw [← hhashes] at hadds
  rw [KeryxdHandler.onNotification]
  generalize s.onChainBlocksRemoved io removed = t at *
  obtain ⟨hnoted, hlog', hstarts', -⟩ := 
    @noteAcceptances_spec { t with chainLog := appendChain t.chainLog added } io accepted
  generalize noteAcceptances _ io accepted = t' at *
  obtain ⟨-, hnodupAdded, hdisjChain⟩ := List.nodup_append.mp (hchain ▸ hnodup)
  obtain ⟨front, hfront⟩ := hadds.suffix hnodupAdded
  obtain ⟨new, hnew, hsub, -⟩ := @hashes_appendChain t.chainLog added
  have hnodupLog : (front ++ added).Nodup := by
    rw [hfront]
    exact hlogOk.appendChain.nodup
  obtain ⟨-, -, hdisj⟩ := List.nodup_append.mp hnodupLog
  -- What stands before the added blocks is what is left of the log, without them.
  have hfrontEq : front = (hashes t.chainLog).filter (· ∉ added) := by
    have hfilter := congrArg (List.filter (· ∉ added)) (hfront.trans hnew)
    rw [List.filter_append, List.filter_append] at hfilter
    have hkeep : front.filter (· ∉ added) = front := List.filter_eq_self.mpr fun x hx => by
      simpa using fun hmem => hdisj x hx x hmem rfl
    have hnone : added.filter (· ∉ added) = [] := List.filter_eq_nil_iff.mpr fun x hx => by
      simpa using hx
    have hnone' : new.filter (· ∉ added) = [] := List.filter_eq_nil_iff.mpr fun x hx => by
      simpa using hsub x hx
    rwa [hkeep, hnone, hnone', List.append_nil, List.append_nil] at hfilter
  refine ⟨hnodup, ?_, fun A hA hfree hlogged => ?_, ?_⟩
  · rw [hlog']
    exact hlogOk.appendChain
  case refine_3 =>
    rw [hlog', hstarts', hstarts, ← hfront, hfrontEq, hhashes, hchain]
    exact (h.ordered.filter (p := (· ∉ removed))).append (hchain ▸ hnodup)
  rw [hlog', ← hfront] at hlogged ⊢
  by_cases hadded : A ∈ added
  · have hnot : A ∉ front := fun hmem => hdisj A hmem A hadded rfl
    have hnotChain : A ∉ chain.filter (· ∉ removed) := fun hmem => hdisjChain A hmem A hadded rfl
    rw [hchain]
    have hfollows := @Follows.of_added _ _ A _ added front [] hadded hnotChain hnot
    rwa [List.append_nil] at hfollows
  · have hold : AcceptedBy t.pendingTraces A := by
      rcases hnoted A hA with hold | hmem
      · exact hold
      · obtain ⟨a, ha, rfl⟩ := List.mem_map.mp hmem
        exact absurd (haccepted a ha) hadded
    obtain ⟨hold, hA⟩ := hremoved A hold
    have hfrontLog : A ∈ hashes t.chainLog := by
      have hmem : A ∈ hashes t.chainLog ++ new := by rw [← hnew, ← hfront]; exact hlogged
      exact (List.mem_append.mp hmem).resolve_right fun hin => hadded (hsub A hin)
    have hfollows : Follows (chain.filter (· ∉ removed)) (hashes t.chainLog) A := by
      rw [hlog, hashes_kept] at hfrontLog ⊢
      have hlogA : A ∈ hashes s.chainLog := (List.mem_filter.mp hfrontLog).1
      have hfreeA : A ∉ s.chainRestoreStarts := by
        rw [hstarts', hstarts] at hfree
        exact hfree
      exact (h.follows A hold hfreeA hlogA).filter (by simpa using hA)
    rw [hchain, hfrontEq]
    apply Follows.append
    apply hfollows.filter_log
    intro x hx
    simpa using fun hmem => hdisjChain x hx x hmem rfl

end Tracks

/-! ## Rebuilding the chain -/

/-- The answer to a chain rebuild: the whole chain behind `start` if that is on the chain, and
otherwise the chain from where the branch of `start` leaves it, which is removed. -/
def Answers (chain : List String) (start : String) (removed added : List String) : Prop :=
  if start ∈ chain then removed = [] ∧ added = behind start chain
  else start ∈ removed ∧ (∀ hash ∈ removed, hash ∉ chain) ∧ added <:+ chain

instance : Decidable (Answers chain start removed added) :=
  inferInstanceAs (Decidable (ite ..))

namespace Answers

/-- What is added is the end of the chain. -/
theorem exists_append (h : Answers chain start removed added) (hnodup : chain.Nodup) :
    ∃ front, chain = front ++ added ∧ (start ∈ chain → ∃ c, front = c ++ [start]) := by
  rw [Answers] at h
  split at h
  · next hmem =>
    obtain ⟨-, rfl⟩ := h
    obtain ⟨c, rest, rfl⟩ := List.append_of_mem hmem
    rw [List.nodup_middle, List.nodup_cons, List.mem_append, not_or] at hnodup
    refine ⟨c ++ [start], ?_, fun _ => ⟨c, rfl⟩⟩
    rw [behind_split hnodup.1.1, List.append_assoc]
    rfl
  · next hmem =>
    obtain ⟨-, -, front, hfront⟩ := h
    exact ⟨front, hfront.symm, fun hin => absurd hin hmem⟩

theorem removed_off (h : Answers chain start removed added) {hash : String}
    (hremoved : hash ∈ removed) : hash ∉ chain := by
  rw [Answers] at h
  split at h
  · rw [h.1] at hremoved
    cases hremoved
  · exact h.2.1 hash hremoved

end Answers

namespace Tracks

/-- The added part is put behind its start, or at the end when the start is not on the chain. -/
theorem follows_place {log : List ChainEntry} {front : List String} (hlog : (hashes log).Nodup)
    (hnodup : (front ++ added).Nodup)
    (hstart : start ∈ hashes log → ∃ c, front = c ++ [start])
    (hold : A ≠ start → A ∉ added → A ∈ hashes log → Follows (front ++ added) (hashes log) A)
    (hlogged : A ∈ hashes (placeChainAfter log start added).1) :
    Follows (front ++ added) (hashes (placeChainAfter log start added).1) A := by
  obtain ⟨-, -, hdisj⟩ := List.nodup_append.mp hnodup
  by_cases hadded : A ∈ added
  · have hfront : A ∉ front := fun hmem => hdisj A hmem A hadded rfl
    have hkept : A ∉ kept log added := by simp [kept, hadded]
    rw [hashes_placeChainAfter]
    exact Follows.of_added hadded hfront fun hmem => hkept (List.mem_of_mem_take hmem)
  by_cases hlog' : start ∈ hashes log
  · obtain ⟨c, rfl⟩ := hstart hlog'
    have hstartAdded : start ∉ added := fun hmem => hdisj start (by simp) start hmem rfl
    obtain ⟨u, w, hsplit, hplaced⟩ := hashes_placeChainAfter_of_mem hlog' hstartAdded
    have hkeptNodup : (u ++ start :: w).Nodup := hsplit ▸ hlog.filter _
    rw [List.nodup_middle, List.nodup_cons, List.mem_append, not_or] at hkeptNodup
    rw [List.append_assoc, List.singleton_append] at hold hnodup ⊢
    rw [hplaced]
    by_cases hA : A = start
    · subst hA
      rw [List.nodup_middle, List.nodup_cons, List.mem_append, not_or] at hnodup
      exact Follows.of_start hnodup.1.1 hkeptNodup.1.1
    · have hkept : A ∈ kept log added := by
        rw [hplaced] at hlogged
        rw [hsplit]
        simp only [List.mem_append, List.mem_cons, hA, hadded, false_or] at hlogged ⊢
        exact hlogged
      exact (hold hA hadded (List.mem_filter.mp hkept).1).place hnodup hlog hsplit hadded
  · rw [hashes_placeChainAfter_of_notMem hlog'] at hlogged ⊢
    have hkept : A ∈ kept log added := (List.mem_append.mp hlogged).resolve_right hadded
    have hA : A ≠ start := by
      rintro rfl
      exact hlog' (List.mem_filter.mp hkept).1
    exact ((hold hA hadded (List.mem_filter.mp hkept).1).of_end hnodup hadded).append

/-- The start of a placed part waits no longer. -/
theorem ordered_place {log : List ChainEntry} {front starts : List String}
    (hlog : (hashes log).Nodup) (hnodup : (front ++ added).Nodup)
    (hstart : start ∈ hashes log → ∃ c, front = c ++ [start])
    (hold : Orders (front ++ added) (hashes log) (start :: starts)) :
    Orders (front ++ added) (hashes (placeChainAfter log start added).1) starts := by
  by_cases hlogged : start ∈ hashes log
  · obtain ⟨c, rfl⟩ := hstart hlogged
    obtain ⟨-, -, hdisj⟩ := List.nodup_append.mp hnodup
    have hstartAdded : start ∉ added := fun hmem => hdisj start (by simp) start hmem rfl
    obtain ⟨u, w, hsplit, hplaced⟩ := hashes_placeChainAfter_of_mem hlogged hstartAdded
    rw [List.append_assoc, List.singleton_append] at hold hnodup ⊢
    rw [hplaced]
    exact hold.place hnodup hlog hsplit
  · rw [hashes_placeChainAfter_of_notMem hlogged]
    exact (hold.forget hlogged).place_end hnodup

theorem takeChain (h : Tracks E s chain) {accepted : Acceptances} {t : KeryxdHandler}
    (ht : s.takeChain io removed added accepted = some t)
    (hanswers : ∀ start ∈ s.chainRestoreStarts.head?, Answers chain start removed added)
    (haccepted : ∀ a ∈ accepted, a.1 ∈ added) : Tracks E t chain := by
  rw [KeryxdHandler.takeChain] at ht
  split at ht
  · cases ht
  next start starts hstarts =>
  obtain rfl := Option.some.inj ht
  have hanswer := hanswers start (by rw [hstarts]; rfl)
  obtain ⟨front, hfront, hstartFront⟩ := hanswer.exists_append h.nodup
  dsimp only [placeRestoredChain]
  obtain ⟨hremoved, hlog, hfree, -⟩ := @onChainBlocksRemoved_spec { s with
    chainRestoreStarts := starts
    chainRestoreFailures := s.chainRestoreFailures.erase start } io removed
  generalize onChainBlocksRemoved _ io removed = t at *
  have hlogOk : LogOk E t.chainLog := hlog ▸ h.log.sublist List.filter_sublist
  obtain ⟨hnoted, hlog', hfree', -⟩ := @noteAcceptances_spec { t with
    chainLog := (placeChainAfter t.chainLog start added).1
    chainRestoreQueue := t.chainRestoreQueue ++ (placeChainAfter t.chainLog start added).2 }
      io accepted
  generalize noteAcceptances _ io accepted = t' at *
  have hnodupAdded : added.Nodup := (List.nodup_append.mp (hfront ▸ h.nodup)).2.1
  have hon : start ∈ hashes t.chainLog → ∃ c, front = c ++ [start] := by
    refine fun hmem => hstartFront ?_
    by_contra hoff
    rw [Answers, if_neg hoff] at hanswer
    rw [hlog, hashes_kept] at hmem
    simpa [hanswer.1] using (List.mem_filter.mp hmem).2
  refine ⟨h.nodup, hlog' ▸ hlogOk.place hnodupAdded, fun A hA hfreeA hlogged => ?_, ?_⟩
  · rw [hlog'] at hlogged ⊢
    rw [hfree', hfree] at hfreeA
    rw [hfront]
    refine follows_place hlogOk.nodup (hfront ▸ h.nodup) hon ?_ hlogged
    intro hne hadded hin
    have hold : AcceptedBy t.pendingTraces A := by
      rcases hnoted A hA with hold | hmem
      · exact hold
      · obtain ⟨a, ha, rfl⟩ := List.mem_map.mp hmem
        exact absurd (haccepted a ha) hadded
    rw [hlog, hashes_kept] at hin ⊢
    rw [← hfront]
    have hfollows := h.follows A (hremoved A hold).1 (by simp [hstarts, hne, hfreeA])
      (List.mem_filter.mp hin).1
    apply hfollows.filter_log
    intro x hx
    simpa using fun hmem => hanswer.removed_off hmem hx
  · rw [hlog', hfree', hfree, hfront]
    refine ordered_place hlogOk.nodup (hfront ▸ h.nodup) hon ?_
    rw [← hfront, hlog, hashes_kept, ← hstarts]
    exact h.ordered.filter_log

/-- A start that the node does not know is off the chain. -/
theorem takeChainFailure (h : Tracks E s chain) {t : KeryxdHandler}
    (ht : s.takeChainFailure io = some t)
    (hoff : ∀ start ∈ s.chainRestoreStarts.head?, start ∉ chain) : Tracks E t chain := by
  rw [KeryxdHandler.takeChainFailure] at ht
  split at ht
  · cases ht
  next start starts hstarts =>
  obtain rfl := Option.some.inj ht
  have hoff := hoff start (by rw [hstarts]; rfl)
  rw [onChainRestoreFailed]
  dsimp only
  split_ifs
  · refine ⟨h.nodup, h.log, fun A hA hfree hlogged => ?_, h.ordered.mono ?_⟩
    · apply h.follows A hA _ hlogged
      simpa [hstarts, or_comm] using hfree
    · rw [hstarts]
      exact (List.perm_append_singleton start starts).symm.subset
  · have hhashes : hashes (s.chainLog.filter (·.hash ≠ start)) =
        (hashes s.chainLog).filter (· ≠ start) := hashes_filter (p := (· ≠ start))
    refine ⟨h.nodup, h.log.sublist List.filter_sublist, fun A hA hfree hlogged => ?_, ?_⟩
    case refine_2 =>
      have hordered := h.ordered.filter_log (p := (· ≠ start))
      rw [hstarts, ← hhashes] at hordered
      exact hordered.forget (by rw [hhashes]; simp)
    obtain ⟨hA, hne⟩ := hA.of_dropped
    have hfree : A ∉ starts := hfree
    have hlogged : A ∈ (hashes s.chainLog).filter (· ≠ start) := hhashes ▸ hlogged
    have hfollows := h.follows A hA (by simpa [hstarts, hne] using hfree)
      (List.mem_filter.mp hlogged).1
    have hfilter := hfollows.filter_log (p := (· ≠ start)) fun x hx => by
      simpa using fun heq : x = start => hoff (heq ▸ hx)
    rw [← hhashes] at hfilter
    exact hfilter

theorem startChainRestore (h : Tracks E s chain) {order : List String} :
    Tracks E (s.startChainRestore order) chain := by
  have hfold : ∀ (accepted : List String) (s : KeryxdHandler), Tracks E s chain →
      Tracks E (accepted.foldl KeryxdHandler.noteRestoreStart s) chain := by
    intro accepted
    induction accepted with
    | nil => exact fun s h => h
    | cons hash accepted ih => exact fun s h => ih _ h.noteRestoreStart
  rw [KeryxdHandler.startChainRestore]
  refine Tracks.quiet ?_ Quiet.chainRestorePump
  split
  · exact (hfold _ _ h).requestNextChainRestore
  · exact hfold _ _ h

end Tracks

/-- Starts are put behind the ones that are there. -/
theorem head?_noteRestoreStart (h : s.chainRestoreStarts ≠ []) :
    (s.noteRestoreStart start).chainRestoreStarts.head? = s.chainRestoreStarts.head? ∧
      (s.noteRestoreStart start).requests = s.requests ∧
      (s.noteRestoreStart start).chainRestoreStarts ≠ [] := by
  rw [noteRestoreStart]
  split
  · exact ⟨rfl, rfl, h⟩
  · dsimp only
    split <;> exact ⟨List.head?_append_of_ne_nil _ h, rfl, by simp⟩

theorem asked_startChainRestore (h : Asked s) {order : List String} :
    Asked (s.startChainRestore order) := by
  have hfold : ∀ (accepted : List String) (s : KeryxdHandler), Asked s →
      s.chainRestoreStarts ≠ [] → Asked (accepted.foldl noteRestoreStart s) := by
    intro accepted
    induction accepted with
    | nil => exact fun s h _ => h
    | cons hash accepted ih =>
      intro s h hne
      obtain ⟨hhead, hrequests, hne'⟩ := @head?_noteRestoreStart s hash hne
      refine ih _ ?_ hne'
      intro start hstart
      rw [hhead] at hstart
      rw [hrequests]
      exact h start hstart
  rw [startChainRestore]
  refine Asked.quiet ?_ Quiet.chainRestorePump
  split
  · exact asked_requestNextChainRestore
  · next hidle =>
    exact hfold _ _ h (by simpa using hidle)

theorem asked_onNotification (h : Asked s) {accepted : Acceptances} :
    Asked (s.onNotification io removed added accepted) := by
  obtain ⟨-, -, hstarts, hasked⟩ := @onChainBlocksRemoved_spec s io removed
  rw [onNotification]
  generalize s.onChainBlocksRemoved io removed = t at *
  obtain ⟨-, -, hstarts', hasked'⟩ := 
    @noteAcceptances_spec { t with chainLog := appendChain t.chainLog added } io accepted
  intro start hstart
  have hold : start ∈ s.chainRestoreStarts.head? := by
    rw [← hstarts, ← hstarts']
    exact hstart
  exact (Quiet.lastAsked_append_getBlock.trans (hasked'.trans hasked)).trans (h start hold)

/-! ## Runs -/

/-- The client and the selected chain of the node. -/
structure Net where
  client : KeryxdHandler
  chain : List String

/-- What a message tells of the node's chain, which is `chain'` when it is sent. Between the
messages of a connection the chain stays what they told; a restart finds any chain. -/
def Describes (n : Net) (e : Event × List String) : Prop :=
  e.2.Nodup ∧ match e.1 with
  | .restart .. => True
  | .notification removed added accepted _ =>
    e.2 = n.chain.filter (· ∉ removed) ++ added ∧ ∀ a ∈ accepted, a.1 ∈ added
  | .chain removed added accepted _ =>
    e.2 = n.chain ∧ (∀ start ∈ lastAsked n.client.requests, Answers n.chain start removed added) ∧
      ∀ a ∈ accepted, a.1 ∈ added
  | .chainFailed _ => e.2 = n.chain ∧ ∀ start ∈ lastAsked n.client.requests, start ∉ n.chain
  | .blockFailed .. => False
  | _ => e.2 = n.chain

instance (n : Net) : ∀ e, Decidable (Describes n e)
  | (.restart .., chain') => inferInstanceAs (Decidable (chain'.Nodup ∧ True))
  | (.notification removed added accepted _, chain') => inferInstanceAs (Decidable (chain'.Nodup ∧
      chain' = n.chain.filter (· ∉ removed) ++ added ∧ ∀ a ∈ accepted, a.1 ∈ added))
  | (.chain removed added accepted _, chain') => inferInstanceAs (Decidable (chain'.Nodup ∧
      chain' = n.chain ∧
        (∀ start ∈ lastAsked n.client.requests, Answers n.chain start removed added) ∧
        ∀ a ∈ accepted, a.1 ∈ added))
  | (.chainFailed _, chain') => inferInstanceAs (Decidable (chain'.Nodup ∧ chain' = n.chain ∧
      ∀ start ∈ lastAsked n.client.requests, start ∉ n.chain))
  | (.blockFailed .., chain') => inferInstanceAs (Decidable (chain'.Nodup ∧ False))
  | (.registered _, chain') | (.block _, chain') | (.template _, chain') | (.submitted .., chain')
  | (.tick .., chain') | (.replayDone .., chain') | (.openingResponse .., chain') =>
    inferInstanceAs (Decidable (chain'.Nodup ∧ chain' = n.chain))

/-- Only a notification tells of another chain. -/
theorem Describes.chain_eq {n : Net} {e : Event × List String} (h : Describes n e)
    (hrestart : ∀ now readable, e.1 ≠ .restart now readable)
    (hnotification : ∀ removed added accepted io, e.1 ≠ .notification removed added accepted io) :
    e.2 = n.chain := by
  obtain ⟨e, chain'⟩ := e
  cases e with
  | restart now readable => exact absurd rfl (hrestart now readable)
  | notification removed added accepted io =>
    exact absurd rfl (hnotification removed added accepted io)
  | chain => exact h.2.1
  | chainFailed => exact h.2.1
  | blockFailed => cases h.2
  | _ => exact h.2

namespace Net

def step (E : Externals) (n : Net) (e : Event × List String) : Net where
  client := n.client.step E e.1
  chain := e.2

/-- A first start. -/
def init : Net := ⟨KeryxdHandler.init, []⟩

end Net

/-- No awaited start off the chain behind `A` is logged behind `A` with a score past the seed delay.
The blocks added by the message are put in new places. -/
def Unobstructed (E : Externals) (n : Net) (e : Event × List String) (A : String) : Prop :=
  A ∈ e.2 → A ∉ awaited n.client e.1 →
    ∀ b ∈ n.client.chainLog, b.hash ∈ awaited n.client e.1 → b.hash ∉ behind A e.2 →
      b.daa.isSome || e.1.scores b.hash →
      A ∈ e.1.added ∨ b.hash ∈ behind A (hashes n.client.chainLog) →
        E.daaScore b.hash < E.daaScore A + traceSeedDelayDaa

instance (n : Net) (e : Event × List String) (A : String) : Decidable (Unobstructed E n e A) :=
  inferInstanceAs (Decidable (A ∈ e.2 → A ∉ awaited n.client e.1 →
    ∀ b ∈ n.client.chainLog, b.hash ∈ awaited n.client e.1 → b.hash ∉ behind A e.2 →
      b.daa.isSome || e.1.scores b.hash →
      A ∈ e.1.added ∨ b.hash ∈ behind A (hashes n.client.chainLog) →
        E.daaScore b.hash < E.daaScore A + traceSeedDelayDaa))

/-- The blocks a notification adds are not logged yet, or they are its first ones and end the log. -/
def AddsInOrder (s : KeryxdHandler) : Event → Prop
  | .notification removed added _ _ => InOrder (kept s.chainLog removed) added
  | _ => True

instance : ∀ e, Decidable (AddsInOrder s e)
  | .notification removed added _ _ =>
    inferInstanceAs (Decidable (InOrder (kept s.chainLog removed) added))
  | .restart .. | .registered _ | .chain .. | .chainFailed _ | .block _ | .blockFailed ..
  | .template _ | .submitted .. | .tick .. | .replayDone .. | .openingResponse .. =>
    inferInstanceAs (Decidable True)

/-- The accepting blocks that `start_chain_restore` has logged are out of the way. -/
def Orderly (E : Externals) (n : Net) (e : Event × List String) : Prop :=
  AddsInOrder n.client e.1 ∧ ∀ t ∈ n.client.pendingTraces.entries, ∀ A ∈ acceptedBy e.1 t,
    Unobstructed E n e A

instance (n : Net) (e : Event × List String) : Decidable (Orderly E n e) :=
  inferInstanceAs (Decidable (_ ∧ ∀ t ∈ n.client.pendingTraces.entries, ∀ A ∈ acceptedBy e.1 t, _))

/-- A notification takes back the draws whose accepting or seed block it removes. -/
def TakesBack (E : Externals) (s : KeryxdHandler) : Event → Prop
  | .notification removed added accepted io => ∀ t ∈ s.pendingTraces.entries, ∀ d ∈ t.2.draw,
      (d.seedHash ∈ removed ∨ ∃ A ∈ t.2.acceptedHash, A ∈ removed) →
        ∃ q ∈ (s.step E (.notification removed added accepted io)).pendingTraces.lookup t.1,
          q.draw = none
  | _ => True

instance : ∀ e, Decidable (TakesBack E s e)
  | .notification removed added accepted io => inferInstanceAs (Decidable
      (∀ t ∈ s.pendingTraces.entries, ∀ d ∈ t.2.draw,
        (d.seedHash ∈ removed ∨ ∃ A ∈ t.2.acceptedHash, A ∈ removed) →
          ∃ q ∈ (s.step E (.notification removed added accepted io)).pendingTraces.lookup t.1,
            q.draw = none))
  | .restart .. | .registered _ | .chain .. | .chainFailed _ | .block _ | .blockFailed ..
  | .template _ | .submitted .. | .tick .. | .replayDone .. | .openingResponse .. =>
    inferInstanceAs (Decidable True)

/-- Each new draw is seeded by the first chain block past the delay behind the accepting block, and
draws are taken back with their blocks. -/
def DrawsRight (E : Externals) (n : Net) (e : Event × List String) : Prop :=
  (∀ s ∈ n.client.resolvesIn E e.1, ∀ t ∈ s.pendingTraces.entries, t.2.draw = none →
    ∀ q ∈ (s.resolveTraces E).pendingTraces.lookup t.1, ∀ d ∈ q.draw,
      ∃ A ∈ t.2.acceptedHash, A ∈ e.2 ∧
        (behind A e.2).find? (E.daaScore A + traceSeedDelayDaa ≤ E.daaScore ·) = some d.seedHash) ∧
  TakesBack E n.client e.1

instance (n : Net) (e : Event × List String) : Decidable (DrawsRight E n e) :=
  inferInstanceAs (Decidable ((∀ s ∈ n.client.resolvesIn E e.1, ∀ t ∈ s.pendingTraces.entries,
    t.2.draw = none → ∀ q ∈ (s.resolveTraces E).pendingTraces.lookup t.1, ∀ d ∈ q.draw,
      ∃ A ∈ t.2.acceptedHash, A ∈ e.2 ∧
        (behind A e.2).find? (E.daaScore A + traceSeedDelayDaa ≤ E.daaScore ·) = some d.seedHash) ∧
    TakesBack E n.client e.1))

/-! ## Before a message and after it -/

/-- Who has accepted a response that may be drawn. -/
theorem mem_acceptedBy {n : KeryxdHandler} {e : Event} {txid : String} {p : PendingTrace}
    (hs : n.resolvesIn E e = some s) (hp : s.pendingTraces.lookup txid = some p)
    (hnone : p.draw = none) (hA : p.acceptedHash = some A) :
    ∃ q, n.pendingTraces.lookup txid = some q ∧ A ∈ acceptedBy e ⟨txid, q⟩ ∧
      p = { q.reset e.removed with acceptedHash := some A } := by
  have hsame : ∀ {q : PendingTrace}, q.draw = none → q.acceptedHash = some A → e.resolves →
      e.removed = [] → A ∈ acceptedBy e ⟨txid, q⟩ ∧
        q = { q.reset e.removed with acceptedHash := some A } := by
    intro q hdraw haccepted he hremoved
    refine ⟨by simp [acceptedBy, he, hdraw, haccepted], ?_⟩
    rw [hremoved, PendingTrace.reset, if_neg (by simp [PendingTrace.resets]), ← haccepted]
  cases e with
  | chain removed added accepted io =>
    obtain ⟨start, -, -, -, hpending⟩ := takeChain_spec hs
    obtain ⟨q, hq, hcase⟩ := hpending txid p hp
    have hdraw : (q.reset removed).draw = none := by
      rcases hcase with rfl | ⟨-, a, -, -, rfl⟩ <;> exact hnone
    have hundrawn : q.draw.isNone || q.resets removed := by
      rw [PendingTrace.reset] at hdraw
      split at hdraw
      · next hresets => simp [hresets]
      · simp [hdraw]
    refine ⟨q, hq, ?_⟩
    rw [acceptedBy, Event.removed, hundrawn]
    rcases hcase with rfl | ⟨-, a, ha, htxid, rfl⟩
    · exact ⟨List.mem_append_left _ (by simpa using (reset_acceptedHash hA).1), by rw [← hA]⟩
    · obtain rfl := Option.some.inj hA
      refine ⟨List.mem_append_right _ (List.mem_map_of_mem (List.mem_filter.mpr ⟨ha, ?_⟩)), rfl⟩
      simpa using htxid
  | chainFailed io =>
    obtain ⟨start, starts, -, -, ⟨-, -, hpending⟩ | ⟨-, -, hpending⟩⟩ := takeChainFailure_spec hs
    · exact ⟨p, hpending ▸ hp, hsame hnone hA rfl rfl⟩
    · rw [hpending] at hp
      exact ⟨p, (Table.lookup_keep.mp hp).1, hsame hnone hA rfl rfl⟩
  | block hash =>
    obtain rfl := Option.some.inj hs
    exact ⟨p, hp, hsame hnone hA rfl rfl⟩
  | blockFailed message pick =>
    obtain ⟨pos, -, rfl⟩ := Option.map_eq_some_iff.mp hs
    exact ⟨p, hp, hsame hnone hA rfl rfl⟩
  | _ => cases hs

/-- An entry that a message has not placed was there before it, perhaps without the score that the
message reports. -/
theorem mem_log_of_resolvesIn {n : KeryxdHandler} {e : Event} {b : ChainEntry}
    (hs : n.resolvesIn E e = some s) (hb : b ∈ s.chainLog) (hscore : b.daa.isSome)
    (hadded : b.hash ∉ e.added) :
    ∃ b' ∈ n.chainLog, b'.hash = b.hash ∧ (b'.daa.isSome || e.scores b.hash) := by
  cases e with
  | chain removed added accepted io =>
    obtain ⟨start, -, hlog, -⟩ := takeChain_spec hs
    rw [hlog] at hb
    rcases mem_placeChainAfter.mp hb with ⟨hb, -⟩ | hplaced
    · exact ⟨b, (List.mem_filter.mp hb).1, rfl, by simp [hscore]⟩
    · refine absurd ?_ hadded
      have hmem : b.hash ∈ hashes (placedEntries _ added) := List.mem_map_of_mem hplaced
      rwa [hashes_placedEntries] at hmem
  | chainFailed io =>
    obtain ⟨start, starts, -, -, ⟨-, hlog, -⟩ | ⟨-, hlog, -⟩⟩ := takeChainFailure_spec hs
    · exact ⟨b, hlog ▸ hb, rfl, by simp [hscore]⟩
    · rw [hlog] at hb
      exact ⟨b, (List.mem_filter.mp hb).1, rfl, by simp [hscore]⟩
  | block hash =>
    obtain rfl := Option.some.inj hs
    obtain ⟨b', hb', rfl⟩ := List.mem_map.mp hb
    by_cases hhash : b'.hash = hash
    · refine ⟨b', hb', by simp [hhash], ?_⟩
      simp [hhash, Event.scores]
    · rw [if_neg hhash] at hscore ⊢
      exact ⟨b', hb', rfl, by simp [hscore]⟩
  | blockFailed message pick =>
    obtain ⟨pos, -, rfl⟩ := Option.map_eq_some_iff.mp hs
    exact ⟨b, (List.eraseIdx_sublist ..).subset hb, rfl, by simp [hscore]⟩
  | _ => cases hs

/-- The starts of after the message are awaited, and no other block of a response is. -/
theorem awaited_of_resolvesIn {n : KeryxdHandler} {e : Event} (hs : n.resolvesIn E e = some s) :
    s.chainRestoreStarts ⊆ awaited n e ∧
      ∀ A, AcceptedBy s.pendingTraces A → A ∉ s.chainRestoreStarts → A ∉ awaited n e := by
  cases e with
  | chain removed added accepted io =>
    obtain ⟨start, hstarts, -⟩ := takeChain_spec hs
    rw [awaited, hstarts]
    exact ⟨List.Subset.refl _, fun A _ hA => hA⟩
  | chainFailed io =>
    obtain ⟨start, starts, hstarts, -, ⟨hstarts', -, -⟩ | ⟨hstarts', -, hpending⟩⟩ :=
      takeChainFailure_spec hs
    all_goals rw [show awaited n (.chainFailed io) = start :: starts from hstarts, hstarts']
    · refine ⟨(List.perm_append_singleton start starts).subset, fun A _ hA hmem => hA ?_⟩
      exact (List.perm_append_singleton start starts).symm.subset hmem
    · refine ⟨List.subset_cons_self .., fun A hA hfree hmem => ?_⟩
      rw [hpending] at hA
      exact (List.mem_cons.mp hmem).elim hA.of_dropped.2 hfree
  | block hash =>
    obtain rfl := Option.some.inj hs
    exact ⟨List.Subset.refl _, fun A _ hA => hA⟩
  | blockFailed message pick =>
    obtain ⟨pos, -, rfl⟩ := Option.map_eq_some_iff.mp hs
    exact ⟨List.Subset.refl _, fun A _ hA => hA⟩
  | _ => cases hs

/-- Blocks that a message has not placed keep their order. -/
theorem filter_log_resolvesIn {n : Net} {e : Event × List String} (hdesc : Describes n e)
    (hs : n.client.resolvesIn E e.1 = some s) : ∃ q : String → Bool,
      (hashes s.chainLog).filter (· ∉ e.1.added) = (hashes n.client.chainLog).filter q := by
  obtain ⟨e, chain'⟩ := e
  cases e with
  | chain removed added accepted io =>
    obtain ⟨start, -, hlog, -⟩ := takeChain_spec hs
    refine ⟨fun hash => decide (hash ∉ removed) && decide (hash ∉ added), ?_⟩
    rw [hlog]
    refine filter_placeChainAfter.trans ?_
    rw [kept, hashes_kept, kept, List.filter_filter]
    exact List.filter_congr fun hash _ => Bool.and_comm ..
  | chainFailed io =>
    obtain ⟨start, starts, -, -, ⟨-, hlog, -⟩ | ⟨-, hlog, -⟩⟩ := takeChainFailure_spec hs
    · rw [hlog]
      exact ⟨_, rfl⟩
    · refine ⟨fun hash => hash ≠ start, ?_⟩
      have hhashes : hashes (n.client.chainLog.filter (·.hash ≠ start)) =
          (hashes n.client.chainLog).filter (· ≠ start) := hashes_filter (p := (· ≠ start))
      rw [hlog, hhashes, List.filter_filter]
      simp [Event.added]
  | block hash =>
    obtain rfl := Option.some.inj hs
    rw [hashes_noteChainBlock]
    exact ⟨_, rfl⟩
  | blockFailed => cases hdesc.2
  | _ => cases hs

/-! ## The seed block on the chain -/

theorem find?_of_split {α : Type} {f : α → Bool} {u v : List α} {x : α} (hu : ∀ y ∈ u, f y = false)
    (hx : f x) : (u ++ x :: v).find? f = some x := by
  rw [List.find?_append, List.find?_eq_none.mpr (by simpa using hu), Option.none_or,
    List.find?_cons_of_pos hx]

/-- What the scan of the log finds is the seed block of the chain, when it is a block behind `A` on
the chain. -/
theorem seedBlockAfter_right {log : List ChainEntry} {seedHash : String} {daa acceptedDaa : Nat}
    (hlog : LogOk E log) (hfollows : Follows chain (hashes log) A)
    (hclear : ∀ e ∈ log, e.hash ∈ behind A (hashes log) →
      (∃ d ∈ e.daa, E.daaScore A + traceSeedDelayDaa ≤ d) → e.hash ∈ behind A chain)
    (h : seedBlockAfter log A = some (seedHash, daa, acceptedDaa)) :
    (behind A chain).find? (E.daaScore A + traceSeedDelayDaa ≤ E.daaScore ·) = some seedHash := by
  obtain ⟨-, -, hdaa, pre, e, post, hsplit, hhash, hscore, hpast, hpre⟩ :=
    seedBlockAfter_eq_some hlog.scored h
  have hbehind : behind A (hashes log) = hashes pre ++ seedHash :: hashes post := by
    rw [← hashes_entriesBehind, hsplit, hashes_append, ← hhash]
    rfl
  have hlogged : ∀ e' ∈ entriesBehind log A, e' ∈ log := fun e' he' =>
    (List.dropWhile_sublist _).subset (List.mem_of_mem_drop he')
  have hmem : seedHash ∈ behind A chain := by
    rw [← hhash]
    apply hclear e (hlogged e (by simp [hsplit])) _ ⟨daa, hscore, hpast⟩
    simp [hbehind, hhash]
  obtain ⟨u, v, huv⟩ := List.append_of_mem hmem
  have hu := (hfollows.before hlog.nodup huv hbehind).subset
  rw [huv]
  refine find?_of_split (fun y hy => ?_) (by simpa using hdaa ▸ hpast)
  obtain ⟨e', he', rfl⟩ := List.mem_map.mp (hu hy)
  obtain ⟨d, hd, hlt⟩ := hpre e' he'
  rw [← hlog.scored e' (hlogged e' (by simp [hsplit, he'])) d hd]
  simpa using hlt

/-- What a draw is made from. -/
theorem drawOf_eq_some {txid : String} {p : PendingTrace} {d : TraceDraw}
    (h : s.drawOf E txid p = some d) : p.draw = none ∧ ∃ A ∈ p.acceptedHash,
      A ∉ s.chainRestoreStarts ∧ ∃ daa acceptedDaa,
        seedBlockAfter s.chainLog A = some (d.seedHash, daa, acceptedDaa) ∧
        d.deadlineDaa = daa + openingWindowDaa p.tier p.maxTokens ∧
        ∃ txidBytes ∈ hash32 txid, ∃ seedBlock ∈ hash32 d.seedHash,
          d.audited = (decide (acceptedDaa ≥ E.traceAuditActivationDaa) ||
            E.drawAudited (E.traceSeed seedBlock txidBytes)) := by
  rw [drawOf] at h
  split at h
  · cases h
  next hdraw =>
  simp only [Option.bind_eq_bind, Option.bind_eq_some_iff] at h
  obtain ⟨A, hA, h⟩ := h
  split at h
  · cases h
  next hstarts =>
  simp only [Option.bind_eq_some_iff] at h
  obtain ⟨⟨seedHash, daa, acceptedDaa⟩, hseed, txidBytes, hbytes, seedBlock, hblock, hd⟩ := h
  cases hd
  exact ⟨by simpa using hdraw, A, hA, hstarts, daa, acceptedDaa, hseed, rfl, txidBytes, hbytes,
    seedBlock, hblock, rfl⟩

theorem draw_of_resolveTraces {txid : String} {p q : PendingTrace} {d : TraceDraw}
    (hp : s.pendingTraces.lookup txid = some p) (hnone : p.draw = none)
    (hq : (s.resolveTraces E).pendingTraces.lookup txid = some q) (hd : q.draw = some d) :
    s.drawOf E txid p = some d := by
  rw [resolveTraces, Table.lookup_mapVals, hp, Option.map_some, Option.some.injEq] at hq
  subst hq
  split at hd
  · next d' hdraw => rw [hdraw, ← hd]
  · rw [hnone] at hd
    cases hd

namespace Net

variable {n : Net} {e : Event × List String}

/-- What holds of the client and the chain in every state of a run. -/
structure Good (E : Externals) (n : Net) : Prop where
  tracks : Tracks E n.client n.chain
  asked : Asked n.client

theorem good_init : Good E init where
  tracks := ⟨.nil, .nil, nofun, .nil⟩
  asked := nofun

theorem Good.resolvesIn (h : Good E n) (hdesc : Describes n e) {s : KeryxdHandler}
    (hs : n.client.resolvesIn E e.1 = some s) : Tracks E s e.2 := by
  obtain ⟨e, chain'⟩ := e
  obtain ⟨-, hdesc⟩ := hdesc
  cases e with
  | chain removed added accepted io =>
    obtain ⟨rfl, hanswers, haccepted⟩ := hdesc
    exact h.tracks.takeChain hs (fun start hstart => hanswers start (h.asked start hstart))
      haccepted
  | chainFailed io =>
    obtain ⟨rfl, hoff⟩ := hdesc
    exact h.tracks.takeChainFailure hs fun start hstart => hoff start (h.asked start hstart)
  | block hash =>
    obtain rfl := hdesc
    obtain rfl := Option.some.inj hs
    exact h.tracks.noteChainBlock
  | blockFailed => cases hdesc
  | _ => cases hs

theorem Good.step (h : Good E n) (hdesc : Describes n e) (horder : AddsInOrder n.client e.1) :
    Good E (n.step E e) := by
  obtain ⟨e, chain'⟩ := e
  have hquiet : ∀ s', Quiet n.client s' → chain' = n.chain →
      Good E { client := s', chain := chain' } := by
    rintro s' hq rfl
    exact ⟨h.tracks.quiet hq, h.asked.quiet hq⟩
  -- After the draws are resolved, a rebuild asks for the next start.
  have hanswer : chain' = n.chain → Good E
      { client := ((n.client.resolvesIn E e).map fun s =>
          (s.resolveTraces E).requestNextChainRestore.chainRestorePump).getD n.client
        chain := chain' } := by
    intro hchain
    cases hs : n.client.resolvesIn E e with
    | none => exact hquiet _ .refl hchain
    | some s =>
      have htracks : Tracks E s chain' := h.resolvesIn (e := (e, chain')) hdesc hs
      have hresolved := htracks.quiet (Quiet.resolveTraces (E := E))
      exact ⟨hresolved.requestNextChainRestore.quiet .chainRestorePump,
        asked_requestNextChainRestore.quiet .chainRestorePump⟩
  cases e with
  | restart now readable =>
    exact ⟨⟨hdesc.1, .nil, nofun, .nil⟩, nofun⟩
  | registered order =>
    obtain ⟨-, rfl⟩ := hdesc
    exact ⟨h.tracks.startChainRestore, asked_startChainRestore h.asked⟩
  | notification removed added accepted io =>
    obtain ⟨hnodup, hchain, haccepted⟩ := hdesc
    exact ⟨h.tracks.onNotification hchain hnodup haccepted horder,
      asked_onNotification h.asked⟩
  | chain removed added accepted io => exact hanswer hdesc.2.1
  | chainFailed io => exact hanswer hdesc.2.1
  | block hash =>
    have htracks : Tracks E (n.client.noteChainBlock E hash) chain' :=
      h.resolvesIn (e := (.block hash, chain')) hdesc rfl
    have hq : Quiet (n.client.noteChainBlock E hash)
        ((((n.client.noteChainBlock E hash).resolveTraces E)).restoreBlockAnswered hash) :=
      Quiet.resolveTraces.trans .restoreBlockAnswered
    have hasked : Asked (n.client.noteChainBlock E hash) := h.asked
    exact ⟨htracks.quiet hq, hasked.quiet hq⟩
  | blockFailed => cases hdesc.2
  | template daa => exact hquiet _ ⟨fun _ h => h, rfl, rfl, rfl⟩ hdesc.2
  | submitted txid tier maxTokens io =>
    refine hquiet _ (Quiet.trans ?_ .persistTrace) hdesc.2
    refine ⟨fun A hA => ?_, rfl, rfl, rfl⟩
    rcases hA.of_insert with h | h
    · cases h
    · exact h
  | tick now busy pick io =>
    obtain ⟨-, rfl⟩ := hdesc
    have hq := (@Quiet.retryPendingOpenings (n.client.pruneTraces io) now).trans
      (@Quiet.tryStartReplay E _ io now busy pick)
    have hasked : Asked (n.client.pruneTraces io) := h.asked
    exact ⟨h.tracks.pruneTraces.quiet hq, hasked.quiet hq⟩
  | replayDone now body io => exact hquiet _ .pollReplay hdesc.2
  | openingResponse txid error pick => exact hquiet _ .onOpeningResponse hdesc.2

/-- What a message places behind `A` is behind `A` on the chain. -/
theorem Good.notMem_added (h : Good E n) (hdesc : Describes n e) {s : KeryxdHandler}
    (hs : n.client.resolvesIn E e.1 = some s) {x : String} (hA : A ∈ e.2)
    (hbehind : x ∈ behind A (hashes s.chainLog)) (hoff : x ∉ behind A e.2) : x ∉ e.1.added := by
  have hlog := (h.resolvesIn hdesc hs).log.nodup
  obtain ⟨e, chain'⟩ := e
  cases e with
  | chain removed added accepted io =>
    obtain ⟨hnodup, rfl, hanswers, -⟩ := hdesc
    intro hadded
    obtain ⟨start, hstarts, hplaced, -⟩ := takeChain_spec hs
    rw [hplaced, hashes_placeChainAfter] at hbehind hlog
    obtain ⟨front, hfront, -⟩ :=
      (hanswers start (h.asked start (by rw [hstarts]; rfl))).exists_append hnodup
    rw [hfront] at hnodup hA hoff
    obtain ⟨-, -, hdisj⟩ := List.nodup_append.mp hnodup
    by_cases hin : A ∈ added
    · rw [behind_append_of_notMem fun hmem => hdisj A hmem A hin rfl] at hoff
      rw [List.append_assoc] at hbehind hlog
      obtain ⟨-, hlog, hfirst⟩ := List.nodup_append.mp hlog
      rw [behind_append_of_notMem fun hmem => hfirst A hmem A (by simp [hin]) rfl,
        behind_append_of_mem hin] at hbehind
      obtain ⟨-, -, hlast⟩ := List.nodup_append.mp hlog
      rcases List.mem_append.mp hbehind with hx | hx
      · exact hoff hx
      · exact hlast x hadded x hx rfl
    · have hfirst : A ∈ front := (List.mem_append.mp hA).resolve_right hin
      rw [behind_append_of_mem hfirst] at hoff
      exact hoff (List.mem_append_right _ hadded)
  | notification => cases hs
  | _ => exact List.not_mem_nil

/-- A new draw has the seed block of the chain. -/
theorem Good.draw_right (h : Good E n) (hdesc : Describes n e) {s : KeryxdHandler}
    (hs : n.client.resolvesIn E e.1 = some s) {txid : String} {p : PendingTrace} {d : TraceDraw}
    (hp : s.pendingTraces.lookup txid = some p) (hd : s.drawOf E txid p = some d)
    (hclear : ∀ q, n.client.pendingTraces.lookup txid = some q → ∀ A ∈ acceptedBy e.1 ⟨txid, q⟩,
      p = { q.reset e.1.removed with acceptedHash := some A } → Unobstructed E n e A) :
    ∃ A ∈ p.acceptedHash, A ∈ e.2 ∧
      (behind A e.2).find? (E.daaScore A + traceSeedDelayDaa ≤ E.daaScore ·) = some d.seedHash := by
  have htracks := h.resolvesIn hdesc hs
  obtain ⟨hnone, A, hA, hfree, daa, acceptedDaa, hseed, -⟩ := drawOf_eq_some hd
  have haccepted : AcceptedBy s.pendingTraces A := ⟨txid, p, hp, hA⟩
  have hlogged := (seedBlockAfter_eq_some htracks.log.scored hseed).1
  have hfollows := htracks.follows A haccepted hfree hlogged
  obtain ⟨hsub, hawaited⟩ := awaited_of_resolvesIn hs
  obtain ⟨q, hq, hmem, hpq⟩ := mem_acceptedBy hs hp hnone hA
  have hclear := hclear q hq A hmem hpq hfollows.mem (hawaited A haccepted hfree)
  refine ⟨A, hA, hfollows.mem, seedBlockAfter_right htracks.log hfollows ?_ hseed⟩
  -- A block off the chain behind `A` would be an awaited start in the way.
  rintro b hb hbehind ⟨score, hscore, hpast⟩
  by_contra hoff
  have hstart : b.hash ∈ s.chainRestoreStarts := by
    by_contra hnot
    exact hoff (htracks.ordered A hlogged hfollows.mem _ hbehind hnot)
  have hadded := h.notMem_added hdesc hs hfollows.mem hbehind hoff
  obtain ⟨b', hb', hhash, hscored⟩ := mem_log_of_resolvesIn hs hb (Option.isSome_of_mem hscore)
    hadded
  have hplace : A ∈ e.1.added ∨ b.hash ∈ behind A (hashes n.client.chainLog) := by
    by_cases hA : A ∈ e.1.added
    · exact .inl hA
    · obtain ⟨q, hq⟩ := filter_log_resolvesIn hdesc hs
      exact .inr (behind_of_filter hq (by simpa using hA) (by simpa using hadded) hbehind)
  have hlt := hclear b' hb' (hhash ▸ hsub hstart) (hhash ▸ hoff) (hhash ▸ hscored) (hhash ▸ hplace)
  rw [hhash, ← htracks.log.scored b hb score hscore] at hlt
  omega

theorem Good.drawsRight (h : Good E n) (hdesc : Describes n e) (horder : Orderly E n e) :
    DrawsRight E n e := by
  refine ⟨?_, ?_⟩
  · intro s hs t ht hnone q hq d hd
    have hlookup := Table.mem_entries.mp ht
    refine h.draw_right hdesc hs hlookup (draw_of_resolveTraces hlookup hnone hq hd) ?_
    exact fun q hq A hA _ => horder.2 ⟨t.1, q⟩ (Table.mem_entries.mpr hq) A hA
  · obtain ⟨e, chain'⟩ := e
    cases e with
    | notification removed added accepted io =>
      intro t ht d hd hremoved
      have hresets : t.2.resets removed := by
        rw [PendingTrace.resets, Bool.or_eq_true]
        rcases hremoved with hseed | ⟨A, hA, hmem⟩
        · exact .inr (by rw [hd]; simpa using hseed)
        · exact .inl (by rw [hA]; simpa using hmem)
      obtain ⟨q, hq, hnone⟩ := @lookup_onChainBlocksRemoved _ io _ _ _
        (Table.mem_entries.mp ht) hresets
      obtain ⟨a, ha⟩ := @lookup_noteAcceptances
        { n.client.onChainBlocksRemoved io removed with
          chainLog := appendChain (n.client.onChainBlocksRemoved io removed).chainLog added }
        io accepted _ q hq
      exact ⟨_, ha, hnone⟩
    | _ => trivial

end Net

def onChain (digit : Char) : String := String.ofList (List.replicate 64 digit)

/-- Every draw is audited, whose seed is the seed block. -/
def someExternals : Externals where
  daaScore hash :=
    if hash = "a1" then 1000 else if hash = "c2" then 1010 else if hash = onChain '2' then 1150
    else if hash = onChain '3' then 1200 else 1250
  traceSeed seedBlock _ := seedBlock
  drawAudited _ := true
  traceAuditActivationDaa := 0
  traceSeedBindActivationDaa := 0
  seeded body _ := some body
  signOpening _ := none
  openingTxid _ := none

def always : String → Bool := fun _ => true

/-- Two responses are accepted, and the branch of the second one leaves the chain while the miner is
down. The chain is rebuilt for the first one, and then the chain goes back to that branch by blocks
that are not logged. -/
def branchRestored : List (Event × List String) :=
  let t := onChain 'a'
  let u := onChain 'b'
  let seed := onChain '2'
  let off := onChain '3'
  let chain := ["a1", seed, off, "a4"]
  [(.submitted t 1 16 always, []), (.submitted u 1 16 always, []),
    (.notification [] ["a1", off] [("a1", [t]), (off, [u])] always, ["a1", off]),
    (.restart 0 always, ["a1", "c2"]), (.registered [t, u], ["a1", "c2"]),
    (.chain [] ["c2"] [] always, ["a1", "c2"]),
    (.notification ["c2"] [seed, off, "a4"] [] always, chain),
    (.block "a1", chain), (.block seed, chain), (.block off, chain)]

/-- A restored response is drawn, and a reorganisation takes its draw back. -/
def responseRestored : List (Event × List String) :=
  let t := onChain 'a'
  let seed := onChain '2'
  let chain := ["a1", "c2", seed]
  [(.submitted t 1 16 always, []), (.notification [] ["a1"] [("a1", [t])] always, ["a1"]),
    (.restart 0 always, chain), (.registered [t], chain), (.chain [] ["c2", seed] [] always, chain),
    (.block "a1", chain), (.block "c2", chain), (.block seed, chain),
    (.notification [seed] ["a4"] [] always, ["a1", "c2", "a4"])]

end KeryxMiner.Trace
