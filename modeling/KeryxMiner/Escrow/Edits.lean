import KeryxMiner.Escrow.Invariants

/-!
# What the calls do to the entries and the journal

The entries in memory and the pending journal lines change together: an entry changed in place is
journaled, and so is a new one; compaction alone takes entries away without a line, and only done
ones. `step_edits` says that every call of the watcher is a sequence of such edits and a flush.
-/

namespace KeryxMiner.Escrow

open EscrowWatcher

/-- One change of the entries. -/
inductive Edit
  | change (i : Nat) (e : EscrowEntry)
  | track (e : EscrowEntry)
  | compact
  deriving DecidableEq, Repr

namespace EscrowWatcher

/-- The entry at `i` is replaced by one of the same outpoint, and journaled. -/
def change (w : EscrowWatcher) (i : Nat) (e : EscrowEntry) : EscrowWatcher :=
  match w.entries[i]? with
  | none => w
  | some a =>
    if a.outpoint = e.outpoint then (w.setEntries (w.entries.set i e)).appendJournalLine e else w

def edit (w : EscrowWatcher) : Edit → EscrowWatcher
  | .change i e => w.change i e
  | .track e => w.track e
  | .compact => w.compact

/-- What a flush writes: the entries, and the lines with their sequence. -/
def memory (w : EscrowWatcher) : List EscrowEntry × Nat × List JournalLine :=
  (w.entries, w.journalSeq, w.journalPending)

end EscrowWatcher

variable {X : Externals} {w w' w'' : EscrowWatcher} {s : Sys} {op : Op}

/-- Edits look at the memory only. -/
theorem edit_memory (h : w.memory = w'.memory) (ed : Edit) : (w.edit ed).memory = (w'.edit ed).memory := by
  obtain ⟨he, hs, hp⟩ : w.entries = w'.entries ∧ w.journalSeq = w'.journalSeq ∧
      w.journalPending = w'.journalPending := by simpa [memory] using h
  cases ed with
  | change i e =>
    simp only [edit, change, he]
    split
    · exact h
    · split
      · simp [memory, appendJournalLine, EscrowWatcher.setEntries, EscrowWatcher.entries, hs, hp]
      · exact h
  | track e =>
    simp [edit, memory, track, appendJournalLine, EscrowWatcher.setEntries, EscrowWatcher.entries,
      show w.state.entries = w'.state.entries from he, hs, hp]
  | compact =>
    simp only [edit, EscrowWatcher.compact, he]
    split
    · simp [memory, rebuildIndexes, EscrowWatcher.setEntries, EscrowWatcher.entries, hs, hp]
    · exact h

/-- An edit journals an entry and puts it in the place of one of its outpoint, or behind the others;
or it journals nothing and takes done entries away. -/
theorem edit_cases (w : EscrowWatcher) (ed : Edit) :
    ((w.edit ed).journalSeq = w.journalSeq ∧ (w.edit ed).journalPending = w.journalPending ∧
      ∀ a ∈ w.entries, a ∈ (w.edit ed).entries ∨ a.live = false) ∨
    ∃ e, (w.edit ed).journalSeq = w.journalSeq + 1 ∧
      (w.edit ed).journalPending = w.journalPending ++ [⟨w.journalSeq + 1, e⟩] ∧
      e ∈ (w.edit ed).entries ∧
      ∀ a ∈ w.entries, a ∈ (w.edit ed).entries ∨ a.outpoint = e.outpoint := by
  have hnone : w.journalSeq = w.journalSeq ∧ w.journalPending = w.journalPending ∧
      ∀ a ∈ w.entries, a ∈ w.entries ∨ a.live = false := ⟨rfl, rfl, fun a ha => .inl ha⟩
  cases ed with
  | change i e =>
    simp only [edit, change]
    split
    · exact .inl hnone
    · next b hb =>
      split
      · next ho =>
        have hlt := (List.getElem?_eq_some_iff.mp hb).1
        refine .inr ⟨e, rfl, rfl, List.mem_of_getElem? (i := i) (by simp [hlt]), fun a ha => ?_⟩
        obtain ⟨j, hj⟩ := List.mem_iff_getElem?.mp ha
        by_cases hji : j = i
        · subst hji
          cases hj.symm.trans hb
          exact .inr ho
        · exact .inl (List.mem_of_getElem? (i := j) (by simp [List.getElem?_set_ne (Ne.symm hji), hj]))
      · exact .inl hnone
  | track e =>
    exact .inr ⟨e, rfl, rfl, by simp [edit], fun a ha => .inl (by simp [edit, ha])⟩
  | compact =>
    simp only [edit, EscrowWatcher.compact]
    split
    · refine .inl ⟨rfl, rfl, fun a ha => ?_⟩
      cases hl : a.live with
      | true => exact .inl (List.mem_filter.mpr ⟨ha, hl⟩)
      | false => exact .inr rfl
    · exact .inl hnone

/-- A sequence of edits leads from the memory of `w` to that of `w'`. -/
def Edits (w w' : EscrowWatcher) : Prop := ∃ eds : List Edit, (eds.foldl edit w).memory = w'.memory

namespace Edits

theorem of_memory (h : w.memory = w'.memory) : Edits w w' := ⟨[], h⟩

theorem refl : Edits w w := .of_memory rfl

theorem single (ed : Edit) : Edits w (w.edit ed) := ⟨[ed], rfl⟩

theorem trans (h : Edits w w') (h' : Edits w' w'') : Edits w w'' := by
  obtain ⟨eds, heds⟩ := h
  obtain ⟨eds', heds'⟩ := h'
  refine ⟨eds ++ eds', ?_⟩
  rw [List.foldl_append, ← heds']
  clear heds'
  generalize eds.foldl edit w = v at heds
  induction eds' generalizing v w' with
  | nil => exact heds
  | cons ed eds' ih => exact ih _ (edit_memory heds ed)

theorem foldl {α : Type} {f : EscrowWatcher → α → EscrowWatcher} (h : ∀ w a, Edits w (f w a))
    (as : List α) : Edits w (as.foldl f w) :=
  List.foldlRecOn (motive := fun w' => Edits w w') as f .refl fun w' hw a _ => hw.trans (h w' a)

end Edits

/-! ## The methods -/

theorem slashAt_edits (ok : EscrowEntry → Bool) (w : EscrowWatcher) (i : Nat) :
    Edits w (slashAt ok w i) := by
  unfold slashAt
  split
  · exact .refl
  · next e he =>
    split
    · refine ⟨[.change i { e with slashed := true }], ?_⟩
      simp [edit, change, he, EscrowEntry.outpoint]
    · exact .refl

theorem slashReds_edits (reds : List String) : Edits w (w.slashReds reds) := by
  refine .foldl (fun w red => ?_) reds
  split
  · exact .refl
  · exact .foldl (slashAt_edits _) _

theorem trackBlockEscrows_edits (block : RpcBlock) (daaScore : Nat) (hash : String) :
    Edits w (w.trackBlockEscrows block daaScore hash) := by
  unfold trackBlockEscrows
  split
  · exact .refl
  · refine .foldl (fun w out => ?_) _
    unfold trackOutput
    split
    · exact .refl
    · dsimp only
      split
      · exact .refl
      · exact .single (.track _)

theorem scanBlock_edits (block : RpcBlock) (daaScore : Nat) : Edits w (w.scanBlock block daaScore) := by
  unfold scanBlock
  split
  · exact .refl
  · dsimp only
    split
    · exact (slashReds_edits _).trans (trackBlockEscrows_edits ..)
    · exact slashReds_edits _

theorem startStateValidation_edits : Edits w w.startStateValidation := .of_memory rfl

theorem dropClaim_memory (w : EscrowWatcher) (txid : String) : (w.dropClaim txid).memory = w.memory := by
  unfold dropClaim
  split <;> rfl

theorem expireInFlight_edits (daaScore : Nat) : Edits w (w.expireInFlight daaScore) :=
  .foldl (fun w txid => .of_memory (dropClaim_memory w txid).symm) _

theorem tickCompact_edits : Edits w w.tickCompact := by
  unfold tickCompact
  split
  · have hcount : Edits w { w with blocksSinceCompact := 0 } := .of_memory rfl
    exact hcount.trans (.single .compact)
  · exact .of_memory rfl

theorem beginBlock_edits (daaScore : Nat) : Edits w (w.beginBlock daaScore) := by
  have hsee : Edits w (w.seeDaa daaScore) := .of_memory rfl
  exact ((hsee.trans (expireInFlight_edits daaScore)).trans tickCompact_edits).trans (.of_memory rfl)

/-- Dropping verdicts changes, one after the other, the entries that have one to drop. -/
theorem healVerdicts_edits (daaScore : Nat) : Edits w (w.healVerdicts daaScore) := by
  have hkeep : ∀ e, (capExpired daaScore e || forgiven daaScore e) = false → heal daaScore e = e := by
    intro e he
    obtain ⟨hc, hf⟩ := Bool.or_eq_false_iff.mp he
    simp [heal, hc, hf]
  suffices H : ∀ (rest pre : List EscrowEntry) (w : EscrowWatcher), w.entries = pre ++ rest →
      Edits w (((rest.filter fun e => capExpired daaScore e || forgiven daaScore e).map
        (heal daaScore)).foldl appendJournalLine (w.setEntries (pre ++ rest.map (heal daaScore)))) from
    H w.entries [] w rfl
  intro rest
  induction rest with
  | nil =>
    intro pre w hw
    have hsame : w.setEntries pre = w := by
      rw [show pre = w.entries by rw [hw, List.append_nil]]
      rfl
    exact .of_memory (by simp [hsame])
  | cons e rest ih =>
    intro pre w hw
    cases he : capExpired daaScore e || forgiven daaScore e with
    | true =>
      have hchange : w.edit (.change pre.length (heal daaScore e)) =
          (w.setEntries (pre ++ [heal daaScore e] ++ rest)).appendJournalLine (heal daaScore e) := by
        simp [edit, change, hw, EscrowEntry.outpoint, heal]
      have hrest := ih (pre ++ [heal daaScore e]) (w.edit (.change pre.length (heal daaScore e)))
        (by rw [hchange]; rfl)
      rw [List.filter_cons_of_pos (by exact he), List.map_cons, List.map_cons, List.foldl_cons]
      have hall := (Edits.single (.change pre.length (heal daaScore e))).trans hrest
      rw [hchange, List.append_assoc, List.append_assoc] at hall
      exact hall
    | false =>
      have hrest := ih (pre ++ [e]) w (by simp [hw])
      simpa [he, hkeep e he] using hrest

theorem findClaim_edits (daaScore : Nat) : Edits w (w.findClaim X daaScore).1 := by
  unfold findClaim
  split
  · exact .refl
  · split
    · exact .refl
    · have hheal := healVerdicts_edits (w := w) daaScore
      dsimp only
      split
      · exact hheal
      · split
        · exact hheal.trans (.of_memory rfl)
        · exact hheal

theorem updateEntry_edits {f : EscrowEntry → EscrowEntry} (hf : ∀ e, (f e).outpoint = e.outpoint)
    (w : EscrowWatcher) (o : Outpoint) : Edits w (w.updateEntry f o) := by
  unfold updateEntry
  split
  · exact .refl
  · next i _ =>
    split
    · exact .refl
    · next e he => exact ⟨[.change i (f e)], by simp [edit, change, he, hf]⟩

theorem markEntriesClaimed_edits (outpoints : List Outpoint) :
    Edits w (w.markEntriesClaimed outpoints).1 :=
  List.foldlRecOn (motive := fun p : EscrowWatcher × Nat => Edits w p.1) outpoints _ .refl
    fun p hp o _ => hp.trans (updateEntry_edits (f := claimEntry) (fun _ => rfl) p.1 o)

theorem settleClaim_edits (txid : String) (claim : InFlightClaim) (error : Option String) :
    Edits w (w.settleClaim txid claim error).1 := by
  have hdrop : Edits w (w.dropClaim txid) := .of_memory (dropClaim_memory w txid).symm
  unfold settleClaim
  dsimp only
  split
  · exact hdrop.trans (markEntriesClaimed_edits _)
  · next msg =>
    split
    · exact hdrop.trans (markEntriesClaimed_edits _)
    · exact hdrop.trans (.foldl (fun w o => updateEntry_edits
        (fun e => (rejectEntry_le msg _ _ o e).outpoint) w o) _)

theorem purgeBlock_edits (hash : String) : Edits w (w.purgeBlock hash) := by
  unfold purgeBlock
  split
  · exact .refl
  · refine .foldl (fun w i => ?_) _
    split
    · exact .refl
    · split
      · exact (slashAt_edits _ w i).trans (.of_memory rfl)
      · exact .refl

theorem removeChainBlocks_edits (hashes : List String) (n : Nat) :
    Edits w (hashes.foldl removeChainBlock (w, n)).1 := by
  refine List.foldlRecOn (motive := fun p : EscrowWatcher × Nat => Edits w p.1) hashes _ .refl
    fun p hp hash _ => hp.trans ?_
  unfold removeChainBlock
  split
  · exact .refl
  · refine List.foldlRecOn (motive := fun q : EscrowWatcher × Nat => Edits p.1 q.1) _ _
      (.of_memory rfl) fun q hq i _ => hq.trans ?_
    unfold releaseAt
    split
    · exact .refl
    · split
      · exact (slashAt_edits _ q.1 i).trans (.of_memory rfl)
      · exact .refl

/-- `s'` is `s`, or `s` after a flush. -/
def Flushes (X : Externals) (s s' : Sys) : Prop :=
  s' = s ∨ (∃ io, s' = s.maybeFlush X io) ∨ ∃ io, s' = s.flushState io

/-- Every call but a restart is a sequence of edits and a flush. -/
theorem step_edits (h : ∀ now, op ≠ .restart now) :
    ∃ w', Edits s.w w' ∧ Flushes X { s with w := w' } (step X s op) := by
  have hfinish : ∀ {s : Sys} {io : Io}, Flushes X s (s.finishValidationIfDone X io) := fun {s io} => by
    unfold Sys.finishValidationIfDone
    split
    · exact .inl rfl
    · exact .inr (.inl ⟨io, rfl⟩)
  cases op with
  | restart now => exact absurd rfl (h now)
  | handleBlock block io =>
    simp only [step, Sys.handleBlock]
    split
    · exact ⟨s.w, .refl, .inl rfl⟩
    · next daaScore _ =>
      exact ⟨_, ((beginBlock_edits daaScore).trans (scanBlock_edits block daaScore)).trans
        (findClaim_edits daaScore), .inr (.inl ⟨io, rfl⟩)⟩
  | chainBlocksRemoved hashes io =>
    refine ⟨_, removeChainBlocks_edits hashes 0, ?_⟩
    simp only [step, Sys.onChainBlocksRemoved]
    split
    · exact .inr (.inl ⟨io, rfl⟩)
    · exact .inl rfl
  | submitResponse txid error pick io =>
    simp only [step, Sys.onSubmitResponse]
    split
    · exact ⟨s.w, .refl, .inl rfl⟩
    · split
      · exact ⟨s.w, .refl, .inl rfl⟩
      · exact ⟨_, settleClaim_edits .., .inr (.inl ⟨io, rfl⟩)⟩
  | trackInferenceEscrow txid daa amount io =>
    simp only [step, Sys.trackInferenceEscrow]
    split
    · exact ⟨s.w, .refl, .inl rfl⟩
    · split
      · exact ⟨s.w, .refl, .inl rfl⟩
      · exact ⟨_, .single (.track _), .inr (.inl ⟨io, rfl⟩)⟩
  | startStateValidation => exact ⟨_, startStateValidation_edits, .inl rfl⟩
  | blockValidated hash exists_ io =>
    simp only [step, Sys.onBlockValidated]
    split
    · have hpending : Edits s.w { s.w with validationPending := s.w.validationPending.erase hash } :=
        .of_memory rfl
      cases exists_ with
      | true => exact ⟨_, hpending, hfinish⟩
      | false => exact ⟨_, hpending.trans (purgeBlock_edits hash), hfinish⟩
    · exact ⟨s.w, .refl, .inl rfl⟩
  | blockValidationError message pick io =>
    simp only [step, Sys.onBlockValidationError]
    split
    · exact ⟨s.w, .refl, .inl rfl⟩
    · next hash _ =>
      have hpending : Edits s.w { s.w with
          validationPending := s.w.validationPending.erase hash
          validationUnknown := s.w.validationUnknown + 1 } := .of_memory rfl
      exact ⟨_, hpending, hfinish⟩
  | flushState io => exact ⟨s.w, .refl, .inr (.inr ⟨io, rfl⟩)⟩
  | trackBlockEscrows block daa hash => exact ⟨_, trackBlockEscrows_edits block daa hash, .inl rfl⟩
  | findClaim daa => exact ⟨_, findClaim_edits daa, .inl rfl⟩
  | expireInFlight daa => exact ⟨_, expireInFlight_edits daa, .inl rfl⟩
  | compact => exact ⟨_, .single .compact, .inl rfl⟩
  | maybeFlush io => exact ⟨s.w, .refl, .inr (.inl ⟨io, rfl⟩)⟩

end KeryxMiner.Escrow
