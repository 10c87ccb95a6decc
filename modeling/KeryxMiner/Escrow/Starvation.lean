import KeryxMiner.Escrow.Batches
import KeryxMiner.Escrow.Run

/-!
# Batches that cannot be built

`find_claim` gives up for a block if the batch it selected is refused by `build_claim_tx`, and the
next block selects the same batch. Nothing is held back exactly where the first releasable candidate
is one that can be built, or nothing else could be claimed (`unblocked_iff`).
-/

namespace KeryxMiner.Escrow

variable {X : Externals} {w : EscrowWatcher} {es : List EscrowEntry} {e : EscrowEntry}
  {daaScore : Nat} {inFlightOutpoints : Finset String}

/-! ## What can be built -/

/-- The source txid is the hexadecimal form of 32 bytes. -/
def EscrowEntry.decodes (e : EscrowEntry) : Bool :=
  match Text.hexDecode e.coinbaseTxid with
  | .ok bytes => bytes.length == 32
  | .error _ => false

/-- The txid decodes, and the amount of the entry itself covers the fee. -/
def EscrowEntry.sound (e : EscrowEntry) : Bool :=
  e.decodes && decide (claimFeeSompi < e.amountSompi)

/-- Well-formed source txids, and a total above the claim fee. -/
structure Buildable (es : List EscrowEntry) : Prop where
  decodes : ∀ e ∈ es, e.decodes
  total : claimFeeSompi < (es.map (·.amountSompi)).sum

instance : Decidable (Buildable es) :=
  decidable_of_iff ((∀ e ∈ es, e.decodes) ∧ claimFeeSompi < (es.map (·.amountSompi)).sum)
    ⟨fun h => ⟨h.1, h.2⟩, fun h => ⟨h.1, h.2⟩⟩

theorem exists_inputMeta : (∃ i, inputMeta e = .ok i) ↔ e.decodes := by
  rw [EscrowEntry.decodes]
  constructor
  · rintro ⟨i, hi⟩
    obtain ⟨hdecode, hlen, -⟩ := inputMeta_spec hi
    rw [hdecode]
    exact beq_iff_eq.mpr hlen
  · intro h
    split at h
    · next bytes hdecode => exact ⟨_, by rw [inputMeta, hdecode]; exact if_pos (beq_iff_eq.mp h)⟩
    · cases h

theorem exists_inputsMeta : (∃ is, inputsMeta es = .ok is) ↔ ∀ e ∈ es, e.decodes := by
  constructor
  · rintro ⟨is, his⟩ e he
    obtain ⟨k, hk, rfl⟩ := List.getElem_of_mem he
    have hall := inputsMeta_spec his
    exact exists_inputMeta.mp ⟨_, List.Forall₂.get hall hk (hall.length_eq ▸ hk)⟩
  · intro h
    induction es with
    | nil => exact ⟨[], rfl⟩
    | cons e es ih =>
      obtain ⟨hfirst, hrest⟩ := List.forall_mem_cons.mp h
      obtain ⟨i, hi⟩ := exists_inputMeta.mpr hfirst
      obtain ⟨is, his⟩ := ih hrest
      exact ⟨i :: is, by rw [inputsMeta, hi, his]; rfl⟩

/-- A batch of one window is built exactly if it is buildable. -/
theorem exists_buildClaimTx (hne : es ≠ [])
    (hwindow : ∀ e ∈ es, ∀ e' ∈ es, e.csvWindow = e'.csvWindow) :
    (∃ r, w.buildClaimTx X es = .ok r) ↔ Buildable es := by
  cases es with
  | nil => exact absurd rfl hne
  | cons e es =>
    have hsame : ¬(e :: es).any (·.csvWindow != e.csvWindow) := by
      rw [List.any_eq_true]
      rintro ⟨e', he', hdiffer⟩
      rw [hwindow e' he' e List.mem_cons_self] at hdiffer
      simp at hdiffer
    simp only [EscrowWatcher.buildClaimTx, if_neg hsame]
    constructor
    · rintro ⟨r, hr⟩
      split at hr
      · cases hr
      · next htotal =>
        split at hr
        · cases hr
        · next metas hmetas =>
          exact ⟨exists_inputsMeta.mp ⟨metas, hmetas⟩, Nat.not_le.mp htotal⟩
    · rintro ⟨hdecodes, htotal⟩
      obtain ⟨metas, hmetas⟩ := exists_inputsMeta.mpr hdecodes
      rw [if_neg (Nat.not_le.mpr htotal), hmetas]
      exact ⟨_, rfl⟩

theorem buildable_of_sound (hne : es ≠ []) (h : ∀ e ∈ es, e.sound) : Buildable es := by
  have hboth : ∀ e ∈ es, e.decodes ∧ claimFeeSompi < e.amountSompi := by
    simpa [EscrowEntry.sound] using h
  refine ⟨fun e he => (hboth e he).1, ?_⟩
  cases es with
  | nil => exact absurd rfl hne
  | cons e es =>
    rw [List.map_cons, List.sum_cons]
    exact Nat.lt_of_lt_of_le (hboth e List.mem_cons_self).2 (Nat.le_add_right ..)

/-! ## What `find_claim` selects -/

/-- Where there is nothing to claim, there is nothing among a part of the entries. -/
theorem NothingToClaim.filter {entries : List EscrowEntry} {currentWindow : Nat}
    (h : NothingToClaim entries daaScore inFlightOutpoints currentWindow) (p : EscrowEntry → Bool) :
    NothingToClaim (entries.filter p) daaScore inFlightOutpoints currentWindow where
  nominal v := Nat.lt_of_le_of_lt (List.filter_sublist.countP_le) (h.nominal v)
  others e he := h.others e (List.mem_of_mem_filter he)

/-- The entries of a batch of indices. -/
def entriesAt (entries : List EscrowEntry) (batch : List Nat) : List EscrowEntry :=
  batch.filterMap (entries[·]?)

namespace SafeBatch

variable {entries : List EscrowEntry} {batch : List Nat}

theorem entriesAt_eq_nil (h : SafeBatch entries daaScore inFlightOutpoints batch) :
    entriesAt entries batch = [] ↔ batch = [] := by
  constructor
  · intro hnil
    cases batch with
    | nil => rfl
    | cons i rest =>
      obtain ⟨e, he, -⟩ := h.spendable i List.mem_cons_self
      rw [entriesAt, List.filterMap_cons_some he] at hnil
      cases hnil
  · rintro rfl
    rfl

theorem window_eq (h : SafeBatch entries daaScore inFlightOutpoints batch) :
    ∀ e ∈ entriesAt entries batch, ∀ e' ∈ entriesAt entries batch, e.csvWindow = e'.csvWindow := by
  intro e he e' he'
  obtain ⟨i, hi, hget⟩ := List.mem_filterMap.mp he
  obtain ⟨j, hj, hget'⟩ := List.mem_filterMap.mp he'
  exact h.window i hi j hj e e' hget hget'

end SafeBatch

namespace EscrowWatcher

/-- Validation is finished and a claim fits in flight. -/
structure Ready (w : EscrowWatcher) : Prop where
  room : w.inFlight.keys.length < maxInFlightClaims
  validated : w.validationPending = []

/-- The entries of a watcher after the verdicts that expire at `daaScore` are dropped. -/
def healed (w : EscrowWatcher) (daaScore : Nat) : List EscrowEntry := w.entries.map (heal daaScore)

@[simp] theorem foldl_appendJournalLine_entries :
    (es.foldl appendJournalLine w).entries = w.entries := by
  induction es generalizing w with
  | nil => rfl
  | cons e es ih => exact ih

@[simp] theorem foldl_appendJournalLine_inFlightOutpoints :
    (es.foldl appendJournalLine w).inFlightOutpoints = w.inFlightOutpoints := by
  induction es generalizing w with
  | nil => rfl
  | cons e es ih => exact ih

theorem healVerdicts_entries : (w.healVerdicts daaScore).entries = w.healed daaScore :=
  foldl_appendJournalLine_entries

theorem healVerdicts_inFlightOutpoints :
    (w.healVerdicts daaScore).inFlightOutpoints = w.inFlightOutpoints :=
  foldl_appendJournalLine_inFlightOutpoints

/-- A ready watcher finds a claim exactly if it selects a batch that can be built. -/
theorem findClaim_isSome (h : w.Ready) :
    (w.findClaim X daaScore).2.isSome ↔
      selectClaimBatch X (w.healed daaScore) daaScore w.inFlightOutpoints ≠ [] ∧
      Buildable (entriesAt (w.healed daaScore)
        (selectClaimBatch X (w.healed daaScore) daaScore w.inFlightOutpoints)) := by
  have hsafe := (selectClaimBatch_safe_complete X (w.healed daaScore) daaScore
    w.inFlightOutpoints).1
  rw [findClaim, if_neg (Nat.not_le.mpr h.room), if_neg (not_not.mpr h.validated)]
  simp only [healVerdicts_entries, healVerdicts_inFlightOutpoints]
  rw [Ne, ← hsafe.entriesAt_eq_nil, entriesAt]
  split
  · next hnil => exact iff_of_false Bool.false_ne_true fun hne => hne.1 hnil
  · next hne =>
    have hbuild := exists_buildClaimTx (X := X) (w := w.healVerdicts daaScore) hne hsafe.window_eq
    rw [← hbuild]
    split
    · next claimTxid tx hok => exact iff_of_true rfl ⟨hne, _, hok⟩
    · next err herr =>
      refine iff_of_false Bool.false_ne_true ?_
      rintro ⟨-, r, hok⟩
      rw [herr] at hok
      cases hok

/-! ## Nothing is held back -/

/-- The watcher without the entries that cannot be claimed by themselves. -/
def onlySound (w : EscrowWatcher) : EscrowWatcher := w.setEntries (w.entries.filter (·.sound))

theorem onlySound_ready (h : w.Ready) : w.onlySound.Ready := ⟨h.room, h.validated⟩

theorem onlySound_healed : w.onlySound.healed daaScore = (w.healed daaScore).filter (·.sound) := by
  rw [healed, healed, List.filter_map]
  rfl

/-- The batch of a candidate, after the expired verdicts are dropped. -/
def candidateAt (X : Externals) (w : EscrowWatcher) (daaScore : Nat) (c : Nat × Option Nat) :
    List Nat :=
  candidateBatch (w.healed daaScore) daaScore w.inFlightOutpoints (csvWindowForDaa X daaScore) c

def candidatesAt (X : Externals) (w : EscrowWatcher) (daaScore : Nat) : List (Nat × Option Nat) :=
  candidates (w.healed daaScore) (csvWindowForDaa X daaScore)

/-- If some releasable candidate batch can be built there is a claim; and there is one if there is
one without the entries that cannot be claimed by themselves. -/
structure Unblocked (X : Externals) (w : EscrowWatcher) (daaScore : Nat) : Prop where
  candidates : ∀ c ∈ w.candidatesAt X daaScore, releasable c.1 (w.candidateAt X daaScore c) →
    Buildable (entriesAt (w.healed daaScore) (w.candidateAt X daaScore c)) →
      (w.findClaim X daaScore).2.isSome
  alone : (w.onlySound.findClaim X daaScore).2.isSome → (w.findClaim X daaScore).2.isSome

/-- The first releasable candidate, in the order of the passes, has well-formed txids and a total
above the fee. -/
def FirstBuildable (X : Externals) (w : EscrowWatcher) (daaScore : Nat) : Prop :=
  ∀ c, (w.candidatesAt X daaScore).find? (fun c => releasable c.1 (w.candidateAt X daaScore c)) =
    some c → Buildable (entriesAt (w.healed daaScore) (w.candidateAt X daaScore c))

/-- No releasable candidate has; and the entries that can be claimed by themselves make up neither a
full batch of a window nor any batch of another pass. -/
structure NothingBehind (X : Externals) (w : EscrowWatcher) (daaScore : Nat) : Prop where
  candidates : ∀ c ∈ w.candidatesAt X daaScore, releasable c.1 (w.candidateAt X daaScore c) →
    ¬Buildable (entriesAt (w.healed daaScore) (w.candidateAt X daaScore c))
  alone : NothingToClaim ((w.healed daaScore).filter (·.sound)) daaScore w.inFlightOutpoints
    (csvWindowForDaa X daaScore)

theorem selectClaimBatch_healed (X : Externals) (w : EscrowWatcher) (daaScore : Nat) :
    selectClaimBatch X (w.healed daaScore) daaScore w.inFlightOutpoints =
      (((w.candidatesAt X daaScore).find? fun c =>
        releasable c.1 (w.candidateAt X daaScore c)).map (w.candidateAt X daaScore)).getD [] :=
  firstReleasable_eq

theorem releasable_ne_nil {c : Nat × Option Nat} {batch : List Nat} (h : releasable c.1 batch) :
    batch ≠ [] := by
  rintro rfl
  rw [releasable.eq_def] at h
  split at h
  · cases h
  · cases h

/-- There is a claim exactly if there is a first releasable candidate and it can be built. -/
theorem findClaim_isSome_iff (h : w.Ready) : (w.findClaim X daaScore).2.isSome ↔
    ∃ c, (w.candidatesAt X daaScore).find? (fun c => releasable c.1 (w.candidateAt X daaScore c)) =
      some c ∧ Buildable (entriesAt (w.healed daaScore) (w.candidateAt X daaScore c)) := by
  rw [findClaim_isSome h, selectClaimBatch_healed]
  cases hfind : (w.candidatesAt X daaScore).find? fun c =>
      releasable c.1 (w.candidateAt X daaScore c) with
  | none => simp
  | some c =>
    have hrel := List.find?_some hfind
    simp [releasable_ne_nil hrel]

/-- Without the other entries, what is selected can always be built. -/
theorem onlySound_isSome (h : w.Ready) : (w.onlySound.findClaim X daaScore).2.isSome ↔
    ¬NothingToClaim ((w.healed daaScore).filter (·.sound)) daaScore w.inFlightOutpoints
      (csvWindowForDaa X daaScore) := by
  have hsafe := (selectClaimBatch_safe_complete X ((w.healed daaScore).filter (·.sound)) daaScore
    w.inFlightOutpoints).1
  rw [findClaim_isSome (onlySound_ready h), onlySound_healed]
  change selectClaimBatch X _ daaScore w.inFlightOutpoints ≠ [] ∧ Buildable (entriesAt _
    (selectClaimBatch X _ daaScore w.inFlightOutpoints)) ↔ _
  rw [← selectClaimBatch_eq_nil (X := X), and_iff_left_of_imp]
  intro hne
  apply buildable_of_sound (hsafe.entriesAt_eq_nil.not.mpr hne)
  intro e he
  obtain ⟨i, -, hget⟩ := List.mem_filterMap.mp he
  exact (List.mem_filter.mp (List.mem_of_getElem? hget)).2

/-- A ready watcher holds no claim back exactly if its first releasable candidate can be built, or
there is nothing behind it. -/
theorem unblocked_iff (X : Externals) (w : EscrowWatcher) (daaScore : Nat) (h : w.Ready) :
    Unblocked X w daaScore ↔ FirstBuildable X w daaScore ∨ NothingBehind X w daaScore := by
  by_cases hclaim : (w.findClaim X daaScore).2.isSome
  · refine iff_of_true ⟨fun _ _ _ _ => hclaim, fun _ => hclaim⟩ (.inl ?_)
    obtain ⟨c, hfind, hbuild⟩ := (findClaim_isSome_iff h).mp hclaim
    intro c' hfind'
    rw [hfind, Option.some.injEq] at hfind'
    rwa [← hfind']
  · constructor
    · intro hunblocked
      refine .inr ⟨fun c hc hrel hbuild => hclaim (hunblocked.candidates c hc hrel hbuild), ?_⟩
      by_contra hsome
      exact hclaim (hunblocked.alone ((onlySound_isSome h).mpr hsome))
    · rintro (hfirst | hbehind)
      · -- no candidate is releasable
        have hnone : (w.candidatesAt X daaScore).find? (fun c =>
            releasable c.1 (w.candidateAt X daaScore c)) = none := by
          rw [Option.eq_none_iff_forall_ne_some]
          intro c hfind
          exact hclaim ((findClaim_isSome_iff h).mpr ⟨c, hfind, hfirst c hfind⟩)
        constructor
        · intro c hc hrel
          exact absurd hrel (List.find?_eq_none.mp hnone c hc)
        · intro hsome
          have hnil : selectClaimBatch X (w.healed daaScore) daaScore w.inFlightOutpoints = [] := by
            rw [selectClaimBatch_healed, hnone]
            rfl
          exact absurd ((selectClaimBatch_eq_nil.mp hnil).filter (·.sound))
            ((onlySound_isSome h).mp hsome)
      · constructor
        · intro c hc hrel hbuild
          exact absurd hbuild (hbehind.candidates c hc hrel)
        · intro hsome
          exact absurd hbehind.alone ((onlySound_isSome h).mp hsome)

/-- An entry under repair that is worth the fee and no more, and an entry of the dead pool. -/
def stalledEntries : List EscrowEntry :=
  let dust : EscrowEntry := {
    coinbaseTxid := hashOf 'a', blockHash := "", confirmDaa := 0, amountSompi := claimFeeSompi
    outputIndex := 0, claimed := false, slashed := false, orphanSlashed := false, orphanRetries := 0
    orphanRetryAfterDaa := none, submitRetries := 0, batchCap := 1, capSetDaa := 76340000
    isInference := false, csvWindow := challengeWindowBlocks }
  [dust,
    { dust with
      coinbaseTxid := hashOf 'b', amountSompi := 500000000, orphanSlashed := true
      orphanRetries := 9, orphanRetryAfterDaa := some 76339900, batchCap := 0 }]

def stalled : EscrowWatcher := new minerKeys ⟨stalledEntries, 0⟩ 0

theorem stalled_ready : stalled.Ready := ⟨by decide, rfl⟩

theorem unblocked_iff_stalled : Unblocked minerExternals stalled 76340000 ↔
    FirstBuildable minerExternals stalled 76340000 ∨ NothingBehind minerExternals stalled 76340000 :=
  unblocked_iff minerExternals stalled 76340000 stalled_ready

/-- The entry under repair is selected and refused, and the other one waits behind it. -/
theorem stalled_not_unblocked :
    stalled.Ready ∧ ¬Unblocked minerExternals stalled 76340000 := by
  refine ⟨stalled_ready, ?_⟩
  intro h
  have hnone : (stalled.findClaim minerExternals 76340000).2.isSome = false := by decide +kernel
  have hsome := h.candidates (3, none) (by decide +kernel) (by decide +kernel) (by decide +kernel)
  rw [hsome] at hnone
  cases hnone

end EscrowWatcher

end KeryxMiner.Escrow
