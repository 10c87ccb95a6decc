import KeryxMiner.Escrow.Response

/-!
# What a response may slash

A slashed entry is a reward written off for good. `noteSolo` keeps the history of the claims with a
single input which were rejected as orphan; the retry counter of an entry, in memory and on disk,
never exceeds the number of its outpoint in this history, whatever happened to the entry in between
(`CountedRetries`). With `response_entry` it decides what a response may have slashed.
-/

namespace KeryxMiner.Escrow

open EscrowWatcher

variable {X : Externals} {s : Sys} {solo : List Outpoint} {op : Op} {msg : String}
  {claim : InFlightClaim}

/-- A rejection which is taken as an orphan. -/
def orphanRejection (msg : String) : Bool := !isDuplicate msg && isOrphan msg

/-- A rejection which is taken as a burned escrow. -/
def burnedRejection (msg : String) : Bool :=
  !isDuplicate msg && !isOrphan msg && !isSeqLock msg && isBurned msg

/-- The outpoint of a claim of one input which the response rejects as orphan. -/
def soloOrphan (s : Sys) : Op → List Outpoint
  | .submitResponse txid (some msg) pick _ =>
    match s.w.matchedClaim txid (some msg) pick with
    | some ⟨[o], _⟩ => if orphanRejection msg then [o] else []
    | _ => []
  | _ => []

/-- Keeps the outpoints of the claims of one input which were rejected as orphan. -/
def noteSolo (solo : List Outpoint) (s : Sys) (op : Op) (_ : Sys) : List Outpoint :=
  soloOrphan s op ++ solo

/-- The grounds on which the response may slash the entry of `o`. -/
def MaySlash (solo : List Outpoint) (claim : InFlightClaim) (msg : String) (o : Outpoint) : Prop :=
  burnedRejection msg ∧ namesBurned msg o ∨
    burnedRejection msg ∧ burnedSet msg = [] ∧ claim.outpoints = [o] ∨
    maxOrphanRetries ≤ solo.count o

instance (solo : List Outpoint) (claim : InFlightClaim) (msg : String) (o : Outpoint) :
    Decidable (MaySlash solo claim msg o) := by unfold MaySlash; infer_instance

/-- The response slashes an entry on one of the grounds only. A response to a claim of several
inputs leaves the marks of every entry that it does not name. -/
def SlashedRightly (p : Sys × List Outpoint) (op : Op) : Prop :=
  match op with
  | .submitResponse txid error pick _ =>
    let after := (instrument (step X) noteSolo p op).1.w.entries
    let solo := (instrument (step X) noteSolo p op).2
    after.length = p.1.w.entries.length ∧
    (∀ q ∈ p.1.w.entries.zip after, q.1.slashed = false → q.2.slashed = true →
      ∃ claim ∈ p.1.w.matchedClaim txid error pick, q.1.outpoint ∈ claim.outpoints ∧
        ∃ msg ∈ error, MaySlash solo claim msg q.1.outpoint) ∧
    ∀ claim ∈ p.1.w.matchedClaim txid error pick, 1 < claim.outpoints.length →
      ∀ q ∈ p.1.w.entries.zip after,
        (∃ msg ∈ error, burnedRejection msg ∧ namesBurned msg q.1.outpoint) ∨
          q.2.slashed = q.1.slashed ∧ q.2.orphanRetries = q.1.orphanRetries
  | _ => True

/-- The retry counter of every entry is accounted for by the history. -/
def CountedRetries (p : Sys × List Outpoint) : Prop :=
  p.1.AllEntries fun e => e.orphanRetries ≤ p.2.count e.outpoint

/-! ## One rejection -/

theorem rejectEntry_orphanRetries {n lastDaa : Nat} {o : Outpoint} {e : EscrowEntry}
    (hd : isDuplicate msg = false) : (rejectEntry msg n lastDaa o e).orphanRetries ≤
      e.orphanRetries + if orphanRejection msg ∧ n ≤ 1 then 1 else 0 := by
  unfold rejectEntry rejectOrphan rejectBurned rejectUnknown capAt orphanRejection
  grind

theorem rejectEntry_slashed {n lastDaa : Nat} {o : Outpoint} {e : EscrowEntry}
    (hd : isDuplicate msg = false) (h0 : e.slashed = false)
    (h : (rejectEntry msg n lastDaa o e).slashed = true) :
    burnedRejection msg ∧ namesBurned msg o ∨
      burnedRejection msg ∧ burnedSet msg = [] ∧ n ≤ 1 ∨
      orphanRejection msg ∧ n ≤ 1 ∧ maxOrphanRetries ≤ e.orphanRetries + 1 := by
  unfold rejectEntry rejectOrphan rejectBurned rejectUnknown capAt at h
  unfold burnedRejection orphanRejection
  grind

theorem rejectEntry_many {n lastDaa : Nat} {o : Outpoint} {e : EscrowEntry}
    (hd : isDuplicate msg = false) (hn : 1 < n) :
    burnedRejection msg ∧ namesBurned msg o ∨
      (rejectEntry msg n lastDaa o e).slashed = e.slashed ∧
        (rejectEntry msg n lastDaa o e).orphanRetries = e.orphanRetries := by
  unfold rejectEntry rejectOrphan rejectBurned rejectUnknown capAt burnedRejection
  grind

theorem soloOrphan_eq {txid : String} {pick : Nat} {io : Io} {o : Outpoint}
    (hm : s.w.matchedClaim txid (some msg) pick = some claim) (ho : claim.outpoints = [o])
    (hr : orphanRejection msg = true) :
    soloOrphan s (.submitResponse txid (some msg) pick io) = [o] := by
  obtain ⟨os, daa⟩ := claim
  cases ho
  simp [soloOrphan, hm, hr]

/-! ## The counters along a run -/

theorem counted_touch {e e' : EscrowEntry} (h : op.Touches s e e')
    (he : e.orphanRetries ≤ solo.count e.outpoint) :
    e'.orphanRetries ≤ (soloOrphan s op ++ solo).count e'.outpoint := by
  rw [h.le.outpoint, List.count_append]
  cases op with
  | handleBlock =>
    rcases h with ⟨_, _, rfl⟩ | ⟨⟨-, rfl⟩, -⟩ <;> exact he.trans (Nat.le_add_left ..)
  | findClaim =>
    cases h
    exact he.trans (Nat.le_add_left ..)
  | blockValidated =>
    obtain ⟨-, rfl⟩ := h
    exact he.trans (Nat.le_add_left ..)
  | submitResponse txid error pick io =>
    obtain ⟨claim, hm, ho, lastDaa, rfl⟩ := h
    by_cases ha : isAcceptance error = true
    · rw [answerEntry_of_acceptance ha]
      exact he.trans (Nat.le_add_left ..)
    · obtain ⟨msg, rfl⟩ : ∃ msg, error = some msg := by
        cases error with
        | none => exact absurd rfl ha
        | some msg => exact ⟨msg, rfl⟩
      have ha : isAcceptance (some msg) = false := by simpa using ha
      rw [answerEntry_of_rejection ha]
      refine (rejectEntry_orphanRetries ha).trans ?_
      split
      · next hs =>
        rw [soloOrphan_eq hm (outpoints_eq_singleton hs.2 ho) hs.1]
        simp only [List.count_singleton_self]
        omega
      · omega
  | _ => exact h.elim

/-- The solo orphan of a response is the claim it is matched to. -/
theorem soloOrphan_ne_nil (h : soloOrphan s op ≠ []) :
    ∃ txid msg pick io o daa, op = .submitResponse txid (some msg) pick io ∧
      s.w.matchedClaim txid (some msg) pick = some ⟨[o], daa⟩ ∧ orphanRejection msg = true := by
  unfold soloOrphan at h
  split at h
  · next txid msg pick io =>
    split at h
    · next o daa hm =>
      split at h
      · next hr => exact ⟨txid, msg, pick, io, o, daa, rfl, hm, hr⟩
      · exact absurd rfl h
    · exact absurd rfl h
  · exact absurd rfl h

theorem CountedRetries.step (p : Sys × List Outpoint) (op : Op) (H : CountedRetries p) :
    CountedRetries (instrument (step X) noteSolo p op) := by
  obtain ⟨s, solo⟩ := p
  by_cases hsolo : soloOrphan s op = []
  · have hT : ∀ e e', op.Touches s e e' → e.orphanRetries ≤ solo.count e.outpoint →
        e'.orphanRetries ≤ solo.count e'.outpoint := fun e e' h he => by
      simpa [hsolo] using counted_touch h he
    have hnote : noteSolo solo s op (Escrow.step X s op) = solo := by simp [noteSolo, hsolo]
    have := Sys.AllEntries.step (X := X) op hT (fun e e' h he => by obtain ⟨-, rfl⟩ := h; exact he)
      (fun e hf _ => by simp [hf.orphanRetries]) H
    simpa only [CountedRetries, instrument, hnote] using this
  · obtain ⟨txid, msg, pick, io, o, daa, rfl, hm, hr⟩ := soloOrphan_ne_nil hsolo
    obtain ⟨t, ht, hc⟩ := Option.bind_eq_some_iff.mp hm
    have hd : isDuplicate msg = false := by
      simp only [orphanRejection, Bool.and_eq_true, Bool.not_eq_true'] at hr
      exact hr.1
    have hsettle : (s.w.settleClaim t ⟨[o], daa⟩ (some msg)).1 =
        (s.w.dropClaim t).updateEntry (rejectEntry msg 1 (s.w.dropClaim t).lastDaaScore o) o := by
      simp [settleClaim, hd, rejectEntries]
    have hcount : ∀ s', noteSolo solo s (.submitResponse txid (some msg) pick io) s' = o :: solo :=
      fun s' => by simp [noteSolo, soloOrphan_eq hm rfl hr]
    have hmono : ∀ e : EscrowEntry, e.orphanRetries ≤ solo.count e.outpoint →
        e.orphanRetries ≤ (o :: solo).count e.outpoint :=
      fun e he => he.trans (List.count_le_count_cons ..)
    have hdrop := dropClaim_core s.w t
    have hw : Everywhere (fun e => e.orphanRetries ≤ (o :: solo).count e.outpoint)
        (s.w.settleClaim t ⟨[o], daa⟩ (some msg)).1 := by
      rw [hsettle]
      refine Everywhere.updateEntry (Q := fun e => e.orphanRetries ≤ solo.count e.outpoint) hmono
        (fun e ho he => ?_) ⟨by rw [hdrop.1]; exact H.entries, by rw [hdrop.2.2.2]; exact H.pending⟩
      rw [(rejectEntry_le ..).outpoint, ho, List.count_cons_self, ← ho]
      refine (rejectEntry_orphanRetries hd).trans ?_
      split <;> omega
    have hstep : Escrow.step X s (.submitResponse txid (some msg) pick io) =
        ({ s with w := (s.w.settleClaim t ⟨[o], daa⟩ (some msg)).1 } : Sys).maybeFlush X io := by
      simp [Escrow.step, Sys.onSubmitResponse, ht, hc]
    unfold CountedRetries instrument
    simp only [hcount, hstep]
    exact (H.mono hmono).flush hw maybeFlush_flushed

/-! ## What is slashed -/

theorem slashedRightly_of_counted {p : Sys × List Outpoint} (hnd : FlightNodup p.1.w)
    (H : CountedRetries p) : SlashedRightly (X := X) p op := by
  obtain ⟨s, solo⟩ := p
  cases op with
  | submitResponse txid error pick io =>
    simp only [SlashedRightly, instrument]
    cases hm : s.w.matchedClaim txid error pick with
    | none =>
      rw [response_unmatched hm]
      refine ⟨rfl, fun q hq h0 h1 => ?_, by simp⟩
      obtain ⟨i, h, h'⟩ := getElem?_of_mem_zip hq
      rw [Option.some.inj (h.symm.trans h'), h1] at h0
      cases h0
    | some claim =>
      refine ⟨response_length hnd hm, fun q hq h0 h1 => ?_, ?_⟩
      · refine ⟨claim, rfl, ?_⟩
        rcases response_pair hnd hm hq with h | ⟨ho, h⟩
        · rw [h, h0] at h1
          cases h1
        · refine ⟨ho, ?_⟩
          rw [h] at h1
          cases error with
          | none => simp [answerEntry, claimEntry, h0] at h1
          | some msg =>
            by_cases hd : isDuplicate msg = true
            · simp [answerEntry, hd, claimEntry, h0] at h1
            · have hd : isDuplicate msg = false := by simpa using hd
              rw [answerEntry_of_rejection hd] at h1
              refine ⟨msg, rfl, ?_⟩
              rcases rejectEntry_slashed hd h0 h1 with hb | ⟨hb, hs, hn⟩ | ⟨hr, hn, hmax⟩
              · exact .inl hb
              · exact .inr (.inl ⟨hb, hs, outpoints_eq_singleton hn ho⟩)
              · refine .inr (.inr ?_)
                rw [noteSolo, soloOrphan_eq hm (outpoints_eq_singleton hn ho) hr, List.singleton_append,
                  List.count_cons_self]
                have := H.entries q.1 (List.of_mem_zip hq).1
                simp only at this
                omega
      · rintro _ ⟨⟩ hn q hq
        rcases response_pair hnd hm hq with h | ⟨ho, h⟩
        · rw [h]
          exact .inr ⟨rfl, rfl⟩
        · rw [h]
          cases error with
          | none => exact .inr ⟨rfl, rfl⟩
          | some msg =>
            by_cases hd : isDuplicate msg = true
            · have hacc : EscrowWatcher.isAcceptance (some msg) = true := hd
              rw [answerEntry_of_acceptance hacc]
              exact .inr ⟨rfl, rfl⟩
            · have hd : isDuplicate msg = false := by simpa using hd
              rw [answerEntry_of_rejection hd]
              exact (rejectEntry_many hd hn).imp_left fun h => ⟨msg, rfl, h⟩
  | _ => trivial

/-- Whatever the run, a response slashes an entry only when it names it as burned, when it burns the
single input of a claim without naming any, or when claims of that entry alone have been rejected
as orphan `maxOrphanRetries` times. -/
theorem responses_slash_rightly {k : Keys} {now : Nat} {evs : List Op} :
    Meets (instrument (step X) noteSolo) (SlashedRightly (X := X)) (Sys.init k now, []) evs := by
  let P : Sys × List Outpoint → Prop := fun p => (p.1.Ok ∧ FlightNodup p.1.w) ∧ CountedRetries p
  have hinit : P (Sys.init k now, []) :=
    ⟨⟨.init k now, fun _ _ h => by cases h⟩, .init k now⟩
  have hs : ∀ p op, True → P p → P (instrument (step X) noteSolo p op) :=
    fun p op _ H => ⟨⟨H.1.1.step op, H.1.2.step op H.1.1⟩, H.2.step p op⟩
  have htrivial : Meets (instrument (step X) noteSolo) (fun _ _ => True) (Sys.init k now, []) evs :=
    Meets.of_forall (C := fun _ => True) fun _ _ => trivial
  have hrun := htrivial.with_invariant hs hinit
  exact hrun.mono fun p op H => slashedRightly_of_counted H.2.1.2 H.2.2

end KeryxMiner.Escrow
