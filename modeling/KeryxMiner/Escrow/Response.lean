import KeryxMiner.Escrow.InFlight

/-!
# The entries a response is mapped back to

A response names the claim, and the watcher maps it back to the entries by a lookup of each
outpoint, which finds the first entry. `response_entry` says what a response makes of every entry.

After a reorg and a re-add an outpoint has two entries, of which the first is dead. Then a response
updates the dead one. `FindsLive` is the condition under which this does not happen.
-/

namespace KeryxMiner.Escrow

open EscrowWatcher

variable {X : Externals} {w : EscrowWatcher} {s : Sys} {es : List EscrowEntry}

/-! ## The lookup -/

theorem findEntry_eq (es : List EscrowEntry) (o : Outpoint) :
    findEntry es o = (es.map (·.outpoint)).findIdx? (· == o) := by
  rw [findEntry, List.findIdx?_map]
  congr 1

/-- The outpoint of an entry is found, at that entry or before it. -/
theorem findEntry_le {e : EscrowEntry} {i : Nat} (he : es[i]? = some e) :
    ∃ j, findEntry es e.outpoint = some j ∧ j ≤ i := by
  obtain ⟨hi, rfl⟩ := List.getElem?_eq_some_iff.mp he
  have hex : ∃ x ∈ es, x.coinbaseTxid == es[i].outpoint.1 && x.outputIndex == es[i].outpoint.2 :=
    ⟨_, List.getElem_mem hi, by simp [EscrowEntry.outpoint]⟩
  cases h : findEntry es es[i].outpoint with
  | none =>
    obtain ⟨x, hx, h'⟩ := hex
    have := List.findIdx?_eq_none_iff.mp h x hx
    simp [h'] at this
  | some j =>
    refine ⟨j, rfl, ?_⟩
    by_contra hij
    obtain ⟨hj, -, hlt⟩ := List.findIdx?_eq_some_iff_getElem.mp h
    exact hlt i (by omega) (by simp [EscrowEntry.outpoint])

theorem map_outpoint_set {i : Nat} {e e' : EscrowEntry} (he : es[i]? = some e)
    (ho : e'.outpoint = e.outpoint) : (es.set i e').map (·.outpoint) = es.map (·.outpoint) := by
  obtain ⟨hi, rfl⟩ := List.getElem?_eq_some_iff.mp he
  rw [List.map_set, ho]
  refine List.ext_getElem? fun j => ?_
  rw [List.getElem?_set]
  split
  · next hij => subst hij; simp [hi]
  · rfl

/-- The lookup sees the outpoints only. -/
theorem findEntry_set {i : Nat} {e e' : EscrowEntry} {o : Outpoint} (he : es[i]? = some e)
    (ho : e'.outpoint = e.outpoint) : findEntry (es.set i e') o = findEntry es o := by
  rw [findEntry_eq, findEntry_eq, map_outpoint_set he ho]

/-! ## The update -/

/-- The update of the entry of `o`, on the entries. -/
theorem updateEntry_entries {f : EscrowEntry → EscrowEntry} {o : Outpoint} (i : Nat) :
    (w.updateEntry f o).entries[i]? =
      if findEntry w.entries o = some i then w.entries[i]?.map f else w.entries[i]? := by
  unfold updateEntry
  split
  · next h => simp [h]
  · next j h =>
    obtain ⟨e, he, _⟩ := findEntry_some h
    simp only [he, h, Option.some.injEq, appendJournalLine_entries, setEntries_entries]
    rw [List.getElem?_set]
    split
    · next hij =>
      subst hij
      rw [he]
      simp [(List.getElem?_eq_some_iff.mp he).1]
    · rfl

theorem updateEntry_findEntry {f : EscrowEntry → EscrowEntry} {o o' : Outpoint}
    (hf : ∀ e, (f e).outpoint = e.outpoint) :
    findEntry (w.updateEntry f o).entries o' = findEntry w.entries o' := by
  unfold updateEntry
  split
  · rfl
  · next j h =>
    obtain ⟨e, he, _⟩ := findEntry_some h
    simp only [he]
    exact findEntry_set he (hf e)

/-- Updating the entries of distinct outpoints: an entry is updated when its outpoint is among them
and the lookup finds it. -/
theorem updateEntries_entries {f : Outpoint → EscrowEntry → EscrowEntry}
    (hf : ∀ o e, (f o e).outpoint = e.outpoint) {os : List Outpoint} (hnd : os.Nodup) (i : Nat) :
    (os.foldl (fun w o => w.updateEntry (f o) o) w).entries[i]? =
      w.entries[i]?.map fun e =>
        if e.outpoint ∈ os ∧ findEntry w.entries e.outpoint = some i then f e.outpoint e else e := by
  induction os generalizing w with
  | nil => simp
  | cons o os ih =>
    obtain ⟨ho, hnd⟩ := List.nodup_cons.mp hnd
    rw [List.foldl_cons, ih hnd, updateEntry_entries]
    cases he : w.entries[i]? with
    | none => simp
    | some e =>
      simp only [updateEntry_findEntry (hf o), List.mem_cons]
      by_cases hfind : findEntry w.entries o = some i
      · -- `e` is the entry of `o`, which is not met again
        obtain ⟨e', he', heo⟩ := findEntry_some hfind
        cases he.symm.trans he'
        simp [hfind, hf, heo, ho]
      · have : e.outpoint = o → findEntry w.entries e.outpoint ≠ some i := fun h => h ▸ hfind
        simp only [hfind, if_false, Option.map_some]
        congr 1
        by_cases heo : e.outpoint = o
        · simp [this heo]
        · simp [heo]

theorem dropClaim_lastDaaScore (w : EscrowWatcher) (txid : String) :
    (w.dropClaim txid).lastDaaScore = w.lastDaaScore := by
  unfold dropClaim
  split <;> rfl

/-- A matched response answers the entry of each outpoint of the claim. -/
theorem settleClaim_fst {txid : String} {claim : InFlightClaim} {error : Option String} :
    (w.settleClaim txid claim error).1 = claim.outpoints.foldl (fun w' o =>
      w'.updateEntry (answerEntry error claim.outpoints.length w.lastDaaScore o) o)
      (w.dropClaim txid) := by
  have hclaim : isAcceptance error = true → ∀ n lastDaa o,
      answerEntry error n lastDaa o = claimEntry := fun ha _ _ _ =>
    funext fun _ => answerEntry_of_acceptance ha ..
  unfold settleClaim
  split
  · exact markEntriesClaimed_fst _
  · next msg =>
    split
    · next hd =>
      rw [markEntriesClaimed_fst]
      simp only [hclaim hd]
    · next hd =>
      have hreject : ∀ n lastDaa o, answerEntry (some msg) n lastDaa o = rejectEntry msg n lastDaa o :=
        fun _ _ _ => funext fun _ => if_neg hd
      simp only [hreject, rejectEntries, dropClaim_lastDaaScore]

theorem settleClaim_entries {txid : String} {claim : InFlightClaim} {error : Option String}
    (hnd : claim.outpoints.Nodup) (i : Nat) :
    (w.settleClaim txid claim error).1.entries[i]? = w.entries[i]?.map fun e =>
      if e.outpoint ∈ claim.outpoints ∧ findEntry w.entries e.outpoint = some i then
        answerEntry error claim.outpoints.length w.lastDaaScore e.outpoint e
      else e := by
  rw [settleClaim_fst, updateEntries_entries (fun _ _ => (answerEntry_le ..).outpoint) hnd,
    (dropClaim_core w txid).1]

theorem settleClaim_inFlight {txid : String} {claim : InFlightClaim} {error : Option String} :
    (w.settleClaim txid claim error).1.inFlight = (w.dropClaim txid).inFlight := by
  rw [settleClaim_fst]
  refine List.foldlRecOn (motive := fun w' : EscrowWatcher => w'.inFlight = (w.dropClaim txid).inFlight)
    _ _ rfl fun w' h o _ => ?_
  unfold updateEntry
  split
  · exact h
  · split <;> exact h

theorem length_eq_of_getElem? {es es' : List EscrowEntry}
    (h : ∀ i : Nat, es'[i]?.isSome = es[i]?.isSome) : es'.length = es.length := by
  refine Nat.le_antisymm ?_ ?_ <;> by_contra hlt
  · have := h es.length
    simp at this
    omega
  · have := h es'.length
    simp at this
    omega

/-- What a response makes of the entries: those of the claim's outpoints which the lookup finds are
answered, and the others stay as they are. -/
theorem response_entry {txid : String} {error : Option String} {pick : Nat} (io : Io)
    {claim : InFlightClaim} (hnd : FlightNodup s.w)
    (hm : s.w.matchedClaim txid error pick = some claim) (i : Nat) :
    (step X s (.submitResponse txid error pick io)).w.entries[i]? = s.w.entries[i]?.map fun e =>
      if e.outpoint ∈ claim.outpoints ∧ findEntry s.w.entries e.outpoint = some i then
        answerEntry error claim.outpoints.length s.w.lastDaaScore e.outpoint e
      else e := by
  obtain ⟨t, ht, hc⟩ := Option.bind_eq_some_iff.mp hm
  simp only [step, Sys.onSubmitResponse, ht, hc]
  rw [maybeFlush_flushed.core.entries]
  exact settleClaim_entries (hnd t claim hc) i

theorem response_length {txid : String} {error : Option String} {pick : Nat} {io : Io}
    {claim : InFlightClaim} (hnd : FlightNodup s.w)
    (hm : s.w.matchedClaim txid error pick = some claim) :
    (step X s (.submitResponse txid error pick io)).w.entries.length = s.w.entries.length :=
  length_eq_of_getElem? fun i => by rw [response_entry _ hnd hm, Option.isSome_map]

theorem getElem?_of_mem_zip {es' : List EscrowEntry} {q : EscrowEntry × EscrowEntry}
    (h : q ∈ es.zip es') : ∃ i : Nat, es[i]? = some q.1 ∧ es'[i]? = some q.2 := by
  obtain ⟨i, hi⟩ := List.mem_iff_getElem?.mp h
  exact ⟨i, List.getElem?_zip_eq_some.mp hi⟩

/-- An entry before and after a response. -/
theorem response_pair {txid : String} {error : Option String} {pick : Nat} {io : Io}
    {claim : InFlightClaim} (hnd : FlightNodup s.w)
    (hm : s.w.matchedClaim txid error pick = some claim) {q : EscrowEntry × EscrowEntry}
    (hq : q ∈ s.w.entries.zip (step X s (.submitResponse txid error pick io)).w.entries) :
    q.2 = q.1 ∨ q.1.outpoint ∈ claim.outpoints ∧
      q.2 = answerEntry error claim.outpoints.length s.w.lastDaaScore q.1.outpoint q.1 := by
  obtain ⟨i, h1, h2⟩ := getElem?_of_mem_zip hq
  rw [response_entry _ hnd hm, h1, Option.map_some, Option.some.injEq] at h2
  split at h2
  · next h => exact .inr ⟨h.1, h2.symm⟩
  · exact .inl h2.symm

theorem response_unmatched {txid : String} {error : Option String} {pick : Nat} {io : Io}
    (hm : s.w.matchedClaim txid error pick = none) :
    step X s (.submitResponse txid error pick io) = s := by
  unfold matchedClaim at hm
  cases ht : s.w.matchedTxid txid error pick with
  | none => simp [step, Sys.onSubmitResponse, ht]
  | some t =>
    rw [ht, Option.bind_some] at hm
    simp [step, Sys.onSubmitResponse, ht, hm]

/-- A claim of at most one input, which has the input `o`. -/
theorem outpoints_eq_singleton {os : List Outpoint} {o : Outpoint} (hn : os.length ≤ 1)
    (ho : o ∈ os) : os = [o] := by
  match os, hn, ho with
  | [_], _, ho => rw [List.mem_singleton.mp ho]

/-! ## Duplicates -/

/-- What a rejection leaves on an entry for the claims to come. -/
structure Repair where
  orphanRetries : Nat
  submitRetries : Nat
  batchCap : Nat
  capSetDaa : Nat
  retryAfterDaa : Option Nat
  orphanSlashed : Bool
  deriving DecidableEq

def EscrowEntry.repair (e : EscrowEntry) : Repair :=
  ⟨e.orphanRetries, e.submitRetries, e.batchCap, e.capSetDaa, e.orphanRetryAfterDaa, e.orphanSlashed⟩

/-- Several entries carry the outpoint. -/
def Duplicated (es : List EscrowEntry) (o : Outpoint) : Prop :=
  1 < (es.filter (·.outpoint == o)).length

instance (es : List EscrowEntry) (o : Outpoint) : Decidable (Duplicated es o) := by
  unfold Duplicated; infer_instance

/-- The rejection of a claim of `n` inputs sets retry counters, caps or cool-downs. -/
def setsRepair (msg : String) (n : Nat) : Bool :=
  isOrphan msg || isSeqLock msg || !isBurned msg || (decide (burnedSet msg = []) && decide (n > 1))

/-- The lookup of the claim's outpoints finds what the response is about: for an acceptance, the
live entry of each outpoint that has one; for a rejection that sets something, the only entry. -/
def FindsLive (s : Sys) : Op → Prop
  | .submitResponse txid error pick _ => ∀ claim ∈ s.w.matchedClaim txid error pick,
    if isAcceptance error then
      ∀ p ∈ s.w.entries.zipIdx, p.1.live = true → p.1.outpoint ∈ claim.outpoints →
        findEntry s.w.entries p.1.outpoint = some p.2
    else
      (∃ msg ∈ error, setsRepair msg claim.outpoints.length = true) →
        ∀ o ∈ claim.outpoints, ¬ Duplicated s.w.entries o
  | _ => True

instance (s : Sys) (op : Op) : Decidable (FindsLive s op) := by
  unfold FindsLive
  split <;> infer_instance

/-- No entry of the claim's outpoints is still claimable. -/
def Accepted (claim : InFlightClaim) (after : List EscrowEntry) : Prop :=
  ∀ e ∈ after, e.outpoint ∈ claim.outpoints → e.live = false

/-- The entry of the claim's outpoint is live and has what the rejection sets, or it is a dead
duplicate and has what it had. -/
def Repaired (w : EscrowWatcher) (error : Option String) (n : Nat) (e e' : EscrowEntry) : Prop :=
  (e.live = true → e'.repair = (answerEntry error n w.lastDaaScore e.outpoint e).repair) ∧
    (e.live = false → Duplicated w.entries e.outpoint → e'.repair = e.repair)

def Rejected (w : EscrowWatcher) (error : Option String) (claim : InFlightClaim)
    (after : List EscrowEntry) : Prop :=
  after.length = w.entries.length ∧ ∀ p ∈ w.entries.zip after, p.1.outpoint ∈ claim.outpoints →
    Repaired w error claim.outpoints.length p.1 p.2

instance (w : EscrowWatcher) (error : Option String) (n : Nat) (e e' : EscrowEntry) :
    Decidable (Repaired w error n e e') := by unfold Repaired; infer_instance

instance (claim : InFlightClaim) (after : List EscrowEntry) : Decidable (Accepted claim after) := by
  unfold Accepted; infer_instance

instance (w : EscrowWatcher) (error : Option String) (claim : InFlightClaim)
    (after : List EscrowEntry) : Decidable (Rejected w error claim after) := by
  unfold Rejected; infer_instance

/-- A response is about the live entries of its claim. -/
def AnswersLive (s : Sys) (op : Op) : Prop :=
  match op with
  | .submitResponse txid error pick _ => ∀ claim ∈ s.w.matchedClaim txid error pick,
    if isAcceptance error then Accepted claim (step X s op).w.entries
    else Rejected s.w error claim (step X s op).w.entries
  | _ => True

instance (s : Sys) (op : Op) : Decidable (AnswersLive (X := X) s op) := by
  unfold AnswersLive
  split <;> infer_instance

theorem duplicated_of_ne {i j : Nat} {e e' : EscrowEntry} (hij : i < j) (he : es[i]? = some e)
    (he' : es[j]? = some e') (ho : e.outpoint = e'.outpoint) : Duplicated es e'.outpoint := by
  obtain ⟨hi, rfl⟩ := List.getElem?_eq_some_iff.mp he
  obtain ⟨hj, rfl⟩ := List.getElem?_eq_some_iff.mp he'
  have hsplit : (es.filter (·.outpoint == es[j].outpoint)).length =
      ((es.take j).filter (·.outpoint == es[j].outpoint)).length +
        ((es.drop j).filter (·.outpoint == es[j].outpoint)).length := by
    rw [← List.length_append, ← List.filter_append, List.take_append_drop]
  have h1 : es[i] ∈ (es.take j).filter (·.outpoint == es[j].outpoint) := by
    refine List.mem_filter.mpr ⟨List.mem_take_iff_getElem.mpr ⟨i, by omega, rfl⟩, by simpa using ho⟩
  have h2 : es[j] ∈ (es.drop j).filter (·.outpoint == es[j].outpoint) := by
    refine List.mem_filter.mpr ⟨List.mem_drop_iff_getElem.mpr ⟨0, by omega, by simp⟩, by simp⟩
  have := List.length_pos_of_mem h1
  have := List.length_pos_of_mem h2
  unfold Duplicated
  omega

/-- The only entry of an outpoint is found. -/
theorem findEntry_of_not_duplicated {i : Nat} {e : EscrowEntry} (he : es[i]? = some e)
    (h : ¬ Duplicated es e.outpoint) : findEntry es e.outpoint = some i := by
  obtain ⟨j, hj, hji⟩ := findEntry_le he
  obtain ⟨e', he', ho⟩ := findEntry_some hj
  rcases Nat.lt_or_ge j i with hlt | hge
  · exact absurd (duplicated_of_ne hlt he' he ho) h
  · rwa [Nat.le_antisymm hji hge] at hj

theorem rejectEntry_repair {msg : String} {n : Nat} (lastDaa : Nat) (o : Outpoint) (e : EscrowEntry)
    (h : setsRepair msg n = false) : (rejectEntry msg n lastDaa o e).repair = e.repair := by
  simp only [setsRepair, Bool.or_eq_false_iff, Bool.not_eq_false', Bool.and_eq_false_iff,
    decide_eq_false_iff_not] at h
  obtain ⟨⟨⟨h1, h2⟩, h3⟩, h4⟩ := h
  simp only [rejectEntry, h1, h2, h3, Bool.false_eq_true, if_false, if_true, rejectBurned]
  split
  · split <;> rfl
  · next hb =>
    have hn : ¬ n > 1 := by tauto
    rw [if_neg hn]
    rfl

theorem answersLive_of_findsLive {op : Op} (hnd : FlightNodup s.w) (h : FindsLive s op) :
    AnswersLive (X := X) s op := by
  cases op with
  | submitResponse txid error pick io =>
    intro claim hm
    have hc := h claim hm
    have hentry := response_entry (X := X) io hnd hm
    by_cases ha : isAcceptance error = true
    · rw [if_pos ha] at hc ⊢
      intro e' he' ho
      obtain ⟨i, hi⟩ := List.mem_iff_getElem?.mp he'
      rw [hentry] at hi
      obtain ⟨e, he, hee⟩ := Option.map_eq_some_iff.mp hi
      split at hee
      · rw [← hee, answerEntry_of_acceptance ha]
        simp [claimEntry, EscrowEntry.live]
      · next hn =>
        subst hee
        by_contra hl
        have hl : e.live = true := by simpa only [Bool.not_eq_false] using hl
        exact hn ⟨ho, hc ⟨e, i⟩ (List.mk_mem_zipIdx_iff_getElem?.mpr he) hl ho⟩
    · rw [if_neg ha] at hc ⊢
      obtain ⟨msg, rfl⟩ : ∃ msg, error = some msg := by
        cases error with
        | none => exact absurd rfl ha
        | some msg => exact ⟨msg, rfl⟩
      refine ⟨response_length hnd hm, fun p hp ho => ?_⟩
      obtain ⟨i, h1, h2⟩ := getElem?_of_mem_zip hp
      rw [hentry, h1, Option.map_some] at h2
      have ha : isAcceptance (some msg) = false := by simpa using ha
      simp only [answerEntry_of_rejection ha, Option.some.injEq, ho, true_and] at h2 ⊢
      by_cases hr : setsRepair msg claim.outpoints.length = true
      · -- the outpoint has one entry, and the lookup finds it
        have hdup := hc ⟨msg, rfl, hr⟩ _ ho
        rw [if_pos (findEntry_of_not_duplicated h1 hdup)] at h2
        exact ⟨fun _ => by rw [answerEntry_of_rejection ha, h2], fun _ hd => absurd hd hdup⟩
      · -- nothing of the kind is set
        have hr := rejectEntry_repair s.w.lastDaaScore p.1.outpoint p.1 (by simpa using hr)
        have : p.2.repair = p.1.repair := by
          rw [← h2]
          split
          · exact hr
          · rfl
        exact ⟨fun _ => by rw [answerEntry_of_rejection ha, this, hr], fun _ _ => this⟩
  | _ => trivial

/-- As long as the lookup of a response finds what it is about, every response is about the live
entries of its claim. -/
theorem responses_reach_live_entries {k : Keys} {now : Nat} {evs : List Op}
    (hc : Meets (step X) FindsLive (Sys.init k now) evs) :
    Meets (step X) (AnswersLive (X := X)) (Sys.init k now) evs := by
  have hinit : (Sys.init k now).Ok ∧ FlightNodup (Sys.init k now).w :=
    ⟨.init k now, fun _ _ h => by cases h⟩
  have hs : ∀ s op, FindsLive s op → s.Ok ∧ FlightNodup s.w →
      (step X s op).Ok ∧ FlightNodup (step X s op).w :=
    fun s op _ H => ⟨H.1.step op, H.2.step op H.1⟩
  exact (hc.with_invariant hs hinit).mono fun s op H => answersLive_of_findsLive H.2.2 H.1

/-- A claim is rejected as orphan, sent again and accepted. -/
theorem responses_reach_live_entries_orphan :
    Meets (step minerExternals) (AnswersLive (X := minerExternals)) (Sys.init minerKeys 0)
      [.handleBlock (rewardBlock (hashOf 'a') (hashOf 'b') 76300000 true []) goodIo,
        .findClaim 76340000, .submitResponse minerClaimTxid (some "transaction is an orphan") 0 goodIo,
        .findClaim 76340000, .submitResponse minerClaimTxid none 0 goodIo] :=
  responses_reach_live_entries (by decide +kernel)

/-- A block is removed by a reorg and added again; the acceptance of the claim on its reward marks
the purged entry, and the other one stays claimable. -/
theorem accepted_claim_still_claimable :
    ¬ Meets (step minerExternals) (AnswersLive (X := minerExternals)) (Sys.init minerKeys 0)
      [.handleBlock (rewardBlock (hashOf 'a') (hashOf 'b') 76300000 true []) goodIo,
        .chainBlocksRemoved [hashOf 'b'] goodIo,
        .handleBlock (rewardBlock (hashOf 'a') (hashOf 'b') 76300000 true []) goodIo,
        .findClaim 76340000, .submitResponse minerClaimTxid none 0 goodIo] := by
  decide +kernel

end KeryxMiner.Escrow
