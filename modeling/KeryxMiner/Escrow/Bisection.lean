import KeryxMiner.Escrow.Clock

/-!
# The bisection of rejected claims

A rejection that does not name the culprit caps every member of the claim at half its size, and no
claim outgrows the cap of a member. A cap goes only by expiry, so the claims which contain an output
are halved by every such rejection, until the output is alone in its claim (`bisection_isolates`).

`Bisection` remembers what the rejections since the last expiry leave of an outpoint's claims.
-/

namespace KeryxMiner.Escrow

open EscrowWatcher

variable {X : Externals} {A : Effects} {w w' : EscrowWatcher} {s : Sys} {op : Op} {txid : String}
  {c claim : InFlightClaim} {es es' es'' : List EscrowEntry} {T U : List Outpoint}

/-! ## The claims that are sent -/

/-- Every outpoint of the claim has an entry, whose cap the claim keeps. -/
def WithinCaps (es : List EscrowEntry) (c : InFlightClaim) : Prop :=
  ∀ o ∈ c.outpoints, ∃ e ∈ es, e.outpoint = o ∧ c.outpoints.length ≤ e.cap

theorem findClaim_shipped {daaScore : Nat} (h : (w.findClaim X daaScore).1.Flies txid c) :
    w.Flies txid c ∨ WithinCaps (w.findClaim X daaScore).1.entries c := by
  have heal : ∀ {txid c}, (w.healVerdicts daaScore).Flies txid c → w.Flies txid c := fun hc => by
    rwa [Flies, healVerdicts_inFlight] at hc
  rcases findClaim_cases X w daaScore with h' | h' | ⟨claimTxid, tx, batch, hs, _, h'⟩ <;> rw [h'] at h ⊢
  · exact .inl h
  · exact .inl (heal h)
  · rcases ship_flies.mp h with ⟨-, rfl⟩ | ⟨-, h⟩
    · refine .inr fun o ho => ?_
      obtain ⟨e, he, rfl⟩ := List.mem_map.mp ho
      exact ⟨e, (hs.entry he).1, rfl, by simpa using hs.cap he⟩
    · exact .inl (heal h)

/-- A claim in flight was in flight before, or it keeps the caps of its entries. -/
theorem step_shipped (h : (step X s op).w.Flies txid c) :
    s.w.Flies txid c ∨ WithinCaps (step X s op).w.entries c := by
  have hcalls : (∀ now, op ≠ .restart now) → (∀ d, ¬ op.Ships d) → s.w.Flies txid c := fun hr hS => by
    obtain ⟨w', hw, hf⟩ := step_spec (X := X) (s := s) hr
    exact hw.flies hS (by rwa [Flies, hf.core.inFlight] at h)
  cases op with
  | restart now => cases h
  | findClaim daaScore => exact findClaim_shipped h
  | handleBlock block io =>
    cases hd : block.daaScore with
    | none =>
      simp only [step, Sys.handleBlock, hd] at h
      exact .inl h
    | some daaScore =>
      simp only [step, Sys.handleBlock, hd] at h ⊢
      rw [Flies, maybeFlush_flushed.core.inFlight] at h
      rw [maybeFlush_flushed.core.entries]
      refine (findClaim_shipped h).imp_left fun h => ?_
      have hm : Moves X ⟨Slashes, fun _ => True, fun _ => True, fun _ => False⟩ s.w
          ((s.w.beginBlock daaScore).scanBlock block daaScore) :=
        (beginBlock_moves daaScore trivial).trans
          (scanBlock_moves (fun _ _ _ _ _ => id) (fun _ _ _ _ _ => trivial))
      exact hm.flies (fun _ => id) h
  | _ => exact .inl (hcalls (by rintro now ⟨⟩) fun _ => id)

/-- A response takes its claim out of flight. -/
theorem response_flies {txid' : String} {error : Option String} {pick : Nat} {io : Io}
    (hm : s.w.matchedClaim txid' error pick = some claim)
    (h : (step X s (.submitResponse txid' error pick io)).w.Flies txid c) :
    s.w.Flies txid c ∧ ∃ t ≠ txid, s.w.Flies t claim := by
  obtain ⟨t, ht, hc⟩ := Option.bind_eq_some_iff.mp hm
  simp only [step, Sys.onSubmitResponse, ht, hc] at h
  rw [Flies, maybeFlush_flushed.core.inFlight, settleClaim_inFlight] at h
  obtain ⟨hne, h⟩ := dropClaim_flies.mp h
  exact ⟨h, t, hne.symm, hc⟩

/-! ## What the rejections leave -/

/-- What a run remembers: the outpoints tracked, and for each of them the largest claim that may
still contain it and the rejections since its cap last expired. -/
structure Bisection where
  tracked : List Outpoint
  limit : Outpoint → Nat
  rejections : Outpoint → Nat

def Bisection.start : Bisection := ⟨[], fun _ => maxClaimBatch, fun _ => 0⟩

/-- The rejection of a claim of `n` inputs does not name the culprit, of which there are several. -/
def halves (error : Option String) (n : Nat) : Bool :=
  match error with
  | none => false
  | some msg => unattributed msg && decide (n > 1)

/-- The claim which a call has halved. -/
def bisected (s : Sys) : Op → Option InFlightClaim
  | .submitResponse txid error pick _ =>
    (s.w.matchedClaim txid error pick).filter fun claim => halves error claim.outpoints.length
  | _ => none

def Bisection.reject (g : Bisection) (claim : InFlightClaim) : Bisection :=
  { g with
    limit := fun o => if o ∈ claim.outpoints then claim.outpoints.length / 2 else g.limit o
    rejections := fun o => if o ∈ claim.outpoints then g.rejections o + 1 else g.rejections o }

/-- The entry of `o` had a cap and has none. -/
def Uncapped (es es' : List EscrowEntry) (o : Outpoint) : Prop :=
  ∃ e ∈ es, ∃ e' ∈ es', e.outpoint = o ∧ e'.outpoint = o ∧ e.batchCap ≠ 0 ∧ e'.batchCap = 0

instance (es es' : List EscrowEntry) (o : Outpoint) : Decidable (Uncapped es es' o) := by
  unfold Uncapped; infer_instance

def Bisection.reset (g : Bisection) (es es' : List EscrowEntry) : Bisection :=
  { g with
    limit := fun o => if Uncapped es es' o then maxClaimBatch else g.limit o
    rejections := fun o => if Uncapped es es' o then 0 else g.rejections o }

def noteBisection (X : Externals) (g : Bisection) (s : Sys) (op : Op) (s' : Sys) : Bisection :=
  let g' := match bisected s op with
    | none => g
    | some claim => g.reject claim
  { g'.reset s.w.entries s'.w.entries with tracked := g.tracked ++ op.tracked X s }

/-- Each outpoint is tracked once, and a restart loads the entries as they were. -/
def SingleEntries (X : Externals) (p : Sys × Bisection) (op : Op) : Prop :=
  (p.2.tracked ++ op.tracked X p.1).Nodup ∧
    match op with
    | .restart _ => (loadState p.1.store).entries = p.1.w.entries
    | _ => True

instance (p : Sys × Bisection) (op : Op) : Decidable (SingleEntries X p op) := by
  unfold SingleEntries
  split <;> infer_instance

/-- A cap is at most another one; 0 is no cap. -/
def CapLe (cap cap' : Nat) : Prop := cap' = 0 ∨ cap ≠ 0 ∧ cap ≤ cap'

/-- No cap grows but by expiry, the claims in flight keep the caps of their entries and what the
rejections leave, and after six rejections of claims of several inputs an outpoint is alone. -/
structure Bisects (X : Externals) (p : Sys × Bisection) (op : Op) : Prop where
  shrinks : ∀ e ∈ p.1.w.entries, ∀ e' ∈ (step X p.1 op).w.entries, e'.outpoint = e.outpoint →
    CapLe e'.batchCap e.batchCap ∨
      e'.batchCap = 0 ∧ ∃ daaScore, op.Ships daaScore ∧ capExpired daaScore e = true
  capped : ∀ txid c, (step X p.1 op).w.Flies txid c → ∀ e ∈ (step X p.1 op).w.entries,
    e.outpoint ∈ c.outpoints → e.batchCap ≠ 0 → c.outpoints.length ≤ e.batchCap
  limited : ∀ txid c, (step X p.1 op).w.Flies txid c → ∀ o ∈ c.outpoints,
    c.outpoints.length ≤ (noteBisection X p.2 p.1 op (step X p.1 op)).limit o
  isolates : ∀ o, (noteBisection X p.2 p.1 op (step X p.1 op)).rejections o ≤ 6 ∧
    ((noteBisection X p.2 p.1 op (step X p.1 op)).rejections o = 6 →
      ∀ txid c, (step X p.1 op).w.Flies txid c → o ∈ c.outpoints → c.outpoints = [o])

variable {g : Bisection}

/-- The limits come from halving the full batch. -/
structure Bisection.Halved (g : Bisection) : Prop where
  nodup : g.tracked.Nodup
  fresh : ∀ o, o ∉ g.tracked → g.limit o = maxClaimBatch
  pos : ∀ o, 1 ≤ g.limit o
  halved : ∀ o, g.limit o ≤ maxClaimBatch / 2 ^ g.rejections o

/-- The limits bound the caps of the entries and the claims in flight. -/
structure Bisection.Bounds (g : Bisection) (w : EscrowWatcher) : Prop where
  listed : (w.entries.map (·.outpoint)).Sublist g.tracked
  within : ∀ e ∈ w.entries, e.cap ≤ g.limit e.outpoint
  flying : ∀ txid c, w.Flies txid c → ∀ o ∈ c.outpoints,
    o ∈ g.tracked ∧ c.outpoints.length ≤ g.limit o
  room : ∀ txid c, w.Flies txid c → ∀ e ∈ w.entries, e.outpoint ∈ c.outpoints →
    c.outpoints.length ≤ e.cap

namespace Bisection

theorem Halved.start : Bisection.start.Halved :=
  ⟨List.nodup_nil, fun _ _ => rfl, fun _ => show 1 ≤ maxClaimBatch by decide,
    fun _ => by simp [Bisection.start]⟩

theorem Halved.le (H : g.Halved) (o : Outpoint) : g.limit o ≤ maxClaimBatch :=
  (H.halved o).trans (Nat.div_le_self ..)

theorem Halved.rejections_le (H : g.Halved) (o : Outpoint) : g.rejections o ≤ 6 := by
  by_contra hlt
  have h2 : 2 ^ 7 ≤ 2 ^ g.rejections o := Nat.pow_le_pow_right (by decide) (by omega)
  have := H.pos o
  have := H.halved o
  rw [Nat.div_eq_of_lt (lt_of_lt_of_le (by decide) h2)] at this
  omega

theorem Halved.reject (H : g.Halved) (hn : claim.outpoints.length > 1)
    (hk : ∀ o ∈ claim.outpoints, o ∈ g.tracked ∧ claim.outpoints.length ≤ g.limit o) :
    (g.reject claim).Halved := by
  refine ⟨H.nodup, fun o ho => ?_, fun o => ?_, fun o => ?_⟩
  · have : o ∉ claim.outpoints := fun h => ho (hk o h).1
    simp only [Bisection.reject, this, if_false]
    exact H.fresh o ho
  · simp only [Bisection.reject]
    split
    · omega
    · exact H.pos o
  · simp only [Bisection.reject]
    split
    · next ho =>
      rw [Nat.pow_succ, ← Nat.div_div_eq_div_mul]
      exact Nat.div_le_div_right ((hk o ho).2.trans (H.halved o))
    · exact H.halved o

theorem Halved.reset (H : g.Halved) : (g.reset es es').Halved := by
  refine ⟨H.nodup, fun o ho => ?_, fun o => ?_, fun o => ?_⟩ <;> simp only [Bisection.reset]
  · simp [H.fresh o ho]
  · split
    · decide
    · exact H.pos o
  · split
    · simp
    · exact H.halved o

theorem Halved.track (H : g.Halved) (hnd : (g.tracked ++ T).Nodup) :
    { g with tracked := g.tracked ++ T }.Halved :=
  ⟨hnd, fun o ho => H.fresh o fun h => ho (List.mem_append_left _ h), H.pos, H.halved⟩

theorem le_reset (H : g.Halved) (o : Outpoint) : g.limit o ≤ (g.reset es es').limit o := by
  simp only [Bisection.reset]
  split
  · exact H.le o
  · exact le_rfl

/-- A call which is no response to a claim. -/
theorem Bounds.call (hd : Descends op T w.entries w'.entries) (hnd : (g.tracked ++ T).Nodup)
    (hfl : ∀ txid c, w'.Flies txid c → w.Flies txid c ∨ WithinCaps w'.entries c)
    (Hg : g.Halved) (H : g.Bounds w) :
    { g.reset w.entries w'.entries with tracked := g.tracked ++ T }.Bounds w' := by
  have hlisted : (w'.entries.map (·.outpoint)).Sublist (g.tracked ++ T) :=
    hd.outpoints.trans (H.listed.append_right T)
  have hwithin : ∀ e ∈ w'.entries, e.cap ≤ (g.reset w.entries w'.entries).limit e.outpoint := by
    intro e' he'
    rcases hd.source e' he' with ⟨e, he, ho, -, -, ⟨hcap, -⟩ | ⟨hcap, d, -, hx⟩⟩ | ⟨ht, -⟩
    · have hle : g.limit e.outpoint ≤ (g.reset w.entries w'.entries).limit e.outpoint :=
        le_reset Hg e.outpoint
      have := (H.within e he).trans hle
      rwa [← ho, EscrowEntry.cap, hcap]
    · have hne : e.batchCap ≠ 0 := by
        simp only [capExpired, Bool.and_eq_true, bne_iff_ne] at hx
        exact hx.1
      have hun : Uncapped w.entries w'.entries e'.outpoint := ⟨e, he, e', he', ho, rfl, hne, hcap⟩
      simp only [reset, hun, if_true]
      exact e'.cap_le
    · have hnot : e'.outpoint ∉ g.tracked := fun h => (List.nodup_append.mp hnd).2.2 _ h _ ht rfl
      have : g.limit e'.outpoint ≤ (g.reset w.entries w'.entries).limit e'.outpoint :=
        le_reset Hg e'.outpoint
      rw [Hg.fresh _ hnot] at this
      exact e'.cap_le.trans this
  have hroom : ∀ c, WithinCaps w'.entries c → ∀ e ∈ w'.entries, e.outpoint ∈ c.outpoints →
      c.outpoints.length ≤ e.cap := by
    intro c hc e he hec
    obtain ⟨e', he', ho, hlen⟩ := hc _ hec
    cases List.inj_on_of_nodup_map (hlisted.nodup hnd) he' he ho
    exact hlen
  refine ⟨hlisted, hwithin, fun txid c hc o ho => ?_, fun txid c hc e' he' ho => ?_⟩
  · rcases hfl txid c hc with hold | hnew
    · obtain ⟨hk, hlen⟩ := H.flying txid c hold o ho
      exact ⟨List.mem_append_left _ hk, hlen.trans (le_reset Hg o)⟩
    · obtain ⟨e, he, rfl, hlen⟩ := hnew o ho
      exact ⟨hlisted.subset (List.mem_map_of_mem he), hlen.trans (hwithin e he)⟩
  · rcases hfl txid c hc with hold | hnew
    · -- an entry of a claim in flight keeps its cap or loses it
      have hfull : e'.batchCap = 0 → c.outpoints.length ≤ e'.cap := fun h0 => by
        rw [EscrowEntry.cap, if_pos h0]
        exact (H.flying txid c hold _ ho).2.trans (Hg.le _)
      rcases hd.source e' he' with ⟨e, he, heo, -, -, ⟨hcap, -⟩ | ⟨h0, -⟩⟩ | ⟨-, h0⟩
      · rw [EscrowEntry.cap, hcap]
        exact H.room txid c hold e he (heo ▸ ho)
      · exact hfull h0
      · exact hfull h0
    · exact hroom c hnew e' he' ho

theorem Bounds.reset (Hg : g.Halved) (H : g.Bounds w) : (g.reset es es').Bounds w :=
  ⟨H.listed, fun e he => (H.within e he).trans (le_reset Hg _),
    fun txid c hc o ho => ⟨(H.flying txid c hc o ho).1, (H.flying txid c hc o ho).2.trans (le_reset Hg o)⟩,
    H.room⟩

end Bisection

/-! ## Responses -/

theorem answerEntry_batchCap {error : Option String} {n lastDaa : Nat} {o : Outpoint}
    {e : EscrowEntry} : (answerEntry error n lastDaa o e).batchCap =
      if halves error n = true then halvedCap n else e.batchCap := by
  cases error with
  | none => rfl
  | some msg =>
    by_cases hd : isDuplicate msg = true
    · simp [answerEntry, halves, unattributed, hd, claimEntry]
    simp only [Bool.not_eq_true] at hd
    rw [answerEntry_of_rejection hd, rejectEntry]
    simp only [halves, unattributed, hd]
    by_cases ho : isOrphan msg = true
    · by_cases hn : n > 1
      · simp [ho, hn, rejectOrphan, capAt]
      · simp only [ho, if_true, rejectOrphan, if_neg hn]
        split <;> simp [hn]
    by_cases hs : isSeqLock msg = true
    · simp [ho, hs]
    by_cases hb : isBurned msg = true
    · by_cases hset : burnedSet msg = []
      · by_cases hn : n > 1 <;> simp [ho, hs, hb, hset, hn, rejectBurned, capAt]
      · by_cases hn : namesBurned msg o = true <;> simp [ho, hs, hb, hset, hn, rejectBurned]
    · by_cases hn : n > 1 <;> simp [ho, hs, hb, hn, rejectUnknown, capAt]

theorem halvedCap_eq {n : Nat} (hn : n > 1) (hle : n ≤ maxClaimBatch) : halvedCap n = n / 2 := by
  unfold halvedCap
  unfold maxClaimBatch at hle
  omega

theorem findEntry_of_nodup {i : Nat} {e : EscrowEntry} (hnd : (es.map (·.outpoint)).Nodup)
    (he : es[i]? = some e) : findEntry es e.outpoint = some i := by
  obtain ⟨j, hj, -⟩ := findEntry_le he
  obtain ⟨e', he', ho⟩ := findEntry_some hj
  obtain ⟨hj', rfl⟩ := List.getElem?_eq_some_iff.mp he'
  obtain ⟨hi, rfl⟩ := List.getElem?_eq_some_iff.mp he
  have hj' : j < (es.map (·.outpoint)).length := by simpa
  have hi' : i < (es.map (·.outpoint)).length := by simpa
  have hij : (es.map (·.outpoint))[j] = (es.map (·.outpoint))[i] := by simpa using ho
  rw [hj, (List.Nodup.getElem_inj_iff hnd).mp hij]

/-- What a response to `claim` makes of an entry, when it has its outpoint for itself. -/
def answered (error : Option String) (claim : InFlightClaim) (lastDaa : Nat) (e : EscrowEntry) :
    EscrowEntry :=
  if e.outpoint ∈ claim.outpoints then
    answerEntry error claim.outpoints.length lastDaa e.outpoint e
  else e

theorem answered_outpoint {error : Option String} {lastDaa : Nat} {e : EscrowEntry} :
    (answered error claim lastDaa e).outpoint = e.outpoint := by
  unfold answered
  split
  · exact (answerEntry_le ..).outpoint
  · rfl

theorem answered_batchCap {error : Option String} {lastDaa : Nat} {e : EscrowEntry} :
    (answered error claim lastDaa e).batchCap =
      if e.outpoint ∈ claim.outpoints ∧ halves error claim.outpoints.length = true then
        halvedCap claim.outpoints.length
      else e.batchCap := by
  unfold answered
  split
  · next ho => simp only [answerEntry_batchCap, ho, true_and]
  · next ho => simp only [ho, false_and, if_false]

/-- When each outpoint has one entry, a response answers the entries of its claim. -/
theorem response_source {txid' : String} {error : Option String} {pick : Nat} (io : Io)
    (hfl : FlightNodup s.w) (hnd : (s.w.entries.map (·.outpoint)).Nodup)
    (hm : s.w.matchedClaim txid' error pick = some claim) :
    (step X s (.submitResponse txid' error pick io)).w.entries =
      s.w.entries.map (answered error claim s.w.lastDaaScore) := by
  refine List.ext_getElem? fun i => ?_
  rw [response_entry io hfl hm, List.getElem?_map]
  cases he : s.w.entries[i]? with
  | none => rfl
  | some e => simp [findEntry_of_nodup hnd he, answered]

theorem halves_many {error : Option String} {n : Nat} (h : halves error n = true) : n > 1 := by
  cases error with
  | none => cases h
  | some msg =>
    simp only [halves, Bool.and_eq_true, decide_eq_true_eq] at h
    exact h.2

theorem Bisection.Bounds.response {txid' : String} {error : Option String} {pick : Nat} {io : Io}
    (hfl : FlightNodup s.w) (hap : Apart s.w)
    (hm : s.w.matchedClaim txid' error pick = some claim) (Hg : g.Halved) (H : g.Bounds s.w) :
    (if halves error claim.outpoints.length = true then g.reject claim else g).Bounds
      (step X s (.submitResponse txid' error pick io)).w := by
  have hsrc := response_source (X := X) io hfl (H.listed.nodup Hg.nodup) hm
  have hother : ∀ txid c, (step X s (.submitResponse txid' error pick io)).w.Flies txid c →
      s.w.Flies txid c ∧ ∀ o ∈ c.outpoints, o ∉ claim.outpoints := fun txid c hc => by
    obtain ⟨hc, t', hne, ht'⟩ := response_flies hm hc
    exact ⟨hc, fun o ho => hap.disjoint _ _ _ _ hc ht' hne.symm o ho⟩
  have hlisted : ((step X s (.submitResponse txid' error pick io)).w.entries.map
      (·.outpoint)).Sublist g.tracked := by
    rw [hsrc, List.map_map, show (EscrowEntry.outpoint ∘ answered error claim s.w.lastDaaScore) =
      EscrowEntry.outpoint from funext fun _ => answered_outpoint]
    exact H.listed
  have hroom : ∀ txid c, (step X s (.submitResponse txid' error pick io)).w.Flies txid c →
      ∀ e ∈ (step X s (.submitResponse txid' error pick io)).w.entries, e.outpoint ∈ c.outpoints →
        c.outpoints.length ≤ e.cap := by
    rw [hsrc]
    intro txid c hc e' he' ho
    obtain ⟨e, he, rfl⟩ := List.mem_map.mp he'
    rw [answered_outpoint] at ho
    obtain ⟨hc, hne⟩ := hother txid c hc
    rw [answered, if_neg (hne _ ho)]
    exact H.room txid c hc e he ho
  split
  · next hh =>
    have hn := halves_many hh
    refine ⟨hlisted, ?_, fun txid c hc o ho => ?_, hroom⟩
    · rw [hsrc]
      intro e' he'
      obtain ⟨e, he, rfl⟩ := List.mem_map.mp he'
      simp only [answered_outpoint, Bisection.reject]
      split
      · next ho =>
        obtain ⟨t, ht⟩ := matchedClaim_flies hm
        have hle := (H.flying t claim ht _ ho).2.trans (Hg.le _)
        have hcap : (answered error claim s.w.lastDaaScore e).batchCap = claim.outpoints.length / 2 := by
          rw [answered_batchCap, if_pos ⟨ho, hh⟩, halvedCap_eq hn hle]
        rw [← hcap]
        exact EscrowEntry.cap_le_batchCap (by rw [hcap]; omega)
      · next ho =>
        rw [answered, if_neg ho]
        exact H.within e he
    · obtain ⟨hc, hne⟩ := hother txid c hc
      simp only [Bisection.reject, if_neg (hne o ho)]
      exact H.flying txid c hc o ho
  · next hh =>
    refine ⟨hlisted, ?_, fun txid c hc o ho => H.flying txid c (hother txid c hc).1 o ho, hroom⟩
    rw [hsrc]
    intro e' he'
    obtain ⟨e, he, rfl⟩ := List.mem_map.mp he'
    have hcap : (answered error claim s.w.lastDaaScore e).batchCap = e.batchCap := by
      rw [answered_batchCap, if_neg fun h => hh h.2]
    rw [answered_outpoint, EscrowEntry.cap, hcap]
    exact H.within e he

/-! ## A run -/

/-- What a run keeps of its rejections, with what keeping it needs. -/
structure BisectionOk (p : Sys × Bisection) : Prop where
  ok : p.1.Ok
  nodup : FlightNodup p.1.w
  apart : Apart p.1.w
  halved : p.2.Halved
  bounds : p.2.Bounds p.1.w

theorem BisectionOk.init (k : Keys) (now : Nat) : BisectionOk (Sys.init k now, .start) := by
  have hno : ∀ txid c, ¬ (Sys.init k now).w.Flies txid c := fun _ _ h => by cases h
  exact ⟨.init k now, fun _ _ h => (hno _ _ h).elim,
    ⟨fun _ _ h => (hno _ _ h).elim, fun _ _ _ _ h => (hno _ _ h).elim⟩, .start,
    ⟨.slnil, fun _ h => (List.not_mem_nil h).elim, fun _ _ h => (hno _ _ h).elim,
      fun _ _ h => (hno _ _ h).elim⟩⟩

theorem bisected_some (h : bisected s op = some claim) :
    claim.outpoints.length > 1 ∧ ∃ t, s.w.Flies t claim := by
  cases op with
  | submitResponse txid error pick io =>
    obtain ⟨hm, hh⟩ := Option.filter_eq_some_iff.mp h
    exact ⟨halves_many hh, matchedClaim_flies hm⟩
  | _ => cases h

theorem noteBisection_halved (hg : (g.tracked ++ op.tracked X s).Nodup) (Hg : g.Halved)
    (H : g.Bounds s.w) : (noteBisection X g s op (step X s op)).Halved := by
  unfold noteBisection
  cases hb : bisected s op with
  | none => exact Hg.reset.track hg
  | some claim =>
    obtain ⟨hn, t, ht⟩ := bisected_some hb
    exact (Hg.reject hn (H.flying t claim ht)).reset.track hg

theorem BisectionOk.step {p : Sys × Bisection} (hC : SingleEntries X p op) (H : BisectionOk p) :
    BisectionOk (instrument (Escrow.step X) (noteBisection X) p op) := by
  obtain ⟨s, g⟩ := p
  obtain ⟨hok, hfl, hap, Hg, HB⟩ := H
  refine ⟨hok.step op, hfl.step op hok, hap.step op, noteBisection_halved hC.1 Hg HB, ?_⟩
  have hcall : bisected s op = none → Descends op (op.tracked X s) s.w.entries
      (Escrow.step X s op).w.entries → (noteBisection X g s op (Escrow.step X s op)).Bounds
        (Escrow.step X s op).w := fun hb hd => by
    simp only [noteBisection, hb]
    exact .call hd hC.1 (fun txid c => step_shipped) Hg HB
  by_cases hs : ∃ txid error pick io, op = .submitResponse txid error pick io
  · obtain ⟨txid, error, pick, io, rfl⟩ := hs
    cases hm : s.w.matchedClaim txid error pick with
    | none =>
      refine hcall (by simp [bisected, hm]) ?_
      rw [response_unmatched hm]
      exact .refl
    | some claim =>
      have hb : bisected s (.submitResponse txid error pick io) =
          if halves error claim.outpoints.length = true then some claim else none := by
        simp [bisected, hm, Option.filter]
      have hg : (if halves error claim.outpoints.length = true then g.reject claim else g).Halved := by
        split
        · next hh =>
          obtain ⟨t, ht⟩ := matchedClaim_flies hm
          exact Hg.reject (halves_many hh) (HB.flying t claim ht)
        · exact Hg
      have hnote : ∀ s', noteBisection X g s (.submitResponse txid error pick io) s' =
          (if halves error claim.outpoints.length = true then g.reject claim else g).reset s.w.entries
            s'.w.entries := fun s' => by
        simp only [noteBisection, hb, Op.tracked, List.append_nil]
        by_cases hh : halves error claim.outpoints.length = true
        · simp only [hh, if_true]; rfl
        · simp only [hh, Bool.false_eq_true, if_false]; rfl
      simp only [instrument]
      rw [hnote]
      exact (Bisection.Bounds.response hfl hap hm Hg HB).reset hg
  · have hs' : ∀ txid error pick io, op ≠ .submitResponse txid error pick io :=
      fun txid error pick io h => hs ⟨txid, error, pick, io, h⟩
    refine hcall (by cases op <;> first | rfl | exact absurd rfl (hs' _ _ _ _)) ?_
    by_cases hr : ∃ now, op = .restart now
    · obtain ⟨now, rfl⟩ := hr
      have hload : (Escrow.step X s (.restart now)).w.entries = s.w.entries := hC.2
      rw [hload]
      exact .refl
    · exact step_descends (fun now h => hr ⟨now, h⟩) hs'

theorem step_shrinks {p : Sys × Bisection} (hC : SingleEntries X p op) (H : BisectionOk p)
    {e e' : EscrowEntry} (he : e ∈ p.1.w.entries) (he' : e' ∈ (step X p.1 op).w.entries)
    (ho : e'.outpoint = e.outpoint) : CapLe e'.batchCap e.batchCap ∨
      e'.batchCap = 0 ∧ ∃ daaScore, op.Ships daaScore ∧ capExpired daaScore e = true := by
  obtain ⟨s, g⟩ := p
  have hnd := H.bounds.listed.nodup H.halved.nodup
  have same : e'.batchCap = e.batchCap → CapLe e'.batchCap e.batchCap := fun h => by
    rw [h]
    exact (Nat.eq_zero_or_pos _).imp id fun h => ⟨by omega, le_rfl⟩
  have hcall : Descends op (op.tracked X s) s.w.entries (step X s op).w.entries →
      CapLe e'.batchCap e.batchCap ∨
        e'.batchCap = 0 ∧ ∃ daaScore, op.Ships daaScore ∧ capExpired daaScore e = true := fun hd => by
    rcases hd.source e' he' with ⟨a, ha, hao, hk⟩ | ⟨ht, -⟩
    · cases List.inj_on_of_nodup_map hnd ha he (hao.trans ho)
      exact hk.cap.imp (fun h => same h.1) id
    · have hmem : e.outpoint ∈ g.tracked := H.bounds.listed.subset (List.mem_map_of_mem he)
      exact absurd ho.symm ((List.nodup_append.mp hC.1).2.2 _ hmem _ ht)
  by_cases hs : ∃ txid error pick io, op = .submitResponse txid error pick io
  · obtain ⟨txid, error, pick, io, rfl⟩ := hs
    cases hm : s.w.matchedClaim txid error pick with
    | none =>
      refine hcall ?_
      rw [response_unmatched hm]
      exact .refl
    | some claim =>
      rw [response_source _ H.nodup hnd hm] at he'
      obtain ⟨a, ha, rfl⟩ := List.mem_map.mp he'
      rw [answered_outpoint] at ho
      cases List.inj_on_of_nodup_map hnd ha he ho
      by_cases hh : e.outpoint ∈ claim.outpoints ∧ halves error claim.outpoints.length = true
      · obtain ⟨t, ht⟩ := matchedClaim_flies hm
        have hn := halves_many hh.2
        have hle := H.bounds.room t claim ht e ha hh.1
        rw [answered_batchCap, if_pos hh, halvedCap_eq hn (hle.trans e.cap_le)]
        refine .inl (or_iff_not_imp_left.mpr fun h0 => ⟨by omega, ?_⟩)
        have := hle.trans (EscrowEntry.cap_le_batchCap h0)
        omega
      · exact .inl (same (by rw [answered_batchCap, if_neg hh]))
  · have hs' : ∀ txid error pick io, op ≠ .submitResponse txid error pick io :=
      fun txid error pick io h => hs ⟨txid, error, pick, io, h⟩
    by_cases hr : ∃ now, op = .restart now
    · obtain ⟨now, rfl⟩ := hr
      have hload : (step X s (.restart now)).w.entries = s.w.entries := hC.2
      refine hcall ?_
      rw [hload]
      exact .refl
    · exact hcall (step_descends (fun now h => hr ⟨now, h⟩) hs')

theorem bisects {p : Sys × Bisection} (hC : SingleEntries X p op) (H : BisectionOk p) :
    Bisects X p op := by
  have H' := H.step (X := X) hC
  refine ⟨fun e he e' he' => step_shrinks hC H he he', fun txid c hc e he ho h0 => ?_,
    fun txid c hc o ho => (H'.bounds.flying txid c hc o ho).2, fun o => ⟨H'.halved.rejections_le o, ?_⟩⟩
  · exact (H'.bounds.room txid c hc e he ho).trans (EscrowEntry.cap_le_batchCap h0)
  · intro h6 txid c hc ho
    have h1 := (H'.bounds.flying txid c hc o ho).2.trans (H'.halved.halved o)
    have hlen : c.outpoints.length ≤ 1 := by
      refine h1.trans ?_
      rw [show (instrument (step X) (noteBisection X) p op).2.rejections o = 6 from h6]
      decide
    exact outpoints_eq_singleton hlen ho

/-- When every outpoint has a single entry, the bisection converges: no cap grows but by expiry, no
claim outgrows the cap of a member or half of the last rejected claim that contained it, and after
six rejections of claims of several inputs a member is alone in every claim. -/
theorem bisection_isolates {k : Keys} {now : Nat} {evs : List Op}
    (hsingle : Meets (instrument (step X) (noteBisection X)) (SingleEntries X)
      (Sys.init k now, .start) evs) :
    Meets (instrument (step X) (noteBisection X)) (Bisects X) (Sys.init k now, .start) evs :=
  (hsingle.with_invariant (fun _ _ hC H => H.step hC) (.init k now)).mono fun _ _ H => bisects H.1 H.2

/-- A claim of two rewards is rejected as an orphan, and both are capped at 1: each is claimed alone,
one of the claims is rejected again and the other accepted. -/
theorem bisection_isolates_orphan :
    Meets (instrument (step minerExternals) (noteBisection minerExternals)) (Bisects minerExternals)
      (Sys.init minerKeys 0, .start)
      [.handleBlock (rewardBlock (hashOf 'a') (hashOf 'b') 76300000 true []) goodIo,
        .handleBlock (rewardBlock (hashOf 'd') (hashOf 'c') 76300001 true []) goodIo,
        .handleBlock (emptyBlock 76340000) goodIo,
        .submitResponse minerPairClaim.txid (some "transaction is an orphan") 0 goodIo,
        .handleBlock (emptyBlock 76340001) goodIo, .handleBlock (emptyBlock 76340002) goodIo,
        .submitResponse minerClaimTxid (some "transaction is an orphan") 0 goodIo,
        .submitResponse minerSecondClaim.txid none 0 goodIo] :=
  bisection_isolates (by decide +kernel)

end KeryxMiner.Escrow
