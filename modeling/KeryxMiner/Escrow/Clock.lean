import KeryxMiner.Escrow.Descent

/-!
# Timers and the clock they run on

The watcher measures its timeouts, cool-downs and caps from the score of the block it handled last,
and blocks of several branches and of the backfill arrive in any order. `Clock` remembers the highest
score handled, for every claim in flight the highest one when it was sent, and for every outpoint the
one at which its cool-down or its cap may end. As long as claims are sent and rejections are answered
at the highest score (`InOrder`), no claim is released and none is sent again before that
(`TimersHold`).
-/

namespace KeryxMiner.Escrow

open EscrowWatcher

variable {X : Externals} {A : Effects} {w w' : EscrowWatcher} {s : Sys} {op : Op} {txid : String}
  {c : InFlightClaim} {daaScore : Nat}

/-! ## Claims that come and go -/

/-- Without shipping, no claim comes into flight. -/
theorem Moves.flies (hS : ∀ d, ¬ A.ships d) (H : Moves X A w w') (hc : w'.Flies txid c) :
    w.Flies txid c := by
  induction H with
  | refl => exact hc
  | tail _ hm ih =>
    refine ih ?_
    cases hm.flight with
    | same hf => rwa [Flies, ← hf]
    | dropped _ _ _ hf => exact ((erase_flies hf).mp hc).2
    | shipped d _ _ _ hd => exact absurd hd (hS d)

theorem findClaim_flies (h : (w.findClaim X daaScore).1.Flies txid c) :
    w.Flies txid c ∨ c.submitDaa = daaScore ∧ (w.findClaim X daaScore).2.isSome := by
  have heal : ∀ {txid c}, (w.healVerdicts daaScore).Flies txid c → w.Flies txid c := fun hc => by
    rwa [Flies, healVerdicts_inFlight] at hc
  rcases findClaim_cases X w daaScore with h' | h' | ⟨claimTxid, tx, batch, _, _, h'⟩ <;> rw [h'] at h ⊢
  · exact .inl h
  · exact .inl (heal h)
  · rcases ship_flies.mp h with ⟨-, rfl⟩ | ⟨-, h⟩
    · exact .inr ⟨rfl, rfl⟩
    · exact .inl (heal h)

theorem dropClaim_flies {t : String} :
    (w.dropClaim t).Flies txid c ↔ txid ≠ t ∧ w.Flies txid c := by
  unfold dropClaim
  split
  · next h =>
    refine ⟨fun hc => ⟨?_, hc⟩, And.right⟩
    rintro rfl
    cases h.symm.trans hc
  · exact erase_flies rfl

theorem foldl_dropClaim_flies {ts : List String} :
    (ts.foldl dropClaim w).Flies txid c ↔ txid ∉ ts ∧ w.Flies txid c := by
  induction ts generalizing w with
  | nil => simp
  | cons t ts ih =>
    rw [List.foldl_cons, ih, dropClaim_flies, List.mem_cons, not_or]
    tauto

theorem flies_of_mem_keys (h : txid ∈ w.inFlight.keys) : ∃ c, w.Flies txid c :=
  Option.isSome_iff_exists.mp (AList.lookup_isSome.mpr (AList.mem_keys.mpr h))

theorem mem_keys_of_flies (h : w.Flies txid c) : txid ∈ w.inFlight.keys :=
  AList.mem_keys.mp (AList.lookup_isSome.mp (Option.isSome_of_eq_some h))

/-- A claim is released only when its timeout has passed. -/
theorem expireInFlight_released (hin : txid ∈ w.inFlight.keys)
    (hout : txid ∉ (w.expireInFlight daaScore).inFlight.keys) :
    ∃ c, w.Flies txid c ∧ c.submitDaa + claimResponseTimeoutDaa ≤ daaScore := by
  obtain ⟨c, hc⟩ := flies_of_mem_keys hin
  refine ⟨c, hc, ?_⟩
  by_contra hlt
  refine hout (mem_keys_of_flies (c := c) (foldl_dropClaim_flies.mpr ⟨fun hmem => ?_, hc⟩))
  have := (List.mem_filter.mp hmem).2
  unfold Flies at hc
  rw [hc] at this
  exact hlt (by simpa using this)

theorem handleBlock_flies {block : RpcBlock} {io : Io} (hd : block.daaScore = some daaScore)
    (h : (s.handleBlock X block io).1.w.Flies txid c) :
    s.w.Flies txid c ∨ c.submitDaa = daaScore ∧
      (((s.w.beginBlock daaScore).scanBlock block daaScore).findClaim X daaScore).2.isSome := by
  simp only [Sys.handleBlock, hd] at h
  unfold Flies at h
  rw [maybeFlush_flushed.core.inFlight] at h
  refine (findClaim_flies h).imp_left fun h => ?_
  have hm : Moves X ⟨Slashes, fun _ => True, fun _ => True, fun _ => False⟩ s.w
      ((s.w.beginBlock daaScore).scanBlock block daaScore) :=
    (beginBlock_moves daaScore trivial).trans
      (scanBlock_moves (fun _ _ _ _ _ => id) (fun _ _ _ _ _ => trivial))
  exact hm.flies (fun _ => id) h

/-! ## The clock -/

/-- How long the rejection of a claim of `n` inputs is to keep an entry from being tried again. -/
def nominalCooldown (msg : String) (n : Nat) (e : EscrowEntry) : Option Nat :=
  if isOrphan msg then
    if n > 1 ∨ (e.orphanRetries + 1) % 256 ≥ maxOrphanRetries then none
    else some orphanRetryCooldownBlocks
  else if isSeqLock msg then some seqLockRetryCooldownBlocks
  else if isBurned msg then none
  else some (unknownCooldown (min (e.submitRetries + 1) 255))

/-- A rejection with no reason that names the culprit. -/
def unattributed (msg : String) : Bool :=
  !isDuplicate msg && (isOrphan msg ||
    !isSeqLock msg && (!isBurned msg || decide (burnedSet msg = [])))

/-- The highest score handled, and what it was when each claim in flight was sent; for each outpoint
the highest score which ends its cool-down, and the largest claim it may be in before the one which
ends its cap. -/
structure Clock where
  high : Nat
  sentAt : String → Nat
  cool : Outpoint → Nat
  capSize : Outpoint → Nat
  capUntil : Outpoint → Nat

def Clock.start : Clock := ⟨0, fun _ => 0, fun _ => 0, fun _ => 0, fun _ => 0⟩

/-- The live entry that the answer to a claim of `o` is for. -/
def foundLive (es : List EscrowEntry) (o : Outpoint) : Option EscrowEntry :=
  ((findEntry es o).bind (es[·]?)).filter (·.live)

/-- A claim of the outpoints `os` is rejected: the timers of its entries start now. -/
def Clock.reject (t : Clock) (es : List EscrowEntry) (msg : String) (os : List Outpoint) : Clock :=
  let found := fun o => if o ∈ os then foundLive es o else none
  let caps := fun o => (found o).isSome && unattributed msg && decide (os.length > 1)
  { t with
    cool := fun o => match (found o).bind (nominalCooldown msg os.length) with
      | some cooldown => t.high + cooldown
      | none => t.cool o
    capSize := fun o => if caps o then halvedCap os.length else t.capSize o
    capUntil := fun o => if caps o then t.high + capExpiryDaa else t.capUntil o }

/-- Entries of the outpoints `os` are tracked anew, without timers. -/
def Clock.forget (t : Clock) (os : List Outpoint) : Clock :=
  { t with
    cool := fun o => if o ∈ os then 0 else t.cool o
    capUntil := fun o => if o ∈ os then 0 else t.capUntil o }

def noteClock (X : Externals) (t : Clock) (s : Sys) (op : Op) (s' : Sys) : Clock :=
  match op with
  | .handleBlock block _ =>
    match block.daaScore with
    | none => t
    | some daaScore =>
      { t.forget (op.tracked X s) with
        high := max t.high daaScore
        sentAt := fun txid =>
          if s'.w.inFlight.lookup txid = s.w.inFlight.lookup txid then t.sentAt txid
          else max t.high daaScore }
  | .submitResponse txid error pick _ =>
    match s.w.matchedClaim txid error pick, error with
    | some claim, some msg =>
      if isDuplicate msg then t else t.reject s.w.entries msg claim.outpoints
    | _, _ => t
  | .restart _ => { t with cool := fun _ => 0, capUntil := fun _ => 0 }
  | op => t.forget (op.tracked X s)

/-- The calls of a run: claims are sent and released inside `handle_block` only. -/
def Op.Clocked : Op → Prop
  | .findClaim _ | .expireInFlight _ => False
  | _ => True

instance (op : Op) : Decidable op.Clocked := by
  unfold Op.Clocked
  split <;> infer_instance

/-- A block at which a claim is due has the highest score so far, and so has the block handled last
when a rejection arrives that sets a timer. -/
def InOrder (p : Sys × Clock) : Op → Prop
  | .handleBlock block _ => ∀ daaScore ∈ block.daaScore,
    (((p.1.w.beginBlock daaScore).scanBlock block daaScore).findClaim X daaScore).2.isSome →
      p.2.high ≤ daaScore
  | .submitResponse txid error pick _ => ∀ claim ∈ p.1.w.matchedClaim txid error pick,
    (∃ msg ∈ error, isDuplicate msg = false ∧ setsRepair msg claim.outpoints.length = true) →
      p.2.high ≤ p.1.w.lastDaaScore
  | _ => True

instance (p : Sys × Clock) (op : Op) : Decidable (InOrder (X := X) p op) := by
  apply Op.casesOn (motive := fun op => Decidable (InOrder (X := X) p op)) op <;> intros <;>
    unfold InOrder <;> infer_instance

/-- A claim of `n` inputs, `o` among them, comes after the cool-down of `o`, and it keeps the cap of `o`
as long as that lasts. -/
def Clock.Allows (t : Clock) (n : Nat) (o : Outpoint) : Prop :=
  t.cool o ≤ t.high ∧ (t.high < t.capUntil o → n ≤ t.capSize o)

instance (t : Clock) (n : Nat) (o : Outpoint) : Decidable (t.Allows n o) := by
  unfold Clock.Allows; infer_instance

/-- A claim is released only when the highest score has gone up by the timeout since it was sent, and
a claim is sent only of outpoints whose cool-downs have run for their nominal length from the highest
score, within the caps that have not. -/
def TimersHold (p : Sys × Clock) (op : Op) : Prop :=
  match op with
  | .handleBlock block _ =>
    (∀ daaScore ∈ block.daaScore, ∀ txid ∈ p.1.w.inFlight.keys,
      txid ∉ ((p.1.w.seeDaa daaScore).expireInFlight daaScore).inFlight.keys →
        p.2.sentAt txid + claimResponseTimeoutDaa ≤ max p.2.high daaScore) ∧
    ∀ tx ∈ sent X p.1 op, ∀ input ∈ tx.inputs, ∀ o ∈ input.previousOutpoint,
      (noteClock X p.2 p.1 op (step X p.1 op)).Allows tx.inputs.length o
  | _ => True

instance (p : Sys × Clock) (op : Op) : Decidable (TimersHold (X := X) p op) := by
  apply Op.casesOn (motive := fun op => Decidable (TimersHold (X := X) p op)) op <;> intros <;>
    unfold TimersHold <;> infer_instance

/-- No claim in flight was sent before the highest score of that moment. -/
def SentAtHigh (p : Sys × Clock) : Prop :=
  ∀ txid c, p.1.w.Flies txid c → p.2.sentAt txid ≤ c.submitDaa

theorem sentAtHigh_step {p : Sys × Clock} (hop : op.Clocked) (hc : InOrder (X := X) p op)
    (H : SentAtHigh p) : SentAtHigh (instrument (step X) (noteClock X) p op) := by
  obtain ⟨s, t⟩ := p
  by_cases hb : ∃ block io, op = .handleBlock block io
  · obtain ⟨block, io, rfl⟩ := hb
    cases hd : block.daaScore with
    | none =>
      have hs : step X s (.handleBlock block io) = s := by simp [step, Sys.handleBlock, hd]
      simpa [instrument, hs, noteClock, hd] using H
    | some daaScore =>
      intro txid c hcl
      simp only [instrument, noteClock, hd]
      split
      · next heq => exact H txid c (heq.symm.trans hcl)
      · next hne =>
        rcases handleBlock_flies hd hcl with hold | ⟨hsub, hdue⟩
        · exact absurd (hcl.trans hold.symm) hne
        · have := hc daaScore hd hdue
          simp only at this
          omega
  · have hold : ∀ txid c, (step X s op).w.Flies txid c → s.w.Flies txid c := by
      by_cases hr : ∃ now, op = .restart now
      · obtain ⟨now, rfl⟩ := hr
        intro txid c hcl
        cases hcl
      · obtain ⟨w', hw, hf⟩ := step_spec (X := X) (s := s) fun now h => hr ⟨now, h⟩
        intro txid c hcl
        refine hw.flies (fun d => ?_) (by rwa [Flies, ← hf.core.inFlight])
        cases op <;> first | exact id | exact hop.elim | exact absurd ⟨_, _, rfl⟩ hb
    have hnote : (noteClock X t s op (step X s op)).sentAt = t.sentAt := by
      cases op with
      | handleBlock => exact absurd ⟨_, _, rfl⟩ hb
      | submitResponse =>
        simp only [noteClock]
        split
        · split <;> rfl
        · rfl
      | _ => rfl
    intro txid c hcl
    simp only [instrument, hnote]
    exact H txid c (hold txid c hcl)

/-! ## The timers -/

/-- The live entries are not to be tried again before their cool-down ends, and they keep their cap as
long as it lasts. -/
structure Timed (es : List EscrowEntry) (t : Clock) : Prop where
  cool : ∀ e ∈ es, e.live = true → t.cool e.outpoint ≤ e.orphanRetryAfterDaa.getD 0
  cap : ∀ e ∈ es, e.live = true → t.high < t.capUntil e.outpoint →
    e.batchCap ≠ 0 ∧ e.batchCap ≤ t.capSize e.outpoint ∧
      t.capUntil e.outpoint ≤ e.capSetDaa + capExpiryDaa

variable {es es' : List EscrowEntry} {t : Clock} {T : List Outpoint} {claim : InFlightClaim}

/-- What a call keeps of the timers, when it sees no score beyond the highest. -/
theorem Timed.descends {high : Nat} (sentAt : String → Nat) (hd : Descends op T es es')
    (hhigh : t.high ≤ high) (hships : ∀ d, op.Ships d → d ≤ high) (H : Timed es t) :
    Timed es' { t.forget T with high := high, sentAt := sentAt } := by
  refine ⟨fun e' he' hl => ?_, fun e' he' hl hlt => ?_⟩ <;>
    rcases hd.source e' he' with ⟨e, he, ho, hk⟩ | ⟨ht, -⟩
  · simp only [Clock.forget]
    split
    · exact Nat.zero_le _
    · rw [hk.retryAfter, ← ho]
      exact H.cool e he (hk.live hl)
  · simp [Clock.forget, ht]
  · simp only [Clock.forget] at hlt ⊢
    split at hlt
    · exact absurd hlt (Nat.not_lt_zero _)
    · next hnt =>
      rw [if_neg hnt, ← ho]
      rw [← ho] at hlt
      obtain ⟨h1, h2, h3⟩ := H.cap e he (hk.live hl) (hhigh.trans_lt hlt)
      rcases hk.cap with ⟨hcap, hset⟩ | ⟨-, d, hship, hexpired⟩
      · rw [hcap, hset]
        exact ⟨h1, h2, h3⟩
      · have := hships d hship
        simp only [capExpired, Bool.and_eq_true, decide_eq_true_eq] at hexpired
        omega
  · simp [Clock.forget, ht] at hlt

/-- Of the entries of an outpoint only the last may be live; so a live one is found first or not at
all. -/
theorem foundLive_of_live {i : Nat} {e : EscrowEntry} (hll : LiveLast es) (he : es[i]? = some e)
    (hl : e.live = true) :
    (findEntry es e.outpoint = some i ∧ foundLive es e.outpoint = some e) ∨
      (findEntry es e.outpoint ≠ some i ∧ foundLive es e.outpoint = none) := by
  obtain ⟨j, hj, hji⟩ := findEntry_le he
  by_cases hij : j = i
  · subst hij
    exact .inl ⟨hj, by simp [foundLive, hj, he, hl]⟩
  · obtain ⟨a, ha, ho⟩ := findEntry_some hj
    have hdead := hll.dead (by omega) ha he ho
    refine .inr ⟨by simpa [hj] using hij, ?_⟩
    simp only [foundLive, hj, Option.bind_some, ha, Option.filter, hdead, Bool.false_eq_true, if_false]

/-- The cool-down that a rejection sets runs from the highest score, when that is the last one. -/
theorem rejectEntry_cool {msg : String} {n lastDaa high : Nat} {o : Outpoint} {e : EscrowEntry}
    (h : setsRepair msg n = true → high ≤ lastDaa) :
    match nominalCooldown msg n e with
      | some d => high + d ≤ (rejectEntry msg n lastDaa o e).orphanRetryAfterDaa.getD 0
      | none => (rejectEntry msg n lastDaa o e).live = true →
        (rejectEntry msg n lastDaa o e).orphanRetryAfterDaa = e.orphanRetryAfterDaa := by
  unfold nominalCooldown rejectEntry
  simp only [setsRepair] at h
  by_cases ho : isOrphan msg
  · simp only [ho, Bool.true_or, forall_const, if_true] at h ⊢
    by_cases hn : n > 1
    · simp [hn, rejectOrphan, capAt]
    · by_cases hr : (e.orphanRetries + 1) % 256 ≥ maxOrphanRetries
      · simp [hr, hn, rejectOrphan]
      · simp only [hr, hn, or_self, if_false, rejectOrphan, Option.getD_some]
        omega
  by_cases hs : isSeqLock msg
  · simp_all
  by_cases hb : isBurned msg
  · simp only [ho, hs, hb, Bool.false_eq_true, if_false, if_true, rejectBurned]
    split
    · split <;> simp
    · split <;> simp [capAt]
  · rw [if_neg ho, if_neg hs, if_neg hb, rejectUnknown]
    by_cases hn : n > 1
    · simp_all [capAt]
    · rw [if_neg hn]
      simp_all

theorem rejectEntry_cap {msg : String} {n : Nat} (lastDaa : Nat) {o : Outpoint} {e : EscrowEntry}
    (hd : isDuplicate msg = false) :
    if unattributed msg && decide (n > 1) then
      (rejectEntry msg n lastDaa o e).batchCap = halvedCap n ∧
        (rejectEntry msg n lastDaa o e).capSetDaa = lastDaa
    else (rejectEntry msg n lastDaa o e).batchCap = e.batchCap ∧
      (rejectEntry msg n lastDaa o e).capSetDaa = e.capSetDaa := by
  unfold unattributed rejectEntry
  by_cases hn : n > 1
  · by_cases ho : isOrphan msg
    · simp [hd, ho, hn, rejectOrphan, capAt]
    by_cases hs : isSeqLock msg
    · simp [ho, hs]
    by_cases hb : isBurned msg
    · by_cases hset : burnedSet msg = []
      · simp [hd, ho, hs, hb, hn, hset, rejectBurned, capAt]
      · by_cases hnames : namesBurned msg o <;> simp [ho, hs, hb, hset, hnames, rejectBurned]
    · simp [hd, ho, hs, hb, hn, rejectUnknown, capAt]
  · rw [if_neg (by simp [hn])]
    by_cases ho : isOrphan msg
    · rw [if_pos ho, rejectOrphan, if_neg hn]
      by_cases hr : (e.orphanRetries + 1) % 256 ≥ maxOrphanRetries <;> simp [hr]
    by_cases hs : isSeqLock msg
    · simp [ho, hs]
    by_cases hb : isBurned msg
    · by_cases hset : burnedSet msg = []
      · simp [ho, hs, hb, hn, hset, rejectBurned]
      · by_cases hnames : namesBurned msg o <;> simp [ho, hs, hb, hset, hnames, rejectBurned]
    · simp [ho, hs, hb, hn, rejectUnknown]

/-- A rejection that caps is one that sets a timer. -/
theorem setsRepair_of_unattributed {msg : String} {n : Nat}
    (h : (unattributed msg && decide (n > 1)) = true) : setsRepair msg n = true := by
  simp only [unattributed, setsRepair, Bool.and_eq_true, Bool.or_eq_true] at h ⊢
  tauto

/-- A live entry behind a rejection is one that the rejection found, with its timers, or is as it was. -/
theorem exists_of_rejection {msg : String} {lastDaa : Nat} {e' : EscrowEntry} (hll : LiveLast es)
    (hes : ∀ i, es'[i]? = es[i]?.map fun e =>
      if e.outpoint ∈ claim.outpoints ∧ findEntry es e.outpoint = some i then
        rejectEntry msg claim.outpoints.length lastDaa e.outpoint e
      else e)
    (he' : e' ∈ es') (hl : e'.live = true) :
    ∃ e ∈ es, e.outpoint = e'.outpoint ∧ e.live = true ∧
      (e' = e ∧ (e'.outpoint ∈ claim.outpoints → foundLive es e'.outpoint = none) ∨
        e'.outpoint ∈ claim.outpoints ∧ foundLive es e'.outpoint = some e ∧
          e' = rejectEntry msg claim.outpoints.length lastDaa e.outpoint e) := by
  obtain ⟨i, hi⟩ := List.mem_iff_getElem?.mp he'
  rw [hes] at hi
  obtain ⟨e, he, hee⟩ := Option.map_eq_some_iff.mp hi
  have hle : e.Le (rejectEntry msg claim.outpoints.length lastDaa e.outpoint e) := rejectEntry_le ..
  split at hee
  · next hin =>
    subst hee
    have hlive := hle.live hl
    refine ⟨e, List.mem_of_getElem? he, hle.outpoint.symm, hlive, .inr ⟨?_, ?_, rfl⟩⟩
    · rw [hle.outpoint]
      exact hin.1
    · rw [hle.outpoint]
      exact ((foundLive_of_live hll he hlive).resolve_right fun h => h.1 hin.2).2
  · next hout =>
    subst hee
    refine ⟨e, List.mem_of_getElem? he, rfl, hl, .inl ⟨rfl, fun ho => ?_⟩⟩
    exact ((foundLive_of_live hll he hl).resolve_left fun h => hout ⟨ho, h.1⟩).2

/-- A rejection starts the timers of the live entries it finds, and leaves the others alone. -/
theorem Timed.reject {msg : String} {lastDaa : Nat} (hll : LiveLast es)
    (hd : isDuplicate msg = false) (hhigh : setsRepair msg claim.outpoints.length = true → t.high ≤ lastDaa)
    (hes : ∀ i, es'[i]? = es[i]?.map fun e =>
      if e.outpoint ∈ claim.outpoints ∧ findEntry es e.outpoint = some i then
        rejectEntry msg claim.outpoints.length lastDaa e.outpoint e
      else e)
    (H : Timed es t) : Timed es' (t.reject es msg claim.outpoints) := by
  refine ⟨fun e' he' hl => ?_, fun e' he' hl hlt => ?_⟩ <;>
    obtain ⟨e, he, ho, hlive, ⟨rfl, hnone⟩ | ⟨hin, hfound, rfl⟩⟩ := exists_of_rejection hll hes he' hl
  · have hsame : (t.reject es msg claim.outpoints).cool e'.outpoint = t.cool e'.outpoint := by
      by_cases hin : e'.outpoint ∈ claim.outpoints <;> simp [Clock.reject, hin, hnone]
    rw [hsame]
    exact H.cool e' he hlive
  · have hcool := rejectEntry_cool (o := e.outpoint) (e := e) hhigh
    simp only [Clock.reject, hin, if_true, hfound, Option.bind_some]
    cases hnominal : nominalCooldown msg claim.outpoints.length e with
    | some cooldown => simpa only [hnominal] using hcool
    | none =>
      simp only [hnominal] at hcool ⊢
      rw [hcool hl, ← ho]
      exact H.cool e he hlive
  · have hsame : (t.reject es msg claim.outpoints).capUntil e'.outpoint = t.capUntil e'.outpoint ∧
        (t.reject es msg claim.outpoints).capSize e'.outpoint = t.capSize e'.outpoint := by
      by_cases hin : e'.outpoint ∈ claim.outpoints <;> simp [Clock.reject, hin, hnone]
    rw [hsame.1, hsame.2]
    rw [hsame.1] at hlt
    exact H.cap e' he hlive hlt
  · have hcap := rejectEntry_cap lastDaa (n := claim.outpoints.length) (o := e.outpoint) (e := e) hd
    simp only [Clock.reject, hin, if_true, hfound, Option.isSome_some, Bool.true_and] at hlt ⊢
    split at hcap
    · next hcaps =>
      have hset := hhigh (setsRepair_of_unattributed hcaps)
      have hpos : halvedCap claim.outpoints.length ≠ 0 := by unfold halvedCap; omega
      rw [if_pos hcaps] at hlt ⊢
      rw [if_pos hcaps, hcap.1, hcap.2]
      exact ⟨hpos, le_rfl, by omega⟩
    · next hcaps =>
      rw [if_neg hcaps] at hlt ⊢
      rw [if_neg hcaps, hcap.1, hcap.2, ← ho]
      rw [← ho] at hlt
      exact H.cap e he hlive hlt

/-- An acceptance takes entries out of the live ones. -/
theorem Timed.accept {lastDaa : Nat} {error : Option String} (ha : isAcceptance error = true)
    (hes : ∀ i, es'[i]? = es[i]?.map fun e =>
      if e.outpoint ∈ claim.outpoints ∧ findEntry es e.outpoint = some i then
        answerEntry error claim.outpoints.length lastDaa e.outpoint e
      else e)
    (H : Timed es t) : Timed es' t := by
  have hback : ∀ e' ∈ es', e'.live = true → e' ∈ es := by
    intro e' he' hl
    obtain ⟨i, hi⟩ := List.mem_iff_getElem?.mp he'
    rw [hes] at hi
    obtain ⟨e, he, hee⟩ := Option.map_eq_some_iff.mp hi
    split at hee
    · rw [answerEntry_of_acceptance ha] at hee
      subst hee
      simp [claimEntry, EscrowEntry.live] at hl
    · exact hee ▸ List.mem_of_getElem? he
  exact ⟨fun e he hl => H.cool e (hback e he hl) hl, fun e he hl => H.cap e (hback e he hl) hl⟩

theorem Timed.step {p : Sys × Clock} (hop : op.Clocked) (hok : p.1.Ok) (hnd : FlightNodup p.1.w)
    (hc : InOrder (X := X) p op) (H : Timed p.1.w.entries p.2) :
    Timed (Escrow.step X p.1 op).w.entries (noteClock X p.2 p.1 op (Escrow.step X p.1 op)) := by
  obtain ⟨s, t⟩ := p
  have hquiet : (∀ d, ¬ op.Ships d) → Descends op (op.tracked X s) s.w.entries
      (Escrow.step X s op).w.entries → Timed (Escrow.step X s op).w.entries
        (t.forget (op.tracked X s)) := fun hS hd =>
    Timed.descends t.sentAt hd le_rfl (fun d h => absurd h (hS d)) H
  cases op with
  | handleBlock block io =>
    cases hd : block.daaScore with
    | none =>
      have hstay : Escrow.step X s (.handleBlock block io) = s := by
        simp [Escrow.step, Sys.handleBlock, hd]
      simpa [hstay, noteClock, hd] using H
    | some daaScore =>
      simp only [noteClock, hd]
      exact Timed.descends _ (step_descends (by simp) (by simp)) (le_max_left ..)
        (fun d h => by cases hd.symm.trans h; exact le_max_right ..) H
  | submitResponse txid error pick io =>
    cases hm : s.w.matchedClaim txid error pick with
    | none =>
      rw [response_unmatched hm]
      simpa [noteClock, hm] using H
    | some claim =>
      have hentry := response_entry (X := X) io hnd hm
      cases error with
      | none => simpa only [noteClock, hm] using H.accept rfl hentry
      | some msg =>
        simp only [noteClock, hm]
        cases hdup : isDuplicate msg with
        | true =>
          rw [if_pos rfl]
          exact H.accept (show isAcceptance (some msg) = true from hdup) hentry
        | false =>
          rw [if_neg Bool.false_ne_true]
          refine H.reject hok.tracked.liveLast hdup (fun hs => hc claim hm ⟨msg, rfl, hdup, hs⟩)
            fun i => (hentry i).trans ?_
          have hreject : isAcceptance (some msg) = false := by simpa [isAcceptance] using hdup
          simp only [answerEntry_of_rejection hreject]
  | restart now =>
    exact ⟨fun _ _ _ => Nat.zero_le _, fun _ _ _ h => absurd h (Nat.not_lt_zero _)⟩
  | findClaim => exact hop.elim
  | expireInFlight => exact hop.elim
  | _ => exact hquiet (fun _ => id) (step_descends (by simp) (by simp))

/-- Each input of a claim that is sent spends a live entry, past its cool-down, whose cap the claim
keeps. -/
theorem sent_input {tx : RpcTransaction} (h : sent X s op = some tx) :
    ∃ daaScore, op.Ships daaScore ∧ ∀ input ∈ tx.inputs, ∃ e ∈ (step X s op).w.entries,
      input.previousOutpoint = some e.outpoint ∧ e.live = true ∧
        e.orphanRetryAfterDaa.getD 0 ≤ daaScore ∧ tx.inputs.length ≤ e.cap := by
  have hr : ∀ now, op ≠ .restart now := by
    rintro now rfl
    cases h
  obtain ⟨A, w₁, w', -, -, hsends, hf⟩ := step_sends (X := X) (s := s) hr
  rw [h] at hsends
  cases hsends with
  | @claim daaScore txid batch _ hd hs hb hw =>
    obtain ⟨metas, csv, hbuilt⟩ := exists_built hb
    obtain ⟨script, reused, htx⟩ := hbuilt.tx
    have hlen : tx.inputs.length = batch.length := by
      rw [htx, List.length_zipWith, ← hbuilt.inputs.length_eq, Nat.min_self]
    have hentries : (step X s op).w.entries = w₁.entries := by
      rw [hf.core.entries, hw]
      rfl
    refine ⟨daaScore, hd, fun input hin => ?_⟩
    rw [htx] at hin
    obtain ⟨i, hi⟩ := List.mem_iff_getElem?.mp hin
    obtain ⟨e, m, he, -, hinput⟩ := List.getElem?_zipWith_eq_some.mp hi
    have hmem := List.mem_of_getElem? he
    obtain ⟨hin, hel⟩ := hs.entry hmem
    refine ⟨e, hentries ▸ hin, by rw [← hinput]; rfl, eligible_live hel, eligible_retryAfter hel, ?_⟩
    rw [hlen]
    exact hs.cap hmem

theorem timersHold_of_inOrder {p : Sys × Clock} (hop : op.Clocked) (hok : p.1.Ok)
    (hnd : FlightNodup p.1.w) (hc : InOrder (X := X) p op) (hsent : SentAtHigh p)
    (H : Timed p.1.w.entries p.2) : TimersHold (X := X) p op := by
  have H' := H.step hop hok hnd hc
  obtain ⟨s, t⟩ := p
  cases op with
  | handleBlock block io =>
    refine ⟨fun daaScore hd txid hin hout => ?_, fun tx htx input hinput o ho => ?_⟩
    · obtain ⟨c, hcl, hle⟩ := expireInFlight_released (w := s.w.seeDaa daaScore) hin hout
      have := hsent txid c hcl
      simp only at this ⊢
      omega
    · obtain ⟨daaScore, hd, hall⟩ := sent_input htx
      obtain ⟨e, he, heo, hl, hretry, hcap⟩ := hall input hinput
      cases heo.symm.trans ho
      have hhigh : daaScore ≤
          (noteClock X t s (.handleBlock block io) (step X s (.handleBlock block io))).high := by
        rw [noteClock, show block.daaScore = some daaScore from hd]
        exact le_max_right ..
      refine ⟨(H'.cool e he hl).trans (hretry.trans hhigh), fun hlt => ?_⟩
      obtain ⟨h0, hsize, -⟩ := H'.cap e he hl hlt
      exact hcap.trans ((EscrowEntry.cap_le_batchCap h0).trans hsize)
  | _ => trivial

/-- As long as claims are sent and rejections are answered at the highest score so far, no timer runs
out before its nominal length, counted from the highest score. -/
theorem timers_run_their_length {k : Keys} {now : Nat} {evs : List Op}
    (hops : ∀ op ∈ evs, op.Clocked)
    (hc : Meets (instrument (step X) (noteClock X)) (InOrder (X := X)) (Sys.init k now, .start) evs) :
    Meets (instrument (step X) (noteClock X)) (TimersHold (X := X)) (Sys.init k now, .start) evs := by
  let P : Sys × Clock → Prop := fun p =>
    ((p.1.Ok ∧ FlightNodup p.1.w) ∧ SentAtHigh p) ∧ Timed p.1.w.entries p.2
  have hno : ∀ txid c, ¬ (Sys.init k now).w.Flies txid c := fun _ _ h => by cases h
  have hinit : P (Sys.init k now, .start) :=
    ⟨⟨⟨.init k now, fun _ _ h => (hno _ _ h).elim⟩, fun _ _ h => (hno _ _ h).elim⟩,
      fun _ _ _ => Nat.zero_le _, fun _ _ _ h => absurd h (Nat.not_lt_zero _)⟩
  have hs : ∀ p op, InOrder (X := X) p op ∧ op.Clocked → P p →
      P (instrument (step X) (noteClock X) p op) := fun p op hC H =>
    ⟨⟨⟨H.1.1.1.step op, H.1.1.2.step op H.1.1.1⟩, sentAtHigh_step hC.2 hC.1 H.1.2⟩,
      H.2.step hC.2 H.1.1.1 H.1.1.2 hC.1⟩
  exact ((hc.and (Meets.of_forall hops)).with_invariant hs hinit).mono
    fun p op H => timersHold_of_inOrder H.1.2 H.2.1.1.1 H.2.1.1.2 H.1.1 H.2.1.2 H.2.2

/-- A claim times out and is sent again; it is rejected, its cool-down runs, and it is sent once more,
with the scores in order. -/
theorem timers_run_their_length_in_order :
    Meets (instrument (step minerExternals) (noteClock minerExternals))
      (TimersHold (X := minerExternals)) (Sys.init minerKeys 0, .start)
      [.handleBlock (rewardBlock (hashOf 'a') (hashOf 'b') 76300000 true []) goodIo,
        .handleBlock (emptyBlock 76340000) goodIo, .handleBlock (emptyBlock 76340600) goodIo,
        .submitResponse minerClaimTxid (some "transaction is not standard") 0 goodIo,
        .handleBlock (emptyBlock 76340700) goodIo, .handleBlock (emptyBlock 76340800) goodIo] :=
  timers_run_their_length (by decide +kernel) (by decide +kernel)

/-- The tip is at 76350000 when the backfill delivers a reward and then a block at 76340000, at which
its claim is sent; a block at 76340600 releases it. -/
theorem claim_released_early :
    ¬ Meets (instrument (step minerExternals) (noteClock minerExternals))
      (TimersHold (X := minerExternals)) (Sys.init minerKeys 0, .start)
      [.handleBlock (emptyBlock 76350000) goodIo,
        .handleBlock (rewardBlock (hashOf 'a') (hashOf 'b') 76300000 true []) goodIo,
        .handleBlock (emptyBlock 76340000) goodIo, .handleBlock (emptyBlock 76340600) goodIo] := by
  decide +kernel

end KeryxMiner.Escrow
