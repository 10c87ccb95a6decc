import KeryxMiner.Requests.Basic
import KeryxMiner.Runs

/-!
# No request twice

The queue holds no request twice, and neither the running one nor one that is answered. All of it
rests on the queue being a part of `ai_seen_prefixes`, which every change of the two keeps; the
running request is another matter, since a set that grows too large is filled again from the queue
alone.
-/

namespace KeryxMiner.Requests

open Text
open scoped List

variable {E : Externals} {c : Client} {e : Event} {h : KeryxdHandler} {r : QueuedRequest}
  {tx : Transaction} {blockDaa : Nat} {readyIds : List (List UInt8)}

namespace KeryxdHandler

/-- The ids in the queue. -/
def ids (h : KeryxdHandler) : List String := h.aiRequestQueue.map (·.stableId)

structure QueueOk (h : KeryxdHandler) : Prop where
  nodup : h.ids.Nodup
  running : ∀ job ∈ h.inference, job.stableId ∉ h.ids
  answered : ∀ sid ∈ h.aiAnsweredByMe, sid ∉ h.ids

/-- The invariant: what is queued has been seen. -/
structure Ok (h : KeryxdHandler) : Prop extends QueueOk h where
  seen : ∀ sid ∈ h.ids, sid ∈ h.aiSeenPrefixes

/-- The request which a scanned transaction adds to the queue. -/
def queued (E : Externals) (blockDaa : Nat) (readyIds : List (List UInt8)) (h : KeryxdHandler)
    (tx : Transaction) : Option QueuedRequest :=
  match tx.request E blockDaa readyIds with
  | none => none
  | some (r, _) =>
    if r.stableId ∈ h.aiAnsweredByMe ∨ r.stableId ∈ h.aiSeenPrefixes then none else some r

theorem queued_eq_some {r : QueuedRequest} : h.queued E blockDaa readyIds tx = some r ↔
    (∃ reward, tx.request E blockDaa readyIds = some (r, reward)) ∧
      r.stableId ∉ h.aiAnsweredByMe ∧ r.stableId ∉ h.aiSeenPrefixes := by
  cases hr : tx.request E blockDaa readyIds with
  | none => simp [queued, hr]
  | some p =>
    simp only [queued, hr]
    split
    · next hor =>
      simp only [reduceCtorEq, false_iff, not_and, not_not]
      rintro ⟨reward, ⟨⟩⟩ hans
      exact hor.resolve_left hans
    · next hor =>
      rw [not_or] at hor
      constructor
      · rintro ⟨⟩
        exact ⟨⟨_, rfl⟩, hor⟩
      · rintro ⟨⟨reward, ⟨⟩⟩, -⟩
        rfl

/-! ## The steps -/

/-- The queue gets shorter. -/
theorem Ok.shorten {queue : List QueuedRequest} (ok : h.Ok) (hsub : queue <+ h.aiRequestQueue) :
    Ok { h with aiRequestQueue := queue } := by
  have hids : queue.map (·.stableId) <+ h.ids := hsub.map _
  refine ⟨⟨ok.nodup.sublist hids, ?_, ?_⟩, ?_⟩
  · intro job hjob hmem
    exact ok.running job hjob (hids.subset hmem)
  · intro sid hsid hmem
    exact ok.answered sid hsid (hids.subset hmem)
  · intro sid hsid
    exact ok.seen sid (hids.subset hsid)

theorem Ok.noteOwnAnswer {sid : String} (ok : h.Ok) : (h.noteOwnAnswer sid).Ok := by
  have hshort : Ok { h with aiRequestQueue := h.aiRequestQueue.filter (·.stableId ≠ sid) } :=
    ok.shorten List.filter_sublist
  refine ⟨⟨hshort.nodup, hshort.running, ?_⟩, hshort.seen⟩
  intro sid' hsid' hmem
  rcases Finset.mem_insert.mp hsid' with rfl | hsid'
  · obtain ⟨r, hr, hid⟩ := List.mem_map.mp hmem
    have := (List.mem_filter.mp hr).2
    simp [hid] at this
  · exact hshort.answered sid' hsid' hmem

theorem Ok.noteOwnAnswers {txs : List Transaction} (ok : h.Ok) : (h.noteOwnAnswers E txs).Ok := by
  rw [KeryxdHandler.noteOwnAnswers]
  split
  · exact ok
  next mine _ =>
  have hfold : Ok ((txs.filterMap (·.ownAnsweredRequestId E mine)).foldl
      KeryxdHandler.noteOwnAnswer h) :=
    run_invariant_of_step (fun _ _ ok => ok.noteOwnAnswer) ok
  dsimp only
  split
  · exact ⟨⟨hfold.nodup, hfold.running, by simp⟩, hfold.seen⟩
  · exact hfold

/-- A request which was not seen and does not run is added. -/
theorem Ok.enqueue (ok : h.Ok) (hans : r.stableId ∉ h.aiAnsweredByMe)
    (hseen : r.stableId ∉ h.aiSeenPrefixes) (hrun : ∀ job ∈ h.inference, job.stableId ≠ r.stableId) :
    (h.enqueue r).Ok := by
  have hsub : (trimQueue (h.aiRequestQueue ++ [r])).map (·.stableId) <+ h.ids ++ [r.stableId] := by
    have hsub : trimQueue (h.aiRequestQueue ++ [r]) <+ h.aiRequestQueue ++ [r] :=
      List.drop_sublist ..
    simpa [ids] using hsub.map (·.stableId)
  have hnew : r.stableId ∉ h.ids := fun hmem => hseen (ok.seen _ hmem)
  have hmem (sid : String) (hsid : sid ∈ (h.enqueue r).ids) : sid ∈ h.ids ∨ sid = r.stableId := by
    simpa using hsub.subset hsid
  refine ⟨⟨?_, ?_, ?_⟩, ?_⟩
  · apply List.Nodup.sublist hsub
    rw [List.nodup_append]
    refine ⟨ok.nodup, List.nodup_singleton _, ?_⟩
    intro a ha b hb
    rw [List.mem_singleton.mp hb]
    rintro rfl
    exact hnew ha
  · intro job hjob hjobid
    rcases hmem _ hjobid with hold | hr
    · exact ok.running job hjob hold
    · exact hrun job hjob hr
  · intro sid hsid hsidid
    rcases hmem _ hsidid with hold | rfl
    · exact ok.answered sid hsid hold
    · exact hans hsid
  · intro sid hsid
    simp only [KeryxdHandler.enqueue]
    split
    · exact List.mem_toFinset.mpr hsid
    · rcases hmem _ hsid with hold | rfl
      · exact Finset.mem_insert_of_mem (ok.seen sid hold)
      · exact Finset.mem_insert_self ..

theorem Ok.noteReward {sid : String} {txidHex : Option String} {reward : Nat} (ok : h.Ok) :
    (h.noteReward sid txidHex reward).Ok := by
  simp only [KeryxdHandler.noteReward]
  split
  · split
    · exact ⟨⟨ok.nodup, ok.running, ok.answered⟩, ok.seen⟩
    · exact ok
  · exact ok

/-- A scanned transaction, unless it adds the running request. -/
theorem Ok.scanTx (ok : h.Ok) (hrun : ∀ r, h.queued E blockDaa readyIds tx = some r →
    ∀ job ∈ h.inference, job.stableId ≠ r.stableId) : (h.scanTx E blockDaa readyIds tx).Ok := by
  rw [KeryxdHandler.scanTx]
  split
  · exact ok
  next r reward hreq =>
  split
  · exact ok
  next hans =>
  dsimp only
  apply Ok.noteReward
  split
  · exact ok
  · next hseen =>
    have hq : h.queued E blockDaa readyIds tx = some r :=
      queued_eq_some.mpr ⟨⟨reward, hreq⟩, hans, hseen⟩
    exact ok.enqueue hans hseen (hrun r hq)

theorem Ok.tryStartInference {busy attention modelReady : Bool} {tier : Option Nat} (ok : h.Ok) :
    (h.tryStartInference busy attention modelReady tier).Ok := by
  rw [KeryxdHandler.tryStartInference]
  split
  · exact ok
  next hidle =>
  have hnone : h.inference = none := by
    cases hi : h.inference with
    | none => rfl
    | some job => simp [hi] at hidle
  split
  · exact ok.shorten (List.nil_sublist _)
  next r queue hdrop =>
  have hall : r :: queue <+ h.aiRequestQueue := hdrop ▸ List.dropWhile_sublist _
  have hshort := ok.shorten ((List.sublist_cons_self r queue).trans hall)
  have hfront : r.stableId ∉ queue.map (·.stableId) := by
    have := (ok.shorten hall).nodup
    exact (List.nodup_cons.mp this).1
  have hstarted (job : InferenceJob) (hjob : job.stableId = r.stableId) :
      Ok { h with aiRequestQueue := queue, inference := some job } := by
    refine ⟨⟨hshort.nodup, ?_, hshort.answered⟩, hshort.seen⟩
    rintro _ ⟨⟩
    rw [hjob]
    exact hfront
  dsimp only
  split
  · exact hstarted _ rfl
  split
  · exact hshort
  · exact hstarted _ rfl

/-! ## Connections -/

theorem restoreParked_eq {h : KeryxdHandler} {queue : List QueuedRequest} :
    queue.foldl (fun (h : KeryxdHandler) r => { h with
      aiSeenPrefixes := insert r.stableId h.aiSeenPrefixes
      aiRequestQueue := h.aiRequestQueue ++ [r] }) h =
    { h with
      aiSeenPrefixes := h.aiSeenPrefixes ∪ queueIds queue
      aiRequestQueue := h.aiRequestQueue ++ queue } := by
  induction queue generalizing h with
  | nil => simp [queueIds]
  | cons r queue ih =>
    rw [List.foldl_cons, ih]
    simp [queueIds, Finset.insert_union]

end KeryxdHandler

/-- The parked work is as a handler leaves it. -/
structure Parked.Ok (p : Parked) : Prop where
  nodup : (p.queue.map (·.stableId)).Nodup
  running : ∀ job ∈ p.inference, job.stableId ∉ p.queue.map (·.stableId)

theorem Parked.Ok.restore {pubkey : Option (List UInt8)} {parked : Option Parked}
    (hp : ∀ p ∈ parked, p.Ok) : ((KeryxdHandler.fresh pubkey).restoreParked parked).Ok := by
  cases parked with
  | none => exact ⟨⟨List.nodup_nil, nofun, by simp [KeryxdHandler.restoreParked, KeryxdHandler.fresh]⟩,
      nofun⟩
  | some p =>
    obtain ⟨hnd, hrun⟩ := hp p rfl
    simp only [KeryxdHandler.restoreParked, KeryxdHandler.restoreParked_eq]
    split
    · exact ⟨⟨hnd, nofun, by simp [KeryxdHandler.fresh]⟩,
        by simp [KeryxdHandler.ids, KeryxdHandler.fresh, KeryxdHandler.queueIds]⟩
    · next job hjob =>
      refine ⟨⟨hnd, ?_, by simp [KeryxdHandler.fresh]⟩, ?_⟩
      · rintro _ ⟨⟩
        exact hrun job hjob
      · intro sid hsid
        apply Finset.mem_insert_of_mem
        simpa [KeryxdHandler.fresh, KeryxdHandler.queueIds, KeryxdHandler.ids] using hsid

/-! ## Runs -/

/-- A condition on every transaction of a scan, in the state in which the scan reaches it. -/
def ScanMeets (E : Externals)
    (C : Nat → List (List UInt8) → KeryxdHandler → Transaction → Prop) (c : Client) : Event → Prop
  | .scan blockDaa readyIds txs => ∀ h ∈ c.handler,
      Meets (fun h tx => h.scanTx E blockDaa readyIds tx) (C blockDaa readyIds)
        (h.noteOwnAnswers E txs) txs
  | _ => True

/-- When the running request comes again, its id is still among those seen or answered. -/
def Remembered (E : Externals) : Client → Event → Prop :=
  ScanMeets E fun blockDaa readyIds h tx => ∀ r ∈ tx.request E blockDaa readyIds,
    ∀ job ∈ h.inference, job.stableId = r.1.stableId →
      r.1.stableId ∈ h.aiSeenPrefixes ∨ r.1.stableId ∈ h.aiAnsweredByMe

/-- After the step the queue holds no request twice, and none that runs or is answered; and each
request which the step added was neither queued nor running. -/
def QueuedOnce (E : Externals) (c : Client) (e : Event) : Prop :=
  (∀ h ∈ (c.step E e).handler, h.QueueOk) ∧
    ScanMeets E (fun blockDaa readyIds h tx => ∀ r ∈ h.queued E blockDaa readyIds tx,
      r.stableId ∉ h.ids ∧ ∀ job ∈ h.inference, job.stableId ≠ r.stableId) c e

structure Client.Ok (c : Client) : Prop where
  handler : ∀ h ∈ c.handler, h.Ok
  parked : ∀ p ∈ c.parked, p.Ok

/-- A request which is remembered is not added while it runs. -/
theorem queued_ne_running {r : QueuedRequest} (hq : h.queued E blockDaa readyIds tx = some r)
    (hrem : ∀ r ∈ tx.request E blockDaa readyIds, ∀ job ∈ h.inference, job.stableId = r.1.stableId →
      r.1.stableId ∈ h.aiSeenPrefixes ∨ r.1.stableId ∈ h.aiAnsweredByMe) :
    ∀ job ∈ h.inference, job.stableId ≠ r.stableId := by
  intro job hjob hid
  obtain ⟨⟨reward, hreq⟩, hans, hseen⟩ := KeryxdHandler.queued_eq_some.mp hq
  rcases hrem _ hreq job hjob hid with hmem | hmem
  · exact hseen hmem
  · exact hans hmem

theorem Client.Ok.step (ok : c.Ok) (he : Remembered E c e) : (c.step E e).Ok := by
  obtain ⟨handler, parked⟩ := c
  cases handler with
  | none =>
    cases e with
    | connect pubkey =>
      refine ⟨?_, nofun⟩
      rintro _ ⟨⟩
      exact Parked.Ok.restore ok.parked
    | _ => exact ok
  | some h =>
    have hok : h.Ok := ok.handler h rfl
    cases e with
    | connect pubkey => exact ok
    | drop =>
      simp only [Client.step]
      split
      · exact ⟨nofun, ok.parked⟩
      · refine ⟨nofun, ?_⟩
        rintro _ ⟨⟩
        exact ⟨hok.nodup, hok.running⟩
    | scan blockDaa readyIds txs =>
      refine ⟨?_, ok.parked⟩
      rintro _ ⟨⟩
      simp only [KeryxdHandler.scanTxsForAiRequests]
      split
      · exact hok.noteOwnAnswers
      · refine run_invariant (P := KeryxdHandler.Ok) ?_ hok.noteOwnAnswers (he h rfl)
        intro h tx hrem hok
        exact hok.scanTx fun r hq => queued_ne_running hq hrem
    | start busy attention modelReady tier =>
      refine ⟨?_, ok.parked⟩
      rintro _ ⟨⟩
      exact hok.tryStartInference
    | finished =>
      refine ⟨?_, ok.parked⟩
      rintro _ ⟨⟩
      exact ⟨⟨hok.nodup, nofun, hok.answered⟩, hok.seen⟩

theorem ScanMeets.mono {C D : Nat → List (List UInt8) → KeryxdHandler → Transaction → Prop}
    (hCD : ∀ blockDaa readyIds h tx, C blockDaa readyIds h tx → D blockDaa readyIds h tx)
    (hC : ScanMeets E C c e) : ScanMeets E D c e := by
  cases e with
  | scan blockDaa readyIds txs =>
    intro h hh
    exact (hC h hh).mono fun h tx => hCD blockDaa readyIds h tx
  | _ => trivial

theorem Client.Ok.queuedOnce (ok : c.Ok) (he : Remembered E c e) : QueuedOnce E c e := by
  refine ⟨fun h hh => ((ok.step he).handler h hh).toQueueOk, ?_⟩
  cases e with
  | scan blockDaa readyIds txs =>
    intro h hh
    have hstep (h : KeryxdHandler) (tx : Transaction)
        (hrem : ∀ r ∈ tx.request E blockDaa readyIds, ∀ job ∈ h.inference,
          job.stableId = r.1.stableId →
            r.1.stableId ∈ h.aiSeenPrefixes ∨ r.1.stableId ∈ h.aiAnsweredByMe)
        (hok : h.Ok) : (h.scanTx E blockDaa readyIds tx).Ok :=
      hok.scanTx fun r hq => queued_ne_running hq hrem
    apply ((he h hh).with_invariant hstep (ok.handler h hh).noteOwnAnswers).mono
    rintro h tx ⟨hrem, hok⟩ r hq
    refine ⟨?_, queued_ne_running hq hrem⟩
    intro hmem
    exact (KeryxdHandler.queued_eq_some.mp hq).2.2 (hok.seen _ hmem)
  | _ => trivial

/-- A request which would be added while it runs shows that it is not remembered. -/
theorem QueuedOnce.remembered (he : QueuedOnce E c e) : Remembered E c e := by
  apply he.2.mono
  intro blockDaa readyIds h tx hfresh r hreq job hjob hid
  by_contra hnot
  rw [not_or] at hnot
  have hq : h.queued E blockDaa readyIds tx = some r.1 :=
    KeryxdHandler.queued_eq_some.mpr ⟨⟨r.2, hreq⟩, hnot.2, hnot.1⟩
  exact (hfresh r.1 hq).2 job hjob hid

/-- No request is queued twice, nor while it runs or when it is answered, exactly in the runs in
which the running request is remembered. -/
theorem requests_queued_once (E : Externals) (evs : List Event) :
    Meets (Client.step E) (QueuedOnce E) .init evs ↔
      Meets (Client.step E) (Remembered E) .init evs := by
  constructor
  · intro hmeets
    exact hmeets.mono fun _ _ he => he.remembered
  · intro hmeets
    have hinit : Client.init.Ok := ⟨nofun, nofun⟩
    apply (hmeets.with_invariant (fun _ _ he ok => ok.step he) hinit).mono
    rintro c e ⟨he, ok⟩
    exact ok.queuedOnce he

/-! ## A flood of requests -/

/-- Payloads are taken as they are. -/
def plainExternals : Externals where
  deserializeRequest raw := some ⟨[], 0, 0, raw⟩
  deserializeResponse _ := none
  isPrivate _ := false
  openPrivateRequest _ := none
  parseKrxAiPayload _ := none
  fromUtf8Lossy _ := ""
  blake2b raw := raw
  rewardRoutingActivationDaa := 1

/-- The request number `i`. -/
def floodTx (i : Nat) : Transaction where
  subnetworkId := subnetworkIdAiRequestHex
  payload := hexEncode [UInt8.ofNat (i / 256), UInt8.ofNat i]
  hasInputs := true
  transactionId := none
  computedTxid := none

def floodId (i : Nat) : String := hexEncode [UInt8.ofNat (i / 256), UInt8.ofNat i]

theorem request_floodTx {i : Nat} : (floodTx i).request plainExternals 0 [[]] =
    some (⟨floodId i, [UInt8.ofNat (i / 256), UInt8.ofNat i], [], "", 2, 0, none⟩, 0) := by
  simp only [Transaction.request, Transaction.extract, floodTx, decoded, hexDecode_hexEncode]
  rfl

theorem floodId_inj {i j : Nat} (hi : i < 65536) (hj : j < 65536) (h : floodId i = floodId j) :
    i = j := by
  have hbytes := hexEncode_inj h
  simp only [List.cons.injEq, and_true, ← UInt8.toNat_inj, UInt8.toNat_ofNat'] at hbytes
  omega

theorem card_image_floodId {n : Nat} (hn : n ≤ 65536) :
    ((Finset.range n).image floodId).card = n := by
  rw [Finset.card_image_of_injOn, Finset.card_range]
  intro i hi j hj hij
  have hi' := Finset.mem_range.mp hi
  have hj' := Finset.mem_range.mp hj
  exact floodId_inj (by omega) (by omega) hij

theorem scanTx_floodTx {i : Nat} (hans : h.aiAnsweredByMe = ∅) (hseen : floodId i ∉ h.aiSeenPrefixes) :
    ∃ r, r.stableId = floodId i ∧ h.scanTx plainExternals 0 [[]] (floodTx i) = h.enqueue r := by
  refine ⟨⟨floodId i, [UInt8.ofNat (i / 256), UInt8.ofNat i], [], "", 2, 0, none⟩, rfl, ?_⟩
  simp only [KeryxdHandler.scanTx, request_floodTx, hans, Finset.notMem_empty, if_false,
    if_neg hseen]
  rfl

/-- `n` requests after the first one are scanned. -/
def flooded (h : KeryxdHandler) (n : Nat) : KeryxdHandler :=
  ((List.range n).map fun i => floodTx (i + 1)).foldl
    (fun h tx => h.scanTx plainExternals 0 [[]] tx) h

theorem flooded_succ {n : Nat} : flooded h (n + 1) =
    (flooded h n).scanTx plainExternals 0 [[]] (floodTx (n + 1)) := by
  simp [flooded, List.range_succ]

theorem card_insert_floodId {n : Nat} (hn : n + 2 ≤ 65536)
    (hseen : h.aiSeenPrefixes = (Finset.range (n + 1)).image floodId) :
    (insert (floodId (n + 1)) h.aiSeenPrefixes).card = n + 2 ∧
      floodId (n + 1) ∉ h.aiSeenPrefixes := by
  have hcard : (insert (floodId (n + 1)) h.aiSeenPrefixes).card = n + 2 := by
    rw [hseen, ← Finset.image_insert, ← Finset.range_add_one, card_image_floodId hn]
  refine ⟨hcard, ?_⟩
  intro hmem
  rw [Finset.insert_eq_of_mem hmem, hseen, card_image_floodId (by omega)] at hcard
  omega

/-- The requests after the first one fill `ai_seen_prefixes` up to its bound. -/
theorem seen_flood {n : Nat} (hn : n < maxAiSeenIds) (hans : h.aiAnsweredByMe = ∅)
    (hseen : h.aiSeenPrefixes = {floodId 0}) :
    (flooded h n).aiSeenPrefixes = (Finset.range (n + 1)).image floodId ∧
      (flooded h n).aiAnsweredByMe = ∅ ∧ (flooded h n).inference = h.inference := by
  induction n with
  | zero => simp [flooded, hseen, hans]
  | succ n ih =>
    obtain ⟨ih1, ih2, ih3⟩ := ih (by omega)
    simp only [maxAiSeenIds] at hn
    obtain ⟨hcard, hnew⟩ := card_insert_floodId (by omega) ih1
    obtain ⟨r, hr, hscan⟩ := scanTx_floodTx ih2 hnew
    rw [flooded_succ, hscan]
    refine ⟨?_, ih2, ih3⟩
    simp only [KeryxdHandler.enqueue, hr, hcard]
    rw [if_neg (by simp only [maxAiSeenIds]; omega), ih1, ← Finset.image_insert,
      ← Finset.range_add_one]

/-- One more request, and only those in the queue are remembered. -/
theorem seen_overflow {n : Nat} (hn : n + 1 = maxAiSeenIds) (hans : h.aiAnsweredByMe = ∅)
    (hseen : h.aiSeenPrefixes = {floodId 0}) :
    (flooded h (n + 1)).aiSeenPrefixes =
        KeryxdHandler.queueIds (flooded h (n + 1)).aiRequestQueue ∧
      (flooded h (n + 1)).aiAnsweredByMe = ∅ ∧
        (flooded h (n + 1)).inference = h.inference := by
  obtain ⟨hfull, hans', hinf⟩ := seen_flood (n := n) (by omega) hans hseen
  have hsmall : n + 2 ≤ 65536 := by
    simp only [maxAiSeenIds] at hn
    omega
  obtain ⟨hcard, hnew⟩ := card_insert_floodId hsmall hfull
  obtain ⟨r, hr, hscan⟩ := scanTx_floodTx hans' hnew
  rw [flooded_succ, hscan]
  refine ⟨?_, hans', hinf⟩
  simp only [KeryxdHandler.enqueue, hr, hcard]
  exact if_pos (by omega)

/-- The client while the first request of the flood runs. -/
def floodRunning : KeryxdHandler where
  aiRequestQueue := []
  aiSeenPrefixes := {floodId 0}
  aiAnsweredByMe := ∅
  aiRequestTxids := ∅
  inference := some ⟨floodId 0, [0, 0], [], 0, none, none⟩
  pubkey := none

theorem run_floodRunning : run (Client.step plainExternals) .init
    [.connect none, .scan 0 [[]] [floodTx 0], .start false false true none] =
      ⟨some floodRunning, none⟩ := by
  rfl

theorem pubkey_scanTx : (h.scanTx E blockDaa readyIds tx).pubkey = h.pubkey := by
  simp only [KeryxdHandler.scanTx, KeryxdHandler.noteReward, KeryxdHandler.enqueue]
  repeat' split
  all_goals rfl

theorem pubkey_flooded {n : Nat} : (flooded h n).pubkey = h.pubkey := by
  induction n with
  | zero => rfl
  | succ n ih => rw [flooded_succ, pubkey_scanTx, ih]

theorem step_flood {n : Nat} (hpub : h.pubkey = none) : Client.step plainExternals ⟨some h, none⟩
    (.scan 0 [[]] ((List.range n).map fun i => floodTx (i + 1))) = ⟨some (flooded h n), none⟩ := by
  simp [Client.step, KeryxdHandler.scanTxsForAiRequests, KeryxdHandler.noteOwnAnswers, hpub, flooded]

/-- What a scan of the first request needs of the state before. -/
theorem remembered_floodTx (hpub : h.pubkey = none)
    (hrem : Remembered plainExternals ⟨some h, none⟩ (.scan 0 [[]] [floodTx 0])) :
    ∀ job ∈ h.inference, job.stableId = floodId 0 →
      floodId 0 ∈ h.aiSeenPrefixes ∨ floodId 0 ∈ h.aiAnsweredByMe := by
  have hown : h.noteOwnAnswers plainExternals [floodTx 0] = h := by
    simp [KeryxdHandler.noteOwnAnswers, hpub]
  have hscan := hrem h rfl
  rw [hown] at hscan
  exact hscan.1 _ request_floodTx

theorem flood_forgets {n : Nat} (hn : n = maxAiSeenIds) :
    ¬Meets (Client.step plainExternals) (QueuedOnce plainExternals) .init
      [.connect none, .scan 0 [[]] [floodTx 0], .start false false true none,
        .scan 0 [[]] ((List.range n).map fun i => floodTx (i + 1)), .scan 0 [[]] [floodTx 0]] := by
  intro hmeets
  obtain ⟨hflood, hlast, -⟩ : Meets (Client.step plainExternals) (QueuedOnce plainExternals)
      ⟨some floodRunning, none⟩ [.scan 0 [[]] ((List.range n).map fun i => floodTx (i + 1)),
        .scan 0 [[]] [floodTx 0]] := by
    rw [← run_floodRunning]
    exact hmeets.2.2.2
  rw [step_flood rfl] at hlast
  have hok : (flooded floodRunning n).QueueOk := by
    apply hflood.1
    rw [step_flood rfl]
    rfl
  obtain ⟨m, rfl⟩ : ∃ m, n = m + 1 := ⟨n - 1, by simp [hn, maxAiSeenIds]⟩
  obtain ⟨hseen, hans, hinf⟩ := seen_overflow (h := floodRunning) hn rfl rfl
  rcases remembered_floodTx pubkey_flooded hlast.remembered _ hinf rfl with hin | hin
  · rw [hseen] at hin
    exact hok.running _ hinf (List.mem_toFinset.mp hin)
  · rw [hans] at hin
    cases hin

/-- A flood of other requests makes the client forget the running one, which it queues again. -/
theorem running_request_queued_again :
    ¬Meets (Client.step plainExternals) (QueuedOnce plainExternals) .init
      [.connect none, .scan 0 [[]] [floodTx 0], .start false false true none,
        .scan 0 [[]] ((List.range maxAiSeenIds).map fun i => floodTx (i + 1)),
        .scan 0 [[]] [floodTx 0]] := flood_forgets rfl

end KeryxMiner.Requests
