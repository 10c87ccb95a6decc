import KeryxMiner.Stratum.Basic

/-!
# Replies find their requests

A reply carries an id, and the client looks it up in the tables it keeps: the ids of its auxiliary
requests, the `mining.ai_response` in flight, the shares without an answer. `Matched` says that on
one connection the tables agree with the requests sent on it. The shares are a table of the process,
though, and a share which an earlier connection left behind is found under the id of any later
request with its number.
-/

namespace KeryxMiner.Stratum

variable {c : Client} {s s' : Session} {id : UInt32}

/-- The reply says `true`. -/
def Reply.isTrue (msg : Reply) : Bool :=
  msg.error.isNone && match msg.result with
    | .plain (some true) | .eth true _ => true
    | _ => false

/-- An error with this code counts as a rejected share. -/
def ErrorCode.counts : ErrorCode → Bool
  | .unauthorized | .notSubscribed | .other _ => false
  | _ => true

/-! ## What a reply may do -/

/-- What a reply to the share submitted with `id` does. -/
structure ShareAnswered (id : UInt32) (isTrue : Bool) (s s' : Session) : Prop where
  removed : s'.shareStats.sharesPending = s.shareStats.sharesPending.erase id
  accepted : s'.shareStats.accepted = s.shareStats.accepted + isTrue.toNat
  counters : isTrue → s'.shareStats = { s'.shareStats with
    stale := s.shareStats.stale, lowDiff := s.shareStats.lowDiff
    duplicate := s.shareStats.duplicate, invalidOpoi := s.shareStats.invalidOpoi
    invalidPom := s.shareStats.invalidPom, rejectedOther := s.shareStats.rejectedOther }
  handler : ∃ b64, s'.handler = { s.handler with
    proofEncoding := { s.handler.proofEncoding with
      b64, b64Ids := s.handler.proofEncoding.b64Ids.erase id } }

/-- What a reply to `id` does if the unanswered request sent with `id` is `request`. -/
def Attributed (request : Option Request) (id : UInt32) (isTrue : Bool) (s s' : Session) : Prop :=
  match request with
  | some .aux => ∃ on : Bool, (on → s.handler.telemetryOn) ∧
      s' = { s with handler.auxIds := s.handler.auxIds.erase id, handler.telemetryOn := on }
  | some .aiResponse => s' = { s with handler.aiResponsePending := none }
  | some (.share _ _) => ShareAnswered id isTrue s s'
  | some .subscribe => ∃ b64 extranonce nonceFixed nonceMask,
      s' = { s with
        handler.proofEncoding.b64 := b64, handler.extranonce := extranonce
        handler.nonceFixed := nonceFixed, handler.nonceMask := nonceMask }
  | some .authorize | none => s' = s

/-- The tables of the client against the requests of its connection. -/
structure Matched (c : Client) : Prop where
  aux : ∀ id ∈ c.handler.auxIds, awaiting c.wire id = some .aux
  pending : ∀ id, c.handler.aiResponsePending = some id ↔ awaiting c.wire id = some .aiResponse
  share : ∀ id job proof, awaiting c.wire id = some (.share job proof) →
    c.shareStats.sharesPending.lookup id = some job
  b64 : ∀ id ∈ c.handler.proofEncoding.b64Ids, (awaiting c.wire id).any (·.isShare)
  task : c.handler.aiTask → c.handler.aiResponsePending = none

/-- The share table has an entry under `id` although no share of this connection waits under it. -/
def Client.Left (c : Client) (id : UInt32) : Prop :=
  id ∈ c.shareStats.sharesPending ∧ ¬ (awaiting c.wire id).any (·.isShare)

/-- The tables lead the reply to its request. -/
def Client.Fits (c : Client) (msg : Reply) : Prop :=
  match msg.error, msg.id with
  | none, some id =>
    match msg.result with
    | .plain (some true) | .eth true _ => id ∈ c.handler.auxIds ∨ ¬ c.Left id
    | .subscribe .. => awaiting c.wire id = some .subscribe
    | _ => id ∈ c.handler.auxIds ∨ c.handler.aiResponsePending = some id ∨ ¬ c.Left id
  | some (code, _), some id =>
    id ∈ c.handler.auxIds ∨ c.handler.aiResponsePending = some id ∨
      (awaiting c.wire id).any (·.isShare) ∨
        id ∉ c.shareStats.sharesPending ∧ ¬ code.counts
  | _, none => True

/-- The condition on a step: a reply fits, and an id given out is not waited for any more. -/
def Client.Separate (c : Client) (e : Event) : Prop :=
  c.connected → match e with
    | .message msg => c.Fits msg
    | .submit .. | .telemetry _ | .aiOpening | .aiAnswer _ =>
      awaiting c.wire c.handler.lastStratumId = none
    | _ => True

instance : Decidable (c.Left id) := inferInstanceAs (Decidable (_ ∧ _))

instance (msg : Reply) : Decidable (c.Fits msg) := by
  unfold Client.Fits
  split
  · split <;> infer_instance
  · infer_instance
  · infer_instance

instance (e : Event) : Decidable (c.Separate e) := by
  unfold Client.Separate
  cases e <;> infer_instance

/-! ## The tables -/

namespace Session

@[simp] theorem takeAux_mem (h : id ∈ s.handler.auxIds) :
    s.takeAux id = some { s with handler.auxIds := s.handler.auxIds.erase id } := if_pos h

@[simp] theorem takeAux_not_mem (h : id ∉ s.handler.auxIds) : s.takeAux id = none := if_neg h

@[simp] theorem takeAiResponseAck_eq (h : s.handler.aiResponsePending = some id) :
    s.takeAiResponseAck id = some { s with handler.aiResponsePending := none } := if_pos h

@[simp] theorem takeAiResponseAck_ne (h : s.handler.aiResponsePending ≠ some id) :
    s.takeAiResponseAck id = none := if_neg h

@[simp] theorem removeShare_mem (h : id ∈ s.shareStats.sharesPending) :
    s.removeShare id =
      some { s with shareStats.sharesPending := s.shareStats.sharesPending.erase id } := if_pos h

@[simp] theorem removeShare_not_mem (h : id ∉ s.shareStats.sharesPending) :
    s.removeShare id = none := if_neg h

@[simp] theorem answered_not_mem (h : id ∉ s.handler.proofEncoding.b64Ids) :
    s.answered id = (false, s) := by simp [answered, h]

@[simp] theorem countError_handler {code : ErrorCode} {error : String} :
    (s.countError code error).1.handler = s.handler := by cases code <;> rfl

@[simp] theorem countError_sharesPending {code : ErrorCode} {error : String} :
    (s.countError code error).1.shareStats.sharesPending = s.shareStats.sharesPending := by
  cases code <;> rfl

@[simp] theorem countError_accepted {code : ErrorCode} {error : String} :
    (s.countError code error).1.shareStats.accepted = s.shareStats.accepted := by
  cases code <;> rfl

/-- The auxiliary requests and the `mining.ai_response` in flight do not wait under `id`. -/
structure Quiet (s : Session) (id : UInt32) : Prop where
  aux : id ∉ s.handler.auxIds
  pending : s.handler.aiResponsePending ≠ some id

theorem Quiet.handleTrue_unknown (H : s.Quiet id) (h : id ∉ s.shareStats.sharesPending)
    (hb : id ∉ s.handler.proofEncoding.b64Ids) : s.handleTrue id = s := by
  simp [handleTrue, H.aux, H.pending, h, hb]

theorem Quiet.handleOther_unknown (H : s.Quiet id) (h : id ∉ s.shareStats.sharesPending)
    (hb : id ∉ s.handler.proofEncoding.b64Ids) : s.handleOther id = s := by
  simp [handleOther, H.aux, H.pending, h, hb]

theorem Quiet.handleError_unknown {code : ErrorCode} {error : String} (H : s.Quiet id)
    (h : id ∉ s.shareStats.sharesPending) (hb : id ∉ s.handler.proofEncoding.b64Ids)
    (hc : ¬ code.counts) : (s.handleError id code error).1 = s := by
  simp only [handleError, takeAux_not_mem H.aux, takeAiResponseAck_ne H.pending,
    removeShare_not_mem h, Option.getD_none, answered_not_mem hb]
  cases code <;> simp_all [ErrorCode.counts, countError]

end Session

/-! ## One reply -/

/-- Where the client finds a reply to `id`, and what waits there. -/
inductive Place (c : Client) (id : UInt32) : Prop
  | aux (hr : awaiting c.wire id = some .aux) (h : id ∈ c.handler.auxIds)
  | aiResponse (hr : awaiting c.wire id = some .aiResponse) (haux : id ∉ c.handler.auxIds)
      (h : c.handler.aiResponsePending = some id) (hb : id ∉ c.handler.proofEncoding.b64Ids)
  | share (job : String) (proof : Option String) (hr : awaiting c.wire id = some (.share job proof))
      (hq : c.toSession.Quiet id) (h : id ∈ c.shareStats.sharesPending)
  | none (hs : ¬ (awaiting c.wire id).any (·.isShare)) (hai : awaiting c.wire id ≠ some .aiResponse)
      (hq : c.toSession.Quiet id) (hb : id ∉ c.handler.proofEncoding.b64Ids)

theorem Matched.place (H : Matched c) (id : UInt32) : Place c id := by
  by_cases haux : id ∈ c.handler.auxIds
  · exact .aux (H.aux id haux) haux
  by_cases hp : c.handler.aiResponsePending = some id
  · have hr := (H.pending id).mp hp
    exact .aiResponse hr haux hp fun hm => by simpa [hr, Request.isShare] using H.b64 id hm
  by_cases hs : (awaiting c.wire id).any (·.isShare)
  · obtain ⟨r, hr, hs⟩ : ∃ r, awaiting c.wire id = some r ∧ r.isShare := by
      simpa [Option.any_eq_true] using hs
    cases r with
    | share job proof =>
      exact .share job proof hr ⟨haux, hp⟩
        (AList.lookup_isSome.mp (by simp [H.share id job proof hr]))
    | _ => simp [Request.isShare] at hs
  · exact .none hs (fun hr => hp ((H.pending id).mpr hr)) ⟨haux, hp⟩ fun hm => hs (H.b64 id hm)

/-- No table knows the id of the reply. -/
theorem Attributed.unknown {request : Option Request} {isTrue : Bool} (haux : id ∉ s.handler.auxIds)
    (hs : ¬ request.any (·.isShare)) (hai : request ≠ some .aiResponse) :
    Attributed request id isTrue s s := by
  cases request with
  | none => rfl
  | some r =>
    cases r with
    | subscribe => exact ⟨_, _, _, _, rfl⟩
    | authorize => rfl
    | aux => exact ⟨s.handler.telemetryOn, fun h => h, by simp [haux]⟩
    | share => simp [Request.isShare] at hs
    | aiResponse => exact absurd rfl hai

theorem Matched.handleTrue (H : Matched c) (h : id ∈ c.handler.auxIds ∨ ¬ c.Left id) :
    Attributed (awaiting c.wire id) id true c.toSession (c.toSession.handleTrue id) := by
  cases H.place id with
  | aux hr haux =>
    rw [hr]
    exact ⟨_, fun h => h, by simp [Session.handleTrue, haux]⟩
  | aiResponse hr haux hp hb =>
    have hn : id ∉ c.shareStats.sharesPending := fun hm =>
      h.resolve_left haux ⟨hm, by simp [hr, Request.isShare]⟩
    simp [hr, Attributed, Session.handleTrue, haux, hp, hn, hb]
  | share job proof hr hq hm =>
    rw [hr]
    refine ⟨?_, ?_, fun _ => ?_, c.handler.proofEncoding.b64, ?_⟩ <;>
      simp [Session.handleTrue, hq.aux, Session.answered, Session.removeShare, hm]
  | none hs hai hq hb =>
    have hn : id ∉ c.shareStats.sharesPending := fun hm => h.resolve_left hq.aux ⟨hm, hs⟩
    rw [hq.handleTrue_unknown hn hb]
    exact .unknown hq.aux hs hai

theorem Matched.handleOther (H : Matched c)
    (h : id ∈ c.handler.auxIds ∨ c.handler.aiResponsePending = some id ∨ ¬ c.Left id) :
    Attributed (awaiting c.wire id) id false c.toSession (c.toSession.handleOther id) := by
  cases H.place id with
  | aux hr haux =>
    rw [hr]
    exact ⟨_, fun h => h, by simp [Session.handleOther, haux]⟩
  | aiResponse hr haux hp hb => simp [hr, Attributed, Session.handleOther, haux, hp]
  | share job proof hr hq hm =>
    rw [hr]
    by_cases hb : id ∈ c.handler.proofEncoding.b64Ids
    · refine ⟨?_, ?_, nofun, false, ?_⟩ <;>
        simp [Session.handleOther, hq.aux, hq.pending, Session.answered, Session.removeShare, hm,
          hb, Session.rejectB64]
    · refine ⟨?_, ?_, nofun, c.handler.proofEncoding.b64, ?_⟩ <;>
        simp [Session.handleOther, hq.aux, hq.pending, hm, hb]
  | none hs hai hq hb =>
    have hn : id ∉ c.shareStats.sharesPending := fun hm =>
      (h.resolve_left hq.aux).resolve_left hq.pending ⟨hm, hs⟩
    rw [hq.handleOther_unknown hn hb]
    exact .unknown hq.aux hs hai

theorem Matched.handleError {code : ErrorCode} {error : String} (H : Matched c)
    (h : id ∈ c.handler.auxIds ∨ c.handler.aiResponsePending = some id ∨
      (awaiting c.wire id).any (·.isShare) ∨ id ∉ c.shareStats.sharesPending ∧ ¬ code.counts) :
    Attributed (awaiting c.wire id) id false c.toSession
      (c.toSession.handleError id code error).1 := by
  cases H.place id with
  | aux hr haux =>
    rw [hr]
    simp only [Session.handleError, Session.takeAux_mem haux]
    split
    · exact ⟨false, by simp, rfl⟩
    · exact ⟨_, fun h => h, rfl⟩
  | aiResponse hr haux hp hb => simp [hr, Attributed, Session.handleError, haux, hp]
  | share job proof hr hq hm =>
    rw [hr]
    by_cases hb : id ∈ c.handler.proofEncoding.b64Ids
    · refine ⟨?_, ?_, nofun, false, ?_⟩ <;>
        simp [Session.handleError, hq.aux, hq.pending, Session.answered, hm, hb, Session.rejectB64]
    · refine ⟨?_, ?_, nofun, c.handler.proofEncoding.b64, ?_⟩ <;>
        simp [Session.handleError, hq.aux, hq.pending, hm, hb]
  | none hs hai hq hb =>
    obtain ⟨hn, hc⟩ := ((h.resolve_left hq.aux).resolve_left hq.pending).resolve_left hs
    rw [hq.handleError_unknown hn hb hc]
    exact .unknown hq.aux hs hai

theorem Attributed.subscribe {subscriptions : List (String × String)} {extranonce : String}
    {nonceSize : UInt32} {isTrue : Bool} : Attributed (some .subscribe) id isTrue s
      ((s.absorbSubscribe subscriptions).setExtranonce extranonce nonceSize).1 := by
  obtain ⟨b64, hb⟩ : ∃ b64, s.absorbSubscribe subscriptions =
      { s with handler.proofEncoding.b64 := b64 } := by
    simp only [Session.absorbSubscribe]
    split
    · exact ⟨_, rfl⟩
    · split
      · exact ⟨true, rfl⟩
      · exact ⟨_, rfl⟩
  simp only [hb, Session.setExtranonce]
  split
  · exact ⟨b64, some extranonce, _, _, rfl⟩
  · exact ⟨b64, some extranonce, _, _, rfl⟩

theorem Matched.handleMessage {msg : Reply} (H : Matched c) (hf : c.Fits msg)
    (hid : msg.id = some id) : Attributed (awaiting c.wire id) id msg.isTrue c.toSession
      (c.toSession.handleMessage msg).1 := by
  obtain ⟨_, result, error⟩ := msg
  cases hid
  cases error with
  | some e => exact H.handleError hf
  | none =>
    cases result with
    | plain result =>
      cases result with
      | none => exact H.handleOther hf
      | some b =>
        cases b with
        | false => exact H.handleOther hf
        | true => exact H.handleTrue hf
    | eth result message =>
      cases result with
      | false => exact H.handleOther hf
      | true => exact H.handleTrue hf
    | subscribe => exact (show awaiting c.wire id = some .subscribe from hf) ▸ .subscribe

theorem handleMessage_no_id {msg : Reply} (h : msg.id = none) : (s.handleMessage msg).1 = s := by
  obtain ⟨_, result, error⟩ := msg
  cases h
  cases error <;> rfl

/-! ## Every step keeps the tables matched -/

@[simp] theorem awaiting_request {i : UInt32} {r : Request} {wire : List Traffic} :
    awaiting (.request i r :: wire) id = if i = id then some r else awaiting wire id := rfl

@[simp] theorem awaiting_reply {i : UInt32} {wire : List Traffic} :
    awaiting (.reply i :: wire) id = if i = id then none else awaiting wire id := rfl

/-- The id is in no table any more, and nothing else has moved. -/
structure Closed (id : UInt32) (s s' : Session) : Prop where
  aux : s'.handler.auxIds = s.handler.auxIds.erase id
  b64 : s'.handler.proofEncoding.b64Ids = s.handler.proofEncoding.b64Ids.erase id
  pending : s'.handler.aiResponsePending =
    if s.handler.aiResponsePending = some id then none else s.handler.aiResponsePending
  share : ∀ i, i ≠ id → s'.shareStats.sharesPending.lookup i = s.shareStats.sharesPending.lookup i
  task : s'.handler.aiTask = s.handler.aiTask

theorem Attributed.closed {isTrue : Bool} (H : Matched c)
    (ha : Attributed (awaiting c.wire id) id isTrue c.toSession s) : Closed id c.toSession s := by
  cases H.place id with
  | aux hr h =>
    have hp : c.handler.aiResponsePending ≠ some id := by simp [H.pending, hr]
    have hb : id ∉ c.handler.proofEncoding.b64Ids := fun hm => by
      simpa [hr, Request.isShare] using H.b64 id hm
    rw [hr] at ha
    obtain ⟨on, -, rfl⟩ := ha
    constructor <;> simp [hp, hb]
  | aiResponse hr haux h hb =>
    rw [hr] at ha
    cases ha
    constructor <;> simp [haux, h, hb]
  | share job proof hr hq h =>
    rw [hr] at ha
    obtain ⟨b64, hh⟩ := ha.handler
    constructor <;>
      simp +contextual [hh, ha.removed, hq.aux, hq.pending, AList.lookup_erase_ne]
  | none hs hai hq hb =>
    cases hr : awaiting c.wire id with
    | none =>
      rw [hr] at ha
      cases ha
      constructor <;> simp [hq.aux, hq.pending, hb]
    | some r =>
      rw [hr] at ha hs hai
      cases r with
      | subscribe =>
        obtain ⟨_, _, _, _, rfl⟩ := ha
        constructor <;> simp [hq.aux, hq.pending, hb]
      | authorize =>
        cases ha
        constructor <;> simp [hq.aux, hq.pending, hb]
      | aux =>
        obtain ⟨_, _, rfl⟩ := ha
        constructor <;> simp [hq.aux, hq.pending, hb]
      | share => simp [Request.isShare] at hs
      | aiResponse => exact absurd rfl hai

theorem Closed.matched {connected : Bool} (h : Closed id c.toSession s) (H : Matched c) :
    Matched ⟨s, connected, .reply id :: c.wire⟩ where
  aux i hi := by
    obtain ⟨hne, hi⟩ := Finset.mem_erase.mp (h.aux ▸ hi)
    simp [hne.symm, H.aux i hi]
  pending i := by
    simp only [h.pending, awaiting_reply]
    split <;> split <;> simp_all [← H.pending]
  share i job proof hi := by
    simp only [awaiting_reply] at hi
    split at hi
    · cases hi
    · next hne => exact (h.share i (Ne.symm hne)).trans (H.share i job proof hi)
  b64 i hi := by
    obtain ⟨hne, hi⟩ := Finset.mem_erase.mp (h.b64 ▸ hi)
    simpa [hne.symm] using H.b64 i hi
  task ht := by
    simp [h.pending, H.task (h.task ▸ ht)]

theorem Matched.of_tables {connected : Bool} (H : Matched c)
    (haux : s.handler.auxIds = c.handler.auxIds)
    (hp : s.handler.aiResponsePending = c.handler.aiResponsePending)
    (hs : s.shareStats.sharesPending = c.shareStats.sharesPending)
    (hb : s.handler.proofEncoding.b64Ids = c.handler.proofEncoding.b64Ids)
    (ht : s.handler.aiTask → s.handler.aiResponsePending = none) :
    Matched ⟨s, connected, c.wire⟩ :=
  ⟨by simpa [haux] using H.aux, by simpa [hp] using H.pending, by simpa [hs] using H.share,
    by simpa [hb] using H.b64, ht⟩

theorem Matched.init : Matched Client.init :=
  ⟨by simp [Client.init, StratumHandler.fresh], by simp [Client.init, StratumHandler.fresh, awaiting],
    by simp [Client.init, awaiting],
    by simp [Client.init, StratumHandler.fresh, ProofEncoding.forPool], fun h => by cases h⟩

theorem Matched.connect {address : String} {helloSent : Bool} :
    Matched (c.connect address helloSent) := by
  have hwire : ∀ id, awaiting (c.connect address helloSent).wire id =
      if (2 : UInt32) = id then some .aux else if (1 : UInt32) = id then some .authorize
      else if (0 : UInt32) = id then some .subscribe else none := fun _ => rfl
  have haux : (c.connect address helloSent).handler.auxIds = {2} := by
    cases helloSent <;> rfl
  have hp : (c.connect address helloSent).handler.aiResponsePending = none := by
    cases helloSent <;> rfl
  have hb : (c.connect address helloSent).handler.proofEncoding.b64Ids = ∅ := by
    cases helloSent <;> rfl
  constructor
  · simp [haux, hwire]
  · intro id
    rw [hp, hwire]
    split_ifs <;> simp
  · intro id job proof
    rw [hwire]
    split_ifs <;> simp
  · simp [hb]
  · exact fun _ => hp

/-- A new request, whose id is in no table. -/
theorem Matched.request {connected : Bool} (r : Request) (H : Matched c)
    (hid : awaiting c.wire id = none)
    (haux : ∀ i ∈ s.handler.auxIds, i ∈ c.handler.auxIds ∨ i = id ∧ r = .aux)
    (hp : s.handler.aiResponsePending =
      if r = .aiResponse then some id else c.handler.aiResponsePending)
    (hone : r = .aiResponse → c.handler.aiResponsePending = none)
    (hs : ∀ i, i ≠ id →
      s.shareStats.sharesPending.lookup i = c.shareStats.sharesPending.lookup i)
    (hsid : ∀ job proof, r = .share job proof → s.shareStats.sharesPending.lookup id = some job)
    (hb : ∀ i ∈ s.handler.proofEncoding.b64Ids,
      i ∈ c.handler.proofEncoding.b64Ids ∨ i = id ∧ r.isShare)
    (ht : s.handler.aiTask → s.handler.aiResponsePending = none) :
    Matched ⟨s, connected, .request id r :: c.wire⟩ where
  aux i hi := by
    rcases haux i hi with hi | ⟨rfl, rfl⟩
    · have hne : id ≠ i := by
        rintro rfl
        simp [H.aux _ hi] at hid
      simp [hne, H.aux i hi]
    · simp
  pending i := by
    have := H.pending
    simp only [hp, awaiting_request]
    grind
  share i job proof hi := by
    simp only [awaiting_request] at hi
    split at hi
    · next h =>
      subst h
      exact hsid job proof (Option.some.inj hi)
    · next hne => exact (hs i (Ne.symm hne)).trans (H.share i job proof hi)
  b64 i hi := by
    rcases hb i hi with hi | ⟨rfl, h⟩
    · have hne : id ≠ i := by
        rintro rfl
        simpa [hid] using H.b64 _ hi
      simpa [hne] using H.b64 i hi
    · simpa using h
  task := ht

theorem mem_encode {p : ProofEncoding} {proof : List UInt8} {i : UInt32}
    (h : i ∈ (p.encode id proof).2.b64Ids) : i ∈ p.b64Ids ∨ i = id := by
  unfold ProofEncoding.encode at h
  split at h
  · exact .inl h
  · rcases Finset.mem_insert.mp h with h | h
    · exact .inr h
    · split at h
      · simp at h
      · exact .inl h

theorem submitShare_eq (s : Session) (seed : BlockSeed) : ∃ proof encoding,
    s.submitShare seed = ((s.handler.lastStratumId, proof), { s with
      shareStats.sharesPending :=
        s.shareStats.sharesPending.insert s.handler.lastStratumId seed.id
      handler.lastStratumId := s.handler.lastStratumId + 1
      handler.proofEncoding := encoding }) ∧
    ∀ i ∈ encoding.b64Ids, i ∈ s.handler.proofEncoding.b64Ids ∨ i = s.handler.lastStratumId := by
  unfold Session.submitShare
  by_cases h : seed.pomProof.isEmpty
  · exact ⟨none, s.handler.proofEncoding, by simp [h, Session.nextId], fun i hi => .inl hi⟩
  · exact ⟨some _, _, by simp [h, Session.nextId]; exact ⟨rfl, rfl⟩, fun i hi => mem_encode hi⟩

theorem Matched.submitShare {connected : Bool} {seed : BlockSeed} {sent : Bool} (H : Matched c)
    (hid : awaiting c.wire c.handler.lastStratumId = none) :
    let ((id, proof), s) := c.toSession.submitShare seed
    Matched ⟨{ s with handler.blockHandle := sent }, connected,
      .request id (.share seed.id proof) :: c.wire⟩ := by
  obtain ⟨proof, encoding, heq, hids⟩ := submitShare_eq c.toSession seed
  rw [heq]
  refine H.request (.share seed.id proof) hid (fun i hi => .inl hi) rfl (nofun) (fun i hi => AList.lookup_insert_ne hi)
    (fun job proof h => ?_) (fun i hi => (hids i hi).imp_right fun h => ⟨h, rfl⟩) H.task
  cases h
  exact AList.lookup_insert _

theorem Matched.sendAux {connected sent : Bool} (H : Matched c)
    (hid : awaiting c.wire c.handler.lastStratumId = none) :
    let (id, s) := c.toSession.sendAux sent
    Matched ⟨s, connected, .request id .aux :: c.wire⟩ := by
  have hids : ∀ i ∈ insert c.handler.lastStratumId
      (if c.handler.auxIds.card > 256 then ∅ else c.handler.auxIds),
      i ∈ c.handler.auxIds ∨ i = c.handler.lastStratumId ∧ Request.aux = .aux := by
    intro i hi
    split at hi <;> simp_all
    tauto
  cases sent
  all_goals
    change Matched ⟨_, connected, .request c.handler.lastStratumId .aux :: c.wire⟩
    exact H.request .aux hid hids rfl (nofun) (fun _ _ => rfl) (nofun) (fun i hi => .inl hi) H.task

theorem Matched.handleAiRequest {ready paused : Bool} (H : Matched c) :
    Matched { c with toSession := c.toSession.handleAiRequest ready paused } := by
  unfold Session.handleAiRequest
  split
  · exact H
  · split
    · exact H
    · next hbusy =>
      split
      · exact H
      · exact H.of_tables rfl rfl rfl rfl fun _ => by simp_all

theorem Matched.handle {e : Event} (H : Matched c) (hc : c.connected) (hf : c.Separate e) :
    Matched (c.handle e) := by
  replace hf := hf hc
  cases e with
  | connect => exact H
  | disconnect => exact H.of_tables rfl rfl rfl rfl H.task
  | submit seed sent =>
    simp only [Client.handle]
    split
    · exact H
    · exact H.submitShare hf
  | telemetry sent =>
    simp only [Client.handle]
    split
    · exact H
    · exact H.sendAux hf
  | aiOpening =>
    refine H.request .aux hf (fun i hi => ?_) rfl (nofun) (fun _ _ => rfl)
      (nofun) (fun i hi => .inl hi) H.task
    exact (Finset.mem_insert.mp hi).symm.imp id fun h => ⟨h, rfl⟩
  | aiRequest ready paused => exact H.handleAiRequest
  | aiAnswer outcome =>
    simp only [Client.handle]
    split
    · exact H
    · next ht =>
      have hnone : c.handler.aiResponsePending = none := H.task (by simpa using ht)
      cases outcome with
      | noTracedAnswer => exact H.of_tables rfl rfl rfl rfl (nofun)
      | unbuilt => exact H.of_tables rfl rfl rfl rfl (nofun)
      | unsent => exact H.of_tables rfl hnone.symm rfl rfl (nofun)
      | sent =>
        exact H.request .aiResponse hf (fun i hi => .inl hi) rfl (fun _ => hnone) (fun _ _ => rfl)
          (nofun) (fun i hi => .inl hi) (nofun)
  | inferenceStarts => exact H.of_tables rfl rfl rfl rfl H.task
  | inferenceEnds =>
    simp only [Client.handle]
    split
    · exact H
    · exact H.of_tables rfl rfl rfl rfl H.task
  | extranonce extranonce nonceSize =>
    simp only [Client.handle, Client.after, Session.setExtranonce]
    split <;> exact H.of_tables rfl rfl rfl rfl H.task
  | message msg =>
    simp only [Client.handle, Client.receive]
    split
    · next id hid => exact (Attributed.closed H (H.handleMessage hf hid)).matched H
    · next hid =>
      exact H.of_tables (by simp [handleMessage_no_id hid])
        (by simp [handleMessage_no_id hid])
        (by simp [handleMessage_no_id hid])
        (by simp [handleMessage_no_id hid])
        (by simpa [Client.after, handleMessage_no_id hid] using H.task)

theorem Matched.step {e : Event} (H : Matched c) (hf : c.Separate e) : Matched (c.step e) := by
  by_cases hc : c.connected
  · cases e with
    | connect => exact .connect
    | _ => simpa [Client.step, hc] using H.handle hc hf
  · cases e with
    | connect => exact .connect
    | _ => simpa [Client.step, hc] using H

/-! ## Runs over any number of connections -/

/-- The event is a `true` for a share of this connection which had no answer so far. -/
def Client.answersShare (c : Client) : Event → Bool
  | .message msg => c.connected && msg.isTrue &&
      msg.id.any fun id => (awaiting c.wire id).any (·.isShare)
  | _ => false

/-- A step treats a reply as the answer to the request sent with its id. -/
structure Client.Correct (c : Client) (e : Event) : Prop where
  attributed : ∀ msg id, c.connected → e = .message msg → msg.id = some id →
    Attributed (awaiting c.wire id) id msg.isTrue c.toSession (c.step e).toSession
  accepted : (c.step e).shareStats.accepted = c.shareStats.accepted + (c.answersShare e).toNat
  cleared : ∀ msg id, c.connected → e = .message msg → msg.id = some id →
    awaiting c.wire id = some .aiResponse → c.handler.aiResponsePending = some id ∧
      (c.step e).handler.aiResponsePending = none

theorem Attributed.accepted {request : Option Request} {isTrue : Bool} {s' : Session}
    (h : Attributed request id isTrue s s') : s'.shareStats.accepted =
      s.shareStats.accepted + (isTrue && request.any (·.isShare)).toNat := by
  cases request with
  | none =>
    cases h
    simp
  | some r =>
    cases r with
    | subscribe =>
      obtain ⟨_, _, _, _, rfl⟩ := h
      simp [Request.isShare]
    | authorize =>
      cases h
      simp [Request.isShare]
    | aux =>
      obtain ⟨_, _, rfl⟩ := h
      simp [Request.isShare]
    | share => simpa [Request.isShare] using ShareAnswered.accepted h
    | aiResponse =>
      cases h
      simp [Request.isShare]

theorem handle_accepted {e : Event} (he : ∀ msg, e ≠ .message msg) :
    (c.handle e).shareStats.accepted = c.shareStats.accepted := by
  cases e with
  | message msg => exact absurd rfl (he msg)
  | submit seed sent =>
    obtain ⟨proof, encoding, heq, -⟩ := submitShare_eq c.toSession seed
    simp only [Client.handle, heq]
    split <;> rfl
  | telemetry sent => cases sent <;> simp only [Client.handle] <;> split <;> rfl
  | aiRequest ready paused =>
    simp only [Client.handle, Session.handleAiRequest]
    split_ifs <;> rfl
  | aiAnswer outcome => cases outcome <;> simp only [Client.handle] <;> split <;> rfl
  | inferenceEnds =>
    simp only [Client.handle]
    split <;> rfl
  | extranonce =>
    simp only [Client.handle, Client.after, Session.setExtranonce]
    split <;> rfl
  | _ => rfl

theorem Matched.correct {e : Event} (H : Matched c) (hf : c.Separate e) : c.Correct e := by
  have hattr : ∀ msg id, c.connected → e = .message msg → msg.id = some id →
      Attributed (awaiting c.wire id) id msg.isTrue c.toSession (c.step e).toSession := by
    rintro msg id hc rfl hid
    have := H.handleMessage (hf hc) hid
    simpa [Client.step, hc, Client.handle, Client.receive, hid, Client.after] using this
  refine ⟨hattr, ?_, fun msg id hc he hid hr => ⟨(H.pending id).mpr hr, ?_⟩⟩
  · cases e with
    | connect address helloSent => cases helloSent <;> rfl
    | message msg =>
      by_cases hc : c.connected
      · cases hid : msg.id with
        | none =>
          simp [Client.step, hc, Client.handle, Client.receive, hid, Client.after,
            handleMessage_no_id hid, Client.answersShare]
        | some id => simpa [Client.answersShare, hc, hid] using (hattr msg id hc rfl hid).accepted
      · simp [Client.step, hc, Client.answersShare]
    | _ =>
      simp only [Client.step, Client.answersShare]
      split
      · apply handle_accepted
        intro msg he
        cases he
      · rfl
  · have := hattr msg id hc he hid
    rw [hr] at this
    exact congrArg (·.handler.aiResponsePending) this

/-- Over any number of connections, every reply is treated as the answer to the request sent with
its id, if no reply finds a share which an earlier connection left under its id. -/
theorem replies_attributed {evs : List Event} (H : Meets Client.step Client.Separate .init evs) :
    Meets Client.step Client.Correct .init evs :=
  (H.with_invariant (fun _ _ hf h => Matched.step h hf) .init).mono fun _ _ h => h.2.correct h.1

/-- A connection drops with a share and a `mining.ai_response` unanswered; on the next one the id of
the share goes to another share first. -/
theorem replies_attributed_reconnect : Meets Client.step Client.Correct .init
    [.connect "pool:5555" true, .submit ⟨"job", [1, 2, 3]⟩ true, .aiRequest true true,
      .aiAnswer .sent, .disconnect, .connect "pool:5555" true,
      .message ⟨some 0, .subscribe [("keryx.proof_encoding", "b64")] "0a" 2, none⟩,
      .submit ⟨"other", [1, 2, 3]⟩ true, .aiRequest true true, .aiAnswer .sent,
      .message ⟨some 4, .plain (some true), none⟩, .message ⟨some 3, .plain (some true), none⟩] :=
  replies_attributed (by decide +kernel)

/-- The pool replies to ids which this connection has used. -/
def Client.Used (c : Client) : Event → Bool
  | .message msg => msg.id.all fun id => c.wire.any fun
      | .request i _ => i == id
      | .reply _ => false
  | _ => true

/-- A share is left unanswered when the connection drops. On the next one its id is that of a
`mining.ai_response`, and the acceptance of the answer counts as an accepted share; the answer stays
in flight. -/
theorem reply_misattributed :
    let evs : List Event := [.connect "pool:5555" true, .submit ⟨"job", []⟩ true, .disconnect,
      .connect "pool:5555" true, .aiRequest true true, .aiAnswer .sent]
    let accepts : Event := .message ⟨some 3, .plain (some true), none⟩
    let c := run Client.step .init evs
    Meets Client.step (fun c e => c.Used e) .init (evs ++ [accepts]) ∧
      awaiting c.wire 3 = some .aiResponse ∧
      (c.step accepts).shareStats.accepted = c.shareStats.accepted + 1 ∧
      (c.step accepts).handler.aiResponsePending = some 3 ∧
      ¬ Meets Client.step Client.Correct .init (evs ++ [accepts]) := by
  intro evs accepts c
  refine ⟨by decide +kernel, by decide +kernel, by decide +kernel, by decide +kernel, fun H => ?_⟩
  have h := (Meets.concat.mp H).2.accepted
  revert h
  decide +kernel

end KeryxMiner.Stratum
