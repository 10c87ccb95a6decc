import KeryxMiner.Work.WatchSteps

/-!
# Runs of the watch channel

What the receivers are given in any run: the values sent in their order, none more than twice
(`delivered`). A value can come twice: the number of the change is loaded before the value is read,
so that the read can be of a newer value, which the next call finds unseen. Left to themselves the
threads come to rest, with every receiver that still sleeps up to date (`comes_to_rest`).
-/

namespace KeryxMiner.Work.Watch

variable {ι κ T : Type} {hist : History ι T} {receiver : Receiver T} {ds : List (Delivery T)}

/-! ## Deliveries -/

/-- What receivers were given, oldest first, is in the order of the values, each at least as new as
the change observed for it, and observed after the one before was there. -/
structure Reads (hist : History ι T) (receiver : Receiver T) (ds : List (Delivery T)) : Prop where
  value : ∀ d ∈ ds, hist.sent[d.index]? = some d.value
  fresh : ∀ d ∈ ds, d.id ≤ d.index + 1
  past : ∀ d ∈ ds, d.index + 1 ≤ hist.published
  order : ds.Pairwise fun d d' => d.id < d'.id ∧ d.index + 1 ≤ d'.id
  observed : receiver.lastObserved ≤ hist.published
  last : receiver.pc.reads = false → receiver.lastObserved = (ds.getLast?.map (·.id)).getD 0
  next : receiver.pc.reads = true →
    ∀ d ∈ ds, d.id < receiver.lastObserved ∧ d.index + 1 ≤ receiver.lastObserved

namespace Reads

theorem move (h : Reads hist receiver ds) (hpc : receiver.pc.reads = false)
    {pc : ReceiverPc T} (hpc' : pc.reads = false) : Reads hist ⟨pc, receiver.lastObserved⟩ ds where
  __ := h
  last _ := h.last hpc
  next hr := by simp [hpc'] at hr

/-- More values are sent. -/
theorem mono {hist' : History ι T} (h : Reads hist receiver ds) (hs : hist.sent <+: hist'.sent)
    (hp : hist.published ≤ hist'.published) : Reads hist' receiver ds where
  __ := h
  value d hd := by
    obtain ⟨rest, hrest⟩ := hs
    rw [← hrest, List.getElem?_append_left, h.value d hd]
    exact (List.getElem?_eq_some_iff.mp (h.value d hd)).1
  past d hd := (h.past d hd).trans hp
  observed := h.observed.trans hp

/-- What was given last was observed last. -/
theorem id_le (h : Reads hist receiver ds) (hpc : receiver.pc.reads = false)
    {d : Delivery T} (hd : d ∈ ds) : d.id ≤ receiver.lastObserved := by
  obtain ⟨front, last, hds⟩ := (List.eq_nil_or_concat ds).resolve_left (List.ne_nil_of_mem hd)
  rw [List.concat_eq_append] at hds
  subst hds
  have hlast : receiver.lastObserved = last.id := by simpa using h.last hpc
  obtain hd | rfl := List.mem_append.mp hd |>.imp_right List.mem_singleton.mp
  · rw [hlast]
    exact ((List.pairwise_append.mp h.order).2.2 d hd last (by simp)).1.le
  · exact hlast.ge

theorem observe (h : Reads hist receiver ds) (hpc : receiver.pc.reads = false)
    (hne : receiver.lastObserved ≠ hist.published) {caller : Caller} :
    Reads hist ⟨.cloneValue caller, hist.published⟩ ds where
  __ := h
  observed := le_rfl
  last hr := by cases hr
  next _ d hd := ⟨(h.id_le hpc hd).trans_lt (lt_of_le_of_ne h.observed hne), h.past d hd⟩

theorem deliver (h : Reads hist receiver ds) (hpc : receiver.pc.reads = true) {value : T}
    (hlen : hist.sent.length = hist.published) (hvalue : hist.sent.getLast? = some value)
    {a : Option (Answer T)} :
    Reads hist ⟨.ready a, receiver.lastObserved⟩
      (ds ++ [⟨receiver.lastObserved, hist.sent.length - 1, value⟩]) := by
  have hpos : 0 < hist.sent.length := by
    obtain ⟨front, hfront⟩ := List.getLast?_eq_some_iff.mp hvalue
    rw [hfront]
    simp
  have hindex : hist.sent.length - 1 + 1 = hist.published := by omega
  constructor
  · intro d hd
    obtain hd | rfl := List.mem_append.mp hd |>.imp_right List.mem_singleton.mp
    · exact h.value d hd
    · rwa [← List.getLast?_eq_getElem?]
  · intro d hd
    obtain hd | rfl := List.mem_append.mp hd |>.imp_right List.mem_singleton.mp
    · exact h.fresh d hd
    · exact h.observed.trans hindex.ge
  · intro d hd
    obtain hd | rfl := List.mem_append.mp hd |>.imp_right List.mem_singleton.mp
    · exact h.past d hd
    · exact hindex.le
  · refine List.pairwise_append.mpr ⟨h.order, List.pairwise_singleton _ _, fun d hd d' hd' => ?_⟩
    rw [List.mem_singleton.mp hd']
    exact h.next hpc d hd
  · exact h.observed
  · simp
  · intro hr
    cases hr


/-- A receiver that has observed the last change was given the last value. -/
theorem getLast?_eq (h : Reads hist receiver ds) (hpc : receiver.pc.reads = false)
    (hid : receiver.lastObserved = hist.published) (hpos : 0 < hist.published) :
    ds.getLast?.map (·.value) = hist.sent[hist.published - 1]? := by
  have hlast := h.last hpc
  cases hds : ds.getLast? with
  | none =>
    rw [hds] at hlast
    exact absurd (hid.symm.trans hlast) hpos.ne'
  | some d =>
    have hd : d ∈ ds := List.mem_of_getLast? hds
    rw [hds] at hlast
    have hpast := h.past d hd
    have hfresh := h.fresh d hd
    have hindex : d.index = hist.published - 1 := by
      have : hist.published = d.id := hid.symm.trans hlast
      omega
    rw [← hindex, h.value d hd]
    rfl

/-- A value is given twice at most: the second time its own change is observed. -/
theorem count_index_le (h : Reads hist receiver ds) (i : Nat) :
    (ds.map (·.index)).count i ≤ 2 := by
  by_contra hlt
  have hthree : (List.replicate 3 i).Sublist (ds.map (·.index)) :=
    List.replicate_sublist_iff.mpr (Nat.lt_of_not_le hlt)
  obtain ⟨three, hsub, hmap⟩ := List.sublist_map_iff.mp hthree
  obtain ⟨a, b, c, rfl⟩ := List.length_eq_three.mp (by simpa using (congrArg List.length hmap).symm)
  have horder := h.order.sublist hsub
  have hb := h.fresh b (hsub.subset (by simp))
  have hc := h.fresh c (hsub.subset (by simp))
  simp at hmap horder
  omega

/-- Later values are newer, or the same. -/
theorem pairwise_index (h : Reads hist receiver ds) :
    (ds.map (·.index)).Pairwise (· ≤ ·) := by
  rw [List.pairwise_map]
  refine h.order.imp_of_mem fun {d d'} _ hd' hlt => ?_
  have := h.fresh d' hd'
  omega

end Reads

variable {s s' : State ι κ T} {e : Event ι κ T} {r r' : ι} {k : κ}

/-! ## What is told -/

structure Told (s : State ι κ T) (hist : History ι T) : Prop where
  newest : hist.sent.getLast? = some s.value
  id : s.id = hist.published % 2 ^ 64
  pos : 0 < hist.published
  behind : ∀ k, s.senders k = .incrementId → hist.sent.length = hist.published + 1
  level : (∀ k, s.senders k ≠ .incrementId) → hist.sent.length = hist.published
  reads : hist.sent.length < 2 ^ 64 → ∀ r, Reads hist (s.receivers r) (hist.got r)

namespace Told

theorem frame (h : Told s hist) (hv : s'.value = s.value) (hid : s'.id = s.id)
    (hk : ∀ k, s'.senders k = .incrementId ↔ s.senders k = .incrementId)
    (hr : ∀ r, Reads hist (s.receivers r) (hist.got r) → Reads hist (s'.receivers r) (hist.got r)) :
    Told s' hist where
  newest := hv ▸ h.newest
  id := hid ▸ h.id
  pos := h.pos
  behind k hb := h.behind k ((hk k).mp hb)
  level hl := h.level fun k hb => hl k ((hk k).mpr hb)
  reads hlen r := hr r (h.reads hlen r)

/-- Nothing that is told differs. -/
def Same (t s : State ι κ T) : Prop :=
  t.value = s.value ∧ t.id = s.id ∧ t.senders = s.senders ∧ t.receivers = s.receivers

variable {t : State ι κ T}

/-- A sender goes on. -/
theorem setSender [DecidableEq κ] (h : Told s hist) (ht : Same t s) {pc : SenderPc T}
    (hk : s.senders k ≠ .incrementId) (hpc : pc ≠ .incrementId) : Told (t.setSender k pc) hist := by
  obtain ⟨hv, hid, hs, hr⟩ := ht
  refine h.frame hv hid (fun k' => ?_) fun r hread => by rwa [State.receivers_setSender, hr]
  rw [State.senders_setSender, hs]
  grind

/-- A receiver goes on. -/
theorem goto [DecidableEq ι] (h : Told s hist) (ht : Same t s) {pc : ReceiverPc T}
    (hr : (s.receivers r).pc.reads = false) (hpc : pc.reads = false) : Told (t.goto r pc) hist := by
  obtain ⟨hv, hid, hs, hrs⟩ := ht
  refine h.frame hv hid (fun k => by rw [State.goto, State.senders_setReceiver, hs]) fun r' h' => ?_
  rw [State.goto, State.receivers_setReceiver, hrs]
  split_ifs with he
  · subst he
    exact h'.move hr hpc
  · exact h'

end Told

theorem Told.published_le (h : Told s hist) : hist.published ≤ hist.sent.length := by
  by_cases hk : ∃ k, s.senders k = .incrementId
  · obtain ⟨k, hk⟩ := hk
    rw [h.behind k hk]
    exact Nat.le_succ _
  · exact (h.level fun k hb => hk ⟨k, hb⟩).ge

/-- No value is about to be counted while nobody writes. -/
theorem Locks.not_incrementId (hl : Locks s) (hw : s.writer = none) (k : κ) :
    s.senders k ≠ .incrementId := by
  intro hk
  have := (hl.writer k).mp (by rw [hk]; rfl)
  simp [hw] at this

theorem Told.id_eq (h : Told s hist) (hlen : hist.sent.length < 2 ^ 64) : s.id = hist.published :=
  h.id.trans (Nat.mod_eq_of_lt (h.published_le.trans_lt hlen))

/-- Only a value that is given to a receiver is noted. -/
theorem note_receiver [DecidableEq ι] (h : ∀ v, (s'.receivers r).pc ≠ .ready (some (.changed v))) :
    note hist s (.receiver r) s' = hist := by
  simp only [note]

structure Ok (s : State ι κ T) (hist : History ι T) : Prop where
  locks : Locks s
  awake : Awake s
  told : Told s hist

theorem ok_channel [DecidableEq ι] {r₀ : ι} {init : T} :
    Ok (channel r₀ init : State ι κ T) (.start init) where
  locks := by
    refine ⟨fun k => by simp [channel, SenderPc.writes], fun r => ?_, fun k => ?_⟩
    · dsimp only [channel]
      split_ifs <;> simp [ReceiverPc.holdsLock]
    · simp [channel, SenderPc.holdsLock]
  awake := .inr fun r => by
    dsimp only [channel]
    split_ifs <;> simp [ReceiverPc.settles, ReceiverPc.checked]
  told := by
    refine ⟨rfl, rfl, Nat.one_pos, fun _ _ => by contradiction, fun _ => rfl, fun _ r => ?_⟩
    refine ⟨?_, ?_, ?_, .nil, Nat.zero_le _, fun _ => rfl, ?_⟩ <;> simp [History.start]

variable [DecidableEq ι] [DecidableEq κ]

theorem Told.steps (h : Told s hist) (hl : Locks s) (hs : Steps s e s') :
    Told s' (note hist s e s') := by
  cases hs with
  | send ha hk | dropSender ha hk => refine h.setSender ?_ ?_ ?_ <;> simp [Same, hk]
  | refused hk | counted hk | leave hk | lock hk | unlock hk =>
    simp only [note, hk]
    refine h.setSender ?_ ?_ ?_ <;> simp [Same, hk]
  | @replaceValue k value hk hw =>
    simp only [note, hk]
    have hnone := hl.not_incrementId hw
    refine ⟨List.getLast?_concat, h.id, h.pos, fun k' _ => ?_, fun hall => ?_, fun hlen r => ?_⟩
    · rw [List.length_append, h.level hnone]
      rfl
    · exact absurd (by simp) (hall k)
    · rw [List.length_append] at hlen
      exact (h.reads (by omega) r).mono (List.prefix_append ..) le_rfl
  | @incrementId k hk =>
    simp only [note, hk]
    have hone : ∀ k', s.senders k' = .incrementId → k' = k := fun k' hk' => by
      have hw := (hl.writer k).mp (by rw [hk]; rfl)
      have hw' := (hl.writer k').mp (by rw [hk']; rfl)
      exact Option.some.inj (hw'.symm.trans hw)
    refine ⟨h.newest, ?_, Nat.succ_pos _, fun k' hk' => ?_, fun _ => h.behind k hk, fun hlen r => ?_⟩
    · change (s.id + 1) % 2 ^ 64 = _
      rw [h.id, Nat.mod_add_mod]
    · rw [State.senders_setSender] at hk'
      split_ifs at hk' with he
      exact absurd (hone k' hk') he
    · exact (h.reads hlen r).mono List.prefix_rfl (Nat.le_succ _)
  | notifyAll hk =>
    simp only [note, hk]
    refine h.frame rfl rfl (fun k' => by grind) fun r hr => ?_
    simp only [State.receivers_setSender, Receiver.notify]
    split_ifs with hw
    · exact hr.move (by simp [ReceiverPc.isWaiting_iff.mp hw, ReceiverPc.reads]) rfl
    · exact hr
  | call he hr hc =>
    obtain rfl | rfl := he <;> refine h.goto ?_ ?_ ?_ <;> simp [Same, hr, ReceiverPc.reads]
  | alive hr | closed hr | unchanged hr | fastPath hr | underLock hr | takeLock hr | wait hr =>
    rw [note_receiver (by simp [State.goto, State.answer])]
    refine h.goto ?_ ?_ ?_ <;> simp [Same, hr, ReceiverPc.reads]
  | spurious hr | drop hr => refine h.goto ?_ ?_ ?_ <;> simp [Same, hr, ReceiverPc.reads]
  | observe hr hid =>
    rw [note_receiver (by simp)]
    refine ⟨h.newest, h.id, h.pos, h.behind, h.level, fun hlen r' => ?_⟩
    have hid' : s.id = hist.published :=
      h.id.trans (Nat.mod_eq_of_lt (h.published_le.trans_lt hlen))
    rw [State.receivers_setReceiver]
    split_ifs with he
    · subst he
      rw [hid']
      exact (h.reads hlen r').observe (by simp [hr, ReceiverPc.reads]) (hid' ▸ hid)
    · exact h.reads hlen r'
  | @cloneValue r caller hr hw =>
    have hlevel := h.level (hl.not_incrementId hw)
    simp only [note, State.answer, State.goto, State.receivers_setReceiver, if_true]
    refine ⟨h.newest, h.id, h.pos, h.behind, h.level, fun hlen r' => ?_⟩
    simp only [State.receivers_setReceiver, Function.update_apply]
    split_ifs with he
    · subst he
      exact ((h.reads hlen r').deliver (by simp [hr, ReceiverPc.reads]) hlevel h.newest).mono
        List.prefix_rfl le_rfl
    · exact (h.reads hlen r').mono List.prefix_rfl le_rfl
  | @clone r r' a hr hr' =>
    simp only [note]
    refine ⟨h.newest, h.id, h.pos, h.behind, h.level, fun hlen r₁ => ?_⟩
    simp only [State.receivers_setReceiver, Function.update_apply]
    split_ifs with he
    · exact ((h.reads hlen r).move (by simp [hr, ReceiverPc.reads]) rfl).mono
        List.prefix_rfl le_rfl
    · exact (h.reads hlen r₁).mono List.prefix_rfl le_rfl

/-! ## What holds in every run -/

variable [Fintype κ] {evs : List (Event ι κ T)} {r₀ : ι} {init : T}

theorem ok_exec (h : exec (withGhost step note) (channel r₀ init, .start init) evs =
    some (s, hist)) : Ok s hist := by
  refine exec_invariant (P := fun p => Ok p.1 p.2) ?_ ok_channel h
  rintro ⟨s, hist⟩ e ⟨s', hist'⟩ ⟨hl, ha, ht⟩ hs
  obtain ⟨hstep, rfl⟩ := withGhost_eq_some.mp hs
  have hsteps := step_cases hstep
  exact ⟨hl.steps hsteps, ha.steps hl hsteps, ht.steps hl hsteps⟩

/-- Whatever the order of the steps, the values that a receiver is given are values sent, in their
order, none more than twice, and it is told of no change, or goes to sleep, only when it was given
the value of the last one. -/
theorem delivered (h : exec (withGhost step note) (channel r₀ init, .start init) evs =
    some (s, hist)) (hlen : hist.sent.length < 2 ^ 64) (r : ι) :
    (∃ places : List Nat, places.Pairwise (· ≤ ·) ∧ (∀ i, places.count i ≤ 2) ∧
      (hist.got r).map (fun d => some d.value) = places.map (hist.sent[·]?)) ∧
    ∀ s', step s (.receiver r) = some s' →
      (s'.receivers r).pc = .ready (some .unchanged) ∨ (s'.receivers r).pc = .wait →
      (hist.got r).getLast?.map (·.value) = hist.sent[hist.published - 1]? := by
  have htold := (ok_exec h).told
  have hreads := htold.reads hlen r
  constructor
  · refine ⟨(hist.got r).map (·.index), hreads.pairwise_index, hreads.count_index_le, ?_⟩
    rw [List.map_map]
    exact List.map_congr_left fun d hd => (hreads.value d hd).symm
  · intro s' hs hpc
    have hid := htold.id_eq hlen
    have hlast {caller : Caller} (hr : (s.receivers r).pc = .id caller)
        (hseen : (s.receivers r).lastObserved = s.id) :
        (hist.got r).getLast?.map (·.value) = hist.sent[hist.published - 1]? :=
      hreads.getLast?_eq (by rw [hr]; rfl) (hseen.trans hid) htold.pos
    cases step_cases hs with
    | unchanged hr hseen => exact hlast hr hseen
    | underLock hr hseen => exact hlast hr hseen
    | call he => obtain he | he := he <;> cases he
    | _ => simp [State.goto, State.answer] at hpc

/-- A call of `get_changed` has loaded the number of the change when a value is sent: it reads that
value, and so does the next one. The receiver then waits for a change. -/
def givenTwice : List (Event Unit Unit Nat) :=
  [.getChanged (), .receiver (), .receiver (), .send () 7, .sender (), .sender (), .sender (),
    .sender (), .receiver (), .sender (), .sender (), .sender (), .getChanged (), .receiver (),
    .receiver (), .receiver (), .waitForChange (), .receiver (), .receiver (), .receiver (),
    .receiver ()]

theorem delivered_givenTwice :
    ∃ s hist, exec (withGhost step note) (channel () 5, .start 5) givenTwice = some (s, hist) ∧
      (hist.got ()).map (·.value) = [7, 7] ∧
      (hist.got ()).getLast?.map (·.value) = hist.sent[hist.published - 1]? := by
  have hrun : exec (withGhost step note) (channel () 5, .start 5) givenTwice = some (_, _) := rfl
  exact ⟨_, _, hrun, rfl, (delivered hrun (by decide) ()).2 _ rfl (.inr rfl)⟩

variable [Fintype ι]

/-- From any state the threads, left to themselves in whatever order, come to rest: no call of `send`
is running, and a receiver that still sleeps was given the newest value, with the sender alive. -/
theorem comes_to_rest (h : exec (withGhost step note) (channel r₀ init, .start init) evs =
    some (s, hist)) (hlen : hist.sent.length < 2 ^ 64) :
    (∃ n, ∀ es s', (∀ e ∈ es, e.internal = true) → exec step s es = some s' → es.length ≤ n) ∧
    ((∀ e : Event ι κ T, e.internal = true → step s e = none) →
      (∀ k, s.senders k = .idle) ∧ ∀ r, (s.receivers r).pc = .absent ∨
        (∃ a, (s.receivers r).pc = .ready a) ∨ ((s.receivers r).pc = .waiting ∧
          s.senderAlive = true ∧ (hist.got r).getLast?.map (·.value) = hist.sent.getLast?)) := by
  have hok := ok_exec h
  constructor
  · have hlower : ∀ (s : State ι κ T) e s', e.internal = true → step s e = some s' →
        s'.rank < s.rank := fun _ _ _ he hs => rank_lt (step_cases hs) he
    exact ⟨s.rank, fun es s' hes hs => Nat.le_of_add_right_le (exec_measure hlower hes hs)⟩
  · intro hrest
    obtain ⟨hidle, hpcs⟩ := hok.locks.calm (fun k => hrest (.sender k) rfl)
      fun r => hrest (.receiver r) rfl
    refine ⟨hidle, fun r => ?_⟩
    obtain h | h | hr := hpcs r
    · exact .inl h
    · exact .inr (.inl h)
    · refine .inr (.inr ⟨hr, ?_⟩)
      have hdue : ¬ Due s := by
        rintro ⟨k, hk⟩
        rw [hidle k] at hk
        cases hk
      have hawake := hok.awake.resolve_left hdue r
      have hseen := hawake.1 (by rw [hr]; rfl)
      have hlevel := hok.told.level fun k hk => by simp [hidle k] at hk
      refine ⟨hawake.2 (by rw [hr]; rfl), ?_⟩
      rw [(hok.told.reads hlen r).getLast?_eq (by rw [hr]; rfl)
        (hseen.trans (hok.told.id_eq hlen)) hok.told.pos, List.getLast?_eq_getElem?, hlevel]

theorem comes_to_rest_givenTwice :
    ∃ s hist, exec (withGhost step note) (channel () 5, .start 5)
        (givenTwice ++ [.receiver (), .receiver ()]) = some (s, hist) ∧
      (s.senders () = .idle) ∧ s.senderAlive = true ∧
        (hist.got ()).getLast?.map (·.value) = hist.sent.getLast? := by
  have hrun : exec (withGhost step note) (channel () 5, .start 5)
      (givenTwice ++ [.receiver (), .receiver ()]) = some (_, _) := rfl
  obtain ⟨hidle, hrest⟩ := (comes_to_rest hrun (by decide)).2 fun e he => by
    cases e with
    | sender k => rfl
    | receiver r => rfl
    | _ => cases he
  obtain h | ⟨_, h⟩ | ⟨_, h⟩ := hrest ()
  · cases h
  · cases h
  · exact ⟨_, _, hrun, hidle (), h⟩

end KeryxMiner.Work.Watch
