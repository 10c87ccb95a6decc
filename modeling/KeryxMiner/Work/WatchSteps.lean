import KeryxMiner.Work.Watch

/-!
# Steps of the watch channel

What an enabled step does (`step_cases`), who has the locks, and why no wake-up is lost: while no
notification is to come, every receiver that sleeps has seen the last change (`Awake`). Threads left
to themselves lower a rank until all of them have returned or sleep (`rank_lt`, `Locks.calm`).
-/

namespace KeryxMiner.Work.Watch

variable {ι κ T : Type} {s s' : State ι κ T} {e : Event ι κ T} {r r' : ι} {k : κ}

/-! ## Where a thread is -/

@[grind]
def ReceiverPc.holdsLock : ReceiverPc T → Bool
  | senderAlive .underLock | id .underLock | cloneValue .underLock | wait => true
  | _ => false

@[grind]
def SenderPc.holdsLock : SenderPc T → Bool
  | notifyAll | unlock => true
  | _ => false

@[grind]
def SenderPc.writes : SenderPc T → Bool
  | incrementId | leave => true
  | _ => false

/-- A notification is still to come. -/
@[grind]
def SenderPc.notifies : SenderPc T → Bool
  | leave | lock | notifyAll => true
  | _ => false

@[grind]
def ReceiverPc.reads : ReceiverPc T → Bool
  | cloneValue _ => true
  | _ => false

@[grind]
def ReceiverPc.settles : ReceiverPc T → Bool
  | wait | waiting => true
  | _ => false

@[grind]
def ReceiverPc.checked : ReceiverPc T → Bool
  | id .underLock | wait | waiting => true
  | _ => false

/-- The steps that the lock adds. -/
def Caller.rank : Caller → Nat
  | underLock => 0
  | _ => 3

/-- Bounds the steps that a receiver takes before it returns or sleeps. -/
def ReceiverPc.rank : ReceiverPc T → Nat
  | absent | ready _ | waiting => 0
  | wait | cloneValue _ => 1
  | id caller => 2 + caller.rank
  | senderAlive caller => 3 + caller.rank
  | lock => 4

/-- The same for a call of `send`, with the steps of the receivers that it wakes. -/
def SenderPc.rank (woken : Nat) : SenderPc T → Nat
  | idle => 0
  | unlock => 1
  | notifyAll => 4 * woken + 2
  | lock => 4 * woken + 3
  | leave => 4 * woken + 4
  | incrementId => 4 * woken + 5
  | replaceValue _ => 4 * woken + 6
  | receiverCount _ => 4 * woken + 7

def State.rank [Fintype ι] [Fintype κ] (s : State ι κ T) : Nat :=
  ∑ r, (s.receivers r).pc.rank + ∑ k, (s.senders k).rank (Fintype.card ι)

/-- The steps that threads in the middle of a call take by themselves. -/
def Event.internal : Event ι κ T → Bool
  | .sender _ | .receiver _ => true
  | _ => false

section

variable [Fintype ι] [Fintype κ]

theorem rank_setSender_lt [DecidableEq κ] {t : State ι κ T} {pc : SenderPc T} {woken : Nat}
    (ht : t.rank ≤ s.rank + woken)
    (hlt : pc.rank (Fintype.card ι) + woken < (t.senders k).rank (Fintype.card ι)) :
    (t.setSender k pc).rank < s.rank := by
  have hsum := sum_update_add (SenderPc.rank (Fintype.card ι)) t.senders k pc
  simp only [State.rank, State.setSender] at ht ⊢
  omega

theorem rank_setReceiver_lt [DecidableEq ι] {t : State ι κ T} {receiver : Receiver T}
    (ht : t.rank = s.rank) (hlt : receiver.pc.rank < (t.receivers r).pc.rank) :
    (t.setReceiver r receiver).rank < s.rank := by
  have hsum := sum_update_add (fun receiver => receiver.pc.rank) t.receivers r receiver
  simp only [State.rank, State.setReceiver] at ht ⊢
  omega

theorem rank_notify_le {receiver : Receiver T} :
    receiver.notify.pc.rank ≤ receiver.pc.rank + 4 := by
  rw [Receiver.notify]
  split_ifs
  · exact Nat.le_add_left ..
  · exact Nat.le_add_right ..

theorem rank_notifyAll_le :
    { s with receivers := fun r => (s.receivers r).notify }.rank ≤ s.rank + Fintype.card ι * 4 := by
  have hsum : ∑ r, (s.receivers r).notify.pc.rank ≤
      ∑ r, (s.receivers r).pc.rank + Fintype.card ι * 4 := sum_le_add_card fun _ => rank_notify_le
  simp only [State.rank]
  omega

end

/-- Where a call of `send` cannot go on. -/
theorem stuck_sender [DecidableEq κ] (h : stepSender s k = none) : s.senders k = .idle ∨
    (∃ v, s.senders k = .replaceValue v ∧ s.writer ≠ none) ∨
    (s.senders k = .lock ∧ s.waitForChange ≠ none) := by
  cases hk : s.senders k with
  | idle => exact .inl rfl
  | replaceValue v => exact .inr (.inl ⟨v, rfl, fun hw => by simp [stepSender, hk, hw] at h⟩)
  | lock => exact .inr (.inr ⟨rfl, fun hm => by simp [stepSender, hk, hm] at h⟩)
  | _ => simp [stepSender, hk] at h

/-- Where a receiver cannot go on. -/
theorem stuck_receiver [DecidableEq ι] (h : stepReceiver s r = none) : (s.receivers r).pc = .absent ∨
    (∃ a, (s.receivers r).pc = .ready a) ∨ (s.receivers r).pc = .waiting ∨
    (∃ caller, (s.receivers r).pc = .cloneValue caller ∧ s.writer ≠ none) ∨
    ((s.receivers r).pc = .lock ∧ s.waitForChange ≠ none) := by
  cases hr : (s.receivers r).pc with
  | absent => exact .inl rfl
  | ready a => exact .inr (.inl ⟨a, rfl⟩)
  | waiting => exact .inr (.inr (.inl rfl))
  | cloneValue caller =>
    exact .inr (.inr (.inr (.inl ⟨caller, rfl, fun hw => by simp [stepReceiver, hr, hw] at h⟩)))
  | lock => exact .inr (.inr (.inr (.inr ⟨rfl, fun hm => by simp [stepReceiver, hr, hm] at h⟩)))
  | id caller =>
    simp only [stepReceiver, hr] at h
    split_ifs at h
    cases caller <;> cases h
  | _ => simp [stepReceiver, hr] at h

theorem ready_of_startCall [DecidableEq ι] {caller : Caller} (h : startCall s r caller = some s') :
    ∃ a, (s.receivers r).pc = .ready a ∧ s' = s.goto r (.senderAlive caller) := by
  rw [startCall] at h
  split at h
  · next a hr => cases h; exact ⟨a, hr, rfl⟩
  · cases h

variable [DecidableEq ι] [DecidableEq κ]

/-! ## What a step does -/

/-- The enabled steps. -/
inductive Steps (s : State ι κ T) : Event ι κ T → State ι κ T → Prop
  | send {k : κ} {value : T} (ha : s.senderAlive = true) (hk : s.senders k = .idle) :
    Steps s (.send k value) (s.setSender k (.receiverCount value))
  | dropSender {k : κ} (ha : s.senderAlive = true) (hk : ∀ k', s.senders k' = .idle) :
    Steps s (.dropSender k) ({ s with senderAlive := false }.setSender k .lock)
  | refused {k : κ} {value : T} (hk : s.senders k = .receiverCount value)
    (hc : s.receiversCount = 0) : Steps s (.sender k) (s.setSender k .idle)
  | counted {k : κ} {value : T} (hk : s.senders k = .receiverCount value)
    (hc : s.receiversCount ≠ 0) : Steps s (.sender k) (s.setSender k (.replaceValue value))
  | replaceValue {k : κ} {value : T} (hk : s.senders k = .replaceValue value)
    (hw : s.writer = none) :
    Steps s (.sender k) ({ s with writer := some k, value }.setSender k .incrementId)
  | incrementId {k : κ} (hk : s.senders k = .incrementId) :
    Steps s (.sender k) ({ s with id := (s.id + 1) % 2 ^ 64 }.setSender k .leave)
  | leave {k : κ} (hk : s.senders k = .leave) :
    Steps s (.sender k) ({ s with writer := none }.setSender k .lock)
  | lock {k : κ} (hk : s.senders k = .lock) (hm : s.waitForChange = none) :
    Steps s (.sender k) ({ s with waitForChange := some (.inr k) }.setSender k .notifyAll)
  | notifyAll {k : κ} (hk : s.senders k = .notifyAll) : Steps s (.sender k)
      ({ s with receivers := fun r => (s.receivers r).notify }.setSender k .unlock)
  | unlock {k : κ} (hk : s.senders k = .unlock) :
    Steps s (.sender k) ({ s with waitForChange := none }.setSender k .idle)
  | call {e : Event ι κ T} {r : ι} {a : Option (Answer T)} {caller : Caller}
    (he : e = .getChanged r ∨ e = .waitForChange r) (hr : (s.receivers r).pc = .ready a)
    (hc : caller ≠ .underLock) : Steps s e (s.goto r (.senderAlive caller))
  | alive {r : ι} {caller : Caller} (hr : (s.receivers r).pc = .senderAlive caller)
    (ha : s.senderAlive = true) : Steps s (.receiver r) (s.goto r (.id caller))
  | closed {r : ι} {caller : Caller} (hr : (s.receivers r).pc = .senderAlive caller)
    (ha : s.senderAlive = false) : Steps s (.receiver r) (s.answer r caller .channelClosed)
  | unchanged {r : ι} (hr : (s.receivers r).pc = .id .getChanged)
    (hid : (s.receivers r).lastObserved = s.id) :
    Steps s (.receiver r) (s.answer r .getChanged .unchanged)
  | fastPath {r : ι} (hr : (s.receivers r).pc = .id .fastPath)
    (hid : (s.receivers r).lastObserved = s.id) : Steps s (.receiver r) (s.goto r .lock)
  | underLock {r : ι} (hr : (s.receivers r).pc = .id .underLock)
    (hid : (s.receivers r).lastObserved = s.id) : Steps s (.receiver r) (s.goto r .wait)
  | observe {r : ι} {caller : Caller} (hr : (s.receivers r).pc = .id caller)
    (hid : (s.receivers r).lastObserved ≠ s.id) :
    Steps s (.receiver r) (s.setReceiver r ⟨.cloneValue caller, s.id⟩)
  | cloneValue {r : ι} {caller : Caller} (hr : (s.receivers r).pc = .cloneValue caller)
    (hw : s.writer = none) : Steps s (.receiver r) (s.answer r caller (.changed s.value))
  | takeLock {r : ι} (hr : (s.receivers r).pc = .lock) (hm : s.waitForChange = none) :
    Steps s (.receiver r)
      ({ s with waitForChange := some (.inl r) }.goto r (.senderAlive .underLock))
  | wait {r : ι} (hr : (s.receivers r).pc = .wait) :
    Steps s (.receiver r) ({ s with waitForChange := none }.goto r .waiting)
  | spurious {r : ι} (hr : (s.receivers r).pc = .waiting) :
    Steps s (.spurious r) (s.goto r .lock)
  | clone {r r' : ι} {a : Option (Answer T)} (hr : (s.receivers r).pc = .ready a)
    (hr' : (s.receivers r').pc = .absent) : Steps s (.clone r r')
      ({ s with receiversCount := (s.receiversCount + 1) % 2 ^ 64 }.setReceiver r'
        ⟨.ready none, (s.receivers r).lastObserved⟩)
  | drop {r : ι} {a : Option (Answer T)} (hr : (s.receivers r).pc = .ready a) : Steps s (.drop r)
      ({ s with receiversCount := (s.receiversCount + 2 ^ 64 - 1) % 2 ^ 64 }.goto r .absent)

theorem steps_sender (h : stepSender s k = some s') : Steps s (.sender k) s' := by
  rw [stepSender] at h
  split at h
  · cases h
  · next value hk =>
    cases h
    split_ifs with hc
    · exact .refused hk hc
    · exact .counted hk hc
  · next value hk =>
    obtain ⟨hw, h⟩ := Option.ite_none_right_eq_some.mp h
    cases h
    exact .replaceValue hk hw
  · next hk => cases h; exact .incrementId hk
  · next hk => cases h; exact .leave hk
  · next hk =>
    obtain ⟨hm, h⟩ := Option.ite_none_right_eq_some.mp h
    cases h
    exact .lock hk hm
  · next hk => cases h; exact .notifyAll hk
  · next hk => cases h; exact .unlock hk

theorem steps_receiver (h : stepReceiver s r = some s') : Steps s (.receiver r) s' := by
  rw [stepReceiver] at h
  split at h
  · cases h
  · cases h
  · cases h
  · next caller hr =>
    cases h
    split_ifs with ha
    · exact .alive hr ha
    · exact .closed hr (Bool.eq_false_iff.mpr ha)
  · next caller hr =>
    split_ifs at h with hid
    · cases caller with
      | getChanged => cases h; exact .unchanged hr hid
      | fastPath => cases h; exact .fastPath hr hid
      | underLock => cases h; exact .underLock hr hid
    · cases h
      exact .observe hr hid
  · next caller hr =>
    obtain ⟨hw, h⟩ := Option.ite_none_right_eq_some.mp h
    cases h
    exact .cloneValue hr hw
  · next hr =>
    obtain ⟨hm, h⟩ := Option.ite_none_right_eq_some.mp h
    cases h
    exact .takeLock hr hm
  · next hr => cases h; exact .wait hr

theorem step_cases [Fintype κ] (h : step s e = some s') : Steps s e s' := by
  cases e with
  | send k value =>
    obtain ⟨⟨ha, hk⟩, h⟩ := Option.ite_none_right_eq_some.mp h
    cases h
    exact .send ha (SenderPc.isIdle_iff.mp hk)
  | dropSender k =>
    obtain ⟨⟨ha, hk⟩, h⟩ := Option.ite_none_right_eq_some.mp h
    cases h
    exact .dropSender ha fun k' => SenderPc.isIdle_iff.mp (hk k')
  | sender k => exact steps_sender h
  | getChanged r =>
    obtain ⟨a, hr, rfl⟩ := ready_of_startCall h
    exact .call (.inl rfl) hr Caller.noConfusion
  | waitForChange r =>
    obtain ⟨a, hr, rfl⟩ := ready_of_startCall h
    exact .call (.inr rfl) hr Caller.noConfusion
  | receiver r => exact steps_receiver h
  | spurious r =>
    obtain ⟨hr, h⟩ := Option.ite_none_right_eq_some.mp h
    cases h
    exact .spurious (ReceiverPc.isWaiting_iff.mp hr)
  | clone r r' =>
    obtain ⟨⟨hr, hr'⟩, h⟩ := Option.ite_none_right_eq_some.mp h
    cases h
    obtain ⟨a, ha⟩ := ReceiverPc.isReady_iff.mp hr
    exact .clone ha (ReceiverPc.isAbsent_iff.mp hr')
  | drop r =>
    obtain ⟨hr, h⟩ := Option.ite_none_right_eq_some.mp h
    cases h
    obtain ⟨a, ha⟩ := ReceiverPc.isReady_iff.mp hr
    exact .drop ha

/-! ## The locks -/

attribute [local grind =] ReceiverPc.isWaiting State.goto State.answer Receiver.notify

structure Locks (s : State ι κ T) : Prop where
  writer : ∀ k, (s.senders k).writes = true ↔ s.writer = some k
  receiver : ∀ r, (s.receivers r).pc.holdsLock = true ↔ s.waitForChange = some (.inl r)
  sender : ∀ k, (s.senders k).holdsLock = true ↔ s.waitForChange = some (.inr k)

theorem Locks.steps (h : Locks s) (hs : Steps s e s') : Locks s' := by
  obtain ⟨hw, hr, hk⟩ := h
  cases hs <;> constructor <;> 
    grind

/-- A call of `send`, or the drop of the sender, is still to notify the receivers. -/
def Due (s : State ι κ T) : Prop := ∃ k, (s.senders k).notifies = true

/-- With no notification to come, a receiver which waits, or is about to, has seen the last change,
and the sender is alive. -/
def Awake (s : State ι κ T) : Prop :=
  Due s ∨ ∀ r, ((s.receivers r).pc.settles = true → (s.receivers r).lastObserved = s.id) ∧
    ((s.receivers r).pc.checked = true → s.senderAlive = true)

/-- Only `notify_all` ends a notification. -/
theorem Due.steps (h : Due s) (hs : Steps s e s')
    (hne : ∀ k, e = .sender k → s.senders k ≠ .notifyAll) : Due s' := by
  obtain ⟨k, hk⟩ := h
  refine ⟨k, ?_⟩
  cases hs <;> grind

theorem ReceiverPc.checked_of_settles {pc : ReceiverPc T} (h : pc.settles = true) :
    pc.checked = true := by
  cases pc <;> first | rfl | cases h

/-- A receiver without the lock is not between its check and its sleep. -/
theorem Receiver.checked_notify {receiver : Receiver T} (h : receiver.pc.holdsLock = false) :
    receiver.notify.pc.checked = false := by
  rw [Receiver.notify]
  split_ifs with hw
  · rfl
  · cases hpc : receiver.pc with
    | id caller => cases caller <;> simp_all [ReceiverPc.holdsLock, ReceiverPc.checked]
    | _ => simp_all [ReceiverPc.holdsLock, ReceiverPc.checked, ReceiverPc.isWaiting]

theorem Awake.steps (h : Awake s) (hl : Locks s) (hs : Steps s e s') : Awake s' := by
  have hstart {k : κ} {pc : SenderPc T} {t : State ι κ T} (hpc : pc.notifies = true) :
      Awake (t.setSender k pc) := .inl ⟨k, by simpa using hpc⟩
  by_cases hn : ∃ k, e = .sender k ∧ s.senders k = .notifyAll
  · obtain ⟨k, rfl, hk⟩ := hn
    have hm : s.waitForChange = some (.inr k) := (hl.sender k).mp (by rw [hk]; rfl)
    have hfree (r : ι) : (s.receivers r).pc.holdsLock = false := by
      rw [← Bool.not_eq_true, hl.receiver, hm]
      simp
    cases hs with
    | notifyAll =>
      right
      intro r
      have hr : (s.receivers r).notify.pc.checked ≠ true := by
        rw [Receiver.checked_notify (hfree r)]
        exact Bool.false_ne_true
      exact ⟨fun h => absurd (ReceiverPc.checked_of_settles h) hr, fun h => absurd h hr⟩
    | _ => simp_all
  · obtain hdue | hr := h
    · exact .inl (hdue.steps hs fun k he hk => hn ⟨k, he, hk⟩)
    · cases hs with
      | dropSender | incrementId | leave | lock => exact hstart rfl
      | notifyAll hk => exact absurd ⟨_, rfl, hk⟩ hn
      | _ => right; grind

/-! ## Coming to rest -/

theorem rank_lt [Fintype ι] [Fintype κ] (hs : Steps s e s') (he : e.internal = true) :
    s'.rank < s.rank := by
  cases hs with
  | refused hk | counted hk | replaceValue hk | incrementId hk | leave hk | lock hk | unlock hk =>
    refine rank_setSender_lt (le_refl (s.rank + 0)) ?_
    simp [hk, SenderPc.rank]
  | notifyAll hk =>
    refine rank_setSender_lt rank_notifyAll_le ?_
    simp only [hk, SenderPc.rank]
    omega
  | alive hr | closed hr | unchanged hr | fastPath hr | underLock hr | observe hr
  | cloneValue hr | takeLock hr | wait hr =>
    refine rank_setReceiver_lt rfl ?_
    simp only [hr, ReceiverPc.rank, Caller.rank]
    omega
  | call h => obtain rfl | rfl := h <;> cases he
  | _ => cases he

/-- Who has a lock goes on, so that it is free when nobody does. -/
theorem Locks.calm (hl : Locks s) (hk : ∀ k, stepSender s k = none)
    (hr : ∀ r, stepReceiver s r = none) : (∀ k, s.senders k = .idle) ∧
      ∀ r, (s.receivers r).pc = .absent ∨ (∃ a, (s.receivers r).pc = .ready a) ∨
        (s.receivers r).pc = .waiting := by
  have hwriter : s.writer = none := by
    cases hw : s.writer with
    | none => rfl
    | some k =>
      have hwrites := (hl.writer k).mpr hw
      obtain h | ⟨_, h, _⟩ | ⟨h, _⟩ := stuck_sender (hk k) <;> rw [h] at hwrites <;> cases hwrites
  have hlock : s.waitForChange = none := by
    cases hm : s.waitForChange with
    | none => rfl
    | some holder =>
      cases holder with
      | inl r =>
        have hholds := (hl.receiver r).mpr hm
        obtain h | ⟨_, h⟩ | h | ⟨_, h, hw⟩ | ⟨h, _⟩ := stuck_receiver (hr r)
        · rw [h] at hholds; cases hholds
        · rw [h] at hholds; cases hholds
        · rw [h] at hholds; cases hholds
        · exact absurd hwriter hw
        · rw [h] at hholds; cases hholds
      | inr k =>
        have hholds := (hl.sender k).mpr hm
        obtain h | ⟨_, h, _⟩ | ⟨h, _⟩ := stuck_sender (hk k) <;> rw [h] at hholds <;> cases hholds
  constructor
  · intro k
    obtain h | ⟨_, _, h⟩ | ⟨_, h⟩ := stuck_sender (hk k)
    · exact h
    · exact absurd hwriter h
    · exact absurd hlock h
  · intro r
    obtain h | h | h | ⟨_, _, h⟩ | ⟨_, h⟩ := stuck_receiver (hr r)
    · exact .inl h
    · exact .inr (.inl h)
    · exact .inr (.inr h)
    · exact absurd hwriter h
    · exact absurd hlock h

end KeryxMiner.Work.Watch
