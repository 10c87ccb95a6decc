import KeryxMiner.Interleave
import Mathlib.Data.Fintype.Sum

/-!
# The watch channel

`watch.rs` hands the newest value of a sender to any number of receivers, each in a thread of its
own. A step here is one access to what the threads share: a load or store of an atomic, the write
of the value with its lock, taking or leaving the mutex, going to sleep on the condition variable.
The value is read and written under the `RwLock`, so that its read is one step which waits for a
writer to leave.

The threads are `ι` for the receivers and `κ` for the calls of `send`, which takes `&self`.
-/

namespace KeryxMiner.Work.Watch

variable {ι κ T : Type}

/-! ## The threads -/

/-- The answer of `get_changed` and of `wait_for_change`, which is never `unchanged`. -/
inductive Answer (T : Type)
  | channelClosed
  | unchanged
  | changed (value : T)
  deriving DecidableEq

/-- Where `get_changed_internal` is called: in `get_changed`, or in `wait_for_change` before or
after it has the lock. -/
inductive Caller
  | getChanged
  | fastPath
  | underLock
  deriving DecidableEq

/-- What a receiver does next. -/
inductive ReceiverPc (T : Type)
  /-- Not cloned yet, or dropped. -/
  | absent
  /-- No call is running; the answer of the last one. -/
  | ready (answer : Option (Answer T))
  | senderAlive (caller : Caller)
  | id (caller : Caller)
  | cloneValue (caller : Caller)
  | lock
  /-- Has the lock and found nothing new. -/
  | wait
  | waiting
  deriving DecidableEq

namespace ReceiverPc

def isAbsent : ReceiverPc T → Bool
  | absent => true
  | _ => false

def isReady : ReceiverPc T → Bool
  | ready _ => true
  | _ => false

def isWaiting : ReceiverPc T → Bool
  | waiting => true
  | _ => false

theorem isAbsent_iff {pc : ReceiverPc T} : pc.isAbsent = true ↔ pc = absent := by
  cases pc <;> simp [isAbsent]

theorem isReady_iff {pc : ReceiverPc T} : pc.isReady = true ↔ ∃ a, pc = ready a := by
  cases pc <;> simp [isReady]

theorem isWaiting_iff {pc : ReceiverPc T} : pc.isWaiting = true ↔ pc = waiting := by
  cases pc <;> simp [isWaiting]

end ReceiverPc

structure Receiver (T : Type) where
  pc : ReceiverPc T
  lastObserved : Nat
  deriving DecidableEq

/-- What a call of `send` does next. The drop of the sender starts at `lock`. -/
inductive SenderPc (T : Type)
  | idle
  | receiverCount (value : T)
  | replaceValue (value : T)
  | incrementId
  /-- Leaves the write lock. -/
  | leave
  | lock
  | notifyAll
  | unlock
  deriving DecidableEq

def SenderPc.isIdle : SenderPc T → Bool
  | idle => true
  | _ => false

theorem SenderPc.isIdle_iff {pc : SenderPc T} : pc.isIdle = true ↔ pc = idle := by
  cases pc <;> simp [isIdle]

/-! ## The shared state -/

structure State (ι κ T : Type) where
  value : T
  /-- The call which has the write lock of `value`. -/
  writer : Option κ
  id : Nat
  /-- The thread which has the mutex `wait_for_change`. -/
  waitForChange : Option (ι ⊕ κ)
  receiversCount : Nat
  senderAlive : Bool
  receivers : ι → Receiver T
  senders : κ → SenderPc T

/-- `channel`, with `r₀` the one receiver. -/
def channel [DecidableEq ι] (r₀ : ι) (init : T) : State ι κ T where
  value := init
  writer := none
  id := 1
  waitForChange := none
  receiversCount := 1
  senderAlive := true
  receivers r := ⟨if r = r₀ then .ready none else .absent, 0⟩
  senders _ := .idle

namespace State

section

variable [DecidableEq ι] [DecidableEq κ] (s : State ι κ T)

def setReceiver (r : ι) (receiver : Receiver T) : State ι κ T :=
  { s with receivers := Function.update s.receivers r receiver }

def goto (r : ι) (pc : ReceiverPc T) : State ι κ T :=
  s.setReceiver r ⟨pc, (s.receivers r).lastObserved⟩

def setSender (k : κ) (pc : SenderPc T) : State ι κ T :=
  { s with senders := Function.update s.senders k pc }

/-- The call of `r` returns; the lock guard goes with it. -/
def answer (r : ι) (caller : Caller) (a : Answer T) : State ι κ T :=
  let waitForChange := if caller = .underLock then none else s.waitForChange
  { s with waitForChange }.goto r (.ready (some a))

end

section

variable {s : State ι κ T} {k k' : κ} {r r' : ι} {pc : SenderPc T} {receiver : Receiver T}

@[simp, grind =] theorem senders_setSender [DecidableEq κ] :
    (s.setSender k pc).senders k' = if k' = k then pc else s.senders k' :=
  Function.update_apply ..

@[simp, grind =] theorem receivers_setSender [DecidableEq κ] :
    (s.setSender k pc).receivers r = s.receivers r := rfl

@[simp, grind =] theorem id_setSender [DecidableEq κ] : (s.setSender k pc).id = s.id := rfl

@[simp, grind =] theorem writer_setSender [DecidableEq κ] :
    (s.setSender k pc).writer = s.writer := rfl

@[simp, grind =] theorem waitForChange_setSender [DecidableEq κ] :
    (s.setSender k pc).waitForChange = s.waitForChange := rfl

@[simp, grind =] theorem senderAlive_setSender [DecidableEq κ] :
    (s.setSender k pc).senderAlive = s.senderAlive := rfl

@[simp, grind =] theorem receivers_setReceiver [DecidableEq ι] :
    (s.setReceiver r receiver).receivers r' = if r' = r then receiver else s.receivers r' :=
  Function.update_apply ..

@[simp, grind =] theorem senders_setReceiver [DecidableEq ι] :
    (s.setReceiver r receiver).senders k = s.senders k := rfl

@[simp, grind =] theorem id_setReceiver [DecidableEq ι] :
    (s.setReceiver r receiver).id = s.id := rfl

@[simp, grind =] theorem writer_setReceiver [DecidableEq ι] :
    (s.setReceiver r receiver).writer = s.writer := rfl

@[simp, grind =] theorem waitForChange_setReceiver [DecidableEq ι] :
    (s.setReceiver r receiver).waitForChange = s.waitForChange := rfl

@[simp, grind =] theorem senderAlive_setReceiver [DecidableEq ι] :
    (s.setReceiver r receiver).senderAlive = s.senderAlive := rfl

end

end State

/-- `Condvar::notify_all` for one thread. -/
def Receiver.notify (receiver : Receiver T) : Receiver T :=
  if receiver.pc.isWaiting then { receiver with pc := .lock } else receiver

/-! ## Steps -/

inductive Event (ι κ T : Type)
  | send (k : κ) (value : T)
  | dropSender (k : κ)
  /-- The next step of a call of `send`. -/
  | sender (k : κ)
  | getChanged (r : ι)
  | waitForChange (r : ι)
  /-- The next step of the receiver's call. -/
  | receiver (r : ι)
  /-- `Condvar::wait` returns without a notification. -/
  | spurious (r : ι)
  | clone (r r' : ι)
  | drop (r : ι)
  deriving DecidableEq

variable [DecidableEq ι] [DecidableEq κ] (s : State ι κ T)

/-- `send`: `replace_value`, then `wake_up_threads`. -/
def stepSender (k : κ) : Option (State ι κ T) :=
  match s.senders k with
  | .idle => none
  | .receiverCount value =>
    some (s.setSender k (if s.receiversCount = 0 then .idle else .replaceValue value))
  | .replaceValue value =>
    if s.writer = none then
      some ({ s with writer := some k, value }.setSender k .incrementId)
    else none
  | .incrementId => some ({ s with id := (s.id + 1) % 2 ^ 64 }.setSender k .leave)
  | .leave => some ({ s with writer := none }.setSender k .lock)
  | .lock =>
    if s.waitForChange = none then
      some ({ s with waitForChange := some (.inr k) }.setSender k .notifyAll)
    else none
  | .notifyAll => 
    some ({ s with receivers := fun r => (s.receivers r).notify }.setSender k .unlock)
  | .unlock => some ({ s with waitForChange := none }.setSender k .idle)

/-- `get_changed_internal` and the loop of `wait_for_change` around it. -/
def stepReceiver (r : ι) : Option (State ι κ T) :=
  match (s.receivers r).pc with
  | .absent | .ready _ | .waiting => none
  | .senderAlive caller =>
    some (if s.senderAlive then s.goto r (.id caller) else s.answer r caller .channelClosed)
  | .id caller =>
    if (s.receivers r).lastObserved = s.id then
      match caller with
      | .getChanged => some (s.answer r .getChanged .unchanged)
      | .fastPath => some (s.goto r .lock)
      | .underLock => some (s.goto r .wait)
    else some (s.setReceiver r ⟨.cloneValue caller, s.id⟩)
  | .cloneValue caller =>
    if s.writer = none then some (s.answer r caller (.changed s.value)) else none
  | .lock =>
    if s.waitForChange = none then
      some ({ s with waitForChange := some (.inl r) }.goto r (.senderAlive .underLock))
    else none
  | .wait => some ({ s with waitForChange := none }.goto r .waiting)

/-- A call starts: the receiver is borrowed mutably, so that no other call of it runs. -/
def startCall (r : ι) (caller : Caller) : Option (State ι κ T) :=
  match (s.receivers r).pc with
  | .ready _ => some (s.goto r (.senderAlive caller))
  | _ => none

/-- One step. The sender is dropped by its owner, when no call borrows it. -/
def step [Fintype κ] (s : State ι κ T) : Event ι κ T → Option (State ι κ T)
  | .send k value =>
    if s.senderAlive ∧ (s.senders k).isIdle then
      some (s.setSender k (.receiverCount value))
    else none
  | .dropSender k =>
    if s.senderAlive ∧ ∀ k', (s.senders k').isIdle then
      some ({ s with senderAlive := false }.setSender k .lock)
    else none
  | .sender k => stepSender s k
  | .getChanged r => startCall s r .getChanged
  | .waitForChange r => startCall s r .fastPath
  | .receiver r => stepReceiver s r
  | .spurious r => if (s.receivers r).pc.isWaiting then some (s.goto r .lock) else none
  | .clone r r' =>
    if (s.receivers r).pc.isReady ∧ (s.receivers r').pc.isAbsent then
      some ({ s with receiversCount := (s.receiversCount + 1) % 2 ^ 64 }.setReceiver r'
        ⟨.ready none, (s.receivers r).lastObserved⟩)
    else none
  | .drop r =>
    if (s.receivers r).pc.isReady then
      some ({ s with receiversCount := (s.receiversCount + 2 ^ 64 - 1) % 2 ^ 64 }.goto r .absent)
    else none

/-! ## What has been sent and delivered -/

/-- A value which a receiver was given: the number of the change it had observed, and the place of
the value among those sent. -/
structure Delivery (T : Type) where
  id : Nat
  index : Nat
  value : T

/-- The values written so far, the initial one first, how many of them the number of the change
counts, and what each receiver, or the one it is a clone of, was given. -/
structure History (ι T : Type) where
  sent : List T
  published : Nat
  got : ι → List (Delivery T)

def History.start (init : T) : History ι T := ⟨[init], 1, fun _ => []⟩

/-- What the step `e` from `s` to `s'` adds to the history. -/
def note (h : History ι T) (s : State ι κ T) (e : Event ι κ T) (s' : State ι κ T) : History ι T :=
  match e with
  | .sender k =>
    match s.senders k with
    | .replaceValue value => { h with sent := h.sent ++ [value] }
    | .incrementId => { h with published := h.published + 1 }
    | _ => h
  | .receiver r =>
    match (s'.receivers r).pc with
    | .ready (some (.changed value)) =>
      let d := ⟨(s'.receivers r).lastObserved, h.sent.length - 1, value⟩
      { h with got := Function.update h.got r (h.got r ++ [d]) }
    | _ => h
  | .clone r r' => { h with got := Function.update h.got r' (h.got r) }
  | _ => h

end KeryxMiner.Work.Watch
