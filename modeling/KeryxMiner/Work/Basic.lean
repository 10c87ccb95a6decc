import Mathlib.Logic.Function.Basic
import KeryxMiner.Stratum.Basic

/-!
# Jobs and workers

A job goes from the pool client through a watch channel, which keeps the newest value only, to the
workers. Each worker is a loop, of which `CpuWorker.iterate` and `GpuWorker.iterate` are one round;
a round which finds no job waits for one and tests nothing.
-/

namespace KeryxMiner.Work

open Stratum

/-! ## Jobs -/

/-- The parts of a block seed which the workers read. -/
inductive BlockSeed
  | fullBlock (daaScore : Nat)
  | partialBlock (daaScore : Nat) (nonceMask nonceFixed : UInt64)
  deriving DecidableEq

/-- `pow::State`. -/
structure State where
  id : Nat
  nonceMask : UInt64
  nonceFixed : UInt64
  daaScore : Nat
  fullBlock : Bool
  deriving DecidableEq

def State.new (id : Nat) : BlockSeed → State
  | .fullBlock daaScore => ⟨id, -1, 0, daaScore, true⟩
  | .partialBlock daaScore nonceMask nonceFixed => ⟨id, nonceMask, nonceFixed, daaScore, false⟩

/-- The nonce is one of those which the job leaves to this miner. -/
def State.InRange (s : State) (nonce : UInt64) : Prop :=
  nonce &&& ~~~s.nonceMask = s.nonceFixed &&& ~~~s.nonceMask

instance {s : State} {nonce : UInt64} : Decidable (s.InRange nonce) :=
  inferInstanceAs (Decidable (_ = _))

inductive WorkerCommand
  | job (s : State)
  | close
  deriving DecidableEq

/-! ## The job channel -/

/-- A `watch` channel: the newest value and the number of its change. -/
structure Channel where
  value : Option WorkerCommand
  id : Nat

def Channel.send (c : Channel) (value : Option WorkerCommand) : Channel := ⟨value, c.id + 1⟩

/-- `get_changed` of a receiver which has seen the change `lastObserved`. -/
def Channel.getChanged (c : Channel) (lastObserved : Nat) : Option (Option WorkerCommand) :=
  if lastObserved = c.id then none else some c.value

/-! ## The CPU worker -/

structure CpuWorker where
  nonce : UInt64
  mask : UInt64
  fixed : UInt64
  state : Option State
  lastObserved : Nat
  running : Bool
  /-- The nonces tested so far, each with the job it was tested for. -/
  tested : List (UInt64 × State)

def CpuWorker.spawned (nonce : UInt64) : CpuWorker where
  nonce := nonce
  mask := 0
  fixed := 0
  state := none
  lastObserved := 0
  running := true
  tested := []

namespace CpuWorker

variable (w : CpuWorker)

def command : Option WorkerCommand → CpuWorker
  | some (.job s) => { w with state := some s }
  | some .close => { w with running := false }
  | none => { w with state := none }

/-- `get_changed` while a job is in work. -/
def poll (c : Channel) : CpuWorker :=
  match c.getChanged w.lastObserved with
  | none => w
  | some cmd => { w.command cmd with lastObserved := c.id }

/-- Without a job: `wait_for_change`, which is the only place where the range is taken over. -/
def wait (c : Channel) : CpuWorker :=
  match c.getChanged w.lastObserved with
  | none => w
  | some cmd =>
    let w := { w.command cmd with lastObserved := c.id }
    match w.state with
    | some s => { w with mask := s.nonceMask, fixed := s.nonceFixed }
    | none => w

/-- The nonce which the next round tests. -/
def next : UInt64 := (w.nonce &&& w.mask) ||| w.fixed

/-- One round of `launch_cpu_miner`; `found` says that the tested nonce makes a block. -/
def iterate (c : Channel) (found : Bool) : CpuWorker :=
  if !w.running then w
  else
    match w.state with
    | none => w.wait c
    | some s =>
      let nonce := w.next
      let w := { w with
        tested := w.tested ++ [(nonce, s)]
        state := if found && s.fullBlock then none else some s
        nonce := nonce + 1 }
      if (nonce + 1) % 128 = 0 then w.poll c else w

end CpuWorker

/-! ## The GPU worker -/

/-- What is fixed while the process runs. -/
structure Config where
  /-- `v4_batch()`. -/
  batch : UInt64
  /-- The batch of the kHeavyHash kernel. -/
  workload : UInt64
  pomActivationDaa : Nat
  pomV4ActivationDaa : Nat

/-- `batch.saturating_sub(1)`. -/
def saturatingPred (batch : UInt64) : UInt64 := if batch = 0 then 0 else batch - 1

/-- The first nonce of the next batch, so that the batch stays inside the range. -/
def pomBatchStart (cursor batch nonceMask nonceFixed : UInt64) : UInt64 :=
  if nonceMask = -1 then cursor
  else
    let free := cursor &&& nonceMask
    let last := saturatingPred batch
    let free := if nonceMask < last ∨ nonceMask - last < free then 0 else free
    free ||| (nonceFixed &&& ~~~nonceMask)

/-- A batch as the kernel gets it. The PoM kernel grinds a plain run of nonces, the other one fits
every nonce into the range. -/
structure Batch where
  job : State
  start : UInt64
  size : Nat
  plain : Bool

/-- The nonce of lane `i`. -/
def Batch.nonce (b : Batch) (i : Nat) : UInt64 :=
  let nonce := b.start + UInt64.ofNat i
  if b.plain then nonce else (nonce &&& b.job.nonceMask) ||| b.job.nonceFixed

structure GpuWorker where
  pomNonce : UInt64
  /-- The cursor of the kHeavyHash kernel. -/
  nonceCursor : UInt64
  state : Option State
  lastObserved : Nat
  running : Bool
  batches : List Batch

def GpuWorker.spawned (pomNonce nonceCursor : UInt64) : GpuWorker where
  pomNonce := pomNonce
  nonceCursor := nonceCursor
  state := none
  lastObserved := 0
  running := true
  batches := []

/-- What a round of the GPU loop depends on besides the job. -/
structure GpuTurn where
  /-- An inference owns this GPU. -/
  paused : Bool
  installed : Bool
  /-- The template has its block task, or needs none. -/
  task : Bool
  found : Bool
  /-- The host confirms the nonce found. -/
  built : Bool

namespace GpuWorker

variable (cfg : Config) (w : GpuWorker)

def command : Option WorkerCommand → GpuWorker
  | some (.job s) => { w with state := some s }
  | some .close => { w with running := false }
  | none => { w with state := none }

def poll (c : Channel) : GpuWorker :=
  match c.getChanged w.lastObserved with
  | none => w
  | some cmd => { w.command cmd with lastObserved := c.id }

/-- `poll` where an empty command leaves the job. -/
def pollKeep (c : Channel) : GpuWorker :=
  match c.getChanged w.lastObserved with
  | none => w
  | some none => { w with lastObserved := c.id }
  | some cmd => { w.command cmd with lastObserved := c.id }

/-- `mine_v4`, whose batch is a `u32`, and the cursor behind it. -/
def grind (s : State) : GpuWorker :=
  let start := pomBatchStart w.pomNonce cfg.batch s.nonceMask s.nonceFixed
  { w with
    batches := w.batches ++ [⟨s, start, min cfg.batch.toNat (2 ^ 32 - 1), true⟩]
    pomNonce := start + cfg.batch }

/-- `calculate_hash`, which casts the workload to `u32`. -/
def calculateHash (s : State) : GpuWorker :=
  { w with
    batches := w.batches ++ [⟨s, w.nonceCursor, cfg.workload.toNat % 2 ^ 32, false⟩]
    nonceCursor := w.nonceCursor + cfg.workload }

/-- One round of `launch_gpu_miner`. A reload of the model is a round of its own. -/
def iterate (c : Channel) (t : GpuTurn) : GpuWorker :=
  if !w.running then w
  else
    match w.state with
    | none => w.poll c
    | some s =>
      if cfg.pomActivationDaa ≤ s.daaScore then
        if t.paused then w.pollKeep c
        else if !t.installed then w.poll c
        else if s.daaScore < cfg.pomV4ActivationDaa then { w with state := none }
        else if !t.task then w.poll c
        else
          let w := w.grind cfg s
          if t.found then
            { w with state := if t.built && s.fullBlock then none else some s }
          else w.pollKeep c
      else
        let w := w.calculateHash cfg s
        if t.found then
          if t.built then { w with state := if s.fullBlock then none else some s }
          else { w with running := false }
        else w.poll c

end GpuWorker

/-! ## The process -/

structure Miner where
  session : Session
  blockChannel : Channel
  currentStateId : Nat
  isSynced : Bool
  cpus : Nat → CpuWorker
  gpus : Nat → GpuWorker

inductive Event
  | connect (address : String)
  | setExtranonce (extranonce : String) (nonceSize : UInt32)
  /-- The pool sends a job. -/
  | notify (daaScore : Nat)
  /-- A node sends a template, when the miner works without a pool. -/
  | template (daaScore : Nat)
  /-- Mining is suspended. -/
  | suspend
  | close
  | cpu (i : Nat) (found : Bool)
  | gpu (i : Nat) (turn : GpuTurn)

namespace Miner

variable (cfg : Config) (m : Miner)

def processBlock (block : Option BlockSeed) : Miner :=
  match block with
  | some b =>
    { m with
      isSynced := true
      currentStateId := m.currentStateId + 1
      blockChannel := m.blockChannel.send (some (.job (.new m.currentStateId b))) }
  | none =>
    if !m.isSynced then m
    else { m with isSynced := false, blockChannel := m.blockChannel.send none }

def step : Event → Miner
  | .connect address => { m with session.handler := .fresh address }
  | .setExtranonce extranonce nonceSize =>
    { m with session := (m.session.setExtranonce extranonce nonceSize).1 }
  | .notify daaScore =>
    let h := m.session.handler
    m.processBlock (some (.partialBlock daaScore h.nonceMask h.nonceFixed))
  | .template daaScore => m.processBlock (some (.fullBlock daaScore))
  | .suspend => m.processBlock none
  | .close => { m with blockChannel := m.blockChannel.send (some .close) }
  | .cpu i found =>
    { m with cpus := Function.update m.cpus i ((m.cpus i).iterate m.blockChannel found) }
  | .gpu i turn =>
    { m with gpus := Function.update m.gpus i ((m.gpus i).iterate cfg m.blockChannel turn) }

/-- The workers start at random nonces. -/
def init (session : Session) (address : String) (nonces pomNonces cursors : Nat → UInt64) :
    Miner where
  session := { session with handler := .fresh address }
  blockChannel := ⟨none, 1⟩
  currentStateId := 0
  isSynced := true
  cpus i := .spawned (nonces i)
  gpus i := .spawned (pomNonces i) (cursors i)

end Miner

end KeryxMiner.Work
