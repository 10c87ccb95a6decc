import Mathlib.Data.List.Chain
import KeryxMiner.Work.Range

/-!
# The nonces the workers test

A CPU worker takes the range over from the job it waited for, and keeps it for the jobs it takes
while it works (`CpuWorker.KeepsRange`). A GPU worker reads the range from the job of each batch;
that the batches stay inside rests on the masks being masks of low bits.
-/

namespace KeryxMiner.Work

open Stratum

variable {cfg : Config} {m : Miner} {c : Channel} {e : Event}

/-! ## CPU workers -/

/-- The bits which `mask` varies are the job's to vary, and the bits of `fixed` outside are the
job's. -/
def State.Covers (s : State) (mask fixed : UInt64) : Prop :=
  (mask &&& ~~~fixed) &&& ~~~s.nonceMask = 0 ∧
    fixed &&& ~~~s.nonceMask = s.nonceFixed &&& ~~~s.nonceMask

instance {s : State} {mask fixed : UInt64} : Decidable (s.Covers mask fixed) :=
  inferInstanceAs (Decidable (_ ∧ _))

/-- The job's range contains all nonces which `mask` and `fixed` let through. -/
theorem State.covers_iff {s : State} {mask fixed : UInt64} :
    s.Covers mask fixed ↔ ∀ n, s.InRange ((n &&& mask) ||| fixed) := by
  have hsplit (n : UInt64) : ((n &&& mask) ||| fixed) &&& ~~~s.nonceMask =
      (n &&& ((mask &&& ~~~fixed) &&& ~~~s.nonceMask)) ||| (fixed &&& ~~~s.nonceMask) := by
    apply word_ext
    intro i hi
    cases h : fixed.toBitVec[i] <;> cases h' : s.nonceMask.toBitVec[i] <;> simp [h, h']
  constructor
  · rintro ⟨hmask, hfixed⟩ n
    rw [State.InRange, hsplit, hmask, hfixed]
    simp
  · intro h
    have hfixed : fixed &&& ~~~s.nonceMask = s.nonceFixed &&& ~~~s.nonceMask := by
      simpa [State.InRange] using h 0
    have hall : (-1 &&& ((mask &&& ~~~fixed) &&& ~~~s.nonceMask)) ||| (fixed &&& ~~~s.nonceMask) =
        fixed &&& ~~~s.nonceMask := by
      rw [← hsplit, hfixed]
      exact h (-1)
    refine ⟨?_, hfixed⟩
    apply word_ext
    intro i hi
    have hbit := congrArg (fun x : UInt64 => x.toBitVec[i]) hall
    cases h : fixed.toBitVec[i] <;> cases h' : s.nonceMask.toBitVec[i] <;> simp [h, h'] at hbit ⊢
    exact hbit

theorem State.covers_self {s : State} : s.Covers s.nonceMask s.nonceFixed := by
  refine ⟨?_, rfl⟩
  apply word_ext
  intro i hi
  cases h : s.nonceMask.toBitVec[i] <;> simp [h]

namespace CpuWorker

variable {w : CpuWorker} {found : Bool}

/-- The job which the receiver would find. -/
def newJob (w : CpuWorker) (c : Channel) : Option State :=
  match c.getChanged w.lastObserved with
  | some (some (.job s)) => some s
  | _ => none

/-- A job taken while another one is in work covers the range the worker has. -/
def KeepsRange (w : CpuWorker) (c : Channel) : Prop :=
  w.state.isSome → (w.next + 1) % 128 = 0 → ∀ s ∈ w.newJob c, s.Covers w.mask w.fixed

instance : Decidable (w.KeepsRange c) := inferInstanceAs (Decidable (_ → _))

structure Ok (w : CpuWorker) : Prop where
  covers : ∀ s ∈ w.state, s.Covers w.mask w.fixed
  inRange : ∀ t ∈ w.tested, t.2.InRange t.1

theorem ok_spawned {nonce : UInt64} : (spawned nonce).Ok := ⟨nofun, nofun⟩

theorem Ok.wait (h : w.Ok) : (w.wait c).Ok := by
  rw [CpuWorker.wait]
  split
  · exact h
  · next cmd _ =>
    match cmd with
    | some (.job s) => exact ⟨by rintro _ ⟨⟩; exact s.covers_self, h.inRange⟩
    | some .close =>
      rcases hs : w.state with _ | s
      · exact ⟨by simp [command, hs], by simpa [command, hs] using h.inRange⟩
      · refine ⟨?_, by simpa [command, hs] using h.inRange⟩
        simp only [command, hs]
        rintro _ ⟨⟩
        exact s.covers_self
    | none => exact ⟨nofun, h.inRange⟩

theorem Ok.poll (h : w.Ok) (hnew : ∀ s ∈ w.newJob c, s.Covers w.mask w.fixed) :
    (w.poll c).Ok := by
  rw [CpuWorker.poll]
  split
  · exact h
  · next cmd hcmd =>
    match cmd with
    | some (.job s) => exact ⟨by rintro _ ⟨⟩; exact hnew s (by simp [newJob, hcmd]), h.inRange⟩
    | some .close => exact ⟨h.covers, h.inRange⟩
    | none => exact ⟨nofun, h.inRange⟩

theorem Ok.iterate (h : w.Ok) (hkeep : w.KeepsRange c) : (w.iterate c found).Ok := by
  rw [CpuWorker.iterate]
  split
  · exact h
  split
  · exact h.wait
  next s hs =>
  have hcovers : s.Covers w.mask w.fixed := h.covers s hs
  have htested : Ok { w with
      tested := w.tested ++ [(w.next, s)]
      state := if found && s.fullBlock then none else some s
      nonce := w.next + 1 } := by
    constructor
    · intro s' hs'
      change s' ∈ (if (found && s.fullBlock) = true then none else some s) at hs'
      split at hs'
      · cases hs'
      · cases hs'
        exact hcovers
    · intro t ht
      rcases List.mem_append.mp ht with ht | ht
      · exact h.inRange t ht
      · rw [List.mem_singleton.mp ht]
        exact State.covers_iff.mp hcovers w.nonce
  dsimp only
  split
  · next hpoll => exact htested.poll fun s' hs' => hkeep (by simp [hs]) hpoll s' hs'
  · exact htested

end CpuWorker

/-! ## GPU batches -/

namespace Batch

variable {b b' : Batch} {i : Nat}

/-- A batch as a round of the GPU loop launches it. -/
structure Launched (cfg : Config) (b : Batch) : Prop where
  low : ∃ k, LowMask k b.job.nonceMask
  size : b.size =
    if b.plain then min cfg.batch.toNat (2 ^ 32 - 1) else cfg.workload.toNat % 2 ^ 32
  start : b.plain = true → ∃ cursor,
    b.start = pomBatchStart cursor cfg.batch b.job.nonceMask b.job.nonceFixed

theorem Launched.inRange (h : b.Launched cfg) (hsize : b.size ≤ b.job.nonceMask.toNat + 1)
    (hi : i < b.size) : b.job.InRange (b.nonce i) := by
  rw [State.InRange, Batch.nonce]
  split
  · next hplain =>
    obtain ⟨k, hk⟩ := h.low
    obtain ⟨cursor, hstart⟩ := h.start hplain
    have hcap : b.size ≤ cfg.batch.toNat := by
      rw [h.size, if_pos hplain]
      exact Nat.min_le_left ..
    have hpow := Nat.two_pow_pos k
    have hmask := hk.2
    rw [hstart]
    exact pomBatchStart_inRange hk hcap (by omega) hi
  · exact and_or_and_not_right

/-- `b'` begins where `b` ends, or the range restarts because no batch fits behind `b`. -/
def Successive (b b' : Batch) : Prop :=
  b'.job.nonceMask = b.job.nonceMask → b'.job.nonceFixed = b.job.nonceFixed →
    b'.start = b.start + UInt64.ofNat b.size ∨
      (b'.start = rangeStart b.job.nonceMask b.job.nonceFixed ∧
        b'.start.toNat + b.job.nonceMask.toNat < b.start.toNat + b.size + (b'.size - 1))

end Batch

/-- The batch behind the batch which starts at `start`. -/
theorem pomBatchStart_next {k : Nat} {cursor batch mask fixed start : UInt64}
    (hm : LowMask k mask) (hstart : start = pomBatchStart cursor batch mask fixed) :
    let next := pomBatchStart (start + batch) batch mask fixed
    next = start + batch ∨ (next = rangeStart mask fixed ∧
      next.toNat + mask.toNat < start.toNat + batch.toNat + (batch.toNat - 1)) := by
  intro next
  by_cases hfull : mask = -1
  · exact Or.inl (if_pos hfull)
  obtain ⟨free, hat, hfree⟩ := pomBatchStart_spec cursor batch fixed hm hfull
  obtain ⟨free', hat', hfree'⟩ := pomBatchStart_spec (start + batch) batch fixed hm hfull
  rw [← hstart] at hat
  have hnext : next.toNat = free' + (rangeStart mask fixed).toNat := hat'
  have hbase : (rangeStart mask fixed).toNat = 2 ^ k * (fixed.toNat / 2 ^ k) := hm.toNat_and_not
  have hcursor : (start + batch).toNat % 2 ^ k = (free + batch.toNat) % 2 ^ k := by
    have hdvd : 2 ^ k ∣ 2 ^ 64 := Nat.pow_dvd_pow 2 hm.1
    rw [UInt64.toNat_add, Nat.mod_mod_of_dvd _ hdvd, hat, hbase]
    rw [show free + 2 ^ k * (fixed.toNat / 2 ^ k) + batch.toNat =
      free + batch.toNat + 2 ^ k * (fixed.toNat / 2 ^ k) by omega, Nat.add_mul_mod_self_left]
  have hmask := hm.2
  have hpow := Nat.two_pow_pos k
  have hlt : free < 2 ^ k := by
    have := Nat.mod_lt cursor.toNat hpow
    omega
  have hmod : (free + batch.toNat) % 2 ^ k ≤ free + batch.toNat := Nat.mod_le ..
  have hrestart (h0 : free' = 0) (hroom : 2 ^ k ≤ free + batch.toNat + (batch.toNat - 1)) :
      next = rangeStart mask fixed ∧
        next.toNat + mask.toNat < start.toNat + batch.toNat + (batch.toNat - 1) := by
    refine ⟨UInt64.toNat_inj.mp (by omega), ?_⟩
    omega
  rcases hfree' with ⟨hfree', hfits⟩ | ⟨hfree', hnofit⟩
  · by_cases hend : free + batch.toNat < 2 ^ k
    · left
      rw [hcursor, Nat.mod_eq_of_lt hend] at hfree'
      have hsame : next.toNat = start.toNat + batch.toNat := by omega
      apply UInt64.toNat_inj.mp
      rw [UInt64.toNat_add, ← hsame, Nat.mod_eq_of_lt (UInt64.toNat_lt _)]
    · have hexact : free + batch.toNat = 2 ^ k ∨ batch.toNat = 2 ^ k ∧ free = 0 := by omega
      have hzero : (free + batch.toNat) % 2 ^ k = 0 := by
        rcases hexact with h | ⟨h, h0⟩
        · rw [h, Nat.mod_self]
        · rw [h, h0, Nat.zero_add, Nat.mod_self]
      exact Or.inr (hrestart (by omega) (by omega))
  · exact Or.inr (hrestart hfree' (by omega))

/-- The batch and the workload are not cut when they are passed on as `u32`. -/
def Config.Small (cfg : Config) : Prop :=
  cfg.batch.toNat < 2 ^ 32 ∧ cfg.workload.toNat < 2 ^ 32

namespace GpuWorker

variable {w : GpuWorker} {s : State} {turn : GpuTurn}

/-- The batches of one of the two kernels. -/
def batchesOf (w : GpuWorker) (plain : Bool) : List Batch := w.batches.filter (·.plain = plain)

structure Ok (cfg : Config) (w : GpuWorker) : Prop where
  low : ∀ s ∈ w.state, ∃ k, LowMask k s.nonceMask
  launched : ∀ b ∈ w.batches, b.Launched cfg
  pomNonce : ∀ b ∈ (w.batchesOf true).getLast?, w.pomNonce = b.start + cfg.batch
  nonceCursor : ∀ b ∈ (w.batchesOf false).getLast?, w.nonceCursor = b.start + cfg.workload
  chained : cfg.Small → ∀ plain, (w.batchesOf plain).IsChain Batch.Successive

theorem ok_spawned {pomNonce nonceCursor : UInt64} : (spawned pomNonce nonceCursor).Ok cfg :=
  ⟨nofun, nofun, nofun, nofun, fun _ _ => .nil⟩

/-- The channel's job has a mask of low bits. -/
def LowChannel (c : Channel) : Prop :=
  ∀ s, c.value = some (.job s) → ∃ k, LowMask k s.nonceMask

theorem Ok.command {cmd : Option WorkerCommand} (h : w.Ok cfg)
    (hcmd : ∀ s, cmd = some (.job s) → ∃ k, LowMask k s.nonceMask) : (w.command cmd).Ok cfg := by
  match cmd with
  | some (.job s) =>
    refine ⟨?_, h.launched, h.pomNonce, h.nonceCursor, h.chained⟩
    rintro _ ⟨⟩
    exact hcmd s rfl
  | some .close => exact ⟨h.low, h.launched, h.pomNonce, h.nonceCursor, h.chained⟩
  | none => exact ⟨nofun, h.launched, h.pomNonce, h.nonceCursor, h.chained⟩

theorem LowChannel.getChanged {n : Nat} {cmd : Option WorkerCommand} (hc : LowChannel c)
    (h : c.getChanged n = some cmd) : ∀ s, cmd = some (.job s) → ∃ k, LowMask k s.nonceMask := by
  intro s hs
  rw [Channel.getChanged] at h
  split at h <;> cases h
  exact hc s hs

theorem Ok.poll (h : w.Ok cfg) (hc : LowChannel c) : (w.poll c).Ok cfg := by
  rw [GpuWorker.poll]
  split
  · exact h
  · next cmd hcmd =>
    have hnew := h.command (hc.getChanged hcmd)
    exact ⟨hnew.low, hnew.launched, hnew.pomNonce, hnew.nonceCursor, hnew.chained⟩

theorem Ok.pollKeep (h : w.Ok cfg) (hc : LowChannel c) : (w.pollKeep c).Ok cfg := by
  rw [GpuWorker.pollKeep]
  split
  · exact h
  · exact ⟨h.low, h.launched, h.pomNonce, h.nonceCursor, h.chained⟩
  · next cmd _ hcmd =>
    have hnew := h.command (hc.getChanged hcmd)
    exact ⟨hnew.low, hnew.launched, hnew.pomNonce, hnew.nonceCursor, hnew.chained⟩

/-- The loop gives the job up, or keeps it. -/
theorem Ok.ofState {st : Option State} (h : w.Ok cfg) (hs : ∃ k, LowMask k s.nonceMask)
    (hst : ∀ s' ∈ st, s' = s) : Ok cfg { w with state := st } :=
  ⟨fun s' hs' => hst s' hs' ▸ hs, h.launched, h.pomNonce, h.nonceCursor, h.chained⟩

/-- A kernel's batches stay chained when the new one follows the last. -/
theorem chained_concat {l : List Batch} {b : Batch} (h : l.IsChain Batch.Successive)
    (hlast : ∀ b' ∈ l.getLast?, b'.Successive b) : (l ++ [b]).IsChain Batch.Successive := by
  apply h.append (.singleton b)
  intro b' hb' x hx
  cases hx
  exact hlast b' hb'

theorem Ok.grind (h : w.Ok cfg) (hs : ∃ k, LowMask k s.nonceMask) : (w.grind cfg s).Ok cfg where
  low := h.low
  launched := by
    intro b hb
    rcases List.mem_append.mp hb with hb | hb
    · exact h.launched b hb
    · rw [List.mem_singleton.mp hb]
      exact ⟨hs, rfl, fun _ => ⟨_, rfl⟩⟩
  pomNonce := by
    intro b hb
    simp only [batchesOf, GpuWorker.grind, List.filter_append] at hb
    simp at hb
    rw [← hb]
    rfl
  nonceCursor := by
    intro b hb
    apply h.nonceCursor b
    simpa [batchesOf, GpuWorker.grind, List.filter_append] using hb
  chained := by
    intro hsmall plain
    cases plain with
    | false =>
      simpa [batchesOf, GpuWorker.grind, List.filter_append] using h.chained hsmall false
    | true =>
      suffices ∀ b ∈ (w.batchesOf true).getLast?, b.Successive
          ⟨s, pomBatchStart w.pomNonce cfg.batch s.nonceMask s.nonceFixed,
            min cfg.batch.toNat (2 ^ 32 - 1), true⟩ by
        simpa [batchesOf, GpuWorker.grind, List.filter_append] using
          chained_concat (h.chained hsmall true) this
      intro b hb hmask hfixed
      dsimp only at hmask hfixed ⊢
      have hmem : b ∈ w.batchesOf true := List.mem_of_getLast? hb
      rw [batchesOf, List.mem_filter] at hmem
      have hplain : b.plain = true := of_decide_eq_true hmem.2
      obtain ⟨cursor, hstart⟩ := (h.launched b hmem.1).start hplain
      obtain ⟨k, hk⟩ := (h.launched b hmem.1).low
      have hsize : b.size = cfg.batch.toNat := by
        rw [(h.launched b hmem.1).size, if_pos hplain]
        have := hsmall.1
        omega
      have hcap : min cfg.batch.toNat (2 ^ 32 - 1) = cfg.batch.toNat := by
        have := hsmall.1
        omega
      rw [hcap, h.pomNonce b hb, hmask, hfixed, hsize, UInt64.ofNat_toNat]
      exact pomBatchStart_next hk hstart

theorem Ok.calculateHash (h : w.Ok cfg) (hs : ∃ k, LowMask k s.nonceMask) :
    (w.calculateHash cfg s).Ok cfg where
  low := h.low
  launched := by
    intro b hb
    rcases List.mem_append.mp hb with hb | hb
    · exact h.launched b hb
    · rw [List.mem_singleton.mp hb]
      exact ⟨hs, rfl, nofun⟩
  pomNonce := by
    intro b hb
    apply h.pomNonce b
    simpa [batchesOf, GpuWorker.calculateHash, List.filter_append] using hb
  nonceCursor := by
    intro b hb
    simp only [batchesOf, GpuWorker.calculateHash, List.filter_append] at hb
    simp at hb
    rw [← hb]
    rfl
  chained := by
    intro hsmall plain
    cases plain with
    | true =>
      simpa [batchesOf, GpuWorker.calculateHash, List.filter_append] using h.chained hsmall true
    | false =>
      suffices ∀ b ∈ (w.batchesOf false).getLast?, b.Successive
          ⟨s, w.nonceCursor, cfg.workload.toNat % 2 ^ 32, false⟩ by
        simpa [batchesOf, GpuWorker.calculateHash, List.filter_append] using
          chained_concat (h.chained hsmall false) this
      intro b hb _ _
      have hmem : b ∈ w.batchesOf false := List.mem_of_getLast? hb
      rw [batchesOf, List.mem_filter] at hmem
      have hplain : b.plain = false := of_decide_eq_true hmem.2
      have hsize : b.size = cfg.workload.toNat := by
        rw [(h.launched b hmem.1).size, hplain]
        exact Nat.mod_eq_of_lt hsmall.2
      left
      rw [hsize, UInt64.ofNat_toNat]
      exact h.nonceCursor b hb

theorem Ok.iterate (h : w.Ok cfg) (hc : LowChannel c) : (w.iterate cfg c turn).Ok cfg := by
  rw [GpuWorker.iterate]
  split
  · exact h
  split
  · exact h.poll hc
  next s hs =>
  have hlow : ∃ k, LowMask k s.nonceMask := h.low s hs
  split
  · split
    · exact h.pollKeep hc
    split
    · exact h.poll hc
    split
    · exact h.ofState hlow nofun
    split
    · exact h.poll hc
    dsimp only
    split
    · refine (h.grind hlow).ofState hlow ?_
      intro s' hs'
      split at hs' <;> cases hs'
      rfl
    · exact (h.grind hlow).pollKeep hc
  · dsimp only
    split
    · split
      · refine (h.calculateHash hlow).ofState hlow ?_
        intro s' hs'
        split at hs' <;> cases hs'
        rfl
      · have := h.calculateHash hlow
        exact ⟨this.low, this.launched, this.pomNonce, this.nonceCursor, this.chained⟩
    · exact (h.calculateHash hlow).poll hc

end GpuWorker

/-! ## Runs -/

/-- The condition of a step: a CPU worker keeps its range. -/
def RangeKept (m : Miner) : Event → Prop
  | .cpu i _ => (m.cpus i).KeepsRange m.blockChannel
  | _ => True

instance : Decidable (RangeKept m e) :=
  match e with
  | .cpu i _ => inferInstanceAs (Decidable ((m.cpus i).KeepsRange m.blockChannel))
  | .connect _ | .setExtranonce _ _ | .notify _ | .template _ | .suspend | .close | .gpu _ _ =>
    inferInstanceAs (Decidable True)

structure MinerOk (cfg : Config) (m : Miner) : Prop where
  handler : ∃ k, LowMask k m.session.handler.nonceMask
  channel : GpuWorker.LowChannel m.blockChannel
  gpus : ∀ i, (m.gpus i).Ok cfg

theorem minerOk_init {session : Session} {address : String}
    {nonces pomNonces cursors : Nat → UInt64} :
    MinerOk cfg (.init session address nonces pomNonces cursors) :=
  ⟨⟨64, .full⟩, nofun, fun _ => GpuWorker.ok_spawned⟩

theorem MinerOk.processBlock {block : Option BlockSeed} (h : MinerOk cfg m)
    (hblock : ∀ daa mask fixed, block = some (.partialBlock daa mask fixed) → ∃ k, LowMask k mask) :
    MinerOk cfg (m.processBlock block) := by
  match block with
  | some (.fullBlock daa) => exact ⟨h.handler, by rintro _ ⟨⟩; exact ⟨64, .full⟩, h.gpus⟩
  | some (.partialBlock daa mask fixed) =>
    exact ⟨h.handler, by rintro _ ⟨⟩; exact hblock daa mask fixed rfl, h.gpus⟩
  | none =>
    rw [Miner.processBlock]
    split
    · exact h
    · exact ⟨h.handler, nofun, h.gpus⟩

theorem MinerOk.step (h : MinerOk cfg m) : MinerOk cfg (m.step cfg e) := by
  cases e with
  | connect address => exact ⟨⟨64, .full⟩, h.channel, h.gpus⟩
  | setExtranonce extranonce nonceSize =>
    exact ⟨setExtranonce_lowMask h.handler, h.channel, h.gpus⟩
  | notify daa =>
    simp only [Miner.step]
    apply h.processBlock
    rintro _ _ _ ⟨⟩
    exact h.handler
  | template daa =>
    simp only [Miner.step]
    apply h.processBlock
    rintro _ _ _ ⟨⟩
  | suspend =>
    simp only [Miner.step]
    apply h.processBlock
    rintro _ _ _ ⟨⟩
  | close => exact ⟨h.handler, nofun, h.gpus⟩
  | cpu i found => exact ⟨h.handler, h.channel, h.gpus⟩
  | gpu i turn =>
    refine ⟨h.handler, h.channel, fun j => ?_⟩
    rcases eq_or_ne j i with rfl | hj
    · simpa [Miner.step] using (h.gpus j).iterate h.channel
    · simpa [Miner.step, hj] using h.gpus j

/-- The CPU workers of a miner. -/
def CpusOk (m : Miner) : Prop := ∀ i, (m.cpus i).Ok

theorem CpusOk.step (h : CpusOk m) (he : RangeKept m e) : CpusOk (m.step cfg e) := by
  cases e with
  | cpu i found =>
    intro j
    rcases eq_or_ne j i with rfl | hj
    · simpa [Miner.step] using (h j).iterate he
    · simpa [Miner.step, hj] using h j
  | suspend =>
    simp only [Miner.step, Miner.processBlock]
    split <;> exact h
  | _ => exact h

/-- What the workers tested lies in the ranges of the jobs, and a GPU batch begins where the one
before it ends. -/
structure NoncesRight (m : Miner) : Prop where
  cpu : ∀ i, ∀ t ∈ (m.cpus i).tested, t.2.InRange t.1
  gpu : ∀ i, ∀ b ∈ (m.gpus i).batches, b.size ≤ b.job.nonceMask.toNat + 1 →
    ∀ lane < b.size, b.job.InRange (b.nonce lane)
  successive : ∀ i plain, ((m.gpus i).batchesOf plain).IsChain Batch.Successive

/-- An extranonce is set as it should be exactly when it fits; and in a run where no CPU worker
takes a job of another range into its work, all nonces are right. -/
theorem nonces_right (cfg : Config) (session : Session) (address : String)
    (nonces pomNonces cursors : Nat → UInt64) (evs : List Event) (s : Session)
    (extranonce : String) (nonceSize : UInt32) :
    (ExtranonceRight s extranonce nonceSize ↔ ExtranonceFits extranonce nonceSize) ∧
      (cfg.Small →
        Meets (Miner.step cfg) RangeKept (.init session address nonces pomNonces cursors) evs →
          NoncesRight
            (run (Miner.step cfg) (.init session address nonces pomNonces cursors) evs)) := by
  refine ⟨extranonceRight_iff, ?_⟩
  intro hsmall hmeets
  have hok : MinerOk cfg (run (Miner.step cfg) (.init session address nonces pomNonces cursors) evs) :=
    run_invariant_of_step (fun _ _ h => h.step) minerOk_init
  have hcpus : CpusOk (run (Miner.step cfg) (.init session address nonces pomNonces cursors) evs) :=
    run_invariant (fun _ _ he h => h.step he) (fun _ => CpuWorker.ok_spawned) hmeets
  constructor
  · intro i
    exact (hcpus i).inRange
  · intro i b hb hsize lane hlane
    exact ((hok.gpus i).launched b hb).inRange hsize hlane
  · intro i plain
    exact (hok.gpus i).chained hsmall plain

/-- Two jobs of one range, the second taken while the first is in work. -/
theorem nonces_right_same_range :
    let session : Session := ⟨.empty, [], .fresh "pool"⟩
    let evs : List Event := [.setExtranonce "0a1b" 6, .notify 5, .cpu 0 false, .notify 6,
      .cpu 0 false, .cpu 0 false, .gpu 0 ⟨false, true, true, false, false⟩,
      .gpu 0 ⟨false, true, true, false, false⟩, .gpu 0 ⟨false, true, true, false, false⟩]
    let m := run (Miner.step ⟨64, 64, 0, 0⟩)
      (.init session "pool" (fun _ => 127) (fun _ => 99) (fun _ => 0)) evs
    ExtranonceRight session "0a1b" 6 ∧ NoncesRight m ∧
      (m.cpus 0).tested.map (·.1) = [0x0a1b00000000007f, 0x0a1b000000000080] ∧
      (m.gpus 0).batches.map (·.start) = [0x0a1b000000000063, 0x0a1b0000000000a3] := by
  have hright := nonces_right ⟨64, 64, 0, 0⟩ ⟨.empty, [], .fresh "pool"⟩ "pool" (fun _ => 127)
    (fun _ => 99) (fun _ => 0)
    [.setExtranonce "0a1b" 6, .notify 5, .cpu 0 false, .notify 6,
      .cpu 0 false, .cpu 0 false, .gpu 0 ⟨false, true, true, false, false⟩,
      .gpu 0 ⟨false, true, true, false, false⟩, .gpu 0 ⟨false, true, true, false, false⟩]
    ⟨.empty, [], .fresh "pool"⟩ "0a1b" 6
  refine ⟨hright.1.mpr ?_, hright.2 ?_ ?_, ?_⟩
  · rintro n ⟨⟩
    decide
  · exact ⟨by decide, by decide⟩
  · decide
  · decide

/-- An extranonce of more bytes than the nonce has left loses its upper bits; and a job of another
range, taken while a job is in work, is mined in the old range. -/
theorem nonces_wrong :
    let session : Session := ⟨.empty, [], .fresh "pool"⟩
    ¬ExtranonceRight session "ffff" 7 ∧
      ¬NoncesRight (run (Miner.step ⟨64, 64, 0, 0⟩)
        (.init session "pool" (fun _ => 127) (fun _ => 0) (fun _ => 0))
        [.setExtranonce "01" 6, .notify 5, .cpu 0 false, .setExtranonce "02" 6, .notify 6,
          .cpu 0 false, .cpu 0 false]) := by
  constructor
  · rw [extranonceRight_iff]
    intro h
    exact absurd (h 0xffff rfl).2 (by decide)
  · intro h
    have hlast := h.cpu 0 (0x0001000000000080, ⟨1, 0xffffffffffff, 0x0002000000000000, 6, false⟩)
      (by decide)
    exact absurd hlast (by decide)

end KeryxMiner.Work
