import KeryxMiner.Runs
import KeryxMiner.Engine.SeqSpec

/-!
# The trace configuration

The engine keeps the configuration it last gave to the backend and answers from it. The backend is
configured in four calls, any of which may fail, so what is kept has to be what all four of the last
ones were made for (`Right`). A backend that accepts a manifest and then has no leaves for it leaves
the configuration of an earlier manifest in place; runs without that are right, and only they
(`right_iff`).
-/

namespace KeryxMiner.Engine

variable {Digest : Type} [DecidableEq Digest]

structure TraceConfig (Digest : Type) where
  manifest : Digest
  maxPos : Nat
  leaves : Nat
  seq : Option SeqSpec

/-- A call into the backend and what it returned. -/
inductive BackendCall where
  | traceConfigure (manifest : List UInt8) (maxPos : Nat) (rc : Int)
  | leafCount (nl : Int)
  | lseConfigure (layers heads : Nat) (rc : Int)
  | recurConfigure (rows : List SeqLayer) (interval : Nat) (rc : Int)

/-- The configuration the engine holds, and the calls made so far. -/
structure LlamaEngine (Digest : Type) where
  trace : Option (TraceConfig Digest)
  calls : List BackendCall

/-- What the backend returns to the calls of one configuration. -/
structure Returns where
  configureRc : Int
  leafCount : Int
  lseRc : Int
  recurRc : Int

/-- One configuration asked for, and what the backend returns to it. -/
structure Request where
  manifest : List UInt8
  maxPos : Nat
  seq : Option SeqSpec
  returns : Returns

def lseShape (seq : Option SeqSpec) : Nat × Nat := seq.elim (0, 0) SeqSpec.lseShape

def recurRows (seq : Option SeqSpec) : List SeqLayer := seq.elim [] SeqSpec.recurRows

def interval (seq : Option SeqSpec) : Nat := seq.elim 0 (·.interval)

variable (digest : List UInt8 → Digest)

namespace LlamaEngine

/-- The kept configuration, where it serves the request. -/
def cached (e : LlamaEngine Digest) (r : Request) : Option (TraceConfig Digest) :=
  e.trace.filter fun c => c.manifest = digest r.manifest ∧ r.maxPos ≤ c.maxPos ∧ c.seq = r.seq

/-- The four calls; each one is made when those before it went well. -/
def configure (e : LlamaEngine Digest) (r : Request) : LlamaEngine Digest × Except String Nat :=
  let calls := e.calls ++ [.traceConfigure r.manifest r.maxPos r.returns.configureRc]
  if r.returns.configureRc ≠ 0 then
    (⟨none, calls⟩,
      .error s!"trace configuration failed ({r.returns.configureRc}) for {r.maxPos} positions")
  else
    let nl := r.returns.leafCount
    let calls := calls ++ [.leafCount nl]
    if nl ≤ 0 then (⟨e.trace, calls⟩, .error "trace configured without leaves")
    else
      let (layers, heads) := lseShape r.seq
      let calls := calls ++ [.lseConfigure layers heads r.returns.lseRc]
      if r.returns.lseRc ≠ 0 then
        (⟨none, calls⟩, .error (s!"softmax mass capture unavailable ({r.returns.lseRc}) for " ++
          s!"{layers} layers of {heads} heads"))
      else
        let rows := recurRows r.seq
        let calls := calls ++ [.recurConfigure rows (interval r.seq) r.returns.recurRc]
        if r.returns.recurRc ≠ 0 then
          (⟨none, calls⟩, .error (s!"recurrent record capture unavailable ({r.returns.recurRc}) " ++
            s!"for {rows.length} layers"))
        else (⟨some ⟨digest r.manifest, r.maxPos, nl.toNat, r.seq⟩, calls⟩, .ok nl.toNat)

def traceConfigure (e : LlamaEngine Digest) (r : Request) : LlamaEngine Digest × Except String Nat :=
  match e.cached digest r with
  | some c => (e, .ok c.leaves)
  | none =>
    match r.seq.elim (.ok ()) SeqSpec.check with
    | .error message => (e, .error message)
    | .ok () => e.configure digest r

/-- Leaves per position of the configured trace, if it traces the manifest, and its layout. -/
def traceLeaves (e : LlamaEngine Digest) (manifest : List UInt8) (nPos : Nat) :
    Except String (Nat × Option SeqSpec) :=
  match e.trace with
  | some c =>
    if c.manifest = digest manifest ∧ nPos ≤ c.maxPos then .ok (c.leaves, c.seq)
    else .error s!"the trace is not configured for this manifest and {nPos} positions"
  | none => .error s!"the trace is not configured for this manifest and {nPos} positions"

end LlamaEngine

/-! ## What the engine answers with -/

/-- The last calls configured the backend with this, completely and successfully. -/
def Configured (calls : List BackendCall) (manifest : List UInt8) (maxPos leaves : Nat)
    (seq : Option SeqSpec) : Prop :=
  0 < leaves ∧ ∃ earlier, calls = earlier ++
    [.traceConfigure manifest maxPos 0, .leafCount leaves,
      .lseConfigure (lseShape seq).1 (lseShape seq).2 0,
      .recurConfigure (recurRows seq) (interval seq) 0]

/-- What the engine keeps, and what it answers from it, is what the backend is configured with. -/
structure Right (e : LlamaEngine Digest) : Prop where
  kept : ∀ c, e.trace = some c → ∃ manifest, digest manifest = c.manifest ∧
    Configured e.calls manifest c.maxPos c.leaves c.seq
  cached : ∀ r c, e.cached digest r = some c → ∃ manifest maxPos,
    digest manifest = digest r.manifest ∧ r.maxPos ≤ maxPos ∧
      Configured e.calls manifest maxPos c.leaves r.seq
  leaves : ∀ manifest nPos leaves seq, e.traceLeaves digest manifest nPos = .ok (leaves, seq) →
    ∃ manifest' maxPos, digest manifest' = digest manifest ∧ nPos ≤ maxPos ∧
      Configured e.calls manifest' maxPos leaves seq

/-- A configuration the backend has no leaves for is asked for only while none is kept. -/
def Reports (e : LlamaEngine Digest) (r : Request) : Prop :=
  (e.cached digest r).isSome ∨ r.seq.elim (.ok ()) SeqSpec.check ≠ .ok () ∨
    r.returns.configureRc ≠ 0 ∨ 0 < r.returns.leafCount ∨ e.trace = none

def next (e : LlamaEngine Digest) (r : Request) : LlamaEngine Digest := (e.traceConfigure digest r).1

/-- The engine before its first configuration. -/
def start : LlamaEngine Digest := ⟨none, []⟩

variable {digest} {e : LlamaEngine Digest} {r : Request} {rs : List Request}

/-- The answers are made from what is kept. -/
theorem Right.of_kept (h : ∀ c, e.trace = some c → ∃ manifest, digest manifest = c.manifest ∧
    Configured e.calls manifest c.maxPos c.leaves c.seq) : Right digest e where
  kept := h
  cached := by
    intro r c hc
    obtain ⟨htrace, hcond⟩ := Option.filter_eq_some_iff.mp hc
    obtain ⟨hdigest, hmax, hseq⟩ := of_decide_eq_true hcond
    obtain ⟨manifest, hmanifest, hconf⟩ := h c htrace
    exact ⟨manifest, c.maxPos, hmanifest.trans hdigest, hmax, hseq ▸ hconf⟩
  leaves := by
    intro manifest nPos leaves seq hleaves
    unfold LlamaEngine.traceLeaves at hleaves
    split at hleaves
    · next c htrace =>
      split at hleaves
      · next hcond =>
        cases hleaves
        obtain ⟨manifest', hmanifest, hconf⟩ := h c htrace
        exact ⟨manifest', c.maxPos, hmanifest.trans hcond.1, hcond.2, hconf⟩
      · cases hleaves
    · cases hleaves

theorem Right.start : Right digest (start : LlamaEngine Digest) :=
  .of_kept fun _ h => nomatch h

/-- What is asked for and kept has been configured. -/
theorem Right.configure (hr : 0 < r.returns.leafCount ∨ r.returns.configureRc ≠ 0 ∨ e.trace = none) :
    Right digest (e.configure digest r).1 := by
  apply Right.of_kept
  intro c hc
  unfold LlamaEngine.configure at hc ⊢
  dsimp only at hc ⊢
  split at hc
  · cases hc
  · next hrc =>
    rw [if_neg hrc]
    rw [not_not] at hrc
    split at hc
    · next hnl =>
      rcases hr with hr | hr | hr
      · omega
      · exact absurd hrc hr
      · rw [hr] at hc
        cases hc
    · next hnl =>
      rw [if_neg hnl]
      split at hc
      · cases hc
      · next hlse =>
        rw [if_neg hlse]
        rw [not_not] at hlse
        split at hc
        · cases hc
        · next hrecur =>
          rw [if_neg hrecur]
          rw [not_not] at hrecur
          cases hc
          have hpos : 0 < r.returns.leafCount := Int.not_le.mp hnl
          have hleaves : (r.returns.leafCount.toNat : Int) = r.returns.leafCount :=
            Int.toNat_of_nonneg (Int.le_of_lt hpos)
          refine ⟨r.manifest, rfl, Int.pos_iff_toNat_pos.mp hpos, e.calls, ?_⟩
          simp only [List.append_assoc, List.cons_append, List.nil_append, hrc, hlse, hrecur,
            hleaves]

theorem Right.next (h : Right digest e) (hr : Reports digest e r) : Right digest (next digest e r) := by
  unfold Engine.next LlamaEngine.traceConfigure
  split
  · exact h
  · next hcached =>
    split
    · exact h
    · next hcheck =>
      apply Right.configure
      rcases hr with hr | hr | hr | hr | hr
      · rw [hcached] at hr
        cases hr
      · exact absurd hcheck hr
      · exact .inr (.inl hr)
      · exact .inl hr
      · exact .inr (.inr hr)

/-- After a configuration without leaves the last call is not that of any configuration. -/
theorem Reports.of_right (h : Right digest (next digest e r)) : Reports digest e r := by
  by_contra hr
  simp only [Reports, not_or, not_not, Option.not_isSome_iff_eq_none] at hr
  obtain ⟨hcached, hcheck, hrc, hnl, hkept⟩ := hr
  obtain ⟨c, hc⟩ := Option.ne_none_iff_exists'.mp hkept
  have hnext : next digest e r =
      ⟨e.trace, e.calls ++ [.traceConfigure r.manifest r.maxPos r.returns.configureRc] ++
        [.leafCount r.returns.leafCount]⟩ := by
    unfold Engine.next LlamaEngine.traceConfigure
    rw [hcached]
    dsimp only
    rw [hcheck]
    dsimp only
    unfold LlamaEngine.configure
    dsimp only
    rw [if_neg (not_not.mpr hrc), if_pos (by omega)]
  obtain ⟨manifest, -, -, earlier, hcalls⟩ := h.kept c (by rw [hnext]; exact hc)
  rw [hnext] at hcalls
  have hlast := congrArg List.getLast? hcalls
  simp at hlast

/-- **Every answer of a run is for what the backend is configured with, exactly when no manifest
without leaves is asked for while a configuration is kept.** -/
theorem right_iff : (∀ before after, rs = before ++ after → Right digest (run (next digest) start before)) ↔
    Meets (next digest) (Reports digest) start rs := by
  constructor
  · intro h
    apply Meets.iff_prefix.mpr
    intro pre r post hrs
    have hright := h (pre ++ [r]) post (by simp [hrs])
    rw [run_concat] at hright
    exact Reports.of_right hright
  · intro h before after hrs
    subst hrs
    exact run_invariant (fun _ _ hr h => h.next hr) Right.start (Meets.append.mp h).1

/-- The manifest `[1]` is configured; the backend accepts `[2]` but has no leaves for it. -/
def twoManifests : List Request :=
  [⟨[1], 16, none, ⟨0, 5, 0, 0⟩⟩, ⟨[2], 16, none, ⟨0, 0, 0, 0⟩⟩]

/-- The leaves of `[1]` are still answered, while the backend traces `[2]`. -/
theorem twoManifests_stale :
    ((run (next id) start twoManifests).traceLeaves id [1] 16 = .ok (5, none) ∧
      (run (next id) start twoManifests).calls.getLast? = some (.leafCount 0)) ∧
    ¬Right id (run (next id) start twoManifests) := by
  have hanswer : (run (next id) start twoManifests).traceLeaves id [1] 16 = .ok (5, none) := rfl
  have hlast : (run (next id) start twoManifests).calls.getLast? = some (.leafCount 0) := rfl
  refine ⟨⟨hanswer, hlast⟩, ?_⟩
  intro h
  obtain ⟨manifest, maxPos, -, -, -, earlier, hcalls⟩ := h.leaves _ _ _ _ hanswer
  rw [hcalls] at hlast
  simp at hlast

end KeryxMiner.Engine
