import KeryxMiner.Engine.SeqContents
import Mathlib.Data.List.Dedup

/-!
# The leaves of the recurrent layers

What a sink has after the batches up to a position, as a function of the contents (`Contents.sinkAt`).
Each batch takes it to the next one (`afterBatch_sinkAt`) if checkpoints are due only where batches
end, so that a run of batches leaves it with all records and every whole interval's state
(`takeRecords_sinkAt`).
-/

namespace KeryxMiner.Engine

open Inference (leafSlice recordLen recurGda)

variable {c : Contents} {spec : SeqSpec} {first : SeqRecur} {r : RecurRead}
  {reads : List (RecurRead × Nat)} {ns : List Nat} {keep : List Nat} {x : SeqRecur × Nat}
  {i leaf n nPos p : Nat}

/-- A sink for the layout, with nothing in it. -/
def SeqSpec.emptySink (spec : SeqSpec) (first : SeqRecur) : RecurSink where
  nRecur := spec.recur.length
  heads := first.nVHeads
  seqHeads := spec.heads
  nAttn := spec.nAttn
  recLen := spec.recordLen
  stateLen := first.headDim * first.headDim * 4
  interval := spec.interval
  record := []
  ckpt := []
  keep := []
  pos := 0
  nCkpt := 0

/-- The leaves of `keep` that are kept. -/
def SeqSpec.keptLeaves (spec : SeqSpec) (first : SeqRecur) (keep : List Nat) : List Nat :=
  (keep.filter fun l => ((spec.emptySink first).slotHead l).isSome).mergeSort.dedup

namespace Contents

/-- The records of a head at the positions below `p`. -/
def recordBytes (c : Contents) (x : SeqRecur × Nat) (p : Nat) : List UInt8 :=
  (List.range p).flatMap (c.record x.1 x.2)

/-- The states of a head after the whole checkpoint intervals up to `p`. -/
def stateBytes (c : Contents) (spec : SeqSpec) (x : SeqRecur × Nat) (p : Nat) : List UInt8 :=
  (List.range (p / spec.interval)).flatMap fun m => c.state x.1 x.2 ((m + 1) * spec.interval)

/-- What a kept leaf has at `p`, by its kind and the number of its head. -/
def keptBytes (c : Contents) (spec : SeqSpec) (p : Nat) (kept : Bool × Nat) : List UInt8 :=
  match spec.recurHeads[kept.2]? with
  | none => []
  | some x => if kept.1 then c.recordBytes x p else c.stateBytes spec x p

/-- The sink that keeps these leaves, after the positions below `p`. -/
def sinkAt (c : Contents) (spec : SeqSpec) (first : SeqRecur) (keep : List Nat) (p : Nat) : RecurSink :=
  { spec.emptySink first with
    record := spec.recurHeads.map (c.recordBytes · p)
    ckpt := spec.recurHeads.map (c.stateBytes spec · p)
    keep := (spec.keptLeaves first keep).map fun l =>
      (l, (((spec.emptySink first).slotHead l).map (c.keptBytes spec p)).getD [])
    pos := p
    nCkpt := p / spec.interval }

end Contents

/-! ## The heads -/

theorem SeqSpec.Checked.recur_of_mem (hspec : spec.Checked) (hfirst : spec.recur.head? = some first)
    {l : SeqRecur} (hl : l ∈ spec.recur) :
    l.nVHeads = first.nVHeads ∧ l.headDim = first.headDim :=
  (hspec.recur first hfirst).2.2.2 l hl

theorem mem_recurHeads : x ∈ spec.recurHeads ↔ x.1 ∈ spec.recur ∧ x.2 < x.1.nVHeads := by
  obtain ⟨l, head⟩ := x
  simp only [SeqSpec.recurHeads, List.mem_flatMap, List.mem_map, List.mem_range, Prod.mk.injEq]
  constructor
  · rintro ⟨l', hl', head', hhead', rfl, rfl⟩
    exact ⟨hl', hhead'⟩
  · rintro ⟨hl, hhead⟩
    exact ⟨l, hl, head, hhead, rfl, rfl⟩

/-- The heads are numbered layer by layer. -/
theorem getElem?_recurHeads (hspec : spec.Checked) (hfirst : spec.recur.head? = some first)
    {l : SeqRecur} {slot head : Nat} (hl : spec.recur[slot]? = some l) (hhead : head < first.nVHeads) :
    spec.recurHeads[slot * first.nVHeads + head]? = some (l, head) := by
  have hlen : ∀ l ∈ spec.recur, ((List.range l.nVHeads).map (l, ·)).length = first.nVHeads := by
    intro l hl
    rw [List.length_map, List.length_range, (hspec.recur_of_mem hfirst hl).1]
  have hn := (hspec.recur_of_mem hfirst (List.mem_of_getElem? hl)).1
  rw [← getElem?_block hhead, SeqSpec.recurHeads,
    (block_flatMap_of_getElem? hlen hl List.prefix_rfl).1, List.getElem?_map, hn,
    List.getElem?_range hhead]
  rfl

theorem length_recurHeads (hspec : spec.Checked) (hfirst : spec.recur.head? = some first) :
    spec.recurHeads.length = spec.recur.length * first.nVHeads := by
  rw [SeqSpec.recurHeads, List.length_flatMap]
  rw [List.map_congr_left (g := fun _ => first.nVHeads)]
  · rw [List.map_const', List.sum_replicate_nat]
  · intro l hl
    rw [List.length_map, List.length_range, (hspec.recur_of_mem hfirst hl).1]

theorem recordLen_eq (hfirst : spec.recur.head? = some first) :
    spec.recordLen = recordLen recurGda first.headDim := by
  rw [SeqSpec.recordLen, hfirst, recordLen, if_neg (by decide)]

/-! ## One batch -/

/-- Batches of these sizes, from position `p` on, end before the next multiple of `TRACE_UBATCH` or
at it. -/
def Aligned : Nat → List Nat → Prop
  | _, [] => True
  | p, n :: ns => (0 < n ∧ p % TRACE_UBATCH + n ≤ TRACE_UBATCH) ∧ Aligned (p + n) ns

theorem Aligned.append {ns' : List Nat} (h : Aligned p ns) (h' : Aligned (p + ns.sum) ns') :
    Aligned p (ns ++ ns') := by
  induction ns generalizing p with
  | nil => exact h'
  | cons n ns ih =>
    refine ⟨h.1, ih h.2 ?_⟩
    rwa [List.sum_cons, ← Nat.add_assoc] at h'

/-- A checkpoint interval ends at the end of such a batch, or goes on behind it. -/
theorem intervals_add {interval : Nat} (hdvd : TRACE_UBATCH ∣ interval) (hpos : 0 < interval)
    (hn : 0 < n) (hbatch : p % TRACE_UBATCH + n ≤ TRACE_UBATCH) :
    (p + n) / interval = if interval ∣ p + n then p / interval + 1 else p / interval := by
  obtain ⟨k, rfl⟩ := hdvd
  have hmod : p % (TRACE_UBATCH * k) % TRACE_UBATCH = p % TRACE_UBATCH :=
    Nat.mod_mod_of_dvd p (Nat.dvd_mul_right _ _)
  have hlt := Nat.mod_lt p hpos
  have hp := Nat.div_add_mod p (TRACE_UBATCH * k)
  generalize p % (TRACE_UBATCH * k) = rest at hmod hlt hp
  generalize hq : p / (TRACE_UBATCH * k) = q at hp ⊢
  have hle : rest + n ≤ TRACE_UBATCH * k := by
    rw [TRACE_UBATCH] at *
    omega
  have hsum : p + n = TRACE_UBATCH * k * q + (rest + n) := by omega
  have hdvd : TRACE_UBATCH * k ∣ p + n ↔ TRACE_UBATCH * k ∣ rest + n := by
    rw [hsum, Nat.dvd_add_right (Nat.dvd_mul_right _ _)]
  simp only [hdvd]
  rw [hsum, Nat.mul_add_div hpos]
  rcases Nat.lt_or_eq_of_le hle with hlt | heq
  · rw [Nat.div_eq_of_lt hlt, if_neg (Nat.not_dvd_of_pos_of_lt (by omega) hlt), Nat.add_zero]
  · rw [heq, Nat.div_self hpos, if_pos (Nat.dvd_refl _)]

theorem recordBytes_add : c.recordBytes x (p + n) =
    c.recordBytes x p ++ (List.range n).flatMap fun j => c.record x.1 x.2 (p + j) := by
  rw [Contents.recordBytes, List.range_add, List.flatMap_append, List.flatMap_map]
  rfl

theorem stateBytes_add (hdvd : TRACE_UBATCH ∣ spec.interval) (hpos : 0 < spec.interval)
    (hn : 0 < n) (hbatch : p % TRACE_UBATCH + n ≤ TRACE_UBATCH) :
    c.stateBytes spec x (p + n) = c.stateBytes spec x p ++
      if spec.interval ∣ p + n then c.state x.1 x.2 (p + n) else [] := by
  have hcount := intervals_add hdvd hpos hn hbatch
  rw [Contents.stateBytes, hcount]
  split
  · next hdue =>
    rw [if_pos hdue] at hcount
    have hend : (p / spec.interval + 1) * spec.interval = p + n := by
      rw [← hcount]
      exact Nat.div_mul_cancel hdue
    rw [List.range_succ, List.flatMap_append, List.flatMap_singleton, hend]
    rfl
  · rw [List.append_nil]
    rfl

/-- Each hasher gets the part of its head. -/
theorem update_eq {f g : SeqRecur × Nat → List UInt8} {buf : List UInt8} {len : Nat}
    (hlen : ∀ x ∈ spec.recurHeads, (f x).length = len) (hbuf : spec.recurHeads.flatMap f <+: buf) :
    RecurSink.update (spec.recurHeads.map g) buf len = .ok (spec.recurHeads.map fun x => g x ++ f x) := by
  refine mapM'_eq_ok.mpr (List.forall₂_iff_get.mpr ⟨by simp, ?_⟩)
  intro i hi hi'
  have hi : i < spec.recurHeads.length := by simpa using hi
  obtain ⟨hblock, hle⟩ :=
    block_flatMap_of_getElem? hlen (List.getElem?_eq_getElem hi) hbuf
  simp only [List.get_eq_getElem, List.getElem_zipIdx, List.getElem_map, Nat.zero_add]
  rw [slice_part hle, hblock]
  rfl

theorem keptBytes_of_head {l : Bool × Nat} (hget : spec.recurHeads[l.2]? = some x) :
    c.keptBytes spec p l = if l.1 then c.recordBytes x p else c.stateBytes spec x p := by
  rw [Contents.keptBytes, hget]

theorem slotHead_lt {sink : RecurSink} {isRec : Bool} (h : sink.slotHead leaf = some (isRec, i)) :
    i < sink.nRecur * sink.heads := by
  rw [RecurSink.slotHead] at h
  dsimp only at h
  split at h
  · cases h
  · split at h
    · next hin =>
      cases h
      generalize (leaf - 2 * sink.seqHeads * sink.nAttn) / 2 / sink.seqHeads = slot at hin ⊢
      generalize (leaf - 2 * sink.seqHeads * sink.nAttn) / 2 % sink.seqHeads = head at hin ⊢
      have hle : (slot + 1) * sink.heads ≤ sink.nRecur * sink.heads := Nat.mul_le_mul_right _ hin.1
      rw [Nat.succ_mul] at hle
      omega
    · cases h

section

variable (hspec : spec.Checked) (hfirst : spec.recur.head? = some first) (hsized : c.Sized spec nPos)
include hspec hfirst hsized

theorem length_records (hx : x ∈ spec.recurHeads) (hle : p + n ≤ nPos) :
    ((List.range n).flatMap fun j => c.record x.1 x.2 (p + j)).length = n * spec.recordLen := by
  obtain ⟨hl, hhead⟩ := mem_recurHeads.mp hx
  apply length_flatMap_range
  intro j hj
  rw [hsized.record x.1 hl x.2 hhead (p + j) (by omega), recordLen_eq hfirst,
    (hspec.recur_of_mem hfirst hl).2]

theorem length_state (hx : x ∈ spec.recurHeads) (hle : p ≤ nPos) :
    (c.state x.1 x.2 p).length = first.headDim * first.headDim * 4 := by
  obtain ⟨hl, hhead⟩ := mem_recurHeads.mp hx
  rw [hsized.state x.1 hl x.2 hhead p hle, (hspec.recur_of_mem hfirst hl).2]

variable (keep) in
/-- What a kept leaf gets of a batch. -/
theorem keepPart_sinkAt {isRec : Bool} {due : Bool} (hn : 0 < n)
    (hbatch : p % TRACE_UBATCH + n ≤ TRACE_UBATCH) (hle : p + n ≤ nPos) (hr : c.ReadOf spec p n r)
    (hdue : due = decide (spec.interval ∣ p + n))
    (hslot : (spec.emptySink first).slotHead leaf = some (isRec, i)) :
    ∃ part, (c.sinkAt spec first keep p).keepPart r (n * spec.recordLen) due leaf = .ok part ∧
      c.keptBytes spec p (isRec, i) ++ part = c.keptBytes spec (p + n) (isRec, i) := by
  obtain ⟨-, hpos, hdvd, -⟩ := hspec.recur first hfirst
  have hi : i < spec.recurHeads.length := by
    rw [length_recurHeads hspec hfirst]
    exact slotHead_lt hslot
  have hget := List.getElem?_eq_getElem hi
  have hslot' : (c.sinkAt spec first keep p).slotHead leaf = some (isRec, i) := hslot
  rw [keptBytes_of_head (l := (isRec, i)) hget, keptBytes_of_head (l := (isRec, i)) hget, RecurSink.keepPart,
    hslot']
  dsimp only
  cases isRec with
  | true =>
    obtain ⟨hblock, hlen⟩ := block_flatMap_of_getElem?
      (fun x hx => length_records hspec hfirst hsized hx hle) hget hr.record
    refine ⟨_, slice_part hlen, ?_⟩
    rw [hblock, if_pos rfl, if_pos rfl, recordBytes_add]
  | false =>
    rw [if_neg Bool.false_ne_true, if_neg Bool.false_ne_true, if_neg Bool.false_ne_true,
      stateBytes_add hdvd hpos hn hbatch, hdue]
    by_cases hend : spec.interval ∣ p + n
    · obtain ⟨hblock, hlen⟩ := block_flatMap_of_getElem?
        (fun x hx => length_state hspec hfirst hsized hx hle) hget (hr.state hend)
      rw [if_pos (decide_eq_true hend), if_pos hend]
      exact ⟨_, slice_part hlen, congrArg _ hblock⟩
    · rw [if_neg (by simpa using hend), if_neg hend]
      exact ⟨[], rfl, rfl⟩

/-- **A batch takes the sink from its first position to the one behind it.** -/
theorem afterBatch_sinkAt (hn : 0 < n) (hbatch : p % TRACE_UBATCH + n ≤ TRACE_UBATCH)
    (hle : p + n ≤ nPos) (hr : c.ReadOf spec p n r) :
    (c.sinkAt spec first keep p).afterBatch r n = .ok (c.sinkAt spec first keep (p + n)) := by
  obtain ⟨-, hpos, hdvd, -⟩ := hspec.recur first hfirst
  have hdue : decide ((p + n) % spec.interval = 0) = decide (spec.interval ∣ p + n) :=
    decide_eq_decide.mpr (Nat.dvd_iff_mod_eq_zero).symm
  have hrecord : RecurSink.update (spec.recurHeads.map (c.recordBytes · p)) r.bufRec
      (n * spec.recordLen) = .ok (spec.recurHeads.map (c.recordBytes · (p + n))) := by
    rw [update_eq (fun x hx => length_records hspec hfirst hsized hx hle) hr.record]
    congr 2
    funext x
    exact recordBytes_add.symm
  have hckpt : (if decide ((p + n) % spec.interval = 0) = true then
      RecurSink.update (spec.recurHeads.map (c.stateBytes spec · p)) r.bufCkpt
        (first.headDim * first.headDim * 4)
      else .ok (spec.recurHeads.map (c.stateBytes spec · p))) =
      .ok (spec.recurHeads.map (c.stateBytes spec · (p + n))) := by
    rw [hdue]
    by_cases hend : spec.interval ∣ p + n
    · rw [if_pos (decide_eq_true hend), update_eq
        (fun x hx => length_state hspec hfirst hsized hx hle) (hr.state hend)]
      congr 2
      funext x
      rw [stateBytes_add hdvd hpos hn hbatch, if_pos hend]
    · rw [if_neg (by simpa using hend)]
      congr 2
      funext x
      rw [stateBytes_add hdvd hpos hn hbatch, if_neg hend, List.append_nil]
  have hkeep : (c.sinkAt spec first keep p).keep.mapM' (fun l => (fun part => (l.1, l.2 ++ part)) <$>
      (c.sinkAt spec first keep p).keepPart r (n * spec.recordLen)
        (decide ((p + n) % spec.interval = 0)) l.1) =
      .ok (c.sinkAt spec first keep (p + n)).keep := by
    refine mapM'_eq_ok.mpr
      (List.forall₂_map_left_iff.mpr (List.forall₂_map_right_iff.mpr (List.forall₂_same.mpr ?_)))
    intro l hl
    rw [SeqSpec.keptLeaves, List.mem_dedup, List.mem_mergeSort, List.mem_filter] at hl
    obtain ⟨⟨isRec, i⟩, hslot⟩ := Option.isSome_iff_exists.mp hl.2
    obtain ⟨part, hpart, hkept⟩ :=
      keepPart_sinkAt keep hspec hfirst hsized hn hbatch hle hr hdue hslot
    dsimp only
    rw [hpart, hslot]
    exact congrArg (fun bytes => Except.ok (l, bytes)) hkept
  refine refuse_bind_eq_ok.mpr ⟨not_not.mpr hr.rc, ?_⟩
  refine refuse_bind_eq_ok.mpr ⟨not_not.mpr hr.count, ?_⟩
  refine refuse_bind_eq_ok.mpr ⟨not_not.mpr (hr.hasCkpt.trans hdue.symm), ?_⟩
  refine bind_eq_ok.mpr ⟨_, hrecord, ?_⟩
  refine bind_eq_ok.mpr ⟨_, hckpt, ?_⟩
  refine bind_eq_ok.mpr ⟨_, hkeep, ?_⟩
  have hnCkpt : (if decide ((p + n) % spec.interval = 0) = true then p / spec.interval + 1
      else p / spec.interval) = (p + n) / spec.interval := by
    rw [hdue, intervals_add hdvd hpos hn hbatch]
    simp only [decide_eq_true_eq]
  exact congrArg
    (fun nCkpt => Except.ok { c.sinkAt spec first keep (p + n) with nCkpt := nCkpt }) hnCkpt

/-- **A run of batches takes the sink through all their positions.** -/
theorem takeRecords_sinkAt (haligned : Aligned p ns) (hle : p + ns.sum ≤ nPos)
    (hreads : c.ReadsOf spec p ns reads) :
    takeRecords reads (some (c.sinkAt spec first keep p)) =
      .ok (some (c.sinkAt spec first keep (p + ns.sum))) := by
  induction hreads with
  | nil => rfl
  | @cons p n ns r reads hr _ ih =>
    rw [List.sum_cons, ← Nat.add_assoc] at hle
    obtain ⟨⟨hn, hbatch⟩, haligned⟩ := haligned
    rw [List.sum_cons, ← Nat.add_assoc, takeRecords, bind_of_ok
      (afterBatch_sinkAt hspec hfirst hsized hn hbatch ((Nat.le_add_right _ _).trans hle) hr)]
    exact ih haligned hle

omit hsized

/-- The engine starts with the sink that has taken nothing. -/
theorem new_eq_some : RecurSink.new spec keep = some (c.sinkAt spec first keep 0) := by
  have hempty : ∀ f : SeqRecur × Nat → List UInt8, (∀ x, f x = []) →
      spec.recurHeads.map f = List.replicate (spec.recur.length * first.nVHeads) [] := by
    intro f hf
    rw [← length_recurHeads hspec hfirst, ← List.map_const']
    exact List.map_congr_left fun x _ => hf x
  have hstate : ∀ x, c.stateBytes spec x 0 = [] := by
    intro x
    rw [Contents.stateBytes, Nat.zero_div]
    rfl
  have hkept : ∀ l, (((spec.emptySink first).slotHead l).map (c.keptBytes spec 0)).getD [] = [] := by
    intro l
    cases (spec.emptySink first).slotHead l with
    | none => rfl
    | some kept =>
      rw [Option.map_some, Option.getD_some, Contents.keptBytes]
      split
      · rfl
      · split
        · rfl
        · exact hstate _
  rw [RecurSink.new, hfirst]
  dsimp only [Contents.sinkAt]
  simp only [hkept]
  rw [hempty (c.recordBytes · 0) fun _ => rfl, hempty (c.stateBytes spec · 0) hstate, Nat.zero_div]
  rfl

end

theorem new_eq_none (h : spec.recur.head? = none) : RecurSink.new spec keep = none := by
  rw [RecurSink.new, h]

end KeryxMiner.Engine
