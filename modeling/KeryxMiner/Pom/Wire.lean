import KeryxMiner.Borsh
import KeryxMiner.Pom.Walk

/-!
# The proof on the wire

A proof is sent in the layout of its era, without a tag: each layout has one more optional field at
its end than the one before it, and `fromWireBytes` tries the five of them in turn.
-/

namespace KeryxMiner.Pom

open Borsh

structure PomOpening where
  stateBefore : UInt64
  chunk : Bytes32
  weightPath : List Bytes32
  tracePathBefore : List Bytes32
  tracePathAfter : List Bytes32

structure PomStep where
  chunk : Bytes32
  weightPath : List Bytes32

structure PomV3Opening where
  rowBefore : List UInt8
  pathBefore : List Bytes32
  rowAfter : List UInt8
  pathAfter : List Bytes32
  tileCol : List UInt8
  colPath : List Bytes32
  snippetPath : List Bytes32

structure PomProofV3 where
  tier : UInt8
  roots : List Bytes32
  snippets : List Bytes32
  checks : List PomV3Opening

structure PomProofPreH4 where
  tier : UInt8
  traceRoot : Bytes32
  powValue : Bytes32
  finalState : UInt64
  initialTracePath : List Bytes32
  finalTracePath : List Bytes32
  openings : List PomOpening

structure PomProofPreV3 extends PomProofPreH4 where
  stepsV2 : Option (List PomStep)

structure PomProofPreV4 extends PomProofPreV3 where
  v3 : Option PomProofV3

structure PomProofPreTask extends PomProofPreV4 where
  v4 : Option PomProofV4

structure PomProof extends PomProofPreTask where
  task : Option (List UInt8)

/-! ## Encoding of the records -/

instance : Borsh PomOpening :=
  record (fun o => (o.stateBefore, o.chunk, o.weightPath, o.tracePathBefore, o.tracePathAfter))
    (fun (s, c, w, b, a) => ⟨s, c, w, b, a⟩) fun _ => rfl

instance : Borsh PomStep :=
  record (fun s => (s.chunk, s.weightPath)) (fun (c, w) => ⟨c, w⟩) fun _ => rfl

instance : Borsh PomV3Opening :=
  record
    (fun o => (o.rowBefore, o.pathBefore, o.rowAfter, o.pathAfter, o.tileCol, o.colPath,
      o.snippetPath))
    (fun (rb, pb, ra, pa, t, c, s) => ⟨rb, pb, ra, pa, t, c, s⟩) fun _ => rfl

instance : Borsh PomProofV3 :=
  record (fun p => (p.tier, p.roots, p.snippets, p.checks)) (fun (t, r, s, c) => ⟨t, r, s, c⟩)
    fun _ => rfl

instance : Borsh PomV4RangeProof := record (·.path) (fun p => ⟨p⟩) fun _ => rfl

instance : Borsh PomProofV4 :=
  record (fun p => (p.tier, p.tiles, p.merkle)) (fun (t, i, m) => ⟨t, i, m⟩) fun _ => rfl

instance : Borsh PomProofPreH4 :=
  record
    (fun p => (p.tier, p.traceRoot, p.powValue, p.finalState, p.initialTracePath, p.finalTracePath,
      p.openings))
    (fun (t, r, v, f, i, e, o) => ⟨t, r, v, f, i, e, o⟩) fun _ => rfl

instance : Borsh PomProofPreV3 :=
  record (fun p => (p.toPomProofPreH4, p.stepsV2)) (fun (p, s) => ⟨p, s⟩) fun _ => rfl

instance : Borsh PomProofPreV4 :=
  record (fun p => (p.toPomProofPreV3, p.v3)) (fun (p, v) => ⟨p, v⟩) fun _ => rfl

instance : Borsh PomProofPreTask :=
  record (fun p => (p.toPomProofPreV4, p.v4)) (fun (p, v) => ⟨p, v⟩) fun _ => rfl

instance : Borsh PomProof :=
  record (fun p => (p.toPomProofPreTask, p.task)) (fun (p, t) => ⟨p, t⟩) fun _ => rfl

/-! ## The layouts -/

namespace PomProof

def ofPreTask (p : PomProofPreTask) : PomProof := { p with task := none }
def ofPreV4 (p : PomProofPreV4) : PomProof := ofPreTask { p with v4 := none }
def ofPreV3 (p : PomProofPreV3) : PomProof := ofPreV4 { p with v3 := none }
def ofPreH4 (p : PomProofPreH4) : PomProof := ofPreV3 { p with stepsV2 := none }

/-- The bytes in the shortest layout that has every part the proof has, none where a length does
not fit its field. -/
def toWireBytes (p : PomProof) : Option (List UInt8) :=
  if p.task.isSome then put p
  else if p.v4.isSome then put p.toPomProofPreTask
  else if p.v3.isSome then put p.toPomProofPreV4
  else if p.stepsV2.isSome then put p.toPomProofPreV3
  else put p.toPomProofPreH4

/-- The decoders of the five layouts, in the order they are tried. -/
def layouts : List (List UInt8 → Option PomProof) :=
  [fromSlice, fun bytes => (fromSlice bytes).map ofPreTask,
    fun bytes => (fromSlice bytes).map ofPreV4, fun bytes => (fromSlice bytes).map ofPreV3,
    fun bytes => (fromSlice bytes).map ofPreH4]

def fromWireBytes (bytes : List UInt8) : Option PomProof := layouts.findSome? (· bytes)

/-! ## Round trip -/

theorem extends_preTask : Extends (get : Reader PomProof) (get : Reader PomProofPreTask) :=
  Extends.of_option _

theorem extends_preV4 : Extends (get : Reader PomProofPreTask) (get : Reader PomProofPreV4) :=
  Extends.of_option _

theorem extends_preV3 : Extends (get : Reader PomProofPreV4) (get : Reader PomProofPreV3) :=
  Extends.of_option _

theorem extends_preH4 : Extends (get : Reader PomProofPreV3) (get : Reader PomProofPreH4) :=
  Extends.of_option _

/-- Of two layouts, the longer one reads past the end of the shorter one. -/
theorem layouts_pairwise (bytes : List UInt8) :
    layouts.Pairwise fun d d' => d bytes = none ∨ d' bytes = none := by
  have hv3 := extends_preV3.trans extends_preH4
  have hv4 := extends_preV4.trans extends_preV3
  have hv4' := extends_preV4.trans hv3
  have htask := extends_preTask.trans extends_preV4
  have htask' := extends_preTask.trans hv4
  have htask'' := extends_preTask.trans hv4'
  simp only [layouts, List.pairwise_cons, List.forall_mem_cons, Option.map_eq_none_iff]
  exact ⟨⟨extends_preTask.not_both bytes, htask.not_both bytes, htask'.not_both bytes,
      htask''.not_both bytes, nofun⟩,
    ⟨extends_preV4.not_both bytes, hv4.not_both bytes, hv4'.not_both bytes, nofun⟩,
    ⟨extends_preV3.not_both bytes, hv3.not_both bytes, nofun⟩,
    ⟨extends_preH4.not_both bytes, nofun⟩, nofun, List.Pairwise.nil⟩

/-- What one layout decodes is the result, whatever the place of the layout in the order. -/
theorem fromWireBytes_of_mem {d : List UInt8 → Option PomProof} {bytes : List UInt8} {p : PomProof}
    (hmem : d ∈ layouts) (h : d bytes = some p) : fromWireBytes bytes = some p := by
  obtain ⟨before, after, hlayouts⟩ := List.append_of_mem hmem
  have hperm : (d :: (before ++ after)).Perm layouts := by
    rw [hlayouts]
    exact List.perm_middle.symm
  rw [fromWireBytes, ← findSome?_perm hperm (layouts_pairwise bytes), List.findSome?_cons, h]

variable {p : PomProof} {bytes : List UInt8}

theorem fromWireBytes_toWireBytes (h : p.toWireBytes = some bytes) :
    fromWireBytes bytes = some p := by
  obtain ⟨⟨⟨⟨preH4, steps⟩, v3⟩, v4⟩, task⟩ := p
  rw [toWireBytes] at h
  split_ifs at h with htask hv4 hv3 hsteps
  · apply fromWireBytes_of_mem (d := fromSlice) (by simp [layouts])
    exact fromSlice_put h
  · obtain rfl := Option.not_isSome_iff_eq_none.mp htask
    apply fromWireBytes_of_mem (d := fun bytes => (fromSlice bytes).map ofPreTask)
      (by simp [layouts])
    rw [fromSlice_put h]
    rfl
  · obtain rfl := Option.not_isSome_iff_eq_none.mp htask
    obtain rfl := Option.not_isSome_iff_eq_none.mp hv4
    apply fromWireBytes_of_mem (d := fun bytes => (fromSlice bytes).map ofPreV4) (by simp [layouts])
    rw [fromSlice_put h]
    rfl
  · obtain rfl := Option.not_isSome_iff_eq_none.mp htask
    obtain rfl := Option.not_isSome_iff_eq_none.mp hv4
    obtain rfl := Option.not_isSome_iff_eq_none.mp hv3
    apply fromWireBytes_of_mem (d := fun bytes => (fromSlice bytes).map ofPreV3) (by simp [layouts])
    rw [fromSlice_put h]
    rfl
  · obtain rfl := Option.not_isSome_iff_eq_none.mp htask
    obtain rfl := Option.not_isSome_iff_eq_none.mp hv4
    obtain rfl := Option.not_isSome_iff_eq_none.mp hv3
    obtain rfl := Option.not_isSome_iff_eq_none.mp hsteps
    apply fromWireBytes_of_mem (d := fun bytes => (fromSlice bytes).map ofPreH4) (by simp [layouts])
    rw [fromSlice_put h]
    rfl

theorem isSome_toWireBytes (h : Fits p) : p.toWireBytes.isSome := by
  obtain ⟨⟨⟨⟨hpreH4, hsteps⟩, hv3⟩, hv4⟩, htask⟩ := h
  rw [toWireBytes]
  split_ifs
  · exact isSome_put ⟨⟨⟨⟨hpreH4, hsteps⟩, hv3⟩, hv4⟩, htask⟩
  · exact isSome_put (a := p.toPomProofPreTask) ⟨⟨⟨hpreH4, hsteps⟩, hv3⟩, hv4⟩
  · exact isSome_put (a := p.toPomProofPreV4) ⟨⟨hpreH4, hsteps⟩, hv3⟩
  · exact isSome_put (a := p.toPomProofPreV3) ⟨hpreH4, hsteps⟩
  · exact isSome_put hpreH4

/-- Every proof is read back, at most one of the layouts decodes any bytes, and so the layouts can
be tried in any order. -/
theorem wireBytes_unambiguous :
    (∀ p : PomProof, Fits p → p.toWireBytes.isSome) ∧
      (∀ (p : PomProof) (bytes : List UInt8), p.toWireBytes = some bytes →
        fromWireBytes bytes = some p) ∧
      ∀ bytes : List UInt8, (layouts.Pairwise fun d d' => d bytes = none ∨ d' bytes = none) ∧
        ∀ order : List (List UInt8 → Option PomProof), order.Perm layouts →
          order.findSome? (· bytes) = fromWireBytes bytes := by
  refine ⟨fun _ => isSome_toWireBytes, fun _ _ => fromWireBytes_toWireBytes, fun bytes => ?_⟩
  refine ⟨layouts_pairwise bytes, ?_⟩
  intro order horder
  exact findSome?_perm horder (layouts_pairwise bytes)

/-- A proof of the matrix walk with a task. -/
def taskProof : PomProof :=
  { tier := 1, traceRoot := Vector.replicate 32 0, powValue := Vector.replicate 32 7
    finalState := 9, initialTracePath := [], finalTracePath := [], openings := [], stepsV2 := none
    v3 := some ⟨1, [Vector.replicate 32 5], [], []⟩, v4 := none, task := some [1, 2, 3] }

theorem wireBytes_unambiguous_taskProof :
    ∃ bytes, taskProof.toWireBytes = some bytes ∧ fromWireBytes bytes = some taskProof ∧
      layouts.reverse.findSome? (· bytes) = some taskProof := by
  have hfits : Fits taskProof := by
    simp [Fits, taskProof]
  obtain ⟨bytes, hbytes⟩ := Option.isSome_iff_exists.mp (wireBytes_unambiguous.1 _ hfits)
  have hread := wireBytes_unambiguous.2.1 _ _ hbytes
  have horder := (wireBytes_unambiguous.2.2 bytes).2 _ (List.reverse_perm layouts)
  exact ⟨bytes, hbytes, hread, horder.trans hread⟩

end PomProof

end KeryxMiner.Pom
