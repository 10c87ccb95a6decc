import KeryxMiner.Engine.AttnLeaves
import KeryxMiner.Engine.RecurLeaves
import KeryxMiner.Engine.Replays

/-!
# Where the sequence leaves lie

The leaves that the engine commits lie where the layout of the verifier has them, each with the rows
of its head, and those of a head that a layer does not have are empty. A replay of the same contents
returns the bytes that were hashed (`seqLeaves_right`).
-/

namespace KeryxMiner.Engine

open Inference (AttnLinks Blake3 Hash LeafKind LeafSite SeqLayout blake3 cacheRowLen checkpointLen
  firstHash gqaGroup recordLen recurGda)

variable {h : Blake3} {c : Contents} {spec : SeqSpec} {cache : List LayerCache} {first l : SeqRecur}
  {reads : List (RecurRead × Nat)} {fed : List Int32} {keep : List Nat} {s : LeafSite} {isRec : Bool}
  {layers heads slot head i leaf n nPos : Nat}

/-! ## The recurrent heads -/

/-- The kind of a record or a checkpoint. -/
def recurKind (isRec : Bool) : LeafKind := if isRec then .record else .checkpoint

theorem recur_leaf (isRec : Bool) (hslot : slot < spec.nRecur) (hhead : head < spec.heads) :
    spec.layout.leaf ⟨recurKind isRec, slot, head⟩ = some
      (2 * spec.heads * spec.nAttn + (2 * (slot * spec.heads + head) + if isRec then 0 else 1)) := by
  cases isRec with
  | true =>
    have hmem : (⟨.record, slot, head⟩ : LeafSite) ∈ spec.layout.sites := ⟨hslot, hhead⟩
    exact SeqLayout.leaf_of_mem hmem
  | false =>
    have hmem : (⟨.checkpoint, slot, head⟩ : LeafSite) ∈ spec.layout.sites := ⟨hslot, hhead⟩
    refine (SeqLayout.leaf_of_mem hmem).trans (congrArg some ?_)
    dsimp only [SeqLayout.base, SeqLayout.stride, SeqSpec.layout]
    rw [if_neg Bool.false_ne_true]
    omega

/-- The slot and the head that a recurrent leaf is of, in the layout of the verifier. -/
theorem slotHead_eq_some (hspec : spec.Checked) (hfirst : spec.recur.head? = some first) :
    (spec.emptySink first).slotHead leaf = some (isRec, i) ↔
      ∃ slot < spec.nRecur, ∃ head < first.nVHeads, i = slot * first.nVHeads + head ∧
        spec.layout.leaf ⟨recurKind isRec, slot, head⟩ = some leaf := by
  have hheads := (hspec.recur first hfirst).1
  rw [RecurSink.slotHead, SeqSpec.emptySink, hspec.nRecur]
  dsimp only
  constructor
  · intro h'
    split at h'
    · cases h'
    · next hbase =>
      split at h'
      · next hin =>
        cases h'
        refine ⟨_, hin.1, _, hin.2, rfl, ?_⟩
        rw [recur_leaf _ hin.1 (hin.2.trans_le hheads), Nat.div_add_mod']
        congr 1
        simp only [decide_eq_true_eq]
        split <;> omega
      · cases h'
  · rintro ⟨slot, hslot, head, hhead, rfl, hleaf⟩
    rw [recur_leaf _ hslot (hhead.trans_le hheads)] at hleaf
    obtain ⟨hdiv, hmod⟩ :=
      SeqLayout.slot_of_count (l := spec.layout) slot (hhead.trans_le hheads)
    cases hleaf
    have hsub : ∀ x, 2 * spec.heads * spec.nAttn + x - 2 * spec.heads * spec.nAttn = x :=
      fun x => Nat.add_sub_cancel_left _ x
    change (slot * spec.heads + head) / spec.heads = slot at hdiv
    change (slot * spec.heads + head) % spec.heads = head at hmod
    have hhalf : (2 * (slot * spec.heads + head) + if isRec then 0 else 1) / 2 =
        slot * spec.heads + head := by
      split <;> omega
    have hparity : decide ((2 * (slot * spec.heads + head) + if isRec then 0 else 1) % 2 = 0) =
        isRec := by
      cases isRec <;> simp
    rw [if_neg (Nat.not_lt.mpr (Nat.le_add_right _ _)), hsub, hhalf, hdiv, hmod,
      if_pos ⟨hslot, hhead⟩, hparity]

/-- A leaf of a recurrent head that the layers have. -/
def RecurLeaf (spec : SeqSpec) (s : LeafSite) : Prop :=
  (∃ isRec, s.kind = recurKind isRec) ∧ spec.Has s

theorem has_recur : spec.Has ⟨recurKind isRec, slot, head⟩ ↔
    ∃ l, spec.recur[slot]? = some l ∧ head < l.nVHeads := by
  cases isRec <;> rfl

/-- The recurrent layers have the same heads. -/
theorem SeqSpec.Checked.has_recur_iff (hspec : spec.Checked) (hfirst : spec.recur.head? = some first)
    (hslot : slot < spec.nRecur) :
    spec.Has ⟨recurKind isRec, slot, head⟩ ↔ head < first.nVHeads := by
  have hget := List.getElem?_eq_getElem (hspec.nRecur ▸ hslot)
  have hlike := (hspec.recur_of_mem hfirst (List.mem_of_getElem? hget)).1
  rw [has_recur, hget]
  constructor
  · rintro ⟨_, ⟨⟩, hhead⟩
    rwa [hlike] at hhead
  · intro hhead
    exact ⟨_, rfl, hlike ▸ hhead⟩

/-- What a sink has of a head are the rows of its leaf. -/
theorem keptBytes_eq (hspec : spec.Checked) (hfirst : spec.recur.head? = some first)
    (hslot : slot < spec.nRecur) (hhead : head < first.nVHeads) :
    c.keptBytes spec nPos (isRec, slot * first.nVHeads + head) =
      (c.rows spec nPos ⟨recurKind isRec, slot, head⟩).flatten := by
  have hget := List.getElem?_eq_getElem (hspec.nRecur ▸ hslot)
  have hlike := (hspec.recur_of_mem hfirst (List.mem_of_getElem? hget)).1
  rw [keptBytes_of_head (l := (isRec, _)) (getElem?_recurHeads hspec hfirst hget hhead)]
  cases isRec with
  | true =>
    change _ = (spec.ofRecur slot head _).flatten
    rw [SeqSpec.ofRecur_of_has hget (hlike ▸ hhead), ← List.flatMap_def]
    rfl
  | false =>
    change _ = (spec.ofRecur slot head _).flatten
    rw [SeqSpec.ofRecur_of_has hget (hlike ▸ hhead), ← List.flatMap_def]
    rfl

/-! ## The hashes -/

/-- The hash of a leaf's rows. -/
def Contents.leafHash (c : Contents) (h : Blake3) (spec : SeqSpec) (nPos : Nat) (s : LeafSite) : Hash :=
  blake3 h (c.rows spec nPos s).flatten

theorem hashesInto_sinkAt (hspec : spec.Checked) (hfirst : spec.recur.head? = some first)
    (leaves : List Hash) :
    ∃ ws, AssignsTo spec.layout (RecurLeaf spec) (c.leafHash h spec nPos) ws ∧
      (c.sinkAt spec first keep nPos).hashesInto h leaves = assign ws leaves := by
  have hheads := (hspec.recur first hfirst).1
  have hhash : ∀ slot < spec.nRecur, ∀ head < first.nVHeads,
      blake3 h ((c.sinkAt spec first keep nPos).record.getD (slot * first.nVHeads + head) []) =
          c.leafHash h spec nPos ⟨recurKind true, slot, head⟩ ∧
        blake3 h ((c.sinkAt spec first keep nPos).ckpt.getD (slot * first.nVHeads + head) []) =
          c.leafHash h spec nPos ⟨recurKind false, slot, head⟩ := by
    intro slot hslot head hhead
    have hget := getElem?_recurHeads hspec hfirst
      (List.getElem?_eq_getElem (hspec.nRecur ▸ hslot)) hhead
    rw [Contents.leafHash, Contents.leafHash, ← keptBytes_eq hspec hfirst hslot hhead,
      ← keptBytes_eq hspec hfirst hslot hhead, keptBytes_of_head (l := (true, _)) hget,
      keptBytes_of_head (l := (false, _)) hget, Contents.sinkAt]
    dsimp only
    rw [List.getD_eq_getElem?_getD, List.getD_eq_getElem?_getD, List.getElem?_map, List.getElem?_map,
      hget]
    exact ⟨rfl, rfl⟩
  refine ⟨_, ⟨?_, ?_⟩, rfl⟩
  · intro w hw
    obtain ⟨slot, hslot, hw⟩ := List.mem_flatMap.mp hw
    obtain ⟨head, hhead, hw⟩ := List.mem_flatMap.mp hw
    have hslot : slot < spec.nRecur := hspec.nRecur ▸ List.mem_range.mp hslot
    have hhead : head < first.nVHeads := List.mem_range.mp hhead
    obtain ⟨hrecord, hckpt⟩ := hhash slot hslot head hhead
    have hlt := hhead.trans_le hheads
    simp only [List.mem_cons, List.not_mem_nil, or_false] at hw
    rcases hw with rfl | rfl
    · exact ⟨⟨recurKind true, slot, head⟩, ⟨hslot, hlt⟩, recur_leaf true hslot hlt,
        ⟨⟨true, rfl⟩, (hspec.has_recur_iff hfirst hslot).mpr hhead⟩, hrecord⟩
    · exact ⟨⟨recurKind false, slot, head⟩, ⟨hslot, hlt⟩, recur_leaf false hslot hlt,
        ⟨⟨false, rfl⟩, (hspec.has_recur_iff hfirst hslot).mpr hhead⟩, hckpt⟩
  · rintro ⟨kind, slot, head⟩ hs ⟨⟨isRec, rfl⟩, hhas⟩
    have hslot : slot < spec.nRecur := by
      cases isRec <;> exact hs.1
    have hhead := (hspec.has_recur_iff hfirst hslot).mp hhas
    have hmem : slot ∈ List.range spec.recur.length := List.mem_range.mpr (hspec.nRecur ▸ hslot)
    cases isRec with
    | true =>
      exact ⟨_, List.mem_flatMap.mpr ⟨slot, hmem, List.mem_flatMap.mpr
        ⟨head, List.mem_range.mpr hhead, List.mem_cons_self⟩⟩, recur_leaf true hslot hs.2⟩
    | false =>
      exact ⟨_, List.mem_flatMap.mpr ⟨slot, hmem, List.mem_flatMap.mpr
        ⟨head, List.mem_range.mpr hhead, List.mem_cons_of_mem _ List.mem_cons_self⟩⟩,
        recur_leaf false hslot hs.2⟩

/-- The bytes of the leaves before the recurrent ones are hashed over them. -/
def Contents.attnBytes (c : Contents) (spec : SeqSpec) (nPos : Nat) : List (List UInt8) :=
  assign (c.attnWrites spec nPos) (List.replicate spec.nLeaves [])

theorem length_attnBytes : (c.attnBytes spec nPos).length = spec.nLeaves := by
  rw [Contents.attnBytes, length_assign, List.length_replicate]

/-- A leaf of no recurrent head has its rows in the bytes that the engine reads off the cache. -/
theorem attnBytes_getElem? (hspec : spec.Checked) (hs : s ∈ spec.layout.sites)
    (hleaf : spec.layout.leaf s = some n) (hrecur : ¬RecurLeaf spec s) :
    (c.attnBytes spec nPos)[n]? = some (c.rows spec nPos s).flatten := by
  have hn : n < spec.nLeaves := SeqLayout.leaf_lt_of_eq_some hleaf
  have hassigns : AssignsTo spec.layout (AttnLeaf spec) (fun s => (c.rows spec nPos s).flatten)
      (c.attnWrites spec nPos) := attnWrites_assigns hspec
  obtain ⟨hattn, hnone⟩ := hassigns.getElem? hs hleaf (hn.trans_eq List.length_replicate.symm)
  by_cases ha : AttnLeaf spec s
  · exact hattn ha
  · have hno : ¬spec.Has s := by
      intro hhas
      obtain ⟨kind, slot, head⟩ := s
      cases kind with
      | kcache | vcache | lse => exact ha ⟨⟨nofun, nofun⟩, hhas⟩
      | record => exact hrecur ⟨⟨true, rfl⟩, hhas⟩
      | checkpoint => exact hrecur ⟨⟨false, rfl⟩, hhas⟩
    rw [Contents.attnBytes, hnone ha, Contents.rows_of_not hno, List.getElem?_replicate,
      if_pos hn]
    rfl

/-! ## The run -/

/-- A layout with recurrent layers has a sink for them. -/
def Contents.sinkOf (c : Contents) (spec : SeqSpec) (keep : List Nat) (nPos : Nat) : Option RecurSink :=
  spec.recur.head?.map fun first => c.sinkAt spec first keep nPos

/-- The sizes of the batches of a run. -/
def batchSizes (nPrompt : Nat) (fed : List Int32) : List Nat :=
  (runBatches nPrompt fed).map (·.tokens.length)

theorem aligned_chunks {k : Nat} (hk : k ≤ nChunks n) :
    Aligned 0 ((List.range k).map fun c => min TRACE_UBATCH (n - c * TRACE_UBATCH)) ∧
      ((List.range k).map fun c => min TRACE_UBATCH (n - c * TRACE_UBATCH)).sum =
        min (k * TRACE_UBATCH) n := by
  induction k with
  | zero => exact ⟨trivial, by simp⟩
  | succ k ih =>
    obtain ⟨haligned, hsum⟩ := ih (Nat.le_of_succ_le hk)
    have hlt := lt_nChunks.mp hk
    rw [List.range_succ, List.map_append, List.sum_append, hsum]
    rw [TRACE_UBATCH] at *
    refine ⟨haligned.append ⟨?_, trivial⟩, ?_⟩
    · rw [hsum, TRACE_UBATCH]
      dsimp only
      omega
    · rw [List.map_singleton, List.sum_singleton]
      omega

theorem aligned_ones (p k : Nat) : Aligned p (List.replicate k 1) := by
  induction k generalizing p with
  | zero => trivial
  | succ k ih =>
    have hmod : p % TRACE_UBATCH < TRACE_UBATCH := Nat.mod_lt p (by decide)
    exact ⟨⟨Nat.one_pos, hmod⟩, ih (p + 1)⟩

theorem batchSizes_eq {nPrompt : Nat} (hle : nPrompt ≤ fed.length) :
    batchSizes nPrompt fed =
      (List.range (nChunks nPrompt)).map (fun c => min TRACE_UBATCH (nPrompt - c * TRACE_UBATCH)) ++
        List.replicate (fed.length - nPrompt) 1 := by
  rw [batchSizes, runBatches, partBatches, chunkBatches, List.map_append, List.map_map, List.map_map,
    List.length_take_of_le hle]
  congr 1
  · apply List.map_congr_left
    intro i _
    rw [Function.comp_apply, traceBatch, length_batchTokens, length_chunk, List.length_take_of_le hle]
  · have hone : ∀ p ∈ List.range' nPrompt (fed.length - nPrompt),
        ((·.tokens.length) ∘ oneBatch (UInt32.ofNat nPrompt) fed) p = 1 := by
      intro p hp
      rw [List.mem_range'_1] at hp
      rw [Function.comp_apply, oneBatch, traceBatch, length_batchTokens, length_chunk,
        length_one_of_lt (by omega)]
      decide
    rw [List.map_congr_left hone, List.map_const', List.length_range']

/-- No batch reaches over a multiple of `TRACE_UBATCH`, and the batches have all positions. -/
theorem aligned_batchSizes {nPrompt : Nat} (hle : nPrompt ≤ fed.length) :
    Aligned 0 (batchSizes nPrompt fed) ∧ (batchSizes nPrompt fed).sum = fed.length := by
  obtain ⟨haligned, hsum⟩ := aligned_chunks (Nat.le_refl (nChunks nPrompt))
  have hceil : nPrompt ≤ nChunks nPrompt * TRACE_UBATCH := by
    rw [nChunks, TRACE_UBATCH]
    omega
  rw [batchSizes_eq hle, List.sum_append, hsum, List.sum_replicate_nat]
  exact ⟨haligned.append (aligned_ones _ _), by omega⟩

/-- The engine has all records of the run at its end. -/
theorem takeRecords_eq {nPrompt : Nat} (hspec : spec.Checked) (hle : nPrompt ≤ fed.length)
    (hsized : c.Sized spec fed.length)
    (hreads : spec.recur ≠ [] → c.ReadsOf spec 0 (batchSizes nPrompt fed) reads) :
    takeRecords reads (RecurSink.new spec keep) = .ok (c.sinkOf spec keep fed.length) := by
  obtain ⟨haligned, hsum⟩ := aligned_batchSizes hle
  rw [Contents.sinkOf]
  cases hfirst : spec.recur.head? with
  | none =>
    rw [new_eq_none hfirst, takeRecords]
    rfl
  | some first =>
    have hne : spec.recur ≠ [] := by
      rintro heq
      rw [heq] at hfirst
      cases hfirst
    have hrun : takeRecords reads (some (c.sinkAt spec first keep 0)) = _ :=
      takeRecords_sinkAt hspec hfirst hsized haligned (by omega) (hreads hne)
    rw [Nat.zero_add, hsum] at hrun
    rw [new_eq_some (c := c) hspec hfirst]
    exact hrun

theorem checkEnd_sinkAt : (c.sinkAt spec first keep nPos).checkEnd nPos = .ok () := by
  refine refuse_of_not ?_
  rintro (h | h) <;> exact h rfl

/-- The committed leaves. -/
def Contents.committed (c : Contents) (h : Blake3) (spec : SeqSpec) (nPos : Nat) : List Hash :=
  match c.sinkOf spec [] nPos with
  | none => (c.attnBytes spec nPos).map (blake3 h)
  | some sink => sink.hashesInto h ((c.attnBytes spec nPos).map (blake3 h))

/-- The run commits its leaves if all masses are finite. -/
theorem seqHashes_eq_ok_iff {leaves : List Hash} (hspec : spec.Checked)
    (hshape : MassShape spec layers heads) (hsized : c.Sized spec nPos)
    (hcache : c.CacheOf spec nPos cache) :
    seqHashes h spec cache (c.masses layers heads nPos) nPos (c.sinkOf spec [] nPos) = .ok leaves ↔
      c.Finite spec nPos ∧ leaves = c.committed h spec nPos := by
  have hbytes {out : List (List UInt8)} :
      seqLeafBytes spec cache (c.masses layers heads nPos) nPos = .ok out ↔
        c.Finite spec nPos ∧ out = c.attnBytes spec nPos :=
    seqLeafBytes_eq_ok_iff hspec hshape hsized hcache
  rw [seqHashes, bind_eq_ok]
  have hrest : ∀ out : List (List UInt8), out = c.attnBytes spec nPos →
      ((match c.sinkOf spec [] nPos with
        | none => pure (out.map (blake3 h))
        | some sink => do
          sink.checkEnd nPos
          return sink.hashesInto h (out.map (blake3 h)) : Except SeqError (List Hash)) = .ok leaves ↔
        leaves = c.committed h spec nPos) := by
    rintro _ rfl
    rw [Contents.committed, Contents.sinkOf]
    cases spec.recur.head? with
    | none => exact ⟨fun heq => (Except.ok.inj heq).symm, fun heq => heq ▸ rfl⟩
    | some first =>
      dsimp only [Option.map_some]
      rw [bind_of_ok checkEnd_sinkAt]
      exact ⟨fun heq => (Except.ok.inj heq).symm, fun heq => heq ▸ rfl⟩
  constructor
  · rintro ⟨out, hout, heq⟩
    obtain ⟨hfinite, hout⟩ := hbytes.mp hout
    exact ⟨hfinite, (hrest out hout).mp heq⟩
  · rintro ⟨hfinite, heq⟩
    exact ⟨_, hbytes.mpr ⟨hfinite, rfl⟩, (hrest _ rfl).mpr heq⟩

/-- **Each leaf of the layout has the hash of its rows.** -/
theorem committed_getElem? (hspec : spec.Checked) (hs : s ∈ spec.layout.sites)
    (hleaf : spec.layout.leaf s = some n) :
    (c.committed h spec nPos)[n]? = some (c.leafHash h spec nPos s) := by
  have hlt : n < ((c.attnBytes spec nPos).map (blake3 h)).length := by
    rw [List.length_map, length_attnBytes]
    exact SeqLayout.leaf_lt_of_eq_some hleaf
  have hattn (hrecur : ¬RecurLeaf spec s) :
      ((c.attnBytes spec nPos).map (blake3 h))[n]? = some (c.leafHash h spec nPos s) := by
    rw [List.getElem?_map, attnBytes_getElem? hspec hs hleaf hrecur]
    rfl
  rw [Contents.committed, Contents.sinkOf]
  cases hfirst : spec.recur.head? with
  | none =>
    apply hattn
    obtain ⟨kind, slot, head⟩ := s
    rintro ⟨⟨isRec, rfl⟩, hhas⟩
    obtain ⟨l, hl, -⟩ := has_recur.mp hhas
    rw [List.head?_eq_none_iff.mp hfirst] at hl
    cases hl
  | some first =>
    obtain ⟨ws, hws, heq⟩ : ∃ ws, AssignsTo spec.layout (RecurLeaf spec) (c.leafHash h spec nPos) ws ∧
        (c.sinkAt spec first [] nPos).hashesInto h ((c.attnBytes spec nPos).map (blake3 h)) =
          assign ws ((c.attnBytes spec nPos).map (blake3 h)) :=
      hashesInto_sinkAt hspec hfirst ((c.attnBytes spec nPos).map (blake3 h))
    dsimp only [Option.map_some]
    rw [heq]
    obtain ⟨hrecur, hother⟩ := hws.getElem? hs hleaf hlt
    by_cases hr : RecurLeaf spec s
    · exact hrecur hr
    · rw [hother hr]
      exact hattn hr

theorem length_committed : (c.committed h spec nPos).length = spec.layout.nLeaves := by
  have hlen : ((c.attnBytes spec nPos).map (blake3 h)).length = spec.nLeaves := by
    rw [List.length_map, length_attnBytes]
  rw [Contents.committed]
  split
  · exact hlen
  · rw [RecurSink.hashesInto, length_assign]
    exact hlen

/-! ## Replays -/

theorem lookup_map_pair {f : Nat → List UInt8} {l : List Nat} :
    (l.map fun x => (x, f x)).lookup leaf = if leaf ∈ l then some (f leaf) else none := by
  induction l with
  | nil => rfl
  | cons x l ih =>
    rw [List.map_cons, List.lookup_cons, ih]
    by_cases hx : leaf = x
    · simp [hx]
    · simp [hx, beq_false_of_ne hx]

/-- What a sink keeps of the leaves it was asked to keep. -/
theorem kept_sinkAt (hleaf : leaf ∈ keep) : (c.sinkAt spec first keep nPos).kept leaf =
    ((spec.emptySink first).slotHead leaf).map (c.keptBytes spec nPos) := by
  have hmem : leaf ∈ spec.keptLeaves first keep ↔ ((spec.emptySink first).slotHead leaf).isSome := by
    rw [SeqSpec.keptLeaves, List.mem_dedup, List.mem_mergeSort, List.mem_filter]
    exact and_iff_right hleaf
  rw [RecurSink.kept, Contents.sinkAt, lookup_map_pair]
  simp only [hmem]
  cases (spec.emptySink first).slotHead leaf with
  | none => rfl
  | some kept => rfl

/-- A replayed leaf comes whole: from the records if it is of a recurrent head, else from the cache. -/
theorem replayedLeaf_eq (hspec : spec.Checked) (hleaf : leaf ∈ keep) (hs : s ∈ spec.layout.sites)
    (hs' : spec.layout.leaf s = some leaf) :
    (match (c.sinkOf spec keep nPos).bind (·.kept leaf) with
      | some bytes => .ok bytes
      | none => orFail (c.attnBytes spec nPos)[leaf]? .panic : Except SeqError (List UInt8)) =
      .ok (c.rows spec nPos s).flatten := by
  have hattn (hrecur : ¬RecurLeaf spec s) :
      (orFail (c.attnBytes spec nPos)[leaf]? .panic : Except SeqError (List UInt8)) =
        .ok (c.rows spec nPos s).flatten :=
    orFail_eq_ok.mpr (attnBytes_getElem? hspec hs hs' hrecur)
  rw [Contents.sinkOf]
  cases hfirst : spec.recur.head? with
  | none =>
    apply hattn
    obtain ⟨kind, slot, head⟩ := s
    rintro ⟨⟨isRec, rfl⟩, hhas⟩
    obtain ⟨l, hl, -⟩ := has_recur.mp hhas
    rw [List.head?_eq_none_iff.mp hfirst] at hl
    cases hl
  | some first =>
    dsimp only [Option.map_some, Option.bind_some]
    rw [kept_sinkAt hleaf]
    cases hslot : (spec.emptySink first).slotHead leaf with
    | none =>
      apply hattn
      obtain ⟨kind, slot, head⟩ := s
      rintro ⟨⟨isRec, rfl⟩, hhas⟩
      have hlt : slot < spec.nRecur := by
        cases isRec <;> exact hs.1
      have hsome := (slotHead_eq_some hspec hfirst).mpr
        ⟨slot, hlt, head, (hspec.has_recur_iff hfirst hlt).mp hhas, rfl, hs'⟩
      cases hslot.symm.trans hsome
    | some kept =>
      obtain ⟨isRec, i⟩ := kept
      obtain ⟨slot, hlt, head, hhead, rfl, hsite⟩ := (slotHead_eq_some hspec hfirst).mp hslot
      have hmem : (⟨recurKind isRec, slot, head⟩ : LeafSite) ∈ spec.layout.sites := by
        cases isRec <;> exact ⟨hlt, hhead.trans_le (hspec.recur first hfirst).1⟩
      obtain rfl := leaf_inj hs hmem hs' hsite
      exact congrArg Except.ok (keptBytes_eq hspec hfirst hlt hhead)

/-- **A replay of the contents ends, and its bytes have the committed hashes.** -/
theorem replayedLeaves_ok (hspec : spec.Checked) (hshape : MassShape spec layers heads)
    (hsized : c.Sized spec nPos) (hcache : c.CacheOf spec nPos cache) (hfinite : c.Finite spec nPos)
    (hkeep : ∀ l ∈ keep, l < spec.layout.nLeaves) :
    ∃ bytes, replayedLeaves spec cache (c.masses layers heads nPos) nPos (c.sinkOf spec keep nPos) keep =
        .ok bytes ∧
      List.Forall₂ (fun l b => (c.committed h spec nPos)[l]? = some (blake3 h b)) keep bytes := by
  have hbytes := (seqLeafBytes_eq_ok_iff hspec hshape hsized hcache).mpr ⟨hfinite, rfl⟩
  have hsite : ∀ l ∈ keep, spec.layout.site l ∈ spec.layout.sites ∧
      spec.layout.leaf (spec.layout.site l) = some l := by
    intro l hl
    obtain ⟨hmem, hnumber⟩ := SeqLayout.site_mem (hkeep l hl)
    exact ⟨hmem, (SeqLayout.leaf_of_mem hmem).trans (congrArg some hnumber.symm)⟩
  refine ⟨keep.map fun l => (c.rows spec nPos (spec.layout.site l)).flatten, ?_, ?_⟩
  · have hend : (match c.sinkOf spec keep nPos with
        | none => .ok ()
        | some sink => sink.checkEnd nPos : Except SeqError Unit) = .ok () := by
      rw [Contents.sinkOf]
      cases spec.recur.head? with
      | none => rfl
      | some first => exact checkEnd_sinkAt
    refine bind_eq_ok.mpr ⟨_, hbytes, bind_eq_ok.mpr ⟨_, hend, ?_⟩⟩
    refine mapM'_eq_ok.mpr (List.forall₂_map_right_iff.mpr (List.forall₂_same.mpr fun l hl => ?_))
    exact replayedLeaf_eq hspec hl (hsite l hl).1 (hsite l hl).2
  · refine List.forall₂_map_right_iff.mpr (List.forall₂_same.mpr fun l hl => ?_)
    exact committed_getElem? hspec (hsite l hl).1 (hsite l hl).2

/-! ## The committed leaves -/

/-- So many rows of so many bytes. -/
structure Rows (count len : Nat) (rows : List (List UInt8)) : Prop where
  length : rows.length = count
  each : ∀ row ∈ rows, row.length = len

theorem Rows.of_range {count len : Nat} {row : Nat → List UInt8}
    (hrow : ∀ t < count, (row t).length = len) : Rows count len ((List.range count).map row) where
  length := by rw [List.length_map, List.length_range]
  each := by
    intro bytes hbytes
    obtain ⟨t, ht, rfl⟩ := List.mem_map.mp hbytes
    exact hrow t (List.mem_range.mp ht)

theorem Rows.length_flatten {count len : Nat} {rows : List (List UInt8)} (hrows : Rows count len rows) :
    rows.flatten.length = count * len := by
  rw [List.length_flatten, List.map_congr_left hrows.each, List.map_const', List.sum_replicate_nat,
    hrows.length]

/-- What is right about the committed leaves of a run. -/
structure SeqLeaves (h : Blake3) (c : Contents) (spec : SeqSpec) (nPos : Nat) (leaves : List Hash) :
    Prop where
  length : leaves.length = spec.layout.nLeaves
  placed : ∀ s ∈ spec.layout.sites, ∃ n, spec.layout.leaf s = some n ∧
    leaves[n]? = some (blake3 h (c.rows spec nPos s).flatten)
  absent : ∀ s, ¬spec.Has s → c.rows spec nPos s = []
  attn : ∀ a ∈ spec.attn, ∀ head < a.nHeadKv,
    Rows nPos a.rowBytes (c.rows spec nPos ⟨.kcache, a.slot, head⟩) ∧
      Rows nPos a.rowBytes (c.rows spec nPos ⟨.vcache, a.slot, head⟩) ∧
      Rows nPos (a.group * 4) (c.rows spec nPos ⟨.lse, a.slot, head⟩)
  recur : ∀ slot l, spec.recur[slot]? = some l → ∀ head < l.nVHeads,
    Rows nPos (recordLen recurGda l.headDim) (c.rows spec nPos ⟨.record, slot, head⟩) ∧
      Rows (nPos / spec.interval) (l.headDim * l.headDim * 4)
        (c.rows spec nPos ⟨.checkpoint, slot, head⟩) ∧
      (c.rows spec nPos ⟨.checkpoint, slot, head⟩).flatten.length =
        checkpointLen l.headDim nPos spec.interval

theorem seqLeaves_committed (hspec : spec.Checked) (hsized : c.Sized spec nPos) :
    SeqLeaves h c spec nPos (c.committed h spec nPos) where
  length := length_committed
  placed s hs := ⟨_, SeqLayout.leaf_of_mem hs, committed_getElem? hspec hs (SeqLayout.leaf_of_mem hs)⟩
  absent s := Contents.rows_of_not
  attn a ha head hhead := by
    have hrows {len : Nat} (row : SeqAttn → Nat → List UInt8)
        (hrow : ∀ t < nPos, (row a t).length = len) :
        Rows nPos len (spec.ofAttn a.slot head fun a => (List.range nPos).map (row a)) := by
      rw [SeqSpec.ofAttn_of_has (hspec.attn_of_mem ha).1 hhead]
      exact Rows.of_range hrow
    refine ⟨?_, ?_, ?_⟩
    · exact hrows (fun a => c.key a head) fun t ht => hsized.key a ha head hhead t ht
    · exact hrows (fun a => c.value a head) fun t ht => hsized.value a ha head hhead t ht
    · exact hrows (fun a => c.massRow a head) fun t _ =>
        length_flatMap_range fun _ _ => length_toLe
  recur slot l hl head hhead := by
    have hmem := List.mem_of_getElem? hl
    have hrows {count len : Nat} (row : SeqRecur → Nat → List UInt8)
        (hrow : ∀ t < count, (row l t).length = len) :
        Rows count len (spec.ofRecur slot head fun l => (List.range count).map (row l)) := by
      rw [SeqSpec.ofRecur_of_has hl hhead]
      exact Rows.of_range hrow
    have hstates : Rows (nPos / spec.interval) (l.headDim * l.headDim * 4)
        (c.rows spec nPos ⟨.checkpoint, slot, head⟩) := by
      refine hrows (fun l m => c.state l head ((m + 1) * spec.interval)) fun m hm => ?_
      apply hsized.state l hmem head hhead
      exact (Nat.mul_le_mul_right _ hm).trans (Nat.div_mul_le_self _ _)
    refine ⟨hrows (fun l => c.record l head) fun t ht => hsized.record l hmem head hhead t ht,
      hstates, hstates.length_flatten.trans ?_⟩
    rw [checkpointLen]
    ring

/-- The layer has the heads of the links. -/
structure SeqAttn.LinkedBy (a : SeqAttn) (links : AttnLinks) : Prop where
  nHead : links.nHead.toNat = a.nHead
  nHeadKv : links.nHeadKv.toNat = a.nHeadKv
  headDim : links.headDim.toNat = a.headDim

/-- One head of an attention layer and one of a recurrent layer, of two that the layout has. -/
def oneHead : SeqSpec where
  nAttn := 1
  nRecur := 1
  heads := 2
  attn := [⟨0, 0, 1, 1, 32⟩]
  recur := [⟨1, 0, SEQ_KIND_GDA, 1, 32⟩]
  interval := 8

/-- Bytes that tell the positions apart. -/
def counted : Contents where
  key _ _ t := List.replicate 34 (UInt8.ofNat t)
  value _ _ t := List.replicate 34 (UInt8.ofNat (t + 100))
  mass _ _ t := UInt32.ofNat t
  record _ _ t := List.replicate (recordLen recurGda 32) (UInt8.ofNat t)
  state _ _ p := List.replicate (32 * 32 * 4) (UInt8.ofNat p)

/-- The answer of the backend with nothing behind the records and the states. -/
def countedRead (pos n : Nat) : RecurRead where
  rc := 0
  n := n
  hasCkpt := decide (8 ∣ pos + n)
  bufRec := oneHead.recurHeads.flatMap fun x => (List.range n).flatMap fun j =>
    counted.record x.1 x.2 (pos + j)
  bufCkpt := oneHead.recurHeads.flatMap fun x => counted.state x.1 x.2 (pos + n)

theorem countedRead_right (pos n : Nat) : counted.ReadOf oneHead pos n (countedRead pos n) :=
  ⟨rfl, rfl, rfl, List.prefix_rfl, fun _ => List.prefix_rfl⟩

theorem counted_sized (nPos : Nat) : counted.Sized oneHead nPos := by
  have hrecur : ∀ l ∈ oneHead.recur, l.headDim = 32 := by decide
  have hattn : ∀ a ∈ oneHead.attn, a.rowBytes = 34 := by decide
  refine ⟨fun a ha _ _ _ _ => ?_, fun a ha _ _ _ _ => ?_, fun l hl _ _ _ _ => ?_,
    fun l hl _ _ _ _ => ?_⟩
  · rw [hattn a ha]
    exact List.length_replicate
  · rw [hattn a ha]
    exact List.length_replicate
  · rw [hrecur l hl]
    exact List.length_replicate
  · rw [hrecur l hl]
    exact List.length_replicate

end KeryxMiner.Engine
