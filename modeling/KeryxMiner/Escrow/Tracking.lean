import KeryxMiner.Escrow.Invariants

/-!
# Tracking a block that comes back

A reorg purges the entries of the blocks it removes and releases their outpoints, "so a block
re-added later is tracked afresh". The index of tracked outpoints is rebuilt from the entries at a
restart, and then the outpoint of a purged entry is in it again.

The ghost component `noteWrittenOff` collects the outpoints whose entry a response has claimed or
slashed since it was last tracked. As long as no restart loads another dead entry (`CleanRestart`),
every tracked outpoint has a live entry or is one of these (`Indexed`).
-/

namespace KeryxMiner.Escrow

open EscrowWatcher

variable {X : Externals} {A : Effects} {w w' : EscrowWatcher} {off : Finset String}
  {s : Sys} {op : Op}

/-- The outpoints with a live entry. -/
def liveKeys (es : List EscrowEntry) : Finset String := ((es.filter (·.live)).map (·.key)).toFinset

theorem mem_liveKeys {es : List EscrowEntry} {k : String} :
    k ∈ liveKeys es ↔ ∃ e ∈ es, e.live = true ∧ e.key = k := by
  simp [liveKeys, and_assoc]

/-- The calls that decide what is tracked: all of them, except for the two other ways in which an
entry is slashed, the red-set sweep and the boot-time validation. -/
def Op.Tracking : Op → Prop
  | .handleBlock block _ => ∀ verbose ∈ block.verboseData, verbose.mergeSetRedsHashes = []
  | .blockValidated .. => False
  | _ => True

instance (op : Op) : Decidable op.Tracking := by
  apply Op.casesOn (motive := fun op => Decidable op.Tracking) op <;> intros <;>
    unfold Op.Tracking <;> infer_instance

/-- Keeps the set of outpoints whose entry a response finished since it was last tracked. -/
def noteWrittenOff (off : Finset String) (s : Sys) (op : Op) (s' : Sys) : Finset String :=
  match op with
  | .submitResponse .. => off ∪ (liveKeys s.w.entries \ liveKeys s'.w.entries)
  | .restart _ => off
  | _ => off \ (liveKeys s'.w.entries \ liveKeys s.w.entries)

/-- Every output of the block's coinbase which pays the escrow script has a live entry, or a
response finished it. -/
def CoinbaseTracked (w : EscrowWatcher) (off : Finset String) (block : RpcBlock) : Prop :=
  ∀ c ∈ coinbaseOf block, ∀ out ∈ c.2.zipIdx, w.paysEscrow out.1 ≠ none →
    Outpoint.key (c.1, UInt32.ofNat out.2) ∈ liveKeys w.entries ∪ off

instance (w : EscrowWatcher) (off : Finset String) (block : RpcBlock) :
    Decidable (CoinbaseTracked w off block) := by unfold CoinbaseTracked; infer_instance

/-- What the call leaves behind for the chain block it handles. -/
def Retracks (p : Sys × Finset String) (op : Op) : Prop :=
  let p' := instrument (step X) noteWrittenOff p op
  match op with
  | .trackBlockEscrows block _ _ => CoinbaseTracked p'.1.w p'.2 block
  | .handleBlock block _ =>
    block.daaScore ≠ none → (∃ verbose ∈ block.verboseData, verbose.isChainBlock) →
      CoinbaseTracked p'.1.w p'.2 block
  | _ => True

instance (p : Sys × Finset String) (op : Op) : Decidable (Retracks (X := X) p op) := by
  apply Op.casesOn (motive := fun op => Decidable (Retracks (X := X) p op)) op <;> intros <;>
    unfold Retracks <;> infer_instance

/-- A restart loads no dead entry but of an outpoint which has a live entry as well, or which a
response finished. -/
def CleanRestart (p : Sys × Finset String) : Op → Prop
  | .restart _ => ∀ e ∈ (loadState p.1.store).entries,
    e.key ∈ liveKeys (loadState p.1.store).entries ∪ p.2
  | _ => True

instance (p : Sys × Finset String) (op : Op) : Decidable (CleanRestart p op) := by
  apply Op.casesOn (motive := fun op => Decidable (CleanRestart p op)) op <;> intros <;>
    unfold CleanRestart <;> infer_instance

/-- The invariant: an indexed outpoint has a live entry or is in `off`. -/
def Indexed (w : EscrowWatcher) (off : Finset String) : Prop :=
  ∀ k ∈ w.outpointSet, k ∈ liveKeys w.entries ∪ off

theorem Indexed.of_eq (he : w'.entries = w.entries) (hs : w'.outpointSet = w.outpointSet)
    (H : Indexed w off) : Indexed w' off := by
  rw [Indexed, he, hs]
  exact H

theorem liveKeys_set_of_live {es : List EscrowEntry} {i : Nat} {e e' : EscrowEntry}
    (he : es[i]? = some e) (hk : e'.key = e.key) (hl : e.live = true → e'.live = true) {k : String}
    (h : k ∈ liveKeys es) : k ∈ liveKeys (es.set i e') := by
  obtain ⟨a, ha, hal, rfl⟩ := mem_liveKeys.mp h
  obtain ⟨j, hj⟩ := List.mem_iff_getElem?.mp ha
  have hi := (List.getElem?_eq_some_iff.mp he).1
  by_cases hij : i = j
  · subst hij
    cases he.symm.trans hj
    exact mem_liveKeys.mpr ⟨e', List.mem_set hi e', hl hal, hk⟩
  · refine mem_liveKeys.mpr ⟨a, List.mem_of_getElem? (i := j) ?_, hal, rfl⟩
    rwa [List.getElem?_set_ne hij]

theorem compact_indexed (H : Indexed w off) : Indexed w.compact off := by
  unfold compact
  simp only
  split
  · intro k hk
    obtain ⟨e, he, rfl⟩ := List.mem_map.mp (List.mem_toFinset.mp hk)
    exact Finset.mem_union_left _ (mem_liveKeys.mpr ⟨e, he, (List.mem_filter.mp he).2, rfl⟩)
  · exact H

/-- A purge releases the outpoint of the entry it slashes, and the other live entries stay. -/
theorem Indexed.release {p : EscrowWatcher × Nat} (i : Nat) (H : Indexed p.1 off) :
    Indexed (releaseAt p i).1 off := by
  unfold releaseAt
  split
  · exact H
  · next e he =>
    split
    · next hl =>
      intro k hk
      obtain ⟨hke, hk⟩ := Finset.mem_erase.mp hk
      have hs : (slashAt (·.live) p.1 i).entries = p.1.entries.set i { e with slashed := true } := by
        simp [slashAt, he, hl]
      change k ∈ liveKeys (slashAt (·.live) p.1 i).entries ∪ off
      rw [hs]
      rcases Finset.mem_union.mp (H k hk) with hk | hk
      · obtain ⟨a, ha, hal, rfl⟩ := mem_liveKeys.mp hk
        obtain ⟨j, hj⟩ := List.mem_iff_getElem?.mp ha
        refine Finset.mem_union_left _ (mem_liveKeys.mpr ⟨a, List.mem_of_getElem? (i := j) ?_, hal, rfl⟩)
        rw [List.getElem?_set_ne, hj]
        rintro rfl
        cases he.symm.trans hj
        exact hke rfl
      · exact Finset.mem_union_right _ hk
    · exact H

theorem Indexed.move (hT : ∀ e e', A.touches e e' → ∃ daaScore, Heals daaScore e e')
    (h : Move X A w w') (H : Indexed w off) : Indexed w' off := by
  cases h with
  | tick h => exact H.of_eq h.entries h.outpointSet
  | see | log => exact H.of_eq rfl rfl
  | @touch e _ i he ht =>
    obtain ⟨daaScore, rfl⟩ := hT _ _ ht
    have hkey : (heal daaScore e).key = e.key := rfl
    intro k hk
    rw [setEntries_entries]
    exact (Finset.mem_union.mp (H k hk)).elim
      (fun h => Finset.mem_union_left _ (liveKeys_set_of_live he hkey id h)) (Finset.mem_union_right _)
  | @track e hf _ _ =>
    intro k hk
    rw [track_entries]
    rcases Finset.mem_insert.mp hk with rfl | hk
    · exact Finset.mem_union_left _ (mem_liveKeys.mpr ⟨e, by simp, hf.live, rfl⟩)
    · refine (Finset.mem_union.mp (H k hk)).elim (fun h => ?_) (Finset.mem_union_right _)
      obtain ⟨a, ha, hal, rfl⟩ := mem_liveKeys.mp h
      exact Finset.mem_union_left _ (mem_liveKeys.mpr ⟨a, List.mem_append_left _ ha, hal, rfl⟩)
  | compact => exact compact_indexed H
  | removeBlock hash n => exact removeChainBlock_keeps (P := (Indexed · off)) H (fun _ i => .release i) H
  | drop txid =>
    obtain ⟨h1, h2, _⟩ := dropClaim_core w txid
    exact H.of_eq h1 h2
  | ship => exact H

/-- During a response the index may only shrink. -/
theorem index_subset_of_settling {keys : Finset String} (hT : ∀ e e', A.touches e e' → e.Le e')
    (hF : ∀ e, ¬ A.tracks e) (hw : Moves X A w w')
    (H : Tracked w ∧ w.outpointSet ⊆ keys) : Tracked w' ∧ w'.outpointSet ⊆ keys := by
  refine hw.preserve (P := fun w => Tracked w ∧ w.outpointSet ⊆ keys) (fun w w' h H => ?_) H
  refine ⟨H.1.move hT h, ?_⟩
  cases h with
  | tick h => rw [h.outpointSet]; exact H.2
  | see | log | touch | ship => exact H.2
  | track _ ht => exact (hF _ ht).elim
  | compact =>
    unfold EscrowWatcher.compact
    simp only
    split
    · intro k hk
      obtain ⟨e, he, rfl⟩ := List.mem_map.mp (List.mem_toFinset.mp hk)
      obtain ⟨he, hl⟩ := List.mem_filter.mp he
      exact H.2 (H.1.indexed e he hl)
    · exact H.2
  | removeBlock hash n =>
    refine removeChainBlock_keeps (P := fun w => w.outpointSet ⊆ keys) H.2 (fun p i h => ?_) H.2
    unfold releaseAt
    split
    · exact h
    · split
      · exact (Finset.erase_subset ..).trans h
      · exact h
  | drop txid => rw [(dropClaim_core w txid).2.1]; exact H.2

theorem Op.Tracking.touches {e e' : EscrowEntry} (h : op.Tracking)
    (hr : ∀ txid error pick io, op ≠ .submitResponse txid error pick io) (ht : op.Touches s e e') :
    ∃ daaScore, Heals daaScore e e' := by
  cases op
  case handleBlock =>
    refine ht.elim (fun ⟨d, _, h⟩ => ⟨d, h⟩) fun ht => ?_
    obtain ⟨_, verbose, hv, hne⟩ := ht
    exact absurd (h verbose hv) hne
  case submitResponse => exact absurd rfl (hr _ _ _ _)
  case findClaim => exact ⟨_, ht⟩
  case blockValidated => exact h.elim
  all_goals exact ht.elim

theorem indexed_step (hop : op.Tracking) (hc : CleanRestart (s, off) op) (hok : s.Ok)
    (H : Indexed s.w off) : Indexed (step X s op).w (noteWrittenOff off s op (step X s op)) := by
  by_cases hr : ∃ now, op = .restart now
  · obtain ⟨now, rfl⟩ := hr
    intro k hk
    obtain ⟨e, he, rfl⟩ := List.mem_map.mp (List.mem_toFinset.mp hk)
    exact hc e he
  by_cases hs : ∃ txid error pick io, op = .submitResponse txid error pick io
  · obtain ⟨txid, error, pick, io, rfl⟩ := hs
    obtain ⟨w', hw, hf⟩ := step_spec (X := X) (s := s) fun now h => hr ⟨now, h⟩
    have hset : w'.outpointSet ⊆ liveKeys s.w.entries ∪ off :=
      (index_subset_of_settling (A := Op.effects s (.submitResponse txid error pick io))
        Op.effects_le (fun _ => id) hw ⟨hok.tracked, H⟩).2
    intro k hk
    rw [hf.core.outpointSet] at hk
    have := hset hk
    simp only [noteWrittenOff, Finset.mem_union, Finset.mem_sdiff] at this ⊢
    tauto
  · have hr : ∀ now, op ≠ .restart now := fun now h => hr ⟨now, h⟩
    have hs : ∀ txid error pick io, op ≠ .submitResponse txid error pick io :=
      fun _ _ _ _ h => hs ⟨_, _, _, _, h⟩
    have hnote : noteWrittenOff off s op (step X s op) =
        off \ (liveKeys (step X s op).w.entries \ liveKeys s.w.entries) := by
      cases op <;> first | rfl | exact absurd rfl (hr _) | exact absurd rfl (hs _ _ _ _)
    have H' : Indexed (step X s op).w off := step_keeps (P := (Indexed · off)) hr
      (fun _ _ => Indexed.move fun _ _ => hop.touches hs) H
    rw [hnote]
    intro k hk
    have := H' k hk
    simp only [Finset.mem_union, Finset.mem_sdiff] at this ⊢
    tauto

/-! ## The block itself -/

theorem mem_trackOutput {txid blockHash k : String} {daaScore : Nat}
    {out : RpcTransactionOutput × Nat} (hk : k ∈ w.outpointSet) :
    k ∈ (trackOutput txid blockHash daaScore w out).outpointSet := by
  unfold trackOutput
  split
  · exact hk
  · simp only
    split
    · exact hk
    · exact Finset.mem_insert_of_mem hk

theorem trackOutput_mem {txid blockHash : String} {daaScore : Nat} {out : RpcTransactionOutput × Nat}
    (h : w.paysEscrow out.1 ≠ none) :
    Outpoint.key (txid, UInt32.ofNat out.2) ∈ (trackOutput txid blockHash daaScore w out).outpointSet := by
  unfold trackOutput
  split
  · next h0 => exact absurd h0 h
  · simp only
    split
    · next hk => exact hk
    · exact Finset.mem_insert_self ..

theorem trackOutput_pays {txid blockHash : String} {daaScore : Nat} {out : RpcTransactionOutput × Nat} :
    (trackOutput txid blockHash daaScore w out).paysEscrow = w.paysEscrow := by
  unfold trackOutput
  split
  · rfl
  · simp only
    split <;> rfl

/-- Every output of the coinbase which pays the escrow script is in the index afterwards. -/
theorem trackBlockEscrows_mem {block : RpcBlock} {daaScore : Nat} {blockHash : String}
    {c : String × List RpcTransactionOutput} (hc : coinbaseOf block = some c)
    {out : RpcTransactionOutput × Nat} (hout : out ∈ c.2.zipIdx) (hp : w.paysEscrow out.1 ≠ none) :
    Outpoint.key (c.1, UInt32.ofNat out.2) ∈ (w.trackBlockEscrows block daaScore blockHash).outpointSet := by
  obtain ⟨txid, outputs⟩ := c
  simp only [trackBlockEscrows, hc]
  generalize outputs.zipIdx = outs at hout
  induction outs generalizing w with
  | nil => cases hout
  | cons o outs ih =>
    rcases List.mem_cons.mp hout with rfl | hout
    · exact List.foldlRecOn (motive := fun w : EscrowWatcher => _ ∈ w.outpointSet) outs
        (trackOutput txid blockHash daaScore) (trackOutput_mem hp) fun w hk _ _ => mem_trackOutput hk
    · exact ih (by rwa [trackOutput_pays]) hout

theorem handleBlock_mem {block : RpcBlock} {io : Io} {verbose : RpcBlockVerboseData} {daaScore : Nat}
    (hd : block.daaScore = some daaScore) (hv : block.verboseData = some verbose)
    (hchain : verbose.isChainBlock = true) {c : String × List RpcTransactionOutput}
    (hc : coinbaseOf block = some c) {out : RpcTransactionOutput × Nat} (hout : out ∈ c.2.zipIdx)
    (hp : s.w.paysEscrow out.1 ≠ none) :
    Outpoint.key (c.1, UInt32.ofNat out.2) ∈ (s.handleBlock X block io).1.w.outpointSet := by
  simp only [Sys.handleBlock, hd]
  rw [maybeFlush_flushed.core.outpointSet]
  simp only [findClaim_outpointSet, scanBlock, hv, hchain, if_true]
  refine trackBlockEscrows_mem hc hout ?_
  have hb : Moves X ⟨Slashes, fun _ => False, fun _ => True, fun _ => False⟩ s.w
      ((s.w.beginBlock daaScore).slashReds verbose.mergeSetRedsHashes) :=
    (beginBlock_moves daaScore trivial).trans (slashReds_moves _ fun _ _ _ hl => ⟨hl, rfl⟩)
  rwa [hb.sameKeys.paysEscrow]

theorem step_sameKeys (hr : ∀ now, op ≠ .restart now) : SameKeys s.w (step X s op).w :=
  step_keeps (P := SameKeys s.w) hr (fun _ _ h H => H.trans h.sameKeys) .rfl'

theorem retracks_of_indexed
    (H : Indexed (step X s op).w (noteWrittenOff off s op (step X s op))) :
    Retracks (X := X) (s, off) op := by
  cases op with
  | trackBlockEscrows block daaScore blockHash =>
    intro c hc out hout hp
    have hkeys : SameKeys s.w (step X s (.trackBlockEscrows block daaScore blockHash)).w :=
      step_sameKeys fun _ => nofun
    exact H _ (trackBlockEscrows_mem hc hout (hkeys.paysEscrow ▸ hp))
  | handleBlock block io =>
    intro hd ⟨verbose, hv, hchain⟩ c hc out hout hp
    have hkeys : SameKeys s.w (step X s (.handleBlock block io)).w := step_sameKeys fun _ => nofun
    obtain ⟨daaScore, hd⟩ := Option.ne_none_iff_exists'.mp hd
    exact H _ (handleBlock_mem hd hv hchain hc hout (hkeys.paysEscrow ▸ hp))
  | _ => trivial

/-- As long as no restart brings back the outpoint of a purged entry, every chain block handled
has its escrow outputs tracked. -/
theorem handled_blocks_tracked {k : Keys} {now : Nat} {evs : List Op} (hops : ∀ op ∈ evs, op.Tracking)
    (hc : Meets (instrument (step X) noteWrittenOff) CleanRestart (Sys.init k now, ∅) evs) :
    Meets (instrument (step X) noteWrittenOff) (Retracks (X := X)) (Sys.init k now, ∅) evs := by
  have hinit : (Sys.init k now).Ok ∧ Indexed (Sys.init k now).w ∅ := by
    refine ⟨.init k now, ?_⟩
    simp [Indexed, Sys.init, EscrowWatcher.new, rebuildIndexes, EscrowWatcher.entries,
      EscrowState.empty]
  have hs : ∀ p op, CleanRestart p op ∧ op.Tracking → p.1.Ok ∧ Indexed p.1.w p.2 →
      (instrument (step X) noteWrittenOff p op).1.Ok ∧
        Indexed (instrument (step X) noteWrittenOff p op).1.w
          (instrument (step X) noteWrittenOff p op).2 :=
    fun p op hC H => ⟨H.1.step op, indexed_step hC.2 hC.1 H.1 H.2⟩
  have := (hc.and (Meets.of_forall hops)).with_invariant hs hinit
  exact this.mono fun p op H => retracks_of_indexed (hs p op H.1 H.2).2

/-- A chain block is tracked, answered for by a snapshot, and its process restarted. -/
theorem handled_blocks_tracked_restart :
    Meets (instrument (step minerExternals) noteWrittenOff) (Retracks (X := minerExternals))
      (Sys.init minerKeys 0, ∅)
      [.trackBlockEscrows (rewardBlock (hashOf 'a') (hashOf 'b') 76300000 true []) 76300000 (hashOf 'b'),
        .flushState goodIo, .restart 0,
        .trackBlockEscrows (rewardBlock (hashOf 'a') (hashOf 'b') 76300000 true []) 76300000 (hashOf 'b')] :=
  handled_blocks_tracked (by decide +kernel) (by decide +kernel)

/-- The block is removed by a reorg, the process restarts, and the block joins the chain again: its
reward is not tracked. -/
theorem rejoined_block_not_tracked :
    ¬ Meets (instrument (step minerExternals) noteWrittenOff) (Retracks (X := minerExternals))
      (Sys.init minerKeys 0, ∅)
      [.trackBlockEscrows (rewardBlock (hashOf 'a') (hashOf 'b') 76300000 true []) 76300000 (hashOf 'b'),
        .chainBlocksRemoved [hashOf 'b'] goodIo, .flushState goodIo, .restart 0,
        .trackBlockEscrows (rewardBlock (hashOf 'a') (hashOf 'b') 76300000 true []) 76300000 (hashOf 'b')] := by
  decide +kernel

end KeryxMiner.Escrow
