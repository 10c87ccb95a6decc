import KeryxMiner.Escrow.Invariants

/-!
# The sweep of the mergeset reds

`handle_block` slashes the entries of the blocks in the red mergeset of the block it is given, also
when that block is off the selected chain, where its opinion on the colours means nothing. A run is
taken here with the selected chain at each call. `slashReds_entry` says what the sweep slashes; it
rests on `BlockIndexed`, which says that the block index lists the entries of its blocks.
-/

namespace KeryxMiner.Escrow

open EscrowWatcher

variable {X : Externals} {A : Effects} {w w' : EscrowWatcher} {s : Sys} {es : List EscrowEntry} {m : String → Option (List Nat)}

/-! ## The block index -/

/-- The index lists, for a block, entries of that block. -/
def IndexesBlocks (es : List EscrowEntry) (m : String → Option (List Nat)) : Prop :=
  ∀ hash indices, m hash = some indices → ∀ i ∈ indices, ∃ e, es[i]? = some e ∧ e.blockHash = hash

def BlockIndexed (w : EscrowWatcher) : Prop := IndexesBlocks w.entries w.blockIndex

theorem IndexesBlocks.append (H : IndexesBlocks es m) (e : EscrowEntry) :
    IndexesBlocks (es ++ [e]) (if e.blockHash = "" then m else pushIndex m e.blockHash es.length) := by
  have hold : IndexesBlocks (es ++ [e]) m := fun hash indices hm i hi => by
    obtain ⟨a, ha, hah⟩ := H hash indices hm i hi
    exact ⟨a, by rw [List.getElem?_append_left (List.getElem?_eq_some_iff.mp ha).1, ha], hah⟩
  split
  · exact hold
  · intro hash indices hm i hi
    by_cases hh : hash = e.blockHash
    · subst hh
      simp only [pushIndex, Function.update_self, Option.some.injEq] at hm
      subst hm
      rcases List.mem_append.mp hi with hi | hi
      · cases hb : m e.blockHash with
        | none => simp [hb] at hi
        | some is => exact hold _ is hb i (by simpa [hb] using hi)
      · cases List.mem_singleton.mp hi
        exact ⟨e, by simp, rfl⟩
    · rw [pushIndex, Function.update_of_ne hh] at hm
      exact hold hash indices hm i hi

theorem IndexesBlocks.foldl (H : IndexesBlocks es m) (rest : List EscrowEntry) :
    IndexesBlocks (es ++ rest) ((rest.zipIdx es.length).foldl
      (fun m p => if p.1.blockHash = "" then m else pushIndex m p.1.blockHash p.2) m) := by
  induction rest generalizing es m with
  | nil => simpa using H
  | cons e rest ih => simpa using ih (H.append e)

theorem rebuildIndexes_blockIndexed (w : EscrowWatcher) : BlockIndexed w.rebuildIndexes := by
  have h0 : IndexesBlocks [] fun _ => none := fun _ _ h => by cases h
  have h := h0.foldl w.entries
  simp only [List.nil_append, List.length_nil] at h
  exact h

theorem IndexesBlocks.set {i : Nat} {e e' : EscrowEntry} (H : IndexesBlocks es m)
    (he : es[i]? = some e) (hh : e'.blockHash = e.blockHash) : IndexesBlocks (es.set i e') m := by
  intro hash indices hm j hj
  obtain ⟨a, ha, hah⟩ := H hash indices hm j hj
  by_cases hij : i = j
  · subst hij
    cases he.symm.trans ha
    exact ⟨e', by simp [(List.getElem?_eq_some_iff.mp he).1], hh.trans hah⟩
  · exact ⟨a, by rw [List.getElem?_set_ne hij, ha], hah⟩

theorem slashAt_entries (ok : EscrowEntry → Bool) (i : Nat) :
    (slashAt ok w i).entries = w.entries ∧ (slashAt ok w i).blockIndex = w.blockIndex ∨
      ∃ e, w.entries[i]? = some e ∧ ok e = true ∧ (slashAt ok w i).blockIndex = w.blockIndex ∧
        (slashAt ok w i).entries = w.entries.set i { e with slashed := true } := by
  unfold slashAt
  split
  · exact .inl ⟨rfl, rfl⟩
  · next e he =>
    split
    · next h => exact .inr ⟨e, he, h, rfl, rfl⟩
    · exact .inl ⟨rfl, rfl⟩

theorem BlockIndexed.slashAt {ok : EscrowEntry → Bool} (i : Nat) (H : BlockIndexed w) :
    BlockIndexed (slashAt ok w i) := by
  unfold BlockIndexed
  rcases slashAt_entries ok i with ⟨h1, h2⟩ | ⟨e, he, -, h2, h1⟩
  · rw [h1, h2]
    exact H
  · rw [h1, h2]
    exact IndexesBlocks.set H he rfl

theorem BlockIndexed.move (hT : ∀ e e', A.touches e e' → e.Le e') (h : Move X A w w')
    (H : BlockIndexed w) : BlockIndexed w' := by
  cases h with
  | tick h =>
    unfold BlockIndexed
    rw [h.entries, h.blockIndex]
    exact H
  | see | log | ship => exact H
  | touch i he ht => exact IndexesBlocks.set H he (hT _ _ ht).blockHash
  | track => exact IndexesBlocks.append H _
  | compact =>
    unfold EscrowWatcher.compact
    simp only
    split
    · exact rebuildIndexes_blockIndexed _
    · exact H
  | removeBlock hash n =>
    refine removeChainBlock_keeps (P := BlockIndexed) ?_ (fun p i h => ?_) H
    · intro hash' indices hm
      change Function.update w.blockIndex hash none hash' = some indices at hm
      by_cases hh : hash' = hash
      · simp [hh] at hm
      · exact H hash' indices (by rwa [Function.update_of_ne hh] at hm)
    · unfold releaseAt
      split
      · exact h
      · split
        · exact h.slashAt i
        · exact h
  | drop txid =>
    obtain ⟨h1, _, h2, _⟩ := dropClaim_core w txid
    unfold BlockIndexed
    rw [h1, h2]
    exact H

theorem BlockIndexed.step (op : Op) (H : BlockIndexed s.w) : BlockIndexed (step X s op).w := by
  by_cases hop : ∃ now, op = .restart now
  · obtain ⟨now, rfl⟩ := hop
    exact rebuildIndexes_blockIndexed _
  · exact step_keeps (fun now h => hop ⟨now, h⟩)
      (fun _ _ h => BlockIndexed.move Op.effects_le h) H

/-! ## What the sweep slashes -/

/-- `e'` is `e`, or `e` slashed for being a live coinbase entry of one of the blocks. -/
def Swept (hashes : List String) (e e' : EscrowEntry) : Prop :=
  e' = e ∨ e.live = true ∧ e.isInference = false ∧ e.blockHash ∈ hashes ∧
    e' = { e with slashed := true }

/-- The sweep of one more index. -/
theorem swept_slashAt {hashes : List String} {i : Nat}
    (hi : ∀ e, w.entries[i]? = some e → e.blockHash ∈ hashes)
    (h : List.Forall₂ (Swept hashes) es w.entries) :
    List.Forall₂ (Swept hashes) es (slashAt sweepable w i).entries := by
  rcases slashAt_entries (w := w) sweepable i with ⟨h1, -⟩ | ⟨e', he', hok, -, h1⟩
  · rwa [h1]
  · rw [h1]
    simp only [sweepable, Bool.and_eq_true, Bool.not_eq_true'] at hok
    refine List.forall₂_iff_get.mpr ⟨by simp [h.length_eq], fun j hj hj' => ?_⟩
    have hj' : j < w.entries.length := by simpa using hj'
    have hpair := (List.forall₂_iff_get.mp h).2 j hj hj'
    simp only [List.get_eq_getElem] at hpair ⊢
    rw [List.getElem_set]
    split
    · next hij =>
      subst hij
      obtain ⟨_, rfl⟩ := List.getElem?_eq_some_iff.mp he'
      rcases hpair with hp | ⟨-, -, -, hp⟩
      · rw [hp] at hok ⊢
        exact .inr ⟨hok.1.1, hok.1.2, hp ▸ hi _ he', rfl⟩
      · rw [hp] at hok
        simp [EscrowEntry.live] at hok
    · exact hpair

theorem slashAt_blockHash {ok : EscrowEntry → Bool} {i j : Nat} {e : EscrowEntry}
    (he : (slashAt ok w i).entries[j]? = some e) :
    ∃ a, w.entries[j]? = some a ∧ a.blockHash = e.blockHash := by
  rcases slashAt_entries (w := w) ok i with ⟨h1, -⟩ | ⟨a, ha, -, -, h1⟩
  · exact ⟨e, h1 ▸ he, rfl⟩
  · rw [h1, List.getElem?_set] at he
    split at he
    · next hij =>
      subst hij
      split at he
      · cases he
        exact ⟨a, ha, rfl⟩
      · cases he
    · exact ⟨e, he, rfl⟩

/-- The sweep of one block. -/
theorem swept_indices {hashes : List String} {indices : List Nat} (H : BlockIndexed w)
    (hi : ∀ i ∈ indices, ∀ e, w.entries[i]? = some e → e.blockHash ∈ hashes)
    (h : List.Forall₂ (Swept hashes) es w.entries) :
    BlockIndexed (indices.foldl (slashAt sweepable) w) ∧
      List.Forall₂ (Swept hashes) es (indices.foldl (slashAt sweepable) w).entries := by
  induction indices generalizing w with
  | nil => exact ⟨H, h⟩
  | cons i indices ih =>
    refine ih (H.slashAt i) (fun j hj e he => ?_) (swept_slashAt (hi i List.mem_cons_self) h)
    obtain ⟨a, ha, hh⟩ := slashAt_blockHash he
    exact hh ▸ hi j (List.mem_cons_of_mem _ hj) a ha

theorem slashReds_swept (reds : List String) (H : BlockIndexed w) :
    List.Forall₂ (Swept reds) w.entries (w.slashReds reds).entries := by
  have hstart : List.Forall₂ (Swept reds) w.entries w.entries :=
    List.forall₂_same.mpr fun _ _ => .inl rfl
  refine (List.foldlRecOn (motive := fun w' => BlockIndexed w' ∧
    List.Forall₂ (Swept reds) w.entries w'.entries) reds _ ⟨H, hstart⟩ fun w' h red hred => ?_).2
  split
  · exact h
  · next indices hindices =>
    refine swept_indices h.1 (fun i hi e he => ?_) h.2
    obtain ⟨e', he', hh⟩ := h.1 red indices hindices i hi
    cases he.symm.trans he'
    exact hh ▸ hred

/-! ## Runs with the selected chain -/

/-- A call, and the selected chain at that moment. -/
structure ChainOp where
  op : Op
  selectedChain : List String

def chainStep (X : Externals) (s : Sys) (c : ChainOp) : Sys := step X s c.op

/-- The colouring of the node: a block on the selected chain has no other one of it among its
mergeset reds. -/
def Ghostdag (c : ChainOp) : Prop :=
  match c.op with
  | .handleBlock block _ => ∀ verbose ∈ block.verboseData, verbose.hash ∈ c.selectedChain →
    ∀ red ∈ verbose.mergeSetRedsHashes, red ∉ c.selectedChain
  | _ => True

/-- A delivered block that is off the selected chain has among its mergeset reds no block of the
selected chain with a live coinbase entry. -/
def RedsOffChain (s : Sys) (c : ChainOp) : Prop :=
  match c.op with
  | .handleBlock block _ => ∀ verbose ∈ block.verboseData, verbose.hash ∉ c.selectedChain →
    ∀ red ∈ verbose.mergeSetRedsHashes, red ∈ c.selectedChain →
      ∀ e ∈ s.w.entries, e.blockHash = red → e.isInference = false → e.live = false
  | _ => True

/-- The sweep slashes no coinbase entry of a block on the selected chain. -/
def SweepSparesChain (s : Sys) (c : ChainOp) : Prop :=
  match c.op with
  | .handleBlock block _ => ∀ daaScore ∈ block.daaScore, ∀ verbose ∈ block.verboseData,
    let before := s.w.beginBlock daaScore
    let after := before.slashReds verbose.mergeSetRedsHashes
    after.entries.length = before.entries.length ∧
      ∀ q ∈ before.entries.zip after.entries, q.1.isInference = false →
        q.1.blockHash ∈ c.selectedChain → q.2.slashed = q.1.slashed
  | _ => True

instance (c : ChainOp) : Decidable (Ghostdag c) := by
  unfold Ghostdag
  split <;> infer_instance

instance (s : Sys) (c : ChainOp) : Decidable (RedsOffChain s c) := by
  unfold RedsOffChain
  split <;> infer_instance

instance (s : Sys) (c : ChainOp) : Decidable (SweepSparesChain s c) := by
  unfold SweepSparesChain
  split <;> infer_instance

theorem beginBlock_blockIndexed (X : Externals) (daaScore : Nat) (H : BlockIndexed w) :
    BlockIndexed (w.beginBlock daaScore) :=
  (beginBlock_moves (X := X) (A := ⟨fun _ _ => False, fun _ => False, fun _ => True, fun _ => False⟩)
    daaScore trivial).preserve (fun _ _ h => BlockIndexed.move (fun _ _ => False.elim) h) H

theorem sweepSparesChain_of_redsOffChain (X : Externals) {c : ChainOp} (H : BlockIndexed s.w) (hg : Ghostdag c)
    (hc : RedsOffChain s c) : SweepSparesChain s c := by
  unfold SweepSparesChain
  unfold Ghostdag at hg
  unfold RedsOffChain at hc
  split
  · next block io hop =>
    rw [hop] at hg hc
    intro daaScore _ verbose hv
    have hswept := slashReds_swept verbose.mergeSetRedsHashes (beginBlock_blockIndexed X daaScore H)
    refine ⟨hswept.length_eq.symm, fun q hq hinf hchain => ?_⟩
    rcases List.forall₂_zip hswept hq with h | ⟨hl, -, hred, -⟩
    · rw [h]
    · by_cases hon : verbose.hash ∈ c.selectedChain
      · exact absurd hchain (hg verbose hv hon _ hred)
      · have := hc verbose hv hon _ hred hchain q.1 (mem_beginBlock (List.of_mem_zip hq).1) rfl hinf
        simp [hl] at this
  · trivial

/-- As long as no block off the selected chain has a tracked block of it among its mergeset reds,
the sweep never slashes the reward of a block on the selected chain. -/
theorem sweep_spares_selected_chain {k : Keys} {now : Nat} {evs : List ChainOp}
    (hg : ∀ c ∈ evs, Ghostdag c) (hc : Meets (chainStep X) RedsOffChain (Sys.init k now) evs) :
    Meets (chainStep X) SweepSparesChain (Sys.init k now) evs := by
  have hs : ∀ s c, RedsOffChain s c ∧ Ghostdag c → BlockIndexed s.w → BlockIndexed (chainStep X s c).w :=
    fun s c _ H => H.step c.op
  exact ((hc.and (Meets.of_forall hg)).with_invariant hs (rebuildIndexes_blockIndexed _)).mono
    fun s c H => sweepSparesChain_of_redsOffChain X H.2 H.1.2 H.1.1

/-- A chain block is tracked, and a later chain block has a block off the chain in its red mergeset. -/
theorem sweep_spares_selected_chain_two_blocks :
    Meets (chainStep minerExternals) SweepSparesChain (Sys.init minerKeys 0)
      [⟨.handleBlock (rewardBlock (hashOf 'a') (hashOf 'b') 76300000 true []) goodIo, [hashOf 'b']⟩,
        ⟨.handleBlock (rewardBlock (hashOf 'd') (hashOf 'c') 76300001 true [hashOf 'e']) goodIo,
          [hashOf 'b', hashOf 'c']⟩] :=
  sweep_spares_selected_chain (by decide +kernel) (by decide +kernel)

/-- A block off the selected chain has the tracked block of it in its red mergeset, and the reward
is written off. -/
theorem sweep_slashes_selected_chain :
    (∀ c ∈ [ChainOp.mk
          (.handleBlock (rewardBlock (hashOf 'a') (hashOf 'b') 76300000 true []) goodIo) [hashOf 'b'],
        ⟨.handleBlock (rewardBlock (hashOf 'd') (hashOf 'c') 76300001 false [hashOf 'b']) goodIo,
          [hashOf 'b']⟩], Ghostdag c) ∧
    ¬ Meets (chainStep minerExternals) SweepSparesChain (Sys.init minerKeys 0)
      [⟨.handleBlock (rewardBlock (hashOf 'a') (hashOf 'b') 76300000 true []) goodIo, [hashOf 'b']⟩,
        ⟨.handleBlock (rewardBlock (hashOf 'd') (hashOf 'c') 76300001 false [hashOf 'b']) goodIo,
          [hashOf 'b']⟩] := by
  decide +kernel

end KeryxMiner.Escrow
