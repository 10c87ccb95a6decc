import KeryxMiner.Escrow.Response

/-!
# Where the entries come from

Every entry after a call is one from before, with its timers as they were or its cap expired, or it
was tracked in the call (`step_descends`). What a response makes of the entries of its claim is the
subject of `KeryxMiner.Escrow.Response`.
-/

namespace KeryxMiner.Escrow

open EscrowWatcher

variable {X : Externals} {A : Effects} {w w' : EscrowWatcher} {s : Sys} {op : Op}
  {es es' es'' : List EscrowEntry} {T U : List Outpoint}

/-- A call leaves the cap of an entry, or the cap expires. -/
def KeepsCap (op : Op) (e e' : EscrowEntry) : Prop :=
  e'.batchCap = e.batchCap ∧ e'.capSetDaa = e.capSetDaa ∨
    e'.batchCap = 0 ∧ ∃ daaScore, op.Ships daaScore ∧ capExpired daaScore e = true

/-- A call leaves the timers of an entry, or its cap expires; and it brings no done entry back. -/
structure KeepsTimers (op : Op) (e e' : EscrowEntry) : Prop where
  live : e'.live = true → e.live = true
  retryAfter : e'.orphanRetryAfterDaa = e.orphanRetryAfterDaa
  cap : KeepsCap op e e'

/-- The entries `es'` are entries of `es`, none of them doubled, and new ones with the outpoints `T`. -/
structure Descends (op : Op) (T : List Outpoint) (es es' : List EscrowEntry) : Prop where
  outpoints : (es'.map (·.outpoint)).Sublist (es.map (·.outpoint) ++ T)
  source : ∀ e' ∈ es', (∃ e ∈ es, e.outpoint = e'.outpoint ∧ KeepsTimers op e e') ∨
    e'.outpoint ∈ T ∧ e'.batchCap = 0

theorem KeepsCap.refl (e : EscrowEntry) : KeepsCap op e e := .inl ⟨rfl, rfl⟩

theorem KeepsCap.trans {e e' e'' : EscrowEntry} (h : KeepsCap op e e') (h' : KeepsCap op e' e'') :
    KeepsCap op e e'' := by
  rcases h with ⟨h1, h2⟩ | ⟨h1, h2⟩
  · rcases h' with ⟨h1', h2'⟩ | ⟨h1', d, hd, hx⟩
    · exact .inl ⟨h1'.trans h1, h2'.trans h2⟩
    · exact .inr ⟨h1', d, hd, by rwa [capExpired, h1, h2] at hx⟩
  · refine .inr ⟨?_, h2⟩
    rcases h' with ⟨h1', -⟩ | ⟨h1', -⟩
    · exact h1'.trans h1
    · exact h1'

theorem KeepsCap.zero {e e' : EscrowEntry} (h : KeepsCap op e e') (he : e.batchCap = 0) :
    e'.batchCap = 0 := h.elim (fun h => h.1.trans he) And.left

theorem KeepsTimers.refl (e : EscrowEntry) : KeepsTimers op e e := ⟨id, rfl, .refl e⟩

theorem KeepsTimers.trans {e e' e'' : EscrowEntry} (h : KeepsTimers op e e')
    (h' : KeepsTimers op e' e'') : KeepsTimers op e e'' :=
  ⟨fun hl => h.live (h'.live hl), h'.retryAfter.trans h.retryAfter, h.cap.trans h'.cap⟩

theorem KeepsTimers.slashes {e e' : EscrowEntry} (h : Slashes e e') : KeepsTimers op e e' := by
  refine ⟨fun hl => h.le.live hl, ?_, ?_⟩ <;> obtain ⟨-, rfl⟩ := h
  · rfl
  · exact .inl ⟨rfl, rfl⟩

theorem KeepsTimers.heals {daaScore : Nat} {e e' : EscrowEntry} (hd : op.Ships daaScore)
    (h : Heals daaScore e e') : KeepsTimers op e e' := by
  refine ⟨fun hl => h.le.live hl, ?_, ?_⟩ <;> cases h
  · rfl
  · by_cases hx : capExpired daaScore e = true
    · exact .inr ⟨by simp [heal, hx], daaScore, hd, hx⟩
    · exact .inl ⟨by simp [heal, hx], rfl⟩

namespace Descends

theorem refl : Descends op [] es es :=
  ⟨by simp, fun e he => .inl ⟨e, he, rfl, .refl e⟩⟩

theorem trans (h : Descends op T es es') (h' : Descends op U es' es'') :
    Descends op (T ++ U) es es'' := by
  refine ⟨?_, fun e'' he'' => ?_⟩
  · rw [← List.append_assoc]
    exact h'.outpoints.trans (h.outpoints.append_right U)
  · rcases h'.source e'' he'' with ⟨e', he', ho', hk'⟩ | ⟨ht, h0⟩
    · rcases h.source e' he' with ⟨e, he, ho, hk⟩ | ⟨ht, h0⟩
      · exact .inl ⟨e, he, ho.trans ho', hk.trans hk'⟩
      · exact .inr ⟨List.mem_append_left _ (ho' ▸ ht), hk'.cap.zero h0⟩
    · exact .inr ⟨List.mem_append_right _ ht, h0⟩

theorem set {i : Nat} {e e' : EscrowEntry} (he : es[i]? = some e) (ho : e'.outpoint = e.outpoint)
    (hk : KeepsTimers op e e') : Descends op [] es (es.set i e') := by
  refine ⟨?_, fun a ha => ?_⟩
  · rw [map_outpoint_set he ho, List.append_nil]
  · rcases List.mem_or_eq_of_mem_set ha with ha | rfl
    · exact .inl ⟨a, ha, rfl, .refl a⟩
    · exact .inl ⟨e, List.mem_of_getElem? he, ho.symm, hk⟩

theorem filter (p : EscrowEntry → Bool) : Descends op [] es (es.filter p) := by
  refine ⟨?_, fun e he => .inl ⟨e, List.mem_of_mem_filter he, rfl, .refl e⟩⟩
  rw [List.append_nil]
  exact List.filter_sublist.map _

theorem append {new : List EscrowEntry} (h : ∀ e ∈ new, e.Fresh) :
    Descends op (new.map (·.outpoint)) es (es ++ new) := by
  refine ⟨by simp, fun e he => ?_⟩
  rcases List.mem_append.mp he with he | he
  · exact .inl ⟨e, he, rfl, .refl e⟩
  · exact .inr ⟨List.mem_map_of_mem he, (h e he).batchCap⟩

end Descends

/-- Without tracking, every entry was there before. -/
theorem Moves.descends (hle : ∀ e e', A.touches e e' → e.Le e')
    (hT : ∀ e e', A.touches e e' → KeepsTimers op e e') (hF : ∀ e, ¬ A.tracks e)
    (H : Moves X A w w') : Descends op [] w.entries w'.entries := by
  induction H with
  | refl => exact .refl
  | @tail w₁ w₂ _ hm ih =>
    refine ih.trans (U := []) ?_
    cases hm with
    | tick h => rw [h.entries]; exact .refl
    | see | log | ship => exact .refl
    | touch i he ht => exact .set he (hle _ _ ht).outpoint (hT _ _ ht)
    | track _ ht => exact (hF _ ht).elim
    | compact =>
      unfold EscrowWatcher.compact
      simp only
      split
      · exact .filter _
      · exact .refl
    | removeBlock hash n =>
      refine removeChainBlock_keeps (P := fun w' => Descends op [] w₁.entries w'.entries) .refl
        (fun p i h => h.trans (U := []) ?_) .refl
      unfold releaseAt
      split
      · exact .refl
      · next e he =>
        split
        · next hl =>
          change Descends op [] p.1.entries (slashAt (·.live) p.1 i).entries
          simp only [slashAt, he, hl, if_true]
          exact .set he rfl (.slashes ⟨hl, rfl⟩)
        · exact .refl
    | drop t => rw [(dropClaim_core w₁ t).1]; exact .refl

/-- The outpoints of what is appended to the entries `es`. -/
def appended (es es' : List EscrowEntry) : List Outpoint := (es'.drop es.length).map (·.outpoint)

/-- The outpoints a call tracks. -/
def Op.tracked (X : Externals) (s : Sys) : Op → List Outpoint
  | .handleBlock block _ =>
    match block.daaScore with
    | none => []
    | some daaScore =>
      let w := s.w.beginBlock daaScore
      appended w.entries (w.scanBlock block daaScore).entries
  | .trackBlockEscrows block daaScore blockHash =>
    appended s.w.entries (s.w.trackBlockEscrows block daaScore blockHash).entries
  | .trackInferenceEscrow txid confirmDaa escrowAmount io =>
    appended s.w.entries (s.trackInferenceEscrow X txid confirmDaa escrowAmount io).w.entries
  | _ => []

theorem Descends.appended (h : ∃ new, es' = es ++ new ∧ ∀ e ∈ new, e.Fresh) :
    Descends op (Escrow.appended es es') es es' := by
  obtain ⟨new, rfl, hf⟩ := h
  rw [Escrow.appended, List.drop_left]
  exact .append hf

theorem trackBlockEscrows_appends (w : EscrowWatcher) (block : RpcBlock) (daaScore : Nat)
    (blockHash : String) : ∃ new, (w.trackBlockEscrows block daaScore blockHash).entries =
      w.entries ++ new ∧ ∀ e ∈ new, e.Fresh := by
  unfold trackBlockEscrows
  split
  · exact ⟨[], by simp, by simp⟩
  · next txid outputs _ =>
    refine List.foldlRecOn (motive := fun w' : EscrowWatcher =>
      ∃ new, w'.entries = w.entries ++ new ∧ ∀ e ∈ new, e.Fresh) _ _ ⟨[], by simp, by simp⟩ ?_
    rintro w' ⟨new, hw', hf⟩ out -
    unfold trackOutput
    split
    · exact ⟨new, hw', hf⟩
    · simp only
      split
      · exact ⟨new, hw', hf⟩
      · refine ⟨new ++ [_], by rw [track_entries, hw', List.append_assoc], fun e he => ?_⟩
        rcases List.mem_append.mp he with he | he
        · exact hf e he
        · rw [List.mem_singleton.mp he]
          exact freshEntry_fresh ..

theorem slashReds_length (redsHashes : List String) :
    (w.slashReds redsHashes).entries.length = w.entries.length := by
  refine List.foldlRecOn (motive := fun w' : EscrowWatcher =>
    w'.entries.length = w.entries.length) _ _ rfl fun w' h redHash _ => ?_
  split
  · exact h
  · refine List.foldlRecOn (motive := fun w' : EscrowWatcher =>
      w'.entries.length = w.entries.length) _ _ h fun w' h i _ => ?_
    unfold slashAt
    split
    · exact h
    · split
      · simpa using h
      · exact h

theorem scanBlock_descends (X : Externals) (block : RpcBlock) (daaScore : Nat) :
    Descends op (appended w.entries (w.scanBlock block daaScore).entries) w.entries
      (w.scanBlock block daaScore).entries := by
  have hdrop : ∀ w' : EscrowWatcher, w'.entries.length = w.entries.length →
      appended w.entries w'.entries = [] := fun w' h => by simp [appended, ← h]
  unfold scanBlock
  split
  · rw [hdrop w rfl]
    exact .refl
  · next verbose _ =>
    have hlen := slashReds_length (w := w) verbose.mergeSetRedsHashes
    have hslash : Descends op [] w.entries (w.slashReds verbose.mergeSetRedsHashes).entries :=
      Moves.descends (X := X) (A := ⟨Slashes, fun _ => False, fun _ => False, fun _ => False⟩)
        (fun _ _ h => h.le) (fun _ _ => KeepsTimers.slashes) (fun _ => id)
        (slashReds_moves _ fun _ _ _ he => ⟨he, rfl⟩)
    simp only
    split
    · have htrack := trackBlockEscrows_appends (w.slashReds verbose.mergeSetRedsHashes) block daaScore
        verbose.hash
      have := hslash.trans (.appended htrack)
      rwa [List.nil_append, appended, hlen] at this
    · rw [hdrop _ hlen]
      exact hslash

/-- Every call but a restart and a response. -/
theorem step_descends (hr : ∀ now, op ≠ .restart now)
    (hs : ∀ txid error pick io, op ≠ .submitResponse txid error pick io) :
    Descends op (op.tracked X s) s.w.entries (step X s op).w.entries := by
  have hcalls : (∀ e, ¬ op.Tracks e) → (∀ e e', op.Touches s e e' → KeepsTimers op e e') →
      Descends op [] s.w.entries (step X s op).w.entries := fun hF hT => by
    obtain ⟨w', hw, hf⟩ := step_spec (X := X) hr
    rw [hf.core.entries]
    exact hw.descends Op.effects_le hT hF
  cases op with
  | handleBlock block io =>
    cases hd : block.daaScore with
    | none => simpa only [Op.tracked, step, Sys.handleBlock, hd] using Descends.refl
    | some daaScore =>
      simp only [Op.tracked, step, Sys.handleBlock, hd]
      have hbegin : Descends (.handleBlock block io) [] s.w.entries (s.w.beginBlock daaScore).entries :=
        Moves.descends (X := X) (A := ⟨fun _ _ => False, fun _ => False, fun _ => True, fun _ => False⟩)
          (fun _ _ => False.elim) (fun _ _ => False.elim) (fun _ => id) (beginBlock_moves daaScore trivial)
      have hfind : Descends (.handleBlock block io) []
          ((s.w.beginBlock daaScore).scanBlock block daaScore).entries
          (((s.w.beginBlock daaScore).scanBlock block daaScore).findClaim X daaScore).1.entries :=
        Moves.descends (X := X) (A := ⟨Heals daaScore, fun _ => False, fun _ => False, fun _ => True⟩)
          (fun _ _ h => h.le) (fun _ _ => KeepsTimers.heals hd) (fun _ => id)
          (findClaim_moves daaScore trivial fun _ _ => id)
      rw [maybeFlush_flushed.core.entries]
      simpa using (hbegin.trans (scanBlock_descends X block daaScore)).trans hfind
  | trackBlockEscrows block daaScore hash => exact .appended (trackBlockEscrows_appends ..)
  | trackInferenceEscrow txid daa amount io =>
    refine .appended ?_
    unfold Sys.trackInferenceEscrow
    split
    · exact ⟨[], by simp, by simp⟩
    · simp only
      split
      · exact ⟨[], by simp, by simp⟩
      · refine ⟨[_], by rw [maybeFlush_flushed.core.entries]; rfl, fun e he => ?_⟩
        rw [List.mem_singleton.mp he]
        exact freshEntry_fresh ..
  | submitResponse => exact absurd rfl (hs _ _ _ _)
  | restart now => exact absurd rfl (hr now)
  | findClaim daaScore => exact hcalls (fun _ => id) fun _ _ => KeepsTimers.heals rfl
  | blockValidated => exact hcalls (fun _ => id) fun _ _ => KeepsTimers.slashes
  | _ => exact hcalls (fun _ => id) fun _ _ => False.elim

end KeryxMiner.Escrow
