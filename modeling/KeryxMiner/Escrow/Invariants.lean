import KeryxMiner.Escrow.Run

/-!
# Invariants of the entry list and its indexes

* `LiveLast`: of several entries with one outpoint only the last may be live;
* `Tracked`: every live entry's outpoint is in the dedup index;
* `Sys.AllEntries Q`: the entries in memory, in pending journal lines and on disk satisfy `Q`.

The first two are preserved by every call (`Sys.Ok.step`), the last one by every call whose touches
keep `Q`.
-/

namespace KeryxMiner.Escrow

open EscrowWatcher

variable {X : Externals} {A : Effects} {w w' : EscrowWatcher} {es : List EscrowEntry} {s s' : Sys}

/-! ## One live entry per outpoint -/

/-- Of several entries with one outpoint, only the last may be live. -/
def LiveLast (es : List EscrowEntry) : Prop :=
  es.Pairwise fun a b => a.outpoint = b.outpoint → a.live = false

namespace LiveLast

theorem nil : LiveLast [] := List.Pairwise.nil

theorem filter {p : EscrowEntry → Bool} (h : LiveLast es) : LiveLast (es.filter p) :=
  List.Pairwise.filter p h

theorem append {e : EscrowEntry} (h : LiveLast es)
    (he : ∀ a ∈ es, a.live = true → a.outpoint ≠ e.outpoint) : LiveLast (es ++ [e]) := by
  refine List.pairwise_append.mpr ⟨h, List.pairwise_singleton .., ?_⟩
  intro a ha b hb hab
  cases List.mem_singleton.mp hb
  by_contra hl
  exact he a ha (by simpa using hl) hab

theorem dead {i j : Nat} {a b : EscrowEntry} (h : LiveLast es) (hij : i < j)
    (ha : es[i]? = some a) (hb : es[j]? = some b) (hab : a.outpoint = b.outpoint) :
    a.live = false := by
  obtain ⟨hi, rfl⟩ := List.getElem?_eq_some_iff.mp ha
  obtain ⟨hj, rfl⟩ := List.getElem?_eq_some_iff.mp hb
  exact List.pairwise_iff_getElem.mp h i j hi hj hij hab

theorem unique {i j : Nat} {a b : EscrowEntry} (h : LiveLast es)
    (ha : es[i]? = some a) (hb : es[j]? = some b) (hla : a.live = true) (hlb : b.live = true)
    (hab : a.outpoint = b.outpoint) : i = j := by
  rcases Nat.lt_trichotomy i j with hij | rfl | hij
  · exact absurd hla (by simp [h.dead hij ha hb hab])
  · rfl
  · exact absurd hlb (by simp [h.dead hij hb ha hab.symm])

/-- Replacing an entry by one of the same outpoint, which is dead or the last. -/
theorem set {i : Nat} {e e' : EscrowEntry} (h : LiveLast es) (he : es[i]? = some e)
    (ho : e'.outpoint = e.outpoint)
    (hl : e'.live = true → e.live = true ∨
      ∀ j, i < j → ∀ b, es[j]? = some b → b.outpoint ≠ e.outpoint) :
    LiveLast (es.set i e') := by
  refine List.pairwise_iff_getElem.mpr fun j k hj hk hjk hab => ?_
  rw [List.length_set] at hj hk
  obtain ⟨hi, rfl⟩ := List.getElem?_eq_some_iff.mp he
  have key := List.pairwise_iff_getElem.mp h j k hj hk hjk
  rw [List.getElem_set, List.getElem_set] at hab
  rw [List.getElem_set]
  split
  · next hij =>
    subst hij
    rw [if_pos rfl, if_neg (by omega), ho] at hab
    by_contra hlive
    rcases hl (by simpa using hlive) with h1 | h1
    · exact absurd h1 (by simp [key hab])
    · exact h1 k hjk _ (List.getElem?_eq_getElem hk) hab.symm
  · next hij =>
    rw [if_neg hij] at hab
    split at hab
    · next hik => subst hik; exact key (hab.trans ho)
    · exact key hab

theorem set_le {i : Nat} {e e' : EscrowEntry} (h : LiveLast es) (he : es[i]? = some e)
    (hle : e.Le e') : LiveLast (es.set i e') := h.set he hle.outpoint fun hl => .inl (hle.live hl)

end LiveLast

/-- One live entry per outpoint, and its outpoint is in the dedup index. -/
structure Tracked (w : EscrowWatcher) : Prop where
  liveLast : LiveLast w.entries
  indexed : ∀ e ∈ w.entries, e.live = true → e.key ∈ w.outpointSet

theorem rebuildIndexes_tracked (h : LiveLast w.entries) : Tracked w.rebuildIndexes :=
  ⟨h, fun _ he _ => List.mem_toFinset.mpr (List.mem_map_of_mem he)⟩

/-- A purged entry's outpoint may be released: no other live entry carries it. -/
theorem Tracked.release {p : EscrowWatcher × Nat} (i : Nat) (H : Tracked p.1) :
    Tracked (releaseAt p i).1 := by
  obtain ⟨w, n⟩ := p
  unfold releaseAt
  split
  · exact H
  · next e he =>
    split
    · next hl =>
      have hs : (slashAt (·.live) w i).entries = w.entries.set i { e with slashed := true } := by
        simp [slashAt, he, hl]
      constructor
      · change LiveLast (slashAt (·.live) w i).entries
        rw [hs]
        exact H.liveLast.set_le he ⟨rfl, rfl, rfl, rfl, rfl, rfl, rfl, id, fun _ => rfl⟩
      · intro a ha hla
        change a ∈ (slashAt (·.live) w i).entries at ha
        rw [hs] at ha
        obtain ⟨j, hj⟩ := List.mem_iff_getElem?.mp ha
        rw [List.getElem?_set] at hj
        split at hj
        · split at hj
          · cases hj
            simp [EscrowEntry.live] at hla
          · cases hj
        · next hij =>
          refine Finset.mem_erase.mpr ⟨?_, H.indexed a (List.mem_of_getElem? hj) hla⟩
          intro hk
          exact hij (H.liveLast.unique he hj hl hla (EscrowEntry.key_eq_iff.mp hk).symm)
    · exact H

theorem removeChainBlock_tracked {p : EscrowWatcher × Nat} (hash : String) (H : Tracked p.1) :
    Tracked (removeChainBlock p hash).1 :=
  removeChainBlock_keeps ⟨H.1, H.2⟩ (fun _ i => Tracked.release i) H

theorem dropClaim_core (w : EscrowWatcher) (txid : String) :
    (w.dropClaim txid).entries = w.entries ∧ (w.dropClaim txid).outpointSet = w.outpointSet ∧
      (w.dropClaim txid).blockIndex = w.blockIndex ∧
      (w.dropClaim txid).journalPending = w.journalPending := by
  unfold dropClaim
  split <;> exact ⟨rfl, rfl, rfl, rfl⟩

theorem expireInFlight_entries (w : EscrowWatcher) (daaScore : Nat) :
    (w.expireInFlight daaScore).entries = w.entries :=
  List.foldlRecOn (motive := fun w' : EscrowWatcher => w'.entries = w.entries) _ dropClaim rfl
    fun w' h txid _ => (dropClaim_core w' txid).1.trans h

/-- The work before a block is looked at brings in no entry. -/
theorem mem_beginBlock {daaScore : Nat} {e : EscrowEntry}
    (h : e ∈ (w.beginBlock daaScore).entries) : e ∈ w.entries := by
  have hentries := expireInFlight_entries (w.seeDaa daaScore) daaScore
  change ((w.seeDaa daaScore).expireInFlight daaScore).entries = w.entries at hentries
  rw [← hentries]
  change e ∈ ((w.seeDaa daaScore).expireInFlight daaScore).tickCompact.entries at h
  unfold tickCompact at h
  split at h
  · unfold EscrowWatcher.compact at h
    simp only at h
    split at h
    · exact List.mem_of_mem_filter h
    · exact h
  · exact h

theorem Tracked.move (hT : ∀ e e', A.touches e e' → e.Le e') (h : Move X A w w') (H : Tracked w) :
    Tracked w' := by
  cases h with
  | tick h => exact ⟨by rw [h.entries]; exact H.1, by rw [h.entries, h.outpointSet]; exact H.2⟩
  | see | log | ship => exact ⟨H.1, H.2⟩
  | @touch e e' i he ht =>
    have hle := hT _ _ ht
    refine ⟨H.liveLast.set_le he hle, fun a ha hl => ?_⟩
    rcases List.mem_or_eq_of_mem_set ha with ha | rfl
    · exact H.indexed a ha hl
    · rw [EscrowEntry.key, hle.outpoint]
      exact H.indexed e (List.mem_of_getElem? he) (hle.live hl)
  | @track e hf _ hk =>
    refine ⟨H.liveLast.append fun a ha hl ho => hk ?_, fun a ha hl => ?_⟩
    · rw [EscrowEntry.key, ← ho]
      exact H.indexed a ha hl
    · rcases List.mem_append.mp ha with ha | ha
      · exact Finset.mem_insert_of_mem (H.indexed a ha hl)
      · cases List.mem_singleton.mp ha
        exact Finset.mem_insert_self ..
  | compact =>
    unfold EscrowWatcher.compact
    simp only
    split
    · have := rebuildIndexes_tracked (w := w.setEntries (w.entries.filter (·.live))) H.liveLast.filter
      exact ⟨this.1, this.2⟩
    · exact H
  | removeBlock hash n => exact removeChainBlock_tracked hash H
  | drop txid =>
    obtain ⟨h1, h2, _⟩ := dropClaim_core w txid
    exact ⟨by rw [h1]; exact H.1, by rw [h1, h2]; exact H.2⟩

/-! ## Loading keeps `LiveLast` -/

/-- `m` maps the key of every outpoint in `es` to its last entry. -/
structure IndexesLast (es : List EscrowEntry) (m : String → Option Nat) : Prop where
  last : ∀ k i, m k = some i → ∃ e, es[i]? = some e ∧ e.key = k ∧
    ∀ j, i < j → ∀ b, es[j]? = some b → b.key ≠ k
  absent : ∀ k, m k = none → ∀ e ∈ es, e.key ≠ k

namespace IndexesLast

variable {m : String → Option Nat}

theorem nil : IndexesLast [] fun _ => none := ⟨by simp, by simp⟩

theorem push (H : IndexesLast es m) (a : EscrowEntry) :
    IndexesLast (es ++ [a]) (Function.update m a.key (some es.length)) := by
  constructor
  · intro k i hk
    by_cases hka : k = a.key
    · subst hka
      simp only [Function.update_self, Option.some.injEq] at hk
      subst hk
      refine ⟨a, by simp, rfl, fun j hj b hb => ?_⟩
      have := (List.getElem?_eq_some_iff.mp hb).1
      simp at this
      omega
    · rw [Function.update_of_ne hka] at hk
      obtain ⟨e, he, hek, hlast⟩ := H.last k i hk
      have hi := (List.getElem?_eq_some_iff.mp he).1
      refine ⟨e, by rw [List.getElem?_append_left hi, he], hek, fun j hj b hb => ?_⟩
      rcases Nat.lt_or_ge j es.length with hjl | hjl
      · exact hlast j hj b (by rwa [List.getElem?_append_left hjl] at hb)
      · rw [List.getElem?_append_right hjl] at hb
        obtain ⟨hj0, rfl⟩ := List.getElem?_eq_some_iff.mp hb
        simp only [List.getElem_singleton]
        exact fun h => hka h.symm
  · intro k hk e he
    by_cases hka : k = a.key
    · simp [hka] at hk
    · rw [Function.update_of_ne hka] at hk
      rcases List.mem_append.mp he with he | he
      · exact H.absent k hk e he
      · cases List.mem_singleton.mp he
        exact fun h => hka h.symm

theorem set {i : Nat} {a : EscrowEntry} (H : IndexesLast es m) (hi : m a.key = some i) :
    IndexesLast (es.set i a) m := by
  obtain ⟨e, he, hek, hlast⟩ := H.last _ i hi
  constructor
  · intro k j hj
    obtain ⟨b, hb, hbk, hlast'⟩ := H.last k j hj
    by_cases hij : j = i
    · subst hij
      cases he.symm.trans hb
      refine ⟨a, by simp [(List.getElem?_eq_some_iff.mp he).1], by rw [← hbk, hek],
        fun m hm c hc => ?_⟩
      rw [List.getElem?_set_ne (by omega)] at hc
      exact hlast' m hm c hc
    · refine ⟨b, by rw [List.getElem?_set_ne (by omega)]; exact hb, hbk, fun m hm c hc => ?_⟩
      rw [List.getElem?_set] at hc
      split at hc
      · next him =>
        split at hc
        · cases hc
          subst him
          rw [← hek]
          exact hlast' i hm e he
        · cases hc
      · exact hlast' m hm c hc
  · intro k hk b hb
    rcases List.mem_or_eq_of_mem_set hb with hb | rfl
    · exact H.absent k hk b hb
    · intro hbk
      rw [← hbk, hi] at hk
      cases hk

theorem foldl_push (H : IndexesLast es m) (rest : List EscrowEntry) :
    IndexesLast (es ++ rest) ((rest.zipIdx es.length).foldl
      (fun m p => Function.update m p.1.key (some p.2)) m) := by
  induction rest generalizing es m with
  | nil => simpa using H
  | cons a rest ih => simpa using ih (H.push a)

end IndexesLast

theorem IndexesLast.line {r : Replay} (H : IndexesLast r.state.entries r.index) (l : JournalLine) :
    IndexesLast (r.line l).state.entries (r.line l).index := by
  unfold Replay.line
  split
  · exact H
  · split
    · next hi => exact H.set hi
    · exact H.push l.e

theorem IndexesLast.start (st : EscrowState) :
    IndexesLast (Replay.start st).state.entries (Replay.start st).index := by
  simpa [Replay.start] using IndexesLast.nil.foldl_push st.entries

/-- The invariant of the replay loop. -/
structure Replay.Ok (r : Replay) : Prop where
  liveLast : LiveLast r.state.entries
  index : IndexesLast r.state.entries r.index

theorem Replay.Ok.line {r : Replay} (H : r.Ok) (l : JournalLine) : (r.line l).Ok := by
  refine ⟨?_, H.index.line l⟩
  unfold Replay.line
  split
  · exact H.liveLast
  · split
    · next i hi =>
      obtain ⟨e, he, hk, hlast⟩ := H.index.last _ i hi
      have ho : l.e.outpoint = e.outpoint := (EscrowEntry.key_eq_iff.mp hk).symm
      refine H.liveLast.set he ho fun _ => .inr fun j hj b hb hbo => ?_
      exact hlast j hj b hb (by simp [hbo, ho])
    · next hnone =>
      exact H.liveLast.append fun a ha _ ho => H.index.absent _ hnone a ha (by simp [ho])

theorem replayJournal_liveLast {st : EscrowState} (lines : List JournalLine)
    (h : LiveLast st.entries) : LiveLast (replayJournal lines st).entries := by
  suffices H : ∀ r : Replay, r.Ok → (lines.foldl Replay.line r).Ok from
    (H _ ⟨h, .start st⟩).liveLast
  induction lines with
  | nil => exact fun _ => id
  | cons l lines ih => exact fun r hr => ih _ (hr.line l)

/-! ## The invariants along a run -/

/-- What the moves of a call keep, the call keeps. -/
theorem step_keeps {P : EscrowWatcher → Prop} {op : Op} (hop : ∀ now, op ≠ .restart now)
    (hm : ∀ w w', Move X (op.effects s) w w' → P w → P w') (H : P s.w) :
    P (step X s op).w := by
  obtain ⟨w', hw, hf⟩ := step_spec (X := X) hop
  exact hm _ _ (.tick hf.core) (hw.preserve hm H)

/-- The memory is `Tracked`, and so is what a restart makes of the disk. -/
structure Sys.Ok (s : Sys) : Prop where
  tracked : Tracked s.w
  stored : ∀ st, s.store.snapshot = some st → LiveLast st.entries

theorem Sys.Ok.init (k : Keys) (now : Nat) : (Sys.init k now).Ok :=
  ⟨rebuildIndexes_tracked .nil, by simp [Sys.init]⟩

theorem loadState_liveLast (h : ∀ st, s.store.snapshot = some st → LiveLast st.entries) :
    LiveLast (loadState s.store).entries := by
  refine replayJournal_liveLast _ ?_
  cases hs : s.store.snapshot with
  | none => exact .nil
  | some st => exact h st hs

theorem Sys.Ok.step (op : Op) (H : s.Ok) : (step X s op).Ok := by
  by_cases hop : ∃ now, op = .restart now
  · obtain ⟨now, rfl⟩ := hop
    exact ⟨rebuildIndexes_tracked (loadState_liveLast H.stored), H.stored⟩
  · have hr : ∀ now, op ≠ .restart now := fun now h => hop ⟨now, h⟩
    obtain ⟨w', hw, hf⟩ := step_spec (X := X) (s := s) hr
    have H' : Tracked w' := hw.preserve (fun _ _ h => .move Op.effects_le h) H.tracked
    refine ⟨.move (A := op.effects s) (X := X) Op.effects_le (.tick hf.core) H',
      fun st hst => ?_⟩
    rcases hf.snapshot with h | ⟨seq, h⟩
    · exact H.stored st (h ▸ hst)
    · cases h.symm.trans hst
      exact H'.liveLast

theorem Sys.Ok.run (evs : List Op) (H : s.Ok) : (run (Escrow.step X) s evs).Ok :=
  run_invariant_of_step (fun _ op => Sys.Ok.step op) H

/-- `Q` holds of every entry in memory, in the pending journal lines and on disk. -/
structure Sys.AllEntries (Q : EscrowEntry → Prop) (s : Sys) : Prop where
  entries : ∀ e ∈ s.w.entries, Q e
  pending : ∀ l ∈ s.w.journalPending, Q l.e
  snapshot : ∀ st, s.store.snapshot = some st → ∀ e ∈ st.entries, Q e
  journal : ∀ l ∈ s.store.journal, Q l.e

namespace Sys.AllEntries

variable {Q : EscrowEntry → Prop}

theorem init (k : Keys) (now : Nat) : (Sys.init k now).AllEntries Q := by
  constructor <;> simp [Sys.init, EscrowWatcher.new, rebuildIndexes, EscrowWatcher.entries,
    EscrowState.empty]

theorem mono {Q' : EscrowEntry → Prop} (h : ∀ e, Q e → Q' e) (H : s.AllEntries Q) :
    s.AllEntries Q' :=
  ⟨fun e he => h e (H.1 e he), fun l hl => h _ (H.2 l hl),
    fun st hs e he => h e (H.3 st hs e he), fun l hl => h _ (H.4 l hl)⟩

end Sys.AllEntries

theorem replayLine_entries {r : Replay} {l : JournalLine} {e : EscrowEntry}
    (h : e ∈ (r.line l).state.entries) : e ∈ r.state.entries ∨ e = l.e := by
  unfold Replay.line at h
  split at h
  · exact .inl h
  · split at h
    · exact List.mem_or_eq_of_mem_set h
    · simpa using h

theorem mem_replayJournal {lines : List JournalLine} {st : EscrowState} {e : EscrowEntry}
    (h : e ∈ (replayJournal lines st).entries) : e ∈ st.entries ∨ ∃ l ∈ lines, l.e = e := by
  suffices H : ∀ r : Replay, e ∈ (lines.foldl Replay.line r).state.entries →
      e ∈ r.state.entries ∨ ∃ l ∈ lines, l.e = e from H _ h
  clear h
  induction lines with
  | nil => exact fun r h => .inl h
  | cons l lines ih =>
    intro r h
    rcases ih _ h with h | ⟨l', hl', rfl⟩
    · rcases replayLine_entries h with h | rfl
      · exact .inl h
      · exact .inr ⟨l, by simp, rfl⟩
    · exact .inr ⟨l', by simp [hl'], rfl⟩

theorem Sys.AllEntries.loaded {Q : EscrowEntry → Prop} (H : s.AllEntries Q) :
    ∀ e ∈ (loadState s.store).entries, Q e := by
  intro e he
  rcases mem_replayJournal he with he | ⟨l, hl, rfl⟩
  · cases hs : s.store.snapshot with
    | none => simp [hs, EscrowState.empty] at he
    | some st =>
      rw [hs] at he
      exact H.snapshot st hs e he
  · exact H.journal l hl

/-- `Q` of the entries in memory and in the pending journal lines. -/
def Everywhere (Q : EscrowEntry → Prop) (w : EscrowWatcher) : Prop :=
  (∀ e ∈ w.entries, Q e) ∧ ∀ l ∈ w.journalPending, Q l.e

theorem Everywhere.logged {Q : EscrowEntry → Prop} {w w' : EscrowWatcher} {e : EscrowEntry}
    (H : Everywhere Q w) (he : Q e) (hs : ∀ a ∈ w'.entries, a ∈ w.entries ∨ a = e)
    (hp : w'.journalPending = w.journalPending ++ [⟨w.journalSeq + 1, e⟩] ∨
      w'.journalPending = w.journalPending) : Everywhere Q w' := by
  refine ⟨fun a ha => (hs a ha).elim (H.1 a) fun h => h ▸ he, fun l hl => ?_⟩
  rcases hp with hp | hp <;> rw [hp] at hl
  · rcases List.mem_append.mp hl with hl | hl
    · exact H.2 l hl
    · cases List.mem_singleton.mp hl
      exact he
  · exact H.2 l hl

theorem Everywhere.release {Q : EscrowEntry → Prop} (hS : ∀ e e', Slashes e e' → Q e → Q e')
    {p : EscrowWatcher × Nat} (i : Nat) (H : Everywhere Q p.1) : Everywhere Q (releaseAt p i).1 := by
  unfold releaseAt
  split
  · exact H
  · next e he =>
    split
    · next hl =>
      refine H.logged (e := { e with slashed := true })
        (hS e _ ⟨hl, rfl⟩ (H.1 e (List.mem_of_getElem? he))) ?_ (.inl ?_)
      · change ∀ a ∈ (slashAt (·.live) p.1 i).entries, _
        simp only [slashAt, he, hl, if_true]
        exact fun a ha => List.mem_or_eq_of_mem_set ha
      · simp [slashAt, he, hl, appendJournalLine, setEntries]
    · exact H

theorem Everywhere.move {Q : EscrowEntry → Prop} (hT : ∀ e e', A.touches e e' → Q e → Q e')
    (hS : ∀ e e', Slashes e e' → Q e → Q e') (hF : ∀ e, e.Fresh → A.tracks e → Q e)
    (h : Move X A w w') (H : Everywhere Q w) : Everywhere Q w' := by
  cases h with
  | tick h => exact ⟨by rw [h.entries]; exact H.1, fun l hl => H.2 l (h.pending l hl)⟩
  | see | ship => exact ⟨H.1, H.2⟩
  | log h => exact H.logged (H.1 _ h) (fun a ha => .inl ha) (.inl rfl)
  | touch i he ht =>
    exact H.logged (hT _ _ ht (H.1 _ (List.mem_of_getElem? he)))
      (fun a ha => List.mem_or_eq_of_mem_set ha) (.inr rfl)
  | track hf hF' _ =>
    refine H.logged (hF _ hf hF') (fun a ha => ?_) (.inl rfl)
    exact (List.mem_append.mp ha).imp_right List.mem_singleton.mp
  | compact =>
    unfold EscrowWatcher.compact
    simp only
    split
    · exact ⟨fun e he => H.1 e (List.mem_of_mem_filter he), H.2⟩
    · exact H
  | removeBlock hash n => exact removeChainBlock_keeps ⟨H.1, H.2⟩ (fun _ i => .release hS i) H
  | drop txid =>
    obtain ⟨h1, _, _, h2⟩ := dropClaim_core w txid
    exact ⟨by rw [h1]; exact H.1, by rw [h2]; exact H.2⟩

/-- Updating the entry of an outpoint, when only that may weaken `Q` to `Q'`. -/
theorem Everywhere.updateEntry {Q Q' : EscrowEntry → Prop} {f : EscrowEntry → EscrowEntry}
    {o : Outpoint} (hQ : ∀ e, Q e → Q' e) (hf : ∀ e, e.outpoint = o → Q e → Q' (f e))
    (H : Everywhere Q w) : Everywhere Q' (w.updateEntry f o) := by
  have H' : Everywhere Q' w := ⟨fun e he => hQ e (H.1 e he), fun l hl => hQ _ (H.2 l hl)⟩
  unfold EscrowWatcher.updateEntry
  split
  · exact H'
  · next i hi =>
    obtain ⟨e, he, ho⟩ := findEntry_some hi
    rw [he]
    exact H'.logged (hf e ho (H.1 e (List.mem_of_getElem? he)))
      (fun a ha => List.mem_or_eq_of_mem_set ha) (.inl rfl)

theorem Sys.AllEntries.flush {Q : EscrowEntry → Prop} {s' : Sys} (h : Everywhere Q w)
    (hf : Flushed { s with w := w } s') (H : s.AllEntries Q) : s'.AllEntries Q := by
  refine ⟨by rw [hf.core.entries]; exact h.1, fun l hl => h.2 l (hf.core.pending l hl),
    fun st hst => ?_, fun l hl => (hf.journal l hl).elim (H.journal l) (h.2 l)⟩
  rcases hf.snapshot with hs | ⟨seq, hs⟩
  · exact H.snapshot st (hs ▸ hst)
  · cases hs.symm.trans hst
    exact h.1

theorem Sys.AllEntries.step {Q : EscrowEntry → Prop} (op : Op)
    (hT : ∀ e e', op.Touches s e e' → Q e → Q e') (hS : ∀ e e', Slashes e e' → Q e → Q e')
    (hF : ∀ e, e.Fresh → op.Tracks e → Q e) (H : s.AllEntries Q) :
    (Escrow.step X s op).AllEntries Q := by
  by_cases hop : ∃ now, op = .restart now
  · obtain ⟨now, rfl⟩ := hop
    exact ⟨H.loaded, by simp [Escrow.step, Sys.restart, EscrowWatcher.new, rebuildIndexes],
      H.snapshot, H.journal⟩
  · have hr : ∀ now, op ≠ .restart now := fun now h => hop ⟨now, h⟩
    obtain ⟨w', hw, hf⟩ := step_spec (X := X) (s := s) hr
    exact H.flush (hw.preserve (fun _ _ h => .move hT hS hF h) ⟨H.entries, H.pending⟩) hf

end KeryxMiner.Escrow
