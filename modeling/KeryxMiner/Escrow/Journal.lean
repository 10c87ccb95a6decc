import KeryxMiner.LineFile
import KeryxMiner.Escrow.Edits

/-!
# The state file and the journal

The stored state as files: a snapshot, which is replaced as a whole, and a journal, which lines are
appended to. A crash or a failed write may cut an append anywhere, and a save may end between any two
of its file operations. `Files.store` is what a load sees of the files. What the process does to its
entries in between are the edits of `KeryxMiner.Escrow.Edits`.

A line for which `write_journal` returned `Ok` is there at the next load, or in the snapshot that
folded it in, as long as nothing is appended behind a line cut short and no recovery is cut short
before it has emptied the journal (`written_lines_survive`).
-/

namespace KeryxMiner.Escrow

open EscrowWatcher

/-! ## The files -/

/-- Outcome of writing to the journal: all of it written and synced, or only so many bytes. -/
inductive WriteResult
  | ok
  | failed (written : Nat)
  deriving DecidableEq, Repr

def WriteResult.isOk : WriteResult → Bool
  | .ok => true
  | .failed _ => false

/-- The state file and the journal. -/
structure Files where
  state : Option EscrowState
  journal : List UInt8
  deriving DecidableEq, Repr

variable (C : LineCodec JournalLine)

/-- What a load sees of the files. -/
def Files.store (f : Files) : Store := ⟨f.state, C.readable f.journal⟩

/-- What a write leaves of the text of the lines. -/
def writtenBytes (lines : List JournalLine) : WriteResult → List UInt8
  | .ok => C.encodeLines lines
  | .failed n => (C.encodeLines lines).take n

def Files.append (f : Files) (lines : List JournalLine) (r : WriteResult) : Files :=
  { f with journal := f.journal ++ writtenBytes C lines r }

/-- `save_state_atomic`: the state file is replaced, then the journal emptied. -/
def Files.save (f : Files) (state : EscrowState) : SaveResult → Files
  | .untouched => f
  | .replaced => { f with state := some state }
  | .saved => ⟨some state, []⟩

/-- The process with its files. -/
structure FileSys where
  keys : Keys
  w : EscrowWatcher
  files : Files

def FileSys.sys (s : FileSys) : Sys := ⟨s.keys, s.w, s.files.store C⟩

/-- What a process does to its entries and files; a recovery runs in a process of its own. -/
inductive FileOp
  | edit (ed : Edit)
  | writeJournal (now : Nat) (r : WriteResult)
  | writeSnapshot (now : Nat) (r : SaveResult)
  | recover (entries : List EscrowEntry) (r : SaveResult) (now : Nat)
  | reload (now : Nat)

def FileSys.init (k : Keys) (now : Nat) : FileSys := ⟨k, .new k .empty now, ⟨none, []⟩⟩

def FileSys.reload (s : FileSys) (now : Nat) : FileSys :=
  { s with w := .new s.keys (loadState (s.files.store C)) now }

/-- The lines are encoded by `C`. -/
def Externals.onLines (X : Externals) : Externals := { X with encodeLine := C.encode }

/-- `write_journal` and `write_snapshot` are those of the model by lines, on files. -/
def fileStep (X : Externals) (s : FileSys) : FileOp → FileSys
  | .edit ed => { s with w := s.w.edit ed }
  | .writeJournal now r =>
    { s with
      w := ((s.sys C).writeJournal (X.onLines C) ⟨now, .untouched, ⟨[], r.isOk⟩⟩).w
      files := s.files.append C s.w.journalPending r }
  | .writeSnapshot now r =>
    { s with
      w := ((s.sys C).writeSnapshot ⟨now, r, ⟨[], false⟩⟩).w
      files := s.files.save { s.w.state with journalSeq := s.w.journalSeq } r }
  | .recover entries r now => { s with files := s.files.save ⟨entries, 0⟩ r }.reload C now
  | .reload now => s.reload C now

/-! ## The files and the lines -/

variable {C} {X : Externals} {s : FileSys} {op : FileOp} {st : EscrowState} {r : Replay}
  {l : JournalLine} {lines : List JournalLine}

/-- Behind a full line, an append adds whole lines. -/
theorem Files.append_store {f : Files} (h : Terminated f.journal) (lines : List JournalLine)
    (r : WriteResult) : ∃ n, (f.append C lines r).store C = ⟨f.state, C.readable f.journal ++ lines.take n⟩ ∧
      (r = .ok → lines.take n = lines) := by
  unfold Files.append Files.store
  simp only [C.readable_append h]
  cases r with
  | ok => exact ⟨lines.length, by simp [writtenBytes, LineCodec.readable_encodeLines], by simp⟩
  | failed k =>
    obtain ⟨n, hn⟩ := LineCodec.readable_take (C := C) lines k
    exact ⟨n, by rw [writtenBytes, hn], nofun⟩

/-! ## Replaying -/

/-- `l'` is `l` or a later line for the same outpoint. -/
def JournalLine.Follows (l' l : JournalLine) : Prop :=
  (l' = l ∨ l.s < l'.s) ∧ l'.e.outpoint = l.e.outpoint

instance (l l' : JournalLine) : Decidable (l'.Follows l) := by
  unfold JournalLine.Follows; infer_instance

@[refl] theorem JournalLine.Follows.rfl' : l.Follows l := ⟨.inl rfl, rfl⟩

theorem JournalLine.Follows.trans {a b c : JournalLine} (h : a.Follows b) (h' : b.Follows c) :
    a.Follows c := by
  refine ⟨?_, h.2.trans h'.2⟩
  rcases h.1 with rfl | hab
  · exact h'.1
  · rcases h'.1 with rfl | hbc
    · exact .inr hab
    · exact .inr (hbc.trans hab)

@[simp] theorem Replay.line_seq : (r.line l).state.journalSeq = max r.state.journalSeq l.s := by
  unfold Replay.line
  split
  · next h => exact (Nat.max_eq_left h).symm
  · next h =>
    have hle : r.state.journalSeq ≤ l.s := by omega
    split <;> exact (Nat.max_eq_right hle).symm

theorem le_replay_seq : r.state.journalSeq ≤ (lines.foldl Replay.line r).state.journalSeq ∧
    ∀ l ∈ lines, l.s ≤ (lines.foldl Replay.line r).state.journalSeq := by
  induction lines generalizing r with
  | nil => exact ⟨le_rfl, by simp⟩
  | cons a lines ih =>
    obtain ⟨h1, h2⟩ := ih (r := r.line a)
    rw [Replay.line_seq] at h1
    exact ⟨by rw [List.foldl_cons]; omega, List.forall_mem_cons.mpr ⟨by rw [List.foldl_cons]; omega, h2⟩⟩

theorem replay_seq_lt {n : Nat} (h : r.state.journalSeq < n) (hl : ∀ l ∈ lines, l.s < n) :
    (lines.foldl Replay.line r).state.journalSeq < n := by
  induction lines generalizing r with
  | nil => exact h
  | cons a lines ih =>
    have := hl a List.mem_cons_self
    exact ih (by rw [Replay.line_seq]; omega) fun l h => hl l (List.mem_cons_of_mem _ h)

/-- The entry of the line's outpoint is that of the line or of a later one among `lines`. -/
def Replay.Holds (lines : List JournalLine) (l : JournalLine) (r : Replay) : Prop :=
  l.s ≤ r.state.journalSeq ∧ ∃ l' ∈ lines, l'.Follows l ∧
    ∃ i, r.index l.e.key = some i ∧ r.state.entries[i]? = some l'.e

theorem Replay.holds_line (hl : l ∈ lines) (hseq : r.state.journalSeq < l.s)
    (hi : IndexesLast r.state.entries r.index) : (r.line l).Holds lines l := by
  refine ⟨by simp, l, hl, .rfl', ?_⟩
  rw [Replay.line, if_neg (by omega)]
  cases hk : r.index l.e.key with
  | some i =>
    obtain ⟨e, he, -⟩ := hi.last _ i hk
    exact ⟨i, hk, by simp [(List.getElem?_eq_some_iff.mp he).1]⟩
  | none => exact ⟨r.state.entries.length, by simp, by simp⟩

theorem Replay.Holds.line {a : JournalLine} (ha : a ∈ lines) (hi : IndexesLast r.state.entries r.index)
    (H : r.Holds lines l) : (r.line a).Holds lines l := by
  obtain ⟨hseq, l', hl', hfol, i, hidx, he⟩ := H
  refine ⟨by rw [line_seq]; omega, ?_⟩
  unfold Replay.line
  split
  · exact ⟨l', hl', hfol, i, hidx, he⟩
  · next hnew =>
    have hlt := (List.getElem?_eq_some_iff.mp he).1
    split
    · next j hj =>
      by_cases hkey : a.e.key = l.e.key
      · rw [hkey, hidx, Option.some.injEq] at hj
        subst hj
        exact ⟨a, ha, ⟨.inr (by omega), EscrowEntry.key_eq_iff.mp hkey⟩, i, hidx, by simp [hlt]⟩
      · refine ⟨l', hl', hfol, i, hidx, ?_⟩
        rw [List.getElem?_set_ne, he]
        rintro rfl
        obtain ⟨e, he', hek, -⟩ := hi.last _ j hj
        cases he.symm.trans he'
        exact hkey (hek.symm.trans (EscrowEntry.key_eq_iff.mpr hfol.2))
    · next hj =>
      have hkey : l.e.key ≠ a.e.key := fun h => by simp [← h, hidx] at hj
      refine ⟨l', hl', hfol, i, by simpa [Function.update_of_ne hkey] using hidx, ?_⟩
      rw [List.getElem?_append_left hlt, he]

theorem Replay.Holds.replay {rest : List JournalLine} (hsub : ∀ a ∈ rest, a ∈ lines)
    (hi : IndexesLast r.state.entries r.index) (H : r.Holds lines l) :
    (rest.foldl Replay.line r).Holds lines l := by
  induction rest generalizing r with
  | nil => exact H
  | cons a rest ih =>
    exact ih (fun b hb => hsub b (List.mem_cons_of_mem _ hb)) (hi.line a)
      (H.line (hsub a List.mem_cons_self) hi)

/-- Each line repeats one before it or is newer than all of them. -/
def Ordered (lines : List JournalLine) : Prop :=
  ∀ pre l post, lines = pre ++ l :: post → l ∈ pre ∨ ∀ a ∈ pre, a.s < l.s

/-- A line newer than the snapshot is reflected in what is loaded. -/
theorem replay_reflects (hord : Ordered lines) (hl : l ∈ lines) (hs : st.journalSeq < l.s) :
    ∃ l' ∈ lines, l'.Follows l ∧ l'.e ∈ (replayJournal lines st).entries := by
  obtain ⟨pre, post, hsplit, hpre⟩ := List.eq_append_cons_of_mem hl
  have hnew := (hord pre l post hsplit).resolve_left hpre
  have hidx : ∀ L : List JournalLine, IndexesLast (L.foldl Replay.line (.start st)).state.entries
      (L.foldl Replay.line (.start st)).index := fun L =>
    List.foldlRecOn (motive := fun r : Replay => IndexesLast r.state.entries r.index) L Replay.line
      (.start st) fun _ h a _ => h.line a
  have hat : ((pre.foldl Replay.line (.start st)).line l).Holds lines l :=
    Replay.holds_line hl (replay_seq_lt hs hnew) (hidx pre)
  have hpost : ∀ a ∈ post, a ∈ lines := fun a ha => by simp [hsplit, ha]
  have hend := hat.replay hpost ((hidx pre).line l)
  obtain ⟨-, l', hl', hfol, i, -, he⟩ := hend
  refine ⟨l', hl', hfol, ?_⟩
  rw [replayJournal, hsplit, List.foldl_append, List.foldl_cons]
  exact List.mem_of_getElem? he

/-- Lines that are not newer than the snapshot change nothing. -/
theorem replay_stale {old : List JournalLine} (hold : ∀ l ∈ old, l.s ≤ st.journalSeq) :
    replayJournal lines st = replayJournal (lines.filter (· ∉ old)) st := by
  suffices H : ∀ r : Replay, st.journalSeq ≤ r.state.journalSeq →
      lines.foldl Replay.line r = (lines.filter (· ∉ old)).foldl Replay.line r from
    congrArg Replay.state (H (.start st) le_rfl)
  induction lines with
  | nil => exact fun _ _ => rfl
  | cons a lines ih =>
    intro r hr
    by_cases ha : a ∈ old
    · have hskip : r.line a = r := if_pos ((hold a ha).trans hr)
      simpa [ha, hskip] using ih r hr
    · simpa [ha] using ih (r.line a) (by rw [Replay.line_seq]; omega)

variable (lines) in
/-- An entry of the snapshot is loaded, unless a newer line replaces it. -/
theorem replay_keeps {e : EscrowEntry} (he : e ∈ st.entries) :
    e ∈ (replayJournal lines st).entries ∨ ∃ l ∈ lines, st.journalSeq < l.s ∧
      l.e.outpoint = e.outpoint ∧ l.e ∈ (replayJournal lines st).entries := by
  let P (r : Replay) := IndexesLast r.state.entries r.index ∧ st.journalSeq ≤ r.state.journalSeq ∧
    ∃ a ∈ r.state.entries, a = e ∨ ∃ l ∈ lines, st.journalSeq < l.s ∧ l.e.outpoint = e.outpoint ∧ l.e = a
  have hP : P (lines.foldl Replay.line (.start st)) := by
    refine List.foldlRecOn (motive := P) lines Replay.line ⟨.start st, le_rfl, e, he, .inl rfl⟩ ?_
    rintro r ⟨hi, hseq, a, ha, hor⟩ l hl
    refine ⟨hi.line l, by rw [Replay.line_seq]; omega, ?_⟩
    have hout : a.outpoint = e.outpoint := by
      rcases hor with rfl | ⟨b, -, -, hb, rfl⟩
      · rfl
      · exact hb
    unfold Replay.line
    split
    · exact ⟨a, ha, hor⟩
    · next hnew =>
      split
      · next i hidx =>
        by_cases hset : a ∈ r.state.entries.set i l.e
        · exact ⟨a, hset, hor⟩
        · -- the entry is the one that the line replaces
          obtain ⟨j, hj⟩ := List.mem_iff_getElem?.mp ha
          obtain ⟨b, hb, hbk, -⟩ := hi.last _ i hidx
          have hji : j = i := by
            by_contra hne
            exact hset (List.mem_of_getElem? (by rw [List.getElem?_set_ne (Ne.symm hne)]; exact hj))
          subst hji
          cases hj.symm.trans hb
          have hlt := (List.getElem?_eq_some_iff.mp hj).1
          have hput : (r.state.entries.set j l.e)[j]? = some l.e := by simp [hlt]
          exact ⟨l.e, List.mem_of_getElem? hput, .inr ⟨l, hl, by omega,
            (EscrowEntry.key_eq_iff.mp hbk).symm.trans hout, rfl⟩⟩
      · exact ⟨a, List.mem_append_left _ ha, hor⟩
  obtain ⟨-, -, a, ha, rfl | ⟨l, hl, hs, ho, rfl⟩⟩ := hP
  · exact .inl ha
  · exact .inr ⟨l, hl, hs, ho, ha⟩

/-! ## A run -/

/-- Since the last recovery: the lines for which `write_journal` returned `Ok`; and what the snapshot
in place was to fold in, which are the lines logged before it and the entries that were in memory,
with the lines that the journal was left with. -/
structure Kept where
  written : List JournalLine
  folded : List JournalLine
  held : List EscrowEntry
  leftover : List JournalLine

def Kept.empty : Kept := ⟨[], [], [], []⟩

/-- The lines logged so far that a crash has not taken. -/
def known (C : LineCodec JournalLine) (g : Kept) (s : FileSys) : List JournalLine :=
  g.folded ++ C.readable s.files.journal ++ s.w.journalPending

def noteKept (C : LineCodec JournalLine) (g : Kept) (s : FileSys) (op : FileOp) (s' : FileSys) : Kept :=
  match op with
  | .writeJournal _ .ok => { g with written := g.written ++ s.w.journalPending }
  | .writeSnapshot _ .untouched | .recover _ .untouched _ => g
  | .writeSnapshot _ _ => ⟨g.written, known C g s, s.w.entries, C.readable s'.files.journal⟩
  | .recover entries _ _ => ⟨[], [], entries, C.readable s'.files.journal⟩
  | _ => g

/-- The sequence number of the snapshot in place. -/
def Files.snapshotSeq (f : Files) : Nat := (f.state.getD .empty).journalSeq

/-- The next load gives the outpoint of the line its entry or that of a later line, which is in the
journal or folded in; or such a line was folded in with the entry done, and compaction may have taken
it away. -/
def Reflected (C : LineCodec JournalLine) (f : Files) (g : Kept) (l : JournalLine) : Prop :=
  (∃ l' ∈ g.folded ++ C.readable f.journal, l'.Follows l ∧
    l'.e ∈ (loadState (f.store C)).entries) ∨
  ∃ l' ∈ g.folded, l'.Follows l ∧ l'.e.live = false

/-- No written line is lost, and the lines from before the snapshot change nothing in what the
snapshot recorded. -/
structure Persisted (C : LineCodec JournalLine) (p : FileSys × Kept) : Prop where
  written : ∀ l ∈ p.2.written, Reflected C p.1.files p.2 l
  leftover : loadState (p.1.files.store C) = replayJournal
    ((C.readable p.1.files.journal).filter (· ∉ p.2.leftover)) ⟨p.2.held, p.1.files.snapshotSeq⟩

instance (f : Files) (g : Kept) (l : JournalLine) : Decidable (Reflected C f g l) := by
  unfold Reflected; infer_instance

instance (p : FileSys × Kept) : Decidable (Persisted C p) :=
  decidable_of_iff (_ ∧ _) ⟨fun h => ⟨h.1, h.2⟩, fun h => ⟨h.1, h.2⟩⟩

/-- No byte is written behind a line cut short, and no recovery ends between its two file operations
when the journal has lines. -/
def CleanWrites (C : LineCodec JournalLine) (p : FileSys × Kept) : FileOp → Prop
  | .writeJournal _ r =>
    writtenBytes C p.1.w.journalPending r = [] ∨ Terminated p.1.files.journal
  | .recover _ .replaced _ => C.readable p.1.files.journal = []
  | _ => True

instance (p : FileSys × Kept) (op : FileOp) : Decidable (CleanWrites C p op) := by
  unfold CleanWrites; split <;> infer_instance

/-- `es` has what the lines say: for each line the entry of that line or of one that follows it,
unless that entry is done. -/
def Carries (past : List JournalLine) (es : List EscrowEntry) : Prop :=
  ∀ l ∈ past, ∃ l' ∈ past, l'.Follows l ∧ (l'.e ∈ es ∨ l'.e.live = false)

/-- The snapshot carries the lines folded in, and the journal is in order and has the written lines
that were not folded in. -/
structure DiskOk (C : LineCodec JournalLine) (f : Files) (g : Kept) : Prop where
  ordered : Ordered (C.readable f.journal)
  foldedSeq : ∀ l ∈ g.folded, l.s ≤ f.snapshotSeq
  stale : ∀ l ∈ C.readable f.journal, l.s ≤ f.snapshotSeq → l ∈ g.folded
  written : ∀ l ∈ g.written, l ∈ g.folded ++ C.readable f.journal
  leftover : ∀ l ∈ g.leftover, l.s ≤ f.snapshotSeq
  held : (f.state.getD .empty).entries = g.held
  snapshot : Carries g.folded g.held

/-- The pending lines go on with the sequence of the journal, and the memory carries all lines. -/
structure FilesOk (C : LineCodec JournalLine) (p : FileSys × Kept) : Prop where
  disk : DiskOk C p.1.files p.2
  journalSeq : ∀ l ∈ C.readable p.1.files.journal, l.s ≤ p.1.w.journalSeq
  pendingSeq : ∀ l ∈ p.1.w.journalPending, l.s ≤ p.1.w.journalSeq
  snapshotSeq : p.1.files.snapshotSeq ≤ p.1.w.journalSeq
  sorted : p.1.w.journalPending.Pairwise (·.s < ·.s)
  ahead : ∀ l ∈ p.1.w.journalPending, l ∈ C.readable p.1.files.journal ∨
    ∀ a ∈ C.readable p.1.files.journal, a.s < l.s
  pendingStale : ∀ l ∈ p.1.w.journalPending, l.s ≤ p.1.files.snapshotSeq → l ∈ p.2.folded
  memory : Carries (known C p.2 p.1) p.1.w.entries

variable {p : FileSys × Kept} {g : Kept} {f : Files} {es es' : List EscrowEntry}

theorem DiskOk.reflected (H : DiskOk C f g) (hl : l ∈ g.folded ++ C.readable f.journal) :
    Reflected C f g l := by
  rcases Nat.lt_or_ge f.snapshotSeq l.s with hs | hs
  · have hread := (List.mem_append.mp hl).resolve_left fun h => Nat.not_lt.mpr (H.foldedSeq l h) hs
    obtain ⟨l', hl', hfol, hmem⟩ := replay_reflects H.ordered hread
      (show (f.state.getD .empty).journalSeq < l.s from hs)
    exact .inl ⟨l', List.mem_append_right _ hl', hfol, hmem⟩
  · have hfolded : l ∈ g.folded := (List.mem_append.mp hl).elim id fun h => H.stale l h hs
    obtain ⟨l', hl', hfol, he | hdone⟩ := H.snapshot l hfolded
    · have hheld : l'.e ∈ (f.state.getD .empty).entries := H.held ▸ he
      rcases replay_keeps (C.readable f.journal) hheld with
        hkept | ⟨a, ha, hseq, ho, hmem⟩
      · exact .inl ⟨l', List.mem_append_left _ hl', hfol, hkept⟩
      · exact .inl ⟨a, List.mem_append_right _ ha, ⟨.inr (hs.trans_lt hseq), ho.trans hfol.2⟩, hmem⟩
    · exact .inr ⟨l', hl', hfol, hdone⟩

theorem DiskOk.persisted (H : DiskOk C p.1.files p.2) : Persisted C p where
  written l hl := H.reflected (H.written l hl)
  leftover := by
    rw [← H.held]
    exact replay_stale H.leftover

theorem FilesOk.persisted (H : FilesOk C p) : Persisted C p := H.disk.persisted

theorem Ordered.nil : Ordered [] := fun pre l post h => by simp at h

theorem Ordered.concat (H : Ordered lines) (hl : l ∈ lines ∨ ∀ a ∈ lines, a.s < l.s) :
    Ordered (lines ++ [l]) := by
  intro pre a post h
  rcases List.eq_nil_or_concat post with rfl | ⟨post, b, rfl⟩
  · obtain ⟨rfl, h2⟩ := List.append_inj' h rfl
    rw [List.cons.injEq] at h2
    exact h2.1 ▸ hl
  · rw [List.concat_eq_append, ← List.cons_append, ← List.append_assoc] at h
    exact H pre a post (List.append_inj' h rfl).1

theorem Ordered.append {new : List JournalLine} (H : Ordered lines)
    (hs : new.Pairwise (·.s < ·.s)) (ha : ∀ l ∈ new, l ∈ lines ∨ ∀ a ∈ lines, a.s < l.s) :
    Ordered (lines ++ new) := by
  induction new generalizing lines with
  | nil => simpa using H
  | cons l new ih =>
    obtain ⟨hl, hs⟩ := List.pairwise_cons.mp hs
    have hc := H.concat (ha l List.mem_cons_self)
    rw [← List.singleton_append, ← List.append_assoc]
    refine ih hc hs fun b hb => ?_
    rcases ha b (List.mem_cons_of_mem _ hb) with h | h
    · exact .inl (List.mem_append_left _ h)
    · refine .inr fun a hmem => ?_
      rcases List.mem_append.mp hmem with hmem | hmem
      · exact h a hmem
      · rw [List.mem_singleton.mp hmem]
        exact hl b hb

/-- A load gives the process the sequence of the journal and the entries of its lines. -/
theorem DiskOk.reload (H : DiskOk C s.files g) (now : Nat) : FilesOk C (s.reload C now, g) where
  disk := H
  journalSeq := le_replay_seq.2
  pendingSeq := fun _ h => (List.not_mem_nil h).elim
  snapshotSeq :=
    (@le_replay_seq (.start (s.files.state.getD .empty)) (C.readable s.files.journal)).1
  sorted := .nil
  ahead := fun _ h => (List.not_mem_nil h).elim
  pendingStale := fun _ h => (List.not_mem_nil h).elim
  memory l hl := by
    have hall : known C g (s.reload C now) = g.folded ++ C.readable s.files.journal :=
      List.append_nil _
    rw [hall] at hl ⊢
    rcases H.reflected hl with ⟨l', hl', hfol, hmem⟩ | ⟨l', hl', hfol, hdone⟩
    · exact ⟨l', hl', hfol, .inl hmem⟩
    · exact ⟨l', List.mem_append_left _ hl', hfol, .inr hdone⟩

/-- A snapshot of nothing known, over a journal without lines. -/
theorem DiskOk.bare (hj : C.readable f.journal = []) :
    DiskOk C f ⟨[], [], (f.state.getD .empty).entries, C.readable f.journal⟩ := by
  rw [hj]
  refine ⟨by rw [hj]; exact .nil, ?_, by simp [hj], ?_, ?_, rfl, ?_⟩ <;>
    exact fun _ h => (List.not_mem_nil h).elim

theorem FilesOk.init (k : Keys) (now : Nat) : FilesOk C (FileSys.init k now, .empty) :=
  DiskOk.reload (s := FileSys.init k now) (.bare rfl) now

/-- A clean write adds whole lines, all of them when it returns `Ok`. -/
theorem append_readable {w : WriteResult} (hc : writtenBytes C lines w = [] ∨ Terminated s.files.journal) :
    ∃ n, C.readable (s.files.append C lines w).journal = C.readable s.files.journal ++ lines.take n ∧
      (w = .ok → lines.take n = lines) := by
  rcases hc with hnone | hterm
  · refine ⟨0, by simp [Files.append, hnone], ?_⟩
    rintro rfl
    have := congrArg C.readable hnone
    rw [writtenBytes, LineCodec.readable_encodeLines] at this
    simpa using this.symm
  · obtain ⟨n, hn, hok⟩ := Files.append_store (C := C) hterm lines w
    exact ⟨n, congrArg Store.journal hn, hok⟩

theorem writeJournal_memory {s : Sys} (io : Io) :
    (s.writeJournal X io).w.memory = (s.w.entries, s.w.journalSeq,
      if io.append.ok = true then [] else s.w.journalPending) := by
  unfold Sys.writeJournal EscrowWatcher.memory
  by_cases hnil : s.w.journalPending = []
  · simp [hnil, EscrowWatcher.entries]
  · by_cases hok : io.append.ok = true <;> simp [hnil, hok, EscrowWatcher.entries]

theorem Carries.mono {past past' : List JournalLine} (h : ∀ l, l ∈ past ↔ l ∈ past')
    (H : Carries past es) : Carries past' es := fun l hl => by
  obtain ⟨l', hl', hfol, he⟩ := H l ((h l).mpr hl)
  exact ⟨l', (h l').mp hl', hfol, he⟩

/-- Entries are replaced by those of newer lines, or go when they are done. -/
theorem Carries.line {past new : List JournalLine} (H : Carries past es)
    (hnew : ∀ l ∈ new, l.e ∈ es' ∧ ∀ a ∈ past, a.s < l.s)
    (hes : ∀ a ∈ es, a ∈ es' ∨ a.live = false ∨ ∃ l ∈ new, l.e.outpoint = a.outpoint) :
    Carries (past ++ new) es' := by
  intro l hl
  rcases List.mem_append.mp hl with hl | hl
  · obtain ⟨l', hl', hfol, he | hdone⟩ := H l hl
    · rcases hes _ he with he | hdone | ⟨a, ha, ho⟩
      · exact ⟨l', List.mem_append_left _ hl', hfol, .inl he⟩
      · exact ⟨l', List.mem_append_left _ hl', hfol, .inr hdone⟩
      · have hlater : a.Follows l' := ⟨.inr ((hnew a ha).2 l' hl'), ho⟩
        exact ⟨a, List.mem_append_right _ ha, hlater.trans hfol, .inl (hnew a ha).1⟩
    · exact ⟨l', List.mem_append_left _ hl', hfol, .inr hdone⟩
  · exact ⟨l, List.mem_append_right _ hl, .rfl', .inl (hnew l hl).1⟩

theorem FilesOk.knownSeq (H : FilesOk C (s, g)) : ∀ l ∈ known C g s, l.s ≤ s.w.journalSeq := by
  intro l hl
  rcases List.mem_append.mp hl with hl | hl
  · rcases List.mem_append.mp hl with hl | hl
    · exact (H.disk.foldedSeq l hl).trans H.snapshotSeq
    · exact H.journalSeq l hl
  · exact H.pendingSeq l hl

theorem FilesOk.edit (ed : Edit) (H : FilesOk C (s, g)) :
    FilesOk C (instrument (fileStep C X) (noteKept C) (s, g) (.edit ed)) := by
  change FilesOk C ({ s with w := s.w.edit ed }, g)
  rcases edit_cases s.w ed with ⟨hseq, hpend, hes⟩ | ⟨e, hseq, hpend, he, hes⟩
  · refine ⟨H.disk, hseq ▸ H.journalSeq, ?_, hseq ▸ H.snapshotSeq, hpend ▸ H.sorted,
      hpend ▸ H.ahead, hpend ▸ H.pendingStale, ?_⟩
    · rw [hpend, hseq]
      exact H.pendingSeq
    · have hsame : Carries (known C g s ++ []) (s.w.edit ed).entries :=
        H.memory.line (by simp) fun a ha => (hes a ha).imp_right .inl
      simpa [known, hpend] using hsame
  · have hlast : ∀ l ∈ (s.w.edit ed).journalPending,
        l ∈ s.w.journalPending ∨ l = ⟨s.w.journalSeq + 1, e⟩ := fun l hl => by
      rw [hpend] at hl
      simpa using hl
    refine ⟨H.disk, fun l hl => ?_, fun l hl => ?_, ?_, ?_, fun l hl => ?_, fun l hl hs => ?_, ?_⟩
    · exact (H.journalSeq l hl).trans (by dsimp only; omega)
    · rcases hlast l hl with hl | rfl
      · exact (H.pendingSeq l hl).trans (by dsimp only; omega)
      · exact hseq.ge
    · exact H.snapshotSeq.trans (by dsimp only; omega)
    · dsimp only
      rw [hpend]
      refine List.pairwise_append.mpr ⟨H.sorted, List.pairwise_singleton .., fun a ha b hb => ?_⟩
      rw [List.mem_singleton.mp hb]
      exact Nat.lt_succ_of_le (H.pendingSeq a ha)
    · rcases hlast l hl with hl | rfl
      · exact H.ahead l hl
      · exact .inr fun a ha => Nat.lt_succ_of_le (H.journalSeq a ha)
    · rcases hlast l hl with hl | rfl
      · exact H.pendingStale l hl hs
      · have hseq := H.snapshotSeq
        dsimp only at hs hseq
        omega
    · have hline : Carries (known C g s ++ [⟨s.w.journalSeq + 1, e⟩]) (s.w.edit ed).entries :=
        H.memory.line (by simpa [he] using fun a ha => Nat.lt_succ_of_le (H.knownSeq a ha))
          fun a ha => (hes a ha).imp_right fun ho => .inr ⟨_, List.mem_singleton_self _, ho.symm⟩
      simpa [known, hpend] using hline

/-- Lines that an append adds to the journal: some of the pending ones, and all that are no longer
pending. -/
theorem FilesOk.append {s' : FileSys} {n : Nat} (H : FilesOk C (s, g))
    (hjournal : C.readable s'.files.journal = C.readable s.files.journal ++ s.w.journalPending.take n)
    (hstate : s'.files.state = s.files.state) (hentries : s'.w.entries = s.w.entries)
    (hseq : s'.w.journalSeq = s.w.journalSeq)
    (hpend : s'.w.journalPending = s.w.journalPending ∨
      s'.w.journalPending = [] ∧ s.w.journalPending.take n = s.w.journalPending) :
    FilesOk C (s', g) := by
  have hsnap : s'.files.snapshotSeq = s.files.snapshotSeq :=
    congrArg (fun st => (st.getD .empty).journalSeq) hstate
  have hsub : ∀ l ∈ s'.w.journalPending, l ∈ s.w.journalPending := fun l hl =>
    hpend.elim (fun h => h ▸ hl) fun h => by simp [h.1] at hl
  have htaken : ∀ l ∈ s.w.journalPending.take n, l ∈ s.w.journalPending := fun l => List.mem_of_mem_take
  have hread : ∀ l ∈ C.readable s'.files.journal,
      l ∈ C.readable s.files.journal ∨ l ∈ s.w.journalPending := fun l hl => by
    rw [hjournal] at hl
    exact (List.mem_append.mp hl).imp_right (htaken l)
  have hsorted : s'.w.journalPending.Pairwise (·.s < ·.s) := by
    rcases hpend with h | h
    · exact h ▸ H.sorted
    · exact h.1 ▸ .nil
  have hdisk : DiskOk C s'.files g := by
    refine ⟨hjournal ▸ H.disk.ordered.append (H.sorted.sublist (List.take_sublist ..))
      fun l hl => H.ahead l (htaken l hl), hsnap ▸ H.disk.foldedSeq, fun l hl hs => ?_, fun l hl => ?_,
      hsnap ▸ H.disk.leftover, hstate ▸ H.disk.held, H.disk.snapshot⟩
    · rw [hsnap] at hs
      exact (hread l hl).elim (fun h => H.disk.stale l h hs) fun h => H.pendingStale l h hs
    · rw [hjournal]
      exact (List.mem_append.mp (H.disk.written l hl)).elim (List.mem_append_left _)
        fun h => List.mem_append_right _ (List.mem_append_left _ h)
  refine ⟨hdisk, fun l hl => ?_, fun l hl => ?_, ?_, hsorted, fun l hl => ?_, fun l hl hs => ?_, ?_⟩
  · exact hseq ▸ (hread l hl).elim (H.journalSeq l) (H.pendingSeq l)
  · exact hseq ▸ H.pendingSeq l (hsub l hl)
  · dsimp only
    rw [hsnap, hseq]
    exact H.snapshotSeq
  · -- a pending line is in what was written, or newer than that
    have hl := hsub l hl
    dsimp only
    rw [hjournal]
    rcases H.ahead l hl with h | h
    · exact .inl (List.mem_append_left _ h)
    · by_cases ht : l ∈ s.w.journalPending.take n
      · exact .inl (List.mem_append_right _ ht)
      · refine .inr fun a ha => ?_
        rcases List.mem_append.mp ha with ha | ha
        · exact h a ha
        · have hs := H.sorted
          rw [← List.take_append_drop n s.w.journalPending] at hl hs
          exact (List.pairwise_append.mp hs).2.2 a ha l ((List.mem_append.mp hl).resolve_left ht)
  · exact H.pendingStale l (hsub l hl) (hsnap ▸ hs)
  · refine hentries ▸ H.memory.mono fun l => ?_
    simp only [known, hjournal, List.mem_append]
    have := htaken l
    rcases hpend with h | h
    · rw [h]
      tauto
    · rw [h.1, h.2]
      simp [or_assoc]

theorem FilesOk.writeJournal {now : Nat} {w : WriteResult}
    (hc : CleanWrites C (s, g) (.writeJournal now w)) (H : FilesOk C (s, g)) :
    FilesOk C (instrument (fileStep C X) (noteKept C) (s, g) (.writeJournal now w)) := by
  obtain ⟨n, hjournal, hok⟩ := append_readable hc
  have hmem := writeJournal_memory (X := X.onLines C) (s := s.sys C) ⟨now, .untouched, ⟨[], w.isOk⟩⟩
  simp only [EscrowWatcher.memory, Prod.mk.injEq] at hmem
  obtain ⟨hentries, hseq, hpend⟩ := hmem
  cases w with
  | ok =>
    have hall := hok rfl
    have happ : FilesOk C (fileStep C X s (.writeJournal now .ok), g) :=
      H.append hjournal rfl hentries hseq (.inr ⟨hpend, hall⟩)
    have hread : C.readable (fileStep C X s (.writeJournal now .ok)).files.journal =
        C.readable s.files.journal ++ s.w.journalPending := hjournal.trans (by rw [hall])
    refine ⟨{ happ.disk with written := fun l hl => ?_ }, happ.2, happ.3, happ.4, happ.5, happ.6, happ.7,
      happ.8⟩
    rcases List.mem_append.mp hl with hl | hl
    · exact happ.disk.written l hl
    · exact List.mem_append_right _ (hread ▸ List.mem_append_right _ hl)
  | failed k => exact H.append hjournal rfl hentries hseq (.inl hpend)

/-- The snapshot folds in what is known: its entries carry all lines so far. -/
theorem FilesOk.writeSnapshot {now : Nat} {r : SaveResult} (H : FilesOk C (s, g)) :
    FilesOk C (instrument (fileStep C X) (noteKept C) (s, g) (.writeSnapshot now r)) := by
  have hread : ∀ l ∈ C.readable s.files.journal, l ∈ known C g s := fun l hl =>
    List.mem_append_left _ (List.mem_append_right _ hl)
  have hpend : ∀ l ∈ s.w.journalPending, l ∈ known C g s := fun l hl => List.mem_append_right _ hl
  have hwritten : ∀ l ∈ g.written, l ∈ known C g s := fun l hl =>
    List.mem_append_left _ (H.disk.written l hl)
  cases r with
  | untouched => exact ⟨H.1, H.2, H.3, H.4, H.5, H.6, H.7, H.8⟩
  | replaced =>
    have hdisk : DiskOk C (s.files.save { s.w.state with journalSeq := s.w.journalSeq } .replaced)
        ⟨g.written, known C g s, s.w.entries, C.readable s.files.journal⟩ :=
      ⟨H.disk.ordered, H.knownSeq, fun l hl _ => hread l hl,
        fun l hl => List.mem_append_left _ (hwritten l hl), H.journalSeq, rfl, H.memory⟩
    refine ⟨hdisk, H.journalSeq, H.pendingSeq, le_rfl, H.sorted, H.ahead, fun l hl _ => hpend l hl, ?_⟩
    refine H.memory.mono fun l => ?_
    change _ ↔ l ∈ known C g s ++ C.readable s.files.journal ++ s.w.journalPending
    have := hread l
    have := hpend l
    simp only [List.mem_append]
    tauto
  | saved =>
    have hdisk : DiskOk C (s.files.save { s.w.state with journalSeq := s.w.journalSeq } .saved)
        ⟨g.written, known C g s, s.w.entries, []⟩ :=
      ⟨.nil, H.knownSeq, fun l hl _ => (List.not_mem_nil hl).elim,
        fun l hl => List.mem_append_left _ (hwritten l hl), fun l hl => (List.not_mem_nil hl).elim, rfl,
        H.memory⟩
    refine ⟨hdisk, ?_, ?_, le_rfl, .nil, ?_, ?_, ?_⟩
    all_goals try exact fun _ h => (List.not_mem_nil h).elim
    refine H.memory.mono fun l => ?_
    change _ ↔ l ∈ known C g s ++ [] ++ []
    simp

theorem FilesOk.step (hc : CleanWrites C p op) (H : FilesOk C p) :
    FilesOk C (instrument (fileStep C X) (noteKept C) p op) := by
  obtain ⟨s, g⟩ := p
  cases op with
  | edit ed => exact H.edit ed
  | writeJournal now r => exact H.writeJournal hc
  | writeSnapshot now r => exact H.writeSnapshot
  | reload now => exact H.disk.reload now
  | recover entries r now =>
    cases r with
    | untouched => exact H.disk.reload now
    | replaced =>
      exact DiskOk.reload (s := { s with files := s.files.save ⟨entries, 0⟩ .replaced }) (.bare hc) now
    | saved => exact DiskOk.reload (s := { s with files := s.files.save ⟨entries, 0⟩ .saved }) (.bare rfl) now

/-- As long as nothing is written behind a line cut short and no recovery ends between its two file
operations, every written line is reflected in the next load, and no line from before the snapshot
changes anything in it. -/
theorem written_lines_survive {k : Keys} {now : Nat} {evs : List FileOp}
    (hc : Meets (instrument (fileStep C X) (noteKept C)) (CleanWrites C)
      (FileSys.init k now, .empty) evs) :
    Persisted C (run (instrument (fileStep C X) (noteKept C)) (FileSys.init k now, .empty) evs) :=
  (run_invariant (P := FilesOk C) (fun _ _ => FilesOk.step) (.init k now) hc).persisted

/-- The entry of a reward. -/
def minerEntry : EscrowEntry :=
  freshEntry (hashOf 'a') (hashOf 'b') 76300000 1000000000 0 false challengeWindowBlocks

/-- An append is cut short by a crash, and the snapshot empties the journal before the next append;
the done entry is compacted, and the last snapshot leaves the journal as it is. -/
theorem written_lines_survive_snapshot :
    Persisted lineCodec (run (instrument (fileStep lineCodec minerExternals) (noteKept lineCodec))
      (FileSys.init minerKeys 0, .empty)
      [.edit (.track minerEntry), .writeJournal 1 .ok, .edit (.change 0 (claimEntry minerEntry)),
        .writeJournal 2 (.failed 100), .reload 3, .writeSnapshot 4 .saved,
        .edit (.change 0 (claimEntry minerEntry)), .writeJournal 5 .ok, .edit .compact,
        .writeSnapshot 6 .replaced, .reload 7]) :=
  written_lines_survive (by decide +kernel)

/-- A line is glued to one cut short, and an interrupted recovery is undone by the old journal. -/
theorem written_line_lost :
    ¬ Persisted lineCodec (run (instrument (fileStep lineCodec minerExternals) (noteKept lineCodec))
      (FileSys.init minerKeys 0, .empty)
      [.edit (.track minerEntry), .writeJournal 1 (.failed 100), .reload 2,
        .edit (.track minerEntry), .writeJournal 3 .ok]) ∧
    ¬ Persisted lineCodec (run (instrument (fileStep lineCodec minerExternals) (noteKept lineCodec))
      (FileSys.init minerKeys 0, .empty)
      [.edit (.track minerEntry), .edit (.change 0 (claimEntry minerEntry)), .writeJournal 1 .ok,
        .recover [minerEntry] .replaced 2]) := by
  decide +kernel

end KeryxMiner.Escrow
