import KeryxMiner.Engine.Feed

/-!
# The batches of a run and of its replays

The batches of a run are determined by its tokens and the length of the prompt (`runBatches`). The
generation feeds them as it makes the tokens, a replay a part that reaches through its last capture
(`feeds_right`).
-/

namespace KeryxMiner.Engine

open Inference (expectedUbatch ubatchSize)

variable {B : Backend} {tokens fed : List Int32} {batches bs bs' : List TracedBatch}
  {logitsAt : Option Nat} {nPrompt : UInt32} {b : TracedBatch} {t : Int32}
  {c base start stop n k p : Nat} {r : List TracedBatch × Option TraceError}

/-! ## One batch -/

/-- Batch `c` of a list of tokens. -/
def traceBatch (tokens : List Int32) (start : Nat) (logitsAt : Option Nat) (nPrompt : UInt32)
    (c : Nat) : TracedBatch :=
  ⟨UInt32.ofNat (start + c * TRACE_UBATCH), expectedUbatch (start + c * TRACE_UBATCH) nPrompt,
    batchTokens (start + c * TRACE_UBATCH) logitsAt (block TRACE_UBATCH tokens c)⟩

/-- A part of the prompt from a multiple of `TRACE_UBATCH` on, or one token behind the prompt. -/
def Fits (nPrompt : UInt32) (start len : Nat) : Prop :=
  TRACE_UBATCH ∣ start ∧ start + len ≤ nPrompt.toNat ∨ nPrompt.toNat ≤ start ∧ len = 1

theorem length_chunk :
    (block TRACE_UBATCH tokens c).length = min TRACE_UBATCH (tokens.length - c * TRACE_UBATCH) := by
  rw [block, List.length_take, List.length_drop]

theorem lt_nChunks : c < nChunks n ↔ c * TRACE_UBATCH < n := by
  rw [nChunks, TRACE_UBATCH]
  omega

theorem length_batchTokens {chunk : List Int32} :
    (batchTokens base logitsAt chunk).length = chunk.length := by
  rw [batchTokens, List.length_map, List.length_zipIdx]

theorem expectedUbatch_of_le (h : nPrompt.toNat ≤ p) : expectedUbatch p nPrompt = 1 := if_pos h

theorem expectedUbatch_of_lt (h : p < nPrompt.toNat) :
    (expectedUbatch p nPrompt).toNat = min 512 (nPrompt.toNat - p / 512 * 512) := by
  have hmin : min 512 (nPrompt.toNat - p / 512 * 512) < 2 ^ 32 := by omega
  rw [expectedUbatch, if_neg (Nat.not_le.mpr h), ubatchSize, UInt32.toNat_ofNat_of_lt' hmin]

/-- No batch straddles: the same size is expected of all its positions, and it holds the batch. -/
theorem Fits.uniform (h : Fits nPrompt start tokens.length) (hc : c < nChunks tokens.length) {j : Nat}
    (hj : j < (block TRACE_UBATCH tokens c).length) :
    expectedUbatch (start + c * TRACE_UBATCH + j) nPrompt =
        expectedUbatch (start + c * TRACE_UBATCH) nPrompt ∧
      (block TRACE_UBATCH tokens c).length ≤
        (expectedUbatch (start + c * TRACE_UBATCH) nPrompt).toNat := by
  rw [lt_nChunks] at hc
  rw [length_chunk] at hj ⊢
  rw [TRACE_UBATCH] at *
  rcases h with ⟨⟨m, rfl⟩, hle⟩ | ⟨hle, hone⟩
  · rw [TRACE_UBATCH] at *
    have hlt : 8 * m + c * 8 < nPrompt.toNat := by omega
    have hltj : 8 * m + c * 8 + j < nPrompt.toNat := by omega
    rw [← UInt32.toNat_inj, expectedUbatch_of_lt hlt, expectedUbatch_of_lt hltj]
    omega
  · obtain rfl : c = 0 := by omega
    obtain rfl : j = 0 := by omega
    rw [Nat.zero_mul, Nat.add_zero, expectedUbatch_of_le hle, hone]
    exact ⟨rfl, Nat.le_refl _⟩

/-! ## Feeding -/

/-- How feeding ends that should decode these batches: it has decoded the first ones, all if it did
not fail, and it fails only where the backend refuses the next one. -/
structure Feeds (B : Backend) (bs : List TracedBatch) (r : List TracedBatch × Option TraceError) :
    Prop where
  decoded : r.1 <+: bs
  whole : r.2 = none → r.1 = bs
  failed : ∀ e, r.2 = some e → ∃ b message,
    r.1 ++ [b] <+: bs ∧ B.refuses r.1 b = some message ∧ e = .backend message

namespace Feeds

theorem done : Feeds B bs (bs, none) := ⟨List.prefix_rfl, fun _ => rfl, nofun⟩

theorem backend {message : String} (h : batches ++ [b] <+: bs)
    (hb : B.refuses batches b = some message) : Feeds B bs (batches, some (.backend message)) where
  decoded := (List.prefix_append _ _).trans h
  whole := nofun
  failed := by
    rintro _ ⟨⟩
    exact ⟨b, message, h, hb, rfl⟩

/-- More was to be decoded behind a failure. -/
theorem extend {e : TraceError} (h : Feeds B bs (batches, some e)) (hbs : bs <+: bs') :
    Feeds B bs' (batches, some e) where
  decoded := h.decoded.trans hbs
  whole := nofun
  failed e' he' := by
    obtain ⟨b, message, hb, hrefuses, heq⟩ := h.failed e' he'
    exact ⟨b, message, hb.trans hbs, hrefuses, heq⟩

/-- No batch straddled. -/
theorem unrefused (h : Feeds B bs r) (base : Nat) : r.2 ≠ some (.straddles base) := by
  intro heq
  obtain ⟨_, _, _, _, he⟩ := h.failed _ heq
  exact nomatch he

end Feeds

theorem feedLoop_feeds {cs : List Nat} (hcs : ∀ c ∈ cs, c < nChunks tokens.length)
    (h : Fits nPrompt start tokens.length) :
    Feeds B (batches ++ cs.map (traceBatch tokens start logitsAt nPrompt))
      (feedLoop B tokens start logitsAt nPrompt cs batches) := by
  induction cs generalizing batches with
  | nil =>
    rw [List.map_nil, List.append_nil]
    exact .done
  | cons c cs ih =>
    have hc := hcs c List.mem_cons_self
    have hpos : 0 < (block TRACE_UBATCH tokens c).length := by
      have hlt := lt_nChunks.mp hc
      rw [length_chunk]
      have : 0 < TRACE_UBATCH := by decide
      omega
    have hlast := h.uniform hc (Nat.sub_lt hpos Nat.one_pos)
    rw [← Nat.add_sub_assoc hpos] at hlast
    rw [feedLoop]
    dsimp only
    rw [if_neg (by rw [not_or, not_not]; exact ⟨hlast.1, Nat.not_lt.mpr hlast.2⟩)]
    rw [List.map_cons, List.append_cons]
    split
    · next hrefuses => exact .backend (List.prefix_append _ _) hrefuses
    · exact ih fun c' hc' => hcs c' (List.mem_cons_of_mem _ hc')

/-- The batches of a part of a run. -/
def chunkBatches (tokens : List Int32) (start : Nat) (logitsAt : Option Nat) (nPrompt : UInt32) :
    List TracedBatch :=
  (List.range (nChunks tokens.length)).map (traceBatch tokens start logitsAt nPrompt)

theorem feedTraced_feeds (B : Backend) (batches : List TracedBatch) (logitsAt : Option Nat)
    (hn : n < 2 ^ 32) (h : Fits (UInt32.ofNat n) start tokens.length) :
    Feeds B (batches ++ chunkBatches tokens start logitsAt (UInt32.ofNat n))
      (feedTraced B batches tokens start logitsAt n) := by
  have hmin : min n (2 ^ 32 - 1) = n := by omega
  rw [feedTraced, hmin]
  exact feedLoop_feeds (fun c hc => List.mem_range.mp hc) h

/-! ## The generation -/

/-- The batch of a generated position. -/
def oneBatch (nPrompt : UInt32) (fed : List Int32) (p : Nat) : TracedBatch :=
  traceBatch ((fed.drop p).take 1) p (some p) nPrompt 0

/-- The batches of a run that feeds the prompt up to `promptEnd` and the generated positions below
`stop`. -/
def partBatches (n : Nat) (fed : List Int32) (promptEnd stop : Nat) : List TracedBatch :=
  chunkBatches (fed.take promptEnd) 0 (some (n - 1)) (UInt32.ofNat n) ++
    (List.range' n (stop - n)).map (oneBatch (UInt32.ofNat n) fed)

/-- The batches of a whole run. -/
def runBatches (n : Nat) (fed : List Int32) : List TracedBatch := partBatches n fed n fed.length

theorem chunkBatches_one (h : tokens.length = 1) :
    chunkBatches tokens p logitsAt nPrompt = [traceBatch tokens p logitsAt nPrompt 0] := by
  have hone : nChunks 1 = 1 := by decide
  rw [chunkBatches, h, hone]
  rfl

theorem partBatches_succ (h : n ≤ stop) : partBatches n fed k (stop + 1) =
    partBatches n fed k stop ++ [oneBatch (UInt32.ofNat n) fed stop] := by
  have hlen : stop + 1 - n = (stop - n) + 1 := by omega
  have hlast : n + 1 * (stop - n) = stop := by omega
  rw [partBatches, partBatches, hlen, List.range'_concat, hlast, List.map_append, List.append_assoc]
  rfl

theorem partBatches_of_le (h : stop ≤ n) : partBatches n fed k stop =
    chunkBatches (fed.take k) 0 (some (n - 1)) (UInt32.ofNat n) := by
  rw [partBatches, Nat.sub_eq_zero_of_le h, List.range'_zero, List.map_nil, List.append_nil]

theorem runBatches_concat (h : n ≤ fed.length) : runBatches n (fed ++ [t]) =
    runBatches n fed ++ chunkBatches [t] fed.length (some fed.length) (UInt32.ofNat n) := by
  have hone : oneBatch (UInt32.ofNat n) (fed ++ [t]) fed.length =
      traceBatch [t] fed.length (some fed.length) (UInt32.ofNat n) 0 := by
    rw [oneBatch, List.drop_left]
    rfl
  have hpart : partBatches n (fed ++ [t]) n fed.length = partBatches n fed n fed.length := by
    rw [partBatches, partBatches, List.take_append_of_le_length h]
    congr 1
    apply List.map_congr_left
    intro p hp
    obtain ⟨i, hi, rfl⟩ := List.mem_range'.mp hp
    have hdrop : ((fed ++ [t]).drop (n + 1 * i)).take 1 = (fed.drop (n + 1 * i)).take 1 := by
      rw [List.drop_append_of_le_length (by omega),
        List.take_append_of_le_length (by rw [List.length_drop]; omega)]
    rw [oneBatch, oneBatch, hdrop]
  rw [runBatches, List.length_append, List.length_singleton, partBatches_succ h, hone, hpart,
    chunkBatches_one rfl]
  rfl

/-- What a loop of the generation leaves: the run's batches so far, and the prompt in front. -/
structure Runs (B : Backend) (prompt : List Int32) (r : Progress × Option TraceError) : Prop where
  feeds : Feeds B (runBatches prompt.length r.1.fed) (r.1.batches, r.2)
  front : prompt <+: r.1.fed

variable {prompt : List Int32} {q : Progress}

/-- One more token. -/
theorem Runs.push (hn : prompt.length < 2 ^ 32) (h : Runs B prompt (q, none)) :
    Feeds B (runBatches prompt.length (q.fed ++ [t])) (feedTraced B q.batches [t]
      ((q.fed ++ [t]).length - 1) (some ((q.fed ++ [t]).length - 1)) prompt.length) := by
  have hlen : (q.fed ++ [t]).length - 1 = q.fed.length := by
    rw [List.length_append, List.length_singleton, Nat.add_sub_cancel]
  have hle := h.front.length_le
  have hbatches : q.batches = runBatches prompt.length q.fed := h.feeds.whole rfl
  rw [hlen, runBatches_concat hle, ← hbatches]
  apply feedTraced_feeds _ _ _ hn
  refine .inr ⟨?_, rfl⟩
  rw [UInt32.toNat_ofNat_of_lt' hn]
  exact hle

theorem Runs.concat (out : List UInt8) (h : Runs B prompt (q, none))
    (hr : Feeds B (runBatches prompt.length (q.fed ++ [t])) r) :
    Runs B prompt (⟨q.fed ++ [t], out, r.1⟩, r.2) where
  feeds := hr
  front := h.front.trans (List.prefix_append _ _)

theorem sampleLoop_runs (budget : Nat) (hn : prompt.length < 2 ^ 32) (h : Runs B prompt (q, none)) :
    Runs B prompt (sampleLoop B prompt.length budget q) ∧
      (sampleLoop B prompt.length budget q).1.fed.length ≤ q.fed.length + budget := by
  induction budget generalizing q with
  | zero => exact ⟨h, Nat.le_refl _⟩
  | succ budget ih =>
    rw [sampleLoop]
    dsimp only
    split
    · exact ⟨h, Nat.le_add_right _ _⟩
    · have hruns := h.concat (q.out ++ B.tokenToPiece (B.sample q.batches))
        (h.push (t := B.sample q.batches) hn)
      split
      · next e he =>
        rw [he] at hruns
        refine ⟨hruns, ?_⟩
        rw [List.length_append, List.length_singleton]
        omega
      · next he =>
        rw [he] at hruns
        obtain ⟨hrest, hlen⟩ := ih hruns
        refine ⟨hrest, hlen.trans ?_⟩
        rw [List.length_append, List.length_singleton]
        omega

theorem padLoop_runs {nCtx need : Nat} (hn : prompt.length < 2 ^ 32) (h : Runs B prompt (q, none))
    (hctx : q.fed.length < nCtx) : Runs B prompt (padLoop B prompt.length nCtx need q) ∧
      (padLoop B prompt.length nCtx need q).1.fed.length < nCtx := by
  induction hroom : nCtx - q.fed.length generalizing q with
  | zero => exact absurd hctx (by omega)
  | succ room ih =>
    rw [padLoop]
    split
    · next hmore =>
      have hruns := h.concat q.out (h.push (t := B.padToken) hn)
      have hlen : (q.fed ++ [B.padToken]).length = q.fed.length + 1 := by
        rw [List.length_append, List.length_singleton]
      dsimp only
      split
      · next e he =>
        rw [he] at hruns
        exact ⟨hruns, hlen ▸ hmore.2⟩
      · next he =>
        rw [he] at hruns
        exact ih hruns (hlen ▸ hmore.2) (by dsimp only; omega)
    · exact ⟨h, hctx⟩

theorem runBatches_prompt : runBatches prompt.length prompt =
    chunkBatches prompt 0 (some (prompt.length - 1)) (UInt32.ofNat prompt.length) := by
  rw [runBatches, partBatches_of_le (Nat.le_refl _), List.take_length]

/-- The generation feeds the batches of its tokens, and stays within the context. -/
theorem generateRun_runs (B : Backend) (maxTokens : Nat) (answerBytesPerPosition : UInt32)
    {nCtx : UInt32} (hctx : prompt.length + PROMPT_MARGIN ≤ nCtx.toNat) :
    Runs B prompt (generateRun B prompt maxTokens answerBytesPerPosition nCtx) ∧
      (generateRun B prompt maxTokens answerBytesPerPosition nCtx).1.fed.length < nCtx.toNat := by
  have hmargin : 0 < PROMPT_MARGIN := by decide
  have hn : prompt.length < 2 ^ 32 := by
    have hlt : nCtx.toNat < 2 ^ 32 := nCtx.toNat_lt
    omega
  have hfits : Fits (UInt32.ofNat prompt.length) 0 prompt.length := by
    refine .inl ⟨Nat.dvd_zero _, ?_⟩
    rw [UInt32.toNat_ofNat_of_lt' hn, Nat.zero_add]
  have hprompt := feedTraced_feeds B [] (some (prompt.length - 1)) hn hfits
  rw [List.nil_append, ← runBatches_prompt] at hprompt
  rw [generateRun]
  dsimp only
  generalize feedTraced B [] prompt 0 (some (prompt.length - 1)) prompt.length = r at hprompt ⊢
  obtain ⟨batches, _ | e⟩ := r
  · obtain ⟨hruns, hlen⟩ := sampleLoop_runs (B := B) (q := ⟨prompt, [], batches⟩)
      (min maxTokens (nCtx.toNat - (prompt.length + 1))) hn ⟨hprompt, List.prefix_rfl⟩
    dsimp only at hlen ⊢
    generalize sampleLoop B prompt.length (min maxTokens (nCtx.toNat - (prompt.length + 1)))
      ⟨prompt, [], batches⟩ = answer at hruns hlen ⊢
    obtain ⟨q, _ | e⟩ := answer
    · dsimp only at hlen ⊢
      have hlt : q.fed.length < nCtx.toNat := by omega
      split
      · exact padLoop_runs hn hruns hlt
      · exact ⟨hruns, hlt⟩
    · dsimp only at hlen ⊢
      exact ⟨hruns, by omega⟩
  · exact ⟨⟨hprompt, List.prefix_rfl⟩, by dsimp only; omega⟩

/-! ## The replays -/

theorem length_one_of_lt (h : p < fed.length) : ((fed.drop p).take 1).length = 1 := by
  rw [List.length_take, List.length_drop]
  omega

theorem replayLoop_feeds {ps : List Nat} (hn : n < 2 ^ 32) (hps : ∀ p ∈ ps, n ≤ p ∧ p < fed.length) :
    Feeds B (batches ++ ps.map (oneBatch (UInt32.ofNat n) fed)) (replayLoop B fed n ps batches) := by
  induction ps generalizing batches with
  | nil =>
    rw [List.map_nil, List.append_nil]
    exact .done
  | cons p ps ih =>
    obtain ⟨hle, hlt⟩ := hps p List.mem_cons_self
    have hlen := length_one_of_lt hlt
    have hfits : Fits (UInt32.ofNat n) p ((fed.drop p).take 1).length := by
      refine .inr ⟨?_, hlen⟩
      rw [UInt32.toNat_ofNat_of_lt' hn]
      exact hle
    have hone := feedTraced_feeds B batches (some p) hn hfits
    rw [chunkBatches_one hlen] at hone
    rw [replayLoop]
    generalize feedTraced B batches ((fed.drop p).take 1) p (some p) n = r at hone ⊢
    obtain ⟨batches', _ | e⟩ := r
    · have hbatches' : batches' = batches ++ [oneBatch (UInt32.ofNat n) fed p] := hone.whole rfl
      rw [List.map_cons, List.append_cons, ← hbatches']
      exact ih fun p' hp' => hps p' (List.mem_cons_of_mem _ hp')
    · rw [List.map_cons]
      exact hone.extend ((List.prefix_append_right_inj _).mpr ⟨_, rfl⟩)

theorem replayRun_feeds {promptEnd : Nat} (hn : n < 2 ^ 32) (hend : promptEnd ≤ n)
    (hstop : stop ≤ fed.length) :
    Feeds B (partBatches n fed promptEnd stop) (replayRun B fed n promptEnd stop) := by
  have hfits : Fits (UInt32.ofNat n) 0 (fed.take promptEnd).length := by
    refine .inl ⟨Nat.dvd_zero _, ?_⟩
    rw [UInt32.toNat_ofNat_of_lt' hn, List.length_take]
    omega
  have hprompt := feedTraced_feeds B [] (some (n - 1)) hn hfits
  rw [List.nil_append] at hprompt
  rw [replayRun, partBatches]
  generalize feedTraced B [] (fed.take promptEnd) 0 (some (n - 1)) n = r at hprompt ⊢
  obtain ⟨batches, _ | e⟩ := r
  · rw [← hprompt.whole rfl]
    apply replayLoop_feeds hn
    intro p hp
    obtain ⟨i, hi, rfl⟩ := List.mem_range'.mp hp
    omega
  · exact hprompt.extend (List.prefix_append _ _)

/-- Prompts that end with a batch, or with the whole prompt, have the same batches. -/
theorem chunkBatches_take_initial {m : Nat} (hk : TRACE_UBATCH ∣ k ∨ k = m) (hkm : k ≤ m)
    (hm : m ≤ fed.length) :
    chunkBatches (fed.take k) 0 logitsAt nPrompt <+: chunkBatches (fed.take m) 0 logitsAt nPrompt := by
  rcases hk with ⟨i, rfl⟩ | rfl
  · have hchunks : nChunks (TRACE_UBATCH * i) = i := by
      rw [nChunks, TRACE_UBATCH]
      omega
    obtain ⟨d, hd⟩ : ∃ d, nChunks m = i + d := by
      refine Nat.exists_eq_add_of_le ?_
      rw [nChunks]
      rw [TRACE_UBATCH] at hkm ⊢
      omega
    have hbatch : ∀ c ∈ List.range i, traceBatch (fed.take (TRACE_UBATCH * i)) 0 logitsAt nPrompt c =
        traceBatch (fed.take m) 0 logitsAt nPrompt c := by
      intro c hc
      rw [List.mem_range] at hc
      have hblock : block TRACE_UBATCH (fed.take (TRACE_UBATCH * i)) c =
          block TRACE_UBATCH (fed.take m) c := by
        rw [block, block, List.drop_take, List.drop_take, List.take_take, List.take_take]
        rw [TRACE_UBATCH] at hkm ⊢
        congr 1
        omega
      rw [traceBatch, traceBatch, hblock]
    rw [chunkBatches, chunkBatches, List.length_take_of_le (hkm.trans hm),
      List.length_take_of_le hm, hchunks, hd, List.range_add, List.map_append,
      List.map_congr_left hbatch]
    exact List.prefix_append _ _
  · exact List.prefix_rfl

/-- A part of the run is a prefix of the run. -/
theorem partBatches_prefix (hk : TRACE_UBATCH ∣ k ∧ stop ≤ n ∨ k = n) (hkn : k ≤ n)
    (hn : n ≤ fed.length) (hstop : stop ≤ fed.length) :
    partBatches n fed k stop <+: runBatches n fed := by
  rcases hk with ⟨hdvd, hle⟩ | rfl
  · rw [partBatches_of_le hle]
    exact (chunkBatches_take_initial (.inl hdvd) hkn hn).trans (List.prefix_append _ _)
  · have hlen : fed.length - k = (stop - k) + (fed.length - k - (stop - k)) := by omega
    rw [runBatches, partBatches, partBatches, hlen, ← List.range'_append, List.map_append,
      ← List.append_assoc]
    exact List.prefix_append _ _

/-! ## The positions of a run -/

/-- The batch holds the position. -/
def TracedBatch.Covers (b : TracedBatch) (p : Nat) : Prop :=
  b.base.toNat ≤ p ∧ p < b.base.toNat + b.tokens.length

theorem mem_partBatches (hk : k ≤ fed.length) : b ∈ partBatches n fed k stop ↔
    (∃ c < nChunks k, b = traceBatch (fed.take k) 0 (some (n - 1)) (UInt32.ofNat n) c) ∨
      ∃ p, n ≤ p ∧ p < stop ∧ b = oneBatch (UInt32.ofNat n) fed p := by
  have hrange : ∀ p, p ∈ List.range' n (stop - n) ↔ n ≤ p ∧ p < stop := by
    intro p
    rw [List.mem_range'_1]
    omega
  rw [partBatches, chunkBatches, List.mem_append, List.mem_map, List.mem_map,
    List.length_take_of_le hk]
  simp only [List.mem_range, hrange, eq_comm (a := b), and_assoc]

theorem covers_chunk (hk : k ≤ fed.length) (hn : fed.length < 2 ^ 32) (hc : c < nChunks k) :
    (traceBatch (fed.take k) 0 logitsAt nPrompt c).Covers p ↔ p / TRACE_UBATCH = c ∧ p < k := by
  rw [lt_nChunks] at hc
  have hlt : c * TRACE_UBATCH < 2 ^ 32 := by omega
  have hbase : (UInt32.ofNat (0 + c * TRACE_UBATCH)).toNat = c * TRACE_UBATCH := by
    rw [Nat.zero_add, UInt32.toNat_ofNat_of_lt' hlt]
  rw [TracedBatch.Covers, traceBatch, hbase, length_batchTokens, length_chunk,
    List.length_take_of_le hk]
  rw [TRACE_UBATCH] at hc ⊢
  omega

theorem covers_one {p' : Nat} (hp : p' < fed.length) (hn : fed.length < 2 ^ 32) :
    (oneBatch nPrompt fed p').Covers p ↔ p = p' := by
  have hlt : p' < 2 ^ 32 := by omega
  have hbase : (UInt32.ofNat (p' + 0 * TRACE_UBATCH)).toNat = p' := by
    rw [Nat.zero_mul, Nat.add_zero, UInt32.toNat_ofNat_of_lt' hlt]
  have hlen : (block TRACE_UBATCH ((fed.drop p').take 1) 0).length = 1 := by
    rw [length_chunk, length_one_of_lt hp]
    decide
  rw [TracedBatch.Covers, oneBatch, traceBatch, hbase, length_batchTokens, hlen]
  omega

/-- A position that a part of the run reaches is in one of its batches. -/
theorem exists_covers (hk : k ≤ fed.length) (hn : fed.length < 2 ^ 32) (hstop : stop ≤ fed.length)
    (hp : p < k ∨ n ≤ p ∧ p < stop) : ∃ b ∈ partBatches n fed k stop, b.Covers p := by
  rcases hp with hlt | ⟨hle, hlt⟩
  · have hc : p / TRACE_UBATCH < nChunks k := by
      rw [lt_nChunks]
      exact Nat.lt_of_le_of_lt (Nat.div_mul_le_self _ _) hlt
    exact ⟨_, (mem_partBatches hk).mpr (.inl ⟨_, hc, rfl⟩), (covers_chunk hk hn hc).mpr ⟨rfl, hlt⟩⟩
  · exact ⟨_, (mem_partBatches hk).mpr (.inr ⟨p, hle, hlt, rfl⟩),
      (covers_one (hlt.trans_le hstop) hn).mpr rfl⟩

/-- Each position is in one batch only. -/
theorem covers_unique (hle : n ≤ fed.length) (hn : fed.length < 2 ^ 32) {b' : TracedBatch}
    (hb : b ∈ runBatches n fed) (hb' : b' ∈ runBatches n fed) (hp : b.Covers p) (hp' : b'.Covers p) :
    b = b' := by
  rcases (mem_partBatches hle).mp hb with ⟨c, hc, rfl⟩ | ⟨q, hq, hqn, rfl⟩ <;>
    rcases (mem_partBatches hle).mp hb' with ⟨c', hc', rfl⟩ | ⟨q', hq', hqn', rfl⟩
  · rw [covers_chunk hle hn hc] at hp
    rw [covers_chunk hle hn hc'] at hp'
    rw [← hp.1, ← hp'.1]
  · rw [covers_chunk hle hn hc] at hp
    rw [covers_one hqn' hn] at hp'
    omega
  · rw [covers_one hqn hn] at hp
    rw [covers_chunk hle hn hc'] at hp'
    omega
  · rw [covers_one hqn hn] at hp
    rw [covers_one hqn' hn] at hp'
    rw [← hp, ← hp']

/-- A token as it is fed at its position; the last one of the prompt and those behind it produce
logits. -/
def fedToken (n : Nat) (x : Int32 × Nat) : BatchToken :=
  ⟨x.1, Int32.ofNat x.2, decide (n ≤ x.2 + 1)⟩

theorem batchTokens_eq (h : ∀ j < tokens.length,
    (some (base + j) = logitsAt ↔ n ≤ base + j + 1)) :
    batchTokens base logitsAt tokens = (tokens.zipIdx base).map (fedToken n) := by
  rw [batchTokens, List.zipIdx_eq_map_add (i := base), List.map_map]
  apply List.map_congr_left
  rintro ⟨token, j⟩ hmem
  have hj : j < tokens.length := List.snd_lt_of_mem_zipIdx hmem
  rw [Function.comp_apply, fedToken]
  dsimp only
  congr 1
  exact decide_eq_decide.mpr (h j hj)

theorem tokens_chunkBatches (hn : 0 < n) (hle : tokens.length ≤ n) :
    (chunkBatches tokens 0 (some (n - 1)) nPrompt).flatMap (·.tokens) =
      tokens.zipIdx.map (fedToken n) := by
  have hceil : tokens.zipIdx.length ≤ nChunks tokens.length * TRACE_UBATCH := by
    rw [List.length_zipIdx, nChunks, TRACE_UBATCH]
    omega
  have hbatch : ∀ c, (traceBatch tokens 0 (some (n - 1)) nPrompt c).tokens =
      (block TRACE_UBATCH tokens.zipIdx c).map (fedToken n) := by
    intro c
    rw [block_zipIdx, traceBatch, Nat.zero_add]
    apply batchTokens_eq
    intro j hj
    rw [length_chunk] at hj
    rw [Option.some_inj]
    omega
  rw [chunkBatches, List.flatMap_map, ← flatMap_block_of_le hceil, List.map_flatMap]
  exact congrArg (List.flatMap · _) (funext hbatch)

theorem tokens_oneBatches {m : Nat} (h : n ≤ m) :
    ((List.range' m (fed.length - m)).map (oneBatch nPrompt fed)).flatMap (·.tokens) =
      ((fed.drop m).zipIdx m).map (fedToken n) := by
  induction hlen : fed.length - m generalizing m with
  | zero =>
    rw [List.drop_eq_nil_of_le (by omega)]
    rfl
  | succ k ih =>
    have hlt : m < fed.length := by omega
    have hone : (oneBatch nPrompt fed m).tokens = [fedToken n (fed[m], m)] := by
      rw [oneBatch, traceBatch, List.drop_eq_getElem_cons hlt, Nat.zero_mul, Nat.add_zero]
      apply batchTokens_eq
      intro j hj
      have hj : j = 0 := Nat.lt_one_iff.mp hj
      rw [Option.some_inj]
      omega
    rw [List.range'_succ, List.map_cons, List.flatMap_cons, ih (by omega) (by omega), hone,
      List.drop_eq_getElem_cons hlt]
    rfl

/-- **A run feeds its tokens in order, each at its position.** -/
theorem tokens_runBatches (hn : 0 < n) (hle : n ≤ fed.length) :
    (runBatches n fed).flatMap (·.tokens) = fed.zipIdx.map (fedToken n) := by
  have hlen : (fed.take n).length = n := List.length_take_of_le hle
  conv_rhs => rw [← List.take_append_drop n fed]
  rw [runBatches, partBatches, List.flatMap_append, tokens_chunkBatches hn (Nat.le_of_eq hlen),
    tokens_oneBatches (Nat.le_refl n), List.zipIdx_append, List.map_append, hlen, Nat.zero_add]

theorem pos_batchTokens : (batchTokens base logitsAt tokens).map (·.pos) =
    (List.range' base tokens.length).map Int32.ofNat := by
  rw [← List.zipIdx_map_snd base tokens, List.zipIdx_eq_map_add (i := base), batchTokens,
    List.map_map, List.map_map, List.map_map]
  rfl

/-- What is right about a batch: its tokens are at the positions it holds, and the size it is
announced with is expected of each of them. -/
structure TracedBatch.Right (nPrompt : UInt32) (b : TracedBatch) : Prop where
  pos : b.tokens.map (·.pos) = (List.range' b.base.toNat b.tokens.length).map Int32.ofNat
  declared : ∀ p, b.Covers p → b.declared = expectedUbatch p nPrompt

theorem traceBatch_right (h : Fits nPrompt start tokens.length) (hc : c < nChunks tokens.length)
    (hlt : start + tokens.length < 2 ^ 32) :
    (traceBatch tokens start logitsAt nPrompt c).Right nPrompt := by
  have hbase : start + c * TRACE_UBATCH < 2 ^ 32 := by
    rw [lt_nChunks] at hc
    omega
  constructor
  · rw [traceBatch, UInt32.toNat_ofNat_of_lt' hbase, length_batchTokens]
    exact pos_batchTokens
  · intro p hp
    rw [TracedBatch.Covers, traceBatch, UInt32.toNat_ofNat_of_lt' hbase, length_batchTokens] at hp
    obtain ⟨j, rfl⟩ := Nat.exists_eq_add_of_le hp.1
    exact (h.uniform hc (Nat.add_lt_add_iff_left.mp hp.2)).1.symm

/-- **Every batch of a run is announced as expected of its positions.** -/
theorem runBatches_right (hle : n ≤ fed.length) (hn : fed.length < 2 ^ 32)
    (hb : b ∈ runBatches n fed) : b.Right (UInt32.ofNat n) := by
  have htoNat : (UInt32.ofNat n).toNat = n :=
    UInt32.toNat_ofNat_of_lt' (Nat.lt_of_le_of_lt hle hn)
  rcases (mem_partBatches hle).mp hb with ⟨c, hc, rfl⟩ | ⟨p, hp, hpn, rfl⟩
  · have hlen : (fed.take n).length = n := List.length_take_of_le hle
    apply traceBatch_right
    · exact .inl ⟨Nat.dvd_zero _, by omega⟩
    · rw [hlen]
      exact hc
    · omega
  · have hlen := length_one_of_lt hpn
    apply traceBatch_right
    · exact .inr ⟨by omega, hlen⟩
    · rw [hlen]
      decide
    · omega

/-! ## The requests -/

/-- An error other than a straddling batch. -/
def Unrefused (e : TraceError) : Prop := ∀ base, e ≠ .straddles base

theorem vocabTokens_ends : Ends Unrefused (· = tokens) (vocabTokens B tokens) := by
  induction tokens with
  | nil => rfl
  | cons id tokens ih =>
    rw [vocabTokens]
    split
    · cases h : vocabTokens B tokens with
      | ok toks =>
        rw [h] at ih
        exact congrArg (id :: ·) ih
      | error e =>
        rw [h] at ih
        exact ih
    · exact nofun

theorem traceLeaves_ends : Ends Unrefused (fun _ => True) (B.traceLeaves.mapError .backend) := by
  cases B.traceLeaves with
  | ok trace => trivial
  | error message => exact nofun

variable (B tokens n) (nCtx : UInt32)

theorem multiRequest_ends (caps : List (UInt32 × UInt32)) (slotBytes : Nat) : Ends Unrefused
      (fun toks => toks = tokens ∧ 0 < n ∧ n ≤ tokens.length ∧ lastCapture caps < tokens.length)
      (multiRequest B tokens n caps slotBytes nCtx) := by
  refine (ends_refuse fun _ => nofun).bind fun _ _ => ?_
  refine (ends_refuse fun _ => nofun).bind fun _ hfits => ?_
  refine (ends_refuse fun _ => nofun).bind fun _ hlast => ?_
  refine vocabTokens_ends.bind fun toks htoks => ?_
  refine traceLeaves_ends.bind fun trace _ => ?_
  refine (ends_refuse fun _ => nofun).bind fun _ _ => ?_
  exact ⟨htoks, by omega, by omega, by omega⟩

theorem seqRequest_ends (leaves : List UInt32) :
    Ends Unrefused (fun r => r.1 = tokens ∧ 0 < n ∧ n ≤ tokens.length)
      (seqRequest B tokens n nCtx leaves) := by
  refine (ends_refuse fun _ => nofun).bind fun _ hfits => ?_
  refine vocabTokens_ends.bind fun toks htoks => ?_
  refine traceLeaves_ends.bind fun trace _ => ?_
  have hspec : Ends Unrefused (fun _ => True) (orFail trace.2 .noSeqLeaves) := by
    cases trace.2 with
    | none => exact nofun
    | some spec => trivial
  refine hspec.bind fun spec _ => ?_
  refine (ends_refuse fun _ => nofun).bind fun _ _ => ?_
  exact ⟨htoks, by omega, by omega⟩

/-! ## The requests in range -/

variable {B tokens n nCtx}

/-- The tokens of a replay are of the vocabulary, and fit the context. -/
structure Backend.Takes (B : Backend) (nCtx : UInt32) (tokens : List Int32) : Prop where
  vocabulary : ∀ t ∈ tokens, 0 ≤ t ∧ t < B.nVocab
  context : tokens.length ≤ nCtx.toNat

/-- Up to 32 captures of leaves at traced positions, in slots of words. -/
structure CapturesInRange (tokens : List Int32) (nl : Nat) (caps : List (UInt32 × UInt32))
    (slotBytes : Nat) : Prop where
  some : caps ≠ []
  number : caps.length ≤ REPLAY_MAX_CAPTURES
  slot : 0 < slotBytes ∧ slotBytes ≤ CAPTURE_CAP ∧ 4 ∣ slotBytes
  position : ∀ cap ∈ caps, cap.1.toNat < tokens.length
  leaf : ∀ cap ∈ caps, cap.2.toNat < nl

/-- Leaves of the layout; those of recurrent layers are named. -/
structure LeavesInRange (spec : SeqSpec) (leaves : List UInt32) : Prop where
  leaf : ∀ l ∈ leaves, l.toNat < spec.nLeaves
  named : leaves = [] → spec.nRecur = 0

theorem vocabTokens_of_mem (h : ∀ t ∈ tokens, 0 ≤ t ∧ t < B.nVocab) :
    vocabTokens B tokens = .ok tokens := by
  induction tokens with
  | nil => rfl
  | cons id tokens ih =>
    rw [vocabTokens, if_pos (h id List.mem_cons_self),
      ih fun t ht => h t (List.mem_cons_of_mem _ ht)]
    rfl

theorem lastCapture_lt {caps : List (UInt32 × UInt32)} (hsome : caps ≠ [])
    (h : ∀ cap ∈ caps, cap.1.toNat < k) : lastCapture caps < k := by
  obtain ⟨first, hfirst⟩ := List.exists_mem_of_ne_nil caps hsome
  have hk : 0 < k := Nat.zero_lt_of_lt (h first hfirst)
  have hle : lastCapture caps ≤ k - 1 := by
    refine foldl_max_le_iff.mpr ⟨Nat.zero_le _, ?_⟩
    intro p hp
    obtain ⟨cap, hcap, rfl⟩ := List.mem_map.mp hp
    have hlt := h cap hcap
    omega
  omega

theorem multiRequest_of_inRange {nl : Nat} {seq : Option SeqSpec} {caps : List (UInt32 × UInt32)}
    {slotBytes : Nat} (hB : B.Takes nCtx tokens) (htrace : B.traceLeaves = .ok (nl, seq))
    (hn : 0 < n) (hle : n ≤ tokens.length) (h : CapturesInRange tokens nl caps slotBytes) :
    multiRequest B tokens n caps slotBytes nCtx = .ok tokens := by
  have hrequest : ¬(caps = [] ∨ REPLAY_MAX_CAPTURES < caps.length ∨ slotBytes = 0 ∨
      CAPTURE_CAP < slotBytes ∨ slotBytes % 4 ≠ 0) := by
    have hnumber := h.number
    have hslot := h.slot
    rw [not_or]
    exact ⟨h.some, by omega⟩
  have hfits : ¬(n = 0 ∨ tokens.length < n ∨ nCtx.toNat < tokens.length) := by
    have hcontext := hB.context
    omega
  have hlast : ¬tokens.length ≤ lastCapture caps :=
    Nat.not_le.mpr (lastCapture_lt h.some h.position)
  have hleaf : ¬∃ cap ∈ caps, nl ≤ cap.2.toNat := by
    rintro ⟨cap, hcap, hle⟩
    exact Nat.not_le.mpr (h.leaf cap hcap) hle
  rw [multiRequest, refuse_of_not hrequest, refuse_of_not hfits, refuse_of_not hlast,
    vocabTokens_of_mem hB.vocabulary, htrace]
  exact congrArg (· >>= fun _ => .ok tokens) (refuse_of_not hleaf)

theorem seqRequest_of_inRange {nl : Nat} {spec : SeqSpec} {leaves : List UInt32}
    (hB : B.Takes nCtx tokens) (htrace : B.traceLeaves = .ok (nl, some spec))
    (hn : 0 < n) (hle : n ≤ tokens.length) (h : LeavesInRange spec leaves) :
    seqRequest B tokens n nCtx leaves = .ok (tokens, spec) := by
  have hfits : ¬(n = 0 ∨ tokens.length < n ∨ nCtx.toNat < tokens.length) := by
    have hcontext := hB.context
    omega
  have hleaf : ¬∃ l ∈ leaves, spec.nLeaves ≤ l.toNat := by
    rintro ⟨l, hl, hle⟩
    exact Nat.not_le.mpr (h.leaf l hl) hle
  rw [seqRequest, refuse_of_not hfits, vocabTokens_of_mem hB.vocabulary, htrace]
  exact congrArg (· >>= fun _ => .ok (tokens, spec)) (refuse_of_not hleaf)

/-! ## The runs as they end -/

/-- What is right about a replay that should decode these batches. -/
structure Replays (bs : List TracedBatch) (r : Traced Unit) : Prop where
  decoded : r.batches <+: bs
  whole : r.result = .ok () → r.batches = bs
  unrefused : ∀ base, r.result ≠ .error (.straddles base)

theorem Replays.refused {e : TraceError} (h : Unrefused e) : Replays bs ⟨[], .error e⟩ where
  decoded := List.nil_prefix
  whole := nofun
  unrefused base heq := h base (Except.error.inj heq)

theorem Backend.replay_replays (h : Feeds B bs r) : Replays bs (B.replay r) := by
  rw [Backend.replay]
  split
  · exact .refused nofun
  · obtain ⟨batches, _ | e⟩ := r
    · dsimp only
      split
      · exact ⟨h.decoded, nofun, nofun⟩
      · exact ⟨h.decoded, fun _ => h.whole rfl, nofun⟩
    · exact ⟨h.decoded, nofun, fun base heq => h.unrefused base (congrArg some (Except.error.inj heq))⟩

/-- The backend begins, takes each of these batches behind the ones before it, and ends behind any
of them. -/
structure Backend.Decodes (B : Backend) (bs : List TracedBatch) : Prop where
  started : B.begin = .ok ()
  taken : ∀ batches b, batches ++ [b] <+: bs → B.refuses batches b = none
  ended : ∀ batches, batches <+: bs → B.finish batches = none

theorem Backend.Decodes.initial (h : B.Decodes bs) (hbs : bs' <+: bs) : B.Decodes bs' where
  started := h.started
  taken batches b hb := h.taken batches b (hb.trans hbs)
  ended batches hbatches := h.ended batches (hbatches.trans hbs)

/-- A backend that decodes the batches of a replay lets it end. -/
theorem Backend.Decodes.replay (hB : B.Decodes bs) (h : Feeds B bs r) :
    (B.replay r).result = .ok () := by
  obtain ⟨batches, _ | e⟩ := r
  · have hended : B.finish batches = none := hB.ended batches h.decoded
    rw [Backend.replay, hB.started]
    dsimp only
    rw [hended]
  · obtain ⟨b, message, hb, hrefuses, _⟩ := h.failed e rfl
    exact nomatch (hB.taken batches b hb).symm.trans hrefuses

theorem promptEnd_le {last : Nat} : promptEnd n last ≤ n := by
  rw [promptEnd]
  split
  · exact Nat.min_le_left _ _
  · exact Nat.le_refl _

/-- A prompt that is cut short ends with a batch, and nothing behind the prompt is replayed. -/
theorem promptEnd_cut {last : Nat} :
    TRACE_UBATCH ∣ promptEnd n last ∧ last + 1 ≤ n ∨ promptEnd n last = n := by
  rw [promptEnd]
  split
  · next h =>
    rcases Nat.le_total n ((last / TRACE_UBATCH + 1) * TRACE_UBATCH) with hle | hle
    · exact .inr (Nat.min_eq_left hle)
    · rw [Nat.min_eq_right hle]
      exact .inl ⟨Nat.dvd_mul_left _ _, h⟩
  · exact .inr rfl

theorem promptEnd_reaches {last : Nat} (h : p ≤ last) :
    p < promptEnd n last ∨ n ≤ p ∧ p < last + 1 := by
  rw [promptEnd, TRACE_UBATCH]
  split <;> omega

theorem le_lastCapture {caps : List (UInt32 × UInt32)} {cap : UInt32 × UInt32} (h : cap ∈ caps) :
    cap.1.toNat ≤ lastCapture caps :=
  (foldl_max_le_iff.mp (Nat.le_refl _)).2 _ (List.mem_map.mpr ⟨cap, h, rfl⟩)

variable (B fed nPrompt nCtx)

/-- A replay decodes the first batches of the run, among them those of all captures. -/
theorem replayMulti_replays (caps : List (UInt32 × UInt32)) (slotBytes : Nat)
    (hlen : fed.length < 2 ^ 32) : ∃ bs, Replays bs (replayMulti B fed nPrompt caps slotBytes nCtx) ∧
      bs <+: runBatches nPrompt.toNat fed ∧
      ((replayMulti B fed nPrompt caps slotBytes nCtx).result = .ok () →
        ∀ cap ∈ caps, ∃ b ∈ bs, b.Covers cap.1.toNat) := by
  have hrequest := multiRequest_ends B fed nPrompt.toNat nCtx caps slotBytes
  rw [replayMulti]
  cases h : multiRequest B fed nPrompt.toNat caps slotBytes nCtx with
  | error e =>
    rw [h] at hrequest
    exact ⟨[], .refused hrequest, List.nil_prefix, nofun⟩
  | ok toks =>
    rw [h] at hrequest
    obtain ⟨rfl, hpos, hle, hlast⟩ := hrequest
    refine ⟨_, Backend.replay_replays (replayRun_feeds nPrompt.toNat_lt promptEnd_le hlast),
      partBatches_prefix promptEnd_cut promptEnd_le hle hlast, ?_⟩
    intro _ cap hcap
    exact exists_covers (promptEnd_le.trans hle) hlen hlast
      (promptEnd_reaches (le_lastCapture hcap))

/-- **A replay in range ends, on a backend that decodes the run.** -/
theorem replayMulti_ok {caps : List (UInt32 × UInt32)} {slotBytes nl : Nat} {seq : Option SeqSpec}
    (hn : 0 < nPrompt.toNat) (hle : nPrompt.toNat ≤ fed.length)
    (hB : B.Decodes (runBatches nPrompt.toNat fed)) (htakes : B.Takes nCtx fed)
    (htrace : B.traceLeaves = .ok (nl, seq)) (h : CapturesInRange fed nl caps slotBytes) :
    (replayMulti B fed nPrompt caps slotBytes nCtx).result = .ok () := by
  have hlast := lastCapture_lt h.some h.position
  have hinitial := partBatches_prefix (promptEnd_cut (n := nPrompt.toNat)) promptEnd_le hle hlast
  rw [replayMulti, multiRequest_of_inRange htakes htrace hn hle h]
  exact (hB.initial hinitial).replay (replayRun_feeds nPrompt.toNat_lt promptEnd_le hlast)

/-- The whole replay decodes all batches of the run. -/
theorem replaySeq_replays (leaves : List UInt32) :
    Replays (runBatches nPrompt.toNat fed) (replaySeq B fed nPrompt nCtx leaves) := by
  have hrequest := seqRequest_ends B fed nPrompt.toNat nCtx leaves
  rw [replaySeq]
  cases h : seqRequest B fed nPrompt.toNat nCtx leaves with
  | error e =>
    rw [h] at hrequest
    exact .refused hrequest
  | ok r =>
    obtain ⟨toks, spec⟩ := r
    rw [h] at hrequest
    obtain ⟨rfl, hpos, hle⟩ := hrequest
    have hrun := Backend.replay_replays (B := B)
      (replayRun_feeds (B := B) nPrompt.toNat_lt (Nat.le_refl _) (Nat.le_refl toks.length))
    dsimp only
    split
    · next e he =>
      exact ⟨hrun.decoded, nofun, fun base heq => hrun.unrefused base (he.trans heq)⟩
    · split
      · exact ⟨hrun.decoded, nofun, nofun⟩
      · exact hrun

theorem replaySeq_ok {leaves : List UInt32} {nl : Nat} {spec : SeqSpec}
    (hn : 0 < nPrompt.toNat) (hle : nPrompt.toNat ≤ fed.length)
    (hB : B.Decodes (runBatches nPrompt.toNat fed)) (htakes : B.Takes nCtx fed)
    (htrace : B.traceLeaves = .ok (nl, some spec)) (h : LeavesInRange spec leaves) :
    (replaySeq B fed nPrompt nCtx leaves).result = .ok () := by
  have hrun := hB.replay (replayRun_feeds (B := B) nPrompt.toNat_lt (Nat.le_refl _)
    (Nat.le_refl fed.length))
  have hnamed : ¬(leaves = [] ∧ 0 < spec.nRecur) := by
    rintro ⟨hnil, hpos⟩
    exact Nat.ne_of_gt hpos (h.named hnil)
  rw [replaySeq, seqRequest_of_inRange htakes htrace hn hle h]
  dsimp only
  rw [hrun]
  dsimp only
  rw [if_neg hnamed]
  exact hrun

/-- What is right about a generation that ended in a result: its tokens start with the prompt and fit
the context, and their batches are decoded. -/
structure Generated (prompt : List Int32) (nCtx : UInt32) (batches : List TracedBatch)
    (g : TracedGeneration) : Prop where
  nPrompt : g.nPrompt.toNat = prompt.length
  front : prompt <+: g.tokens
  fits : g.tokens.length < nCtx.toNat
  batches : batches = runBatches prompt.length g.tokens

theorem generateTraced_ends (toks : List Int32) (maxTokens : Nat)
    (minPrompt answerBytesPerPosition : UInt32) (nCtx : Nat → UInt32) :
    Ends Unrefused (Generated (padPrompt B toks minPrompt) (nCtx (padPrompt B toks minPrompt).length)
        (generateTraced B toks maxTokens minPrompt answerBytesPerPosition nCtx).batches)
      (generateTraced B toks maxTokens minPrompt answerBytesPerPosition nCtx).result := by
  rw [generateTraced]
  dsimp only
  generalize padPrompt B toks minPrompt = prompt
  split
  · exact nofun
  · next hmargin =>
    obtain ⟨hruns, hlen⟩ := generateRun_runs B maxTokens answerBytesPerPosition
      (Nat.not_lt.mp hmargin)
    have hn : prompt.length < 2 ^ 32 := by
      have hlt : (nCtx prompt.length).toNat < 2 ^ 32 := (nCtx prompt.length).toNat_lt
      omega
    split
    · exact nofun
    · exact nofun
    · generalize generateRun B prompt maxTokens answerBytesPerPosition (nCtx prompt.length) = run
        at hruns hlen ⊢
      obtain ⟨q, _ | e⟩ := run
      · dsimp only
        split
        · exact nofun
        · exact ⟨UInt32.toNat_ofNat_of_lt' hn, hruns.front, hlen, hruns.feeds.whole rfl⟩
      · exact fun base heq => hruns.feeds.unrefused base (congrArg some heq)

/-- **No batch of a generation or of a replay straddles a committed batch. The generation feeds each
position once, in order and within the context, in a batch announced as expected of it, and every
replay of its tokens feeds the first of just these batches, among them those of all captures. A
request in range is replayed to its end wherever the backend decodes the batches.** -/
theorem feeds_right (B : Backend) (toks : List Int32) (maxTokens : Nat)
    (minPrompt answerBytesPerPosition : UInt32) (nCtx : Nat → UInt32)
    (hprompt : 0 < (padPrompt B toks minPrompt).length) :
    let original := generateTraced B toks maxTokens minPrompt answerBytesPerPosition nCtx
    (∀ base, original.result ≠ .error (.straddles base)) ∧
    ∀ g, original.result = .ok g →
      (padPrompt B toks minPrompt <+: g.tokens ∧
        g.nPrompt.toNat = (padPrompt B toks minPrompt).length ∧
        g.tokens.length < (nCtx g.nPrompt.toNat).toNat) ∧
      (original.batches.flatMap (·.tokens) = g.tokens.zipIdx.map (fedToken g.nPrompt.toNat) ∧
        ∀ b ∈ original.batches, b.Right g.nPrompt) ∧
      ∀ (B' : Backend) (nCtx' : UInt32),
        (∀ caps slotBytes, let replay := replayMulti B' g.tokens g.nPrompt caps slotBytes nCtx'
          replay.batches <+: original.batches ∧
          (∀ base, replay.result ≠ .error (.straddles base)) ∧
          (replay.result = .ok () → ∀ cap ∈ caps, ∃ b ∈ replay.batches, b.Covers cap.1.toNat ∧
            ∀ b' ∈ original.batches, b'.Covers cap.1.toNat → b' = b) ∧
          ∀ nl seq, B'.traceLeaves = .ok (nl, seq) → CapturesInRange g.tokens nl caps slotBytes →
            B'.Takes nCtx' g.tokens → B'.Decodes original.batches → replay.result = .ok ()) ∧
        ∀ leaves, let replay := replaySeq B' g.tokens g.nPrompt nCtx' leaves
          replay.batches <+: original.batches ∧
          (∀ base, replay.result ≠ .error (.straddles base)) ∧
          (replay.result = .ok () → replay.batches = original.batches) ∧
          ∀ nl spec, B'.traceLeaves = .ok (nl, some spec) → LeavesInRange spec leaves →
            B'.Takes nCtx' g.tokens → B'.Decodes original.batches → replay.result = .ok () := by
  have hends := generateTraced_ends B toks maxTokens minPrompt answerBytesPerPosition nCtx
  dsimp only
  refine ⟨fun base => hends.ne_error fun h => h base rfl, ?_⟩
  intro g hg
  rw [hg] at hends
  have hnPrompt := hends.nPrompt
  have hfits := hends.fits
  have hle : g.nPrompt.toNat ≤ g.tokens.length := hnPrompt ▸ hends.front.length_le
  have hbatches := hends.batches
  rw [← hnPrompt] at hfits hbatches hprompt
  have hlen : g.tokens.length < 2 ^ 32 := hfits.trans (nCtx g.nPrompt.toNat).toNat_lt
  refine ⟨⟨hends.front, hnPrompt, hfits⟩, ?_, fun B' nCtx' => ⟨fun caps slotBytes => ?_,
    fun leaves => ?_⟩⟩
  · rw [hbatches]
    refine ⟨tokens_runBatches hprompt hle, fun b hb => ?_⟩
    have hright := runBatches_right hle hlen hb
    rw [UInt32.ofNat_toNat] at hright
    exact hright
  · obtain ⟨bs, hreplay, hinitial, hcovers⟩ := replayMulti_replays B' g.tokens g.nPrompt nCtx' caps
      slotBytes hlen
    rw [hbatches]
    refine ⟨hreplay.decoded.trans hinitial, hreplay.unrefused, fun hok cap hcap => ?_,
      fun nl seq htrace hrange htakes hdecodes =>
        replayMulti_ok B' g.tokens g.nPrompt nCtx' hprompt hle hdecodes htakes htrace hrange⟩
    obtain ⟨b, hb, hcover⟩ := hcovers hok cap hcap
    rw [hreplay.whole hok]
    exact ⟨b, hb, hcover, fun b' hb' hcover' =>
      covers_unique hle hlen hb' (hinitial.subset hb) hcover' hcover⟩
  · have hreplay := replaySeq_replays B' g.tokens g.nPrompt nCtx' leaves
    rw [hbatches]
    exact ⟨hreplay.decoded, hreplay.unrefused, hreplay.whole,
      fun nl spec htrace hrange htakes hdecodes =>
        replaySeq_ok B' g.tokens g.nPrompt nCtx' hprompt hle hdecodes htakes htrace hrange⟩

/-- The leaves of one attention layer with one head. -/
def oneHeadSpec : SeqSpec where
  nAttn := 1
  nRecur := 0
  heads := 1
  attn := [⟨0, 0, 1, 1, 32⟩]
  recur := []
  interval := 0

/-- The token 7 is sampled until five batches are decoded; nothing is refused. -/
def sevens : Backend where
  nVocab := 16
  sample batches := if batches.length < 5 then 7 else 0
  isEog token := token == 0
  tokenToPiece _ := [55]
  padToken := 1
  traceLeaves := .ok (3, some oneHeadSpec)
  begin := .ok ()
  refuses _ _ := none
  finish _ := none

theorem sevens_decodes (bs : List TracedBatch) : sevens.Decodes bs where
  started := rfl
  taken _ _ _ := rfl
  ended _ _ := rfl

theorem generateTraced_sevens :
    (generateTraced sevens [2, 3, 4, 5, 2, 3, 4, 5, 2, 3] 5 0 0 fun _ => 64).result =
      .ok ⟨[55, 55, 55], [2, 3, 4, 5, 2, 3, 4, 5, 2, 3, 7, 7, 7], 10, 13⟩ := rfl

/-- Ten tokens of a prompt in two batches, and three sampled ones; the captures of the positions 4
and 11 take four batches of the five, the sequence leaves all. -/
theorem feeds_right_sevens :
    let original := generateTraced sevens [2, 3, 4, 5, 2, 3, 4, 5, 2, 3] 5 0 0 fun _ => 64
    ∃ g, original.result = .ok g ∧ g.tokens = [2, 3, 4, 5, 2, 3, 4, 5, 2, 3, 7, 7, 7] ∧
      original.batches.flatMap (·.tokens) = g.tokens.zipIdx.map (fedToken g.nPrompt.toNat) ∧
      (let replay := replayMulti sevens g.tokens g.nPrompt [(4, 0), (11, 2)] 8 64;
        replay.result = .ok () ∧ replay.batches <+: original.batches ∧ replay.batches.length = 4 ∧
        ∃ b ∈ replay.batches, b.Covers 11) ∧
      let replay := replaySeq sevens g.tokens g.nPrompt 64 [0, 2]
      replay.result = .ok () ∧ replay.batches = original.batches ∧ replay.batches.length = 5 := by
  have hright := feeds_right sevens [2, 3, 4, 5, 2, 3, 4, 5, 2, 3] 5 0 0 (fun _ => 64) (by decide)
  obtain ⟨-, hfed, hreplays⟩ := hright.2 _ generateTraced_sevens
  obtain ⟨hmulti, hseq⟩ := hreplays sevens 64
  have htakes : sevens.Takes 64 [2, 3, 4, 5, 2, 3, 4, 5, 2, 3, 7, 7, 7] :=
    ⟨by simp [sevens], by decide⟩
  obtain ⟨hinitial, -, hcovers, hok⟩ := hmulti [(4, 0), (11, 2)] 8
  have hmultiOk := hok 3 (some oneHeadSpec) rfl
    ⟨by decide, by decide, by decide, by simp, by simp⟩ htakes (sevens_decodes _)
  obtain ⟨b, hb, hcover, -⟩ := hcovers hmultiOk (11, 2) (by decide)
  obtain ⟨-, -, hwhole, hok⟩ := hseq [0, 2]
  have hseqOk := hok 3 oneHeadSpec rfl ⟨by simp; decide, nofun⟩ htakes (sevens_decodes _)
  refine ⟨_, generateTraced_sevens, rfl, hfed.1, ⟨hmultiOk, hinitial, ?_, b, hb, hcover⟩, hseqOk,
    hwhole hseqOk, ?_⟩
  · decide +kernel
  · decide +kernel

end KeryxMiner.Engine
