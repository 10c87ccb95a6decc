import KeryxMiner.Vulkan.MineV4
import KeryxMiner.Vulkan.WalkAgrees
import Mathlib.Tactic.IntervalCases
import Mathlib.Tactic.NormNum

/-!
# The search finds the first nonce that the host accepts

Where the weights and the pad are in the memory of the device, a batch of the `v_dot4` build gives the
first of its nonces whose walk on the host has a value within the target, however its invocations are
ordered (`searchV4_eq_find`).
-/

namespace KeryxMiner.Vulkan

open Pom

/-! ## The order of two values -/

theorem leLeqBelow_eq {a b : Bytes32} {i : Nat} (hi : i ≤ 32) :
    leLeqBelow a b i = decide (ofLe (a.toList.take i) ≤ ofLe (b.toList.take i)) := by
  induction i with
  | zero => rfl
  | succ i ih =>
    have htake (c : Bytes32) :
        ofLe (c.toList.take (i + 1)) = ofLe (c.toList.take i) + 256 ^ i * (c.toList.getD i 0).toNat ∧
          ofLe (c.toList.take i) < 256 ^ i := by
      have hlen : (c.toList.take i).length = i := by
        rw [List.length_take, Vector.length_toList]
        omega
      have hlt : i < c.toList.length := by
        rw [Vector.length_toList]
        omega
      have hbound := ofLe_lt (c.toList.take i)
      rw [hlen] at hbound
      rw [← List.take_append_getElem hlt, ofLe_append, hlen, List.getD_eq_getElem _ _ hlt]
      exact ⟨by simp [ofLe], hbound⟩
    obtain ⟨ha, halt⟩ := htake a
    obtain ⟨hb, hblt⟩ := htake b
    rw [leLeqBelow, ih (Nat.le_of_succ_le hi), ha, hb]
    generalize 256 ^ i = k at *
    rcases Nat.lt_trichotomy (a.toList.getD i 0).toNat (b.toList.getD i 0).toNat with hlt | heq | hgt
    · rw [if_pos (UInt8.lt_iff_toNat_lt.mpr hlt)]
      have := Nat.mul_le_mul_left k hlt
      rw [Nat.mul_succ] at this
      exact (decide_eq_true (by omega)).symm
    · have hirr : ∀ x : UInt8, ¬ x < x := fun x => UInt8.lt_irrefl x
      rw [UInt8.toNat_inj.mp heq, if_neg (hirr _), if_neg (hirr _)]
      exact decide_eq_decide.mpr (by omega)
    · have := Nat.mul_le_mul_left k hgt
      rw [Nat.mul_succ] at this
      rw [if_neg (fun hlt => Nat.lt_asymm hgt (UInt8.lt_iff_toNat_lt.mp hlt)),
        if_pos (UInt8.lt_iff_toNat_lt.mpr hgt)]
      exact (decide_eq_false (by omega)).symm

theorem leLeq_eq {a b : Bytes32} : leLeq a b = decide (ofLe a.toList ≤ ofLe b.toList) := by
  have hall (c : Bytes32) : c.toList.take 32 = c.toList :=
    List.take_of_length_le Vector.length_toList.le
  rw [leLeq, leLeqBelow_eq le_rfl, hall, hall]

theorem ofLe_flatMap_wordBytes (ws : List UInt64) : ofLe (ws.flatMap wordBytes) = ofWords ws := by
  induction ws with
  | nil => rfl
  | cons w ws ih =>
    have hpow : 256 ^ 8 = 2 ^ 64 := by norm_num
    rw [List.flatMap_cons, ofLe_append, ih, length_wordBytes, wordBytes, ofLe_toLe w.toNat_lt,
      ofWords_cons, hpow]

theorem toList_wordsToBytes (w : Words) : (wordsToBytes w).toList = w.toList.flatMap wordBytes := by
  have hlen : (w.toList.flatMap wordBytes).length = 32 := by
    simp [List.length_flatMap]
  apply List.ext_getElem
  · rw [Vector.length_toList, hlen]
  · intro i hi hi'
    rw [Vector.length_toList] at hi
    have hblock : (((w.toList.flatMap wordBytes).drop (8 * (i / 8))).take 8).length = 8 := by
      rw [List.length_take, List.length_drop, hlen]
      omega
    have hbytes := toLe_ofLe (((w.toList.flatMap wordBytes).drop (8 * (i / 8))).take 8)
    have hword : leAt 8 (w.toList.flatMap wordBytes) (8 * (i / 8)) = _ := leAt_wordBytes
    have hplace : 8 * (i / 8) + i % 8 = i := Nat.div_add_mod ..
    rw [hblock, ← leAt, hword] at hbytes
    have hget : (wordsToBytes w)[i] = (toLe 8 (w.toList.getD (i / 8) 0).toNat).getD (i % 8) 0 := by
      rw [wordsToBytes, Vector.getElem_ofFn]
    rw [Vector.getElem_toList, hget, hbytes, List.getD_eq_getElem _ _ (by omega), List.getElem_take,
      List.getElem_drop]
    simp only [hplace]

theorem leLeq_wordsToBytes {u v : Words} :
    leLeq (wordsToBytes u) (wordsToBytes v) = decide (ofWords u.toList ≤ ofWords v.toList) := by
  rw [leLeq_eq, toList_wordsToBytes, toList_wordsToBytes, ofLe_flatMap_wordBytes,
    ofLe_flatMap_wordBytes]

theorem decide_le_eq {m n : Nat} : decide (m ≤ n) = (compare m n != .gt) := by
  rcases Nat.lt_trichotomy m n with hlt | heq | hgt
  · rw [decide_eq_true hlt.le, Nat.compare_eq_lt.mpr hlt]
    rfl
  · rw [decide_eq_true heq.le, Nat.compare_eq_eq.mpr heq]
    rfl
  · rw [decide_eq_false (Nat.not_le.mpr hgt), Nat.compare_eq_gt.mpr hgt]
    rfl

theorem toList_words (w : Words) : w.toList = [w.get 0, w.get 1, w.get 2, w.get 3] := by
  have hlen : w.toList.length = 4 := Vector.length_toList
  apply List.ext_getElem hlen
  intro i hi _
  rw [Vector.getElem_toList]
  rw [hlen] at hi
  interval_cases i <;> rfl

theorem leLeq_words {u t : Words} : leLeq (wordsToBytes u) (wordsToBytes t) =
    (compareFront [u.get 3, u.get 2, u.get 1, u.get 0] [t.get 3, t.get 2, t.get 1, t.get 0] !=
      .gt) := by
  have hcompare : compareFront [u.get 0, u.get 1, u.get 2, u.get 3].reverse
      [t.get 0, t.get 1, t.get 2, t.get 3].reverse = _ := compare_words rfl
  rw [leLeq_wordsToBytes, toList_words u, toList_words t, decide_le_eq, ← hcompare]
  rfl

/-- A nonce brings its number in where the value of its walk is within the target. -/
theorem report_eq {fin : UInt64} {prePowHash target : Bytes32} {i low : UInt32} :
    report (pphWordsForEra prePowHash true) (words4 target) fin i low =
      if leLeq (pomPowValue fin prePowHash true) target ∧ i.toNat < low.toNat then i else low := by
  have htarget : wordsToBytes (words4 target) = target := wordsToBytes_chunkToWords target
  have hlowest {o t : UInt64} : decide (o ≤ t) = (compareFront [o] [t] != .gt) := by
    have hcompare : compareFront [o].reverse [t].reverse = _ := compare_words rfl
    simp only [List.reverse_singleton] at hcompare
    rw [hcompare, ← decide_le_eq]
    simp [ofWords, UInt64.le_iff_toNat_le]
  have hboth (le : Bool) : (if le then if i < low then i else low else low) =
      if le ∧ i.toNat < low.toNat then i else low := by
    cases le <;> simp [UInt32.lt_iff_toNat_lt]
  rw [← htarget, pomPowValue, leLeq_words, report, decide_word (decide_word (decide_word hlowest)),
    htarget]
  exact hboth _

/-! ## The weights and the pad on the device -/

/-- The memory has each chunk of the index where the table says. -/
structure Resident (memory : Nat → ChunkWords) (idx : WeightIndex) (T : SegTable) : Prop where
  nChunks : T.nChunks = idx.nChunks
  chunk : ∀ s a c, T.addrs[s]? = some a → T.start s ≤ c → c < T.start (s + 1) →
    chunkBytes (memory (a + (c - T.start s) * 32)) = (idx.readChunkBytes c).toList

/-- A walk over the weights, or over the weights and a pad of `p` tiles that has been filled. -/
inductive Loaded (memory : Nat → ChunkWords) (T : SegTable) (padSeed : Bytes32) :
    (p : Nat) → PomWalkV4 → Prop
  | weights {walk : PomWalkV4} (hwalk : PomWalkV4.withKernel T.starts T.addrs = some walk) :
    Loaded memory T padSeed 0 walk
  | pad {alloc : Nat → Option Nat} {p : Nat} {pad : PadV5} {pushes : List FillPush}
    {walk : PomWalkV4}
    (hfill : PadV5.fill alloc (v5PadSeedWords padSeed) p = some (pad, pushes))
    (hwrites : ∀ w ∈ pushes.flatMap fillWrites, chunkBytes (memory w.1) = w.2)
    (hwalk : PomWalkV4.withKernelV5 T.starts T.addrs pad = some walk) : Loaded memory T padSeed p walk

section

variable {memory : Nat → ChunkWords} {idx : WeightIndex} {T : SegTable} {padSeed : Bytes32} {p : Nat}
  {walk : PomWalkV4}

theorem withTables_eq_some {starts addrs : List Nat} {n : Nat}
    (h : PomWalkV4.withTables starts addrs n p = some walk) :
    walk.table.starts = starts ∧ walk.table.addrs = addrs ∧ walk.nTiles = UInt64.ofNat n ∧
      walk.nPad = UInt64.ofNat p := by
  rw [PomWalkV4.withTables] at h
  split at h
  · obtain rfl := Option.some.inj h
    exact ⟨rfl, rfl, rfl, rfl⟩
  · cases h

theorem SegTable.eq_of_lists {T U : SegTable} (hstarts : T.starts = U.starts)
    (haddrs : T.addrs = U.addrs) : T = U := by
  cases T
  cases U
  obtain rfl : _ = _ := hstarts
  obtain rfl : _ = _ := haddrs
  rfl

theorem Resident.chunkPtr (h : Resident memory idx T) {c : Nat} (hc : c < idx.nChunks) :
    ∃ a, T.chunkPtr c = some a ∧ chunkBytes (memory a) = (idx.readChunkBytes c).toList := by
  obtain ⟨s, a, -, ha, hstart, hend, hptr⟩ := T.looksUp.chunk c (h.nChunks ▸ hc)
  exact ⟨_, hptr, h.chunk s a c ha hstart hend⟩

theorem PomWalkV4.look_eq {c a : Nat} (hc : c < 2 ^ 64) (h : walk.table.chunkPtr c = some a) :
    walk.look memory (UInt64.ofNat c) = memory a := by
  rw [look, UInt64.toNat_ofNat_of_lt' hc, h]
  rfl

theorem fill_eq_some {alloc : Nat → Option Nat} {w : PadWords} {pad : PadV5} {pushes : List FillPush}
    (h : PadV5.fill alloc w p = some (pad, pushes)) :
    pad.tiles = p ∧ (pad.segs.map (·.2)).sum = p * V4_TILE_CHUNKS ∧
      ∀ a bytes, (a, bytes) ∈ pushes.flatMap fillWrites ↔
        ∃ e, padAddress pad.segs e = some a ∧ padEntry w (UInt64.ofNat e) = bytes := by
  rw [PadV5.fill] at h
  split at h
  · cases h
  · obtain ⟨⟨segs, pushes'⟩, hfrom, hsome⟩ := Option.bind_eq_some_iff.mp h
    obtain ⟨rfl, rfl⟩ := Prod.mk.inj (Option.some.inj hsome)
    obtain ⟨hsum, hwrites⟩ := fillFrom_writes hfrom (Nat.zero_le _)
    rw [Nat.zero_add] at hsum
    simp only [Nat.zero_add] at hwrites
    exact ⟨rfl, hsum, hwrites⟩

/-- What a walk looks up is what the host reads. -/
theorem Loaded.reads (hloaded : Loaded memory T padSeed p walk) (hresident : Resident memory idx T)
    (hlt : idx.nChunks / v4TileChunks + p < 2 ^ 50) :
    ReadsChunks (walk.look memory) idx padSeed p ∧
      walk.nTiles = UInt64.ofNat (idx.nChunks / v4TileChunks) ∧ walk.nPad = UInt64.ofNat p := by
  have htile : v4TileChunks = 32 := rfl
  have hplace (c : Nat) (hc : c < (idx.nChunks / v4TileChunks + p) * v4TileChunks) : c < 2 ^ 64 := by
    rw [htile] at hc hlt
    omega
  have hcap : T.cap = idx.nChunks / v4TileChunks * v4TileChunks := by
    rw [SegTable.cap, SegTable.weightTiles, hresident.nChunks]
    rfl
  cases hloaded with
  | weights hwalk =>
    obtain ⟨hstarts, haddrs, hn, hp⟩ := withTables_eq_some hwalk
    have htable : walk.table = T := SegTable.eq_of_lists hstarts haddrs
    refine ⟨⟨?_, ?_⟩, ?_, hp⟩
    · intro c hc
      obtain ⟨a, hptr, hbytes⟩ := hresident.chunkPtr (Nat.lt_of_lt_of_le hc (Nat.div_mul_le_self ..))
      rw [PomWalkV4.look_eq (hplace c (by rwa [Nat.add_zero])) (htable ▸ hptr), hbytes]
    · intro e he
      exact absurd he (by simp)
    · rw [hn, ← hresident.nChunks]
      rfl
  | pad hfill hwrites hwalk =>
    rename_i alloc pad pushes
    obtain ⟨htiles, hsum, hwritten⟩ := fill_eq_some hfill
    have hne : ¬(T.addrs.isEmpty ∨ T.starts.length ≠ T.addrs.length + 1) := by
      rintro (hempty | hlen)
      · exact absurd (List.isEmpty_iff.mp hempty) (List.ne_nil_of_length_pos T.addrs_pos)
      · exact hlen T.length_starts
    rw [PomWalkV4.withKernelV5, if_neg hne] at hwalk
    change PomWalkV4.withTables (pad.tables T.starts T.addrs).1 (pad.tables T.starts T.addrs).2.1
      (pad.tables T.starts T.addrs).2.2 pad.tiles = some walk at hwalk
    obtain ⟨hstarts, haddrs, hn, hp⟩ := withTables_eq_some hwalk
    have hsegments : (pad.tables T.starts T.addrs).2.1.length ≤ 2 ^ 31 := haddrs ▸ walk.table.segments
    have htable : walk.table = T.extend pad hsegments := SegTable.eq_of_lists hstarts haddrs
    refine ⟨⟨?_, ?_⟩, ?_, by rw [hp, htiles]⟩
    · intro c hc
      obtain ⟨a, hptr, hbytes⟩ := hresident.chunkPtr (Nat.lt_of_lt_of_le hc (Nat.div_mul_le_self ..))
      have hsame : (T.extend pad hsegments).chunkPtr c = T.chunkPtr c :=
        SegTable.chunkPtr_weight (hcap ▸ hc)
      have hbelow := Nat.mul_le_mul_right v4TileChunks
        (Nat.le_add_right (idx.nChunks / v4TileChunks) p)
      rw [← hsame, ← htable] at hptr
      rw [PomWalkV4.look_eq (hplace c (Nat.lt_of_lt_of_le hc hbelow)) hptr, hbytes]
    · intro e he
      have he' : e < (pad.segs.map (·.2)).sum := hsum ▸ he
      have hbelow := Nat.add_lt_add_left he (idx.nChunks / v4TileChunks * v4TileChunks)
      obtain ⟨k, hk, -, -, hentry⟩ := padAddress_spec he'
      have hptr : (T.extend pad hsegments).chunkPtr (T.cap + e) = _ := SegTable.chunkPtr_pad he'
      rw [← htable, hentry, hcap] at hptr
      rw [← Nat.add_mul] at hbelow
      rw [PomWalkV4.look_eq (hplace _ hbelow) hptr]
      generalize hbytes : padEntry (v5PadSeedWords padSeed) (UInt64.ofNat e) = bytes
      exact hwrites (_, bytes) ((hwritten _ bytes).mpr ⟨e, hentry, hbytes⟩)
    · rw [hn, SegTable.tables_eq, ← hresident.nChunks]
      rfl

end
/-! ## A nonce -/

section

variable {idx : WeightIndex} {padSeed : Bytes32} {p : Nat} {look : UInt64 → ChunkWords}

/-- The value of the shader is that of the host's walk. -/
theorem hostFinal_eq (blake : List UInt8 → Bytes32) (seed : UInt64) (mem : Vector UInt32 512)
    (hw : 0 < idx.nChunks / v4TileChunks) (hlt : idx.nChunks / v4TileChunks + p < 2 ^ 50)
    (hlook : ReadsChunks look idx padSeed p) : hostFinal blake seed idx padSeed p =
      .ok (walkValue (pushOf (idx.nChunks / v4TileChunks) p) look seed blake mem) := by
  rcases Nat.eq_zero_or_pos p with rfl | hp
  · have hmirrors := mirrors_v4 seed hw hlt hlook
    obtain ⟨hvalue, -⟩ := walk_agrees_run blake mem hmirrors
      (hmirrors.start hw (toNat_modTiles hw hlt) le_rfl)
    have hrun := v4Run_eq blake seed padSeed (fun (_ : Unit) _ => ()) hw ()
    rw [hvalue, hostFinal, if_pos rfl, walkFinalV4]
    dsimp only
    rw [if_neg hw.ne', hrun]
    rfl
  · obtain ⟨k, hk⟩ : ∃ k, v5PadSteps (idx.nChunks / v4TileChunks) p = .ok k := by
      rw [v5PadSteps, Nat.mod_eq_of_lt (by omega)]
      exact ⟨_, if_neg (by omega)⟩
    have hmirrors := mirrors_v5 seed hw hp hlt hk hlook
    obtain ⟨hvalue, -⟩ := walk_agrees_run blake mem hmirrors
      (hmirrors.start hw (toNat_modTiles hw hlt) (Nat.le_add_right ..))
    rw [hvalue, hostFinal, if_neg hp.ne', walkFinalV5_eq hw.ne' hp.ne' hk]
    rfl

/-- Whether the host accepts a nonce: its walk has a value within the target. -/
def hostAccepts (blake : List UInt8 → Bytes32) (idx : WeightIndex) (padSeed : Bytes32) (p : Nat)
    (isTestnet : Bool) (prePowHash : Bytes32) (timestamp : UInt64) (target : Bytes32) (daa : UInt64)
    (nonce : UInt64) : Bool :=
  match hostFinal blake (pomBlockSeedV4Era isTestnet prePowHash timestamp nonce daa) idx padSeed p with
  | .ok fin => leLeq (pomPowValue fin prePowHash true) target
  | .error _ => false

/-- The seed that the pre-pass computes is that of the block. -/
theorem seedPass_searchJob {isTestnet : Bool} {prePowHash target : Bytes32}
    {timestamp start daa : UInt64} {n i : UInt32} {ids : List UInt32} {seeds : List UInt64}
    (hids : ids.Perm (invocations n)) (hi : i < n) (hlen : n.toNat ≤ seeds.length) :
    (seedPass (searchJob isTestnet prePowHash timestamp target daa).toV4Job start n ids
        seeds)[i.toNat]? =
      some (pomBlockSeedV4Era isTestnet prePowHash timestamp (start + i.toUInt64) daa) := by
  by_cases hprivate : privateInferenceActivationDaa isTestnet ≤ daa
  · have hstate : (searchJob isTestnet prePowHash timestamp target daa).h10State =
        some (Pow.pomSeedH10State (seedH14Pph prePowHash) timestamp) := if_pos hprivate
    rw [seedPass_get hstate hids hlen hi, pomBlockSeedV4Era, if_pos hprivate,
      Pow.set_eq_setIfInBounds (by decide)]
    rfl
  by_cases hh10 : h10ActivationDaa isTestnet ≤ daa
  · have hstate : (searchJob isTestnet prePowHash timestamp target daa).h10State =
        some (Pow.pomSeedH10State prePowHash timestamp) := (if_neg hprivate).trans (if_pos hh10)
    rw [seedPass_get hstate hids hlen hi, pomBlockSeedV4Era, if_neg hprivate, if_pos hh10,
      Pow.set_eq_setIfInBounds (by decide)]
    rfl
  · have hstate : (searchJob isTestnet prePowHash timestamp target daa).h10State = none :=
      (if_neg hprivate).trans (if_neg hh10)
    have hlt : i.toNat < seeds.length := Nat.lt_of_lt_of_le (UInt32.lt_iff_toNat_lt.mp hi) hlen
    rw [seedPass, foldl_main_get hi hlt, if_pos (hids.mem_iff.mpr (mem_invocations hi)), hstate,
      pomBlockSeedV4Era, if_neg hprivate, if_neg hh10]
    rfl

end

theorem length_seedPass {job : V4Job} {start : UInt64} {n : UInt32} {ids : List UInt32}
    {seeds : List UInt64} : (seedPass job start n ids seeds).length = seeds.length := by
  rw [seedPass]
  induction ids generalizing seeds with
  | nil => rfl
  | cons i ids ih => rw [List.foldl_cons, ih, length_main]

/-! ## A batch -/

section

variable {blake : List UInt8 → Bytes32} {memory : Nat → ChunkWords} {idx : WeightIndex}
  {T : SegTable} {padSeed : Bytes32} {p : Nat} {walk : PomWalkV4}

variable (hloaded : Loaded memory T padSeed p walk) (hresident : Resident memory idx T)
  (hlt : idx.nChunks / v4TileChunks + p < 2 ^ 50)

variable {isTestnet : Bool} {prePowHash target : Bytes32} {timestamp start daa : UInt64}
  {n : UInt32} {seeds : List UInt64}

include hloaded hresident hlt

theorem walkMain_eq {ids : List UInt32} {lds : UInt32 → Vector UInt32 512} {low i : UInt32}
    (hids : ids.Perm (invocations n)) (hlen : n.toNat ≤ seeds.length) :
    walkMain blake walk memory (searchJob isTestnet prePowHash timestamp target daa) n
        (seedPass (searchJob isTestnet prePowHash timestamp target daa).toV4Job start n ids seeds)
        lds low i =
      if (i < n ∧ hostAccepts blake idx padSeed p isTestnet prePowHash timestamp target daa
        (start + i.toUInt64)) ∧ i.toNat < low.toNat then i else low := by
  obtain ⟨hreads, htiles, hpad⟩ := hloaded.reads hresident hlt
  have hw : 0 < idx.nChunks / v4TileChunks := Nat.div_pos (hresident.nChunks ▸ T.enough) (by decide)
  by_cases hi : i < n
  · have hmin : min i (n - 1) = i := by
      have hilt := UInt32.lt_iff_toNat_lt.mp hi
      have hone : (1 : UInt32).toNat = 1 := rfl
      have hsub : (n - 1).toNat = n.toNat - 1 :=
        UInt32.toNat_sub_of_le n 1 (UInt32.le_iff_toNat_le.mpr (by omega))
      exact if_pos (UInt32.le_iff_toNat_le.mpr (by omega))
    rw [walkMain, hmin, List.getD_eq_getElem?_getD, seedPass_searchJob hids hi hlen, Option.getD_some,
      htiles, hpad, if_pos hi, hostAccepts, hostFinal_eq blake _ (lds i) hw hlt hreads]
    simp only [hi, true_and]
    exact report_eq
  · rw [walkMain, if_neg hi, if_neg fun h => hi h.1.1]

/-- A dispatch gives the lowest of its nonces that the host accepts. -/
theorem dispatch_find (s : Schedule n) (hlen : n.toNat ≤ seeds.length) :
    (List.range n.toNat).find? (fun o => hostAccepts blake idx padSeed p isTestnet prePowHash timestamp
        target daa (start + UInt64.ofNat o)) =
      if (dispatch blake walk memory (searchJob isTestnet prePowHash timestamp target daa) start n s
        seeds).1 = NO_WINNER then none
      else some (dispatch blake walk memory (searchJob isTestnet prePowHash timestamp target daa) start
        n s seeds).1.toNat := by
  have hlowest : Lowest UInt32.toNat (fun i => i < n ∧ hostAccepts blake idx padSeed p isTestnet
      prePowHash timestamp target daa (start + i.toUInt64)) s.walkIds NO_WINNER
      (dispatch blake walk memory (searchJob isTestnet prePowHash timestamp target daa) start n s
        seeds).1 :=
    lowest_foldl fun _ _ => walkMain_eq hloaded hresident hlt s.seedIds_perm hlen
  apply hlowest.find?_range (Nat.le_of_lt_succ n.toNat_lt)
  · intro i
    rw [UInt64.ofNat_uInt32ToNat, UInt32.lt_iff_toNat_lt]
  · intro o ho
    refine ⟨UInt32.ofNat o, s.walkIds_perm.mem_iff.mpr ?_, ?_⟩
    · exact List.mem_map_of_mem (List.mem_range.mpr ho)
    · exact UInt32.toNat_ofNat_of_lt' (ho.trans n.toNat_lt)

/-- The dispatches from `done` on give the first nonce from there on that the host accepts. -/
theorem mineFrom_eq {batch done : UInt32} {schedule : Nat → ∀ n, Schedule n} {k : Nat}
    (hlen : seeds.length = V4_MAX_DISPATCH_NONCES.toNat) :
    mineFrom blake walk memory (searchJob isTestnet prePowHash timestamp target daa) start batch
        schedule k done seeds =
      ((List.range' done.toNat (batch.toNat - done.toNat)).find? fun o => hostAccepts blake idx padSeed
        p isTestnet prePowHash timestamp target daa (start + UInt64.ofNat o)).map
          fun o => start + UInt64.ofNat o := by
  induction hm : batch.toNat - done.toNat using Nat.strong_induction_on generalizing done k seeds with
  | h m ih =>
  rw [mineFrom]
  by_cases hdone : done < batch
  · obtain ⟨hsub, hnext, hpos⟩ := dispatch_size hdone
    rw [if_pos hdone]
    dsimp only
    generalize min (batch - done) V4_MAX_DISPATCH_NONCES = sub at hsub hnext
    have hsubn : sub.toNat ≤ m := by omega
    have hsublen : sub.toNat ≤ seeds.length := by omega
    -- the nonces of this dispatch, and those behind them
    have hsplit : List.range' done.toNat m = ((List.range sub.toNat).map fun o => done.toNat + o) ++
        List.range' (done + sub).toNat (m - sub.toNat) := by
      rw [← List.range'_eq_map_range, hnext, ← hsub, List.range'_append_1, Nat.add_sub_cancel' hsubn]
    have hword (o : Nat) : start + UInt64.ofNat (done.toNat + o) =
        start + done.toUInt64 + UInt64.ofNat o := by
      rw [UInt64.ofNat_add, UInt64.ofNat_uInt32ToNat, UInt64.add_assoc]
    have hseeds : (dispatch blake walk memory (searchJob isTestnet prePowHash timestamp target daa)
        (start + done.toUInt64) sub (schedule k sub) seeds).2.length = _ := length_seedPass.trans hlen
    rw [hsplit, List.find?_append, List.find?_map]
    simp only [Function.comp_def, hword]
    rw [dispatch_find hloaded hresident hlt (schedule k sub) hsublen]
    generalize dispatch blake walk memory (searchJob isTestnet prePowHash timestamp target daa)
      (start + done.toUInt64) sub (schedule k sub) seeds = d at hseeds
    by_cases hnone : d.1 = NO_WINNER
    · rw [if_neg (not_not.mpr hnone), if_pos hnone]
      exact ih _ (by omega) hseeds (by omega)
    · rw [if_pos hnone, if_neg hnone, Option.map_some, Option.some_or, Option.map_some, hword,
        UInt64.ofNat_uInt32ToNat, UInt64.add_assoc]
  · have hzero : m = 0 := by
      have := UInt32.le_iff_toNat_le.mp (UInt32.not_lt.mp hdone)
      omega
    rw [if_neg hdone, hzero]
    rfl

theorem mine_eq {batch : UInt32} {schedule : Nat → ∀ n, Schedule n}
    (hlen : seeds.length = V4_MAX_DISPATCH_NONCES.toNat) :
    walk.mine blake memory (searchJob isTestnet prePowHash timestamp target daa) start batch schedule
        seeds =
      ((List.range batch.toNat).find? fun o => hostAccepts blake idx padSeed p isTestnet prePowHash
        timestamp target daa (start + UInt64.ofNat o)).map fun o => start + UInt64.ofNat o := by
  rw [PomWalkV4.mine, mineFrom_eq hloaded hresident hlt hlen, UInt32.toNat_zero, Nat.sub_zero,
    ← List.range_eq_range']

end

/-- **A batch gives the first of its nonces that the host accepts, and none if it accepts none**, in
whatever order the invocations of each dispatch are made. -/
theorem searchV4_eq_find (blake : List UInt8 → Bytes32) {memory : Nat → ChunkWords}
    {idx : WeightIndex} {T : SegTable} {padSeed : Bytes32} {p : Nat} {walk : PomWalkV4}
    (hloaded : Loaded memory T padSeed p walk) (hresident : Resident memory idx T)
    (hlt : idx.nChunks / v4TileChunks + p < 2 ^ 50) (isTestnet : Bool) (prePowHash target : Bytes32)
    (timestamp start daa : UInt64) (batch : UInt32) (schedule : Nat → ∀ n, Schedule n)
    {seeds : List UInt64} (hlen : seeds.length = V4_MAX_DISPATCH_NONCES.toNat) :
    walk.mine blake memory (searchJob isTestnet prePowHash timestamp target daa) start batch schedule
        seeds =
      ((List.range batch.toNat).map fun o => start + UInt64.ofNat o).find? fun nonce =>
        hostAccepts blake idx padSeed p isTestnet prePowHash timestamp target daa nonce := by
  rw [mine_eq hloaded hresident hlt hlen, List.find?_map]
  rfl

/-- One segment, with the tile of zeros. -/
def zeroSegment : SegTable where
  starts := [0, 32]
  addrs := [0]
  length_starts := rfl
  first := rfl
  ascending := by decide
  enough := by decide
  segments := by decide

/-- The tile of zeros, and a pad of one tile behind it. -/
def zeroMemory (a : Nat) : ChunkWords :=
  if a < 1024 then (0, 0, 0, 0)
  else
    let (w0, w1, w2, w3) := v5PadSeedWords default
    round4^[v5PRounds] (w0, w1 ^^^ UInt64.ofNat ((a - 1024) / 32), w2, w3)

theorem zeroMemory_entry {e : Nat} :
    chunkBytes (zeroMemory (1024 + e * 32)) = padEntry (v5PadSeedWords default) (UInt64.ofNat e) := by
  have hplace : (1024 + e * 32 - 1024) / 32 = e := by omega
  rw [zeroMemory, if_neg (by omega)]
  obtain ⟨w0, w1, w2, w3⟩ := v5PadSeedWords default
  dsimp only
  rw [hplace, padEntry]
  generalize round4^[v5PRounds] (w0, w1 ^^^ UInt64.ofNat e, w2, w3) = words
  rfl

theorem zeroMemory_resident : Resident zeroMemory zeroTile zeroSegment where
  nChunks := rfl
  chunk s a c ha _ hend := by
    obtain ⟨hs, rfl⟩ := List.getElem?_eq_some_iff.mp ha
    obtain rfl : s = 0 := Nat.lt_one_iff.mp hs
    change c < 32 at hend
    change chunkBytes (zeroMemory (0 + (c - 0) * 32)) = _
    have hread : zeroTile.readChunkBytes c = Vector.replicate 32 0 := by
      rw [WeightIndex.readChunkBytes, zeroTile, List.getD_replicate _ hend]
    rw [zeroMemory, if_pos (by omega), hread]
    rfl

theorem zeroMemory_loaded : ∃ walk, PomWalkV4.withKernelV5 zeroSegment.starts zeroSegment.addrs
    ⟨[(1024, 32)], 1⟩ = some walk ∧ Loaded zeroMemory zeroSegment default 1 walk := by
  have hfill : PadV5.fill (fun _ => some 1024) (v5PadSeedWords default) 1 =
      some (⟨[(1024, 32)], 1⟩, fillShard (v5PadSeedWords default) 1024 0 32 0) := by
    generalize v5PadSeedWords default = w
    simp [PadV5.fill, fillFrom, V4_TILE_CHUNKS, V5_PAD_SHARD_ENTRIES]
  have htables : (⟨[(1024, 32)], 1⟩ : PadV5).tables zeroSegment.starts zeroSegment.addrs =
      ([0, 32, 64], [0, 1024], 1) := by
    simp [PadV5.tables, keptSegments, zeroSegment, startAt, V4_TILE_CHUNKS, shardEnds]
  obtain ⟨walk, hwalk⟩ : ∃ walk, PomWalkV4.withKernelV5 zeroSegment.starts zeroSegment.addrs
      ⟨[(1024, 32)], 1⟩ = some walk := by
    rw [PomWalkV4.withKernelV5, htables]
    exact ⟨_, rfl⟩
  refine ⟨walk, hwalk, .pad hfill ?_ hwalk⟩
  rintro ⟨a, bytes⟩ hmem
  obtain ⟨j, -, -, ha, hbytes⟩ := mem_fillShard.mp hmem
  rw [Nat.zero_add] at hbytes
  rw [← ha, ← hbytes, zeroMemory_entry]

/-- The invocations of a dispatch in their order. -/
def inOrder (n : UInt32) : Schedule n where
  seedIds := invocations n
  walkIds := (List.range n.toNat).map UInt32.ofNat
  lds _ := Vector.replicate 512 0
  seedIds_perm := .refl _
  walkIds_perm := .refl _

/-- Two dispatches, with a pad. -/
theorem searchV4_eq_find_zeroTile : ∃ walk,
    PomWalkV4.withKernelV5 zeroSegment.starts zeroSegment.addrs ⟨[(1024, 32)], 1⟩ = some walk ∧
    walk.mine (fun _ => default) zeroMemory (searchJob false default 5 default 140115000) 7 40000
        (fun _ => inOrder) (List.replicate 32768 0) =
      ((List.range 40000).map fun o => 7 + UInt64.ofNat o).find? fun nonce =>
        hostAccepts (fun _ => default) zeroTile default 1 false default 5 default 140115000 nonce := by
  obtain ⟨walk, hwalk, hloaded⟩ := zeroMemory_loaded
  exact ⟨walk, hwalk, searchV4_eq_find (fun _ => default) hloaded zeroMemory_resident (by decide) false
    default default 5 7 140115000 40000 (fun _ => inOrder) List.length_replicate⟩

end KeryxMiner.Vulkan
