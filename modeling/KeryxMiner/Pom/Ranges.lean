import KeryxMiner.Pom.Index

/-!
# Ranges of chunks

The chunks lie in the model file, one tensor after the other, and a table has the first chunk of each
tensor and its place in the file. `readChunkBytes` looks up one chunk; `readChunkRange` reads a range
with one read for each tensor that it meets. The two read the same (`readChunkRange_eq`), which are
the chunks of the index (`readChunkBytes_eq`).
-/

namespace KeryxMiner.Pom

/-- The positional read: all the bytes asked for, or an error. -/
def readExactAt (file : List UInt8) (n offset : Nat) : Option (List UInt8) :=
  let bytes := (file.drop offset).take n
  if bytes.length = n then some bytes else none

/-- The file and the table of `ChunkSource::Gguf`: the tensors in canonical order, each with the
number of its first chunk and its offset in the file. -/
structure Gguf where
  file : List UInt8
  table : List (Nat × Nat)
  nChunks : Nat
  starts : (table.map (·.1)).head? = some 0
  ascending : (table.map (·.1)).Pairwise (· < ·)
  below : ∀ entry ∈ table, entry.1 < nChunks

/-- What a tensor of `build_from_gguf` does to the table and the number of chunks. -/
def pushTensor (p : List (Nat × Nat) × Nat) (tensor : Nat × Nat) : List (Nat × Nat) × Nat :=
  let full := tensor.2 / 32
  (if 0 < full then p.1 ++ [(p.2, tensor.1)] else p.1, p.2 + full)

/-- The number of entries that start at a chunk or before. -/
def partitionPoint (table : List (Nat × Nat)) (off : Nat) : Nat :=
  (table.takeWhile (·.1 ≤ off)).length

/-- The loop of `read_chunk_range` over the entries from the `j`-th on, with `left` bytes to read;
`none` is a panic, and an error is one of the file. -/
def readChunkRangeLoop (file : List UInt8) (nChunks : Nat) :
    (entries : List (Nat × Nat)) → (cur left : Nat) → Option (Option (List UInt8))
  | [], _, left => if left = 0 then some (some []) else none
  | (tStart, tFileOff) :: entries, cur, left =>
    if left = 0 then some (some [])
    else
      let tEnd := (entries.head?.map (·.1)).getD nChunks
      let take := min ((tEnd - cur) * 32) left
      match readExactAt file take (tFileOff + (cur - tStart) * 32) with
      | none => some none
      | some bytes =>
        (readChunkRangeLoop file nChunks entries (cur + take / 32) (left - take)).map
          (·.map (bytes ++ ·))

namespace Gguf

variable (g : Gguf)

/-- The chunk at a canonical index; `none` is a panic. -/
def readChunkBytes (off : Nat) : Option (List UInt8) := do
  let (start, fileOff) ← g.table[partitionPoint g.table off - 1]?
  readExactAt g.file 32 (fileOff + (off - start) * 32)

/-- The chunks from `first` on in `len` bytes. -/
def readChunkRange (first len : Nat) : Option (Option (List UInt8)) :=
  if len % 32 ≠ 0 then none
  else if g.nChunks < first + len / 32 then none
  else
    readChunkRangeLoop g.file g.nChunks (g.table.drop (partitionPoint g.table first - 1)) first len

end Gguf

/-! ## Reads -/

section

variable {file : List UInt8} {n m offset first : Nat}

theorem readExactAt_eq_some {bytes : List UInt8} : readExactAt file n offset = some bytes ↔
    (file.drop offset).take n = bytes ∧ bytes.length = n := by
  rw [readExactAt]
  constructor
  · intro h
    split at h
    · next hlen =>
      obtain rfl := Option.some.inj h
      exact ⟨rfl, hlen⟩
    · cases h
  · rintro ⟨rfl, hlen⟩
    exact if_pos hlen

theorem readExactAt_add : readExactAt file (n + m) offset =
    (readExactAt file n offset).bind fun bytes =>
      (readExactAt file m (offset + n)).map (bytes ++ ·) := by
  simp only [readExactAt, List.length_take, List.length_drop]
  by_cases hn : n ≤ file.length - offset
  · rw [if_pos (Nat.min_eq_left hn), Option.bind_some]
    by_cases hm : m ≤ file.length - (offset + n)
    · rw [if_pos (Nat.min_eq_left hm), if_pos (by omega), Option.map_some, List.take_add,
        List.drop_drop]
    · rw [if_neg (by omega), if_neg (by omega)]
      rfl
  · rw [if_neg (by omega), if_neg (by omega)]
    rfl

/-- One read of `n` chunks is `n` reads of a chunk. -/
theorem readExactAt_mul {read : Nat → Option (List UInt8)} {start fileOff : Nat}
    (hle : start ≤ first) (h : ∀ c, first ≤ c → c < first + n →
      read c = readExactAt file 32 (fileOff + (c - start) * 32)) :
    readExactAt file (32 * n) (fileOff + (first - start) * 32) =
      ((List.range' first n).mapM read).map List.flatten := by
  induction n generalizing first with
  | zero => rfl
  | succ n ih =>
    have hnext : fileOff + (first - start) * 32 + 32 = fileOff + (first + 1 - start) * 32 := by omega
    have hrest := ih (Nat.le_succ_of_le hle) fun c hc hlt => h c (by omega) (by omega)
    rw [Nat.mul_succ, Nat.add_comm, readExactAt_add, hnext, hrest, List.range'_succ, List.mapM_cons,
      h first le_rfl (by omega)]
    cases readExactAt file 32 (fileOff + (first - start) * 32) with
    | none => rfl
    | some bytes => cases (List.range' (first + 1) n).mapM read <;> rfl

end

namespace Gguf

variable {g : Gguf} {pre rest : List (Nat × Nat)} {entry : Nat × Nat}
  {start fileOff cur off n : Nat}

/-! ## The lookup -/

/-- The lookup finds the last entry that starts at the chunk or before. -/
theorem partitionPoint_eq (htable : g.table = pre ++ (start, fileOff) :: rest) (hle : start ≤ off)
    (hlt : ∀ entry ∈ rest.head?, off < entry.1) :
    partitionPoint g.table off - 1 = pre.length := by
  have hasc := g.ascending
  rw [htable, List.map_append, List.map_cons, List.pairwise_append] at hasc
  have hpre : ∀ entry ∈ pre, entry.1 ≤ off := by
    intro entry hentry
    have hbefore := hasc.2.2 entry.1 (List.mem_map_of_mem hentry) start List.mem_cons_self
    exact hbefore.le.trans hle
  have htake : g.table.takeWhile (·.1 ≤ off) = pre ++ [(start, fileOff)] := by
    rw [htable, List.takeWhile_append_of_pos fun entry h => decide_eq_true (hpre entry h),
      List.takeWhile_cons, if_pos (decide_eq_true hle)]
    cases rest with
    | nil => rfl
    | cons entry rest =>
      have hstop : ¬entry.1 ≤ off := Nat.not_le.mpr (hlt entry rfl)
      rw [List.takeWhile_cons, if_neg (by simpa using hstop)]
  rw [partitionPoint, htake, List.length_append, List.length_singleton, Nat.add_sub_cancel]

theorem readChunkBytes_of_split (htable : g.table = pre ++ (start, fileOff) :: rest)
    (hle : start ≤ off) (hlt : ∀ entry ∈ rest.head?, off < entry.1) :
    g.readChunkBytes off = readExactAt g.file 32 (fileOff + (off - start) * 32) := by
  rw [readChunkBytes, partitionPoint_eq htable hle hlt, htable, List.getElem?_append_right le_rfl,
    Nat.sub_self]
  rfl

/-- Every chunk is in the part of an entry. -/
theorem exists_split (g : Gguf) (off : Nat) : ∃ pre start fileOff rest,
    g.table = pre ++ (start, fileOff) :: rest ∧ start ≤ off ∧
      ∀ entry ∈ rest.head?, off < entry.1 := by
  have hsplit := List.takeWhile_append_dropWhile (p := fun e : Nat × Nat => decide (e.1 ≤ off))
    (l := g.table)
  obtain hnil | ⟨pre, last, hpre⟩ :=
    List.eq_nil_or_concat' (g.table.takeWhile fun e => decide (e.1 ≤ off))
  · exfalso
    have hstarts := g.starts
    cases htable : g.table with
    | nil => rw [htable] at hstarts; cases hstarts
    | cons entry table =>
      rw [htable] at hstarts hnil
      obtain hzero := Option.some.inj hstarts
      rw [List.takeWhile_cons, if_pos (decide_eq_true (hzero.le.trans (Nat.zero_le off)))] at hnil
      cases hnil
  · refine ⟨pre, last.1, last.2, g.table.dropWhile fun e => decide (e.1 ≤ off), ?_, ?_, ?_⟩
    · rw [hpre, List.append_assoc] at hsplit
      exact hsplit.symm
    · have hmem : last ∈ g.table.takeWhile fun e => decide (e.1 ≤ off) :=
        hpre ▸ List.mem_append_right _ List.mem_cons_self
      exact of_decide_eq_true (List.all_eq_true.mp List.all_takeWhile last hmem)
    · intro entry hentry
      have hhead := List.head?_dropWhile_not (fun e : Nat × Nat => decide (e.1 ≤ off)) g.table
      rw [Option.mem_def.mp hentry] at hhead
      simpa using hhead

/-! ## The loop -/

/-- Where the part of an entry ends. -/
def partEnd (g : Gguf) (rest : List (Nat × Nat)) : Nat := (rest.head?.map (·.1)).getD g.nChunks

/-- The chunks of one part, from `cur` on. -/
theorem mapM_readChunkBytes (htable : g.table = pre ++ (start, fileOff) :: rest) (hle : start ≤ cur)
    (hend : cur + n ≤ g.partEnd rest) :
    ((List.range' cur n).mapM g.readChunkBytes).map List.flatten =
      readExactAt g.file (32 * n) (fileOff + (cur - start) * 32) := by
  refine (readExactAt_mul hle ?_).symm
  intro c hc hlt
  apply readChunkBytes_of_split htable (hle.trans hc)
  intro entry hentry
  rw [partEnd, Option.mem_def.mp hentry] at hend
  exact Nat.lt_of_lt_of_le hlt hend

theorem partEnd_cons (htable : g.table = pre ++ (start, fileOff) :: entry :: rest) :
    g.partEnd (entry :: rest) = entry.1 ∧ entry.1 < g.partEnd rest := by
  refine ⟨rfl, ?_⟩
  have hasc := g.ascending
  rw [htable] at hasc
  cases rest with
  | nil =>
    apply g.below
    rw [htable]
    simp
  | cons next rest =>
    rw [List.map_append, List.map_cons, List.map_cons, List.map_cons, List.pairwise_append] at hasc
    exact List.rel_of_pairwise_cons (List.Pairwise.of_cons hasc.2.1) List.mem_cons_self

/-- The loop reads the chunks from a place in the part of an entry on. -/
theorem readChunkRangeLoop_eq (htable : g.table = pre ++ (start, fileOff) :: rest)
    (hle : start ≤ cur) (hlt : cur < g.partEnd rest) (hn : cur + n ≤ g.nChunks) :
    readChunkRangeLoop g.file g.nChunks ((start, fileOff) :: rest) cur (32 * n) =
      some (((List.range' cur n).mapM g.readChunkBytes).map List.flatten) := by
  induction rest generalizing pre start fileOff cur n with
  | nil =>
    have hpart := mapM_readChunkBytes (n := n) htable hle hn
    have hmin : min ((g.nChunks - cur) * 32) (32 * n) = 32 * n := by omega
    rw [readChunkRangeLoop]
    dsimp only [List.head?_nil, Option.map_none, Option.getD_none]
    rw [hmin, hpart]
    split
    · next hzero =>
      obtain rfl : n = 0 := by omega
      rfl
    · cases readExactAt g.file (32 * n) (fileOff + (cur - start) * 32) with
      | none => rfl
      | some bytes =>
        dsimp only
        rw [Nat.sub_self, readChunkRangeLoop, if_pos rfl, Option.map_some, Option.map_some,
          List.append_nil]
  | cons entry rest ih =>
    obtain ⟨hend, hnext⟩ := partEnd_cons htable
    have hcur : cur < entry.1 := hlt
    rw [readChunkRangeLoop]
    dsimp only [List.head?_cons, Option.map_some, Option.getD_some]
    split
    · next hzero =>
      obtain rfl : n = 0 := by omega
      rfl
    · -- the part of the entry, and what is behind it
      have htake : min ((entry.1 - cur) * 32) (32 * n) = 32 * min (entry.1 - cur) n := by omega
      have hm : cur + min (entry.1 - cur) n ≤ g.partEnd (entry :: rest) := by omega
      have hpart := mapM_readChunkBytes (n := min (entry.1 - cur) n) htable hle hm
      have hsplit : List.range' cur n = List.range' cur (min (entry.1 - cur) n) ++
          List.range' (cur + min (entry.1 - cur) n) (n - min (entry.1 - cur) n) := by
        rw [List.range'_append_1, Nat.add_sub_of_le (Nat.min_le_right ..)]
      have hrest : readChunkRangeLoop g.file g.nChunks (entry :: rest)
          (cur + min (entry.1 - cur) n) (32 * (n - min (entry.1 - cur) n)) =
          some (((List.range' (cur + min (entry.1 - cur) n)
            (n - min (entry.1 - cur) n)).mapM g.readChunkBytes).map List.flatten) := by
        rcases Nat.le_total n (entry.1 - cur) with hall | hmore
        · rw [Nat.min_eq_right hall, Nat.sub_self, Nat.mul_zero, readChunkRangeLoop, if_pos rfl]
          rfl
        · have hat : cur + min (entry.1 - cur) n = entry.1 := by omega
          rw [hat]
          refine @ih (pre ++ [(start, fileOff)]) _ _ _ _ ?_ le_rfl hnext (by omega)
          rw [htable, List.append_assoc]
          rfl
      rw [htake, Nat.mul_div_cancel_left _ (by decide), ← Nat.mul_sub, hrest, hsplit,
        List.mapM_append, ← hpart]
      cases (List.range' cur (min (entry.1 - cur) n)).mapM g.readChunkBytes with
      | none => rfl
      | some chunks =>
        cases (List.range' (cur + min (entry.1 - cur) n)
          (n - min (entry.1 - cur) n)).mapM g.readChunkBytes with
        | none => rfl
        | some chunks' => exact congrArg (some ∘ some) List.flatten_append.symm

/-- A range within the table is read like its chunks one by one. -/
theorem readChunkRange_eq (g : Gguf) (first n : Nat) (h : first + n ≤ g.nChunks) :
    g.readChunkRange first (32 * n) =
      some (((List.range' first n).mapM g.readChunkBytes).map List.flatten) := by
  have hmod : ¬32 * n % 32 ≠ 0 := by omega
  have hdiv : 32 * n / 32 = n := Nat.mul_div_cancel_left n (by decide)
  rw [readChunkRange, if_neg hmod, hdiv, if_neg (Nat.not_lt.mpr h)]
  obtain ⟨pre, start, fileOff, rest, htable, hle, hlt⟩ := exists_split g first
  rw [partitionPoint_eq htable hle hlt, htable, List.drop_left]
  by_cases hpart : first < g.partEnd rest
  · exact readChunkRangeLoop_eq htable hle hpart h
  · -- nothing is read behind the last chunk
    have hzero : n = 0 := by
      cases rest with
      | nil =>
        have hge : ¬first < g.nChunks := hpart
        omega
      | cons entry rest => exact absurd (hlt entry rfl) hpart
    subst hzero
    rw [readChunkRangeLoop, if_pos (Nat.mul_zero 32)]
    rfl

/-- Three tensors with gaps, of which the second has a ragged tail. -/
def synthetic : Gguf where
  file := (List.range 320).map UInt8.ofNat
  table := [(0, 3), (2, 70), (3, 124)]
  nChunks := 6
  starts := rfl
  ascending := by decide
  below := by decide

theorem readChunkRange_eq_synthetic : 1 + 3 ≤ synthetic.nChunks ∧
    synthetic.readChunkRange 1 (32 * 3) =
      some (((List.range' 1 3).mapM synthetic.readChunkBytes).map List.flatten) :=
  ⟨by decide, readChunkRange_eq synthetic 1 3 (by decide)⟩

end Gguf

/-! ## The table of a model -/

section

variable {file : List UInt8} {tensors : List (Nat × List UInt8)} {t : Nat × List UInt8}
  {p : List (Nat × Nat) × Nat} {chunks : List Bytes32} {c : Nat}

/-- What the loop over the tensors keeps: the entries ascend from zero, below the number of chunks,
and each entry reads the chunks of its part. -/
structure TableOf (file : List UInt8) (chunks : List Bytes32) (p : List (Nat × Nat) × Nat) : Prop where
  nChunks : p.2 = chunks.length
  starts : p.2 ≠ 0 → (p.1.map (·.1)).head? = some 0
  empty : p.2 = 0 → p.1 = []
  ascending : (p.1.map (·.1)).Pairwise (· < ·)
  below : ∀ entry ∈ p.1, entry.1 < p.2
  reads : ∀ pre start fileOff rest, p.1 = pre ++ (start, fileOff) :: rest → ∀ c, start ≤ c →
    c < (rest.head?.map (·.1)).getD p.2 → ∃ chunk, chunks[c]? = some chunk ∧
      readExactAt file 32 (fileOff + (c - start) * 32) = some chunk.toList

theorem length_chunksOf {bytes : List UInt8} : (chunksOf bytes).length = bytes.length / 32 := by
  rw [chunksOf, List.length_map, List.length_range]

/-- A chunk of a tensor that lies in the file. -/
theorem readExactAt_chunk (hfile : (file.drop t.1).take t.2.length = t.2) (hc : c < t.2.length / 32) :
    ∃ chunk, (chunksOf t.2)[c]? = some chunk ∧
      readExactAt file 32 (t.1 + c * 32) = some chunk.toList := by
  refine ⟨Vector.ofFn fun i => t.2.getD (c * 32 + i) 0, ?_, ?_⟩
  · rw [chunksOf, List.getElem?_map, List.getElem?_range hc]
    rfl
  · have hbytes : (file.drop (t.1 + c * 32)).take 32 = (t.2.drop (c * 32)).take 32 := by
      conv_rhs => rw [← hfile]
      rw [List.drop_take, List.drop_drop, List.take_take, Nat.min_eq_left (by omega)]
    have hlist : (t.2.drop (c * 32)).take 32 =
        (Vector.ofFn fun i : Fin 32 => t.2.getD (c * 32 + i) 0).toList := by
      apply List.ext_getElem
      · rw [List.length_take, List.length_drop, Vector.length_toList]
        omega
      · intro i hi hi'
        rw [Vector.length_toList] at hi'
        have hlt : c * 32 + i < t.2.length := by omega
        rw [List.getElem_take, List.getElem_drop, Vector.getElem_toList, Vector.getElem_ofFn,
          List.getD_eq_getElem?_getD, List.getElem?_eq_getElem hlt]
        rfl
    rw [readExactAt_eq_some, hbytes, hlist]
    exact ⟨rfl, Vector.length_toList⟩

theorem TableOf.push (h : TableOf file chunks p) (hfile : (file.drop t.1).take t.2.length = t.2) :
    TableOf file (chunks ++ chunksOf t.2) (pushTensor p (t.1, t.2.length)) := by
  have hlen : p.2 + t.2.length / 32 = (chunks ++ chunksOf t.2).length := by
    rw [List.length_append, length_chunksOf, h.nChunks]
  by_cases hfull : 0 < t.2.length / 32
  · have hpush : pushTensor p (t.1, t.2.length) =
        (p.1 ++ [(p.2, t.1)], p.2 + t.2.length / 32) := by
      rw [pushTensor]
      dsimp only
      rw [if_pos hfull]
    rw [hpush]
    exact {
      nChunks := hlen
      starts := by
        intro _
        by_cases hzero : p.2 = 0
        · rw [h.empty hzero, hzero]
          rfl
        · rw [List.map_append, List.head?_append, h.starts hzero]
          rfl
      empty := by
        intro hzero
        dsimp only at hzero
        omega
      ascending := by
        rw [List.map_append, List.pairwise_append]
        refine ⟨h.ascending, List.pairwise_singleton .., ?_⟩
        intro start hstart start' hstart'
        obtain ⟨entry, hentry, rfl⟩ := List.mem_map.mp hstart
        obtain rfl := List.mem_singleton.mp hstart'
        exact h.below entry hentry
      below := by
        intro entry hentry
        obtain hentry | hentry := List.mem_append.mp hentry
        · exact (h.below entry hentry).trans_le (Nat.le_add_right ..)
        · obtain rfl := List.mem_singleton.mp hentry
          exact Nat.lt_add_of_pos_right hfull
      reads := by
        intro pre start fileOff rest htable c hle hlt
        obtain rfl | ⟨rest', last, rfl⟩ := List.eq_nil_or_concat' rest
        · -- the new tensor
          obtain ⟨rfl, hlast⟩ := List.append_inj' htable rfl
          obtain ⟨rfl, rfl⟩ := Prod.mk.inj (List.singleton_inj.mp hlast)
          have hlt' : c < p.2 + t.2.length / 32 := hlt
          obtain ⟨chunk, hchunk, hread⟩ := readExactAt_chunk (c := c - p.2) hfile (by omega)
          refine ⟨chunk, ?_, hread⟩
          rw [List.getElem?_append_right (h.nChunks ▸ hle), ← h.nChunks, hchunk]
        · rw [← List.cons_append, ← List.append_assoc] at htable
          obtain ⟨htable', hlast⟩ := List.append_inj' htable rfl
          obtain rfl := List.singleton_inj.mp hlast
          have hlt' : c < (rest'.head?.map (·.1)).getD p.2 := by
            cases rest' with
            | nil => exact hlt
            | cons entry rest' => exact hlt
          obtain ⟨chunk, hchunk, hread⟩ := h.reads pre start fileOff rest' htable' c hle hlt'
          obtain ⟨hclt, -⟩ := List.getElem?_eq_some_iff.mp hchunk
          exact ⟨chunk, by rw [List.getElem?_append_left hclt, hchunk], hread⟩ }
  · have hzero : t.2.length / 32 = 0 := Nat.eq_zero_of_not_pos hfull
    have hnil : chunksOf t.2 = [] := List.eq_nil_of_length_eq_zero (length_chunksOf.trans hzero)
    have hpush : pushTensor p (t.1, t.2.length) = p := by
      rw [pushTensor]
      dsimp only
      rw [if_neg hfull, hzero]
      rfl
    rw [hpush, hnil, List.append_nil]
    exact h

theorem TableOf.foldl (h : TableOf file chunks p)
    (hfile : ∀ t ∈ tensors, (file.drop t.1).take t.2.length = t.2) :
    TableOf file (chunks ++ tensors.flatMap fun t => chunksOf t.2)
      (tensors.foldl (fun p t => pushTensor p (t.1, t.2.length)) p) := by
  induction tensors generalizing chunks p with
  | nil =>
    rw [List.flatMap_nil, List.append_nil]
    exact h
  | cons t tensors ih =>
    obtain ⟨ht, hrest⟩ := List.forall_mem_cons.mp hfile
    rw [List.flatMap_cons, ← List.append_assoc]
    exact ih (h.push ht) hrest

theorem tableOf_nil : TableOf file [] ([], 0) :=
  ⟨rfl, nofun, fun _ => rfl, .nil, nofun, by simp⟩

end

namespace Gguf

variable {file : List UInt8} {tensors : List (Nat × List UInt8)}

/-- The table that `build_from_gguf` makes of tensors at their offsets in the file. -/
def ofTensors (file : List UInt8) (tensors : List (Nat × List UInt8))
    (hfile : ∀ t ∈ tensors, (file.drop t.1).take t.2.length = t.2) : Option Gguf :=
  let p := tensors.foldl (fun p t => pushTensor p (t.1, t.2.length)) ([], 0)
  have h : TableOf file _ p := tableOf_nil.foldl hfile
  if hzero : p.2 = 0 then none
  else some ⟨file, p.1, p.2, h.starts hzero, h.ascending, h.below⟩

theorem tableOf_ofTensors {g : Gguf}
    {hfile : ∀ t ∈ tensors, (file.drop t.1).take t.2.length = t.2}
    (h : ofTensors file tensors hfile = some g) :
    g.file = file ∧ TableOf file (tensors.flatMap fun t => chunksOf t.2) (g.table, g.nChunks) := by
  rw [ofTensors] at h
  split at h
  · cases h
  · obtain rfl := Option.some.inj h
    exact ⟨rfl, tableOf_nil.foldl hfile⟩

/-- The table reads the chunks of the index. -/
theorem readChunkBytes_eq {blake : List UInt8 → Bytes32} {idx : WeightIndex} {g : Gguf} {off : Nat}
    {hfile : ∀ t ∈ tensors, (file.drop t.1).take t.2.length = t.2}
    (hbuild : WeightIndex.build blake (tensors.map (·.2)) = some idx)
    (h : ofTensors file tensors hfile = some g) (hoff : off < g.nChunks) :
    g.readChunkBytes off = some (idx.readChunkBytes off).toList := by
  obtain ⟨hfile', htable⟩ := tableOf_ofTensors h
  have hchunks : idx.chunks = tensors.flatMap fun t => chunksOf t.2 := by
    have hne : (tensors.map (·.2)).flatMap chunksOf ≠ [] := by
      rw [List.flatMap_map, ← List.length_pos_iff, ← htable.nChunks]
      exact Nat.zero_lt_of_lt hoff
    rw [WeightIndex.build_of_ne_nil hne, Option.some_inj, List.flatMap_map] at hbuild
    rw [← hbuild]
    rfl
  obtain ⟨pre, start, fileOff, rest, hsplit, hle, hlt⟩ := exists_split g off
  have hend : off < (rest.head?.map (·.1)).getD g.nChunks := by
    cases rest with
    | nil => exact hoff
    | cons entry rest => exact hlt entry rfl
  obtain ⟨chunk, hchunk, hread⟩ := htable.reads pre start fileOff rest hsplit off hle hend
  rw [readChunkBytes_of_split hsplit hle hlt, hfile', hread, WeightIndex.readChunkBytes, hchunks,
    List.getD_eq_getElem?_getD, hchunk]
  rfl

end Gguf

end KeryxMiner.Pom
