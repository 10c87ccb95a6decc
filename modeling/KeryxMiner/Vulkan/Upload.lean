import KeryxMiner.Blocks
import KeryxMiner.ByteMemory
import KeryxMiner.Pom.Ranges
import KeryxMiner.Pom.Steps
import KeryxMiner.Vulkan.MineAgrees

/-!
# The weights and the pad in the memory of the device

A buffer of the device is filled through a staging window, whose bytes come from the model file, and
the weights lie in such buffers, one for each shard of them. The pad is filled on the device, entry by
entry. When that is done the memory has each chunk of the index where the table of the walk says
(`Streamed.resident`), and each entry of the pad (`PadFilled.loaded`).
-/

namespace KeryxMiner.Vulkan

open Pom ByteMemory

/-! ## Chunks in memory -/

/-- The words of the chunk at an address. -/
def chunkAt (m : Nat → UInt8) (a : Nat) : ChunkWords :=
  (word64 (read m a 8), word64 (read m (a + 8) 8), word64 (read m (a + 16) 8),
    word64 (read m (a + 24) 8))

theorem wordBytes_word64 {m : Nat → UInt8} {a : Nat} : wordBytes (word64 (read m a 8)) = read m a 8 := by
  have hlen : (read m a 8).length = 8 := length_read
  have hbytes := toLe_ofLe (read m a 8)
  have hlt := ofLe_lt (read m a 8)
  rw [hlen] at hbytes hlt
  rw [wordBytes, word64, List.take_of_length_le hlen.le, UInt64.toNat_ofNat_of_lt' hlt, hbytes]

theorem chunkBytes_chunkAt {m : Nat → UInt8} {a : Nat} {bytes : List UInt8} (h : Holds m (a, bytes))
    (hlen : bytes.length = 32) : chunkBytes (chunkAt m a) = bytes := by
  have hread : read m a 32 = bytes := hlen ▸ h
  have hsplit : List.range 32 = List.range 8 ++ (List.range 8).map (8 + ·) ++
      (List.range 8).map (16 + ·) ++ (List.range 8).map (24 + ·) := by decide
  rw [← hread, chunkAt, chunkBytes, wordBytes_word64, wordBytes_word64, wordBytes_word64,
    wordBytes_word64]
  simp only [ByteMemory.read, hsplit]
  simp only [List.map_append, List.map_map, Function.comp_def, Nat.add_assoc]

/-! ## A streamed buffer -/

def STAGING_BYTES : Nat := 256 * 1024 * 1024

/-- The copies into a buffer of `size` bytes at `addr`, from byte `done` on; `fill` is asked for the
bytes of each window. -/
def streamCopies (fill : Nat → Nat → Option (List UInt8)) (addr size done : Nat) :
    Option (List (Nat × List UInt8)) :=
  if done < size then do
    let len := min (size - done) (min size STAGING_BYTES)
    let window ← fill done len
    let copies ← streamCopies fill addr size (done + len)
    some ((addr + done, window) :: copies)
  else some []
termination_by size - done
decreasing_by
  have hpos : 0 < STAGING_BYTES := by decide
  omega

/-- The copies make the buffer out of its contents, and are made nowhere else. -/
theorem streamCopies_spec {fill : Nat → Nat → Option (List UInt8)} {addr size done : Nat}
    {content : List UInt8} {copies : List (Nat × List UInt8)} (hdvd : 32 ∣ size) (hdone : 32 ∣ done)
    (hle : done ≤ size) (hlen : content.length = size)
    (hfill : ∀ off len bytes, 32 ∣ off → 32 ∣ len → off + len ≤ size → fill off len = some bytes →
      bytes = (content.drop off).take len)
    (h : streamCopies fill addr size done = some copies) :
    (∀ w ∈ copies, (regionOf w).Within ⟨addr + done, size - done⟩) ∧
      ∀ m, Holds (writeAll m copies) (addr + done, content.drop done) := by
  induction done using streamCopies.induct size generalizing copies with
  | case1 done hlt len =>
    rename_i ih
    have hlenEq : len = min (size - done) (min size STAGING_BYTES) := rfl
    have hstage : 32 ∣ STAGING_BYTES := by decide
    have hwindow : 32 ∣ len := by omega
    have hfits : done + len ≤ size := by omega
    rw [streamCopies, if_pos hlt] at h
    simp only [Option.bind_eq_bind, Option.bind_eq_some_iff] at h
    obtain ⟨window, hwin, rest, hrest, h⟩ := h
    obtain rfl := Option.some.inj h
    obtain ⟨hwithin, hholds⟩ := ih (by omega) hfits hrest
    obtain rfl := hfill done len window hdone hwindow hfits hwin
    have hwlen : ((content.drop done).take len).length = len := by
      rw [List.length_take, List.length_drop]
      omega
    have hregion : regionOf (addr + done, (content.drop done).take len) = ⟨addr + done, len⟩ := by
      rw [regionOf, hwlen]
    refine ⟨?_, fun m => ?_⟩
    · rw [List.forall_mem_cons, hregion]
      refine ⟨⟨le_rfl, by dsimp only; omega⟩, fun w hw => ?_⟩
      have hw' := hwithin w hw
      simp only [Region.Within] at *
      omega
    · rw [writeAll, List.foldl_cons]
      -- the window stays, since the other copies lie behind it
      have hfirst : Holds (writeAll (write m (addr + done, (content.drop done).take len)) rest)
          (addr + done, (content.drop done).take len) := by
        refine holds_write.writeAll fun w hw => ?_
        have hw' := hwithin w hw
        rw [hregion]
        simp only [Region.Within, Region.Apart] at *
        omega
      have hback : Holds (writeAll (write m (addr + done, (content.drop done).take len)) rest)
          (addr + done + ((content.drop done).take len).length, content.drop (done + len)) := by
        rw [hwlen, Nat.add_assoc]
        exact hholds _
      have hjoin := hfirst.append hback
      rwa [← List.drop_drop, List.take_append_drop] at hjoin
  | case2 done hge =>
    rw [streamCopies, if_neg hge] at h
    obtain rfl := Option.some.inj h
    refine ⟨List.forall_mem_nil _, fun m => ?_⟩
    rw [List.drop_eq_nil_of_le (by omega), Holds]
    rfl

/-! ## The weights -/

/-- An index with the model file that it reads its chunks from. -/
structure SourcedIndex extends WeightIndex where
  source : Gguf
  nChunks_source : source.nChunks = nChunks
  reads : ∀ off < nChunks, source.readChunkBytes off = some (toWeightIndex.readChunkBytes off).toList

theorem chunks_of_build {blake : List UInt8 → Bytes32} {tensors : List (List UInt8)} {idx : WeightIndex}
    (h : WeightIndex.build blake tensors = some idx) :
    idx.chunks = tensors.flatMap chunksOf ∧ idx.nChunks = (tensors.flatMap chunksOf).length := by
  by_cases hne : tensors.flatMap chunksOf = []
  · rw [WeightIndex.build, hne] at h
    cases h
  · rw [WeightIndex.build_of_ne_nil hne] at h
    cases h
    exact ⟨rfl, List.length_map _⟩

theorem nChunks_ofTensors {blake : List UInt8 → Bytes32} {file : List UInt8}
    {tensors : List (Nat × List UInt8)} {idx : WeightIndex} {g : Gguf}
    {hfile : ∀ t ∈ tensors, (file.drop t.1).take t.2.length = t.2}
    (hidx : WeightIndex.build blake (tensors.map (·.2)) = some idx)
    (hg : Gguf.ofTensors file tensors hfile = some g) : g.nChunks = idx.nChunks := by
  rw [(chunks_of_build hidx).2, List.flatMap_map]
  exact (Gguf.tableOf_ofTensors hg).2.nChunks

/-- `build_from_gguf` for a file and the places of its tensors in the order of their names. -/
def buildFromGguf (blake : List UInt8 → Bytes32) (file : List UInt8) (places : List (Nat × Nat)) :
    Option SourcedIndex :=
  let tensors := places.map fun p => (p.1, (file.drop p.1).take p.2)
  have hfile : ∀ t ∈ tensors, (file.drop t.1).take t.2.length = t.2 := by
    intro t ht
    obtain ⟨p, -, rfl⟩ := List.mem_map.mp ht
    rw [List.length_take, ← List.take_take, List.take_length]
  if places.all fun p => decide (p.1 + p.2 ≤ file.length) then
    match hidx : WeightIndex.build blake (tensors.map (·.2)), hg : Gguf.ofTensors file tensors hfile with
    | some idx, some g =>
      some
        { idx with
          source := g
          nChunks_source := nChunks_ofTensors hidx hg
          reads := fun _ hoff =>
            Gguf.readChunkBytes_eq hidx hg (hoff.trans_eq (nChunks_ofTensors hidx hg).symm) }
    | _, _ => none
  else none

theorem built_of_buildFromGguf {blake : List UInt8 → Bytes32} {file : List UInt8}
    {places : List (Nat × Nat)} {ix : SourcedIndex} (h : buildFromGguf blake file places = some ix) :
    ix.Built blake := by
  simp only [buildFromGguf] at h
  split at h
  · split at h
    · next hidx _ =>
      obtain rfl := Option.some.inj h
      exact WeightIndex.build_built hidx
    · cases h
  · cases h

/-- Chunks in a shard of a buffer. -/
def SHARD_CHUNKS : Nat := 1 <<< 25

section

variable (nChunks shardChunks : Nat)

def nShards : Nat := (nChunks + shardChunks - 1) / shardChunks

def shardStart (s : Nat) : Nat := min (s * shardChunks) nChunks

def shardBytes (s : Nat) : Nat := (shardStart nChunks shardChunks (s + 1) - s * shardChunks) * 32

def shardPrefix : List Nat :=
  (List.range (nShards nChunks shardChunks + 1)).map (shardStart nChunks shardChunks)

/-- The copies that fill shard `s`. -/
def shardCopies (g : Gguf) (s addr : Nat) : Option (List (Nat × List UInt8)) :=
  streamCopies (fun off len => (g.readChunkRange (s * shardChunks + off / 32) len).join) addr
    (shardBytes nChunks shardChunks s) 0

end

theorem shardCopies_spec {ix : SourcedIndex} {shardChunks s addr : Nat}
    {copies : List (Nat × List UInt8)}
    (hs : s * shardChunks ≤ ix.nChunks)
    (h : shardCopies ix.nChunks shardChunks ix.source s addr = some copies) :
    (∀ w ∈ copies, (regionOf w).Within ⟨addr, shardBytes ix.nChunks shardChunks s⟩) ∧
      ∀ m c, s * shardChunks ≤ c → c < shardStart ix.nChunks shardChunks (s + 1) →
        Holds (writeAll m copies)
          (addr + (c - s * shardChunks) * 32, (ix.readChunkBytes c).toList) := by
  have hchunk (c : Nat) : (ix.readChunkBytes c).toList.length = 32 := Vector.length_toList
  have hsize : shardBytes ix.nChunks shardChunks s =
      (shardStart ix.nChunks shardChunks (s + 1) - s * shardChunks) * 32 := rfl
  have hend : shardStart ix.nChunks shardChunks (s + 1) ≤ ix.nChunks := Nat.min_le_right ..
  rw [shardCopies, hsize] at h
  rw [hsize]
  generalize shardStart ix.nChunks shardChunks (s + 1) = fin at *
  generalize s * shardChunks = first at *
  let content := (List.range (fin - first)).flatMap fun i => (ix.readChunkBytes (first + i)).toList
  have hlen : content.length = (fin - first) * 32 := length_flatMap_range fun i _ => hchunk (first + i)
  have hfill (off len : Nat) (bytes : List UInt8) (hoff : 32 ∣ off) (hdvd : 32 ∣ len)
      (hle : off + len ≤ (fin - first) * 32)
      (hread : (ix.source.readChunkRange (first + off / 32) len).join = some bytes) :
      bytes = (content.drop off).take len := by
    obtain ⟨o, rfl⟩ := hoff
    obtain ⟨k, rfl⟩ := hdvd
    have hfits : first + o + k ≤ ix.source.nChunks := by
      rw [ix.nChunks_source]
      omega
    have hreads : ∀ c ∈ List.range' (first + o) k,
        ix.source.readChunkBytes c = some (ix.readChunkBytes c).toList := by
      intro c hc
      have hc := (List.mem_range'_1.mp hc).2
      exact ix.reads c (by rw [ix.nChunks_source] at hfits; omega)
    rw [Nat.mul_div_cancel_left o (by decide), Gguf.readChunkRange_eq _ _ _ hfits,
      WeightIndex.mapM_some hreads] at hread
    obtain rfl := Option.some.inj hread
    rw [Nat.mul_comm 32 o, Nat.mul_comm 32 k, slice_flatMap (fun i _ => hchunk (first + i)) (by omega),
      List.range'_eq_map_range, List.map_map, ← List.flatMap_def]
    simp only [Function.comp_def, Nat.add_assoc]
  obtain ⟨hwithin, hholds⟩ := streamCopies_spec (Nat.dvd_mul_left ..) (Nat.dvd_zero 32) (Nat.zero_le _)
    hlen hfill h
  refine ⟨hwithin, fun m c hfirst hc => ?_⟩
  have hslice := (hholds m).slice (i := (c - first) * 32) (n := 32)
  have hblock : block 32 content (c - first) = _ :=
    block_flatMap (fun i _ => hchunk (first + i)) (by omega)
  rw [Nat.add_sub_cancel' hfirst] at hblock
  rwa [List.drop_zero, ← block, hblock] at hslice

/-- The shards at `addrs` have been streamed: their chunks are in the memory. -/
def Streamed (m : Nat → UInt8) (shards : List Region) (ix : SourcedIndex) (shardChunks : Nat)
    (addrs : List Nat) : Prop :=
  ∀ s a c, addrs[s]? = some a → s * shardChunks ≤ c → c < shardStart ix.nChunks shardChunks (s + 1) →
    Kept m shards (a + (c - s * shardChunks) * 32, (ix.readChunkBytes c).toList)

section

variable {m m' : Nat → UInt8} {shards : List Region} {ix : SourcedIndex} {shardChunks : Nat}
  {addrs : List Nat}

theorem Streamed.congr (h : Streamed m shards ix shardChunks addrs)
    (hsame : ∀ r ∈ shards, ∀ x, r.Has x → m' x = m x) : Streamed m' shards ix shardChunks addrs :=
  fun s a c ha hs hc => (h s a c ha hs hc).congr hsame

theorem Streamed.frame {ws : List (Nat × List UInt8)} (h : Streamed m shards ix shardChunks addrs)
    (hapart : ∀ w ∈ ws, ∃ r, (regionOf w).Within r ∧ ∀ r' ∈ shards, Region.Apart r' r) :
    Streamed (writeAll m ws) shards ix shardChunks addrs :=
  fun s a c ha hs hc => (h s a c ha hs hc).writeAll hapart

theorem Streamed.push {addr : Nat} {copies : List (Nat × List UInt8)}
    (h : Streamed m shards ix shardChunks addrs) (hmore : addrs.length * shardChunks ≤ ix.nChunks)
    (hcopies : shardCopies ix.nChunks shardChunks ix.source addrs.length addr = some copies)
    (hapart : ∀ r ∈ shards, r.Apart ⟨addr, shardBytes ix.nChunks shardChunks addrs.length⟩) :
    Streamed (writeAll m copies)
      (shards ++ [⟨addr, shardBytes ix.nChunks shardChunks addrs.length⟩]) ix shardChunks
      (addrs ++ [addr]) := by
  obtain ⟨hwithin, hholds⟩ := shardCopies_spec hmore hcopies
  intro s a c ha hstart hend
  by_cases hs : s < addrs.length
  · rw [List.getElem?_append_left hs] at ha
    refine ((h s a c ha hstart hend).writeAll fun w hw => ⟨_, hwithin w hw, hapart⟩).mono ?_
    exact fun r hr => List.mem_append_left _ hr
  · rw [List.getElem?_append_right (Nat.le_of_not_lt hs), List.getElem?_singleton] at ha
    split at ha
    · next hzero =>
      obtain rfl : s = addrs.length := by omega
      obtain rfl := Option.some.inj ha
      refine ⟨⟨_, List.mem_append_right _ List.mem_cons_self, ?_⟩, hholds m c hstart hend⟩
      have hchunk : (ix.readChunkBytes c).toList.length = 32 := Vector.length_toList
      simp only [Region.Within, regionOf, hchunk, shardBytes]
      omega
    · cases ha

/-- When all the shards have been streamed, the table has every chunk of the index. -/
theorem Streamed.resident {T : SegTable} (h : Streamed m shards ix shardChunks addrs)
    (hpos : 0 < shardChunks) (hstarts : T.starts = shardPrefix ix.nChunks shardChunks)
    (haddrs : T.addrs = addrs) : Resident (chunkAt m) ix.toWeightIndex T := by
  have hlen : addrs.length = nShards ix.nChunks shardChunks := by
    have htable := T.length_starts
    rw [hstarts, haddrs, shardPrefix, List.length_map, List.length_range] at htable
    omega
  have hall : ix.nChunks ≤ nShards ix.nChunks shardChunks * shardChunks := by
    have hdiv := Nat.lt_mul_div_succ (ix.nChunks + shardChunks - 1) hpos
    rw [nShards, Nat.mul_comm]
    rw [Nat.mul_succ] at hdiv
    omega
  have hbelow (s : Nat) (hs : s < addrs.length) : s * shardChunks < ix.nChunks := by
    have hmul := Nat.mul_le_mul_right shardChunks (Nat.succ_le_of_lt (hlen ▸ hs))
    have hdiv := Nat.div_mul_le_self (ix.nChunks + shardChunks - 1) shardChunks
    rw [← nShards] at hdiv
    rw [Nat.succ_mul] at hmul
    omega
  have hlast : T.starts.getLastD 0 = ix.nChunks := by
    rw [hstarts, shardPrefix, List.range_succ, List.map_append, List.map_singleton,
      List.getLastD_concat, shardStart, Nat.min_eq_right hall]
  have hstart (s : Nat) (hs : s ≤ addrs.length) : T.start s = shardStart ix.nChunks shardChunks s := by
    rw [SegTable.start, startAt, hstarts, shardPrefix, List.getD_eq_getElem _ _ (by simp; omega),
      List.getElem_map, List.getElem_range]
  refine ⟨hlast, fun s a c ha hc hend => ?_⟩
  rw [haddrs] at ha
  have hs := (List.getElem?_eq_some_iff.mp ha).1
  have hfirst : T.start s = s * shardChunks :=
    (hstart s hs.le).trans (Nat.min_eq_left (hbelow s hs).le)
  rw [hstart (s + 1) hs] at hend
  rw [hfirst] at hc ⊢
  exact chunkBytes_chunkAt (h s a c ha hc hend).holds Vector.length_toList

end

/-! ## The pad -/

def PadV5.regions (pad : PadV5) : List Region := pad.segs.map fun seg => ⟨seg.1, seg.2 * 32⟩

section

variable {segs : List (Nat × Nat)} {e e' a a' : Nat}

theorem padAddress_within (h : padAddress segs e = some a) :
    ∃ seg ∈ segs, Region.Within ⟨a, 32⟩ ⟨seg.1, seg.2 * 32⟩ := by
  induction segs generalizing e with
  | nil => cases h
  | cons seg segs ih =>
    rw [padAddress] at h
    split at h
    · next hlt =>
      obtain rfl := Option.some.inj h
      refine ⟨seg, List.mem_cons_self, ?_⟩
      simp only [Region.Within]
      omega
    · obtain ⟨seg', hseg, hin⟩ := ih h
      exact ⟨seg', List.mem_cons_of_mem _ hseg, hin⟩

/-- Two entries of the pad do not overlap. -/
theorem padAddress_apart
    (hsegs : (segs.map fun seg => (⟨seg.1, seg.2 * 32⟩ : Region)).Pairwise Region.Apart)
    (h : padAddress segs e = some a) (h' : padAddress segs e' = some a') (hlt : e < e') :
    Region.Apart ⟨a, 32⟩ ⟨a', 32⟩ := by
  induction segs generalizing e e' with
  | nil => cases h
  | cons seg segs ih =>
    rw [List.map_cons, List.pairwise_cons] at hsegs
    rw [padAddress] at h h'
    split at h
    · next he =>
      obtain rfl := Option.some.inj h
      split at h'
      · obtain rfl := Option.some.inj h'
        simp only [Region.Apart]
        omega
      · obtain ⟨seg', hseg, hin⟩ := padAddress_within h'
        refine (hsegs.1 _ (List.mem_map_of_mem hseg)).within ?_ hin
        simp only [Region.Within]
        omega
    · rw [if_neg (by omega)] at h'
      exact ih hsegs.2 h h' (by omega)

end

section

variable {m : Nat → UInt8} {alloc : Nat → Option Nat} {w : PadWords} {p : Nat} {pad : PadV5}
  {pushes : List FillPush}

theorem fillWrites_spec (h : PadV5.fill alloc w p = some (pad, pushes))
    (hpad : pad.regions.Pairwise Region.Apart) :
    ∀ v ∈ pushes.flatMap fillWrites, v.2.length = 32 ∧ (∃ r ∈ pad.regions, (regionOf v).Within r) ∧
      ∀ v' ∈ pushes.flatMap fillWrites, v' = v ∨ (regionOf v).Apart (regionOf v') := by
  obtain ⟨-, -, hwrites⟩ := fill_eq_some h
  rintro ⟨a, bytes⟩ hv
  obtain ⟨e, he, hentry⟩ := (hwrites a bytes).mp hv
  have hlen : bytes.length = 32 := hentry ▸ length_padEntry
  have hregion : regionOf (a, bytes) = ⟨a, 32⟩ := congrArg (Region.mk a) hlen
  refine ⟨hlen, ?_, ?_⟩
  · obtain ⟨seg, hseg, hin⟩ := padAddress_within he
    rw [hregion]
    exact ⟨_, List.mem_map_of_mem hseg, hin⟩
  · rintro ⟨a', bytes'⟩ hv'
    obtain ⟨e', he', hentry'⟩ := (hwrites a' bytes').mp hv'
    have hlen' : bytes'.length = 32 := hentry' ▸ length_padEntry
    have hregion' : regionOf (a', bytes') = ⟨a', 32⟩ := congrArg (Region.mk a') hlen'
    rw [hregion, hregion']
    rcases Nat.lt_trichotomy e e' with hlt | rfl | hgt
    · exact .inr (padAddress_apart hpad he he' hlt)
    · exact .inl (by rw [Option.some.inj (he'.symm.trans he), ← hentry, ← hentry'])
    · exact .inr (padAddress_apart hpad he' he hgt).symm

/-- What the dispatches of `done` have written is in the memory. -/
def PadFilled (m : Nat → UInt8) (pad : PadV5) (done : List FillPush) : Prop :=
  ∀ v ∈ done.flatMap fillWrites, Kept m pad.regions v

/-- The dispatches may run in any order, and each of them its invocations. -/
theorem padFilled_writeAll {ws : List (Nat × List UInt8)}
    (hfill : PadV5.fill alloc w p = some (pad, pushes)) (hpad : pad.regions.Pairwise Region.Apart)
    (hws : ws.Perm (pushes.flatMap fillWrites)) : PadFilled (writeAll m ws) pad pushes := by
  intro v hv
  obtain ⟨-, hwithin, hapart⟩ := fillWrites_spec hfill hpad v hv
  exact ⟨hwithin, holds_writeAll (.inl (hws.mem_iff.mpr hv)) fun u hu =>
    hapart u (hws.mem_iff.mp hu)⟩

/-- When all of its dispatches have run, the pad is loaded. -/
theorem PadFilled.loaded {padSeed : Bytes32} {T : SegTable} {walk : PomWalkV4}
    (h : PadFilled m pad pushes)
    (hfill : PadV5.fill alloc (v5PadSeedWords padSeed) p = some (pad, pushes))
    (hpad : pad.regions.Pairwise Region.Apart)
    (hwalk : PomWalkV4.withKernelV5 T.starts T.addrs pad = some walk) :
    Loaded (chunkAt m) T padSeed p walk :=
  .pad hfill (fun v hv => chunkBytes_chunkAt (h v hv).holds (fillWrites_spec hfill hpad v hv).1) hwalk

end

end KeryxMiner.Vulkan
