import KeryxMiner.Trace.ChainLog

/-!
# Placing a chain in the log

`place_chain_after` as it runs: one loop pulls the blocks to be placed out of the log and finds where
the rest is split, another inserts them one by one. It is `placeChainAfter` (`placeChain_eq`), and
from a log without repetition it gives one that has the old and the new blocks in the right order
with their scores (`placeChain_right`).
-/

namespace KeryxMiner.Trace

/-- What the first loop has of the log: the blocks not pulled out, where they are split, and the
scores of those pulled out. -/
structure Pulled where
  kept : List ChainEntry
  split : Nat
  known : String → Option (Option Nat)

/-- The loop over the entries from number `i` on. -/
def pullLoop (pos : Option Nat) (added : List String) : Nat → List ChainEntry → Pulled → Pulled
  | _, [], p => p
  | i, e :: es, p =>
    if e.hash ∈ added then
      pullLoop pos added (i + 1) es { p with known := Function.update p.known e.hash (some e.daa) }
    else
      let kept := p.kept ++ [e]
      pullLoop pos added (i + 1) es
        { p with kept, split := if pos = some i then kept.length else p.split }

/-- The loop over the blocks to be placed, from number `k` on. -/
def insertLoop (split : Nat) : Nat → List String → (String → Option (Option Nat)) →
    List ChainEntry → List String → List ChainEntry × List String
  | _, [], _, kept, unknown => (kept, unknown)
  | k, hash :: hashes, known, kept, unknown =>
    let daa := (known hash).join
    insertLoop split (k + 1) hashes (Function.update known hash none)
      (kept.insertIdx (split + k) ⟨hash, daa⟩)
      (if daa.isNone then unknown ++ [hash] else unknown)

def placeChain (log : List ChainEntry) (start : String) (added : List String) :
    List ChainEntry × List String :=
  let pos := log.findIdx? (·.hash == start)
  let p := pullLoop pos added 0 log ⟨[], 0, fun _ => none⟩
  let split := if pos.isNone then p.kept.length else p.split
  insertLoop split 0 added p.known p.kept []

variable {log es pre post : List ChainEntry} {start : String} {added unknown : List String}
  {pos : Option Nat} {p : Pulled} {i j k split : Nat}

/-! ## The loops -/

theorem pullLoop_kept : (pullLoop pos added i es p).kept = p.kept ++ es.filter (·.hash ∉ added) := by
  induction es generalizing i p with
  | nil => exact (List.append_nil _).symm
  | cons e es ih =>
    rw [pullLoop]
    split
    · next h =>
      rw [ih, List.filter_cons_of_neg (by simpa using h)]
    · next h =>
      rw [ih, List.filter_cons_of_pos (by simpa using h), List.append_assoc]
      rfl

/-- The last entry of a block that is pulled out gives its score. -/
theorem pullLoop_known {hash : String} (h : hash ∈ added) : (pullLoop pos added i es p).known hash =
    ((es.reverse.find? (·.hash == hash)).map (·.daa)).or (p.known hash) := by
  induction es generalizing i p with
  | nil => rfl
  | cons e es ih =>
    rw [pullLoop, List.reverse_cons, List.find?_append]
    by_cases hhash : e.hash = hash
    · have hlast : [e].find? (·.hash == hash) = some e := by simp [hhash]
      rw [if_pos (hhash ▸ h), ih, hlast, hhash]
      dsimp only
      rw [Function.update_self]
      cases es.reverse.find? (·.hash == hash) <;> rfl
    · have hlast : [e].find? (·.hash == hash) = none := by simp [hhash]
      rw [hlast, Option.or_none]
      split
      · rw [ih]
        dsimp only
        rw [Function.update_of_ne (Ne.symm hhash)]
      · rw [ih]

/-- Away from the position looked for, the split stays. -/
theorem pullLoop_split_of_lt (h : ∀ j ∈ pos, j < i) : (pullLoop pos added i es p).split = p.split := by
  induction es generalizing i p with
  | nil => rfl
  | cons e es ih =>
    have hnext : ∀ j ∈ pos, j < i + 1 := fun j hj => Nat.lt_succ_of_lt (h j hj)
    have hne : pos ≠ some i := fun heq => absurd (h i heq) (Nat.lt_irrefl i)
    rw [pullLoop]
    split
    · rw [ih hnext]
    · rw [ih hnext]

/-- It stays when the block at the position is pulled out. -/
theorem pullLoop_split_of_added {e : ChainEntry} (hj : es[j]? = some e) (he : e.hash ∈ added) :
    (pullLoop (some (i + j)) added i es p).split = p.split := by
  induction es generalizing i j p with
  | nil => cases hj
  | cons e' es ih =>
    cases j with
    | zero =>
      cases hj
      rw [pullLoop, if_pos he, pullLoop_split_of_lt (by simp)]
    | succ j =>
      have hij : i + (j + 1) = i + 1 + j := by omega
      have hne : some (i + 1 + j) ≠ some i := by simp; omega
      rw [pullLoop, hij]
      split
      · rw [ih hj]
      · rw [ih hj]

/-- The split is behind the block at the position, if that stays. -/
theorem pullLoop_split {e : ChainEntry} (hj : es[j]? = some e) (he : e.hash ∉ added) :
    (pullLoop (some (i + j)) added i es p).split =
      p.kept.length + ((es.take (j + 1)).filter (·.hash ∉ added)).length := by
  induction es generalizing i j p with
  | nil => cases hj
  | cons e' es ih =>
    cases j with
    | zero =>
      cases hj
      rw [pullLoop, if_neg he, pullLoop_split_of_lt (by simp)]
      simp [he]
    | succ j =>
      have hij : i + (j + 1) = i + 1 + j := by omega
      rw [pullLoop, hij, List.take_succ_cons]
      split
      · next h =>
        rw [ih hj, List.filter_cons_of_neg (by simpa using h)]
      · next h =>
        rw [ih hj, List.filter_cons_of_pos (by simpa using h), List.length_append, List.length_cons,
          List.length_nil, List.length_cons]
        omega

theorem insertIdx_append {x : ChainEntry} :
    (pre ++ post).insertIdx pre.length x = pre ++ x :: post := by
  induction pre with
  | nil => exact List.insertIdx_zero
  | cons e pre ih =>
    rw [List.cons_append, List.length_cons, List.insertIdx_succ_cons, ih, List.cons_append]

/-- The blocks are inserted one behind the other. -/
theorem insertLoop_eq {known : String → Option (Option Nat)} (h : pre.length = split + k) :
    insertLoop split k added known (pre ++ post) unknown =
      (pre ++ placedEntries (fun hash => (known hash).join) added ++ post,
        unknown ++ ((placedEntries (fun hash => (known hash).join) added).filter
          (·.daa.isNone)).map (·.hash)) := by
  induction added generalizing k known pre unknown with
  | nil => simp [insertLoop, placedEntries]
  | cons hash added ih =>
    have hinsert : (pre ++ post).insertIdx (split + k) ⟨hash, (known hash).join⟩ =
        (pre ++ [⟨hash, (known hash).join⟩]) ++ post := by
      rw [← h, insertIdx_append, List.append_assoc]
      rfl
    have hknown : (fun x => (Function.update known hash none x).join) =
        Function.update (fun x => (known x).join) hash none := by
      funext x
      rw [Function.update_apply, Function.update_apply]
      split <;> rfl
    rw [insertLoop, hinsert, ih (by simp [h]; omega), hknown, placedEntries]
    cases (known hash).join <;> simp

/-! ## The whole -/

theorem placedEntries_congr {known known' : String → Option Nat}
    (h : ∀ hash ∈ added, known hash = known' hash) :
    placedEntries known added = placedEntries known' added := by
  induction added generalizing known known' with
  | nil => rfl
  | cons hash added ih =>
    rw [placedEntries, placedEntries, h hash List.mem_cons_self, ih]
    intro x hx
    rw [Function.update_apply, Function.update_apply, h x (List.mem_cons_of_mem _ hx)]

theorem placeChain_eq : placeChain log start added = placeChainAfter log start added := by
  have hjoin : ∀ o : Option ChainEntry, ((o.map (·.daa)).or none).join = o.bind (·.daa) := by
    intro o
    cases o <;> rfl
  have hentries : placedEntries (fun hash => ((pullLoop (log.findIdx? (·.hash == start)) added 0 log
      ⟨[], 0, fun _ => none⟩).known hash).join) added =
        placedEntries (fun hash => (log.reverse.find? (·.hash == hash)).bind (·.daa)) added := by
    apply placedEntries_congr
    intro hash hhash
    rw [pullLoop_known hhash]
    exact hjoin _
  have hsplit : (if (log.findIdx? (·.hash == start)).isNone then
      (log.filter (·.hash ∉ added)).length else (pullLoop (log.findIdx? (·.hash == start)) added 0
        log ⟨[], 0, fun _ => none⟩).split) = placeIndex log start added := by
    rw [placeIndex]
    cases hpos : log.findIdx? (·.hash == start) with
    | none => rfl
    | some pos =>
      obtain ⟨hlt, hhash, -⟩ := List.findIdx?_eq_some_iff_getElem.mp hpos
      have hhash : log[pos].hash = start := by simpa using hhash
      have hget : log[pos]? = some log[pos] := List.getElem?_eq_getElem hlt
      have hzero : some pos = some (0 + pos) := by rw [Nat.zero_add]
      rw [hzero]
      by_cases hadded : start ∈ added
      · rw [pullLoop_split_of_added hget (hhash ▸ hadded)]
        exact (if_pos hadded).symm
      · rw [pullLoop_split hget (hhash ▸ hadded)]
        simp [hadded]
  have hle : placeIndex log start added ≤ (log.filter (·.hash ∉ added)).length := by
    rw [placeIndex]
    split
    · exact Nat.le_refl _
    · split
      · exact Nat.zero_le _
      · exact ((List.take_sublist _ _).filter _).length_le
  have htake : ((log.filter (·.hash ∉ added)).take (placeIndex log start added)).length =
      placeIndex log start added + 0 := List.length_take_of_le hle
  simp only [placeChain, pullLoop_kept, List.nil_append]
  rw [hsplit]
  conv_lhs =>
    rw [← List.take_append_drop (placeIndex log start added) (log.filter (·.hash ∉ added)),
      insertLoop_eq htake, hentries, List.nil_append]
  rfl

theorem placedEntries_of_nodup (known : String → Option Nat) (h : added.Nodup) :
    placedEntries known added = added.map fun hash => ⟨hash, known hash⟩ := by
  induction added generalizing known with
  | nil => rfl
  | cons hash added ih =>
    obtain ⟨hhash, h⟩ := List.nodup_cons.mp h
    rw [placedEntries, ih _ h, List.map_cons]
    congr 1
    apply List.map_congr_left
    intro x hx
    have hne : x ≠ hash := fun heq => hhash (heq ▸ hx)
    rw [Function.update_of_ne hne]

/-- Each block is logged once, so the last entry of a block is its only one. -/
theorem find?_reverse_of_mem {e : ChainEntry} (h : (hashes log).Nodup) (he : e ∈ log) :
    log.reverse.find? (·.hash == e.hash) = some e := by
  cases hfind : log.reverse.find? (·.hash == e.hash) with
  | none =>
    have hne := List.find?_eq_none.mp hfind e (List.mem_reverse.mpr he)
    simp at hne
  | some e' =>
    have hmem : e' ∈ log := List.mem_reverse.mp (List.mem_of_find?_eq_some hfind)
    have hhash : e'.hash = e.hash := by simpa using List.find?_some hfind
    rw [List.inj_on_of_nodup_map h hmem he hhash]

/-- The score a block is placed with is the logged one. -/
theorem find?_bind_daa {hash : String} (h : (hashes log).Nodup) :
    (log.reverse.find? (·.hash == hash)).bind (·.daa) = none ↔
      ∀ e ∈ log, e.hash = hash → e.daa = none := by
  constructor
  · intro hnone e he hhash
    rw [← hhash, find?_reverse_of_mem h he] at hnone
    exact hnone
  · intro hall
    cases hfind : log.reverse.find? (·.hash == hash) with
    | none => rfl
    | some e =>
      have hmem : e ∈ log := List.mem_reverse.mp (List.mem_of_find?_eq_some hfind)
      exact hall e hmem (by simpa using List.find?_some hfind)

/-- The log holds the old blocks and the added ones, each once, the added ones together behind
`start` or at the end and the others in their order; no score is lost or made up, and the blocks
without one are returned. -/
theorem placeChain_right (hlog : (hashes log).Nodup) (hadded : added.Nodup) (hstart : start ∉ added) :
    (hashes (placeChain log start added).1).Nodup ∧
      (∀ x, x ∈ hashes (placeChain log start added).1 ↔ x ∈ hashes log ∨ x ∈ added) ∧
      (start ∈ hashes log → ∃ before after, kept log added = before ++ start :: after ∧
        hashes (placeChain log start added).1 = before ++ start :: (added ++ after)) ∧
      (start ∉ hashes log →
        hashes (placeChain log start added).1 = kept log added ++ added) ∧
      (∀ e ∈ log, e ∈ (placeChain log start added).1) ∧
      (∀ e ∈ (placeChain log start added).1, e ∈ log ∨ e.daa = none) ∧
      (placeChain log start added).2 =
        added.filter fun x => ∀ e ∈ log, e.hash = x → e.daa = none := by
  rw [placeChain_eq]
  have hplaced := placedEntries_of_nodup (fun hash =>
    (log.reverse.find? (·.hash == hash)).bind (·.daa)) hadded
  refine ⟨?_, ?_, fun h => hashes_placeChainAfter_of_mem h hstart,
    hashes_placeChainAfter_of_notMem, ?_, ?_, ?_⟩
  · exact nodup_placeChainAfter hlog hadded
  · intro x
    rw [hashes_placeChainAfter_perm.mem_iff, List.mem_append, kept, List.mem_filter, decide_eq_true_iff]
    tauto
  · intro e he
    rw [mem_placeChainAfter, hplaced]
    by_cases hmem : e.hash ∈ added
    · refine .inr (List.mem_map.mpr ⟨e.hash, hmem, ?_⟩)
      rw [find?_reverse_of_mem hlog he]
      rfl
    · exact .inl ⟨he, hmem⟩
  · intro e he
    rw [mem_placeChainAfter, hplaced] at he
    rcases he with ⟨he, -⟩ | he
    · exact .inl he
    · obtain ⟨hash, -, rfl⟩ := List.mem_map.mp he
      cases hfind : log.reverse.find? (·.hash == hash) with
      | none => exact .inr rfl
      | some e =>
        have hmem : e ∈ log := List.mem_reverse.mp (List.mem_of_find?_eq_some hfind)
        have hhash : e.hash = hash := by simpa using List.find?_some hfind
        exact .inl (hhash ▸ hmem)
  · have hunknown : (placeChainAfter log start added).2 = ((placedEntries (fun hash =>
        (log.reverse.find? (·.hash == hash)).bind (·.daa)) added).filter
          (·.daa.isNone)).map (·.hash) := rfl
    rw [hunknown, hplaced, List.filter_map, List.map_map]
    have hid : ((fun e : ChainEntry => e.hash) ∘ fun hash => (⟨hash,
        (log.reverse.find? (·.hash == hash)).bind (·.daa)⟩ : ChainEntry)) = id := rfl
    rw [hid, List.map_id]
    apply List.filter_congr
    intro x _
    rw [Bool.eq_iff_iff, decide_eq_true_iff, ← find?_bind_daa hlog]
    exact Option.isNone_iff_eq_none

/-- A block logged behind others is put behind the one it follows. -/
theorem placeChain_right_moved :
    (hashes (placeChain [⟨"b", some 1000⟩, ⟨"z", some 37030⟩] "b" ["c", "d", "z"]).1).Nodup :=
  (placeChain_right (by decide) (by decide) (by decide)).1

end KeryxMiner.Trace
