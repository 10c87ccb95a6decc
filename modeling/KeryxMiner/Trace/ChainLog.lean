import Mathlib.Data.List.TakeWhile
import KeryxMiner.Trace.Client
import KeryxMiner.ChainOrder

/-!
# The chain log

What `seedBlockAfter` finds, and how `placeChainAfter` orders the log, on the hashes of the entries.
-/

namespace KeryxMiner.Trace

variable {E : Externals} {log : List ChainEntry} {accepted start : String} {added : List String}

/-- The logged blocks in log order. -/
def hashes (log : List ChainEntry) : List String := log.map (·.hash)

/-- The entries behind a block. -/
def entriesBehind (log : List ChainEntry) (hash : String) : List ChainEntry :=
  (log.dropWhile (·.hash != hash)).drop 1

theorem hashes_entriesBehind : hashes (entriesBehind log accepted) = behind accepted (hashes log) := by
  induction log with
  | nil => rfl
  | cons e log ih =>
    by_cases h : e.hash = accepted
    · simp [hashes, entriesBehind, h]
    · simpa [hashes, entriesBehind, behind, h] using ih

/-- A logged score is the block's own. -/
def Scored (E : Externals) (log : List ChainEntry) : Prop :=
  ∀ e ∈ log, ∀ d ∈ e.daa, d = E.daaScore e.hash

/-- No block is logged twice, and a score is the block's own. -/
structure LogOk (E : Externals) (log : List ChainEntry) : Prop where
  nodup : (hashes log).Nodup
  scored : ∀ e ∈ log, ∀ d ∈ e.daa, d = E.daaScore e.hash

/-! ## The seed block -/

theorem seedScan_eq_some {acceptedDaa daa : Nat} {hash : String} {es : List ChainEntry}
    (h : seedScan acceptedDaa es = some (hash, daa)) : ∃ pre e post, es = pre ++ e :: post ∧
      e.hash = hash ∧ e.daa = some daa ∧ acceptedDaa + traceSeedDelayDaa ≤ daa ∧
      ∀ e' ∈ pre, ∃ d, e'.daa = some d ∧ d < acceptedDaa + traceSeedDelayDaa := by
  induction es with
  | nil => cases h
  | cons e es ih =>
    simp only [seedScan] at h
    split at h
    · cases h
    · next d hd =>
      split at h
      · next hle =>
        cases h
        exact ⟨[], e, es, rfl, rfl, hd, hle, by simp⟩
      · next hlt =>
        obtain ⟨pre, e', post, rfl, h1, h2, h3, h4⟩ := ih h
        refine ⟨e :: pre, e', post, rfl, h1, h2, h3, ?_⟩
        intro e'' he''
        rcases List.mem_cons.mp he'' with rfl | he''
        · exact ⟨d, hd, by omega⟩
        · exact h4 e'' he''

/-- The seed block is the first logged block behind the accepting one which is past the delay, and
all blocks up to it have their scores. -/
theorem seedBlockAfter_eq_some {seedHash : String} {daa acceptedDaa : Nat} (hlog : Scored E log)
    (h : seedBlockAfter log accepted = some (seedHash, daa, acceptedDaa)) :
    accepted ∈ hashes log ∧ acceptedDaa = E.daaScore accepted ∧ daa = E.daaScore seedHash ∧
      ∃ pre e post, entriesBehind log accepted = pre ++ e :: post ∧ e.hash = seedHash ∧
        e.daa = some daa ∧ E.daaScore accepted + traceSeedDelayDaa ≤ daa ∧
        ∀ e' ∈ pre, ∃ d, e'.daa = some d ∧ d < E.daaScore accepted + traceSeedDelayDaa := by
  unfold seedBlockAfter at h
  split at h
  · cases h
  · next e rest hdrop =>
    split at h
    · cases h
    · next d hd =>
      obtain ⟨⟨hash, daa'⟩, hscan, heq⟩ := Option.map_eq_some_iff.mp h
      cases heq
      have hmem : e ∈ log := (List.dropWhile_sublist _).subset (hdrop ▸ List.mem_cons_self)
      have hhash : e.hash = accepted := by
        have := List.head_dropWhile_not (·.hash != accepted) (l := log) (by simp [hdrop])
        simpa [hdrop] using this
      have hscore : acceptedDaa = E.daaScore accepted := hhash ▸ hlog e hmem _ hd
      obtain ⟨pre, x, post, hsplit, h1, h2, h3, h4⟩ := seedScan_eq_some hscan
      have hx : x ∈ log :=
        (List.dropWhile_sublist _).subset (hdrop ▸ List.mem_cons_of_mem _ (by simp [hsplit]))
      refine ⟨List.mem_map.mpr ⟨e, hmem, hhash⟩, hscore, h1 ▸ hlog x hx _ h2, ?_⟩
      exact ⟨pre, x, post, by simp [entriesBehind, hdrop, hsplit], h1, h2, hscore ▸ h3, hscore ▸ h4⟩

/-! ## Placing a part of the chain -/

theorem hashes_placedEntries {known : String → Option Nat} :
    hashes (placedEntries known added) = added := by
  induction added generalizing known with
  | nil => rfl
  | cons hash added ih => exact congrArg (hash :: ·) ih

/-- A placed score is a known one. -/
theorem known_of_mem_placedEntries {known : String → Option Nat} {e : ChainEntry} {d : Nat}
    (he : e ∈ placedEntries known added) (hd : d ∈ e.daa) : d ∈ known e.hash := by
  induction added generalizing known with
  | nil => cases he
  | cons hash added ih =>
    rcases List.mem_cons.mp he with rfl | he
    · exact hd
    · have hmem := ih he
      rw [Function.update_apply] at hmem
      split at hmem
      · cases hmem
      · exact hmem

/-- The blocks that are not moved. -/
def kept (log : List ChainEntry) (added : List String) : List String :=
  (hashes log).filter (· ∉ added)

theorem hashes_filter {p : String → Bool} :
    hashes (log.filter fun e => p e.hash) = (hashes log).filter p := by
  rw [hashes, hashes, List.filter_map]
  rfl

theorem hashes_kept : hashes (log.filter (·.hash ∉ added)) = kept log added :=
  hashes_filter (p := (· ∉ added))

theorem hashes_append {l l' : List ChainEntry} : hashes (l ++ l') = hashes l ++ hashes l' :=
  List.map_append

theorem hashes_take {n : Nat} : hashes (log.take n) = (hashes log).take n := List.map_take

theorem hashes_drop {n : Nat} : hashes (log.drop n) = (hashes log).drop n := List.map_drop

/-- Where `placeChainAfter` puts the blocks among the others. -/
def placeIndex (log : List ChainEntry) (start : String) (added : List String) : Nat :=
  match log.findIdx? (·.hash == start) with
  | none => (log.filter (·.hash ∉ added)).length
  | some pos =>
    if start ∈ added then 0 else ((log.take (pos + 1)).filter (·.hash ∉ added)).length

theorem hashes_placeChainAfter : hashes (placeChainAfter log start added).1 =
    (kept log added).take (placeIndex log start added) ++ added ++
      (kept log added).drop (placeIndex log start added) := by
  simp only [placeChainAfter, hashes_append, hashes_take, hashes_drop, hashes_kept,
    hashes_placedEntries]
  rfl

/-- It is put at the end when `start` is not logged. -/
theorem hashes_placeChainAfter_of_notMem (h : start ∉ hashes log) :
    hashes (placeChainAfter log start added).1 = kept log added ++ added := by
  have hidx : log.findIdx? (·.hash == start) = none := by
    rw [List.findIdx?_eq_none_iff]
    intro e he
    have hne : e.hash ≠ start := fun heq => h (heq ▸ List.mem_map_of_mem he)
    simpa using hne
  have hlen : placeIndex log start added = (kept log added).length := by
    rw [placeIndex, hidx, ← hashes_kept, hashes, List.length_map]
  rw [hashes_placeChainAfter, hlen, List.take_length, List.drop_length, List.append_nil]

/-- It is put right behind `start` when that is logged. -/
theorem hashes_placeChainAfter_of_mem (h : start ∈ hashes log) (hadded : start ∉ added) :
    ∃ u w, kept log added = u ++ start :: w ∧
      hashes (placeChainAfter log start added).1 = u ++ start :: (added ++ w) := by
  obtain ⟨e, he, hstart⟩ := List.mem_map.mp h
  obtain ⟨pos, hpos⟩ : ∃ pos, log.findIdx? (·.hash == start) = some pos := by
    rw [← Option.isSome_iff_exists, List.findIdx?_isSome, List.any_eq_true]
    exact ⟨e, he, by simpa using hstart⟩
  obtain ⟨hlt, hhash, -⟩ := List.findIdx?_eq_some_iff_getElem.mp hpos
  have hhash : log[pos].hash = start := by simpa using hhash
  have hlog : log = log.take pos ++ log[pos] :: log.drop (pos + 1) := by
    rw [List.cons_getElem_drop_succ, List.take_append_drop]
  have hindex : placeIndex log start added = (kept (log.take pos) added).length + 1 := by
    rw [placeIndex, hpos]
    simp only [if_neg hadded]
    rw [List.take_succ_eq_append_getElem hlt, List.filter_append, List.length_append, ← hashes_kept,
      hashes, List.length_map]
    simp [hhash, hadded]
  have hkept : kept log added =
      kept (log.take pos) added ++ start :: kept (log.drop (pos + 1)) added := by
    conv_lhs => rw [hlog, kept, hashes_append, List.filter_append]
    have hcons : hashes (log[pos] :: log.drop (pos + 1)) = start :: hashes (log.drop (pos + 1)) :=
      congrArg (· :: hashes (log.drop (pos + 1))) hhash
    rw [hcons, List.filter_cons_of_pos (by simpa using hadded)]
    rfl
  refine ⟨_, _, hkept, ?_⟩
  rw [hashes_placeChainAfter, hindex, hkept]
  have htake : ∀ u w : List String, (u ++ start :: w).take (u.length + 1) = u ++ [start] := by
    intro u w
    rw [List.append_cons, List.take_left' (by simp)]
  have hdrop : ∀ u w : List String, (u ++ start :: w).drop (u.length + 1) = w := by
    intro u w
    rw [List.append_cons, List.drop_left' (by simp)]
  rw [htake, hdrop]
  simp

/-- What is not placed keeps its order. -/
theorem filter_placeChainAfter :
    (hashes (placeChainAfter log start added).1).filter (· ∉ added) = kept log added := by
  have hnone : added.filter (· ∉ added) = [] :=
    List.filter_eq_nil_iff.mpr fun x hx => by simpa using hx
  rw [hashes_placeChainAfter, List.filter_append, List.filter_append, hnone, List.append_nil,
    ← List.filter_append, List.take_append_drop, kept, List.filter_filter]
  simp only [Bool.and_self]

theorem hashes_placeChainAfter_perm :
    (hashes (placeChainAfter log start added).1).Perm (kept log added ++ added) := by
  rw [hashes_placeChainAfter, List.append_assoc]
  conv_rhs =>
    rw [← List.take_append_drop (placeIndex log start added) (kept log added), List.append_assoc]
  exact List.perm_append_comm.append_left _

theorem nodup_placeChainAfter (hlog : (hashes log).Nodup) (hadded : added.Nodup) :
    (hashes (placeChainAfter log start added).1).Nodup := by
  rw [hashes_placeChainAfter_perm.nodup_iff, List.nodup_append]
  refine ⟨hlog.filter _, hadded, ?_⟩
  rintro x hx y hy rfl
  simp [kept, hy] at hx

theorem mem_placeChainAfter {e : ChainEntry} : e ∈ (placeChainAfter log start added).1 ↔
    e ∈ log ∧ e.hash ∉ added ∨ e ∈ placedEntries (fun hash =>
      (log.reverse.find? (·.hash == hash)).bind (·.daa)) added := by
  have hkept : e ∈ log ∧ e.hash ∉ added ↔
      e ∈ (log.filter (·.hash ∉ added)).take (placeIndex log start added) ∨
        e ∈ (log.filter (·.hash ∉ added)).drop (placeIndex log start added) := by
    rw [← List.mem_append, List.take_append_drop, List.mem_filter, decide_eq_true_iff]
  rw [hkept, or_right_comm, ← List.mem_append, ← List.mem_append]
  rfl

theorem known_score {hash : String} {d : Nat} (hlog : Scored E log)
    (h : d ∈ (log.reverse.find? (·.hash == hash)).bind (·.daa)) : d = E.daaScore hash := by
  obtain ⟨e, hfind, hd⟩ := Option.bind_eq_some_iff.mp h
  have hmem : e ∈ log := List.mem_reverse.mp (List.mem_of_find?_eq_some hfind)
  have hhash : e.hash = hash := by simpa using List.find?_some hfind
  exact hhash ▸ hlog e hmem d hd

theorem Scored.place (hlog : Scored E log) : Scored E (placeChainAfter log start added).1 := by
  intro e he d hd
  rcases mem_placeChainAfter.mp he with ⟨he, -⟩ | he
  · exact hlog e he d hd
  · exact known_score hlog (known_of_mem_placedEntries he hd)

/-- A log of these blocks without repetition, whose entries are logged ones or carry known scores. -/
theorem LogOk.place (hlog : LogOk E log) (hadded : added.Nodup) :
    LogOk E (placeChainAfter log start added).1 where
  nodup := nodup_placeChainAfter hlog.nodup hadded
  scored := Scored.place hlog.scored

/-! ## The other changes of the log -/

namespace Scored

theorem sublist {log' : List ChainEntry} (h : Scored E log) (hsub : log'.Sublist log) :
    Scored E log' := fun e he => h e (hsub.subset he)

theorem push {hash : String} (h : Scored E log) : Scored E (log ++ [⟨hash, none⟩]) := by
  intro e he d hd
  rcases List.mem_append.mp he with he | he
  · exact h e he d hd
  · rw [List.mem_singleton.mp he] at hd
    cases hd

theorem appendChain (h : Scored E log) : Scored E (KeryxdHandler.appendChain log added) := by
  induction added generalizing log with
  | nil => exact h
  | cons hash added ih =>
    apply ih
    dsimp only
    split
    · exact h
    · exact h.push

theorem noteChainBlock {s : KeryxdHandler} {hash : String} (h : Scored E s.chainLog) :
    Scored E (s.noteChainBlock E hash).chainLog := by
  intro e he d hd
  obtain ⟨e', he', rfl⟩ := List.mem_map.mp he
  by_cases hhash : e'.hash = hash
  · rw [if_pos hhash] at hd ⊢
    rw [← Option.some.inj hd, hhash]
  · rw [if_neg hhash] at hd ⊢
    exact h e' he' d hd

end Scored

namespace LogOk

theorem nil : LogOk E [] where
  nodup := .nil
  scored := nofun

theorem sublist {log' : List ChainEntry} (h : LogOk E log) (hsub : log'.Sublist log) :
    LogOk E log' where
  nodup := h.nodup.sublist (hsub.map _)
  scored := Scored.sublist h.scored hsub

/-- A block that is not logged yet, without a score. -/
theorem push {hash : String} (h : LogOk E log) (hmem : hash ∉ hashes log) :
    LogOk E (log ++ [⟨hash, none⟩]) where
  nodup := by
    have hhashes : hashes (log ++ [⟨hash, none⟩]) = hashes log ++ [hash] := hashes_append
    rw [hhashes, List.nodup_append]
    refine ⟨h.nodup, List.nodup_singleton hash, ?_⟩
    rintro x hx y hy rfl
    exact hmem (List.mem_singleton.mp hy ▸ hx)
  scored := Scored.push h.scored

theorem appendChain (h : LogOk E log) : LogOk E (KeryxdHandler.appendChain log added) := by
  induction added generalizing log with
  | nil => exact h
  | cons hash added ih =>
    apply ih
    dsimp only
    split
    · exact h
    · next hmem => exact h.push hmem

end LogOk

theorem appendChain_cons {hash : String} : KeryxdHandler.appendChain log (hash :: added) =
    KeryxdHandler.appendChain (if hash ∈ hashes log then log else log ++ [⟨hash, none⟩]) added :=
  rfl

/-- The blocks of `added` that are logged are its first ones, and stand at the end of the log. -/
def InOrder (logged added : List String) : Prop :=
  added.takeWhile (· ∈ logged) <:+ logged ∧ ∀ hash ∈ added.dropWhile (· ∈ logged), hash ∉ logged

instance {logged added : List String} : Decidable (InOrder logged added) :=
  inferInstanceAs (Decidable (_ ∧ _))

/-- Blocks that are logged already are passed over. -/
theorem appendChain_of_logged {added' : List String} (h : ∀ hash ∈ added, hash ∈ hashes log) :
    KeryxdHandler.appendChain log (added ++ added') = KeryxdHandler.appendChain log added' := by
  induction added with
  | nil => rfl
  | cons hash added ih =>
    rw [List.cons_append, appendChain_cons, if_pos (h hash List.mem_cons_self)]
    exact ih fun hash hmem => h hash (List.mem_cons_of_mem _ hmem)

/-- New blocks are put at the end, in their order. -/
theorem hashes_appendChain_of_new (hadded : added.Nodup) (h : ∀ hash ∈ added, hash ∉ hashes log) :
    hashes (KeryxdHandler.appendChain log added) = hashes log ++ added := by
  induction added generalizing log with
  | nil => exact (List.append_nil _).symm
  | cons hash added ih =>
    obtain ⟨hnot, hadded⟩ := List.nodup_cons.mp hadded
    have hhashes : hashes (log ++ [⟨hash, none⟩]) = hashes log ++ [hash] := hashes_append
    rw [appendChain_cons, if_neg (h hash List.mem_cons_self), ih hadded, hhashes, List.append_assoc]
    · rfl
    · intro hash' hmem
      have hne : hash' ≠ hash := fun heq => hnot (heq ▸ hmem)
      simpa [hhashes, hne] using h hash' (List.mem_cons_of_mem _ hmem)

/-- What is added in order stands at the end of the log. -/
theorem InOrder.suffix (h : InOrder (hashes log) added) (hadded : added.Nodup) :
    added <:+ hashes (KeryxdHandler.appendChain log added) := by
  obtain ⟨⟨front, hfront⟩, hnew⟩ := h
  have hsplit := List.takeWhile_append_dropWhile (p := (· ∈ hashes log)) (l := added)
  have hlogged : ∀ hash ∈ added.takeWhile (· ∈ hashes log), hash ∈ hashes log := fun hash hmem => by
    simpa using List.mem_takeWhile_imp hmem
  refine ⟨front, ?_⟩
  calc front ++ added
      = front ++ added.takeWhile (· ∈ hashes log) ++ added.dropWhile (· ∈ hashes log) := by
        rw [List.append_assoc, hsplit]
    _ = hashes log ++ added.dropWhile (· ∈ hashes log) := by rw [hfront]
    _ = hashes (KeryxdHandler.appendChain log (added.dropWhile (· ∈ hashes log))) :=
        (hashes_appendChain_of_new (hadded.sublist (List.dropWhile_sublist _)) hnew).symm
    _ = hashes (KeryxdHandler.appendChain log added) := by
        rw [← appendChain_of_logged hlogged, hsplit]

/-- The log grows at its end, by all that is added. -/
theorem hashes_appendChain : ∃ new, hashes (KeryxdHandler.appendChain log added) =
    hashes log ++ new ∧ (∀ h ∈ new, h ∈ added) ∧
      ∀ h ∈ added, h ∈ hashes (KeryxdHandler.appendChain log added) := by
  induction added generalizing log with
  | nil => exact ⟨[], (List.append_nil _).symm, nofun, nofun⟩
  | cons hash added ih =>
    rw [appendChain_cons]
    by_cases hmem : hash ∈ hashes log
    · rw [if_pos hmem]
      obtain ⟨new, hnew, hsub, hall⟩ := @ih log
      refine ⟨new, hnew, fun h hh => List.mem_cons_of_mem _ (hsub h hh), ?_⟩
      rintro h (_ | ⟨_, hh⟩)
      · rw [hnew]
        exact List.mem_append_left new hmem
      · exact hall h hh
    · rw [if_neg hmem]
      obtain ⟨new, hnew, hsub, hall⟩ := @ih (log ++ [⟨hash, none⟩])
      have hhashes : hashes (log ++ [⟨hash, none⟩]) = hashes log ++ [hash] := hashes_append
      rw [hhashes] at hnew
      refine ⟨hash :: new, by rw [hnew, List.append_assoc]; rfl, ?_, ?_⟩
      · rintro h (_ | ⟨_, hh⟩)
        · exact List.mem_cons_self
        · exact List.mem_cons_of_mem _ (hsub h hh)
      · rintro h (_ | ⟨_, hh⟩)
        · rw [hnew]
          simp
        · exact hall h hh

/-- The score of a block is noted. -/
theorem hashes_noteChainBlock {s : KeryxdHandler} {hash : String} :
    hashes (s.noteChainBlock E hash).chainLog = hashes s.chainLog := by
  rw [KeryxdHandler.noteChainBlock, hashes, hashes, List.map_map]
  apply List.map_congr_left
  intro e _
  simp only [Function.comp_apply]
  split <;> rfl

theorem LogOk.noteChainBlock {s : KeryxdHandler} {hash : String} (h : LogOk E s.chainLog) :
    LogOk E (s.noteChainBlock E hash).chainLog where
  nodup := by
    rw [hashes_noteChainBlock]
    exact h.nodup
  scored := Scored.noteChainBlock h.scored

end KeryxMiner.Trace
