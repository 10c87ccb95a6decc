import KeryxMiner.Stratum.Traces

/-!
# Kept traces are found

A run in which no temporary file is loaded and no live trace is kept over an expired one finds the
trace that was last kept for a key until its time is over, also after a restart. The memory and the
directory each hold every live trace that was kept, and nothing else under a key (`Agree`).
-/

namespace KeryxMiner.Stratum.Traces

variable {key key' stem ext name : List Char} {hash hash' : RequestHash} {k : Kept}
  {bytes : List UInt8} {files : Files} {m : Memory} {t t' now clock clock' : UInt64}
  {removed : List (List Char)} {last : List Char → Option Kept} {w : World}

/-! ## Names of files -/

theorem splitName_append (hstem : stem ≠ []) (hext : '.' ∉ ext) :
    splitName (stem ++ '.' :: ext) = (stem, some ext) := by
  have hrev : (stem ++ '.' :: ext).reverse = ext.reverse ++ '.' :: stem.reverse := by simp
  have hpos : ∀ c ∈ ext.reverse, decide (c ≠ '.') = true := by
    intro c hc
    rw [decide_eq_true_eq]
    rintro rfl
    exact hext (List.mem_reverse.mp hc)
  have hdrop : (stem ++ '.' :: ext).reverse.dropWhile (· ≠ '.') = '.' :: stem.reverse := by
    rw [hrev, List.dropWhile_append_of_pos hpos]
    rfl
  have htake : (stem ++ '.' :: ext).reverse.takeWhile (· ≠ '.') = ext.reverse := by
    rw [hrev, List.takeWhile_append_of_pos hpos, List.takeWhile_cons_of_neg (by decide),
      List.append_nil]
  cases hs : stem.reverse with
  | nil => exact absurd (List.reverse_eq_nil_iff.mp hs) hstem
  | cons c rest =>
    have hstem' : stem = (c :: rest).reverse := by rw [← hs, List.reverse_reverse]
    rw [splitName, hdrop, hs, htake, List.reverse_reverse, hstem']
    rfl

theorem eq_append_of_splitName (h : splitName name = (stem, some ext)) : name = stem ++ '.' :: ext := by
  have hsplit := List.takeWhile_append_dropWhile (p := fun c : Char => decide (c ≠ '.'))
    (l := name.reverse)
  rw [splitName] at h
  split at h
  · next c rest hdrop =>
    rw [Prod.mk.injEq, Option.some.injEq] at h
    rw [hdrop] at hsplit
    have hname := congrArg List.reverse hsplit
    rw [List.reverse_reverse, List.reverse_append, List.reverse_cons, List.append_assoc] at hname
    rw [← h.1, ← h.2]
    exact hname.symm
  · cases (Prod.mk.injEq .. ▸ h).2

theorem stem_ne_nil (h : splitName name = (stem, some ext)) : stem ≠ [] := by
  rw [splitName] at h
  split at h
  · next c rest _ =>
    rw [Prod.mk.injEq] at h
    rw [← h.1, List.reverse_cons]
    exact List.concat_ne_nil _ _
  · cases (Prod.mk.injEq .. ▸ h).2

theorem keyOf_eq_some : keyOf name = some key ↔ key ≠ [] ∧ name = fileOf key := by
  constructor
  · intro h
    rw [keyOf] at h
    split at h
    next stem ext hsplit =>
      rw [Option.ite_none_right_eq_some, Option.some.injEq] at h
      obtain ⟨rfl, rfl⟩ := h
      exact ⟨stem_ne_nil hsplit, eq_append_of_splitName hsplit⟩
  · rintro ⟨hne, rfl⟩
    have hsplit : splitName (fileOf key) = (key, some traceExt) := splitName_append hne (by decide)
    rw [keyOf, hsplit]
    exact if_pos rfl

theorem fileOf_inj (h : fileOf key = fileOf key') : key = key' := List.append_cancel_right h

theorem eq_dot_of_toLower {c : Char} (h : c.toLower = '.') : c = '.' := by
  delta Char.toLower at h
  split at h
  · next hupper =>
    have hval := congrArg (fun c : Char => c.val.toNat) h
    have hge := UInt32.le_iff_toNat_le.mp hupper.1
    have hle := UInt32.le_iff_toNat_le.mp hupper.2
    simp at hval hge hle
    omega
  · exact h

namespace RequestHash

theorem key_ne_nil : hash.key ≠ [] := by
  have hlen := hash.length
  rintro hnil
  rw [List.map_eq_nil_iff.mp hnil] at hlen
  cases hlen

theorem dot_not_mem : '.' ∉ hash.key := by
  intro hdot
  obtain ⟨c, hc, hlower⟩ := List.mem_map.mp hdot
  have hhex := hash.hex c hc
  rw [eq_dot_of_toLower hlower] at hhex
  cases hhex

/-- The temporary file of a key is no key's file. -/
theorem tmpOf_ne_fileOf : tmpOf hash.key ≠ fileOf hash'.key := by
  intro h
  apply hash'.dot_not_mem
  rw [← fileOf_inj h]
  exact List.mem_append_right _ List.mem_cons_self

end RequestHash

/-! ## Loading -/

theorem restored_eq_some : restored t name bytes = some (key, k) ↔
    (key ≠ [] ∧ name = fileOf key) ∧ decode bytes = some k ∧ live k.atSecs t := by
  rw [← keyOf_eq_some]
  simp only [restored, Option.bind_eq_bind, Option.bind_eq_some_iff, Option.ite_none_right_eq_some,
    Option.some.injEq, Prod.mk.injEq]
  constructor
  · rintro ⟨_, hkey, _, hdecode, hlive, rfl, rfl⟩
    exact ⟨hkey, hdecode, hlive⟩
  · rintro ⟨hkey, hdecode, hlive⟩
    exact ⟨key, hkey, k, hdecode, hlive, rfl, rfl⟩

theorem pairwise_names : files.entries.Pairwise fun e e' => e.1 ≠ e'.1 := by
  have hnodup := files.nodupKeys
  rw [List.NodupKeys, List.keys, List.nodup_iff_pairwise_ne, List.pairwise_map] at hnodup
  exact hnodup

theorem lookup_load : (load files t).lookup key = some k ↔
    key ≠ [] ∧ ∃ bytes, files.lookup (fileOf key) = some bytes ∧ decode bytes = some k ∧
      live k.atSecs t := by
  have hdistinct : (files.entries.filterMap fun e => restored t e.1 e.2).Pairwise
      fun e e' => e.1 ≠ e'.1 := by
    rw [List.pairwise_filterMap]
    refine pairwise_names.imp ?_
    rintro e e' hne ⟨_, _⟩ he ⟨_, _⟩ he' rfl
    obtain ⟨⟨-, hname⟩, -⟩ := restored_eq_some.mp he
    obtain ⟨⟨-, hname'⟩, -⟩ := restored_eq_some.mp he'
    exact hne (hname.trans hname'.symm)
  rw [load, Table.lookup_ofPairs hdistinct, List.mem_filterMap]
  constructor
  · rintro ⟨⟨name, bytes⟩, hmem, hrestored⟩
    obtain ⟨⟨hne, rfl⟩, hdecode, hlive⟩ := restored_eq_some.mp hrestored
    exact ⟨hne, bytes, Table.mem_entries.mp hmem, hdecode, hlive⟩
  · rintro ⟨hne, bytes, hlookup, hdecode, hlive⟩
    exact ⟨⟨_, bytes⟩, Table.mem_entries.mpr hlookup,
      restored_eq_some.mpr ⟨⟨hne, rfl⟩, hdecode, hlive⟩⟩

/-- A load removes no file of a live trace. -/
theorem restored_none_of_mem_stale (h : name ∈ stale files t)
    (hlookup : files.lookup name = some bytes) : restored t name bytes = none := by
  obtain ⟨⟨name', bytes'⟩, he, rfl⟩ := List.mem_map.mp h
  obtain ⟨hmem, hnone⟩ := List.mem_filter.mp he
  have heq : bytes' = bytes := Option.some.inj ((Table.mem_entries.mp hmem).symm.trans hlookup)
  rw [Bool.and_eq_true, Option.isNone_iff_eq_none] at hnone
  rw [← heq]
  exact hnone.2

theorem mem_expired : name ∈ expired m t ↔
    ∃ key k, m.lookup key = some k ∧ live k.atSecs t = false ∧ name = fileOf key := by
  simp only [expired, List.mem_map, List.mem_filter, Bool.not_eq_true']
  constructor
  · rintro ⟨⟨key, k⟩, ⟨hmem, hdead⟩, rfl⟩
    exact ⟨key, k, Table.mem_entries.mp hmem, hdead, rfl⟩
  · rintro ⟨key, k, hlookup, hdead, rfl⟩
    exact ⟨⟨key, k⟩, ⟨Table.mem_entries.mpr hlookup, hdead⟩, rfl⟩

theorem live_mono {atSecs : UInt64} (hle : t ≤ t') (h : live atSecs t') : live atSecs t := by
  rw [live, decide_eq_true_eq] at h ⊢
  exact UInt64.le_trans hle h

/-! ## The directory and the memory -/

/-- The directory has the last trace of every key that is live, and under a key no other. -/
structure OnDisk (files : Files) (last : List Char → Option Kept) (clock : UInt64) : Prop where
  names : ∀ name bytes, files.lookup name = some bytes →
    ∃ hash : RequestHash, name = fileOf hash.key ∨ name = tmpOf hash.key
  decoded : ∀ hash : RequestHash, ∀ bytes, files.lookup (fileOf hash.key) = some bytes →
    ∃ k, decode bytes = some k ∧ last hash.key = some k
  present : ∀ hash : RequestHash, ∀ k, last hash.key = some k → live k.atSecs clock →
    (files.lookup (fileOf hash.key)).isSome

/-- The memory has the last trace of every key that is live, and under a key no other. -/
structure InMemory (m : Memory) (last : List Char → Option Kept) (clock : UInt64) : Prop where
  kept : ∀ key k, m.lookup key = some k → last key = some k
  present : ∀ key k, last key = some k → live k.atSecs clock → m.lookup key = some k

/-- The traces that were kept have the key of a request, and a time of the clock. -/
structure Timely (last : List Char → Option Kept) : Prop where
  keys : ∀ key k, last key = some k → ∃ hash : RequestHash, key = hash.key
  times : ∀ key k, last key = some k → k.atSecs < 2 ^ 63

namespace OnDisk

variable (h : OnDisk files last clock)
include h

theorem mono (hle : clock ≤ clock') : OnDisk files last clock' :=
  { h with present := fun hash k hlast hlive => h.present hash k hlast (live_mono hle hlive) }

theorem removeAll (hremoved : ∀ hash : RequestHash, ∀ k, last hash.key = some k →
      fileOf hash.key ∈ removed → live k.atSecs clock = false) :
    OnDisk (files.removeAll removed) last clock where
  names name bytes hlookup := h.names name bytes (Directory.lookup_removeAll.mp hlookup).1
  decoded hash bytes hlookup := h.decoded hash bytes (Directory.lookup_removeAll.mp hlookup).1
  present hash k hlast hlive := by
    obtain ⟨bytes, hlookup⟩ := Option.isSome_iff_exists.mp (h.present hash k hlast hlive)
    rw [Option.isSome_iff_exists]
    refine ⟨bytes, Directory.lookup_removeAll.mpr ⟨hlookup, ?_⟩⟩
    intro hmem
    rw [hremoved hash k hlast hmem] at hlive
    cases hlive

/-- What a load removes are no live traces. -/
theorem dead_of_stale (k : Kept) (hlast : last hash.key = some k)
    (hmem : fileOf hash.key ∈ stale files clock) : live k.atSecs clock = false := by
  cases hlive : live k.atSecs clock with
  | false => rfl
  | true =>
    obtain ⟨bytes, hlookup⟩ := Option.isSome_iff_exists.mp (h.present hash k hlast hlive)
    obtain ⟨k', hdecode, hlast'⟩ := h.decoded hash bytes hlookup
    obtain rfl := Option.some.inj (hlast.symm.trans hlast')
    have hsome := restored_eq_some.mpr ⟨⟨hash.key_ne_nil, rfl⟩, hdecode, hlive⟩
    rw [restored_none_of_mem_stale hmem hlookup] at hsome
    cases hsome

/-- A load without a temporary file finds what was kept. -/
theorem inMemory_load (hlast : Timely last) (hno : ∀ hash : RequestHash, ∀ bytes k,
      files.lookup (tmpOf hash.key) = some bytes → decode bytes = some k →
        live k.atSecs clock = false) : InMemory (load files clock) last clock where
  kept key k hlookup := by
    obtain ⟨-, bytes, hfile, hdecode, hlive⟩ := lookup_load.mp hlookup
    obtain ⟨hash, hname | hname⟩ := h.names _ _ hfile
    · obtain rfl := fileOf_inj hname
      obtain ⟨k', hdecode', hlast'⟩ := h.decoded hash bytes hfile
      rw [hdecode, Option.some.injEq] at hdecode'
      rw [hdecode', hlast']
    · rw [hno hash bytes k (hname ▸ hfile) hdecode] at hlive
      cases hlive
  present key k hkey hlive := by
    obtain ⟨hash, rfl⟩ := hlast.keys key k hkey
    obtain ⟨bytes, hfile⟩ := Option.isSome_iff_exists.mp (h.present hash k hkey hlive)
    obtain ⟨k', hdecode, hkey'⟩ := h.decoded hash bytes hfile
    obtain rfl := Option.some.inj (hkey.symm.trans hkey')
    exact lookup_load.mpr ⟨hash.key_ne_nil, bytes, hfile, hdecode, hlive⟩

/-- A temporary file. -/
theorem write (hash : RequestHash) (bytes : List UInt8) :
    OnDisk (files.write (tmpOf hash.key) bytes) last clock where
  names name bytes' hlookup := by
    by_cases hname : name = tmpOf hash.key
    · exact ⟨hash, .inr hname⟩
    · rw [Directory.write, AList.lookup_insert_ne hname] at hlookup
      exact h.names name bytes' hlookup
  decoded hash' bytes' hlookup := by
    rw [Directory.write, AList.lookup_insert_ne RequestHash.tmpOf_ne_fileOf.symm] at hlookup
    exact h.decoded hash' bytes' hlookup
  present hash' k hlast hlive := by
    rw [Directory.write, AList.lookup_insert_ne RequestHash.tmpOf_ne_fileOf.symm]
    exact h.present hash' k hlast hlive

/-- The temporary file in place of the old one. -/
theorem rename (hash : RequestHash) (hdecode : decode bytes = some k) :
    OnDisk ((files.write (tmpOf hash.key) bytes).rename (tmpOf hash.key) (fileOf hash.key))
      (Function.update last hash.key (some k)) clock where
  names name bytes' hlookup := by
    rw [Directory.lookup_write_rename] at hlookup
    split at hlookup
    · next hname => exact ⟨hash, .inl hname⟩
    · split at hlookup
      · cases hlookup
      · exact h.names name bytes' hlookup
  decoded hash' bytes' hlookup := by
    rw [Directory.lookup_write_rename] at hlookup
    split at hlookup
    · next hname =>
      obtain rfl := Option.some.inj hlookup
      rw [fileOf_inj hname, Function.update_self]
      exact ⟨k, hdecode, rfl⟩
    · next hname =>
      rw [if_neg RequestHash.tmpOf_ne_fileOf.symm] at hlookup
      have hne : hash'.key ≠ hash.key := fun heq => hname (congrArg fileOf heq)
      rw [Function.update_of_ne hne]
      exact h.decoded hash' bytes' hlookup
  present hash' k' hlast hlive := by
    rw [Directory.lookup_write_rename]
    split
    · rfl
    · next hname =>
      rw [if_neg RequestHash.tmpOf_ne_fileOf.symm]
      have hne : hash'.key ≠ hash.key := fun heq => hname (congrArg fileOf heq)
      rw [Function.update_of_ne hne] at hlast
      exact h.present hash' k' hlast hlive

end OnDisk

namespace InMemory

variable (h : InMemory m last clock)
include h

theorem mono (hle : clock ≤ clock') : InMemory m last clock' :=
  { h with present := fun key k hlast hlive => h.present key k hlast (live_mono hle hlive) }

/-- The memory without what has expired, and with a new trace. -/
theorem keep (hle : t ≤ clock) :
    InMemory ((Table.keep (fun _ v => live v.atSecs t) m).insert key k)
      (Function.update last key (some k)) clock where
  kept key' k' hlookup := by
    by_cases hkey : key' = key
    · subst hkey
      rw [AList.lookup_insert] at hlookup
      rw [Function.update_self, hlookup]
    · rw [AList.lookup_insert_ne hkey, Table.lookup_keep] at hlookup
      rw [Function.update_of_ne hkey]
      exact h.kept key' k' hlookup.1
  present key' k' hlast hlive := by
    by_cases hkey : key' = key
    · subst hkey
      rw [Function.update_self] at hlast
      rw [AList.lookup_insert, hlast]
    · rw [Function.update_of_ne hkey] at hlast
      rw [AList.lookup_insert_ne hkey, Table.lookup_keep]
      exact ⟨h.present key' k' hlast hlive, live_mono hle hlive⟩

end InMemory

theorem Timely.update (h : Timely last) (hash : RequestHash) (hk : k.atSecs < 2 ^ 63) :
    Timely (Function.update last hash.key (some k)) where
  keys key' k' hlast := by
    by_cases hkey : key' = hash.key
    · exact ⟨hash, hkey⟩
    · rw [Function.update_of_ne hkey] at hlast
      exact h.keys key' k' hlast
  times key' k' hlast := by
    by_cases hkey : key' = hash.key
    · subst hkey
      rw [Function.update_self, Option.some.injEq] at hlast
      rw [← hlast]
      exact hk
    · rw [Function.update_of_ne hkey] at hlast
      exact h.times key' k' hlast

/-! ## Steps -/

/-- What holds between two operations. -/
structure Agree (w : World) : Prop where
  onDisk : OnDisk w.store.files w.last w.clock
  inMemory : ∀ m, w.store.memory = some m → InMemory m w.last w.clock
  timely : Timely w.last

theorem agree_init : Agree World.init where
  onDisk := ⟨nofun, nofun, nofun⟩
  inMemory := nofun
  timely := ⟨nofun, nofun⟩

namespace Agree

variable (h : Agree w) (hle : w.clock ≤ t')
include h hle

theorem loaded (hno : w.NoLeftover t') : InMemory (w.store.loaded t') w.last t' := by
  cases hm : w.store.memory with
  | some m =>
    rw [Store.loaded, hm, Option.getD_some]
    exact (h.inMemory m hm).mono hle
  | none =>
    rw [Store.loaded, hm, Option.getD_none]
    exact (h.onDisk.mono hle).inMemory_load h.timely (hno hm)

theorem dropped (hsub : removed ⊆ w.store.dropped t') :
    OnDisk (w.store.files.removeAll removed) w.last t' := by
  have hdisk := h.onDisk.mono hle
  apply hdisk.removeAll
  intro hash k hlast hmem
  have hstale := hsub hmem
  rw [Store.dropped] at hstale
  split at hstale
  · exact hdisk.dead_of_stale k hlast hstale
  · cases hstale

theorem written (hash : RequestHash) (hencode : encode k = some bytes) :
    OnDisk (w.store.written hash.key k t') w.last t' := by
  rw [Store.written, hencode]
  exact (h.dropped hle (List.Subset.refl _)).write hash bytes

theorem placed (hash : RequestHash) (hencode : encode k = some bytes) (ht : t ≤ t')
    (hmem : InMemory (w.store.loaded t') w.last t')
    (hsub : removed ⊆ expired (w.store.loaded t') t)
    (hown : live k.atSecs t → fileOf hash.key ∉ removed) :
    OnDisk (w.store.placed hash.key k t' removed)
      (Function.update w.last hash.key (some k)) t' := by
  rw [Store.placed, Store.written, hencode]
  refine ((h.dropped hle (List.Subset.refl _)).rename hash (decode_encode hencode)).removeAll ?_
  intro hash' k' hlast hfile
  rw [← Bool.not_eq_true]
  intro hlive
  by_cases hkey : hash'.key = hash.key
  · rw [hkey, Function.update_self, Option.some.injEq] at hlast
    rw [← hlast] at hlive
    exact hown (live_mono ht hlive) (hkey ▸ hfile)
  · rw [Function.update_of_ne hkey] at hlast
    obtain ⟨key, old, hlookup, hdead, hname⟩ := mem_expired.mp (hsub hfile)
    rw [← fileOf_inj hname] at hlookup
    obtain rfl := Option.some.inj ((hmem.kept _ _ hlookup).symm.trans hlast)
    rw [live_mono ht hlive] at hdead
    cases hdead

end Agree

theorem lt_of_le_clock {a b : UInt64} (hle : a ≤ b) (hlt : b < 2 ^ 63) : a < 2 ^ 63 :=
  UInt64.lt_of_le_of_lt hle hlt

theorem agree_step (w : World) (e : Event) (h : Agree w) (hp : w.Possible e) (hs : w.Sound e) :
    Agree (w.step e) := by
  cases e with
  | keep hash k t t' =>
    obtain ⟨hclock, ht, hmax, hat, hencode⟩ := hp
    obtain ⟨bytes, hencode⟩ := Option.isSome_iff_exists.mp hencode
    have hle := UInt64.le_trans hclock ht
    have hmem := h.loaded hle hs.1
    exact {
      onDisk := h.placed hle hash hencode ht hmem (List.Subset.refl _) hs.2
      inMemory := by
        rintro m ⟨⟩
        exact hmem.keep ht
      timely := h.timely.update hash (lt_of_le_clock (UInt64.le_trans hat ht) hmax) }
  | get hash t' now =>
    obtain ⟨hle, hnow, -⟩ := hp
    exact {
      onDisk := (h.dropped hle (List.Subset.refl _)).mono hnow
      inMemory := by
        rintro m ⟨⟩
        exact (h.loaded hle hs).mono hnow
      timely := h.timely }
  | keepCut hash k t t' cut =>
    obtain ⟨⟨hclock, ht, hmax, hat, hencode⟩, hcut⟩ := hp
    obtain ⟨bytes, hencode⟩ := Option.isSome_iff_exists.mp hencode
    have hle := UInt64.le_trans hclock ht
    cases cut with
    | loading removed => exact ⟨h.dropped hle hcut, nofun, h.timely⟩
    | written => exact ⟨h.written hle hash hencode, nofun, h.timely⟩
    | placed removed =>
      have hmem := h.loaded hle hs.1
      exact ⟨h.placed hle hash hencode ht hmem hcut hs.2, nofun,
        h.timely.update hash (lt_of_le_clock (UInt64.le_trans hat ht) hmax)⟩
  | getCut t' removed => exact ⟨h.dropped hp.1 hp.2.2, nofun, h.timely⟩
  | restart => exact ⟨h.onDisk, nofun, h.timely⟩

theorem live_iff {atSecs : UInt64} (now : UInt64) (h : atSecs < 2 ^ 63) :
    live atSecs now = true ↔ now.toNat ≤ atSecs.toNat + keepSecs.toNat := by
  have hlt := UInt64.lt_iff_toNat_lt.mp h
  have hkeep : keepSecs.toNat = 32400 := rfl
  rw [live, decide_eq_true_eq, UInt64.le_iff_toNat_le, UInt64.toNat_add, hkeep, Nat.mod_eq_of_lt]
  have hpow : (2 ^ 63 : UInt64).toNat = 2 ^ 63 := by decide +kernel
  omega

theorem Agree.restoresKept (h : Agree w) (hle : w.clock ≤ t') (hno : w.NoLeftover t') :
    w.RestoresKept t' := by
  intro hm key k hlookup
  have hmem := h.loaded hle hno
  rw [Store.loaded, hm, Option.getD_none] at hmem
  rw [hmem.kept key k hlookup, Option.isSome_some]

theorem InMemory.get_eq (hmem : InMemory m last t') (hlast : Timely last) (hnow : t' ≤ now) :
    (m.lookup key).filter (fun k => live k.atSecs now) =
      (last key).filter fun k => now.toNat ≤ k.atSecs.toNat + keepSecs.toNat := by
  cases hkey : last key with
  | none =>
    have hnone : m.lookup key = none := by
      rw [Option.eq_none_iff_forall_ne_some]
      intro k hlookup
      rw [hmem.kept key k hlookup] at hkey
      cases hkey
    rw [hnone, Option.filter_none, Option.filter_none]
  | some k =>
    have hiff := live_iff now (hlast.times key k hkey)
    cases hlive : live k.atSecs now with
    | true =>
      have hlookup := hmem.present key k hkey (live_mono hnow hlive)
      rw [hlookup]
      simp [Option.filter_some, hlive, hiff.mp hlive]
    | false =>
      have hdead : ¬now.toNat ≤ k.atSecs.toNat + keepSecs.toNat := by
        rw [← hiff, hlive]
        exact Bool.false_ne_true
      have hnone : (m.lookup key).filter (fun k => live k.atSecs now) = none := by
        rw [Option.filter_eq_none_iff]
        intro k' hlookup
        rw [hmem.kept key k' hlookup, Option.some.injEq] at hkey
        rw [hkey, hlive]
        exact Bool.false_ne_true
      rw [hnone]
      simp [Option.filter_some, hdead]

theorem Agree.right (h : Agree w) {e : Event} (hp : w.Possible e) (hs : w.Sound e) : w.Right e := by
  cases e with
  | keep hash k t t' => exact h.restoresKept (UInt64.le_trans hp.1 hp.2.1) hs.1
  | get hash t' now =>
    exact ⟨h.restoresKept hp.1 hs, (h.loaded hp.1 hs).get_eq h.timely hp.2.1⟩
  | keepCut hash k t t' cut =>
    apply h.restoresKept (UInt64.le_trans hp.1.1 hp.1.2.1)
    cases cut with
    | loading removed => exact hs
    | written => exact hs
    | placed removed => exact hs.1
  | getCut t' removed => exact h.restoresKept hp.1 hs
  | restart => trivial

/-- In a run where no temporary file is loaded and no live trace is kept over an expired one,
every `get` finds the trace that was last kept for as long as it is to be kept, and every load
restores keys that were kept. -/
theorem gets_last_kept (evs : List Event) (hp : Meets World.step World.Possible World.init evs)
    (hs : Meets World.step World.Sound World.init evs) :
    Meets World.step World.Right World.init evs := by
  have hboth := (hp.and hs).with_invariant (P := Agree)
    (fun w e hw h => agree_step w e h hw.1 hw.2) agree_init
  exact hboth.mono fun w e hw => hw.2.right hw.1.1 hw.1.2

/-! ## Two runs -/

def someHash : RequestHash where
  chars := List.replicate 64 'a'
  length := rfl
  hex c hc := by
    rw [List.eq_of_mem_replicate hc]
    rfl

def someRecord : TraceRecord where
  stage := 1
  nPrompt := 1
  nPos := 2
  ubatch := [1, 1]
  nLeaves := 1
  leaves := [Vector.replicate 32 5, Vector.replicate 32 6]
  posRoots := [Vector.replicate 32 5, Vector.replicate 32 6]
  traceRoot := Vector.replicate 32 7
  tokensRoot := none

def someKept (atSecs : UInt64) : Kept where
  modelId := Vector.replicate 32 1
  tier := 0
  requestHash := Vector.replicate 32 170
  maxTokens := 16
  atSecs
  trace := ⟨someRecord, [3, 4], none⟩

/-- A restart between a `keep` and a `get`. -/
def restartedRun : List Event :=
  [.keep someHash (someKept 100) 100 100, .restart, .get someHash 200 200]

/-- A second answer to a request whose first one has expired. -/
def expiredRun : List Event :=
  [.keep someHash (someKept 100) 100 100, .keep someHash (someKept 40000) 40000 40000, .restart,
    .get someHash 40000 40000]

theorem isSome_encode_someKept (atSecs : UInt64) : (encode (someKept atSecs)).isSome := rfl

theorem gets_last_kept_restarted : Meets World.step World.Right World.init restartedRun := by
  apply gets_last_kept restartedRun
  · exact ⟨⟨by decide, by decide, by decide +kernel, by decide, isSome_encode_someKept _⟩, trivial,
      ⟨by decide, by decide, by decide +kernel⟩, trivial⟩
  · refine ⟨⟨nofun, fun _ => by decide +kernel⟩, trivial, ?_, trivial⟩
    intro _ hash bytes k hlookup
    have hfile := (Directory.lookup_removeAll.mp hlookup).1
    change AList.lookup _ (Directory.rename (Directory.write _ _ _) _ _) = _ at hfile
    rw [Directory.lookup_write_rename, if_neg RequestHash.tmpOf_ne_fileOf] at hfile
    split at hfile
    · cases hfile
    · cases hfile

theorem kept_trace_lost : Meets World.step World.Possible World.init expiredRun ∧
    ¬Meets World.step World.Right World.init expiredRun := by
  refine ⟨⟨⟨by decide, by decide, by decide +kernel, by decide, isSome_encode_someKept _⟩,
    ⟨by decide +kernel, by decide, by decide +kernel, by decide, isSome_encode_someKept _⟩, trivial,
    ⟨by decide, by decide, by decide +kernel⟩, trivial⟩, ?_⟩
  rintro ⟨-, -, -, ⟨-, hget⟩, -⟩
  exact absurd hget (by decide +kernel)

end KeryxMiner.Stratum.Traces
