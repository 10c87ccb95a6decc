import KeryxMiner.Escrow.Select

/-!
# Which batch is selected

A selected batch is safe to claim, and no batch is selected only where no window has a full batch of
uncapped entries and no entry of another pool can be claimed (`selectClaimBatch_safe_complete`). A
pass takes an entry unless the batch is full, so a nominal batch has as many entries as its window
has, up to the limit (`length_nominal`), and every other batch is empty only if its pool is.
-/

namespace KeryxMiner.Escrow

/-- The pool that an entry waits in. -/
inductive Pool
  | uncapped
  /-- Capped by a bisection. -/
  | capped
  | provenDead
  deriving DecidableEq

def EscrowEntry.pool (e : EscrowEntry) : Pool :=
  if e.orphanSlashed then .provenDead else if e.batchCap = 0 then .uncapped else .capped

/-- The entry can be claimed now. -/
structure Spendable (daaScore : Nat) (inFlightOutpoints : Finset String) (e : EscrowEntry) :
    Prop where
  unclaimed : e.claimed = false
  unslashed : e.slashed = false
  mature : e.confirmDaa + e.csvWindow + 10 ≤ daaScore
  cooled : ∀ retryDaa, e.orphanRetryAfterDaa = some retryDaa → retryDaa ≤ daaScore
  free : e.key ∉ inFlightOutpoints

variable {X : Externals} {entries : List EscrowEntry} {daaScore currentWindow pass w : Nat}
  {inFlightOutpoints : Finset String} {e : EscrowEntry} {f : Filling} {indices : List Nat}
  {c : Nat × Option Nat} {cs : List (Nat × Option Nat)}

theorem eligible_iff : eligible daaScore inFlightOutpoints e ↔ Spendable daaScore inFlightOutpoints e := by
  simp only [eligible, Bool.and_eq_true, Bool.not_eq_true', decide_eq_true_eq]
  constructor
  · rintro ⟨⟨⟨⟨hclaimed, hslashed⟩, hmature⟩, hcooled⟩, hfree⟩
    refine ⟨hclaimed, hslashed, hmature, ?_, hfree⟩
    intro retryDaa hretry
    rw [hretry] at hcooled
    exact of_decide_eq_true hcooled
  · rintro ⟨hclaimed, hslashed, hmature, hcooled, hfree⟩
    refine ⟨⟨⟨⟨hclaimed, hslashed⟩, hmature⟩, ?_⟩, hfree⟩
    cases hretry : e.orphanRetryAfterDaa with
    | none => rfl
    | some retryDaa => exact decide_eq_true (hcooled retryDaa hretry)

instance : Decidable (Spendable daaScore inFlightOutpoints e) := decidable_of_iff _ eligible_iff

/-! ## Passes -/

theorem inPass_nominal : inPass currentWindow 0 e ↔ e.pool = .uncapped := by
  cases h : e.orphanSlashed <;> by_cases hcap : e.batchCap = 0 <;>
    simp [inPass, EscrowEntry.pool, h, hcap]

theorem inPass_repair : inPass currentWindow 1 e ↔ e.pool = .capped := by
  cases h : e.orphanSlashed <;> by_cases hcap : e.batchCap = 0 <;>
    simp [inPass, EscrowEntry.pool, h, hcap]

theorem inPass_drain :
    inPass currentWindow 2 e ↔ e.pool = .uncapped ∧ e.csvWindow ≠ currentWindow := by
  cases h : e.orphanSlashed <;> by_cases hcap : e.batchCap = 0 <;>
    simp [inPass, EscrowEntry.pool, h, hcap]

theorem inPass_dead (h : 3 ≤ pass) : inPass currentWindow pass e ↔ e.pool = .provenDead := by
  obtain ⟨n, rfl⟩ := Nat.exists_eq_add_of_le' h
  cases h : e.orphanSlashed <;> by_cases hcap : e.batchCap = 0 <;>
    simp [inPass, EscrowEntry.pool, h, hcap]

/-- The entries of a pass are of one pool. -/
theorem exists_pool (currentWindow pass : Nat) :
    ∃ pool, ∀ e, inPass currentWindow pass e → e.pool = pool := by
  match pass with
  | 0 => exact ⟨_, fun e => inPass_nominal.mp⟩
  | 1 => exact ⟨_, fun e => inPass_repair.mp⟩
  | 2 => exact ⟨_, fun e h => (inPass_drain.mp h).1⟩
  | n + 3 => exact ⟨_, fun e => (inPass_dead (Nat.le_add_left 3 n)).mp⟩

theorem joins_iff : joins daaScore inFlightOutpoints currentWindow pass f e ↔
    inPass currentWindow pass e ∧ Spendable daaScore inFlightOutpoints e ∧
      (∀ w ∈ f.batchWindow, w = e.csvWindow) ∧ f.batch.length < min e.cap f.limit := by
  have hroom : ¬min e.cap f.limit < f.batch.length + 1 ↔ f.batch.length < min e.cap f.limit := by
    omega
  simp only [joins, Bool.and_eq_true, Bool.not_eq_true', decide_eq_false_iff_not, eligible_iff,
    and_assoc, hroom]
  apply and_congr_right'
  apply and_congr_right'
  apply and_congr_left'
  cases f.batchWindow with
  | none => exact iff_of_true rfl fun w hw => absurd hw (Option.not_mem_none w)
  | some w =>
    rw [bne_eq_false_iff_eq]
    exact ⟨fun h _ hw => Option.some.inj hw ▸ h, fun h => h w rfl⟩

theorem cap_pos (e : EscrowEntry) : 0 < e.cap := by
  rw [EscrowEntry.cap]
  split
  · decide
  · rw [Nat.lt_min]
    exact ⟨Nat.pos_of_ne_zero ‹_›, by decide⟩

theorem cap_of_uncapped (h : e.pool = .uncapped) : e.cap = maxClaimBatch := by
  by_cases hcap : e.batchCap = 0
  · exact if_pos hcap
  · cases hdead : e.orphanSlashed <;> simp [EscrowEntry.pool, hdead, hcap] at h

/-! ## One candidate -/

/-- Every member of a batch is an entry of the pass. -/
theorem inPass_of_mem {i : Nat}
    (h : i ∈ (fillBatch entries daaScore inFlightOutpoints currentWindow pass indices f).batch) :
    i ∈ f.batch ∨ ∃ e, entries[i]? = some e ∧ inPass currentWindow pass e := by
  induction indices generalizing f with
  | nil => exact .inl h
  | cons j indices ih =>
    rw [fillBatch] at h
    split at h
    · exact ih h
    · next e he =>
      split at h
      · next hjoins =>
        have hjoin : i ∈ (f.join j e).batch →
            i ∈ f.batch ∨ ∃ e, entries[i]? = some e ∧ inPass currentWindow pass e := by
          intro hmem
          obtain hmem | hmem := List.mem_append.mp hmem
          · exact .inl hmem
          · obtain rfl := List.mem_singleton.mp hmem
            exact .inr ⟨e, he, (joins_iff.mp hjoins).1⟩
        split at h
        · exact hjoin h
        · exact (ih h).elim hjoin .inr
      · exact ih h

/-- A batch only grows. -/
theorem prefix_fillBatch : f.batch <+:
    (fillBatch entries daaScore inFlightOutpoints currentWindow pass indices f).batch := by
  induction indices generalizing f with
  | nil => exact List.prefix_rfl
  | cons j indices ih =>
    rw [fillBatch]
    split
    · exact ih
    · next e he =>
      have hjoin : f.batch <+: (f.join j e).batch := List.prefix_append ..
      split
      · split
        · exact hjoin
        · exact hjoin.trans ih
      · exact ih

/-- The entries that a pass without a window of its own can start with. -/
def Startable (daaScore : Nat) (inFlightOutpoints : Finset String) (currentWindow pass : Nat)
    (e : EscrowEntry) : Prop :=
  inPass currentWindow pass e ∧ Spendable daaScore inFlightOutpoints e

theorem fillBatch_eq_nil : (fillBatch entries daaScore inFlightOutpoints currentWindow pass indices
      ⟨maxClaimBatch, none, []⟩).batch = [] ↔
    ∀ i ∈ indices, ∀ e, entries[i]? = some e →
      ¬Startable daaScore inFlightOutpoints currentWindow pass e := by
  have hjoins : ∀ e, joins daaScore inFlightOutpoints currentWindow pass
      ⟨maxClaimBatch, none, []⟩ e ↔ Startable daaScore inFlightOutpoints currentWindow pass e := by
    intro e
    rw [joins_iff]
    have hroom : 0 < min e.cap maxClaimBatch := Nat.lt_min.mpr ⟨cap_pos e, by decide⟩
    simp [Startable, hroom]
  induction indices with
  | nil => simp [fillBatch]
  | cons i indices ih =>
    rw [List.forall_mem_cons, fillBatch]
    split
    · next hnone =>
      rw [hnone]
      simpa using ih
    · next e he =>
      have hfirst : (∀ e', entries[i]? = some e' →
          ¬Startable daaScore inFlightOutpoints currentWindow pass e') ↔
            ¬Startable daaScore inFlightOutpoints currentWindow pass e := by rw [he]; simp
      rw [hfirst, ← hjoins e]
      split
      · next hj =>
        refine iff_of_false ?_ fun h => h.1 hj
        split
        · simp [Filling.join]
        · intro hnil
          have hstarts : (Filling.join ⟨maxClaimBatch, none, []⟩ i e).batch <+:
              (fillBatch entries daaScore inFlightOutpoints currentWindow pass indices
                (Filling.join ⟨maxClaimBatch, none, []⟩ i e)).batch := prefix_fillBatch
          rw [hnil, List.prefix_nil] at hstarts
          simp [Filling.join] at hstarts
      · next hj => simpa [hj] using ih

/-! ## The nominal pass -/

/-- The entries that the nominal pass of a window takes. -/
def nominal (daaScore : Nat) (inFlightOutpoints : Finset String) (w : Nat) (e : EscrowEntry) : Bool :=
  decide (e.pool = .uncapped) && decide (Spendable daaScore inFlightOutpoints e) && e.csvWindow == w

theorem nominal_iff : nominal daaScore inFlightOutpoints w e ↔
    e.pool = .uncapped ∧ Spendable daaScore inFlightOutpoints e ∧ e.csvWindow = w := by
  simp [nominal, and_assoc]

theorem countP_indices (p : EscrowEntry → Bool) :
    (List.range entries.length).countP (fun i => (entries[i]?.map p).getD false) =
      entries.countP p := by
  have hget : (List.range entries.length).map (entries[·]?) = entries.map some := by
    apply List.ext_getElem
    · simp
    · intro i hi hi'
      simp at hi hi'
      simp [hi]
  have hcount := congrArg (List.countP fun o => (o.map p).getD false) hget
  rw [List.countP_map, List.countP_map] at hcount
  exact hcount

theorem countP_passIndices (p : Nat → Bool) :
    (passIndices entries pass).countP p = (List.range entries.length).countP p := by
  rw [passIndices]
  split
  · exact ((List.filter_append_perm _ _).countP_eq p)
  · rfl

/-- A nominal pass takes every entry of its window until the batch is full. -/
theorem length_fillBatch (hlimit : f.limit = maxClaimBatch) (hwindow : f.batchWindow = some w)
    (hlt : f.batch.length < maxClaimBatch) :
    (fillBatch entries daaScore inFlightOutpoints currentWindow 0 indices f).batch.length =
      min maxClaimBatch (f.batch.length + indices.countP fun i =>
        (entries[i]?.map (nominal daaScore inFlightOutpoints w)).getD false) := by
  induction indices generalizing f with
  | nil => simp [fillBatch, Nat.le_of_lt hlt]
  | cons i indices ih =>
    rw [fillBatch, List.countP_cons]
    split
    · next hnone => simpa [hnone] using ih hlimit hwindow hlt
    · next e he =>
      have hjoins : joins daaScore inFlightOutpoints currentWindow 0 f e ↔
          nominal daaScore inFlightOutpoints w e := by
        rw [joins_iff, nominal_iff, inPass_nominal, hwindow, hlimit]
        constructor
        · rintro ⟨hpool, hspend, hw, -⟩
          exact ⟨hpool, hspend, (hw w rfl).symm⟩
        · rintro ⟨hpool, hspend, hw⟩
          refine ⟨hpool, hspend, ?_, ?_⟩
          · rintro _ ⟨⟩
            exact hw.symm
          · rw [cap_of_uncapped hpool, Nat.min_self]
            exact hlt
      rw [he, Option.map_some, Option.getD_some]
      split
      · next hj =>
        have hnominal := hjoins.mp hj
        obtain ⟨hpool, -, hw⟩ := nominal_iff.mp hnominal
        have hlimit' : (f.join i e).limit = maxClaimBatch := by
          rw [Filling.join, hlimit, cap_of_uncapped hpool, Nat.min_self]
        have hlength : (f.join i e).batch.length = f.batch.length + 1 := by simp [Filling.join]
        rw [hnominal, if_pos rfl]
        split
        · next hfull =>
          rw [hlimit'] at hfull
          omega
        · next hroom =>
          rw [hlimit', Nat.not_le] at hroom
          rw [ih hlimit' (congrArg some hw) hroom, hlength]
          omega
      · next hj =>
        have hnot : nominal daaScore inFlightOutpoints w e = false :=
          Bool.eq_false_iff.mpr fun h => hj (hjoins.mpr h)
        rw [hnot, ih hlimit hwindow hlt]
        simp

/-- A window has a full nominal batch. -/
theorem length_nominal : (candidateBatch entries daaScore inFlightOutpoints currentWindow
      (0, some w)).length =
    min maxClaimBatch (entries.countP (nominal daaScore inFlightOutpoints w)) := by
  have hroom : (Filling.mk maxClaimBatch (some w) []).batch.length < maxClaimBatch :=
    Nat.zero_lt_succ 86
  rw [candidateBatch, length_fillBatch rfl rfl hroom, countP_passIndices, countP_indices,
    List.length_nil, Nat.zero_add]

/-! ## All candidates -/

theorem mem_destutter'_ne {v a : Nat} {l : List Nat} :
    v ∈ l.destutter' (· ≠ ·) a ↔ v = a ∨ v ∈ l := by
  induction l generalizing a with
  | nil => simp
  | cons b l ih =>
    by_cases hab : a = b
    · subst hab
      rw [List.destutter'_cons_neg l (by simp), ih, List.mem_cons]
      tauto
    · rw [List.destutter'_cons_pos l hab, List.mem_cons, ih, List.mem_cons]

theorem mem_candidateWindows : w ∈ candidateWindows entries currentWindow ↔
    ∃ e ∈ entries, e.csvWindow = w := by
  have hmem : ∀ l : List Nat, w ∈ l.destutter (· ≠ ·) ↔ w ∈ l := by
    intro l
    cases l with
    | nil => simp
    | cons a l => rw [List.destutter_cons', mem_destutter'_ne, List.mem_cons]
  rw [candidateWindows, hmem, List.mem_insertionSort, List.mem_map]

/-- No candidate is releasable. -/
theorem firstReleasable_eq_nil : firstReleasable entries daaScore inFlightOutpoints currentWindow cs
      = [] ↔ ∀ c ∈ cs, ¬releasable c.1 (candidateBatch entries daaScore inFlightOutpoints
        currentWindow c) := by
  induction cs with
  | nil => simp [firstReleasable]
  | cons c cs ih =>
    rw [firstReleasable, List.forall_mem_cons]
    split
    · next hrel =>
      refine iff_of_false ?_ fun h => h.1 hrel
      intro hnil
      rw [hnil, releasable.eq_def] at hrel
      split at hrel
      · cases hrel
      · cases hrel
    · next hrel => simpa [hrel] using ih

/-- The batch selected is the one of the first releasable candidate. -/
theorem firstReleasable_eq : firstReleasable entries daaScore inFlightOutpoints currentWindow cs =
    ((cs.find? fun c => releasable c.1 (candidateBatch entries daaScore inFlightOutpoints
      currentWindow c)).map (candidateBatch entries daaScore inFlightOutpoints currentWindow)).getD
        [] := by
  induction cs with
  | nil => rfl
  | cons c cs ih =>
    rw [firstReleasable, List.find?_cons]
    split
    · next hrel => rw [hrel]; rfl
    · next hrel => rw [Bool.eq_false_iff.mpr hrel]; exact ih

/-- There is nothing to claim: no window has a full batch of uncapped entries, and every entry that
can be claimed is an uncapped one of the current window. -/
structure NothingToClaim (entries : List EscrowEntry) (daaScore : Nat)
    (inFlightOutpoints : Finset String) (currentWindow : Nat) : Prop where
  nominal : ∀ w, entries.countP (nominal daaScore inFlightOutpoints w) < maxClaimBatch
  others : ∀ e ∈ entries, Spendable daaScore inFlightOutpoints e →
    e.pool = .uncapped ∧ e.csvWindow = currentWindow

theorem releasable_nominal : releasable 0 (candidateBatch entries daaScore inFlightOutpoints
      currentWindow (0, some w)) ↔
    maxClaimBatch ≤ entries.countP (nominal daaScore inFlightOutpoints w) := by
  rw [releasable, decide_eq_true_eq, length_nominal, minClaimBatch]
  omega

theorem releasable_other (h : pass ≠ 0) : releasable pass (candidateBatch entries daaScore
      inFlightOutpoints currentWindow (pass, none)) ↔
    ∃ e ∈ entries, Startable daaScore inFlightOutpoints currentWindow pass e := by
  have hrel : releasable pass (candidateBatch entries daaScore inFlightOutpoints currentWindow
      (pass, none)) ↔ candidateBatch entries daaScore inFlightOutpoints currentWindow
        (pass, none) ≠ [] := by
    cases pass with
    | zero => exact absurd rfl h
    | succ n => simp [releasable]
  rw [hrel, candidateBatch, Ne, fillBatch_eq_nil, passIndices, if_neg h]
  simp only [List.mem_range, not_forall, not_not]
  constructor
  · rintro ⟨i, -, e, he, hstart⟩
    exact ⟨e, List.mem_of_getElem? he, hstart⟩
  · rintro ⟨e, he, hstart⟩
    obtain ⟨i, hi, rfl⟩ := List.getElem_of_mem he
    exact ⟨i, hi, _, List.getElem?_eq_getElem hi, hstart⟩

/-- No batch is selected exactly where there is nothing to claim. -/
theorem selectClaimBatch_eq_nil : selectClaimBatch X entries daaScore inFlightOutpoints = [] ↔
    NothingToClaim entries daaScore inFlightOutpoints (csvWindowForDaa X daaScore) := by
  rw [selectClaimBatch]
  generalize csvWindowForDaa X daaScore = currentWindow
  rw [firstReleasable_eq_nil]
  constructor
  · intro h
    constructor
    · intro w
      by_cases hw : w ∈ candidateWindows entries currentWindow
      · have hrel := h (0, some w) (List.mem_append_left _ (List.mem_map_of_mem hw))
        rw [releasable_nominal] at hrel
        omega
      · have hzero : entries.countP (nominal daaScore inFlightOutpoints w) = 0 := by
          rw [List.countP_eq_zero]
          intro e he hnominal
          exact hw (mem_candidateWindows.mpr ⟨e, he, (nominal_iff.mp hnominal).2.2⟩)
        rw [hzero]
        decide
    · intro e he hspend
      have hnot : ∀ pass, pass ∈ [1, 2, 3] → ¬inPass currentWindow pass e := by
        intro pass hpass hin
        have hmem : (pass, none) ∈ candidates entries currentWindow := by
          apply List.mem_append_right
          simpa using hpass
        have hne : pass ≠ 0 := by
          rintro rfl
          simp at hpass
        exact h _ hmem ((releasable_other hne).mpr ⟨e, he, hin, hspend⟩)
      have hcapped := mt inPass_repair.mpr (hnot 1 (by decide))
      have hdrain := mt inPass_drain.mpr (hnot 2 (by decide))
      have hdead := mt (inPass_dead (Nat.le_refl 3)).mpr (hnot 3 (by decide))
      have hpool : e.pool = .uncapped := by
        cases hp : e.pool with
        | uncapped => rfl
        | capped => exact absurd hp hcapped
        | provenDead => exact absurd hp hdead
      exact ⟨hpool, not_not.mp fun hne => hdrain ⟨hpool, hne⟩⟩
  · intro h c hc
    obtain hc | hc := List.mem_append.mp hc
    · obtain ⟨w, -, rfl⟩ := List.mem_map.mp hc
      rw [releasable_nominal, Nat.not_le]
      exact h.nominal w
    · have hothers : ∀ pass, pass ≠ 0 → (∀ e, inPass currentWindow pass e →
          ¬(e.pool = .uncapped ∧ e.csvWindow = currentWindow)) →
          ¬releasable pass (candidateBatch entries daaScore inFlightOutpoints currentWindow
            (pass, none)) := by
        intro pass hne hpass hrel
        obtain ⟨e, he, hin, hspend⟩ := (releasable_other hne).mp hrel
        exact hpass e hin (h.others e he hspend)
      simp only [List.mem_cons, List.not_mem_nil, or_false] at hc
      obtain rfl | rfl | rfl := hc
      · refine hothers 1 (by decide) fun e hin hpool => ?_
        rw [inPass_repair, hpool.1] at hin
        cases hin
      · refine hothers 2 (by decide) fun e hin hpool => ?_
        exact (inPass_drain.mp hin).2 hpool.2
      · refine hothers 3 (by decide) fun e hin hpool => ?_
        rw [inPass_dead (Nat.le_refl 3), hpool.1] at hin
        cases hin

/-! ## The selected batch -/

/-- A batch that is safe to claim. -/
structure SafeBatch (entries : List EscrowEntry) (daaScore : Nat) (inFlightOutpoints : Finset String)
    (batch : List Nat) : Prop where
  distinct : batch.Nodup
  length_le : batch.length ≤ maxClaimBatch
  spendable : ∀ i ∈ batch, ∃ e, entries[i]? = some e ∧ Spendable daaScore inFlightOutpoints e
  cap : ∀ i ∈ batch, ∀ e, entries[i]? = some e → e.batchCap ≠ 0 → batch.length ≤ e.batchCap
  window : ∀ i ∈ batch, ∀ j ∈ batch, ∀ e e', entries[i]? = some e → entries[j]? = some e' →
    e.csvWindow = e'.csvWindow
  pool : ∀ i ∈ batch, ∀ j ∈ batch, ∀ e e', entries[i]? = some e → entries[j]? = some e' →
    e.pool = e'.pool

theorem SafeBatch.nil : SafeBatch entries daaScore inFlightOutpoints [] where
  distinct := List.nodup_nil
  length_le := Nat.zero_le _
  spendable := nofun
  cap := nofun
  window := nofun
  pool := nofun

theorem candidateBatch_safe : SafeBatch entries daaScore inFlightOutpoints
    (candidateBatch entries daaScore inFlightOutpoints currentWindow c) := by
  have hbatch : ClaimBatch entries daaScore inFlightOutpoints
      (candidateBatch entries daaScore inFlightOutpoints currentWindow c) :=
    candidateBatch_claimBatch currentWindow c
  obtain ⟨pool, hpool⟩ := exists_pool currentWindow c.1
  have hmember : ∀ i ∈ candidateBatch entries daaScore inFlightOutpoints currentWindow c, ∀ e,
      entries[i]? = some e → e.pool = pool := by
    intro i hi e he
    obtain hnil | ⟨e', he', hin⟩ := inPass_of_mem hi
    · cases hnil
    · obtain rfl := Option.some.inj (he.symm.trans he')
      exact hpool e hin
  refine ⟨hbatch.nodup, ?_, ?_, ?_, hbatch.window, ?_⟩
  · cases hlist : candidateBatch entries daaScore inFlightOutpoints currentWindow c with
    | nil => exact Nat.zero_le _
    | cons i rest =>
      have hi : i ∈ candidateBatch entries daaScore inFlightOutpoints currentWindow c := by
        rw [hlist]
        exact List.mem_cons_self
      obtain ⟨e, he, -⟩ := hbatch.eligible i hi
      rw [← hlist]
      exact (hbatch.cap i hi e he).trans e.cap_le
  · intro i hi
    obtain ⟨e, he, heligible⟩ := hbatch.eligible i hi
    exact ⟨e, he, eligible_iff.mp heligible⟩
  · intro i hi e he hcap
    exact (hbatch.cap i hi e he).trans (EscrowEntry.cap_le_batchCap hcap)
  · intro i hi j hj e e' he he'
    rw [hmember i hi e he, hmember j hj e' he']

/-- A selected batch is safe, and it is empty only if there is nothing to claim. -/
theorem selectClaimBatch_safe_complete (X : Externals) (entries : List EscrowEntry) (daaScore : Nat)
    (inFlightOutpoints : Finset String) :
    SafeBatch entries daaScore inFlightOutpoints
        (selectClaimBatch X entries daaScore inFlightOutpoints) ∧
      (selectClaimBatch X entries daaScore inFlightOutpoints = [] →
        NothingToClaim entries daaScore inFlightOutpoints (csvWindowForDaa X daaScore)) := by
  refine ⟨?_, selectClaimBatch_eq_nil.mp⟩
  rw [selectClaimBatch, firstReleasable_eq]
  cases List.find? _ _ with
  | none => exact SafeBatch.nil
  | some c => exact candidateBatch_safe

end KeryxMiner.Escrow
