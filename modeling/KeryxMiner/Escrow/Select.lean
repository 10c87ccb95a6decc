import KeryxMiner.Escrow.Basic
import Mathlib.Data.List.Sort
import Mathlib.Data.List.Destutter

/-!
# Selection of the next claim batch

`selectClaimBatch` is `select_claim_batch` of `escrow.rs`: candidates are tried in priority order
and the first releasable one wins. Every batch it returns is a `ClaimBatch`: distinct indices of
eligible entries of one window, within the input limit and within the cap of each of them.
-/

namespace KeryxMiner.Escrow

variable (X : Externals) (entries : List EscrowEntry) (daaScore : Nat)
  (inFlightOutpoints : Finset String)

/-- The pass of a candidate: 0 nominal, 1 repair, 2 drain, 3 the known-dead pool. -/
def inPass (currentWindow pass : Nat) (e : EscrowEntry) : Bool :=
  match pass with
  | 0 => e.batchCap == 0 && !e.orphanSlashed
  | 1 => e.batchCap != 0 && !e.orphanSlashed
  | 2 => e.batchCap == 0 && !e.orphanSlashed && e.csvWindow != currentWindow
  | _ => e.orphanSlashed

/-- DAA scores are naturals, as `confirm_daa + csv_window + 10 < 2 ^ 64` for the scores of a chain. -/
def eligible (e : EscrowEntry) : Bool :=
  !e.claimed && !e.slashed && decide (daaScore ≥ e.confirmDaa + e.csvWindow + 10) &&
    (match e.orphanRetryAfterDaa with
      | none => true
      | some retryDaa => decide (daaScore ≥ retryDaa)) &&
    decide (e.key ∉ inFlightOutpoints)

/-- The largest batch an entry may join. -/
def EscrowEntry.cap (e : EscrowEntry) : Nat :=
  if e.batchCap = 0 then maxClaimBatch else min e.batchCap maxClaimBatch

/-- The variables of the loop over one candidate. -/
structure Filling where
  limit : Nat
  batchWindow : Option Nat
  batch : List Nat

/-- The entry may join: of the pass, eligible, of the batch's window and within the caps. -/
def joins (currentWindow pass : Nat) (f : Filling) (e : EscrowEntry) : Bool :=
  inPass currentWindow pass e && eligible daaScore inFlightOutpoints e &&
    !(match f.batchWindow with
      | none => false
      | some w => w != e.csvWindow) &&
    !decide (min e.cap f.limit < f.batch.length + 1)

def Filling.join (f : Filling) (i : Nat) (e : EscrowEntry) : Filling :=
  ⟨min f.limit e.cap, some e.csvWindow, f.batch ++ [i]⟩

/-- The loop over the entries of one candidate. -/
def fillBatch (currentWindow pass : Nat) : List Nat → Filling → Filling
  | [], f => f
  | i :: indices, f =>
    match entries[i]? with
    | none => fillBatch currentWindow pass indices f
    | some e =>
      if joins daaScore inFlightOutpoints currentWindow pass f e then
        if (f.join i e).batch.length ≥ (f.join i e).limit then f.join i e
        else fillBatch currentWindow pass indices (f.join i e)
      else fillBatch currentWindow pass indices f

/-- The order in which a pass visits the entries. Sorting by `!is_inference` is stable, so it puts
the inference entries first and keeps the queue order within each kind. -/
def passIndices (pass : Nat) : List Nat :=
  let indices := List.range entries.length
  if pass = 0 then
    let inference := fun i => (entries[i]?.map (·.isInference)).getD false
    indices.filter inference ++ indices.filter (!inference ·)
  else indices

def releasable (pass : Nat) (batch : List Nat) : Bool :=
  match pass with
  | 0 => decide (batch.length ≥ minClaimBatch)
  | _ => !batch.isEmpty

/-- The csv windows present, the current one first and then in ascending order. -/
def candidateWindows (currentWindow : Nat) : List Nat :=
  ((entries.map (·.csvWindow)).insertionSort fun v w =>
    w ≠ currentWindow ∧ v = currentWindow ∨ (v = currentWindow ↔ w = currentWindow) ∧ v ≤ w).destutter
      (· ≠ ·)

def candidates (currentWindow : Nat) : List (Nat × Option Nat) :=
  (candidateWindows entries currentWindow).map (fun w => (0, some w)) ++
    [(1, none), (2, none), (3, none)]

def candidateBatch (currentWindow : Nat) (c : Nat × Option Nat) : List Nat :=
  (fillBatch entries daaScore inFlightOutpoints currentWindow c.1 (passIndices entries c.1)
    ⟨maxClaimBatch, c.2, []⟩).batch

/-- The first releasable candidate batch. -/
def firstReleasable (currentWindow : Nat) : List (Nat × Option Nat) → List Nat
  | [] => []
  | c :: cs =>
    let batch := candidateBatch entries daaScore inFlightOutpoints currentWindow c
    if releasable c.1 batch then batch else firstReleasable currentWindow cs

def selectClaimBatch : List Nat :=
  let currentWindow := csvWindowForDaa X daaScore
  firstReleasable entries daaScore inFlightOutpoints currentWindow (candidates entries currentWindow)

/-! ## What a selected batch is -/

/-- A batch of eligible entries, given by index. -/
structure ClaimBatch (batch : List Nat) : Prop where
  nodup : batch.Nodup
  eligible : ∀ i ∈ batch, ∃ e, entries[i]? = some e ∧ eligible daaScore inFlightOutpoints e
  cap : ∀ i ∈ batch, ∀ e, entries[i]? = some e → batch.length ≤ e.cap
  window : ∀ i ∈ batch, ∀ j ∈ batch, ∀ e e', entries[i]? = some e → entries[j]? = some e' →
    e.csvWindow = e'.csvWindow

variable {X entries daaScore inFlightOutpoints}

theorem EscrowEntry.cap_le (e : EscrowEntry) : e.cap ≤ maxClaimBatch := by
  unfold cap; split <;> omega

theorem EscrowEntry.cap_le_batchCap {e : EscrowEntry} (h : e.batchCap ≠ 0) : e.cap ≤ e.batchCap := by
  simp only [cap, if_neg h]; omega

theorem eligible_live {e : EscrowEntry} (h : eligible daaScore inFlightOutpoints e) :
    e.live = true := by
  simp only [eligible, Bool.and_eq_true, Bool.not_eq_true'] at h
  simp [h.1.1.1.1, h.1.1.1.2]

theorem eligible_not_inFlight {e : EscrowEntry} (h : eligible daaScore inFlightOutpoints e) :
    e.key ∉ inFlightOutpoints := by
  simp only [eligible, Bool.and_eq_true, decide_eq_true_eq] at h
  exact h.2

/-- The cool-down of an eligible entry is over. -/
theorem eligible_retryAfter {e : EscrowEntry} (h : eligible daaScore inFlightOutpoints e) :
    e.orphanRetryAfterDaa.getD 0 ≤ daaScore := by
  simp only [eligible, Bool.and_eq_true] at h
  cases hr : e.orphanRetryAfterDaa with
  | none => exact Nat.zero_le _
  | some r => simpa [hr] using h.1.2

theorem ClaimBatch.nil : ClaimBatch entries daaScore inFlightOutpoints [] :=
  ⟨List.nodup_nil, by simp, by simp, by simp⟩

/-- The loop invariant of `fillBatch`. The limit is what keeps the caps: it is at most the cap of
every member, and the batch never outgrows it. -/
structure Filling.Inv (entries : List EscrowEntry) (daaScore : Nat)
    (inFlightOutpoints : Finset String) (f : Filling) : Prop where
  length : f.batch.length ≤ f.limit
  nodup : f.batch.Nodup
  member : ∀ i ∈ f.batch, ∃ e, entries[i]? = some e ∧ Escrow.eligible daaScore inFlightOutpoints e ∧
    f.limit ≤ e.cap ∧ f.batchWindow = some e.csvWindow

theorem Filling.Inv.claimBatch {f : Filling} (H : f.Inv entries daaScore inFlightOutpoints) :
    ClaimBatch entries daaScore inFlightOutpoints f.batch where
  nodup := H.nodup
  eligible i hi := by
    obtain ⟨e, he, hel, _⟩ := H.member i hi
    exact ⟨e, he, hel⟩
  cap i hi e he := by
    obtain ⟨e', he', _, hcap, _⟩ := H.member i hi
    cases he.symm.trans he'
    exact H.length.trans hcap
  window i hi j hj e e' he he' := by
    obtain ⟨a, ha, _, _, hw⟩ := H.member i hi
    obtain ⟨b, hb, _, _, hw'⟩ := H.member j hj
    cases he.symm.trans ha
    cases he'.symm.trans hb
    exact Option.some.inj (hw.symm.trans hw')

theorem Filling.Inv.join {f : Filling} {i pass currentWindow : Nat} {e : EscrowEntry}
    (H : f.Inv entries daaScore inFlightOutpoints) (he : entries[i]? = some e) (hi : i ∉ f.batch)
    (hj : joins daaScore inFlightOutpoints currentWindow pass f e) :
    (f.join i e).Inv entries daaScore inFlightOutpoints := by
  simp only [joins, Bool.and_eq_true, Bool.not_eq_true', decide_eq_false_iff_not] at hj
  obtain ⟨⟨⟨_, hel⟩, hw⟩, hroom⟩ := hj
  refine ⟨?_, ?_, ?_⟩
  · simp only [Filling.join, List.length_append, List.length_singleton]; omega
  · simpa [Filling.join, List.nodup_append, H.nodup] using fun a ha => ne_of_mem_of_not_mem ha hi
  · intro j hj
    rcases List.mem_append.mp hj with hj | hj
    · obtain ⟨e', he', hel', hcap, hw'⟩ := H.member j hj
      refine ⟨e', he', hel', (Nat.min_le_left ..).trans hcap, ?_⟩
      simp only [hw', bne_eq_false_iff_eq] at hw
      rw [Filling.join, hw]
    · cases List.mem_singleton.mp hj
      exact ⟨e, he, hel, Nat.min_le_right .., rfl⟩

theorem fillBatch_inv {currentWindow pass : Nat} {indices : List Nat} {f : Filling}
    (hnd : indices.Nodup) (hdisj : ∀ i ∈ indices, i ∉ f.batch)
    (H : f.Inv entries daaScore inFlightOutpoints) :
    (fillBatch entries daaScore inFlightOutpoints currentWindow pass indices f).Inv
      entries daaScore inFlightOutpoints := by
  induction indices generalizing f with
  | nil => exact H
  | cons i indices ih =>
    obtain ⟨hi, hnd⟩ := List.nodup_cons.mp hnd
    have hskip := ih hnd (fun j hj => hdisj j (List.mem_cons_of_mem _ hj)) H
    simp only [fillBatch]
    split
    · exact hskip
    · next e he =>
      split
      · next hj =>
        have H' := H.join he (hdisj i List.mem_cons_self) hj
        split
        · exact H'
        · refine ih hnd (fun j hj' hmem => ?_) H'
          rcases List.mem_append.mp hmem with hmem | hmem
          · exact hdisj j (List.mem_cons_of_mem _ hj') hmem
          · exact hi (List.mem_singleton.mp hmem ▸ hj')
      · exact hskip

theorem passIndices_nodup (pass : Nat) : (passIndices entries pass).Nodup := by
  unfold passIndices
  split
  · refine List.nodup_append.mpr ⟨List.nodup_range.filter _, List.nodup_range.filter _, ?_⟩
    rintro i hi _ hj rfl
    simp only [List.mem_filter, Bool.not_eq_true'] at hi hj
    exact absurd hi.2 (by simp [hj.2])
  · exact List.nodup_range

theorem candidateBatch_claimBatch (currentWindow : Nat) (c : Nat × Option Nat) :
    ClaimBatch entries daaScore inFlightOutpoints
      (candidateBatch entries daaScore inFlightOutpoints currentWindow c) :=
  (fillBatch_inv (passIndices_nodup _) (by simp)
    ⟨Nat.zero_le _, List.nodup_nil, by simp⟩).claimBatch

theorem firstReleasable_claimBatch (currentWindow : Nat) (cs : List (Nat × Option Nat)) :
    ClaimBatch entries daaScore inFlightOutpoints
      (firstReleasable entries daaScore inFlightOutpoints currentWindow cs) := by
  induction cs with
  | nil => exact .nil
  | cons c cs ih =>
    simp only [firstReleasable]
    split
    · exact candidateBatch_claimBatch ..
    · exact ih

theorem selectClaimBatch_claimBatch : ClaimBatch entries daaScore inFlightOutpoints
    (selectClaimBatch X entries daaScore inFlightOutpoints) := firstReleasable_claimBatch ..

end KeryxMiner.Escrow
