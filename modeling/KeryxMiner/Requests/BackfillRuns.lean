import KeryxMiner.Requests.Backfill

/-!
# Runs of the backfill

An answer may be taken for one of the validation that was meant for the backfill, or the other way
round; there are still as many answers to come for each block as are waited for (`Awaits`). So the
backfill is a search that takes no block twice, and when all answers are in it has taken all blocks
(`backfill_right`).
-/

namespace KeryxMiner.Startup

variable {node : Node} {c : Client}
  {queue sent taken found : List String} {pending visited validation : Finset String}
  {hash x : String} {first : Option BlockHeader} {inFlight : List (String × Bool)} {t : Bool}

/-! ## Each pending block has its answer to come -/

/-- One for a block of the set. -/
def one (A : Finset String) (x : String) : Nat := if x ∈ A then 1 else 0

theorem one_erase_self {A : Finset String} : one (A.erase x) x = 0 :=
  if_neg (Finset.notMem_erase x A)

theorem one_erase_of_ne {A : Finset String} (h : x ≠ hash) : one (A.erase hash) x = one A x := by
  simp [one, h]

theorem one_union_le (A : Finset String) (taken : List String) (x : String) :
    one (A ∪ taken.toFinset) x ≤ one A x + taken.count x := by
  by_cases hx : x ∈ taken
  · have hpos : 0 < taken.count x := List.count_pos_iff.mpr hx
    have hmem : x ∈ A ∪ taken.toFinset := Finset.mem_union_right _ (List.mem_toFinset.mpr hx)
    rw [one, if_pos hmem]
    omega
  · simp [one, hx]

/-- The full answer for the block may be taken for one of the validation. -/
def Light (node : Node) (hash : String) : Prop :=
  ∀ block ∈ node hash, block.hasTransactions = false

/-- There are as many answers to come for each block as are waited for. -/
structure Awaits (node : Node) (pending validation : Finset String) (inFlight : List (String × Bool))
    (queue : List String) : Prop where
  light : ∀ x, Light node x → one pending x + one validation x ≤
    inFlight.count (x, true) + inFlight.count (x, false) + queue.count x
  full : ∀ x, ¬Light node x → one pending x ≤ inFlight.count (x, true)
  validation : ∀ x, ¬Light node x → one validation x ≤ inFlight.count (x, false) + queue.count x

namespace Awaits

/-- A request of the client's other parts. -/
theorem request (h : Awaits node pending validation inFlight queue) :
    Awaits node pending validation (inFlight ++ [(hash, t)]) queue where
  light x hx := by
    rw [List.count_append, List.count_append]
    exact (h.light x hx).trans (by omega)
  full x hx := by
    rw [List.count_append]
    exact (h.full x hx).trans (by omega)
  validation x hx := by
    rw [List.count_append]
    exact (h.validation x hx).trans (by omega)

theorem count_map_self : (taken.map (·, t)).count (x, t) = taken.count x :=
  List.count_map_of_injective _ _ (fun _ _ h => (Prod.mk.inj h).1) _

theorem count_map_of_ne {u : Bool} (h : u ≠ t) : (taken.map (·, t)).count (x, u) = 0 := by
  rw [List.count_eq_zero]
  simp [h.symm]

/-- The backfill's requests. -/
theorem pump (h : Awaits node pending validation inFlight queue) :
    Awaits node (pending ∪ taken.toFinset) validation (inFlight ++ taken.map (·, true)) queue where
  light x hx := by
    rw [List.count_append, List.count_append, count_map_self, count_map_of_ne (by decide)]
    have hone := one_union_le pending taken x
    have hle := h.light x hx
    omega
  full x hx := by
    rw [List.count_append, count_map_self]
    have hone := one_union_le pending taken x
    have hle := h.full x hx
    omega
  validation x hx := by
    rw [List.count_append, count_map_of_ne (by decide)]
    exact h.validation x hx

/-- The validation's next request. -/
theorem next (h : Awaits node pending validation inFlight (hash :: queue)) :
    Awaits node pending validation (inFlight ++ [(hash, false)]) queue where
  light x hx := by
    rw [List.count_append, List.count_append]
    refine (h.light x hx).trans ?_
    by_cases hhash : hash = x
    · simp [hhash]
      omega
    · simp [hhash]
  full x hx := by
    rw [List.count_append]
    exact (h.full x hx).trans (Nat.le_add_right _ _)
  validation x hx := by
    rw [List.count_append]
    refine (h.validation x hx).trans ?_
    by_cases hhash : hash = x
    · simp [hhash]
      omega
    · simp [hhash]

theorem count_erase_of_hash_ne (h : x ≠ hash) (u : Bool) :
    (inFlight.erase (hash, t)).count (x, u) = inFlight.count (x, u) := by
  apply List.count_erase_of_ne
  intro heq
  exact h (Prod.mk.inj heq).1

theorem count_erase_of_transactions_ne {u : Bool} (h : u ≠ t) :
    (inFlight.erase (hash, t)).count (hash, u) = inFlight.count (hash, u) := by
  apply List.count_erase_of_ne
  intro heq
  exact h (Prod.mk.inj heq).2

/-- An answer is one request less. -/
theorem count_le_erase (inFlight : List (String × Bool)) (hash : String) (t : Bool) :
    inFlight.count (hash, true) + inFlight.count (hash, false) ≤
    (inFlight.erase (hash, t)).count (hash, true) +
      (inFlight.erase (hash, t)).count (hash, false) + 1 := by
  cases t with
  | false =>
    rw [count_erase_of_transactions_ne (by decide), List.count_erase_self]
    omega
  | true =>
    rw [count_erase_of_transactions_ne (u := false) (by decide), List.count_erase_self]
    omega

/-- An answer is taken for one of the validation. -/
theorem validated (h : Awaits node pending validation inFlight queue) (hhash : hash ∈ validation)
    (ht : t = false ∨ Light node hash) :
    Awaits node pending (validation.erase hash) (inFlight.erase (hash, t)) queue where
  light x hx := by
    have hle := h.light x hx
    by_cases hne : x = hash
    · subst hne
      have hone : one validation x = 1 := if_pos hhash
      have hcount := count_le_erase inFlight x t
      rw [one_erase_self]
      omega
    · rw [one_erase_of_ne hne, count_erase_of_hash_ne hne, count_erase_of_hash_ne hne]
      exact hle
  full x hx := by
    by_cases hne : x = hash
    · subst hne
      obtain rfl : t = false := ht.resolve_right hx
      rw [count_erase_of_transactions_ne (by decide)]
      exact h.full x hx
    · rw [count_erase_of_hash_ne hne]
      exact h.full x hx
  validation x hx := by
    by_cases hne : x = hash
    · rw [hne, one_erase_self]
      exact Nat.zero_le _
    · rw [one_erase_of_ne hne, count_erase_of_hash_ne hne]
      exact h.validation x hx

/-- An answer is not taken for one of the validation. -/
theorem answered (h : Awaits node pending validation inFlight queue)
    (hnot : t = false ∨ Light node hash → hash ∉ validation) :
    Awaits node (pending.erase hash) validation (inFlight.erase (hash, t)) queue where
  light x hx := by
    by_cases hne : x = hash
    · subst hne
      have hone : one validation x = 0 := if_neg (hnot (.inr hx))
      rw [one_erase_self, hone]
      exact Nat.zero_le _
    · rw [one_erase_of_ne hne, count_erase_of_hash_ne hne, count_erase_of_hash_ne hne]
      exact h.light x hx
  full x hx := by
    by_cases hne : x = hash
    · rw [hne, one_erase_self]
      exact Nat.zero_le _
    · rw [one_erase_of_ne hne, count_erase_of_hash_ne hne]
      exact h.full x hx
  validation x hx := by
    by_cases hne : x = hash
    · subst hne
      cases t with
      | false =>
        have hone : one validation x = 0 := if_neg (hnot (.inl rfl))
        rw [hone]
        exact Nat.zero_le _
      | true =>
        rw [count_erase_of_transactions_ne (by decide)]
        exact h.validation x hx
    · rw [count_erase_of_hash_ne hne]
      exact h.validation x hx

/-- Nothing is waited for that no answer is to come for. -/
theorem pending_eq_empty (h : Awaits node pending validation [] []) : pending = ∅ := by
  rw [Finset.eq_empty_iff_forall_notMem]
  intro x hx
  have hone : one pending x = 1 := if_pos hx
  by_cases hlight : Light node x
  · have hle := h.light x hlight
    rw [hone] at hle
    simp at hle
  · have hle := h.full x hlight
    rw [hone] at hle
    simp at hle

/-- What the validation waits for is in its queue if no answer is to come. -/
theorem subset_queue (h : Awaits node pending validation [] queue) : validation ⊆ queue.toFinset := by
  intro x hx
  have hone : one validation x = 1 := if_pos hx
  rw [List.mem_toFinset, ← List.count_pos_iff]
  by_cases hlight : Light node x
  · have hle := h.light x hlight
    rw [hone, List.count_nil, List.count_nil] at hle
    omega
  · have hle := h.validation x hlight
    rw [hone, List.count_nil] at hle
    omega

end Awaits

/-! ## The invariant -/

/-- The successors before and after the first block is notified. -/
def nextOf (node : Node) : Option BlockHeader → String → String → Prop
  | none => fun _ _ => False
  | some first => next node (cutoff first)

/-- What holds before and after requests are sent. -/
structure Pumping (node : Node) (first : Option BlockHeader) (c : Client) : Prop where
  cutoffDaa : c.backfill.cutoffDaa = first.map cutoff
  search : Search (roots first) (nextOf node first) c.sent c.backfill.queue c.backfill.pending
  visited : c.backfill.queue = [] ∧ c.backfill.pending = ∅ ∧ first ≠ none ∨
    ∀ x, x ∈ c.backfill.visited ↔ x ∈ c.sent ++ c.backfill.queue
  card : c.backfill.pending.card ≤ aiBackfillInflight
  awaits : Awaits node c.backfill.pending c.validationPending c.inFlight c.validationQueue
  validation : c.validationQueue ≠ [] →
    c.validationPending.card = c.validationQueue.length + validationWindow

/-- What holds in every state: there is also no block in the queue that could be requested. -/
structure Ok (node : Node) (first : Option BlockHeader) (c : Client) : Prop
    extends Pumping node first c where
  full : c.backfill.queue ≠ [] → c.backfill.pending.card = aiBackfillInflight

theorem Pumping.queue_none (h : Pumping node none c) : c.backfill.queue = [] ∧ c.sent = [] := by
  have hnil : ∀ x, x ∉ c.sent ++ c.backfill.queue := by
    intro x hx
    obtain ⟨r, ⟨header, ⟨⟩, -⟩, -⟩ := h.search.reached x hx
  rw [← List.eq_nil_iff_forall_not_mem, List.append_eq_nil_iff] at hnil
  exact hnil.symm

theorem Pumping.pump (h : Pumping node first c) : Ok node first c.pump := by
  cases first with
  | none =>
    have hcutoff := h.cutoffDaa
    have hpump : c.pump = c := by
      rw [Client.pump, Backfill.pump, hcutoff]
      simp
    rw [hpump]
    exact ⟨h, fun hne => absurd h.queue_none.1 hne⟩
  | some first =>
    have hcutoff := h.cutoffDaa
    obtain ⟨hsearch, hqueue, hpending, hcard, hfull⟩ := pumpLoop_spec h.search h.card
    rw [Client.pump, Backfill.pump, hcutoff]
    dsimp only [Option.map_some]
    refine ⟨⟨rfl, hsearch, ?_, hcard, ?_, h.validation⟩, hfull⟩
    · rcases h.visited with ⟨hnil, hempty, hsome⟩ | hvisited
      · dsimp only
        rw [hnil, hempty, pumpLoop]
        exact .inl ⟨rfl, rfl, hsome⟩
      · right
        intro x
        dsimp only
        rw [List.append_assoc, ← hqueue]
        exact hvisited x
    · rw [hpending]
      exact h.awaits.pump

/-- The first block notified. -/
theorem Pumping.seed {header : Option BlockHeader} (h : Pumping node first c) :
    Pumping node (first.or header) { c with backfill := c.backfill.seed header } := by
  have hcutoff := h.cutoffDaa
  unfold Backfill.seed
  rw [hcutoff]
  cases first with
  | some first => exact h
  | none =>
    cases header with
    | none => exact h
    | some header =>
      obtain ⟨hqueue, hsent⟩ := h.queue_none
      have hpending : c.backfill.pending = ∅ := by
        rw [Finset.eq_empty_iff_forall_notMem]
        intro x hx
        have hmem := h.search.waits x hx
        rw [hsent] at hmem
        cases hmem
      have hvisited : c.backfill.visited = ∅ := by
        rcases h.visited with ⟨-, -, hsome⟩ | hvisited
        · exact absurd rfl hsome
        · rw [Finset.eq_empty_iff_forall_notMem]
          intro x hx
          have hmem := (hvisited x).mp hx
          rw [hsent, hqueue] at hmem
          cases hmem
      obtain ⟨found, hvisit, hnodup, hfound⟩ := visit_spec header.level0 [] ∅
      rw [List.nil_append, Finset.empty_union] at hvisit
      dsimp only [Option.map_none, Option.none_or]
      rw [hqueue, hvisited, hvisit]
      refine ⟨rfl, ?_, .inr ?_, h.card, h.awaits, h.validation⟩
      · dsimp only
        rw [hsent, hpending]
        apply Search.start hnodup
        intro a
        rw [hfound]
        constructor
        · exact fun ha => ⟨header, rfl, ha.1⟩
        · rintro ⟨_, ⟨⟩, ha⟩
          exact ⟨ha, Finset.notMem_empty a⟩
      · intro x
        dsimp only
        rw [hsent, List.nil_append, hfound, List.mem_toFinset]
        exact ⟨fun hx => ⟨hx, Finset.notMem_empty x⟩, fun hx => hx.1⟩

variable {header : BlockHeader} {block : RpcBlock}

theorem Pumping.finish (h : Pumping node (some header) c) :
    Pumping node (some header) { c with backfill := c.backfill.finish } := by
  rw [Backfill.finish]
  split
  · next hdone =>
    exact ⟨h.cutoffDaa, h.search, .inl ⟨hdone.1, hdone.2, nofun⟩, h.card, h.awaits, h.validation⟩
  · exact h

/-- The wait for a pending block ends. -/
theorem Pumping.expand (found : List String) (visited : Finset String)
    (h : Pumping node (some header) c) (hhash : hash ∈ c.backfill.pending) (hnodup : found.Nodup)
    (hfound : ∀ p, p ∈ found ↔ next node (cutoff header) hash p ∧ p ∉ c.backfill.visited)
    (hvisited : ∀ p, p ∈ visited ↔ p ∈ c.backfill.visited ∨ next node (cutoff header) hash p)
    (hawaits : Awaits node (c.backfill.pending.erase hash) c.validationPending inFlight
      c.validationQueue) :
    Pumping node (some header) { c with
      backfill := { c.backfill with
        queue := c.backfill.queue ++ found
        pending := c.backfill.pending.erase hash
        visited := visited }
      inFlight := inFlight } := by
  have hold : ∀ x, x ∈ c.backfill.visited ↔ x ∈ c.sent ++ c.backfill.queue := by
    rcases h.visited with ⟨-, hempty, -⟩ | hold
    · rw [hempty] at hhash
      exact absurd hhash (Finset.notMem_empty hash)
    · exact hold
  constructor
  · exact h.cutoffDaa
  · apply h.search.expand hhash hnodup
    · intro p hp
      rw [← hold]
      exact (hfound p).mp hp
    · intro p hp
      by_cases hmem : p ∈ c.backfill.visited
      · exact .inl ((hold p).mp hmem)
      · exact .inr ((hfound p).mpr ⟨hp, hmem⟩)
  · right
    intro x
    rw [hvisited, ← List.append_assoc, List.mem_append, ← hold, hfound]
    tauto
  · exact (Finset.card_le_card (Finset.erase_subset _ _)).trans h.card
  · exact hawaits
  · exact h.validation

theorem Pumping.first_ne_none (h : Pumping node first c) (hhash : hash ∈ c.backfill.pending) :
    ∃ header, first = some header := by
  cases first with
  | none =>
    have hmem := h.search.waits hash hhash
    rw [h.queue_none.2] at hmem
    cases hmem
  | some header => exact ⟨header, rfl⟩

/-- An answer that is not for the backfill. -/
theorem Pumping.answered (h : Pumping node first c) (hhash : hash ∉ c.backfill.pending)
    (hawaits : Awaits node (c.backfill.pending.erase hash) c.validationPending inFlight
      c.validationQueue) : Pumping node first { c with inFlight } := by
  rw [Finset.erase_eq_of_notMem hhash] at hawaits
  exact ⟨h.cutoffDaa, h.search, h.visited, h.card, hawaits, h.validation⟩

/-- The wait for a pending block ends, and nothing is to be fetched behind it. -/
theorem Pumping.expand_nil (h : Pumping node (some header) c) (hhash : hash ∈ c.backfill.pending)
    (hnext : ∀ p, ¬next node (cutoff header) hash p)
    (hawaits : Awaits node (c.backfill.pending.erase hash) c.validationPending inFlight
      c.validationQueue) :
    Pumping node (some header) { c with backfill := c.backfill.noteError hash, inFlight } := by
  have hexpand := h.expand [] c.backfill.visited hhash .nil (by simp [hnext]) (by simp [hnext])
    hawaits
  rw [List.append_nil] at hexpand
  exact hexpand

theorem Pumping.noteError (h : Pumping node first c) (hhash : hash ∈ c.backfill.pending)
    (hnode : node hash = none)
    (hawaits : Awaits node (c.backfill.pending.erase hash) c.validationPending inFlight
      c.validationQueue) :
    Pumping node first { c with backfill := c.backfill.noteError hash, inFlight } := by
  obtain ⟨header, rfl⟩ := h.first_ne_none hhash
  refine h.expand_nil hhash ?_ hawaits
  rintro p ⟨block, -, hsome, -⟩
  rw [hnode] at hsome
  cases hsome

theorem Pumping.noteBlock (h : Pumping node first c) (hnode : node hash = some block)
    (hawaits : Awaits node (c.backfill.pending.erase hash) c.validationPending inFlight
      c.validationQueue) :
    Pumping node first
      { c with backfill := c.backfill.noteBlock hash block.header, inFlight } := by
  rw [Backfill.noteBlock]
  split
  · next hhash =>
    obtain ⟨first, rfl⟩ := h.first_ne_none hhash
    have hnext : ∀ p, next node (cutoff first) hash p ↔
        ∃ header, block.header = some header ∧ cutoff first < header.daaScore ∧
          p ∈ header.level0 := by
      intro p
      rw [next, hnode]
      simp
    have hcutoff : c.backfill.cutoffDaa = some (cutoff first) := h.cutoffDaa
    dsimp only
    split
    · next hnone =>
      rw [hcutoff] at hnone
      cases hnone
    · next n hsome =>
      obtain rfl : cutoff first = n := Option.some.inj (hcutoff.symm.trans hsome)
      split
      · next hheader =>
        exact (h.expand_nil hhash (by simp [hnext, hheader]) hawaits).finish
      · next header hheader =>
        split
        · next habove =>
          obtain ⟨found, hvisit, hnodup, hfound⟩ :=
            visit_spec header.level0 c.backfill.queue c.backfill.visited
          rw [hvisit]
          refine (h.expand found _ hhash hnodup ?_ ?_ hawaits).finish
          · intro p
            rw [hfound, hnext]
            simp [hheader, habove]
          · intro p
            rw [Finset.mem_union, List.mem_toFinset, hnext]
            simp [hheader, habove]
        · next hbelow =>
          exact (h.expand_nil hhash (by simp [hnext, hheader, hbelow]) hawaits).finish
  · next hhash => exact h.answered hhash hawaits

/-! ## Runs -/

theorem Ok.validated (h : Ok node first c) (hhash : hash ∈ c.validationPending)
    (ht : t = false ∨ Light node hash) :
    Ok node first (Client.validated { c with inFlight := c.inFlight.erase (hash, t) } hash) := by
  have hawaits := h.awaits.validated hhash ht
  have hcard := Finset.card_erase_of_mem hhash
  have hvalidation := h.validation
  unfold Client.validated
  dsimp only
  split
  · next hqueue =>
    exact ⟨⟨h.cutoffDaa, h.search, h.visited, h.card, hawaits, fun hne => absurd hqueue hne⟩, h.full⟩
  · next hash' queue hqueue =>
    rw [hqueue] at hawaits hvalidation
    refine ⟨⟨h.cutoffDaa, h.search, h.visited, h.card, hawaits.next, fun _ => ?_⟩, h.full⟩
    have heq := hvalidation (List.cons_ne_nil _ _)
    rw [List.length_cons] at heq
    dsimp only
    omega

theorem Ok.onError (h : Ok node first c) (hnode : node hash = none) :
    Ok node first (Client.onError { c with inFlight := c.inFlight.erase (hash, t) } hash) := by
  have hlight : Light node hash := by
    rw [Light, hnode]
    exact nofun
  rw [Client.onError]
  split
  · next hhash => exact h.validated hhash (.inr hlight)
  · next hhash =>
    have hawaits := h.awaits.answered (t := t) fun _ => hhash
    split
    · next hmem => exact (h.toPumping.noteError hmem hnode hawaits).pump
    · next hmem => exact ⟨h.toPumping.answered hmem hawaits, h.full⟩

theorem Ok.onBlock (h : Ok node first c) (hnode : node hash = some block) :
    Ok node first (Client.onBlock { c with inFlight := c.inFlight.erase (hash, t) } hash
      (t && block.hasTransactions) block.header) := by
  have hlight : (t && block.hasTransactions) = false ↔ t = false ∨ Light node hash := by
    rw [Bool.and_eq_false_iff, Light, hnode]
    simp
  rw [Client.onBlock]
  split
  · next hhash => exact h.validated hhash.2 (hlight.mp hhash.1)
  · next hhash =>
    have hawaits := h.awaits.answered (t := t) fun ht hmem => hhash ⟨hlight.mpr ht, hmem⟩
    exact (h.toPumping.noteBlock hnode hawaits).pump

theorem Ok.step {e : Event} (h : Ok node first c) :
    Ok node (first.or (notified e)) (step node c e) := by
  cases e with
  | blockAdded header => exact h.toPumping.seed.pump
  | request hash t =>
    have hfirst : first.or (notified (.request hash t)) = first := Option.or_none
    rw [hfirst]
    exact ⟨⟨h.cutoffDaa, h.search, h.visited, h.card, h.awaits.request, h.validation⟩, h.full⟩
  | answer hash t =>
    have hfirst : first.or (notified (.answer hash t)) = first := Option.or_none
    rw [hfirst, Startup.step]
    split
    · dsimp only
      split
      · next hnode => exact h.onError hnode
      · next block hnode => exact h.onBlock hnode
    · exact h

theorem start_awaits {hashes : List String} : Awaits node ∅ hashes.toFinset (start hashes).inFlight
    (start hashes).validationQueue := by
  have hone : ∀ x, one hashes.toFinset x ≤
      (start hashes).inFlight.count (x, false) + (start hashes).validationQueue.count x := by
    intro x
    have hle := one_union_le ∅ hashes x
    have hzero : one ∅ x = 0 := if_neg (Finset.notMem_empty x)
    rw [Finset.empty_union, hzero, Nat.zero_add, ← List.take_append_drop validationWindow hashes,
      List.count_append, List.take_append_drop] at hle
    rw [start, Awaits.count_map_self]
    exact hle
  constructor
  · intro x _
    have hzero : one ∅ x = 0 := if_neg (Finset.notMem_empty x)
    have hle := hone x
    omega
  · intro x _
    exact Nat.zero_le _
  · intro x _
    exact hone x

theorem start_ok {hashes : List String} (h : hashes.Nodup) : Ok node none (start hashes) := by
  refine ⟨⟨rfl, .start .nil ?_, .inr ?_, Nat.zero_le _, start_awaits, ?_⟩, fun hne => absurd rfl hne⟩
  · intro a
    refine iff_of_false List.not_mem_nil ?_
    rintro ⟨header, ⟨⟩, -⟩
  · exact fun x => iff_of_false (Finset.notMem_empty x) List.not_mem_nil
  · intro hne
    rw [start] at hne ⊢
    dsimp only at hne ⊢
    have hlt := List.length_pos_iff.mpr hne
    rw [List.length_drop] at hlt ⊢
    rw [List.toFinset_card_of_nodup h]
    omega

theorem run_ok {hashes : List String} (h : hashes.Nodup) (events : List Event) :
    Ok node (firstNotified events) (run (step node) (start hashes) events) := by
  induction events using List.reverseRecOn with
  | nil => exact start_ok h
  | append_singleton events e ih =>
    have hfirst : firstNotified (events ++ [e]) = (firstNotified events).or (notified e) := by
      simp [firstNotified, List.findSome?_append]
    rw [run_concat, hfirst]
    exact ih.step

/-- When all answers are in, nothing is left. -/
theorem Ok.done (h : Ok node first c) (hall : c.inFlight = []) :
    c.backfill.queue = [] ∧ c.backfill.pending = ∅ := by
  have hawaits := h.awaits
  rw [hall] at hawaits
  have hqueue : c.validationQueue = [] := by
    by_contra hne
    have hcard := (Finset.card_le_card hawaits.subset_queue).trans (List.toFinset_card_le _)
    have hpos : 0 < validationWindow := by decide
    rw [h.validation hne] at hcard
    omega
  rw [hqueue] at hawaits
  have hpending := hawaits.pending_eq_empty
  refine ⟨?_, hpending⟩
  by_contra hne
  have hfull := h.full hne
  rw [hpending, Finset.card_empty] at hfull
  cases hfull

/-- **Whatever is notified, requested and answered in whatever order, the backfill requests no block
twice and only blocks behind the first notified one and above the cutoff, has a bounded number of
them pending, and has requested all of them when all answers are in.** -/
theorem backfill_right (node : Node) (hashes : List String) (h : hashes.Nodup) (events : List Event) :
    let c := run (step node) (start hashes) events
    c.sent.Nodup ∧ c.backfill.pending.card ≤ aiBackfillInflight ∧
      (c.inFlight = [] → c.backfill.queue = [] ∧ c.backfill.pending = ∅) ∧
      match firstNotified events with
      | none => c.sent = []
      | some first => (∀ hash ∈ c.sent, ToFetch node first hash) ∧
        (c.inFlight = [] → ∀ hash, ToFetch node first hash → hash ∈ c.sent) := by
  have hok : Ok node _ _ := run_ok h events
  dsimp only
  refine ⟨(List.nodup_append.mp hok.search.nodup).1, hok.card, hok.done, ?_⟩
  cases hfirst : firstNotified events with
  | none =>
    rw [hfirst] at hok
    exact hok.queue_none.2
  | some first =>
    rw [hfirst] at hok
    refine ⟨fun hash hmem => hok.search.reached hash (List.mem_append_left _ hmem), ?_⟩
    intro hall hash hreached
    have hsearch := hok.search
    obtain ⟨hqueue, hpending⟩ := hok.done hall
    rw [hqueue, hpending] at hsearch
    exact hsearch.complete.mp hreached

/-- A block above the cutoff whose parent the node does not have. -/
def oneBlock : Node := fun hash => if hash = "a" then some ⟨some ⟨9, [["b"]]⟩, true⟩ else none

/-- The answer for the parent comes before that of the validation for the same block. -/
def oneBlockEvents : List Event :=
  [.blockAdded (some ⟨10, [["a"]]⟩), .answer "a" true, .answer "b" true, .answer "b" false]

theorem backfill_right_oneBlock :
    (run (step oneBlock) (start ["b"]) oneBlockEvents).inFlight = [] ∧
      (run (step oneBlock) (start ["b"]) oneBlockEvents).backfill.pending = ∅ := by
  have hall : (run (step oneBlock) (start ["b"]) oneBlockEvents).inFlight = [] := by decide
  exact ⟨hall, ((backfill_right oneBlock ["b"] (by decide) oneBlockEvents).2.2.1 hall).2⟩

end KeryxMiner.Startup
