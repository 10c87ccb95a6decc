import KeryxMiner.Runs
import KeryxMiner.Worklist

/-!
# The startup backfill

The blocks behind the first notified one are fetched parent by parent, a number of them at a time,
while they are above the cutoff. The answers come in any order and between the answers to other
requests for blocks, those of the boot-time validation among them, for the same blocks or others.
-/

namespace KeryxMiner.Startup

def aiBackfillWindowDaa : Nat := 6000

def aiBackfillInflight : Nat := 32

def validationWindow : Nat := 64

structure BlockHeader where
  daaScore : Nat
  parents : List (List String)

/-- The parents on level 0. -/
def BlockHeader.level0 (header : BlockHeader) : List String := header.parents.headD []

structure RpcBlock where
  header : Option BlockHeader
  hasTransactions : Bool

/-- What the node has of each block; a block that it does not have is answered with an error that
names it. -/
abbrev Node := String → Option RpcBlock

/-! ## The backfill -/

structure Backfill where
  cutoffDaa : Option Nat
  queue : List String
  pending : Finset String
  visited : Finset String

/-- Puts the parents that were not visited yet in the queue. -/
def visit : List String → List String → Finset String → List String × Finset String
  | [], queue, visited => (queue, visited)
  | parent :: parents, queue, visited =>
    if parent ∈ visited then visit parents queue visited
    else visit parents (queue ++ [parent]) (insert parent visited)

/-- Takes blocks off the queue while fewer than `aiBackfillInflight` are pending; the last component
are the blocks requested. -/
def pumpLoop : List String → Finset String → List String × Finset String × List String
  | [], pending => ([], pending, [])
  | hash :: queue, pending =>
    if pending.card < aiBackfillInflight then
      let r := pumpLoop queue (insert hash pending)
      (r.1, r.2.1, hash :: r.2.2)
    else (hash :: queue, pending, [])

namespace Backfill

def seed (b : Backfill) (header : Option BlockHeader) : Backfill :=
  match b.cutoffDaa, header with
  | none, some header =>
    let r := visit header.level0 b.queue b.visited
    { b with
      cutoffDaa := some (header.daaScore - aiBackfillWindowDaa)
      queue := r.1
      visited := r.2 }
  | _, _ => b

def pump (b : Backfill) : Backfill × List String :=
  match b.cutoffDaa with
  | none => (b, [])
  | some _ =>
    let r := pumpLoop b.queue b.pending
    ({ b with queue := r.1, pending := r.2.1 }, r.2.2)

/-- The visited blocks are forgotten when nothing is left. -/
def finish (b : Backfill) : Backfill :=
  if b.queue = [] ∧ b.pending = ∅ then { b with visited := ∅ } else b

def noteBlock (b : Backfill) (hash : String) (header : Option BlockHeader) : Backfill :=
  if hash ∈ b.pending then
    let b := { b with pending := b.pending.erase hash }
    match b.cutoffDaa with
    | none => b
    | some cutoff =>
      match header with
      | none => b.finish
      | some header =>
        if cutoff < header.daaScore then
          let r := visit header.level0 b.queue b.visited
          finish { b with queue := r.1, visited := r.2 }
        else b.finish
  else b

def noteError (b : Backfill) (hash : String) : Backfill :=
  { b with pending := b.pending.erase hash }

end Backfill

/-! ## The client -/

/-- The backfill and the boot-time validation of the client; the requests without an answer (with or
without the transactions) and, in order, the blocks that the backfill has requested. -/
structure Client where
  backfill : Backfill
  validationPending : Finset String
  validationQueue : List String
  inFlight : List (String × Bool)
  sent : List String

namespace Client

def pump (c : Client) : Client :=
  let r := c.backfill.pump
  { c with
    backfill := r.1
    inFlight := c.inFlight ++ r.2.map (·, true)
    sent := c.sent ++ r.2 }

/-- An answer of the validation, which sends the next of its requests. -/
def validated (c : Client) (hash : String) : Client :=
  let c := { c with validationPending := c.validationPending.erase hash }
  match c.validationQueue with
  | [] => c
  | next :: queue => { c with validationQueue := queue, inFlight := c.inFlight ++ [(next, false)] }

def onError (c : Client) (hash : String) : Client :=
  if hash ∈ c.validationPending then c.validated hash
  else if hash ∈ c.backfill.pending then pump { c with backfill := c.backfill.noteError hash }
  else c

def onBlock (c : Client) (hash : String) (hasTransactions : Bool) (header : Option BlockHeader) :
    Client :=
  if hasTransactions = false ∧ hash ∈ c.validationPending then c.validated hash
  else pump { c with backfill := c.backfill.noteBlock hash header }

end Client

/-- A block is notified, something else of the client requests a block, or a request is answered. -/
inductive Event where
  | blockAdded (header : Option BlockHeader)
  | request (hash : String) (transactions : Bool)
  | answer (hash : String) (transactions : Bool)

def step (node : Node) (c : Client) : Event → Client
  | .blockAdded header => Client.pump { c with backfill := c.backfill.seed header }
  | .request hash transactions => { c with inFlight := c.inFlight ++ [(hash, transactions)] }
  | .answer hash transactions =>
    if (hash, transactions) ∈ c.inFlight then
      let c := { c with inFlight := c.inFlight.erase (hash, transactions) }
      match node hash with
      | none => c.onError hash
      | some block => c.onBlock hash (transactions && block.hasTransactions) block.header
    else c

/-- The client when the validation of these blocks has begun. -/
def start (hashes : List String) : Client where
  backfill := ⟨none, [], ∅, ∅⟩
  validationPending := hashes.toFinset
  validationQueue := hashes.drop validationWindow
  inFlight := (hashes.take validationWindow).map (·, false)
  sent := []

/-! ## What is to be fetched -/

/-- A parent of a block above the cutoff. -/
def next (node : Node) (cutoff : Nat) (hash parent : String) : Prop :=
  ∃ block header, node hash = some block ∧ block.header = some header ∧
    cutoff < header.daaScore ∧ parent ∈ header.level0

/-- The parents of the first notified block. -/
def roots (first : Option BlockHeader) : Set String :=
  { parent | ∃ header ∈ first, parent ∈ header.level0 }

def cutoff (first : BlockHeader) : Nat := first.daaScore - aiBackfillWindowDaa

/-- The blocks that are reached from the first notified one through blocks above the cutoff. -/
def ToFetch (node : Node) (first : BlockHeader) : String → Prop :=
  Reached (roots (some first)) (next node (cutoff first))

def notified : Event → Option BlockHeader
  | .blockAdded header => header
  | _ => none

/-- The header of the first notified block. -/
def firstNotified (events : List Event) : Option BlockHeader := events.findSome? notified

variable {node : Node} {R : Set String} {N : String → String → Prop} {b : Backfill} {c : Client}
  {queue sent taken parents : List String} {pending visited validation : Finset String}
  {hash x : String} {first : Option BlockHeader} {inFlight : List (String × Bool)} {t : Bool}

/-- The parents that are new go to the queue, each once. -/
theorem visit_spec (parents queue : List String) (visited : Finset String) : ∃ found, visit parents queue visited =
    (queue ++ found, visited ∪ parents.toFinset) ∧ found.Nodup ∧
      ∀ p, p ∈ found ↔ p ∈ parents ∧ p ∉ visited := by
  induction parents generalizing queue visited with
  | nil => exact ⟨[], by simp [visit]⟩
  | cons parent parents ih =>
    rw [visit]
    split
    · next hmem =>
      obtain ⟨found, heq, hnodup, hfound⟩ := ih queue visited
      refine ⟨found, ?_, hnodup, ?_⟩
      · rw [heq, List.toFinset_cons, Finset.union_insert,
          Finset.insert_eq_of_mem (Finset.mem_union_left _ hmem)]
      · intro p
        rw [hfound, List.mem_cons]
        constructor
        · exact fun h => ⟨.inr h.1, h.2⟩
        · rintro ⟨rfl | hp, hv⟩
          · exact absurd hmem hv
          · exact ⟨hp, hv⟩
    · next hmem =>
      obtain ⟨found, heq, hnodup, hfound⟩ :=
        ih (queue ++ [parent]) (insert parent visited)
      refine ⟨parent :: found, ?_, List.nodup_cons.mpr ⟨?_, hnodup⟩, ?_⟩
      · rw [heq, List.append_assoc, List.singleton_append, List.toFinset_cons, Finset.union_insert,
          Finset.insert_union]
      · rw [hfound]
        exact fun h => h.2 (Finset.mem_insert_self _ _)
      · intro p
        rw [List.mem_cons, hfound, Finset.mem_insert, List.mem_cons]
        by_cases hp : p = parent
        · simp [hp, hmem]
        · simp [hp]

/-- Blocks are taken off the queue until enough of them are pending. -/
theorem pumpLoop_spec (h : Search R N sent queue pending) (hcard : pending.card ≤ aiBackfillInflight) :
    Search R N (sent ++ (pumpLoop queue pending).2.2) (pumpLoop queue pending).1
        (pumpLoop queue pending).2.1 ∧
      queue = (pumpLoop queue pending).2.2 ++ (pumpLoop queue pending).1 ∧
      (pumpLoop queue pending).2.1 = pending ∪ (pumpLoop queue pending).2.2.toFinset ∧
      (pumpLoop queue pending).2.1.card ≤ aiBackfillInflight ∧
      ((pumpLoop queue pending).1 ≠ [] → (pumpLoop queue pending).2.1.card = aiBackfillInflight) := by
  induction queue generalizing sent pending with
  | nil =>
    rw [pumpLoop]
    refine ⟨?_, rfl, ?_, hcard, fun h => absurd rfl h⟩
    · rw [List.append_nil]
      exact h
    · rw [List.toFinset_nil, Finset.union_empty]
  | cons hash queue ih =>
    rw [pumpLoop]
    split
    · next hlt =>
      have hinsert : (insert hash pending).card ≤ aiBackfillInflight :=
        (Finset.card_insert_le _ _).trans hlt
      obtain ⟨hsearch, hqueue, hpending, hle, hfull⟩ := ih h.take hinsert
      dsimp only
      refine ⟨?_, ?_, ?_, hle, hfull⟩
      · rw [List.append_cons]
        exact hsearch
      · rw [List.cons_append, ← hqueue]
      · rw [List.toFinset_cons, Finset.union_insert, ← Finset.insert_union]
        exact hpending
    · next hnlt =>
      refine ⟨?_, rfl, ?_, hcard, fun _ => Nat.le_antisymm hcard (Nat.not_lt.mp hnlt)⟩
      · rw [List.append_nil]
        exact h
      · rw [List.toFinset_nil, Finset.union_empty]

end KeryxMiner.Startup
