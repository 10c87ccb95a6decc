import Mathlib.Data.Finset.Card
import Mathlib.Logic.Relation

/-!
# Searches by a worklist

A search takes nodes from a queue, waits for some of those it has taken, and puts successors of a
node at the end of the queue when the wait for it is over. However the waits end, it takes no node
twice and only nodes that can be reached (`Search`), and when nothing is left it has taken all of
them (`Search.complete`).
-/

namespace KeryxMiner

open Relation (ReflTransGen)

variable {α : Type} {roots : Set α} {next : α → α → Prop}
  {taken queue found : List α} {waiting : Finset α} {a b : α}

/-- A node that can be reached from a root. -/
def Reached (roots : Set α) (next : α → α → Prop) (a : α) : Prop :=
  ∃ r ∈ roots, ReflTransGen next r a

theorem Reached.root (h : a ∈ roots) : Reached roots next a := ⟨a, h, .refl⟩

theorem Reached.step (h : Reached roots next a) (hab : next a b) : Reached roots next b := by
  obtain ⟨r, hr, hra⟩ := h
  exact ⟨r, hr, hra.tail hab⟩

/-- A search with the nodes it has taken, its queue and the nodes it waits for. -/
structure Search (roots : Set α) (next : α → α → Prop) (taken queue : List α) (waiting : Finset α) :
    Prop where
  nodup : (taken ++ queue).Nodup
  reached : ∀ a ∈ taken ++ queue, Reached roots next a
  rooted : ∀ a ∈ roots, a ∈ taken ++ queue
  waits : ∀ a ∈ waiting, a ∈ taken
  closed : ∀ a ∈ taken, a ∉ waiting → ∀ b, next a b → b ∈ taken ++ queue

namespace Search

theorem start (hnodup : queue.Nodup) (h : ∀ a, a ∈ queue ↔ a ∈ roots) :
    Search roots next [] queue ∅ where
  nodup := hnodup
  reached a ha := .root ((h a).mp ha)
  rooted a ha := (h a).mpr ha
  waits := nofun
  closed := nofun

/-- When nothing is left, the nodes taken are those that can be reached. -/
theorem complete (h : Search roots next taken [] ∅) : Reached roots next a ↔ a ∈ taken := by
  have hnil : taken ++ [] = taken := List.append_nil taken
  constructor
  · rintro ⟨r, hr, hra⟩
    induction hra with
    | refl => exact hnil ▸ h.rooted r hr
    | tail _ hbc ih => exact hnil ▸ h.closed _ ih (Finset.notMem_empty _) _ hbc
  · intro ha
    exact h.reached a (hnil.symm ▸ ha)

variable [DecidableEq α]

/-- The first node of the queue is taken. -/
theorem take (h : Search roots next taken (a :: queue) waiting) :
    Search roots next (taken ++ [a]) queue (insert a waiting) := by
  have hlist : taken ++ [a] ++ queue = taken ++ a :: queue := by
    rw [List.append_assoc, List.singleton_append]
  constructor
  · exact hlist ▸ h.nodup
  · exact hlist ▸ h.reached
  · exact hlist ▸ h.rooted
  · intro b hb
    rw [List.mem_append, List.mem_singleton]
    rcases Finset.mem_insert.mp hb with rfl | hb
    · exact .inr rfl
    · exact .inl (h.waits b hb)
  · intro b hb hwait
    rw [Finset.mem_insert, not_or] at hwait
    rw [hlist]
    rcases List.mem_append.mp hb with hb | hb
    · exact h.closed b hb hwait.2
    · exact absurd (List.mem_singleton.mp hb) hwait.1

/-- The wait for a node ends, and what was found behind it goes to the queue: all its successors that
are new. -/
theorem expand (h : Search roots next taken queue waiting) (ha : a ∈ waiting) (hnodup : found.Nodup)
    (hfound : ∀ b ∈ found, next a b ∧ b ∉ taken ++ queue)
    (hall : ∀ b, next a b → b ∈ taken ++ queue ∨ b ∈ found) :
    Search roots next taken (queue ++ found) (waiting.erase a) := by
  constructor
  · rw [← List.append_assoc, List.nodup_append]
    refine ⟨h.nodup, hnodup, ?_⟩
    rintro b hb c hc rfl
    exact (hfound b hc).2 hb
  · intro b hb
    rw [← List.append_assoc, List.mem_append] at hb
    rcases hb with hb | hb
    · exact h.reached b hb
    · exact (h.reached a (List.mem_append_left _ (h.waits a ha))).step (hfound b hb).1
  · intro b hb
    rw [← List.append_assoc]
    exact List.mem_append_left _ (h.rooted b hb)
  · intro b hb
    exact h.waits b (Finset.mem_of_mem_erase hb)
  · intro b hb hwait c hbc
    rw [← List.append_assoc, List.mem_append]
    by_cases hba : b = a
    · exact hall c (hba ▸ hbc)
    · exact .inl (h.closed b hb (fun hmem => hwait (Finset.mem_erase.mpr ⟨hba, hmem⟩)) c hbc)

end Search

end KeryxMiner
