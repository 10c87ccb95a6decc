import Mathlib.Data.List.GetD

/-!
# Memory in bytes

A memory has a byte at every address. Of a piece of it, an address with the bytes from there on, the
memory either `Holds` the bytes or it does not, and what is written elsewhere leaves it as it is. A
list of writes leaves each of its pieces in the memory if any two of them are equal or apart
(`holds_writeAll`), whatever their order. What lies in regions that the rest of the world does not
touch is `Kept`.
-/

namespace KeryxMiner

/-- The addresses from `addr` on. -/
structure Region where
  addr : Nat
  size : Nat
  deriving DecidableEq

namespace Region

variable {r r' t t' : Region} {x : Nat}

def Has (r : Region) (x : Nat) : Prop := r.addr ≤ x ∧ x < r.addr + r.size

def Within (r t : Region) : Prop := t.addr ≤ r.addr ∧ r.addr + r.size ≤ t.addr + t.size

def Apart (r t : Region) : Prop := r.addr + r.size ≤ t.addr ∨ t.addr + t.size ≤ r.addr

instance : Decidable (Apart r t) := inferInstanceAs (Decidable (_ ∨ _))

theorem Within.has (h : Within r t) (hx : r.Has x) : t.Has x := by
  simp only [Within, Has] at *
  omega

theorem Apart.symm (h : Apart r t) : Apart t r := Or.symm h

theorem Apart.not_has (h : Apart r t) (hx : r.Has x) : ¬t.Has x := by
  simp only [Apart, Has] at *
  omega

theorem Apart.within (h : Apart r t) (hr : Within r' r) (ht : Within t' t) : Apart r' t' := by
  simp only [Apart, Within] at *
  omega

end Region

namespace ByteMemory

/-! ## Reading and writing -/

variable {m m' : Nat → UInt8} {a i n x : Nat} {bytes bytes' : List UInt8}
  {w : Nat × List UInt8} {ws : List (Nat × List UInt8)}

def read (m : Nat → UInt8) (a n : Nat) : List UInt8 := (List.range n).map fun i => m (a + i)

def write (m : Nat → UInt8) (w : Nat × List UInt8) : Nat → UInt8 := fun x =>
  if w.1 ≤ x then w.2.getD (x - w.1) (m x) else m x

def writeAll (m : Nat → UInt8) (ws : List (Nat × List UInt8)) : Nat → UInt8 := ws.foldl write m

/-- The region of a piece of memory. -/
def regionOf (w : Nat × List UInt8) : Region := ⟨w.1, w.2.length⟩

def Holds (m : Nat → UInt8) (w : Nat × List UInt8) : Prop := read m w.1 w.2.length = w.2

@[simp] theorem length_read : (read m a n).length = n := by simp [read]

theorem holds_iff : Holds m (a, bytes) ↔ ∀ i (hi : i < bytes.length), m (a + i) = bytes[i] := by
  rw [Holds, List.ext_getElem_iff]
  simp [read]

theorem Holds.congr (h : Holds m w) (hsame : ∀ x, (regionOf w).Has x → m' x = m x) : Holds m' w := by
  refine Eq.trans (List.map_congr_left fun i hi => hsame _ ?_) h
  exact ⟨Nat.le_add_right .., Nat.add_lt_add_left (List.mem_range.mp hi) _⟩

theorem Holds.append (h : Holds m (a, bytes)) (h' : Holds m (a + bytes.length, bytes')) :
    Holds m (a, bytes ++ bytes') := by
  rw [holds_iff] at *
  intro i hi
  rw [List.length_append] at hi
  by_cases hlt : i < bytes.length
  · rw [List.getElem_append_left hlt, h i hlt]
  · have hback := h' (i - bytes.length) (by omega)
    rw [List.getElem_append_right (Nat.le_of_not_lt hlt), ← hback]
    congr 1
    omega

theorem Holds.slice (h : Holds m (a, bytes)) : Holds m (a + i, (bytes.drop i).take n) := by
  rw [holds_iff] at *
  intro j hj
  rw [List.length_take, List.length_drop] at hj
  rw [List.getElem_take, List.getElem_drop, ← h (i + j) (by omega), Nat.add_assoc]

theorem write_of_not_has (h : ¬(regionOf w).Has x) : write m w x = m x := by
  rw [write]
  split
  · next hle =>
    apply List.getD_eq_default
    simp only [Region.Has, regionOf] at h
    omega
  · rfl

theorem holds_write : Holds (write m w) w := by
  rw [holds_iff]
  intro i hi
  rw [write, if_pos (Nat.le_add_right ..), Nat.add_sub_cancel_left, List.getD_eq_getElem _ _ hi]

theorem Holds.write (h : Holds m (a, bytes)) (hapart : (regionOf (a, bytes)).Apart (regionOf w)) :
    Holds (write m w) (a, bytes) :=
  h.congr fun _ hx => write_of_not_has (hapart.not_has hx)

theorem writeAll_of_not_has (h : ∀ w ∈ ws, ¬(regionOf w).Has x) : writeAll m ws x = m x := by
  induction ws generalizing m with
  | nil => rfl
  | cons w ws ih =>
    rw [writeAll, List.foldl_cons]
    exact (ih fun w hw => h w (List.mem_cons_of_mem _ hw)).trans
      (write_of_not_has (h w List.mem_cons_self))

theorem Holds.writeAll (h : Holds m w) (hapart : ∀ w' ∈ ws, (regionOf w).Apart (regionOf w')) :
    Holds (writeAll m ws) w :=
  h.congr fun _ hx => writeAll_of_not_has fun w' hw' => (hapart w' hw').not_has hx

/-- A piece that was in the memory or has been written is in it if the writes that meet it write the
same piece. -/
theorem holds_writeAll (hw : w ∈ ws ∨ Holds m w)
    (h : ∀ w' ∈ ws, w' = w ∨ (regionOf w).Apart (regionOf w')) : Holds (ByteMemory.writeAll m ws) w := by
  induction ws generalizing m with
  | nil => exact hw.resolve_left List.not_mem_nil
  | cons v ws ih =>
    refine ih ?_ fun w' hw' => h w' (List.mem_cons_of_mem _ hw')
    by_cases hv : v = w
    · exact .inr (hv ▸ holds_write)
    · have hapart := (h v List.mem_cons_self).resolve_left hv
      exact hw.imp (fun hw => (List.mem_cons.mp hw).resolve_left (Ne.symm hv)) (·.write hapart)

/-! ## What is kept -/

/-- The memory holds a piece which lies in one of the regions. -/
structure Kept (m : Nat → UInt8) (live : List Region) (w : Nat × List UInt8) : Prop where
  within : ∃ r ∈ live, (regionOf w).Within r
  holds : Holds m w

section

variable {live live' : List Region}

/-- What happens outside of the regions is of no matter. -/
theorem Kept.congr (h : Kept m live w) (hsame : ∀ r ∈ live, ∀ x, r.Has x → m' x = m x) :
    Kept m' live w := by
  obtain ⟨r, hr, hin⟩ := h.within
  exact ⟨h.within, h.holds.congr fun x hx => hsame r hr x (hin.has hx)⟩

theorem Kept.mono (h : Kept m live w) (hlive : ∀ r ∈ live, r ∈ live') : Kept m live' w := by
  obtain ⟨r, hr, hin⟩ := h.within
  exact ⟨⟨r, hlive r hr, hin⟩, h.holds⟩

theorem Kept.writeAll (h : Kept m live w)
    (hapart : ∀ w' ∈ ws, ∃ r, (regionOf w').Within r ∧ ∀ r' ∈ live, Region.Apart r' r) :
    Kept (ByteMemory.writeAll m ws) live w := by
  obtain ⟨r, hr, hin⟩ := h.within
  refine ⟨h.within, h.holds.writeAll fun w' hw' => ?_⟩
  obtain ⟨r', hin', hlive⟩ := hapart w' hw'
  exact (hlive r hr).within hin hin'

end

end ByteMemory

end KeryxMiner
