import KeryxMiner.Bytes

/-!
# Bundles of opening bodies

Bodies that are sent as one transaction each are kept together until they are: one body as it is,
several in a frame that gives the length of each. Bodies shorter than 4 GiB that do not start with
the tag of the frame come back, and what is accepted is the bundle of what comes back, unless it is
a frame of one body, which is not written (`bundle_right`).
-/

namespace KeryxMiner.Openings

def BUNDLE : UInt8 := 0xB0

/-- A body in the frame. -/
def framed (body : List UInt8) : List UInt8 := toLe 4 (body.length % 2 ^ 32) ++ body

def bundle : List (List UInt8) → List UInt8
  | [body] => body
  | bodies => BUNDLE :: UInt8.ofNat bodies.length :: bodies.flatMap framed

/-- `b.get(o..o + n)`. -/
def getSlice (b : List UInt8) (o n : Nat) : Option (List UInt8) :=
  if o + n ≤ b.length then some ((b.drop o).take n) else none

/-- `n` bodies from `o` on, and where they end. -/
def unbundleLoop (b : List UInt8) : (n o : Nat) → Option (List (List UInt8) × Nat)
  | 0, o => some ([], o)
  | n + 1, o => do
    let head ← getSlice b o 4
    let len := ofLe head
    let body ← getSlice b (o + 4) len
    let (out, o) ← unbundleLoop b n (o + 4 + len)
    some (body :: out, o)

def unbundle (b : List UInt8) : Option (List (List UInt8)) :=
  if b.head? ≠ some BUNDLE then some [b]
  else do
    let n ← b[1]?
    let (out, o) ← unbundleLoop b n.toNat 2
    if o = b.length then some out else none

variable {b body before after : List UInt8} {bodies : List (List UInt8)} {n o o' : Nat}

/-! ## Frames -/

theorem getSlice_append (h : before.length = o) (hbody : body.length = n) :
    getSlice (before ++ (body ++ after)) o n = some body := by
  rw [getSlice, if_pos (by simp; omega), List.drop_left' h, List.take_left' hbody]

theorem drop_of_getSlice (h : getSlice b o n = some body) :
    o + n ≤ b.length ∧ body.length = n ∧ b.drop o = body ++ b.drop (o + n) := by
  unfold getSlice at h
  split at h
  · next hle =>
    cases h
    refine ⟨hle, ?_, ?_⟩
    · rw [List.length_take, List.length_drop]
      omega
    · rw [← List.drop_drop, List.take_append_drop]
  · cases h

/-- Frames are read as they are written. -/
theorem unbundleLoop_framed (after : List UInt8) (hbodies : ∀ body ∈ bodies, body.length < 2 ^ 32)
    (h : before.length = o) :
    unbundleLoop (before ++ (bodies.flatMap framed ++ after)) bodies.length o =
      some (bodies, o + (bodies.flatMap framed).length) := by
  induction bodies generalizing before o with
  | nil => rfl
  | cons body bodies ih =>
    obtain ⟨hbody, hrest⟩ := List.forall_mem_cons.mp hbodies
    have hmod : body.length % 2 ^ 32 = body.length := Nat.mod_eq_of_lt hbody
    have hlen : ofLe (toLe 4 body.length) = body.length := ofLe_toLe hbody
    have hhead : getSlice (before ++ ((body :: bodies).flatMap framed ++ after)) o 4 =
        some (toLe 4 body.length) := by
      rw [List.flatMap_cons, framed, hmod, List.append_assoc, List.append_assoc]
      exact getSlice_append h length_toLe
    have hslice : getSlice (before ++ ((body :: bodies).flatMap framed ++ after)) (o + 4)
        body.length = some body := by
      rw [List.flatMap_cons, framed, hmod, List.append_assoc, List.append_assoc, ← List.append_assoc]
      exact getSlice_append (by simp [h]) rfl
    have hbefore : (before ++ framed body).length = o + 4 + body.length := by
      simp only [framed, List.length_append, length_toLe, h]
      omega
    have hloop := ih hrest hbefore
    rw [List.length_cons, unbundleLoop, hhead]
    dsimp only [Option.bind_eq_bind, Option.bind_some]
    rw [hlen, hslice]
    dsimp only [Option.bind_some]
    rw [List.flatMap_cons, List.append_assoc, ← List.append_assoc, hloop]
    simp [framed]
    omega

/-- What is read is what stands there. -/
theorem framed_of_unbundleLoop (h : unbundleLoop b n o = some (bodies, o')) :
    bodies.length = n ∧ b.drop o = bodies.flatMap framed ++ b.drop o' := by
  induction n generalizing o bodies with
  | zero =>
    cases h
    exact ⟨rfl, rfl⟩
  | succ n ih =>
    rw [unbundleLoop] at h
    obtain ⟨head, hhead, h⟩ := Option.bind_eq_some_iff.mp h
    obtain ⟨body, hbody, h⟩ := Option.bind_eq_some_iff.mp h
    obtain ⟨⟨out, end'⟩, hloop, h⟩ := Option.bind_eq_some_iff.mp h
    cases h
    obtain ⟨-, hlen, hdrop⟩ := drop_of_getSlice hhead
    obtain ⟨-, hlen', hdrop'⟩ := drop_of_getSlice hbody
    obtain ⟨hout, hrest⟩ := ih hloop
    have hlt : ofLe head < 2 ^ 32 := by
      have hlt := ofLe_lt head
      rw [hlen] at hlt
      exact hlt
    have hframed : framed body = head ++ body := by
      have hle := toLe_ofLe head
      rw [hlen] at hle
      rw [framed, hlen', Nat.mod_eq_of_lt hlt, hle]
    refine ⟨by rw [List.length_cons, hout], ?_⟩
    rw [hdrop, hdrop', hrest, List.flatMap_cons, hframed, List.append_assoc, List.append_assoc]

/-! ## Bundles -/

theorem bundle_of_length_ne_one (h : bodies.length ≠ 1) :
    bundle bodies = BUNDLE :: UInt8.ofNat bodies.length :: bodies.flatMap framed := by
  match bodies with
  | [] => rfl
  | [body] => exact absurd rfl h
  | body :: body' :: bodies => rfl

theorem unbundle_bundle (hlen : bodies.length ≤ 255)
    (htag : ∀ body ∈ bodies, body.head? ≠ some BUNDLE)
    (hshort : bodies.length ≠ 1 → ∀ body ∈ bodies, body.length < 2 ^ 32) :
    unbundle (bundle bodies) = some bodies := by
  by_cases hone : bodies.length = 1
  · obtain ⟨body, rfl⟩ := List.length_eq_one_iff.mp hone
    exact if_pos (htag body List.mem_cons_self)
  · have hcount : (UInt8.ofNat bodies.length).toNat = bodies.length := by
      rw [UInt8.toNat_ofNat']
      omega
    have hloop := unbundleLoop_framed [] (hshort hone)
      (show [BUNDLE, UInt8.ofNat bodies.length].length = 2 from rfl)
    rw [List.append_nil] at hloop
    rw [bundle_of_length_ne_one hone, unbundle, if_neg (by simp)]
    change (do
      let (out, o) ← unbundleLoop ([BUNDLE, UInt8.ofNat bodies.length] ++ bodies.flatMap framed)
        (UInt8.ofNat bodies.length).toNat 2
      if o = _ then some out else none) = _
    rw [hcount, hloop]
    dsimp only [Option.bind_eq_bind, Option.bind_some]
    rw [if_pos]
    simp
    omega

theorem bundle_of_unbundle (h : unbundle b = some bodies)
    (hone : ¬∃ body, b = BUNDLE :: 1 :: framed body) : bundle bodies = b := by
  unfold unbundle at h
  split at h
  · cases h
    rfl
  · next htag =>
    obtain ⟨n, hn, h⟩ := Option.bind_eq_some_iff.mp h
    obtain ⟨⟨out, o⟩, hloop, h⟩ := Option.bind_eq_some_iff.mp h
    dsimp only at h
    split at h
    · next hend =>
      cases h
      obtain ⟨hcount, hdrop⟩ := framed_of_unbundleLoop hloop
      rw [hend, List.drop_length, List.append_nil] at hdrop
      have hb : b = BUNDLE :: n :: bodies.flatMap framed := by
        match b, htag, hn, hdrop with
        | x :: y :: b, htag, hn, hdrop =>
          rw [List.head?_cons, not_not] at htag
          cases htag
          cases hn
          exact congrArg (BUNDLE :: n :: ·) hdrop
      have hn : UInt8.ofNat bodies.length = n := by rw [hcount, UInt8.ofNat_toNat]
      have hne : bodies.length ≠ 1 := by
        intro hlen
        obtain ⟨body, rfl⟩ := List.length_eq_one_iff.mp hlen
        rw [← hn, List.flatMap_singleton] at hb
        exact hone ⟨body, hb⟩
      rw [bundle_of_length_ne_one hne, hn, hb]
    · cases h

/-- **Bundled bodies come back, and what is accepted is the bundle of what comes back.** -/
theorem bundle_right :
    (∀ bodies : List (List UInt8), bodies.length ≤ 255 →
      (∀ body ∈ bodies, body.head? ≠ some BUNDLE) →
      (bodies.length ≠ 1 → ∀ body ∈ bodies, body.length < 2 ^ 32) →
      unbundle (bundle bodies) = some bodies) ∧
    (∀ b bodies, unbundle b = some bodies → (¬∃ body, b = BUNDLE :: 1 :: framed body) →
      bundle bodies = b) :=
  ⟨fun _ hlen htag hshort => unbundle_bundle hlen htag hshort, fun _ _ h hone => bundle_of_unbundle h hone⟩

theorem length_bundle_ge (h : bodies.length ≠ 1) : bodies.length * 4 ≤ (bundle bodies).length := by
  have hframes : ∀ bodies : List (List UInt8), bodies.length * 4 ≤ (bodies.flatMap framed).length := by
    intro bodies
    induction bodies with
    | nil => exact Nat.le_refl 0
    | cons body bodies ih =>
      simp only [List.length_cons, List.flatMap_cons, List.length_append, framed, length_toLe]
      omega
  have hle := hframes bodies
  rw [bundle_of_length_ne_one h, List.length_cons, List.length_cons]
  omega

/-- Two lengths of zero end before what follows them. -/
theorem unbundle_zeros (h : after ≠ []) :
    unbundle (0xB0 :: 2 :: 0 :: 0 :: 0 :: 0 :: 0 :: 0 :: 0 :: 0 :: after) = none := by
  have hpos : 0 < after.length := List.length_pos_iff.mpr h
  simp [unbundle, unbundleLoop, getSlice, BUNDLE, ofLe]
  omega

/-- A body of 4 GiB that starts with zeros is framed with the length zero. -/
theorem unbundle_huge (h : after.length = 2 ^ 32 - 4) :
    unbundle (bundle [0 :: 0 :: 0 :: 0 :: after, []]) = none := by
  have hsum : 2 ^ 32 - 4 + 1 + 1 + 1 + 1 = 2 ^ 32 := by omega
  have hlen : (0 :: 0 :: 0 :: 0 :: after : List UInt8).length % 2 ^ 32 = 0 := by
    rw [List.length_cons, List.length_cons, List.length_cons, List.length_cons, h, hsum,
      Nat.mod_self]
  have hframed : framed (0 :: 0 :: 0 :: 0 :: after) =
      0 :: 0 :: 0 :: 0 :: 0 :: 0 :: 0 :: 0 :: after := by
    rw [framed, hlen]
    rfl
  have hbundle : bundle [0 :: 0 :: 0 :: 0 :: after, []] =
      0xB0 :: 2 :: 0 :: 0 :: 0 :: 0 :: 0 :: 0 :: 0 :: 0 :: (after ++ [0, 0, 0, 0]) := by
    rw [bundle_of_length_ne_one (by simp), List.flatMap_cons, hframed]
    rfl
  rw [hbundle, unbundle_zeros (by simp)]

/-- A frame of one empty body is accepted and is no bundle of bodies without the tag, and a body of
4 GiB does not come back from a bundle of two. -/
theorem bundle_wrong :
    (unbundle [0xB0, 1, 0, 0, 0, 0] = some [[]] ∧
      ∀ bodies : List (List UInt8), (∀ body ∈ bodies, body.head? ≠ some BUNDLE) →
        bundle bodies ≠ [0xB0, 1, 0, 0, 0, 0]) ∧
    unbundle (bundle [List.replicate (2 ^ 32) 0, []]) ≠ some [List.replicate (2 ^ 32) 0, []] := by
  refine ⟨⟨rfl, ?_⟩, ?_⟩
  · intro bodies htag hbundle
    by_cases hone : bodies.length = 1
    · obtain ⟨body, rfl⟩ := List.length_eq_one_iff.mp hone
      obtain rfl : body = [0xB0, 1, 0, 0, 0, 0] := hbundle
      exact htag _ List.mem_cons_self rfl
    · have hlen := length_bundle_ge hone
      have hcount := congrArg (·[1]?) hbundle
      rw [bundle_of_length_ne_one hone] at hcount
      rw [hbundle] at hlen
      have hcount : UInt8.ofNat bodies.length = 1 := Option.some.inj hcount
      have hnat := congrArg UInt8.toNat hcount
      rw [UInt8.toNat_ofNat'] at hnat
      simp at hlen
      have : bodies.length % 256 = 1 := hnat
      omega
  · have hzeros : ∀ n, List.replicate (4 + n) (0 : UInt8) = 0 :: 0 :: 0 :: 0 :: List.replicate n 0 := by
      intro n
      rw [List.replicate_add]
      rfl
    have hlen : 2 ^ 32 = 4 + (2 ^ 32 - 4) := by omega
    rw [hlen, hzeros, unbundle_huge]
    · exact nofun
    · rw [List.length_replicate]

end KeryxMiner.Openings
