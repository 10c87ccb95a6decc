import KeryxMiner.Openings.RoundTrip

/-!
# Seeded bodies

An opening body is sent in an envelope that names its seed block: the version of the envelope, the
body's response, the seed block, the body's version and the rest of the body. `Opening::decode`
reads it as it reads the body; the other kinds are decoded after `inner_body`.
-/

namespace KeryxMiner.Openings

/-- The body inside a seeded envelope, or `body` itself when unseeded. -/
def innerBody (body : List UInt8) : Option (List UInt8) :=
  if body.head? ≠ some versionSeeded then some body
  else
    match body[65]? with
    | none => none
    | some inner =>
      if inner = versionSeeded then none
      else some (inner :: ((body.drop 1).take 32 ++ body.drop 66))

/-- The seed block a seeded opening body names; `none` for an unseeded body. -/
def seedBlock (body : List UInt8) : Option Hash :=
  if body.head? ≠ some versionSeeded then none
  else if h : ((body.drop 33).take 32).length = 32 then
    some ⟨((body.drop 33).take 32).toArray, by simpa using h⟩
  else none

/-- Whether `body` decodes as a trace, attention, recurrent or residual opening. -/
def isAuditBody (body : List UInt8) : Bool :=
  (Opening.decode body).isSome ||
    (innerBody body).any fun b => (AttnOpening.decode b).isSome || (RecurOpening.decode b).isSome ||
      (ResidOpening.decode b).isSome

/-- The versions of the bodies that are wrapped. -/
def plainVersions : List UInt8 :=
  [version, versionPrefix, versionChain, versionAttn, versionRecur, versionRoots, versionResid]

/-- Wraps an unseeded opening body into the seeded envelope naming `seedBlock`. -/
def seeded (body : List UInt8) (seedBlock : Hash) : Option (List UInt8) :=
  match body with
  | [] => none
  | version :: rest =>
    if version ∉ plainVersions ∨ (version :: rest).length < 33 then none
    else some (versionSeeded :: (rest.take 32 ++ (seedBlock.toList ++ version :: rest.drop 32)))

/-- A body of a known version that has the bytes of its header. -/
def Plain (body : List UInt8) : Prop :=
  (∃ version ∈ plainVersions, body.head? = some version) ∧ 33 ≤ body.length

/-! ## Encodings are plain -/

theorem plain_cons {version : UInt8} (hash : Hash) (rest : List UInt8)
    (h : version ∈ plainVersions) : Plain (W.u8 version ++ (W.hash hash ++ rest)) := by
  refine ⟨⟨version, h, ?_⟩, ?_⟩
  · simp [W.u8, toLe]
  · simp only [W.u8, W.hash, List.length_append, length_toLe, Vector.length_toList]
    omega

theorem Opening.plain_encode {o : Opening} : Plain o.encode := by
  have hversion : o.wireVersion ∈ plainVersions := by
    rw [wireVersion]
    split_ifs <;> decide
  rw [encode]
  simp only [List.append_assoc]
  exact plain_cons _ _ hversion

theorem AttnOpening.plain_encode {o : AttnOpening} : Plain o.encode := by
  simp only [encode, List.flatten_cons]
  exact plain_cons _ _ (by decide)

theorem RecurOpening.plain_encode {o : RecurOpening} : Plain o.encode := by
  simp only [encode, List.flatten_cons]
  exact plain_cons _ _ (by decide)

theorem ResidOpening.plain_encode {o : ResidOpening} : Plain o.encode := by
  simp only [encode, List.flatten_cons]
  exact plain_cons _ _ (by decide)

/-! ## The envelope -/

section

variable {body b : List UInt8} {block : Hash}

theorem Plain.head_ne (h : Plain body) : body.head? ≠ some versionSeeded := by
  obtain ⟨⟨version, hmem, hhead⟩, -⟩ := h
  rw [hhead]
  rintro ⟨⟩
  exact absurd hmem (by decide)

theorem Plain.innerBody (h : Plain body) : innerBody body = some body := by
  rw [Openings.innerBody, if_pos h.head_ne]

theorem Plain.seedBlock (h : Plain body) : seedBlock body = none := by
  rw [Openings.seedBlock, if_pos h.head_ne]

/-- The trace openings' decoder unwraps the envelope itself. -/
theorem Opening.decode_eq_bind {b : List UInt8} :
    Opening.decode b = (Openings.innerBody b).bind (Reader.all Opening.body) := by
  rw [Opening.decode, Openings.innerBody, ite_not]
  split
  · cases b[65]? with
    | none => rfl
    | some inner =>
      dsimp only
      split <;> rfl
  · rfl

/-- A kind of another version does not decode an envelope. -/
theorem decodeAs_seeded {α : Type} {version : UInt8} {r : Reader α} (hb : b.head? = some versionSeeded)
    (hne : versionSeeded ≠ version) : decodeAs version r b = none := by
  cases b with
  | nil => rfl
  | cons v b =>
    obtain rfl := Option.some.inj hb
    rw [decodeAs, if_neg hne]

theorem head_of_seeded (h : seeded body block = some b) : b.head? = some versionSeeded := by
  cases body with
  | nil => cases h
  | cons version rest =>
    rw [seeded] at h
    split at h
    · cases h
    · obtain rfl := Option.some.inj h
      rfl

/-- The parts of an envelope, around a body that is split behind its header. -/
theorem seeded_split {version : UInt8} {header rest : List UInt8} (hversion : version ∈ plainVersions)
    (hheader : header.length = 32) : seeded (version :: (header ++ rest)) block =
      some (versionSeeded :: (header ++ (block.toList ++ version :: rest))) := by
  have hcond : ¬(version ∉ plainVersions ∨ (version :: (header ++ rest)).length < 33) := by
    rw [not_or, not_not, List.length_cons, List.length_append]
    exact ⟨hversion, by omega⟩
  rw [seeded, if_neg hcond, List.take_left' hheader, List.drop_left' hheader]

theorem innerBody_split {version : UInt8} {header rest : List UInt8}
    (hversion : version ≠ versionSeeded) (hheader : header.length = 32) :
    innerBody (versionSeeded :: (header ++ (block.toList ++ version :: rest))) =
      some (version :: (header ++ rest)) := by
  have hblock : block.toList.length = 32 := Vector.length_toList ..
  have hget : (versionSeeded :: (header ++ (block.toList ++ version :: rest)))[65]? =
      some version := by
    rw [List.getElem?_cons_succ, List.getElem?_append_right (by omega),
      List.getElem?_append_right (by omega), hheader, hblock, List.getElem?_cons_zero]
  have hdrop : (versionSeeded :: (header ++ (block.toList ++ version :: rest))).drop 66 = rest := by
    have hlen : (versionSeeded :: (header ++ (block.toList ++ [version]))).length = 66 := by
      simp [hheader]
    have hcut : versionSeeded :: (header ++ (block.toList ++ version :: rest)) =
        (versionSeeded :: (header ++ (block.toList ++ [version]))) ++ rest := by simp
    rw [hcut, List.drop_left' hlen]
  rw [innerBody, if_neg (by simp), hget]
  dsimp only
  rw [if_neg hversion, hdrop, List.drop_one, List.tail_cons, List.take_left' hheader]

theorem seedBlock_split {header rest : List UInt8} (hheader : header.length = 32) :
    seedBlock (versionSeeded :: (header ++ (block.toList ++ rest))) = some block := by
  have hblock : block.toList.length = 32 := Vector.length_toList ..
  have hslice : ((versionSeeded :: (header ++ (block.toList ++ rest))).drop 33).take 32 =
      block.toList := by
    rw [List.drop_succ_cons, List.drop_left' hheader, List.take_left' hblock]
  rw [seedBlock, if_neg (by simp), dif_pos (by rw [hslice, hblock])]
  congr 1
  apply Vector.toList_inj.mp
  simpa using hslice

/-- What an envelope `b` keeps of the plain body in it. -/
structure Envelope (body : List UInt8) (block : Hash) (b : List UInt8) : Prop where
  inner : innerBody b = some body
  seedBlock : seedBlock b = some block
  isAuditBody : isAuditBody b = isAuditBody body
  trace : Opening.decode b = Opening.decode body
  attn : (innerBody b).bind AttnOpening.decode = AttnOpening.decode body
  recur : (innerBody b).bind RecurOpening.decode = RecurOpening.decode body
  resid : (innerBody b).bind ResidOpening.decode = ResidOpening.decode body

theorem Plain.envelope (h : Plain body) (block : Hash) :
    ∃ b, seeded body block = some b ∧ Envelope body block b := by
  obtain ⟨⟨version, hversion, hhead⟩, hlen⟩ := h
  cases body with
  | nil => cases hhead
  | cons v rest =>
    obtain rfl := Option.some.inj hhead
    rw [List.length_cons] at hlen
    have hheader : (rest.take 32).length = 32 := by
      rw [List.length_take]
      omega
    have hsplit := List.take_append_drop 32 rest
    have hne : v ≠ versionSeeded := by
      rintro rfl
      exact absurd hversion (by decide)
    have hinner := @innerBody_split block _ _ (rest.drop 32) hne hheader
    have hseeded := @seeded_split block _ _ (rest.drop 32) hversion hheader
    rw [hsplit] at hinner hseeded
    have hplain : Openings.innerBody (v :: rest) = some (v :: rest) := by
      rw [Openings.innerBody, if_pos (by simpa using hne)]
    have htrace := (Opening.decode_eq_bind.trans (by rw [hinner])).trans
      (Opening.decode_eq_bind.trans (by rw [hplain])).symm
    refine ⟨_, hseeded, ?_⟩
    exact {
      inner := hinner
      seedBlock := seedBlock_split hheader
      isAuditBody := by rw [Openings.isAuditBody, Openings.isAuditBody, htrace, hinner, hplain]
      trace := htrace
      attn := by rw [hinner, Option.bind_some]
      recur := by rw [hinner, Option.bind_some]
      resid := by rw [hinner, Option.bind_some] }

end

/-- A plain body is read back from its envelope, and is no envelope itself. -/
theorem seeded_kept (body : List UInt8) (block : Hash) (h : Plain body) :
    (∃ b, seeded body block = some b ∧ Envelope body block b) ∧
      innerBody body = some body ∧ seedBlock body = none ∧
      ∀ body' block', seeded body' block' ≠ some body := by
  refine ⟨h.envelope block, h.innerBody, h.seedBlock, ?_⟩
  intro body' block' hseeded
  exact h.head_ne (head_of_seeded hseeded)

/-- An attention opening of no bytes. -/
def emptyAttn : AttnOpening :=
  let hash : Hash := Vector.replicate 32 0
  let entry : EntryOpening := ⟨0, [], []⟩
  let span : SeqSpan := ⟨0, [], [], []⟩
  { responseTxid := hash, posRoot := hash, seqRoot := hash, layer := entry, qEntry := entry
    oEntry := entry, norms := [], posPath := [], q := [], out := ⟨[], []⟩, kcache := span
    vcache := span, anchorPosPath := [], anchorK := [], anchorV := [], absorb := [], path := []
    parent := [], parentPath := [], partials := [], lse := span }

theorem seeded_kept_emptyAttn :
    let block : Hash := Vector.replicate 32 7
    (∃ b, seeded emptyAttn.encode block = some b ∧ Envelope emptyAttn.encode block b) ∧
      innerBody emptyAttn.encode = some emptyAttn.encode ∧ seedBlock emptyAttn.encode = none ∧
      ∀ body' block', seeded body' block' ≠ some emptyAttn.encode :=
  seeded_kept _ _ AttnOpening.plain_encode

theorem decode_emptyAttn : AttnOpening.decode emptyAttn.encode = some emptyAttn := by
  apply AttnOpening.decode_eq
  simp [AttnOpening.WellFormed, EntryOpening.WellFormed, LeafBytes.WellFormed, SeqSpan.WellFormed,
    ShortOf, Short, Fits, emptyAttn]

/-- An attention opening is decoded from its body but not from the body's envelope. -/
theorem attn_not_decoded : ∃ body block b, Plain body ∧ seeded body block = some b ∧
    AttnOpening.decode b ≠ AttnOpening.decode body := by
  have hplain : Plain emptyAttn.encode := AttnOpening.plain_encode
  obtain ⟨b, hseeded, -⟩ := hplain.envelope (Vector.replicate 32 7)
  refine ⟨_, _, b, hplain, hseeded, ?_⟩
  have hnone : AttnOpening.decode b = none := decodeAs_seeded (head_of_seeded hseeded) (by decide)
  rw [hnone, decode_emptyAttn]
  exact nofun

end KeryxMiner.Openings
