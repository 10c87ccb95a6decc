import KeryxMiner.Bytes
import KeryxMiner.Inference.Manifest

/-!
# Chain extensions and their bytes

`chainBytes` writes the chain extension of an entry and `parseChain` reads it, each field at its
offset. The parser reads back what the writer writes, whatever stands behind it, and what it accepts
is written as the bytes that it consumed (`parseChain_iff`).
-/

namespace KeryxMiner.Inference

open Manifest

/-! ## Fields -/

def le32 (v : UInt32) : List UInt8 := toLe 4 v.toNat

/-- The number of `n` bytes at an offset, if they are there. -/
def numberAt (n : Nat) (b : List UInt8) (o : Nat) : Option Nat :=
  if o + n ≤ b.length then some (leAt n b o) else none

def u32a (b : List UInt8) (o : Nat) : Option UInt32 := (numberAt 4 b o).map UInt32.ofNat

/-- The loop over an array of fields from offset `o` on. -/
def readFields (b : List UInt8) : (o n : Nat) → Option (List UInt32)
  | _, 0 => some []
  | o, n + 1 => do
    let v ← u32a b o
    let vs ← readFields b (o + 4) n
    some (v :: vs)

def attnFields := 21
def recurFields := 19

namespace AttnLinks

def fields (a : AttnLinks) : List UInt32 :=
  [a.q, a.k, a.v, a.qNorm, a.kNorm, a.nHead, a.nHeadKv, a.headDim, a.ropeKind, a.nRot, a.ropeBase,
    a.kqScale, a.swaWindow, a.softcap, a.ropeFreqs, a.vNorm, a.gated, a.slot, a.mlaRank, a.absorb,
    a.out]

/-- The descriptor of an array of fields. -/
def fromFields : List UInt32 → Option AttnLinks
  | [q, k, v, qNorm, kNorm, nHead, nHeadKv, headDim, ropeKind, nRot, ropeBase, kqScale, swaWindow,
      softcap, ropeFreqs, vNorm, gated, slot, mlaRank, absorb, out] =>
    some { q, k, v, qNorm, kNorm, nHead, nHeadKv, headDim, ropeKind, nRot, ropeBase, kqScale,
           swaWindow, softcap, ropeFreqs, vNorm, gated, slot, mlaRank, absorb, out }
  | _ => none

theorem fromFields_eq_some {fs : List UInt32} {a : AttnLinks} :
    fromFields fs = some a ↔ fs = a.fields := by
  constructor
  · intro h
    rw [fromFields.eq_def] at h
    split at h
    · cases h
      rfl
    · cases h
  · rintro rfl
    rfl

end AttnLinks

namespace RecurLinks

def fields (r : RecurLinks) : List UInt32 :=
  [r.kind, r.slot, r.nVHeads, r.nKHeads, r.headDim, r.q, r.k, r.v, r.convQ, r.convK, r.convV, r.beta,
    r.decay, r.dt, r.a, r.norm, r.gate, r.interval, r.convLen]

/-- The descriptor of an array of fields. -/
def fromFields : List UInt32 → Option RecurLinks
  | [kind, slot, nVHeads, nKHeads, headDim, q, k, v, convQ, convK, convV, beta, decay, dt, a, norm,
      gate, interval, convLen] =>
    some { kind, slot, nVHeads, nKHeads, headDim, q, k, v, convQ, convK, convV, beta, decay, dt, a,
           norm, gate, interval, convLen }
  | _ => none

theorem fromFields_eq_some {fs : List UInt32} {r : RecurLinks} :
    fromFields fs = some r ↔ fs = r.fields := by
  constructor
  · intro h
    rw [fromFields.eq_def] at h
    split at h
    · cases h
      rfl
    · cases h
  · rintro rfl
    rfl

end RecurLinks

/-! ## The parser -/

/-- A part that the tag says is there. -/
def partIf {α : Type} (there : Bool) (part : Option α) : Option (Option α) :=
  if there then part.map some else some none

def parseMoe (b : List UInt8) : Option MoeLinks := do
  some { downExps := ← u32a b 25, router := ← u32a b 29, probsBias := ← u32a b 33
         wScale := ← u32a b 37, ffnNorm := ← u32a b 41, gateExps := ← u32a b 45 }

def parseAttn (b : List UInt8) (base : Nat) : Option AttnLinks :=
  (readFields b base attnFields).bind AttnLinks.fromFields

def parseRecur (b : List UInt8) (base : Nat) : Option RecurLinks :=
  (readFields b base recurFields).bind RecurLinks.fromFields

def layerTags : List UInt8 :=
  [tagLayer, tagMoeLayer, tagAttnLayer, tagAttnMoeLayer, tagRecurLayer, tagRecurMoeLayer]

def moeTags : List UInt8 := [tagMoeLayer, tagAttnMoeLayer, tagRecurMoeLayer]
def attnTags : List UInt8 := [tagAttnLayer, tagAttnMoeLayer]
def recurTags : List UInt8 := [tagRecurLayer, tagRecurMoeLayer]

/-- The chain extension at the front of some bytes, and its length. -/
def parseChain (b : List UInt8) : Option (Chain × Nat) :=
  match b with
  | [] => none
  | tag :: _ =>
    if tag = tagNone then some (.none, 1)
    else if tag = tagProduct then do
      let link ← b[5]?
      some (.product { layer := ← u32a b 1, link, norm := ← u32a b 6, src := ← u32a b 10 }, 14)
    else if tag ∈ layerTags then do
      let moe ← partIf (tag ∈ moeTags) (parseMoe b)
      let base := if moe.isSome then 49 else 25
      let attn ← partIf (tag ∈ attnTags) (parseAttn b base)
      let recur ← partIf (tag ∈ recurTags) (parseRecur b base)
      some (.layer { layer := ← u32a b 1, proj := ← u32a b 5, down := ← u32a b 9
                     postAttn := ← u32a b 13, postFfn := ← u32a b 17, scale := ← u32a b 21
                     moe, attn, recur },
        base + (if attn.isSome then 4 * attnFields else 0) +
          (if recur.isSome then 4 * recurFields else 0))
    else none

/-! ## The writer -/

def layerTag (l : LayerLinks) : UInt8 :=
  match l.moe.isSome, l.attn.isSome, l.recur.isSome with
  | false, false, false => tagLayer
  | true, false, false => tagMoeLayer
  | false, true, _ => tagAttnLayer
  | true, true, _ => tagAttnMoeLayer
  | false, false, true => tagRecurLayer
  | true, false, true => tagRecurMoeLayer

def chainBytes : Chain → List UInt8
  | .none => [tagNone]
  | .product p => tagProduct :: le32 p.layer ++ [p.link] ++ le32 p.norm ++ le32 p.src
  | .layer l =>
    layerTag l :: [l.layer, l.proj, l.down, l.postAttn, l.postFfn, l.scale].flatMap le32 ++
      (match l.moe with
        | some m =>
          [m.downExps, m.router, m.probsBias, m.wScale, m.ffnNorm, m.gateExps].flatMap le32
        | none => []) ++
      match l.attn, l.recur with
      | some a, _ => a.fields.flatMap le32
      | none, some r => r.fields.flatMap le32
      | none, none => []

/-- A layer has no attention next to a recurrent part. -/
def Chain.OneSequence : Chain → Prop
  | .layer l => l.attn = .none ∨ l.recur = .none
  | _ => True

/-! ## Where the fields stand -/

section

variable {b x y : List UInt8} {o n : Nat} {v : UInt32} {fs : List UInt32}

theorem append_prefix_iff : x ++ y <+: b ↔ x <+: b ∧ y <+: b.drop x.length := by
  constructor
  · rintro ⟨rest, rfl⟩
    rw [List.append_assoc, List.drop_left]
    exact ⟨List.prefix_append .., List.prefix_append ..⟩
  · rintro ⟨⟨rest, rfl⟩, hy⟩
    rw [List.drop_left] at hy
    exact (List.prefix_append_right_inj x).mpr hy

theorem length_le32 : (le32 v).length = 4 := length_toLe

theorem length_flatMap_le32 : (fs.flatMap le32).length = 4 * fs.length := by
  induction fs with
  | nil => rfl
  | cons v fs ih =>
    rw [List.flatMap_cons, List.length_append, length_le32, ih, List.length_cons]
    omega

/-- A number is read where its bytes stand. -/
theorem numberAt_eq_some {k : Nat} :
    numberAt n b o = some k ↔ k < 256 ^ n ∧ o + n ≤ b.length ∧ toLe n k <+: b.drop o := by
  rw [numberAt, List.prefix_iff_eq_take, length_toLe]
  by_cases hlen : o + n ≤ b.length
  · rw [if_pos hlen, Option.some_inj, leAt]
    have htake : ((b.drop o).take n).length = n := by
      rw [List.length_take, List.length_drop]
      omega
    constructor
    · rintro rfl
      have hlt := ofLe_lt ((b.drop o).take n)
      have hbytes := toLe_ofLe ((b.drop o).take n)
      rw [htake] at hlt hbytes
      exact ⟨hlt, hlen, hbytes⟩
    · rintro ⟨hk, -, hbytes⟩
      rw [← hbytes, ofLe_toLe hk]
  · rw [if_neg hlen]
    exact iff_of_false (Option.some_ne_none k).symm fun h => hlen h.2.1

theorem inside_of_prefix (h : x <+: b.drop o) (hx : 0 < x.length) : o + x.length ≤ b.length := by
  have hle := h.length_le
  rw [List.length_drop] at hle
  omega

theorem u32a_eq_some : u32a b o = some v ↔ le32 v <+: b.drop o := by
  simp only [u32a, Option.map_eq_some_iff, numberAt_eq_some]
  constructor
  · rintro ⟨k, ⟨hk, -, hbytes⟩, rfl⟩
    rw [le32, UInt32.toNat_ofNat_of_lt' hk]
    exact hbytes
  · intro hbytes
    have hinside := inside_of_prefix hbytes (by rw [length_le32]; decide)
    rw [length_le32] at hinside
    exact ⟨v.toNat, ⟨v.toNat_lt, hinside, hbytes⟩, UInt32.ofNat_toNat⟩

theorem byte_eq_some {byte : UInt8} : b[o]? = some byte ↔ [byte] <+: b.drop o := by
  rw [← Nat.add_zero o, ← List.getElem?_drop, Nat.add_zero]
  cases b.drop o with
  | nil => exact iff_of_false nofun (by simp)
  | cons x rest => simp [List.cons_prefix_cons, eq_comm]

/-- The fields are read where their bytes stand. -/
theorem readFields_eq_some : readFields b o n = some fs ↔
    fs.length = n ∧ fs.flatMap le32 <+: b.drop o := by
  induction n generalizing o fs with
  | zero =>
    rw [readFields, Option.some_inj]
    constructor
    · rintro rfl
      exact ⟨rfl, List.nil_prefix⟩
    · rintro ⟨hlen, -⟩
      exact (List.eq_nil_of_length_eq_zero hlen).symm
  | succ n ih =>
    simp only [readFields, Option.bind_eq_bind, Option.bind_eq_some_iff, Option.some_inj,
      u32a_eq_some, ih]
    constructor
    · rintro ⟨v, hv, vs, ⟨hlen, hvs⟩, rfl⟩
      rw [List.flatMap_cons, append_prefix_iff, length_le32, List.drop_drop]
      exact ⟨congrArg (· + 1) hlen, hv, hvs⟩
    · rintro ⟨hlen, hfs⟩
      cases fs with
      | nil => cases hlen
      | cons v fs =>
        rw [List.flatMap_cons, append_prefix_iff, length_le32, List.drop_drop] at hfs
        exact ⟨v, hfs.1, fs, ⟨Nat.succ.inj hlen, hfs.2⟩, rfl⟩

/-- Six fields in a row, read one by one. -/
theorem six_fields {α : Type} {f : UInt32 → UInt32 → UInt32 → UInt32 → UInt32 → UInt32 → α} {x : α} :
    ((u32a b o).bind fun v0 => (u32a b (o + 4)).bind fun v1 => (u32a b (o + 8)).bind fun v2 =>
      (u32a b (o + 12)).bind fun v3 => (u32a b (o + 16)).bind fun v4 =>
        (u32a b (o + 20)).bind fun v5 => some (f v0 v1 v2 v3 v4 v5)) = some x ↔
      ∃ v0 v1 v2 v3 v4 v5, f v0 v1 v2 v3 v4 v5 = x ∧
        [v0, v1, v2, v3, v4, v5].flatMap le32 <+: b.drop o := by
  simp only [Option.bind_eq_some_iff, Option.some_inj, u32a_eq_some, List.flatMap_cons,
    append_prefix_iff, length_le32, List.drop_drop, Nat.add_assoc, Nat.reduceAdd, List.flatMap_nil,
    List.nil_prefix, and_true]
  constructor
  · rintro ⟨v0, h0, v1, h1, v2, h2, v3, h3, v4, h4, v5, h5, rfl⟩
    exact ⟨v0, v1, v2, v3, v4, v5, rfl, h0, h1, h2, h3, h4, h5⟩
  · rintro ⟨v0, v1, v2, v3, v4, v5, rfl, h0, h1, h2, h3, h4, h5⟩
    exact ⟨v0, h0, v1, h1, v2, h2, v3, h3, v4, h4, v5, h5, rfl⟩

theorem partIf_eq_some {α : Type} {there : Bool} {part : Option α} {x : Option α} :
    partIf there part = some x ↔ there = x.isSome ∧ ∀ y, x = some y → part = some y := by
  cases there with
  | false =>
    cases x with
    | none => exact ⟨fun _ => ⟨rfl, nofun⟩, fun _ => rfl⟩
    | some y => exact ⟨nofun, fun h => nomatch h.1⟩
  | true =>
    rw [partIf, if_pos rfl, Option.map_eq_some_iff]
    constructor
    · rintro ⟨y, hy, rfl⟩
      refine ⟨rfl, ?_⟩
      rintro z ⟨⟩
      exact hy
    · rintro ⟨hsome, hx⟩
      obtain ⟨y, rfl⟩ := Option.isSome_iff_exists.mp hsome.symm
      exact ⟨y, hx y rfl, rfl⟩

end

/-! ## The parts of a layer -/

section

variable {b : List UInt8} {l : LayerLinks} {m : MoeLinks} {tag : UInt8} {base n : Nat}

def headFields (l : LayerLinks) : List UInt32 :=
  [l.layer, l.proj, l.down, l.postAttn, l.postFfn, l.scale]

def moeFields (m : MoeLinks) : List UInt32 :=
  [m.downExps, m.router, m.probsBias, m.wScale, m.ffnNorm, m.gateExps]

def moeBytes (l : LayerLinks) : List UInt8 :=
  match l.moe with
  | some m => (moeFields m).flatMap le32
  | none => []

/-- The bytes of the attention or the recurrent part. -/
def sequenceBytes (l : LayerLinks) : List UInt8 :=
  match l.attn, l.recur with
  | some a, _ => a.fields.flatMap le32
  | none, some r => r.fields.flatMap le32
  | none, none => []

theorem chainBytes_layer : chainBytes (.layer l) =
    layerTag l :: (headFields l).flatMap le32 ++ moeBytes l ++ sequenceBytes l := rfl

theorem length_moeBytes : (moeBytes l).length = if l.moe.isSome then 24 else 0 := by
  rw [moeBytes]
  cases l.moe with
  | none => rfl
  | some m => exact length_flatMap_le32

theorem length_sequenceBytes (hone : l.attn = none ∨ l.recur = none) : (sequenceBytes l).length =
    (if l.attn.isSome then 4 * attnFields else 0) +
      (if l.recur.isSome then 4 * recurFields else 0) := by
  rw [sequenceBytes]
  cases hattn : l.attn with
  | none =>
    cases hrecur : l.recur with
    | none => rfl
    | some r => exact length_flatMap_le32
  | some a =>
    rw [hattn] at hone
    rw [hone.resolve_left nofun]
    exact length_flatMap_le32

/-- The tag says which parts are there. -/
theorem layerTag_eq_iff : layerTag l = tag ∧ (l.attn = none ∨ l.recur = none) ↔ tag ∈ layerTags ∧
    decide (tag ∈ moeTags) = l.moe.isSome ∧ decide (tag ∈ attnTags) = l.attn.isSome ∧
      decide (tag ∈ recurTags) = l.recur.isSome := by
  have hone : (l.attn = none ∨ l.recur = none) ↔ (l.attn.isSome && l.recur.isSome) = false := by
    cases l.attn <;> cases l.recur <;> simp
  rw [hone, layerTag]
  generalize l.moe.isSome = moe, l.attn.isSome = attn, l.recur.isSome = recur
  constructor
  · rintro ⟨rfl, h⟩
    revert moe attn recur
    decide
  · rintro ⟨htag, rfl, rfl, rfl⟩
    revert tag
    decide +kernel

theorem parseMoe_eq_some : parseMoe b = some m ↔ (moeFields m).flatMap le32 <+: b.drop 25 := by
  have hsix := six_fields (b := b) (o := 25) (f := MoeLinks.mk) (x := m)
  simp only [Nat.reduceAdd] at hsix
  rw [parseMoe]
  refine hsix.trans ⟨?_, ?_⟩
  · rintro ⟨v0, v1, v2, v3, v4, v5, rfl, hfields⟩
    exact hfields
  · intro hfields
    exact ⟨_, _, _, _, _, _, rfl, hfields⟩

theorem parseAttn_eq_some {a : AttnLinks} :
    parseAttn b base = some a ↔ a.fields.flatMap le32 <+: b.drop base := by
  simp only [parseAttn, Option.bind_eq_some_iff, AttnLinks.fromFields_eq_some, readFields_eq_some]
  constructor
  · rintro ⟨fs, ⟨-, hfields⟩, rfl⟩
    exact hfields
  · intro hfields
    exact ⟨a.fields, ⟨rfl, hfields⟩, rfl⟩

theorem parseRecur_eq_some {r : RecurLinks} :
    parseRecur b base = some r ↔ r.fields.flatMap le32 <+: b.drop base := by
  simp only [parseRecur, Option.bind_eq_some_iff, RecurLinks.fromFields_eq_some, readFields_eq_some]
  constructor
  · rintro ⟨fs, ⟨-, hfields⟩, rfl⟩
    exact hfields
  · intro hfields
    exact ⟨r.fields, ⟨rfl, hfields⟩, rfl⟩

/-- The parts that the parser reads are those that the bytes of the layer have. -/
theorem parts_iff (hone : l.attn = none ∨ l.recur = none) :
    ((∀ m, l.moe = some m → parseMoe b = some m) ∧
      (∀ a, l.attn = some a → parseAttn b (25 + (moeBytes l).length) = some a) ∧
        ∀ r, l.recur = some r → parseRecur b (25 + (moeBytes l).length) = some r) ↔
      moeBytes l <+: b.drop 25 ∧ sequenceBytes l <+: b.drop (25 + (moeBytes l).length) := by
  simp only [parseMoe_eq_some, parseAttn_eq_some, parseRecur_eq_some]
  apply and_congr
  · rw [moeBytes]
    cases l.moe with
    | none => exact iff_of_true nofun List.nil_prefix
    | some m => simp only [Option.some_inj, forall_eq']
  · rw [sequenceBytes]
    cases hattn : l.attn with
    | none =>
      cases hrecur : l.recur with
      | none => exact iff_of_true ⟨nofun, nofun⟩ List.nil_prefix
      | some r => simp only [Option.some_inj, forall_eq', reduceCtorEq, false_implies, implies_true,
          true_and]
    | some a =>
      rw [hattn] at hone
      rw [hone.resolve_left nofun]
      simp only [Option.some_inj, forall_eq', reduceCtorEq, false_implies, implies_true, and_true]

/-- The bytes of a layer, part by part. -/
theorem chainBytes_layer_iff {rest : List UInt8} : chainBytes (.layer l) <+: tag :: rest ↔
    layerTag l = tag ∧ (headFields l).flatMap le32 <+: (tag :: rest).drop 1 ∧
      moeBytes l <+: (tag :: rest).drop 25 ∧
        sequenceBytes l <+: (tag :: rest).drop (25 + (moeBytes l).length) := by
  have hhead : ((headFields l).flatMap le32).length = 24 := length_flatMap_le32
  rw [chainBytes_layer, append_prefix_iff, append_prefix_iff, List.cons_prefix_cons]
  simp only [List.length_append, List.length_cons, hhead, Nat.reduceAdd, and_assoc]
  rfl

theorem parseHead_iff {moe : Option MoeLinks} {attn : Option AttnLinks} {recur : Option RecurLinks}
    {k : Nat} : ((u32a b 1).bind fun layer => (u32a b 5).bind fun proj => (u32a b 9).bind fun down =>
      (u32a b 13).bind fun postAttn => (u32a b 17).bind fun postFfn => (u32a b 21).bind fun scale =>
        some (Chain.layer ⟨layer, proj, down, postAttn, postFfn, scale, moe, attn, recur⟩, k)) =
          some (.layer l, n) ↔
      (headFields l).flatMap le32 <+: b.drop 1 ∧ moe = l.moe ∧ attn = l.attn ∧ recur = l.recur ∧
        k = n := by
  have hsix := six_fields (b := b) (o := 1) (x := (Chain.layer l, n)) (f := fun v0 v1 v2 v3 v4 v5 =>
    (.layer ⟨v0, v1, v2, v3, v4, v5, moe, attn, recur⟩, k))
  refine hsix.trans ⟨?_, ?_⟩
  · rintro ⟨v0, v1, v2, v3, v4, v5, heq, hfields⟩
    cases heq
    exact ⟨hfields, rfl, rfl, rfl, rfl⟩
  · rintro ⟨hfields, rfl, rfl, rfl, rfl⟩
    exact ⟨_, _, _, _, _, _, rfl, hfields⟩

theorem parseChain_layer (htag : tag ∈ layerTags) {rest : List UInt8} (hb : b = tag :: rest) :
    parseChain b = some (.layer l, n) ↔ Chain.OneSequence (.layer l) ∧
      n = (chainBytes (.layer l)).length ∧ chainBytes (.layer l) <+: b := by
  have hbranch : ∀ t ∈ layerTags, t ≠ tagNone ∧ t ≠ tagProduct := by decide +kernel
  have hbase : (if l.moe.isSome then 49 else 25) = 25 + (moeBytes l).length := by
    rw [length_moeBytes]
    cases l.moe <;> rfl
  have hlen : (chainBytes (.layer l)).length = 25 + (moeBytes l).length + (sequenceBytes l).length := by
    rw [chainBytes_layer, List.length_append, List.length_append, List.length_cons,
      length_flatMap_le32]
    rfl
  rw [hb, parseChain, if_neg (hbranch tag htag).1, if_neg (hbranch tag htag).2, if_pos htag, ← hb]
  simp only [Option.bind_eq_bind]
  constructor
  · intro h
    obtain ⟨moe, hpart, h⟩ := Option.bind_eq_some_iff.mp h
    obtain ⟨hmoe, hmoe'⟩ := partIf_eq_some.mp hpart
    obtain ⟨attn, hpart, h⟩ := Option.bind_eq_some_iff.mp h
    obtain ⟨hattn, hattn'⟩ := partIf_eq_some.mp hpart
    obtain ⟨recur, hpart, h⟩ := Option.bind_eq_some_iff.mp h
    obtain ⟨hrecur, hrecur'⟩ := partIf_eq_some.mp hpart
    clear hpart
    obtain ⟨hhead, rfl, rfl, rfl, rfl⟩ := parseHead_iff.mp h
    obtain ⟨htag', hone⟩ := layerTag_eq_iff.mpr ⟨htag, hmoe, hattn, hrecur⟩
    rw [hbase] at hattn' hrecur'
    obtain ⟨hmoes, hsequence⟩ := (parts_iff hone).mp ⟨hmoe', hattn', hrecur'⟩
    refine ⟨hone, ?_, ?_⟩
    · rw [hbase, hlen, length_sequenceBytes hone, Nat.add_assoc]
    · rw [hb] at hhead hmoes hsequence ⊢
      exact chainBytes_layer_iff.mpr ⟨htag', hhead, hmoes, hsequence⟩
  · rintro ⟨hone, rfl, hstarts⟩
    rw [hb, chainBytes_layer_iff, ← hb] at hstarts
    obtain ⟨htag', hhead, hmoes, hsequence⟩ := hstarts
    obtain ⟨-, hmoe, hattn, hrecur⟩ := layerTag_eq_iff.mp ⟨htag', hone⟩
    obtain ⟨hmoe', hattn', hrecur'⟩ := (parts_iff hone).mpr ⟨hmoes, hsequence⟩
    rw [← hbase] at hattn' hrecur'
    rw [partIf_eq_some.mpr ⟨hmoe, hmoe'⟩, Option.bind_some, partIf_eq_some.mpr ⟨hattn, hattn'⟩,
      Option.bind_some, partIf_eq_some.mpr ⟨hrecur, hrecur'⟩, Option.bind_some]
    refine parseHead_iff.mpr ⟨hhead, rfl, rfl, rfl, ?_⟩
    rw [hbase, hlen, length_sequenceBytes hone, Nat.add_assoc]

theorem parseChain_product {p : ProductLink} {rest : List UInt8} (hb : b = tagProduct :: rest) :
    parseChain b = some (.product p, n) ↔ n = 14 ∧ chainBytes (.product p) <+: b := by
  have hbytes : chainBytes (.product p) =
      tagProduct :: (le32 p.layer ++ ([p.link] ++ (le32 p.norm ++ le32 p.src))) := by
    simp only [chainBytes, List.cons_append, List.append_assoc, List.nil_append]
  have hparts : chainBytes (.product p) <+: b ↔ le32 p.layer <+: b.drop 1 ∧
      [p.link] <+: b.drop 5 ∧ le32 p.norm <+: b.drop 6 ∧ le32 p.src <+: b.drop 10 := by
    rw [hbytes, hb, List.cons_prefix_cons, append_prefix_iff, append_prefix_iff, append_prefix_iff]
    simp only [length_le32, List.length_singleton, List.drop_drop, Nat.reduceAdd, true_and]
    rfl
  rw [hparts, hb, parseChain, if_neg (by decide), if_pos rfl, ← hb]
  simp only [Option.bind_eq_bind, Option.bind_eq_some_iff, Option.some_inj, u32a_eq_some, byte_eq_some,
    Prod.mk.injEq, Chain.product.injEq]
  constructor
  · rintro ⟨link, hlink, layer, hlayer, norm, hnorm, src, hsrc, rfl, rfl⟩
    exact ⟨rfl, hlayer, hlink, hnorm, hsrc⟩
  · rintro ⟨rfl, hlayer, hlink, hnorm, hsrc⟩
    exact ⟨_, hlink, _, hlayer, _, hnorm, _, hsrc, rfl, rfl⟩

/-- The tags of a kind of chain extension. -/
def chainTags : Chain → List UInt8
  | .none => [tagNone]
  | .product _ => [tagProduct]
  | .layer _ => layerTags

theorem tag_of_parseChain {c : Chain} {rest : List UInt8}
    (h : parseChain (tag :: rest) = some (c, n)) : tag ∈ chainTags c := by
  rw [parseChain] at h
  split at h
  next htag =>
    cases h
    exact List.mem_singleton.mpr htag
  split at h
  next htag =>
    simp only [Option.bind_eq_bind, Option.bind_eq_some_iff, Option.some_inj] at h
    obtain ⟨link, -, layer, -, norm, -, src, -, h⟩ := h
    cases h
    exact List.mem_singleton.mpr htag
  split at h
  next htag =>
    obtain ⟨moe, -, h⟩ := Option.bind_eq_some_iff.mp h
    obtain ⟨attn, -, h⟩ := Option.bind_eq_some_iff.mp h
    obtain ⟨recur, -, h⟩ := Option.bind_eq_some_iff.mp h
    simp only [Option.bind_eq_bind, Option.bind_eq_some_iff, Option.some_inj] at h
    obtain ⟨v0, -, v1, -, v2, -, v3, -, v4, -, v5, -, h⟩ := h
    cases h
    exact htag
  · cases h

theorem tag_of_chainBytes {c : Chain} {rest : List UInt8} (hone : c.OneSequence)
    (h : chainBytes c <+: tag :: rest) : tag ∈ chainTags c := by
  cases c with
  | none => exact List.mem_singleton.mpr (List.cons_prefix_cons.mp h).1.symm
  | product p => exact List.mem_singleton.mpr (List.cons_prefix_cons.mp h).1.symm
  | layer l =>
    have htag := (chainBytes_layer_iff.mp h).1
    exact (layerTag_eq_iff.mp ⟨htag, hone⟩).1

/-- The parser accepts the bytes of a chain extension with at most one sequence part, whatever
follows, and takes them. -/
theorem parseChain_eq_some {c : Chain} : parseChain b = some (c, n) ↔
    c.OneSequence ∧ n = (chainBytes c).length ∧ chainBytes c <+: b := by
  cases b with
  | nil =>
    refine iff_of_false nofun ?_
    rintro ⟨-, -, hstarts⟩
    have hnil := List.prefix_nil.mp hstarts
    cases c <;> cases hnil
  | cons tag rest =>
    by_cases htag : tag ∈ chainTags c
    · cases c with
      | none =>
        obtain rfl := List.mem_singleton.mp htag
        have hstarts : chainBytes .none <+: tagNone :: rest :=
          List.cons_prefix_cons.mpr ⟨rfl, List.nil_prefix⟩
        constructor
        · intro h
          cases h
          exact ⟨trivial, rfl, hstarts⟩
        · rintro ⟨-, rfl, -⟩
          rfl
      | product p =>
        obtain rfl := List.mem_singleton.mp htag
        rw [parseChain_product rfl]
        have hlen : (chainBytes (.product p)).length = 14 := by
          simp only [chainBytes, List.length_append, List.length_cons, length_le32, List.length_nil]
        rw [hlen]
        exact (iff_of_eq (true_and _)).symm
      | layer l => exact parseChain_layer htag rfl
    · exact iff_of_false (htag ∘ tag_of_parseChain)
        fun ⟨hone, _, hstarts⟩ => htag (tag_of_chainBytes hone hstarts)

/-- A chain extension with at most one sequence part reads back from its bytes, whatever follows
them, and what the parser accepts is written as the bytes that it consumed. -/
theorem parseChain_iff :
    (∀ (c : Chain) (rest : List UInt8), c.OneSequence →
      parseChain (chainBytes c ++ rest) = some (c, (chainBytes c).length)) ∧
    ∀ (b : List UInt8) (c : Chain) (n : Nat), parseChain b = some (c, n) →
      n ≤ b.length ∧ chainBytes c = b.take n ∧ c.OneSequence := by
  constructor
  · intro c rest hone
    exact parseChain_eq_some.mpr ⟨hone, rfl, List.prefix_append ..⟩
  · intro b c n h
    obtain ⟨hone, rfl, hstarts⟩ := parseChain_eq_some.mp h
    exact ⟨hstarts.length_le, List.prefix_iff_eq_take.mp hstarts, hone⟩

/-- A recurrent layer with experts, and a product. -/
theorem parseChain_iff_layer :
    let recur : RecurLinks := ⟨1, 2, 4, 2, 16, 5, 6, 7, 8, 9, 10, 11, 12, 13, 14, 15, 16, 64, 4⟩
    let moe : MoeLinks := ⟨30, 31, 0xffffffff, 0xffffffff, 34, 35⟩
    let layer : Chain := .layer ⟨0, 20, 21, 22, 0xffffffff, 1, some moe, none, some recur⟩
    let product : List UInt8 := [1, 3, 0, 0, 0, 2, 4, 1, 0, 0, 5, 0, 0, 0, 9]
    parseChain (chainBytes layer ++ [1, 2, 3]) = some (layer, 125) ∧
      chainBytes (.product ⟨3, 2, 260, 5⟩) = product.take 14 :=
  ⟨parseChain_iff.1 _ [1, 2, 3] (.inl rfl), (parseChain_iff.2 _ _ 14 rfl).2.1⟩

end

end KeryxMiner.Inference
