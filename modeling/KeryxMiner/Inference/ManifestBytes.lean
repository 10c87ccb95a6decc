import KeryxMiner.Outcome
import KeryxMiner.Inference.ChainBytes

/-!
# Manifest files, byte by byte

The parser of a manifest file as the source has it: an entry is cut out of the file by offsets, and
a place outside the file is either refused or, where the source indexes, a panic. On files that end
within the header it panics, and what stands behind the last entry is not looked at; on all others
the entries are the bytes behind the header, each of which parses by itself (`readsSafely_iff`).
-/

namespace KeryxMiner.Inference

open Manifest

/-- What the source asks for with `?`. -/
def require {α : Type} (a : Option α) : Except ReadError α := orFail a .malformed

/-- What the source indexes. -/
def index {α : Type} (a : Option α) : Except ReadError α := orFail a .outOfBounds

/-- The bytes from `lo` to `hi`. -/
def slice (b : List UInt8) (lo hi : Nat) : Option (List UInt8) :=
  if lo ≤ hi ∧ hi ≤ b.length then some ((b.drop lo).take (hi - lo)) else none

def le64 (v : UInt64) : List UInt8 := toLe 8 v.toNat

def u64a (b : List UInt8) (o : Nat) : Option UInt64 := (numberAt 8 b o).map UInt64.ofNat

namespace Offsets

/-- The entry of a name and the 55 bytes behind it. -/
def entryOf (name : String) (r : List UInt8) : Except ReadError Entry := do
  return { name, wtype := ← index (u32a r 0), k := ← index (u64a r 4), m := ← index (u64a r 12)
           nExp := ← index (u32a r 20), chunkBase := ← index (u64a r 24)
           nBytes := ← index (u64a r 32), rowBytes := ← index (u32a r 40), role := ← index r[44]?
           gluOp := ← index r[45]?, gluForm := ← index r[46]?, partner := ← index (u32a r 47)
           bias := ← index (u32a r 51), chain := .none }

def parseBase (b : List UInt8) : Except ReadError (Entry × Nat) := do
  let nl := ofLe (← require (slice b 0 2))
  let name ← require (String.fromUTF8? ⟨(← require (slice b 2 (2 + nl))).toArray⟩)
  let r ← require (slice b (2 + nl) (2 + nl + 55))
  return (← entryOf name r, 2 + nl + 55)

/-- The entry with the chain extension behind its first `len` bytes. -/
def withChain (b : List UInt8) (e : Entry) (len : Nat) : Except ReadError (Entry × Nat) := do
  let (c, n) ← require (parseChain (← index (slice b len b.length)))
  return ({ e with chain := c }, len + n)

/-- One whole entry and its length; the chain extension is there if bytes are left for it. -/
def parse (b : List UInt8) : Except ReadError (Entry × Nat) := do
  let (e, len) ← parseBase b
  if len = b.length then return (e, len) else withChain b e len

/-- The entry at the front of some bytes of a file; `chain` says that the file has a chain
extension after every entry. -/
def parseInFile (chain : Bool) (b : List UInt8) : Except ReadError (Entry × Nat) := do
  let (e, len) ← parseBase b
  if !chain then return (e, len) else withChain b e len

/-- The loop over the entries from offset `o` on. -/
def readEntries (chain : Bool) (data : List UInt8) :
    (n o : Nat) → Except ReadError (List (Entry × List UInt8))
  | 0, _ => .ok []
  | n + 1, o => do
    let (e, len) ← parseInFile chain (← index (slice data o data.length))
    let raw ← index (slice data o (o + len))
    return (e, raw) :: (← readEntries chain data n (o + len))

def readFile (data : List UInt8) : Except ReadError Manifest := do
  let header ← require (slice data 0 8)
  if header ≠ magic false ∧ header ≠ magic true then .error .malformed
  else
    let n := ofLe (← index (slice data 8 12))
    let nProducts := UInt32.ofNat (ofLe (← index (slice data 12 16)))
    return (← readEntries (header = magic true) data n 16, nProducts)

end Offsets

/-! ## The bytes of an entry -/

namespace Entry

variable (e : Entry)

def nameBytes : List UInt8 := e.name.toByteArray.data.toList

/-- The bytes behind the name. -/
def fieldBytes : List UInt8 :=
  le32 e.wtype ++ (le64 e.k ++ (le64 e.m ++ (le32 e.nExp ++ (le64 e.chunkBase ++ (le64 e.nBytes ++
    (le32 e.rowBytes ++ ([e.role] ++ ([e.gluOp] ++ ([e.gluForm] ++ (le32 e.partner ++
      le32 e.bias))))))))))

def baseBytes : List UInt8 := toLe 2 e.nameBytes.length ++ (e.nameBytes ++ e.fieldBytes)

/-- The bytes of the entry in a file with or without chain extensions. -/
def fileBytes (chain : Bool) : List UInt8 :=
  e.baseBytes ++ if chain then chainBytes e.chain else []

/-- A file with or without chain extensions can hold the entry. -/
structure Writable (chain : Bool) : Prop where
  name : e.nameBytes.length < 2 ^ 16
  chain : if chain then e.chain.OneSequence else e.chain = .none

theorem length_fieldBytes : e.fieldBytes.length = 55 := by
  simp only [fieldBytes, List.length_append, le32, le64, length_toLe, List.length_singleton]

end Entry

/-! ## What the entry parsers read -/

section

variable {α : Type} {b r s x : List UInt8} {lo hi o n : Nat} {v : UInt64}
  {name : String} {e : Entry} {chain : Bool}

theorem slice_eq_some : slice b lo hi = some s ↔
    lo + s.length = hi ∧ hi ≤ b.length ∧ s <+: b.drop lo := by
  rw [slice, List.prefix_iff_eq_take]
  constructor
  · intro h
    split at h
    · next hle =>
      cases h
      have hlen : ((b.drop lo).take (hi - lo)).length = hi - lo := by
        rw [List.length_take, List.length_drop]
        omega
      rw [hlen]
      exact ⟨Nat.add_sub_cancel' hle.1, hle.2, rfl⟩
    · cases h
  · rintro ⟨rfl, hhi, hs⟩
    rw [if_pos ⟨Nat.le_add_right .., hhi⟩, Nat.add_sub_cancel_left, ← hs]

theorem slice_to_end (h : lo ≤ b.length) : slice b lo b.length = some (b.drop lo) :=
  slice_eq_some.mpr ⟨by rw [List.length_drop]; omega, Nat.le_refl _, List.prefix_rfl⟩

theorem u64a_eq_some : u64a b o = some v ↔ le64 v <+: b.drop o := by
  simp only [u64a, Option.map_eq_some_iff, numberAt_eq_some]
  constructor
  · rintro ⟨k, ⟨hk, -, hbytes⟩, rfl⟩
    rw [le64, UInt64.toNat_ofNat_of_lt' hk]
    exact hbytes
  · intro hbytes
    have hinside := inside_of_prefix hbytes (by rw [le64, length_toLe]; decide)
    rw [le64, length_toLe] at hinside
    exact ⟨v.toNat, ⟨v.toNat_lt, hinside, hbytes⟩, UInt64.ofNat_toNat⟩

theorem fromUTF8?_eq_some {bytes : List UInt8} :
    String.fromUTF8? ⟨bytes.toArray⟩ = some name ↔ name.toByteArray.data.toList = bytes := by
  rw [String.fromUTF8?]
  constructor
  · intro h
    split at h
    · cases h
      rfl
    · cases h
  · rintro rfl
    rw [dif_pos name.isValidUTF8]
    rfl

/-- The fields are read where the bytes of the entry stand. -/
theorem entryOf_eq_ok : Offsets.entryOf name r = .ok e ↔
    e.name = name ∧ e.chain = .none ∧ e.fieldBytes <+: r := by
  have hstarts : e.fieldBytes <+: r ↔ e.fieldBytes <+: r.drop 0 := by rw [List.drop_zero]
  rw [hstarts]
  simp only [Offsets.entryOf, index, bind_eq_ok, orFail_eq_ok, u32a_eq_some, u64a_eq_some,
    byte_eq_some, Entry.fieldBytes, append_prefix_iff, le32, le64, length_toLe,
    List.length_singleton, List.drop_drop, Nat.reduceAdd]
  constructor
  · rintro ⟨v0, h0, v1, h1, v2, h2, v3, h3, v4, h4, v5, h5, v6, h6, v7, h7, v8, h8, v9, h9, v10, h10,
      v11, h11, ⟨⟩⟩
    exact ⟨rfl, rfl, h0, h1, h2, h3, h4, h5, h6, h7, h8, h9, h10, h11⟩
  · obtain ⟨name', wtype, k, m, nExp, chunkBase, nBytes, rowBytes, role, gluOp, gluForm, partner,
      bias, chain⟩ := e
    rintro ⟨rfl, rfl, h0, h1, h2, h3, h4, h5, h6, h7, h8, h9, h10, h11⟩
    exact ⟨_, h0, _, h1, _, h2, _, h3, _, h4, _, h5, _, h6, _, h7, _, h8, _, h9, _, h10, _, h11, rfl⟩

theorem parseBase_eq_ok : Offsets.parseBase b = .ok (e, n) ↔ e.chain = .none ∧
    e.nameBytes.length < 2 ^ 16 ∧ n = e.baseBytes.length ∧ e.baseBytes <+: b := by
  have hlen : e.baseBytes.length = 2 + e.nameBytes.length + 55 := by
    rw [Entry.baseBytes, List.length_append, List.length_append, length_toLe,
      e.length_fieldBytes, Nat.add_assoc]
  rw [hlen, Entry.baseBytes, append_prefix_iff, append_prefix_iff, length_toLe, List.drop_drop]
  simp only [Offsets.parseBase, require, bind_eq_ok, orFail_eq_ok, fromUTF8?_eq_some]
  constructor
  · rintro ⟨nl, hnl, bytes, hbytes, name, rfl, r, hr, e', he, ⟨⟩⟩
    obtain ⟨rfl, hchain, hfields⟩ := entryOf_eq_ok.mp he
    obtain ⟨htwo, -, hnl⟩ := slice_eq_some.mp hnl
    obtain ⟨hname, -, hbytes⟩ := slice_eq_some.mp hbytes
    obtain ⟨-, -, hr⟩ := slice_eq_some.mp hr
    rw [Nat.zero_add] at htwo
    have hlt := ofLe_lt nl
    have hle := toLe_ofLe nl
    rw [htwo] at hlt hle
    have hnames : e.nameBytes.length = ofLe nl := Nat.add_left_cancel hname
    rw [hnames, hle]
    exact ⟨hchain, hlt, rfl, hnl, hbytes, hfields.trans hr⟩
  · rintro ⟨hchain, hname, rfl, htwo, hbytes, hfields⟩
    have hinside := inside_of_prefix hfields (by rw [e.length_fieldBytes]; decide)
    rw [e.length_fieldBytes] at hinside
    refine ⟨_, slice_eq_some.mpr ⟨by rw [length_toLe], by omega, htwo⟩, ?_⟩
    rw [ofLe_toLe hname]
    refine ⟨e.nameBytes, slice_eq_some.mpr ⟨rfl, by omega, hbytes⟩, e.name, rfl, e.fieldBytes,
      slice_eq_some.mpr ⟨by rw [e.length_fieldBytes], hinside, hfields⟩, e, ?_, rfl⟩
    exact entryOf_eq_ok.mpr ⟨rfl, hchain, List.prefix_rfl⟩

/-- No place outside the bytes is indexed. -/
def NoPanic (P : α → Prop) (r : Except ReadError α) : Prop := Ends (· = .malformed) P r

theorem noPanic_require {a : Option α} : NoPanic (fun x => a = some x) (require a) := by
  cases a with
  | none => rfl
  | some x => rfl

theorem noPanic_index {a : α} {o : Option α} (h : o = some a) : NoPanic (· = a) (index o) := by
  rw [h]
  rfl

theorem noPanic_entryOf (hr : r.length = 55) : NoPanic (fun _ => True) (Offsets.entryOf name r) := by
  have hword (o : Nat) (ho : o + 4 ≤ 55) : ∃ v, NoPanic (· = v) (index (u32a r o)) :=
    ⟨_, noPanic_index (by rw [u32a, numberAt, if_pos (hr ▸ ho), Option.map_some])⟩
  have hlong (o : Nat) (ho : o + 8 ≤ 55) : ∃ v, NoPanic (· = v) (index (u64a r o)) :=
    ⟨_, noPanic_index (by rw [u64a, numberAt, if_pos (hr ▸ ho), Option.map_some])⟩
  have hbyte (o : Nat) (ho : o < 55) : ∃ v, NoPanic (· = v) (index r[o]?) :=
    ⟨_, noPanic_index (List.getElem?_eq_getElem (hr ▸ ho))⟩
  refine (hword 0 (by decide)).choose_spec.bind fun _ _ => ?_
  refine (hlong 4 (by decide)).choose_spec.bind fun _ _ => ?_
  refine (hlong 12 (by decide)).choose_spec.bind fun _ _ => ?_
  refine (hword 20 (by decide)).choose_spec.bind fun _ _ => ?_
  refine (hlong 24 (by decide)).choose_spec.bind fun _ _ => ?_
  refine (hlong 32 (by decide)).choose_spec.bind fun _ _ => ?_
  refine (hword 40 (by decide)).choose_spec.bind fun _ _ => ?_
  refine (hbyte 44 (by decide)).choose_spec.bind fun _ _ => ?_
  refine (hbyte 45 (by decide)).choose_spec.bind fun _ _ => ?_
  refine (hbyte 46 (by decide)).choose_spec.bind fun _ _ => ?_
  refine (hword 47 (by decide)).choose_spec.bind fun _ _ => ?_
  refine (hword 51 (by decide)).choose_spec.bind fun _ _ => ?_
  trivial

theorem noPanic_parseBase : NoPanic (fun p => p.2 ≤ b.length) (Offsets.parseBase b) := by
  refine noPanic_require.bind fun nl hnl => ?_
  refine noPanic_require.bind fun bytes hbytes => ?_
  refine noPanic_require.bind fun name hname => ?_
  refine noPanic_require.bind fun r hr => ?_
  obtain ⟨hlen, hle, -⟩ := slice_eq_some.mp hr
  exact (noPanic_entryOf (Nat.add_left_cancel hlen)).bind fun e _ => hle

theorem withChain_eq_ok {e' : Entry} {len : Nat} (hlen : len ≤ b.length) :
    Offsets.withChain b e len = .ok (e', n) ↔ ∃ c : Chain, c.OneSequence ∧
      chainBytes c <+: b.drop len ∧ e' = { e with chain := c } ∧ n = len + (chainBytes c).length := by
  rw [Offsets.withChain, slice_to_end hlen]
  simp only [index, require, bind_eq_ok, orFail_eq_ok, Option.some_inj]
  constructor
  · rintro ⟨_, rfl, ⟨c, k⟩, hc, ⟨⟩⟩
    obtain ⟨hone, rfl, hstarts⟩ := parseChain_eq_some.mp hc
    exact ⟨c, hone, hstarts, rfl, rfl⟩
  · rintro ⟨c, hone, hstarts, rfl, rfl⟩
    exact ⟨_, rfl, (c, _), parseChain_eq_some.mpr ⟨hone, rfl, hstarts⟩, rfl⟩

theorem noPanic_withChain {len : Nat} (hlen : len ≤ b.length) :
    NoPanic (fun p => p.2 ≤ b.length) (Offsets.withChain b e len) := by
  refine (noPanic_index (slice_to_end hlen)).bind fun rest hrest => ?_
  refine noPanic_require.bind fun c hc => ?_
  obtain ⟨-, hk, hstarts⟩ := parseChain_eq_some.mp hc
  have hle := hstarts.length_le
  rw [hrest, List.length_drop, ← hk] at hle
  change len + c.2 ≤ b.length
  omega

theorem noPanic_parseInFile : NoPanic (fun p => p.2 ≤ b.length) (Offsets.parseInFile chain b) := by
  refine noPanic_parseBase.bind fun ⟨e, len⟩ hp => ?_
  dsimp only
  split
  · exact hp
  · exact noPanic_withChain hp

theorem length_of_parseBase (h : Offsets.parseBase b = .ok (e, n)) : n ≤ b.length := by
  have hends := noPanic_parseBase (b := b)
  rw [h] at hends
  exact hends

/-- An entry is read where its bytes stand. -/
theorem parseInFile_eq_ok : Offsets.parseInFile chain b = .ok (e, n) ↔
    e.Writable chain ∧ n = (e.fileBytes chain).length ∧ e.fileBytes chain <+: b := by
  rw [Offsets.parseInFile, bind_eq_ok, Entry.fileBytes]
  cases chain with
  | false =>
    simp only [Bool.not_false, if_true, List.append_nil, Bool.false_eq_true, if_false]
    constructor
    · rintro ⟨⟨e₀, len⟩, hp, ⟨⟩⟩
      obtain ⟨hchain, hname, rfl, hstarts⟩ := parseBase_eq_ok.mp hp
      exact ⟨⟨hname, hchain⟩, rfl, hstarts⟩
    · rintro ⟨⟨hname, hchain⟩, rfl, hstarts⟩
      exact ⟨(e, _), parseBase_eq_ok.mpr ⟨hchain, hname, rfl, hstarts⟩, rfl⟩
  | true =>
    simp only [Bool.not_true, Bool.false_eq_true, if_true, if_false, append_prefix_iff,
      List.length_append]
    constructor
    · rintro ⟨⟨e₀, len⟩, hp, h⟩
      obtain ⟨-, hname, rfl, hstarts⟩ := parseBase_eq_ok.mp hp
      obtain ⟨c, hone, hchain, rfl, rfl⟩ := (withChain_eq_ok (length_of_parseBase hp)).mp h
      exact ⟨⟨hname, hone⟩, rfl, hstarts, hchain⟩
    · rintro ⟨⟨hname, hone⟩, rfl, hstarts, hchain⟩
      have hp : Offsets.parseBase b = .ok ({ e with chain := .none }, e.baseBytes.length) :=
        parseBase_eq_ok.mpr ⟨rfl, hname, rfl, hstarts⟩
      exact ⟨_, hp, (withChain_eq_ok (length_of_parseBase hp)).mpr
        ⟨e.chain, hone, hchain, rfl, rfl⟩⟩

/-- The bytes of an entry parse by themselves. -/
theorem parse_fileBytes (he : e.Writable chain) :
    Offsets.parse (e.fileBytes chain) = .ok (e, (e.fileBytes chain).length) := by
  have hbase : Offsets.parseBase (e.fileBytes chain) =
      .ok ({ e with chain := .none }, e.baseBytes.length) :=
    parseBase_eq_ok.mpr ⟨rfl, he.name, rfl, List.prefix_append ..⟩
  obtain ⟨-, hchain⟩ := he
  rw [Offsets.parse, bind_of_ok hbase]
  dsimp only
  cases chain with
  | false =>
    have hnone : { e with chain := .none } = e := by rw [← show e.chain = .none from hchain]
    have hbytes : e.fileBytes false = e.baseBytes := List.append_nil _
    rw [hbytes, if_pos rfl, hnone]
    rfl
  | true =>
    have hbytes : e.fileBytes true = e.baseBytes ++ chainBytes e.chain := rfl
    have htag : chainBytes e.chain ≠ [] := by cases e.chain <;> nofun
    have hpos := List.length_pos_of_ne_nil htag
    have hle : e.baseBytes.length ≤ (e.fileBytes true).length := length_of_parseBase hbase
    rw [if_neg (by rw [hbytes, List.length_append]; omega)]
    refine (withChain_eq_ok hle).mpr ⟨e.chain, hchain, ?_, rfl, ?_⟩
    · have hdrop : (e.fileBytes true).drop e.baseBytes.length = chainBytes e.chain := by
        rw [hbytes, List.drop_left]
      exact hdrop ▸ List.prefix_rfl
    · rw [hbytes, List.length_append]

end

/-! ## Files -/

/-- The bytes of a file with these entries. -/
def fileOf (chain : Bool) (entries : List Entry) (nProducts : UInt32) : List UInt8 :=
  magic chain ++ (toLe 4 entries.length ++ (le32 nProducts ++ entries.flatMap (·.fileBytes chain)))

/-- The entries with their bytes. -/
def withBytes (chain : Bool) (entries : List Entry) : List (Entry × List UInt8) :=
  entries.map fun e => (e, e.fileBytes chain)

section

variable {data : List UInt8} {chain : Bool} {n o : Nat} {entries : List Entry}
  {out : List (Entry × List UInt8)} {m : Manifest}

theorem noPanic_readEntries (ho : o ≤ data.length) :
    NoPanic (fun _ => True) (Offsets.readEntries chain data n o) := by
  induction n generalizing o with
  | zero => trivial
  | succ n ih =>
    refine (noPanic_index (slice_to_end ho)).bind fun b hb => ?_
    refine noPanic_parseInFile.bind fun ⟨e, len⟩ hlen => ?_
    rw [hb, List.length_drop] at hlen
    have hle : o + len ≤ data.length := by
      change len ≤ data.length - o at hlen
      omega
    have hraw : slice data o (o + len) = some ((data.drop o).take len) := by
      refine slice_eq_some.mpr ⟨?_, hle, List.take_prefix ..⟩
      rw [List.length_take, List.length_drop]
      omega
    refine (noPanic_index hraw).bind fun raw _ => ?_
    exact (ih hle).bind fun rest _ => trivial

/-- Entries are read where their bytes stand one behind the other. -/
theorem readEntries_eq_ok (ho : o ≤ data.length) : Offsets.readEntries chain data n o = .ok out ↔
    ∃ entries : List Entry, out = withBytes chain entries ∧ entries.length = n ∧
      (∀ e ∈ entries, e.Writable chain) ∧ entries.flatMap (·.fileBytes chain) <+: data.drop o := by
  induction n generalizing o out with
  | zero =>
    constructor
    · rintro ⟨⟩
      exact ⟨[], rfl, rfl, nofun, List.nil_prefix⟩
    · rintro ⟨entries, rfl, hlen, -⟩
      rw [List.eq_nil_of_length_eq_zero hlen]
      rfl
  | succ n ih =>
    rw [Offsets.readEntries, slice_to_end ho]
    simp only [index, bind_eq_ok, orFail_eq_ok, Option.some_inj]
    constructor
    · rintro ⟨_, rfl, ⟨e, len⟩, he, raw, hraw, rest, hrest, ⟨⟩⟩
      obtain ⟨hwritable, rfl, hstarts⟩ := parseInFile_eq_ok.mp he
      obtain ⟨hlen, hle, hraw⟩ := slice_eq_some.mp hraw
      obtain rfl : raw = e.fileBytes chain := by
        rw [List.prefix_iff_eq_take.mp hraw, List.prefix_iff_eq_take.mp hstarts,
          Nat.add_left_cancel hlen]
      obtain ⟨entries, rfl, rfl, hall, hrest⟩ := (ih hle).mp hrest
      refine ⟨e :: entries, rfl, rfl, List.forall_mem_cons.mpr ⟨hwritable, hall⟩, ?_⟩
      rw [List.flatMap_cons, append_prefix_iff, List.drop_drop]
      exact ⟨hstarts, hrest⟩
    · rintro ⟨entries, rfl, hlen, hall, hstarts⟩
      cases entries with
      | nil => cases hlen
      | cons e entries =>
        rw [List.flatMap_cons, append_prefix_iff, List.drop_drop] at hstarts
        obtain ⟨hwritable, hall⟩ := List.forall_mem_cons.mp hall
        have hle := hstarts.1.length_le
        rw [List.length_drop] at hle
        have hend : o + (e.fileBytes chain).length ≤ data.length := by omega
        refine ⟨_, rfl, (e, _), parseInFile_eq_ok.mpr ⟨hwritable, rfl, hstarts.1⟩, e.fileBytes chain,
          slice_eq_some.mpr ⟨rfl, hend, hstarts.1⟩, withBytes chain entries, ?_, rfl⟩
        exact (ih hend).mpr ⟨entries, rfl, Nat.succ.inj hlen, hall, hstarts.2⟩

theorem length_magic : (magic chain).length = 8 := by
  cases chain <;> decide

theorem magic_true_iff : decide (magic chain = magic true) = chain := by
  cases chain <;> decide

theorem exists_magic {header : List UInt8} (h : ¬(header ≠ magic false ∧ header ≠ magic true)) :
    ∃ chain, header = magic chain := by
  by_cases htrue : header = magic true
  · exact ⟨true, htrue⟩
  · exact ⟨false, by_contra fun hfalse => h ⟨hfalse, htrue⟩⟩

/-- A file is read as entries that it starts with. -/
theorem readFile_eq_ok : Offsets.readFile data = .ok m ↔ ∃ chain entries nProducts,
    m = (withBytes chain entries, nProducts) ∧ entries.length < 2 ^ 32 ∧
      (∀ e ∈ entries, e.Writable chain) ∧ fileOf chain entries nProducts <+: data := by
  rw [Offsets.readFile, bind_eq_ok]
  simp only [require, orFail_eq_ok, slice_eq_some]
  constructor
  · rintro ⟨header, ⟨hlen, hle, hheader⟩, h⟩
    split at h
    · cases h
    next hmagic =>
    obtain ⟨chain, rfl⟩ := exists_magic hmagic
    simp only [index, bind_eq_ok, orFail_eq_ok, slice_eq_some, magic_true_iff] at h
    obtain ⟨count, ⟨hcount, -, hcounts⟩, products, ⟨hproducts, hsixteen, hproduct⟩, out, hout, ⟨⟩⟩ := h
    obtain ⟨entries, rfl, hentries, hall, hstarts⟩ := (readEntries_eq_ok hsixteen).mp hout
    have hfour : count.length = 4 := Nat.add_left_cancel hcount
    have hfour' : products.length = 4 := Nat.add_left_cancel hproducts
    have hlt := ofLe_lt count
    have hcountLe := toLe_ofLe count
    have hltp := ofLe_lt products
    have hproductLe := toLe_ofLe products
    rw [hfour] at hlt hcountLe
    rw [hfour'] at hltp hproductLe
    refine ⟨chain, entries, _, rfl, hentries ▸ hlt, hall, ?_⟩
    rw [fileOf, append_prefix_iff, append_prefix_iff, append_prefix_iff, length_magic, hentries,
      hcountLe, hfour, le32, UInt32.toNat_ofNat_of_lt' hltp, hproductLe, hfour', List.drop_drop,
      List.drop_drop]
    exact ⟨hheader, hcounts, hproduct, hstarts⟩
  · rintro ⟨chain, entries, nProducts, rfl, hentries, hall, hfile⟩
    have hsixteen := hfile.length_le
    rw [fileOf, List.length_append, List.length_append, List.length_append, length_magic,
      length_toLe, length_le32] at hsixteen
    rw [fileOf, append_prefix_iff, append_prefix_iff, append_prefix_iff, length_magic, length_toLe,
      length_le32, List.drop_drop, List.drop_drop] at hfile
    obtain ⟨hheader, hcount, hproduct, hstarts⟩ := hfile
    refine ⟨magic chain, ⟨by rw [length_magic], by omega, hheader⟩, ?_⟩
    rw [if_neg (by cases chain <;> simp)]
    simp only [index, bind_eq_ok, orFail_eq_ok, slice_eq_some, magic_true_iff]
    refine ⟨_, ⟨by rw [length_toLe], by omega, hcount⟩, le32 nProducts,
      ⟨by rw [length_le32], by omega, hproduct⟩, withBytes chain entries, ?_, ?_⟩
    · rw [ofLe_toLe hentries]
      exact (readEntries_eq_ok (by omega)).mpr ⟨entries, rfl, rfl, hall, hstarts⟩
    · rw [le32, ofLe_toLe nProducts.toNat_lt, UInt32.ofNat_toNat]
      rfl

/-- A file with a header that ends within the counts. -/
def Cut (data : List UInt8) : Prop := data.length < 16 ∧ ∃ chain, magic chain <+: data

/-- A file with bytes behind its last entry. -/
def Overlong (data : List UInt8) : Prop :=
  ∃ chain entries nProducts rest, rest ≠ [] ∧ entries.length < 2 ^ 32 ∧
    (∀ e ∈ entries, e.Writable chain) ∧ data = fileOf chain entries nProducts ++ rest

theorem noPanic_readFile (h : ¬Cut data) : NoPanic (fun _ => True) (Offsets.readFile data) := by
  refine noPanic_require.bind fun header hheader => ?_
  split
  · rfl
  next hmagic =>
  obtain ⟨chain, rfl⟩ := exists_magic hmagic
  obtain ⟨-, -, hstarts⟩ := slice_eq_some.mp hheader
  have hsixteen : 16 ≤ data.length := Nat.le_of_not_lt fun hlt => h ⟨hlt, chain, hstarts⟩
  have hslice (lo : Nat) (hlo : lo + 4 ≤ 16) : ∃ s, slice data lo (lo + 4) = some s :=
    ⟨_, if_pos ⟨Nat.le_add_right .., Nat.le_trans hlo hsixteen⟩⟩
  refine (noPanic_index (hslice 8 (by decide)).choose_spec).bind fun count _ => ?_
  refine (noPanic_index (hslice 12 (by decide)).choose_spec).bind fun products _ => ?_
  exact (noPanic_readEntries hsixteen).bind fun out _ => trivial

/-- The reader panics on cut files only. -/
theorem readFile_eq_outOfBounds : Offsets.readFile data = .error .outOfBounds ↔ Cut data := by
  constructor
  · intro h
    by_contra hcut
    exact (noPanic_readFile hcut).ne_error (e := .outOfBounds) nofun h
  · rintro ⟨hlt, chain, hstarts⟩
    have hheader : slice data 0 8 = some (magic chain) := by
      have hle := hstarts.length_le
      rw [length_magic] at hle
      exact slice_eq_some.mpr ⟨by rw [length_magic], hle, hstarts⟩
    have hend : slice data 12 16 = none := if_neg fun h => Nat.not_lt.mpr h.2 hlt
    rw [Offsets.readFile, hheader, hend]
    change (if _ then _ else _) = _
    rw [if_neg (by cases chain <;> simp)]
    cases slice data 8 12 with
    | none => rfl
    | some count => rfl

/-- The reader does not panic, and what it returns are the bytes behind the header, each part of
which parses by itself to its entry. -/
def ReadsSafely (data : List UInt8) : Prop :=
  Offsets.readFile data ≠ .error .outOfBounds ∧ ∀ out nProducts,
    Offsets.readFile data = .ok (out, nProducts) → (out.map Prod.snd).flatten = data.drop 16 ∧
      ∀ er ∈ out, Offsets.parse er.2 = .ok (er.1, er.2.length)

theorem flatten_withBytes : ((withBytes chain entries).map Prod.snd).flatten =
    entries.flatMap (·.fileBytes chain) := by
  rw [withBytes, List.map_map, List.flatMap]
  rfl

theorem drop_fileOf {nProducts : UInt32} {rest : List UInt8} :
    (fileOf chain entries nProducts ++ rest).drop 16 =
      entries.flatMap (·.fileBytes chain) ++ rest := by
  have hlen : (magic chain ++ (toLe 4 entries.length ++ le32 nProducts)).length = 16 := by
    rw [List.length_append, List.length_append, length_magic, length_toLe, length_le32]
  rw [fileOf, ← List.append_assoc (toLe _ _), ← List.append_assoc, List.append_assoc,
    List.drop_left' hlen]

/-- A file is read safely unless it is cut within its header or has bytes behind its last entry. -/
theorem readsSafely_iff : ReadsSafely data ↔ ¬Cut data ∧ ¬Overlong data := by
  constructor
  · rintro ⟨hpanic, hread⟩
    refine ⟨fun hcut => hpanic (readFile_eq_outOfBounds.mpr hcut), ?_⟩
    rintro ⟨chain, entries, nProducts, rest, hrest, hentries, hall, rfl⟩
    have hok := readFile_eq_ok.mpr
      ⟨chain, entries, nProducts, rfl, hentries, hall, List.prefix_append _ rest⟩
    have hcover := (hread _ _ hok).1
    rw [flatten_withBytes, drop_fileOf] at hcover
    exact hrest (List.self_eq_append_right.mp hcover)
  · rintro ⟨hcut, hlong⟩
    refine ⟨fun h => hcut (readFile_eq_outOfBounds.mp h), ?_⟩
    intro out nProducts hok
    obtain ⟨chain, entries, nProducts, ⟨⟩, hentries, hall, rest, rfl⟩ := readFile_eq_ok.mp hok
    have hrest : rest = [] := by
      by_contra hrest
      exact hlong ⟨chain, entries, _, rest, hrest, hentries, hall, rfl⟩
    rw [flatten_withBytes, drop_fileOf, hrest, List.append_nil]
    refine ⟨rfl, ?_⟩
    intro er her
    obtain ⟨e, he, rfl⟩ := List.mem_map.mp her
    exact parse_fileBytes (hall e he)

/-- A file that ends behind its magic, and one with a byte behind its last entry. -/
theorem not_readsSafely : ¬ReadsSafely (magic true) ∧ ¬ReadsSafely (fileOf false [] 0 ++ [7]) := by
  constructor
  · intro h
    exact h.1 rfl
  · intro h
    have hcover := (h.2 [] 0 rfl).1
    exact absurd hcover (by decide)

end

end KeryxMiner.Inference
