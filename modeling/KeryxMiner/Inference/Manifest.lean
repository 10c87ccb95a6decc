import KeryxMiner.Openings.Basic
import KeryxMiner.Inference.Chunks

/-!
# Manifests

The entries of a model manifest and their parsing. An entry is parsed in two ways: inside a manifest
file, where the file says whether chain extensions are there, and by itself, where the bytes that
are left do. The bytes that the file gives an entry parse by themselves to the same entry
(`parse_of_readFile`).
-/

namespace KeryxMiner.Inference

open Reader

namespace Manifest

def roleProduct : UInt8 := 0
def roleBias : UInt8 := 1
def roleOutput : UInt8 := 2
def roleNorm : UInt8 := 4
def formNone : UInt8 := 0
def formSplit : UInt8 := 1
def formPairGate : UInt8 := 2
def formPairUp : UInt8 := 3
def gluSwiglu : UInt8 := 1
def gluGeglu : UInt8 := 2
/-- In place of an index. -/
def noneIndex : UInt32 := 0xffffffff
def roleLayer : UInt8 := 5
def roleHeads : UInt8 := 7

def linkNone : UInt8 := 0
def linkAttnIn : UInt8 := 1
def linkFfnIn : UInt8 := 2
def linkGlu : UInt8 := 3
def linkHead : UInt8 := 4
def linkDirect : UInt8 := 5
def linkHeadSlice : UInt8 := 6

def tagNone : UInt8 := 0
def tagProduct : UInt8 := 1
def tagLayer : UInt8 := 2
def tagMoeLayer : UInt8 := 3
def tagAttnLayer : UInt8 := 4
def tagAttnMoeLayer : UInt8 := 5
def tagRecurLayer : UInt8 := 6
def tagRecurMoeLayer : UInt8 := 7

end Manifest

structure ProductLink where
  layer : UInt32
  link : UInt8
  norm : UInt32
  src : UInt32
  deriving DecidableEq

structure MoeLinks where
  downExps : UInt32
  router : UInt32
  probsBias : UInt32
  wScale : UInt32
  ffnNorm : UInt32
  gateExps : UInt32
  deriving DecidableEq

structure AttnLinks where
  q : UInt32
  k : UInt32
  v : UInt32
  qNorm : UInt32
  kNorm : UInt32
  nHead : UInt32
  nHeadKv : UInt32
  headDim : UInt32
  ropeKind : UInt32
  nRot : UInt32
  ropeBase : UInt32
  kqScale : UInt32
  swaWindow : UInt32
  softcap : UInt32
  ropeFreqs : UInt32
  vNorm : UInt32
  gated : UInt32
  slot : UInt32
  mlaRank : UInt32
  absorb : UInt32
  out : UInt32
  deriving DecidableEq

structure RecurLinks where
  kind : UInt32
  slot : UInt32
  nVHeads : UInt32
  nKHeads : UInt32
  headDim : UInt32
  q : UInt32
  k : UInt32
  v : UInt32
  convQ : UInt32
  convK : UInt32
  convV : UInt32
  beta : UInt32
  decay : UInt32
  dt : UInt32
  a : UInt32
  norm : UInt32
  gate : UInt32
  interval : UInt32
  convLen : UInt32
  deriving DecidableEq

structure LayerLinks where
  layer : UInt32
  proj : UInt32
  down : UInt32
  postAttn : UInt32
  postFfn : UInt32
  scale : UInt32
  moe : Option MoeLinks
  attn : Option AttnLinks
  recur : Option RecurLinks
  deriving DecidableEq

inductive Chain
  | none
  | product (link : ProductLink)
  | layer (links : LayerLinks)
  deriving DecidableEq

structure Entry where
  name : String
  wtype : UInt32
  k : UInt64
  m : UInt64
  nExp : UInt32
  chunkBase : UInt64
  nBytes : UInt64
  rowBytes : UInt32
  role : UInt8
  gluOp : UInt8
  gluForm : UInt8
  partner : UInt32
  bias : UInt32
  chain : Chain
  deriving DecidableEq

/-! ## Parsing -/

section

open Openings Manifest

/-- A part that is there if `there` says so. -/
def getIf {α : Type} (there : Bool) (r : Reader α) : Reader (Option α) :=
  if there then some <$> r else pure none

def getProduct : Reader ProductLink := do
  return { layer := ← R.u32, link := ← R.u8, norm := ← R.u32, src := ← R.u32 }

def getMoe : Reader MoeLinks := do
  return { downExps := ← R.u32, router := ← R.u32, probsBias := ← R.u32, wScale := ← R.u32
           ffnNorm := ← R.u32, gateExps := ← R.u32 }

/-- `AttnLinks::from_fields` of the 21 fields. -/
def getAttn : Reader AttnLinks := do
  return { q := ← R.u32, k := ← R.u32, v := ← R.u32, qNorm := ← R.u32, kNorm := ← R.u32
           nHead := ← R.u32, nHeadKv := ← R.u32, headDim := ← R.u32, ropeKind := ← R.u32
           nRot := ← R.u32, ropeBase := ← R.u32, kqScale := ← R.u32, swaWindow := ← R.u32
           softcap := ← R.u32, ropeFreqs := ← R.u32, vNorm := ← R.u32, gated := ← R.u32
           slot := ← R.u32, mlaRank := ← R.u32, absorb := ← R.u32, out := ← R.u32 }

/-- `RecurLinks::from_fields` of the 19 fields. -/
def getRecur : Reader RecurLinks := do
  return { kind := ← R.u32, slot := ← R.u32, nVHeads := ← R.u32, nKHeads := ← R.u32
           headDim := ← R.u32, q := ← R.u32, k := ← R.u32, v := ← R.u32, convQ := ← R.u32
           convK := ← R.u32, convV := ← R.u32, beta := ← R.u32, decay := ← R.u32, dt := ← R.u32
           a := ← R.u32, norm := ← R.u32, gate := ← R.u32, interval := ← R.u32
           convLen := ← R.u32 }

def getLayer (tag : UInt8) : Reader LayerLinks := do
  let layer ← R.u32
  let proj ← R.u32
  let down ← R.u32
  let postAttn ← R.u32
  let postFfn ← R.u32
  let scale ← R.u32
  let moe ← getIf (tag ∈ [tagMoeLayer, tagAttnMoeLayer, tagRecurMoeLayer]) getMoe
  let attn ← getIf (tag ∈ [tagAttnLayer, tagAttnMoeLayer]) getAttn
  let recur ← getIf (tag ∈ [tagRecurLayer, tagRecurMoeLayer]) getRecur
  return { layer, proj, down, postAttn, postFfn, scale, moe, attn, recur }

/-- `parse_chain`, whose fields stand one behind the other. -/
def getChain : Reader Chain := do
  let tag ← R.u8
  if tag = tagNone then return .none
  else if tag = tagProduct then .product <$> getProduct
  else if tag ∈ [tagLayer, tagMoeLayer, tagAttnLayer, tagAttnMoeLayer, tagRecurLayer,
      tagRecurMoeLayer] then
    .layer <$> getLayer tag
  else fail

/-- The bytes as a text, if they are UTF-8. -/
def getText (bytes : List UInt8) : Reader String :=
  match String.fromUTF8? ⟨bytes.toArray⟩ with
  | some s => pure s
  | none => fail

namespace Entry

/-- `parse_base`, whose fields stand one behind the other. -/
def getBase : Reader Entry := do
  let n ← R.u16
  let bytes ← take n.toNat
  let name ← getText bytes
  return { name, wtype := ← R.u32, k := ← R.u64, m := ← R.u64, nExp := ← R.u32
           chunkBase := ← R.u64, nBytes := ← R.u64, rowBytes := ← R.u32, role := ← R.u8
           gluOp := ← R.u8, gluForm := ← R.u8, partner := ← R.u32, bias := ← R.u32
           chain := .none }

/-- The entry and its length in bytes. -/
def parse (b : List UInt8) : Option (Entry × Nat) :=
  match getBase.run b with
  | none => none
  | some (e, []) => some (e, b.length)
  | some (e, rest) =>
    match getChain.run rest with
    | none => none
    | some (c, rest) => some ({ e with chain := c }, b.length - rest.length)

/-- `parse_in_file`; `chain` says that the file carries a chain extension after every entry. -/
def getInFile (chain : Bool) : Reader Entry := do
  let e ← getBase
  if chain then return { e with chain := ← getChain } else return e

/-- An entry with its bytes in the file. -/
def getRaw (chain : Bool) : Reader (Entry × List UInt8) := fun b =>
  match (getInFile chain).run b with
  | none => none
  | some (e, rest) => some ((e, b.take (b.length - rest.length)), rest)

variable (e : Entry)

/-- The link of a product entry. -/
def product : Option ProductLink :=
  match e.chain with
  | .product pl => some pl
  | _ => none

/-- The links of a layer entry. -/
def layer : Option LayerLinks :=
  match e.chain with
  | .layer ll => some ll
  | _ => none

def leaf (h : Blake3) (bytes : List UInt8) : Hash := blake3 h bytes

/-- The first and last chunk of a weight row, and the row's offset in its first chunk. -/
def rowChunks (exp row : Nat) : Option (Nat × Nat × Nat) :=
  if e.m.toNat ≤ row ∨ e.nExp.toNat ≤ exp then none
  else
    let start := (exp * e.m.toNat + row) * e.rowBytes.toNat
    let stop := start + e.rowBytes.toNat
    if e.nBytes.toNat / 32 * 32 < stop then none
    else some (e.chunkBase.toNat + start / 32, e.chunkBase.toNat + (stop - 1) / 32, start % 32)

end Entry

def verifyEntry (h : Blake3) (mT : Hash) (nEntries index : Nat) (bytes : List UInt8)
    (path : List Hash) : Bool :=
  rtVerifyLeaf (blake3 h) mT nEntries index (Entry.leaf h bytes) path

/-- Entries with their serialized bytes, and the product count. -/
abbrev Manifest := List (Entry × List UInt8) × UInt32

inductive ReadError
  | malformed
  /-- The source would index past the end of the file. -/
  | outOfBounds

def magic (chain : Bool) : List UInt8 :=
  (if chain then "KXMANIF2" else "KXMANIF1").toUTF8.data.toList

def readFile (data : List UInt8) : Except ReadError Manifest :=
  let header := data.take 8
  if header ≠ magic false ∧ header ≠ magic true then .error .malformed
  else if data.length < 16 then .error .outOfBounds
  else
    let n := ofLe ((data.drop 8).take 4)
    let nProducts := UInt32.ofNat (ofLe ((data.drop 12).take 4))
    match (many (Entry.getRaw (header = magic true)) n).run (data.drop 16) with
    | none => .error .malformed
    | some (entries, _) => .ok (entries, nProducts)

end

/-! ## Entries and their bytes -/

section

open Openings

variable {α : Type} {there chain : Bool} {tag : UInt8} {n : Nat} {e : Entry} {b raw : List UInt8}

theorem local_u8 : Local R.u8 := local_le.bind fun _ => local_pure _

theorem local_u16 : Local R.u16 := local_le.bind fun _ => local_pure _

theorem local_u32 : Local R.u32 := local_le.bind fun _ => local_pure _

theorem local_u64 : Local R.u64 := local_le.bind fun _ => local_pure _

theorem local_getIf {r : Reader α} (hr : Local r) : Local (getIf there r) := by
  cases there with
  | true => exact hr.map
  | false => exact local_pure _

theorem local_getText (bytes : List UInt8) : Local (getText bytes) := by
  rw [getText]
  split
  · exact local_pure _
  · exact local_fail

theorem local_getProduct : Local getProduct :=
  local_u32.bind fun _ => local_u8.bind fun _ => local_u32.bind fun _ => local_u32.bind fun _ =>
    local_pure _

theorem local_getMoe : Local getMoe :=
  local_u32.bind fun _ => local_u32.bind fun _ => local_u32.bind fun _ => local_u32.bind fun _ =>
    local_u32.bind fun _ => local_u32.bind fun _ => local_pure _

theorem local_getAttn : Local getAttn := by
  rw [getAttn]
  iterate 21 refine local_u32.bind fun _ => ?_
  exact local_pure _

theorem local_getRecur : Local getRecur := by
  rw [getRecur]
  iterate 19 refine local_u32.bind fun _ => ?_
  exact local_pure _

theorem local_getLayer : Local (getLayer tag) := by
  rw [getLayer]
  iterate 6 refine local_u32.bind fun _ => ?_
  exact (local_getIf local_getMoe).bind fun _ => (local_getIf local_getAttn).bind fun _ =>
    (local_getIf local_getRecur).bind fun _ => local_pure _

theorem local_getChain : Local getChain := by
  refine local_u8.bind fun tag => ?_
  split
  · exact local_pure _
  · split
    · exact local_getProduct.map
    · split
      · exact local_getLayer.map
      · exact local_fail

namespace Entry

theorem local_getBase : Local getBase :=
  local_u16.bind fun _ => local_take.bind fun _ => (local_getText _).bind fun _ =>
    local_u32.bind fun _ => local_u64.bind fun _ => local_u64.bind fun _ => local_u32.bind fun _ =>
    local_u64.bind fun _ => local_u64.bind fun _ => local_u32.bind fun _ => local_u8.bind fun _ =>
    local_u8.bind fun _ => local_u8.bind fun _ => local_u32.bind fun _ => local_u32.bind fun _ =>
    local_pure _

/-- A chain extension has a tag. -/
theorem getChain_nil {c : Chain} {rest : List UInt8} : getChain.run [] ≠ some (c, rest) := nofun

/-- The bytes that an entry takes in a file are those of the entry by itself. -/
theorem parse_of_getRaw {rest : List UInt8} (h : (getRaw chain).run b = some ((e, raw), rest)) :
    b = raw ++ rest ∧ parse raw = some (e, raw.length) := by
  rw [StateT.run, getRaw] at h
  split at h
  · cases h
  next e' rest' hfile =>
  have hraw : ∀ front : List UInt8, b = front ++ rest' → e = e' ∧ raw = front ∧ rest = rest' := by
    rintro front rfl
    have hlen : (front ++ rest').length - rest'.length = front.length := by
      rw [List.length_append, Nat.add_sub_cancel]
    rw [hlen, List.take_left] at h
    cases h
    exact ⟨rfl, rfl, rfl⟩
  rw [getInFile, run_bind_eq_some] at hfile
  obtain ⟨e₀, mid, hbase, hfile⟩ := hfile
  obtain ⟨base, rfl, hlocal⟩ := local_getBase hbase
  split at hfile
  · rw [run_bind_eq_some] at hfile
    obtain ⟨c, mid', hchain, hfile⟩ := hfile
    cases hfile
    obtain ⟨ext, rfl, hlocal'⟩ := local_getChain hchain
    obtain ⟨rfl, rfl, rfl⟩ := hraw (base ++ ext) (List.append_assoc ..).symm
    refine ⟨(List.append_assoc ..).symm, ?_⟩
    have hext := hlocal' []
    rw [List.append_nil] at hext
    rw [parse, hlocal]
    cases ext with
    | nil => exact absurd hext getChain_nil
    | cons tag ext => simp [hext]
  · cases hfile
    obtain ⟨rfl, rfl, rfl⟩ := hraw base rfl
    have hself := hlocal []
    rw [List.append_nil] at hself
    exact ⟨rfl, by rw [parse, hself]⟩

end Entry

theorem parse_of_many {entries : List (Entry × List UInt8)} {rest : List UInt8}
    (h : (many (Entry.getRaw chain) n).run b = some (entries, rest)) :
    entries.length = n ∧ ∀ er ∈ entries, Entry.parse er.2 = some (er.1, er.2.length) := by
  induction n generalizing b entries with
  | zero =>
    cases h
    exact ⟨rfl, nofun⟩
  | succ n ih =>
    simp only [many, run_bind_eq_some] at h
    obtain ⟨er, mid, her, ers, mid', hers, h⟩ := h
    cases h
    obtain ⟨hlen, hall⟩ := ih hers
    exact ⟨by rw [List.length_cons, hlen],
      List.forall_mem_cons.mpr ⟨(Entry.parse_of_getRaw her).2, hall⟩⟩

/-- The bytes that a manifest file gives its entries parse to them, and the entries are as many as
fit the file's count. -/
theorem parse_of_readFile {data : List UInt8} {m : Manifest} (h : readFile data = .ok m) :
    m.1.length < 2 ^ 32 ∧ ∀ er ∈ m.1, Entry.parse er.2 = some (er.1, er.2.length) := by
  rw [readFile] at h
  split at h
  · cases h
  split at h
  · cases h
  dsimp only at h
  split at h
  · cases h
  next entries rest hmany =>
  cases h
  obtain ⟨hlen, hall⟩ := parse_of_many hmany
  refine ⟨?_, hall⟩
  have hlt := ofLe_lt ((data.drop 8).take 4)
  have htake : ((data.drop 8).take 4).length ≤ 4 := List.length_take_le ..
  calc entries.length = ofLe ((data.drop 8).take 4) := hlen
    _ < 256 ^ ((data.drop 8).take 4).length := hlt
    _ ≤ 256 ^ 4 := Nat.pow_le_pow_right (by decide) htake

end

end KeryxMiner.Inference
