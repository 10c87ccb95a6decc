import KeryxMiner.Borsh
import KeryxMiner.Directory
import KeryxMiner.Runs
import KeryxMiner.Text
import Mathlib.Data.UInt

/-!
# Traces of pool answers

The traces of pool-dispatched answers are kept in memory and in one file each, so that a restarted
miner can still open them. The memory of a process is loaded at its first use of the store. A
process can die between any two file operations; how far it came is part of the event.
-/

namespace KeryxMiner.Stratum.Traces

abbrev Hash := Vector UInt8 32

/-! ## Data -/

/-- How long a pool trace is kept, in seconds. -/
def keepSecs : UInt64 := 9 * 3600
def version : UInt32 := 1

/-- Trace of one response. -/
structure TraceRecord where
  stage : UInt8
  nPrompt : UInt32
  nPos : UInt32
  ubatch : List UInt32
  nLeaves : UInt64
  leaves : List Hash
  posRoots : List Hash
  traceRoot : Hash
  tokensRoot : Option Hash
  deriving DecidableEq

/-- Sequence leaves of a response. -/
structure SeqTrace where
  leaves : List Hash
  root : Hash
  deriving DecidableEq

/-- What the miner keeps of a traced response to open it later. -/
structure ResponseTrace where
  record : TraceRecord
  tokens : List Int32
  seq : Option SeqTrace
  deriving DecidableEq

/-- A kept trace and what an opening of it needs besides the pool's request. -/
structure Kept where
  modelId : Hash
  tier : UInt8
  requestHash : Hash
  maxTokens : UInt32
  /-- Unix seconds of the answer. -/
  atSecs : UInt64
  trace : ResponseTrace
  deriving DecidableEq

/-- The file of a kept trace: this header, then the trace. -/
structure Header where
  version : UInt32
  modelId : Hash
  tier : UInt8
  requestHash : Hash
  maxTokens : UInt32
  atSecs : UInt64

instance : Borsh TraceRecord :=
  Borsh.record
    (fun r => (r.stage, r.nPrompt, r.nPos, r.ubatch, r.nLeaves, r.leaves, r.posRoots, r.traceRoot,
      r.tokensRoot))
    (fun (s, p, n, u, c, l, r, t, k) => ⟨s, p, n, u, c, l, r, t, k⟩) fun _ => rfl

instance : Borsh SeqTrace :=
  Borsh.record (fun s => (s.leaves, s.root)) (fun (l, r) => ⟨l, r⟩) fun _ => rfl

instance : Borsh ResponseTrace :=
  Borsh.record (fun t => (t.record, t.tokens, t.seq)) (fun (r, t, s) => ⟨r, t, s⟩) fun _ => rfl

instance : Borsh Header :=
  Borsh.record (fun h => (h.version, h.modelId, h.tier, h.requestHash, h.maxTokens, h.atSecs))
    (fun (v, m, t, r, n, a) => ⟨v, m, t, r, n, a⟩) fun _ => rfl

def encode (k : Kept) : Option (List UInt8) := do
  let header : Header := ⟨version, k.modelId, k.tier, k.requestHash, k.maxTokens, k.atSecs⟩
  return (← Borsh.put header) ++ (← Borsh.put k.trace)

def decode (b : List UInt8) : Option Kept := do
  let (h, b) ← (Borsh.get : Reader Header).run b
  let (trace, b) ← (Borsh.get : Reader ResponseTrace).run b
  if h.version = version ∧ b = [] then
    some ⟨h.modelId, h.tier, h.requestHash, h.maxTokens, h.atSecs, trace⟩
  else none

theorem decode_encode {k : Kept} {bytes : List UInt8} (h : encode k = some bytes) :
    decode bytes = some k := by
  simp only [encode, Option.bind_eq_bind, Option.bind_eq_some_iff, Option.pure_def,
    Option.some.injEq] at h
  obtain ⟨header, hheader, trace, htrace, rfl⟩ := h
  have hrest := Borsh.run_put htrace []
  rw [List.append_nil] at hrest
  simp [decode, Borsh.run_put hheader, hrest]

/-! ## Files -/

/-- The last dot of a name that is not at its front parts its stem from its extension. -/
def splitName (name : List Char) : List Char × Option (List Char) :=
  match name.reverse.dropWhile (· ≠ '.') with
  | '.' :: c :: stem => ((c :: stem).reverse, some (name.reverse.takeWhile (· ≠ '.')).reverse)
  | _ => (name, none)

def traceExt : List Char := ['t', 'r', 'a', 'c', 'e']

def fileOf (key : List Char) : List Char := key ++ '.' :: traceExt

/-- The file that a trace is written to before it is renamed. -/
def tmpOf (key : List Char) : List Char := fileOf (key ++ ['.', 't', 'm', 'p'])

def live (atSecs now : UInt64) : Bool := now ≤ atSecs + keepSecs

abbrev Files := Directory (List Char) (List UInt8)

abbrev Memory := AList fun _ : List Char => Kept

/-- The key of a file of the store. -/
def keyOf (name : List Char) : Option (List Char) :=
  let (stem, ext) := splitName name
  if ext = some traceExt then some stem else none

/-- What a load takes from a file. -/
def restored (t : UInt64) (name : List Char) (bytes : List UInt8) : Option (List Char × Kept) := do
  let key ← keyOf name
  let k ← decode bytes
  if live k.atSecs t then some (key, k) else none

/-- Every kept trace of the directory. -/
def load (files : Files) (t : UInt64) : Memory :=
  Table.ofPairs (files.entries.filterMap fun e => restored t e.1 e.2)

/-- The files that a load removes. -/
def stale (files : Files) (t : UInt64) : List (List Char) :=
  (files.entries.filter fun e => (keyOf e.1).isSome && (restored t e.1 e.2).isNone).map (·.1)

/-- The files of the entries that have expired. -/
def expired (m : Memory) (t : UInt64) : List (List Char) :=
  (m.entries.filter fun e => !live e.2.atSecs t).map fun e => fileOf e.1

/-! ## The store -/

/-- A request hash as the pool writes it: both commands check that it is one. -/
structure RequestHash where
  chars : List Char
  length : chars.length = 64
  hex : ∀ c ∈ chars, (Text.hexVal c).isSome

/-- The hash in lower case. -/
def RequestHash.key (hash : RequestHash) : List Char := hash.chars.map Char.toLower

/-- The directory, and the memory of the process once it is loaded. -/
structure Store where
  files : Files
  memory : Option Memory

namespace Store

variable (s : Store)

/-- The memory of the store, which the first use loads. -/
def loaded (t : UInt64) : Memory := s.memory.getD (load s.files t)

/-- The files that the first use removes. -/
def dropped (t : UInt64) : List (List Char) :=
  match s.memory with
  | none => stale s.files t
  | some _ => []

/-- The directory after the load and the write of a trace under its temporary name. -/
def written (key : List Char) (k : Kept) (t' : UInt64) : Files :=
  match encode k with
  | some bytes => (s.files.removeAll (s.dropped t')).write (tmpOf key) bytes
  | none => s.files.removeAll (s.dropped t')

/-- The directory after the file of a trace is in place and some files are removed. -/
def placed (key : List Char) (k : Kept) (t' : UInt64) (removed : List (List Char)) : Files :=
  match encode k with
  | some _ => ((s.written key k t').rename (tmpOf key) (fileOf key)).removeAll removed
  | none => (s.written key k t').removeAll removed

/-- `keep`, which reads the clock at `t` and, where it loads the store, at `t'`. -/
def keep (key : List Char) (k : Kept) (t t' : UInt64) : Store where
  files := s.placed key k t' (expired (s.loaded t') t)
  memory := some ((Table.keep (fun _ v => live v.atSecs t) (s.loaded t')).insert key k)

/-- `get`, which reads the clock at `t'` where it loads the store, and at `now`. -/
def get (key : List Char) (t' now : UInt64) : Option Kept :=
  ((s.loaded t').lookup key).filter fun k => live k.atSecs now

/-- The store that `get` leaves. -/
def used (t' : UInt64) : Store where
  files := s.files.removeAll (s.dropped t')
  memory := some (s.loaded t')

end Store

/-! ## Runs -/

/-- How far a `keep` came: it has removed some files of the load, written the new file under its
temporary name, or put it in place and removed some expired files. -/
inductive Cut
  | loading (removed : List (List Char))
  | written
  | placed (removed : List (List Char))

inductive Event
  | keep (hash : RequestHash) (k : Kept) (t t' : UInt64)
  | get (hash : RequestHash) (t' now : UInt64)
  /-- The process dies within a `keep`. -/
  | keepCut (hash : RequestHash) (k : Kept) (t t' : UInt64) (cut : Cut)
  /-- The process dies within the load of a `get`. -/
  | getCut (t' : UInt64) (removed : List (List Char))
  /-- The process ends between two operations. -/
  | restart

/-- The store, the last reading of the clock, and the trace that was last kept for a key. -/
structure World where
  store : Store
  clock : UInt64
  last : List Char → Option Kept

namespace World

def init : World := ⟨⟨∅, none⟩, 0, fun _ => none⟩

variable (w : World)

def step (w : World) : Event → World
  | .keep hash k t t' =>
    ⟨w.store.keep hash.key k t t', t', Function.update w.last hash.key (some k)⟩
  | .get _ t' now => ⟨w.store.used t', now, w.last⟩
  | .keepCut _ _ _ t' (.loading removed) => ⟨⟨w.store.files.removeAll removed, none⟩, t', w.last⟩
  | .keepCut hash k _ t' .written => ⟨⟨w.store.written hash.key k t', none⟩, t', w.last⟩
  -- a trace is kept once its file is in place
  | .keepCut hash k _ t' (.placed removed) =>
    ⟨⟨w.store.placed hash.key k t' removed, none⟩, t', Function.update w.last hash.key (some k)⟩
  | .getCut t' removed => ⟨⟨w.store.files.removeAll removed, none⟩, t', w.last⟩
  | .restart => ⟨⟨w.store.files, none⟩, w.clock, w.last⟩

/-- The clock never goes back and counts seconds in 63 bits, the time of a trace was read from it,
and there is no error; a process that dies has removed files that it was to remove. -/
def Possible (w : World) : Event → Prop
  | .keep _ k t t' =>
    w.clock ≤ t ∧ t ≤ t' ∧ t' < 2 ^ 63 ∧ k.atSecs ≤ t ∧ (encode k).isSome
  | .get _ t' now => w.clock ≤ t' ∧ t' ≤ now ∧ now < 2 ^ 63
  | .keepCut _ k t t' cut =>
    (w.clock ≤ t ∧ t ≤ t' ∧ t' < 2 ^ 63 ∧ k.atSecs ≤ t ∧ (encode k).isSome) ∧
      match cut with
      | .loading removed => removed ⊆ w.store.dropped t'
      | .written => True
      | .placed removed => removed ⊆ expired (w.store.loaded t') t
  | .getCut t' removed => w.clock ≤ t' ∧ t' < 2 ^ 63 ∧ removed ⊆ w.store.dropped t'
  | .restart => True

/-- The keys that a load at `t'` restores were kept. -/
def RestoresKept (t' : UInt64) : Prop :=
  w.store.memory = none → ∀ key k, (load w.store.files t').lookup key = some k → (w.last key).isSome

/-- `get` finds the trace that was last kept, for as long as it is to be kept; and what a restart
restores was kept. -/
def Right (w : World) : Event → Prop
  | .get hash t' now => w.RestoresKept t' ∧ w.store.get hash.key t' now =
      (w.last hash.key).filter fun k => now.toNat ≤ k.atSecs.toNat + keepSecs.toNat
  | .keep _ _ _ t' | .keepCut _ _ _ t' _ | .getCut t' _ => w.RestoresKept t'
  | .restart => True

/-! ## The condition -/

/-- The directory has no temporary file with a trace that is live at a load at `t'`. -/
def NoLeftover (t' : UInt64) : Prop :=
  w.store.memory = none → ∀ hash : RequestHash, ∀ bytes k,
    w.store.files.lookup (tmpOf hash.key) = some bytes → decode bytes = some k →
      live k.atSecs t' = false

/-- No temporary file is loaded, and a trace that is live is not kept where the memory still has an
expired one of the same key, whose file is then removed. -/
def Sound (w : World) : Event → Prop
  | .keep hash k t t' =>
    w.NoLeftover t' ∧ (live k.atSecs t → fileOf hash.key ∉ expired (w.store.loaded t') t)
  | .keepCut hash k t t' (.placed removed) =>
    w.NoLeftover t' ∧ (live k.atSecs t → fileOf hash.key ∉ removed)
  | .get _ t' _ | .keepCut _ _ _ t' _ | .getCut t' _ => w.NoLeftover t'
  | .restart => True

end World

end KeryxMiner.Stratum.Traces
