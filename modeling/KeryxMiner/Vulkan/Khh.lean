import KeryxMiner.Pow.HeavyHash

/-!
# The kHeavyHash shader

The hash on the GPU: the matrix packed four entries a word, the halves of the hash packed the same
way, their products with the packed dot product, and the winners of a dispatch brought together by
an atomic minimum.
-/

namespace KeryxMiner.Vulkan

open Keccak Stratum KeryxMiner.Pow

/-! ## The host -/

/-- What `upload_block` leaves for the batches of a block. -/
structure KhhGpu where
  matrix : List UInt32
  header : List UInt64
  target : List UInt64

/-- Four entries a word, entry `e` at byte `e % 4`. -/
def packMatrix (matrix : List UInt32) : List UInt32 :=
  (List.range 4096).foldl
    (fun packed e => packed.modify (e / 4)
      (· ||| (matrix.getD e 0 &&& 0xFF) <<< UInt32.ofNat (8 * (e % 4))))
    (List.replicate 1024 0)

def uploadBlock (matrix : List UInt32) (header target : List UInt64) : KhhGpu :=
  ⟨packMatrix matrix, header, target⟩

/-- `load_block_constants` of the worker. -/
def loadBlockConstants (hashHeader : List UInt8) (matrix : Matrix) (target : Uint256) : KhhGpu :=
  let header := (List.range 9).map (wordOf hashHeader)
  let mat := matrix.flatMap fun row => row.map UInt16.toUInt32
  uploadBlock mat header target.words.toList

/-! ## The shader -/

structure KhhPush where
  header : List UInt64
  target : List UInt64
  startNonce : UInt64
  nonceMask : UInt64
  nonceFixed : UInt64
  batch : UInt32

def powP : Vector UInt64 25 :=
  ⟨#[1242148031264380989, 3008272977830772284, 2188519011337848018, 1992179434288343456,
    8876506674959887717, 5399642050693751366, 1745875063082670864, 8605242046444978844,
    17936695144567157056, 3343109343542796272, 1123092876221303306, 4963925045340115282,
    17037383077651887893, 16629644495023626889, 12833675776649114147, 3784524041015224902,
    1082795874807940378, 13952716920571277634, 13411128033953605860, 15060696040649351053,
    9928834659948351306, 5237849264682708699, 12825353012139217522, 6706187291358897596,
    196324915476054915], by decide⟩

def heavyP : Vector UInt64 25 :=
  ⟨#[4239941492252378377, 8746723911537738262, 8796936657246353646, 1272090201925444760,
    16654558671554924250, 8270816933120786537, 13907396207649043898, 6782861118970774626,
    9239690602118867528, 11582319943599406348, 17596056728278508070, 15212962468105129023,
    7812475424661425213, 3370482334374859748, 5690099369266491460, 8596393687355028144,
    570094237299545110, 9119540418498120711, 16901969272480492857, 13372017233735502424,
    14372891883993151831, 5171152063242093102, 10573107899694386186, 6096431547456407061,
    1592359455985097269], by decide⟩

def khhKeys : List UInt64 :=
  [0x9e3779b97f4a7c15, 0x6c62272e07bb0142, 0xb5ad4eceda1ce2a9, 0x243f6a8885a308d3]

/-- The words of the first sponge before the permutation. -/
def powState (pc : KhhPush) (nonce : UInt64) : Vector UInt64 25 :=
  powP.mapIdx fun i p =>
    if i < 9 then p ^^^ pc.header.getD i 0 else if i = 9 then p ^^^ nonce else p

attribute [local instance] neZero_twentyFive

/-- The words `a[0]` to `a[3]`. -/
def firstWords (a : Vector UInt64 25) : List UInt64 := [a.get 0, a.get 1, a.get 2, a.get 3]

/-- Byte `i` of the words of a hash. -/
def hashByte (pw : List UInt64) (i : Nat) : UInt32 :=
  ((pw.getD (i / 8) 0 >>> UInt64.ofNat (8 * (i % 8))) &&& 0xFF).toUInt32

/-- The half with number `nidx`, the high one of a byte first. -/
def nibbleAt (pw : List UInt64) (nidx : Nat) : UInt32 :=
  if nidx % 2 = 0 then hashByte pw (nidx / 2) >>> 4 else hashByte pw (nidx / 2) &&& 0x0F

/-- `nibv[k]` -/
def packNibbles (pw : List UInt64) (k : Nat) : UInt32 :=
  (List.range 4).foldl (fun v q => v ||| nibbleAt pw (4 * k + q) <<< UInt32.ofNat (8 * q)) 0

/-- `dotPacked4x8EXT` of unsigned bytes. -/
def dotPacked4x8 (a b : UInt32) : UInt32 :=
  (List.range 4).foldl
    (fun s q => s + ((a >>> UInt32.ofNat (8 * q)) &&& 0xFF) * ((b >>> UInt32.ofNat (8 * q)) &&& 0xFF))
    0

/-- The product of a row with the halves. -/
def khhRowSum (mat : List UInt32) (pw : List UInt64) (row : Nat) : UInt32 :=
  (List.range 16).foldl
    (fun sum k => sum + dotPacked4x8 (mat.getD (row * 16 + k) 0) (packNibbles pw k)) 0

/-- The byte that goes into the words with number `i`. -/
def outByte (mat : List UInt32) (pw : List UInt64) (i : Nat) : UInt32 :=
  let sum1 := khhRowSum mat pw (2 * i)
  let sum2 := khhRowSum mat pw (2 * i + 1)
  let matbyte := ((sum1 >>> 10) <<< 4) ||| (sum2 >>> 10)
  (matbyte ^^^ hashByte pw i) &&& 0xFF

def matmulWords (mat : List UInt32) (pw : List UInt64) : List UInt64 :=
  (List.range 32).foldl
    (fun w i => w.modify (i / 8)
      (· ||| (outByte mat pw i).toUInt64 <<< UInt64.ofNat (8 * (i % 8))))
    (List.replicate 4 0)

def khhWaveMixRound (w : WaveWords) (r : Nat) : WaveWords :=
  let key (i : Nat) := khhKeys.getD ((r + i) &&& 3) 0
  let w0 := rotl64 (w.w0 + w.w1) 17 ^^^ key 0
  let w2 := rotl64 (w.w2 + w.w3) 47 ^^^ key 2
  let w1 := rotl64 (w.w1 + w2) 31 ^^^ key 1
  let w3 := rotl64 (w.w3 + w0) 13 ^^^ key 3
  ⟨w0, w1, w2, w3⟩

/-- The words of the second sponge before the permutation. -/
def heavyState (w : WaveWords) : Vector UInt64 25 :=
  heavyP.mapIdx fun i p => if i < 4 then p ^^^ [w.w0, w.w1, w.w2, w.w3].getD i 0 else p

/-- `final <= target`, from the highest word down. -/
def lowEnough (f target : List UInt64) : Bool :=
  if f.getD 3 0 ≠ target.getD 3 0 then f.getD 3 0 < target.getD 3 0
  else if f.getD 2 0 ≠ target.getD 2 0 then f.getD 2 0 < target.getD 2 0
  else if f.getD 1 0 ≠ target.getD 1 0 then f.getD 1 0 < target.getD 1 0
  else if f.getD 0 0 ≠ target.getD 0 0 then f.getD 0 0 < target.getD 0 0
  else true

/-- The final hash of a nonce. -/
def khhHash (mat : List UInt32) (pc : KhhPush) (nonce : UInt64) : List UInt64 :=
  let pw := firstWords (keccakf (powState pc nonce))
  let w := matmulWords mat pw
  let w := (List.range 4).foldl khhWaveMixRound ⟨w.getD 0 0, w.getD 1 0, w.getD 2 0, w.getD 3 0⟩
  firstWords (keccakf (heavyState w))

/-- The invocation with number `idx`, over the winner so far. -/
def khhMain (mat : List UInt32) (pc : KhhPush) (offset idx : UInt32) : UInt32 :=
  if pc.batch ≤ idx then offset
  else
    let nonce := ((pc.startNonce + idx.toUInt64) &&& pc.nonceMask) ||| pc.nonceFixed
    if lowEnough (khhHash mat pc nonce) pc.target then
      if idx < offset then idx else offset
    else offset

/-! ## A batch -/

def NO_WINNER : UInt32 := 0xFFFFFFFF

/-- The invocations of the workgroups of 256 for a batch. -/
def khhInvocations (batch : UInt32) : List UInt32 :=
  (List.range (256 * ((batch.toNat + 255) / 256))).map UInt32.ofNat

namespace KhhGpu

/-- The batch from `start` on, invoked in the order of `ids`. -/
def mine (gpu : KhhGpu) (start : UInt64) (batch : UInt32) (nonceMask nonceFixed : UInt64)
    (ids : List UInt32) : Option UInt64 :=
  if batch = 0 then none
  else
    let push : KhhPush :=
      { header := gpu.header
        target := gpu.target
        startNonce := start
        nonceMask
        nonceFixed
        batch }
    let offset := ids.foldl (khhMain gpu.matrix push) NO_WINNER
    if offset = NO_WINNER then none
    else some (((start + offset.toUInt64) &&& nonceMask) ||| nonceFixed)

end KhhGpu

end KeryxMiner.Vulkan
