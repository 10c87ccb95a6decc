import KeryxMiner.Private.Payload
import KeryxMiner.Outcome

/-!
# Keys and errors of private inference

The elliptic curve that the envelopes use is a parameter: its keys, their encodings and the shared
secret of two of them.
-/

namespace KeryxMiner.Private

/-- Errors of the private-inference envelopes. -/
inductive PrivateError
  | notPrivate
  | malformed (why : String)
  | tooManyRecipients (n : Nat)
  | promptTooLarge (len max : Nat)
  | invalidKey
  | notARecipient
  | authentication
  deriving DecidableEq

/-- What is called of the `secp256k1` crate. -/
structure Secp256k1 where
  SecretKey : Type
  PublicKey : Type
  XOnlyPublicKey : Type
  /-- `SecretKey::from_slice`. -/
  secretKey : Bytes32 → Option SecretKey
  /-- `PublicKey::from_slice` of a compressed point. -/
  publicKey : Vector UInt8 33 → Option PublicKey
  /-- `XOnlyPublicKey::from_slice`. -/
  xOnlyPublicKey : Bytes32 → Option XOnlyPublicKey
  /-- `PublicKey::serialize`. -/
  serialize : PublicKey → Vector UInt8 33
  /-- `XOnlyPublicKey::serialize`. -/
  serializeXOnly : XOnlyPublicKey → Bytes32
  /-- `XOnlyPublicKey::public_key` with even parity. -/
  evenPublicKey : XOnlyPublicKey → PublicKey
  /-- `PublicKey::from_secret_key`. -/
  fromSecretKey : SecretKey → PublicKey
  /-- `SecretKey::x_only_public_key`, with whether the parity is odd. -/
  toXOnly : SecretKey → XOnlyPublicKey × Bool
  /-- `SecretKey::negate`. -/
  negate : SecretKey → SecretKey
  /-- The bytes of `SharedSecret::new`. -/
  sharedSecret : PublicKey → SecretKey → Bytes32

/-- A curve whose points are their own secrets. -/
def plainCurve : Secp256k1 where
  SecretKey := Bytes32
  PublicKey := Bytes32
  XOnlyPublicKey := Bytes32
  secretKey := some
  publicKey p := some (bytesAt 32 p.toList 1)
  xOnlyPublicKey := some
  serialize p := (#v[2] : Vector UInt8 1) ++ (p : Vector UInt8 32)
  serializeXOnly := id
  evenPublicKey := id
  fromSecretKey := id
  toXOnly s := (s, false)
  negate := id
  sharedSecret p s := p.zipWith (· ^^^ ·) s

/-- The order of keys, byte by byte. -/
def Below (p q : Bytes32) : Prop := p.toList < q.toList

instance : DecidableRel Below := fun p q => inferInstanceAs (Decidable (p.toList < q.toList))

theorem Below.trans {p q r : Bytes32} (h : Below p q) (h' : Below q r) : Below p r :=
  List.lt_trans h h'

end KeryxMiner.Private
