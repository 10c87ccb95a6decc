import Mathlib.Data.List.Basic

/-!
# Authenticated encryption

Encryption of a message under a key and a nonce, together with associated data. What is sealed opens
under its own key, nonce and data (`Correct`), and a sealed message is bound if it opens under no
other key or data (`Bound`).
-/

namespace KeryxMiner

structure Aead (Key Nonce : Type) where
  encrypt : Key → Nonce → (msg aad : List UInt8) → Option (List UInt8)
  decrypt : Key → Nonce → (msg aad : List UInt8) → Option (List UInt8)

namespace Aead

variable {Key Nonce : Type}

/-- Every message is sealed into a longer one, by `tagLen`, that opens to it. -/
def Correct (cipher : Aead Key Nonce) (tagLen : Nat) : Prop :=
  ∀ key nonce msg aad, ∃ c, cipher.encrypt key nonce msg aad = some c ∧
    c.length = msg.length + tagLen ∧ cipher.decrypt key nonce c aad = some msg

/-- The sealed message does not open under another key or with other data. -/
def Bound (cipher : Aead Key Nonce) (key : Key) (nonce : Nonce) (msg aad : List UInt8) : Prop :=
  ∀ c, cipher.encrypt key nonce msg aad = some c → ∀ key' aad',
    (cipher.decrypt key' nonce c aad').isSome → key' = key ∧ aad' = aad

variable {cipher : Aead Key Nonce} {key key' : Key} {nonce : Nonce} {msg aad aad' c : List UInt8}

theorem Bound.decrypt_none (h : cipher.Bound key nonce msg aad)
    (hc : cipher.encrypt key nonce msg aad = some c) (hne : ¬(key' = key ∧ aad' = aad)) :
    cipher.decrypt key' nonce c aad' = none := by
  cases hd : cipher.decrypt key' nonce c aad' with
  | none => rfl
  | some m => exact absurd (h c hc key' aad' (by rw [hd, Option.isSome_some])) hne

/-! ## A cipher that tags -/

/-- The cipher that appends a tag of the key and the data to the message. -/
def tagging (tag : Key → List UInt8 → List UInt8) : Aead Key Nonce where
  encrypt key _ msg aad := some (msg ++ tag key aad)
  decrypt key _ c aad :=
    if c.drop (c.length - (tag key aad).length) = tag key aad then
      some (c.take (c.length - (tag key aad).length))
    else none

variable {tag : Key → List UInt8 → List UInt8} {tagLen : Nat}

theorem tagging_correct (h : ∀ key aad, (tag key aad).length = tagLen) :
    (tagging tag : Aead Key Nonce).Correct tagLen := by
  intro key nonce msg aad
  have hlen : (msg ++ tag key aad).length - (tag key aad).length = msg.length := by
    rw [List.length_append, Nat.add_sub_cancel]
  refine ⟨msg ++ tag key aad, rfl, by rw [List.length_append, h], ?_⟩
  simp only [tagging, hlen, List.drop_left, List.take_left, if_true]

/-- A tag that no other key or data has binds what it is appended to. -/
theorem tagging_bound (h : ∀ key aad, (tag key aad).length = tagLen)
    (hinj : ∀ key' aad', tag key' aad' = tag key aad → key' = key ∧ aad' = aad) :
    (tagging tag : Aead Key Nonce).Bound key nonce msg aad := by
  intro c hc key' aad' hopen
  obtain rfl := Option.some.inj hc
  have hlen : (msg ++ tag key aad).length - (tag key' aad').length = msg.length := by
    rw [List.length_append, h, h, Nat.add_sub_cancel]
  simp only [tagging, hlen, List.drop_left] at hopen
  split at hopen
  · next heq => exact hinj key' aad' heq.symm
  · cases hopen

end Aead

end KeryxMiner
