import AetherLite.Hint.HintPacket

/-! What a hint says to those who hold its key. -/
set_option autoImplicit false

namespace Hint

def mailboxNonceSize : Nat := 32

/-- Where the body is kept, decoded. -/
structure HintPayload where
  nonce : Bytes
  messageId : Nat
  timestamp : Nat
  nonce_length : nonce.length = mailboxNonceSize
  messageId_le : messageId ≤ maxSafeNat
  timestamp_le : timestamp ≤ maxSafeNat

theorem HintPayload.eq_iff {a b : HintPayload} : a = b ↔
    a.nonce = b.nonce ∧ a.messageId = b.messageId ∧ a.timestamp = b.timestamp := by
  cases a
  cases b
  simp

instance : DecidableEq HintPayload := fun _ _ => decidable_of_iff _ HintPayload.eq_iff.symm

/-- The two functions of libsodium: `auth message key` and
`decrypt ciphertext nonce key`. -/
structure Primitives where
  auth : Bytes → Bytes → Bytes
  decrypt : Bytes → Bytes → Bytes → Option Bytes

/-- "aether_hint_v1" -/
def hintKeyDomain : Bytes :=
  [0x61,0x65,0x74,0x68,0x65,0x72,0x5f,0x68,0x69,0x6e,0x74,0x5f,0x76,0x31]

def decodeHintPayload (bs : Bytes) : Option HintPayload :=
  if hl : bs.length = hintPlaintextSize then
    if hm : Bytes.toNat ((bs.drop mailboxNonceSize).take 8) ≤ maxSafeNat then
      if ht : Bytes.toNat ((bs.drop (mailboxNonceSize+8)).take 8) ≤ maxSafeNat then
        some {
          nonce := bs.take mailboxNonceSize
          messageId := Bytes.toNat ((bs.drop mailboxNonceSize).take 8)
          timestamp := Bytes.toNat ((bs.drop (mailboxNonceSize+8)).take 8)
          nonce_length := by simp [hl,hintPlaintextSize,mailboxNonceSize]
          messageId_le := hm
          timestamp_le := ht }
      else none
    else none
  else none

section
variable (c : Primitives)

def deriveHintKey (k : Bytes) : Bytes := c.auth hintKeyDomain k

def computeBlindTag (k nonce : Bytes) : Bytes := (c.auth nonce k).take blindTagSize

/-- The tag only sorts out most of the keys; what counts is the decryption. -/
def openHint (k : Bytes) (h : HintPacket) : Option HintPayload :=
  if computeBlindTag c k h.nonce = h.blindTag then
    (c.decrypt h.ciphertext h.nonce (deriveHintKey c k)).bind decodeHintPayload
  else none

end

/-- A stand-in for libsodium: a hint opens under the key of four bytes that it has for a
tag and that follows the payload in its ciphertext. -/
def sample : Primitives where
  auth _ key := key
  decrypt ciphertext _ key :=
    if (ciphertext.drop hintPlaintextSize).take blindTagSize = key then
      some (ciphertext.take hintPlaintextSize)
    else none

end Hint
