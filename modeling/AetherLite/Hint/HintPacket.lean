import AetherLite.Crypto.PowPolicy

/-! Hints, the index entries of the mailbox, and the slots they are stored in. -/
set_option autoImplicit false

namespace Hint

open PowPolicy

def hintVersion : Nat := 1
def blindTagSize : Nat := 4
def hintNonceSize : Nat := 12
def hintPlaintextSize : Nat := 48
def hintCiphertextSize : Nat := hintPlaintextSize+16
def hintInitialTtl : Nat := 8
def hintPowDifficulty : Nat := 12
def maxSafeNat : Nat := 9007199254740991

/-- "AETHER/v3/hint__" -/
def hintDomain : Bytes :=
  [0x41,0x45,0x54,0x48,0x45,0x52,0x2f,0x76,0x33,0x2f,0x68,0x69,0x6e,0x74,0x5f,0x5f]

/-- A hint as `parseHintPacket` lets it through; its version is `hintVersion`. -/
structure HintPacket where
  ttl : Nat
  blindTag : Bytes
  nonce : Bytes
  powNonce : Nat
  ciphertext : Bytes
  ttl_le : ttl ≤ 255
  blindTag_length : blindTag.length = blindTagSize
  nonce_length : nonce.length = hintNonceSize
  powNonce_le : powNonce ≤ maxSafeNat
  ciphertext_length : ciphertext.length = hintCiphertextSize
  deriving DecidableEq

theorem hintInitialTtl_le : hintInitialTtl ≤ 255 := by decide

theorem zeroNonce_length : (List.replicate 12 (0 : UInt8)).length = hintNonceSize := rfl

/-- The bytes the id and the proof of work commit to: neither the ttl nor the
proof-of-work nonce. -/
def hintPreimage (h : HintPacket) : Bytes :=
  hintDomain ++ Bytes.bigEndian 1 hintVersion ++ h.blindTag ++ h.nonce ++
    Bytes.lengthPrefixed 4 h.ciphertext

def hintId (sha256 : Bytes → Bytes) (h : HintPacket) : String :=
  Bytes.toHex (sha256 (hintPreimage h))

def verifyHintPow (sha256 : Bytes → Bytes) (h : HintPacket) : Bool :=
  meetsDifficulty (sha256 (hintPreimage h ++ Bytes.bigEndian 8 h.powNonce)) hintPowDifficulty

def encodedHintSize : Nat := 1+1+blindTagSize+hintNonceSize+8+hintCiphertextSize

def encodeHint (h : HintPacket) : Bytes :=
  Bytes.bigEndian 1 hintVersion ++ Bytes.bigEndian 1 h.ttl ++ h.blindTag ++ h.nonce ++
    Bytes.bigEndian 8 h.powNonce ++ h.ciphertext

/-- The fields are cut at fixed places; the version and the proof-of-work nonce are
what can be refused. -/
def decodeHint (bs : Bytes) : Option HintPacket :=
  if hl : bs.length = encodedHintSize then
    if Bytes.toNat (bs.take 1) = hintVersion then
      if hp : Bytes.toNat ((bs.drop 18).take 8) ≤ maxSafeNat then
        some {
          ttl := (bs.getD 1 0).toNat
          blindTag := (bs.drop 2).take 4
          nonce := (bs.drop 6).take 12
          powNonce := Bytes.toNat ((bs.drop 18).take 8)
          ciphertext := bs.drop 26
          ttl_le := Nat.le_of_lt_succ (bs.getD 1 0).toNat_lt
          blindTag_length := by simp [hl,encodedHintSize,hintCiphertextSize,hintPlaintextSize,
            blindTagSize,hintNonceSize]
          nonce_length := by simp [hl,encodedHintSize,hintCiphertextSize,hintPlaintextSize,
            blindTagSize,hintNonceSize]
          powNonce_le := hp
          ciphertext_length := by simp [hl,encodedHintSize,hintCiphertextSize,hintPlaintextSize,
            blindTagSize,hintNonceSize] }
      else none
    else none
  else none

structure SlotBlob where
  hint : HintPacket
  body : Bytes

def encodeSlotBlob (hint : HintPacket) (body : Bytes) : Bytes :=
  Bytes.lengthPrefixed 4 (encodeHint hint) ++ body

def decodeSlotBlob (bs : Bytes) : Option SlotBlob :=
  if bs.length < 4 then none
  else if Bytes.toNat (bs.take 4) ≠ encodedHintSize then none
  else if bs.length < 4+encodedHintSize then none
  else (decodeHint ((bs.drop 4).take encodedHintSize)).map fun hint =>
    ⟨hint,bs.drop (4+encodedHintSize)⟩

end Hint
