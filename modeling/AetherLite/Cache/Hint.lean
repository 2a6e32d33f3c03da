import AetherLite.Cache.Pow

/-! Hints on the cache node, which relays and stores them without a key. -/
set_option autoImplicit false

namespace Cache

def blindTagSize : Nat := 4
def hintNonceSize : Nat := 12
def hintCiphertextSize : Nat := 64
def hintVersion : UInt8 := 1
def hintPowDifficulty : UInt32 := 12

/-- `b"AETHER/v3/hint__"` -/
def hintDomain : Bytes :=
  [0x41,0x45,0x54,0x48,0x45,0x52,0x2f,0x76,0x33,0x2f,0x68,0x69,0x6e,0x74,0x5f,0x5f]

inductive HintReject where
  | version
  | blindTagSize
  | nonceSize
  | ciphertextSize
  | pow
  deriving DecidableEq

structure HintView where
  version : UInt8
  blindTag : Bytes
  nonce : Bytes
  powNonce : UInt64
  ciphertext : Bytes

namespace HintView

def preimage (h : HintView) : Option Bytes :=
  if h.blindTag.length ≠ blindTagSize then none
  else if h.nonce.length ≠ hintNonceSize then none
  else if h.ciphertext.length > 0xffffffff then none
  else some (hintDomain ++ [h.version] ++ h.blindTag ++ h.nonce ++
    Bytes.bigEndian 4 h.ciphertext.length ++ h.ciphertext)

section
variable (sha256 : Bytes → Bytes)

def check (h : HintView) (difficulty : UInt32) : Except HintReject Unit :=
  if h.version ≠ hintVersion then .error .version
  else if h.blindTag.length ≠ blindTagSize then .error .blindTagSize
  else if h.nonce.length ≠ hintNonceSize then .error .nonceSize
  else if h.ciphertext.length ≠ hintCiphertextSize then .error .ciphertextSize
  else if difficulty > 0 then
    match preimage h with
    | none => .error .ciphertextSize
    | some pre =>
      if meetsDifficulty (powHash sha256 pre h.powNonce) difficulty then .ok () else .error .pow
  else .ok ()

end

theorem check_ok {sha256 : Bytes → Bytes} {h : HintView} {difficulty : UInt32}
    (hd : difficulty > 0) : h.check sha256 difficulty = .ok () ↔
      h.version = hintVersion ∧ h.blindTag.length = blindTagSize ∧ h.nonce.length = hintNonceSize ∧
        h.ciphertext.length = hintCiphertextSize ∧ ∃ pre, h.preimage = some pre ∧
          meetsDifficulty (powHash sha256 pre h.powNonce) difficulty = true := by
  unfold check
  by_cases hv : h.version = hintVersion
  · by_cases ht : h.blindTag.length = blindTagSize
    · by_cases hn : h.nonce.length = hintNonceSize
      · by_cases hc : h.ciphertext.length = hintCiphertextSize
        · cases hp : h.preimage with
          | none => simp [hv,ht,hn,hc,hd]
          | some pre => simp [hv,ht,hn,hc,hd]
        · simp [hv,ht,hn,hc]
      · simp [hv,ht,hn]
    · simp [hv,ht]
  · simp [hv]

end HintView

def encodedHintSize : Nat := 1+1+blindTagSize+hintNonceSize+8+hintCiphertextSize

/-- A stored hint, with its ttl, and the body stored with it. -/
structure SlotBlob where
  ttl : UInt8
  hint : HintView
  body : Bytes

/-- The fields are cut at fixed places, whatever they hold. -/
def decodeSlot (bs : Bytes) : Option SlotBlob :=
  if bs.length < 4 then none
  else
    let hintLen := Bytes.toNat (bs.take 4)
    if hintLen ≠ encodedHintSize || bs.length < 4+hintLen then none
    else
      let h := (bs.drop 4).take hintLen
      some {
        ttl := h.getD 1 0
        hint := {
          version := h.getD 0 0
          blindTag := (h.drop 2).take blindTagSize
          nonce := (h.drop 6).take hintNonceSize
          powNonce := UInt64.ofNat (Bytes.toNat ((h.drop 18).take 8))
          ciphertext := h.drop 26 }
        body := bs.drop (4+hintLen) }

end Cache
